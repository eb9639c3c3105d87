import Ensync.Kdf

/-!
# The master-key wrap of `crypt.rs`

The key derivation of the `crypt.rs` under src/: a `KdfEntry` holds a salt, the hash of the
key scrypt derives from the passphrase and salt, and the master key XORed with that derived
key (`master_diff`). `keymgmt.rs` is written against the later version with per-group wraps
(`Ensync.KdfEntry`); this one is modelled as the file has it.

* `tryDeriveKeySingle_createKey` — an entry made from a passphrase gives back its master
  key to that passphrase;
* `master_of_tryDeriveKeySingle` — with SHA-3 injective on 32-byte inputs, an entry made for
  a master key gives no other key to any passphrase;
* `tryDeriveKey_createKey` — the round trip over a map of entries all made for one master
  key.
-/

namespace Ensync.Crypt

/-- `MasterKey`: the 32 bytes the object and directory keys are cut from. -/
structure MasterKey where
  key : HashId
  deriving DecidableEq

/-- `KdfEntry`: the master key XORed with the derived key (`master_diff`). -/
structure KdfEntry where
  created : DateTime
  updated : Option DateTime
  used : Option DateTime
  algorithm : String
  salt : HashId
  hash : HashId
  masterDiff : HashId
  deriving DecidableEq

variable (P : Primitives)

/-- `create_key(passphrase, master, created, updated, used)`, with the salt `rand` drew. -/
def createKey (salt : HashId) (passphrase : Bytes) (master : MasterKey) (created : DateTime)
    (updated used : Option DateTime) : KdfEntry :=
  let derived := P.scrypt passphrase salt
  { created, updated, used, algorithm := scrypt1881, salt, hash := P.sha3 derived.bytes,
    masterDiff := hixor derived master.key }

/-- `try_derive_key_single(passphrase, entry)`. -/
def tryDeriveKeySingle (passphrase : Bytes) (entry : KdfEntry) : Option MasterKey :=
  (if entry.algorithm = scrypt1881 then some (P.scrypt passphrase entry.salt) else none).bind
    fun derived =>
      if P.sha3 derived.bytes = entry.hash then some ⟨hixor derived entry.masterDiff⟩ else none

/-- `try_derive_key(passphrase, keys)`: the key of the first entry, in name order, that gives
one. -/
def tryDeriveKey (passphrase : Bytes) (keys : BTreeMap String KdfEntry) : Option MasterKey :=
  keys.findSome? fun _ e => tryDeriveKeySingle P passphrase e

/-- Every entry of `keys` was made by `create_key` for the master key `master`. -/
def AllFor (master : MasterKey) (keys : BTreeMap String KdfEntry) : Prop :=
  ∀ n e, keys.get? n = some e →
    ∃ salt passphrase created updated used,
      e = createKey P salt passphrase master created updated used

variable {P}

theorem tryDeriveKeySingle_eq_some {passphrase : Bytes} {entry : KdfEntry} {k : MasterKey} :
    tryDeriveKeySingle P passphrase entry = some k ↔
      entry.algorithm = scrypt1881 ∧
        P.sha3 (P.scrypt passphrase entry.salt).bytes = entry.hash ∧
        k = ⟨hixor (P.scrypt passphrase entry.salt) entry.masterDiff⟩ := by
  unfold tryDeriveKeySingle
  by_cases ha : entry.algorithm = scrypt1881
  · by_cases hh : P.sha3 (P.scrypt passphrase entry.salt).bytes = entry.hash
    · simp [ha, hh, eq_comm]
    · simp [ha, hh]
  · simp [ha]

/-- An entry made from a passphrase gives back its master key to that passphrase. -/
theorem tryDeriveKeySingle_createKey (salt : HashId) (passphrase : Bytes) (master : MasterKey)
    (created : DateTime) (updated used : Option DateTime) :
    tryDeriveKeySingle P passphrase (createKey P salt passphrase master created updated used) =
      some master :=
  tryDeriveKeySingle_eq_some.mpr ⟨rfl, rfl, by simp [createKey]⟩

section Injective

variable (hinj : ∀ a b : HashId, P.sha3 a.bytes = P.sha3 b.bytes → a = b)
include hinj

/-- With SHA-3 injective on 32-byte inputs, an entry made for a master key gives no other key
to any passphrase: one whose derived key passes the hash check derives the entry's own. -/
theorem master_of_tryDeriveKeySingle {salt : HashId} {passphrase passphrase' : Bytes}
    {master k : MasterKey} {created : DateTime} {updated used : Option DateTime}
    (h : tryDeriveKeySingle P passphrase'
      (createKey P salt passphrase master created updated used) = some k) :
    k = master := by
  obtain ⟨-, hh, rfl⟩ := tryDeriveKeySingle_eq_some.mp h
  simp only [createKey] at hh ⊢
  rw [hinj _ _ hh, hixor_hixor_cancel]

/-- With SHA-3 injective on 32-byte inputs, `try_derive_key` over entries all made for one
master key gives no other key. -/
theorem master_of_tryDeriveKey {master k : MasterKey} {keys : BTreeMap String KdfEntry}
    (hall : AllFor P master keys) {passphrase : Bytes}
    (h : tryDeriveKey P passphrase keys = some k) : k = master := by
  obtain ⟨n, e, hn, he⟩ := BTreeMap.findSome?_eq_some h
  obtain ⟨salt, p, created, updated, used, rfl⟩ := hall n e hn
  exact master_of_tryDeriveKeySingle hinj he

end Injective

/-- The passphrase wrap round trip: an entry made from a passphrase gives its master key back
to it; and, with SHA-3 injective on 32-byte inputs, over entries all made for one master key,
`try_derive_key` gives that key to the passphrase of any entry and no other key to any
passphrase. -/
theorem tryDeriveKey_createKey (P : Primitives) :
    (∀ salt passphrase master created updated used,
      tryDeriveKeySingle P passphrase (createKey P salt passphrase master created updated used) =
        some master) ∧
    ((∀ a b : HashId, P.sha3 a.bytes = P.sha3 b.bytes → a = b) →
      ∀ master keys, AllFor P master keys → ∀ passphrase,
        ((∃ n salt created updated used,
          keys.get? n = some (createKey P salt passphrase master created updated used)) →
          tryDeriveKey P passphrase keys = some master) ∧
        ∀ k, tryDeriveKey P passphrase keys = some k → k = master) := by
  refine ⟨tryDeriveKeySingle_createKey, fun hinj master keys hall passphrase =>
    ⟨fun ⟨n, salt, created, updated, used, hn⟩ => ?_,
      fun k => master_of_tryDeriveKey hinj hall⟩⟩
  cases h : tryDeriveKey P passphrase keys with
  | none =>
    have := BTreeMap.findSome?_eq_none.mp h n _ hn
    rw [tryDeriveKeySingle_createKey] at this
    cases this
  | some k => rw [master_of_tryDeriveKey hinj hall h]

theorem tryDeriveKey_createKey_plain :
    (∀ a b : HashId, Primitives.plain.sha3 a.bytes = Primitives.plain.sha3 b.bytes → a = b) ∧
    ∀ master keys, AllFor Primitives.plain master keys → ∀ passphrase,
      ((∃ n salt created updated used, keys.get? n =
          some (createKey Primitives.plain salt passphrase master created updated used)) →
        tryDeriveKey Primitives.plain passphrase keys = some master) ∧
      ∀ k, tryDeriveKey Primitives.plain passphrase keys = some k → k = master :=
  ⟨Primitives.plain_sha3_injective,
    (tryDeriveKey_createKey Primitives.plain).2 Primitives.plain_sha3_injective⟩

end Ensync.Crypt
