import Ensync.Fourleaf
import Ensync.Io

/-!
# The KDF list and key derivation

The registry `keymgmt.rs` edits: `KdfList`, a map from entry name to
`KdfEntry`, each entry holding a salt, the hash of the derived key and, per
group, the group's internal key XORed with the derived key. `keymgmt.rs` is
written against the version of `crypt.rs` with per-group wraps (`groups`,
`KeyChain`, `InternalKey`, `reassoc_keys`, `GROUP_EVERYONE`, `GROUP_ROOT`), which
is not under src/: those parts are modelled from the spec (§3, §4.3.2, §4.3.3,
§4.4 "Rewrapping"), and the derivation steps shared with the `crypt.rs` under
src/ follow that file.

* `matchKey_eq_some` — a passphrase matches an entry exactly when the entry's
  algorithm is scrypt and its hash is the hash of the derived key;
* `unwrapChain_createKey` — unwrapping a fresh entry with its passphrase's
  derived key gives back the chain it was created from.
-/

namespace Ensync

/-- `chrono::DateTime<UTC>` as its timestamp: seconds since the epoch and nanoseconds within
the second, below `2·10^9` (a leap second runs past `10^9`). chrono's dates run from
1 January of year -262144 to 31 December of 262143 (`MIN_YEAR`, `MAX_YEAR`), days -96465658
to 95026601 from the epoch, which bounds the seconds. -/
structure DateTime where
  secs : Int
  nanos : Fin 2000000000
  secs_range : -8334632851200 ≤ secs ∧ secs ≤ 8210298412799
  deriving DecidableEq

/-- The Unix epoch. -/
def DateTime.epoch : DateTime := ⟨0, 0, by decide⟩

/-- `ErrorKind` of `errors.rs`, the variants the key layer raises. -/
inductive ErrorKind
  | io (e : IoError)
  | serialization
  | kdfListNotExists
  | kdfListAlreadyExists
  | passphraseNotInKdfList
  | keyNotInKdfList (name : String)
  | keyNameAlreadyInUse (name : String)
  | groupNotInKdfList (name : String)
  | groupNameAlreadyInUse (name : String)
  | keyAlreadyInGroup (name : String)
  | keyNotInGroup (name : String)
  | cannotDisassocGroup (name : String)
  | cannotDestroyGroup (name : String)
  | wouldRemoveLastKdfEntry
  | wouldDisassocLastKeyFromGroup (key group : String)
  | anonChangeKeyButMultipleKdfEntries
  | changeKeyWithPassphraseMismatch
  | tooManyTxRetries
  deriving DecidableEq

/-- `SCRYPT_18_8_1`, the one algorithm name. -/
def scrypt1881 : String := "scrypt-18-8-1"

/-- Modelled from the spec: `GROUP_EVERYONE`, the group every entry carries. -/
def groupEveryone : String := "everyone"

/-- Modelled from the spec: `GROUP_ROOT`, the other built-in group. -/
def groupRoot : String := "root"

/-- Modelled from the spec: an `InternalKey`, 32 bytes of key material of one group. -/
abbrev InternalKey := HashId

/-- `KdfEntry` with per-group wraps: `groups` maps a group name to the group's internal key
XORed with the entry's derived key. -/
structure KdfEntry where
  created : DateTime
  updated : Option DateTime
  used : Option DateTime
  algorithm : String
  salt : HashId
  hash : HashId
  groups : BTreeMap String HashId
  deriving DecidableEq

/-- `KdfList`: the entries by name, and the fields of the stored struct this version does not
know, which fourleaf keeps and writes back (`unknown`, empty from `init_keys`); none of them
has the tag of `keys`. -/
structure KdfList where
  keys : BTreeMap String KdfEntry
  unknown : List (Nat × Fourleaf.Value)
  unknown_tags : ∀ f ∈ unknown, f.1 ≠ 1

/-- Modelled from the spec: a `KeyChain`, the internal keys by group name. -/
structure KeyChain where
  keys : BTreeMap String InternalKey
  deriving DecidableEq

namespace KeyChain

/-- Modelled from the spec: `KeyChain::empty()`. -/
def empty : KeyChain := ⟨.empty⟩

/-- Modelled from the spec: `KeyChain::generate_new()`, fresh keys for `everyone` and
`root`, drawn by the caller. -/
def generateNew (everyone root : InternalKey) : KeyChain :=
  ⟨(BTreeMap.empty.insert groupEveryone everyone).insert groupRoot root⟩

/-- Modelled from the spec: `key_chain.key(group)`, failing with `KeyNotInGroup`. -/
def key (c : KeyChain) (group : String) : Except ErrorKind InternalKey :=
  match c.keys.get? group with
  | some k => .ok k
  | none => .error (.keyNotInGroup group)

end KeyChain

variable (P : Primitives)

/-- Modelled from the spec: `create_key(passphrase, chain, created, updated, used)` with the
salt it draws; every group of the chain is wrapped with the derived key (§4.3.2). -/
def createKey (salt : HashId) (passphrase : Bytes) (chain : KeyChain) (created : DateTime)
    (updated used : Option DateTime) : KdfEntry :=
  let derived := P.scrypt passphrase salt
  { created, updated, used, algorithm := scrypt1881, salt, hash := P.sha3 derived.bytes,
    groups := chain.keys.mapValues (hixor derived) }

/-- Steps 1–3 of `try_derive_key_single`: the derived key, when the algorithm is known and
the derived key hashes to the entry's `hash`. -/
def matchKey (passphrase : Bytes) (entry : KdfEntry) : Option HashId :=
  (if entry.algorithm = scrypt1881 then some (P.scrypt passphrase entry.salt) else none).bind
    fun derived => if P.sha3 derived.bytes = entry.hash then some derived else none

/-- Modelled from the spec: step 4 of `try_derive_key_single`, every group's wrap XORed with
the derived key. -/
def unwrapChain (entry : KdfEntry) (derived : HashId) : KeyChain :=
  ⟨entry.groups.mapValues (hixor derived)⟩

/-- `try_derive_key_single(passphrase, entry)`, returning the entry's key chain. -/
def tryDeriveKeySingle (passphrase : Bytes) (entry : KdfEntry) : Option KeyChain :=
  (matchKey P passphrase entry).map (unwrapChain entry)

/-- `try_derive_key(passphrase, keys)`: the chain of the first entry, in name order, the
passphrase matches. -/
def tryDeriveKey (passphrase : Bytes) (keys : BTreeMap String KdfEntry) : Option KeyChain :=
  keys.findSome? fun _ e => tryDeriveKeySingle P passphrase e

/-- Modelled from the spec: `reassoc_keys(entry, chain)`, rewrapping the entry's group set to
the chain's with the entry's existing derived key. -/
def reassocKeys (derived : HashId) (entry : KdfEntry) (chain : KeyChain) : KdfEntry :=
  { entry with groups := chain.keys.mapValues (hixor derived) }

/-! ## Derivation lemmas -/

variable {P}

theorem matchKey_eq_some {passphrase : Bytes} {entry : KdfEntry} {derived : HashId} :
    matchKey P passphrase entry = some derived ↔
      entry.algorithm = scrypt1881 ∧ derived = P.scrypt passphrase entry.salt ∧
        P.sha3 derived.bytes = entry.hash := by
  unfold matchKey
  by_cases ha : entry.algorithm = scrypt1881
  · by_cases hh : P.sha3 (P.scrypt passphrase entry.salt).bytes = entry.hash
    · simp only [ha, if_true, Option.some_bind, hh, Option.some.injEq, true_and]
      exact ⟨fun h => ⟨h.symm, h ▸ hh⟩, fun h => h.1.symm⟩
    · simp only [ha, if_true, Option.some_bind, hh, if_false, true_and, reduceCtorEq, false_iff]
      rintro ⟨rfl, h⟩; exact hh h
  · simp [ha]

/-- A fresh entry is matched by its passphrase, with that passphrase's derived key. -/
theorem matchKey_createKey (salt : HashId) (passphrase : Bytes) (chain : KeyChain)
    (created : DateTime) (updated used : Option DateTime) :
    matchKey P passphrase (createKey P salt passphrase chain created updated used) =
      some (P.scrypt passphrase salt) :=
  matchKey_eq_some.mpr ⟨rfl, rfl, rfl⟩

@[simp] theorem createKey_groups (salt : HashId) (passphrase : Bytes) (chain : KeyChain)
    (created : DateTime) (updated used : Option DateTime) :
    (createKey P salt passphrase chain created updated used).groups =
      chain.keys.mapValues (hixor (P.scrypt passphrase salt)) := rfl

@[simp] theorem createKey_salt (salt : HashId) (passphrase : Bytes) (chain : KeyChain)
    (created : DateTime) (updated used : Option DateTime) :
    (createKey P salt passphrase chain created updated used).salt = salt := rfl

@[simp] theorem reassocKeys_salt (derived : HashId) (entry : KdfEntry) (chain : KeyChain) :
    (reassocKeys derived entry chain).salt = entry.salt := rfl

@[simp] theorem reassocKeys_groups (derived : HashId) (entry : KdfEntry) (chain : KeyChain) :
    (reassocKeys derived entry chain).groups = chain.keys.mapValues (hixor derived) := rfl

@[simp] theorem get?_unwrapChain (entry : KdfEntry) (derived : HashId) (g : String) :
    (unwrapChain entry derived).keys.get? g = (entry.groups.get? g).map (hixor derived) :=
  BTreeMap.get?_mapValues _ _ _

/-- Unwrapping a fresh entry with its passphrase's derived key gives back its chain. -/
theorem unwrapChain_createKey (salt : HashId) (passphrase : Bytes) (chain : KeyChain)
    (created : DateTime) (updated used : Option DateTime) :
    unwrapChain (createKey P salt passphrase chain created updated used)
      (P.scrypt passphrase salt) = chain := by
  cases chain
  simp only [unwrapChain, KeyChain.mk.injEq]
  exact BTreeMap.ext fun g => by simp [Option.map_map, Function.comp_def]

theorem tryDeriveKeySingle_eq_some {passphrase : Bytes} {entry : KdfEntry} {c : KeyChain} :
    tryDeriveKeySingle P passphrase entry = some c ↔
      ∃ derived, matchKey P passphrase entry = some derived ∧
        c = unwrapChain entry derived := by
  simp [tryDeriveKeySingle, Option.map_eq_some', eq_comm]

theorem tryDeriveKey_eq_some {passphrase : Bytes} {keys : BTreeMap String KdfEntry}
    {c : KeyChain} (h : tryDeriveKey P passphrase keys = some c) :
    ∃ n e, keys.get? n = some e ∧ tryDeriveKeySingle P passphrase e = some c :=
  BTreeMap.findSome?_eq_some h

theorem key_eq_ok {c : KeyChain} {g : String} {k : InternalKey} :
    c.key g = .ok k ↔ c.keys.get? g = some k := by
  unfold KeyChain.key; split <;> simp_all

end Ensync
