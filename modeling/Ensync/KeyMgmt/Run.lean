import Ensync.KeyMgmt.Edits

/-!
# Runs of the key store

A run starts with `init_keys` and continues with any sequence of calls, each of
which commits its edit when it succeeds and leaves the list as it read it when it
fails (the transaction layer's guarantee, `Ensync.KeyMgmt.Tx`). Beside the list a
run carries, as ghost state, the passphrase that last set each entry.

* `Inductive.invariant` — a property that holds after `init_keys` and is kept
  by every successful call holds in every reachable state;
* `Reachable.run` — every run of calls from a reachable state stays reachable;
* `carries_insert`, `carries_of_get` — the set of carried groups, read through
  the one entry an edit changes.
-/

namespace Ensync.KeyMgmt

open BTreeMap

variable {P : Primitives}

/-- The passphrase that last set each entry: ghost state of a run. -/
abbrev Phrases := String → Bytes

/-- The entry a call sets a passphrase on, and the passphrase, when it succeeds: `add_key`'s
new entry and `change_key`'s target. -/
def Op.setsPhrase : Op → KdfList → Option (String × Bytes)
  | .addKey _ _ _ new name, _ => some (name, new)
  | .changeKey _ _ _ new name _, l =>
    match changeKeyTarget name l.keys with
    | .ok realName => some (realName, new)
    | .error _ => none
  | _, _ => none

/-- The ghost state after a successful call. -/
def Op.phrases (op : Op) (l : KdfList) (ph : Phrases) : Phrases :=
  match op.setsPhrase l with
  | some (n, p) => Function.update ph n p
  | none => ph

variable (P) in
/-- One call: the list it commits when it succeeds, the list it read when it fails. -/
def Op.step (op : Op) (l : KdfList) (ph : Phrases) : KdfList × Phrases :=
  match op.edit P l with
  | .ok l' => (l', op.phrases l ph)
  | .error _ => (l, ph)

variable (P) in
/-- The states of the runs that start with `init_keys`. -/
inductive Reachable : KdfList → Phrases → Prop
  | init (salt : HashId) (now : DateTime) (everyone root : InternalKey) (passphrase : Bytes)
      (keyName : String) (ph : Phrases) :
      Reachable (initKeysList P salt now everyone root passphrase keyName)
        (Function.update ph keyName passphrase)
  | step {l : KdfList} {ph : Phrases} (op : Op) :
      Reachable l ph → Reachable (op.step P l ph).1 (op.step P l ph).2

variable (P) in
/-- A property of the list and the ghost state established by `init_keys` and kept by every
successful call. -/
structure Inductive (I : KdfList → Phrases → Prop) : Prop where
  init : ∀ (salt : HashId) (now : DateTime) (everyone root : InternalKey) (passphrase : Bytes)
    (keyName : String) (ph : Phrases),
    I (initKeysList P salt now everyone root passphrase keyName)
      (Function.update ph keyName passphrase)
  step : ∀ (l : KdfList) (ph : Phrases) (op : Op) (l' : KdfList), Reachable P l ph → I l ph →
    op.edit P l = .ok l' → I l' (op.phrases l ph)

/-- An inductive property holds in every reachable state. -/
theorem Inductive.invariant {I : KdfList → Phrases → Prop} (hI : Inductive P I)
    {l : KdfList} {ph : Phrases} (h : Reachable P l ph) : I l ph := by
  induction h with
  | init => exact hI.init ..
  | step op hr ih =>
    unfold Op.step
    split
    · exact hI.step _ _ op _ hr ih ‹_›
    · exact ih

variable (P) in
/-- A run: the calls applied in turn. -/
def run : List Op → KdfList × Phrases → KdfList × Phrases
  | [], s => s
  | op :: ops, (l, ph) => run ops (op.step P l ph)

theorem run_append (ops₁ ops₂ : List Op) :
    ∀ s : KdfList × Phrases, run P (ops₁ ++ ops₂) s = run P ops₂ (run P ops₁ s) := by
  induction ops₁ with
  | nil => intro; rfl
  | cons op ops ih => rintro ⟨l, ph⟩; exact ih _

/-- A run from a reachable state reaches a reachable state. -/
theorem Reachable.run {l : KdfList} {ph : Phrases} (h : Reachable P l ph) :
    ∀ ops, Reachable P (run P ops (l, ph)).1 (run P ops (l, ph)).2 := by
  intro ops
  induction ops generalizing l ph with
  | nil => exact h
  | cons op ops ih => exact ih (.step op h)

theorem Op.step_of_edit {op : Op} {l l' : KdfList} (h : op.edit P l = .ok l') (ph : Phrases) :
    op.step P l ph = (l', op.phrases l ph) := by
  simp [Op.step, h]

/-! ## Group sets -/

@[simp] theorem containsKey_eq {α : Type} (m : BTreeMap String α) (k : String) :
    m.containsKey k = (m.get? k).isSome := rfl

theorem firstMatch_eq_some {passphrase : Bytes} {keys : BTreeMap String KdfEntry}
    {n : String} {e : KdfEntry} {c : KeyChain}
    (h : firstMatch P passphrase keys = some (n, e, c)) :
    keys.get? n = some e ∧ tryDeriveKeySingle P passphrase e = some c := by
  obtain ⟨n', e', he', hf⟩ := findSome?_eq_some h
  simp only [Option.map_eq_some', Prod.mk.injEq] at hf
  obtain ⟨c', hc', rfl, rfl, rfl⟩ := hf
  exact ⟨he', hc'⟩

theorem carries_insert (keys : BTreeMap String KdfEntry) (n : String) (e : KdfEntry)
    (g : String) : carries (keys.insert n e) g = true ↔
      e.groups.containsKey g = true ∨ carries (keys.erase n) g = true := by
  simp only [carries_iff, get?_insert, get?_erase]
  constructor
  · rintro ⟨m, e', he', hg⟩
    by_cases hm : m = n
    · simp only [hm, if_true, Option.some.injEq] at he'; exact .inl (he' ▸ hg)
    · exact .inr ⟨m, e', by simpa [hm] using he', hg⟩
  · rintro (hg | ⟨m, e', he', hg⟩)
    · exact ⟨n, e, by simp, hg⟩
    · by_cases hm : m = n
      · simp [hm] at he'
      · exact ⟨m, e', by simpa [hm] using he', hg⟩

theorem carries_of_get {keys : BTreeMap String KdfEntry} {n : String} {e : KdfEntry}
    (he : keys.get? n = some e) (g : String) : carries keys g = true ↔
      e.groups.containsKey g = true ∨ carries (keys.erase n) g = true := by
  have : keys.insert n e = keys := ext fun m => by
    by_cases hm : m = n <;> simp [hm, he]
  rw [← carries_insert, this]

theorem erase_erase (keys : BTreeMap String KdfEntry) (n : String) :
    (keys.erase n).erase n = keys.erase n :=
  ext fun m => by by_cases hm : m = n <;> simp [hm]

theorem erase_of_get_none {keys : BTreeMap String KdfEntry} {n : String}
    (h : keys.get? n = none) : keys.erase n = keys :=
  ext fun m => by by_cases hm : m = n <;> simp [hm, h]

theorem carries_of_erase {keys : BTreeMap String KdfEntry} {n g : String}
    (h : carries (keys.erase n) g = true) : carries keys g = true := by
  obtain ⟨m, e, he, hg⟩ := carries_iff.mp h
  by_cases hm : m = n
  · simp [hm] at he
  · exact carries_iff.mpr ⟨m, e, by simpa [hm] using he, hg⟩

end Ensync.KeyMgmt
