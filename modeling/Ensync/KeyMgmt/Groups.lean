import Ensync.KeyMgmt.Run

/-!
# Groups: no lockout

What every call does to the set of groups some entry carries, and the lockout
invariant of the KDF list.

* `Op.carriedStep_of_edit` — a successful call changes the carried groups only
  as `Op.CarriedStep` allows: `create_group` adds its names, none carried before;
  `destroy_group` removes its names, all carried before and neither built-in
  group; every other call keeps the set;
* `kdf_list_no_lockout` — in every reachable state the list has an entry, every
  entry carries `everyone`, `root` is carried, and every call changes the set of
  carried groups only as `Op.CarriedStep` allows;
* `group_lifecycle` — over any run, a group no call destroys stays carried, the built-in
  groups always do, and a group no call creates is carried after only if it was before.
-/

namespace Ensync.KeyMgmt

open BTreeMap

variable {P : Primitives}

/-- How a successful call may change the set of carried groups. -/
def Op.CarriedStep : Op → KdfList → KdfList → Prop
  | .createGroup _ _ names, l, l' =>
    (∀ g ∈ names, carries l.keys g = false) ∧
      ∀ g, carries l'.keys g = true ↔ carries l.keys g = true ∨ g ∈ names
  | .destroyGroup names, l, l' =>
    groupEveryone ∉ names ∧ groupRoot ∉ names ∧
      (∀ g ∈ names, carries l.keys g = true) ∧
      ∀ g, carries l'.keys g = true ↔ carries l.keys g = true ∧ g ∉ names
  | _, l, l' => ∀ g, carries l'.keys g = true ↔ carries l.keys g = true

/-- Every entry of `keys` carries `everyone`. -/
def AllEveryone (keys : BTreeMap String KdfEntry) : Prop :=
  ∀ n e, keys.get? n = some e → (e.groups.get? groupEveryone).isSome

/-- The lockout invariant: an entry exists, every entry carries `everyone`, and `root` is
carried. -/
structure NoLockout (l : KdfList) : Prop where
  nonempty : ∃ n e, l.keys.get? n = some e
  everyone : AllEveryone l.keys
  root : carries l.keys groupRoot = true

/-! ## Group sets of the entries a call writes -/

theorem isSome_get?_of_tryDeriveKeySingle {passphrase : Bytes} {e : KdfEntry} {c : KeyChain}
    (h : tryDeriveKeySingle P passphrase e = some c) (g : String) :
    (c.keys.get? g).isSome = (e.groups.get? g).isSome := by
  obtain ⟨d, -, rfl⟩ := tryDeriveKeySingle_eq_some.mp h
  simp

theorem isSome_get?_insertGenerated (fresh : Nat → InternalKey) (names : List String)
    (c : KeyChain) (g : String) :
    ((insertGenerated fresh names c).keys.get? g).isSome ↔
      g ∈ names ∨ (c.keys.get? g).isSome := by
  by_cases hg : g ∈ names
  · obtain ⟨k, hk⟩ := (insertGenerated_get? fresh names c g).2 hg
    simp [hk, hg]
  · simp [(insertGenerated_get? fresh names c g).1 hg, hg]

/-- The entry `assoc_group` writes carries the names and what the destination carried. -/
theorem isSome_get?_assocNames {srcChain c c' : KeyChain} {names : List String}
    (h : assocNames srcChain names c = .ok c') (g : String) :
    (c'.keys.get? g).isSome ↔ g ∈ names ∨ (c.keys.get? g).isSome := by
  obtain ⟨h₁, h₂⟩ := assocNames_ok h
  rw [h₂ g]
  by_cases hg : g ∈ names
  · simp [hg, (h₁ g hg).2]
  · simp [hg]

theorem isSome_get?_copyGroups {keyChain c : KeyChain} {e : KdfEntry}
    (h : copyGroups keyChain e.groups.keys .empty = .ok c) (g : String) :
    (c.keys.get? g).isSome = (e.groups.get? g).isSome := by
  obtain ⟨h₁, h₂⟩ := copyGroups_ok h
  rw [h₂ g]
  by_cases hg : g ∈ e.groups.keys
  · simp only [hg, if_true, h₁ g hg]
    obtain ⟨v, hv⟩ := mem_keys.mp hg; simp [hv]
  · simp only [hg, if_false]
    rw [mem_keys, not_exists] at hg
    cases hv : e.groups.get? g
    · rfl
    · exact absurd hv (hg _)

/-! ## Each call against `Op.CarriedStep` -/

section Step

variable {l l' : KdfList}

theorem carries_addKey {salt : HashId} {now : DateTime} {old new : Bytes} {name : String}
    (h : (Op.addKey salt now old new name).edit P l = .ok l') (g : String) :
    carries l'.keys g = true ↔ carries l.keys g = true := by
  obtain ⟨c, hc, hn, rfl⟩ := Op.addKey_edit_ok h
  obtain ⟨m, e, he, hce⟩ := tryDeriveKey_eq_some hc
  rw [carries_insert, erase_of_get_none hn]
  refine ⟨fun h' => h'.elim (fun hg => carries_iff.mpr ⟨m, e, he, ?_⟩) id, .inr⟩
  simpa [isSome_get?_of_tryDeriveKeySingle hce] using hg

theorem carries_delKey {name : String} (h : (Op.delKey name).edit P l = .ok l') (g : String) :
    carries l'.keys g = true ↔ carries l.keys g = true := by
  obtain ⟨e, he, -, hlast, rfl⟩ := Op.delKey_edit_ok h
  rw [carries_of_get he]
  refine ⟨.inr, fun h' => h'.elim (fun hg => hlast g ?_) id⟩
  obtain ⟨v, hv⟩ := Option.isSome_iff_exists.mp (by simpa using hg)
  exact mem_keys.mpr ⟨v, hv⟩

theorem carries_changeKey {salt : HashId} {now : DateTime} {old new : Bytes}
    {name : Option String} {allow : Bool}
    (h : (Op.changeKey salt now old new name allow).edit P l = .ok l') (g : String) :
    carries l'.keys g = true ↔ carries l.keys g = true := by
  obtain ⟨n, e, c, c', -, he, -, hcopy, rfl⟩ := Op.changeKey_edit_ok h
  rw [carries_insert, erase_erase, carries_of_get he]
  simp [isSome_get?_copyGroups hcopy]

theorem carries_deriveKeyChain {now : DateTime} {passphrase : Bytes}
    (h : (Op.deriveKeyChain now passphrase).edit P l = .ok l') (g : String) :
    carries l'.keys g = true ↔ carries l.keys g = true := by
  obtain ⟨n, e, _, hm, rfl⟩ := Op.deriveKeyChain_edit_ok h
  rw [carries_insert, carries_of_get (firstMatch_eq_some hm).1]

theorem carries_createGroup {fresh : Nat → InternalKey} {passphrase : Bytes}
    {names : List String} (h : (Op.createGroup fresh passphrase names).edit P l = .ok l')
    (g : String) : carries l'.keys g = true ↔ carries l.keys g = true ∨ g ∈ names := by
  obtain ⟨-, n, e, c, hm, rfl⟩ := Op.createGroup_edit_ok h
  obtain ⟨he, hc⟩ := firstMatch_eq_some hm
  rw [carries_insert, carries_of_get he]
  simp only [reassocKeys_groups, get?_mapValues, Option.isSome_map', containsKey_eq,
    isSome_get?_insertGenerated, isSome_get?_of_tryDeriveKeySingle hc]
  tauto

theorem carries_assocGroup {src dst : Bytes} {names : List String}
    (h : (Op.assocGroup src dst names).edit P l = .ok l') (g : String) :
    carries l'.keys g = true ↔ carries l.keys g = true := by
  obtain ⟨sc, n, e, c, c', hs, hm, ha, rfl⟩ := Op.assocGroup_edit_ok h
  obtain ⟨he, hc⟩ := firstMatch_eq_some hm
  obtain ⟨m, es, hes, hsc⟩ := tryDeriveKey_eq_some hs
  have hsrc : g ∈ names → carries l.keys g = true := fun hg =>
    carries_iff.mpr ⟨m, es, hes, by
      simpa [← isSome_get?_of_tryDeriveKeySingle hsc] using ((assocNames_ok ha).1 g hg).2⟩
  rw [carries_insert]
  simp only [reassocKeys_groups, get?_mapValues, Option.isSome_map', containsKey_eq,
    isSome_get?_assocNames ha, isSome_get?_of_tryDeriveKeySingle hc]
  constructor
  · rintro ((hg | hg) | hg)
    · exact hsrc hg
    · exact carries_iff.mpr ⟨n, e, he, by simpa using hg⟩
    · exact carries_of_erase hg
  · intro hg
    rcases (carries_of_get he g).mp hg with hg | hg
    · exact .inl (.inr (by simpa using hg))
    · exact .inr hg

theorem carries_disassocGroup {key : String} {names : List String}
    (h : (Op.disassocGroup key names).edit P l = .ok l') (g : String) :
    carries l'.keys g = true ↔ carries l.keys g = true := by
  obtain ⟨-, e, he, -, hlast, rfl⟩ := Op.disassocGroup_edit_ok h
  rw [carries_insert, carries_of_get he]
  by_cases hg : g ∈ names
  · have := hlast g hg
    simp only [carries_insert, containsKey_eq, get?_eraseAll, hg, if_true, Option.isSome_none,
      Bool.false_eq_true, false_or] at this ⊢
    simp [this]
  · simp [hg]

theorem carries_destroyGroup {names : List String}
    (h : (Op.destroyGroup names).edit P l = .ok l') (g : String) :
    carries l'.keys g = true ↔ carries l.keys g = true ∧ g ∉ names := by
  obtain ⟨-, -, rfl⟩ := Op.destroyGroup_edit_ok h
  simp only [carries_iff, get?_mapValues, Option.map_eq_some', containsKey_eq]
  by_cases hg : g ∈ names <;> simp [hg]

end Step

/-- A successful call changes the carried groups only as `Op.CarriedStep` allows. -/
theorem Op.carriedStep_of_edit {op : Op} {l l' : KdfList} (h : op.edit P l = .ok l') :
    op.CarriedStep l l' := by
  cases op with
  | addKey => exact carries_addKey h
  | delKey => exact carries_delKey h
  | changeKey => exact carries_changeKey h
  | deriveKeyChain => exact carries_deriveKeyChain h
  | createGroup => exact ⟨(Op.createGroup_edit_ok h).1, carries_createGroup h⟩
  | assocGroup => exact carries_assocGroup h
  | disassocGroup => exact carries_disassocGroup h
  | destroyGroup =>
    obtain ⟨⟨h₁, h₂⟩, hc, -⟩ := Op.destroyGroup_edit_ok h
    exact ⟨h₁, h₂, hc, carries_destroyGroup h⟩

/-! ## The lockout invariant -/

section Everyone

variable {keys : BTreeMap String KdfEntry}

theorem AllEveryone.insert (h : AllEveryone keys) {n : String} {e : KdfEntry}
    (he : (e.groups.get? groupEveryone).isSome) : AllEveryone (keys.insert n e) := by
  intro m e' hm
  by_cases hmn : m = n
  · simp only [hmn, get?_insert, if_true, Option.some.injEq] at hm; exact hm ▸ he
  · exact h m e' (by simpa [hmn] using hm)

theorem AllEveryone.erase (h : AllEveryone keys) (n : String) : AllEveryone (keys.erase n) :=
  fun m e hm => h m e (by by_cases hmn : m = n <;> simp_all)

end Everyone

theorem groupEveryone_ne_groupRoot : groupEveryone ≠ groupRoot := by decide

/-- `init_keys` writes a list with one entry, carrying both built-in groups. -/
theorem noLockout_initKeysList (salt : HashId) (now : DateTime) (everyone root : InternalKey)
    (passphrase : Bytes) (keyName : String) :
    NoLockout (initKeysList P salt now everyone root passphrase keyName) := by
  have hg : ∀ g, g = groupEveryone ∨ g = groupRoot →
      ((createKey P salt passphrase (KeyChain.generateNew everyone root) now none none).groups.get?
        g).isSome := by
    rintro g (rfl | rfl) <;> simp [KeyChain.generateNew, groupEveryone_ne_groupRoot]
  refine ⟨⟨keyName, _, get?_insert_self _ _ _⟩, fun n e hn => ?_, ?_⟩
  · by_cases h : n = keyName
    · simp only [initKeysList, h, get?_insert, if_true, Option.some.injEq] at hn
      exact hn ▸ hg _ (.inl rfl)
    · simp [initKeysList, h] at hn
  · exact carries_iff.mpr ⟨keyName, _, get?_insert_self _ _ _, by simpa using hg _ (.inr rfl)⟩

/-- Every successful call keeps an entry and `everyone` on every entry. -/
theorem allEveryone_of_edit {op : Op} {l l' : KdfList} (hl : AllEveryone l.keys)
    (h : op.edit P l = .ok l') : AllEveryone l'.keys := by
  cases op with
  | addKey =>
    obtain ⟨c, hc, -, rfl⟩ := Op.addKey_edit_ok h
    obtain ⟨m, e, he, hce⟩ := tryDeriveKey_eq_some hc
    exact hl.insert (by simpa [isSome_get?_of_tryDeriveKeySingle hce] using hl m e he)
  | delKey =>
    obtain ⟨_, -, -, -, rfl⟩ := Op.delKey_edit_ok h
    exact hl.erase _
  | changeKey =>
    obtain ⟨n, e, c, c', -, he, -, hcopy, rfl⟩ := Op.changeKey_edit_ok h
    exact (hl.erase n).insert (by simpa [isSome_get?_copyGroups hcopy] using hl n e he)
  | deriveKeyChain =>
    obtain ⟨n, e, _, hm, rfl⟩ := Op.deriveKeyChain_edit_ok h
    exact hl.insert (hl n e (firstMatch_eq_some hm).1)
  | createGroup =>
    obtain ⟨-, n, e, c, hm, rfl⟩ := Op.createGroup_edit_ok h
    obtain ⟨he, hc⟩ := firstMatch_eq_some hm
    refine hl.insert ?_
    simp only [reassocKeys_groups, get?_mapValues, Option.isSome_map']
    exact (isSome_get?_insertGenerated _ _ _ _).mpr
      (.inr (by rw [isSome_get?_of_tryDeriveKeySingle hc]; exact hl n e he))
  | assocGroup =>
    obtain ⟨sc, n, e, c, c', -, hm, ha, rfl⟩ := Op.assocGroup_edit_ok h
    obtain ⟨he, hc⟩ := firstMatch_eq_some hm
    refine hl.insert ?_
    simp only [reassocKeys_groups, get?_mapValues, Option.isSome_map']
    exact (isSome_get?_assocNames ha _).mpr
      (.inr (by rw [isSome_get?_of_tryDeriveKeySingle hc]; exact hl n e he))
  | disassocGroup key =>
    obtain ⟨hne, e, he, -, -, rfl⟩ := Op.disassocGroup_edit_ok h
    exact hl.insert (by simpa [hne] using hl key e he)
  | destroyGroup =>
    obtain ⟨⟨hne, -⟩, -, rfl⟩ := Op.destroyGroup_edit_ok h
    intro n e hn
    simp only [get?_mapValues, Option.map_eq_some'] at hn
    obtain ⟨e₀, he₀, rfl⟩ := hn
    simpa [hne] using hl n e₀ he₀

theorem nonempty_of_edit {op : Op} {l l' : KdfList} (hl : ∃ n e, l.keys.get? n = some e)
    (h : op.edit P l = .ok l') : ∃ n e, l'.keys.get? n = some e := by
  have hins :
      ∀ (keys : BTreeMap String KdfEntry) n e, ∃ m e', (keys.insert n e).get? m = some e' :=
    fun _ n e => ⟨n, e, by simp⟩
  cases op with
  | addKey =>
    obtain ⟨c, -, -, rfl⟩ := Op.addKey_edit_ok h; exact hins ..
  | delKey =>
    obtain ⟨_, -, hne, -, rfl⟩ := Op.delKey_edit_ok h
    by_contra hnone
    push_neg at hnone
    simp [isEmpty_iff.mpr fun m => Option.eq_none_iff_forall_not_mem.mpr (hnone m)] at hne
  | changeKey =>
    obtain ⟨n, e, c, c', -, -, -, -, rfl⟩ := Op.changeKey_edit_ok h; exact hins ..
  | deriveKeyChain =>
    obtain ⟨n, e, _, -, rfl⟩ := Op.deriveKeyChain_edit_ok h; exact hins ..
  | createGroup =>
    obtain ⟨-, n, e, c, -, rfl⟩ := Op.createGroup_edit_ok h; exact hins ..
  | assocGroup =>
    obtain ⟨_, n, e, c, c', -, -, -, rfl⟩ := Op.assocGroup_edit_ok h; exact hins ..
  | disassocGroup =>
    obtain ⟨-, e, -, -, -, rfl⟩ := Op.disassocGroup_edit_ok h; exact hins ..
  | destroyGroup =>
    obtain ⟨-, -, rfl⟩ := Op.destroyGroup_edit_ok h
    obtain ⟨n, e, he⟩ := hl
    exact ⟨n, _, by rw [get?_mapValues, he]; rfl⟩

theorem root_of_carriedStep {op : Op} {l l' : KdfList} (hr : carries l.keys groupRoot = true)
    (h : op.CarriedStep l l') : carries l'.keys groupRoot = true := by
  cases op with
  | createGroup => exact (h.2 _).mpr (.inl hr)
  | destroyGroup => exact (h.2.2.2 _).mpr ⟨hr, h.2.1⟩
  | _ => exact (h _).mpr hr

/-- The lockout invariant holds after `init_keys` and is kept by every successful call. -/
theorem noLockout_inductive : Inductive P fun l _ => NoLockout l where
  init salt now everyone root passphrase keyName _ :=
    noLockout_initKeysList salt now everyone root passphrase keyName
  step _ _ _ _ _ hl h :=
    ⟨nonempty_of_edit hl.nonempty h, allEveryone_of_edit hl.everyone h,
      root_of_carriedStep hl.root (Op.carriedStep_of_edit h)⟩

/-- No lockout: in every state a run from `init_keys` reaches, the KDF list has an entry,
every entry carries `everyone` and `root` is carried; and every call that succeeds there
changes the carried groups only as `Op.CarriedStep` allows (a failing call changes nothing,
`Op.step`). -/
theorem kdf_list_no_lockout {l : KdfList} {ph : Phrases} (h : Reachable P l ph) :
    NoLockout l ∧ ∀ (op : Op) (l' : KdfList), op.edit P l = .ok l' → op.CarriedStep l l' :=
  ⟨noLockout_inductive.invariant h, fun _ _ => Op.carriedStep_of_edit⟩

theorem initKeys_no_lockout :
    NoLockout (initKeysList .plain HashId.zero .epoch HashId.zero HashId.zero [] "main") ∧
    ∀ (op : Op) (l' : KdfList),
      op.edit .plain (initKeysList .plain HashId.zero .epoch HashId.zero HashId.zero [] "main") =
        .ok l' →
      op.CarriedStep
        (initKeysList .plain HashId.zero .epoch HashId.zero HashId.zero [] "main") l' :=
  kdf_list_no_lockout (.init HashId.zero .epoch HashId.zero HashId.zero [] "main" fun _ => [])

/-! ## Where an entry's new groups come from -/

/-- The passphrase whose chain a call copies groups from: `add_key`'s old passphrase and
`assoc_group`'s source passphrase. -/
def Op.sourcePassphrase : Op → Option Bytes
  | .addKey _ _ old _ _ => some old
  | .assocGroup src _ _ => some src
  | _ => none

/-- The names a call creates groups under: `create_group`'s. -/
def Op.createdNames : Op → List String
  | .createGroup _ _ names => names
  | _ => []

/-- Every group an entry of `l'` carries, the entry of the same name in `l` carried. -/
def GroupsWithin (l l' : KdfList) : Prop :=
  ∀ n e' g, l'.keys.get? n = some e' → e'.groups.containsKey g = true →
    ∃ e, l.keys.get? n = some e ∧ e.groups.containsKey g = true

section Within

variable {l l' : KdfList}

theorem groupsWithin_insert {n : String} {e₀ e₁ : KdfEntry} (he₀ : l.keys.get? n = some e₀)
    (hsub : ∀ g, e₁.groups.containsKey g = true → e₀.groups.containsKey g = true) :
    GroupsWithin l { l with keys := l.keys.insert n e₁ } := by
  intro m e' g hm hg
  rcases get?_insert_eq_some.mp hm with ⟨rfl, rfl⟩ | ⟨-, hm⟩
  · exact ⟨e₀, he₀, hsub g hg⟩
  · exact ⟨e', hm, hg⟩

theorem groupsWithin_of_edit {op : Op} (h : op.edit P l = .ok l')
    (hsrc : op.sourcePassphrase = none)
    (hnames : op.createdNames = []) : GroupsWithin l l' := by
  cases op with
  | addKey => cases hsrc
  | assocGroup => cases hsrc
  | createGroup _ _ names =>
    cases (hnames : names = [])
    obtain ⟨-, n, e, c, hm, rfl⟩ := Op.createGroup_edit_ok h
    obtain ⟨he, hc⟩ := firstMatch_eq_some hm
    exact groupsWithin_insert he fun g => by
      simp [insertGenerated, isSome_get?_of_tryDeriveKeySingle hc]
  | delKey =>
    obtain ⟨_, -, -, -, rfl⟩ := Op.delKey_edit_ok h
    intro m e' g hm hg
    exact ⟨e', by by_cases hmn : m = ‹String› <;> simp_all, hg⟩
  | changeKey =>
    obtain ⟨n, e, c, c', -, he, -, hcopy, rfl⟩ := Op.changeKey_edit_ok h
    intro m e' g hm hg
    rcases get?_insert_eq_some.mp hm with ⟨rfl, rfl⟩ | ⟨hmn, hm⟩
    · exact ⟨e, he, by simpa [isSome_get?_copyGroups hcopy] using hg⟩
    · exact ⟨e', by simpa [hmn] using hm, hg⟩
  | deriveKeyChain =>
    obtain ⟨n, e, _, hm, rfl⟩ := Op.deriveKeyChain_edit_ok h
    exact groupsWithin_insert (firstMatch_eq_some hm).1 fun _ => id
  | disassocGroup =>
    obtain ⟨-, e, he, -, -, rfl⟩ := Op.disassocGroup_edit_ok h
    exact groupsWithin_insert he fun g => by by_cases hg : g ∈ ‹List String› <;> simp [hg]
  | destroyGroup names =>
    obtain ⟨-, -, rfl⟩ := Op.destroyGroup_edit_ok h
    intro m e' g hm hg
    simp only [get?_mapValues, Option.map_eq_some'] at hm
    obtain ⟨e, he, rfl⟩ := hm
    exact ⟨e, he, by by_cases h : g ∈ names <;> simp_all⟩

end Within

/-- No privilege escalation: when, after a successful call, an entry carries a group the entry
of the same name did not carry before (or is new), the call is `create_group` and created the
group, or the call supplied a passphrase (`add_key`'s old, `assoc_group`'s source) that derives,
before the call, an entry carrying the group. -/
theorem no_privilege_escalation {op : Op} {l l' : KdfList} (h : op.edit P l = .ok l')
    {n g : String} {e' : KdfEntry} (he' : l'.keys.get? n = some e')
    (hg : e'.groups.containsKey g = true)
    (hnew : ∀ e, l.keys.get? n = some e → e.groups.containsKey g = false) :
    g ∈ op.createdNames ∨ ∃ p, op.sourcePassphrase = some p ∧
      ∃ m e c, l.keys.get? m = some e ∧ tryDeriveKeySingle P p e = some c ∧
        e.groups.containsKey g = true := by
  have old : ∀ e, l.keys.get? n = some e → e.groups.containsKey g = true → False :=
    fun e he hc => by simp [hnew e he] at hc
  cases op with
  | addKey salt now oldPassphrase =>
    obtain ⟨c, hc, -, rfl⟩ := Op.addKey_edit_ok h
    rcases get?_insert_eq_some.mp he' with ⟨-, rfl⟩ | ⟨-, he⟩
    · obtain ⟨m, e, hm, hce⟩ := tryDeriveKey_eq_some hc
      exact .inr ⟨oldPassphrase, rfl, m, e, c, hm, hce,
        by simpa [isSome_get?_of_tryDeriveKeySingle hce] using hg⟩
    · exact (old e' he hg).elim
  | createGroup fresh passphrase names =>
    obtain ⟨-, m, e, c, hm, rfl⟩ := Op.createGroup_edit_ok h
    obtain ⟨he, hc⟩ := firstMatch_eq_some hm
    rcases get?_insert_eq_some.mp he' with ⟨rfl, rfl⟩ | ⟨-, he'⟩
    · simp only [containsKey_eq, reassocKeys_groups, get?_mapValues, Option.isSome_map',
        isSome_get?_insertGenerated, isSome_get?_of_tryDeriveKeySingle hc] at hg
      exact hg.imp id fun hg => (old e he (by simpa using hg)).elim
    · exact (old e' he' hg).elim
  | assocGroup src dst names =>
    obtain ⟨sc, m, e, c, c', hs, hm, ha, rfl⟩ := Op.assocGroup_edit_ok h
    obtain ⟨he, hc⟩ := firstMatch_eq_some hm
    rcases get?_insert_eq_some.mp he' with ⟨rfl, rfl⟩ | ⟨-, he'⟩
    · simp only [containsKey_eq, reassocKeys_groups, get?_mapValues, Option.isSome_map',
        isSome_get?_assocNames ha, isSome_get?_of_tryDeriveKeySingle hc] at hg
      rcases hg with hg | hg
      · obtain ⟨k, es, hk, hsc⟩ := tryDeriveKey_eq_some hs
        exact .inr ⟨src, rfl, k, es, sc, hk, hsc, by
          simpa [isSome_get?_of_tryDeriveKeySingle hsc] using ((assocNames_ok ha).1 g hg).2⟩
      · exact (old e he (by simpa using hg)).elim
    · exact (old e' he' hg).elim
  | _ =>
    obtain ⟨e, he, hc⟩ := groupsWithin_of_edit h rfl rfl n e' g he' hg
    exact (old e he hc).elim

/-- `add_key` with the passphrase of the first entry gives the new entry `everyone`, which that
entry carries. -/
theorem addKey_group_from_old_passphrase :
    (Op.addKey HashId.zero .epoch [] [] "other").edit .plain
        (initKeysList .plain HashId.zero .epoch HashId.zero HashId.zero [] "main") =
      .ok { initKeysList .plain HashId.zero .epoch HashId.zero HashId.zero [] "main" with
        keys :=
          (initKeysList .plain HashId.zero .epoch HashId.zero HashId.zero [] "main").keys.insert
          "other" (createKey .plain HashId.zero [] (KeyChain.generateNew HashId.zero HashId.zero)
            .epoch none none) } ∧
    (groupEveryone ∈ (Op.addKey HashId.zero .epoch [] [] "other").createdNames ∨
      ∃ p, (Op.addKey HashId.zero .epoch [] [] "other").sourcePassphrase = some p ∧
      ∃ m e c,
        (initKeysList .plain HashId.zero .epoch HashId.zero HashId.zero [] "main").keys.get?
          m = some e ∧ tryDeriveKeySingle .plain p e = some c ∧
        e.groups.containsKey groupEveryone = true) := by
  have hd : tryDeriveKey .plain []
      (initKeysList .plain HashId.zero .epoch HashId.zero HashId.zero [] "main").keys =
        some (KeyChain.generateNew HashId.zero HashId.zero) := by
    simp [tryDeriveKey, initKeysList, findSome?, BTreeMap.insert, empty, insertEntries,
      tryDeriveKeySingle, matchKey_createKey, unwrapChain_createKey]
  have hn : (initKeysList .plain HashId.zero .epoch HashId.zero HashId.zero [] "main").keys.get?
      "other" = none := by simp [initKeysList]
  have h : (Op.addKey HashId.zero .epoch [] [] "other").edit .plain
      (initKeysList .plain HashId.zero .epoch HashId.zero HashId.zero [] "main") =
        .ok { initKeysList .plain HashId.zero .epoch HashId.zero HashId.zero [] "main" with
          keys :=
            (initKeysList .plain HashId.zero .epoch HashId.zero HashId.zero [] "main").keys.insert
            "other" (createKey .plain HashId.zero [] (KeyChain.generateNew HashId.zero HashId.zero)
              .epoch none none) } := by
    simp only [Op.edit, addKeyEdit, hd, hn]; rfl
  exact ⟨h, no_privilege_escalation h (get?_insert_self ..) (by simp [KeyChain.generateNew])
    fun e he => by simp [hn] at he⟩

/-! ## Groups over whole runs -/

/-- The call is a `destroy_group` naming `g`. -/
def Op.Destroys (g : String) : Op → Prop
  | .destroyGroup names => g ∈ names
  | _ => False

/-- The call is a `create_group` naming `g`. -/
def Op.Creates (g : String) : Op → Prop
  | .createGroup _ _ names => g ∈ names
  | _ => False

section Lifecycle

variable {g : String}

/-- One call keeps a carried group unless it is a `destroy_group` naming it; a built-in group
it always keeps. -/
theorem carries_step_keep {op : Op} {l : KdfList} {ph : Phrases}
    (hd : ¬op.Destroys g ∨ g = groupEveryone ∨ g = groupRoot) (hc : carries l.keys g = true) :
    carries (op.step P l ph).1.keys g = true := by
  unfold Op.step
  split
  · rename_i l' h
    have hstep := Op.carriedStep_of_edit h
    cases op with
    | createGroup => exact (hstep.2 g).mpr (.inl hc)
    | destroyGroup names =>
      refine (hstep.2.2.2 g).mpr ⟨hc, fun hg => ?_⟩
      rcases hd with hd | rfl | rfl
      exacts [hd hg, hstep.1 hg, hstep.2.1 hg]
    | _ => exact (hstep g).mpr hc
  · exact hc

/-- One call adds a carried group only if it is a `create_group` naming it. -/
theorem carries_step_new {op : Op} {l : KdfList} {ph : Phrases} (hcr : ¬op.Creates g)
    (hc : carries (op.step P l ph).1.keys g = true) : carries l.keys g = true := by
  unfold Op.step at hc
  split at hc
  · rename_i l' h
    have hstep := Op.carriedStep_of_edit h
    cases op with
    | createGroup => exact ((hstep.2 g).mp hc).resolve_right hcr
    | destroyGroup => exact ((hstep.2.2.2 g).mp hc).1
    | _ => exact (hstep g).mp hc
  · exact hc

theorem carries_run_keep : ∀ (ops : List Op) (s : KdfList × Phrases),
    (∀ op ∈ ops, ¬op.Destroys g ∨ g = groupEveryone ∨ g = groupRoot) →
    carries s.1.keys g = true → carries (run P ops s).1.keys g = true
  | [], _, _, hc => hc
  | op :: ops, (_, _), hd, hc =>
    carries_run_keep ops _ (fun op' h' => hd op' (List.mem_cons_of_mem _ h'))
      (carries_step_keep (hd op (List.mem_cons_self _ _)) hc)

theorem carries_run_new : ∀ (ops : List Op) (s : KdfList × Phrases),
    (∀ op ∈ ops, ¬op.Creates g) →
    carries (run P ops s).1.keys g = true → carries s.1.keys g = true
  | [], _, _, hc => hc
  | op :: ops, (_, _), hcr, hc =>
    carries_step_new (hcr op (List.mem_cons_self _ _))
      (carries_run_new ops _ (fun op' h' => hcr op' (List.mem_cons_of_mem _ h')) hc)

end Lifecycle

/-- Over every run, from any list: a group stops being carried only through a `destroy_group`
naming it, `everyone` and `root` never stop being carried, and a group starts being carried
only through a `create_group` naming it. -/
theorem group_lifecycle (g : String) (ops : List Op) (s : KdfList × Phrases) :
    ((∀ op ∈ ops, ¬op.Destroys g) →
      carries s.1.keys g = true → carries (run P ops s).1.keys g = true) ∧
    (g = groupEveryone ∨ g = groupRoot →
      carries s.1.keys g = true → carries (run P ops s).1.keys g = true) ∧
    ((∀ op ∈ ops, ¬op.Creates g) →
      carries (run P ops s).1.keys g = true → carries s.1.keys g = true) :=
  ⟨fun hd => carries_run_keep ops s fun op h => .inl (hd op h),
    fun hb => carries_run_keep ops s fun _ _ => .inr hb, carries_run_new ops s⟩

end Ensync.KeyMgmt
