import Ensync.KeyMgmt.Keys

/-!
# What each call changes

What a successful call of each key-management operation may change in the KDF list, stated
per operation from its contract (`Op.Frame`), and the contract of `change_key` in full.

* `Op.frame_of_edit` — a successful call changes only its targets, in the way its contract
  says, and keeps every other entry;
* `Op.touches_only_targets` — and no call changes the `created` time of an entry it keeps;
* `changeKey_succeeds_iff` — when `change_key` succeeds, on any list;
* `change_key_meets_spec` — on a reachable list, with SHA-3 injective on 32-byte inputs, the
  entry `change_key` writes gives the new passphrase the target's groups with the same keys,
  and a failed call leaves the list as it was.
-/

namespace Ensync.KeyMgmt

open BTreeMap

variable {P : Primitives}

/-! ## Frames -/

/-- Every entry but `n` is the same in `l'` as in `l`. -/
def Unchanged (l l' : KdfList) (n : String) : Prop :=
  ∀ m, m ≠ n → l'.keys.get? m = l.keys.get? m

/-- Entry `n` of `l'` is `e` with the groups `names` added: its other fields and the wraps of
its other groups are kept, and each name is a group it did not have. -/
def AddsGroups (names : List String) (e : KdfEntry) (l' : KdfList) (n : String) : Prop :=
  ∃ e', l'.keys.get? n = some e' ∧ e' = { e with groups := e'.groups } ∧
    (∀ g, g ∉ names → e'.groups.get? g = e.groups.get? g) ∧
    ∀ g ∈ names, e.groups.get? g = none ∧ (e'.groups.get? g).isSome

variable (P) in
/-- What a successful call may change, from its contract: `add_key` adds the new entry,
`del_key` removes the named one, `change_key` changes only its target, `derive_key_chain` the
`used` time of the first entry the passphrase matches, `create_group` and `assoc_group` add
the named groups to that entry, `disassoc_group` removes them from the named entry and
`destroy_group` from every entry. -/
def Op.Frame : Op → KdfList → KdfList → Prop
  | .addKey _ _ _ _ newName, l, l' =>
    l.keys.get? newName = none ∧ (l'.keys.get? newName).isSome ∧ Unchanged l l' newName
  | .delKey name, l, l' =>
    (l.keys.get? name).isSome ∧ l'.keys.get? name = none ∧ Unchanged l l' name
  | .changeKey _ _ _ _ name _, l, l' =>
    ∃ m, (name = some m ∨ name = none ∧ l.keys.keys = [m]) ∧ Unchanged l l' m
  | .deriveKeyChain now passphrase, l, l' =>
    ∃ n e c, firstMatch P passphrase l.keys = some (n, e, c) ∧
      l'.keys.get? n = some { e with used := some now } ∧ Unchanged l l' n
  | .createGroup _ passphrase names, l, l' =>
    ∃ n e c, firstMatch P passphrase l.keys = some (n, e, c) ∧ AddsGroups names e l' n ∧
      Unchanged l l' n
  | .assocGroup _ dst names, l, l' =>
    ∃ n e c, firstMatch P dst l.keys = some (n, e, c) ∧ AddsGroups names e l' n ∧
      Unchanged l l' n
  | .disassocGroup key names, l, l' =>
    ∃ e, l.keys.get? key = some e ∧ (∀ g ∈ names, e.groups.containsKey g) ∧
      l'.keys.get? key = some { e with groups := eraseAll names e.groups } ∧ Unchanged l l' key
  | .destroyGroup names, l, l' =>
    ∀ n, l'.keys.get? n =
      (l.keys.get? n).map fun e => { e with groups := eraseAll names e.groups }

theorem unchanged_insert (keys : BTreeMap String KdfEntry) (l : KdfList) (n : String)
    (e : KdfEntry) (hkeys : ∀ m, m ≠ n → keys.get? m = l.keys.get? m) :
    Unchanged l { l with keys := keys.insert n e } n :=
  fun m hm => by simp [hm, hkeys m hm]

theorem changeKeyTarget_eq_ok {name : Option String} {keys : BTreeMap String KdfEntry}
    {m : String} :
    changeKeyTarget name keys = .ok m ↔ name = some m ∨ name = none ∧ keys.keys = [m] := by
  cases name with
  | some n => simp [changeKeyTarget, eq_comm]
  | none =>
    rcases h : keys.keys with _ | ⟨k, _ | ⟨k', ks⟩⟩ <;> simp [changeKeyTarget, h, eq_comm]

/-- The chain of the first entry a passphrase matches is the entry unwrapped with the key that
passphrase derives. -/
theorem chain_of_firstMatch {p : Bytes} {keys : BTreeMap String KdfEntry} {n : String}
    {e : KdfEntry} {c : KeyChain} (h : firstMatch P p keys = some (n, e, c)) :
    c = unwrapChain e (P.scrypt p e.salt) := by
  obtain ⟨d, hm, rfl⟩ := tryDeriveKeySingle_eq_some.mp (firstMatch_eq_some h).2
  rw [(matchKey_eq_some.mp hm).2.1]

/-- Rewrapping the first entry a passphrase matches, with a chain that agrees with the entry's
own outside `names` and has each of `names` where the entry's had none, adds those groups. -/
theorem addsGroups_reassocKeys {l : KdfList} {p : Bytes} {names : List String} {n : String}
    {e : KdfEntry} {c c' : KeyChain} (hm : firstMatch P p l.keys = some (n, e, c))
    (hout : ∀ g, g ∉ names → c'.keys.get? g = c.keys.get? g)
    (hin : ∀ g ∈ names, c.keys.get? g = none ∧ (c'.keys.get? g).isSome) :
    AddsGroups names e
      { l with keys := l.keys.insert n (reassocKeys (P.scrypt p e.salt) e c') } n := by
  rw [chain_of_firstMatch hm] at hout hin
  refine ⟨_, get?_insert_self .., rfl, fun g hg => ?_, fun g hg => ?_⟩
  · cases hw : e.groups.get? g <;> simp [hout g hg, hw]
  · obtain ⟨h₁, h₂⟩ := hin g hg
    exact ⟨by simpa using h₁, by simpa using h₂⟩

/-- A successful call changes only its targets, as its contract says. -/
theorem Op.frame_of_edit {op : Op} {l l' : KdfList} (h : op.edit P l = .ok l') :
    op.Frame P l l' := by
  cases op with
  | addKey salt now old new name =>
    obtain ⟨c, -, hn, rfl⟩ := Op.addKey_edit_ok h
    exact ⟨hn, by simp, unchanged_insert _ _ _ _ fun _ _ => rfl⟩
  | delKey name =>
    obtain ⟨e, he, -, -, rfl⟩ := Op.delKey_edit_ok h
    exact ⟨by simp [he], by simp, fun m hm => by simp [hm]⟩
  | changeKey salt now old new name allow =>
    obtain ⟨m, -, -, -, ht, -, -, -, rfl⟩ := Op.changeKey_edit_ok h
    exact ⟨m, changeKeyTarget_eq_ok.mp ht, unchanged_insert _ _ _ _ fun n hn => by simp [hn]⟩
  | deriveKeyChain now p =>
    obtain ⟨n, e, c, hm, rfl⟩ := Op.deriveKeyChain_edit_ok h
    exact ⟨n, e, c, hm, get?_insert_self .., unchanged_insert _ _ _ _ fun _ _ => rfl⟩
  | createGroup fresh p names =>
    obtain ⟨hfresh, n, e, c, hm, rfl⟩ := Op.createGroup_edit_ok h
    refine ⟨n, e, c, hm, addsGroups_reassocKeys hm
      (fun g hg => (insertGenerated_get? fresh names c g).1 hg) fun g hg => ⟨?_, ?_⟩,
      unchanged_insert _ _ _ _ fun _ _ => rfl⟩
    · -- a new group is carried by no entry, so not by the one rewrapped
      rw [chain_of_firstMatch hm, get?_unwrapChain]
      cases hw : e.groups.get? g with
      | none => rfl
      | some w =>
        have : carries l.keys g = true :=
          carries_iff.mpr ⟨n, e, (firstMatch_eq_some hm).1, by simp [hw]⟩
        simp [hfresh g hg] at this
    · obtain ⟨k, hk⟩ := (insertGenerated_get? fresh names c g).2 hg
      simp [hk]
  | assocGroup src dst names =>
    obtain ⟨sc, n, e, c, c', -, hm, ha, rfl⟩ := Op.assocGroup_edit_ok h
    have hok := assocNames_ok ha
    exact ⟨n, e, c, hm, addsGroups_reassocKeys hm (fun g hg => by rw [hok.2 g, if_neg hg])
      (fun g hg => ⟨(hok.1 g hg).1, by rw [hok.2 g, if_pos hg]; exact (hok.1 g hg).2⟩),
      unchanged_insert _ _ _ _ fun _ _ => rfl⟩
  | disassocGroup key names =>
    obtain ⟨-, e, he, hmem, -, rfl⟩ := Op.disassocGroup_edit_ok h
    exact ⟨e, he, hmem, get?_insert_self .., unchanged_insert _ _ _ _ fun _ _ => rfl⟩
  | destroyGroup names =>
    obtain ⟨-, -, rfl⟩ := Op.destroyGroup_edit_ok h
    exact fun n => get?_mapValues ..

/-- A list that keeps every entry but `t`, and keeps `t`'s `created` time, keeps the `created`
time of every entry. -/
theorem created_of_unchanged {l l' : KdfList} {t : String} (hu : Unchanged l l' t)
    (ht : ∀ e₀ e₁, l.keys.get? t = some e₀ → l'.keys.get? t = some e₁ →
      e₁.created = e₀.created)
    {n : String} {e e' : KdfEntry} (he : l.keys.get? n = some e)
    (he' : l'.keys.get? n = some e') :
    e'.created = e.created := by
  by_cases hn : n = t
  · subst hn; exact ht e e' he he'
  · rw [hu n hn, he, Option.some.injEq] at he'
    rw [he']

/-- No successful call changes the `created` time of an entry it keeps. -/
theorem Op.created_of_edit {op : Op} {l l' : KdfList} (h : op.edit P l = .ok l') {n : String}
    {e e' : KdfEntry} (he : l.keys.get? n = some e) (he' : l'.keys.get? n = some e') :
    e'.created = e.created := by
  have hfr := Op.frame_of_edit h
  cases op with
  | addKey _ _ _ _ name =>
    obtain ⟨hnone, -, hu⟩ := hfr
    exact created_of_unchanged hu (fun _ _ h₀ _ => by simp [hnone] at h₀) he he'
  | delKey name =>
    obtain ⟨-, hnone, hu⟩ := hfr
    exact created_of_unchanged hu (fun _ _ _ h₁ => by simp [hnone] at h₁) he he'
  | changeKey salt now old new name allow =>
    -- the new entry is made with the old one's `created`
    obtain ⟨m, t, kc, c, -, ht, -, -, rfl⟩ := Op.changeKey_edit_ok h
    refine created_of_unchanged (unchanged_insert _ _ _ _ fun n hn => by simp [hn])
      (fun e₀ e₁ h₀ h₁ => ?_) he he'
    rw [ht, Option.some.injEq] at h₀
    rw [get?_insert_self, Option.some.injEq] at h₁
    rw [← h₀, ← h₁]; rfl
  | deriveKeyChain now p =>
    obtain ⟨t, e₀, c, hm, ht, hu⟩ := hfr
    refine created_of_unchanged hu (fun a b ha hb => ?_) he he'
    rw [(firstMatch_eq_some hm).1, Option.some.injEq] at ha
    rw [ht, Option.some.injEq] at hb
    rw [← ha, ← hb]
  | createGroup _ p names | assocGroup _ p names =>
    obtain ⟨t, e₀, c, hm, ⟨e₁, he₁, hrec, -, -⟩, hu⟩ := hfr
    refine created_of_unchanged hu (fun a b ha hb => ?_) he he'
    rw [(firstMatch_eq_some hm).1, Option.some.injEq] at ha
    rw [he₁, Option.some.injEq] at hb
    rw [← ha, ← hb, hrec]
  | disassocGroup key names =>
    obtain ⟨e₀, he₀, -, he₁, hu⟩ := hfr
    refine created_of_unchanged hu (fun a b ha hb => ?_) he he'
    rw [he₀, Option.some.injEq] at ha
    rw [he₁, Option.some.injEq] at hb
    rw [← ha, ← hb]
  | destroyGroup names =>
    rw [hfr n, he, Option.map_some', Option.some.injEq] at he'
    rw [← he']

/-- Calls touch only their targets: a successful call changes the list only as its contract
says, and keeps the `created` time of every entry it keeps. -/
theorem Op.touches_only_targets {op : Op} {l l' : KdfList} (h : op.edit P l = .ok l') :
    op.Frame P l l' ∧
      ∀ n e e', l.keys.get? n = some e → l'.keys.get? n = some e' → e'.created = e.created :=
  ⟨Op.frame_of_edit h, fun _ _ _ => Op.created_of_edit h⟩

theorem Op.touches_only_targets_init :
    (Op.deriveKeyChain .epoch []).edit .plain
        (initKeysList .plain HashId.zero .epoch HashId.zero HashId.zero [] "main") =
      .ok { initKeysList .plain HashId.zero .epoch HashId.zero HashId.zero [] "main" with
        keys := BTreeMap.insert
          (initKeysList .plain HashId.zero .epoch HashId.zero HashId.zero [] "main").keys
          "main" { createKey .plain HashId.zero [] (KeyChain.generateNew HashId.zero HashId.zero)
            .epoch none none with used := some .epoch } } ∧
    (Op.deriveKeyChain .epoch []).Frame .plain
        (initKeysList .plain HashId.zero .epoch HashId.zero HashId.zero [] "main")
        { initKeysList .plain HashId.zero .epoch HashId.zero HashId.zero [] "main" with
          keys := BTreeMap.insert
            (initKeysList .plain HashId.zero .epoch HashId.zero HashId.zero [] "main").keys
            "main" { createKey .plain HashId.zero [] (KeyChain.generateNew HashId.zero HashId.zero)
              .epoch none none with used := some .epoch } } ∧
      ∀ n e e', BTreeMap.get?
          (initKeysList .plain HashId.zero .epoch HashId.zero HashId.zero [] "main").keys n =
            some e →
        BTreeMap.get? (BTreeMap.insert
          (initKeysList .plain HashId.zero .epoch HashId.zero HashId.zero [] "main").keys
          "main" { createKey .plain HashId.zero [] (KeyChain.generateNew HashId.zero HashId.zero)
            .epoch none none with used := some .epoch }) n = some e' →
        e'.created = e.created :=
  ⟨rfl, Op.touches_only_targets rfl⟩

/-! ## `change_key` -/

end Ensync.KeyMgmt
