import Ensync.KeyMgmt.Groups

/-!
# Keys: derivability and group-key consistency

Each entry of the KDF list is unwrapped with the key derived from the passphrase
that last set it (the ghost state `Phrases` of a run). This module shows that
this always works and always gives the same internal key for a group.

* `Op.keyMaterial_of_edit` — after a successful call every entry either was set
  by the call, with a passphrase that matches it, or keeps the algorithm, salt and
  hash of the entry of the same name before;
* `entries_stay_derivable` — in every reachable state each entry is derived by the
  passphrase that last set it, to exactly its group set, and `derive_key_chain`
  succeeds with that passphrase;
* `group_keys_consistent` — with SHA-3 injective on 32-byte inputs, in every
  reachable state all entries carrying a group unwrap it to the same key, and no
  call changes the key of a group carried before and after it.
-/

namespace Ensync.KeyMgmt

open BTreeMap

variable {P : Primitives}

/-! ## Key material -/

/-- What `try_derive_key_single` checks of an entry is kept from `e` to `e'`: its algorithm,
salt and hash. -/
structure KeysKept (e e' : KdfEntry) : Prop where
  algorithm : e'.algorithm = e.algorithm
  salt : e'.salt = e.salt
  hash : e'.hash = e.hash

theorem KeysKept.matchKey {e e' : KdfEntry} (h : KeysKept e e') (p : Bytes) :
    matchKey P p e' = matchKey P p e := by
  unfold Ensync.matchKey; rw [h.algorithm, h.salt, h.hash]

theorem Op.setsPhrase_changeKey {salt : HashId} {now : DateTime} {old new : Bytes}
    {name : Option String} {allow : Bool} {l : KdfList} {m : String}
    (ht : changeKeyTarget name l.keys = .ok m) :
    (Op.changeKey salt now old new name allow).setsPhrase l = some (m, new) := by
  simp [Op.setsPhrase, ht]

theorem Op.phrases_of_setsPhrase {op : Op} {l : KdfList} {n : String} {p : Bytes}
    (h : op.setsPhrase l = some (n, p)) (ph : Phrases) :
    op.phrases l ph = Function.update ph n p := by
  simp [Op.phrases, h]

theorem Op.phrases_apply_of_ne {op : Op} {l : KdfList} {n : String}
    (h : (op.setsPhrase l).map Prod.fst ≠ some n) (ph : Phrases) : op.phrases l ph n = ph n := by
  cases hs : op.setsPhrase l with
  | none => simp [Op.phrases, hs]
  | some mp =>
    obtain ⟨m, p⟩ := mp
    rw [hs] at h
    simp only [Op.phrases, hs]
    exact Function.update_noteq (fun hn => h (by simp [hn])) _ _

section Material

variable {l l' : KdfList} {n : String} {e' : KdfEntry}

/-- The entry `n` of a list written by inserting, at `m`, an entry keeping the key material of
`l`'s entry `m`. -/
theorem keysKept_of_insert {m : String} {e₀ e₁ : KdfEntry} (he₀ : l.keys.get? m = some e₀)
    (he' : (l.keys.insert m e₁).get? n = some e') (hk : KeysKept e₀ e₁) :
    ∃ e, l.keys.get? n = some e ∧ KeysKept e e' := by
  rcases get?_insert_eq_some.mp he' with ⟨rfl, rfl⟩ | ⟨-, he⟩
  · exact ⟨e₀, he₀, hk⟩
  · exact ⟨e', he, ⟨rfl, rfl, rfl⟩⟩

/-- After a successful call, entry `n` was set by the call with a passphrase that matches it,
or keeps the key material of entry `n` before the call. -/
theorem Op.keyMaterial_of_edit {op : Op} (h : op.edit P l = .ok l')
    (he' : l'.keys.get? n = some e') :
    (∃ p, op.setsPhrase l = some (n, p) ∧ matchKey P p e' = some (P.scrypt p e'.salt)) ∨
      (op.setsPhrase l).map Prod.fst ≠ some n ∧
        ∃ e, l.keys.get? n = some e ∧ KeysKept e e' := by
  cases op with
  | addKey salt now old new name =>
    obtain ⟨c, -, -, rfl⟩ := Op.addKey_edit_ok h
    rcases get?_insert_eq_some.mp he' with ⟨rfl, rfl⟩ | ⟨hn, he⟩
    · exact .inl ⟨new, rfl, matchKey_createKey ..⟩
    · exact .inr ⟨by simpa [Op.setsPhrase] using Ne.symm hn, e', he, ⟨rfl, rfl, rfl⟩⟩
  | changeKey salt now old new name allow =>
    obtain ⟨m, e, c, c', ht, -, -, -, rfl⟩ := Op.changeKey_edit_ok h
    rw [Op.setsPhrase_changeKey ht]
    rcases get?_insert_eq_some.mp he' with ⟨rfl, rfl⟩ | ⟨hn, he⟩
    · exact .inl ⟨new, rfl, matchKey_createKey ..⟩
    · exact .inr ⟨by simpa using Ne.symm hn, e', by simpa [hn] using he, ⟨rfl, rfl, rfl⟩⟩
  | delKey =>
    obtain ⟨_, -, -, -, rfl⟩ := Op.delKey_edit_ok h
    exact .inr ⟨by simp [Op.setsPhrase], e', by by_cases hn : n = ‹String› <;> simp_all,
      ⟨rfl, rfl, rfl⟩⟩
  | deriveKeyChain =>
    obtain ⟨m, e, _, hm, rfl⟩ := Op.deriveKeyChain_edit_ok h
    exact .inr ⟨by simp [Op.setsPhrase],
      keysKept_of_insert (firstMatch_eq_some hm).1 he' ⟨rfl, rfl, rfl⟩⟩
  | createGroup =>
    obtain ⟨-, m, e, c, hm, rfl⟩ := Op.createGroup_edit_ok h
    exact .inr ⟨by simp [Op.setsPhrase],
      keysKept_of_insert (firstMatch_eq_some hm).1 he' ⟨rfl, rfl, rfl⟩⟩
  | assocGroup =>
    obtain ⟨-, m, e, c, c', -, hm, -, rfl⟩ := Op.assocGroup_edit_ok h
    exact .inr ⟨by simp [Op.setsPhrase],
      keysKept_of_insert (firstMatch_eq_some hm).1 he' ⟨rfl, rfl, rfl⟩⟩
  | disassocGroup =>
    obtain ⟨-, e, he, -, -, rfl⟩ := Op.disassocGroup_edit_ok h
    exact .inr ⟨by simp [Op.setsPhrase], keysKept_of_insert he he' ⟨rfl, rfl, rfl⟩⟩
  | destroyGroup =>
    obtain ⟨-, -, rfl⟩ := Op.destroyGroup_edit_ok h
    simp only [get?_mapValues, Option.map_eq_some'] at he'
    obtain ⟨e, he, rfl⟩ := he'
    exact .inr ⟨by simp [Op.setsPhrase], e, he, ⟨rfl, rfl, rfl⟩⟩

end Material

/-! ## Derivability -/

variable (P) in
/-- Every entry is matched by the passphrase that last set it. -/
def Derivable (l : KdfList) (ph : Phrases) : Prop :=
  ∀ n e, l.keys.get? n = some e → matchKey P (ph n) e = some (P.scrypt (ph n) e.salt)

theorem derivable_initKeysList (salt : HashId) (now : DateTime) (everyone root : InternalKey)
    (passphrase : Bytes) (keyName : String) (ph : Phrases) :
    Derivable P (initKeysList P salt now everyone root passphrase keyName)
      (Function.update ph keyName passphrase) := by
  intro n e he
  rcases get?_insert_eq_some.mp he with ⟨rfl, rfl⟩ | ⟨-, he⟩
  · simpa using matchKey_createKey ..
  · simp at he

theorem derivable_of_edit {op : Op} {l l' : KdfList} {ph : Phrases} (hd : Derivable P l ph)
    (h : op.edit P l = .ok l') : Derivable P l' (op.phrases l ph) := by
  intro n e' he'
  rcases Op.keyMaterial_of_edit h he' with ⟨p, hs, hm⟩ | ⟨hs, e, he, hk⟩
  · simpa [Op.phrases_of_setsPhrase hs] using hm
  · rw [Op.phrases_apply_of_ne hs, hk.matchKey, hd n e he, hk.salt]

variable (P) in
/-- Some entry of `l`, unwrapped with the key derived from the passphrase that last set it,
gives `k` for group `g`. -/
def UnwrapsTo (l : KdfList) (ph : Phrases) (g : String) (k : InternalKey) : Prop :=
  ∃ n e, l.keys.get? n = some e ∧ (unwrapChain e (P.scrypt (ph n) e.salt)).keys.get? g = some k

variable (P) in
/-- Every group key the entries unwrap to is the one of `K`. -/
def Consistent (l : KdfList) (ph : Phrases) (K : String → InternalKey) : Prop :=
  ∀ g k, UnwrapsTo P l ph g k → k = K g

/-- Every key of chain `c` is the one of `K`. -/
def ChainAgrees (K : String → InternalKey) (c : KeyChain) : Prop :=
  ∀ g k, c.keys.get? g = some k → k = K g

/-- Unwrapping a rewrapped entry with the key it was rewrapped with gives the new chain. -/
theorem unwrapChain_reassocKeys (derived : HashId) (e : KdfEntry) (c : KeyChain) :
    unwrapChain (reassocKeys derived e c) derived = c := by
  cases c
  simp only [unwrapChain, KeyChain.mk.injEq]
  exact ext fun g => by simp [Option.map_map, Function.comp_def]

theorem carries_of_unwrapsTo {l : KdfList} {ph : Phrases} {g : String} {k : InternalKey}
    (h : UnwrapsTo P l ph g k) : carries l.keys g = true := by
  obtain ⟨n, e, he, hk⟩ := h
  exact carries_iff.mpr ⟨n, e, he, by simpa using congrArg Option.isSome hk⟩

section Consistency

variable {l l' : KdfList} {ph ph' : Phrases} {K : String → InternalKey}

theorem Consistent.congr {K' : String → InternalKey} (hc : Consistent P l ph K)
    (hK : ∀ g, carries l.keys g = true → K' g = K g) : Consistent P l ph K' :=
  fun g k hu => (hc g k hu).trans (hK g (carries_of_unwrapsTo hu)).symm

/-- Consistency survives replacing entries by entries with the same salt and passphrase and
fewer groups, wrapped the same. -/
theorem Consistent.of_sub (hc : Consistent P l ph K)
    (hsub : ∀ n e', l'.keys.get? n = some e' →
      ∃ e, l.keys.get? n = some e ∧ e'.salt = e.salt ∧
        ∀ g w, e'.groups.get? g = some w → e.groups.get? g = some w) :
    Consistent P l' ph K := by
  rintro g k ⟨n, e', he', hk⟩
  obtain ⟨e, he, hs, hw⟩ := hsub n e' he'
  simp only [get?_unwrapChain, Option.map_eq_some'] at hk
  obtain ⟨w, hw', rfl⟩ := hk
  exact hc g _ ⟨n, e, he, by simp [hw g w hw', hs]⟩

/-- Consistency survives inserting an entry whose unwrapped chain agrees with `K`, when the
passphrases of the other entries are kept. -/
theorem Consistent.insert (hc : Consistent P l ph K) {n : String} {e : KdfEntry}
    (hph : ∀ m, m ≠ n → ph' m = ph m)
    (hnew : ChainAgrees K (unwrapChain e (P.scrypt (ph' n) e.salt))) :
    Consistent P { l with keys := l.keys.insert n e } ph' K := by
  rintro g k ⟨m, e', he', hk⟩
  rcases get?_insert_eq_some.mp he' with ⟨rfl, rfl⟩ | ⟨hm, he'⟩
  · exact hnew g k hk
  · exact hc g k ⟨m, e', he', hph m hm ▸ hk⟩

theorem Consistent.erase (hc : Consistent P l ph K) (n : String) :
    Consistent P { l with keys := l.keys.erase n } ph K :=
  hc.of_sub fun m e' he' => ⟨e', by by_cases hm : m = n <;> simp_all, rfl, fun _ _ => id⟩

/-- Consistency survives replacing an entry by one with its salt and fewer groups. -/
theorem Consistent.insert_sub (hc : Consistent P l ph K) {n : String} {e e' : KdfEntry}
    (he : l.keys.get? n = some e) (hs : e'.salt = e.salt)
    (hw : ∀ g w, e'.groups.get? g = some w → e.groups.get? g = some w) :
    Consistent P { l with keys := l.keys.insert n e' } ph K :=
  hc.of_sub fun m e₁ he₁ => by
    rcases get?_insert_eq_some.mp he₁ with ⟨rfl, rfl⟩ | ⟨-, he₁⟩
    · exact ⟨e, he, hs, hw⟩
    · exact ⟨e₁, he₁, rfl, fun _ _ => id⟩

theorem chainAgrees_getD (c : KeyChain) (K : String → InternalKey) :
    ChainAgrees (fun g => (c.keys.get? g).getD (K g)) c :=
  fun g k hk => by simp [hk]

theorem consistent_initKeysList (salt : HashId) (now : DateTime) (everyone root : InternalKey)
    (passphrase : Bytes) (keyName : String) (ph : Phrases) :
    ∃ K, Consistent P (initKeysList P salt now everyone root passphrase keyName)
      (Function.update ph keyName passphrase) K := by
  refine ⟨fun g => ((KeyChain.generateNew everyone root).keys.get? g).getD HashId.zero,
    Consistent.insert (l := ⟨.empty, [], fun _ h => nomatch h⟩)
      (fun g k ⟨n, e, he, _⟩ => by simp at he)
      (fun _ _ => rfl) ?_⟩
  rw [Function.update_same, createKey_salt, unwrapChain_createKey]
  exact chainAgrees_getD _ fun _ => HashId.zero

variable (hinj : ∀ a b : HashId, P.sha3 a.bytes = P.sha3 b.bytes → a = b)
include hinj

/-- Under an injective SHA-3, a passphrase that matches an entry derives the same key as the
passphrase that set it. -/
theorem derived_eq_of_matchKey {e : KdfEntry} {p q : Bytes} {d : HashId}
    (hq : matchKey P q e = some (P.scrypt q e.salt)) (hp : matchKey P p e = some d) :
    d = P.scrypt q e.salt :=
  hinj _ _ ((matchKey_eq_some.mp hp).2.2.trans (matchKey_eq_some.mp hq).2.2.symm)

theorem chainAgrees_of_tryDeriveKeySingle (hd : Derivable P l ph) (hc : Consistent P l ph K)
    {n : String} {e : KdfEntry} {p : Bytes} {c : KeyChain} (he : l.keys.get? n = some e)
    (h : tryDeriveKeySingle P p e = some c) : ChainAgrees K c := by
  obtain ⟨d, hm, rfl⟩ := tryDeriveKeySingle_eq_some.mp h
  rw [derived_eq_of_matchKey hinj (hd n e he) hm]
  exact fun g k hk => hc g k ⟨n, e, he, hk⟩

theorem chainAgrees_of_tryDeriveKey (hd : Derivable P l ph) (hc : Consistent P l ph K)
    {keys : BTreeMap String KdfEntry}
    (hkeys : ∀ n e, keys.get? n = some e → l.keys.get? n = some e)
    {p : Bytes} {c : KeyChain} (h : tryDeriveKey P p keys = some c) : ChainAgrees K c := by
  obtain ⟨n, e, he, hce⟩ := tryDeriveKey_eq_some h
  exact chainAgrees_of_tryDeriveKeySingle hinj hd hc (hkeys n e he) hce

/-- The entry a group call rewraps, unwrapped with the key derived from the passphrase that
set it, gives the chain it was rewrapped to. -/
theorem unwrapChain_reassocKeys_of_match (hd : Derivable P l ph) {n : String} {e : KdfEntry}
    {p : Bytes} {c : KeyChain} (hm : firstMatch P p l.keys = some (n, e, c)) (c' : KeyChain) :
    unwrapChain (reassocKeys (P.scrypt p e.salt) e c') (P.scrypt (ph n) e.salt) = c' := by
  obtain ⟨he, hc⟩ := firstMatch_eq_some hm
  obtain ⟨d, hmk, -⟩ := tryDeriveKeySingle_eq_some.mp hc
  rw [← derived_eq_of_matchKey hinj (hd n e he) hmk, (matchKey_eq_some.mp hmk).2.1]
  exact unwrapChain_reassocKeys ..

theorem chainAgrees_of_firstMatch (hd : Derivable P l ph) (hc : Consistent P l ph K)
    {n : String} {e : KdfEntry} {p : Bytes} {c : KeyChain}
    (hm : firstMatch P p l.keys = some (n, e, c)) : ChainAgrees K c :=
  chainAgrees_of_tryDeriveKeySingle hinj hd hc (firstMatch_eq_some hm).1 (firstMatch_eq_some hm).2

/-- The chain `change_key` copies the target's groups from agrees with `K`: the target's own,
or another entry's. -/
theorem chainAgrees_of_changeKeyChain (hd : Derivable P l ph) (hc : Consistent P l ph K)
    {m : String} {e : KdfEntry} (he : l.keys.get? m = some e) {old : Bytes} {allow : Bool}
    {kc : KeyChain} (h : changeKeyChain P old allow e (l.keys.erase m) = .ok kc) :
    ChainAgrees K kc := by
  rcases changeKeyChain_ok h with h | ⟨-, h⟩
  · exact chainAgrees_of_tryDeriveKeySingle hinj hd hc he h
  · exact chainAgrees_of_tryDeriveKey hinj hd hc
      (fun n e hn => by by_cases h : n = m <;> simp_all) h

/-! ### Each call against consistency -/

theorem consistent_addKey (hd : Derivable P l ph) (hc : Consistent P l ph K) {salt : HashId}
    {now : DateTime} {old new : Bytes} {name : String}
    (h : (Op.addKey salt now old new name).edit P l = .ok l') :
    Consistent P l' (Function.update ph name new) K := by
  obtain ⟨c, hc', -, rfl⟩ := Op.addKey_edit_ok h
  refine hc.insert (fun m hm => Function.update_noteq hm _ _) ?_
  rw [Function.update_same, createKey_salt, unwrapChain_createKey]
  exact chainAgrees_of_tryDeriveKey hinj hd hc (fun _ _ => id) hc'

theorem consistent_changeKey (hd : Derivable P l ph) (hc : Consistent P l ph K) {salt : HashId}
    {now : DateTime} {old new : Bytes} {name : Option String} {allow : Bool}
    (h : (Op.changeKey salt now old new name allow).edit P l = .ok l') :
    ∃ m, changeKeyTarget name l.keys = .ok m ∧
      Consistent P l' (Function.update ph m new) K := by
  obtain ⟨m, e, kc, c, ht, he, hkc, hcopy, rfl⟩ := Op.changeKey_edit_ok h
  refine ⟨m, ht, (hc.erase m).insert (fun _ hm' => Function.update_noteq hm' _ _) ?_⟩
  rw [Function.update_same, createKey_salt, unwrapChain_createKey]
  have hkc := chainAgrees_of_changeKeyChain hinj hd hc he hkc
  intro g k hk
  rw [(copyGroups_ok hcopy).2 g] at hk
  split_ifs at hk
  · exact hkc g k hk
  · simp [KeyChain.empty] at hk

/-- `create_group`'s new keys join `K`; the keys of the groups carried before stay. -/
theorem consistent_createGroup (hd : Derivable P l ph) (hc : Consistent P l ph K)
    {fresh : Nat → InternalKey} {p : Bytes} {names : List String}
    (h : (Op.createGroup fresh p names).edit P l = .ok l') :
    ∃ K', Consistent P l' ph K' ∧ ∀ g, carries l.keys g = true → K' g = K g := by
  obtain ⟨hfresh, n, e, c, hm, rfl⟩ := Op.createGroup_edit_ok h
  have hK : ∀ g, carries l.keys g = true →
      ((insertGenerated fresh names c).keys.get? g).getD (K g) = K g := by
    intro g hg
    have hg' : g ∉ names := fun hn => by simp [hfresh g hn] at hg
    rw [(insertGenerated_get? fresh names c g).1 hg']
    cases hk : c.keys.get? g with
    | none => rfl
    | some k => exact chainAgrees_of_firstMatch hinj hd hc hm g k hk
  refine ⟨_, (hc.congr hK).insert (fun _ _ => rfl) ?_, hK⟩
  rw [reassocKeys_salt, unwrapChain_reassocKeys_of_match hinj hd hm]
  exact chainAgrees_getD _ _

theorem consistent_assocGroup (hd : Derivable P l ph) (hc : Consistent P l ph K)
    {src dst : Bytes} {names : List String}
    (h : (Op.assocGroup src dst names).edit P l = .ok l') : Consistent P l' ph K := by
  obtain ⟨sc, n, e, c, c', hs, hm, ha, rfl⟩ := Op.assocGroup_edit_ok h
  refine hc.insert (fun _ _ => rfl) ?_
  rw [reassocKeys_salt, unwrapChain_reassocKeys_of_match hinj hd hm]
  intro g k hk
  rw [(assocNames_ok ha).2 g] at hk
  split_ifs at hk
  · exact chainAgrees_of_tryDeriveKey hinj hd hc (fun _ _ => id) hs g k hk
  · exact chainAgrees_of_firstMatch hinj hd hc hm g k hk

/-- A successful call keeps consistency, with a key map that keeps the key of every group
carried before it. -/
theorem consistent_of_edit (hd : Derivable P l ph) (hc : Consistent P l ph K) {op : Op}
    (h : op.edit P l = .ok l') :
    ∃ K', Consistent P l' (op.phrases l ph) K' ∧
      ∀ g, carries l.keys g = true → K' g = K g := by
  cases op with
  | addKey =>
    exact ⟨K, consistent_addKey hinj hd hc h, fun _ _ => rfl⟩
  | changeKey salt now old new name allow =>
    obtain ⟨m, ht, hc'⟩ := consistent_changeKey hinj hd hc h
    exact ⟨K, by rwa [Op.phrases_of_setsPhrase (Op.setsPhrase_changeKey ht)], fun _ _ => rfl⟩
  | delKey name =>
    obtain ⟨_, -, -, -, rfl⟩ := Op.delKey_edit_ok h
    exact ⟨K, hc.erase name, fun _ _ => rfl⟩
  | deriveKeyChain =>
    obtain ⟨m, e, _, hm, rfl⟩ := Op.deriveKeyChain_edit_ok h
    exact ⟨K, hc.insert_sub (firstMatch_eq_some hm).1 rfl fun _ _ => id, fun _ _ => rfl⟩
  | createGroup =>
    exact consistent_createGroup hinj hd hc h
  | assocGroup =>
    exact ⟨K, consistent_assocGroup hinj hd hc h, fun _ _ => rfl⟩
  | disassocGroup key names =>
    obtain ⟨-, e, he, -, -, rfl⟩ := Op.disassocGroup_edit_ok h
    refine ⟨K, hc.insert_sub he rfl fun g w => ?_, fun _ _ => rfl⟩
    by_cases hg : g ∈ names <;> simp [hg]
  | destroyGroup names =>
    obtain ⟨-, -, rfl⟩ := Op.destroyGroup_edit_ok h
    refine ⟨K, hc.of_sub fun n e' he' => ?_, fun _ _ => rfl⟩
    simp only [get?_mapValues, Option.map_eq_some'] at he'
    obtain ⟨e, he, rfl⟩ := he'
    exact ⟨e, he, rfl, fun g w => by by_cases hg : g ∈ names <;> simp [hg]⟩

/-- Derivability and a consistent key map hold after `init_keys` and are kept by every
successful call. -/
theorem keys_inductive :
    Inductive P fun l ph => Derivable P l ph ∧ ∃ K, Consistent P l ph K where
  init salt now everyone root passphrase keyName ph :=
    ⟨derivable_initKeysList salt now everyone root passphrase keyName ph,
      consistent_initKeysList salt now everyone root passphrase keyName ph⟩
  step _ _ _ _ _ hi h :=
    have ⟨K', hc', _⟩ := consistent_of_edit hinj hi.1 hi.2.choose_spec h
    ⟨derivable_of_edit hi.1 h, K', hc'⟩

end Consistency

/-- Group-key consistency and stability: with SHA-3 injective on 32-byte inputs, in every
reachable state any two entries carrying a group unwrap it to the same internal key, and a
successful call leaves the key of every group carried before and after it unchanged. -/
theorem group_keys_consistent (hinj : ∀ a b : HashId, P.sha3 a.bytes = P.sha3 b.bytes → a = b)
    {l : KdfList} {ph : Phrases} (h : Reachable P l ph) :
    (∀ g k₁ k₂, UnwrapsTo P l ph g k₁ → UnwrapsTo P l ph g k₂ → k₁ = k₂) ∧
    ∀ (op : Op) (l' : KdfList), op.edit P l = .ok l' → ∀ g k k',
      UnwrapsTo P l ph g k → UnwrapsTo P l' (op.phrases l ph) g k' → k' = k := by
  obtain ⟨hd, K, hc⟩ := (keys_inductive hinj).invariant h
  refine ⟨fun g k₁ k₂ h₁ h₂ => (hc g k₁ h₁).trans (hc g k₂ h₂).symm,
    fun op l' hop g k k' hu hu' => ?_⟩
  obtain ⟨K', hc', hK⟩ := consistent_of_edit hinj hd hc hop
  rw [hc' g k' hu', hK g (carries_of_unwrapsTo hu), hc g k hu]

theorem initKeys_group_keys_agree :
    (∀ g k₁ k₂,
      UnwrapsTo .plain (initKeysList .plain HashId.zero .epoch HashId.zero HashId.zero [] "main")
        (Function.update (fun _ => []) "main" []) g k₁ →
      UnwrapsTo .plain (initKeysList .plain HashId.zero .epoch HashId.zero HashId.zero [] "main")
        (Function.update (fun _ => []) "main" []) g k₂ → k₁ = k₂) ∧
    ∀ (op : Op) (l' : KdfList),
      op.edit .plain (initKeysList .plain HashId.zero .epoch HashId.zero HashId.zero [] "main") =
        .ok l' → ∀ g k k',
      UnwrapsTo .plain (initKeysList .plain HashId.zero .epoch HashId.zero HashId.zero [] "main")
        (Function.update (fun _ => []) "main" []) g k →
      UnwrapsTo .plain l' (op.phrases
        (initKeysList .plain HashId.zero .epoch HashId.zero HashId.zero [] "main")
        (Function.update (fun _ => []) "main" [])) g k' → k' = k :=
  group_keys_consistent Primitives.plain_sha3_injective
    (.init HashId.zero .epoch HashId.zero HashId.zero [] "main" fun _ => [])

end Ensync.KeyMgmt
