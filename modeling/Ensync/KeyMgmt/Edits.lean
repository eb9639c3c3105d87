import Ensync.Kdf

/-!
# The key-management edits

Each mutating operation of `keymgmt.rs` is a closure handed to `edit_kdflist`,
which runs it on the KDF list it read and writes the list back only when the
closure returns `Ok`; `disassoc_group` and `destroy_group` first refuse the
built-in groups, before any transaction. This module models those closures as
functions `KdfList → Except ErrorKind (R × KdfList)`, with the random values and
times they draw as arguments.

`Op` collects the calls, with everything they draw, and `Op.edit` is what a call
does to the list it reads. What a successful call did is stated once per call
(`Op.addKey_edit_ok` and the like: its check and its closure together); the
invariants are derived from these alone.
-/

namespace Ensync.KeyMgmt

variable (P : Primitives)

/-- `kdflist.keys.values().any(|e| e.groups.contains_key(g))`: some entry carries `g`. -/
def carries (keys : BTreeMap String KdfEntry) (g : String) : Bool :=
  keys.values.any fun e => e.groups.containsKey g

/-- The entry a `for (_, e) in &mut kdflist.keys` loop over `try_derive_key_single` stops at:
the first, in name order, that the passphrase matches, with its chain. -/
def firstMatch (passphrase : Bytes) (keys : BTreeMap String KdfEntry) :
    Option (String × KdfEntry × KeyChain) :=
  keys.findSome? fun n e => (tryDeriveKeySingle P passphrase e).map fun c => (n, e, c)

/-! ## The closures -/

/-- The edit of `add_key(old_passphrase, new_passphrase, new_name)`; `salt` and `now` are what
`create_key` and `UTC::now()` draw. -/
def addKeyEdit (salt : HashId) (now : DateTime) (oldPassphrase newPassphrase : Bytes)
    (newName : String) (kdflist : KdfList) : Except ErrorKind (Unit × KdfList) :=
  match tryDeriveKey P oldPassphrase kdflist.keys with
  | none => .error .passphraseNotInKdfList
  | some keyChain =>
    -- `insert(..).is_some()`: the name was in use
    match kdflist.keys.get? newName with
    | some _ => .error (.keyNameAlreadyInUse newName)
    | none => .ok ((), { kdflist with keys := (kdflist.keys.insert newName
        (createKey P salt newPassphrase keyChain now none none)) })

/-- The edit of `del_key(name)`. -/
def delKeyEdit (name : String) (kdflist : KdfList) : Except ErrorKind (Unit × KdfList) :=
  match kdflist.keys.get? name with
  | none => .error (.keyNotInKdfList name)
  | some oldEntry =>
    let keys := kdflist.keys.erase name
    if keys.isEmpty then .error .wouldRemoveLastKdfEntry
    else
      match oldEntry.groups.keys.find? (fun g => !carries keys g) with
      | some g => .error (.wouldDisassocLastKeyFromGroup name g)
      | none => .ok ((), { kdflist with keys })

/-- The entry `change_key` edits: the one named, or else the only one (`1 == len()`). -/
def changeKeyTarget (name : Option String) (keys : BTreeMap String KdfEntry) :
    Except ErrorKind String :=
  match name with
  | some name => .ok name
  | none =>
    match keys.keys with
    | [k] => .ok k
    | _ => .error .anonChangeKeyButMultipleKdfEntries

/-- The chain `change_key` copies the target's groups from: the target's own, or else, when
`allow_change_via_other_passphrase`, that of the first other entry the passphrase matches. -/
def changeKeyChain (oldPassphrase : Bytes) (allow : Bool) (oldEntry : KdfEntry)
    (keys : BTreeMap String KdfEntry) : Except ErrorKind KeyChain :=
  match tryDeriveKeySingle P oldPassphrase oldEntry with
  | some mk => .ok mk
  | none =>
    match tryDeriveKey P oldPassphrase keys with
    | some mk => if allow then .ok mk else .error .changeKeyWithPassphraseMismatch
    | none => .error .passphraseNotInKdfList

/-- `for group in groups { new_chain.keys.insert(group, key_chain.key(group)?) }`. -/
def copyGroups (keyChain : KeyChain) : List String → KeyChain → Except ErrorKind KeyChain
  | [], newChain => .ok newChain
  | g :: gs, newChain =>
    match keyChain.key g with
    | .ok k => copyGroups keyChain gs ⟨newChain.keys.insert g k⟩
    | .error e => .error e

/-- The edit of `change_key(old_passphrase, new_passphrase, name,
allow_change_via_other_passphrase)`. -/
def changeKeyEdit (salt : HashId) (now : DateTime) (oldPassphrase newPassphrase : Bytes)
    (name : Option String) (allowChangeViaOtherPassphrase : Bool) (kdflist : KdfList) :
    Except ErrorKind (Unit × KdfList) :=
  match changeKeyTarget name kdflist.keys with
  | .error e => .error e
  | .ok realName =>
    match kdflist.keys.get? realName with
    | none => .error (.keyNotInKdfList realName)
    | some oldEntry =>
      let keys := kdflist.keys.erase realName
      match changeKeyChain P oldPassphrase allowChangeViaOtherPassphrase oldEntry keys with
      | .error e => .error e
      | .ok keyChain =>
        match copyGroups keyChain oldEntry.groups.keys .empty with
        | .error e => .error e
        | .ok newChain => .ok ((), { kdflist with keys := (keys.insert realName
            (createKey P salt newPassphrase newChain oldEntry.created (some now) oldEntry.used)) })

/-- The edit of `derive_key_chain(passphrase)`: the first matching entry's `used` is set. -/
def deriveKeyChainEdit (now : DateTime) (passphrase : Bytes) (kdflist : KdfList) :
    Except ErrorKind (KeyChain × KdfList) :=
  match firstMatch P passphrase kdflist.keys with
  | some (n, e, keyChain) =>
    .ok (keyChain, { kdflist with keys := kdflist.keys.insert n { e with used := some now } })
  | none => .error .passphraseNotInKdfList

/-- `for name in names { key_chain.keys.insert(name, InternalKey::generate_new()) }`, the
`i`-th key drawn being `fresh i`. -/
def insertGenerated (fresh : Nat → InternalKey) : List String → KeyChain → KeyChain
  | [], c => c
  | name :: names, c =>
    insertGenerated (fun i => fresh (i + 1)) names ⟨c.keys.insert name (fresh 0)⟩

/-- The edit of `create_group(passphrase, names)`. -/
def createGroupEdit (fresh : Nat → InternalKey) (passphrase : Bytes) (names : List String)
    (kdflist : KdfList) : Except ErrorKind (Unit × KdfList) :=
  match names.find? (carries kdflist.keys) with
  | some name => .error (.groupNameAlreadyInUse name)
  | none =>
    match firstMatch P passphrase kdflist.keys with
    | none => .error .passphraseNotInKdfList
    | some (n, e, keyChain) => .ok ((), { kdflist with keys := (kdflist.keys.insert n
        (reassocKeys (P.scrypt passphrase e.salt) e (insertGenerated fresh names keyChain))) })

/-- The inner loop of `assoc_group`: each name must be new to the chain and is copied from
the source chain. -/
def assocNames (srcChain : KeyChain) : List String → KeyChain → Except ErrorKind KeyChain
  | [], c => .ok c
  | name :: names, c =>
    if c.keys.containsKey name then .error (.keyAlreadyInGroup name)
    else
      match srcChain.key name with
      | .ok k => assocNames srcChain names ⟨c.keys.insert name k⟩
      | .error e => .error e

/-- The edit of `assoc_group(src_passphrase, dst_passphrase, names)`. -/
def assocGroupEdit (srcPassphrase dstPassphrase : Bytes) (names : List String)
    (kdflist : KdfList) : Except ErrorKind (Unit × KdfList) :=
  match tryDeriveKey P srcPassphrase kdflist.keys with
  | none => .error .passphraseNotInKdfList
  | some srcChain =>
    match firstMatch P dstPassphrase kdflist.keys with
    | none => .error .passphraseNotInKdfList
    | some (n, e, keyChain) =>
      match assocNames srcChain names keyChain with
      | .error err => .error err
      | .ok keyChain' => .ok ((), { kdflist with keys := (kdflist.keys.insert n
          (reassocKeys (P.scrypt dstPassphrase e.salt) e keyChain')) })

/-- The loop of `disassoc_group` over one entry: each name must be there and is removed. -/
def removeGroups : List String → BTreeMap String HashId →
    Except ErrorKind (BTreeMap String HashId)
  | [], groups => .ok groups
  | name :: names, groups =>
    if groups.containsKey name then removeGroups names (groups.erase name)
    else .error (.keyNotInGroup name)

/-- The check `disassoc_group` makes before its transaction. -/
def disassocGroupCheck (names : List String) : Except ErrorKind Unit :=
  if names.contains groupEveryone then .error (.cannotDisassocGroup groupEveryone) else .ok ()

/-- The edit of `disassoc_group(key, names)`. -/
def disassocGroupEdit (key : String) (names : List String) (kdflist : KdfList) :
    Except ErrorKind (Unit × KdfList) :=
  match kdflist.keys.get? key with
  | none => .error (.keyNotInKdfList key)
  | some entry =>
    match removeGroups names entry.groups with
    | .error e => .error e
    | .ok groups =>
      let keys := kdflist.keys.insert key { entry with groups }
      match names.find? (fun name => !carries keys name) with
      | some name => .error (.wouldDisassocLastKeyFromGroup key name)
      | none => .ok ((), { kdflist with keys })

/-- The check `destroy_group` makes before its transaction. -/
def destroyGroupCheck (names : List String) : Except ErrorKind Unit :=
  match names.find? (fun name => name = groupEveryone || name = groupRoot) with
  | some name => .error (.cannotDestroyGroup name)
  | none => .ok ()

/-- The edit of `destroy_group(names)`: each name is removed from every entry and must have
been on one. -/
def destroyGroupEdit : List String → KdfList → Except ErrorKind (Unit × KdfList)
  | [], kdflist => .ok ((), kdflist)
  | name :: names, kdflist =>
    if carries kdflist.keys name then
      destroyGroupEdit names
        { kdflist with
          keys := kdflist.keys.mapValues fun e => { e with groups := e.groups.erase name } }
    else .error (.groupNotInKdfList name)

/-- The list `init_keys(passphrase, key_name)` writes, with what it draws: the salt, the time
and the two keys of `KeyChain::generate_new()`. -/
def initKeysList (salt : HashId) (now : DateTime) (everyone root : InternalKey)
    (passphrase : Bytes) (keyName : String) : KdfList :=
  { keys := BTreeMap.empty.insert keyName
      (createKey P salt passphrase (KeyChain.generateNew everyone root) now none none)
    unknown := []
    unknown_tags := fun _ h => nomatch h }

/-! ## What a successful edit did

One lemma per closure and per inner loop, read off its branches; every later
proof goes through these and never unfolds a closure. -/

/-- `remove` of every name in turn from a group map. -/
def eraseAll (names : List String) (groups : BTreeMap String HashId) : BTreeMap String HashId :=
  names.foldl BTreeMap.erase groups

@[simp] theorem get?_eraseAll (names : List String) (groups : BTreeMap String HashId) (g : String) :
    (eraseAll names groups).get? g = if g ∈ names then none else groups.get? g := by
  induction names generalizing groups with
  | nil => simp [eraseAll]
  | cons n names ih =>
    simp only [eraseAll, List.foldl_cons] at ih ⊢
    rw [ih]; by_cases h₁ : g ∈ names <;> by_cases h₂ : g = n <;> simp [h₁, h₂]

theorem copyGroups_ok {keyChain c c' : KeyChain} :
    ∀ {gs : List String}, copyGroups keyChain gs c = .ok c' →
      (∀ g ∈ gs, (keyChain.keys.get? g).isSome) ∧
      ∀ g, c'.keys.get? g = if g ∈ gs then keyChain.keys.get? g else c.keys.get? g
  | [], h => by cases h; simp
  | g₀ :: gs, h => by
    unfold copyGroups at h
    split at h
    · rename_i k hk
      obtain ⟨h₁, h₂⟩ := copyGroups_ok h
      rw [key_eq_ok] at hk
      refine ⟨fun g hg => ?_, fun g => ?_⟩
      · rcases List.mem_cons.mp hg with rfl | hg
        · simp [hk]
        · exact h₁ g hg
      · rw [h₂ g]
        by_cases h₃ : g ∈ gs <;> by_cases h₄ : g = g₀ <;> simp_all
    · cases h

theorem insertGenerated_get? (fresh : Nat → InternalKey) :
    ∀ (names : List String) (c : KeyChain) (g : String),
      (g ∉ names → (insertGenerated fresh names c).keys.get? g = c.keys.get? g) ∧
      (g ∈ names → ∃ k, (insertGenerated fresh names c).keys.get? g = some k)
  | [], c, g => by simp [insertGenerated]
  | n :: names, c, g => by
    have ih := insertGenerated_get? (fun i => fresh (i + 1)) names ⟨c.keys.insert n (fresh 0)⟩ g
    simp only [insertGenerated, List.mem_cons, not_or] at ih ⊢
    refine ⟨fun ⟨h₁, h₂⟩ => by simp [ih.1 h₂, h₁], fun h => ?_⟩
    by_cases h₂ : g ∈ names
    · exact ih.2 h₂
    · obtain rfl := h.resolve_right h₂
      exact ⟨fresh 0, by rw [ih.1 h₂]; simp⟩

theorem assocNames_ok {srcChain c c' : KeyChain} :
    ∀ {names : List String}, assocNames srcChain names c = .ok c' →
      (∀ g ∈ names, c.keys.get? g = none ∧ (srcChain.keys.get? g).isSome) ∧
      ∀ g, c'.keys.get? g = if g ∈ names then srcChain.keys.get? g else c.keys.get? g
  | [], h => by cases h; simp
  | n :: names, h => by
    unfold assocNames at h
    split at h
    · cases h
    · rename_i hn
      split at h
      · rename_i k hk
        obtain ⟨h₁, h₂⟩ := assocNames_ok h
        rw [key_eq_ok] at hk
        simp only [BTreeMap.containsKey, Option.isSome_iff_ne_none, ne_eq, not_not] at hn
        refine ⟨fun g hg => ?_, fun g => ?_⟩
        · rcases List.mem_cons.mp hg with rfl | hg
          · simp [hk, hn]
          · have := h₁ g hg
            by_cases h₄ : g = n <;> simp_all
        · rw [h₂ g]
          by_cases h₃ : g ∈ names <;> by_cases h₄ : g = n <;> simp_all
      · cases h

theorem removeGroups_ok {groups groups' : BTreeMap String HashId} :
    ∀ {names : List String}, removeGroups names groups = .ok groups' →
      (∀ g ∈ names, groups.containsKey g) ∧ groups' = eraseAll names groups
  | [], h => by cases h; exact ⟨by simp, rfl⟩
  | n :: names, h => by
    unfold removeGroups at h
    split at h
    · rename_i hn
      obtain ⟨h₁, h₂⟩ := removeGroups_ok h
      refine ⟨fun g hg => ?_, h₂⟩
      rcases List.mem_cons.mp hg with rfl | hg
      · exact hn
      · have := h₁ g hg
        simp only [BTreeMap.containsKey, BTreeMap.get?_erase] at this
        split_ifs at this
        · simp at this
        · exact this
    · cases h

theorem carries_iff {keys : BTreeMap String KdfEntry} {g : String} :
    carries keys g = true ↔ ∃ n e, keys.get? n = some e ∧ e.groups.containsKey g = true :=
  BTreeMap.any_values

theorem exists_of_map_snd_eq_ok {α β : Type} {x : Except ErrorKind (α × β)} {b : β}
    (h : x.map (·.2) = .ok b) : ∃ a, x = .ok (a, b) := by
  cases x with
  | error e => cases h
  | ok v => cases h; exact ⟨v.1, rfl⟩

theorem disassocGroupCheck_ok {names : List String} (h : disassocGroupCheck names = .ok ()) :
    groupEveryone ∉ names := by
  unfold disassocGroupCheck at h
  split at h
  · cases h
  · rename_i hc
    simpa using hc

theorem destroyGroupCheck_ok {names : List String} (h : destroyGroupCheck names = .ok ()) :
    groupEveryone ∉ names ∧ groupRoot ∉ names := by
  unfold destroyGroupCheck at h
  split at h
  · cases h
  · rename_i hfind
    have := List.find?_eq_none.mp hfind
    exact ⟨fun hm => by simpa using this _ hm, fun hm => by simpa using this _ hm⟩

/-! ## Calls -/

/-- A call of a mutating key-management operation on an initialised store, with every value
it draws. -/
inductive Op
  | addKey (salt : HashId) (now : DateTime) (oldPassphrase newPassphrase : Bytes)
      (newName : String)
  | delKey (name : String)
  | changeKey (salt : HashId) (now : DateTime) (oldPassphrase newPassphrase : Bytes)
      (name : Option String) (allowChangeViaOtherPassphrase : Bool)
  | deriveKeyChain (now : DateTime) (passphrase : Bytes)
  | createGroup (fresh : Nat → InternalKey) (passphrase : Bytes) (names : List String)
  | assocGroup (srcPassphrase dstPassphrase : Bytes) (names : List String)
  | disassocGroup (key : String) (names : List String)
  | destroyGroup (names : List String)

/-- What a call does to the list it reads: its check, then its edit; the list it writes back,
or the error it returns. -/
def Op.edit : Op → KdfList → Except ErrorKind KdfList
  | .addKey salt now old new name, l => (addKeyEdit P salt now old new name l).map (·.2)
  | .delKey name, l => (delKeyEdit name l).map (·.2)
  | .changeKey salt now old new name allow, l =>
    (changeKeyEdit P salt now old new name allow l).map (·.2)
  | .deriveKeyChain now passphrase, l => (deriveKeyChainEdit P now passphrase l).map (·.2)
  | .createGroup fresh passphrase names, l =>
    (createGroupEdit P fresh passphrase names l).map (·.2)
  | .assocGroup src dst names, l => (assocGroupEdit P src dst names l).map (·.2)
  | .disassocGroup key names, l =>
    (disassocGroupCheck names).bind fun _ => (disassocGroupEdit key names l).map (·.2)
  | .destroyGroup names, l =>
    (destroyGroupCheck names).bind fun _ => (destroyGroupEdit names l).map (·.2)

/-! ## What a successful call did -/

section EditOk

variable {P} {r : Unit} {l l' : KdfList}

theorem Op.addKey_edit_ok {salt : HashId} {now : DateTime} {old new : Bytes} {name : String}
    (h : (Op.addKey salt now old new name).edit P l = .ok l') :
    ∃ keyChain, tryDeriveKey P old l.keys = some keyChain ∧ l.keys.get? name = none ∧
      l' = { l with keys := l.keys.insert name (createKey P salt new keyChain now none none) } := by
  obtain ⟨_, h⟩ := exists_of_map_snd_eq_ok h
  unfold addKeyEdit at h
  split at h
  · cases h
  · split at h
    · cases h
    · cases h; exact ⟨_, ‹_›, ‹_›, rfl⟩

theorem Op.delKey_edit_ok {name : String} (h : (Op.delKey name).edit P l = .ok l') :
    ∃ e, l.keys.get? name = some e ∧ (l.keys.erase name).isEmpty = false ∧
      (∀ g ∈ e.groups.keys, carries (l.keys.erase name) g) ∧
      l' = { l with keys := l.keys.erase name } := by
  obtain ⟨_, h⟩ := exists_of_map_snd_eq_ok h
  unfold delKeyEdit at h
  split at h
  · cases h
  · rename_i e he
    dsimp only at h
    split at h
    · cases h
    · split at h
      · cases h
      · rename_i hne _ hfind
        cases h
        refine ⟨e, he, by simpa using hne, fun g hg => ?_, rfl⟩
        simpa using List.find?_eq_none.mp hfind g hg

theorem Op.changeKey_edit_ok {salt : HashId} {now : DateTime} {old new : Bytes}
    {name : Option String} {allow : Bool}
    (h : (Op.changeKey salt now old new name allow).edit P l = .ok l') :
    ∃ realName oldEntry keyChain newChain, changeKeyTarget name l.keys = .ok realName ∧
      l.keys.get? realName = some oldEntry ∧
      changeKeyChain P old allow oldEntry (l.keys.erase realName) = .ok keyChain ∧
      copyGroups keyChain oldEntry.groups.keys .empty = .ok newChain ∧
      l' = { l with keys := ((l.keys.erase realName).insert realName
        (createKey P salt new newChain oldEntry.created (some now) oldEntry.used)) } := by
  obtain ⟨_, h⟩ := exists_of_map_snd_eq_ok h
  unfold changeKeyEdit at h
  split at h
  · cases h
  · split at h
    · cases h
    · dsimp only at h
      split at h
      · cases h
      · split at h
        · cases h
        · cases h; exact ⟨_, _, _, _, ‹_›, ‹_›, ‹_›, ‹_›, rfl⟩

theorem changeKeyChain_ok {old : Bytes} {allow : Bool} {e : KdfEntry}
    {keys : BTreeMap String KdfEntry} {keyChain : KeyChain}
    (h : changeKeyChain P old allow e keys = .ok keyChain) :
    tryDeriveKeySingle P old e = some keyChain ∨
      allow = true ∧ tryDeriveKey P old keys = some keyChain := by
  unfold changeKeyChain at h
  split at h
  · cases h; exact .inl ‹_›
  · split at h
    · split_ifs at h with ha
      cases h; exact .inr ⟨ha, ‹_›⟩
    · cases h

theorem Op.deriveKeyChain_edit_ok {now : DateTime} {passphrase : Bytes}
    (h : (Op.deriveKeyChain now passphrase).edit P l = .ok l') :
    ∃ n e keyChain, firstMatch P passphrase l.keys = some (n, e, keyChain) ∧
      l' = { l with keys := l.keys.insert n { e with used := some now } } := by
  obtain ⟨_, h⟩ := exists_of_map_snd_eq_ok h
  unfold deriveKeyChainEdit at h
  split at h
  · cases h; exact ⟨_, _, _, ‹_›, rfl⟩
  · cases h

theorem Op.createGroup_edit_ok {fresh : Nat → InternalKey} {passphrase : Bytes}
    {names : List String} (h : (Op.createGroup fresh passphrase names).edit P l = .ok l') :
    (∀ name ∈ names, carries l.keys name = false) ∧
    ∃ n e keyChain, firstMatch P passphrase l.keys = some (n, e, keyChain) ∧
      l' = { l with keys := (l.keys.insert n
        (reassocKeys (P.scrypt passphrase e.salt) e (insertGenerated fresh names keyChain))) } := by
  obtain ⟨_, h⟩ := exists_of_map_snd_eq_ok h
  unfold createGroupEdit at h
  split at h
  · cases h
  · rename_i hfind
    split at h
    · cases h
    · cases h
      exact ⟨fun name hn => by simpa using List.find?_eq_none.mp hfind name hn,
        _, _, _, ‹_›, rfl⟩

theorem Op.assocGroup_edit_ok {src dst : Bytes} {names : List String}
    (h : (Op.assocGroup src dst names).edit P l = .ok l') :
    ∃ srcChain n e keyChain keyChain', tryDeriveKey P src l.keys = some srcChain ∧
      firstMatch P dst l.keys = some (n, e, keyChain) ∧
      assocNames srcChain names keyChain = .ok keyChain' ∧
      l' = { l with keys := l.keys.insert n (reassocKeys (P.scrypt dst e.salt) e keyChain') } := by
  obtain ⟨_, h⟩ := exists_of_map_snd_eq_ok h
  unfold assocGroupEdit at h
  split at h
  · cases h
  · split at h
    · cases h
    · split at h
      · cases h
      · cases h; exact ⟨_, _, _, _, _, ‹_›, ‹_›, ‹_›, rfl⟩

theorem disassocGroupEdit_ok {key : String} {names : List String}
    (h : disassocGroupEdit key names l = .ok (r, l')) :
    ∃ entry, l.keys.get? key = some entry ∧ (∀ g ∈ names, entry.groups.containsKey g) ∧
      (∀ g ∈ names, carries l'.keys g) ∧
      l' = { l with
        keys := l.keys.insert key { entry with groups := eraseAll names entry.groups } } := by
  unfold disassocGroupEdit at h
  split at h
  · cases h
  · split at h
    · cases h
    · rename_i _ entry he _ groups hg
      obtain ⟨hmem, rfl⟩ := removeGroups_ok hg
      dsimp only at h
      split at h
      · cases h
      · rename_i hfind
        cases h
        exact ⟨entry, he, hmem,
          fun g hg => by simpa using List.find?_eq_none.mp hfind g hg, rfl⟩

theorem destroyGroupEdit_ok :
    ∀ {names : List String} {l l' : KdfList}, destroyGroupEdit names l = .ok (r, l') →
      (∀ g ∈ names, carries l.keys g) ∧
      l' = { l with keys := l.keys.mapValues fun e => { e with groups := eraseAll names e.groups } }
  | [], l, l', h => by
    cases h
    refine ⟨by simp, ?_⟩
    obtain ⟨keys, unknown, hu⟩ := l
    simp only [KdfList.mk.injEq, and_true]
    exact BTreeMap.ext fun n => by cases h : keys.get? n <;> simp [eraseAll, h]
  | n :: names, l, l', h => by
    unfold destroyGroupEdit at h
    split at h
    · rename_i hn
      obtain ⟨h₁, rfl⟩ := destroyGroupEdit_ok h
      refine ⟨fun g hg => ?_, ?_⟩
      · rcases List.mem_cons.mp hg with rfl | hg
        · exact hn
        · obtain ⟨m, e, he, hc⟩ := carries_iff.mp (h₁ g hg)
          simp only [BTreeMap.get?_mapValues, Option.map_eq_some'] at he
          obtain ⟨e₀, he₀, rfl⟩ := he
          simp only [BTreeMap.containsKey, BTreeMap.get?_erase] at hc
          split_ifs at hc
          · simp at hc
          · exact carries_iff.mpr ⟨m, e₀, he₀, hc⟩
      · simp only [BTreeMap.mapValues_mapValues]; rfl
    · cases h

end EditOk

section OpOk

variable {P} {l l' : KdfList}

theorem Op.disassocGroup_edit_ok {key : String} {names : List String}
    (h : (Op.disassocGroup key names).edit P l = .ok l') :
    groupEveryone ∉ names ∧ ∃ entry, l.keys.get? key = some entry ∧
      (∀ g ∈ names, entry.groups.containsKey g) ∧ (∀ g ∈ names, carries l'.keys g) ∧
      l' = { l with
        keys := l.keys.insert key { entry with groups := eraseAll names entry.groups } } := by
  simp only [Op.edit, Except.bind] at h
  split at h
  · cases h
  · obtain ⟨_, h⟩ := exists_of_map_snd_eq_ok h
    exact ⟨disassocGroupCheck_ok ‹_›, disassocGroupEdit_ok h⟩

theorem Op.destroyGroup_edit_ok {names : List String}
    (h : (Op.destroyGroup names).edit P l = .ok l') :
    (groupEveryone ∉ names ∧ groupRoot ∉ names) ∧ (∀ g ∈ names, carries l.keys g) ∧
      l' = { l with
        keys := l.keys.mapValues fun e => { e with groups := eraseAll names e.groups } } := by
  simp only [Op.edit, Except.bind] at h
  split at h
  · cases h
  · obtain ⟨_, h⟩ := exists_of_map_snd_eq_ok h
    exact ⟨destroyGroupCheck_ok ‹_›, destroyGroupEdit_ok h⟩

end OpOk

end Ensync.KeyMgmt
