import Ensync.KeyMgmt.Tx

/-!
# The calls outside `edit_kdflist`

`init_keys` runs its own closure in `do_tx`: it fails when a KDF list is stored, and otherwise
writes a new list with `put_kdflist` and no old version. `list_keys` reads the stored list
outside any transaction.

* `doTxLoop_committed` — the loop of `do_tx` over any attempt that leaves the committed
  directory alone: an error leaves it as it was, and a success committed the changes one
  attempt staged;
* `initKeys_never_overwrites` — whatever the stored directory and the environment's answers,
  `init_keys` never replaces a key store: an error leaves the committed directory as it was,
  and a success found none and committed the list one of its attempts built;
* `listKeys_spec` — `list_keys` touches nothing and lists the stored entries in name order.
-/

namespace Ensync.KeyMgmt

variable (wire : Wire)

/-! ## The loop of `do_tx` over any attempt -/

/-- The loop of `do_tx` from attempt `k` with `n` attempts left, over attempts that leave
the committed directory as they found it: an error leaves it as it was, and a success
committed the changes that one attempt, run on an open transaction, staged. -/
theorem doTxLoop_committed {R : Type} (g : Nat → StorageM R)
    (hg : ∀ k s, (resultState (g k s)).committed = s.committed) (n : Nat) :
    ∀ k s, (∀ e s', doTxLoop g k n s = .error e s' → s'.committed = s.committed) ∧
      ∀ r s', doTxLoop g k n s = .ok r s' →
        ∃ j, ∃ s₁ s₂ : Storage, k ≤ j ∧ j < k + n ∧
        s₁.committed = s.committed ∧ g j { s₁ with staged := [] } = .ok r s₂ ∧
        s'.committed = applyChanges s₂.staged s.committed := by
  induction n with
  | zero => exact fun k s => ⟨fun e s' h => by cases h; rfl, fun r s' h => by cases h⟩
  | succ n ih =>
    intro k s
    obtain ⟨s₁, hf₁, h₁ | ⟨e, h₁⟩⟩ := startTx_cases s
    · have hc₂ : (resultState (g k { s₁ with staged := [] })).committed = s.committed :=
        (hg k _).trans hf₁.1
      cases hgk : g k { s₁ with staged := [] } with
      | ok r s₂ =>
        simp only [hgk, resultState] at hc₂
        obtain ⟨s₃, hc₃, -, hc | hc | ⟨e, hc⟩⟩ := commit_cases s₂
        · -- the commit took effect
          refine ⟨fun e s' h => by simp [doTxLoop, h₁, hgk, hc] at h, fun r' s' h => ?_⟩
          simp only [doTxLoop, h₁, hgk, hc, EStateM.Result.ok.injEq] at h
          obtain ⟨rfl, rfl⟩ := h
          exact ⟨k, s₁, s₂, le_rfl, by omega, hf₁.1, hgk, by rw [← hc₂]⟩
        · -- a conflict: the next attempt
          have hc₃' : s₃.committed = s.committed := hc₃.trans hc₂
          have hrun : doTxLoop g k (n + 1) s = doTxLoop g (k + 1) n s₃ := by
            simp only [doTxLoop, h₁, hgk, hc]
          obtain ⟨ihe, iho⟩ := ih (k + 1) s₃
          rw [hrun]
          refine ⟨fun e s' h => (ihe e s' h).trans hc₃', fun r' s' h => ?_⟩
          obtain ⟨j, s₄, s₅, hj, hjn, h₄, h₅, h₆⟩ := iho r' s' h
          exact ⟨j, s₄, s₅, by omega, by omega, h₄.trans hc₃', h₅, hc₃' ▸ h₆⟩
        · have hrun : doTxLoop g k (n + 1) s = .error e s₃ := by
            simp only [doTxLoop, h₁, hgk, hc]
          rw [hrun]
          exact ⟨fun _ _ h => by cases h; exact hc₃.trans hc₂,
            fun _ _ h => by cases h⟩
      | error e s₂ =>
        simp only [hgk, resultState] at hc₂
        -- the outcome of the abort is dropped: the attempt's error is returned either way
        have hrun : doTxLoop g k (n + 1) s = .error e (resultState (abort s₂)) := by
          simp only [doTxLoop, h₁, hgk]
          cases abort s₂ <;> rfl
        rw [hrun]
        exact ⟨fun _ _ h => by cases h; exact (abort_frame s₂).1.trans hc₂,
          fun _ _ h => by cases h⟩
    · rw [show doTxLoop g k (n + 1) s = .error e s₁ by simp only [doTxLoop, h₁]]
      exact ⟨fun _ _ h => by cases h; exact hf₁.1, fun _ _ h => by cases h⟩

/-! ## `init_keys` -/

/-- `get_kdflist` found no directory: there is none committed. -/
theorem getKdflist_none {s s' : Storage} (h : getKdflist wire s = .ok none s') :
    s.committed = none ∧ s.Frame s' ∧ s'.staged = s.staged := by
  unfold getKdflist at h
  split at h
  · split at h <;> cases h
  · cases h
    exact (getdir_ok ‹_›).imp Eq.symm id
  · cases h

/-- The closure `init_keys` hands `do_tx`, with the version its attempt draws and the list it
builds: an error when a KDF list is stored, else `put_kdflist` of the new list with no old
version. -/
def initAttempt (newVer : HashId) (kdflist : KdfList) : StorageM Unit := fun s =>
  match getKdflist wire s with
  | .ok (some _) s => .error .kdfListAlreadyExists s
  | .ok none s =>
    match putKdflist wire newVer kdflist none s with
    | .ok _ s => .ok () s
    | .error e s => .error e s
  | .error e s => .error e s

/-- An attempt of `init_keys` touches only its transaction; when it returns `Ok` it found no
directory and staged the `mkdir` of its list. -/
theorem initAttempt_spec (v : HashId) (l : KdfList) (s : Storage) :
    (resultState (initAttempt wire v l s)).committed = s.committed ∧
      ∀ s', initAttempt wire v l s = .ok () s' →
        s.committed = none ∧ s'.staged = s.staged ++ [.mkdir v (serialize wire l)] := by
  have hget := (getKdflist_spec wire s).1
  unfold initAttempt
  split <;> rename_i hg <;> rw [hg] at hget
  · exact ⟨hget.1, fun _ h => by cases h⟩
  · obtain ⟨hnone, -, hs₁⟩ := getKdflist_none wire hg
    rename_i s₁
    obtain ⟨hf, hput⟩ := mkdir_spec v (serialize wire l) s₁
    cases hm : mkdir v (serialize wire l) s₁ with
    | ok u s₂ =>
      rw [hm] at hf
      rw [show putKdflist wire v l none s₁ = .ok (v, (serialize wire l).length) s₂ by
        simp only [putKdflist, hm]]
      exact ⟨hf.1.trans hget.1, fun _ h => by cases h; exact ⟨hnone, hs₁ ▸ hput _ hm⟩⟩
    | error e s₂ =>
      rw [hm] at hf
      rw [show putKdflist wire v l none s₁ = .error e s₂ by simp only [putKdflist, hm]]
      exact ⟨hf.1.trans hget.1, fun _ h => by cases h⟩
  · exact ⟨hget.1, fun _ h => by cases h⟩

section InitKeys

variable (P : Primitives) (fresh salt : Nat → HashId) (now : Nat → DateTime)
  (everyone root : Nat → InternalKey) (passphrase : Bytes) (keyName : String)

/-- `init_keys(passphrase, key_name)`: with `fresh k` the version attempt `k` draws, and
`salt k`, `now k`, `everyone k` and `root k` what its closure draws for the new list. -/
def initKeys : StorageM Unit :=
  doTx fun k => initAttempt wire (fresh k)
    (initKeysList P (salt k) (now k) (everyone k) (root k) passphrase keyName)

/-- `init_keys` never replaces a key store, whatever the stored directory and the
environment's answers: an error leaves the committed directory as it was, and a success
found no directory and committed the list one of its 16 attempts built, under that
attempt's version. -/
theorem initKeys_never_overwrites (s : Storage) :
    (∀ e s', initKeys wire P fresh salt now everyone root passphrase keyName s = .error e s' →
      s'.committed = s.committed) ∧
    ∀ s', initKeys wire P fresh salt now everyone root passphrase keyName s = .ok () s' →
      s.committed = none ∧ ∃ k < 16, s'.committed = some (fresh k, serialize wire
        (initKeysList P (salt k) (now k) (everyone k) (root k) passphrase keyName)) := by
  obtain ⟨he, ho⟩ := doTxLoop_committed (fun k => initAttempt wire (fresh k)
    (initKeysList P (salt k) (now k) (everyone k) (root k) passphrase keyName))
    (fun k s => (initAttempt_spec wire (fresh k) _ s).1) 16 0 s
  refine ⟨he, fun s' h => ?_⟩
  obtain ⟨j, s₁, s₂, -, hj, hc₁, hg, hc⟩ := ho () s' h
  obtain ⟨hnone, hs₂⟩ := (initAttempt_spec wire _ _ _).2 s₂ hg
  exact ⟨hc₁ ▸ hnone, j, hj, by rw [hc, hs₂]; rfl⟩

end InitKeys

/-- `init_keys` on the lossless layer `Wire.tagged`, over a store that already holds a list. -/
theorem initKeys_never_overwrites_tagged :
    (∀ e s', initKeys Wire.tagged .plain (fun _ => HashId.zero) (fun _ => HashId.zero)
        (fun _ => .epoch) (fun _ => HashId.zero) (fun _ => HashId.zero) [] "main"
        ⟨some (HashId.zero, []), [], [], []⟩ = .error e s' →
      s'.committed = some (HashId.zero, [])) ∧
    ∀ s', initKeys Wire.tagged .plain (fun _ => HashId.zero) (fun _ => HashId.zero)
        (fun _ => .epoch) (fun _ => HashId.zero) (fun _ => HashId.zero) [] "main"
        ⟨some (HashId.zero, []), [], [], []⟩ = .ok () s' →
      (some (HashId.zero, []) : Option (HashId × Bytes)) = none ∧
        ∃ k < 16, s'.committed = some (HashId.zero, serialize Wire.tagged
          (initKeysList .plain HashId.zero .epoch HashId.zero HashId.zero [] "main")) :=
  initKeys_never_overwrites Wire.tagged .plain _ _ _ _ _ [] "main" _

/-! ## `list_keys` -/

/-- `KeyInfo`: a KDF entry's name, algorithm, times and group names, without its binary
fields. -/
structure KeyInfo where
  name : String
  algorithm : String
  created : DateTime
  updated : Option DateTime
  used : Option DateTime
  groups : List String

/-- The `KeyInfo` of the entry `name`. -/
def KeyInfo.ofEntry (name : String) (e : KdfEntry) : KeyInfo :=
  { name, algorithm := e.algorithm, created := e.created, updated := e.updated, used := e.used,
    groups := e.groups.keys }

/-- `list_keys`: the stored entries in name order, or none before `init_keys`. -/
def listKeys : StorageM (List KeyInfo) := fun s =>
  match getKdflist wire s with
  | .ok (some (kdflist, _, _)) s => .ok (kdflist.keys.toList.map fun e => .ofEntry e.1 e.2) s
  | .ok none s => .ok [] s
  | .error e s => .error e s

/-- `list_keys` touches nothing; it lists nothing when no directory is committed, and
otherwise the entries of the list the directory decodes to, in name order. -/
theorem listKeys_spec (s : Storage) :
    s.Frame (resultState (listKeys wire s)) ∧
      ∀ infos s', listKeys wire s = .ok infos s' →
        (s.committed = none ∧ infos = []) ∨
          ∃ ver data l, s.committed = some (ver, data) ∧
            deserialize wire getKdflistConfig data = .ok l ∧
            infos = l.keys.toList.map fun e => .ofEntry e.1 e.2 := by
  obtain ⟨hf, hsome⟩ := getKdflist_spec wire s
  unfold listKeys
  split <;> rename_i hg <;> rw [hg] at hf
  · refine ⟨hf, fun _ _ h => ?_⟩
    cases h
    obtain ⟨-, data, hd, hl, -⟩ := hsome _ _ _ _ hg
    exact .inr ⟨_, data, _, hd, hl, rfl⟩
  · exact ⟨hf, fun _ _ h => by cases h; exact .inl ⟨(getKdflist_none wire hg).1, rfl⟩⟩
  · exact ⟨hf, fun _ _ h => by cases h⟩

end Ensync.KeyMgmt
