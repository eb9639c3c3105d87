import Ensync.KeyMgmt.Store

/-!
# Transactions

`edit_kdflist` runs an edit in `do_tx`: up to 16 attempts, each of which starts a
transaction, reads the KDF list, runs the closure, writes the list back with
`rmdir` and `mkdir`, and commits; a commit reporting a conflict starts the next
attempt, and any other error aborts. The storage is modelled as the Storage
contract of the spec has it: `rmdir` and `mkdir` are staged in the open
transaction and take effect at a commit that returns true; the environment
answers each call with success, an I/O error, or, for a commit, a conflict. Code
with `?` is written as explicit state passing.

* `editKdflist_atomic` — whatever the environment answers: the closure runs at most
  16 times, a commit is only ever called right after the closure returned `Ok`, an
  error leaves the committed list as it was, and a success commits the closure's
  list of the attempt whose commit returned true, with that attempt's result.
-/

namespace Ensync.KeyMgmt

open Fourleaf

/-- How the storage answers a call, as the environment decides: it carries it out, fails it
with an I/O error, or, for a commit, reports a conflict. -/
inductive Answer
  | ok
  | fail (e : IoError)
  | conflict

/-- A change to the KDF directory staged in the open transaction. -/
inductive Change
  | rmdir (ver : HashId) (len : Nat)
  | mkdir (ver : HashId) (data : Bytes)

/-- The calls the log records: a run of the closure with whether it returned `Ok`, and a
commit. -/
inductive Event
  | edit (ok : Bool)
  | commit
  deriving DecidableEq

/-- The storage as the key store uses it: the KDF directory (`DIRID_KEYS`) as committed, its
version and bytes; the changes of the open transaction; the answers to come, then success;
and the log of calls. -/
structure Storage where
  committed : Option (HashId × Bytes)
  staged : List Change
  answers : List Answer
  log : List Event

/-- A storage computation: its result or its error, and the storage after it. -/
abbrev StorageM (α : Type) := Storage → EStateM.Result ErrorKind Storage α

/-- The environment's answer to the next call. -/
def Storage.next (s : Storage) : Answer × Storage :=
  match s.answers with
  | [] => (.ok, s)
  | a :: as => (a, { s with answers := as })

/-! ## The Storage contract -/

/-- `start_tx`: a new transaction, with nothing staged. -/
def startTx : StorageM Unit := fun s =>
  match s.next with
  | (.fail e, s) => .error (.io e) s
  | (_, s) => .ok () { s with staged := [] }

/-- `getdir(DIRID_KEYS)`: the committed version and bytes. -/
def getdir : StorageM (Option (HashId × Bytes)) := fun s =>
  match s.next with
  | (.fail e, s) => .error (.io e) s
  | (_, s) => .ok s.committed s

/-- `rmdir(tx, DIRID_KEYS, ver, len)`, staged. -/
def rmdir (ver : HashId) (len : Nat) : StorageM Unit := fun s =>
  match s.next with
  | (.fail e, s) => .error (.io e) s
  | (_, s) => .ok () { s with staged := s.staged ++ [.rmdir ver len] }

/-- `mkdir(tx, DIRID_KEYS, ver, data)`, staged. -/
def mkdir (ver : HashId) (data : Bytes) : StorageM Unit := fun s =>
  match s.next with
  | (.fail e, s) => .error (.io e) s
  | (_, s) => .ok () { s with staged := s.staged ++ [.mkdir ver data] }

/-- The KDF directory after the staged changes. -/
def applyChanges : List Change → Option (HashId × Bytes) → Option (HashId × Bytes)
  | [], d => d
  | .rmdir _ _ :: cs, _ => applyChanges cs none
  | .mkdir ver data :: cs, _ => applyChanges cs (some (ver, data))

/-- `commit`: the staged changes take effect when it returns true, and only then. -/
def commit : StorageM Bool := fun s =>
  match s.next with
  | (.fail e, s) => .error (.io e) { s with staged := [], log := s.log ++ [.commit] }
  | (.conflict, s) => .ok false { s with staged := [], log := s.log ++ [.commit] }
  | (.ok, s) =>
    .ok true
      { s with committed := applyChanges s.staged s.committed, staged := [],
               log := s.log ++ [.commit] }

/-- `abort`: the staged changes are dropped. -/
def abort : StorageM Unit := fun s =>
  match s.next with
  | (.fail e, s) => .error (.io e) { s with staged := [] }
  | (_, s) => .ok () { s with staged := [] }

/-! ## `keymgmt.rs` -/

variable {R : Type} (wire : Wire)

/-- `get_kdflist`: the list, its version and the length of its bytes, when there is one. -/
def getKdflist : StorageM (Option (KdfList × HashId × Nat)) := fun s =>
  match getdir s with
  | .ok (some (ver, data)) s =>
    match deserialize wire getKdflistConfig data with
    | .ok kdf => .ok (some (kdf, ver, data.length)) s
    | .error _ => .error .serialization s
  | .ok none s => .ok none s
  | .error e s => .error e s

/-- `put_kdflist` with the version `rand_hashid()` drew: `rmdir` of the old directory, when
there is one, then `mkdir` of the new. -/
def putKdflist (newVer : HashId) (kdf : KdfList) (old : Option (HashId × Nat)) :
    StorageM (HashId × Nat) := fun s =>
  let newData := serialize wire kdf
  let put : StorageM (HashId × Nat) := fun s =>
    match mkdir newVer newData s with
    | .ok () s => .ok (newVer, newData.length) s
    | .error e s => .error e s
  match old with
  | some (oldVer, oldLen) =>
    match rmdir oldVer oldLen s with
    | .ok () s => put s
    | .error e s => .error e s
  | none => put s

/-- A run of the edit closure, logged. -/
def runEdit (f : KdfList → Except ErrorKind (R × KdfList)) (kdf : KdfList) :
    StorageM (R × KdfList) := fun s =>
  match f kdf with
  | .ok p => .ok p { s with log := s.log ++ [.edit true] }
  | .error e => .error e { s with log := s.log ++ [.edit false] }

/-- The closure `edit_kdflist` hands `do_tx`, with the version its attempt draws and the
behaviour of the edit closure in that attempt. -/
def editAttempt (newVer : HashId) (f : KdfList → Except ErrorKind (R × KdfList)) : StorageM R :=
  fun s =>
  match getKdflist wire s with
  | .ok (some (kdflist, oldVer, oldLen)) s =>
    match runEdit f kdflist s with
    | .ok (r, kdflist) s =>
      match putKdflist wire newVer kdflist (some (oldVer, oldLen)) s with
      | .ok _ s => .ok r s
      | .error e s => .error e s
    | .error e s => .error e s
  | .ok none s => .error .kdfListNotExists s
  | .error e s => .error e s

/-- The loop of `do_tx` from attempt `k`, with `n` attempts left. -/
def doTxLoop (f : Nat → StorageM R) : Nat → Nat → StorageM R
  | _, 0 => fun s => .error .tooManyTxRetries s
  | k, n + 1 => fun s =>
    match startTx s with
    | .ok () s =>
      match f k s with
      | .ok r s =>
        match commit s with
        | .ok true s => .ok r s
        | .ok false s => doTxLoop f (k + 1) n s
        | .error e s => .error e s
      | .error e s =>
        -- `let _ = storage.abort(tx)`: the outcome of the abort is dropped
        match abort s with
        | .ok () s => .error e s
        | .error _ s => .error e s
    | .error e s => .error e s

/-- `do_tx`: at most 16 attempts. -/
def doTx (f : Nat → StorageM R) : StorageM R := doTxLoop f 0 16

/-- `edit_kdflist`, with `fresh k` the version attempt `k` draws and `f k` what the closure
does in attempt `k`. -/
def editKdflist (fresh : Nat → HashId) (f : Nat → KdfList → Except ErrorKind (R × KdfList)) :
    StorageM R :=
  doTx fun k => editAttempt wire (fresh k) (f k)

/-! ## What each call does to the committed directory and the log -/

/-- The state a storage computation leaves, whatever it returns. -/
def resultState {α : Type} : EStateM.Result ErrorKind Storage α → Storage
  | .ok _ s => s
  | .error _ s => s

/-- `s'` has the committed directory and the log of `s`. -/
def Storage.Frame (s s' : Storage) : Prop := s'.committed = s.committed ∧ s'.log = s.log

theorem Storage.Frame.trans {s₁ s₂ s₃ : Storage} (h₁ : s₁.Frame s₂)
    (h₂ : s₂.Frame s₃) : s₁.Frame s₃ :=
  ⟨h₂.1.trans h₁.1, h₂.2.trans h₁.2⟩

theorem Storage.next_eq {s s' : Storage} {a : Answer} (h : s.next = (a, s')) :
    s'.committed = s.committed ∧ s'.staged = s.staged ∧ s'.log = s.log := by
  unfold Storage.next at h
  split at h <;> cases h <;> exact ⟨rfl, rfl, rfl⟩

/-- `start_tx` fails and touches nothing, or opens a transaction with nothing staged. -/
theorem startTx_cases (s : Storage) :
    ∃ s', s.Frame s' ∧
      (startTx s = .ok () { s' with staged := [] } ∨ ∃ e, startTx s = .error e s') := by
  unfold startTx
  split <;> rename_i h <;> obtain ⟨h₁, -, h₂⟩ := Storage.next_eq h
  · exact ⟨_, ⟨h₁, h₂⟩, .inr ⟨_, rfl⟩⟩
  · exact ⟨_, ⟨h₁, h₂⟩, .inl rfl⟩

theorem getdir_ok {s s' : Storage} {d : Option (HashId × Bytes)} (h : getdir s = .ok d s') :
    d = s.committed ∧ s.Frame s' ∧ s'.staged = s.staged := by
  unfold getdir at h
  split at h
  · cases h
  · cases h
    obtain ⟨h₁, h₂, h₃⟩ := Storage.next_eq ‹_›
    exact ⟨h₁, ⟨h₁, h₃⟩, h₂⟩

theorem getdir_frame (s : Storage) : s.Frame (resultState (getdir s)) := by
  unfold getdir
  split <;> rename_i h <;> obtain ⟨h₁, -, h₂⟩ := Storage.next_eq h <;>
    exact ⟨h₁, h₂⟩

/-- `rmdir` and `mkdir` stage one change, or fail, and touch nothing else. -/
theorem rmdir_spec (ver : HashId) (len : Nat) (s : Storage) :
    s.Frame (resultState (rmdir ver len s)) ∧
      ∀ s', rmdir ver len s = .ok () s' → s'.staged = s.staged ++ [.rmdir ver len] := by
  unfold rmdir
  split <;> rename_i h <;> obtain ⟨h₁, h₂, h₃⟩ := Storage.next_eq h
  · exact ⟨⟨h₁, h₃⟩, fun _ h => by cases h⟩
  · exact ⟨⟨h₁, h₃⟩, fun _ h => by cases h; simp [h₂]⟩

theorem mkdir_spec (ver : HashId) (data : Bytes) (s : Storage) :
    s.Frame (resultState (mkdir ver data s)) ∧
      ∀ s', mkdir ver data s = .ok () s' → s'.staged = s.staged ++ [.mkdir ver data] := by
  unfold mkdir
  split <;> rename_i h <;> obtain ⟨h₁, h₂, h₃⟩ := Storage.next_eq h
  · exact ⟨⟨h₁, h₃⟩, fun _ h => by cases h⟩
  · exact ⟨⟨h₁, h₃⟩, fun _ h => by cases h; simp [h₂]⟩

theorem abort_frame (s : Storage) : s.Frame (resultState (abort s)) := by
  unfold abort
  split <;> rename_i h <;> obtain ⟨h₁, -, h₂⟩ := Storage.next_eq h <;>
    exact ⟨h₁, h₂⟩

/-- A commit logs itself, and then applies the staged changes and returns true, or returns
false or fails and changes nothing else. -/
theorem commit_cases (s : Storage) :
    ∃ s' : Storage, s'.committed = s.committed ∧ s'.log = s.log ++ [.commit] ∧
      (commit s = .ok true { s' with committed := applyChanges s.staged s.committed } ∨
        commit s = .ok false s' ∨ ∃ e, commit s = .error e s') := by
  unfold commit
  split <;> rename_i s₁ h <;> obtain ⟨h₁, h₂, h₃⟩ := Storage.next_eq h <;>
    refine ⟨{ s₁ with staged := [], log := s₁.log ++ [.commit] }, h₁, by rw [h₃], ?_⟩
  · exact .inr (.inr ⟨_, rfl⟩)
  · exact .inr (.inl rfl)
  · exact .inl (by rw [h₁, h₂])

/-- `get_kdflist` reads the committed directory and touches nothing. -/
theorem getKdflist_spec (s : Storage) :
    s.Frame (resultState (getKdflist wire s)) ∧
      ∀ kdf ver len s', getKdflist wire s = .ok (some (kdf, ver, len)) s' →
        s'.staged = s.staged ∧ ∃ data, s.committed = some (ver, data) ∧
          deserialize wire getKdflistConfig data = .ok kdf ∧ len = data.length := by
  unfold getKdflist
  split
  · rename_i ver data s₁ h
    obtain ⟨hd, hf, hs⟩ := getdir_ok h
    split
    · exact ⟨hf, fun _ _ _ _ h' => by cases h'; exact ⟨hs, data, hd.symm, ‹_›, rfl⟩⟩
    · exact ⟨hf, fun _ _ _ _ h' => by cases h'⟩
  · exact ⟨(getdir_ok ‹_›).2.1, fun _ _ _ _ h' => by cases h'⟩
  · rename_i h
    have := getdir_frame s
    rw [h] at this
    exact ⟨this, fun _ _ _ _ h' => by cases h'⟩

/-- `put_kdflist` over an existing directory stages its `rmdir` and `mkdir`, or fails, and
touches nothing else. -/
theorem putKdflist_spec (v : HashId) (kdf : KdfList) (oldVer : HashId) (oldLen : Nat)
    (s : Storage) :
    s.Frame (resultState (putKdflist wire v kdf (some (oldVer, oldLen)) s)) ∧
      ∀ x s', putKdflist wire v kdf (some (oldVer, oldLen)) s = .ok x s' →
        s'.staged = s.staged ++ [.rmdir oldVer oldLen, .mkdir v (serialize wire kdf)] := by
  unfold putKdflist
  dsimp only
  split
  · rename_i s₁ h
    obtain ⟨hf₁, hs₁⟩ := rmdir_spec oldVer oldLen s
    rw [h] at hf₁
    obtain ⟨hf₂, hs₂⟩ := mkdir_spec v (serialize wire kdf) s₁
    split
    · rename_i s₂ h'
      rw [h'] at hf₂
      exact ⟨hf₁.trans hf₂, fun _ _ h'' => by cases h''; simp [hs₂ _ h', hs₁ _ h]⟩
    · rename_i h'
      rw [h'] at hf₂
      exact ⟨hf₁.trans hf₂, fun _ _ h'' => by cases h''⟩
  · rename_i h
    have := (rmdir_spec oldVer oldLen s).1
    rw [h] at this
    exact ⟨this, fun _ _ h' => by cases h'⟩

theorem runEdit_ok {f : KdfList → Except ErrorKind (R × KdfList)} {kdf : KdfList}
    {s s' : Storage} {p : R × KdfList} (h : runEdit f kdf s = .ok p s') :
    f kdf = .ok p ∧ s' = { s with log := s.log ++ [.edit true] } := by
  unfold runEdit at h
  split at h <;> cases h
  exact ⟨‹_›, rfl⟩

theorem runEdit_error {f : KdfList → Except ErrorKind (R × KdfList)} {kdf : KdfList}
    {s s' : Storage} {e : ErrorKind} (h : runEdit f kdf s = .error e s') :
    s' = { s with log := s.log ++ [.edit false] } := by
  unfold runEdit at h
  split at h <;> cases h
  rfl

/-- A successful attempt read the committed list, ran the closure on it with success, and
staged the closure's list over the version it read. -/
theorem editAttempt_ok {v : HashId} {f : KdfList → Except ErrorKind (R × KdfList)}
    {s s' : Storage} {r : R} (h : editAttempt wire v f s = .ok r s') :
    s'.committed = s.committed ∧ s'.log = s.log ++ [.edit true] ∧
      ∃ ver data kdf kdf', s.committed = some (ver, data) ∧
        deserialize wire getKdflistConfig data = .ok kdf ∧ f kdf = .ok (r, kdf') ∧
        s'.staged = s.staged ++ [.rmdir ver data.length, .mkdir v (serialize wire kdf')] := by
  unfold editAttempt at h
  split at h
  · rename_i kdf ver len s₁ hg
    obtain ⟨hf₁, hg'⟩ := getKdflist_spec wire s
    rw [hg] at hf₁
    obtain ⟨hs₁, data, hd, hk, rfl⟩ := hg' _ _ _ _ hg
    split at h
    · rename_i r' kdf' s₂ hr
      obtain ⟨hf, rfl⟩ := runEdit_ok hr
      split at h <;> cases h
      rename_i hp
      obtain ⟨hf₂, hs₂⟩ :=
        putKdflist_spec wire v kdf' ver data.length { s₁ with log := s₁.log ++ [.edit true] }
      rw [hp] at hf₂
      exact ⟨hf₂.1.trans hf₁.1, hf₂.2.trans
        (congrArg (· ++ [Event.edit true]) hf₁.2 : s₁.log ++ _ = _), ver, data, kdf,
        kdf', hd, hk, hf, by rw [hs₂ _ _ hp, hs₁]⟩
    · cases h
  · cases h
  · cases h

/-- A failed attempt leaves the committed directory, and logs at most a run of the closure. -/
theorem editAttempt_error {v : HashId} {f : KdfList → Except ErrorKind (R × KdfList)}
    {s s' : Storage} {e : ErrorKind} (h : editAttempt wire v f s = .error e s') :
    s'.committed = s.committed ∧ (s'.log = s.log ∨ ∃ b, s'.log = s.log ++ [.edit b]) := by
  have hg := (getKdflist_spec wire s).1
  unfold editAttempt at h
  split at h
  · rename_i kdf ver len s₁ hgk
    rw [hgk] at hg
    split at h
    · rename_i r' kdf' s₂ hr
      obtain ⟨-, rfl⟩ := runEdit_ok hr
      split at h <;> cases h
      rename_i hp
      have := (putKdflist_spec wire v kdf' ver len { s₁ with log := s₁.log ++ [.edit true] }).1
      rw [hp] at this
      exact ⟨this.1.trans hg.1, .inr ⟨true, this.2.trans
        (congrArg (· ++ [Event.edit true]) hg.2 : s₁.log ++ _ = _)⟩⟩
    · rename_i e' s₂ hr
      cases h
      rw [runEdit_error hr]
      exact ⟨hg.1,
        .inr ⟨false, (congrArg (· ++ [Event.edit false]) hg.2 : s₁.log ++ _ = _)⟩⟩
  all_goals
    rename_i hgk
    rw [hgk] at hg
    cases h
    exact ⟨hg.1, .inl hg.2⟩

/-! ## The loop of `do_tx` -/

/-- What one attempt of `edit_kdflist` logs: nothing (a failed `start_tx` or `get_kdflist`), a
run of the closure that ended the attempt, or a run that returned `Ok` and then the commit. -/
def AttemptLog (u : List Event) : Prop :=
  u = [] ∨ (∃ b, u = [.edit b]) ∨ u = [.edit true, .commit]

/-- Whether a logged call is a run of the closure. -/
def Event.isEdit : Event → Bool
  | .edit _ => true
  | .commit => false

/-- A log of at most `n` runs of the closure, in which every commit comes right after a run
that returned `Ok`. -/
structure TxLog (n : Nat) (t : List Event) : Prop where
  edits_le : (t.filter Event.isEdit).length ≤ n
  commit_after_ok : ∀ a b, t = a ++ .commit :: b → ∃ a', a = a' ++ [.edit true]

theorem txLog_nil (n : Nat) : TxLog n [] :=
  ⟨Nat.zero_le n, fun a b h => by simp at h⟩

/-- One more attempt in front of a log. -/
theorem TxLog.cons_attempt {n : Nat} {u t : List Event} (hu : AttemptLog u) (ht : TxLog n t) :
    TxLog (n + 1) (u ++ t) where
  edits_le := by
    have : (u.filter Event.isEdit).length ≤ 1 := by
      rcases hu with rfl | ⟨b, rfl⟩ | rfl <;> simp [Event.isEdit]
    have := ht.edits_le
    rw [List.filter_append, List.length_append]
    omega
  commit_after_ok a b h := by
    rcases List.append_eq_append_iff.mp h with ⟨a'', rfl, ht'⟩ | ⟨c, rfl, hc⟩
    · obtain ⟨a', rfl⟩ := ht.commit_after_ok a'' b ht'
      exact ⟨u ++ a', by simp⟩
    · cases c with
      | nil =>
        obtain ⟨a', ha'⟩ := ht.commit_after_ok [] b (by simpa using hc.symm)
        simp at ha'
      | cons x c =>
        obtain ⟨rfl, -⟩ := List.cons.inj hc
        rcases hu with hu | ⟨b', hu⟩ | hu <;>
          rcases a with _ | ⟨y, _ | ⟨z, a⟩⟩ <;> simp at hu ⊢
        exact ⟨[], by simp [hu.1]⟩

theorem TxLog.attempt {n : Nat} {u : List Event} (hu : AttemptLog u) : TxLog (n + 1) u := by
  simpa using (txLog_nil n).cons_attempt hu

variable (fresh : Nat → HashId) (f : Nat → KdfList → Except ErrorKind (R × KdfList))

/-- Attempt `k` of `edit_kdflist` committed: on the directory `d` it read a list, the closure
returned `r` and a list `l'` for it, and the directory became `l'` under the version attempt
`k` drew. -/
def AttemptCommits (k : Nat) (d : Option (HashId × Bytes)) (r : R)
    (d' : Option (HashId × Bytes)) : Prop :=
  ∃ ver data l l', d = some (ver, data) ∧ deserialize wire getKdflistConfig data = .ok l ∧
    f k l = .ok (r, l') ∧ d' = some (fresh k, serialize wire l')

/-- One iteration of the loop of `do_tx`: it fails after one attempt, or commits attempt `k`,
or goes on to the next attempt after a conflict; only the commit of attempt `k` changes the
committed directory. -/
theorem doTxLoop_succ (k n : Nat) (s : Storage) :
    (∃ u e s', AttemptLog u ∧
      doTxLoop (fun k => editAttempt wire (fresh k) (f k)) k (n + 1) s = .error e s' ∧
      s'.committed = s.committed ∧ s'.log = s.log ++ u) ∨
    (∃ r s', doTxLoop (fun k => editAttempt wire (fresh k) (f k)) k (n + 1) s = .ok r s' ∧
      s'.log = s.log ++ [.edit true, .commit] ∧
      AttemptCommits wire fresh f k s.committed r s'.committed) ∨
    (∃ s', s'.committed = s.committed ∧ s'.log = s.log ++ [.edit true, .commit] ∧
      doTxLoop (fun k => editAttempt wire (fresh k) (f k)) k (n + 1) s =
        doTxLoop (fun k => editAttempt wire (fresh k) (f k)) (k + 1) n s') := by
  obtain ⟨s₁, hf₁, h₁ | ⟨e, h₁⟩⟩ := startTx_cases s
  · cases hg : editAttempt wire (fresh k) (f k) { s₁ with staged := [] } with
    | ok r s₂ =>
      obtain ⟨hc₂, hl₂, ver, data, l, l', hd, hl, hfk, hs₂⟩ := editAttempt_ok wire hg
      have hlog : s₂.log ++ [.commit] = s.log ++ [.edit true, .commit] := by simp [hl₂, hf₁.2]
      obtain ⟨s₃, hc₃, hl₃, hc | hc | ⟨e, hc⟩⟩ := commit_cases s₂
      · have hrun : doTxLoop (fun k => editAttempt wire (fresh k) (f k)) k (n + 1) s =
            .ok r { s₃ with committed := applyChanges s₂.staged s₂.committed } := by
          simp only [doTxLoop, h₁, hg, hc]
        exact .inr (.inl ⟨r, _, hrun, hl₃.trans hlog,
          ver, data, l, l', hf₁.1 ▸ hd, hl, hfk, by rw [hs₂]; rfl⟩)
      · exact .inr (.inr ⟨s₃, hc₃.trans (hc₂.trans hf₁.1), hl₃.trans hlog,
          by simp only [doTxLoop, h₁, hg, hc]⟩)
      · exact .inl ⟨_, e, s₃, .inr (.inr rfl), by simp only [doTxLoop, h₁, hg, hc],
          hc₃.trans (hc₂.trans hf₁.1), hl₃.trans hlog⟩
    | error e s₂ =>
      obtain ⟨hc₂, hl₂⟩ := editAttempt_error wire hg
      obtain ⟨u, hu, hlu⟩ : ∃ u, AttemptLog u ∧ s₂.log = s.log ++ u := by
        rcases hl₂ with hl₂ | ⟨b, hl₂⟩
        · exact ⟨[], .inl rfl, by simp [hl₂, hf₁.2]⟩
        · exact ⟨_, .inr (.inl ⟨b, rfl⟩), by simp [hl₂, hf₁.2]⟩
      -- the outcome of the abort is dropped: the attempt's error is returned either way
      have hrun : doTxLoop (fun k => editAttempt wire (fresh k) (f k)) k (n + 1) s =
          .error e (resultState (abort s₂)) := by
        simp only [doTxLoop, h₁, hg]
        cases abort s₂ <;> rfl
      have ha := abort_frame s₂
      exact .inl ⟨u, e, _, hu, hrun, ha.1.trans (hc₂.trans hf₁.1), ha.2.trans hlu⟩
  · exact .inl ⟨[], e, _, .inl rfl, by simp only [doTxLoop, h₁], hf₁.1, by simp [hf₁.2]⟩

/-- The loop of `do_tx` from attempt `k` with `n` attempts left: an error leaves the committed
directory as it was, a success is the commit of one of these attempts, and the log holds at
most `n` runs of the closure, each commit right after one that returned `Ok`. -/
theorem doTxLoop_spec (n k : Nat) (s : Storage) :
    (∀ e s', doTxLoop (fun k => editAttempt wire (fresh k) (f k)) k n s = .error e s' →
      s'.committed = s.committed ∧ ∃ t, s'.log = s.log ++ t ∧ TxLog n t) ∧
    ∀ r s', doTxLoop (fun k => editAttempt wire (fresh k) (f k)) k n s = .ok r s' →
      (∃ t, s'.log = s.log ++ t ∧ TxLog n t) ∧
        ∃ j, k ≤ j ∧ j < k + n ∧
          AttemptCommits wire fresh f j s.committed r s'.committed := by
  induction n generalizing k s with
  | zero =>
    refine ⟨fun e s' h => ?_, fun r s' h => by cases h⟩
    cases h
    exact ⟨rfl, [], by simp, txLog_nil 0⟩
  | succ n ih =>
    rcases doTxLoop_succ wire fresh f k n s with
      ⟨u, e, s', hu, h, hc, hl⟩ | ⟨r, s', h, hl, hr⟩ | ⟨s', hc, hl, h⟩
    · rw [h]
      exact ⟨fun _ _ h' => by cases h'; exact ⟨hc, u, hl, TxLog.attempt hu⟩,
        fun _ _ h' => by cases h'⟩
    · rw [h]
      refine ⟨fun _ _ h' => (by cases h'), fun _ _ h' => ?_⟩
      cases h'
      exact ⟨⟨_, hl, TxLog.attempt (.inr (.inr rfl))⟩, k, le_rfl, by omega, hr⟩
    · rw [h]
      obtain ⟨ihe, iho⟩ := ih (k + 1) s'
      refine ⟨fun e s'' h' => ?_, fun r s'' h' => ?_⟩
      · obtain ⟨hc', t, hl', ht⟩ := ihe e s'' h'
        exact ⟨hc'.trans hc, _, by rw [hl', hl, List.append_assoc],
          ht.cons_attempt (.inr (.inr rfl))⟩
      · obtain ⟨⟨t, hl', ht⟩, j, hj, hjn, hr⟩ := iho r s'' h'
        exact ⟨⟨_, by rw [hl', hl, List.append_assoc], ht.cons_attempt (.inr (.inr rfl))⟩,
          j, by omega, by omega, hc ▸ hr⟩

/-- Transaction atomicity of `edit_kdflist`, whatever the stored list, the closure (which may
behave differently in each attempt) and the environment's answers: the closure runs at most
16 times and a commit only comes right after a run that returned `Ok`; an error leaves the
committed list as it was; a success commits the list the closure returned in the attempt
whose commit returned true, from the list that attempt read, with that attempt's result. -/
theorem editKdflist_atomic (s : Storage) :
    (∀ e s', editKdflist wire fresh f s = .error e s' →
      s'.committed = s.committed ∧ ∃ t, s'.log = s.log ++ t ∧ TxLog 16 t) ∧
    ∀ r s', editKdflist wire fresh f s = .ok r s' →
      (∃ t, s'.log = s.log ++ t ∧ TxLog 16 t) ∧
        ∃ k < 16, AttemptCommits wire fresh f k s.committed r s'.committed := by
  obtain ⟨he, ho⟩ := doTxLoop_spec wire fresh f 16 0 s
  refine ⟨he, fun r s' h => ?_⟩
  obtain ⟨ht, k, -, hk, hr⟩ := ho r s' h
  exact ⟨ht, k, hk, hr⟩

/-- The law on the lossless layer `Wire.tagged`, for the closure that writes back the list it
read, on a store holding the list `init_keys` writes whose first commit conflicts. -/
theorem editKdflist_atomic_tagged :
    (∀ e s', editKdflist Wire.tagged (fun _ => HashId.zero) (fun _ l => .ok ((), l))
        ⟨some (HashId.zero, serialize Wire.tagged
          (initKeysList .plain HashId.zero .epoch HashId.zero HashId.zero [] "main")),
          [], [.ok, .ok, .ok, .ok, .conflict], []⟩ = .error e s' →
      s'.committed = some (HashId.zero, serialize Wire.tagged
          (initKeysList .plain HashId.zero .epoch HashId.zero HashId.zero [] "main")) ∧
        ∃ t, s'.log = [] ++ t ∧ TxLog 16 t) ∧
    ∀ r s', editKdflist Wire.tagged (fun _ => HashId.zero) (fun _ l => .ok ((), l))
        ⟨some (HashId.zero, serialize Wire.tagged
          (initKeysList .plain HashId.zero .epoch HashId.zero HashId.zero [] "main")),
          [], [.ok, .ok, .ok, .ok, .conflict], []⟩ = .ok r s' →
      (∃ t, s'.log = [] ++ t ∧ TxLog 16 t) ∧
        ∃ k < 16, AttemptCommits Wire.tagged (fun _ => HashId.zero) (fun _ l => .ok ((), l)) k
          (some (HashId.zero, serialize Wire.tagged
            (initKeysList .plain HashId.zero .epoch HashId.zero HashId.zero [] "main")))
          r s'.committed :=
  editKdflist_atomic Wire.tagged _ _ _

end Ensync.KeyMgmt
