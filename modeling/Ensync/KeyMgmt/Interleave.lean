import Ensync.KeyMgmt.Tx

/-!
# Two operations on one storage

Two key-management operations, each run through `edit_kdflist` on its own handle of one
storage, interleave their storage calls. A client is the loop of `do_tx` with the closure
of `edit_kdflist`, one storage call a step; the storage keeps the committed KDF directory
and each handle's open transaction, carries out each call or fails it with an I/O error,
and a commit applies the transaction's changes exactly when its `rmdir` finds the version
it expects (the Storage contract of the spec). The versions `put_kdflist` draws with
`rand_hashid()` are taken to collide neither with each other's nor with the initial
directory's (`Versions`).

* `Client.step_cases` — what one storage call of a client can do: leave the directory, or
  commit the closure's list for the list it read;
* `no_lost_update` — along every interleaving, the committed directory is the initial one
  with the commits applied one after another, each to the list the one before wrote, and
  the commits are exactly the operations that returned `Ok`, with their results;
* `retries_at_most_once` — along every interleaving each call is in its first or second
  attempt, so `do_tx` never gives up on it;
* `calls_return_within_ten` — each call returns within ten of its own storage calls, however
  the other's are interleaved;
* `interleaved_linearizable` — every interleaving commits the list the sequential run of
  the committed operations, in commit order, reaches.
-/

namespace Ensync.KeyMgmt

/-- Where a client is in `edit_kdflist`. -/
inductive Pc (R : Type)
  /-- `start_tx` of attempt `k` is next. -/
  | start (k : Nat)
  /-- The transaction of attempt `k` is open; `get_kdflist` is next. -/
  | getdir (k : Nat)
  /-- The closure returned `Ok(r)` and `kdf` for the list of version `ver` and `len` bytes;
  the `rmdir` of `put_kdflist` is next. -/
  | rmdir (k : Nat) (ver : HashId) (len : Nat) (r : R) (kdf : KdfList)
  /-- The `mkdir` of `put_kdflist` is next. -/
  | mkdir (k : Nat) (r : R) (kdf : KdfList)
  /-- The commit of attempt `k` is next. -/
  | commit (k : Nat) (r : R)
  /-- The attempt failed with `e`; the abort is next. -/
  | abort (e : ErrorKind)
  /-- `edit_kdflist` returned. -/
  | done (res : Except ErrorKind R)

/-- A client: where it is, and the changes staged in its handle's open transaction. -/
structure Client (R : Type) where
  pc : Pc R
  staged : List Change

/-- Whether a transaction's changes apply to the directory: each `rmdir` finds the version
it expects, each `mkdir` finds no directory. -/
def conflictFree : List Change → Option (HashId × Bytes) → Bool
  | [], _ => true
  | .rmdir ver _ :: cs, d => d.map Prod.fst == some ver && conflictFree cs none
  | .mkdir ver data :: cs, d => d.isNone && conflictFree cs (some (ver, data))

/-- The result a client returned, when it returned `Ok`. -/
def Pc.result {R : Type} : Pc R → Option R
  | .done (.ok r) => some r
  | _ => none

/-- The attempt a client is in, while it has neither failed nor returned. -/
def Pc.attempt {R : Type} : Pc R → Option Nat
  | .start k | .getdir k | .rmdir k .. | .mkdir k .. | .commit k _ => some k
  | .abort _ | .done _ => none

/-- The most storage calls a client in its first or second attempt can still make before it
returns: five an attempt, one for an abort. -/
def Pc.callsLeft {R : Type} : Pc R → Nat
  | .start k => 10 - 5 * k
  | .getdir k => 9 - 5 * k
  | .rmdir k .. => 8 - 5 * k
  | .mkdir k .. => 7 - 5 * k
  | .commit k _ => 6 - 5 * k
  | .abort _ => 1
  | .done _ => 0

section Client

variable {R : Type} (wire : Wire) (fresh : Nat → HashId)
  (f : Nat → KdfList → Except ErrorKind (R × KdfList))

/-- What attempt `k` does with the directory `get_kdflist` read: the closure on its list,
then `put_kdflist`, or the abort. -/
def readDir (k : Nat) : Option (HashId × Bytes) → Pc R
  | none => .abort .kdfListNotExists
  | some (ver, data) =>
    match deserialize wire getKdflistConfig data with
    | .error _ => .abort .serialization
    | .ok kdf =>
      match f k kdf with
      | .ok (r, kdf') => .rmdir k ver data.length r kdf'
      | .error e => .abort e

/-- One storage call of a client on the committed directory `d`, which the storage carries
out (`none`) or fails with an I/O error: the directory after it, the client after it, and the
attempt and result it committed, if it committed. A failed `start_tx` or commit returns the
error (`?`), a failed call inside the closure aborts, and the abort's own outcome is dropped;
a failed commit applies nothing. -/
def Client.step (d : Option (HashId × Bytes)) (c : Client R) (fail : Option IoError) :
    Option (HashId × Bytes) × Client R × Option (Nat × R) :=
  match c.pc, fail with
  | .start k, fail =>
    if k < 16 then
      match fail with
      | none => (d, ⟨.getdir k, []⟩, none)
      | some e => (d, { c with pc := .done (.error (.io e)) }, none)
    else (d, { c with pc := .done (.error .tooManyTxRetries) }, none)
  | .getdir k, none => (d, { c with pc := readDir wire f k d }, none)
  | .rmdir k ver len r kdf, none => (d, ⟨.mkdir k r kdf, c.staged ++ [.rmdir ver len]⟩, none)
  | .mkdir k r kdf, none =>
    (d, ⟨.commit k r, c.staged ++ [.mkdir (fresh k) (serialize wire kdf)]⟩, none)
  | .getdir _, some e | .rmdir .., some e | .mkdir .., some e =>
    (d, { c with pc := .abort (.io e) }, none)
  | .commit k r, none =>
    if conflictFree c.staged d then (applyChanges c.staged d, ⟨.done (.ok r), []⟩, some (k, r))
    else (d, ⟨.start (k + 1), []⟩, none)
  | .commit _ _, some e => (d, ⟨.done (.error (.io e)), []⟩, none)
  | .abort e, _ => (d, ⟨.done (.error e), []⟩, none)
  | .done _, _ => (d, c, none)

/-- What a client in the middle of attempt `k` holds from its read: the version `ver` it
read is one the directory has had (`inst`), the closure turned the list it read into
`kdf'` with result `r`, and while the directory has version `ver` it holds those bytes. -/
def Read (inst : HashId → Prop) (d : Option (HashId × Bytes)) (k : Nat) (ver : HashId) (r : R)
    (kdf' : KdfList) : Prop :=
  inst ver ∧ ∃ data kdf, deserialize wire getKdflistConfig data = .ok kdf ∧
    f k kdf = .ok (r, kdf') ∧ (d.map Prod.fst = some ver → d = some (ver, data))

/-- A client's transaction holds what its place in the attempt has staged, and its read is
as `Read` says. -/
def Client.Wf (inst : HashId → Prop) (d : Option (HashId × Bytes)) (c : Client R) : Prop :=
  match c.pc with
  | .getdir _ => c.staged = []
  | .rmdir k ver _ r kdf' => c.staged = [] ∧ Read wire f inst d k ver r kdf'
  | .mkdir k r kdf' => ∃ ver len, c.staged = [.rmdir ver len] ∧ Read wire f inst d k ver r kdf'
  | .commit k r =>
    ∃ ver len kdf', c.staged = [.rmdir ver len, .mkdir (fresh k) (serialize wire kdf')] ∧
      Read wire f inst d k ver r kdf'
  | _ => True

/-- `n` storage calls of a client with no other client in between, each carried out. -/
def Client.runAlone :
    Nat → Option (HashId × Bytes) → Client R → Option (HashId × Bytes) × Client R
  | 0, d, c => (d, c)
  | n + 1, d, c =>
    Client.runAlone n (c.step wire fresh f d none).1 (c.step wire fresh f d none).2.1

/-- What a storage computation returned, without the storage. -/
def resultOf {α : Type} : EStateM.Result ErrorKind Storage α → Except ErrorKind α
  | .ok a _ => .ok a
  | .error e _ => .error e

/-- The client is in its first or second attempt whenever it is in one, and it failed with
`TooManyTxRetries` only as its closure did: `do_tx` did not give up on it. -/
def Client.WithinTwoAttempts (c : Client R) : Prop :=
  (∀ k, c.pc.attempt = some k → k ≤ 1) ∧
    (c.pc = .done (.error .tooManyTxRetries) → ∃ j kdf, f j kdf = .error .tooManyTxRetries)

/-- What bounds a client's retries when the other client has committed `n` times: its attempt
is at most `n`; past its read, a directory no longer at the version it read has cost the other
client a commit during the attempt (the attempt is below `n`); and it fails with
`TooManyTxRetries` only as its closure did. -/
def Client.Retries (d : Option (HashId × Bytes)) (n : Nat) (c : Client R) : Prop :=
  match c.pc, c.staged with
  | .start k, _ | .getdir k, _ => k ≤ n
  | .rmdir k ver _ _ _, _ | .mkdir k _ _, .rmdir ver _ :: _ | .commit k _, .rmdir ver _ :: _ =>
    k ≤ n ∧ (d.map Prod.fst ≠ some ver → k < n)
  | .mkdir k _ _, _ | .commit k _, _ => k ≤ n
  | .abort e, _ | .done (.error e), _ => e = .tooManyTxRetries → ∃ j kdf, f j kdf = .error e
  | .done (.ok _), _ => True

variable {wire fresh f}

theorem Read.commit_other {inst inst' : HashId → Prop} {d : Option (HashId × Bytes)} {k : Nat}
    {ver ver' : HashId} {r : R} {kdf' : KdfList} {data' : Bytes}
    (h : Read wire f inst d k ver r kdf') (hinst : ∀ v, inst v → inst' v)
    (hv : ∀ v, inst v → v ≠ ver') : Read wire f inst' (some (ver', data')) k ver r kdf' := by
  obtain ⟨hi, data, kdf, hd, hf, -⟩ := h
  refine ⟨hinst _ hi, data, kdf, hd, hf, fun h => ?_⟩
  exact absurd (Option.some.inj h).symm (hv ver hi)

/-- A client's view survives another client's commit of a version it did not read. -/
theorem Client.Wf.commit_other {inst inst' : HashId → Prop} {d : Option (HashId × Bytes)}
    {c : Client R} {ver' : HashId} {data' : Bytes} (hc : c.Wf wire fresh f inst d)
    (hinst : ∀ v, inst v → inst' v) (hv : ∀ v, inst v → v ≠ ver') :
    c.Wf wire fresh f inst' (some (ver', data')) := by
  obtain ⟨pc, staged⟩ := c
  cases pc <;> simp only [Client.Wf] at hc ⊢
  case getdir => exact hc
  case rmdir => exact ⟨hc.1, hc.2.commit_other hinst hv⟩
  case mkdir =>
    obtain ⟨ver, len, hs, hr⟩ := hc
    exact ⟨ver, len, hs, hr.commit_other hinst hv⟩
  case commit =>
    obtain ⟨ver, len, kdf', hs, hr⟩ := hc
    exact ⟨ver, len, kdf', hs, hr.commit_other hinst hv⟩

theorem readDir_wf {inst : HashId → Prop} {d : Option (HashId × Bytes)} {k : Nat}
    (hd : ∀ v, d.map Prod.fst = some v → inst v) :
    Client.Wf wire fresh f inst d ⟨readDir wire f k d, []⟩ := by
  unfold readDir
  split
  · trivial
  · rename_i ver data
    split
    · trivial
    · rename_i kdf hk
      split
      · rename_i r kdf' hf
        exact ⟨rfl, hd ver rfl, data, kdf, hk, hf, fun _ => rfl⟩
      · trivial

/-- One storage call of a client: it leaves the directory and its result as they were and
keeps its view, or it commits attempt `k`: it had not returned, now returns `Ok(r)`, and
the directory becomes the closure's list for the list the attempt read. -/
theorem Client.step_cases {inst : HashId → Prop} {d d' : Option (HashId × Bytes)}
    {c c' : Client R} {cm : Option (Nat × R)} {fail : Option IoError}
    (hc : c.Wf wire fresh f inst d) (hd : ∀ v, d.map Prod.fst = some v → inst v)
    (h : c.step wire fresh f d fail = (d', c', cm)) :
    (d' = d ∧ cm = none ∧ c'.pc.result = c.pc.result ∧ c'.Wf wire fresh f inst d) ∨
      ∃ k r, cm = some (k, r) ∧ c.pc.result = none ∧ c'.pc = .done (.ok r) ∧
        AttemptCommits wire fresh f k d r d' := by
  obtain ⟨pc, staged⟩ := c
  cases pc
  case start k =>
    simp only [Client.step] at h
    split at h
    · cases fail <;> cases h
      · exact .inl ⟨rfl, rfl, rfl, rfl⟩
      · exact .inl ⟨rfl, rfl, rfl, trivial⟩
    · cases h
      exact .inl ⟨rfl, rfl, rfl, trivial⟩
  case getdir k =>
    cases fail <;> simp only [Client.step] at h <;> cases h
    · refine .inl ⟨rfl, rfl, ?_, ?_⟩
      · unfold readDir; split <;> (try split) <;> (try split) <;> rfl
      · simp only [Client.Wf] at hc
        subst hc
        exact readDir_wf hd
    · exact .inl ⟨rfl, rfl, rfl, trivial⟩
  case rmdir k ver len r kdf =>
    cases fail <;> simp only [Client.step] at h <;> cases h
    · obtain ⟨rfl, hr⟩ := hc
      exact .inl ⟨rfl, rfl, rfl, ver, len, rfl, hr⟩
    · exact .inl ⟨rfl, rfl, rfl, trivial⟩
  case mkdir k r kdf =>
    cases fail <;> simp only [Client.step] at h <;> cases h
    · obtain ⟨ver, len, rfl, hr⟩ := hc
      exact .inl ⟨rfl, rfl, rfl, ver, len, kdf, rfl, hr⟩
    · exact .inl ⟨rfl, rfl, rfl, trivial⟩
  case commit k r =>
    obtain ⟨ver, len, kdf', rfl, -, data, kdf, hk, hf, hv⟩ := hc
    cases fail <;> simp only [Client.step] at h
    · split at h <;> cases h
      · rename_i hok
        have hver : d.map Prod.fst = some ver := by simpa [conflictFree] using hok
        exact .inr ⟨k, r, rfl, rfl, rfl, ver, data, kdf, kdf', hv hver, hk, hf, rfl⟩
      · exact .inl ⟨rfl, rfl, rfl, trivial⟩
    · -- a failed commit applies nothing
      cases h
      exact .inl ⟨rfl, rfl, rfl, trivial⟩
  case abort e =>
    simp only [Client.step] at h
    cases h
    exact .inl ⟨rfl, rfl, rfl, trivial⟩
  case done res =>
    simp only [Client.step] at h
    cases h
    exact .inl ⟨rfl, rfl, rfl, hc⟩

/-- Alone on the storage and with every call succeeding, a client returns in five storage
calls what `edit_kdflist` returns, leaving the directory as `edit_kdflist` leaves it: the
step-by-step client is the sequential model, one call a step. -/
theorem runAlone_editKdflist (d : Option (HashId × Bytes)) (staged : List Change)
    (log : List Event) :
    (Client.runAlone wire fresh f 5 d ⟨.start 0, []⟩).2.pc =
        .done (resultOf (editKdflist wire fresh f ⟨d, staged, [], log⟩)) ∧
      (Client.runAlone wire fresh f 5 d ⟨.start 0, []⟩).1 =
        (resultState (editKdflist wire fresh f ⟨d, staged, [], log⟩)).committed := by
  -- split on what the read gives, then run both sides to the end
  rcases d with _ | ⟨ver, data⟩
  on_goal 2 => rcases hk : deserialize wire getKdflistConfig data with _ | kdf
  on_goal 3 => rcases hf : f 0 kdf with _ | ⟨r, kdf'⟩
  all_goals simp [*, Client.runAlone, Client.step, readDir, editKdflist, doTx, doTxLoop, startTx,
    Storage.next, editAttempt, getKdflist, getdir, runEdit, putKdflist, rmdir, mkdir, commit,
    abort, conflictFree, applyChanges, resultOf, resultState]

/-- Another commit only loosens the bound. -/
theorem Client.Retries.mono {d d' : Option (HashId × Bytes)} {n : Nat} {c : Client R}
    (h : c.Retries f d n) : c.Retries f d' (n + 1) := by
  obtain ⟨pc, staged⟩ := c
  unfold Client.Retries at h ⊢
  split at h
  all_goals first
    | exact Nat.le_succ_of_le h
    | exact ⟨Nat.le_succ_of_le h.1, fun _ => Nat.lt_succ_of_le h.1⟩
    | exact h

theorem readDir_retries {d : Option (HashId × Bytes)} {n k : Nat} (hk : k ≤ n)
    (staged : List Change) : Client.Retries f d n ⟨readDir wire f k d, staged⟩ := by
  rcases d with _ | ⟨ver, data⟩
  · simp [readDir, Client.Retries]
  rcases hd : deserialize wire getKdflistConfig data with _ | kdf
  · simp [readDir, hd, Client.Retries]
  rcases hf : f k kdf with e | ⟨r, kdf'⟩
  · simp only [readDir, hd, hf, Client.Retries]
    exact fun he => ⟨k, kdf, he ▸ hf⟩
  · simp [readDir, hd, hf, Client.Retries, hk]

theorem callsLeft_readDir (k : Nat) (d : Option (HashId × Bytes)) :
    (readDir wire f k d).callsLeft = 8 - 5 * k ∨ (readDir wire f k d).callsLeft = 1 := by
  unfold readDir
  split <;> (try split) <;> (try split) <;> simp [Pc.callsLeft]

/-- One storage call of a client keeps its bound while the other client has committed at
most once: a failed commit found the directory moved, which the other client paid for. Unless
the client has returned, the call uses up one of the calls it had left. -/
theorem Client.Retries.step {inst : HashId → Prop} {d d' : Option (HashId × Bytes)} {n : Nat}
    {c c' : Client R} {cm : Option (Nat × R)} {fail : Option IoError}
    (hc : c.Wf wire fresh f inst d) (hn : n ≤ 1) (hr : c.Retries f d n)
    (h : c.step wire fresh f d fail = (d', c', cm)) :
    c'.Retries f d' n ∧
      (c'.pc.callsLeft < c.pc.callsLeft ∨ ∃ res, c'.pc = .done res) := by
  obtain ⟨pc, staged⟩ := c
  -- a failed call fails the client with an I/O error, never `TooManyTxRetries`
  have hio : ∀ e, ErrorKind.io e = .tooManyTxRetries → ∃ j kdf, f j kdf = .error (.io e) :=
    fun _ h => nomatch h
  cases pc
  case start k =>
    have hk : k ≤ 1 := by simp only [Client.Retries] at hr; omega
    simp only [Client.step, if_pos (show k < 16 by omega)] at h
    cases fail <;> cases h
    · exact ⟨hr, .inl (by simp only [Pc.callsLeft]; omega)⟩
    · exact ⟨hio _, .inr ⟨_, rfl⟩⟩
  case getdir k =>
    have hk : k ≤ 1 := by simp only [Client.Retries] at hr; omega
    cases fail <;> simp only [Client.step] at h <;> cases h
    · refine ⟨readDir_retries hr _, .inl ?_⟩
      rcases callsLeft_readDir k d with h | h <;> rw [h] <;> simp only [Pc.callsLeft] <;> omega
    · exact ⟨hio _, .inl (by simp only [Pc.callsLeft]; omega)⟩
  case rmdir k ver len r kdf =>
    obtain ⟨rfl, -⟩ := hc
    have hk : k ≤ 1 := by simp only [Client.Retries] at hr; exact hr.1.trans hn
    cases fail <;> simp only [Client.step] at h <;> cases h
    · exact ⟨hr, .inl (by simp only [Pc.callsLeft]; omega)⟩
    · exact ⟨hio _, .inl (by simp only [Pc.callsLeft]; omega)⟩
  case mkdir k r kdf =>
    obtain ⟨ver, len, rfl, -⟩ := hc
    have hk : k ≤ 1 := by simp only [Client.Retries] at hr; exact hr.1.trans hn
    cases fail <;> simp only [Client.step] at h <;> cases h
    · exact ⟨hr, .inl (by simp only [Pc.callsLeft]; omega)⟩
    · exact ⟨hio _, .inl (by simp only [Pc.callsLeft]; omega)⟩
  case commit k r =>
    obtain ⟨ver, len, kdf', rfl, -⟩ := hc
    have hk : k ≤ 1 := by simp only [Client.Retries] at hr; omega
    cases fail <;> simp only [Client.step] at h
    · split at h <;> cases h
      · exact ⟨trivial, .inl (by simp only [Pc.callsLeft]; omega)⟩
      · rename_i hok
        exact ⟨hr.2 (by simpa [conflictFree] using hok),
          .inl (by simp only [Pc.callsLeft]; omega)⟩
    · cases h
      exact ⟨hio _, .inr ⟨_, rfl⟩⟩
  case abort e =>
    simp only [Client.step] at h
    cases h
    exact ⟨hr, .inl (by simp [Pc.callsLeft])⟩
  case done res =>
    simp only [Client.step] at h
    cases h
    exact ⟨hr, .inr ⟨res, rfl⟩⟩

/-- Under the bound, with the other client committed at most once, the client is in its first
or second attempt, and fails with `TooManyTxRetries` only as its closure did. -/
theorem Client.Retries.attempt {d : Option (HashId × Bytes)} {n : Nat} {c : Client R}
    (hr : c.Retries f d n) (hn : n ≤ 1) : c.WithinTwoAttempts f := by
  obtain ⟨pc, staged⟩ := c
  unfold Client.Retries at hr
  split at hr <;> simp_all [Client.WithinTwoAttempts, Pc.attempt] <;> omega

/-- Under the bound a client that has not returned has a call left. -/
theorem Client.Retries.callsLeft_pos {d : Option (HashId × Bytes)} {n : Nat} {c : Client R}
    (hr : c.Retries f d n) (hn : n ≤ 1) : (∃ res, c.pc = .done res) ∨ 0 < c.pc.callsLeft := by
  obtain ⟨pc, staged⟩ := c
  unfold Client.Retries at hr
  split at hr <;> simp_all [Pc.callsLeft] <;> omega

end Client

/-! ## The two clients -/

/-- A commit of the log: which client, its attempt, and the result it returned. -/
inductive Commit (R₁ R₂ : Type)
  | a (k : Nat) (r : R₁)
  | b (k : Nat) (r : R₂)

/-- The result of a commit of client `a`. -/
def Commit.resultA {R₁ R₂ : Type} : Commit R₁ R₂ → Option R₁
  | .a _ r => some r
  | .b _ _ => none

/-- The result of a commit of client `b`. -/
def Commit.resultB {R₁ R₂ : Type} : Commit R₁ R₂ → Option R₂
  | .a _ _ => none
  | .b _ r => some r

/-- The versions `put_kdflist` draws with `rand_hashid()`: client `a`'s in attempt `k` is
`a k`, client `b`'s is `b k`; none of one client's is one of the other's, or the version
of the initial directory `d₀`. -/
structure Versions (d₀ : Option (HashId × Bytes)) where
  a : Nat → HashId
  b : Nat → HashId
  a_ne_b : ∀ i j, a i ≠ b j
  a_fresh : ∀ i, d₀.map Prod.fst ≠ some (a i)
  b_fresh : ∀ j, d₀.map Prod.fst ≠ some (b j)

/-- Versions apart from each other and from the zero version of the initial directory: client
`a` draws `1 0 … 0` and client `b` draws `2 0 … 0`. -/
def Versions.apart (data : Bytes) : Versions (some (HashId.zero, data)) where
  a _ := ⟨1 :: List.replicate 31 0, rfl⟩
  b _ := ⟨2 :: List.replicate 31 0, rfl⟩
  a_ne_b _ _ h := absurd (congrArg HashId.bytes h) (by simp)
  a_fresh _ h := absurd (congrArg HashId.bytes (Option.some.inj h)) (by simp [HashId.zero])
  b_fresh _ h := absurd (congrArg HashId.bytes (Option.some.inj h)) (by simp [HashId.zero])

/-- The storage shared by the two clients, with the log of commits in commit order. -/
structure Sys (R₁ R₂ : Type) where
  dir : Option (HashId × Bytes)
  a : Client R₁
  b : Client R₂
  log : List (Commit R₁ R₂)

/-- Both operations about to start, on the directory `d₀`. -/
def Sys.init {R₁ R₂ : Type} (d₀ : Option (HashId × Bytes)) : Sys R₁ R₂ :=
  ⟨d₀, ⟨.start 0, []⟩, ⟨.start 0, []⟩, []⟩

section Sys

variable {R₁ R₂ : Type} (wire : Wire) {d₀ : Option (HashId × Bytes)} (V : Versions d₀)
  (fA : Nat → KdfList → Except ErrorKind (R₁ × KdfList))
  (fB : Nat → KdfList → Except ErrorKind (R₂ × KdfList))

/-- One storage call of client `a` (`true`) or of client `b` (`false`), carried out or failed
by the storage; a commit is logged. -/
def Sys.step (s : Sys R₁ R₂) : Bool × Option IoError → Sys R₁ R₂
  | (true, fail) =>
    let t := s.a.step wire V.a fA s.dir fail
    { s with dir := t.1, a := t.2.1, log := s.log ++ (t.2.2.map fun p => .a p.1 p.2).toList }
  | (false, fail) =>
    let t := s.b.step wire V.b fB s.dir fail
    { s with dir := t.1, b := t.2.1, log := s.log ++ (t.2.2.map fun p => .b p.1 p.2).toList }

/-- The interleaving `sched`: which client makes each storage call, and how the storage
answers it. -/
def Sys.run : List (Bool × Option IoError) → Sys R₁ R₂ → Sys R₁ R₂
  | [], s => s
  | w :: ws, s => Sys.run ws (s.step wire V fA fB w)

/-- The version a commit installed. -/
def Commit.version : Commit R₁ R₂ → HashId
  | .a k _ => V.a k
  | .b k _ => V.b k

/-- Commit `c` took the directory `d` to `d'`: it read a list there and wrote what its
client's closure returned for it, under the version it drew. -/
def Commit.Applies :
    Commit R₁ R₂ → Option (HashId × Bytes) → Option (HashId × Bytes) → Prop
  | .a k r, d, d' => AttemptCommits wire V.a fA k d r d'
  | .b k r, d, d' => AttemptCommits wire V.b fB k d r d'

/-- The commits `cs`, applied one after another from `d₀`, each to the list the one before
wrote, give the directory `d`. -/
inductive Serial : List (Commit R₁ R₂) → Option (HashId × Bytes) → Prop
  | nil : Serial [] d₀
  | snoc {cs : List (Commit R₁ R₂)} {c : Commit R₁ R₂} {d d' : Option (HashId × Bytes)} :
      Serial cs d → c.Applies wire V fA fB d d' → Serial (cs ++ [c]) d'

/-- The versions the directory has had: the initial one and those of the commits. -/
def Installed (log : List (Commit R₁ R₂)) (v : HashId) : Prop :=
  d₀.map Prod.fst = some v ∨ ∃ c ∈ log, c.version V = v

/-- What holds along every interleaving. -/
structure Sys.Inv (s : Sys R₁ R₂) : Prop where
  serial : Serial wire V fA fB s.log s.dir
  resultsA : s.log.filterMap Commit.resultA = s.a.pc.result.toList
  resultsB : s.log.filterMap Commit.resultB = s.b.pc.result.toList
  a : s.a.Wf wire V.a fA (Installed V s.log) s.dir
  b : s.b.Wf wire V.b fB (Installed V s.log) s.dir

variable {wire V fA fB}

theorem Serial.installed {log : List (Commit R₁ R₂)} {d : Option (HashId × Bytes)}
    (h : Serial wire V fA fB log d) : ∀ v, d.map Prod.fst = some v → Installed V log v := by
  cases h with
  | nil => exact fun v hv => .inl hv
  | @snoc cs c d d' _ hc =>
    intro v hv
    refine .inr ⟨c, by simp, ?_⟩
    cases c <;> obtain ⟨ver, data, l, l', -, -, -, hd⟩ := hc <;>
      simpa [Commit.version, hd] using hv

theorem Installed.append {log : List (Commit R₁ R₂)} {v : HashId} (c : Commit R₁ R₂)
    (h : Installed V log v) : Installed V (log ++ [c]) v :=
  h.imp_right fun ⟨c', hc', hv⟩ => ⟨c', List.mem_append_left _ hc', hv⟩

/-- While client `a` has not returned `Ok`, no version installed is one it draws. -/
theorem Installed.ne_a {log : List (Commit R₁ R₂)} {v : HashId}
    (hlog : log.filterMap Commit.resultA = []) (h : Installed V log v) (k : Nat) : v ≠ V.a k := by
  rintro rfl
  rcases h with h | ⟨c, hc, hv⟩
  · exact V.a_fresh k h
  · cases c with
    | a i r => exact absurd (List.filterMap_eq_nil_iff.mp hlog _ hc) (by simp [Commit.resultA])
    | b j r => exact V.a_ne_b k j hv.symm

theorem Installed.ne_b {log : List (Commit R₁ R₂)} {v : HashId}
    (hlog : log.filterMap Commit.resultB = []) (h : Installed V log v) (k : Nat) : v ≠ V.b k := by
  rintro rfl
  rcases h with h | ⟨c, hc, hv⟩
  · exact V.b_fresh k h
  · cases c with
    | a i r => exact V.a_ne_b i k hv
    | b j r => exact absurd (List.filterMap_eq_nil_iff.mp hlog _ hc) (by simp [Commit.resultB])

theorem Sys.inv_init : (Sys.init d₀ : Sys R₁ R₂).Inv wire V fA fB :=
  ⟨.nil, rfl, rfl, trivial, trivial⟩

/-- A storage call of client `a` keeps the invariant. -/
theorem Sys.Inv.step_a {s : Sys R₁ R₂} (hi : s.Inv wire V fA fB) (fail : Option IoError) :
    (s.step wire V fA fB (true, fail)).Inv wire V fA fB := by
  generalize ht : s.a.step wire V.a fA s.dir fail = t
  obtain ⟨d', c', cm⟩ := t
  simp only [Sys.step, ht]
  rcases Client.step_cases hi.a hi.serial.installed ht with
    ⟨rfl, rfl, hres, hwf⟩ | ⟨k, r, rfl, hres, hpc, hc⟩
  · simp only [Option.map_none', Option.toList_none, List.append_nil]
    exact ⟨hi.serial, hres ▸ hi.resultsA, hi.resultsB, hwf, hi.b⟩
  · have hnil : s.log.filterMap Commit.resultA = [] := by rw [hi.resultsA, hres]; rfl
    refine ⟨.snoc hi.serial hc, ?_, ?_, by simp [Client.Wf, hpc], ?_⟩
    · simp [hnil, hpc, Commit.resultA, Pc.result]
    · simp [hi.resultsB, Commit.resultB]
    · obtain ⟨-, -, -, -, -, -, -, rfl⟩ := hc
      exact hi.b.commit_other (fun v => Installed.append _) fun v hv => hv.ne_a hnil k

/-- A storage call of client `b` keeps the invariant. -/
theorem Sys.Inv.step_b {s : Sys R₁ R₂} (hi : s.Inv wire V fA fB) (fail : Option IoError) :
    (s.step wire V fA fB (false, fail)).Inv wire V fA fB := by
  generalize ht : s.b.step wire V.b fB s.dir fail = t
  obtain ⟨d', c', cm⟩ := t
  simp only [Sys.step, ht]
  rcases Client.step_cases hi.b hi.serial.installed ht with
    ⟨rfl, rfl, hres, hwf⟩ | ⟨k, r, rfl, hres, hpc, hc⟩
  · simp only [Option.map_none', Option.toList_none, List.append_nil]
    exact ⟨hi.serial, hi.resultsA, hres ▸ hi.resultsB, hi.a, hwf⟩
  · have hnil : s.log.filterMap Commit.resultB = [] := by rw [hi.resultsB, hres]; rfl
    refine ⟨.snoc hi.serial hc, ?_, ?_, ?_, by simp [Client.Wf, hpc]⟩
    · simp [hi.resultsA, Commit.resultA]
    · simp [hnil, hpc, Commit.resultB, Pc.result]
    · obtain ⟨-, -, -, -, -, -, -, rfl⟩ := hc
      exact hi.a.commit_other (fun v => Installed.append _) fun v hv => hv.ne_b hnil k

theorem Sys.Inv.run {s : Sys R₁ R₂} (hi : s.Inv wire V fA fB)
    (sched : List (Bool × Option IoError)) : (Sys.run wire V fA fB sched s).Inv wire V fA fB := by
  induction sched generalizing s with
  | nil => exact hi
  | cons w ws ih =>
    obtain ⟨_ | _, fail⟩ := w
    · exact ih (hi.step_b fail)
    · exact ih (hi.step_a fail)

/-- No lost update: along every interleaving of the storage calls of two operations run
through `edit_kdflist`, the committed directory is the initial one with the commits applied
one after another in commit order, each to the list the commit before it wrote; and the
commits are exactly the operations that returned `Ok`, each once, with the result it
returned. -/
theorem no_lost_update (sched : List (Bool × Option IoError)) :
    Serial wire V fA fB (Sys.run wire V fA fB sched (Sys.init d₀)).log
        (Sys.run wire V fA fB sched (Sys.init d₀)).dir ∧
      (Sys.run wire V fA fB sched (Sys.init d₀)).log.filterMap Commit.resultA =
        (Sys.run wire V fA fB sched (Sys.init d₀)).a.pc.result.toList ∧
      (Sys.run wire V fA fB sched (Sys.init d₀)).log.filterMap Commit.resultB =
        (Sys.run wire V fA fB sched (Sys.init d₀)).b.pc.result.toList :=
  let hi := Sys.inv_init.run sched
  ⟨hi.serial, hi.resultsA, hi.resultsB⟩

/-- Two copies of the closure that writes back what it read, on the lossless layer
`Wire.tagged`, over the list `init_keys` writes; `b`'s first call fails. -/
theorem no_lost_update_tagged :
    let l₀ := initKeysList .plain HashId.zero .epoch HashId.zero HashId.zero [] "main"
    let V := Versions.apart (serialize Wire.tagged l₀)
    let f : Nat → KdfList → Except ErrorKind (Unit × KdfList) := fun _ l => .ok ((), l)
    let s := Sys.run Wire.tagged V f f
      [(true, none), (false, some .interrupted), (true, none), (true, none), (true, none)]
      (Sys.init (some (HashId.zero, serialize Wire.tagged l₀)))
    Serial Wire.tagged V f f s.log s.dir ∧
      s.log.filterMap Commit.resultA = s.a.pc.result.toList ∧
      s.log.filterMap Commit.resultB = s.b.pc.result.toList := by
  intro l₀ V f s
  exact no_lost_update _

end Sys

/-! ## Each call retries at most once, and returns

A commit fails only on a directory moved since the attempt's read, and only a commit of the
other client moves it; that client commits once at most. So each call makes at most two
attempts of five storage calls, and returns within ten. -/

section Retries

variable {R₁ R₂ : Type} (wire : Wire) {d₀ : Option (HashId × Bytes)} (V : Versions d₀)
  (fA : Nat → KdfList → Except ErrorKind (R₁ × KdfList))
  (fB : Nat → KdfList → Except ErrorKind (R₂ × KdfList))

/-- What holds along every interleaving, with each client's retries bounded by the commits of
the other. -/
structure Sys.Bounded (s : Sys R₁ R₂) : Prop where
  inv : s.Inv wire V fA fB
  a : s.a.Retries fA s.dir (s.log.filterMap Commit.resultB).length
  b : s.b.Retries fB s.dir (s.log.filterMap Commit.resultA).length

variable {wire V fA fB}

theorem Sys.bounded_init : (Sys.init d₀ : Sys R₁ R₂).Bounded wire V fA fB :=
  ⟨Sys.inv_init, Nat.le_refl 0, Nat.le_refl 0⟩

/-- A client commits at most once: its commits are its result. -/
theorem length_filterMap_resultA_le {s : Sys R₁ R₂} (hi : s.Inv wire V fA fB) :
    (s.log.filterMap Commit.resultA).length ≤ 1 := by
  rw [hi.resultsA]
  cases s.a.pc.result <;> simp

theorem length_filterMap_resultB_le {s : Sys R₁ R₂} (hi : s.Inv wire V fA fB) :
    (s.log.filterMap Commit.resultB).length ≤ 1 := by
  rw [hi.resultsB]
  cases s.b.pc.result <;> simp

theorem Sys.Bounded.step_a {s : Sys R₁ R₂} (hb : s.Bounded wire V fA fB)
    (fail : Option IoError) :
    (s.step wire V fA fB (true, fail)).Bounded wire V fA fB := by
  generalize ht : s.a.step wire V.a fA s.dir fail = t
  obtain ⟨d', c', cm⟩ := t
  have ha := (hb.a.step hb.inv.a (length_filterMap_resultB_le hb.inv) ht).1
  refine ⟨hb.inv.step_a fail, ?_, ?_⟩ <;> simp only [Sys.step, ht]
  · cases cm <;> simpa [Commit.resultB] using ha
  · rcases Client.step_cases hb.inv.a hb.inv.serial.installed ht with
      ⟨rfl, rfl, -, -⟩ | ⟨k, r, rfl, -⟩
    · simpa using hb.b
    · simpa [Commit.resultA] using hb.b.mono

theorem Sys.Bounded.step_b {s : Sys R₁ R₂} (hb : s.Bounded wire V fA fB)
    (fail : Option IoError) :
    (s.step wire V fA fB (false, fail)).Bounded wire V fA fB := by
  generalize ht : s.b.step wire V.b fB s.dir fail = t
  obtain ⟨d', c', cm⟩ := t
  have hb' := (hb.b.step hb.inv.b (length_filterMap_resultA_le hb.inv) ht).1
  refine ⟨hb.inv.step_b fail, ?_, ?_⟩ <;> simp only [Sys.step, ht]
  · rcases Client.step_cases hb.inv.b hb.inv.serial.installed ht with
      ⟨rfl, rfl, -, -⟩ | ⟨k, r, rfl, -⟩
    · simpa using hb.a
    · simpa [Commit.resultB] using hb.a.mono
  · cases cm <;> simpa [Commit.resultA] using hb'

theorem Sys.Bounded.run {s : Sys R₁ R₂} (hb : s.Bounded wire V fA fB)
    (sched : List (Bool × Option IoError)) :
    (Sys.run wire V fA fB sched s).Bounded wire V fA fB := by
  induction sched generalizing s with
  | nil => exact hb
  | cons w ws ih =>
    obtain ⟨_ | _, fail⟩ := w
    · exact ih (hb.step_b fail)
    · exact ih (hb.step_a fail)

/-- Along any interleaving client `a` returns, or it was given fewer storage calls than it
had left: each of its calls uses one up. -/
theorem Sys.Bounded.returns_within_a {s : Sys R₁ R₂} (hb : s.Bounded wire V fA fB)
    (sched : List (Bool × Option IoError)) :
    (∃ res, (Sys.run wire V fA fB sched s).a.pc = .done res) ∨
      (sched.map Prod.fst).count true < s.a.pc.callsLeft := by
  induction sched generalizing s with
  | nil => simpa [Sys.run] using hb.a.callsLeft_pos (length_filterMap_resultB_le hb.inv)
  | cons w ws ih =>
    obtain ⟨who, fail⟩ := w
    have hs : (s.step wire V fA fB (who, fail)).Bounded wire V fA fB := by
      cases who
      exacts [hb.step_b fail, hb.step_a fail]
    rcases ih hs with h | h
    · exact .inl h
    refine .inr ?_
    cases who
    · -- a call of `b` leaves `a` as it was
      simpa [Sys.step] using h
    · -- a call of `a` uses up one it had left, or it has returned
      have hstep : (s.step wire V fA fB (true, fail)).a.pc.callsLeft < s.a.pc.callsLeft ∨
          ∃ res, (s.step wire V fA fB (true, fail)).a.pc = .done res := by
        show (s.a.step wire V.a fA s.dir fail).2.1.pc.callsLeft < _ ∨
          ∃ res, (s.a.step wire V.a fA s.dir fail).2.1.pc = .done res
        generalize ht : s.a.step wire V.a fA s.dir fail = t
        obtain ⟨d', c', cm⟩ := t
        exact (hb.a.step hb.inv.a (length_filterMap_resultB_le hb.inv) ht).2
      rw [List.map_cons, List.count_cons_self]
      rcases hstep with hlt | ⟨res, hd⟩
      · omega
      · rw [hd] at h
        exact absurd h (Nat.not_lt_zero _)

/-- Along any interleaving client `b` returns, or it was given fewer storage calls than it
had left: each of its calls uses one up. -/
theorem Sys.Bounded.returns_within_b {s : Sys R₁ R₂} (hb : s.Bounded wire V fA fB)
    (sched : List (Bool × Option IoError)) :
    (∃ res, (Sys.run wire V fA fB sched s).b.pc = .done res) ∨
      (sched.map Prod.fst).count false < s.b.pc.callsLeft := by
  induction sched generalizing s with
  | nil => simpa [Sys.run] using hb.b.callsLeft_pos (length_filterMap_resultA_le hb.inv)
  | cons w ws ih =>
    obtain ⟨who, fail⟩ := w
    have hs : (s.step wire V fA fB (who, fail)).Bounded wire V fA fB := by
      cases who
      exacts [hb.step_b fail, hb.step_a fail]
    rcases ih hs with h | h
    · exact .inl h
    refine .inr ?_
    cases who
    · -- a call of `b` uses up one it had left, or it has returned
      have hstep : (s.step wire V fA fB (false, fail)).b.pc.callsLeft < s.b.pc.callsLeft ∨
          ∃ res, (s.step wire V fA fB (false, fail)).b.pc = .done res := by
        show (s.b.step wire V.b fB s.dir fail).2.1.pc.callsLeft < _ ∨
          ∃ res, (s.b.step wire V.b fB s.dir fail).2.1.pc = .done res
        generalize ht : s.b.step wire V.b fB s.dir fail = t
        obtain ⟨d', c', cm⟩ := t
        exact (hb.b.step hb.inv.b (length_filterMap_resultA_le hb.inv) ht).2
      rw [List.map_cons, List.count_cons_self]
      rcases hstep with hlt | ⟨res, hd⟩
      · omega
      · rw [hd] at h
        exact absurd h (Nat.not_lt_zero _)
    · -- a call of `a` leaves `b` as it was
      simpa [Sys.step] using h

/-- Under contention each call retries at most once: along every interleaving of the storage
calls of two operations run through `edit_kdflist`, from any directory, each is in its first or
second attempt whenever it is in one, so the sixteen attempts of `do_tx` never run out, and it
returns `TooManyTxRetries` only when its own closure returned it. -/
theorem retries_at_most_once (sched : List (Bool × Option IoError)) :
    (Sys.run wire V fA fB sched (Sys.init d₀)).a.WithinTwoAttempts fA ∧
      (Sys.run wire V fA fB sched (Sys.init d₀)).b.WithinTwoAttempts fB :=
  let hb := Sys.bounded_init.run sched
  ⟨hb.a.attempt (length_filterMap_resultB_le hb.inv),
    hb.b.attempt (length_filterMap_resultA_le hb.inv)⟩

theorem retries_at_most_once_tagged :
    let l₀ := initKeysList .plain HashId.zero .epoch HashId.zero HashId.zero [] "main"
    let f : Nat → KdfList → Except ErrorKind (Unit × KdfList) := fun _ l => .ok ((), l)
    let s := Sys.run Wire.tagged (Versions.apart (serialize Wire.tagged l₀)) f f
      [(true, none), (false, some .interrupted), (true, none), (true, none), (true, none)]
      (Sys.init (some (HashId.zero, serialize Wire.tagged l₀)))
    s.a.WithinTwoAttempts f ∧ s.b.WithinTwoAttempts f := by
  intro l₀ f s
  exact retries_at_most_once _

/-- Every call returns within ten of its own storage calls, whatever the other does in between:
along every interleaving of two operations run through `edit_kdflist`, from any directory, each
has returned or has made fewer than ten storage calls. -/
theorem calls_return_within_ten (sched : List (Bool × Option IoError)) :
    ((∃ res, (Sys.run wire V fA fB sched (Sys.init d₀)).a.pc = .done res) ∨
        (sched.map Prod.fst).count true < 10) ∧
      ((∃ res, (Sys.run wire V fA fB sched (Sys.init d₀)).b.pc = .done res) ∨
        (sched.map Prod.fst).count false < 10) := by
  have hi : (Sys.init d₀ : Sys R₁ R₂).Bounded wire V fA fB := Sys.bounded_init
  exact ⟨hi.returns_within_a sched, hi.returns_within_b sched⟩

theorem calls_return_within_ten_tagged :
    let l₀ := initKeysList .plain HashId.zero .epoch HashId.zero HashId.zero [] "main"
    let f : Nat → KdfList → Except ErrorKind (Unit × KdfList) := fun _ l => .ok ((), l)
    let sched : List (Bool × Option IoError) :=
      [(true, none), (false, some .interrupted), (true, none), (true, none), (true, none)]
    let s := Sys.run Wire.tagged (Versions.apart (serialize Wire.tagged l₀)) f f sched
      (Sys.init (some (HashId.zero, serialize Wire.tagged l₀)))
    ((∃ res, s.a.pc = .done res) ∨ (sched.map Prod.fst).count true < 10) ∧
      ((∃ res, s.b.pc = .done res) ∨ (sched.map Prod.fst).count false < 10) := by
  intro l₀ f sched s
  exact calls_return_within_ten _

end Retries

/-! ## Two key-management calls refine the sequential key store -/

/-- The closure `edit_kdflist` runs in attempt `k` of the call `ops k`: its edit. -/
def editClosure (P : Primitives) (ops : Nat → Op) (k : Nat) (kdf : KdfList) :
    Except ErrorKind (Unit × KdfList) :=
  ((ops k).edit P kdf).map fun l' => ((), l')

/-- The call a commit made. -/
def Commit.op {R₁ R₂ : Type} (opA opB : Nat → Op) : Commit R₁ R₂ → Op
  | .a k _ => opA k
  | .b k _ => opB k

section Linearizable

variable {P : Primitives} {wire : Wire} {l₀ : KdfList} {v₀ : HashId}
  {V : Versions (some (v₀, serialize wire l₀))} {opA opB : Nat → Op}

/-- A commit's call reads back the list last written, since `get_kdflist` never reads back
another list, and steps from it to its edit. -/
theorem step_of_commit {op : Op} {L l l' : KdfList} {r : Unit}
    (hl : deserialize wire getKdflistConfig (serialize wire L) = .ok l)
    (hf : ((op.edit P l).map fun l' => ((), l')) = .ok (r, l')) (ph : Phrases) :
    op.step P L ph = (l', op.phrases L ph) := by
  obtain rfl := ((deserialize_serialize_eq_ok wire _ L l).mp hl).1
  obtain ⟨l'', he, hl''⟩ := map_eq_ok.mp hf
  cases hl''
  exact Op.step_of_edit he ph

/-- The commits so far leave the list the sequential run of their calls reaches. -/
theorem serial_run (ph₀ : Phrases) {log : List (Commit Unit Unit)}
    {d : Option (HashId × Bytes)}
    (h : Serial wire V (editClosure P opA) (editClosure P opB) log d) :
    ∃ v, d = some (v, serialize wire (run P (log.map (Commit.op opA opB)) (l₀, ph₀)).1) := by
  induction h with
  | nil => exact ⟨v₀, rfl⟩
  | @snoc cs c d d' _ hc ih =>
    obtain ⟨v, rfl⟩ := ih
    rw [List.map_append, run_append]
    -- either client's commit steps the list its read decoded
    cases c <;>
    · obtain ⟨ver, data, l, l', hd, hl, hf, rfl⟩ := hc
      obtain ⟨rfl, rfl⟩ := Prod.mk.inj (Option.some.inj hd)
      exact ⟨_, by simp [run, Commit.op, step_of_commit hl hf]; rfl⟩

/-- Linearizability of the key store: along every interleaving of the storage calls of two
key-management calls run through `edit_kdflist`, from a directory holding the list `l₀`, the
committed directory holds the list that the sequential run of the committed calls, in commit
order, reaches from `l₀`. So what is committed is reachable whenever `l₀` is, and every
invariant of the sequential runs holds of it. -/
theorem interleaved_linearizable (ph₀ : Phrases) (sched : List (Bool × Option IoError)) :
    let s := Sys.run wire V (editClosure P opA) (editClosure P opB) sched
      (Sys.init (some (v₀, serialize wire l₀)))
    let ops := s.log.map (Commit.op opA opB)
    (∃ v, s.dir = some (v, serialize wire (run P ops (l₀, ph₀)).1)) ∧
      (Reachable P l₀ ph₀ →
        Reachable P (run P ops (l₀, ph₀)).1 (run P ops (l₀, ph₀)).2) :=
  ⟨serial_run ph₀ (Sys.inv_init.run sched).serial, fun hr => hr.run _⟩

/-- `derive_key_chain` against `add_key`, whose second call fails, on the lossless layer
`Wire.tagged`, over the list `init_keys` writes. -/
theorem interleaved_linearizable_tagged :
    let l₀ := initKeysList .plain HashId.zero .epoch HashId.zero HashId.zero [] "main"
    let ph₀ : Phrases := Function.update (fun _ => []) "main" []
    let opA : Nat → Op := fun _ => .deriveKeyChain .epoch []
    let opB : Nat → Op := fun _ => .addKey HashId.zero .epoch [] [] "other"
    let s := Sys.run Wire.tagged (Versions.apart (serialize Wire.tagged l₀))
      (editClosure .plain opA) (editClosure .plain opB)
      [(true, none), (false, none), (true, none), (false, some .interrupted)]
      (Sys.init (some (HashId.zero, serialize Wire.tagged l₀)))
    let ops := s.log.map (Commit.op opA opB)
    (∃ v, s.dir = some (v, serialize Wire.tagged (run .plain ops (l₀, ph₀)).1)) ∧
      (Reachable .plain l₀ ph₀ →
        Reachable .plain (run .plain ops (l₀, ph₀)).1 (run .plain ops (l₀, ph₀)).2) := by
  intro l₀ ph₀ opA opB s ops
  exact interleaved_linearizable _ _

end Linearizable

end Ensync.KeyMgmt
