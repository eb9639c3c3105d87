import Ensync.Bytes

/-!
# Byte sources and sinks

The `io::Read` and `io::Write` values the block layer and the ciphers are
handed. A reader is any object answering `read(&mut buf)`; the model is the
bytes it still holds plus a script of its next answers (`Source`): a short read
of at least one byte, or an error (`Interrupted` or another kind). Once the
script is spent the reader fills every buffer as far as it can, and at the end
of its bytes it returns `Ok(0)` forever. Every finite pattern of short reads and
errors is a script, so a statement over all scripts is one over every way a
reader can split its bytes.

* `Source.read_ok` — a read returns a prefix of the remaining bytes, at most
  the buffer's size, and none only at the end (or for an empty buffer);
* `Source.read_measure` — every read that is not the final `Ok(0)` shrinks the
  script or the bytes, which is what makes the read loops terminate;
* `Source.readExact_reliable` — from a reader that never fails, `read_exact` returns the
  next bytes, however the reader splits them.
-/

namespace Ensync

/-- `io::Error`, by kind: `Interrupted` is the kind the read loops retry. -/
inductive IoError
  | interrupted
  /-- `UnexpectedEof`: `read_exact` on a reader that ends first. -/
  | unexpectedEof
  | other (code : Nat)
  deriving DecidableEq

/-- One scripted answer of a reader: `ok extra` returns `extra + 1` bytes, fewer if
the buffer or the remaining bytes are shorter. -/
inductive ReadStep
  | ok (extra : Nat)
  | err (e : IoError)
  deriving DecidableEq

/-- A reader: the bytes it still holds and its scripted answers. -/
structure Source where
  rest : Bytes
  script : List ReadStep

/-- A reader that returns its bytes in as few reads as the buffers allow. -/
def Source.ofBytes (b : Bytes) : Source := ⟨b, []⟩

/-- A reader of `b` that never fails: its `i`-th read returns `reads[i] + 1` bytes, fewer if
the buffer or the bytes are shorter, and later reads as many as fit. -/
def Source.ofReads (b : Bytes) (reads : List Nat) : Source := ⟨b, reads.map .ok⟩

namespace Source

@[simp] theorem rest_ofBytes (b : Bytes) : (ofBytes b).rest = b := rfl

@[simp] theorem rest_ofReads (b : Bytes) (reads : List Nat) : (ofReads b reads).rest = b := rfl

/-- `read(&mut buf)` with a buffer of `cap` bytes: the bytes returned, or the error. -/
def read (s : Source) (cap : Nat) : Except IoError Bytes × Source :=
  match s.script with
  | [] => (.ok (s.rest.take cap), ⟨s.rest.drop cap, []⟩)
  | .ok extra :: script =>
    (.ok (s.rest.take (min (extra + 1) cap)), ⟨s.rest.drop (min (extra + 1) cap), script⟩)
  | .err e :: script => (.error e, ⟨s.rest, script⟩)

/-- What is left to read: the termination measure of every read loop. -/
def measure (s : Source) : Nat := s.script.length + s.rest.length

theorem read_ok {s s' : Source} {cap : Nat} {d : Bytes} (h : s.read cap = (.ok d, s')) :
    s.rest = d ++ s'.rest ∧ d.length ≤ cap ∧ (d = [] → cap = 0 ∨ s.rest = []) := by
  obtain ⟨rest, _ | ⟨_ | e, script⟩⟩ := s <;>
    simp only [read, Prod.mk.injEq, Except.ok.injEq, reduceCtorEq, false_and] at h <;>
    obtain ⟨rfl, rfl⟩ := h <;>
    refine ⟨(List.take_append_drop _ _).symm, by simp only [List.length_take]; omega,
      fun hd => ?_⟩ <;>
    rcases List.take_eq_nil_iff.mp hd with h | h <;> first | exact .inr h | exact .inl (by omega)

theorem read_error {s s' : Source} {cap : Nat} {e : IoError} (h : s.read cap = (.error e, s')) :
    s'.rest = s.rest ∧ s'.script.length + 1 = s.script.length := by
  obtain ⟨rest, _ | ⟨_ | e, script⟩⟩ := s <;>
    simp only [read, Prod.mk.injEq, reduceCtorEq, false_and, Except.error.injEq] at h
  obtain ⟨rfl, rfl⟩ := h
  simp

theorem read_measure {s s' : Source} {cap : Nat} {r : Except IoError Bytes}
    (h : s.read cap = (r, s')) (hr : r ≠ .ok []) : s'.measure < s.measure := by
  obtain ⟨rest, _ | ⟨_ | e, script⟩⟩ := s <;> simp only [read, Prod.mk.injEq] at h <;>
    obtain ⟨rfl, rfl⟩ := h <;> simp only [measure, List.length_cons, List.length_drop]
  · have : rest.take cap ≠ [] := fun h' => hr (by rw [h'])
    simp only [ne_eq, List.take_eq_nil_iff, not_or] at this
    have := List.length_pos.mpr this.2
    omega
  · omega
  · omega

/-- A reader that never fails: every scripted answer is a read. -/
def Reliable (s : Source) : Prop := ∀ a ∈ s.script, ∃ n, a = .ok n

theorem reliable_ofReads (b : Bytes) (reads : List Nat) : (ofReads b reads).Reliable := by
  simp [Reliable, ofReads]

theorem reliable_ofBytes (b : Bytes) : (ofBytes b).Reliable := by
  simp [Reliable, ofBytes]

/-- A reader that never fails answers a read with bytes, and stays one that never fails. -/
theorem read_reliable {s s' : Source} (hs : s.Reliable) {cap : Nat} {r : Except IoError Bytes}
    (h : s.read cap = (r, s')) : (∃ d, r = .ok d) ∧ s'.Reliable := by
  obtain ⟨rest, _ | ⟨a, script⟩⟩ := s
  · obtain ⟨rfl, rfl⟩ := Prod.mk.inj h
    exact ⟨⟨_, rfl⟩, fun _ h => by simp at h⟩
  · obtain ⟨n, rfl⟩ := hs _ (List.mem_cons_self _ _)
    obtain ⟨rfl, rfl⟩ := Prod.mk.inj h
    exact ⟨⟨_, rfl⟩, fun b hb => hs b (List.mem_cons_of_mem _ hb)⟩

/-- A reader whose only failures are `Interrupted`, which the read loops retry. -/
def OnlyInterrupted (s : Source) : Prop :=
  ∀ a ∈ s.script, a = .err .interrupted ∨ ∃ n, a = .ok n

theorem Reliable.onlyInterrupted {s : Source} (hs : s.Reliable) : s.OnlyInterrupted :=
  fun a ha => .inr (hs a ha)

/-- A reader that fails only with `Interrupted` answers a read with bytes or `Interrupted`, and
stays such a reader. -/
theorem read_onlyInterrupted {s s' : Source} (hs : s.OnlyInterrupted) {cap : Nat}
    {r : Except IoError Bytes} (h : s.read cap = (r, s')) :
    (r = .error .interrupted ∨ ∃ d, r = .ok d) ∧ s'.OnlyInterrupted := by
  obtain ⟨rest, _ | ⟨a, script⟩⟩ := s
  · obtain ⟨rfl, rfl⟩ := Prod.mk.inj h
    exact ⟨.inr ⟨_, rfl⟩, fun _ h => by simp at h⟩
  · have hs' : ∀ b ∈ script, b = .err .interrupted ∨ ∃ n, b = .ok n :=
      fun b hb => hs b (List.mem_cons_of_mem _ hb)
    rcases hs _ (List.mem_cons_self _ _) with rfl | ⟨n, rfl⟩ <;>
      obtain ⟨rfl, rfl⟩ := Prod.mk.inj h
    exacts [⟨.inl rfl, hs'⟩, ⟨.inr ⟨_, rfl⟩, hs'⟩]

/-- `read_exact(&mut buf)` for a buffer of `n` bytes of which `acc` are read: reads until
the buffer is full, retrying `Interrupted`; a reader that ends first fails it with
`UnexpectedEof`. -/
def readExact (src : Source) (n : Nat) (acc : Bytes) : Except IoError Bytes × Source :=
  if acc.length < n then
    match h : src.read (n - acc.length) with
    | (.ok [], src') => (.error .unexpectedEof, src')
    | (.ok (b :: bs), src') => readExact src' n (acc ++ b :: bs)
    | (.error .interrupted, src') => readExact src' n acc
    | (.error e, src') => (.error e, src')
  else (.ok acc, src)
termination_by src.measure
decreasing_by all_goals exact read_measure h (by simp)

theorem readExact_data {src src' : Source} {n : Nat} {acc : Bytes} {b : UInt8} {bs : Bytes}
    (hlt : acc.length < n) (hr : src.read (n - acc.length) = (.ok (b :: bs), src')) :
    src.readExact n acc = src'.readExact n (acc ++ b :: bs) := by
  rw [readExact, if_pos hlt]; split <;> simp_all

theorem readExact_full {src : Source} {n : Nat} {acc : Bytes} (hge : n ≤ acc.length) :
    src.readExact n acc = (.ok acc, src) := by
  rw [readExact, if_neg (by omega)]

/-- From a reader that never fails and holds enough bytes, `read_exact` reads the next ones,
however the reader splits them. -/
theorem readExact_reliable {src : Source} (hs : src.Reliable) {n : Nat} {acc : Bytes}
    (hlen : n - acc.length ≤ src.rest.length) :
    ∃ src', src'.Reliable ∧ src'.rest = src.rest.drop (n - acc.length) ∧
      src.readExact n acc = (.ok (acc ++ src.rest.take (n - acc.length)), src') := by
  induction src, n, acc using readExact.induct with
  | case1 src n acc hlt src₁ hr =>
    have := ((read_ok hr).2.2 rfl).resolve_left (by omega)
    simp [this] at hlen
    omega
  | case2 src n acc hlt b bs src₁ hr ih =>
    obtain ⟨hrest, hle, -⟩ := read_ok hr
    have hk : n - (acc ++ b :: bs).length = n - acc.length - (b :: bs).length := by
      simp only [List.length_append]; omega
    rw [hrest, List.length_append] at hlen
    obtain ⟨src', hs', hrest', heq⟩ := ih (read_reliable hs hr).2 (by rw [hk]; omega)
    refine ⟨src', hs', ?_, ?_⟩
    · rw [hrest', hrest, hk, List.drop_append_eq_append_drop, List.drop_eq_nil_of_le hle,
        List.nil_append]
    · rw [readExact_data hlt hr, heq, hrest, hk, List.take_append_eq_append_take,
        List.take_of_length_le hle, List.append_assoc]
  | case3 src n acc hlt src₁ hr => obtain ⟨⟨_, ⟨⟩⟩, -⟩ := read_reliable hs hr
  | case4 src n acc hlt e src₁ _ hr => obtain ⟨⟨_, ⟨⟩⟩, -⟩ := read_reliable hs hr
  | case5 src n acc hge =>
    rw [show n - acc.length = 0 by omega, readExact_full (by omega)]
    exact ⟨src, hs, rfl, by simp⟩

/-- From a reader that never fails and holds too few bytes, `read_exact` fails with
`UnexpectedEof`, however the reader splits them. -/
theorem readExact_short {src : Source} (hs : src.Reliable) {n : Nat} {acc : Bytes}
    (hlen : src.rest.length < n - acc.length) :
    ∃ src', src.readExact n acc = (.error .unexpectedEof, src') := by
  induction src, n, acc using readExact.induct with
  | case1 src n acc hlt src₁ hr => exact ⟨src₁, by rw [readExact, if_pos hlt]; split <;> simp_all⟩
  | case2 src n acc hlt b bs src₁ hr ih =>
    obtain ⟨hrest, -, -⟩ := read_ok hr
    rw [readExact_data hlt hr]
    exact ih (read_reliable hs hr).2 (by
      rw [hrest, List.length_append] at hlen
      simp only [List.length_append] at hlen ⊢
      omega)
  | case3 src n acc hlt src₁ hr => obtain ⟨⟨_, ⟨⟩⟩, -⟩ := read_reliable hs hr
  | case4 src n acc hlt e src₁ _ hr => obtain ⟨⟨_, ⟨⟩⟩, -⟩ := read_reliable hs hr
  | case5 src n acc hge => omega

end Source

/-- A writer: the bytes written so far and a script of `write_all` outcomes, one per
call (`some e` fails the call with `e`); once the script is spent every write succeeds. -/
structure Sink where
  written : Bytes
  script : List (Option IoError)

/-- A writer that never fails: `Vec<u8>`. -/
def Sink.vec : Sink := ⟨[], []⟩

/-- `write_all(data)`. -/
def Sink.writeAll (w : Sink) (data : Bytes) : Except IoError Sink :=
  match w.script with
  | [] => .ok ⟨w.written ++ data, []⟩
  | none :: script => .ok ⟨w.written ++ data, script⟩
  | some e :: _ => .error e

theorem Sink.writeAll_vec (data : Bytes) (w : Bytes) :
    Sink.writeAll ⟨w, []⟩ data = .ok ⟨w ++ data, []⟩ := rfl

theorem Sink.written_writeAll {w w' : Sink} {data : Bytes} (h : w.writeAll data = .ok w') :
    w'.written = w.written ++ data := by
  unfold writeAll at h
  split at h <;> cases h <;> rfl

end Ensync
