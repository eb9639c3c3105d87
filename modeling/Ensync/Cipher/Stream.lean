import Ensync.Cipher.Cbc
import Ensync.Io

/-!
# The streaming cryptor and `crypt_stream`

`crypt_stream` reads its source in chunks of 4096 bytes and passes each through one call
of a rust-crypto encryptor or decryptor, the last with the end-of-input flag, writing what
each call outputs. The engine of rust-crypto's block modes, an external crate, is modelled
by what one call does (`encryptPass`, `decryptPass`): before the end it processes every
whole block it holds but the last block's worth, which it keeps back in case it is the
last; at the end it pads, or strips the padding, and processes the rest. A failed call
carries what it output and how many bytes it left unread (`CryptFailure`), which
`crypt_stream` writes, zeros in place of the unread bytes, unless it panics.

* `Composes` — what makes a cryptor stream: a call before the end never fails, and its
  output followed by what the rest of the input gives at the end, failure included, is what
  the whole input gives at the end; `composes_encryptPass` and `composes_decryptPass` prove
  it of the CBC encryptor and decryptor from the chaining identities;
* `readChunk_reliable` — from a reader that never fails, the inner loop reads the next
  4096 bytes however the reader splits them, and reports the end only after all of them;
* `cryptStream_eq_finish` — from a reader that never fails, however it splits its bytes, into
  a writer that never fails, `crypt_stream` writes exactly what the cryptor gives for the
  whole input at once, or panics on its failure when `panic_on_crypt_err` is set;
* `cryptStream_feeds_aligned_chunks` — for any cryptor, it calls the cryptor on the input in
  consecutive 4096-byte chunks, the last shorter and the only one with the end flag, and
  writes what the calls output;
* `cryptStream_runPass` — when every call succeeds, what it writes is the calls' outputs.
-/

namespace Ensync.Cipher

/-- rust-crypto's block-mode paddings. -/
inductive Padding
  | none
  | pkcs

/-- `SymmetricCipherError`. -/
inductive CipherError
  | invalidLength
  | invalidPadding

/-- A failed call of a cryptor, as `crypt_stream` sees it: the error, what the call had put
in the output buffer before failing, and how many of the bytes it was given it left unread
(`srcrbuf.remaining()`). -/
structure CryptFailure where
  err : CipherError
  out : Bytes
  remaining : Nat

/-- What `crypt_stream` writes after a failed call it does not panic on: the call's output,
then a zero for each byte it left unread. -/
def CryptFailure.written (f : CryptFailure) : Bytes := f.out ++ List.replicate f.remaining 0

/-- A rust-crypto CBC encryptor or decryptor: its key, the chaining block (the IV, then the
last ciphertext block), and the input it holds back. -/
structure CbcState where
  key : Bytes
  chain : Bytes
  pending : Bytes

/-- A fresh `cbc_encryptor` or `cbc_decryptor` with this key and IV. -/
def CbcState.new (key iv : Bytes) : CbcState := ⟨key, iv, []⟩

/-- One call of a cryptor on the next input, with the end-of-input flag: its output and its
state after, or its failure. -/
abbrev Pass := CbcState → Bytes → Bool → Except CryptFailure (Bytes × CbcState)

/-- How many of `n` held bytes a call before the end processes: every whole block but the
last block's worth. -/
def processedLen (n : Nat) : Nat := 16 * ((n - 1) / 16)

theorem processedLen_le (n : Nat) : processedLen n ≤ n := by unfold processedLen; omega

theorem processedLen_mod (n : Nat) : processedLen n % 16 = 0 := by unfold processedLen; omega

variable (E : BlockCipher)

/-- `encrypt(input, output, eof)` of `cbc_encryptor(KeySize128, key, iv, padding)`. An engine
that was never given a byte outputs nothing at the end, even with PKCS padding; without
padding, an input that ends off a block boundary fails with `InvalidLength` once the whole
blocks are encrypted, all of it read. -/
def encryptPass (pad : Padding) : Pass := fun st input eof =>
  let data := st.pending ++ input
  if eof then
    if data = [] then .ok ([], st)
    else
      match pad with
      | .pkcs => .ok (cbcEncrypt E st.key st.chain (pkcsPad data), { st with pending := [] })
      | .none =>
        if data.length % 16 = 0 then
          .ok (cbcEncrypt E st.key st.chain data, { st with pending := [] })
        else .error ⟨.invalidLength, cbcEncrypt E st.key st.chain data, 0⟩
  else
    let out := cbcEncrypt E st.key st.chain (data.take (processedLen data.length))
    .ok (out, { st with chain := lastBlock st.chain out,
                        pending := data.drop (processedLen data.length) })

/-- `decrypt(input, output, eof)` of `cbc_decryptor(KeySize128, key, iv, padding)`. At the end
an input off a block boundary fails with `InvalidLength` and bad PKCS padding with
`InvalidPadding`; either way the whole blocks are already decrypted into the output, the
padding not stripped, and all the input is read. -/
def decryptPass (pad : Padding) : Pass := fun st input eof =>
  let data := st.pending ++ input
  if eof then
    if data.length % 16 = 0 then
      match pad with
      | .none => .ok (cbcDecrypt E st.key st.chain data, { st with pending := [] })
      | .pkcs =>
        match pkcsUnpad (cbcDecrypt E st.key st.chain data) with
        | some p => .ok (p, { st with pending := [] })
        | none => .error ⟨.invalidPadding, cbcDecrypt E st.key st.chain data, 0⟩
    else .error ⟨.invalidLength, cbcDecrypt E st.key st.chain data, 0⟩
  else
    let blocks := data.take (processedLen data.length)
    .ok (cbcDecrypt E st.key st.chain blocks,
      { st with chain := lastBlock st.chain blocks,
                pending := data.drop (processedLen data.length) })

/-- What `crypt_stream` makes of a cryptor in state `st` given `rest` as the last of its
input: the bytes it writes (on an error, `CryptFailure.written`), and the error if any. -/
def finish (pass : Pass) (st : CbcState) (rest : Bytes) : Bytes × Option CipherError :=
  match pass st rest true with
  | .ok (out, _) => (out, none)
  | .error f => (f.written, some f.err)

/-- A cryptor that streams, under the state invariant `inv`: a call before the end never
fails and keeps `inv`, and what it outputs followed by what the rest gives at the end is
what its input and the rest give together at the end, error included. -/
def Composes (pass : Pass) (inv : CbcState → Prop) : Prop :=
  ∀ st input, inv st → ∃ out st', pass st input false = .ok (out, st') ∧ inv st' ∧
    ∀ rest, finish pass st (input ++ rest) = Prod.map (out ++ ·) id (finish pass st' rest)

/-- A call before the end splits what the engine holds into the blocks it processes and the
bytes it keeps back. -/
theorem append_processed (data rest : Bytes) :
    data ++ rest = data.take (processedLen data.length) ++
      (data.drop (processedLen data.length) ++ rest) := by
  rw [← List.append_assoc, List.take_append_drop]

theorem length_take_processed (data : Bytes) :
    (data.take (processedLen data.length)).length % 16 = 0 := by
  rw [List.length_take, min_eq_left (processedLen_le _)]
  exact processedLen_mod _

theorem length_drop_processed_mod (data rest : Bytes) :
    (data ++ rest).length % 16 = (data.drop (processedLen data.length) ++ rest).length % 16 := by
  have := processedLen_le data.length
  have := processedLen_mod data.length
  simp only [List.length_append, List.length_drop]
  omega

/-- What a call before the end keeps back, with the rest, is not empty when the whole is
not: it keeps back at least one byte of what it held. -/
theorem drop_processed_append_ne_nil {data rest : Bytes} (h : data ++ rest ≠ []) :
    data.drop (processedLen data.length) ++ rest ≠ [] := by
  have := List.length_pos.mpr h
  apply List.ne_nil_of_length_pos
  simp only [List.length_append, List.length_drop] at this ⊢
  unfold processedLen
  omega

theorem composes_encryptPass (pad : Padding) :
    Composes (encryptPass E pad) fun st => st.chain.length = 16 := by
  intro st input hc
  refine ⟨_, _, rfl, length_lastBlock hc (by rw [length_cbcEncrypt _ hc]; omega),
    fun rest => ?_⟩
  simp only [finish, encryptPass, if_true]
  rw [← List.append_assoc st.pending]
  generalize st.pending ++ input = data
  have hmod := length_take_processed data
  by_cases h0 : data ++ rest = []
  · -- never given a byte: nothing to output before the end or at it
    obtain ⟨rfl, rfl⟩ := List.append_eq_nil.mp h0
    simp [cbcEncrypt_of_lt]
  rw [if_neg h0, if_neg (drop_processed_append_ne_nil h0)]
  cases pad with
  | pkcs =>
    rw [append_processed data rest]
    simp only [pkcsPad_append _ hmod, cbcEncrypt_append _ hc hmod]; rfl
  | none =>
    -- the whole input is block-aligned exactly when what was held back and the rest are
    simp only
    rw [length_drop_processed_mod data rest]
    split_ifs <;>
      simp [append_processed data rest, cbcEncrypt_append _ hc hmod, CryptFailure.written]

theorem composes_decryptPass (pad : Padding) :
    Composes (decryptPass E pad) fun st => st.chain.length = 16 := by
  intro st input hc
  refine ⟨_, _, rfl, length_lastBlock hc (length_take_processed _), fun rest => ?_⟩
  simp only [finish, decryptPass, if_true]
  rw [← List.append_assoc st.pending]
  generalize st.pending ++ input = data
  have hmod := length_take_processed data
  rw [length_drop_processed_mod data rest]
  split_ifs with h
  · rw [append_processed data rest, cbcDecrypt_append _ hmod]
    cases pad with
    | none => rfl
    | pkcs =>
      -- the padding lies in the bytes held back, unless nothing was held or processed
      rcases Nat.lt_or_ge (data.drop (processedLen data.length) ++ rest).length 16 with hs | hs
      · have hd : data.take (processedLen data.length) = [] := by
          have h0 : (data.drop (processedLen data.length) ++ rest).length = 0 := by omega
          simp only [List.length_append, List.length_drop] at h0
          have := processedLen_le data.length
          unfold processedLen at *
          exact List.take_eq_nil_iff.mpr (.inl (by omega))
        simp only [hd, cbcDecrypt_of_lt (List.length_nil ▸ Nat.zero_lt_succ 15), List.nil_append]
        cases pkcsUnpad _ <;> rfl
      · rw [pkcsUnpad_append _ (by rw [length_cbcDecrypt _ (length_lastBlock hc hmod)]; omega)]
        cases pkcsUnpad _ <;> simp [CryptFailure.written]
  · simp [append_processed data rest, cbcDecrypt_append _ hmod, CryptFailure.written]

/-! ## `crypt_stream` -/

/-- What `crypt_stream` stops with: a read or write error, or the panic on a cryptor error
when `panic_on_crypt_err` is set. -/
inductive StreamError
  | io (e : IoError)
  | panic

/-- The inner loop of `crypt_stream`: read into `src_buf[nread..]` until a read returns
`Ok(0)` or the 4096 bytes are filled; the bytes read, and whether the end was reached. A
read error ends it (`try!`). -/
def readChunk (src : Source) (chunk : Bytes) : Except IoError (Bytes × Bool) × Source :=
  if chunk.length < 4096 then
    match h : src.read (4096 - chunk.length) with
    | (.ok [], src') => (.ok (chunk, true), src')
    | (.ok (b :: bs), src') => readChunk src' (chunk ++ b :: bs)
    | (.error e, src') => (.error e, src')
  else (.ok (chunk, false), src)
termination_by src.measure
decreasing_by exact Source.read_measure h (by simp)

section ReadChunk

variable {src src' : Source} {acc : Bytes}

theorem readChunk_eof (hlt : acc.length < 4096)
    (hr : src.read (4096 - acc.length) = (.ok [], src')) :
    readChunk src acc = (.ok (acc, true), src') := by
  rw [readChunk, if_pos hlt]; split <;> simp_all

theorem readChunk_data {b : UInt8} {bs : Bytes} (hlt : acc.length < 4096)
    (hr : src.read (4096 - acc.length) = (.ok (b :: bs), src')) :
    readChunk src acc = readChunk src' (acc ++ b :: bs) := by
  rw [readChunk, if_pos hlt]; split <;> simp_all

theorem readChunk_error {e : IoError} (hlt : acc.length < 4096)
    (hr : src.read (4096 - acc.length) = (.error e, src')) :
    readChunk src acc = (.error e, src') := by
  rw [readChunk, if_pos hlt]; split <;> simp_all

theorem readChunk_full (hge : 4096 ≤ acc.length) :
    readChunk src acc = (.ok (acc, false), src) := by
  rw [readChunk, if_neg (by omega)]

/-- A chunk that does not end the input took at least one read of data. -/
theorem readChunk_measure {chunk : Bytes} (h : readChunk src acc = (.ok (chunk, false), src'))
    (hacc : acc.length < 4096) : src'.measure < src.measure := by
  induction src, acc using readChunk.induct with
  | case1 src acc _ src₁ hr => rw [readChunk_eof hacc hr] at h; simp at h
  | case2 src acc _ b bs src₁ hr ih =>
    have hm := Source.read_measure hr (by simp)
    rw [readChunk_data hacc hr] at h
    by_cases hlt : (acc ++ b :: bs).length < 4096
    · exact (ih h hlt).trans hm
    · rw [readChunk_full (by omega)] at h
      cases h
      exact hm
  | case3 src acc _ e src₁ hr => rw [readChunk_error hacc hr] at h; simp at h
  | case4 src acc hge => exact absurd hacc hge

/-- From a reader that never fails, the inner loop fills the buffer with the next bytes of
the reader however it splits them, and reports the end exactly when they ran out first. -/
theorem readChunk_reliable (hs : src.Reliable) (hacc : acc.length ≤ 4096) :
    ∃ src', src'.Reliable ∧ src'.rest = src.rest.drop (4096 - acc.length) ∧
      readChunk src acc = (.ok (acc ++ src.rest.take (4096 - acc.length),
        decide (src.rest.length < 4096 - acc.length)), src') := by
  induction src, acc using readChunk.induct with
  | case1 src acc hlt src₁ hr =>
    obtain ⟨hrest, -, hend⟩ := Source.read_ok hr
    have hnil : src.rest = [] := (hend rfl).resolve_left (by omega)
    refine ⟨src₁, (Source.read_reliable hs hr).2, by simpa [hnil] using hrest.symm, ?_⟩
    rw [readChunk_eof hlt hr, hnil]
    simp only [List.take_nil, List.append_nil, List.length_nil,
      decide_eq_true (by omega : 0 < 4096 - acc.length)]
  | case2 src acc hlt b bs src₁ hr ih =>
    obtain ⟨hrest, hle, -⟩ := Source.read_ok hr
    have hk : 4096 - (acc ++ b :: bs).length = 4096 - acc.length - (b :: bs).length := by
      simp only [List.length_append]; omega
    obtain ⟨src', hs', hrest', heq⟩ :=
      ih (Source.read_reliable hs hr).2 (by simp only [List.length_append] at hle ⊢; omega)
    refine ⟨src', hs', ?_, ?_⟩
    · rw [hrest', hrest, hk, List.drop_append_eq_append_drop, List.drop_eq_nil_of_le hle,
        List.nil_append]
    · rw [readChunk_data hlt hr, heq, hrest, hk, List.take_append_eq_append_take,
        List.take_of_length_le hle, List.append_assoc]
      simp only [List.length_append, Prod.mk.injEq, Except.ok.injEq, decide_eq_decide, true_and,
        and_true]
      omega
  | case3 src acc hlt e src₁ hr => obtain ⟨⟨_, ⟨⟩⟩, -⟩ := Source.read_reliable hs hr
  | case4 src acc hge =>
    rw [show 4096 - acc.length = 0 by omega, readChunk_full (by omega)]
    exact ⟨src, hs, rfl, by simp⟩

end ReadChunk

/-- One call of the cryptor in `crypt_stream`: its output, or on its failure the panic, or
what `CryptFailure.written` gives. -/
def cryptChunk (pass : Pass) (panicOnErr : Bool) (st : CbcState) (chunk : Bytes) (eof : Bool) :
    Except StreamError (Bytes × CbcState) :=
  match pass st chunk eof with
  | .ok r => .ok r
  | .error f => if panicOnErr then .error .panic else .ok (f.written, st)

/-- `crypt_stream(dst, src, crypt, panic_on_crypt_err)`: chunk by chunk through the cryptor,
each output written to `dst`, until a chunk ends the input. -/
def cryptStream (pass : Pass) (panicOnErr : Bool) (st : CbcState) (dst : Sink) (src : Source) :
    Except StreamError Sink :=
  match h : readChunk src [] with
  | (.error e, _) => .error (.io e)
  | (.ok (chunk, eof), src') =>
    match cryptChunk pass panicOnErr st chunk eof with
    | .error e => .error e
    | .ok (out, st') =>
      match dst.writeAll out with
      | .error e => .error (.io e)
      | .ok dst' => if heof : eof then .ok dst' else cryptStream pass panicOnErr st' dst' src'
termination_by src.measure
decreasing_by exact readChunk_measure (by simpa [heof] using h) (by simp)

theorem cryptStream_of_readChunk {pass : Pass} {panicOnErr : Bool} {st : CbcState} {dst : Sink}
    {src src' : Source} {chunk : Bytes} {eof : Bool}
    (h : readChunk src [] = (.ok (chunk, eof), src')) :
    cryptStream pass panicOnErr st dst src =
      match cryptChunk pass panicOnErr st chunk eof with
      | .error e => .error e
      | .ok (out, st') =>
        match dst.writeAll out with
        | .error e => .error (.io e)
        | .ok dst' => if eof then .ok dst' else cryptStream pass panicOnErr st' dst' src' := by
  rw [cryptStream]
  split <;> simp_all

/-- From a reader that never fails, however it splits its bytes, into a writer that never
fails, `crypt_stream` writes exactly what a streaming cryptor gives for the whole input at
once, unless that fails and `panic_on_crypt_err` is set, when it panics. -/
theorem cryptStream_eq_finish {pass : Pass} {inv : CbcState → Prop} (hp : Composes pass inv)
    (panicOnErr : Bool) {src : Source} (hs : src.Reliable) {st : CbcState} (hi : inv st)
    (w : Bytes) :
    cryptStream pass panicOnErr st ⟨w, []⟩ src =
      if panicOnErr ∧ (finish pass st src.rest).2.isSome then .error .panic
      else .ok ⟨w ++ (finish pass st src.rest).1, []⟩ := by
  generalize hn : src.rest.length = n
  induction n using Nat.strong_induction_on generalizing src st w with
  | _ n ih =>
  obtain ⟨src', hs', hrest', hr⟩ :=
    readChunk_reliable hs (show ([] : Bytes).length ≤ 4096 by simp)
  simp only [List.length_nil, Nat.sub_zero, List.nil_append] at hrest' hr
  rw [cryptStream_of_readChunk hr]
  by_cases heof : src.rest.length < 4096
  · -- the last chunk: the whole rest
    simp only [cryptChunk, finish, List.take_of_length_le heof.le, heof, decide_True]
    rcases pass st src.rest true with f | ⟨out, st'⟩ <;> cases panicOnErr <;>
      simp [Sink.writeAll]
  · -- a full chunk, then the rest of the stream from the state it leaves
    obtain ⟨o₁, st', hpass, hi', hlaw⟩ := hp st (src.rest.take 4096) hi
    have hf : finish pass st src.rest = Prod.map (o₁ ++ ·) id (finish pass st' src'.rest) := by
      rw [← hlaw, hrest', List.take_append_drop]
    have hrec :=
      ih src'.rest.length (by rw [hrest', List.length_drop]; omega) hs' hi' (w ++ o₁) rfl
    simp [cryptChunk, hpass, heof, Sink.writeAll, hrec, hf]

/-- The same when the cryptor succeeds on the whole input. -/
theorem cryptStream_eq {pass : Pass} {inv : CbcState → Prop} (hp : Composes pass inv)
    (panicOnErr : Bool) {src : Source} (hs : src.Reliable) {st : CbcState} (hi : inv st)
    {out : Bytes} (hf : finish pass st src.rest = (out, none)) (w : Bytes) :
    cryptStream pass panicOnErr st ⟨w, []⟩ src = .ok ⟨w ++ out, []⟩ := by
  simp [cryptStream_eq_finish hp panicOnErr hs hi w, hf]

/-! ## The calls `crypt_stream` makes -/

/-- The chunks `crypt_stream` hands the cryptor for the input `S`, each with its end flag:
4096 bytes at a time while at least that many are left, then what is left, possibly nothing,
as the last. -/
def streamChunks (S : Bytes) : List (Bytes × Bool) :=
  if h : S.length < 4096 then [(S, true)] else (S.take 4096, false) :: streamChunks (S.drop 4096)
termination_by S.length
decreasing_by simp only [List.length_drop]; omega

theorem streamChunks_of_lt {S : Bytes} (h : S.length < 4096) : streamChunks S = [(S, true)] := by
  rw [streamChunks, dif_pos h]

theorem streamChunks_of_le {S : Bytes} (h : 4096 ≤ S.length) :
    streamChunks S = (S.take 4096, false) :: streamChunks (S.drop 4096) := by
  rw [streamChunks, dif_neg (by omega)]

/-- The chunks put back together are the input. -/
theorem flatten_streamChunks (S : Bytes) : ((streamChunks S).map Prod.fst).flatten = S := by
  induction S using streamChunks.induct with
  | case1 S h => simp [streamChunks_of_lt h]
  | case2 S h ih => simp [streamChunks_of_le (Nat.le_of_not_lt h), ih]

/-- Every chunk but the last is 4096 bytes long and does not end the input; the last is
shorter and ends it. -/
theorem streamChunks_shape (S : Bytes) : ∃ cs last, streamChunks S = cs ++ [(last, true)] ∧
    (∀ c ∈ cs, c.1.length = 4096 ∧ c.2 = false) ∧ last.length < 4096 := by
  induction S using streamChunks.induct with
  | case1 S h => exact ⟨[], S, streamChunks_of_lt h, by simp, h⟩
  | case2 S h ih =>
    obtain ⟨cs, last, heq, hcs, hlast⟩ := ih
    refine ⟨(S.take 4096, false) :: cs, last, by rw [streamChunks_of_le (by omega), heq]; rfl,
      ?_, hlast⟩
    simp only [List.mem_cons, forall_eq_or_imp, List.length_take, and_true]
    exact ⟨by omega, hcs⟩

/-- The cryptor called on each chunk in turn, each call from the state the one before left:
the concatenation of the outputs, or the first error. -/
def cryptChunks (pass : Pass) (panicOnErr : Bool) :
    CbcState → List (Bytes × Bool) → Except StreamError Bytes
  | _, [] => .ok []
  | st, (chunk, eof) :: cs =>
    match cryptChunk pass panicOnErr st chunk eof with
    | .error e => .error e
    | .ok (out, st') => (cryptChunks pass panicOnErr st' cs).map (out ++ ·)

/-- From a reader that never fails, however it splits its bytes, into a writer that never
fails, `crypt_stream` is the cryptor called on the chunks of `streamChunks`, writing what the
calls output. -/
theorem cryptStream_eq_cryptChunks (pass : Pass) (panicOnErr : Bool) {src : Source}
    (hs : src.Reliable) (st : CbcState) (w : Bytes) :
    cryptStream pass panicOnErr st ⟨w, []⟩ src =
      (cryptChunks pass panicOnErr st (streamChunks src.rest)).map
        fun out => ⟨w ++ out, []⟩ := by
  generalize hn : src.rest.length = n
  induction n using Nat.strong_induction_on generalizing src st w with
  | _ n ih =>
  obtain ⟨src', hs', hrest', hr⟩ :=
    readChunk_reliable hs (show ([] : Bytes).length ≤ 4096 by simp)
  simp only [List.length_nil, Nat.sub_zero, List.nil_append] at hrest' hr
  rw [cryptStream_of_readChunk hr]
  by_cases heof : src.rest.length < 4096
  · rw [streamChunks_of_lt heof, List.take_of_length_le heof.le]
    simp only [cryptChunks, heof, decide_True]
    split <;> simp [Sink.writeAll, Except.map]
  · rw [streamChunks_of_le (by omega)]
    simp only [cryptChunks, heof, decide_False]
    split
    · rfl
    · simp only [Sink.writeAll_vec, Bool.false_eq_true, if_false]
      rw [ih _ (by rw [hrest', List.length_drop]; omega) hs' _ _ rfl, hrest']
      cases cryptChunks pass panicOnErr _ _ <;> simp [Except.map]

/-- `crypt_stream` feeds the cryptor the whole input in aligned chunks: from a reader that
never fails, however it splits its bytes, into a writer that never fails, it calls the
cryptor on consecutive chunks that put together are the input, all 4096 bytes long and
without the end flag but the last, which has it, and writes what the calls output. -/
theorem cryptStream_feeds_aligned_chunks (pass : Pass) (panicOnErr : Bool) (st : CbcState)
    {src : Source} (hs : src.Reliable) (w : Bytes) :
    cryptStream pass panicOnErr st ⟨w, []⟩ src =
      (cryptChunks pass panicOnErr st (streamChunks src.rest)).map
        (fun out => ⟨w ++ out, []⟩) ∧
    ((streamChunks src.rest).map Prod.fst).flatten = src.rest ∧
    ∃ cs last, streamChunks src.rest = cs ++ [(last, true)] ∧
      (∀ c ∈ cs, c.1.length = 4096 ∧ c.2 = false) ∧ last.length < 4096 :=
  ⟨cryptStream_eq_cryptChunks pass panicOnErr hs st w, flatten_streamChunks _,
    streamChunks_shape _⟩

theorem cryptStream_feeds_aligned_chunks_ofBytes :
    (Source.ofBytes [1, 2, 3]).Reliable ∧
    (cryptStream (fun st input _ => .ok (input, st)) false (.new [] []) ⟨[], []⟩
        (.ofBytes [1, 2, 3]) =
      (cryptChunks (fun st input _ => .ok (input, st)) false (.new [] [])
        (streamChunks [1, 2, 3])).map (fun out => ⟨[] ++ out, []⟩) ∧
    ((streamChunks [1, 2, 3]).map Prod.fst).flatten = [1, 2, 3] ∧
    ∃ cs last, streamChunks [1, 2, 3] = cs ++ [(last, true)] ∧
      (∀ c ∈ cs, c.1.length = 4096 ∧ c.2 = false) ∧ last.length < 4096) :=
  ⟨Source.reliable_ofBytes _,
    cryptStream_feeds_aligned_chunks _ false _ (Source.reliable_ofBytes [1, 2, 3]) []⟩

/-! ## When every call succeeds -/

/-- The cryptor called on each chunk in turn, each call from the state the one before left:
the outputs of the calls, or the first failure. -/
def runPass (pass : Pass) : CbcState → List (Bytes × Bool) → Except CryptFailure (List Bytes)
  | _, [] => .ok []
  | st, (chunk, eof) :: cs =>
    match pass st chunk eof with
    | .error f => .error f
    | .ok (out, st') => (runPass pass st' cs).map (out :: ·)

/-- When every call succeeds, `cryptChunks` is the calls' outputs put together. -/
theorem cryptChunks_of_runPass {pass : Pass} (panicOnErr : Bool) {st : CbcState}
    {cs : List (Bytes × Bool)} {outs : List Bytes} (h : runPass pass st cs = .ok outs) :
    cryptChunks pass panicOnErr st cs = .ok outs.flatten := by
  induction cs generalizing st outs with
  | nil => cases h; rfl
  | cons c cs ih =>
    simp only [runPass] at h
    split at h
    · cases h
    · obtain ⟨outs', h', rfl⟩ := map_eq_ok.mp h
      simp [cryptChunks, cryptChunk, *, ih h', Except.map]

/-- When the cryptor succeeds on every chunk `crypt_stream` hands it, from a reader that never
fails, however it splits its bytes, into a writer that never fails, `crypt_stream` succeeds
and writes the outputs of the calls, in order. -/
theorem cryptStream_runPass (pass : Pass) (panicOnErr : Bool) (st : CbcState) {src : Source}
    (hs : src.Reliable) {outs : List Bytes}
    (h : runPass pass st (streamChunks src.rest) = .ok outs) (w : Bytes) :
    cryptStream pass panicOnErr st ⟨w, []⟩ src = .ok ⟨w ++ outs.flatten, []⟩ := by
  rw [cryptStream_eq_cryptChunks pass panicOnErr hs st w, cryptChunks_of_runPass panicOnErr h]
  rfl

theorem cryptStream_runPass_ofBytes :
    (Source.ofBytes [1, 2, 3]).Reliable ∧
    runPass (fun st input _ => .ok (input, st)) (.new [] [])
        (streamChunks (Source.ofBytes [1, 2, 3]).rest) = .ok [[1, 2, 3]] ∧
    cryptStream (fun st input _ => .ok (input, st)) false (.new [] []) ⟨[], []⟩
        (.ofBytes [1, 2, 3]) = .ok ⟨[] ++ [[1, 2, 3]].flatten, []⟩ :=
  have hr : runPass (fun st input _ => .ok (input, st)) (.new [] [])
      (streamChunks (Source.ofBytes [1, 2, 3]).rest) = .ok [[1, 2, 3]] := by
    rw [Source.rest_ofBytes, streamChunks_of_lt (by decide)]; rfl
  ⟨Source.reliable_ofBytes _, hr,
    cryptStream_runPass _ false _ (Source.reliable_ofBytes _) hr []⟩

end Ensync.Cipher
