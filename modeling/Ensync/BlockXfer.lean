import Ensync.Io

/-!
# Block transfer

`block_xfer.rs`: `stream_to_blocks` cuts a byte stream into blocks of at most
`block_size` bytes, hands each block with its HMAC to a sink, and returns the
`BlockList`; `blocks_to_stream` checks the list's total, fetches each block,
streams it to the output and checks its HMAC. The HMAC of `data` under `secret`
is a Keccak context fed `secret` and then `data`, that is `sha3 (secret ++ data)`.

The loops are modelled as the code runs them: `fillBlock` is the inner
`while off < block_size` loop over one reused buffer, `streamLoop` the outer
block loop, `copyBlock` the 4096-byte staging loop of one fetched block and
`fetchBlocks` the loop over the list.

* `fillBlock_ok` — a filled block is the next bytes of the reader written over
  the front of the buffer;
* `streamToBlocks_eq` — from a reader whose only failures are `Interrupted`,
  however it splits its bytes, `stream_to_blocks` makes the calls of
  `blockCalls` to `block_out` and returns the block list of the input's chunks;
  `streamToBlocks_blockListOf` reads off the block list;
* `stream_to_blocks_hands_whole_buffer`, `stream_to_blocks_hands_stale_tail` —
  `block_out` is handed the whole buffer, stale bytes included, so the store
  serves a short block's stale tail and the deblocked stream is not the input;
* `blocksToStream_verifies` — `blocks_to_stream` checks the total before it
  fetches, accepts exactly when every block it reads hashes to its id and no
  I/O error stops it, and then wrote the blocks' bytes in order;
* `blocks_round_trip` — with a store that keeps what it is handed and block HMACs that do
  not collide, deblocking gives the input back exactly when the input is whole blocks,
  and otherwise writes more than the input.
-/

namespace Ensync.BlockXfer

/-- `block_xfer::Error`. -/
inductive Error
  | io (e : IoError)
  | invalidHmac
  deriving DecidableEq

/-- `BlockList`: the total HMAC, the block HMACs in order and the byte count. -/
structure BlockList where
  total : HashId
  blocks : List HashId
  size : Nat
  deriving DecidableEq

/-! ## `stream_to_blocks` -/

/-- What a read of `data` into `block_data[off..]` leaves in the buffer. -/
def overwrite (buf : Bytes) (off : Nat) (data : Bytes) : Bytes :=
  buf.take off ++ data ++ buf.drop (off + data.length)

/-- The block-filling loop: reads into `block_data[off..]` until the block is full or a
read returns `Ok(0)`, retrying `Interrupted`; the fill count and the buffer, or the
fatal error. -/
def fillBlock (blockSize : Nat) (input : Source) (blockData : Bytes) (off : Nat) :
    Except IoError (Nat × Bytes) × Source :=
  if off < blockSize then
    match h : input.read (blockSize - off) with
    | (.ok [], input') => (.ok (off, blockData), input')
    | (.ok (b :: bs), input') =>
      fillBlock blockSize input' (overwrite blockData off (b :: bs)) (off + (b :: bs).length)
    | (.error .interrupted, input') => fillBlock blockSize input' blockData off
    | (.error e, input') => (.error e, input')
  else (.ok (off, blockData), input)
termination_by input.measure
decreasing_by all_goals exact Source.read_measure h (by simp)

section FillBlock

variable {blockSize off : Nat} {input input' : Source} {blockData : Bytes}

theorem fillBlock_eof (hlt : off < blockSize)
    (hr : input.read (blockSize - off) = (.ok [], input')) :
    fillBlock blockSize input blockData off = (.ok (off, blockData), input') := by
  rw [fillBlock, if_pos hlt]; split <;> simp_all

theorem fillBlock_data {b : UInt8} {bs : Bytes} (hlt : off < blockSize)
    (hr : input.read (blockSize - off) = (.ok (b :: bs), input')) :
    fillBlock blockSize input blockData off =
      fillBlock blockSize input' (overwrite blockData off (b :: bs)) (off + (b :: bs).length) := by
  rw [fillBlock, if_pos hlt]; split <;> simp_all

theorem fillBlock_interrupted (hlt : off < blockSize)
    (hr : input.read (blockSize - off) = (.error .interrupted, input')) :
    fillBlock blockSize input blockData off = fillBlock blockSize input' blockData off := by
  rw [fillBlock, if_pos hlt]; split <;> simp_all

theorem fillBlock_error {e : IoError} (hlt : off < blockSize) (he : e ≠ .interrupted)
    (hr : input.read (blockSize - off) = (.error e, input')) :
    fillBlock blockSize input blockData off = (.error e, input') := by
  rw [fillBlock, if_pos hlt]; split <;> simp_all

theorem fillBlock_full (hge : ¬off < blockSize) :
    fillBlock blockSize input blockData off = (.ok (off, blockData), input) := by
  rw [fillBlock, if_neg hge]

end FillBlock

theorem fillBlock_consumes {blockSize off n : Nat} {input input' : Source}
    {blockData blockData' : Bytes}
    (h : fillBlock blockSize input blockData off = (.ok (n, blockData'), input')) :
    ∃ data, input.rest = data ++ input'.rest ∧ n = off + data.length := by
  induction input, blockData, off using fillBlock.induct blockSize
    generalizing n blockData' input' with
  | case1 input blockData off hlt input'' hr =>
    simp only [fillBlock_eof hlt hr, Prod.mk.injEq, Except.ok.injEq] at h
    obtain ⟨⟨rfl, rfl⟩, rfl⟩ := h
    exact ⟨[], (Source.read_ok hr).1, rfl⟩
  | case2 input blockData off hlt b bs input'' hr ih =>
    rw [fillBlock_data hlt hr] at h
    obtain ⟨data, h1, h2⟩ := ih h
    exact ⟨b :: bs ++ data, by rw [(Source.read_ok hr).1, h1, List.append_assoc],
      by simp [h2]; omega⟩
  | case3 input blockData off hlt input'' hr ih =>
    rw [fillBlock_interrupted hlt hr] at h
    obtain ⟨data, h1, h2⟩ := ih h
    exact ⟨data, (Source.read_error hr).1 ▸ h1, h2⟩
  | case4 input blockData off hlt e input'' hne hr =>
    simp [fillBlock_error hlt hne hr] at h
  | case5 input blockData off hge =>
    simp only [fillBlock_full hge, Prod.mk.injEq, Except.ok.injEq] at h
    obtain ⟨⟨rfl, rfl⟩, rfl⟩ := h
    exact ⟨[], rfl, rfl⟩

theorem overwrite_overwrite (buf d₁ d₂ : Bytes) (off : Nat)
    (h : off + d₁.length + d₂.length ≤ buf.length) :
    overwrite (overwrite buf off d₁) (off + d₁.length) d₂ =
      overwrite buf off (d₁ ++ d₂) := by
  have h₁ : (buf.take off).length = off := by simp; omega
  simp only [overwrite, List.take_append_eq_append_take, List.drop_append_eq_append_drop,
    List.length_append, List.take_take, List.drop_drop, h₁]
  simp [List.take_of_length_le, List.drop_eq_nil_of_le, Nat.add_assoc, *]

/-- A block filled from `off` holds the reader's next bytes from `off` on; it is full or the
reader is at its end. -/
theorem fillBlock_ok {blockSize : Nat} {input input' : Source} {blockData blockData' : Bytes}
    {off n : Nat} (hoff : off ≤ blockSize) (hlen : blockData.length = blockSize)
    (h : fillBlock blockSize input blockData off = (.ok (n, blockData'), input')) :
    ∃ data, input.rest = data ++ input'.rest ∧ n = off + data.length ∧ n ≤ blockSize ∧
      blockData' = overwrite blockData off data ∧ (n = blockSize ∨ input'.rest = []) := by
  induction input, blockData, off using fillBlock.induct blockSize
    generalizing n blockData' input' with
  | case1 input blockData off hlt input'' hr =>
    simp only [fillBlock_eof hlt hr, Prod.mk.injEq, Except.ok.injEq] at h
    obtain ⟨⟨rfl, rfl⟩, rfl⟩ := h
    obtain ⟨hrest, -, hend⟩ := Source.read_ok hr
    have hnil : input.rest = [] := (hend rfl).resolve_left (by omega)
    exact ⟨[], by simpa [hnil] using hrest, by simp, hoff, by simp [overwrite],
      .inr (by simp_all)⟩
  | case2 input blockData off hlt b bs input'' hr ih =>
    rw [fillBlock_data hlt hr] at h
    obtain ⟨hrest, hcap, -⟩ := Source.read_ok hr
    have hlen' : (overwrite blockData off (b :: bs)).length = blockSize := by
      simp only [overwrite, List.length_append, List.length_take, List.length_drop]; omega
    obtain ⟨data, h1, h2, h3, h4, h5⟩ := ih (by omega) hlen' h
    refine ⟨b :: bs ++ data, by rw [hrest, h1, List.append_assoc], by simp [h2]; omega, h3,
      ?_, h5⟩
    rw [h4, overwrite_overwrite _ _ _ _ (by omega)]
  | case3 input blockData off hlt input'' hr ih =>
    rw [fillBlock_interrupted hlt hr] at h
    obtain ⟨data, h1, h2⟩ := ih hoff hlen h
    exact ⟨data, (Source.read_error hr).1 ▸ h1, h2⟩
  | case4 input blockData off hlt e input'' hne hr =>
    simp [fillBlock_error hlt hne hr] at h
  | case5 input blockData off hge =>
    simp only [fillBlock_full hge, Prod.mk.injEq, Except.ok.injEq] at h
    obtain ⟨⟨rfl, rfl⟩, rfl⟩ := h
    exact ⟨[], by simp, by simp, hoff, by simp [overwrite], .inl (by omega)⟩

theorem length_overwrite {buf data : Bytes} {off : Nat} (h : off + data.length ≤ buf.length) :
    (overwrite buf off data).length = buf.length := by
  simp only [overwrite, List.length_append, List.length_take, List.length_drop]; omega

theorem take_overwrite_zero (buf data : Bytes) :
    (overwrite buf 0 data).take data.length = data := by
  simp [overwrite]

/-- From a reader that fails only with `Interrupted`, the block loop ends without error, and
the reader still fails only with `Interrupted`. -/
theorem fillBlock_succeeds {blockSize off : Nat} {input : Source} {blockData : Bytes}
    (hs : input.OnlyInterrupted) :
    ∃ n blockData' input',
      fillBlock blockSize input blockData off = (.ok (n, blockData'), input') ∧
      input'.OnlyInterrupted := by
  induction input, blockData, off using fillBlock.induct blockSize with
  | case1 input blockData off hlt input' hr =>
    exact ⟨_, _, _, fillBlock_eof hlt hr, (Source.read_onlyInterrupted hs hr).2⟩
  | case2 input blockData off hlt b bs input' hr ih =>
    rw [fillBlock_data hlt hr]; exact ih (Source.read_onlyInterrupted hs hr).2
  | case3 input blockData off hlt input' hr ih =>
    rw [fillBlock_interrupted hlt hr]; exact ih (Source.read_onlyInterrupted hs hr).2
  | case4 input blockData off hlt e input' hne hr =>
    rcases (Source.read_onlyInterrupted hs hr).1 with h | ⟨_, h⟩ <;> cases h
    exact absurd rfl hne
  | case5 input blockData off hge => exact ⟨_, _, _, fillBlock_full hge, hs⟩

/-- From a reader that fails only with `Interrupted`, however it splits its bytes, a block
filled from `off` is the reader's next `blockSize - off` bytes, or all it has left, written
over the buffer from `off` on. -/
theorem fillBlock_onlyInterrupted {blockSize off : Nat} {input : Source} {blockData : Bytes}
    (hs : input.OnlyInterrupted) (hoff : off ≤ blockSize) (hlen : blockData.length = blockSize) :
    ∃ input', input'.OnlyInterrupted ∧ input'.rest = input.rest.drop (blockSize - off) ∧
      fillBlock blockSize input blockData off =
        (.ok (off + (input.rest.take (blockSize - off)).length,
          overwrite blockData off (input.rest.take (blockSize - off))), input') := by
  obtain ⟨n, blockData', input', hf, hs'⟩ :=
    @fillBlock_succeeds blockSize off input blockData hs
  obtain ⟨data, h1, rfl, h3, rfl, h5⟩ := fillBlock_ok hoff hlen hf
  have key : data = input.rest.take (blockSize - off) ∧
      input'.rest = input.rest.drop (blockSize - off) := by
    rcases h5 with h5 | h5
    · rw [h1, List.take_left' (by omega), List.drop_left' (by omega)]; exact ⟨rfl, rfl⟩
    · rw [h1, h5, List.append_nil, List.take_of_length_le (by omega),
        List.drop_eq_nil_of_le (by omega)]
      exact ⟨rfl, rfl⟩
  obtain ⟨rfl, h⟩ := key
  exact ⟨input', hs', h, hf⟩

/-- The variables of `stream_to_blocks` between two passes of its block loop: `totalKc` is what
`total_kc` has been fed, `sink` the state of the `block_out` closure. -/
structure StreamState (σ : Type) where
  input : Source
  blockData : Bytes
  blocks : List HashId
  size : Nat
  totalKc : Bytes
  sink : σ

variable {σ : Type}

/-- The block loop of `stream_to_blocks`: fill the buffer, stop on an empty block, else hash
`block_data[0..off]`, hand the hash and `block_data` to `block_out` and record the block. -/
def streamLoop (sha3 : Bytes → HashId) (blockOut : σ → HashId → Bytes → Except IoError σ)
    (blockSize : Nat) (secret : Bytes) (st : StreamState σ) : Except IoError (StreamState σ) :=
  match h : fillBlock blockSize st.input st.blockData 0 with
  | (.error e, _) => .error e
  | (.ok (0, blockData), input) => .ok { st with input, blockData }
  | (.ok (off + 1, blockData), input) =>
    let hash := sha3 (secret ++ blockData.take (off + 1))
    match blockOut st.sink hash blockData with
    | .error e => .error e
    | .ok sink => streamLoop sha3 blockOut blockSize secret
        ⟨input, blockData, st.blocks ++ [hash], st.size + (off + 1), st.totalKc ++ hash.bytes,
          sink⟩
termination_by st.input.rest.length
decreasing_by
  obtain ⟨data, h1, h2⟩ := fillBlock_consumes h
  simp only [h1, List.length_append]; omega

section StreamLoop

variable {sha3 : Bytes → HashId} {blockOut : σ → HashId → Bytes → Except IoError σ}
  {blockSize : Nat} {secret : Bytes} {st : StreamState σ} {input : Source} {blockData : Bytes}

theorem streamLoop_eof
    (h : fillBlock blockSize st.input st.blockData 0 = (.ok (0, blockData), input)) :
    streamLoop sha3 blockOut blockSize secret st = .ok { st with input, blockData } := by
  rw [streamLoop]; split <;> simp_all

theorem streamLoop_block {off : Nat} {sink : σ}
    (h : fillBlock blockSize st.input st.blockData 0 = (.ok (off + 1, blockData), input))
    (hout : blockOut st.sink (sha3 (secret ++ blockData.take (off + 1))) blockData = .ok sink) :
    streamLoop sha3 blockOut blockSize secret st =
      streamLoop sha3 blockOut blockSize secret
        ⟨input, blockData, st.blocks ++ [sha3 (secret ++ blockData.take (off + 1))],
          st.size + (off + 1), st.totalKc ++ (sha3 (secret ++ blockData.take (off + 1))).bytes,
          sink⟩ := by
  rw [streamLoop]; split <;> simp_all

theorem streamLoop_out_error {off : Nat} {e : IoError}
    (h : fillBlock blockSize st.input st.blockData 0 = (.ok (off + 1, blockData), input))
    (hout : blockOut st.sink (sha3 (secret ++ blockData.take (off + 1))) blockData = .error e) :
    streamLoop sha3 blockOut blockSize secret st = .error e := by
  rw [streamLoop]; split <;> simp_all

end StreamLoop

/-- `stream_to_blocks(input, block_out, block_size, secret)`, with the final state of the
`block_out` closure. -/
def streamToBlocks (sha3 : Bytes → HashId)
    (blockOut : σ → HashId → Bytes → Except IoError σ) (sink : σ) (input : Source)
    (blockSize : Nat) (secret : Bytes) :
    Except IoError (BlockList × σ) :=
  (streamLoop sha3 blockOut blockSize secret
      ⟨input, List.replicate blockSize 0, [], 0, secret, sink⟩).map
    fun st => (⟨sha3 st.totalKc, st.blocks, st.size⟩, st.sink)

/-! ## What `stream_to_blocks` computes -/

/-- `S` cut into consecutive chunks of `blockSize` bytes, the last possibly shorter, none
empty. -/
def chunksOf (blockSize : Nat) (S : Bytes) : List Bytes :=
  if h : 0 < blockSize ∧ S ≠ [] then S.take blockSize :: chunksOf blockSize (S.drop blockSize)
  else []
termination_by S.length
decreasing_by simp only [List.length_drop]; have := List.length_pos.mpr h.2; omega

section ChunksOf

variable {blockSize : Nat} {S : Bytes}

@[simp] theorem chunksOf_nil : chunksOf blockSize [] = [] := by
  rw [chunksOf, dif_neg (by simp)]

theorem chunksOf_of_ne_nil (hB : 0 < blockSize) (hS : S ≠ []) :
    chunksOf blockSize S = S.take blockSize :: chunksOf blockSize (S.drop blockSize) := by
  rw [chunksOf, dif_pos ⟨hB, hS⟩]

theorem flatten_chunksOf (hB : 0 < blockSize) : (chunksOf blockSize S).flatten = S := by
  induction S using chunksOf.induct blockSize with
  | case1 S h ih => simp [chunksOf_of_ne_nil h.1 h.2, ih]
  | case2 S h =>
    obtain rfl : S = [] := by simpa [hB] using h
    simp

theorem chunksOf_eq_nil (hB : 0 < blockSize) : chunksOf blockSize S = [] ↔ S = [] := by
  rcases eq_or_ne S [] with rfl | hS
  · simp
  · simp [chunksOf_of_ne_nil hB hS, hS]

/-- Every chunk is non-empty and at most a block long; every chunk but the last is a whole
block. -/
theorem chunksOf_lengths (hB : 0 < blockSize) :
    (∀ c ∈ chunksOf blockSize S, c ≠ [] ∧ c.length ≤ blockSize) ∧
    ∀ c ∈ (chunksOf blockSize S).dropLast, c.length = blockSize := by
  induction S using chunksOf.induct blockSize with
  | case1 S h ih =>
    rw [chunksOf_of_ne_nil hB h.2]
    refine ⟨?_, ?_⟩
    · simp only [List.mem_cons, forall_eq_or_imp, ne_eq, List.take_eq_nil_iff, not_or,
        List.length_take]
      exact ⟨⟨⟨by omega, h.2⟩, by omega⟩, ih.1⟩
    · rcases eq_or_ne (S.drop blockSize) [] with hd | hd
      · simp [hd]
      · have hlong : blockSize < S.length := by
          have := List.length_pos.mpr hd
          simp only [List.length_drop] at this; omega
        rw [List.dropLast_cons_of_ne_nil (by rwa [Ne, chunksOf_eq_nil hB])]
        simp only [List.mem_cons, forall_eq_or_imp, List.length_take]
        exact ⟨by omega, ih.2⟩
  | case2 S h =>
    obtain rfl : S = [] := by simpa [hB] using h
    simp

/-- When the block size divides the input's length, every chunk is a whole block. -/
theorem chunksOf_full (hB : 0 < blockSize) (hdvd : blockSize ∣ S.length) :
    ∀ c ∈ chunksOf blockSize S, c.length = blockSize := by
  induction S using chunksOf.induct blockSize with
  | case1 S h ih =>
    have hle : blockSize ≤ S.length := Nat.le_of_dvd (List.length_pos.mpr h.2) hdvd
    rw [chunksOf_of_ne_nil hB h.2]
    simp only [List.mem_cons, forall_eq_or_imp, List.length_take]
    exact ⟨by omega, ih (by rw [List.length_drop]; exact Nat.dvd_sub' hdvd (Nat.dvd_refl _))⟩
  | case2 S h =>
    obtain rfl : S = [] := by simpa [hB] using h
    simp

/-- When it does not, the chunks are whole blocks followed by one shorter chunk. -/
theorem chunksOf_short_last (hB : 0 < blockSize) (hdvd : ¬blockSize ∣ S.length) :
    ∃ init last, chunksOf blockSize S = init ++ [last] ∧
      (∀ c ∈ init, c.length = blockSize) ∧ last.length < blockSize := by
  induction S using chunksOf.induct blockSize with
  | case1 S h ih =>
    rw [chunksOf_of_ne_nil hB h.2]
    by_cases hlt : S.length < blockSize
    · refine ⟨[], S, ?_, by simp, hlt⟩
      rw [List.take_of_length_le hlt.le, List.drop_eq_nil_of_le hlt.le, chunksOf_nil]; rfl
    · obtain ⟨init, last, heq, hinit, hlast⟩ := ih fun hd => hdvd <| by
        have := Nat.dvd_add hd (Nat.dvd_refl blockSize)
        rwa [List.length_drop, Nat.sub_add_cancel (by omega)] at this
      refine ⟨S.take blockSize :: init, last, by rw [heq]; rfl, ?_, hlast⟩
      simp only [List.mem_cons, forall_eq_or_imp, List.length_take]
      exact ⟨by omega, hinit⟩
  | case2 S h =>
    obtain rfl : S = [] := by simpa [hB] using h
    simp at hdvd

/-- Whole blocks put together are as long as the blocks. -/
theorem length_flatten_full {cs : List Bytes} (h : ∀ c ∈ cs, c.length = blockSize) :
    cs.flatten.length = cs.length * blockSize := by
  induction cs with
  | nil => simp
  | cons c cs ih =>
    simp only [List.flatten_cons, List.length_append, List.length_cons, Nat.succ_mul,
      h c (List.mem_cons_self _ _), ih fun c' hc' => h c' (List.mem_cons_of_mem _ hc')]
    omega

end ChunksOf

/-- The calls to `block_out` for the chunks `cs`, one buffer reused from `buf` on: each
chunk's HMAC, and the buffer once the chunk is read over its front. -/
def blockCalls (sha3 : Bytes → HashId) (secret buf : Bytes) :
    List Bytes → List (HashId × Bytes)
  | [] => []
  | c :: cs =>
    (sha3 (secret ++ c), overwrite buf 0 c) :: blockCalls sha3 secret (overwrite buf 0 c) cs

/-- `block_out` called on each of `calls` in turn, from the closure state `sink`. -/
def feedSink (blockOut : σ → HashId → Bytes → Except IoError σ) :
    σ → List (HashId × Bytes) → Except IoError σ
  | sink, [] => .ok sink
  | sink, (hash, data) :: calls =>
    match blockOut sink hash data with
    | .error e => .error e
    | .ok sink' => feedSink blockOut sink' calls

/-- A `block_out` that never fails takes every call. -/
theorem feedSink_ok {blockOut : σ → HashId → Bytes → Except IoError σ}
    (hout : ∀ s hash data, ∃ s', blockOut s hash data = .ok s') (sink : σ)
    (calls : List (HashId × Bytes)) : ∃ sink', feedSink blockOut sink calls = .ok sink' := by
  induction calls generalizing sink with
  | nil => exact ⟨sink, rfl⟩
  | cons call calls ih =>
    obtain ⟨s', hs'⟩ := hout sink call.1 call.2
    simp only [feedSink, hs']
    exact ih s'

/-- A chunk as long as the buffer replaces it whole. -/
theorem overwrite_zero_of_length {buf c : Bytes} (h : c.length = buf.length) :
    overwrite buf 0 c = c := by
  simp [overwrite, h]

/-- Whole blocks are handed to `block_out` as they are. -/
theorem blockCalls_of_full {sha3 : Bytes → HashId} {secret buf : Bytes} {cs : List Bytes}
    (h : ∀ c ∈ cs, c.length = buf.length) :
    blockCalls sha3 secret buf cs = cs.map fun c => (sha3 (secret ++ c), c) := by
  induction cs generalizing buf with
  | nil => rfl
  | cons c cs ih =>
    have hc := h c (List.mem_cons_self _ _)
    rw [blockCalls, overwrite_zero_of_length hc,
      ih fun c' hc' => (h c' (List.mem_cons_of_mem _ hc')).trans hc.symm]
    rfl

/-- Whole blocks then one more chunk: the last is handed over the front of a buffer as long as
the first. -/
theorem blockCalls_full_append {sha3 : Bytes → HashId} {secret buf : Bytes} {cs : List Bytes}
    (c : Bytes) (h : ∀ c ∈ cs, c.length = buf.length) :
    ∃ buf', buf'.length = buf.length ∧ blockCalls sha3 secret buf (cs ++ [c]) =
      cs.map (fun c => (sha3 (secret ++ c), c)) ++ [(sha3 (secret ++ c), overwrite buf' 0 c)] := by
  induction cs generalizing buf with
  | nil => exact ⟨buf, rfl, rfl⟩
  | cons c₀ cs ih =>
    have hc := h c₀ (List.mem_cons_self _ _)
    obtain ⟨buf', hlen, heq⟩ :=
      @ih c₀ fun c' hc' => (h c' (List.mem_cons_of_mem _ hc')).trans hc.symm
    refine ⟨buf', hlen.trans hc, ?_⟩
    rw [List.cons_append, blockCalls, overwrite_zero_of_length hc, heq]
    rfl

/-- The block list of `S`: each chunk's HMAC, the HMAC of their concatenation, and the byte
count. -/
def blockListOf (sha3 : Bytes → HashId) (blockSize : Nat) (secret S : Bytes) : BlockList :=
  let blocks := (chunksOf blockSize S).map fun c => sha3 (secret ++ c)
  ⟨sha3 (secret ++ (blocks.map HashId.bytes).flatten), blocks, S.length⟩

/-- From a reader that fails only with `Interrupted`, however it splits its bytes, the block
loop hands `block_out` the calls of `blockCalls` for the chunks of what the reader holds,
and records their HMACs and byte count. -/
theorem streamLoop_eq {sha3 : Bytes → HashId}
    {blockOut : σ → HashId → Bytes → Except IoError σ}
    {blockSize : Nat} (secret : Bytes) (hB : 0 < blockSize) (st : StreamState σ)
    (hs : st.input.OnlyInterrupted) (hlen : st.blockData.length = blockSize) :
    ∃ input blockData, streamLoop sha3 blockOut blockSize secret st =
      (feedSink blockOut st.sink
        (blockCalls sha3 secret st.blockData (chunksOf blockSize st.input.rest))).map fun sink =>
        ⟨input, blockData,
          st.blocks ++ (chunksOf blockSize st.input.rest).map (fun c => sha3 (secret ++ c)),
          st.size + st.input.rest.length,
          st.totalKc ++ (((chunksOf blockSize st.input.rest).map
            fun c => sha3 (secret ++ c)).map HashId.bytes).flatten, sink⟩ := by
  generalize hn : st.input.rest.length = n
  induction n using Nat.strong_induction_on generalizing st with
  | _ n ih =>
  subst hn
  obtain ⟨input, hs', hrest', hf⟩ := fillBlock_onlyInterrupted hs (Nat.zero_le blockSize) hlen
  simp only [Nat.sub_zero, Nat.zero_add] at hrest' hf
  rcases eq_or_ne st.input.rest [] with hS | hS
  · -- the reader is at its end: the loop stops
    rw [hS, List.take_nil, List.length_nil] at hf
    refine ⟨input, overwrite st.blockData 0 [], ?_⟩
    rw [streamLoop_eof hf, hS]
    simp [blockCalls, feedSink, Except.map]
  · -- a block: hand it to `block_out`, then the loop from what is left
    have hpos := List.length_pos.mpr hS
    set c := st.input.rest.take blockSize with hc
    have hlenc : c.length = c.length - 1 + 1 := by
      have : 0 < c.length := by rw [hc, List.length_take]; omega
      omega
    rw [hlenc] at hf
    have htake : (overwrite st.blockData 0 c).take (c.length - 1 + 1) = c := by
      rw [← hlenc, take_overwrite_zero]
    rw [chunksOf_of_ne_nil hB hS, ← hc]
    cases hout : blockOut st.sink (sha3 (secret ++ c)) (overwrite st.blockData 0 c) with
    | error e =>
      refine ⟨input, st.blockData, ?_⟩
      rw [streamLoop_out_error hf (by rw [htake]; exact hout)]
      simp [blockCalls, feedSink, hout, Except.map]
    | ok sink =>
      have hlen' : (overwrite st.blockData 0 c).length = blockSize := by
        rw [length_overwrite (by rw [hc, List.length_take, hlen]; omega)]; exact hlen
      obtain ⟨input', blockData', heq⟩ := ih input.rest.length
        (by rw [hrest', List.length_drop]; omega)
        ⟨input, overwrite st.blockData 0 c, st.blocks ++ [sha3 (secret ++ c)],
          st.size + (c.length - 1 + 1), st.totalKc ++ (sha3 (secret ++ c)).bytes, sink⟩
        hs' hlen' rfl
      refine ⟨input', blockData', ?_⟩
      rw [streamLoop_block hf (by rw [htake]; exact hout), htake, heq]
      simp only [htake, hrest', blockCalls, feedSink, hout, List.map_cons, List.flatten_cons,
        List.append_assoc, List.singleton_append]
      have hsize : st.size + (c.length - 1 + 1) + (st.input.rest.drop blockSize).length =
          st.size + st.input.rest.length := by
        simp only [hc, List.length_take, List.length_drop]; omega
      rw [hsize]

/-- From a reader that fails only with `Interrupted`, however it splits its bytes,
`stream_to_blocks` hands `block_out` the calls of `blockCalls` for the chunks of the input,
starting from a zeroed buffer, and returns the input's block list. -/
theorem streamToBlocks_eq {sha3 : Bytes → HashId}
    {blockOut : σ → HashId → Bytes → Except IoError σ} (sink : σ) {input : Source}
    {blockSize : Nat} (secret : Bytes) (hB : 0 < blockSize) (hs : input.OnlyInterrupted) :
    streamToBlocks sha3 blockOut sink input blockSize secret =
      (feedSink blockOut sink (blockCalls sha3 secret (List.replicate blockSize 0)
        (chunksOf blockSize input.rest))).map
        fun sink' => (blockListOf sha3 blockSize secret input.rest, sink') := by
  obtain ⟨_, _, h⟩ := streamLoop_eq secret hB
    ⟨input, List.replicate blockSize 0, [], 0, secret, sink⟩ hs (List.length_replicate _ _)
  rw [streamToBlocks, h]
  cases feedSink blockOut sink _ <;> simp [Except.map, blockListOf]

/-- `stream_to_blocks` computes the block list of the bytes alone: from a reader that fails
only with `Interrupted`, however it splits its bytes, into a `block_out` that never fails, it
returns the HMACs of the chunks of the input, the HMAC of their concatenation and the byte
count, whatever the read pattern; the chunks are whole blocks but the last, which is shorter
or whole and never empty, and there are none only for an empty input. -/
theorem streamToBlocks_blockListOf {sha3 : Bytes → HashId}
    {blockOut : σ → HashId → Bytes → Except IoError σ} (sink : σ) {input : Source}
    {blockSize : Nat} (secret : Bytes) (hB : 0 < blockSize) (hs : input.OnlyInterrupted)
    (hout : ∀ s hash data, ∃ s', blockOut s hash data = .ok s') :
    (∃ sink', streamToBlocks sha3 blockOut sink input blockSize secret =
      .ok (blockListOf sha3 blockSize secret input.rest, sink')) ∧
    (chunksOf blockSize input.rest).flatten = input.rest ∧
    (∀ c ∈ chunksOf blockSize input.rest, c ≠ [] ∧ c.length ≤ blockSize) ∧
    (∀ c ∈ (chunksOf blockSize input.rest).dropLast, c.length = blockSize) ∧
    (chunksOf blockSize input.rest = [] ↔ input.rest = []) := by
  obtain ⟨sink', h⟩ := feedSink_ok hout sink
    (blockCalls sha3 secret (List.replicate blockSize 0) (chunksOf blockSize input.rest))
  exact ⟨⟨sink', by rw [streamToBlocks_eq sink secret hB hs, h]; rfl⟩, flatten_chunksOf hB,
    (chunksOf_lengths hB).1, (chunksOf_lengths hB).2, chunksOf_eq_nil hB⟩

theorem streamToBlocks_blockListOf_counting :
    0 < 2 ∧ Source.OnlyInterrupted ⟨[1, 2, 3], [.err .interrupted, .ok 0]⟩ ∧
    (∀ (s : Nat) (hash : HashId) (data : Bytes),
      ∃ s', (fun n _ _ => .ok (n + 1) : Nat → HashId → Bytes → Except IoError Nat)
        s hash data =
        .ok s') ∧
    (∃ sink', streamToBlocks Primitives.plain.sha3
        (fun n _ _ => .ok (n + 1) : Nat → HashId → Bytes → Except IoError Nat) 0
        ⟨[1, 2, 3], [.err .interrupted, .ok 0]⟩ 2 [] =
      .ok (blockListOf Primitives.plain.sha3 2 [] [1, 2, 3], sink')) ∧
    (chunksOf 2 [1, 2, 3]).flatten = [1, 2, 3] ∧
    (∀ c ∈ chunksOf 2 [1, 2, 3], c ≠ [] ∧ c.length ≤ 2) ∧
    (∀ c ∈ (chunksOf 2 [1, 2, 3]).dropLast, c.length = 2) ∧
    (chunksOf 2 [1, 2, 3] = [] ↔ [1, 2, 3] = ([] : Bytes)) := by
  have hs : Source.OnlyInterrupted ⟨[1, 2, 3], [.err .interrupted, .ok 0]⟩ := by
    simp [Source.OnlyInterrupted]
  exact ⟨by decide, hs, fun s _ _ => ⟨s + 1, rfl⟩,
    streamToBlocks_blockListOf 0 [] (by decide) hs fun s _ _ => ⟨s + 1, rfl⟩⟩

/-! ## `blocks_to_stream` -/

/-- The staging loop of one fetched block: read through the 4096-byte buffer, feed `kc`,
write each piece to the output; `Interrupted` is retried. -/
def copyBlock (reader : Source) (kc : Bytes) (output : Sink) : Except Error Bytes × Sink :=
  match h : reader.read 4096 with
  | (.ok [], _) => (.ok kc, output)
  | (.ok (b :: bs), reader') =>
    match output.writeAll (b :: bs) with
    | .ok output' => copyBlock reader' (kc ++ b :: bs) output'
    | .error e => (.error (.io e), output)
  | (.error .interrupted, reader') => copyBlock reader' kc output
  | (.error e, _) => (.error (.io e), output)
termination_by reader.measure
decreasing_by all_goals exact Source.read_measure h (by simp)

section CopyBlock

variable {reader reader' : Source} {kc : Bytes} {output : Sink}

theorem copyBlock_eof (hr : reader.read 4096 = (.ok [], reader')) :
    copyBlock reader kc output = (.ok kc, output) := by
  rw [copyBlock]; split <;> simp_all

theorem copyBlock_data {b : UInt8} {bs : Bytes} {output' : Sink}
    (hr : reader.read 4096 = (.ok (b :: bs), reader'))
    (hw : output.writeAll (b :: bs) = .ok output') :
    copyBlock reader kc output = copyBlock reader' (kc ++ b :: bs) output' := by
  rw [copyBlock]; split <;> simp_all

theorem copyBlock_interrupted (hr : reader.read 4096 = (.error .interrupted, reader')) :
    copyBlock reader kc output = copyBlock reader' kc output := by
  rw [copyBlock]; split <;> simp_all

theorem copyBlock_writeError {b : UInt8} {bs : Bytes} {e : IoError}
    (hr : reader.read 4096 = (.ok (b :: bs), reader')) (hw : output.writeAll (b :: bs) = .error e) :
    copyBlock reader kc output = (.error (.io e), output) := by
  rw [copyBlock]; split <;> simp_all

theorem copyBlock_readError {e : IoError} (he : e ≠ .interrupted)
    (hr : reader.read 4096 = (.error e, reader')) :
    copyBlock reader kc output = (.error (.io e), output) := by
  rw [copyBlock]; split <;> simp_all

end CopyBlock

/-- The bytes of a fetched block as the staging loop reads them, through a 4096-byte buffer
retrying `Interrupted`, up to the first `Ok(0)`; or the read error that ends it. -/
def readAll (reader : Source) : Except IoError Bytes :=
  match h : reader.read 4096 with
  | (.ok [], _) => .ok []
  | (.ok (b :: bs), reader') => (readAll reader').map (b :: bs ++ ·)
  | (.error .interrupted, reader') => readAll reader'
  | (.error e, _) => .error e
termination_by reader.measure
decreasing_by all_goals exact Source.read_measure h (by simp)

section ReadAll

variable {reader reader' : Source}

theorem readAll_eof (hr : reader.read 4096 = (.ok [], reader')) : readAll reader = .ok [] := by
  rw [readAll]; split <;> simp_all

theorem readAll_data {b : UInt8} {bs : Bytes} (hr : reader.read 4096 = (.ok (b :: bs), reader')) :
    readAll reader = (readAll reader').map (b :: bs ++ ·) := by
  rw [readAll]; split <;> simp_all

theorem readAll_interrupted (hr : reader.read 4096 = (.error .interrupted, reader')) :
    readAll reader = readAll reader' := by
  rw [readAll]; split <;> simp_all

theorem readAll_error {e : IoError} (he : e ≠ .interrupted)
    (hr : reader.read 4096 = (.error e, reader')) : readAll reader = .error e := by
  rw [readAll]; split <;> simp_all

/-- From a reader that fails only with `Interrupted`, however it splits its bytes, the bytes
read are all it holds. -/
theorem readAll_onlyInterrupted (hs : reader.OnlyInterrupted) :
    readAll reader = .ok reader.rest := by
  induction reader using readAll.induct with
  | case1 reader reader' hr =>
    obtain ⟨hrest, -, hend⟩ := Source.read_ok hr
    rw [readAll_eof hr, (hend rfl).resolve_left (by omega)]
  | case2 reader b bs reader' hr ih =>
    rw [readAll_data hr, ih (Source.read_onlyInterrupted hs hr).2, (Source.read_ok hr).1]; rfl
  | case3 reader reader' hr ih =>
    rw [readAll_interrupted hr, ih (Source.read_onlyInterrupted hs hr).2, (Source.read_error hr).1]
  | case4 reader e reader' hne hr =>
    rcases (Source.read_onlyInterrupted hs hr).1 with h | ⟨_, h⟩ <;> cases h
    exact absurd rfl hne

end ReadAll

section CopyBlockSpec

variable {reader : Source} {kc : Bytes} {output : Sink}

/-- When the staging loop succeeds, it fed `kc` and wrote the block's bytes as `readAll`
reads them. -/
theorem copyBlock_ok {kc' : Bytes} {output' : Sink}
    (h : copyBlock reader kc output = (.ok kc', output')) :
    ∃ data, readAll reader = .ok data ∧ kc' = kc ++ data ∧
      output'.written = output.written ++ data := by
  induction reader, kc, output using copyBlock.induct generalizing kc' output' with
  | case1 reader kc output reader' hr =>
    simp only [copyBlock_eof hr, Prod.mk.injEq, Except.ok.injEq] at h
    obtain ⟨rfl, rfl⟩ := h
    exact ⟨[], readAll_eof hr, by simp, by simp⟩
  | case2 reader kc output b bs reader' hr output'' hw ih =>
    rw [copyBlock_data hr hw] at h
    obtain ⟨data, h1, rfl, h3⟩ := ih h
    refine ⟨b :: bs ++ data, by rw [readAll_data hr, h1]; rfl, by simp, ?_⟩
    rw [h3, Sink.written_writeAll hw, List.append_assoc]
  | case3 reader kc output b bs reader' hr e hw => simp [copyBlock_writeError hr hw] at h
  | case4 reader kc output reader' hr ih =>
    rw [copyBlock_interrupted hr] at h
    obtain ⟨data, h1, h2, h3⟩ := ih h
    exact ⟨data, by rw [readAll_interrupted hr, h1], h2, h3⟩
  | case5 reader kc output e reader' hne hr => simp [copyBlock_readError hne hr] at h

/-- The staging loop fails only with I/O errors. -/
theorem copyBlock_error {e : Error} {output' : Sink}
    (h : copyBlock reader kc output = (.error e, output')) : ∃ e', e = .io e' := by
  induction reader, kc, output using copyBlock.induct generalizing output' with
  | case1 reader kc output reader' hr => simp [copyBlock_eof hr] at h
  | case2 reader kc output b bs reader' hr output'' hw ih =>
    exact ih (by rwa [copyBlock_data hr hw] at h)
  | case3 reader kc output b bs reader' hr e hw =>
    simp only [copyBlock_writeError hr hw, Prod.mk.injEq, Except.error.injEq] at h
    exact ⟨_, h.1.symm⟩
  | case4 reader kc output reader' hr ih => exact ih (by rwa [copyBlock_interrupted hr] at h)
  | case5 reader kc output e reader' hne hr =>
    simp only [copyBlock_readError hne hr, Prod.mk.injEq, Except.error.injEq] at h
    exact ⟨_, h.1.symm⟩

/-- From a reader that fails only with `Interrupted`, into a writer that never fails, the
staging loop copies all the reader's bytes. -/
theorem copyBlock_onlyInterrupted (hs : reader.OnlyInterrupted) (hw : output.script = []) :
    copyBlock reader kc output =
      (.ok (kc ++ reader.rest), ⟨output.written ++ reader.rest, []⟩) := by
  have hvec : ∀ {w : Sink} (d : Bytes), w.script = [] →
      w.writeAll d = .ok ⟨w.written ++ d, []⟩ :=
    fun d h => by simp only [Sink.writeAll, h]
  induction reader, kc, output using copyBlock.induct with
  | case1 reader kc output reader' hr =>
    have hnil := ((Source.read_ok hr).2.2 rfl).resolve_left (by decide)
    obtain ⟨written, script⟩ := output
    simp_all [copyBlock_eof hr]
  | case2 reader kc output b bs reader' hr output'' hwr ih =>
    obtain rfl : output'' = ⟨output.written ++ b :: bs, []⟩ := by
      simpa [hvec _ hw] using hwr.symm
    rw [copyBlock_data hr hwr, ih (Source.read_onlyInterrupted hs hr).2 rfl,
      (Source.read_ok hr).1]
    simp
  | case3 reader kc output b bs reader' hr e hwr => simp [hvec _ hw] at hwr
  | case4 reader kc output reader' hr ih =>
    rw [copyBlock_interrupted hr, ih (Source.read_onlyInterrupted hs hr).2 hw,
      (Source.read_error hr).1]
  | case5 reader kc output e reader' hne hr =>
    have := (Source.read_onlyInterrupted hs hr).1
    simp only [Except.error.injEq, reduceCtorEq, exists_false, or_false] at this
    exact absurd this hne

end CopyBlockSpec

/-- The loop over the ids of `blocks_to_stream`: fetch, stream and check each block; with
the ids handed to `block_fetch`, in order. `block_fetch` is an `FnMut`, so its answer may
change from call to call: the model's is given the index of the call, from `n`. For a fixed
list the ids of the calls are fixed too, so this is as general as any closure. -/
def fetchBlocks (sha3 : Bytes → HashId) (blockFetch : Nat → HashId → Except IoError Source)
    (secret : Bytes) (n : Nat) : List HashId → Sink → Except Error Unit × Sink × List HashId
  | [], output => (.ok (), output, [])
  | id :: ids, output =>
    match blockFetch n id with
    | .error e => (.error (.io e), output, [id])
    | .ok reader =>
      match copyBlock reader secret output with
      | (.error e, output') => (.error e, output', [id])
      | (.ok kc, output') =>
        if sha3 kc = id then
          let (r, output'', fetched) := fetchBlocks sha3 blockFetch secret (n + 1) ids output'
          (r, output'', id :: fetched)
        else (.error .invalidHmac, output', [id])

/-- `blocks_to_stream(input, output, block_fetch, secret)`, with the final output and the ids
handed to `block_fetch`; its calls are counted from 0. -/
def blocksToStream (sha3 : Bytes → HashId) (input : BlockList) (output : Sink)
    (blockFetch : Nat → HashId → Except IoError Source) (secret : Bytes) :
    Except Error Unit × Sink × List HashId :=
  if sha3 (secret ++ (input.blocks.map HashId.bytes).flatten) = input.total then
    fetchBlocks sha3 blockFetch secret 0 input.blocks output
  else (.error .invalidHmac, output, [])

section FetchBlocks

variable {sha3 : Bytes → HashId} {blockFetch : Nat → HashId → Except IoError Source}
  {secret : Bytes}

/-- A block the loop verifies: it goes on from the output the block was written to. -/
theorem fetchBlocks_cons_verified {n : Nat} {id : HashId} {ids : List HashId}
    {output output' : Sink} {reader : Source} {kc : Bytes} (hf : blockFetch n id = .ok reader)
    (hc : copyBlock reader secret output = (.ok kc, output')) (hh : sha3 kc = id) :
    fetchBlocks sha3 blockFetch secret n (id :: ids) output =
      ((fetchBlocks sha3 blockFetch secret (n + 1) ids output').1,
        (fetchBlocks sha3 blockFetch secret (n + 1) ids output').2.1,
        id :: (fetchBlocks sha3 blockFetch secret (n + 1) ids output').2.2) := by
  simp only [fetchBlocks, hf, hc, hh, if_true]

/-- What the `k`-th call verifies: fetched, read to its end, its bytes hashing to its id. -/
def Verified (sha3 : Bytes → HashId) (blockFetch : Nat → HashId → Except IoError Source)
    (secret : Bytes) (k : Nat) (id : HashId) : Prop :=
  ∃ reader data, blockFetch k id = .ok reader ∧ readAll reader = .ok data ∧
    sha3 (secret ++ data) = id

/-- When the loop succeeds, every call fetched, read and verified its block, and the output got
the blocks' bytes in order. -/
theorem fetchBlocks_ok {n : Nat} {ids : List HashId} {output : Sink}
    (h : (fetchBlocks sha3 blockFetch secret n ids output).1 = .ok ()) :
    (∀ p ∈ ids.enumFrom n, Verified sha3 blockFetch secret p.1 p.2) ∧
    ∃ contents, (ids.enumFrom n).mapM (fun p => blockFetch p.1 p.2 >>= readAll) = .ok contents ∧
      (fetchBlocks sha3 blockFetch secret n ids output).2.1.written =
        output.written ++ contents.flatten := by
  induction ids generalizing n output with
  | nil => exact ⟨by simp, [], rfl, by simp [fetchBlocks]⟩
  | cons id ids ih =>
    rcases hf : blockFetch n id with e | reader
    · simp [fetchBlocks, hf] at h
    rcases hc : copyBlock reader secret output with ⟨_ | kc, output'⟩
    · simp [fetchBlocks, hf, hc] at h
    by_cases hh : sha3 kc = id
    · rw [fetchBlocks_cons_verified hf hc hh] at h ⊢
      obtain ⟨data, hread, rfl, hw⟩ := copyBlock_ok hc
      obtain ⟨hids, contents, hm, hw'⟩ := ih h
      refine ⟨?_, data :: contents, ?_, ?_⟩
      · simp only [List.enumFrom_cons, List.mem_cons, forall_eq_or_imp]
        exact ⟨⟨reader, data, hf, hread, hh⟩, hids⟩
      · rw [List.enumFrom_cons, List.mapM_cons, hm, hf]
        show (readAll reader >>= fun d => .ok (d :: contents)) = _
        rw [hread]; rfl
      · simp [hw', hw]
    · simp [fetchBlocks, hf, hc, hh] at h

/-- When every call verifies its block, the loop succeeds or fails with an I/O error. -/
theorem fetchBlocks_of_verified {n : Nat} {ids : List HashId}
    (hv : ∀ p ∈ ids.enumFrom n, Verified sha3 blockFetch secret p.1 p.2) (output : Sink) :
    (fetchBlocks sha3 blockFetch secret n ids output).1 = .ok () ∨
      ∃ e, (fetchBlocks sha3 blockFetch secret n ids output).1 = .error (.io e) := by
  induction ids generalizing n output with
  | nil => exact .inl rfl
  | cons id ids ih =>
    simp only [List.enumFrom_cons, List.mem_cons, forall_eq_or_imp] at hv
    obtain ⟨⟨reader, data, hf, hread, hh⟩, hv⟩ := hv
    rcases hc : copyBlock reader secret output with ⟨e | kc, output'⟩
    · obtain ⟨e', rfl⟩ := copyBlock_error hc
      exact .inr ⟨e', by simp [fetchBlocks, hf, hc]⟩
    · obtain ⟨data', hread', rfl, -⟩ := copyBlock_ok hc
      obtain rfl : data = data' := by simpa [hread] using hread'
      rw [fetchBlocks_cons_verified hf hc hh]
      exact ih hv output'

/-- From a store that serves each block's bytes at every call, the loop over blocks that all
verify writes their bytes in order and succeeds. -/
theorem fetchBlocks_stored {n : Nat} {calls : List (HashId × Bytes)}
    (hf : ∀ k, ∀ p ∈ calls, blockFetch k p.1 = .ok (.ofBytes p.2))
    (hv : ∀ p ∈ calls, sha3 (secret ++ p.2) = p.1) (w : Bytes) :
    fetchBlocks sha3 blockFetch secret n (calls.map Prod.fst) ⟨w, []⟩ =
      (.ok (), ⟨w ++ (calls.map Prod.snd).flatten, []⟩, calls.map Prod.fst) := by
  induction calls generalizing n w with
  | nil => simp [fetchBlocks]
  | cons p calls ih =>
    have hp := List.mem_cons_self p calls
    rw [List.map_cons, fetchBlocks_cons_verified (hf n p hp)
      (copyBlock_onlyInterrupted (Source.reliable_ofBytes _).onlyInterrupted rfl) (hv p hp),
      ih (fun k q hq => hf k q (List.mem_cons_of_mem _ hq))
        (fun q hq => hv q (List.mem_cons_of_mem _ hq))]
    simp

/-- Blocks that verify, then one more: its bytes are written whether or not it verifies. -/
theorem fetchBlocks_stored_last {n : Nat} {calls : List (HashId × Bytes)} {last : HashId × Bytes}
    (hf : ∀ k, ∀ p ∈ calls ++ [last], blockFetch k p.1 = .ok (.ofBytes p.2))
    (hv : ∀ p ∈ calls, sha3 (secret ++ p.2) = p.1) (w : Bytes) :
    (fetchBlocks sha3 blockFetch secret n ((calls ++ [last]).map Prod.fst)
        ⟨w, []⟩).2.1.written =
      w ++ (calls.map Prod.snd).flatten ++ last.2 := by
  induction calls generalizing n w with
  | nil =>
    have hc : copyBlock (.ofBytes last.2) secret ⟨w, []⟩ = _ :=
      copyBlock_onlyInterrupted (Source.reliable_ofBytes last.2).onlyInterrupted rfl
    simp only [List.nil_append, List.map_cons, List.map_nil, fetchBlocks, hf n last (by simp), hc]
    split <;> simp [fetchBlocks]
  | cons p calls ih =>
    have hp := List.mem_cons_self p calls
    rw [List.cons_append, List.map_cons, fetchBlocks_cons_verified (hf n p (by simp))
      (copyBlock_onlyInterrupted (Source.reliable_ofBytes _).onlyInterrupted rfl) (hv p hp),
      ih (fun k q hq => hf k q (by simp_all)) (fun q hq => hv q (List.mem_cons_of_mem _ hq))]
    simp

end FetchBlocks

/-- `blocks_to_stream` verifies before it accepts: with a total that does not match it fails
without fetching a block or writing a byte; otherwise it succeeds exactly when each call of
`block_fetch`, the `k`-th for the `k`-th block, gives a reader that is read to its end and
verified, and no I/O error stops it; and when it succeeds it wrote the blocks' bytes in
order. -/
theorem blocksToStream_verifies (sha3 : Bytes → HashId) (bl : BlockList) (output : Sink)
    (blockFetch : Nat → HashId → Except IoError Source) (secret : Bytes) :
    (sha3 (secret ++ (bl.blocks.map HashId.bytes).flatten) ≠ bl.total →
      blocksToStream sha3 bl output blockFetch secret = (.error .invalidHmac, output, [])) ∧
    (sha3 (secret ++ (bl.blocks.map HashId.bytes).flatten) = bl.total →
      ((blocksToStream sha3 bl output blockFetch secret).1 = .ok () ↔
        (∀ p ∈ bl.blocks.enum, ∃ reader data, blockFetch p.1 p.2 = .ok reader ∧
          readAll reader = .ok data ∧ sha3 (secret ++ data) = p.2) ∧
        ∀ e, (blocksToStream sha3 bl output blockFetch secret).1 ≠ .error (.io e))) ∧
    ((blocksToStream sha3 bl output blockFetch secret).1 = .ok () →
      ∃ contents, bl.blocks.enum.mapM (fun p => blockFetch p.1 p.2 >>= readAll) = .ok contents ∧
        (blocksToStream sha3 bl output blockFetch secret).2.1.written =
          output.written ++ contents.flatten) := by
  by_cases ht : sha3 (secret ++ (bl.blocks.map HashId.bytes).flatten) = bl.total
  · simp only [blocksToStream, ht, if_true, ne_eq, not_true_eq_false, false_imp_iff, true_imp_iff,
      true_and, List.enum]
    refine ⟨⟨fun h => ⟨(fetchBlocks_ok h).1, fun e => by simp [h]⟩,
      fun ⟨hv, hio⟩ => ?_⟩,
      fun h => (fetchBlocks_ok h).2⟩
    rcases fetchBlocks_of_verified hv output with h | ⟨e, h⟩
    exacts [h, absurd h (hio e)]
  · simp [blocksToStream, ht]

/-! ## The round trip through a block store -/

/-- A `block_out` that stores every block it is handed. -/
def storeBlock (store : List (HashId × Bytes)) (hash : HashId) (data : Bytes) :
    Except IoError (List (HashId × Bytes)) :=
  .ok (store ++ [(hash, data)])

/-- A `block_fetch` serving what the store holds under an id. -/
def fetchStored (store : List (HashId × Bytes)) (hash : HashId) : Except IoError Source :=
  match store.lookup hash with
  | some data => .ok (.ofBytes data)
  | none => .error (.other 0)

/-- At a one-byte input and two-byte blocks, `block_out` is handed the whole buffer, the byte
read and a stale zero, so the store serves `[1, 0]` for the block and `blocks_to_stream`
writes `[1, 0]`, not the input, whatever it then returns. -/
theorem stream_to_blocks_hands_whole_buffer (sha3 : Bytes → HashId) (secret : Bytes) :
    streamToBlocks sha3 storeBlock [] (.ofBytes [1]) 2 secret =
      .ok (⟨sha3 (secret ++ (sha3 (secret ++ [1])).bytes), [sha3 (secret ++ [1])], 1⟩,
        [(sha3 (secret ++ [1]), [1, 0])]) ∧
    (blocksToStream sha3
      ⟨sha3 (secret ++ (sha3 (secret ++ [1])).bytes), [sha3 (secret ++ [1])], 1⟩ .vec
      (fun _ => fetchStored [(sha3 (secret ++ [1]), [1, 0])]) secret).2.1.written = [1, 0] := by
  have fill :
      fillBlock 2 (.ofBytes [1]) (List.replicate 2 0) 0 = (.ok (1, [1, 0]), ⟨[], []⟩) := by
    have r₁ : Source.read (.ofBytes [1]) (2 - 0) = (.ok [1], ⟨[], []⟩) := rfl
    have r₂ : Source.read ⟨[], []⟩ (2 - 1) = (.ok [], ⟨[], []⟩) := rfl
    rw [fillBlock_data (by decide) r₁, show 0 + ([1] : Bytes).length = 1 from rfl,
      fillBlock_eof (by decide) r₂]; rfl
  have stop : fillBlock 2 ⟨[], []⟩ [1, 0] 0 = (.ok (0, [1, 0]), ⟨[], []⟩) :=
    fillBlock_eof (by decide) rfl
  refine ⟨?_, ?_⟩
  · unfold streamToBlocks
    rw [streamLoop_block fill rfl, streamLoop_eof stop]; rfl
  · have copy :
        copyBlock (.ofBytes [1, 0]) secret .vec = (.ok (secret ++ [1, 0]), ⟨[1, 0], []⟩) := by
      have r₁ : Source.read (.ofBytes [1, 0]) 4096 = (.ok [1, 0], ⟨[], []⟩) := rfl
      have w : Sink.vec.writeAll [1, 0] = .ok ⟨[1, 0], []⟩ := rfl
      have r₂ : Source.read ⟨[], []⟩ 4096 = (.ok [], ⟨[], []⟩) := rfl
      rw [copyBlock_data r₁ w, copyBlock_eof r₂]
    simp only [blocksToStream, List.map_cons, List.map_nil, List.flatten_cons, List.flatten_nil,
      List.append_nil, if_true, fetchBlocks, fetchStored, List.lookup_cons_self, copy]
    split <;> rfl

/-- At three input bytes and two-byte blocks, `block_out` is called twice: with the first
block, then with the HMAC of the last byte and the whole buffer, that byte followed by the
stale second byte of the first block. -/
theorem stream_to_blocks_hands_stale_tail (sha3 : Bytes → HashId) (secret : Bytes) :
    streamToBlocks sha3 storeBlock [] (.ofBytes [1, 2, 3]) 2 secret =
      .ok (blockListOf sha3 2 secret [1, 2, 3],
        [(sha3 (secret ++ [1, 2]), [1, 2]), (sha3 (secret ++ [3]), [3, 2])]) := by
  rw [streamToBlocks_eq [] secret (by decide) (Source.reliable_ofBytes _).onlyInterrupted]
  simp [chunksOf_of_ne_nil, blockCalls, feedSink, storeBlock, overwrite, Except.map]

/-- A `block_out` that stores every block stores the calls in order. -/
theorem feedSink_storeBlock (store calls : List (HashId × Bytes)) :
    feedSink storeBlock store calls = .ok (store ++ calls) := by
  induction calls generalizing store with
  | nil => simp [feedSink]
  | cons call calls ih =>
    obtain ⟨hash, data⟩ := call
    simp [feedSink, storeBlock, ih]

/-- A store in which each id names the bytes of one block serves every stored block. -/
theorem fetchStored_of_functional {store : List (HashId × Bytes)}
    (h : ∀ p ∈ store, ∀ q ∈ store, p.1 = q.1 → p.2 = q.2) :
    ∀ p ∈ store, fetchStored store p.1 = .ok (.ofBytes p.2) := by
  suffices hl : ∀ p ∈ store, store.lookup p.1 = some p.2 from
    fun p hp => by rw [fetchStored, hl p hp]
  induction store with
  | nil => simp
  | cons a store ih =>
    intro p hp
    obtain ⟨k, b⟩ := a
    rw [List.lookup_cons]
    split
    · rename_i hk
      exact congrArg some (h (k, b) (List.mem_cons_self _ _) p hp (beq_iff_eq.mp hk).symm)
    · rename_i hk
      have hne : p ≠ (k, b) := fun he => by simp [he] at hk
      exact ih (fun p' hp' q hq => h p' (List.mem_cons_of_mem _ hp') q (List.mem_cons_of_mem _ hq))
        p ((List.mem_cons.mp hp).resolve_left hne)

/-- A store of chunks under their HMACs, each with data that is a function of the chunk, serves
every stored block when distinct chunks have distinct HMACs. -/
theorem fetchStored_of_hmac {sha3 : Bytes → HashId} {secret : Bytes} {cs : List Bytes}
    (data : Bytes → Bytes) (store : List (HashId × Bytes))
    (hinj : ∀ c ∈ cs, ∀ c' ∈ cs, sha3 (secret ++ c) = sha3 (secret ++ c') → c = c')
    (hform : ∀ p ∈ store, ∃ c ∈ cs, p = (sha3 (secret ++ c), data c)) :
    ∀ p ∈ store, fetchStored store p.1 = .ok (.ofBytes p.2) :=
  fetchStored_of_functional fun p hp q hq h => by
    obtain ⟨c, hc, rfl⟩ := hform p hp
    obtain ⟨c', hc', rfl⟩ := hform q hq
    obtain rfl := hinj c hc c' hc' h
    rfl

/-- The block list of an input passes `blocks_to_stream`'s check of its total. -/
theorem blocksToStream_blockListOf (sha3 : Bytes → HashId) (blockSize : Nat) (secret S : Bytes)
    (output : Sink) (blockFetch : Nat → HashId → Except IoError Source) :
    blocksToStream sha3 (blockListOf sha3 blockSize secret S) output blockFetch secret =
      fetchBlocks sha3 blockFetch secret 0 (blockListOf sha3 blockSize secret S).blocks output :=
  if_pos rfl

/-- The block round trip through a store: from a reader that fails only with `Interrupted`,
however it splits its bytes, and with distinct chunks having distinct HMACs, `blocks_to_stream`
from the store `stream_to_blocks` filled writes back exactly the input, and succeeds, when the
block size divides the input's length; otherwise it writes more bytes than the input has. -/
theorem blocks_round_trip {sha3 : Bytes → HashId} {input : Source} {blockSize : Nat}
    (secret : Bytes) (hB : 0 < blockSize) (hs : input.OnlyInterrupted)
    (hinj : ∀ c ∈ chunksOf blockSize input.rest, ∀ c' ∈ chunksOf blockSize input.rest,
      sha3 (secret ++ c) = sha3 (secret ++ c') → c = c') (w : Bytes) :
    ∃ store, streamToBlocks sha3 storeBlock [] input blockSize secret =
        .ok (blockListOf sha3 blockSize secret input.rest, store) ∧
      (blockSize ∣ input.rest.length →
        blocksToStream sha3 (blockListOf sha3 blockSize secret input.rest) ⟨w, []⟩
            (fun _ => fetchStored store) secret =
          (.ok (), ⟨w ++ input.rest, []⟩,
            (blockListOf sha3 blockSize secret input.rest).blocks)) ∧
      (¬blockSize ∣ input.rest.length →
        w.length + input.rest.length <
          (blocksToStream sha3 (blockListOf sha3 blockSize secret input.rest) ⟨w, []⟩
            (fun _ => fetchStored store) secret).2.1.written.length) := by
  refine ⟨blockCalls sha3 secret (List.replicate blockSize 0) (chunksOf blockSize input.rest),
    by rw [streamToBlocks_eq [] secret hB hs, feedSink_storeBlock]; rfl, fun hdvd => ?_,
    fun hdvd => ?_⟩
  · -- every chunk is a whole block, handed over as it is
    have hfull := chunksOf_full hB hdvd
    rw [blockCalls_of_full (by simpa using hfull), blocksToStream_blockListOf]
    have hblocks : (blockListOf sha3 blockSize secret input.rest).blocks =
        ((chunksOf blockSize input.rest).map fun c => (sha3 (secret ++ c), c)).map Prod.fst := by
      simp [blockListOf]
    have hf := fetchStored_of_hmac id ((chunksOf blockSize input.rest).map
      fun c => (sha3 (secret ++ c), c)) hinj (by
        simp only [List.mem_map]
        rintro _ ⟨c, hc, rfl⟩
        exact ⟨c, hc, rfl⟩)
    rw [hblocks, fetchBlocks_stored (fun _ => hf) (by simp) w, List.map_map]
    simp [Function.comp_def, flatten_chunksOf hB]
  · -- whole blocks, then the short last chunk handed over the front of a whole buffer
    obtain ⟨init, last, hsplit, hinit, hlast⟩ := chunksOf_short_last hB hdvd
    obtain ⟨buf', hbuf', hcalls⟩ := @blockCalls_full_append sha3 secret
      (List.replicate blockSize 0) init last (by simpa using hinit)
    have hlen : input.rest.length = init.length * blockSize + last.length := by
      have := congrArg List.length (flatten_chunksOf hB (S := input.rest))
      rw [hsplit, List.flatten_append, List.length_append, length_flatten_full hinit] at this
      simpa using this.symm
    -- the data stored under a chunk's HMAC is a function of the chunk
    have hf := fetchStored_of_hmac
      (fun c => if c.length = blockSize then c else overwrite buf' 0 last)
      (init.map (fun c => (sha3 (secret ++ c), c)) ++
        [(sha3 (secret ++ last), overwrite buf' 0 last)]) hinj (by
      intro p hp
      simp only [List.mem_append, List.mem_map, List.mem_singleton] at hp
      rcases hp with ⟨c, hc, rfl⟩ | rfl
      · exact ⟨c, by simp [hsplit, hc], by simp [hinit c hc]⟩
      · exact ⟨last, by simp [hsplit], by simp [hlast.ne]⟩)
    have hblocks : (blockListOf sha3 blockSize secret input.rest).blocks =
        (init.map (fun c => (sha3 (secret ++ c), c)) ++
          [(sha3 (secret ++ last), overwrite buf' 0 last)]).map Prod.fst := by
      simp [blockListOf, hsplit]
    rw [hsplit, hcalls, blocksToStream_blockListOf, hblocks,
      fetchBlocks_stored_last (fun _ => hf) (by simp) w]
    simp only [List.map_map, Function.comp_def, List.map_id', List.length_append,
      length_flatten_full hinit,
      length_overwrite (show 0 + last.length ≤ buf'.length by simp [hbuf']; omega), hbuf',
      List.length_replicate]
    omega

theorem blocks_round_trip_two_bytes :
    0 < 1 ∧ (Source.ofBytes [1, 2]).OnlyInterrupted ∧
    (∀ c ∈ chunksOf 1 [1, 2], ∀ c' ∈ chunksOf 1 [1, 2],
      Primitives.plain.sha3 (List.replicate 31 0 ++ c) =
        Primitives.plain.sha3 (List.replicate 31 0 ++ c') → c = c') ∧
    ∃ store, streamToBlocks Primitives.plain.sha3 storeBlock [] (.ofBytes [1, 2]) 1
        (List.replicate 31 0) =
        .ok (blockListOf Primitives.plain.sha3 1 (List.replicate 31 0) [1, 2], store) ∧
      (1 ∣ [1, 2].length →
        blocksToStream Primitives.plain.sha3
            (blockListOf Primitives.plain.sha3 1 (List.replicate 31 0) [1, 2]) ⟨[], []⟩
            (fun _ => fetchStored store) (List.replicate 31 0) =
          (.ok (), ⟨[] ++ [1, 2], []⟩,
            (blockListOf Primitives.plain.sha3 1 (List.replicate 31 0) [1, 2]).blocks)) ∧
      (¬1 ∣ [1, 2].length →
        ([] : Bytes).length + [1, 2].length <
          (blocksToStream Primitives.plain.sha3
            (blockListOf Primitives.plain.sha3 1 (List.replicate 31 0) [1, 2]) ⟨[], []⟩
            (fun _ => fetchStored store) (List.replicate 31 0)).2.1.written.length) := by
  have hs : (Source.ofBytes [1, 2]).OnlyInterrupted := (Source.reliable_ofBytes _).onlyInterrupted
  have hinj : ∀ c ∈ chunksOf 1 [1, 2], ∀ c' ∈ chunksOf 1 [1, 2],
      Primitives.plain.sha3 (List.replicate 31 0 ++ c) =
        Primitives.plain.sha3 (List.replicate 31 0 ++ c') → c = c' := by
    rw [show chunksOf 1 [1, 2] = [[1], [2]] by simp [chunksOf_of_ne_nil]]
    decide
  exact ⟨by decide, hs, hinj, blocks_round_trip _ (by decide) hs hinj []⟩

end Ensync.BlockXfer
