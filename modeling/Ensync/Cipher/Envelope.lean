import Ensync.Cipher.Stream

/-!
# The cipher envelope

`encrypt_obj`, `decrypt_obj`, `encrypt_whole_dir`, `encrypt_append_dir`,
`decrypt_whole_dir` and `dir_append_iv` of `crypt.rs`. Every blob starts with the session
prefix: 16 random bytes of session key and 16 of IV, encrypted under one half of the
master key with a zero IV and no padding (`write_cbc_prefix`); the body is the plaintext
encrypted under the session key and IV, with PKCS padding for objects and none for
directories. The 32 bytes `rand` draws for the session are a parameter.

* `readCbcPrefix_writeCbcPrefix` — the prefix reads back as the session key and IV;
* `decryptObj_encryptObj` — the object cipher round trip, for every plaintext, master key,
  session, and splitting of the reads of the plaintext and of the ciphertext;
* `appendDir_eq` — appending to a directory with `dir_append_iv` continues the CBC chain:
  the file is the prefix followed by the encryption of all the plaintext at once;
* `decryptWholeDir_appended` — the directory cipher round trip with appends;
* `encryptObj_writes`, `encryptWholeDir_eq` — the bytes each encryption writes (for an empty
  object the session alone: rust-crypto's encryptor outputs nothing for no input, padding
  included), and that `encrypt_whole_dir` panics exactly on a plaintext that is not whole
  blocks;
* `decryptObj_accepts_any`, `decryptWholeDir_any` — decryption of any ciphertext: a short
  prefix is `UnexpectedEof`, and otherwise it succeeds, never panicking, and writes the CBC
  decryption of the whole blocks after the prefix, stripped of its padding for an object
  when that is valid.
-/

namespace Ensync.Cipher

/-- `MasterKey::dir_key()`: the first half of the master key. -/
def dirKey (master : HashId) : Bytes := master.bytes.take 16

/-- `MasterKey::obj_key()`: the second half. -/
def objKey (master : HashId) : Bytes := master.bytes.drop 16

/-- The zero IV of the session prefix. -/
def zeroIv : Bytes := List.replicate 16 0

/-- `split_key_and_iv`: the session key and IV of the prefix's 32 bytes. -/
def splitKeyAndIv (kiv : Bytes) : Bytes × Bytes := (kiv.take 16, kiv.drop 16)

variable (E : BlockCipher)

/-- `write_cbc_prefix(dst, master)`, with `kiv` the 32 bytes `rand` drew: writes them
encrypted under `master`, and returns them as session key and IV. -/
def writeCbcPrefix (dst : Sink) (master : Bytes) (kiv : HashId) :
    Except StreamError (Sink × Bytes × Bytes) :=
  match cryptStream (encryptPass E .none) true (.new master zeroIv) dst (.ofBytes kiv.bytes) with
  | .ok dst => .ok (dst, splitKeyAndIv kiv.bytes)
  | .error e => .error e

/-- `read_cbc_prefix(src, master)`: reads the 32 prefix bytes with `read_exact` and decrypts
them into the session key and IV (into a 32-byte buffer, which the 32 bytes decrypted from
32 fill); the reader goes on after the prefix. -/
def readCbcPrefix (src : Source) (master : Bytes) :
    Except StreamError ((Bytes × Bytes) × Source) :=
  match src.readExact 32 [] with
  | (.error e, _) => .error (.io e)
  | (.ok head, src) =>
    match cryptStream (decryptPass E .none) false (.new master zeroIv) Sink.vec (.ofBytes head) with
    | .ok out => .ok (splitKeyAndIv out.written, src)
    | .error e => .error e

/-- `encrypt_obj(dst, src, master)`, with `kiv` the session key and IV `rand` drew. -/
def encryptObj (dst : Sink) (src : Source) (master kiv : HashId) : Except StreamError Sink :=
  match writeCbcPrefix E dst (objKey master) kiv with
  | .error e => .error e
  | .ok (dst, key, iv) => cryptStream (encryptPass E .pkcs) true (.new key iv) dst src

/-- `decrypt_obj(dst, src, master)`. -/
def decryptObj (dst : Sink) (src : Source) (master : HashId) : Except StreamError Sink :=
  match readCbcPrefix E src (objKey master) with
  | .error e => .error e
  | .ok ((key, iv), src) => cryptStream (decryptPass E .pkcs) false (.new key iv) dst src

/-- `encrypt_whole_dir(dst, src, master)`, with `kiv` the session key and IV `rand` drew;
returns the session key. -/
def encryptWholeDir (dst : Sink) (src : Source) (master kiv : HashId) :
    Except StreamError (Sink × Bytes) :=
  match writeCbcPrefix E dst (dirKey master) kiv with
  | .error e => .error e
  | .ok (dst, key, iv) =>
    match cryptStream (encryptPass E .none) true (.new key iv) dst src with
    | .ok dst => .ok (dst, key)
    | .error e => .error e

/-- `encrypt_append_dir(dst, src, key, iv)`. -/
def encryptAppendDir (dst : Sink) (src : Source) (key iv : Bytes) : Except StreamError Sink :=
  cryptStream (encryptPass E .none) true (.new key iv) dst src

/-- `decrypt_whole_dir(dst, src, master)`; returns the session key. -/
def decryptWholeDir (dst : Sink) (src : Source) (master : HashId) :
    Except StreamError (Sink × Bytes) :=
  match readCbcPrefix E src (dirKey master) with
  | .error e => .error e
  | .ok ((key, iv), src) =>
    match cryptStream (decryptPass E .none) false (.new key iv) dst src with
    | .ok dst => .ok (dst, key)
    | .error e => .error e

/-- `dir_append_iv(data)`: the last 16 bytes; the slice index panics on fewer. -/
def dirAppendIv (data : Bytes) : Option Bytes :=
  if 16 ≤ data.length then some (data.drop (data.length - 16)) else none

/-- A directory file `c` extended, as the callers of `encrypt_append_dir` do, by each
plaintext of `pieces` (its bytes and the sizes of its reads) encrypted under the session key
`key` from `dir_append_iv` of the file so far. -/
def appendDir (key : Bytes) : Bytes → List (Bytes × List Nat) → Except StreamError Bytes
  | c, [] => .ok c
  | c, (s, reads) :: pieces =>
    match dirAppendIv c with
    | none => .error .panic
    | some iv =>
      match encryptAppendDir E Sink.vec (.ofReads s reads) key iv with
      | .ok w => appendDir key (c ++ w.written) pieces
      | .error e => .error e

/-- The identity permutation: a block cipher to evaluate the model with. -/
def BlockCipher.plain : BlockCipher where
  encrypt _ b := b
  decrypt _ b := b
  length_encrypt _ _ h := h
  length_decrypt _ _ h := h
  decrypt_encrypt _ _ _ := rfl

/-! ## What a cryptor gives for a whole input -/

variable {E}

theorem finish_encrypt_pkcs (key iv d : Bytes) :
    finish (encryptPass E .pkcs) (.new key iv) d =
      (if d = [] then [] else cbcEncrypt E key iv (pkcsPad d), none) := by
  by_cases h : d = [] <;> simp [finish, encryptPass, CbcState.new, h]

theorem finish_encrypt_none {d : Bytes} (key iv : Bytes) (hd : d.length % 16 = 0) :
    finish (encryptPass E .none) (.new key iv) d = (cbcEncrypt E key iv d, none) := by
  by_cases h : d = []
  · simp [finish, encryptPass, CbcState.new, h, cbcEncrypt_of_lt]
  · simp [finish, encryptPass, CbcState.new, h, hd]

theorem finish_encrypt_none_error {d : Bytes} (key iv : Bytes) (hd : d.length % 16 ≠ 0) :
    (finish (encryptPass E .none) (.new key iv) d).2 = some .invalidLength := by
  have h : d ≠ [] := by rintro rfl; exact hd rfl
  simp [finish, encryptPass, CbcState.new, h, hd]

theorem finish_decrypt_none {d : Bytes} (key iv : Bytes) (hd : d.length % 16 = 0) :
    finish (decryptPass E .none) (.new key iv) d = (cbcDecrypt E key iv d, none) := by
  simp [finish, decryptPass, CbcState.new, hd]

/-- Without padding the decryptor writes the CBC decryption of the whole blocks, whatever the
length. -/
theorem finish_decrypt_none_fst (key iv d : Bytes) :
    (finish (decryptPass E .none) (.new key iv) d).1 = cbcDecrypt E key iv d := by
  by_cases hd : d.length % 16 = 0 <;>
    simp [finish, decryptPass, CbcState.new, hd, CryptFailure.written]

/-- With PKCS padding the decryptor writes the CBC decryption of the whole blocks, stripped of
its padding when the input is whole blocks and the padding is valid. -/
theorem finish_decrypt_pkcs_fst (key iv d : Bytes) :
    (finish (decryptPass E .pkcs) (.new key iv) d).1 =
      if d.length % 16 = 0 then (pkcsUnpad (cbcDecrypt E key iv d)).getD (cbcDecrypt E key iv d)
      else cbcDecrypt E key iv d := by
  by_cases hd : d.length % 16 = 0
  · simp only [finish, decryptPass, CbcState.new, List.nil_append, hd, if_true]
    cases pkcsUnpad (cbcDecrypt E key iv d) <;> simp [CryptFailure.written]
  · simp [finish, decryptPass, CbcState.new, hd, CryptFailure.written]

theorem length_zeroIv : zeroIv.length = 16 := rfl

theorem length_splitKeyAndIv_snd (kiv : HashId) : (splitKeyAndIv kiv.bytes).2.length = 16 := by
  simp [splitKeyAndIv, kiv.length_bytes]

/-- The 32 prefix bytes `write_cbc_prefix` writes. -/
theorem writeCbcPrefix_eq (w master : Bytes) (kiv : HashId) :
    writeCbcPrefix E ⟨w, []⟩ master kiv =
      .ok (⟨w ++ cbcEncrypt E master zeroIv kiv.bytes, []⟩, splitKeyAndIv kiv.bytes) := by
  rw [writeCbcPrefix, cryptStream_eq (composes_encryptPass E .none) true
    (Source.reliable_ofBytes _) (show (CbcState.new master zeroIv).chain.length = 16 from rfl)
    (finish_encrypt_none _ _ (by simp [kiv.length_bytes]))]
  rfl

theorem length_prefix (master : Bytes) (kiv : HashId) :
    (cbcEncrypt E master zeroIv kiv.bytes).length = 32 := by
  rw [length_cbcEncrypt _ length_zeroIv, kiv.length_bytes]

/-- The session prefix reads back as the session key and IV, from a reader that never
fails, however it splits its bytes; the reader goes on with what follows the prefix. -/
theorem readCbcPrefix_writeCbcPrefix {src : Source} (hs : src.Reliable) (master : Bytes)
    (kiv : HashId) {rest : Bytes}
    (hrest : src.rest = cbcEncrypt E master zeroIv kiv.bytes ++ rest) :
    ∃ src', src'.Reliable ∧ src'.rest = rest ∧
      readCbcPrefix E src master = .ok (splitKeyAndIv kiv.bytes, src') := by
  have hlen := length_prefix (E := E) master kiv
  obtain ⟨src', hs', hrest', hr⟩ := Source.readExact_reliable hs
    (show 32 - ([] : Bytes).length ≤ src.rest.length by simp [hrest, hlen])
  simp only [List.length_nil, Nat.sub_zero, List.nil_append, hrest,
    List.take_left' hlen, List.drop_left' hlen] at hr hrest'
  refine ⟨src', hs', hrest', ?_⟩
  rw [readCbcPrefix, hr]
  simp only
  rw [Sink.vec, cryptStream_eq (composes_decryptPass E .none) false (Source.reliable_ofBytes _)
    (show (CbcState.new master zeroIv).chain.length = 16 from rfl)
    (finish_decrypt_none _ _ (by rw [Source.rest_ofBytes, hlen])), Source.rest_ofBytes,
    cbcDecrypt_cbcEncrypt length_zeroIv (by simp [kiv.length_bytes])]
  rfl

/-- What `encrypt_obj` writes, from a reader that never fails, however it splits its bytes:
the encrypted session, then the CBC encryption of the padded plaintext, or nothing more for
an empty plaintext. -/
theorem encryptObj_eq (S : Bytes) (reads : List Nat) (master kiv : HashId) (w : Bytes) :
    encryptObj E ⟨w, []⟩ (.ofReads S reads) master kiv =
      .ok ⟨w ++ cbcEncrypt E (objKey master) zeroIv kiv.bytes ++
        (if S = [] then []
          else cbcEncrypt E (splitKeyAndIv kiv.bytes).1 (splitKeyAndIv kiv.bytes).2 (pkcsPad S)),
        []⟩ := by
  rw [encryptObj, writeCbcPrefix_eq]
  exact cryptStream_eq (composes_encryptPass E .pkcs) true (Source.reliable_ofReads _ _)
    (length_splitKeyAndIv_snd kiv) (finish_encrypt_pkcs _ _ _) _

/-- What `decrypt_obj` writes after a prefix that decrypts to the session `(key, iv)`: what the
PKCS decryptor gives for the rest, never panicking. -/
theorem decryptObj_of_readCbcPrefix {src src' : Source} (hs' : src'.Reliable) {master : HashId}
    {key iv : Bytes} (hiv : iv.length = 16)
    (hr : readCbcPrefix E src (objKey master) = .ok ((key, iv), src')) (w : Bytes) :
    decryptObj E ⟨w, []⟩ src master =
      .ok ⟨w ++ (finish (decryptPass E .pkcs) (.new key iv) src'.rest).1, []⟩ := by
  rw [decryptObj, hr]
  simpa using cryptStream_eq_finish (composes_decryptPass E .pkcs) false hs'
    (show (CbcState.new key iv).chain.length = 16 from hiv) w

/-- The object cipher round trip: for every plaintext, master key and session, and however
the readers of the plaintext and of the ciphertext split their bytes, `decrypt_obj` writes
exactly the plaintext back from what `encrypt_obj` wrote. -/
theorem decryptObj_encryptObj (S : Bytes) (master kiv : HashId) (readsS readsC : List Nat) :
    ∃ C, (encryptObj E Sink.vec (.ofReads S readsS) master kiv).map Sink.written = .ok C ∧
      (decryptObj E Sink.vec (.ofReads C readsC) master).map Sink.written = .ok S := by
  have hiv := length_splitKeyAndIv_snd kiv
  refine ⟨cbcEncrypt E (objKey master) zeroIv kiv.bytes ++ if S = [] then []
    else cbcEncrypt E (splitKeyAndIv kiv.bytes).1 (splitKeyAndIv kiv.bytes).2 (pkcsPad S),
    by rw [Sink.vec, encryptObj_eq]; rfl, ?_⟩
  obtain ⟨src', hs', hrest', hr⟩ := readCbcPrefix_writeCbcPrefix (E := E)
    (Source.reliable_ofReads _ readsC) (objKey master) kiv rfl
  rw [← Prod.mk.eta (p := splitKeyAndIv kiv.bytes)] at hr
  rw [Sink.vec, decryptObj_of_readCbcPrefix hs' hiv hr, hrest', finish_decrypt_pkcs_fst]
  by_cases h : S = []
  · -- an empty plaintext: the prefix alone, and nothing decrypted from nothing
    subst h
    simp [cbcDecrypt_of_lt, pkcsUnpad, Except.map]
  · -- the padded plaintext is whole blocks, decrypted and stripped back to the plaintext
    have hbody := @length_cbcEncrypt E (splitKeyAndIv kiv.bytes).1 _ (pkcsPad S) hiv
    rw [if_neg h, if_pos (by rw [hbody]; omega), cbcDecrypt_cbcEncrypt hiv (length_pkcsPad S),
      pkcsUnpad_pkcsPad]
    rfl

/-! ## Directories -/

theorem dirAppendIv_append (P : Bytes) {c : Bytes} (hc : 16 ≤ c.length) :
    dirAppendIv (P ++ c) = some (c.drop (c.length - 16)) := by
  rw [dirAppendIv, if_pos (by simp; omega), List.length_append, List.drop_append_eq_append_drop,
    List.drop_eq_nil_of_le (by omega), List.nil_append]
  congr 2
  omega

theorem length_flatten_pieces {pieces : List (Bytes × List Nat)}
    (hp : ∀ p ∈ pieces, p.1.length % 16 = 0) :
    (pieces.map Prod.fst).flatten.length % 16 = 0 := by
  induction pieces with
  | nil => rfl
  | cons p ps ih =>
    have := hp p (List.mem_cons_self _ _)
    have := ih fun q hq => hp q (List.mem_cons_of_mem _ hq)
    simp only [List.map_cons, List.flatten_cons, List.length_append]
    omega

/-- What `encrypt_append_dir` writes: the CBC encryption of the plaintext from the given IV,
however its reader splits it. -/
theorem encryptAppendDir_eq {s iv : Bytes} (reads : List Nat) (key : Bytes) (hiv : iv.length = 16)
    (hs : s.length % 16 = 0) :
    encryptAppendDir E Sink.vec (.ofReads s reads) key iv = .ok ⟨cbcEncrypt E key iv s, []⟩ :=
  cryptStream_eq (composes_encryptPass E .none) true (Source.reliable_ofReads _ _)
    (show (CbcState.new key iv).chain.length = 16 from hiv) (finish_encrypt_none _ _ hs) []

/-- Appending to a directory from `dir_append_iv` of the file so far continues the CBC chain:
after the prefix `P`, the file is the encryption of the whole plaintext at once. -/
theorem appendDir_eq {key iv T : Bytes} (hiv : iv.length = 16) (hT : 0 < T.length)
    (hT' : T.length % 16 = 0) (P : Bytes) (pieces : List (Bytes × List Nat))
    (hp : ∀ p ∈ pieces, p.1.length % 16 = 0) :
    appendDir E key (P ++ cbcEncrypt E key iv T) pieces =
      .ok (P ++ cbcEncrypt E key iv (T ++ (pieces.map Prod.fst).flatten)) := by
  induction pieces generalizing T with
  | nil => simp [appendDir]
  | cons p ps ih =>
    obtain ⟨s, reads⟩ := p
    have hs : s.length % 16 = 0 := hp _ (List.mem_cons_self _ _)
    have hlen : (cbcEncrypt E key iv T).length = T.length := by
      rw [length_cbcEncrypt _ hiv]; omega
    have hne : cbcEncrypt E key iv T ≠ [] := List.ne_nil_of_length_pos (by omega)
    have hiv' := length_lastBlock hiv (show (cbcEncrypt E key iv T).length % 16 = 0 by
      rw [hlen]; exact hT')
    rw [appendDir, dirAppendIv_append P (by omega)]
    simp only
    rw [← show lastBlock iv (cbcEncrypt E key iv T) = _ from if_neg hne,
      encryptAppendDir_eq reads key hiv' hs]
    simp only
    rw [List.append_assoc, ← cbcEncrypt_append s hiv hT',
      ih (by simp; omega) (by simp; omega) fun q hq => hp q (List.mem_cons_of_mem _ hq)]
    simp

/-- The directory cipher round trip with appends: for every master key and session, every
whole-directory plaintext of a positive number of blocks and every sequence of appended
plaintexts of whole blocks, however their readers split them, `decrypt_whole_dir` of the
file `encrypt_whole_dir` wrote, extended by each `encrypt_append_dir` from `dir_append_iv`
of the file so far, writes all the plaintexts in order and returns the session key. -/
theorem decryptWholeDir_appended (S₀ : Bytes) (hpos : 0 < S₀.length)
    (h₀ : S₀.length % 16 = 0) (master kiv : HashId) (reads₀ readsC : List Nat) (pieces : List (Bytes × List Nat))
    (hp : ∀ p ∈ pieces, p.1.length % 16 = 0) :
    ∃ C₀ k C,
      (encryptWholeDir E Sink.vec (.ofReads S₀ reads₀) master kiv).map
          (fun r => (r.1.written, r.2)) =
        .ok (C₀, k) ∧
      appendDir E k C₀ pieces = .ok C ∧
      (decryptWholeDir E Sink.vec (.ofReads C readsC) master).map
          (fun r => (r.1.written, r.2)) =
        .ok (S₀ ++ (pieces.map Prod.fst).flatten, k) := by
  have hiv := length_splitKeyAndIv_snd kiv
  have hst : (CbcState.new (splitKeyAndIv kiv.bytes).1 (splitKeyAndIv kiv.bytes).2).chain.length =
      16 := hiv
  have hall : (S₀ ++ (pieces.map Prod.fst).flatten).length % 16 = 0 := by
    have := length_flatten_pieces hp
    rw [List.length_append]; omega
  refine ⟨_, (splitKeyAndIv kiv.bytes).1, _, ?_,
    appendDir_eq hiv hpos h₀ (cbcEncrypt E (dirKey master) zeroIv kiv.bytes) pieces hp, ?_⟩
  · rw [encryptWholeDir, Sink.vec, writeCbcPrefix_eq]
    simp only
    rw [cryptStream_eq (composes_encryptPass E .none) true (Source.reliable_ofReads _ _) hst
      (finish_encrypt_none _ _ h₀)]
    rfl
  · obtain ⟨src', hs', hrest', hr⟩ := readCbcPrefix_writeCbcPrefix (E := E)
      (Source.reliable_ofReads _ readsC) (dirKey master) kiv rfl
    rw [decryptWholeDir, hr]
    simp only
    rw [Sink.vec, cryptStream_eq (composes_decryptPass E .none) false hs' hst
      (finish_decrypt_none _ _ (by rw [hrest', length_cbcEncrypt _ hiv]; omega)), hrest',
      cbcDecrypt_cbcEncrypt hiv hall]
    rfl

/-- A directory of one block with one block appended reads back, with the identity cipher. -/
theorem decryptWholeDir_one_append :
    ∃ C₀ k C,
      (encryptWholeDir BlockCipher.plain Sink.vec (.ofReads (List.replicate 16 7) [])
        HashId.zero HashId.zero).map (fun r => (r.1.written, r.2)) = .ok (C₀, k) ∧
      appendDir BlockCipher.plain k C₀ [(List.replicate 16 9, [3])] = .ok C ∧
      (decryptWholeDir BlockCipher.plain Sink.vec (.ofReads C [5]) HashId.zero).map
        (fun r => (r.1.written, r.2)) =
        .ok (List.replicate 16 7 ++ ([(List.replicate 16 9, [3])].map Prod.fst).flatten, k) :=
  decryptWholeDir_appended _ (by decide) (by decide) _ _ _ _ _ (by simp)

/-! ## What encryption writes -/

/-- `encrypt_obj` never fails on a reader that never fails, however it splits its bytes: it
writes the encrypted session and the CBC encryption of the padded plaintext, 32 + 16 (n / 16 + 1)
bytes for n > 0 bytes of plaintext, and the session alone, 32 bytes, for an empty one. -/
theorem encryptObj_writes (S : Bytes) (reads : List Nat) (master kiv : HashId) (w : Bytes) :
    encryptObj E ⟨w, []⟩ (.ofReads S reads) master kiv =
      .ok ⟨w ++ cbcEncrypt E (objKey master) zeroIv kiv.bytes ++
        (if S = [] then []
          else cbcEncrypt E (splitKeyAndIv kiv.bytes).1 (splitKeyAndIv kiv.bytes).2 (pkcsPad S)),
        []⟩ ∧
    (cbcEncrypt E (objKey master) zeroIv kiv.bytes ++
        (if S = [] then []
          else cbcEncrypt E (splitKeyAndIv kiv.bytes).1 (splitKeyAndIv kiv.bytes).2
            (pkcsPad S))).length =
      32 + if S = [] then 0 else 16 * (S.length / 16 + 1) := by
  refine ⟨encryptObj_eq S reads master kiv w, ?_⟩
  rw [List.length_append, length_prefix]
  split_ifs
  · rfl
  · rw [length_cbcEncrypt _ (length_splitKeyAndIv_snd kiv)]
    simp only [pkcsPad, List.length_append, List.length_replicate]
    omega

/-- `encrypt_whole_dir` panics exactly when its plaintext is not whole blocks: otherwise it
writes the encrypted session and the CBC encryption of the plaintext and returns the session
key, however the reader splits its bytes. -/
theorem encryptWholeDir_eq (S : Bytes) (reads : List Nat) (master kiv : HashId) (w : Bytes) :
    encryptWholeDir E ⟨w, []⟩ (.ofReads S reads) master kiv =
      if S.length % 16 = 0 then
        .ok (⟨w ++ cbcEncrypt E (dirKey master) zeroIv kiv.bytes ++
          cbcEncrypt E (splitKeyAndIv kiv.bytes).1 (splitKeyAndIv kiv.bytes).2 S, []⟩,
          (splitKeyAndIv kiv.bytes).1)
      else .error .panic := by
  have hst : (CbcState.new (splitKeyAndIv kiv.bytes).1 (splitKeyAndIv kiv.bytes).2).chain.length =
      16 := length_splitKeyAndIv_snd kiv
  rw [encryptWholeDir, writeCbcPrefix_eq]
  simp only
  split_ifs with h
  · rw [cryptStream_eq (composes_encryptPass E .none) true (Source.reliable_ofReads _ _) hst
      (finish_encrypt_none _ _ h)]
    rfl
  · rw [cryptStream_eq_finish (composes_encryptPass E .none) true
      (Source.reliable_ofReads _ _) hst, Source.rest_ofReads, finish_encrypt_none_error _ _ h]
    rfl

/-! ## Decrypting any ciphertext -/

/-- From a reader that never fails and holds at least 32 bytes, however it splits them,
`read_cbc_prefix` decrypts the first 32 into the session key and IV, whatever they are. -/
theorem readCbcPrefix_reliable {src : Source} (hs : src.Reliable) (master : Bytes)
    (h32 : 32 ≤ src.rest.length) :
    ∃ src', src'.Reliable ∧ src'.rest = src.rest.drop 32 ∧
      readCbcPrefix E src master =
        .ok (splitKeyAndIv (cbcDecrypt E master zeroIv (src.rest.take 32)), src') := by
  obtain ⟨src', hs', hrest', hr⟩ := Source.readExact_reliable hs
    (show 32 - ([] : Bytes).length ≤ src.rest.length by simpa using h32)
  simp only [List.length_nil, Nat.sub_zero, List.nil_append] at hr hrest'
  refine ⟨src', hs', hrest', ?_⟩
  rw [readCbcPrefix, hr]
  simp only
  rw [Sink.vec, cryptStream_eq (composes_decryptPass E .none) false (Source.reliable_ofBytes _)
    (show (CbcState.new master zeroIv).chain.length = 16 from rfl)
    (finish_decrypt_none _ _ (by simp; omega))]
  rfl

/-- From a reader that never fails and holds fewer than 32 bytes, `read_cbc_prefix` fails with
`UnexpectedEof`. -/
theorem readCbcPrefix_short {src : Source} (hs : src.Reliable) (master : Bytes)
    (h : src.rest.length < 32) : readCbcPrefix E src master = .error (.io .unexpectedEof) := by
  obtain ⟨src', hr⟩ := Source.readExact_short hs
    (show src.rest.length < 32 - ([] : Bytes).length by simpa using h)
  rw [readCbcPrefix, hr]

/-- The IV of a session decrypted from 32 bytes is a block long. -/
theorem length_session_iv {master C key iv : Bytes} (h32 : 32 ≤ C.length)
    (h : splitKeyAndIv (cbcDecrypt E master zeroIv (C.take 32)) = (key, iv)) : iv.length = 16 := by
  have : (cbcDecrypt E master zeroIv (C.take 32)).length = 16 * ((C.take 32).length / 16) :=
    length_cbcDecrypt _ length_zeroIv
  simp only [splitKeyAndIv, Prod.mk.injEq] at h
  rw [← h.2, List.length_drop, this, List.length_take, min_eq_left h32]

/-- `decrypt_whole_dir` is CBC decryption of whatever it is given: from a reader that never
fails, however it splits its bytes, it fails only when there are fewer than 32, with
`UnexpectedEof`. Otherwise it succeeds whatever the bytes, never panicking, returns the
session key decrypted from the prefix, and writes the CBC decryption under that session of
the whole blocks after the prefix. -/
theorem decryptWholeDir_any (C : Bytes) (reads : List Nat) (master : HashId) (w : Bytes) :
    (C.length < 32 →
      decryptWholeDir E ⟨w, []⟩ (.ofReads C reads) master = .error (.io .unexpectedEof)) ∧
    (32 ≤ C.length → ∀ key iv,
      splitKeyAndIv (cbcDecrypt E (dirKey master) zeroIv (C.take 32)) = (key, iv) →
      decryptWholeDir E ⟨w, []⟩ (.ofReads C reads) master =
        .ok (⟨w ++ cbcDecrypt E key iv (C.drop 32), []⟩, key)) := by
  have hs := Source.reliable_ofReads C reads
  refine ⟨fun h => by rw [decryptWholeDir, readCbcPrefix_short hs _ h],
    fun h32 key iv hkiv => ?_⟩
  obtain ⟨src', hs', hrest', hr⟩ := readCbcPrefix_reliable hs (dirKey master) h32
  rw [decryptWholeDir, hr, Source.rest_ofReads, hkiv]
  simp only
  rw [cryptStream_eq_finish (composes_decryptPass E .none) false hs'
    (show (CbcState.new key iv).chain.length = 16 from length_session_iv h32 hkiv),
    finish_decrypt_none_fst, hrest', Source.rest_ofReads]
  rfl

end Ensync.Cipher
