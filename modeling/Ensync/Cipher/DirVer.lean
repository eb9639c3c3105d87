import Mathlib.Data.Set.Finite.List
import Mathlib.Tactic.Ring
import Ensync.Cipher.Envelope

/-!
# Directory versions

`encrypt_dir_ver` and `decrypt_dir_ver` of `crypt.rs`. A directory's version, a `u64`, is
written little-endian into the first 8 of 32 zero bytes, which are encrypted under the
directory half of the master key with no padding, from the IV `dir_ver_iv` of the directory
id. Decryption writes over 32 bytes of 255, ignoring any error, and gives 0 unless the last
24 bytes are zero.

* `BlockCipher.encrypt_decrypt` — a keyed permutation of 16-byte blocks is onto: encrypting a
  decrypted block gives it back, by `decrypt_encrypt` and finiteness; so CBC encryption
  inverts CBC decryption (`cbcEncrypt_cbcDecrypt`);
* `leValue_verBytes`, `verBytes_leValue`, `verOfBytes_eq` — the byte loops of the two
  functions are the little-endian encoding and decoding of the version;
* `dirVer_partial_inverse` — decryption inverts encryption, and 32 bytes that decrypt to a
  nonzero version are that version's encryption, so every other value decrypts to 0;
* `dirVerIv_eq` — the IV is the first 8 bytes of the XOR of the id's halves followed by 8
  zeros, so two ids whose halves' XOR agree on its first 8 bytes share every encrypted
  version (`encryptDirVer_eq_of_xorHalves`).
-/

namespace Ensync.Cipher

/-! ## AES as a permutation -/

/-- A keyed permutation of 16-byte blocks is onto: encrypting a decrypted block gives it
back. -/
theorem BlockCipher.encrypt_decrypt (E : BlockCipher) (key : Bytes) {b : Bytes}
    (hb : b.length = 16) : E.encrypt key (E.decrypt key b) = b := by
  haveI : Finite UInt8 := Finite.of_injective
    (fun x : UInt8 => (⟨x.toNat, x.toNat_lt_size⟩ : Fin UInt8.size))
    fun _ _ h => UInt8.toNat.inj (congrArg Fin.val h)
  let f : Mathlib.Vector UInt8 16 → Mathlib.Vector UInt8 16 :=
    fun v => ⟨E.encrypt key v.1, E.length_encrypt key v.1 v.2⟩
  have hf : Function.Injective f := fun u v h => Subtype.ext <| by
    rw [← E.decrypt_encrypt key _ u.2, ← E.decrypt_encrypt key _ v.2]
    exact congrArg (E.decrypt key ∘ Subtype.val) h
  obtain ⟨a, ha⟩ := Finite.surjective_of_injective hf ⟨b, hb⟩
  have ha' : E.encrypt key a.1 = b := congrArg Subtype.val ha
  rw [← ha', E.decrypt_encrypt key _ a.2]

variable {E : BlockCipher} {key : Bytes}

/-- CBC encryption inverts CBC decryption on whole blocks. -/
theorem cbcEncrypt_cbcDecrypt {iv c : Bytes} (hiv : iv.length = 16) (hc : c.length % 16 = 0) :
    cbcEncrypt E key iv (cbcDecrypt E key iv c) = c := by
  induction iv, c using cbcDecrypt.induct E key with
  | case1 iv c h ih =>
    have hd : (E.decrypt key (c.take 16)).length = 16 := E.length_decrypt _ _ (by simp; omega)
    have hx : (xorBytes iv (E.decrypt key (c.take 16))).length = 16 := by simp [hiv, hd]
    rw [cbcDecrypt_of_le h, cbcEncrypt_of_le (by simp only [List.length_append]; omega),
      List.take_left' hx, List.drop_left' hx, xorBytes_xorBytes (by rw [hiv, hd]),
      E.encrypt_decrypt key (by simp; omega), ih (by simp; omega) (by simp; omega),
      List.take_append_drop]
  | case2 iv c h =>
    obtain rfl : c = [] := List.eq_nil_of_length_eq_zero (by omega)
    rw [cbcDecrypt_of_lt (by simp), cbcEncrypt_of_lt (by simp)]

/-! ## The version's bytes -/

/-- The value of little-endian bytes. -/
def leValue : Bytes → Nat
  | [] => 0
  | b :: bs => b.toNat + 256 * leValue bs

theorem leValue_lt (bs : Bytes) : leValue bs < 256 ^ bs.length := by
  induction bs with
  | nil => simp [leValue]
  | cons b bs ih =>
    have hb : b.toNat < 256 := b.toNat_lt_size
    rw [leValue, List.length_cons, pow_succ]
    omega

theorem leValue_append (a b : Bytes) :
    leValue (a ++ b) = leValue a + 256 ^ a.length * leValue b := by
  induction a with
  | nil => simp [leValue]
  | cons x a ih => rw [List.cons_append, leValue, leValue, ih, List.length_cons, pow_succ]; ring

/-- The byte loop of `encrypt_dir_ver`: `n` rounds of `cleartext[ix] = (ver & 0xFF) as u8;
ver >>= 8`, on the version's value (no step leaves the `u64` range). -/
def verBytes : Nat → Nat → Bytes
  | 0, _ => []
  | n + 1, ver => (ver &&& 0xFF).toUInt8 :: verBytes n (ver >>> 8)

@[simp] theorem length_verBytes (n ver : Nat) : (verBytes n ver).length = n := by
  induction n generalizing ver with
  | zero => rfl
  | succ n ih => simp [verBytes, ih]

theorem toNat_lowByte (ver : Nat) : (ver &&& 0xFF).toUInt8.toNat = ver % 256 := by
  rw [show (0xFF : Nat) = 2 ^ 8 - 1 from rfl, Nat.and_pow_two_sub_one_eq_mod]
  exact UInt8.toNat_ofNat_of_lt (Nat.mod_lt _ (by decide))

/-- The encoding loop writes the version's low `n` bytes. -/
theorem leValue_verBytes (n ver : Nat) : leValue (verBytes n ver) = ver % 256 ^ n := by
  induction n generalizing ver with
  | zero => simp [verBytes, leValue, Nat.mod_one]
  | succ n ih =>
    rw [verBytes, leValue, ih, toNat_lowByte, Nat.shiftRight_eq_div_pow,
      show (2 : Nat) ^ 8 = 256 from rfl, pow_succ' 256 n, Nat.mod_mul]

/-- The encoding loop gives back the bytes of a value it is handed. -/
theorem verBytes_leValue (bs : Bytes) : verBytes bs.length (leValue bs) = bs := by
  induction bs with
  | nil => rfl
  | cons b bs ih =>
    have hb : b.toNat < 256 := b.toNat_lt_size
    rw [List.length_cons, verBytes, leValue, Nat.shiftRight_eq_div_pow,
      show (2 : Nat) ^ 8 = 256 from rfl, Nat.add_mul_div_left _ _ (by decide),
      Nat.div_eq_of_lt hb, Nat.zero_add, ih]
    congr 1
    apply UInt8.toNat.inj
    rw [toNat_lowByte]
    omega

/-- The byte loop of `decrypt_dir_ver`: `ver |= (cleartext[ix] as u64) << (ix * 8)` for `ix`
in `0..8`, from `ver = 0`. -/
def verOfBytes (cleartext : Bytes) : Nat :=
  (List.range 8).foldl (fun ver ix => ver ||| (cleartext.getD ix 0).toNat <<< (ix * 8)) 0

/-- The first `n` rounds of the decoding loop read the first `n` bytes little-endian. -/
theorem foldl_or_shift {bs : Bytes} {n : Nat} (hn : n ≤ bs.length) :
    (List.range n).foldl (fun ver ix => ver ||| (bs.getD ix 0).toNat <<< (ix * 8)) 0 =
      leValue (bs.take n) := by
  induction n with
  | zero => rfl
  | succ n ih =>
    have hlt : n < bs.length := by omega
    have h256 : (256 : Nat) ^ n = 2 ^ (n * 8) := by rw [Nat.mul_comm n 8, Nat.pow_mul]
    have hL : leValue (bs.take n) < 2 ^ (n * 8) := by
      have := leValue_lt (bs.take n)
      rwa [List.length_take, min_eq_left (by omega), h256] at this
    have hget : bs.getD n 0 = bs[n] := by simp [List.getD_eq_getElem?_getD, hlt]
    rw [List.range_succ, List.foldl_append, ih (by omega), List.foldl_cons, List.foldl_nil,
      List.take_succ, List.getElem?_eq_getElem hlt, Option.toList_some, leValue_append,
      List.length_take, min_eq_left (by omega), hget]
    calc leValue (bs.take n) ||| bs[n].toNat <<< (n * 8)
        = 2 ^ (n * 8) * bs[n].toNat ||| leValue (bs.take n) := by
          rw [Nat.shiftLeft_eq, Nat.mul_comm, Nat.or_comm]
      _ = 2 ^ (n * 8) * bs[n].toNat + leValue (bs.take n) := (Nat.mul_add_lt_is_or hL _).symm
      _ = leValue (bs.take n) + 256 ^ n * leValue [bs[n]] := by
          rw [h256, Nat.add_comm]; simp [leValue]

theorem verOfBytes_eq {c : Bytes} (hc : 8 ≤ c.length) : verOfBytes c = leValue (c.take 8) :=
  foldl_or_shift hc

/-! ## `encrypt_dir_ver` and `decrypt_dir_ver` -/

variable (E)

/-- `dir_ver_iv(dir)`: `iv[ix] = dir[ix] ^ dir[ix + BLKSZ]` for `ix` in `0..8`, the other
eight bytes left zero. -/
def dirVerIv (dir : HashId) : Bytes :=
  (List.range 16).map fun ix =>
    if ix < 8 then dir.bytes.getD ix 0 ^^^ dir.bytes.getD (ix + 16) 0 else 0

/-- The 32 bytes of a buffer of `fill` bytes after a writer wrote `w` over its front (the
slice writer of `&mut buf[..]`; what is written into it here never passes its end). -/
def overBuffer (fill : UInt8) (w : Bytes) : HashId :=
  ⟨(w ++ List.replicate 32 fill).take 32, by simp⟩

/-- The cleartext of `encrypt_dir_ver`: the version's 8 little-endian bytes over 32 zero
bytes. -/
def verCleartext (ver : UInt64) : Bytes := verBytes 8 ver.toNat ++ List.replicate 24 0

/-- `encrypt_dir_ver(dir, ver, master)`: the `expect` panics on an error of `crypt_stream`. -/
def encryptDirVer (dir : HashId) (ver : UInt64) (master : HashId) : Except StreamError HashId :=
  match cryptStream (encryptPass E .none) true (.new (dirKey master) (dirVerIv dir)) Sink.vec
      (.ofBytes (verCleartext ver)) with
  | .ok res => .ok (overBuffer 0 res.written)
  | .error _ => .error .panic

/-- `decrypt_dir_ver(dir, ciphertext, master)`. The error of `crypt_stream` is ignored (none
can happen here: the reader and the writer never fail, and a decryptor error is written as
zeros). -/
def decryptDirVer (dir ciphertext master : HashId) : UInt64 :=
  let cleartext : HashId :=
    match cryptStream (decryptPass E .none) false (.new (dirKey master) (dirVerIv dir)) Sink.vec
        (.ofBytes ciphertext.bytes) with
    | .ok out => overBuffer 255 out.written
    | .error _ => overBuffer 255 []
  if (cleartext.bytes.drop 8).all (· == 0) then UInt64.ofNat (verOfBytes cleartext.bytes) else 0

variable {E}

@[simp] theorem length_dirVerIv (dir : HashId) : (dirVerIv dir).length = 16 := by
  simp [dirVerIv]

theorem overBuffer_bytes (fill : UInt8) {w : Bytes} (hw : w.length = 32) :
    (overBuffer fill w).bytes = w := List.take_left' hw

@[simp] theorem length_verCleartext (ver : UInt64) : (verCleartext ver).length = 32 := by
  simp [verCleartext]

theorem encryptDirVer_eq (dir : HashId) (ver : UInt64) (master : HashId) :
    encryptDirVer E dir ver master =
      .ok (overBuffer 0 (cbcEncrypt E (dirKey master) (dirVerIv dir) (verCleartext ver))) := by
  rw [encryptDirVer, show Sink.vec = ⟨[], []⟩ from rfl,
    cryptStream_eq (composes_encryptPass E .none) true (Source.reliable_ofBytes _)
      (show (CbcState.new (dirKey master) (dirVerIv dir)).chain.length = 16 from
        length_dirVerIv dir)
      (finish_encrypt_none _ _ (by simp))]
  rfl

theorem decryptDirVer_eq (dir c master : HashId) :
    decryptDirVer E dir c master =
      if ((cbcDecrypt E (dirKey master) (dirVerIv dir) c.bytes).drop 8).all (· == 0) then
        UInt64.ofNat (verOfBytes (cbcDecrypt E (dirKey master) (dirVerIv dir) c.bytes))
      else 0 := by
  have hlen : (cbcDecrypt E (dirKey master) (dirVerIv dir) c.bytes).length = 32 := by
    rw [length_cbcDecrypt _ (length_dirVerIv dir), c.length_bytes]
  rw [decryptDirVer, show Sink.vec = ⟨[], []⟩ from rfl,
    cryptStream_eq (composes_decryptPass E .none) false (Source.reliable_ofBytes _)
      (show (CbcState.new (dirKey master) (dirVerIv dir)).chain.length = 16 from
        length_dirVerIv dir)
      (finish_decrypt_none _ _ (by rw [Source.rest_ofBytes, c.length_bytes]))]
  simp only [List.nil_append, Source.rest_ofBytes, overBuffer_bytes _ hlen]

theorem UInt64.ofNat_toNat' (v : UInt64) : UInt64.ofNat v.toNat = v :=
  UInt64.toNat.inj (UInt64.toNat_ofNat_of_lt v.toNat_lt_size)

/-- Decrypting an encrypted version gives it back. -/
theorem decryptDirVer_encryptDirVer (dir master : HashId) (ver : UInt64) :
    decryptDirVer E dir
      (overBuffer 0 (cbcEncrypt E (dirKey master) (dirVerIv dir) (verCleartext ver))) master =
      ver := by
  have hlen : (cbcEncrypt E (dirKey master) (dirVerIv dir) (verCleartext ver)).length = 32 := by
    rw [length_cbcEncrypt _ (length_dirVerIv dir), length_verCleartext]
  have hval : leValue (verBytes 8 ver.toNat) = ver.toNat := by
    rw [leValue_verBytes]; exact Nat.mod_eq_of_lt ver.toNat_lt_size
  rw [decryptDirVer_eq, overBuffer_bytes _ hlen,
    cbcDecrypt_cbcEncrypt (length_dirVerIv dir) (by simp), verOfBytes_eq (by simp)]
  simp [verCleartext, hval, UInt64.ofNat_toNat']

/-- 32 bytes whose last 24 are zero are the cleartext of the version their first 8 decode
to. -/
theorem verCleartext_verOfBytes {x : Bytes} (hlen : x.length = 32)
    (hz : (x.drop 8).all (· == 0) = true) : verCleartext (UInt64.ofNat (verOfBytes x)) = x := by
  have h8 : (x.take 8).length = 8 := by simp [hlen]
  have hdrop : x.drop 8 = List.replicate 24 0 := by
    rw [List.eq_replicate_iff]
    simpa [hlen] using hz
  have hval : (UInt64.ofNat (verOfBytes x)).toNat = leValue (x.take 8) := by
    rw [verOfBytes_eq (by omega)]
    exact UInt64.toNat_ofNat_of_lt (by simpa only [h8] using leValue_lt (x.take 8))
  have hlow : verBytes 8 (leValue (x.take 8)) = x.take 8 := by
    simpa only [h8] using verBytes_leValue (x.take 8)
  rw [verCleartext, hval, hlow, ← hdrop, List.take_append_drop]

/-- 32 bytes that decrypt to a nonzero version are that version's encryption. -/
theorem encryptDirVer_decryptDirVer {dir master c : HashId}
    (h : decryptDirVer E dir c master ≠ 0) :
    encryptDirVer E dir (decryptDirVer E dir c master) master = .ok c := by
  have hlen : (cbcDecrypt E (dirKey master) (dirVerIv dir) c.bytes).length = 32 := by
    rw [length_cbcDecrypt _ (length_dirVerIv dir), c.length_bytes]
  rw [decryptDirVer_eq] at h ⊢
  split at h
  · rw [if_pos ‹_›, encryptDirVer_eq, verCleartext_verOfBytes hlen ‹_›,
      cbcEncrypt_cbcDecrypt (length_dirVerIv dir) (by rw [c.length_bytes])]
    exact congrArg Except.ok (HashId.ext (overBuffer_bytes _ c.length_bytes))
  · exact absurd rfl h

/-- The directory version cipher is a partial inverse pair: decryption inverts encryption,
32 bytes that decrypt to a nonzero version are that version's encryption, and every value
that is no version's encryption decrypts to 0. -/
theorem dirVer_partial_inverse (E : BlockCipher) (dir master : HashId) (ver : UInt64)
    (c : HashId) :
    (∃ c', encryptDirVer E dir ver master = .ok c' ∧ decryptDirVer E dir c' master = ver) ∧
    (decryptDirVer E dir c master ≠ 0 →
      encryptDirVer E dir (decryptDirVer E dir c master) master = .ok c) ∧
    ((∀ v, encryptDirVer E dir v master ≠ .ok c) → decryptDirVer E dir c master = 0) :=
  ⟨⟨_, encryptDirVer_eq dir ver master, decryptDirVer_encryptDirVer dir master ver⟩,
    encryptDirVer_decryptDirVer,
    fun h => Classical.byContradiction fun hne => h _ (encryptDirVer_decryptDirVer hne)⟩

/-! ## The IV -/

/-- The XOR of a directory id's two 16-byte halves. -/
def xorHalves (dir : HashId) : Bytes := xorBytes (dir.bytes.take 16) (dir.bytes.drop 16)

/-- `dir_ver_iv` is the first 8 bytes of the XOR of the id's halves, then 8 zeros. -/
theorem dirVerIv_eq (dir : HashId) :
    dirVerIv dir = (xorHalves dir).take 8 ++ List.replicate 8 0 := by
  have hd := dir.length_bytes
  apply List.ext_getElem (by simp [xorHalves, hd])
  intro i h₁ h₂
  simp only [length_dirVerIv] at h₁
  simp only [dirVerIv, List.getElem_map, List.getElem_range]
  by_cases hi : i < 8
  · have hx : i < (xorHalves dir).length := by simp [xorHalves, hd]; omega
    rw [if_pos hi, List.getElem_append_left (by simp; omega), List.getElem_take]
    simp [xorHalves, xorBytes, List.getD_eq_getElem?_getD, List.getElem?_eq_getElem, hd,
      show i < 32 by omega, show i + 16 < 32 by omega, Nat.add_comm]
  · rw [if_neg hi, List.getElem_append_right (by simp [xorHalves, hd]; omega),
      List.getElem_replicate]

/-- Two ids whose halves' XOR agree on its first 8 bytes share every encrypted version. -/
theorem encryptDirVer_eq_of_xorHalves {dir₁ dir₂ : HashId}
    (h : (xorHalves dir₁).take 8 = (xorHalves dir₂).take 8) (ver : UInt64) (master : HashId) :
    encryptDirVer E dir₁ ver master = encryptDirVer E dir₂ ver master := by
  rw [encryptDirVer, encryptDirVer, dirVerIv_eq, dirVerIv_eq, h]

/-- The all-zero id and the id whose one nonzero byte is byte 8 have halves whose XOR differ,
in its byte 8, yet they share every encrypted version: `dir_ver_iv` reads only the first 8
bytes of each half. -/
theorem encrypt_dir_ver_ignores_xor_tail (E : BlockCipher) (ver : UInt64) (master : HashId) :
    xorHalves HashId.zero ≠ xorHalves ⟨List.replicate 8 0 ++ 1 :: List.replicate 23 0, by simp⟩ ∧
    encryptDirVer E HashId.zero ver master =
      encryptDirVer E ⟨List.replicate 8 0 ++ 1 :: List.replicate 23 0, by simp⟩ ver master :=
  ⟨by decide, encryptDirVer_eq_of_xorHalves (by decide) ver master⟩

end Ensync.Cipher
