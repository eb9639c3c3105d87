import Ensync.Bytes

/-!
# AES-CBC and PKCS padding

The block modes of rust-crypto that `crypt.rs` uses: AES-128 in CBC mode, with PKCS
padding for objects and none for directories. AES-128 itself is a parameter, a keyed
permutation of 16-byte blocks (`BlockCipher`); the mode is built over it.

* `cbcDecrypt_cbcEncrypt` — CBC decryption inverts CBC encryption;
* `cbcEncrypt_append` — the CBC chaining identity: encrypting `a ++ b`, for `a` of whole
  blocks, is encrypting `a`, then `b` from the last ciphertext block of `a`; directory
  appends rest on it;
* `pkcsUnpad_pkcsPad` — stripping the PKCS padding gives the padded bytes back, and
  `pkcsUnpad_append` strips it from the last block alone.
-/

namespace Ensync.Cipher

/-- AES-128 as the block modes use it: a keyed permutation of 16-byte blocks. -/
structure BlockCipher where
  encrypt : Bytes → Bytes → Bytes
  decrypt : Bytes → Bytes → Bytes
  length_encrypt : ∀ key b, b.length = 16 → (encrypt key b).length = 16
  length_decrypt : ∀ key b, b.length = 16 → (decrypt key b).length = 16
  decrypt_encrypt : ∀ key b, b.length = 16 → decrypt key (encrypt key b) = b

/-- Bytewise XOR. -/
def xorBytes (a b : Bytes) : Bytes := List.zipWith (· ^^^ ·) a b

@[simp] theorem length_xorBytes (a b : Bytes) : (xorBytes a b).length = min a.length b.length :=
  List.length_zipWith _ _ _

theorem xorBytes_xorBytes {a b : Bytes} (h : a.length = b.length) : xorBytes a (xorBytes a b) = b :=
  zipWith_xor_cancel_left a b h

variable (E : BlockCipher) (key : Bytes)

/-- CBC encryption of the whole blocks of `d`, chained from `iv`. -/
def cbcEncrypt (iv d : Bytes) : Bytes :=
  if 16 ≤ d.length then
    E.encrypt key (xorBytes iv (d.take 16)) ++
      cbcEncrypt (E.encrypt key (xorBytes iv (d.take 16))) (d.drop 16)
  else []
termination_by d.length

/-- CBC decryption of the whole blocks of `d`, chained from `iv`. -/
def cbcDecrypt (iv d : Bytes) : Bytes :=
  if 16 ≤ d.length then
    xorBytes iv (E.decrypt key (d.take 16)) ++ cbcDecrypt (d.take 16) (d.drop 16)
  else []
termination_by d.length

/-- The chaining block after the ciphertext `c` from `iv`: its last block, or `iv` when
there is none. -/
def lastBlock (iv c : Bytes) : Bytes := if c = [] then iv else c.drop (c.length - 16)

variable {E key}

theorem cbcEncrypt_of_lt {iv d : Bytes} (h : d.length < 16) : cbcEncrypt E key iv d = [] := by
  rw [cbcEncrypt, if_neg (by omega)]

theorem cbcEncrypt_of_le {iv d : Bytes} (h : 16 ≤ d.length) :
    cbcEncrypt E key iv d = E.encrypt key (xorBytes iv (d.take 16)) ++
      cbcEncrypt E key (E.encrypt key (xorBytes iv (d.take 16))) (d.drop 16) := by
  rw [cbcEncrypt, if_pos h]

theorem cbcDecrypt_of_lt {iv d : Bytes} (h : d.length < 16) : cbcDecrypt E key iv d = [] := by
  rw [cbcDecrypt, if_neg (by omega)]

theorem cbcDecrypt_of_le {iv d : Bytes} (h : 16 ≤ d.length) :
    cbcDecrypt E key iv d =
      xorBytes iv (E.decrypt key (d.take 16)) ++ cbcDecrypt E key (d.take 16) (d.drop 16) := by
  rw [cbcDecrypt, if_pos h]

/-- The block a step of CBC encryption writes is 16 bytes, from a 16-byte chaining block. -/
theorem length_encrypt_xor {iv d : Bytes} (hiv : iv.length = 16) (h : 16 ≤ d.length) :
    (E.encrypt key (xorBytes iv (d.take 16))).length = 16 :=
  E.length_encrypt _ _ (by simp [hiv]; omega)

theorem length_cbcEncrypt {iv : Bytes} (d : Bytes) (hiv : iv.length = 16) :
    (cbcEncrypt E key iv d).length = 16 * (d.length / 16) := by
  induction iv, d using cbcEncrypt.induct E key with
  | case1 iv d h ih =>
    rw [cbcEncrypt_of_le h, List.length_append, length_encrypt_xor hiv h,
      ih (length_encrypt_xor hiv h), List.length_drop]
    omega
  | case2 iv d h => rw [cbcEncrypt_of_lt (by omega), List.length_nil]; omega

theorem length_cbcDecrypt {iv : Bytes} (d : Bytes) (hiv : iv.length = 16) :
    (cbcDecrypt E key iv d).length = 16 * (d.length / 16) := by
  induction iv, d using cbcDecrypt.induct E key with
  | case1 iv d h ih =>
    rw [cbcDecrypt_of_le h, List.length_append, length_xorBytes,
      E.length_decrypt _ _ (by simp; omega), ih (by simp; omega), List.length_drop]
    omega
  | case2 iv d h => rw [cbcDecrypt_of_lt (by omega), List.length_nil]; omega

/-- Decryption never lengthens its input, whatever the chaining block. -/
theorem length_cbcDecrypt_le (iv d : Bytes) : (cbcDecrypt E key iv d).length ≤ d.length := by
  induction iv, d using cbcDecrypt.induct E key with
  | case1 iv d h ih =>
    have hblock := E.length_decrypt key (d.take 16) (by simp; omega)
    rw [cbcDecrypt_of_le h, List.length_append, length_xorBytes, hblock]
    simp only [List.length_drop] at ih
    omega
  | case2 iv d h => rw [cbcDecrypt_of_lt (by omega)]; exact Nat.zero_le _

theorem lastBlock_append {iv c x : Bytes} (hc : c.length = 16) (hx : x.length % 16 = 0) :
    lastBlock iv (c ++ x) = lastBlock c x := by
  have hcne : c ≠ [] := List.ne_nil_of_length_pos (by omega)
  unfold lastBlock
  by_cases h : x = []
  · subst h
    simp [hcne, hc]
  · have : 16 ≤ x.length := by have := List.length_pos.mpr h; omega
    rw [if_neg (by simp [hcne]), if_neg h, List.drop_append_eq_append_drop,
      List.drop_eq_nil_of_le (by simp; omega), List.nil_append]
    congr 1
    simp [hc]

theorem length_lastBlock {iv c : Bytes} (hiv : iv.length = 16) (hc : c.length % 16 = 0) :
    (lastBlock iv c).length = 16 := by
  unfold lastBlock
  split
  · exact hiv
  · have : c.length ≠ 0 := by simpa [List.length_eq_zero]
    simp only [List.length_drop]
    omega

/-- The CBC chaining identity: encrypting `a ++ b`, for `a` of whole blocks, is encrypting
`a`, then `b` from the last ciphertext block of `a`. -/
theorem cbcEncrypt_append {iv a : Bytes} (b : Bytes) (hiv : iv.length = 16)
    (ha : a.length % 16 = 0) :
    cbcEncrypt E key iv (a ++ b) =
      cbcEncrypt E key iv a ++ cbcEncrypt E key (lastBlock iv (cbcEncrypt E key iv a)) b := by
  induction iv, a using cbcEncrypt.induct E key with
  | case1 iv a h ih =>
    have hc : (E.encrypt key (xorBytes iv (a.take 16))).length = 16 := length_encrypt_xor hiv h
    rw [cbcEncrypt_of_le (by simp; omega), cbcEncrypt_of_le h, List.take_append_of_le_length h,
      List.drop_append_of_le_length h, ih hc (by simp; omega), List.append_assoc,
      lastBlock_append hc (by rw [length_cbcEncrypt _ hc]; omega)]
  | case2 iv a h =>
    have : a = [] := List.eq_nil_of_length_eq_zero (by omega)
    subst this
    simp [cbcEncrypt_of_lt, lastBlock]

/-- The decryption counterpart: the chaining block is the last ciphertext block of `a`. -/
theorem cbcDecrypt_append {iv a : Bytes} (b : Bytes) (ha : a.length % 16 = 0) :
    cbcDecrypt E key iv (a ++ b) =
      cbcDecrypt E key iv a ++ cbcDecrypt E key (lastBlock iv a) b := by
  induction iv, a using cbcDecrypt.induct E key with
  | case1 iv a h ih =>
    have hl : lastBlock iv a = lastBlock (a.take 16) (a.drop 16) := by
      conv_lhs => rw [← List.take_append_drop 16 a]
      exact lastBlock_append (by simp; omega) (by simp; omega)
    rw [cbcDecrypt_of_le (by simp; omega), cbcDecrypt_of_le h, List.take_append_of_le_length h,
      List.drop_append_of_le_length h, ih (by simp; omega), List.append_assoc, hl]
  | case2 iv a h =>
    have : a = [] := List.eq_nil_of_length_eq_zero (by omega)
    subst this
    simp [cbcDecrypt_of_lt, lastBlock]

/-- CBC decryption inverts CBC encryption on whole blocks. -/
theorem cbcDecrypt_cbcEncrypt {iv d : Bytes} (hiv : iv.length = 16) (hd : d.length % 16 = 0) :
    cbcDecrypt E key iv (cbcEncrypt E key iv d) = d := by
  induction iv, d using cbcEncrypt.induct E key with
  | case1 iv d h ih =>
    have hc : (E.encrypt key (xorBytes iv (d.take 16))).length = 16 := length_encrypt_xor hiv h
    have hlen : (cbcEncrypt E key (E.encrypt key (xorBytes iv (d.take 16))) (d.drop 16)).length =
        16 * ((d.drop 16).length / 16) := length_cbcEncrypt _ hc
    rw [cbcEncrypt_of_le h, cbcDecrypt_of_le (by simp; omega),
      List.take_append_of_le_length (by omega), List.take_of_length_le (by omega),
      List.drop_append_of_le_length (by omega), List.drop_of_length_le (by omega), List.nil_append,
      ih hc (by simp; omega), E.decrypt_encrypt _ _ (by simp [hiv]; omega),
      xorBytes_xorBytes (by simp [hiv]; omega), List.take_append_drop]
  | case2 iv d h =>
    have : d = [] := List.eq_nil_of_length_eq_zero (by omega)
    subst this
    rw [cbcEncrypt_of_lt (by simp), cbcDecrypt_of_lt (by simp)]

/-! ## PKCS padding -/

/-- `PkcsPadding::pad_input`: `n` bytes of value `n`, where `n = 16 - len % 16`. -/
def pkcsPad (d : Bytes) : Bytes :=
  d ++ List.replicate (16 - d.length % 16) (UInt8.ofNat (16 - d.length % 16))

/-- `PkcsPadding::strip_output`, as PKCS#7: the last byte `n` must be 1 to 16 and the last `n`
bytes must all be `n`; they are dropped. -/
def pkcsUnpad (d : Bytes) : Option Bytes :=
  match d.getLast? with
  | none => none
  | some p =>
    if 0 < p.toNat ∧ p.toNat ≤ 16 ∧ p.toNat ≤ d.length ∧
        d.drop (d.length - p.toNat) = List.replicate p.toNat p then
      some (d.take (d.length - p.toNat))
    else none

/-- Stripping the padding never lengthens. -/
theorem length_pkcsUnpad_le {d p : Bytes} (h : pkcsUnpad d = some p) : p.length ≤ d.length := by
  unfold pkcsUnpad at h
  split at h
  · cases h
  · split at h
    · cases h; simp
    · cases h

theorem length_pkcsPad (d : Bytes) : (pkcsPad d).length % 16 = 0 := by
  simp only [pkcsPad, List.length_append, List.length_replicate]
  omega

theorem pkcsPad_append {a : Bytes} (b : Bytes) (ha : a.length % 16 = 0) :
    pkcsPad (a ++ b) = a ++ pkcsPad b := by
  have : (a.length + b.length) % 16 = b.length % 16 := by omega
  simp [pkcsPad, this]

theorem pkcsUnpad_pkcsPad (d : Bytes) : pkcsUnpad (pkcsPad d) = some d := by
  have hn : 0 < 16 - d.length % 16 ∧ 16 - d.length % 16 ≤ 16 := by omega
  have hv : (UInt8.ofNat (16 - d.length % 16)).toNat = 16 - d.length % 16 := by
    exact UInt8.toNat_ofNat_of_lt (by simp [UInt8.size]; omega)
  have hl : (pkcsPad d).getLast? = some (UInt8.ofNat (16 - d.length % 16)) := by
    rw [pkcsPad, List.getLast?_append, List.getLast?_replicate]
    simp [show 16 - d.length % 16 ≠ 0 by omega]
  simp only [pkcsUnpad, hl, hv]
  have hlen : (pkcsPad d).length - (16 - d.length % 16) = d.length := by
    simp [pkcsPad]
  rw [if_pos ⟨hn.1, hn.2, by simp [pkcsPad], by rw [hlen, pkcsPad, List.drop_left]⟩, hlen,
    pkcsPad, List.take_left]

/-- The padding lies in the last block: stripping it from `x ++ y`, for `y` of a block or
more, strips it from `y`. -/
theorem pkcsUnpad_append (x : Bytes) {y : Bytes} (hy : 16 ≤ y.length) :
    pkcsUnpad (x ++ y) = (pkcsUnpad y).map (x ++ ·) := by
  have hne : y ≠ [] := List.ne_nil_of_length_pos (by omega)
  obtain ⟨p, hp⟩ := Option.isSome_iff_exists.mp (List.getLast?_isSome.mpr hne)
  have hl : (x ++ y).getLast? = some p := by rw [List.getLast?_append, hp]; rfl
  simp only [pkcsUnpad, hl, hp]
  by_cases hc : 0 < p.toNat ∧ p.toNat ≤ 16
  · have hd : (x ++ y).drop (x.length + y.length - p.toNat) = y.drop (y.length - p.toNat) := by
      rw [List.drop_append_eq_append_drop, List.drop_eq_nil_of_le (by omega), List.nil_append]
      congr 1
      omega
    have ht : (x ++ y).take (x.length + y.length - p.toNat) = x ++ y.take (y.length - p.toNat) := by
      rw [List.take_append_eq_append_take, List.take_of_length_le (by omega)]
      congr 2
      omega
    simp only [List.length_append, hd, ht, hc, true_and,
      show p.toNat ≤ x.length + y.length from by omega, show p.toNat ≤ y.length from by omega]
    by_cases h : y.drop (y.length - p.toNat) = List.replicate p.toNat p <;> simp [h]
  · rw [if_neg fun h => hc ⟨h.1, h.2.1⟩, if_neg fun h => hc ⟨h.1, h.2.1⟩, Option.map_none']

end Ensync.Cipher
