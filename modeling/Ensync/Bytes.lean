import Mathlib.Data.List.Basic
import Mathlib.Algebra.Group.Int
import Mathlib.Algebra.Order.Ring.Nat

/-!
# Bytes, hash identifiers and the hash primitives

`HashId` is the 32-byte identifier of `defs.rs`, used for block HMACs, salts,
derived keys, master keys and directory versions. `hixor` is the bytewise XOR
of `crypt.rs`, the one-time-pad wrap of the key layer; `hixor_hixor_cancel` is
the unwrap law every key-derivation result rests on.

The hash and key-derivation functions come from crates (`keccak`,
`rust_crypto::scrypt`) and are parameters of the model, collected in
`Primitives`. Keccak is used through `update`/`finalize`, so a context fed
`update(a); update(b)` finalizes to `sha3 (a ++ b)`.
-/

namespace Ensync

/-- A byte string. -/
abbrev Bytes := List UInt8

/-- `HashId`: 32 opaque bytes. -/
structure HashId where
  bytes : Bytes
  length_bytes : bytes.length = 32
  deriving DecidableEq

theorem HashId.ext {a b : HashId} (h : a.bytes = b.bytes) : a = b := by
  cases a; cases b; cases h; rfl

/-- `HashId::default()`: 32 zero bytes. -/
def HashId.zero : HashId := ⟨List.replicate 32 0, List.length_replicate 32 0⟩

theorem UInt8.xor_cancel_left (a b : UInt8) : a ^^^ (a ^^^ b) = b := by
  cases a; cases b
  show UInt8.mk (_ ^^^ (_ ^^^ _)) = _
  rw [← BitVec.xor_assoc, BitVec.xor_self, BitVec.zero_xor]

/-- `hixor`: the bytewise XOR of two hashes. -/
def hixor (a b : HashId) : HashId :=
  ⟨List.zipWith (· ^^^ ·) a.bytes b.bytes, by simp [a.length_bytes, b.length_bytes]⟩

theorem zipWith_xor_cancel_left :
    ∀ (a b : Bytes), a.length = b.length →
      List.zipWith (· ^^^ ·) a (List.zipWith (· ^^^ ·) a b) = b
  | [], [], _ => rfl
  | x :: a, y :: b, h => by
    simp only [List.zipWith_cons_cons, UInt8.xor_cancel_left, List.cons.injEq, true_and]
    exact zipWith_xor_cancel_left a b (by simpa using h)

/-- Unwrapping a one-time-pad wrap with the same pad gives the wrapped value back. -/
@[simp] theorem hixor_hixor_cancel (a b : HashId) : hixor a (hixor a b) = b := by
  cases b
  simp only [hixor, HashId.mk.injEq]
  exact zipWith_xor_cancel_left _ _ (by simp [*, a.length_bytes])

/-! ## Fallible results -/

theorem bind_eq_ok {ε α β : Type} {x : Except ε α} {f : α → Except ε β} {b : β} :
    x >>= f = .ok b ↔ ∃ a, x = .ok a ∧ f a = .ok b := by
  cases x <;> simp [bind, Except.bind]

theorem map_eq_ok {ε α β : Type} {x : Except ε α} {f : α → β} {b : β} :
    x.map f = .ok b ↔ ∃ a, x = .ok a ∧ f a = b := by
  cases x <;> simp [Except.map]

theorem mapError_eq_ok {ε ε' α : Type} {x : Except ε α} {f : ε → ε'} {a : α} :
    x.mapError f = .ok a ↔ x = .ok a := by
  cases x <;> simp [Except.mapError]

/-- The primitives the program takes from its crates: Keccak SHA-3-256 over a
byte string, and `scrypt_18_8_1(passphrase, salt)` (scrypt at N = 2^18, r = 8,
p = 1, a 32-byte output). -/
structure Primitives where
  sha3 : Bytes → HashId
  scrypt : Bytes → HashId → HashId

/-- Primitives to evaluate the model with: SHA-3 is the identity on 32-byte inputs, and
scrypt returns the salt. -/
def Primitives.plain : Primitives where
  sha3 b := if h : b.length = 32 then ⟨b, h⟩ else HashId.zero
  scrypt _ salt := salt

/-- The plain SHA-3 is injective on 32-byte inputs, as the key-store proofs assume of SHA-3. -/
theorem Primitives.plain_sha3_injective (a b : HashId) :
    plain.sha3 a.bytes = plain.sha3 b.bytes → a = b := by
  obtain ⟨a, ha⟩ := a
  obtain ⟨b, hb⟩ := b
  simp [plain, ha, hb]

end Ensync
