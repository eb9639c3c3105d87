import Mathlib.Algebra.BigOperators.Group.List
import Ensync.BTreeMap
import Ensync.Bytes

/-!
# Fourleaf values

`get_kdflist` and `put_kdflist` hand the KDF list to the `fourleaf` crate, which is
not part of this repository. Its encoding is modelled at the level of its values:
integers, blobs (byte strings and text), structs of tagged fields and collections;
the byte layer under the values is taken to be lossless. The decoder checks the two
limits of `DeConfig`: `max_blob` where it reads a blob, and `max_collect` as one budget
for the whole decode, each item of every collection charged to it as it is read.

* `Inverts` — a decoder reads back what its encoder wrote, charging the value's items to
  the budget, exactly when the value fits the limits and the budget covers its items, and
  never reads back anything else;
* `inverts_text`, `inverts_hashId`, `inverts_i64`, `inverts_u32`, `inverts_map` — the
  decoders of the types the KDF list is built from.
-/

namespace Ensync.Fourleaf

/-- A fourleaf value. -/
inductive Value
  | int (v : Int)
  | blob (b : Bytes)
  | text (s : String)
  | struct (fields : List (Nat × Value))
  | coll (items : List Value)

/-- `fourleaf::DeConfig`: the longest blob, and the most collection items, the decoder
accepts. -/
structure DeConfig where
  maxBlob : Nat
  maxCollect : Nat

/-- `fourleaf::de::Error`, the kinds the model raises. -/
inductive DeError
  | blobTooBig
  | tooManyItems
  | missingField (tag : Nat)
  | invalidValue
  | typeMismatch

/-- A decoder of one Rust type, from the collection items the decode may still read to what
it may read after. -/
abbrev Decoder (α : Type) := DeConfig → Value → Nat → Except DeError (α × Nat)

/-- `dec` reads back from what `enc` wrote the value written, charging `size` of it to the
budget, exactly when `fits` holds of it and the budget covers its size; and nothing else. -/
def Inverts {α : Type} (dec : Decoder α) (enc : α → Value) (fits : DeConfig → α → Prop)
    (size : α → Nat) : Prop :=
  ∀ cfg a n r, dec cfg (enc a) n = .ok r ↔ r = (a, n - size a) ∧ fits cfg a ∧ size a ≤ n

theorem Inverts.of_size_eq {α : Type} {dec : Decoder α} {enc : α → Value}
    {fits : DeConfig → α → Prop} {size size' : α → Nat} (h : Inverts dec enc fits size)
    (hs : ∀ a, size a = size' a) : Inverts dec enc fits size' := by
  intro cfg a n r
  rw [h, hs]

theorem ite_eq_ok {ε α : Type} {c : Prop} [Decidable c] {a r : α} {e : ε} :
    (if c then (.ok a : Except ε α) else .error e) = .ok r ↔ r = a ∧ c := by
  split_ifs with h <;> simp [h, eq_comm]

/-! ## Scalars and blobs -/

/-- A decoder of a value holding no collection: it leaves the budget as it is. -/
def leaf {α : Type} (dec : DeConfig → Value → Except DeError α) : Decoder α :=
  fun cfg v n => (dec cfg v).map (·, n)

theorem inverts_leaf {α : Type} {dec : DeConfig → Value → Except DeError α}
    {enc : α → Value} {fits : DeConfig → α → Prop}
    (h : ∀ cfg a r, dec cfg (enc a) = .ok r ↔ r = a ∧ fits cfg a) :
    Inverts (leaf dec) enc fits fun _ => 0 := by
  intro cfg a n r
  simp only [leaf, map_eq_ok, h, Nat.sub_zero, Nat.zero_le, and_true]
  constructor
  · rintro ⟨_, ⟨rfl, hf⟩, rfl⟩; exact ⟨rfl, hf⟩
  · rintro ⟨rfl, hf⟩; exact ⟨a, ⟨rfl, hf⟩, rfl⟩

/-- A `String`: a blob of its UTF-8 bytes. -/
def decodeText : Decoder String := leaf fun cfg v =>
  match v with
  | .text s => if s.utf8ByteSize ≤ cfg.maxBlob then .ok s else .error .blobTooBig
  | _ => .error .typeMismatch

/-- A `HashId`: a blob of 32 bytes. -/
def encodeHashId (h : HashId) : Value := .blob h.bytes

def decodeHashId : Decoder HashId := leaf fun cfg v =>
  match v with
  | .blob b =>
    if b.length ≤ cfg.maxBlob then
      if h : b.length = 32 then .ok ⟨b, h⟩ else .error .invalidValue
    else .error .blobTooBig
  | _ => .error .typeMismatch

/-- An `i64`. -/
def decodeI64 : Decoder Int := leaf fun _ v =>
  match v with
  | .int v => if -2 ^ 63 ≤ v ∧ v < 2 ^ 63 then .ok v else .error .invalidValue
  | _ => .error .typeMismatch

/-- A `u32`. -/
def decodeU32 : Decoder Nat := leaf fun _ v =>
  match v with
  | .int v => if 0 ≤ v ∧ v < 2 ^ 32 then .ok v.toNat else .error .invalidValue
  | _ => .error .typeMismatch

theorem inverts_text :
    Inverts decodeText .text (fun cfg s => s.utf8ByteSize ≤ cfg.maxBlob) fun _ => 0 :=
  inverts_leaf fun cfg s r => by
    by_cases h : s.utf8ByteSize ≤ cfg.maxBlob <;> simp [h, eq_comm]

theorem inverts_hashId :
    Inverts decodeHashId encodeHashId (fun cfg _ => 32 ≤ cfg.maxBlob) fun _ => 0 :=
  inverts_leaf fun cfg ⟨b, hb⟩ r => by
    by_cases h : 32 ≤ cfg.maxBlob <;> simp [encodeHashId, hb, h, eq_comm]

theorem inverts_i64 : Inverts decodeI64 .int (fun _ v => -2 ^ 63 ≤ v ∧ v < 2 ^ 63) fun _ => 0 :=
  inverts_leaf fun _ _ _ => ite_eq_ok

theorem inverts_u32 : Inverts decodeU32 (fun n => .int n) (fun _ n => n < 2 ^ 32) fun _ => 0 :=
  inverts_leaf fun cfg n r => by
    simp only [ite_eq_ok, Int.toNat_natCast]
    constructor <;> rintro ⟨rfl, h⟩ <;> exact ⟨rfl, by omega⟩

/-! ## Structs -/

/-- A field a struct must have. -/
def readField {α : Type} (dec : Decoder α) (cfg : DeConfig) (fields : List (Nat × Value))
    (tag : Nat) (n : Nat) : Except DeError (α × Nat) :=
  match fields.lookup tag with
  | some v => dec cfg v n
  | none => .error (.missingField tag)

/-- A field of an `Option` type: `None` when absent. -/
def readOptional {α : Type} (dec : Decoder α) (cfg : DeConfig) (fields : List (Nat × Value))
    (tag : Nat) (n : Nat) : Except DeError (Option α × Nat) :=
  match fields.lookup tag with
  | some v => (dec cfg v n).map fun (a, n) => (some a, n)
  | none => .ok (none, n)

/-- The fields an `Option` writes: none for `None`. -/
def writeOptional {α : Type} (tag : Nat) (enc : α → Value) : Option α → List (Nat × Value)
  | some a => [(tag, enc a)]
  | none => []

theorem readField_of_lookup {α : Type} {dec : Decoder α} {cfg : DeConfig}
    {fields : List (Nat × Value)} {tag : Nat} {v : Value} (h : fields.lookup tag = some v) :
    readField dec cfg fields tag = dec cfg v := by
  funext n
  simp [readField, h]

/-- An optional field reads back when its value does, charging nothing when absent. -/
theorem readOptional_inverts {α : Type} {dec : Decoder α} {enc : α → Value}
    {fits : DeConfig → α → Prop} (h : Inverts dec enc fits fun _ => 0) (cfg : DeConfig)
    (tag : Nat) (a : Option α) {fields : List (Nat × Value)} (hf : fields.lookup tag = a.map enc)
    (n : Nat) (r : Option α × Nat) :
    readOptional dec cfg fields tag n = .ok r ↔
      r = (a, n) ∧ ∀ x, a = some x → fits cfg x := by
  cases a with
  | none => simp [readOptional, hf, eq_comm]
  | some x =>
    simp only [readOptional, hf, Option.map_some', map_eq_ok, h cfg, Nat.sub_zero, Nat.zero_le,
      and_true, Option.some.injEq, forall_eq']
    constructor
    · rintro ⟨_, ⟨rfl, hx⟩, rfl⟩; exact ⟨rfl, hx⟩
    · rintro ⟨rfl, hx⟩; exact ⟨_, ⟨rfl, hx⟩, rfl⟩

/-! ## Maps -/

section Map

variable {κ α β : Type}

/-- A pair of a map, as a struct of its key and its value. -/
def encodePair (encK : κ → Value) (encV : α → Value) (p : κ × α) : Value :=
  .struct [(1, encK p.1), (2, encV p.2)]

def decodePair (decK : Decoder κ) (decV : Decoder α) : Decoder (κ × α)
  | cfg, .struct fields, n => do
    let (k, n) ← readField decK cfg fields 1 n
    let (v, n) ← readField decV cfg fields 2 n
    pure ((k, v), n)
  | _, _, _ => .error .typeMismatch

/-- The items of a collection, each charged to the budget as it is read, then decoded with
what is left. -/
def decodeItems (dec : Decoder β) (cfg : DeConfig) :
    List Value → Nat → Except DeError (List β × Nat)
  | [], n => .ok ([], n)
  | _ :: _, 0 => .error .tooManyItems
  | v :: vs, n + 1 => do
    let (b, n) ← dec cfg v n
    let (bs, n) ← decodeItems dec cfg vs n
    pure (b :: bs, n)

/-- A `BTreeMap`: the collection of its pairs in key order. -/
def encodeMap [LinearOrder κ] (encK : κ → Value) (encV : α → Value) (m : BTreeMap κ α) :
    Value :=
  .coll (m.toList.map (encodePair encK encV))

/-- A `BTreeMap`, collected from its pairs. -/
def decodeMap [LinearOrder κ] (decK : Decoder κ) (decV : Decoder α) : Decoder (BTreeMap κ α)
  | cfg, .coll items, n =>
    (decodeItems (decodePair decK decV) cfg items n).map fun (ps, n) => (BTreeMap.ofList ps, n)
  | _, _, _ => .error .typeMismatch

/-- A map fits when each key and value does. -/
def fitsMap [LinearOrder κ] (fitsK : DeConfig → κ → Prop) (fitsV : DeConfig → α → Prop)
    (cfg : DeConfig) (m : BTreeMap κ α) : Prop :=
  ∀ k v, m.get? k = some v → fitsK cfg k ∧ fitsV cfg v

/-- The items a map charges: one per entry, and those of its keys and values. -/
def sizeMap [LinearOrder κ] (sizeK : κ → Nat) (sizeV : α → Nat) (m : BTreeMap κ α) : Nat :=
  m.len + (m.toList.map fun p => sizeK p.1 + sizeV p.2).sum

variable {decK : Decoder κ} {encK : κ → Value} {fitsK : DeConfig → κ → Prop}
  {sizeK : κ → Nat}
  {decV : Decoder α} {encV : α → Value} {fitsV : DeConfig → α → Prop} {sizeV : α → Nat}

theorem inverts_pair (hK : Inverts decK encK fitsK sizeK) (hV : Inverts decV encV fitsV sizeV) :
    Inverts (decodePair decK decV) (encodePair encK encV)
      (fun cfg p => fitsK cfg p.1 ∧ fitsV cfg p.2) fun p => sizeK p.1 + sizeV p.2 := by
  rintro cfg ⟨k, v⟩ n r
  simp only [decodePair, encodePair, readField, List.lookup_cons, List.lookup_nil,
    beq_self_eq_true, show ((2 : Nat) == 1) = false from rfl, bind_eq_ok, hK cfg, hV cfg]
  constructor
  · rintro ⟨_, ⟨rfl, hk, hkn⟩, _, ⟨rfl, hv, hvn⟩, h⟩
    exact ⟨by rw [← (Except.ok.inj h)]; simp only [Prod.mk.injEq, true_and]; omega,
      ⟨hk, hv⟩, by omega⟩
  · rintro ⟨rfl, ⟨hk, hv⟩, hn⟩
    exact ⟨_, ⟨rfl, hk, by omega⟩, _, ⟨rfl, hv, by omega⟩,
      by simp only [pure, Except.pure]; congr 2; omega⟩

theorem decodeItems_inverts {dec : Decoder β} {enc : β → Value}
    {fits : DeConfig → β → Prop} {size : β → Nat} (h : Inverts dec enc fits size) (cfg : DeConfig) :
    ∀ (l : List β) n r, decodeItems dec cfg (l.map enc) n = .ok r ↔
      r = (l, n - (l.length + (l.map size).sum)) ∧ (∀ a ∈ l, fits cfg a) ∧
        l.length + (l.map size).sum ≤ n
  | [], n, r => by simp [decodeItems, eq_comm]
  | a :: l, 0, r => by simp [decodeItems]
  | a :: l, n + 1, r => by
    simp only [List.map_cons, decodeItems, bind_eq_ok, h cfg, decodeItems_inverts h cfg l,
      List.forall_mem_cons, List.length_cons, List.sum_cons]
    constructor
    · rintro ⟨_, ⟨rfl, ha, han⟩, _, ⟨rfl, hl, hln⟩, hr⟩
      exact ⟨by rw [← Except.ok.inj hr]; simp only [Prod.mk.injEq, true_and]; omega,
        ⟨ha, hl⟩, by omega⟩
    · rintro ⟨rfl, ⟨ha, hl⟩, hn⟩
      exact ⟨_, ⟨rfl, ha, by omega⟩, _, ⟨rfl, hl, by omega⟩,
        by simp only [pure, Except.pure]; congr 2; omega⟩

theorem mem_toList [LinearOrder κ] {m : BTreeMap κ α} {k : κ} {v : α} :
    (k, v) ∈ m.toList ↔ m.get? k = some v := by
  simp [BTreeMap.toList, BTreeMap.get?_eq_some_iff_mem]

theorem inverts_map [LinearOrder κ] (hK : Inverts decK encK fitsK sizeK)
    (hV : Inverts decV encV fitsV sizeV) :
    Inverts (decodeMap decK decV) (encodeMap encK encV) (fitsMap fitsK fitsV)
      (sizeMap sizeK sizeV) := by
  intro cfg m n r
  have hlen : m.toList.length = m.len := by simp [BTreeMap.toList, BTreeMap.len]
  simp only [decodeMap, encodeMap, map_eq_ok, decodeItems_inverts (inverts_pair hK hV) cfg,
    fitsMap, sizeMap, hlen]
  constructor
  · rintro ⟨_, ⟨rfl, hf, hn⟩, rfl⟩
    exact ⟨by rw [BTreeMap.ofList_toList], fun k v hkv => hf (k, v) (mem_toList.mpr hkv), hn⟩
  · rintro ⟨rfl, hf, hn⟩
    exact ⟨_, ⟨rfl, fun p hp => hf p.1 p.2 (mem_toList.mp hp), hn⟩,
      by rw [BTreeMap.ofList_toList]⟩

end Map

/-! ## A lossless byte layer

The theorems about the stored list hold for any byte layer that reads back what it writes
(`KeyMgmt.Wire`). fourleaf's own layout is not in this repository; this one shows such a
layer exists: a tag per kind of value, then its contents, naturals as LEB128 and integers
zigzag-encoded. The decoder is given as fuel the length of its input, which bounds the
nesting. -/

/-- A natural as LEB128: seven bits a byte, the low ones first, the high bit set on all but
the last byte. -/
def encodeNat (n : Nat) : Bytes :=
  if n < 128 then [UInt8.ofNat n] else UInt8.ofNat (n % 128 + 128) :: encodeNat (n / 128)
termination_by n
decreasing_by omega

def decodeNat : Bytes → Option (Nat × Bytes)
  | [] => none
  | b :: bs =>
    if b.toNat < 128 then some (b.toNat, bs)
    else (decodeNat bs).map fun (n, r) => (b.toNat - 128 + 128 * n, r)

theorem decodeNat_encodeNat (n : Nat) (rest : Bytes) :
    decodeNat (encodeNat n ++ rest) = some (n, rest) := by
  induction n using Nat.strong_induction_on with
  | _ n ih =>
  rw [encodeNat]
  split_ifs with h
  · have hb : (UInt8.ofNat n).toNat = n := UInt8.toNat_ofNat_of_lt (by simp [UInt8.size]; omega)
    simp [decodeNat, hb, h]
  · have hb : (UInt8.ofNat (n % 128 + 128)).toNat = n % 128 + 128 :=
      UInt8.toNat_ofNat_of_lt (by simp [UInt8.size]; omega)
    rw [List.cons_append, decodeNat, hb, if_neg (by omega), ih (n / 128) (by omega),
      Option.map_some', Option.some.injEq]
    dsimp only
    congr 1
    omega

theorem encodeNat_ne_nil (n : Nat) : encodeNat n ≠ [] := by
  rw [encodeNat]; split_ifs <;> simp

/-- An integer, zigzag: `2v` for `v ≥ 0`, `-2v - 1` below. -/
def encodeInt (v : Int) : Bytes :=
  encodeNat (if 0 ≤ v then 2 * v.toNat else 2 * (-v).toNat - 1)

def decodeInt (bs : Bytes) : Option (Int × Bytes) :=
  (decodeNat bs).map fun (n, r) =>
    (if n % 2 = 0 then ((n / 2 : Nat) : Int) else -((n + 1) / 2 : Nat), r)

theorem decodeInt_encodeInt (v : Int) (rest : Bytes) :
    decodeInt (encodeInt v ++ rest) = some (v, rest) := by
  simp only [decodeInt, encodeInt, decodeNat_encodeNat, Option.map_some', Option.some.injEq,
    Prod.mk.injEq, and_true]
  split_ifs <;> omega

/-- The items of a list, decoded one after another, `n` of them. -/
def decodeMany {β : Type} (dec : Bytes → Option (β × Bytes)) :
    Nat → Bytes → Option (List β × Bytes)
  | 0, bs => some ([], bs)
  | n + 1, bs => do
    let (b, bs) ← dec bs
    let (r, bs) ← decodeMany dec n bs
    pure (b :: r, bs)

theorem decodeMany_flatten {β : Type} {dec : Bytes → Option (β × Bytes)} {enc : β → Bytes} :
    ∀ l : List β, (∀ a ∈ l, ∀ rest, dec (enc a ++ rest) = some (a, rest)) → ∀ rest,
      decodeMany dec l.length ((l.map enc).flatten ++ rest) = some (l, rest)
  | [], _, rest => rfl
  | a :: l, h, rest => by
    simp [decodeMany, h a (List.mem_cons_self a l),
      decodeMany_flatten l (fun b hb => h b (List.mem_cons_of_mem a hb))]

def decodeChar (bs : Bytes) : Option (Char × Bytes) :=
  (decodeNat bs).map fun (n, r) => (Char.ofNat n, r)

mutual
/-- The bytes of a value: its kind, then its contents. -/
def Value.encode : Value → Bytes
  | .int v => encodeNat 0 ++ encodeInt v
  | .blob b => encodeNat 1 ++ encodeNat b.length ++ b
  | .text s => encodeNat 2 ++ encodeNat s.data.length ++ (s.data.map (encodeNat ·.toNat)).flatten
  | .struct fields => encodeNat 3 ++ encodeNat fields.length ++ encodeFields fields
  | .coll items => encodeNat 4 ++ encodeNat items.length ++ encodeItems items

def encodeFields : List (Nat × Value) → Bytes
  | [] => []
  | (t, v) :: fs => encodeNat t ++ v.encode ++ encodeFields fs

def encodeItems : List Value → Bytes
  | [] => []
  | v :: vs => v.encode ++ encodeItems vs
end

theorem encodeFields_eq : ∀ fs : List (Nat × Value),
    encodeFields fs = (fs.map fun f => encodeNat f.1 ++ f.2.encode).flatten
  | [] => rfl
  | (t, v) :: fs => by rw [encodeFields, encodeFields_eq fs]; simp

theorem encodeItems_eq : ∀ vs : List Value, encodeItems vs = (vs.map Value.encode).flatten
  | [] => rfl
  | v :: vs => by rw [encodeItems, encodeItems_eq vs]; simp

theorem length_le_encodeFields {t : Nat} {v : Value} :
    ∀ {fs : List (Nat × Value)}, (t, v) ∈ fs → v.encode.length ≤ (encodeFields fs).length
  | f :: fs, h => by
    rw [encodeFields]
    rcases List.mem_cons.mp h with rfl | h
    · simp only [List.length_append]; omega
    · have := length_le_encodeFields h; simp only [List.length_append]; omega

theorem length_le_encodeItems {v : Value} :
    ∀ {vs : List Value}, v ∈ vs → v.encode.length ≤ (encodeItems vs).length
  | w :: vs, h => by
    rw [encodeItems]
    rcases List.mem_cons.mp h with rfl | h
    · simp
    · have := length_le_encodeItems h; simp only [List.length_append]; omega

/-- A value read back with `fuel` levels of nesting at most. -/
def decodeValue : Nat → Bytes → Option (Value × Bytes)
  | 0, _ => none
  | fuel + 1, bs => do
    let (kind, bs) ← decodeNat bs
    match kind with
    | 0 => (decodeInt bs).map fun (v, r) => (.int v, r)
    | 1 => do
      let (n, bs) ← decodeNat bs
      if n ≤ bs.length then some (.blob (bs.take n), bs.drop n) else none
    | 2 => do
      let (n, bs) ← decodeNat bs
      let (cs, bs) ← decodeMany decodeChar n bs
      pure (.text ⟨cs⟩, bs)
    | 3 => do
      let (n, bs) ← decodeNat bs
      let (fs, bs) ← decodeMany (fun bs => do
        let (t, bs) ← decodeNat bs
        let (v, bs) ← decodeValue fuel bs
        pure ((t, v), bs)) n bs
      pure (.struct fs, bs)
    | 4 => do
      let (n, bs) ← decodeNat bs
      let (vs, bs) ← decodeMany (decodeValue fuel) n bs
      pure (.coll vs, bs)
    | _ => none

/-- With fuel at least its length, the bytes of a value read back as the value. -/
theorem decodeValue_encode (fuel : Nat) :
    ∀ (v : Value) (rest : Bytes), v.encode.length ≤ fuel →
      decodeValue fuel (v.encode ++ rest) = some (v, rest) := by
  induction fuel with
  | zero =>
    intro v rest h
    cases v <;> simp [Value.encode, encodeNat_ne_nil] at h
  | succ fuel ih =>
    intro v rest h
    -- each child's bytes are shorter than the value's, whose kind takes a byte
    have hk : ∀ k, 0 < (encodeNat k).length := fun k => List.length_pos.mpr (encodeNat_ne_nil k)
    cases v with
    | int v => simp [Value.encode, decodeValue, decodeNat_encodeNat, decodeInt_encodeInt]
    | blob b => simp [Value.encode, decodeValue, decodeNat_encodeNat]
    | text s =>
      simp only [Value.encode, decodeValue, List.append_assoc, decodeNat_encodeNat,
        Option.bind_eq_bind, Option.some_bind]
      rw [@decodeMany_flatten Char decodeChar _ s.data fun c _ rest => by
        simp [decodeChar, decodeNat_encodeNat]]
      rfl
    | struct fs =>
      have hlen := h
      simp only [Value.encode, List.length_append] at hlen
      simp only [Value.encode, decodeValue, List.append_assoc, decodeNat_encodeNat,
        Option.bind_eq_bind, Option.some_bind, encodeFields_eq]
      rw [decodeMany_flatten fs fun f hf rest => by
        have := length_le_encodeFields hf
        simp [decodeNat_encodeNat, ih f.2 rest (by have := hk 3; omega)]]
      rfl
    | coll vs =>
      have hlen := h
      simp only [Value.encode, List.length_append] at hlen
      simp only [Value.encode, decodeValue, List.append_assoc, decodeNat_encodeNat,
        Option.bind_eq_bind, Option.some_bind, encodeItems_eq]
      rw [decodeMany_flatten vs fun w hw rest => by
        have := length_le_encodeItems hw
        exact ih w rest (by have := hk 4; omega)]
      rfl

/-- Bytes read back as a value when they are exactly its bytes. -/
def Value.ofBytes (bs : Bytes) : Option Value :=
  match decodeValue bs.length bs with
  | some (v, []) => some v
  | _ => none

theorem Value.ofBytes_encode (v : Value) : Value.ofBytes v.encode = some v := by
  have := decodeValue_encode v.encode.length v [] le_rfl
  rw [List.append_nil] at this
  simp [Value.ofBytes, this]

end Ensync.Fourleaf
