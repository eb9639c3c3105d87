import Ensync.Fourleaf
import Ensync.Kdf

/-!
# The KDF list on the wire

The `fourleaf_retrofit!` declarations of `crypt.rs`: a timestamp as `SerDt`, an entry
as a struct of seven tagged fields, the list as a struct holding the map of entries and
the fields it does not know.

* `inverts_kdfList` — decoding what the encoder wrote gives the list back, unknown fields
  included, exactly when its entries and their group wraps together are at most the
  collection budget and every name, algorithm and group name fits in `max_blob` bytes;
  otherwise decoding fails.
-/

namespace Ensync

open Fourleaf

/-- `NaiveDateTime::from_timestamp_opt(secs, nsecs)`: `None` for a nanosecond count of two
seconds or more (`NaiveTime::from_num_seconds_from_midnight_opt`), or seconds off chrono's
dates (`NaiveDate::from_num_days_from_ce_opt`). -/
def fromTimestampOpt (secs : Int) (nsecs : Nat) : Option DateTime :=
  if h : nsecs < 2000000000 ∧ (-8334632851200 ≤ secs ∧ secs ≤ 8210298412799) then
    some ⟨secs, ⟨nsecs, h.1⟩, h.2⟩
  else none

/-- `SerDt`: `[1] secs: i64`, `[2] nsecs: u32`. -/
def encodeSerDt (d : DateTime) : Value := .struct [(1, .int d.secs), (2, .int (d.nanos : Nat))]

def decodeSerDt : Decoder DateTime
  | cfg, .struct fields, n => do
    let (secs, n) ← readField decodeI64 cfg fields 1 n
    let (nsecs, n) ← readField decodeU32 cfg fields 2 n
    match fromTimestampOpt secs nsecs with
    | some d => .ok (d, n)
    | none => .error .invalidValue
  | _, _, _ => .error .typeMismatch

/-- Modelled from the spec: the `fourleaf_retrofit!` of `KdfEntry` with per-group wraps, the
schema of §6 with the group map at tag 7, where the entry under src/ has `master_diff`. -/
def encodeKdfEntry (e : KdfEntry) : Value :=
  .struct ([(1, encodeSerDt e.created)] ++ writeOptional 2 encodeSerDt e.updated ++
    writeOptional 3 encodeSerDt e.used ++
    [(4, .text e.algorithm), (5, encodeHashId e.salt), (6, encodeHashId e.hash),
      (7, encodeMap .text encodeHashId e.groups)])

/-- Modelled from the spec: decoding an entry, each field by its tag. -/
def decodeKdfEntry : Decoder KdfEntry
  | cfg, .struct fields, n => do
    let (created, n) ← readField decodeSerDt cfg fields 1 n
    let (updated, n) ← readOptional decodeSerDt cfg fields 2 n
    let (used, n) ← readOptional decodeSerDt cfg fields 3 n
    let (algorithm, n) ← readField decodeText cfg fields 4 n
    let (salt, n) ← readField decodeHashId cfg fields 5 n
    let (hash, n) ← readField decodeHashId cfg fields 6 n
    let (groups, n) ← readField (decodeMap decodeText decodeHashId) cfg fields 7 n
    .ok ({ created, updated, used, algorithm, salt, hash, groups }, n)
  | _, _, _ => .error .typeMismatch

/-- `KdfList`: `[1] keys: BTreeMap<String, KdfEntry>`, then the fields it does not know. -/
def encodeKdfList (l : KdfList) : Value :=
  .struct ((1, encodeMap .text encodeKdfEntry l.keys) :: l.unknown)

theorem tag_ne_of_mem_filter {fields : List (Nat × Value)} {f : Nat × Value}
    (h : f ∈ fields.filter (·.1 != 1)) : f.1 ≠ 1 := by
  simpa using (List.mem_filter.mp h).2

def decodeKdfList : Decoder KdfList
  | cfg, .struct fields, n =>
    (readField (decodeMap decodeText decodeKdfEntry) cfg fields 1 n).map fun (keys, n) =>
      (⟨keys, fields.filter (·.1 != 1), fun _ => tag_ne_of_mem_filter⟩, n)
  | _, _, _ => .error .typeMismatch

/-- A string fits when its UTF-8 bytes fit in one blob. -/
def fitsText (cfg : DeConfig) (s : String) : Prop := s.utf8ByteSize ≤ cfg.maxBlob

/-- An entry fits when its algorithm, its two hashes and its group map do. -/
def fitsKdfEntry (cfg : DeConfig) (e : KdfEntry) : Prop :=
  fitsText cfg e.algorithm ∧ 32 ≤ cfg.maxBlob ∧
    fitsMap fitsText (fun cfg _ => 32 ≤ cfg.maxBlob) cfg e.groups

/-- A list fits when its map of entries does. -/
def fitsKdfList (cfg : DeConfig) (l : KdfList) : Prop := fitsMap fitsText fitsKdfEntry cfg l.keys

theorem inverts_serDt : Inverts decodeSerDt encodeSerDt (fun _ _ => True) fun _ => 0 := by
  rintro cfg ⟨secs, ⟨k, hk⟩, hs⟩ n r
  have hu : k < 2 ^ 32 := by omega
  have hi : -2 ^ 63 ≤ secs ∧ secs < 2 ^ 63 := by omega
  simp only [decodeSerDt, encodeSerDt, readField, List.lookup_cons, List.lookup_nil,
    beq_self_eq_true, show ((2 : Nat) == 1) = false from rfl, bind_eq_ok, inverts_i64 cfg,
    inverts_u32 cfg, fromTimestampOpt, hs, hu, hk, hi, and_true, true_and, exists_eq_left,
    dite_true, Nat.sub_zero, Nat.zero_le]
  exact ⟨fun h => (Except.ok.inj h).symm, fun h => h ▸ rfl⟩

/-- The fields of an encoded entry, by tag. -/
theorem lookup_encodeKdfEntry (e : KdfEntry) :
    ∃ fields, encodeKdfEntry e = .struct fields ∧
      fields.lookup 1 = some (encodeSerDt e.created) ∧
      fields.lookup 2 = e.updated.map encodeSerDt ∧ fields.lookup 3 = e.used.map encodeSerDt ∧
      fields.lookup 4 = some (.text e.algorithm) ∧
      fields.lookup 5 = some (encodeHashId e.salt) ∧
      fields.lookup 6 = some (encodeHashId e.hash) ∧
      fields.lookup 7 = some (encodeMap .text encodeHashId e.groups) := by
  refine ⟨_, rfl, ?_⟩
  cases e.updated <;> cases e.used <;> exact ⟨rfl, rfl, rfl, rfl, rfl, rfl, rfl⟩

/-- A group map charges one item per group. -/
theorem inverts_groups :
    Inverts (decodeMap decodeText decodeHashId) (encodeMap .text encodeHashId)
      (fitsMap fitsText fun cfg _ => 32 ≤ cfg.maxBlob) fun m => m.len :=
  (inverts_map inverts_text inverts_hashId).of_size_eq fun m => by
    simp [sizeMap, List.sum_replicate]

theorem inverts_kdfEntry :
    Inverts decodeKdfEntry encodeKdfEntry fitsKdfEntry fun e => e.groups.len := by
  intro cfg e n r
  obtain ⟨fields, hf, h1, h2, h3, h4, h5, h6, h7⟩ := lookup_encodeKdfEntry e
  rw [hf]
  simp only [decodeKdfEntry, bind_eq_ok, readField_of_lookup h1, readField_of_lookup h4,
    readField_of_lookup h5, readField_of_lookup h6, readField_of_lookup h7, inverts_serDt cfg,
    readOptional_inverts inverts_serDt cfg 2 e.updated h2 n,
    readOptional_inverts inverts_serDt cfg 3 e.used h3 n, inverts_text cfg, inverts_hashId cfg,
    inverts_groups cfg, and_true, implies_true, and_assoc, exists_eq_left, Except.ok.injEq,
    Nat.sub_zero, Nat.zero_le, true_and]
  constructor
  · rintro ⟨ha, hs, -, hg, hn, rfl⟩; exact ⟨rfl, ⟨ha, hs, hg⟩, hn⟩
  · rintro ⟨rfl, ⟨ha, hs, hg⟩, hn⟩; exact ⟨ha, hs, hs, hg, hn, rfl⟩

/-- The collection items a list charges: one per entry, and one per group wrap of each. -/
theorem inverts_keys :
    Inverts (decodeMap decodeText decodeKdfEntry) (encodeMap .text encodeKdfEntry)
      (fitsMap fitsText fitsKdfEntry) fun m => m.len + (m.values.map fun e => e.groups.len).sum :=
  (inverts_map inverts_text inverts_kdfEntry).of_size_eq fun m => by
    simp [sizeMap, BTreeMap.toList, BTreeMap.values, Function.comp_def]

theorem inverts_kdfList : Inverts decodeKdfList encodeKdfList fitsKdfList
    fun l => l.keys.len + (l.keys.values.map fun e => e.groups.len).sum := by
  rintro cfg ⟨keys, unknown, hu⟩ n r
  have hfilter : ((1, encodeMap .text encodeKdfEntry keys) :: unknown).filter (·.1 != 1) =
      unknown := by
    rw [List.filter_cons_of_neg (by simp), List.filter_eq_self]
    simpa using hu
  rw [encodeKdfList, decodeKdfList, readField_of_lookup (by rfl), map_eq_ok]
  simp only [inverts_keys cfg, fitsKdfList, hfilter]
  constructor
  · rintro ⟨_, ⟨rfl, h, hn⟩, rfl⟩; exact ⟨rfl, h, hn⟩
  · rintro ⟨rfl, h, hn⟩; exact ⟨_, ⟨rfl, h, hn⟩, rfl⟩

end Ensync
