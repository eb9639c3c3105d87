import Mathlib.Data.List.DropRight
import Ensync.Bytes

/-!
# The configuration loader

`cli/config.rs`: finding `config.toml`, parsing it into a `Config`, and reading the passphrase
the configuration names. A `PathBuf` is the text it was spelled with, read through
`components()` as `Path`'s comparisons read it. What the loader calls outside this repository
is a parameter: the `toml` parser, `SyncRules::parse` and `PRIVATE_DIR_NAME` are the fields of
a `Loader`; the current directory, the file system, the terminal and child processes are the
fields of an `Env`.

* `serverConfig_fromStr_eq_ok`, `passphraseConfig_fromStr_eq_ok` — exactly the strings each
  `from_str` accepts, and what it makes of them;
* `readPassphrase_eq_ok` — a passphrase read is what its source gave less its trailing line
  ends, and never empty;
* `parse_errors_name_file` — `parse` names the file in every error, and its only panic is the
  assertion on the file name;
* `parse_blockSize` — an accepted block size is the configured integer, within bounds;
* `fullPath_parse` — `full_path` of a parsed configuration is, component for component, the
  file it was parsed from;
* `fileLocation_absolute` — `file_location` gives a path ending with `config.toml`, absolute
  whenever the current directory is;
* `read_never_panics` — `file_location` establishes what `parse` asserts;
* `read_anchored` — a loaded configuration names every file and directory absolutely.
-/

namespace Ensync.Cli

/-! ## Paths -/

/-- One component of a Unix path, as `Path::components` yields them. -/
inductive Component
  | rootDir
  | curDir
  | parentDir
  | normal (name : String)
  deriving DecidableEq, Repr

/-- A `PathBuf`: the text it was spelled with, which `display()` prints. `Path`'s `==`,
`ends_with`, `is_absolute` and `parent` read it through `components()`, under which two
spellings of one path (`a//b`, `a/./b/`) agree; `push` works on the text. -/
structure PathBuf where
  spelling : String
  deriving DecidableEq, Repr

namespace PathBuf

/-- The component one piece between separators names: none for an empty piece or `.`. -/
def pieceComponent : List Char → Option Component
  | [] | ['.'] => none
  | ['.', '.'] => some .parentDir
  | cs => some (.normal ⟨cs⟩)

/-- A piece that names no component. -/
def namesNothing (piece : List Char) : Bool := (pieceComponent piece).isNone

/-- What `Components` yields before the body, on Unix: the root for a leading `/`
(`has_physical_root`), and in a relative path `CurDir` for a leading `.` alone or before a
`/` (`include_cur_dir`). -/
def startComponent (cs : List Char) : Option Component :=
  if cs.head? = some '/' then some .rootDir
  else if cs.head? = some '.' ∧ cs[1]?.all (· == '/') then some .curDir
  else none

/-- `len_before_body`: the one character `startComponent` reads, if any. -/
def lenBeforeBody (cs : List Char) : Nat := if (startComponent cs).isSome then 1 else 0

/-- The body of a path's text: what follows the root or the leading `.`. -/
def body (cs : List Char) : List Char := cs.drop (lenBeforeBody cs)

/-- The components the pieces of a text between separators name. -/
def namedPieces (cs : List Char) : List Component := (cs.splitOn '/').filterMap pieceComponent

/-- `components()` of a text: what stands before the body, then what the body's pieces name. -/
def compsOf (cs : List Char) : List Component :=
  (startComponent cs).toList ++ namedPieces (body cs)

/-- `Path::components`. -/
def comps (p : PathBuf) : List Component := compsOf p.spelling.data

/-- `Path::new(s)`: the text as it is. -/
def ofString (s : String) : PathBuf := ⟨s⟩

/-- `Path::is_absolute` on Unix: the path has a root, a leading `/`. -/
def isAbsolute (p : PathBuf) : Bool := p.spelling.data.head? = some '/'

/-- `Path::is_relative`. -/
def isRelative (p : PathBuf) : Bool := !p.isAbsolute

/-- `self.join(path)`, that is `PathBuf::push` on a copy: an absolute `path` replaces the
text; a relative one is appended, after a `/` when the text ends with another character. -/
def join (p q : PathBuf) : PathBuf :=
  if q.isAbsolute then q
  else if p.spelling.data.getLast?.any (· != '/') then ⟨p.spelling ++ "/" ++ q.spelling⟩
  else ⟨p.spelling ++ q.spelling⟩

/-- `Path::parent`. `next_back` drops from the back of the body the pieces that name nothing,
then the last component; after a name or `..` the parent is the text up to the pieces before
it, less those at their end that name nothing (`as_path`'s `trim_right`). With no component in
the body, a leading `.` has the empty path for parent, and the root and the empty path have
none. -/
def parent (p : PathBuf) : Option PathBuf :=
  let cs := p.spelling.data
  match ((body cs).splitOn '/').rdropWhile namesNothing with
  | [] => if startComponent cs = some .curDir then some ⟨""⟩ else none
  | named => some ⟨⟨cs.take (lenBeforeBody cs) ++
      ['/'].intercalate (named.dropLast.rdropWhile namesNothing)⟩⟩

/-- `Path::ends_with(child)`: the child's components end this path's. -/
def endsWith (p child : PathBuf) : Bool := child.comps.isSuffixOf p.comps

/-- `Path::display()`: the text as it was spelled. -/
def display (p : PathBuf) : String := p.spelling

example : (ofString "a//b/./c/").comps = [.normal "a", .normal "b", .normal "c"] := by decide

/-! ### Texts split at separators -/

/-- The pieces of `x ++ c :: y` split at `c` are those of `x`, then those of `y`. -/
theorem splitOn_append_cons (x y : List Char) (c : Char) :
    (x ++ c :: y).splitOn c = x.splitOn c ++ y.splitOn c := by
  induction x with
  | nil => simp [List.splitOn]
  | cons a x ih =>
    simp only [List.splitOn, List.cons_append, List.splitOnP_cons] at ih ⊢
    split
    · rw [ih]; rfl
    · obtain ⟨h, t, he⟩ := List.exists_cons_of_ne_nil (List.splitOnP_ne_nil (· == c) x)
      rw [ih, he]; rfl

theorem not_mem_of_mem_splitOn {c : Char} {xs l : List Char} (h : l ∈ xs.splitOn c) :
    c ∉ l := by
  induction xs generalizing l with
  | nil => simp_all
  | cons a xs ih =>
    simp only [List.splitOn, List.splitOnP_cons] at h ih
    split at h
    · rcases List.mem_cons.1 h with rfl | h
      exacts [List.not_mem_nil c, ih h]
    · obtain ⟨hd, t, he⟩ := List.exists_cons_of_ne_nil (List.splitOnP_ne_nil (· == c) xs)
      rw [he] at h ih
      rcases List.mem_cons.1 h with rfl | h
      · rename_i hac
        simp only [List.mem_cons, not_or]
        exact ⟨fun e => hac (by simp [e]), ih (List.mem_cons_self _ _)⟩
      · exact ih (List.mem_cons_of_mem _ h)

theorem intercalate_append_sep {qs rest : List (List Char)} (hq : qs ≠ []) (hr : rest ≠ []) :
    ['/'].intercalate (qs ++ rest) = ['/'].intercalate qs ++ '/' :: ['/'].intercalate rest := by
  induction qs with
  | nil => exact absurd rfl hq
  | cons q qs ih =>
    obtain ⟨r, rest, rfl⟩ := List.exists_cons_of_ne_nil hr
    cases qs with
    | nil => simp [List.intercalate, List.intersperse]
    | cons q' qs =>
      have := ih (List.cons_ne_nil _ _)
      simp_all [List.intercalate, List.intersperse]

/-- Dropping trailing pieces that name nothing keeps what the pieces name. -/
theorem filterMap_rdropWhile (l : List (List Char)) :
    (l.rdropWhile namesNothing).filterMap pieceComponent = l.filterMap pieceComponent := by
  induction l using List.reverseRecOn with
  | nil => rfl
  | append_singleton l x ih =>
    rw [List.rdropWhile_concat]
    split
    · rename_i h
      have hx : pieceComponent x = none := by simpa [namesNothing] using h
      simp [ih, hx]
    · rfl

@[simp] theorem namedPieces_nil : namedPieces [] = [] := rfl

@[simp] theorem compsOf_nil : compsOf [] = [] := rfl

theorem pieceComponent_ne_start (piece : List Char) :
    pieceComponent piece ≠ some .rootDir ∧ pieceComponent piece ≠ some .curDir := by
  unfold pieceComponent; split <;> simp

theorem startComponent_ne_normal (cs : List Char) (n : String) :
    startComponent cs ≠ some (.normal n) := by
  unfold startComponent; split_ifs <;> simp

theorem startComponent_eq_rootDir {cs : List Char} :
    startComponent cs = some .rootDir ↔ cs.head? = some '/' := by
  unfold startComponent; split_ifs <;> simp_all

/-! ### Components of a joined text -/

/-- A text followed by `u`, empty or starting at a separator, starts as the text does. -/
theorem startComponent_append {t u : List Char} (ht : t ≠ [])
    (hu : u = [] ∨ u.head? = some '/') : startComponent (t ++ u) = startComponent t := by
  obtain ⟨a, t, rfl⟩ := List.exists_cons_of_ne_nil ht
  rcases hu with rfl | hu
  · simp
  cases t <;> simp_all [startComponent, List.head?_eq_getElem?]

theorem lenBeforeBody_le {cs : List Char} (h : cs ≠ []) : lenBeforeBody cs ≤ cs.length := by
  have := List.length_pos.2 h
  unfold lenBeforeBody; split <;> omega

theorem body_append {t u : List Char} (ht : t ≠ []) (hu : u = [] ∨ u.head? = some '/') :
    body (t ++ u) = body t ++ u := by
  rw [body, lenBeforeBody, startComponent_append ht hu, ← lenBeforeBody]
  exact List.drop_append_of_le_length (lenBeforeBody_le ht)

/-- The body's pieces name what the whole text's pieces name: the piece before the body is
empty or `.`. -/
theorem namedPieces_body (cs : List Char) : namedPieces (body cs) = namedPieces cs := by
  rcases cs with _ | ⟨c, r⟩
  · rfl
  by_cases hroot : c = '/'
  · subst hroot
    simp [body, lenBeforeBody, startComponent, namedPieces, List.splitOn, pieceComponent]
  by_cases hcur : c = '.' ∧ r.head?.all (· == '/')
  · obtain ⟨rfl, hd⟩ := hcur
    rcases r with _ | ⟨d, r⟩
    · rfl
    · obtain rfl : d = '/' := by simpa using hd
      rw [namedPieces, namedPieces, show ('.' :: '/' :: r).splitOn '/' = ['.'] :: r.splitOn '/' from
        splitOn_append_cons ['.'] r '/']
      simp [body, lenBeforeBody, startComponent, namedPieces, List.splitOn, pieceComponent]
  · have : lenBeforeBody (c :: r) = 0 := by
      simp_all [lenBeforeBody, startComponent, List.head?_eq_getElem?]
    rw [body, this, List.drop_zero]

theorem compsOf_append_sep {a : List Char} (ha : a ≠ []) (b : List Char) :
    compsOf (a ++ '/' :: b) = compsOf a ++ namedPieces b := by
  have hsep : ('/' :: b : List Char) = [] ∨ ('/' :: b : List Char).head? = some '/' := .inr rfl
  simp only [compsOf, startComponent_append ha hsep, body_append ha hsep, namedPieces,
    splitOn_append_cons, List.filterMap_append, List.append_assoc]

theorem join_of_empty {p q : PathBuf} (hp : p.spelling = "") (hq : q.isAbsolute = false) :
    p.join q = q := by
  obtain ⟨s⟩ := p
  subst hp
  simp [join, hq]

/-- Joining a relative path to a nonempty one adds what the relative path's pieces name. -/
theorem comps_join {p q : PathBuf} (hq : q.isAbsolute = false) (hp : p.spelling ≠ "") :
    (p.join q).comps = p.comps ++ namedPieces q.spelling.data := by
  have hp' : p.spelling.data ≠ [] := fun h => hp (String.ext h)
  rw [join, if_neg (by simp [hq])]
  split
  · simp only [comps, String.data_append, List.append_assoc]
    exact compsOf_append_sep hp' _
  · rename_i hlast
    obtain ⟨init, hinit⟩ : ∃ init, p.spelling.data = init ++ ['/'] := by
      obtain ⟨c, hc⟩ := Option.ne_none_iff_exists'.1 (mt List.getLast?_eq_none_iff.1 hp')
      refine ⟨p.spelling.data.dropLast, ?_⟩
      rw [hc] at hlast
      obtain rfl : c = '/' := by simpa using hlast
      exact (List.dropLast_append_getLast? _ hc).symm
    simp only [comps, String.data_append, hinit, List.append_assoc, List.singleton_append]
    by_cases hi : init = []
    · subst hi; simp [compsOf, startComponent, body, lenBeforeBody, namedPieces, List.splitOn,
        pieceComponent]
    · rw [compsOf_append_sep hi, compsOf_append_sep hi, namedPieces_nil, List.append_nil]

/-- Joining a one-name path adds the name. -/
theorem comps_join_normal (p : PathBuf) {q : PathBuf} {n : String} (hq : q.comps = [.normal n]) :
    (p.join q).comps = p.comps ++ [.normal n] := by
  have hst : startComponent q.spelling.data = none := by
    cases hs : startComponent q.spelling.data with
    | none => rfl
    | some x =>
      have hx : x = .normal n := by simpa [comps, compsOf, hs] using congrArg List.head? hq
      exact absurd (hx ▸ hs) (startComponent_ne_normal _ _)
  have habs : q.isAbsolute = false := by
    simp [isAbsolute, ← startComponent_eq_rootDir, hst]
  have hnamed : namedPieces q.spelling.data = [.normal n] := by
    rw [← namedPieces_body]; simpa [comps, compsOf, hst] using hq
  by_cases hp : p.spelling = ""
  · rw [join_of_empty hp habs, hq, comps, hp]; rfl
  · rw [comps_join habs hp, hnamed]

/-- Joining a relative path whose last component is a name ends with that name. -/
theorem getLast?_comps_join (p : PathBuf) {q : PathBuf} (hq : q.isAbsolute = false) {n : String}
    (h : q.comps.getLast? = some (.normal n)) : (p.join q).comps.getLast? = some (.normal n) := by
  by_cases hp : p.spelling = ""
  · rwa [join_of_empty hp hq]
  rw [comps_join hq hp, List.getLast?_append, ← namedPieces_body]
  rw [comps, compsOf, List.getLast?_append] at h
  cases hn : (namedPieces (body q.spelling.data)).getLast? with
  | some x => simp_all
  | none =>
    cases hs : startComponent q.spelling.data with
    | none => simp_all
    | some x =>
      have hx : x = .normal n := by simpa [hn, hs] using h
      exact absurd (hx ▸ hs) (startComponent_ne_normal _ _)

theorem isAbsolute_join (p q : PathBuf) :
    (p.join q).isAbsolute = (q.isAbsolute || p.isAbsolute) := by
  by_cases hq : q.isAbsolute = true
  · simp [join, hq]
  rw [join, if_neg hq]
  rcases p with ⟨_ | ⟨c, cs⟩⟩
  · simp_all [isAbsolute]
  · split <;> simp_all [isAbsolute]

/-- A path is absolute exactly when its first component is the root. -/
theorem isAbsolute_iff_comps {p : PathBuf} :
    p.isAbsolute = true ↔ p.comps.head? = some .rootDir := by
  rw [isAbsolute, decide_eq_true_iff, ← startComponent_eq_rootDir, comps, compsOf]
  cases h : startComponent p.spelling.data with
  | some c => simp
  | none =>
    simp only [Option.toList_none, List.nil_append, namedPieces, reduceCtorEq, false_iff]
    intro hh
    obtain ⟨l, -, hc⟩ := List.mem_filterMap.1 (List.mem_of_mem_head? hh)
    exact (pieceComponent_ne_start l).1 hc

theorem endsWith_iff {p child : PathBuf} :
    p.endsWith child = true ↔ ∃ init, p.comps = init ++ child.comps := by
  rw [endsWith, List.isSuffixOf_iff_suffix]
  exact ⟨fun ⟨t, h⟩ => ⟨t, h.symm⟩, fun ⟨t, h⟩ => ⟨t, h.symm⟩⟩

/-! ### The parent -/

theorem compsOf_take_lenBeforeBody (cs : List Char) :
    compsOf (cs.take (lenBeforeBody cs)) = (startComponent cs).toList := by
  rcases cs with _ | ⟨c, r⟩
  · rfl
  unfold lenBeforeBody
  split
  · rename_i h
    simp only [List.take_succ_cons, List.take_zero]
    unfold startComponent at h ⊢
    split_ifs at h ⊢ <;> simp_all [compsOf, startComponent, body, lenBeforeBody]
  · rename_i h
    simp_all [compsOf_nil]

/-- The text up to the end of some leading pieces of the body names what stands before the
body and what those pieces name. -/
theorem compsOf_prefix {cs : List Char} {qs rest : List (List Char)}
    (hps : (body cs).splitOn '/' = qs ++ rest) :
    compsOf (cs.take (lenBeforeBody cs) ++ ['/'].intercalate qs) =
      (startComponent cs).toList ++ qs.filterMap pieceComponent := by
  by_cases hq : qs = []
  · subst hq
    rw [show ['/'].intercalate ([] : List (List Char)) = [] from rfl, List.append_nil,
      compsOf_take_lenBeforeBody, List.filterMap_nil, List.append_nil]
  have hsplit : (['/'].intercalate qs).splitOn '/' = qs := List.splitOn_intercalate qs '/'
    (fun l hl => not_mem_of_mem_splitOn (hps ▸ List.mem_append_left _ hl)) hq
  have hcs : cs = cs.take (lenBeforeBody cs) ++ body cs := (List.take_append_drop _ _).symm
  by_cases hr : rest = []
  · subst hr
    rw [List.append_nil] at hps
    rw [← hps, List.intercalate_splitOn, ← hcs, compsOf, namedPieces, hps]
  -- the rest of the body starts at a separator
  have hB : body cs = ['/'].intercalate qs ++ '/' :: ['/'].intercalate rest := by
    rw [← intercalate_append_sep hq hr, ← hps, List.intercalate_splitOn]
  have hu : ('/' :: ['/'].intercalate rest) = [] ∨
      ('/' :: ['/'].intercalate rest).head? = some '/' := .inr rfl
  have hct : cs = (cs.take (lenBeforeBody cs) ++ ['/'].intercalate qs) ++
      '/' :: ['/'].intercalate rest := by
    conv_lhs => rw [hcs, hB]
    simp only [List.append_assoc]
  have ht : cs.take (lenBeforeBody cs) ++ ['/'].intercalate qs ≠ [] := by
    intro h0
    have hroot : lenBeforeBody cs = 1 := by rw [hct, h0]; rfl
    have := (List.append_eq_nil.1 h0).1
    rw [hroot, hct, h0] at this
    simp at this
  have hst := startComponent_append ht hu
  have hbody := body_append ht hu
  rw [← hct] at hst hbody
  rw [hB] at hbody
  rw [compsOf, hst, List.append_cancel_right hbody.symm, namedPieces, hsplit]

/-- With no piece of the body naming a component, the body names none. -/
theorem namedPieces_body_of_rdropWhile {cs : List Char}
    (h : ((body cs).splitOn '/').rdropWhile namesNothing = []) : namedPieces (body cs) = [] := by
  rw [namedPieces, ← filterMap_rdropWhile, h]; rfl

theorem filterMap_eq_dropLast {R : List (List Char)} {c : Component} (hR : R ≠ [])
    (hc : pieceComponent (R.getLast hR) = some c) :
    R.filterMap pieceComponent =
      (R.dropLast.rdropWhile namesNothing).filterMap pieceComponent ++ [c] := by
  conv_lhs => rw [← List.dropLast_append_getLast hR]
  rw [List.filterMap_append, filterMap_rdropWhile]
  simp [hc]

/-- A parent has the path's components less the last. -/
theorem comps_parent {p q : PathBuf} (h : p.parent = some q) : q.comps = p.comps.dropLast := by
  dsimp only [parent] at h
  split at h
  · rename_i hnil
    split_ifs at h with hcur
    cases h
    show compsOf [] = _
    rw [compsOf_nil, comps, compsOf, hcur, namedPieces_body_of_rdropWhile hnil]; rfl
  · rename_i hne
    cases h
    generalize hps : (body p.spelling.data).splitOn '/' = ps at hne ⊢
    have hne' : ps.rdropWhile namesNothing ≠ [] := hne
    obtain ⟨c, hc⟩ :
        ∃ c, pieceComponent ((ps.rdropWhile namesNothing).getLast hne') = some c :=
      Option.ne_none_iff_exists'.1 (by simpa [namesNothing] using List.rdropWhile_last_not _ _ hne')
    obtain ⟨rest, hrest⟩ :=
      ((List.rdropWhile_prefix _ _).trans (List.dropLast_prefix _)).trans
        (List.rdropWhile_prefix _ _)
    rw [comps, compsOf_prefix (hps.trans hrest.symm), comps, compsOf, namedPieces, hps,
      ← filterMap_rdropWhile ps, filterMap_eq_dropLast hne' hc, ← List.append_assoc,
      List.dropLast_concat]

example : (ofString "/foo//config.toml").parent = some (ofString "/foo") := by decide

/-- A path whose last component is a name has a parent, with the components before it. -/
theorem parent_of_comps {p : PathBuf} {init : List Component} {n : String}
    (h : p.comps = init ++ [.normal n]) : ∃ q, p.parent = some q ∧ q.comps = init := by
  suffices hq : ∃ q, p.parent = some q by
    obtain ⟨q, hq⟩ := hq
    exact ⟨q, hq, by rw [comps_parent hq, h, List.dropLast_concat]⟩
  dsimp only [parent]
  split
  · rename_i hnil
    rw [comps, compsOf, namedPieces_body_of_rdropWhile hnil, List.append_nil] at h
    cases hs : startComponent p.spelling.data with
    | none => simp [hs] at h
    | some x =>
      have hx : x = .normal n := by simpa [hs] using congrArg List.getLast? h
      exact absurd (hx ▸ hs) (startComponent_ne_normal _ _)
  · exact ⟨_, rfl⟩

end PathBuf

/-! ## TOML values -/

namespace Toml

/-- A TOML value, as the `toml` crate's `Value`; a table is its entries, each key once. -/
inductive Value
  | string (s : String)
  | integer (i : Int)
  | float (f : Float)
  | boolean (b : Bool)
  | datetime (s : String)
  | array (vs : List Value)
  | table (t : List (String × Value))

/-- `toml::Table`: a table's entries, looked up with `get`. -/
abbrev Table := List (String × Value)

/-- `Value::as_str`. -/
def Value.asStr : Value → Option String
  | .string s => some s
  | _ => none

/-- `Value::as_integer`. -/
def Value.asInteger : Value → Option Int
  | .integer i => some i
  | _ => none

/-- `Value::as_table`. -/
def Value.asTable : Value → Option Table
  | .table t => some t
  | _ => none

@[simp] theorem Value.asStr_eq_some {v : Value} {s : String} :
    v.asStr = some s ↔ v = .string s := by
  cases v <;> simp [Value.asStr]

@[simp] theorem Value.asInteger_eq_some {v : Value} {i : Int} :
    v.asInteger = some i ↔ v = .integer i := by
  cases v <;> simp [Value.asInteger]

@[simp] theorem Value.asTable_eq_some {v : Value} {t : Table} :
    v.asTable = some t ↔ v = .table t := by
  cases v <;> simp [Value.asTable]

/-- A syntax error as `Config::parse` reports it: `to_linecol(error.lo)` and `desc`. -/
structure SyntaxError where
  line : Nat
  col : Nat
  desc : String

end Toml

open Toml

/-! ## Server and passphrase settings -/

/-- `CONFIG_FILE_NAME`. -/
def configFileName : String := "config.toml"

theorem ofString_configFileName :
    (PathBuf.ofString configFileName).comps = [.normal configFileName] := by
  decide

/-- `ServerConfig`: a local path, or a shell command and the directory to start it in. -/
inductive ServerConfig
  | path (p : PathBuf)
  | shell (command : String) (workdir : Option PathBuf)
  deriving DecidableEq

/-- `PassphraseConfig`: where the passphrase comes from. -/
inductive PassphraseConfig
  | prompt
  | string (s : String)
  | file (p : PathBuf)
  | shell (command : String) (workdir : Option PathBuf)
  deriving DecidableEq

/-- `s.find(':')` and the slices `s[..colon]` and `s[colon+1..]` around it. -/
def splitColon (s : String) : Option (String × String) :=
  match s.data.dropWhile (· != ':') with
  | _ :: value => some (⟨s.data.takeWhile (· != ':')⟩, ⟨value⟩)
  | [] => none

/-- `ServerConfig::from_str`. -/
def ServerConfig.fromStr (s : String) : Except String ServerConfig :=
  match splitColon s with
  | none => .error ("Invalid server config; syntax is `type:value` (write `path:" ++ s ++
      "` if you want to sync to the local path `" ++ s ++ "`)")
  | some (typ, value) =>
    match typ with
    | "path" => .ok (.path (.ofString value))
    | "shell" => .ok (.shell value none)
    | _ => .error ("Invalid server config type '" ++ typ ++ "' (if `" ++ s ++
      "` is intended to be an scp-style path, write something like `shell:ssh " ++ typ ++
      " ensync server '" ++ value ++ "'` instead)")

/-- `ServerConfig::relativise(parent)`. -/
def ServerConfig.relativise (self : ServerConfig) (parent : PathBuf) : ServerConfig :=
  match self with
  | .path suffix => .path (parent.join suffix)
  | .shell command _ => .shell command (some parent)

/-- `PassphraseConfig::from_str`. -/
def PassphraseConfig.fromStr (s : String) : Except String PassphraseConfig :=
  if "prompt" = s then .ok .prompt else
  match splitColon s with
  | none => .error ("Invalid passphrase config; syntax is `type` or `type:value`, and '" ++ s ++
      "' is not a valid bare type")
  | some (typ, value) =>
    match typ with
    | "string" => .ok (.string value)
    | "file" => .ok (.file (.ofString value))
    | "shell" => .ok (.shell value none)
    | _ => .error ("Invalid passphrase config type '" ++ typ ++ "'")

/-- `PassphraseConfig::relativise(parent)`. -/
def PassphraseConfig.relativise (self : PassphraseConfig) (parent : PathBuf) : PassphraseConfig :=
  match self with
  | .prompt | .string _ => self
  | .file basename => .file (parent.join basename)
  | .shell command _ => .shell command (some parent)

theorem dropWhile_colon_eq_cons : ∀ {l t r : List Char},
    (∃ c, l.dropWhile (· != ':') = c :: r) ∧ l.takeWhile (· != ':') = t ↔
      l = t ++ ':' :: r ∧ ':' ∉ t
  | [], t, r => by simp
  | x :: l, t, r => by
    by_cases hx : x = ':'
    · subst hx; cases t <;> simp; tauto
    · have ih := @dropWhile_colon_eq_cons l
      cases t with
      | nil => simp [hx]
      | cons y t =>
        simp only [List.dropWhile_cons, List.takeWhile_cons, bne_iff_ne, ne_eq, hx,
          not_false_eq_true, ite_true, List.cons.injEq, List.cons_append, List.mem_cons]
        constructor
        · rintro ⟨h, rfl, ht⟩
          have := ih.1 ⟨h, ht⟩
          exact ⟨⟨rfl, this.1⟩, by rintro (h | h); exacts [hx h.symm, this.2 h]⟩
        · rintro ⟨⟨rfl, h⟩, hn⟩
          have := ih.2 ⟨h, fun ht => hn (.inr ht)⟩
          exact ⟨this.1, rfl, this.2⟩

/-- `from_str`'s split: at the first colon, so the value keeps any colons after it. -/
theorem splitColon_eq_some {s typ value : String} :
    splitColon s = some (typ, value) ↔ s = typ ++ ":" ++ value ∧ ':' ∉ typ.data := by
  obtain ⟨l⟩ := s; obtain ⟨t⟩ := typ; obtain ⟨r⟩ := value
  have key : splitColon ⟨l⟩ = some (⟨t⟩, ⟨r⟩) ↔
      (∃ c, l.dropWhile (· != ':') = c :: r) ∧ l.takeWhile (· != ':') = t := by
    unfold splitColon
    split <;> rename_i h <;> simp [h, and_comm, String.ext_iff]
  rw [key, dropWhile_colon_eq_cons, String.ext_iff]
  simp [String.data_append]

theorem splitColon_append {typ : String} (h : ':' ∉ typ.data) (value : String) :
    splitColon (typ ++ ":" ++ value) = some (typ, value) :=
  splitColon_eq_some.2 ⟨rfl, h⟩

/-- `ServerConfig::from_str` accepts exactly `path:` and `shell:` followed by anything, colons
included, and takes all of the rest as the value. -/
theorem serverConfig_fromStr_eq_ok {s : String} {c : ServerConfig} :
    ServerConfig.fromStr s = .ok c ↔
      (∃ v, s = "path:" ++ v ∧ c = .path (.ofString v)) ∨
      (∃ v, s = "shell:" ++ v ∧ c = .shell v none) := by
  constructor
  · unfold ServerConfig.fromStr
    split
    · simp
    · rename_i typ value hs
      obtain ⟨rfl, -⟩ := splitColon_eq_some.1 hs
      split <;> simp only [Except.ok.injEq, reduceCtorEq, false_implies]
      · rintro rfl; exact .inl ⟨value, rfl, rfl⟩
      · rintro rfl; exact .inr ⟨value, rfl, rfl⟩
  · rintro (⟨v, rfl, rfl⟩ | ⟨v, rfl, rfl⟩)
    · have : splitColon ("path:" ++ v) = some ("path", v) :=
        @splitColon_append "path" (by decide) v
      rw [ServerConfig.fromStr, this]; rfl
    · have : splitColon ("shell:" ++ v) = some ("shell", v) :=
        @splitColon_append "shell" (by decide) v
      rw [ServerConfig.fromStr, this]; rfl

theorem splitColon_prompt {s : String} {p : String × String} (h : splitColon s = some p) :
    "prompt" ≠ s := by
  rintro rfl; exact absurd h (by simp [show splitColon "prompt" = none from rfl])

/-- `PassphraseConfig::from_str` accepts exactly `prompt`, and `string:`, `file:` and `shell:`
followed by anything, colons included; `prompt:` followed by a value is refused. -/
theorem passphraseConfig_fromStr_eq_ok {s : String} {c : PassphraseConfig} :
    PassphraseConfig.fromStr s = .ok c ↔
      (s = "prompt" ∧ c = .prompt) ∨
      (∃ v, s = "string:" ++ v ∧ c = .string v) ∨
      (∃ v, s = "file:" ++ v ∧ c = .file (.ofString v)) ∨
      (∃ v, s = "shell:" ++ v ∧ c = .shell v none) := by
  constructor
  · unfold PassphraseConfig.fromStr
    split
    · rintro ⟨⟩; exact .inl ⟨‹"prompt" = s›.symm, rfl⟩
    · split
      · simp
      · rename_i typ value hs
        obtain ⟨rfl, -⟩ := splitColon_eq_some.1 hs
        split <;> simp only [Except.ok.injEq, reduceCtorEq, false_implies]
        · rintro rfl; exact .inr (.inl ⟨value, rfl, rfl⟩)
        · rintro rfl; exact .inr (.inr (.inl ⟨value, rfl, rfl⟩))
        · rintro rfl; exact .inr (.inr (.inr ⟨value, rfl, rfl⟩))
  · rintro (⟨rfl, rfl⟩ | ⟨v, rfl, rfl⟩ | ⟨v, rfl, rfl⟩ | ⟨v, rfl, rfl⟩)
    · rfl
    · have : splitColon ("string:" ++ v) = some ("string", v) :=
        @splitColon_append "string" (by decide) v
      rw [PassphraseConfig.fromStr, if_neg (splitColon_prompt this), this]; rfl
    · have : splitColon ("file:" ++ v) = some ("file", v) :=
        @splitColon_append "file" (by decide) v
      rw [PassphraseConfig.fromStr, if_neg (splitColon_prompt this), this]; rfl
    · have : splitColon ("shell:" ++ v) = some ("shell", v) :=
        @splitColon_append "shell" (by decide) v
      rw [PassphraseConfig.fromStr, if_neg (splitColon_prompt this), this]; rfl

/-! ## Reading the passphrase -/

/-- `String::into::<Vec<u8>>`: the UTF-8 bytes. -/
def utf8 (s : String) : Bytes := s.toUTF8.data.toList

/-- `process::Output` as `read_passphrase_impl` reads it: whether the exit status is a
success, the status as `Display` writes it, and the standard output. -/
structure ProcessOutput where
  success : Bool
  status : String
  stdout : Bytes

/-- The world the loader reads: `env::current_dir()`, a file read whole as text
(`read_to_string`) or as bytes (`read_to_end`), `rpassword::prompt_password_stdout(prompt)`,
and the output of `/bin/sh -c command` run with stdin closed, in `workdir` when given. Each
failure is its `io::Error`'s text. -/
structure Env where
  currentDir : Except String PathBuf
  readToString : PathBuf → Except String String
  readToEnd : PathBuf → Except String Bytes
  promptPassword : String → Except String String
  output : String → Option PathBuf → Except String ProcessOutput

/-- `read_passphrase_impl(what, confirm)`: the raw bytes of the configured source. -/
def PassphraseConfig.readPassphraseImpl (env : Env) (self : PassphraseConfig) (what : String)
    (confirm : Bool) : Except String Bytes :=
  match self with
  | .prompt => do
    let first ← env.promptPassword ("Enter " ++ what ++ ": ")
    if confirm then
      let second ← env.promptPassword ("Retype " ++ what ++ ": ")
      if first ≠ second then throw "Passwords do not match"
    pure (utf8 first)
  | .string s => pure (utf8 s)
  | .file filename =>
    (env.readToEnd filename).mapError fun _ => "Failed to read passphrase from " ++ filename.display
  | .shell command workdir => do
    let output ← (env.output command workdir).mapError
      fun _ => "Failed to execute command `" ++ command ++ "`"
    if !output.success then throw ("Command `" ++ command ++ "` failed with " ++ output.status)
    pure output.stdout

/-- The loop of `read_passphrase`: pop the last byte while it is LF or CR. -/
def stripNewlines (data : Bytes) : Bytes :=
  if _h : data.getLast? = some 10 ∨ data.getLast? = some 13 then stripNewlines data.dropLast
  else data
termination_by data.length
decreasing_by
  obtain ⟨b, hb⟩ : ∃ b, data.getLast? = some b := _h.elim (⟨_, ·⟩) (⟨_, ·⟩)
  obtain ⟨ys, rfl⟩ := List.getLast?_eq_some_iff.1 hb
  simp

/-- `read_passphrase(what, confirm)`: the source's bytes less trailing line ends, never empty. -/
def PassphraseConfig.readPassphrase (env : Env) (self : PassphraseConfig) (what : String)
    (confirm : Bool) : Except String Bytes := do
  let data := stripNewlines (← self.readPassphraseImpl env what confirm)
  if data.isEmpty then throw "Password is empty" else pure data

/-- The loop stops at a byte that is not a line end, having popped only line ends. -/
theorem stripNewlines_spec (data : Bytes) :
    ∃ t, data = stripNewlines data ++ t ∧ (∀ b ∈ t, b = 10 ∨ b = 13) ∧
      (stripNewlines data).getLast? ≠ some 10 ∧ (stripNewlines data).getLast? ≠ some 13 := by
  induction data using stripNewlines.induct with
  | case1 data h ih =>
    obtain ⟨t, ht, hnl, hlast⟩ := ih
    rw [stripNewlines, dif_pos h]
    obtain ⟨b, hb⟩ : ∃ b, data.getLast? = some b := h.elim (⟨_, ·⟩) (⟨_, ·⟩)
    obtain ⟨ys, rfl⟩ := List.getLast?_eq_some_iff.1 hb
    simp only [List.dropLast_concat, List.getLast?_concat, Option.some.injEq] at ht h hlast ⊢
    refine ⟨t ++ [b], by rw [← List.append_assoc, ← ht], fun c hc => ?_, hlast⟩
    rcases List.mem_append.1 hc with hc | hc
    · exact hnl c hc
    · exact (List.mem_singleton.1 hc) ▸ h
  | case2 data h =>
    rw [stripNewlines, dif_neg h]
    exact ⟨[], by simp, by simp, not_or.1 h⟩

/-- Popping line ends from a passphrase followed by line ends gives the passphrase. -/
theorem stripNewlines_append {p t : Bytes} (ht : ∀ b ∈ t, b = 10 ∨ b = 13)
    (hp : p.getLast? ≠ some 10 ∧ p.getLast? ≠ some 13) : stripNewlines (p ++ t) = p := by
  induction t using List.reverseRecOn with
  | nil => rw [List.append_nil, stripNewlines, dif_neg (not_or.2 hp)]
  | append_singleton t b ih =>
    have hb : (p ++ t ++ [b]).getLast? = some 10 ∨ (p ++ t ++ [b]).getLast? = some 13 := by
      simpa using ht b (by simp)
    rw [← List.append_assoc, stripNewlines, dif_pos hb, List.dropLast_concat]
    exact ih fun c hc => ht c (by simp [hc])

/-- A passphrase read is exactly what its source gave, less the line ends after its last
other byte: it is never empty and never ends with LF or CR. -/
theorem readPassphrase_eq_ok {env : Env} {self : PassphraseConfig} {what : String}
    {confirm : Bool} {p : Bytes} :
    self.readPassphrase env what confirm = .ok p ↔
      ∃ raw t, self.readPassphraseImpl env what confirm = .ok raw ∧ raw = p ++ t ∧
        (∀ b ∈ t, b = 10 ∨ b = 13) ∧
        ∃ b, p.getLast? = some b ∧ b ≠ 10 ∧ b ≠ 13 := by
  simp only [PassphraseConfig.readPassphrase, bind_eq_ok]
  constructor
  · rintro ⟨raw, hraw, h⟩
    split at h
    · cases h
    · rename_i hne
      cases h
      obtain ⟨t, ht, hnl, h10, h13⟩ := stripNewlines_spec raw
      obtain ⟨b, hb⟩ : ∃ b, (stripNewlines raw).getLast? = some b :=
        Option.ne_none_iff_exists'.1 (by rw [Ne, List.getLast?_eq_none_iff]; simpa using hne)
      exact ⟨raw, t, hraw, ht, hnl, b, hb, fun h => h10 (h ▸ hb), fun h => h13 (h ▸ hb)⟩
  · rintro ⟨raw, t, hraw, rfl, hnl, b, hb, h10, h13⟩
    have hstrip : stripNewlines (p ++ t) = p :=
      stripNewlines_append hnl ⟨by simp [hb, h10], by simp [hb, h13]⟩
    refine ⟨_, hraw, ?_⟩
    rw [hstrip, if_neg (by rintro h; simp [List.isEmpty_iff.1 h] at hb)]
    rfl

/-! ## Parsing the configuration -/

/-- What `Config::parse` calls outside this repository: the `toml` parser (with its first
error), `SyncRules::parse(&rules, "rules")`, and `PRIVATE_DIR_NAME`. -/
structure Loader (Rules : Type) where
  tomlParse : String → Except SyntaxError Table
  parseRules : Table → String → Except String Rules
  privateDirName : String

/-- `Config`: the client root, the private directory, where the server is and its named root,
the passphrase source, the block size for new transfers, and the sync rules. -/
structure Config (Rules : Type) where
  clientRoot : PathBuf
  privateRoot : PathBuf
  server : ServerConfig
  serverRoot : String
  passphrase : PassphraseConfig
  blockSize : UInt32
  syncRules : Rules

/-- How the loader ends when it does not return a value: an error, whose text is what the
user sees, or the panic of an `assert!` or an `expect`. -/
inductive LoadError
  | err (msg : String)
  | panic (msg : String)
  deriving DecidableEq

section Extract

variable {α : Type} (display : String) (table : Table) (sectionName : String)

/-- The general arm of `extract!`: `key` under `table`, converted, each failure an error that
names the file, the key and its section. -/
def extract (typePrefix key typeSuffix : String) (convert : Value → Option α)
    (convertName : String) : Except String α :=
  match table.lookup key with
  | none => .error (display ++ ": Missing " ++ typePrefix ++ key ++ typeSuffix ++ " under " ++
      sectionName)
  | some v =>
    match convert v with
    | none => .error (display ++ ": Key '" ++ key ++ "' under " ++ sectionName ++ " must be " ++
        convertName)
    | some a => .ok a

/-- `extract!(from, section, [key])`: a table. -/
def extractTable (key : String) : Except String Table :=
  extract display table sectionName "section [" key "]" Value.asTable "a table"

/-- `extract!(from, section, key, str)`: a string. -/
def extractStr (key : String) : Except String String :=
  extract display table sectionName "key \"" key "\"" Value.asStr "a string"

/-- `extract!(from, section, key, i64)`: an integer. -/
def extractInt (key : String) : Except String Int :=
  extract display table sectionName "key \"" key "\"" Value.asInteger "an integer"

theorem extract_eq_ok {typePrefix key typeSuffix : String} {convert : Value → Option α}
    {convertName : String} {a : α} :
    extract display table sectionName typePrefix key typeSuffix convert convertName = .ok a ↔
      ∃ v, table.lookup key = some v ∧ convert v = some a := by
  unfold extract
  split <;> rename_i hv
  · simp [hv]
  · split <;> simp_all

end Extract

/-- `bs as u32`: the low 32 bits of an `i64`. -/
def i64AsU32 (i : Int) : UInt32 := UInt32.ofNat (i % 4294967296).toNat

/-- The `Config { .. }` expression of `Config::parse`, `parent` being the configuration's
directory: its fields in order, the first failure ending the parse. -/
def Config.ofTable {Rules : Type} (L : Loader Rules) (display : String) (parent : PathBuf)
    (table : Table) : Except String (Config Rules) := do
  let general ← extractTable display table "top level" "general"
  let rules ← extractTable display table "top level" "rules"
  let path ← extractStr display general "[general]" "path"
  let server ← extractStr display general "[general]" "server"
  let server ← (ServerConfig.fromStr server).mapError (display ++ ": " ++ ·)
  let serverRoot ← extractStr display general "[general]" "server_root"
  let passphrase ← extractStr display general "[general]" "passphrase"
  let passphrase ← (PassphraseConfig.fromStr passphrase).mapError (display ++ ": " ++ ·)
  let bs ← extractInt display general "[general]" "block_size"
  if bs < 256 then
    throw (display ++ ": Block size " ++ toString bs ++ " too small (minimum 256)")
  else if bs > 1024 * 1024 * 1024 then
    throw (display ++ ": Block size " ++ toString bs ++ " too large (maximum 1GB)")
  else do
    let syncRules ← (L.parseRules rules "rules").mapError
      fun _ => display ++ ": Invalid sync rules configuration"
    pure { clientRoot := parent.join (.ofString path)
           privateRoot := parent.join (.ofString L.privateDirName)
           server := server.relativise parent
           serverRoot
           passphrase := passphrase.relativise parent
           blockSize := i64AsU32 bs
           syncRules }

/-- `Config::parse(filename, s)`: `filename` must end with `config.toml` and have a parent. -/
def Config.parse {Rules : Type} (L : Loader Rules) (filename : PathBuf) (s : String) :
    Except LoadError (Config Rules) :=
  if !filename.endsWith (.ofString configFileName) then
    .error (.panic "assertion failed: filename.ends_with(CONFIG_FILE_NAME)")
  else match filename.parent with
  | none => .error (.panic "Config path missing parent")
  | some parent => do
    let display := filename.display
    let table ← (L.tomlParse s).mapError fun e => .err (display ++ ": Syntax error in at line " ++
      toString (e.line + 1) ++ ", column " ++ toString e.col ++ ": " ++ e.desc)
    (Config.ofTable L display parent table).mapError .err

/-- `full_path()`: the `expect` panics when the private root has no parent. -/
def Config.fullPath {Rules : Type} (c : Config Rules) : Except LoadError PathBuf :=
  match c.privateRoot.parent with
  | some p => .ok (p.join (.ofString configFileName))
  | none => .error (.panic "private root has no parent")

/-- `Config::file_location(given)`: the given path, with `config.toml` pushed unless it ends
so, against the current directory when relative. -/
def Config.fileLocation (env : Env) (given : PathBuf) : Except String PathBuf :=
  let filename := if !given.endsWith (.ofString configFileName)
    then given.join (.ofString configFileName) else given
  if filename.isRelative then
    (env.currentDir.mapError fun _ => "Failed to determine current directory").map
      (·.join filename)
  else .ok filename

/-- `Config::read(filename)`. -/
def Config.read {Rules : Type} (L : Loader Rules) (env : Env) (given : PathBuf) :
    Except LoadError (Config Rules) := do
  let filename ← (Config.fileLocation env given).mapError .err
  let text ← (env.readToString filename).mapError fun e => .err (filename.display ++ ": " ++ e)
  Config.parse L filename text

/-! ## What the loader guarantees -/

/-- Every error of `x` begins with `display ++ ": "`: its message names the file. -/
def NamesFile {α : Type} (display : String) (x : Except String α) : Prop :=
  ∀ m, x = .error m → ∃ rest, m = display ++ ": " ++ rest

namespace NamesFile

variable {α β : Type} {d : String}

theorem ok (a : α) : NamesFile d (.ok a) := fun _ h => by cases h

theorem error {rest : String} : NamesFile d (.error (d ++ (": " ++ rest)) : Except String α) :=
  fun _ h => ⟨rest, by cases h; exact (String.append_assoc _ _ _).symm⟩

theorem bind {x : Except String α} {f : α → Except String β} (hx : NamesFile d x)
    (hf : ∀ a, NamesFile d (f a)) : NamesFile d (x >>= f) := by
  intro m h
  cases x with
  | error e =>
    obtain rfl : e = m := by simpa [Bind.bind, Except.bind] using h
    exact hx e rfl
  | ok a => exact hf a m h

theorem mapError {ε : Type} {f : ε → String} (x : Except ε α)
    (hf : ∀ e, ∃ rest, f e = d ++ ": " ++ rest) : NamesFile d (x.mapError f) := by
  cases x with
  | error e => intro m h; cases h; exact hf e
  | ok a => exact ok a

theorem of_extract {table : Table} {sectionName typePrefix key typeSuffix : String}
    {convert : Value → Option α} {convertName : String} :
    NamesFile d (extract d table sectionName typePrefix key typeSuffix convert convertName) := by
  unfold extract
  split
  · rw [show ": Missing " = ": " ++ "Missing " from rfl]; simp only [String.append_assoc]
    exact error
  · split
    · rw [show ": Key '" = ": " ++ "Key '" from rfl]; simp only [String.append_assoc]
      exact error
    · exact ok _

end NamesFile

/-- Every error of the `Config { .. }` expression names the file. -/
theorem Config.ofTable_namesFile {Rules : Type} (L : Loader Rules) (display : String)
    (parent : PathBuf) (table : Table) :
    NamesFile display (Config.ofTable L display parent table) := by
  refine .bind .of_extract fun general => .bind .of_extract fun rules =>
    .bind .of_extract fun path => .bind .of_extract fun server =>
    .bind (.mapError _ fun e => ⟨e, rfl⟩) fun server => .bind .of_extract fun serverRoot =>
    .bind .of_extract fun passphrase => .bind (.mapError _ fun e => ⟨e, rfl⟩) fun passphrase =>
    .bind .of_extract fun bs => ?_
  split_ifs
  · rw [show ": Block size " = ": " ++ "Block size " from rfl]; simp only [String.append_assoc]
    exact .error
  · rw [show ": Block size " = ": " ++ "Block size " from rfl]; simp only [String.append_assoc]
    exact .error
  · exact .bind (.mapError _ fun _ => ⟨"Invalid sync rules configuration",
      by rw [String.append_assoc]; rfl⟩) fun _ => .ok _

/-- A path that ends with `config.toml` has a parent, and is, component for component, that
parent joined with `config.toml`. -/
theorem parent_of_endsWith {f : PathBuf} (h : f.endsWith (.ofString configFileName) = true) :
    ∃ parent, f.parent = some parent ∧
      (parent.join (.ofString configFileName)).comps = f.comps := by
  obtain ⟨init, hinit⟩ := PathBuf.endsWith_iff.1 h
  rw [ofString_configFileName] at hinit
  obtain ⟨parent, hp, hc⟩ := PathBuf.parent_of_comps hinit
  exact ⟨parent, hp, by rw [PathBuf.comps_join_normal _ ofString_configFileName, hc, hinit]⟩

/-- `parse` panics only on its assertion: the `expect` on the parent never fires. -/
theorem Config.parse_panic {Rules : Type} {L : Loader Rules} {filename : PathBuf} {s m : String}
    (h : Config.parse L filename s = .error (.panic m)) :
    filename.endsWith (.ofString configFileName) = false := by
  by_contra hend
  obtain ⟨parent, hp, -⟩ := parent_of_endsWith (by simpa using hend)
  rw [Config.parse, if_neg (by simpa using hend), hp] at h
  cases ht : L.tomlParse s with
  | error e => simp [ht, bind, Except.bind, Except.mapError] at h
  | ok table =>
    cases ho : Config.ofTable L filename.display parent table <;>
      simp [ht, ho, bind, Except.bind, Except.mapError] at h

/-- What an accepted configuration was parsed from: the file's directory, its table, and the
`Config { .. }` expression over them. -/
theorem Config.parse_eq_ok {Rules : Type} {L : Loader Rules} {filename : PathBuf} {s : String}
    {c : Config Rules} (h : Config.parse L filename s = .ok c) :
    ∃ parent table, filename.parent = some parent ∧
      (parent.join (.ofString configFileName)).comps = filename.comps ∧
      L.tomlParse s = .ok table ∧ Config.ofTable L filename.display parent table = .ok c := by
  by_cases hend : filename.endsWith (.ofString configFileName) = true
  · obtain ⟨parent, hp, hf⟩ := parent_of_endsWith hend
    rw [Config.parse, if_neg (by simpa using hend), hp] at h
    cases ht : L.tomlParse s with
    | error e => simp [ht, bind, Except.bind, Except.mapError] at h
    | ok table =>
      cases ho : Config.ofTable L filename.display parent table <;>
        simp [ht, ho, bind, Except.bind, Except.mapError] at h
      exact ⟨parent, table, hp, hf, rfl, h ▸ ho⟩
  · simp [Config.parse, hend] at h

/-- The paths and the block size of an accepted `Config { .. }` expression: the client root
and the private directory under `parent`, the server and the passphrase relativised against it,
and the block size within bounds. -/
theorem Config.ofTable_eq_ok {Rules : Type} {L : Loader Rules} {display : String}
    {parent : PathBuf} {table : Table} {c : Config Rules}
    (h : Config.ofTable L display parent table = .ok c) :
    c.privateRoot = parent.join (.ofString L.privateDirName) ∧
      (∃ (path : String) (server : ServerConfig) (passphrase : PassphraseConfig),
        c.clientRoot = parent.join (.ofString path) ∧
        c.server = server.relativise parent ∧ c.passphrase = passphrase.relativise parent) ∧
      ∃ general bs, extractTable display table "top level" "general" = .ok general ∧
        extractInt display general "[general]" "block_size" = .ok bs ∧
        256 ≤ bs ∧ bs ≤ 1024 * 1024 * 1024 ∧ c.blockSize = i64AsU32 bs := by
  simp only [Config.ofTable, bind_eq_ok] at h
  obtain ⟨general, hg, _, -, path, -, _, -, server, -, _, -, _, -, passphrase, -, bs, hbs, h⟩ :=
    h
  split_ifs at h with h1 h2
  obtain ⟨_, -, h⟩ := bind_eq_ok.1 h
  cases h
  exact ⟨rfl, ⟨path, server, passphrase, rfl, rfl, rfl⟩, general, bs, hg, hbs, by omega,
    by omega, rfl⟩

/-- Every error `parse` returns begins with the file's name: the syntax error, each missing or
mistyped key, the server and passphrase settings, the block-size bounds and the sync rules. -/
theorem parse_errors_name_file {Rules : Type} (L : Loader Rules) (filename : PathBuf)
    (s m : String) (h : Config.parse L filename s = .error (.err m)) :
    ∃ rest, m = filename.display ++ ": " ++ rest := by
  by_cases hend : filename.endsWith (.ofString configFileName) = true
  · obtain ⟨parent, hp, -⟩ := parent_of_endsWith hend
    rw [Config.parse, if_neg (by simpa using hend), hp] at h
    cases ht : L.tomlParse s with
    | error e =>
      simp only [ht, bind, Except.bind, Except.mapError, Except.error.injEq,
        LoadError.err.injEq] at h
      subst h
      exact ⟨"Syntax error in at line " ++ toString (e.line + 1) ++ ", column " ++
        toString e.col ++ ": " ++ e.desc, by simp only [String.append_assoc]; rfl⟩
    | ok table =>
      cases ho : Config.ofTable L filename.display parent table with
      | error m' =>
        simp only [ht, ho, bind, Except.bind, Except.mapError, Except.error.injEq,
          LoadError.err.injEq] at h
        exact h ▸ Config.ofTable_namesFile L _ parent table m' ho
      | ok c => simp [ht, ho, bind, Except.bind, Except.mapError] at h
  · simp [Config.parse, hend] at h

theorem parse_errors_name_file_syntax :
    let L : Loader Unit :=
      ⟨fun _ => .error ⟨0, 8, "expected `]`"⟩, fun _ _ => .ok (), ".ensync"⟩
    let f := PathBuf.ofString "/foo/bar/config.toml"
    ∃ m, Config.parse L f "[general" = .error (.err m) ∧
      ∃ rest, m = f.display ++ ": " ++ rest := by
  intro L f
  exact ⟨_, rfl, parse_errors_name_file L f "[general" _ rfl⟩

theorem toNat_i64AsU32 {i : Int} (h0 : 0 ≤ i) (h : i < 4294967296) :
    ((i64AsU32 i).toNat : Int) = i := by
  have hlt : (i % 4294967296).toNat < 4294967296 := by omega
  have hmod : (i64AsU32 i).toNat = (i % 4294967296).toNat % 4294967296 := by
    simp [i64AsU32, UInt32.toNat, UInt32.ofNat]
  rw [hmod, Nat.mod_eq_of_lt hlt]
  omega

/-- An accepted block size is exactly the integer under `[general]`, between 256 and 1 GiB:
the `as u32` conversion never truncates it. -/
theorem parse_blockSize {Rules : Type} (L : Loader Rules) (filename : PathBuf) (s : String)
    (c : Config Rules) (h : Config.parse L filename s = .ok c) :
    ∃ table general, L.tomlParse s = .ok table ∧
      table.lookup "general" = some (.table general) ∧
      general.lookup "block_size" = some (.integer c.blockSize.toNat) ∧
      256 ≤ c.blockSize.toNat ∧ c.blockSize.toNat ≤ 1024 * 1024 * 1024 := by
  obtain ⟨parent, table, -, -, ht, ho⟩ := Config.parse_eq_ok h
  obtain ⟨-, -, general, bs, hg, hbs, hlo, hhi, hc⟩ := Config.ofTable_eq_ok ho
  obtain ⟨_, hgv, hgt⟩ := (extract_eq_ok _ _ _).1 hg
  obtain ⟨_, hbv, hbi⟩ := (extract_eq_ok _ _ _).1 hbs
  have hsize : (c.blockSize.toNat : Int) = bs := hc ▸ toNat_i64AsU32 (by omega) (by omega)
  simp only [Value.asTable_eq_some, Value.asInteger_eq_some] at hgt hbi
  subst hgt hbi
  exact ⟨table, general, ht, hgv, hsize ▸ hbv, by omega, by omega⟩

/-- The configuration of the source's `parse_minimal` test. -/
def minimalLoader : Loader Unit where
  tomlParse _ := .ok
    [("general", .table [("path", .string "/the/client/path"),
      ("server", .string "path:/the/server/path"), ("server_root", .string "r00t"),
      ("passphrase", .string "prompt"), ("block_size", .integer 65536)]),
     ("rules", .table [("root", .table
        [("files", .array [.table [("mode", .string "---/---")]])])])]
  parseRules _ _ := .ok ()
  privateDirName := ".ensync"

theorem parse_blockSize_minimal :
    ∃ c, Config.parse minimalLoader (.ofString "/foo/bar/config.toml") "" = .ok c ∧
      ∃ table general, minimalLoader.tomlParse "" = .ok table ∧
        table.lookup "general" = some (.table general) ∧
        general.lookup "block_size" = some (.integer c.blockSize.toNat) ∧
        256 ≤ c.blockSize.toNat ∧ c.blockSize.toNat ≤ 1024 * 1024 * 1024 :=
  ⟨_, rfl, parse_blockSize minimalLoader (.ofString "/foo/bar/config.toml") "" _ rfl⟩

/-- `full_path` of a parsed configuration is, component for component, the file it was parsed
from, when `PRIVATE_DIR_NAME` is one name. -/
theorem fullPath_parse {Rules : Type} (L : Loader Rules)
    (hdir : ∃ n, (PathBuf.ofString L.privateDirName).comps = [.normal n]) (filename : PathBuf)
    (s : String) (c : Config Rules) (h : Config.parse L filename s = .ok c) :
    ∃ f, c.fullPath = .ok f ∧ f.comps = filename.comps := by
  obtain ⟨parent, table, -, hf, -, ho⟩ := Config.parse_eq_ok h
  obtain ⟨hpriv, -⟩ := Config.ofTable_eq_ok ho
  obtain ⟨n, hn⟩ := hdir
  obtain ⟨dir, hdir, hcomps⟩ :=
    PathBuf.parent_of_comps (hpriv ▸ PathBuf.comps_join_normal parent hn)
  refine ⟨dir.join (.ofString configFileName), by rw [Config.fullPath, hdir], ?_⟩
  rw [← hf, PathBuf.comps_join_normal _ ofString_configFileName,
    PathBuf.comps_join_normal _ ofString_configFileName, hcomps]

theorem fullPath_parse_minimal :
    ∃ c, Config.parse minimalLoader (.ofString "/foo/bar/config.toml") "" = .ok c ∧
      ∃ f, c.fullPath = .ok f ∧ f.comps = (PathBuf.ofString "/foo/bar/config.toml").comps :=
  ⟨_, rfl, fullPath_parse minimalLoader ⟨".ensync", by decide⟩
    (.ofString "/foo/bar/config.toml") "" _ rfl⟩

/-- `full_path` respells the file: `parent` drops the doubled separator. -/
example : (Config.parse minimalLoader (.ofString "/foo//config.toml") "" >>= Config.fullPath) =
    .ok (.ofString "/foo/config.toml") :=
  rfl

/-- What `file_location` returns: `F`, the given path with `config.toml` pushed unless it ends
so, joined to the current directory when it is relative. -/
theorem Config.fileLocation_eq_ok {env : Env} {given f F : PathBuf}
    (hF : F = if !given.endsWith (.ofString configFileName) then
      given.join (.ofString configFileName) else given)
    (h : Config.fileLocation env given = .ok f) :
    (F.isRelative = true ∧ ∃ cwd, env.currentDir = .ok cwd ∧ f = cwd.join F) ∨
      (F.isRelative = false ∧ f = F) := by
  simp only [Config.fileLocation, ← hF] at h
  by_cases hrel : F.isRelative = true
  · simp only [hrel, ite_true] at h
    obtain ⟨cwd, hc, rfl⟩ := map_eq_ok.1 h
    cases hd : env.currentDir with
    | error e => simp [hd, Except.mapError] at hc
    | ok d =>
      simp only [hd, Except.mapError, Except.ok.injEq] at hc
      exact .inl ⟨hrel, d, rfl, hc ▸ rfl⟩
  · simp only [hrel, Bool.false_eq_true, ite_false, Except.ok.injEq] at h
    exact .inr ⟨by simpa using hrel, h.symm⟩

theorem endsWith_configFileName {f : PathBuf} :
    f.endsWith (.ofString configFileName) = true ↔
      f.comps.getLast? = some (.normal configFileName) := by
  rw [PathBuf.endsWith_iff, ofString_configFileName, List.getLast?_eq_some_iff]

/-- The path `file_location` gives ends with `config.toml`. -/
theorem Config.fileLocation_endsWith {env : Env} {given f : PathBuf}
    (h : Config.fileLocation env given = .ok f) : f.endsWith (.ofString configFileName) = true := by
  rw [endsWith_configFileName]
  have hF : (if !given.endsWith (.ofString configFileName) then
      given.join (.ofString configFileName) else given).comps.getLast? =
        some (.normal configFileName) := by
    by_cases hg : given.endsWith (.ofString configFileName) = true
    · simpa [hg] using endsWith_configFileName.1 hg
    · simp [hg, PathBuf.comps_join_normal _ ofString_configFileName]
  rcases Config.fileLocation_eq_ok rfl h with ⟨hrel, cwd, -, rfl⟩ | ⟨-, rfl⟩
  · exact PathBuf.getLast?_comps_join cwd (by simpa [PathBuf.isRelative] using hrel) hF
  · exact hF

/-- The path `file_location` gives is absolute whenever the current directory is. -/
theorem Config.fileLocation_isAbsolute {env : Env}
    (hcwd : ∀ cwd, env.currentDir = .ok cwd → cwd.isAbsolute = true) {given f : PathBuf}
    (h : Config.fileLocation env given = .ok f) : f.isAbsolute = true := by
  rcases Config.fileLocation_eq_ok rfl h with ⟨-, cwd, hc, rfl⟩ | ⟨hrel, rfl⟩
  · rw [PathBuf.isAbsolute_join, hcwd cwd hc, Bool.or_true]
  · simpa [PathBuf.isRelative] using hrel

/-- `file_location` gives a path that ends with `config.toml`, and is absolute whenever the
current directory is. -/
theorem fileLocation_absolute (env : Env) (given f : PathBuf)
    (h : Config.fileLocation env given = .ok f) :
    f.endsWith (.ofString configFileName) = true ∧
      ((∀ cwd, env.currentDir = .ok cwd → cwd.isAbsolute = true) → f.isAbsolute = true) :=
  ⟨Config.fileLocation_endsWith h, fun hcwd => Config.fileLocation_isAbsolute hcwd h⟩

theorem fileLocation_absolute_sync :
    let env : Env := ⟨.ok (.ofString "/home/user"), fun _ => .error "", fun _ => .error "",
      fun _ => .error "", fun _ _ => .error ""⟩
    ∃ f, Config.fileLocation env (.ofString "sync") = .ok f ∧
      f.endsWith (.ofString configFileName) = true ∧
      ((∀ cwd, env.currentDir = .ok cwd → cwd.isAbsolute = true) → f.isAbsolute = true) := by
  intro env
  exact ⟨_, rfl, fileLocation_absolute env (.ofString "sync") _ rfl⟩

/-- `read` never panics: `file_location` always gives `parse` a path that ends with
`config.toml`, which passes its assertion and has a parent. -/
theorem read_never_panics {Rules : Type} (L : Loader Rules) (env : Env) (given : PathBuf)
    (m : String) : Config.read L env given ≠ .error (.panic m) := by
  intro h
  cases hl : Config.fileLocation env given with
  | error e => simp [Config.read, hl, bind, Except.bind, Except.mapError] at h
  | ok f =>
    cases hr : env.readToString f with
    | error e => simp [Config.read, hl, hr, bind, Except.bind, Except.mapError] at h
    | ok text =>
      simp only [Config.read, hl, hr, bind, Except.bind, Except.mapError] at h
      have := Config.parse_panic h
      simp [Config.fileLocation_endsWith hl] at this

/-! ## Every path anchored

`relativise` resolves what the configuration names against the configuration's directory, so a
configuration loaded from an absolute path names nothing through the working directory. -/

/-- The server is reached without the working directory: a path server's path is absolute, a
shell server starts in an absolute directory. -/
def ServerConfig.anchored : ServerConfig → Bool
  | .path p => p.isAbsolute
  | .shell _ dir => dir.any PathBuf.isAbsolute

/-- The passphrase is read without the working directory: a passphrase file's path is
absolute, a passphrase command starts in an absolute directory. -/
def PassphraseConfig.anchored : PassphraseConfig → Bool
  | .prompt | .string _ => true
  | .file p => p.isAbsolute
  | .shell _ dir => dir.any PathBuf.isAbsolute

/-- Every path of the configuration is absolute and every command it runs starts in an
absolute directory. -/
def Config.anchored {Rules : Type} (c : Config Rules) : Bool :=
  c.clientRoot.isAbsolute && c.privateRoot.isAbsolute && c.server.anchored &&
    c.passphrase.anchored

theorem ServerConfig.anchored_relativise {parent : PathBuf} (hp : parent.isAbsolute = true)
    (s : ServerConfig) : (s.relativise parent).anchored = true := by
  cases s <;> simp [relativise, anchored, PathBuf.isAbsolute_join, hp]

theorem PassphraseConfig.anchored_relativise {parent : PathBuf} (hp : parent.isAbsolute = true)
    (s : PassphraseConfig) : (s.relativise parent).anchored = true := by
  cases s <;> simp [relativise, anchored, PathBuf.isAbsolute_join, hp]

/-- What the `Config { .. }` expression builds from an absolute directory is anchored. -/
theorem Config.anchored_ofTable {Rules : Type} {L : Loader Rules} {display : String}
    {parent : PathBuf} {table : Table} {c : Config Rules} (hp : parent.isAbsolute = true)
    (h : Config.ofTable L display parent table = .ok c) : c.anchored = true := by
  obtain ⟨hpriv, ⟨_, server, passphrase, hc, hs, hph⟩, -⟩ := Config.ofTable_eq_ok h
  simp [Config.anchored, hpriv, hc, hs, hph, PathBuf.isAbsolute_join, hp,
    ServerConfig.anchored_relativise hp, PassphraseConfig.anchored_relativise hp]

/-- A configuration parsed from an absolute file name is anchored: the file's directory is. -/
theorem Config.anchored_parse {Rules : Type} {L : Loader Rules} {filename : PathBuf}
    {s : String} {c : Config Rules} (hf : filename.isAbsolute = true)
    (h : Config.parse L filename s = .ok c) : c.anchored = true := by
  obtain ⟨parent, table, -, hjoin, -, ho⟩ := Config.parse_eq_ok h
  rw [PathBuf.comps_join_normal _ ofString_configFileName] at hjoin
  refine Config.anchored_ofTable (PathBuf.isAbsolute_iff_comps.2 ?_) ho
  have hroot := PathBuf.isAbsolute_iff_comps.1 hf
  rw [← hjoin] at hroot
  cases hc : parent.comps with
  | nil => simp [hc] at hroot
  | cons x xs => simpa [hc] using hroot

/-- A configuration `read` loads names every file and directory absolutely, whatever path it
was given, whenever the current directory is absolute. -/
theorem read_anchored {Rules : Type} (L : Loader Rules) (env : Env)
    (hcwd : ∀ cwd, env.currentDir = .ok cwd → cwd.isAbsolute = true) (given : PathBuf)
    (c : Config Rules) (h : Config.read L env given = .ok c) : c.anchored = true := by
  obtain ⟨f, hl, text, -, hp⟩ : ∃ f, Config.fileLocation env given = .ok f ∧
      ∃ text, env.readToString f = .ok text ∧ Config.parse L f text = .ok c := by
    simpa only [Config.read, bind_eq_ok, mapError_eq_ok] using h
  exact Config.anchored_parse (Config.fileLocation_isAbsolute hcwd hl) hp

theorem read_anchored_sync :
    let env : Env := ⟨.ok (.ofString "/home/user"), fun _ => .ok "", fun _ => .error "",
      fun _ => .error "", fun _ _ => .error ""⟩
    ∃ c, Config.read minimalLoader env (.ofString "sync") = .ok c ∧ c.anchored = true := by
  intro env
  exact ⟨_, rfl,
    read_anchored minimalLoader env (fun _ h => Except.ok.inj h ▸ rfl) (.ofString "sync") _ rfl⟩

end Ensync.Cli
