import Mathlib.Data.List.Infix

/-!
# Unix paths, by their components

A path is its bytes, and `Path.components` reads them as `std::path::Path::components` does on Unix: repeated and
trailing slashes do not count, a `.` counts only where it begins a path that has no root, and `..` is kept.

* `Path.body`, `Path.body_append_sep` : the components of the pieces between slashes;
* `Path.join`, `Path.components_join` : what is joined to a path comes after its components;
* `Path.Under`, `Path.under_join` : lexically under a directory.
-/

namespace Hypha.Lib

open List

/-- The bytes of an `OsStr`, or of a string in UTF-8. -/
abbrev Path := List UInt8

/-- The bytes of a string. -/
def utf8Bytes (s : String) : Path := s.toList.flatMap String.utf8EncodeChar

/-- `std::path::Component`. -/
inductive Component where
  | rootDir
  | curDir
  | parentDir
  | normal (name : Path)
  deriving DecidableEq, Repr

def Component.isNormal : Component → Bool
  | .normal _ => true
  | .rootDir | .curDir | .parentDir => false

namespace Path

/-- `/` and `.`. -/
def sep : UInt8 := 0x2F

def dot : UInt8 := 0x2E

/-- `parse_single_component`. -/
def parsePiece (piece : Path) : Option Component :=
  if piece = [dot] then none
  else if piece = [dot, dot] then some .parentDir
  else if piece = [] then none
  else some (.normal piece)

/-- What is between slashes. -/
def pieces (path : Path) : List Path := path.splitOnP (· == sep)

def body (path : Path) : List Component := (pieces path).filterMap parsePiece

def hasRoot (path : Path) : Bool := path.head? == some sep

/-- `include_cur_dir`. -/
def includeCurDir (path : Path) : Bool := !hasRoot path && (pieces path).head? == some [dot]

def components (path : Path) : List Component :=
  (if hasRoot path then [.rootDir] else if includeCurDir path then [.curDir] else []) ++ body path

def isAbsolute (path : Path) : Bool := hasRoot path

/-- `Path::join`: an absolute path replaces, any other is put after a slash. -/
def join (base rel : Path) : Path :=
  if isAbsolute rel then rel
  else if base.getLast? = none ∨ base.getLast? = some sep then base ++ rel
  else base ++ sep :: rel

/-- Lexically under a directory: its components, and then only names. -/
def Under (dir path : Path) : Prop := ∃ names : List Path, components path = components dir ++ names.map .normal

/-! ## The pieces -/

theorem body_nil : body [] = [] := rfl

theorem pieces_append_sep (p q : Path) : pieces (p ++ sep :: q) = pieces p ++ pieces q :=
  splitOnP_append_cons p q (beq_self_eq_true sep)

theorem body_append_sep (p q : Path) : body (p ++ sep :: q) = body p ++ body q := by
  unfold body
  rw [pieces_append_sep, filterMap_append]

theorem head?_pieces_append_sep (p q : Path) : (pieces (p ++ sep :: q)).head? = (pieces p).head? := by
  rw [pieces_append_sep]
  exact head?_append_of_ne_nil _ (splitOnP_ne_nil _ p)

theorem parsePiece_cases {piece : Path} {c : Component} (h : parsePiece piece = some c) :
    c = .parentDir ∨ c = .normal piece := by
  unfold parsePiece at h
  split_ifs at h
  · exact .inl (Option.some.inj h).symm
  · exact .inr (Option.some.inj h).symm

theorem eq_of_parsePiece {piece : Path} (h : parsePiece piece = some .parentDir) : piece = [dot, dot] := by
  unfold parsePiece at h
  split_ifs at h with hdot hdots hnil
  · exact hdots
  · cases h

/-- The pieces give names and `..`. -/
theorem mem_body {path : Path} {c : Component} (h : c ∈ body path) : c = .parentDir ∨ c.isNormal = true := by
  obtain ⟨piece, -, hpiece⟩ := mem_filterMap.mp h
  rcases parsePiece_cases hpiece with rfl | rfl
  · exact .inl rfl
  · exact .inr rfl

theorem body_subset_components (path : Path) : body path ⊆ components path := subset_append_right _ _

/-- The names of a path without `..` are what its pieces give. -/
theorem filter_components {path : Path} (h : Component.parentDir ∉ components path) :
    (components path).filter Component.isNormal = body path := by
  have hbody : (body path).filter Component.isNormal = body path := by
    refine filter_eq_self.mpr fun c hc => (mem_body hc).resolve_left ?_
    rintro rfl
    exact h (body_subset_components path hc)
  unfold components
  rw [filter_append, hbody]
  split_ifs <;> rfl

theorem exists_names {cs : List Component} (h : ∀ c ∈ cs, c.isNormal = true) :
    ∃ names : List Path, cs = names.map .normal := by
  induction cs with
  | nil => exact ⟨[], rfl⟩
  | cons c cs ih =>
    obtain ⟨names, rfl⟩ := ih fun d hd => h d (mem_cons_of_mem c hd)
    cases c with
    | normal name => exact ⟨name :: names, rfl⟩
    | rootDir | curDir | parentDir => cases h _ mem_cons_self

/-! ## Joining -/

theorem hasRoot_append {p : Path} (hp : p ≠ []) (q : Path) : hasRoot (p ++ q) = hasRoot p := by
  unfold hasRoot
  rw [head?_append_of_ne_nil _ hp]

/-- A path that begins with another and a slash begins as it does. -/
theorem components_append_sep {p : Path} (hp : p ≠ []) (q : Path) :
    components (p ++ sep :: q) = components p ++ body q := by
  unfold components includeCurDir
  rw [hasRoot_append hp, head?_pieces_append_sep, body_append_sep, append_assoc]

theorem components_concat_sep {p : Path} (hp : p ≠ []) : components (p ++ [sep]) = components p := by
  rw [components_append_sep hp, body_nil, append_nil]

theorem components_root (q : Path) : components (sep :: q) = .rootDir :: body q := by
  have hbody : body (sep :: q) = body q := by
    rw [← nil_append (sep :: q), body_append_sep, body_nil, nil_append]
  have hroot : hasRoot (sep :: q) = true := beq_self_eq_true _
  unfold components
  rw [hbody, if_pos hroot, singleton_append]

theorem components_join {base rel : Path} (hbase : base ≠ []) (hrel : isAbsolute rel = false) :
    components (join base rel) = components base ++ body rel := by
  unfold join
  rw [if_neg (Bool.eq_false_iff.mp hrel)]
  split_ifs with hlast
  · -- the base ends with a slash
    have hsep := hlast.resolve_left (mt getLast?_eq_none_iff.mp hbase)
    obtain ⟨p, rfl⟩ := getLast?_eq_some_iff.mp hsep
    rw [append_assoc, singleton_append]
    rcases eq_or_ne p [] with rfl | hp
    · rw [nil_append, nil_append, components_root, components_root, body_nil]
      rfl
    · rw [components_append_sep hp, components_concat_sep hp]
  · exact components_append_sep hbase rel

/-- A path without root and `..` stays in the directory that it is joined to. -/
theorem under_join {base rel : Path} (hbase : base ≠ []) (hrel : isAbsolute rel = false)
    (hparent : Component.parentDir ∉ components rel) : Under base (join base rel) := by
  have hnormal : ∀ c ∈ body rel, c.isNormal = true := by
    intro c hc
    rw [← filter_components hparent] at hc
    exact (mem_filter.mp hc).2
  obtain ⟨names, hnames⟩ := exists_names hnormal
  exact ⟨names, by rw [components_join hbase hrel, hnames]⟩

end Path

end Hypha.Lib
