import Hypha.Lib.Lines

/-!
# Where a diagnostic points

`findConfigSpan` looks for the first line of a configuration file that contains a field and a value, and counts one byte
for the end of each line before it. A `\r\n` has two.

* `pointsAtFirst_iff` : the span is that line if no line before it ends in `\r\n`, and only by coincidence otherwise;
* `pointsAtFirst_fails` : the second line of a file with such line ends.
-/

namespace Hypha.Config

open List Lib
open String (utf8Len utf8Len_append)

/-- `miette::SourceSpan`, in bytes. -/
structure SourceSpan where
  offset : Nat
  length : Nat
  deriving DecidableEq, Repr

/-- `SourceSpan::from` of a range. -/
def SourceSpan.ofRange (start stop : Nat) : SourceSpan := ⟨start, stop - start⟩

/-- `line.contains(field) && line.contains(value)`. -/
def Matches (field value line : List Char) : Prop := field <:+: line ∧ value <:+: line

instance (field value line : List Char) : Decidable (Matches field value line) :=
  inferInstanceAs (Decidable (_ ∧ _))

/-- The loop. -/
def locate (field value : List Char) : Nat → List (List Char) → Option SourceSpan
  | _, [] => none
  | byteOffset, line :: rest =>
    if Matches field value line then
      let lineEnd := byteOffset + utf8Len line
      some (.ofRange byteOffset lineEnd)
    else locate field value (byteOffset + (utf8Len line + 1)) rest

def findConfigSpan (content field value : List Char) : Option SourceSpan := locate field value 0 (lines content)

/-! ## The loop up to the first line with both -/

variable {content field value : List Char}

theorem Matches.mono {line line' : List Char} (h : Matches field value line) (hl : line <:+: line') :
    Matches field value line' :=
  ⟨h.1.trans hl, h.2.trans hl⟩

/-- The bytes that the loop counts for some pieces. -/
def counted : List (List Char) → Nat
  | [] => 0
  | piece :: pieces => utf8Len (lineOf piece) + 1 + counted pieces

/-- How many pieces end in `\r\n`. -/
def crlfs (pieces : List (List Char)) : Nat := pieces.countP (EndsCrlf ·)

/-- One byte is lost for each `\r\n`. -/
theorem counted_add_crlfs :
    ∀ {pieces : List (List Char)}, (∀ q ∈ pieces, Ended '\n' q) →
      counted pieces + crlfs pieces = utf8Len pieces.flatten
  | [], _ => rfl
  | q :: pieces, h => by
    have ih := counted_add_crlfs fun p hp => h p (mem_cons_of_mem q hp)
    unfold crlfs at ih ⊢
    rw [counted, countP_cons, flatten_cons, utf8Len_append]
    rcases (h q mem_cons_self).cases with ⟨hcrlf, hq, -⟩ | ⟨hcrlf, hq, -⟩
    · have hlen : utf8Len q = utf8Len (lineOf q) + 2 := by
        conv_lhs => rw [hq]
        rw [utf8Len_append]
        rfl
      rw [if_pos (decide_eq_true hcrlf)]
      omega
    · have hlen : utf8Len q = utf8Len (lineOf q) + 1 := by
        conv_lhs => rw [hq]
        rw [utf8Len_append]
        rfl
      rw [if_neg fun hd => hcrlf (of_decide_eq_true hd)]
      omega

/-- The lines before the first one with both are counted. -/
theorem locate_append (rest : List (List Char)) :
    ∀ {pre : List (List Char)} (byteOffset : Nat), (∀ q ∈ pre, ¬ Matches field value (lineOf q)) →
      locate field value byteOffset (pre.map lineOf ++ rest) = locate field value (byteOffset + counted pre) rest
  | [], byteOffset, _ => rfl
  | q :: pre, byteOffset, h => by
    rw [map_cons, cons_append, locate, if_neg (h q mem_cons_self),
      locate_append rest _ fun p hp => h p (mem_cons_of_mem q hp), counted, Nat.add_assoc]

/-- The pieces up to the first line that contains the field and the value. -/
structure FirstMatch (content field value : List Char) (pre : List (List Char)) (piece : List Char)
    (post : List (List Char)) : Prop where
  pieces : splitInclusive '\n' content = pre ++ piece :: post
  here : Matches field value (lineOf piece)
  first : ∀ q ∈ pre, ¬ Matches field value (lineOf q)

theorem exists_firstMatch (content field value : List Char) :
    (∃ pre piece post, FirstMatch content field value pre piece post) ∨
      ∀ line ∈ lines content, ¬ Matches field value line := by
  cases hfind : (splitInclusive '\n' content).find? (fun piece => Matches field value (lineOf piece)) with
  | none =>
    refine .inr fun line hline => ?_
    obtain ⟨piece, hpiece, rfl⟩ := mem_map.mp hline
    simpa using find?_eq_none.mp hfind piece hpiece
  | some piece =>
    obtain ⟨hhere, pre, post, hpieces, hfirst⟩ := find?_eq_some_iff_append.mp hfind
    exact .inl ⟨pre, piece, post, hpieces, of_decide_eq_true hhere, fun q hq => by simpa using hfirst q hq⟩

/-! ## The first line with both, and the span -/

/-- The first line that contains the field and the value. -/
def firstLine (content field value : List Char) : Option (List Char) := (lines content).find? (Matches field value ·)

/-- The pieces before that line. -/
def before (content field value : List Char) : List (List Char) :=
  (splitInclusive '\n' content).takeWhile fun piece => ¬ Matches field value (lineOf piece)

/-- A span is that of the first line with both, and there is one if there is such a line. -/
structure PointsAtFirst (content field value : List Char) : Prop where
  slices : ∀ span, findConfigSpan content field value = some span →
    ∃ line, firstLine content field value = some line ∧ slice span.offset span.length content = some line
  none_iff : findConfigSpan content field value = none ↔ ∀ line ∈ lines content, ¬ Matches field value line

namespace FirstMatch

variable {pre post : List (List Char)} {piece : List Char} (h : FirstMatch content field value pre piece post)
include h

theorem findConfigSpan_eq :
    findConfigSpan content field value = some ⟨counted pre, utf8Len (lineOf piece)⟩ := by
  unfold findConfigSpan lines
  rw [h.pieces, map_append, locate_append _ 0 h.first, map_cons, locate, if_pos h.here, Nat.zero_add]
  exact congrArg some (congrArg (SourceSpan.mk _) (Nat.add_sub_cancel_left _ _))

theorem firstLine_eq : firstLine content field value = some (lineOf piece) := by
  unfold firstLine lines
  rw [h.pieces, map_append, map_cons]
  refine find?_eq_some_iff_append.mpr ⟨decide_eq_true h.here, _, _, rfl, fun line hline => ?_⟩
  obtain ⟨q, hq, rfl⟩ := mem_map.mp hline
  simpa using h.first q hq

theorem before_eq : before content field value = pre := by
  unfold before
  rw [h.pieces, takeWhile_append_of_pos fun q hq => decide_eq_true (h.first q hq),
    takeWhile_cons_of_neg (by simpa using h.here), append_nil]

/-- There is a line with both, and it is found. -/
theorem pointsAtFirst :
    PointsAtFirst content field value ↔ slice (counted pre) (utf8Len (lineOf piece)) content = some (lineOf piece) := by
  constructor
  · intro hpoints
    obtain ⟨line, hline, hslice⟩ := hpoints.slices _ h.findConfigSpan_eq
    rw [h.firstLine_eq] at hline
    cases hline
    exact hslice
  · intro hslice
    refine ⟨fun span hspan => ⟨lineOf piece, h.firstLine_eq, ?_⟩, iff_of_false ?_ ?_⟩
    · rw [h.findConfigSpan_eq] at hspan
      cases hspan
      exact hslice
    · rw [h.findConfigSpan_eq]
      exact nofun
    · refine fun hnone => hnone (lineOf piece) ?_ h.here
      unfold lines
      rw [h.pieces]
      exact mem_map_of_mem (mem_append_right pre mem_cons_self)

/-- An empty field and an empty value are in every line. -/
theorem line_ne_nil (hpre : pre ≠ []) : lineOf piece ≠ [] := by
  obtain ⟨q, pre, rfl⟩ := exists_cons_of_ne_nil hpre
  intro hnil
  exact h.first q mem_cons_self (h.here.mono (hnil ▸ nil_infix))

end FirstMatch

/-! ## When the span is right -/

/-- The last `k` bytes before a line that ends in `\r` begin with that same line and a `\n`. -/
def Repeats (before line : List Char) (k : Nat) : Prop :=
  ['\r'] <:+ line ∧ ∃ left mid, before = left ++ (line ++ '\n' :: mid) ∧ utf8Len (line ++ '\n' :: mid) = k

/-- Ended pieces have a separator in the text that is left of them. -/
theorem mem_of_flatten_eq_append {pieces : List (List Char)} (hended : ∀ q ∈ pieces, Ended '\n' q)
    {left tail : List Char} (h : pieces.flatten = left ++ tail) (hne : tail ≠ []) : '\n' ∈ tail := by
  by_contra hmem
  obtain ⟨_, _, _, -, hright⟩ := exists_piece_of_infix hmem hne hended (h.trans (by rw [append_nil]))
  cases append_eq_nil_iff.mp hright.symm |>.2

/-- A text with both within the lines before the first one with both takes the `\r` of a line end. -/
theorem ends_of_infix {pre : List (List Char)} (hended : ∀ q ∈ pre, Ended '\n' q)
    (hfirst : ∀ q ∈ pre, ¬ Matches field value (lineOf q)) {line left right : List Char} (hline : '\n' ∉ line)
    (hne : line ≠ []) (hmatch : Matches field value line) (h : pre.flatten = left ++ (line ++ right)) :
    ['\r'] <:+ line ∧ ∃ mid, right = '\n' :: mid := by
  obtain ⟨a, b, c, hq, rfl⟩ := exists_piece_of_infix hline hne hended h
  by_cases hcr : ['\r'] <:+ a ++ (line ++ b)
  · obtain ⟨x, hx⟩ := hcr
    have hlineOf : lineOf (a ++ (line ++ b) ++ ['\n']) = x := by
      rw [← hx, ← append_cons]
      exact lineOf_crlf x
    have hnot : ¬ line <:+: x := fun hinfix => hfirst _ hq (hlineOf ▸ hmatch.mono hinfix)
    rcases eq_nil_or_concat b with rfl | ⟨b, d, rfl⟩
    · refine ⟨?_, c, rfl⟩
      rw [append_nil] at hx
      exact suffix_of_suffix_length_le ⟨x, hx⟩ (suffix_append a line) (length_pos_iff.mpr hne)
    · rw [concat_eq_append, ← List.append_assoc, ← List.append_assoc] at hx
      exact absurd ⟨a, b, (append_inj' hx rfl).1.symm⟩ hnot
  · refine absurd (hmatch.mono ?_) (hfirst _ hq)
    rw [lineOf_lf hcr]
    exact ⟨a, b, List.append_assoc a line b⟩

namespace FirstMatch

variable {pre post : List (List Char)} {piece : List Char} (h : FirstMatch content field value pre piece post)
include h

/-- The text around the line. -/
theorem content_eq : ∃ rest, content = pre.flatten ++ (lineOf piece ++ rest) ∧ '\n' ∉ lineOf piece := by
  obtain ⟨lineEnd, hpiece, hline⟩ := exists_lineEnd h.pieces
  refine ⟨lineEnd ++ post.flatten, ?_, hline⟩
  rw [← flatten_splitInclusive '\n' content, h.pieces, flatten_append, flatten_cons]
  conv_lhs => rw [hpiece, List.append_assoc]

/-- The text of the line, found somewhat before it. -/
theorem repeats {left right : List Char} (hslice : content = left ++ (lineOf piece ++ right))
    (hleft : utf8Len left + crlfs pre = utf8Len pre.flatten) (hzero : crlfs pre ≠ 0) :
    Repeats pre.flatten (lineOf piece) (crlfs pre) := by
  have hended := (splitInclusive_eq_append h.pieces).1
  have hpre : pre ≠ [] := by
    rintro rfl
    exact hzero rfl
  obtain ⟨rest, hcontent, hline⟩ := h.content_eq
  rw [hcontent] at hslice
  rcases append_eq_append_iff.mp hslice with ⟨tail, rfl, -⟩ | ⟨tail, htail, hrest⟩
  · rw [utf8Len_append] at hleft
    omega
  · have hlen : utf8Len tail = crlfs pre := by
      rw [htail, utf8Len_append] at hleft
      omega
    have hne : tail ≠ [] := by
      rintro rfl
      exact hzero hlen.symm
    have hnewline : '\n' ∈ tail := mem_of_flatten_eq_append hended htail hne
    rcases append_eq_append_iff.mp hrest with ⟨right', rfl, -⟩ | ⟨more, hmore, -⟩
    · obtain ⟨hcr, mid, rfl⟩ := ends_of_infix hended h.first hline (h.line_ne_nil hpre) h.here htail
      exact ⟨hcr, left, mid, htail, hlen⟩
    · -- it would reach into the line itself, over the line end before it
      exact absurd (hmore ▸ mem_append_left more hnewline) hline

theorem slice_eq_iff :
    slice (counted pre) (utf8Len (lineOf piece)) content = some (lineOf piece) ↔
      crlfs pre = 0 ∨ Repeats pre.flatten (lineOf piece) (crlfs pre) := by
  have hcount := counted_add_crlfs (splitInclusive_eq_append h.pieces).1
  obtain ⟨rest, hcontent, -⟩ := h.content_eq
  rw [slice_eq_some_iff]
  constructor
  · rintro ⟨left, right, hslice, hleft, -⟩
    by_cases hzero : crlfs pre = 0
    · exact .inl hzero
    · exact .inr (h.repeats hslice (hleft ▸ hcount) hzero)
  · rintro (hzero | ⟨-, left, mid, hbefore, hlen⟩)
    · exact ⟨pre.flatten, rest, hcontent, by omega, rfl⟩
    · refine ⟨left, '\n' :: mid ++ (lineOf piece ++ rest), ?_, ?_, rfl⟩
      · conv_lhs => rw [hcontent, hbefore]
        simp only [List.append_assoc]
      · rw [hbefore, utf8Len_append] at hcount
        omega

end FirstMatch

/-- No line before the first one with both ends in `\r\n`, or what the loop loses leads to the same text. -/
def Unshifted (content field value : List Char) : Prop :=
  ∀ line ∈ firstLine content field value,
    let k := crlfs (before content field value)
    k = 0 ∨ Repeats (before content field value).flatten line k

theorem unmatched {content field value : List Char} (h : ∀ line ∈ lines content, ¬ Matches field value line) :
    findConfigSpan content field value = none ∧ firstLine content field value = none := by
  constructor
  · unfold findConfigSpan
    have := locate_append [] 0 fun q hq => h (lineOf q) (mem_map_of_mem hq)
    rwa [append_nil] at this
  · exact find?_eq_none.mpr fun line hline => by simpa using h line hline

/-- The span points at the first line with both exactly if the lines before it have line ends of one byte, coincidences
apart. -/
theorem pointsAtFirst_iff (content field value : List Char) :
    PointsAtFirst content field value ↔ Unshifted content field value := by
  rcases exists_firstMatch content field value with ⟨pre, piece, post, h⟩ | hnone
  · rw [h.pointsAtFirst, h.slice_eq_iff]
    unfold Unshifted
    rw [h.firstLine_eq, h.before_eq]
    exact ⟨fun hk line hline => Option.some.inj hline ▸ hk, fun hk => hk _ rfl⟩
  · obtain ⟨hspan, hline⟩ := unmatched hnone
    refine iff_of_true ⟨fun span h => ?_, iff_of_true hspan hnone⟩ fun line h => ?_
    · rw [hspan] at h
      cases h
    · rw [hline] at h
      cases h

/-- The second line of a file with such line ends. -/
theorem pointsAtFirst_fails : ¬ PointsAtFirst "a = 1\r\nb = 2\r\n".toList "b".toList "2".toList := by
  intro h
  obtain ⟨line, hline, hslice⟩ := h.slices ⟨6, 5⟩ (by decide)
  have hline' : line = "b = 2".toList := Option.some.inj (hline.symm.trans (by decide))
  rw [hline'] at hslice
  exact absurd hslice (by decide)

end Hypha.Config
