import Hypha.Lib.Text

/-!
# Lines of a text

`splitInclusive` cuts a text after every separator, as `str::split_inclusive` does, and `lines` takes the line ends off
the pieces between `\n`, as `str::lines` does: a `\n`, and the `\r` before it. A `\r` without a `\n` is no line end.

* `flatten_splitInclusive`, `splitInclusive_append` : the pieces make the text, and each ends at its separator;
* `lineOf_crlf`, `lineOf_lf`, `lineOf_unended`, `lineOf_prefix` : a line and its line end;
* `slice`, `slice_eq_some_iff` : the text at a range of bytes, which has to begin and to end between two characters;
* `exists_piece_of_infix` : a text without separators lies within one piece.
-/

namespace Hypha.Lib

open List String

/-! ## Ranges of bytes -/

/-- `str::get(start..start + len)`. -/
def slice (start len : Nat) (text : List Char) : Option (List Char) := do
  let rest ← drain start text
  let post ← drain len rest
  return rest.take (rest.length - post.length)

theorem slice_eq_some_iff {start len : Nat} {text s : List Char} :
    slice start len text = some s ↔ ∃ pre post, text = pre ++ (s ++ post) ∧ utf8Len pre = start ∧ utf8Len s = len := by
  have htake : ∀ t post : List Char, (t ++ post).take ((t ++ post).length - post.length) = t := fun t post => by
    rw [List.length_append, Nat.add_sub_cancel, take_left]
  unfold slice
  simp only [Option.bind_eq_bind, Option.bind_eq_some_iff, drain_eq_some_iff, Option.pure_def, Option.some.injEq]
  constructor
  · rintro ⟨_, ⟨pre, rfl, hpre⟩, post, ⟨t, rfl, ht⟩, hs⟩
    rw [htake] at hs
    exact ⟨pre, post, by rw [hs], hpre, by rw [← hs, ht]⟩
  · rintro ⟨pre, post, rfl, hpre, hs⟩
    exact ⟨s ++ post, ⟨pre, rfl, hpre⟩, post, ⟨s, rfl, hs⟩, htake s post⟩

/-! ## Pieces up to a separator -/

/-- `str::split_inclusive`. -/
def splitInclusive (sep : Char) : List Char → List (List Char)
  | [] => []
  | c :: text =>
    if c = sep then [c] :: splitInclusive sep text
    else match splitInclusive sep text with
      | [] => [[c]]
      | piece :: pieces => (c :: piece) :: pieces

theorem splitInclusive_cons_self (sep : Char) (text : List Char) :
    splitInclusive sep (sep :: text) = [sep] :: splitInclusive sep text := if_pos rfl

/-- A separator ends a piece. -/
theorem splitInclusive_append {sep : Char} (text : List Char) :
    ∀ {body : List Char}, sep ∉ body →
      splitInclusive sep (body ++ sep :: text) = (body ++ [sep]) :: splitInclusive sep text
  | [], _ => splitInclusive_cons_self sep text
  | c :: body, h => by
    obtain ⟨hc, hbody⟩ := ne_and_not_mem_of_not_mem_cons h
    rw [cons_append, splitInclusive, if_neg (Ne.symm hc), splitInclusive_append text hbody]
    rfl

/-- What no separator ends is one piece. -/
theorem splitInclusive_unended {sep : Char} :
    ∀ {body : List Char}, sep ∉ body → body ≠ [] → splitInclusive sep body = [body]
  | [c], h, _ => if_neg (Ne.symm (ne_and_not_mem_of_not_mem_cons h).1)
  | c :: d :: body, h, _ => by
    obtain ⟨hc, hbody⟩ := ne_and_not_mem_of_not_mem_cons h
    rw [splitInclusive, if_neg (Ne.symm hc), splitInclusive_unended hbody (cons_ne_nil d body)]

/-- A piece that a separator ends, and only there. -/
def Ended (sep : Char) (piece : List Char) : Prop := ∃ body, sep ∉ body ∧ piece = body ++ [sep]

@[simp] theorem flatten_splitInclusive (sep : Char) : ∀ text, (splitInclusive sep text).flatten = text
  | [] => rfl
  | c :: text => by
    have ih := flatten_splitInclusive sep text
    unfold splitInclusive
    split_ifs with hc
    · rw [flatten_cons, ih]
      rfl
    · split
      case h_1 hnil =>
        rw [hnil] at ih
        rw [← ih]
        rfl
      case h_2 piece pieces hpieces =>
        rw [hpieces, flatten_cons] at ih
        rw [flatten_cons, cons_append, ih]

/-- The first piece is unended only where it is the last. -/
theorem splitInclusive_eq_cons {sep : Char} {text piece : List Char} {pieces : List (List Char)}
    (h : splitInclusive sep text = piece :: pieces) :
    (Ended sep piece ∧ ∃ rest, splitInclusive sep rest = pieces) ∨ sep ∉ piece ∧ pieces = [] := by
  by_cases hsep : sep ∈ text
  · obtain ⟨body, rest, rfl, hbody⟩ := eq_append_cons_of_mem hsep
    rw [splitInclusive_append rest hbody] at h
    obtain ⟨rfl, rfl⟩ := cons.inj h
    exact .inl ⟨⟨body, hbody, rfl⟩, rest, rfl⟩
  · have hne : text ≠ [] := by
      rintro rfl
      cases h
    rw [splitInclusive_unended hsep hne] at h
    obtain ⟨rfl, rfl⟩ := cons.inj h
    exact .inr ⟨hsep, rfl⟩

/-- Every piece before another one is ended. -/
theorem splitInclusive_eq_append {sep : Char} {piece : List Char} {post : List (List Char)} :
    ∀ {pre : List (List Char)} {text : List Char}, splitInclusive sep text = pre ++ piece :: post →
      (∀ q ∈ pre, Ended sep q) ∧ (Ended sep piece ∨ sep ∉ piece)
  | [], text, h => by
    refine ⟨fun q hq => absurd hq not_mem_nil, ?_⟩
    rcases splitInclusive_eq_cons h with ⟨hended, -⟩ | ⟨hsep, -⟩
    · exact .inl hended
    · exact .inr hsep
  | q :: pre, text, h => by
    rcases splitInclusive_eq_cons h with ⟨hended, rest, hrest⟩ | ⟨-, hnil⟩
    · obtain ⟨hpre, hpiece⟩ := splitInclusive_eq_append hrest
      refine ⟨fun p hp => ?_, hpiece⟩
      rcases mem_cons.mp hp with rfl | hp
      · exact hended
      · exact hpre p hp
    · exact absurd (append_eq_nil_iff.mp hnil).2 (cons_ne_nil piece post)

/-- A text without separators that lies within ended pieces lies before the separator of one of them. -/
theorem exists_piece_of_infix {sep : Char} {s : List Char} (hs : sep ∉ s) (hne : s ≠ []) {right : List Char} :
    ∀ {pieces : List (List Char)} {left : List Char}, (∀ q ∈ pieces, Ended sep q) →
      pieces.flatten = left ++ (s ++ right) →
      ∃ a b c, a ++ (s ++ b) ++ [sep] ∈ pieces ∧ right = b ++ sep :: c
  | [], left, _, h => absurd (append_eq_nil_iff.mp (append_eq_nil_iff.mp h.symm).2).1 hne
  | q :: pieces, left, hended, h => by
    obtain ⟨body, -, rfl⟩ := hended q mem_cons_self
    have hrest : ∀ q ∈ pieces, Ended sep q := fun q hq => hended q (mem_cons_of_mem _ hq)
    rw [flatten_cons, List.append_assoc, singleton_append] at h
    rcases append_eq_append_iff.mp h with ⟨tail, -, htail⟩ | ⟨tail, rfl, htail⟩
    · -- it begins after the first piece, since it is not empty and its first character is no separator
      cases tail with
      | nil =>
        obtain ⟨d, s', rfl⟩ := exists_cons_of_ne_nil hne
        obtain ⟨rfl, -⟩ := cons.inj htail
        exact absurd mem_cons_self hs
      | cons d tail =>
        obtain ⟨a, b, c, hmem, hright⟩ := exists_piece_of_infix hs hne hrest (cons.inj htail).2
        exact ⟨a, b, c, mem_cons_of_mem _ hmem, hright⟩
    · rcases append_eq_append_iff.mp htail with ⟨b, rfl, hright⟩ | ⟨b, rfl, hb⟩
      · exact ⟨left, b, pieces.flatten, mem_cons_self, hright⟩
      · cases b with
        | nil =>
          rw [append_nil]
          refine ⟨left, [], pieces.flatten, ?_, hb.symm⟩
          rw [append_nil]
          exact mem_cons_self
        | cons d b =>
          obtain ⟨rfl, -⟩ := cons.inj hb
          exact absurd (mem_append_right _ mem_cons_self) hs

/-! ## Lines -/

/-- `str::strip_suffix` of one character. -/
def stripSuffix (c : Char) (text : List Char) : Option (List Char) :=
  if text.getLast? = some c then some text.dropLast else none

/-- A piece without its line end. -/
def lineOf (piece : List Char) : List Char :=
  match stripSuffix '\n' piece with
  | none => piece
  | some line => (stripSuffix '\r' line).getD line

/-- `str::lines`. -/
def lines (text : List Char) : List (List Char) := (splitInclusive '\n' text).map lineOf

theorem stripSuffix_concat (c : Char) (text : List Char) : stripSuffix c (text ++ [c]) = some text := by
  unfold stripSuffix
  rw [getLast?_concat, if_pos rfl, dropLast_concat]

theorem stripSuffix_eq_none {c : Char} {text : List Char} (h : ¬ [c] <:+ text) : stripSuffix c text = none := by
  refine if_neg fun hlast => h ?_
  obtain ⟨body, rfl⟩ := getLast?_eq_some_iff.mp hlast
  exact suffix_append body [c]

theorem lineOf_crlf (line : List Char) : lineOf (line ++ ['\r', '\n']) = line := by
  unfold lineOf
  rw [append_cons, stripSuffix_concat]
  show (stripSuffix '\r' (line ++ ['\r'])).getD (line ++ ['\r']) = line
  rw [stripSuffix_concat]
  rfl

theorem lineOf_lf {line : List Char} (h : ¬ ['\r'] <:+ line) : lineOf (line ++ ['\n']) = line := by
  unfold lineOf
  rw [stripSuffix_concat]
  show (stripSuffix '\r' line).getD line = line
  rw [stripSuffix_eq_none h]
  rfl

theorem lineOf_unended {piece : List Char} (h : '\n' ∉ piece) : lineOf piece = piece := by
  unfold lineOf
  rw [stripSuffix_eq_none fun hsuffix => h (hsuffix.subset (mem_singleton_self _))]

/-- A piece ends in `\r\n`. -/
def EndsCrlf (piece : List Char) : Prop := ['\r', '\n'] <:+ piece

instance (piece : List Char) : Decidable (EndsCrlf piece) := inferInstanceAs (Decidable (_ <:+ _))

/-- The two line ends. -/
theorem Ended.cases {piece : List Char} (h : Ended '\n' piece) :
    EndsCrlf piece ∧ piece = lineOf piece ++ ['\r', '\n'] ∧ '\n' ∉ lineOf piece ∨
      ¬ EndsCrlf piece ∧ piece = lineOf piece ++ ['\n'] ∧ '\n' ∉ lineOf piece := by
  obtain ⟨body, hbody, rfl⟩ := h
  by_cases hcr : ['\r'] <:+ body
  · obtain ⟨line, rfl⟩ := hcr
    have hpiece : line ++ ['\r'] ++ ['\n'] = line ++ ['\r', '\n'] := append_cons line '\r' ['\n'] |>.symm
    rw [hpiece, lineOf_crlf]
    exact .inl ⟨suffix_append _ _, rfl, fun hmem => hbody (mem_append_left _ hmem)⟩
  · rw [lineOf_lf hcr]
    refine .inr ⟨?_, rfl, hbody⟩
    rintro ⟨line, hline⟩
    rw [append_cons] at hline
    exact hcr ⟨line, (append_inj' hline rfl).1⟩

/-- A piece is a line and a line end. -/
theorem exists_lineEnd {text piece : List Char} {pre post : List (List Char)}
    (h : splitInclusive '\n' text = pre ++ piece :: post) :
    ∃ lineEnd, piece = lineOf piece ++ lineEnd ∧ '\n' ∉ lineOf piece := by
  rcases (splitInclusive_eq_append h).2 with hended | hunended
  · rcases hended.cases with ⟨-, hpiece, hline⟩ | ⟨-, hpiece, hline⟩
    · exact ⟨_, hpiece, hline⟩
    · exact ⟨_, hpiece, hline⟩
  · rw [lineOf_unended hunended]
    exact ⟨[], (append_nil piece).symm, hunended⟩

end Hypha.Lib
