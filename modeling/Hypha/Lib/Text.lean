import Mathlib.Data.String.Basic
import Mathlib.Data.List.DropRight
import Mathlib.Data.List.Infix

/-!
# Cutting UTF-8 texts

A text is the list of its characters, so it is valid; its bytes are counted (`String.utf8Len`) and not written out.

* `drain`, `drain_eq_some_iff` : taking a number of bytes off the front, which has to end between two characters;
* `IsBoundary`, `isBoundary_append_iff`, `isBoundary_of_ascii` : where characters begin;
* `trim`, `trim_trimmed`, `trim_eq_self`, `trim_eq_nil_iff` : taking the white space off both ends;
* `not_mem_of_mem_splitOn`, `splitOn_ended`, `splitOn_pushed`, `splitn2_append` : pieces between separators.
-/

namespace Hypha.Lib

open List String

/-- `String::drain(..n)` with what is left; it panics inside a character or beyond the end. -/
def drain : Nat → List Char → Option (List Char)
  | 0, text => some text
  | _ + 1, [] => none
  | n + 1, c :: text => if c.utf8Size ≤ n + 1 then drain (n + 1 - c.utf8Size) text else none

@[simp] theorem drain_zero (text : List Char) : drain 0 text = some text := by
  cases text <;> rfl

theorem drain_eq_some_iff {rest : List Char} :
    ∀ {n : Nat} {text : List Char}, drain n text = some rest ↔ ∃ pre, text = pre ++ rest ∧ utf8Len pre = n
  | 0, text => by
    rw [drain_zero]
    constructor
    · rintro ⟨⟩
      exact ⟨[], rfl, rfl⟩
    · rintro ⟨pre, rfl, hpre⟩
      rw [utf8Len_eq_zero.mp hpre]
      rfl
  | n + 1, [] => by
    refine iff_of_false nofun ?_
    rintro ⟨pre, hnil, hpre⟩
    rw [(append_eq_nil_iff.mp hnil.symm).1] at hpre
    cases hpre
  | n + 1, c :: text => by
    unfold drain
    split_ifs with hfits
    · rw [drain_eq_some_iff]
      constructor
      · rintro ⟨pre, rfl, hpre⟩
        exact ⟨c :: pre, rfl, by rw [utf8Len_cons]; omega⟩
      · rintro ⟨_ | ⟨d, pre⟩, htext, hpre⟩
        · cases hpre
        · obtain ⟨rfl, rfl⟩ := cons.inj htext
          rw [utf8Len_cons] at hpre
          exact ⟨pre, rfl, by omega⟩
    · refine iff_of_false nofun ?_
      rintro ⟨_ | ⟨d, pre⟩, htext, hpre⟩
      · cases hpre
      · obtain ⟨rfl, -⟩ := cons.inj htext
        rw [utf8Len_cons] at hpre
        omega

/-- Byte `n` begins a character, or is the end. -/
def IsBoundary (text : List Char) (n : Nat) : Prop := ∃ pre, pre <+: text ∧ utf8Len pre = n

theorem isBoundary_iff_drain {text : List Char} {n : Nat} : IsBoundary text n ↔ ∃ rest, drain n text = some rest := by
  constructor
  · rintro ⟨pre, ⟨rest, rfl⟩, hpre⟩
    exact ⟨rest, drain_eq_some_iff.mpr ⟨pre, rfl, hpre⟩⟩
  · rintro ⟨rest, hrest⟩
    obtain ⟨pre, rfl, hpre⟩ := drain_eq_some_iff.mp hrest
    exact ⟨pre, prefix_append pre rest, hpre⟩

instance (text : List Char) (n : Nat) : Decidable (IsBoundary text n) :=
  decidable_of_iff ((drain n text).isSome = true) (Option.isSome_iff_exists.trans isBoundary_iff_drain.symm)

/-- Where characters begin after a text is where they begin. -/
theorem isBoundary_append_iff (s t : List Char) (n : Nat) : IsBoundary (s ++ t) (utf8Len s + n) ↔ IsBoundary t n := by
  constructor
  · rintro ⟨pre, hpre, hlen⟩
    rcases prefix_or_prefix_of_prefix hpre (prefix_append s t) with ⟨tail, htail⟩ | ⟨tail, rfl⟩
    · -- no longer than `s`, so it is `s`
      have htotal := congrArg utf8Len htail
      rw [utf8Len_append] at htotal
      exact ⟨[], nil_prefix, by rw [utf8Len_nil]; omega⟩
    · rw [utf8Len_append] at hlen
      exact ⟨tail, (prefix_append_right_inj s).mp hpre, by omega⟩
  · rintro ⟨pre, hpre, rfl⟩
    exact ⟨s ++ pre, (prefix_append_right_inj s).mpr hpre, utf8Len_append s pre⟩

/-- With one byte for each character there are no other places. -/
theorem isBoundary_of_ascii {text : List Char} (h : ∀ c ∈ text, c.utf8Size = 1) {n : Nat} (hn : n ≤ utf8Len text) :
    IsBoundary text n := by
  induction text generalizing n with
  | nil =>
    rw [utf8Len_nil] at hn
    exact ⟨[], nil_prefix, (Nat.le_zero.mp hn).symm⟩
  | cons c text ih =>
    have hone := h c mem_cons_self
    cases n with
    | zero => exact ⟨[], nil_prefix, rfl⟩
    | succ n =>
      rw [utf8Len_cons, hone] at hn
      obtain ⟨pre, hpre, rfl⟩ := ih (fun d hd => h d (mem_cons_of_mem c hd)) (Nat.le_of_succ_le_succ hn)
      exact ⟨c :: pre, cons_prefix_cons.mpr ⟨rfl, hpre⟩, by rw [utf8Len_cons, hone]⟩

/-! ## White space -/

/-- `char::is_whitespace`: the characters that Unicode gives the property `White_Space`. -/
def isWhitespace (c : Char) : Bool :=
  let n := c.toNat
  (0x09 ≤ n && n ≤ 0x0D) || n == 0x20 || n == 0x85 || n == 0xA0 || n == 0x1680 || (0x2000 ≤ n && n ≤ 0x200A) ||
    n == 0x2028 || n == 0x2029 || n == 0x202F || n == 0x205F || n == 0x3000

/-- `str::trim`. -/
def trim (text : List Char) : List Char := (text.dropWhile isWhitespace).rdropWhile isWhitespace

/-- No white space at either end. -/
structure Trimmed (text : List Char) : Prop where
  head : ∀ c ∈ text.head?, isWhitespace c = false
  last : ∀ c ∈ text.getLast?, isWhitespace c = false

theorem trim_eq_self {text : List Char} (h : Trimmed text) : trim text = text := by
  have hhead : text.dropWhile isWhitespace = text := by
    cases text with
    | nil => rfl
    | cons c text => exact dropWhile_cons_of_neg (ne_true_of_eq_false (h.head c rfl))
  unfold trim
  rw [hhead]
  refine rdropWhile_eq_self_iff.mpr fun hne => ?_
  exact ne_true_of_eq_false (h.last _ (getLast?_eq_some_getLast hne))

theorem trim_trimmed (text : List Char) : Trimmed (trim text) where
  head c hc := by
    obtain ⟨rest, hrest⟩ : trim text <+: text.dropWhile isWhitespace := rdropWhile_prefix isWhitespace _
    have hhead : (text.dropWhile isWhitespace).head? = some c := by
      rw [← hrest, head?_append, hc]
      rfl
    have hnot := head?_dropWhile_not isWhitespace text
    rwa [hhead] at hnot
  last c hc := by
    obtain ⟨init, hinit⟩ := getLast?_eq_some_iff.mp hc
    have hne : trim text ≠ [] := hinit ▸ concat_ne_nil c init
    rw [getLast?_eq_some_getLast hne] at hc
    exact eq_false_of_ne_true (Option.some.inj hc ▸ rdropWhile_last_not isWhitespace _ hne)

theorem trim_sublist (text : List Char) : (trim text).Sublist text := by
  have hfront : trim text <+: text.dropWhile isWhitespace := rdropWhile_prefix isWhitespace _
  exact hfront.sublist.trans (dropWhile_suffix isWhitespace).sublist

/-- A text is blank if all of it is white space. -/
theorem trim_eq_nil_iff {text : List Char} : trim text = [] ↔ ∀ c ∈ text, isWhitespace c = true := by
  constructor
  · intro h c hc
    rw [trim, rdropWhile_eq_nil_iff] at h
    rw [← takeWhile_append_dropWhile (p := isWhitespace) (l := text)] at hc
    rcases mem_append.mp hc with hc | hc
    · exact mem_takeWhile_imp hc
    · exact h c hc
  · intro h
    rw [trim, dropWhile_eq_nil_iff.mpr h, rdropWhile_nil]

/-! ## Pieces -/

theorem not_mem_of_mem_splitOn {sep : Char} : ∀ {text piece : List Char}, piece ∈ text.splitOn sep → sep ∉ piece
  | [], piece, h => by
    rw [mem_singleton.mp h]
    exact not_mem_nil
  | c :: text, piece, h => by
    rw [splitOn_cons_eq_if_modifyHead] at h
    split_ifs at h with hc
    · rcases mem_cons.mp h with rfl | h
      · exact not_mem_nil
      · exact not_mem_of_mem_splitOn h
    · obtain ⟨first, rest, hsplit⟩ := exists_cons_of_ne_nil (splitOn_ne_nil sep text)
      rw [hsplit] at h
      rcases mem_cons.mp h with rfl | h
      · refine not_mem_cons_of_ne_of_not_mem (fun heq => hc (beq_iff_eq.mpr heq.symm)) ?_
        exact not_mem_of_mem_splitOn (hsplit ▸ mem_cons_self)
      · exact not_mem_of_mem_splitOn (hsplit ▸ mem_cons_of_mem first h)

/-- Pieces that are each followed by a separator. -/
theorem splitOn_ended {α : Type} {sep : Char} (f : α → List Char) :
    ∀ {xs : List α}, (∀ x ∈ xs, sep ∉ f x) → (xs.flatMap fun x => f x ++ [sep]).splitOn sep = xs.map f ++ [[]]
  | [], _ => rfl
  | x :: xs, h => by
    rw [flatMap_cons, List.append_assoc, singleton_append, splitOn_append_cons_self_of_not_mem (h x mem_cons_self),
      splitOn_ended f fun y hy => h y (mem_cons_of_mem x hy)]
    rfl

/-- Pieces that each follow a separator. -/
theorem splitOn_pushed {α : Type} {sep : Char} (f : α → List Char) :
    ∀ {first : List Char} {xs : List α}, sep ∉ first → (∀ x ∈ xs, sep ∉ f x) →
      (first ++ xs.flatMap fun x => sep :: f x).splitOn sep = first :: xs.map f
  | first, [], hfirst, _ => by
    rw [flatMap_nil, append_nil, splitOn_eq_singleton hfirst]
    rfl
  | first, x :: xs, hfirst, h => by
    rw [flatMap_cons, cons_append, splitOn_append_cons_self_of_not_mem hfirst,
      splitOn_pushed f (h x mem_cons_self) fun y hy => h y (mem_cons_of_mem x hy)]
    rfl

/-- `str::splitn(2, sep)`: what is before the first separator, and what is after it. -/
def splitn2 (sep : Char) : List Char → List Char × Option (List Char)
  | [] => ([], none)
  | c :: text =>
    if c = sep then ([], some text)
    else
      let (first, second) := splitn2 sep text
      (c :: first, second)

theorem splitn2_append {sep : Char} (second : List Char) :
    ∀ {first : List Char}, sep ∉ first → splitn2 sep (first ++ sep :: second) = (first, some second)
  | [], _ => if_pos rfl
  | c :: first, h => by
    obtain ⟨hc, hfirst⟩ := ne_and_not_mem_of_not_mem_cons h
    rw [cons_append, splitn2, if_neg (Ne.symm hc), splitn2_append second hfirst]

/-- The parts are parts of the text, and the first one is free of separators. -/
theorem splitn2_parts (sep : Char) : ∀ text : List Char,
    sep ∉ (splitn2 sep text).1 ∧ (splitn2 sep text).1 ⊆ text ∧ ∀ second ∈ (splitn2 sep text).2, second ⊆ text
  | [] => ⟨not_mem_nil, Subset.refl _, nofun⟩
  | c :: text => by
    obtain ⟨hsep, hfirst, hsecond⟩ := splitn2_parts sep text
    unfold splitn2
    split_ifs with hc
    · refine ⟨not_mem_nil, nil_subset _, ?_⟩
      rintro _ ⟨⟩
      exact subset_cons_self c text
    · exact ⟨not_mem_cons_of_ne_of_not_mem (Ne.symm hc) hsep, cons_subset_cons c hfirst,
        fun second h => subset_cons_of_subset c (hsecond second h)⟩

end Hypha.Lib
