import Hypha.Lib.Text

/-!
# What the process executor keeps of an executor's output (`process.rs`)

The standard output is read by lines into a string, which is cut from the front to `OUT_LIMIT` bytes. `drain` takes an
offset in bytes and panics inside a character; the task is then gone, and with it the reader of the pipe.

* `OutTask.step` : one `next_line`;
* `Tails`, `Tails.of_keep` : the buffer is the tail of what was printed, cut at the limit;
* `captured_iff` : every line is kept so exactly when the cut never falls inside a character.
-/

namespace Hypha.Worker

open List Hypha.Lib
open String (utf8Len utf8Len_append utf8Len_le_of_suffix)

def OUT_LIMIT : Nat := 2 * 1024

/-- `lines.next_line().await`. -/
inductive NextLine where
  | line (line : List Char)
  | closed
  | failed
  deriving DecidableEq, Repr

/-- The task that reads the standard output. -/
inductive OutTask where
  | reading (buf : List Char)
  | ended (buf : List Char)
  | panicked
  deriving DecidableEq, Repr

/-- The body of the loop, `none` where `drain` panics. -/
def keep (buf line : List Char) : Option (List Char) :=
  let buf := buf ++ line ++ ['\n']
  if utf8Len buf > OUT_LIMIT then
    let excess := utf8Len buf - OUT_LIMIT
    drain excess buf
  else
    some buf

def OutTask.step : OutTask → NextLine → OutTask
  | .reading buf, .line line =>
    match keep buf line with
    | some buf => .reading buf
    | none => .panicked
  | .reading buf, .closed | .reading buf, .failed => .ended buf
  | task, _ => task

def OutTask.run (events : List NextLine) : OutTask := events.foldl OutTask.step (.reading [])

/-- `stdout_handle.await.unwrap_or_default()`, and what of it is in the status. -/
def OutTask.outVal : OutTask → Option (List Char)
  | .ended out => if out.isEmpty then none else some out
  | .reading _ | .panicked => none

/-- The lines, each followed by a newline. -/
def printed (lines : List (List Char)) : List Char := lines.flatMap fun line => line ++ ['\n']

@[simp] theorem printed_concat (lines : List (List Char)) (line : List Char) :
    printed (lines ++ [line]) = printed lines ++ (line ++ ['\n']) := by
  unfold printed
  rw [flatMap_append, flatMap_singleton]

theorem OutTask.run_concat (events : List NextLine) (event : NextLine) :
    run (events ++ [event]) = (run events).step event := by
  unfold run
  rw [foldl_append]
  rfl

/-! ## The tail -/

/-- The end of a text, cut at the limit. -/
structure Tails (text buf : List Char) : Prop where
  suffix : buf <:+ text
  length : utf8Len buf = min (utf8Len text) OUT_LIMIT

theorem keep_eq (buf line : List Char) :
    keep buf line = drain (utf8Len (buf ++ (line ++ ['\n'])) - OUT_LIMIT) (buf ++ (line ++ ['\n'])) := by
  unfold keep
  rw [append_assoc]
  dsimp only
  split_ifs with hover
  · rfl
  · rw [Nat.sub_eq_zero_of_le (Nat.not_lt.mp hover), drain_zero]

section Kept
variable {text buf buf' line : List Char}

theorem Tails.of_keep (h : Tails text buf) (hkeep : keep buf line = some buf') :
    Tails (text ++ (line ++ ['\n'])) buf' := by
  rw [keep_eq] at hkeep
  obtain ⟨pre, hbuf, hpre⟩ := drain_eq_some_iff.mp hkeep
  have hlength := congrArg utf8Len hbuf
  have htail := h.length
  refine ⟨?_, ?_⟩
  · obtain ⟨before, hbefore⟩ := h.suffix
    exact ⟨before ++ pre, by rw [append_assoc, ← hbuf, ← append_assoc, hbefore]⟩
  · simp only [utf8Len_append] at hlength hpre htail ⊢
    omega

/-- Where the cut is between two characters of all that was printed, it is so in the buffer. -/
theorem Tails.keep_eq_some (h : Tails text buf)
    (hcut : IsBoundary (text ++ (line ++ ['\n'])) (utf8Len (text ++ (line ++ ['\n'])) - OUT_LIMIT)) :
    ∃ buf', keep buf line = some buf' := by
  obtain ⟨before, rfl⟩ := h.suffix
  have htail := h.length
  rw [keep_eq]
  by_cases hover : utf8Len (buf ++ (line ++ ['\n'])) ≤ OUT_LIMIT
  · exact ⟨_, by rw [Nat.sub_eq_zero_of_le hover, drain_zero]⟩
  · have hoffset : utf8Len (before ++ buf ++ (line ++ ['\n'])) - OUT_LIMIT =
        utf8Len before + (utf8Len (buf ++ (line ++ ['\n'])) - OUT_LIMIT) := by
      rw [append_assoc, utf8Len_append before]
      omega
    rw [hoffset, append_assoc] at hcut
    exact isBoundary_iff_drain.mp ((isBoundary_append_iff _ _ _).mp hcut)

theorem Tails.isBoundary (h : Tails text buf) : IsBoundary text (utf8Len text - OUT_LIMIT) := by
  obtain ⟨before, rfl⟩ := h.suffix
  have htail := h.length
  refine ⟨before, prefix_append before buf, ?_⟩
  rw [utf8Len_append] at htail ⊢
  omega

/-- No longer tail is within the limit. -/
theorem Tails.longest {tail : List Char} (h : Tails text buf) (htail : tail <:+ text) (hlimit : utf8Len tail ≤ OUT_LIMIT) :
    utf8Len tail ≤ utf8Len buf := by
  rw [h.length]
  exact le_min (utf8Len_le_of_suffix htail) hlimit

end Kept

/-! ## All the lines -/

/-- What the task is to hold after some lines: as much of their end as the limit allows. -/
structure Holds (lines : List (List Char)) (buf : List Char) : Prop where
  suffix : buf <:+ printed lines
  limit : utf8Len buf ≤ OUT_LIMIT
  longest : ∀ tail, tail <:+ printed lines → utf8Len tail ≤ OUT_LIMIT → utf8Len tail ≤ utf8Len buf

/-- After each of the lines the task holds their end and reads on, and it ends with it when the output is closed. -/
def Captured (lines : List (List Char)) : Prop :=
  ∀ shown, shown <+: lines → ∃ buf, OutTask.run (shown.map .line) = .reading buf ∧ Holds shown buf ∧
    OutTask.run (shown.map .line ++ [.closed]) = .ended buf

/-- After each of the lines the byte at `OUT_LIMIT` from the end begins a character. -/
def CutsBetween (lines : List (List Char)) : Prop :=
  ∀ shown, shown <+: lines → IsBoundary (printed shown) (utf8Len (printed shown) - OUT_LIMIT)

theorem Tails.holds {lines : List (List Char)} {buf : List Char} (h : Tails (printed lines) buf) : Holds lines buf :=
  ⟨h.suffix, h.length.trans_le (min_le_right _ _), fun _ => h.longest⟩

theorem tails_nil : Tails (printed []) [] := ⟨suffix_rfl, rfl⟩

theorem OutTask.run_line (shown : List (List Char)) (line : List Char) :
    run ((shown ++ [line]).map .line) = (run (shown.map .line)).step (.line line) := by
  rw [map_append, map_singleton, run_concat]

theorem OutTask.step_of_keep {buf buf' line : List Char} (h : keep buf line = some buf') :
    (reading buf).step (.line line) = .reading buf' := by
  simp only [step, h]

theorem OutTask.step_of_drain {buf line : List Char} (h : keep buf line = none) :
    (reading buf).step (.line line) = .panicked := by
  simp only [step, h]

/-- One more line, for a task that reads. -/
theorem OutTask.step_line_eq_reading {task : OutTask} {line buf' : List Char} :
    task.step (.line line) = .reading buf' ↔ ∃ buf, task = .reading buf ∧ keep buf line = some buf' := by
  constructor
  · intro hstep
    cases task with
    | reading buf =>
      cases hkeep : keep buf line with
      | none => cases (step_of_drain hkeep).symm.trans hstep
      | some kept =>
        cases (step_of_keep hkeep).symm.trans hstep
        exact ⟨buf, rfl, hkeep⟩
    | ended buf => cases hstep
    | panicked => cases hstep
  · rintro ⟨buf, rfl, hkeep⟩
    exact step_of_keep hkeep

/-- As long as it reads, the task holds the tail. -/
theorem tails_of_reading (lines : List (List Char)) :
    ∀ {buf}, OutTask.run (lines.map .line) = .reading buf → Tails (printed lines) buf := by
  induction lines using reverseRecOn with
  | nil =>
    rintro buf ⟨⟩
    exact tails_nil
  | append_singleton lines line ih =>
    intro buf hrun
    rw [OutTask.run_line] at hrun
    obtain ⟨before, hbefore, hkeep⟩ := OutTask.step_line_eq_reading.mp hrun
    rw [printed_concat]
    exact (ih hbefore).of_keep hkeep

/-- It reads on as long as the cuts are between characters. -/
theorem reading_of_cutsBetween (lines : List (List Char)) :
    CutsBetween lines → ∃ buf, OutTask.run (lines.map .line) = .reading buf := by
  induction lines using reverseRecOn with
  | nil => exact fun _ => ⟨[], rfl⟩
  | append_singleton lines line ih =>
    intro hcuts
    obtain ⟨before, hbefore⟩ := ih fun shown hshown => hcuts shown (hshown.trans (prefix_append lines [line]))
    have hcut := hcuts (lines ++ [line]) (prefix_refl _)
    rw [printed_concat] at hcut
    obtain ⟨buf, hkeep⟩ := (tails_of_reading lines hbefore).keep_eq_some hcut
    refine ⟨buf, ?_⟩
    rw [OutTask.run_line]
    exact OutTask.step_line_eq_reading.mpr ⟨before, hbefore, hkeep⟩

/-- **Output capture**: the task holds the end of the output, line by line, exactly when the cut never falls inside a
character. -/
theorem captured_iff (lines : List (List Char)) : Captured lines ↔ CutsBetween lines := by
  constructor
  · intro hcaptured shown hshown
    obtain ⟨buf, hrun, -⟩ := hcaptured shown hshown
    exact (tails_of_reading shown hrun).isBoundary
  · intro hcuts shown hshown
    obtain ⟨buf, hrun⟩ := reading_of_cutsBetween shown fun earlier hearlier => hcuts earlier (hearlier.trans hshown)
    refine ⟨buf, hrun, (tails_of_reading shown hrun).holds, ?_⟩
    rw [OutTask.run_concat, hrun]
    rfl

/-- Output of one-byte characters is cut between characters. -/
theorem cutsBetween_of_ascii {lines : List (List Char)} (h : ∀ line ∈ lines, ∀ c ∈ line, c.utf8Size = 1) :
    CutsBetween lines := by
  intro shown hshown
  refine isBoundary_of_ascii (fun c hc => ?_) (Nat.sub_le _ _)
  obtain ⟨line, hline, hc⟩ := mem_flatMap.mp hc
  rcases mem_append.mp hc with hc | hc
  · exact h line (hshown.subset hline) c hc
  · rw [mem_singleton.mp hc]
    rfl

/-- A line of 1024 two-byte characters: with its newline it is one byte too long, and that byte is half a character. The
task panics and nothing of the output is reported. -/
theorem captured_fails :
    (¬ ∀ lines, Captured lines) ∧
      OutTask.run [.line (replicate 1024 'é'), .line ['b', 'y', 'e'], .closed] = .panicked ∧
      (OutTask.run [.line (replicate 1024 'é'), .line ['b', 'y', 'e'], .closed]).outVal = none := by
  have hpanicked : OutTask.run [.line (replicate 1024 'é')] = .panicked := by decide +kernel
  refine ⟨fun hclaim => ?_, by decide +kernel, by decide +kernel⟩
  obtain ⟨buf, hrun, -⟩ := hclaim [replicate 1024 'é'] _ prefix_rfl
  cases hpanicked.symm.trans hrun

end Hypha.Worker
