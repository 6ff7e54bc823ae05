import Mathlib.Data.Fintype.Basic
import Hypha.Lib.Moves
import Hypha.Scheduler.Concurrent

/-!
# Interleavings written out

For finitely many handlers an interleaving can be given as a list of turns and played: each turn says which handler runs
to its next await point, at what time, or what happens meanwhile.

* `play` : the moves of a script and where they lead, `admits` : whether a turn is possible;
* `play_interleaves` : what is played is an interleaving of the handlers.
-/

namespace Hypha.Scheduler

open Hypha.Lib Hypha.Action

variable {PeerId T ι : Type} [LinearOrder PeerId] [RuntimeStatistic T] [DecidableEq ι]

inductive Turn (PeerId ι : Type) where
  | runs (i : ι) (t : Instant) (now : SystemTime)
  | happens (input : Input PeerId)

namespace Handler

/-- Run to the next await point. -/
def run (cfg : Settings) (s : SchedulerState PeerId T) (t : Instant) (now : SystemTime) :
    Handler PeerId → SchedulerState PeerId T × Handler PeerId
  | .pending request =>
    ((start cfg s t now request).2.1, .suspended (start cfg s t now request).1 (start cfg s t now request).2.2)
  | .suspended ctx k => ((resume cfg ctx s t k).1, .suspended ctx (resume cfg ctx s t k).2)

/-- Whether the handler has ended. -/
def ended : Handler PeerId → Bool
  | .pending _ => false
  | .suspended _ k => k.isDone

theorem resumes_run (cfg : Settings) (s : SchedulerState PeerId T) (t : Instant) (now : SystemTime)
    {k : Handler PeerId} (hk : k.ended = false) : Resumes cfg s k (k.run cfg s t now) := by
  cases k with
  | pending request => exact Resumes.start t now request
  | suspended ctx k => exact Resumes.resume t ctx k hk

end Handler

/-- Whether a turn is possible: what runs has not ended, and nobody holds the mutex that it waits for. -/
def admits [Fintype ι] (c : Config ι (SchedulerState PeerId T) (Handler PeerId)) : Turn PeerId ι → Bool
  | .runs i _ _ => !(c.tasks i).ended && (c.tasks i).waits.all fun l => decide (∀ j, (c.tasks j).holds l = false)
  | .happens input => input.report?.isNone

/-- The move of a turn. -/
def turn (cfg : Settings) (c : Config ι (SchedulerState PeerId T) (Handler PeerId)) :
    Turn PeerId ι → Move ι (SchedulerState PeerId T) (Handler PeerId)
  | .runs i t now =>
    ⟨c, some i, ⟨((c.tasks i).run cfg c.shared t now).1,
      Function.update c.tasks i ((c.tasks i).run cfg c.shared t now).2⟩⟩
  | .happens input => ⟨c, none, ⟨(step cfg c.shared input).1, c.tasks⟩⟩

/-- The moves of a script, newest first, where they lead, and whether all of them were possible. -/
structure Played (PeerId T ι : Type) where
  moves : List (Move ι (SchedulerState PeerId T) (Handler PeerId))
  config : Config ι (SchedulerState PeerId T) (Handler PeerId)
  admitted : Bool

def playTurn [Fintype ι] (cfg : Settings) (played : Played PeerId T ι) (a : Turn PeerId ι) : Played PeerId T ι where
  moves := turn cfg played.config a :: played.moves
  config := (turn cfg played.config a).after
  admitted := played.admitted && admits played.config a

def play [Fintype ι] (cfg : Settings) (c₀ : Config ι (SchedulerState PeerId T) (Handler PeerId))
    (script : List (Turn PeerId ι)) : Played PeerId T ι :=
  script.foldl (playTurn cfg) ⟨[], c₀, true⟩

/-- A possible turn is a move of the system. -/
theorem turn_moves [Fintype ι] (cfg : Settings) (c : Config ι (SchedulerState PeerId T) (Handler PeerId))
    {a : Turn PeerId ι} (ha : admits c a = true) : (handlers cfg).Moves (turn cfg c a) := by
  cases a with
  | runs i t now =>
    obtain ⟨hrunning, hfree⟩ := Bool.and_eq_true_iff.mp ha
    refine System.Moves.run c i (fun l hl => ?_) (Handler.resumes_run cfg c.shared t now (by simpa using hrunning))
    have hwaits : (c.tasks i).waits = some l := hl
    rw [hwaits] at hfree
    exact of_decide_eq_true hfree
  | happens input => exact System.Moves.environment c ⟨input, by simpa [admits] using ha, rfl⟩

/-- **What is played is an interleaving.** -/
theorem play_interleaves [Fintype ι] (cfg : Settings) (c₀ : Config ι (SchedulerState PeerId T) (Handler PeerId))
    (script : List (Turn PeerId ι)) (hadmitted : (play cfg c₀ script).admitted = true) :
    (handlers cfg).Interleaves c₀ (play cfg c₀ script).moves (play cfg c₀ script).config := by
  induction script using List.reverseRecOn with
  | nil => exact System.Interleaves.start
  | append_singleton script a ih =>
    unfold play at *
    rw [List.foldl_append] at *
    obtain ⟨hpast, ha⟩ := Bool.and_eq_true_iff.mp hadmitted
    have hafter : ∀ a : Turn PeerId ι, ∀ c : Config ι (SchedulerState PeerId T) (Handler PeerId),
        (turn cfg c a).before = c := by
      intro a c
      cases a <;> rfl
    refine System.Interleaves.move ?_ (turn_moves cfg _ ha)
    rw [hafter]
    exact ih hpast

/-- One handler runs `n` times in a row. -/
def times (n : Nat) (i : ι) : List (Turn PeerId ι) := List.replicate n (.runs i 0 0)

end Hypha.Scheduler
