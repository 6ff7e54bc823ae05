import Hypha.Lib.Interleave
import Hypha.Lib.Machine

/-!
# Interleavings with their history

An interleaving of tasks, kept as the list of its moves, newest first: the configuration before, the task that ran (none
if the environment moved) and the configuration after.

* `System.Interleaves` : the moves that lead from one configuration to another, `System.Interleaves.invariant` : what they
  keep of the configuration;
* `System.Interleaves.rule` : assertions about the state and about each task that every move keeps, and what they give
  for every move, hold along the interleavings all of whose moves meet a condition;
* `System.reachable_iff_interleaves` : the configurations they lead to are the reachable ones.
-/

namespace Hypha.Lib

/-- One move of an interleaving. -/
structure Move (ι σ κ : Type) where
  before : Config ι σ κ
  actor : Option ι
  after : Config ι σ κ

namespace System

variable {ι σ κ μ : Type} [DecidableEq ι] (sys : System σ κ μ)

/-- The moves that a system admits. -/
inductive Moves : Move ι σ κ → Prop where
  | run (c : Config ι σ κ) (i : ι) {s' : σ} {k' : κ} (free : sys.Free c.tasks (c.tasks i))
      (resume : sys.resume c.shared (c.tasks i) (s', k')) :
      Moves ⟨c, some i, ⟨s', Function.update c.tasks i k'⟩⟩
  | environment (c : Config ι σ κ) {s' : σ} (h : sys.environment c.shared s') : Moves ⟨c, none, ⟨s', c.tasks⟩⟩

/-- The moves that lead from `c₀` to a configuration. -/
inductive Interleaves (c₀ : Config ι σ κ) : List (Move ι σ κ) → Config ι σ κ → Prop where
  | start : Interleaves c₀ [] c₀
  | move {h : List (Move ι σ κ)} {m : Move ι σ κ} (past : Interleaves c₀ h m.before) (admitted : sys.Moves m) :
      Interleaves c₀ (m :: h) m.after

variable {sys}

theorem moves_iff_step {c c' : Config ι σ κ} : (∃ i, sys.Moves ⟨c, i, c'⟩) ↔ sys.Step c c' := by
  constructor
  · rintro ⟨i, hm⟩
    cases hm with
    | run c i free resume => exact Step.run i free resume
    | environment c h => exact Step.environment h
  · intro h
    cases h with
    | run i free resume => exact ⟨some i, Moves.run c i free resume⟩
    | environment h => exact ⟨none, Moves.environment c h⟩

/-- Interleavings lead to the reachable configurations. -/
theorem reachable_iff_interleaves {c₀ c : Config ι σ κ} : sys.Reachable c₀ c ↔ ∃ h, sys.Interleaves c₀ h c := by
  constructor
  · intro hreach
    induction hreach with
    | refl => exact ⟨[], Interleaves.start⟩
    | @tail d e _ hstep ih =>
      obtain ⟨h, hpast⟩ := ih
      obtain ⟨i, hm⟩ := moves_iff_step.mpr hstep
      exact ⟨⟨d, i, e⟩ :: h, Interleaves.move (m := ⟨d, i, e⟩) hpast hm⟩
  · rintro ⟨h, hpast⟩
    induction hpast with
    | start => exact Relation.ReflTransGen.refl
    | @move h m _ hm ih => exact ih.tail (moves_iff_step.mp ⟨m.actor, hm⟩)

/-- An invariant that every move meeting `C` keeps holds wherever moves meeting `C` lead. -/
theorem Interleaves.invariant {c₀ c : Config ι σ κ} {h : List (Move ι σ κ)} (past : sys.Interleaves c₀ h c)
    (I : Config ι σ κ → Prop) (C : Move ι σ κ → List (Move ι σ κ) → Prop) (start : I c₀)
    (move : ∀ m h, I m.before → C m h → sys.Moves m → I m.after) (met : Along C h) : I c := by
  induction past with
  | start => exact start
  | @move h m _ hm ih => exact move m h (ih met.2) met.1 hm

/-- **The rule for interleavings.** Assertions `G` about the state and `A` about each task, given the moves so far, that
hold at first and that every move meeting `C` keeps, hold wherever moves meeting `C` lead, and with them what they give
of each move. -/
theorem Interleaves.rule {c₀ c : Config ι σ κ} {h : List (Move ι σ κ)} (past : sys.Interleaves c₀ h c)
    (G : List (Move ι σ κ) → σ → Prop) (A : List (Move ι σ κ) → ι → σ → κ → Prop)
    (C P : Move ι σ κ → List (Move ι σ κ) → Prop)
    (state : G [] c₀.shared) (tasks : ∀ i, A [] i c₀.shared (c₀.tasks i))
    (run : ∀ h c i s' k', G h c.shared → (∀ j, A h j c.shared (c.tasks j)) →
      C ⟨c, some i, ⟨s', Function.update c.tasks i k'⟩⟩ h → sys.Free c.tasks (c.tasks i) →
      sys.resume c.shared (c.tasks i) (s', k') →
        G (⟨c, some i, ⟨s', Function.update c.tasks i k'⟩⟩ :: h) s' ∧
        A (⟨c, some i, ⟨s', Function.update c.tasks i k'⟩⟩ :: h) i s' k' ∧
        (∀ j, j ≠ i → A (⟨c, some i, ⟨s', Function.update c.tasks i k'⟩⟩ :: h) j s' (c.tasks j)) ∧
        P ⟨c, some i, ⟨s', Function.update c.tasks i k'⟩⟩ h)
    (environment : ∀ h c s', G h c.shared → (∀ j, A h j c.shared (c.tasks j)) → C ⟨c, none, ⟨s', c.tasks⟩⟩ h →
      sys.environment c.shared s' →
        G (⟨c, none, ⟨s', c.tasks⟩⟩ :: h) s' ∧ (∀ j, A (⟨c, none, ⟨s', c.tasks⟩⟩ :: h) j s' (c.tasks j)) ∧
        P ⟨c, none, ⟨s', c.tasks⟩⟩ h)
    (met : Along C h) :
    G h c.shared ∧ (∀ i, A h i c.shared (c.tasks i)) ∧ Along P h := by
  induction past with
  | start => exact ⟨state, tasks, trivial⟩
  | @move h m _ hm ih =>
    obtain ⟨hmet, hmets⟩ := met
    obtain ⟨hG, hA, hP⟩ := ih hmets
    cases hm with
    | @run c i s' k' free resume =>
      obtain ⟨hG', hown, hother, hp⟩ := run h c i s' k' hG hA hmet free resume
      refine ⟨hG', fun j => ?_, hp, hP⟩
      by_cases hji : j = i
      · subst hji
        simpa using hown
      · simpa [hji] using hother j hji
    | environment c henv =>
      obtain ⟨hG', hA', hp⟩ := environment h c _ hG hA hmet henv
      exact ⟨hG', hA', hp, hP⟩

end System

end Hypha.Lib
