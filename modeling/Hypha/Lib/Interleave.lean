import Mathlib.Logic.Function.Basic
import Mathlib.Logic.Relation

/-!
# Tasks that share a state and mutexes

Any number of tasks over one state. A suspended task may wait for a mutex and holds others; whenever the mutex it waits
for is free it may run to its next suspension. The environment changes the state in between.

* `System.Step`, `System.Reachable` : interleavings;
* `System.CircularWait` : two tasks that each hold the mutex the other one waits for, forever;
* `System.assertion_rule` : an assertion about a task holds wherever the task is, if the task's own steps establish it
  and no step that its mutexes admit falsifies it;
* `System.exclusive` : no two tasks hold the same mutex.
-/

namespace Hypha.Lib

/-- What tasks do: `κ` is where a task is suspended, `μ` the mutexes. -/
structure System (σ κ μ : Type) where
  waits : κ → Option μ
  holds : κ → μ → Bool
  resume : σ → κ → σ × κ → Prop
  environment : σ → σ → Prop

/-- The state and where each task is. -/
structure Config (ι σ κ : Type) where
  shared : σ
  tasks : ι → κ

namespace System

variable {ι σ κ μ : Type} [DecidableEq ι] (sys : System σ κ μ)

/-- No task holds the mutex that a task waits for. -/
def Free (tasks : ι → κ) (k : κ) : Prop := ∀ l, sys.waits k = some l → ∀ j, sys.holds (tasks j) l = false

/-- One task runs to its next suspension, or the environment moves. -/
inductive Step (c : Config ι σ κ) : Config ι σ κ → Prop where
  | run {s' : σ} {k' : κ} (i : ι) (free : sys.Free c.tasks (c.tasks i))
      (resume : sys.resume c.shared (c.tasks i) (s', k')) : Step c ⟨s', Function.update c.tasks i k'⟩
  | environment {s' : σ} (h : sys.environment c.shared s') : Step c ⟨s', c.tasks⟩

/-- What an interleaving leads to. -/
def Reachable (c c' : Config ι σ κ) : Prop := Relation.ReflTransGen sys.Step c c'

/-- A task holds `l` and waits for `m`, another one holds `m` and waits for `l`. -/
def CircularWait (l m : μ) (c : Config ι σ κ) : Prop :=
  ∃ i j, sys.holds (c.tasks i) l = true ∧ sys.waits (c.tasks i) = some m ∧
    sys.holds (c.tasks j) m = true ∧ sys.waits (c.tasks j) = some l

variable {sys}

/-- **The assertion rule.** An assertion about where a task is and the state holds along every interleaving, if it
holds at first, the task's own steps establish it where it goes, and the steps of other tasks, which must not wait for
a mutex the task holds, and of the environment keep it. -/
theorem assertion_rule {c c' : Config ι σ κ} (A : σ → κ → Prop) (init : ∀ i, A c.shared (c.tasks i))
    (own : ∀ s k s' k', A s k → sys.resume s k (s', k') → A s' k')
    (other : ∀ s k s' k' j, A s j → A s k → (∀ l, sys.waits k = some l → sys.holds j l = false) →
      sys.resume s k (s', k') → A s' j)
    (environment : ∀ s s' k, A s k → sys.environment s s' → A s' k) (h : sys.Reachable c c') :
    ∀ i, A c'.shared (c'.tasks i) := by
  induction h with
  | refl => exact init
  | tail _ hstep ih =>
    intro j
    cases hstep with
    | run i free resume =>
      by_cases hji : j = i
      · subst hji
        simpa using own _ _ _ _ (ih j) resume
      · simpa [hji] using other _ _ _ _ _ (ih j) (ih i) (fun l hl => free l hl j) resume
    | environment henv => exact environment _ _ _ (ih j) henv

/-- **Mutual exclusion.** If a task holds only mutexes that it waited for or already held, no two tasks ever hold the
same one. -/
theorem exclusive {c c' : Config ι σ κ} (init : ∀ i l, sys.holds (c.tasks i) l = false)
    (acquires : ∀ s k s' k' l, sys.resume s k (s', k') → sys.holds k' l = true →
      sys.waits k = some l ∨ sys.holds k l = true) (h : sys.Reachable c c') :
    ∀ i j l, sys.holds (c'.tasks i) l = true → sys.holds (c'.tasks j) l = true → i = j := by
  induction h with
  | refl =>
    intro i _ l hi _
    rw [init i l] at hi
    exact Bool.noConfusion hi
  | @tail d _ _ hstep ih =>
    cases hstep with
    | environment _ => exact ih
    | @run s' k' m free resume =>
      -- whoever else holds a mutex of `m` held it before, when `m` waited for it or held it too
      have hother : ∀ j l, j ≠ m → sys.holds k' l = true → sys.holds (d.tasks j) l = false := by
        intro j l hjm hm
        rcases acquires _ _ _ _ l resume hm with hwaits | hholds
        · exact free l hwaits j
        · rw [← Bool.not_eq_true]
          exact fun hj => hjm (ih j m l hj hholds)
      intro i j l hi hj
      dsimp only at hi hj
      by_cases him : i = m <;> by_cases hjm : j = m
      · rw [him, hjm]
      · subst him
        rw [Function.update_of_ne hjm, hother j l hjm (by simpa using hi)] at hj
        exact Bool.noConfusion hj
      · subst hjm
        rw [Function.update_of_ne him, hother i l him (by simpa using hj)] at hi
        exact Bool.noConfusion hi
      · rw [Function.update_of_ne him] at hi
        rw [Function.update_of_ne hjm] at hj
        exact ih i j l hi hj

/-- A task runs. -/
theorem Reachable.run {c : Config ι σ κ} {s s' : σ} {tasks : ι → κ} {i : ι} {k k' : κ}
    (h : sys.Reachable c ⟨s, tasks⟩) (hi : tasks i = k) (free : sys.Free tasks k) (resume : sys.resume s k (s', k')) :
    sys.Reachable c ⟨s', Function.update tasks i k'⟩ := by
  subst hi
  exact h.tail (Step.run i free resume)

/-- A task runs that has run before. -/
theorem Reachable.run_again {c : Config ι σ κ} {s s' : σ} {tasks : ι → κ} {i : ι} {k k' : κ}
    (h : sys.Reachable c ⟨s, Function.update tasks i k⟩)
    (free : ∀ l, sys.waits k = some l → sys.holds k l = false ∧ ∀ j, j ≠ i → sys.holds (tasks j) l = false)
    (resume : sys.resume s k (s', k')) : sys.Reachable c ⟨s', Function.update tasks i k'⟩ := by
  have hfree : sys.Free (Function.update tasks i k) k := by
    intro l hl j
    by_cases hji : j = i
    · subst hji
      simpa using (free l hl).1
    · simpa [hji] using (free l hl).2 j hji
  have hrun := h.run (Function.update_self i k tasks) hfree resume
  rwa [Function.update_idem] at hrun

end System

end Hypha.Lib
