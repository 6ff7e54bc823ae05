import Mathlib.Order.Basic

/-!
# While loops

A loop `while c { body }` over a state, as a relation between the state it is entered in and the state it ends in.

* `Ends` : the loop ends there; `Ends.rule` : an invariant of its passes holds there, and its condition does not;
* `iterate` : at most a given number of passes, `ends_iterate` : enough of them when every pass lowers a variant.
-/

namespace Hypha.Lib.Loop

variable {σ : Type} {c : σ → Prop} {body : σ → σ}

/-- The loop `while c { body }`, entered in one state, ends in another one. -/
inductive Ends (c : σ → Prop) (body : σ → σ) : σ → σ → Prop where
  | exit {s : σ} (done : ¬ c s) : Ends c body s s
  | pass {s s' : σ} (goes : c s) (rest : Ends c body (body s) s') : Ends c body s s'

/-- **The loop rule.** -/
theorem Ends.rule {I : σ → Prop} (pass : ∀ s, I s → c s → I (body s)) {s s' : σ} (h : Ends c body s s') (init : I s) :
    I s' ∧ ¬ c s' := by
  induction h with
  | exit done => exact ⟨init, done⟩
  | pass goes _ ih => exact ih (pass _ init goes)

/-- A loop ends in one state at most. -/
theorem Ends.unique {s s₁ s₂ : σ} (h₁ : Ends c body s s₁) (h₂ : Ends c body s s₂) : s₁ = s₂ := by
  induction h₁ with
  | exit done =>
    cases h₂ with
    | exit _ => rfl
    | pass goes _ => exact absurd goes done
  | pass goes _ ih =>
    cases h₂ with
    | exit done => exact absurd goes done
    | pass _ rest => exact ih rest

section Iterate
variable [DecidablePred c]

/-- At most `n` passes. -/
def iterate (c : σ → Prop) [DecidablePred c] (body : σ → σ) : Nat → σ → σ
  | 0, s => s
  | n + 1, s => if c s then iterate c body n (body s) else s

/-- **Termination.** As many passes as the variant allows are enough. -/
theorem ends_iterate {I : σ → Prop} (variant : σ → Nat) (pass : ∀ s, I s → c s → I (body s))
    (lowers : ∀ s, I s → c s → variant (body s) < variant s) :
    ∀ {n : Nat} {s : σ}, I s → variant s ≤ n → Ends c body s (iterate c body n s) := by
  intro n
  induction n with
  | zero =>
    intro s hI hn
    exact Ends.exit fun hc => by have := lowers s hI hc; omega
  | succ n ih =>
    intro s hI hn
    unfold iterate
    split_ifs with hc
    · exact Ends.pass hc (ih (pass s hI hc) (by have := lowers s hI hc; omega))
    · exact Ends.exit hc

end Iterate

end Hypha.Lib.Loop
