import Mathlib.Algebra.Order.Field.Basic
import Hypha.Worker.Resources

/-!
# Prices per unit

The evaluator with which workers rank requests, best paid first, and the scheduler ranks offers, cheapest first: a price
over the weighted units of a resource vector, in exact arithmetic. Without units the score is zero.

* `WeightedResourceEvaluator.score` : the score;
* `score_mono`, `score_anti_iff` : it grows with the price, and shrinks with the units unless these start at zero.
-/

namespace Hypha.Worker

structure WeightedResourceEvaluator where
  cpu : ℚ := 1
  gpu : ℚ := 25
  memory : ℚ := 1 / 10
  storage : ℚ := 1 / 100
  deriving DecidableEq

namespace WeightedResourceEvaluator

/-- The weighted units of a resource vector. -/
def weightUnits (self : WeightedResourceEvaluator) (resources : Resources) : ℚ :=
  self.gpu * resources.gpu + self.cpu * resources.cpu + self.memory * resources.memory + self.storage * resources.storage

def score (self : WeightedResourceEvaluator) (price : ℚ) (resources : Resources) : ℚ :=
  if self.weightUnits resources > 0 then price / self.weightUnits resources else 0

/-- No weight is negative. -/
def Nonneg (self : WeightedResourceEvaluator) : Prop :=
  0 ≤ self.cpu ∧ 0 ≤ self.gpu ∧ 0 ≤ self.memory ∧ 0 ≤ self.storage

instance (self : WeightedResourceEvaluator) : Decidable self.Nonneg := inferInstanceAs (Decidable (_ ∧ _ ∧ _ ∧ _))

variable {self : WeightedResourceEvaluator} {p q : ℚ} {r s : Resources}

theorem weightUnits_mono (hself : self.Nonneg) (hrs : ∀ c, r.get c ≤ s.get c) :
    self.weightUnits r ≤ self.weightUnits s := by
  obtain ⟨hcpu, hgpu, hmemory, hstorage⟩ := hself
  unfold weightUnits
  have hcpu' : self.cpu * r.cpu ≤ self.cpu * s.cpu := mul_le_mul_of_nonneg_left (hrs .cpu) hcpu
  have hgpu' : self.gpu * r.gpu ≤ self.gpu * s.gpu := mul_le_mul_of_nonneg_left (hrs .gpu) hgpu
  have hmemory' : self.memory * r.memory ≤ self.memory * s.memory := mul_le_mul_of_nonneg_left (hrs .memory) hmemory
  have hstorage' : self.storage * r.storage ≤ self.storage * s.storage :=
    mul_le_mul_of_nonneg_left (hrs .storage) hstorage
  linarith

theorem weightUnits_nonneg (hself : self.Nonneg) (hr : r.Nonneg) : 0 ≤ self.weightUnits r := by
  have hzero : self.weightUnits {} = 0 := by
    unfold weightUnits
    simp
  rw [← hzero]
  apply weightUnits_mono hself
  intro c
  rw [Resources.zero_get]
  exact (Resources.nonneg_iff r).mp hr c

theorem score_of_pos (h : 0 < self.weightUnits r) : self.score p r = p / self.weightUnits r := if_pos h

theorem score_of_not_pos (h : ¬ 0 < self.weightUnits r) : self.score p r = 0 := if_neg h

/-- A higher price never scores less. -/
theorem score_mono (hpq : p ≤ q) : self.score p r ≤ self.score q r := by
  by_cases h : 0 < self.weightUnits r
  · rw [score_of_pos h, score_of_pos h]
    exact div_le_div_of_nonneg_right hpq h.le
  · rw [score_of_not_pos h, score_of_not_pos h]

/-- More resources never score more, unless there were no units before. -/
theorem score_anti_iff (hself : self.Nonneg) (hp : 0 ≤ p) (hr : r.Nonneg) (hrs : ∀ c, r.get c ≤ s.get c) :
    self.score p s ≤ self.score p r ↔ 0 < self.weightUnits r ∨ self.weightUnits s = 0 ∨ p = 0 := by
  have hle : self.weightUnits r ≤ self.weightUnits s := weightUnits_mono hself hrs
  have hnonneg : 0 ≤ self.weightUnits r := weightUnits_nonneg hself hr
  by_cases hunits : 0 < self.weightUnits r
  · rw [score_of_pos hunits, score_of_pos (hunits.trans_le hle)]
    exact iff_of_true (div_le_div_of_nonneg_left hp hunits hle) (.inl hunits)
  · rw [score_of_not_pos hunits, or_iff_right hunits]
    by_cases hunits' : 0 < self.weightUnits s
    · rw [score_of_pos hunits', or_iff_right hunits'.ne', div_le_iff₀ hunits', zero_mul]
      exact ⟨fun h => le_antisymm h hp, fun h => h.le⟩
    · rw [score_of_not_pos hunits']
      exact iff_of_true le_rfl (.inl (le_antisymm (not_lt.mp hunits') (hnonneg.trans hle)))

/-- **Scoring is monotone** in the price, and in the resources except where the worse of two vectors has no units: that
one scores zero. -/
theorem score_monotone (self : WeightedResourceEvaluator) (hself : self.Nonneg) (hp : 0 ≤ p) (hpq : p ≤ q) (hr : r.Nonneg)
    (hrs : ∀ c, r.get c ≤ s.get c) :
    self.score p r ≤ self.score q r ∧
      (self.score p s ≤ self.score p r ↔ 0 < self.weightUnits r ∨ self.weightUnits s = 0 ∨ p = 0) :=
  ⟨score_mono hpq, score_anti_iff hself hp hr hrs⟩

/-- The default weights, one core and two. -/
theorem score_monotone_cores :
    WeightedResourceEvaluator.score {} 1 { cpu := 1 } ≤ WeightedResourceEvaluator.score {} 2 { cpu := 1 } ∧
      WeightedResourceEvaluator.score {} 1 { cpu := 2 } ≤ WeightedResourceEvaluator.score {} 1 { cpu := 1 } := by
  have h := score_monotone {} (p := 1) (q := 2) (r := { cpu := 1 }) (s := { cpu := 2 })
    (by decide +kernel) (by decide +kernel) (by decide +kernel) (by decide +kernel)
    (by intro c; cases c <;> decide +kernel)
  exact ⟨h.1, h.2.mpr (by decide +kernel)⟩

/-- Nothing for a price scores better than one core for it. -/
theorem score_monotone_fails :
    Nonneg {} ∧ Resources.Nonneg {} ∧ (∀ c, Resources.get {} c ≤ Resources.get { cpu := 1 } c) ∧
      ¬ score {} 1 { cpu := 1 } ≤ score {} 1 {} := by
  refine ⟨by decide +kernel, by decide +kernel, ?_, by decide +kernel⟩
  intro c
  cases c <;> decide +kernel

end WeightedResourceEvaluator

end Hypha.Worker
