import Mathlib.Algebra.Order.BigOperators.Group.List
import Mathlib.Algebra.Order.Ring.Rat
import Mathlib.Tactic.Linarith

/-!
# Resource vectors

`hypha-resources`, in exact arithmetic: the `f64` components are rationals of any sign.

* `Resources`, `Resources.partialCmp` : the vectors and the comparison that the worker filters requests with;
* `Component`, `Resources.get` : the components by name;
* `Resources.ge_iff` : one vector is at least another if it is so in every component;
* `Resources.orders_by_component` : so `partial_cmp` is the order of the components;
* `Resources.sum_get` : sums are taken component by component.
-/

namespace Hypha.Worker

structure Resources where
  gpu : ℚ := 0
  cpu : ℚ := 0
  storage : ℚ := 0
  memory : ℚ := 0
  deriving DecidableEq

inductive Component where
  | cpu
  | memory
  | gpu
  | storage
  deriving DecidableEq

theorem forall_component (P : Component → Prop) : (∀ c, P c) ↔ P .cpu ∧ P .memory ∧ P .gpu ∧ P .storage := by
  refine ⟨fun h => ⟨h .cpu, h .memory, h .gpu, h .storage⟩, ?_⟩
  intro ⟨hcpu, hmemory, hgpu, hstorage⟩ c
  cases c with
  | cpu => exact hcpu
  | memory => exact hmemory
  | gpu => exact hgpu
  | storage => exact hstorage

namespace Resources

/-- The components in the order in which they are compared. -/
def get (a : Resources) : Component → ℚ
  | .cpu => a.cpu
  | .memory => a.memory
  | .gpu => a.gpu
  | .storage => a.storage

instance : Sub Resources where
  sub a b :=
    { cpu := a.cpu - b.cpu, memory := a.memory - b.memory, gpu := a.gpu - b.gpu, storage := a.storage - b.storage }

instance : Add Resources where
  add a b :=
    { cpu := a.cpu + b.cpu, memory := a.memory + b.memory, gpu := a.gpu + b.gpu, storage := a.storage + b.storage }

/-- The `Sum` of an iterator. -/
def sum (rs : List Resources) : Resources := rs.foldl (· + ·) {}

/-- How the comparison so far combines with that of one more component. -/
def combine (acc field : Ordering) : Option Ordering :=
  match acc, field with
  | .lt, .lt => some .lt
  | .eq, .eq => some .eq
  | .gt, .gt => some .gt
  | .eq, o => some o
  | o, .eq => some o
  | _, _ => none

/-- `PartialOrd::partial_cmp`. -/
def partialCmp (a b : Resources) : Option Ordering :=
  [(a.cpu, b.cpu), (a.memory, b.memory), (a.gpu, b.gpu), (a.storage, b.storage)].foldlM
    (fun acc ab => combine acc (compare ab.1 ab.2)) .eq

/-- `PartialOrd::ge` of the outcome of a comparison. -/
def isGe : Option Ordering → Bool
  | some .gt | some .eq => true
  | _ => false

/-- The operator `>=`. -/
def ge (a b : Resources) : Bool := isGe (a.partialCmp b)

/-- `PartialOrd::le` of the outcome of a comparison. -/
def isLe : Option Ordering → Bool
  | some .lt | some .eq => true
  | _ => false

/-- The operator `<=`. -/
def le (a b : Resources) : Bool := isLe (a.partialCmp b)

/-- `PartialEq::eq`. -/
def eq (a b : Resources) : Bool := a.cpu == b.cpu && a.memory == b.memory && a.gpu == b.gpu && a.storage == b.storage

/-- The operator `>`. -/
def gt (a b : Resources) : Bool :=
  match a.partialCmp b with
  | some .gt => true
  | _ => false

@[simp] theorem zero_get (c : Component) : ({} : Resources).get c = 0 := by
  cases c <;> rfl

@[simp] theorem add_get (a b : Resources) (c : Component) : (a + b).get c = a.get c + b.get c := by
  cases c <;> rfl

@[simp] theorem sub_get (a b : Resources) (c : Component) : (a - b).get c = a.get c - b.get c := by
  cases c <;> rfl

/-- Sums are taken component by component. -/
theorem sum_get (rs : List Resources) (c : Component) : (sum rs).get c = (rs.map fun a => a.get c).sum := by
  have hfold : ∀ (rs : List Resources) (acc : Resources),
      (rs.foldl (· + ·) acc).get c = acc.get c + (rs.map fun a => a.get c).sum := by
    intro rs
    induction rs with
    | nil =>
      intro acc
      simp
    | cons a rs ih =>
      intro acc
      rw [List.foldl_cons, ih, add_get, List.map_cons, List.sum_cons]
      linarith
  have hsum := hfold rs {}
  rw [zero_get, zero_add] at hsum
  exact hsum

/-! ## The order -/

/-- A property of orderings that a comparison has if and only if the comparisons of all components have it. -/
structure Folds (ok : Option Ordering → Bool) : Prop where
  combine : ∀ acc field, ok (combine acc field) = (ok (some acc) && ok (some field))
  none : ok none = false

theorem folds_isGe : Folds isGe := ⟨fun acc field => by cases acc <;> cases field <;> rfl, rfl⟩

theorem folds_isLe : Folds isLe := ⟨fun acc field => by cases acc <;> cases field <;> rfl, rfl⟩

theorem folds_isEq : Folds (· == some .eq) := ⟨fun acc field => by cases acc <;> cases field <;> rfl, rfl⟩

theorem Folds.foldlM {ok : Option Ordering → Bool} (h : Folds ok) (ps : List (ℚ × ℚ)) :
    ∀ acc, ok (ps.foldlM (fun acc ab => Resources.combine acc (compare ab.1 ab.2)) acc) = true ↔
      ok (some acc) = true ∧ ∀ ab ∈ ps, ok (some (compare ab.1 ab.2)) = true := by
  induction ps with
  | nil =>
    intro acc
    simp
  | cons ab ps ih =>
    intro acc
    rw [List.foldlM_cons, List.forall_mem_cons, ← and_assoc, ← Bool.and_eq_true, ← h.combine]
    cases Resources.combine acc (compare ab.1 ab.2) with
    | none =>
      simp only [Option.bind_eq_bind, Option.bind_none, h.none]
      exact iff_of_false nofun fun hall => nomatch hall.1
    | some acc' => exact ih acc'

theorem Folds.partialCmp {ok : Option Ordering → Bool} (h : Folds ok) (hstart : ok (some .eq) = true) (a b : Resources) :
    ok (a.partialCmp b) = true ↔ ∀ c, ok (some (compare (a.get c) (b.get c))) = true := by
  unfold Resources.partialCmp
  rw [h.foldlM, and_iff_right hstart, forall_component]
  simp only [List.forall_mem_cons, List.not_mem_nil, false_implies, implies_true, and_true]
  exact Iff.rfl

theorem isGe_compare (x y : ℚ) : isGe (some (compare x y)) = true ↔ y ≤ x := by
  cases hcmp : compare x y with
  | lt =>
    rw [compare_lt_iff_lt] at hcmp
    simpa [isGe] using hcmp
  | eq =>
    rw [compare_eq_iff_eq] at hcmp
    simp [isGe, hcmp]
  | gt =>
    rw [compare_gt_iff_gt] at hcmp
    simpa [isGe] using hcmp.le

theorem isLe_compare (x y : ℚ) : isLe (some (compare x y)) = true ↔ x ≤ y := by
  cases hcmp : compare x y with
  | lt =>
    rw [compare_lt_iff_lt] at hcmp
    simpa [isLe] using hcmp.le
  | eq =>
    rw [compare_eq_iff_eq] at hcmp
    simp [isLe, hcmp]
  | gt =>
    rw [compare_gt_iff_gt] at hcmp
    simpa [isLe] using hcmp

/-- **One vector is at least another** if it is so in every component. -/
theorem ge_iff (a b : Resources) : a.ge b = true ↔ ∀ c, b.get c ≤ a.get c :=
  (folds_isGe.partialCmp rfl a b).trans (forall_congr' fun c => isGe_compare (a.get c) (b.get c))

theorem le_iff (a b : Resources) : a.le b = true ↔ ∀ c, a.get c ≤ b.get c :=
  (folds_isLe.partialCmp rfl a b).trans (forall_congr' fun c => isLe_compare (a.get c) (b.get c))

theorem ext_get {a b : Resources} (h : ∀ c, a.get c = b.get c) : a = b := by
  obtain ⟨gpu, cpu, storage, memory⟩ := a
  obtain ⟨gpu', cpu', storage', memory'⟩ := b
  rw [Resources.mk.injEq]
  exact ⟨h .gpu, h .cpu, h .storage, h .memory⟩

theorem eq_iff (a b : Resources) : a.eq b = true ↔ ∀ c, a.get c = b.get c := by
  unfold eq
  simp only [Bool.and_eq_true, beq_iff_eq, forall_component, and_assoc]
  exact Iff.rfl

theorem partialCmp_eq_iff (a b : Resources) : a.partialCmp b = some .eq ↔ a.eq b = true := by
  rw [eq_iff, ← beq_iff_eq, folds_isEq.partialCmp rfl]
  simp only [beq_iff_eq, Option.some_inj, compare_eq_iff_eq]

/-- The outcomes of a comparison of vectors, by their components. -/
structure ComparesComponents (a b : Resources) : Prop where
  less_or_equal : a.partialCmp b = some .lt ∨ a.partialCmp b = some .eq ↔ ∀ c, a.get c ≤ b.get c
  greater_or_equal : a.partialCmp b = some .gt ∨ a.partialCmp b = some .eq ↔ ∀ c, b.get c ≤ a.get c
  equal : a.partialCmp b = some .eq ↔ a.eq b = true
  incomparable : a.partialCmp b = none ↔ (¬ ∀ c, a.get c ≤ b.get c) ∧ ¬ ∀ c, b.get c ≤ a.get c

theorem comparesComponents (a b : Resources) : ComparesComponents a b := by
  refine ⟨?_, ?_, partialCmp_eq_iff a b, ?_⟩
  · rw [← le_iff]
    unfold le
    rcases a.partialCmp b with _ | _ | _ | _ <;> decide
  · rw [← ge_iff]
    unfold ge
    rcases a.partialCmp b with _ | _ | _ | _ <;> decide
  · rw [← le_iff, ← ge_iff]
    unfold le ge
    rcases a.partialCmp b with _ | _ | _ | _ <;> decide

/-- What admission rests on: the operator `<=` is an order, and taking off is the inverse of adding. -/
structure OrdersReservations : Prop where
  compares : ∀ a b, ComparesComponents a b
  le_iff : ∀ a b : Resources, a.le b = true ↔ a.partialCmp b = some .lt ∨ a.partialCmp b = some .eq
  order : IsPartialOrder Resources fun a b => a.le b = true
  antisymm_eq : ∀ a b : Resources, a.le b = true → b.le a = true → a.eq b = true
  ge_add_iff : ∀ a b c : Resources, a.ge (b + c) = true ↔ (a - b).ge c = true

/-- **The order of resources** is that of their components. -/
theorem orders_by_component : OrdersReservations := by
  have hantisymm : ∀ a b : Resources, a.le b = true → b.le a = true → ∀ c, a.get c = b.get c :=
    fun a b hab hba c => le_antisymm ((Resources.le_iff a b).mp hab c) ((Resources.le_iff b a).mp hba c)
  refine ⟨comparesComponents, fun a b => ?_, ?_, fun a b hab hba => (eq_iff a b).mpr (hantisymm a b hab hba),
    fun a b c => ?_⟩
  · rw [(comparesComponents a b).less_or_equal, Resources.le_iff]
  · refine { refl := fun a => ?_, trans := fun a b c hab hbc => ?_, antisymm := fun a b hab hba => ?_ }
    · exact (Resources.le_iff a a).mpr fun _ => le_rfl
    · exact (Resources.le_iff a c).mpr fun d => ((Resources.le_iff a b).mp hab d).trans ((Resources.le_iff b c).mp hbc d)
    · exact ext_get (hantisymm a b hab hba)
  · rw [ge_iff, ge_iff]
    refine forall_congr' fun d => ?_
    rw [add_get, sub_get]
    exact le_sub_iff_add_le'.symm

/-- A request that exceeds the worker in one component and is exceeded in another is not greater. -/
example : gt { cpu := 6, memory := -1 } { cpu := 1 } = false := by decide +kernel

/-- No component is negative. -/
def Nonneg (a : Resources) : Prop := 0 ≤ a.cpu ∧ 0 ≤ a.memory ∧ 0 ≤ a.gpu ∧ 0 ≤ a.storage

instance (a : Resources) : Decidable a.Nonneg := inferInstanceAs (Decidable (_ ∧ _ ∧ _ ∧ _))

theorem nonneg_iff (a : Resources) : a.Nonneg ↔ ∀ c, 0 ≤ a.get c := (forall_component fun c => 0 ≤ a.get c).symm

end Resources

end Hypha.Worker
