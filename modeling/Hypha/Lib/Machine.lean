import Mathlib.Data.List.Basic
import Mathlib.Data.List.Infix

/-!
# Recorded runs of a deterministic machine

A `Machine` takes a state and an input to the next state and an output. `Machine.run` feeds it a list of inputs and
keeps, newest first, one `Event` per step: the state before, the input, the output and the state after.

* `Along P h` : every event `e` of the history `h` satisfies `P e h'`, `h'` being the events before `e`;
* `Along.of_suffix`, `Along.mp` : earlier histories, and what follows from two properties;
* `filterMap_reverse_cons` : what is collected along a history;
* `Machine.along_of_invariant` : an invariant kept by every step that meets a condition, and the property it gives
  for that step, hold along every run all of whose steps meet the condition;
* `Machine.along_invariant_iff` : an invariant that survives exactly the steps that meet a condition.
-/

namespace Hypha.Lib

variable {σ ι ο : Type}

/-- A deterministic machine: one input takes a state to the next one and to an output. -/
structure Machine (σ ι ο : Type) where
  step : σ → ι → σ × ο

/-- One step of a run. -/
structure Event (σ ι ο : Type) where
  pre : σ
  input : ι
  output : ο
  post : σ

/-- A state with the steps that led to it, newest first. -/
structure World (σ ι ο : Type) where
  state : σ
  history : List (Event σ ι ο)

section Along
variable {α : Type}

/-- Every event of the history satisfies `P`, given the events before it. -/
def Along (P : α → List α → Prop) : List α → Prop
  | [] => True
  | e :: h => P e h ∧ Along P h

@[simp] theorem along_nil (P : α → List α → Prop) : Along P [] := trivial

@[simp] theorem along_cons (P : α → List α → Prop) (e : α) (h : List α) :
    Along P (e :: h) ↔ P e h ∧ Along P h := Iff.rfl

theorem along_true : ∀ h : List α, Along (fun _ _ => True) h
  | [] => trivial
  | _ :: h => ⟨trivial, along_true h⟩

instance instDecidableAlong (P : α → List α → Prop) [∀ e h, Decidable (P e h)] : ∀ h, Decidable (Along P h)
  | [] => isTrue trivial
  | _ :: h => @instDecidableAnd _ _ _ (instDecidableAlong P h)

theorem Along.of_suffix {P : α → List α → Prop} {g h : List α} (hP : Along P h) (hs : g <:+ h) : Along P g := by
  obtain ⟨pre, rfl⟩ := hs
  induction pre with
  | nil => exact hP
  | cons _ pre ih => exact ih hP.2

/-- What follows for an event from one property of it and another along the history up to it. -/
theorem Along.mp {P Q R : α → List α → Prop} (hR : ∀ e g, Along P (e :: g) → Q e g → R e g) :
    ∀ {h : List α}, Along P h → Along Q h → Along R h
  | [], _, _ => trivial
  | e :: g, hP, hQ => ⟨hR e g hP hQ.1, Along.mp hR hP.2 hQ.2⟩

theorem Along.and {P Q : α → List α → Prop} {h : List α} (hP : Along P h) (hQ : Along Q h) :
    Along (fun e g => P e g ∧ Q e g) h :=
  Along.mp (fun _ _ hP hQ => ⟨hP.1, hQ⟩) hP hQ

/-- Two properties that agree on every event agree along the history. -/
theorem Along.congr {P Q : α → List α → Prop} {h : List α} (hPQ : Along (fun e g => P e g ↔ Q e g) h) :
    Along P h ↔ Along Q h :=
  ⟨Along.mp (fun _ _ hPQ hP => hPQ.1.mp hP) hPQ, Along.mp (fun _ _ hPQ hQ => hPQ.1.mpr hQ) hPQ⟩

end Along

/-- What the events of a history bear, oldest first, is what the last one bears after the rest. -/
theorem filterMap_reverse_cons {α β : Type} (f : α → Option β) (e : α) (h : List α) :
    (e :: h).reverse.filterMap f = h.reverse.filterMap f ++ (f e).toList := by
  rw [List.reverse_cons, List.filterMap_append, List.filterMap_cons]
  cases f e <;> rfl

namespace Machine

variable (m : Machine σ ι ο)

/-- The event of feeding `i` to the machine in state `s`. -/
def event (s : σ) (i : ι) : Event σ ι ο where
  pre := s
  input := i
  output := (m.step s i).2
  post := (m.step s i).1

@[simp] theorem event_pre (s : σ) (i : ι) : (m.event s i).pre = s := rfl

@[simp] theorem event_input (s : σ) (i : ι) : (m.event s i).input = i := rfl

@[simp] theorem event_output (s : σ) (i : ι) : (m.event s i).output = (m.step s i).2 := rfl

@[simp] theorem event_post (s : σ) (i : ι) : (m.event s i).post = (m.step s i).1 := rfl

/-- One more input. -/
def next (w : World σ ι ο) (i : ι) : World σ ι ο where
  state := (m.step w.state i).1
  history := m.event w.state i :: w.history

@[simp] theorem next_state (w : World σ ι ο) (i : ι) : (m.next w i).state = (m.step w.state i).1 := rfl

@[simp] theorem next_history (w : World σ ι ο) (i : ι) :
    (m.next w i).history = m.event w.state i :: w.history := rfl

/-- The run of a list of inputs from a state. -/
def run (s : σ) (is : List ι) : World σ ι ο := is.foldl m.next ⟨s, []⟩

@[simp] theorem run_nil (s : σ) : m.run s [] = ⟨s, []⟩ := rfl

theorem run_snoc (s : σ) (is : List ι) (i : ι) : m.run s (is ++ [i]) = m.next (m.run s is) i :=
  List.foldl_append

/-- A run by its first step. -/
theorem run_cons (s : σ) (i : ι) (is : List ι) :
    m.run s (i :: is) =
      ⟨(m.run (m.step s i).1 is).state, (m.run (m.step s i).1 is).history ++ [m.event s i]⟩ := by
  induction is using List.reverseRecOn with
  | nil => rfl
  | append_singleton is j ih =>
    rw [← List.cons_append, run_snoc, run_snoc, ih]
    rfl

theorem run_cons_state (s : σ) (i : ι) (is : List ι) : (m.run s (i :: is)).state = (m.run (m.step s i).1 is).state := by
  rw [run_cons]

/-- Every event of a run is a step of the machine. -/
theorem along_event (s : σ) (is : List ι) : Along (fun e _ => e = m.event e.pre e.input) (m.run s is).history := by
  induction is using List.reverseRecOn with
  | nil => exact trivial
  | append_singleton is i ih =>
    rw [run_snoc]
    exact ⟨rfl, ih⟩

/-- What holds of every input holds of the inputs of the steps. -/
theorem along_input {s : σ} {P : ι → Prop} {is : List ι} (h : ∀ i ∈ is, P i) :
    Along (fun e _ => P e.input) (m.run s is).history := by
  induction is using List.reverseRecOn with
  | nil => exact trivial
  | append_singleton is i ih =>
    rw [run_snoc]
    exact ⟨h i (List.mem_append_right _ (List.mem_singleton_self i)), ih fun j hj => h j (List.mem_append_left _ hj)⟩

/-- **The invariant rule.** An invariant that every step meeting `C` keeps, and that gives `P` of such a step, holds
after every run whose steps all meet `C`, and `P` holds along it. -/
theorem along_of_invariant {s : σ} (I : World σ ι ο → Prop) (C P : Event σ ι ο → List (Event σ ι ο) → Prop)
    (init : I ⟨s, []⟩)
    (step : ∀ w i, I w → C (m.event w.state i) w.history → I (m.next w i) ∧ P (m.event w.state i) w.history) :
    ∀ is, Along C (m.run s is).history → I (m.run s is) ∧ Along P (m.run s is).history := by
  intro is
  induction is using List.reverseRecOn with
  | nil => exact fun _ => ⟨init, trivial⟩
  | append_singleton is i ih =>
    rw [run_snoc]
    rintro ⟨hc, hC⟩
    obtain ⟨hI, hP⟩ := ih hC
    obtain ⟨hI', hp⟩ := step _ i hI hc
    exact ⟨hI', hp, hP⟩

/-- An invariant that every step keeps holds after every run. -/
theorem run_invariant {s : σ} (I : World σ ι ο → Prop) (init : I ⟨s, []⟩) (step : ∀ w i, I w → I (m.next w i)) :
    ∀ is, I (m.run s is) := by
  intro is
  induction is using List.reverseRecOn with
  | nil => exact init
  | append_singleton is i ih =>
    rw [run_snoc]
    exact step _ i ih

/-- Two properties that agree on every event that meets `C` after an invariant agree along the runs that meet `C`. -/
theorem along_iff_of_invariant {s : σ} (I : World σ ι ο → Prop) (C P Q : Event σ ι ο → List (Event σ ι ο) → Prop)
    (init : I ⟨s, []⟩) (step : ∀ w i, I w → I (m.next w i))
    (h : ∀ w i, I w → C (m.event w.state i) w.history →
      (P (m.event w.state i) w.history ↔ Q (m.event w.state i) w.history)) :
    ∀ is, Along C (m.run s is).history → (Along P (m.run s is).history ↔ Along Q (m.run s is).history) := by
  intro is
  induction is using List.reverseRecOn with
  | nil => exact fun _ => Iff.rfl
  | append_singleton is i ih =>
    rw [run_snoc]
    rintro ⟨hc, hC⟩
    rw [next_history, along_cons, along_cons, h _ i (m.run_invariant I init step is) hc, ih hC]

/-- **The exact invariant rule.** An invariant that survives exactly the steps that meet `C` holds along exactly the
runs whose steps all meet `C`. `F` is what every step may be assumed to meet. -/
theorem along_invariant_iff {s : σ} (I : World σ ι ο → Prop) (F C : Event σ ι ο → List (Event σ ι ο) → Prop)
    (init : I ⟨s, []⟩)
    (step : ∀ w i, I w → F (m.event w.state i) w.history → (I (m.next w i) ↔ C (m.event w.state i) w.history)) :
    ∀ is, Along F (m.run s is).history →
      (Along (fun e h => I ⟨e.post, e :: h⟩) (m.run s is).history ↔ Along C (m.run s is).history) := by
  intro is hF
  have hrun : (Along (fun e h => I ⟨e.post, e :: h⟩) (m.run s is).history ↔ Along C (m.run s is).history) ∧
      (Along (fun e h => I ⟨e.post, e :: h⟩) (m.run s is).history → I (m.run s is)) := by
    induction is using List.reverseRecOn with
    | nil => exact ⟨Iff.rfl, fun _ => init⟩
    | append_singleton is i ih =>
      rw [run_snoc] at *
      obtain ⟨hpast, hstate⟩ := ih hF.2
      refine ⟨⟨fun h => ⟨?_, hpast.mp h.2⟩, fun h => ⟨?_, hpast.mpr h.2⟩⟩, fun h => h.1⟩
      · exact (step _ i (hstate h.2) hF.1).mp h.1
      · exact (step _ i (hstate (hpast.mpr h.2)) hF.1).mpr h.1
  exact hrun.1

/-- Two properties that agree on the machine's events agree along its runs. -/
theorem along_run_congr {s : σ} {P Q : Event σ ι ο → List (Event σ ι ο) → Prop}
    (h : ∀ s i g, P (m.event s i) g ↔ Q (m.event s i) g) (is : List ι) :
    Along P (m.run s is).history ↔ Along Q (m.run s is).history := by
  induction is using List.reverseRecOn with
  | nil => exact Iff.rfl
  | append_singleton is i ih =>
    rw [run_snoc, next_history, along_cons, along_cons, h, ih]

end Machine

end Hypha.Lib
