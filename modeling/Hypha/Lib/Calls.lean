import Hypha.Lib.Machine
import Mathlib.Logic.Function.Basic

/-!
# Calls that are answered later

Callers start calls, which are answered at once or wait under an id until an answer for that id comes.

* `calls` : the machine that keeps who waits under which id;
* `CallStatus`, `status` : what has become of a call, read off the inputs alone;
* `Fresh` : no caller calls twice, and no id is given to a call while another one waits under it;
* `Fresh.served` : every caller is answered exactly as its status says, and waits exactly as long.
-/

namespace Hypha.Lib

variable {Id Caller Answer : Type}

/-- A call is started, and answered at once or left waiting under an id; an answer comes for an id. -/
inductive CallInput (Id Caller Answer : Type) where
  | starts (caller : Caller) (outcome : Except Answer Id)
  | settles (id : Id) (answer : Answer)

/-- Who waits under which id. The output is an answer for a caller. -/
def calls (Id Caller Answer : Type) [DecidableEq Id] :
    Machine (Id → Option Caller) (CallInput Id Caller Answer) (Option (Caller × Answer)) where
  step waiting
    | .starts caller (.error answer) => (waiting, some (caller, answer))
    | .starts caller (.ok id) => (Function.update waiting id (some caller), none)
    | .settles id answer =>
      match waiting id with
      | some caller => (Function.update waiting id none, some (caller, answer))
      | none => (waiting, none)

/-- What has become of a call. -/
inductive CallStatus (Id Answer : Type) where
  | absent
  | waiting (id : Id)
  | answered (answer : Answer)
  deriving DecidableEq

/-- The answers that a caller has got. -/
def CallStatus.answers : CallStatus Id Answer → List Answer
  | .answered answer => [answer]
  | _ => []

section Status
variable [DecidableEq Id] [DecidableEq Caller]

def CallStatus.next (caller : Caller) (input : CallInput Id Caller Answer) :
    CallStatus Id Answer → CallStatus Id Answer
  | .absent =>
    match input with
    | .starts c (.error answer) => if c = caller then .answered answer else .absent
    | .starts c (.ok id) => if c = caller then .waiting id else .absent
    | .settles _ _ => .absent
  | .waiting id =>
    match input with
    | .settles k answer => if k = id then .answered answer else .waiting id
    | .starts _ _ => .waiting id
  | .answered answer => .answered answer

/-- What becomes of a call: the first answer for its id after it was started. -/
def status (caller : Caller) (inputs : List (CallInput Id Caller Answer)) : CallStatus Id Answer :=
  inputs.foldl (fun status input => status.next caller input) .absent

/-- Callers and ids are fresh. -/
def Fresh (inputs : List (CallInput Id Caller Answer)) : Prop :=
  ∀ before caller outcome, before ++ [.starts caller outcome] <+: inputs →
    status caller before = .absent ∧ ∀ id, outcome = .ok id → ∀ other, status other before ≠ .waiting id

/-- What a caller is answered along a history. -/
def answersTo {σ ι : Type} (caller : Caller) (h : List (Event σ ι (Option (Caller × Answer)))) : List Answer :=
  h.reverse.filterMap fun e => e.output.bind fun (c, answer) => if c = caller then some answer else none

theorem status_snoc (caller : Caller) (inputs : List (CallInput Id Caller Answer)) (input : CallInput Id Caller Answer) :
    status caller (inputs ++ [input]) = (status caller inputs).next caller input := by
  simp [status]

theorem answersTo_cons {σ ι : Type} (caller : Caller) (e : Event σ ι (Option (Caller × Answer)))
    (h : List (Event σ ι (Option (Caller × Answer)))) :
    answersTo caller (e :: h) =
      answersTo caller h ++ (e.output.bind fun (c, answer) => if c = caller then some answer else none).toList :=
  filterMap_reverse_cons _ e h

theorem Fresh.of_snoc {inputs : List (CallInput Id Caller Answer)} {input : CallInput Id Caller Answer}
    (h : Fresh (inputs ++ [input])) : Fresh inputs :=
  fun before caller outcome hbefore => h before caller outcome (hbefore.trans (List.prefix_append _ _))

/-- Who waits where is what the statuses say, and a caller has got what its status says. -/
structure Served (w : World (Id → Option Caller) (CallInput Id Caller Answer) (Option (Caller × Answer)))
    (inputs : List (CallInput Id Caller Answer)) : Prop where
  waits : ∀ id caller, w.state id = some caller ↔ status caller inputs = .waiting id
  answers : ∀ caller, answersTo caller w.history = (status caller inputs).answers

section Step
variable {w : World (Id → Option Caller) (CallInput Id Caller Answer) (Option (Caller × Answer))}
  {inputs : List (CallInput Id Caller Answer)} {caller : Caller} {id : Id} {answer : Answer}

theorem Served.starts_error (h : Served w inputs) (hnew : status caller inputs = .absent) :
    Served ((calls Id Caller Answer).next w (.starts caller (.error answer)))
      (inputs ++ [.starts caller (.error answer)]) := by
  refine ⟨fun k c => ?_, fun c => ?_⟩
  · rw [status_snoc]
    refine (h.waits k c).trans ?_
    by_cases hc : caller = c
    · subst hc
      simp [hnew, CallStatus.next]
    · rcases status c inputs with _ | _ | _ <;> simp [CallStatus.next, hc]
  · rw [status_snoc, Machine.next_history, answersTo_cons, h.answers]
    by_cases hc : caller = c
    · subst hc
      simp [hnew, CallStatus.next, CallStatus.answers, calls]
    · rcases status c inputs with _ | _ | _ <;> simp [CallStatus.next, CallStatus.answers, calls, hc]

theorem Served.starts_ok (h : Served w inputs) (hnew : status caller inputs = .absent)
    (hid : ∀ other, status other inputs ≠ .waiting id) :
    Served ((calls Id Caller Answer).next w (.starts caller (.ok id))) (inputs ++ [.starts caller (.ok id)]) := by
  refine ⟨fun k c => ?_, fun c => ?_⟩
  · rw [status_snoc]
    show Function.update w.state id (some caller) k = some c ↔ _
    by_cases hk : k = id
    · subst hk
      rw [Function.update_self, Option.some.injEq]
      by_cases hc : caller = c
      · subst hc
        simp [hnew, CallStatus.next]
      · have hother := hid c
        rcases hstatus : status c inputs with _ | k' | _ <;> simp_all [CallStatus.next]
    · rw [Function.update_of_ne hk]
      refine (h.waits k c).trans ?_
      by_cases hc : caller = c
      · subst hc
        simp [hnew, CallStatus.next, Ne.symm hk]
      · rcases status c inputs with _ | _ | _ <;> simp [CallStatus.next, hc]
  · rw [status_snoc, Machine.next_history, answersTo_cons, h.answers]
    by_cases hc : caller = c
    · subst hc
      simp [hnew, CallStatus.next, CallStatus.answers, calls]
    · rcases status c inputs with _ | _ | _ <;> simp [CallStatus.next, CallStatus.answers, calls, hc]

theorem Served.settles (h : Served w inputs) :
    Served ((calls Id Caller Answer).next w (.settles id answer)) (inputs ++ [.settles id answer]) := by
  rcases hwaiting : w.state id with _ | caller
  · -- nobody waits under the id
    have hnext : (calls Id Caller Answer).next w (.settles id answer) =
        ⟨w.state, ⟨w.state, .settles id answer, none, w.state⟩ :: w.history⟩ := by
      simp [Machine.next, Machine.event, calls, hwaiting]
    have hstatus : ∀ c, status c (inputs ++ [.settles id answer]) = status c inputs := by
      intro c
      rw [status_snoc]
      rcases hc : status c inputs with _ | k | _
      · rfl
      · refine if_neg ?_
        rintro rfl
        cases hwaiting.symm.trans ((h.waits id c).mpr hc)
      · rfl
    rw [hnext]
    refine ⟨fun k c => ?_, fun c => ?_⟩
    · rw [hstatus]
      exact h.waits k c
    · rw [hstatus, answersTo_cons, h.answers]
      exact List.append_nil _
  · have hnext : (calls Id Caller Answer).next w (.settles id answer) =
        ⟨Function.update w.state id none,
          ⟨w.state, .settles id answer, some (caller, answer), Function.update w.state id none⟩ :: w.history⟩ := by
      simp [Machine.next, Machine.event, calls, hwaiting]
    have hcaller := (h.waits id caller).mp hwaiting
    have hstatus : ∀ c, c ≠ caller → status c (inputs ++ [.settles id answer]) = status c inputs := by
      intro c hne
      rw [status_snoc]
      rcases hc : status c inputs with _ | k | _
      · rfl
      · refine if_neg ?_
        rintro rfl
        exact hne (Option.some.inj (((h.waits id c).mpr hc).symm.trans hwaiting))
      · rfl
    have hanswered : status caller (inputs ++ [.settles id answer]) = .answered answer := by
      rw [status_snoc, hcaller]
      exact if_pos rfl
    rw [hnext]
    refine ⟨fun k c => ?_, fun c => ?_⟩
    · show Function.update w.state id none k = some c ↔ _
      by_cases hc : c = caller
      · subst hc
        rw [hanswered]
        refine iff_of_false (fun hsome => ?_) nofun
        by_cases hk : k = id
        · rw [hk, Function.update_self] at hsome
          cases hsome
        · rw [Function.update_of_ne hk, h.waits, hcaller] at hsome
          exact hk (CallStatus.waiting.inj hsome).symm
      · rw [hstatus c hc, ← h.waits k c]
        by_cases hk : k = id
        · rw [hk, Function.update_self, hwaiting]
          exact iff_of_false nofun fun hsome => hc (Option.some.inj hsome).symm
        · rw [Function.update_of_ne hk]
    · rw [answersTo_cons, h.answers]
      by_cases hc : c = caller
      · subst hc
        rw [hanswered, hcaller]
        simp [CallStatus.answers]
      · rw [hstatus c hc]
        simp [Ne.symm hc]

end Step

/-- **Every call is answered once**: with the first answer for its id, or at once. -/
theorem Fresh.served {inputs : List (CallInput Id Caller Answer)} (hfresh : Fresh inputs) :
    Served ((calls Id Caller Answer).run (fun _ => none) inputs) inputs := by
  induction inputs using List.reverseRecOn with
  | nil => exact ⟨fun id caller => ⟨nofun, nofun⟩, fun caller => rfl⟩
  | append_singleton inputs input ih =>
    have h := ih hfresh.of_snoc
    rw [Machine.run_snoc]
    cases input with
    | starts caller outcome =>
      obtain ⟨hnew, hid⟩ := hfresh inputs caller outcome (List.prefix_refl _)
      cases outcome with
      | error answer => exact h.starts_error hnew
      | ok id => exact h.starts_ok hnew (hid id rfl)
    | settles id answer => exact h.settles

end Status

end Hypha.Lib
