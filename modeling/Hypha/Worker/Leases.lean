import Hypha.Lib.Machine
import Hypha.Worker.LeaseManager

/-!
# Leases and reservations stay in step

Any number of calls of `request`, `renew`, `remove` and `proceed` on clones of one lease manager, which interleave
wherever a call waits for a lock.

* `Calls`, `clones` : the interleavings, as a machine;
* `Sound` : the invariant: every reservation is in the hands of one lease or one call, and what is released is drawn and
  gone;
* `lease_reservation_bijOn` : with no call in flight the leases and the reservations are in bijection, nothing is
  released twice, and every release finds its reservation.
-/

namespace Hypha.Worker

open Hypha.Lib

variable {PeerId : Type}

/-- A call and where it waits. -/
inductive Call (PeerId : Type) where
  | request (point : Requesting PeerId)
  | renew (id : Uuid) (duration : Duration)
  | remove (point : Removing PeerId)
  | proceed (point : Proceeding PeerId)
  | returned

namespace Call

/-- One stretch of a call. -/
def run (m : ResourceLeaseManager PeerId) (r : Reading) : Call PeerId → Option (Access PeerId × Call PeerId)
  | .request point =>
    let (access, progress) := point.run m r
    some (access, progress.elim .request fun _ => .returned)
  | .renew id duration => some ((m.renew r id duration).1, .returned)
  | .remove point =>
    let (access, progress) := point.run m
    some (access, progress.elim .remove fun _ => .returned)
  | .proceed point =>
    let (access, progress) := point.run m r
    some (access, progress.elim .proceed fun _ => .returned)
  | .returned => none

/-- Whether a call has returned. -/
def isReturned : Call PeerId → Bool
  | .returned => true
  | _ => false

/-- The reservation in the hands of a call. -/
def held : Call PeerId → Option Uuid
  | .request point => point.held
  | .remove point => point.held
  | .proceed point => point.held
  | _ => none

end Call

/-- The calls that clones are asked to make. -/
inductive Invocation (PeerId : Type) where
  | request (peer : PeerId) (resources : Resources) (duration : Duration)
  | renew (id : Uuid) (duration : Duration)
  | remove (id : Uuid)
  | proceed

/-- Where a call begins. -/
def Invocation.call : Invocation PeerId → Call PeerId
  | .request peer resources duration => .request (.reserve peer resources duration)
  | .renew id duration => .renew id duration
  | .remove id => .remove (.taking id)
  | .proceed => .proceed .listing

/-- A clone is asked for a call, or a call runs to where it waits next. -/
inductive CallHappening (PeerId : Type) where
  | invokes (invocation : Invocation PeerId)
  | runs (i : Nat) (r : Reading)

/-- The lease manager and the calls on its clones. -/
structure Calls (PeerId : Type) where
  manager : ResourceLeaseManager PeerId
  calls : List (Call PeerId) := []

namespace Calls

/-- What is written and where the calls are then, if it can happen. -/
def step (s : Calls PeerId) : CallHappening PeerId → Option (Access PeerId × List (Call PeerId))
  | .invokes invocation => some (.reads, s.calls ++ [invocation.call])
  | .runs i r =>
    s.calls[i]?.bind fun call => (call.run s.manager r).map fun (access, call') => (access, s.calls.set i call')

/-- No call is in flight. -/
def Quiet (s : Calls PeerId) : Prop := s.calls.all Call.isReturned = true

instance (s : Calls PeerId) : Decidable s.Quiet := inferInstanceAs (Decidable (_ = _))

/-- The reservations in the hands of the calls. -/
def hands (s : Calls PeerId) : Nat → Option Uuid := handsOf Call.held s.calls

end Calls

/-- The interleavings of the calls: the output is what has been written. -/
def clones : Machine (Calls PeerId) (CallHappening PeerId) (Option (Access PeerId)) where
  step s a :=
    match s.step a with
    | some (access, calls) => (⟨access.apply s.manager, calls⟩, some access)
    | none => (s, none)

/-- One step of a run. -/
abbrev CallStep (PeerId : Type) := Event (Calls PeerId) (CallHappening PeerId) (Option (Access PeerId))

/-- The reservations that `release` has been called for, newest first. -/
def releasedBy {σ ι : Type} (h : List (Event σ ι (Option (Access PeerId)))) : List Uuid :=
  h.filterMap fun e => e.output.bind Access.freed?

/-- A run of calls on a manager of some resources. -/
def runCalls (resources : Resources) (happenings : List (CallHappening PeerId)) :
    World (Calls PeerId) (CallHappening PeerId) (Option (Access PeerId)) :=
  clones.run ⟨{ computeResources := resources }, []⟩ happenings

section Step
variable {s : Calls PeerId}

theorem Call.run_moves {m : ResourceLeaseManager PeerId} {r : Reading} {call call' : Call PeerId}
    {access : Access PeerId} (h : call.run m r = some (access, call')) : Moves m call.held access call'.held := by
  cases call with
  | request point =>
    simp only [Call.run, Option.some.injEq, Prod.mk.injEq] at h
    obtain ⟨rfl, rfl⟩ := h
    rw [Progress.held_elim Requesting.held Call.held (fun _ => rfl) (fun _ => rfl)]
    exact point.run_moves m r
  | renew id duration =>
    simp only [Call.run, Option.some.injEq, Prod.mk.injEq] at h
    obtain ⟨rfl, rfl⟩ := h
    exact m.renew_moves r id duration
  | remove point =>
    simp only [Call.run, Option.some.injEq, Prod.mk.injEq] at h
    obtain ⟨rfl, rfl⟩ := h
    rw [Progress.held_elim Removing.held Call.held (fun _ => rfl) (fun _ => rfl)]
    exact point.run_moves m
  | proceed point =>
    simp only [Call.run, Option.some.injEq, Prod.mk.injEq] at h
    obtain ⟨rfl, rfl⟩ := h
    rw [Progress.held_elim Proceeding.held Call.held (fun _ => rfl) (fun _ => rfl)]
    exact point.run_moves m r
  | returned => cases h

/-- **What a step does**: one call makes a move, or the hands stay as they are and nothing is written. -/
theorem Calls.step_moves {a : CallHappening PeerId} {access : Access PeerId} {calls : List (Call PeerId)}
    (h : s.step a = some (access, calls)) :
    ∃ i held, Moves s.manager (s.hands i) access held ∧
      handsOf Call.held calls = Function.update s.hands i held := by
  cases a with
  | invokes invocation =>
    simp only [Calls.step, Option.some.injEq, Prod.mk.injEq] at h
    obtain ⟨rfl, rfl⟩ := h
    have hidle : ∀ t ∈ [invocation.call], Call.held t = none := by
      intro t ht
      rw [List.mem_singleton.mp ht]
      cases invocation <;> rfl
    have hend : s.hands s.calls.length = none := by simp [Calls.hands, handsOf]
    refine ⟨s.calls.length, none, ?_, ?_⟩
    · rw [hend]
      exact .reads
    · rw [handsOf_append _ hidle, ← hend, Function.update_eq_self]
      rfl
  | runs i r =>
    simp only [Calls.step] at h
    obtain ⟨call, hcall, h⟩ := Option.bind_eq_some_iff.mp h
    obtain ⟨⟨access', call'⟩, hrun, h⟩ := Option.map_eq_some_iff.mp h
    obtain ⟨rfl, rfl⟩ := Prod.mk.inj h
    refine ⟨i, call'.held, ?_, handsOf_set _ hcall⟩
    rw [Calls.hands, handsOf_eq _ hcall]
    exact call.run_moves hrun

end Step

/-- Every reservation is in custody, and what has been released was drawn once and is gone. -/
structure Sound (s : Calls PeerId) (released : List Uuid) : Prop where
  keyed : Keyed s.manager
  custody : InCustody s.manager s.hands
  drawn : ∀ r ∈ released, r ∈ s.manager.drawn
  gone : ∀ r ∈ released, r ∉ s.manager.reservations
  once : released.Nodup

theorem Sound.initial (resources : Resources) :
    Sound (⟨{ computeResources := resources }, []⟩ : Calls PeerId) [] := by
  refine ⟨Keyed.initial resources, ?_, ?_, ?_, List.nodup_nil⟩
  · have hhands : (⟨{ computeResources := resources }, []⟩ : Calls PeerId).hands = fun _ => none := handsOf_nil Call.held
    rw [hhands]
    exact InCustody.initial resources
  · exact fun _ hr => absurd hr List.not_mem_nil
  · exact fun _ hr => absurd hr List.not_mem_nil

/-- A step that draws a new UUID, if any, keeps the invariant. -/
theorem Sound.step {s : Calls PeerId} {released : List Uuid} {a : CallHappening PeerId} {access : Access PeerId}
    {calls : List (Call PeerId)} (h : Sound s released) (hstep : s.step a = some (access, calls))
    (hfresh : (access.apply s.manager).drawn.Nodup) :
    Sound ⟨access.apply s.manager, calls⟩ (access.freed?.toList ++ released) := by
  obtain ⟨i, held, hmove, hhands⟩ := s.step_moves hstep
  have hunused := h.keyed.unused hfresh
  have hcustody : InCustody (access.apply s.manager) (handsOf Call.held calls) := by
    rw [hhands]
    exact custody_moves h.custody hmove hunused
  have hdrawn : ∀ r ∈ released, r ∈ (access.apply s.manager).drawn :=
    fun r hr => (access.drawn_suffix s.manager).subset (h.drawn r hr)
  refine ⟨h.keyed.apply hmove, hcustody, ?_, ?_, ?_⟩
  all_goals generalize hmine : s.hands i = before at hmove
  · cases hmove with
    | frees reservation =>
      have hholds : holders s.manager s.hands (.inr i) = some reservation := hmine
      intro r hr
      rcases List.mem_cons.mp hr with rfl | hr
      · exact h.keyed.reservations r (h.custody.mem_live hholds)
      · exact hdrawn r hr
    | _ => exact hdrawn
  · cases hmove with
    | frees reservation =>
      intro r hr hmem
      obtain ⟨hne, hmem⟩ := AList.mem_erase.mp hmem
      rcases List.mem_cons.mp hr with rfl | hr
      · exact hne rfl
      · exact h.gone r hr hmem
    | reserves id resources hfits =>
      intro r hr hmem
      rcases (AList.mem_insert _).mp hmem with rfl | hmem
      · exact (List.nodup_cons.mp hfresh).1 (h.drawn r hr)
      · exact h.gone r hr hmem
    | _ => exact h.gone
  · cases hmove with
    | frees reservation =>
      have hholds : holders s.manager s.hands (.inr i) = some reservation := hmine
      exact List.nodup_cons.mpr ⟨fun hr => h.gone _ hr (h.custody.mem_live hholds), h.once⟩
    | _ => exact h.once

/-- What happens, or nothing. -/
theorem clones_event (s : Calls PeerId) (a : CallHappening PeerId) :
    (clones.event s a = ⟨s, a, none, s⟩) ∨
      ∃ access calls, s.step a = some (access, calls) ∧
        clones.event s a = ⟨s, a, some access, ⟨access.apply s.manager, calls⟩⟩ := by
  rcases hstep : s.step a with _ | ⟨access, calls⟩
  · exact Or.inl (by simp [Machine.event, clones, hstep])
  · exact Or.inr ⟨access, calls, rfl, by simp [Machine.event, clones, hstep]⟩

theorem releasedBy_cons {σ ι : Type} (e : Event σ ι (Option (Access PeerId)))
    (h : List (Event σ ι (Option (Access PeerId)))) :
    releasedBy (e :: h) = (e.output.bind Access.freed?).toList ++ releasedBy h := by
  unfold releasedBy
  cases hfreed : e.output.bind Access.freed? <;> simp [hfreed]

/-- A release that finds its reservation. -/
def Releases (e : CallStep PeerId) : Prop :=
  ∀ r, e.output = some (.frees r) → ∃ resources, e.pre.manager.release r = .ok resources

/-- The invariant holds after every run whose UUIDs are new, and every release of it finds its reservation. -/
theorem runCalls_sound (resources : Resources) (happenings : List (CallHappening PeerId))
    (hfresh : (runCalls resources happenings).state.manager.drawn.Nodup) :
    Sound (runCalls resources happenings).state (releasedBy (runCalls resources happenings).history) ∧
      Along (fun e _ => Releases e) (runCalls resources happenings).history := by
  induction happenings using List.reverseRecOn with
  | nil => exact ⟨Sound.initial resources, trivial⟩
  | append_singleton happenings a ih =>
    unfold runCalls at ih hfresh ⊢
    rw [Machine.run_snoc] at hfresh ⊢
    generalize clones.run (⟨{ computeResources := resources }, []⟩ : Calls PeerId) happenings = w at ih hfresh ⊢
    rcases clones_event w.state a with hevent | ⟨access, calls, hstep, hevent⟩
    · have hstate : (clones.next w a).state = w.state := congrArg Event.post hevent
      rw [hstate] at hfresh
      obtain ⟨hsound, halong⟩ := ih hfresh
      rw [hstate, Machine.next_history, hevent]
      refine ⟨hsound, ?_, halong⟩
      intro r hr
      cases hr
    · have hstate : (clones.next w a).state = ⟨access.apply w.state.manager, calls⟩ := congrArg Event.post hevent
      rw [hstate] at hfresh
      obtain ⟨hsound, halong⟩ := ih (hfresh.sublist (access.drawn_suffix w.state.manager).sublist)
      rw [hstate, Machine.next_history, hevent, releasedBy_cons]
      refine ⟨hsound.step hstep hfresh, ?_, halong⟩
      intro r hr
      obtain ⟨i, held, hmove, -⟩ := w.state.step_moves hstep
      obtain rfl := Option.some.inj hr
      generalize hmine : w.state.hands i = before at hmove
      cases hmove with
      | frees => exact hsound.custody.release hmine

/-- The leases of a ledger. -/
def leases (m : ResourceLeaseManager PeerId) : Set (WorkerLease PeerId) := {lease | ∃ id, m.ledger.lookup id = some lease}

/-- With no call in flight only the leases have reservations. -/
theorem Sound.bijOn {s : Calls PeerId} {released : List Uuid} (h : Sound s released) (hquiet : s.Quiet) :
    Set.BijOn (fun lease => lease.leasable.reservation) (leases s.manager) {r | r ∈ s.manager.reservations} := by
  have hholds : ∀ id lease, s.manager.ledger.lookup id = some lease →
      holders s.manager s.hands (.inl id) = some lease.leasable.reservation := by
    intro id lease hlease
    simp [holders, hlease]
  refine ⟨?_, ?_, ?_⟩
  · rintro lease ⟨id, hlease⟩
    exact h.custody.mem_live (hholds id lease hlease)
  · rintro lease ⟨id, hlease⟩ lease' ⟨id', hlease'⟩ hsame
    have hholds' := hholds id' lease' hlease'
    rw [← show lease.leasable.reservation = lease'.leasable.reservation from hsame] at hholds'
    obtain rfl := Sum.inl.inj (h.custody.unique _ _ _ (hholds id lease hlease) hholds')
    exact Option.some.inj (hlease.symm.trans hlease')
  · intro r hr
    obtain ⟨a, ha⟩ := (h.custody.live_iff r).mp hr
    cases a with
    | inl id =>
      obtain ⟨lease, hlease, hr⟩ := Option.map_eq_some_iff.mp ha
      exact ⟨lease, ⟨id, hlease⟩, hr⟩
    | inr i =>
      obtain ⟨call, hcall, hheld⟩ := Option.bind_eq_some_iff.mp ha
      have hreturned := List.all_eq_true.mp hquiet call (List.mem_of_getElem? hcall)
      cases call with
      | returned => cases hheld
      | _ => cases hreturned

/-- **Leases and reservations stay in step.** If no UUID is drawn twice, then with no call in flight the leases of the
ledger are in bijection with the reservations, no reservation is released twice, and every release finds its
reservation. -/
theorem lease_reservation_bijOn (resources : Resources) (happenings : List (CallHappening PeerId))
    (hfresh : (runCalls resources happenings).state.manager.drawn.Nodup) :
    ((runCalls resources happenings).state.Quiet →
      Set.BijOn (fun lease => lease.leasable.reservation) (leases (runCalls resources happenings).state.manager)
        {r | r ∈ (runCalls resources happenings).state.manager.reservations}) ∧
      (releasedBy (runCalls resources happenings).history).Nodup ∧
      Along (fun e _ => Releases e) (runCalls resources happenings).history := by
  obtain ⟨hsound, halong⟩ := runCalls_sound resources happenings hfresh
  exact ⟨hsound.bijOn, hsound.once, halong⟩

/-- Two leases are granted; `remove` takes the first after `proceed` has listed it as expired. -/
def racingCalls : List (CallHappening Nat) :=
  [.invokes (.request 7 { cpu := 1 } 10), .invokes (.request 8 { cpu := 2 } 90), .runs 0 {}, .runs 1 {},
    .runs 1 { uuid := 1 }, .runs 0 { uuid := 2 }, .runs 0 { uuid := 3, now := 5 }, .runs 1 { uuid := 4, now := 6 },
    .invokes .proceed, .invokes (.remove 3), .runs 2 { now := 20 }, .runs 3 {}, .runs 2 {}, .runs 3 {}]

theorem lease_reservation_bijOn_racingCalls :
    (runCalls { cpu := 4 } racingCalls).state.manager.drawn.Nodup ∧
      Set.BijOn (fun lease => lease.leasable.reservation) (leases (runCalls { cpu := 4 } racingCalls).state.manager)
        {r | r ∈ (runCalls { cpu := 4 } racingCalls).state.manager.reservations} ∧
      releasedBy (runCalls { cpu := 4 } racingCalls).history = [2] := by
  have hfresh : (runCalls { cpu := 4 } racingCalls).state.manager.drawn.Nodup := by decide +kernel
  exact ⟨hfresh, (lease_reservation_bijOn _ _ hfresh).1 (by decide +kernel), by decide +kernel⟩

end Hypha.Worker
