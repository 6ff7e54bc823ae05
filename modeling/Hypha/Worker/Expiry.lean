import Hypha.Worker.Holding

/-!
# Expired leases

A lease is taken to be valid as long as it is in the ledger, and it stays there until the prune loop comes to it.

* `consulted?`, `consultedIn` : the lease that a handler finds when it looks into the ledger, and the time it does so;
* `UsesLive` : a job is dispatched or a lease renewed only by a handler that has found leases that were not expired;
* `expired_used` : a lease is renewed and a job dispatched after it has expired;
* `uses_live` : none is if, whenever a handler looks into the ledger, no expired lease it may find is left there.
-/

namespace Hypha.Worker

open Hypha.Lib

set_option linter.unusedSectionVars false

variable {PeerId : Type} [DecidableEq PeerId] {cfg : Config} {w : Arbiter PeerId} {h : List (ArbiterStep PeerId)}

/-- The lease that the handler at a position finds in a step and goes on with, and when: a dispatch one of the peer, a
renewal the one of the id, when it has checked the owner and when it renews. -/
def consulted? (i : Nat) (e : ArbiterStep PeerId) : Option (WorkerLease PeerId × SystemTime) :=
  match e.input with
  | .runs j r =>
    if j = i then
      match e.pre.tasks[i]?, e.post.tasks[i]? with
      | some (.looking ..), some (.starting _ _ _ lease) => some (lease, r.now)
      | some (.checking _ id), some (.renewing ..) => (e.pre.manager.ledger.lookup id).map fun lease => (lease, r.now)
      | some (.renewing _ id), _ => (e.pre.manager.ledger.lookup id).map fun lease => (lease, r.now)
      | _, _ => none
    else none
  | _ => none

/-- What the handler at a position has found. -/
def consultedIn (i : Nat) (h : List (ArbiterStep PeerId)) : List (WorkerLease PeerId × SystemTime) :=
  h.filterMap (consulted? i)

/-- Whether a response says that a job has been dispatched or a lease renewed. -/
def Response.isGrant : Response → Bool
  | .renewLease (.renewed ..) | .dispatchJob (.dispatched ..) => true
  | _ => false

/-- The handler that a step runs. -/
def Happening.task? : Happening PeerId → Option Nat
  | .runs i _ => some i
  | _ => none

/-- A handler that answers that a job has been dispatched or a lease renewed has found a lease, and whenever it has
found one the timeout of the lease was later than the time. -/
def UsesLive (e : ArbiterStep PeerId) (h : List (ArbiterStep PeerId)) : Prop :=
  ∀ i ∈ e.input.task?, ∀ response ∈ answer? e, response.isGrant = true →
    consultedIn i (e :: h) ≠ [] ∧ ∀ x ∈ consultedIn i (e :: h), x.2 < x.1.timeout

/-- Whether a task that looks into the ledger may find a lease and go on with it. -/
def Task.consults (key : Uuid) (lease : WorkerLease PeerId) : Task PeerId → Bool
  | .looking peer _ _ => decide (lease.leasable.peerId = peer)
  | .checking peer id => decide (key = id ∧ lease.leasable.peerId = peer)
  | .renewing _ id => decide (key = id)
  | _ => false

/-- When a handler looks into the ledger, no expired lease that it may find and go on with is left there. -/
def FindsPruned (e : ArbiterStep PeerId) : Prop :=
  ∀ task ∈ running e, ∀ now ∈ e.input.now?, ∀ x ∈ e.pre.manager.ledger.entries, task.consults x.1 x.2 = true →
    x.2.isExpired now = false

instance (e : ArbiterStep PeerId) (h : List (ArbiterStep PeerId)) : Decidable (UsesLive e h) :=
  inferInstanceAs (Decidable (∀ i ∈ e.input.task?, ∀ response ∈ answer? e, response.isGrant = true →
    consultedIn i (e :: h) ≠ [] ∧ ∀ x ∈ consultedIn i (e :: h), x.2 < x.1.timeout))

instance (e : ArbiterStep PeerId) : Decidable (FindsPruned e) :=
  inferInstanceAs (Decidable (∀ task ∈ running e, ∀ now ∈ e.input.now?, ∀ x ∈ e.pre.manager.ledger.entries,
    task.consults x.1 x.2 = true → x.2.isExpired now = false))

/-- Whether a handler has found its lease. -/
def Task.hasConsulted : Task PeerId → Bool
  | .starting .. | .recording .. | .renewing .. => true
  | _ => false

/-- What has been found was not expired, and the handlers that go on have found something. -/
structure Consulted (w : Arbiter PeerId) (h : List (ArbiterStep PeerId)) : Prop where
  live : ∀ i, ∀ x ∈ consultedIn i h, x.2 < x.1.timeout
  found : ∀ (i : Nat) t, w.tasks[i]? = some t → t.hasConsulted = true → consultedIn i h ≠ []

theorem mem_consultedIn_cons {i : Nat} {e : ArbiterStep PeerId} {x : WorkerLease PeerId × SystemTime} :
    x ∈ consultedIn i (e :: h) ↔ consulted? i e = some x ∨ x ∈ consultedIn i h := by
  unfold consultedIn
  simp only [List.mem_filterMap, List.mem_cons, exists_eq_or_imp]

theorem consultedIn_cons_ne_nil {i : Nat} {e : ArbiterStep PeerId} (hne : consultedIn i h ≠ []) :
    consultedIn i (e :: h) ≠ [] := by
  obtain ⟨x, hx⟩ := List.exists_mem_of_ne_nil _ hne
  exact List.ne_nil_of_mem (mem_consultedIn_cons.mpr (Or.inr hx))

section Taken
variable {a : Happening PeerId} {effect : Effect PeerId} {tasks : List (Task PeerId)}

/-- What is found after pruning is not expired. -/
theorem FindsPruned.live {task : Task PeerId} {key : Uuid} {lease : WorkerLease PeerId} {i : Nat} {r : Moment}
    (hpruned : FindsPruned (taken w (.runs i r) effect tasks)) (htask : w.tasks[i]? = some task)
    (hlease : w.manager.ledger.lookup key = some lease) (hconsults : task.consults key lease = true) :
    r.now < lease.timeout := by
  have hlive := hpruned task htask r.now rfl ⟨key, lease⟩ (AList.mem_lookup_iff.mp hlease) hconsults
  unfold Lease.isExpired at hlive
  rw [decide_eq_false_iff_not] at hlive
  exact Nat.lt_of_not_le hlive

/-- What a handler finds in a step. -/
theorem Steps.consulted {i : Nat} {x : WorkerLease PeerId × SystemTime} (hsteps : Steps cfg w a effect tasks)
    (hx : consulted? i (taken w a effect tasks) = some x) :
    ∃ r task key, a = .runs i r ∧ w.tasks[i]? = some task ∧ w.manager.ledger.lookup key = some x.1 ∧
      task.consults key x.1 = true ∧ x.2 = r.now := by
  cases hsteps with
  | runs j r t t' effect spawned ht hruns =>
    by_cases hij : j = i
    · subst hij
      simp only [consulted?, taken, if_true, ht, getElem?_ran ht] at hx
      cases t with
      | looking peer id spec =>
        cases hruns with
        | looksUp _ _ _ key lease hlease howner =>
          obtain rfl := Option.some.inj hx
          exact ⟨r, _, key, rfl, ht, hlease, decide_eq_true howner, rfl⟩
        | rejects => cases hx
      | checking peer id =>
        cases hruns with
        | checksOwner _ _ lease hlease howner =>
          obtain ⟨found, hfound, rfl⟩ := Option.map_eq_some_iff.mp hx
          obtain rfl := Option.some.inj (hlease.symm.trans hfound)
          exact ⟨r, _, id, rfl, ht, hlease, decide_eq_true ⟨rfl, howner⟩, rfl⟩
        | _ => cases hx
      | renewing peer id =>
        obtain ⟨lease, hlease, rfl⟩ := Option.map_eq_some_iff.mp hx
        exact ⟨r, _, id, rfl, ht, hlease, decide_eq_true rfl, rfl⟩
      | _ => cases hx
    · simp only [consulted?, taken, if_neg hij] at hx
      cases hx
  | _ => cases hx

theorem Consulted.step (hI : Consulted w h) (hsteps : Steps cfg w a effect tasks)
    (hpruned : FindsPruned (taken w a effect tasks)) :
    Consulted ⟨effect.apply w.toShared, tasks⟩ (taken w a effect tasks :: h) := by
  refine ⟨fun i x hx => ?_, fun i u hu hconsulted => ?_⟩
  · rcases mem_consultedIn_cons.mp hx with hnew | hold
    · obtain ⟨r, task, key, rfl, htask, hlease, hconsults, hnow⟩ := hsteps.consulted hnew
      rw [hnow]
      exact hpruned.live htask hlease hconsults
    · exact hI.live i x hold
  · have hu : tasks[i]? = some u := hu
    have hserving : u.isServing = true := by
      cases u with
      | starting | recording | renewing => rfl
      | _ => cases hconsulted
    rcases hsteps.task_cases hu with ⟨hold, -⟩ | ⟨r, t, spawned, rfl, ht, hruns⟩ | hbegins
    · exact consultedIn_cons_ne_nil (hI.found i u hold hconsulted)
    · cases hruns.precedes hserving with
      | checksOwner peer id lease hlease howner =>
        have hfound : consulted? i (taken w (.runs i r) (.lease .reads) tasks) = some (lease, r.now) := by
          simp [consulted?, taken, ht, hu, hlease]
        exact List.ne_nil_of_mem (mem_consultedIn_cons.mpr (Or.inl hfound))
      | looksUp peer id spec key lease hlease howner =>
        have hfound : consulted? i (taken w (.runs i r) (.lease .reads) tasks) = some (lease, r.now) := by
          simp [consulted?, taken, ht, hu]
        exact List.ne_nil_of_mem (mem_consultedIn_cons.mpr (Or.inl hfound))
      | spawns => exact consultedIn_cons_ne_nil (hI.found i _ ht rfl)
      | _ => cases hconsulted
    · cases hbegins.serving hserving <;> cases hconsulted

theorem Consulted.usesLive (hI : Consulted w h) (hsteps : Steps cfg w a effect tasks)
    (hpruned : FindsPruned (taken w a effect tasks)) : UsesLive (taken w a effect tasks) h := by
  intro i hi response hanswer hgrant
  obtain ⟨j, r, t, rfl, ht, hanswers⟩ := hsteps.answers hanswer
  obtain rfl := Option.some.inj hi
  have hconsulted : t.hasConsulted = true := by
    cases hanswers with
    | renews | launches | records => rfl
    | _ => cases hgrant
  exact ⟨consultedIn_cons_ne_nil (hI.found j t ht hconsulted), (hI.step hsteps hpruned).live j⟩

end Taken

/-- A step that is refused finds nothing: the handlers that look into the ledger can always go on. -/
theorem consulted?_refused {a : Happening PeerId} (hnone : w.step cfg a = none) (i : Nat) :
    consulted? i (refused w a) = none := by
  cases a with
  | runs j r =>
    by_cases hij : j = i
    · subst hij
      cases ht : w.tasks[j]? with
      | none => simp [consulted?, refused, ht]
      | some t =>
        cases t with
        | renewing peer id => exact absurd hnone (step_ne_none ht (isSome_run_renewal (Or.inr rfl)))
        | _ => simp [consulted?, refused, ht]
    · simp [consulted?, refused, hij]
  | _ => rfl

theorem Consulted.cons_refused {a : Happening PeerId} (hI : Consulted w h) (hnone : w.step cfg a = none) :
    Consulted w (refused w a :: h) := by
  have hsame : ∀ i, consultedIn i (refused w a :: h) = consultedIn i h := by
    intro i
    unfold consultedIn
    rw [List.filterMap_cons_none (consulted?_refused hnone i)]
  refine ⟨fun i => ?_, fun i t ht hconsulted => ?_⟩
  · rw [hsame i]
    exact hI.live i
  · rw [hsame i]
    exact hI.found i t ht hconsulted

/-- **Expired leases confer nothing** if, whenever a handler looks into the ledger, no expired lease that it may find
and go on with is left there. -/
theorem uses_live (cfg : Config) (happenings : List (Happening PeerId))
    (hpruned : Along (fun e _ => FindsPruned e) (run cfg happenings).history) :
    Along UsesLive (run cfg happenings).history := by
  have hinitial : Consulted (Arbiter.initial cfg : Arbiter PeerId) [] := by
    refine ⟨fun i x hx => ?_, fun i t ht => ?_⟩
    · cases hx
    · cases ht
  refine (run_rule Consulted (fun e _ => FindsPruned e) UsesLive hinitial ?_ ?_ happenings hpruned).2
  · intro w h a hI hnone
    refine ⟨hI.cons_refused hnone, fun i _ response hanswer => ?_⟩
    rw [answer?_refused] at hanswer
    cases hanswer
  · exact fun w h a effect tasks hI hsteps hpruned => ⟨hI.step hsteps hpruned, hI.usesLive hsteps hpruned⟩

theorem uses_live_dispatched : Along (fun e _ => FindsPruned e) (run fourCores dispatched).history ∧
    Along UsesLive (run fourCores dispatched).history := by
  have hpruned : Along (fun e _ => FindsPruned e) (run fourCores dispatched).history := by decide +kernel
  exact ⟨hpruned, uses_live _ _ hpruned⟩

/-- Nothing is pruned for ten seconds; then the job is dispatched, and the lease renewed. -/
def usedTooLate : List (Happening Nat) :=
  List.flatten [served 0 7 { cpu := 1 } 1 2 0,
    [.dispatches 7 5 ⟨5, .train "train"⟩, .runs 2 { now := offerTimeout }, .runs 2 { now := offerTimeout },
      .renews 7 2, .runs 3 { now := offerTimeout }, .runs 3 { now := offerTimeout }]]

theorem expired_used : Along Steady (run fourCores usedTooLate).history ∧
    ((run fourCores usedTooLate).history.map answer?).take 4 =
      [some (.renewLease (.renewed 2 (offerTimeout + leaseTimeout))), none, none,
        some (.dispatchJob (.dispatched 5 offerTimeout))] ∧
    ¬ Along UsesLive (run fourCores usedTooLate).history := by
  decide +kernel

end Hypha.Worker
