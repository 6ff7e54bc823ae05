import Hypha.Worker.Holding

/-!
# Offers

What the arbiter offers: a request whose executors, bid and resources pass is answered with a lease, of all resources of
the worker or of those requested. The resources pass unless they are greater; a vector that is greater in one component
and less in another passes too.

* `offersBuilt`, `served?` : the offers that a step builds, and the request that it answers;
* `Covers` : what an offer has to be for its request;
* `Serves` : the invariant: whatever is served was received and has passed, and leases are requested for who asks;
* `offers_cover_iff` : offers cover their requests exactly if no request is answered that exceeds the worker anywhere.
-/

namespace Hypha.Worker

open Hypha.Lib

set_option linter.unusedSectionVars false

variable {PeerId : Type} [DecidableEq PeerId] {cfg : Config} {w : Arbiter PeerId} {h : List (ArbiterStep PeerId)}

/-! ## The specification -/

def Task.offer? : Task PeerId → Option (PeerId × WorkerOffer)
  | .offering peer offer => some (peer, offer)
  | _ => none

/-- The offers that a step builds: those of the tasks that it spawns. -/
def offersBuilt (e : ArbiterStep PeerId) : List (PeerId × WorkerOffer) :=
  (e.post.tasks.drop e.pre.tasks.length).filterMap Task.offer?

def Task.request? : Task PeerId → Option (PeerId × WorkerRequest)
  | .batch peer request _ _ => some (peer, request)
  | _ => none

/-- The request that is served in a step. -/
def served? (e : ArbiterStep PeerId) : Option (PeerId × WorkerRequest) :=
  match e.input with
  | .runs i _ => e.pre.tasks[i]?.bind Task.request?
  | _ => none

/-- A request has been received from a peer. -/
def Received (h : List (ArbiterStep PeerId)) (request : PeerId × WorkerRequest) : Prop :=
  ∃ e ∈ h, ∃ batch, e.input = .requests batch ∧ request ∈ batch

/-- What an offer has to be for a request of a peer, and the lease manager when it is built. -/
structure Covers (cfg : Config) (m : ResourceLeaseManager PeerId) (peer : PeerId) (request : WorkerRequest)
    (offer : WorkerOffer) : Prop where
  requestId : offer.requestId = request.id
  executors : ∀ required ∈ request.executor, ∃ config ∈ cfg.executors, config.descriptor = required
  bid : cfg.offer.floor ≤ request.bid
  requested : ∀ c, request.resources.get c ≤ offer.resources.get c
  capacity : ∀ c, offer.resources.get c ≤ cfg.resources.get c
  price : cfg.offer.floor ≤ offer.price
  lease : ∃ lease, m.ledger.lookup offer.id = some lease ∧ lease.id = offer.id ∧ lease.timeout = offer.timeout ∧
    lease.leasable.peerId = peer

/-- The offers of a step cover the request that it serves, which was received from the peer. -/
def OffersCover (cfg : Config) (e : ArbiterStep PeerId) (h : List (ArbiterStep PeerId)) : Prop :=
  ∀ peer offer, (peer, offer) ∈ offersBuilt e →
    ∃ request, served? e = some (peer, request) ∧ Received h (peer, request) ∧
      Covers cfg e.post.manager peer request offer

/-- A request that is answered is within the worker in every component. -/
def answeredFits (cfg : Config) (e : ArbiterStep PeerId) : Bool :=
  (offersBuilt e).isEmpty || (served? e).all fun request => cfg.resources.ge request.2.resources

/-! ## What is served -/

def Requesting.peer : Requesting PeerId → PeerId
  | .reserve peer _ _ => peer
  | .reserveWrite peer _ _ => peer
  | .insert peer _ _ => peer

/-- What is served was received and has passed, and a lease is requested for the peer that asks. -/
def Task.Serves (cfg : Config) (h : List (ArbiterStep PeerId)) : Task PeerId → Prop
  | .batch peer request rest point =>
    point.peer = peer ∧ ∀ r ∈ (peer, request) :: rest, cfg.accepts r.2 = true ∧ Received h r
  | _ => True

theorem Received.cons {request : PeerId × WorkerRequest} (hreceived : Received h request) (e : ArbiterStep PeerId) :
    Received (e :: h) request := by
  obtain ⟨e', he', hbatch⟩ := hreceived
  exact ⟨e', List.mem_cons_of_mem _ he', hbatch⟩

theorem serves_nextRequest {rest : List (PeerId × WorkerRequest)}
    (hrest : ∀ r ∈ rest, cfg.accepts r.2 = true ∧ Received h r) : (nextRequest cfg rest).Serves cfg h := by
  cases rest with
  | nil => exact trivial
  | cons r rest => exact ⟨rfl, hrest⟩

theorem serves_of_prunes {t : Task PeerId} (hprunes : Prunes t) : t.Serves cfg h := by
  rcases hprunes with rfl | ⟨point, rfl⟩ <;> exact trivial

theorem Runs.serves {s : Shared PeerId} {r : Moment} {t t' : Task PeerId} {effect : Effect PeerId}
    {spawned : List (Task PeerId)} (hruns : Runs cfg s r t effect t' spawned) (ht : t.Serves cfg h) :
    t'.Serves cfg h := by
  by_cases hprunes : ∃ point, t = .pruning point
  · obtain ⟨point, rfl⟩ := hprunes
    exact serves_of_prunes hruns.prunes.1
  · cases hruns with
    | compares peer request rest owner resources duration hfits => exact ht
    | declines peer request rest point hheld => exact serves_nextRequest (List.forall_mem_cons.mp ht.2).2
    | reserves peer request rest owner resources duration hfits => exact ht
    | grants peer request rest lease duration hid htimeout =>
      exact serves_nextRequest (List.forall_mem_cons.mp ht.2).2
    | _ => first | exact trivial | exact absurd ⟨_, rfl⟩ hprunes

theorem Task.Serves.cons {t : Task PeerId} (ht : t.Serves cfg h) (e : ArbiterStep PeerId) : t.Serves cfg (e :: h) := by
  cases t with
  | batch peer request rest point => exact ⟨ht.1, fun r hr => ⟨(ht.2 r hr).1, (ht.2 r hr).2.cons e⟩⟩
  | _ => exact trivial

/-- **What a step serves** was received before it or in it. -/
theorem serves_step {a : Happening PeerId} {effect : Effect PeerId} {tasks : List (Task PeerId)}
    (hI : ∀ t ∈ w.tasks, t.Serves cfg h) (hsteps : Steps cfg w a effect tasks) :
    ∀ t ∈ tasks, t.Serves cfg (taken w a effect tasks :: h) := by
  intro u hu
  rcases hsteps.mem_cases hu with hold | ⟨i, r, t, spawned, -, ht, hruns⟩ | hbegins
  · exact (hI u hold).cons _
  · exact (hruns.serves (hI t (List.mem_of_getElem? ht))).cons _
  · cases hbegins with
    | batch batch =>
      refine serves_nextRequest fun request hrequest => ?_
      obtain ⟨hmem, haccepts⟩ := List.mem_filter.mp ((List.mem_insertionSort _).mp hrequest)
      exact ⟨haccepts, _, List.mem_cons_self, batch, rfl, hmem⟩
    | _ => exact trivial

/-! ## What is offered -/

theorem offer?_nextRequest (rest : List (PeerId × WorkerRequest)) : (nextRequest cfg rest).offer? = none := by
  cases rest <;> rfl

/-- How an offer is built. -/
theorem offersBuilt_cases {a : Happening PeerId} {effect : Effect PeerId} {tasks : List (Task PeerId)} {peer : PeerId}
    {offer : WorkerOffer} (hsteps : Steps cfg w a effect tasks)
    (hoffer : (peer, offer) ∈ offersBuilt (taken w a effect tasks)) :
    ∃ i r request rest lease duration, a = .runs i r ∧ effect = .lease (.grants lease) ∧
      w.tasks[i]? =
        some (.batch peer request rest (.insert lease.leasable.peerId lease.leasable.reservation duration)) ∧
      offer = cfg.offerOf request lease := by
  obtain ⟨u, hspawned, hoffering⟩ := List.mem_filterMap.mp hoffer
  have hu : u ∈ tasks.drop w.tasks.length := hspawned
  clear hspawned
  have hnew : ∀ t : Task PeerId, u ∈ (w.tasks ++ [t]).drop w.tasks.length → u = t := by
    intro t hmem
    rw [List.drop_left] at hmem
    exact List.mem_singleton.mp hmem
  cases hsteps with
  | requests batch =>
    rw [hnew _ hu, offer?_nextRequest] at hoffering
    cases hoffering
  | renews peer id =>
    rw [hnew _ hu] at hoffering
    cases hoffering
  | dispatches peer id spec =>
    rw [hnew _ hu] at hoffering
    cases hoffering
  | ticks hidle =>
    rw [hnew _ hu] at hoffering
    cases hoffering
  | runs i r t t' effect spawned ht hruns =>
    have hlen : (w.tasks.set i t').length = w.tasks.length := List.length_set
    rw [← hlen, List.drop_left] at hu
    cases hruns with
    | grants peer request rest lease duration hid htimeout =>
      rw [List.mem_singleton.mp hu] at hoffering
      cases hoffering
      exact ⟨i, r, request, rest, lease, duration, rfl, rfl, ht, rfl⟩
    | _ => exact absurd hu List.not_mem_nil
  | stops e status x hx hphase hstatus =>
    rw [List.drop_length] at hu
    exact absurd hu List.not_mem_nil
  | writes e status x hx hphase =>
    rw [List.drop_length] at hu
    exact absurd hu List.not_mem_nil

theorem accepts_iff (request : WorkerRequest) :
    cfg.accepts request = true ↔
      (∀ required ∈ request.executor, ∃ config ∈ cfg.executors, config.descriptor = required) ∧
        cfg.offer.floor ≤ request.bid ∧ request.resources.gt cfg.resources = false := by
  unfold Config.accepts
  simp [and_assoc]

/-- No offer is below the floor if the bid is not. -/
theorem floor_le_offerPrice {request : WorkerRequest} (hbid : cfg.offer.floor ≤ request.bid) :
    cfg.offer.floor ≤ cfg.offerPrice request := by
  unfold Config.offerPrice
  cases cfg.offer.strategy with
  | flexible => exact hbid
  | whole => exact hbid.trans (le_max_right _ _)

/-- What is leased is between what is requested and what there is, exactly if what is requested is within it. -/
theorem leaseResources_between (request : WorkerRequest) :
    ((∀ c, request.resources.get c ≤ (cfg.leaseResources request).get c) ∧
        ∀ c, (cfg.leaseResources request).get c ≤ cfg.resources.get c) ↔
      cfg.resources.ge request.resources = true := by
  rw [Resources.ge_iff]
  unfold Config.leaseResources
  cases cfg.offer.strategy with
  | flexible => exact and_iff_right fun _ => le_rfl
  | whole => exact and_iff_left fun _ => le_rfl

/-- The request that is served when an offer is built, and what the offer is. -/
theorem offersBuilt_covers {a : Happening PeerId} {effect : Effect PeerId} {tasks : List (Task PeerId)} {peer : PeerId}
    {offer : WorkerOffer} (hI : ∀ t ∈ w.tasks, t.Serves cfg h) (hsteps : Steps cfg w a effect tasks)
    (hoffer : (peer, offer) ∈ offersBuilt (taken w a effect tasks)) :
    ∃ request, served? (taken w a effect tasks) = some (peer, request) ∧ Received h (peer, request) ∧
      (Covers cfg (taken w a effect tasks).post.manager peer request offer ↔
        cfg.resources.ge request.resources = true) := by
  obtain ⟨i, r, request, rest, lease, duration, rfl, rfl, ht, rfl⟩ := offersBuilt_cases hsteps hoffer
  obtain ⟨hpeer, hall⟩ := hI _ (List.mem_of_getElem? ht)
  obtain ⟨haccepts, hreceived⟩ := hall _ List.mem_cons_self
  obtain ⟨hexecutors, hbid, -⟩ := (accepts_iff request).mp haccepts
  have hserved : served? (taken w (.runs i r) (.lease (.grants lease)) tasks) = some (peer, request) := by
    show w.tasks[i]?.bind Task.request? = some (peer, request)
    rw [ht]
    rfl
  refine ⟨request, hserved, hreceived, ?_⟩
  rw [← leaseResources_between]
  constructor
  · exact fun hcovers => ⟨hcovers.requested, hcovers.capacity⟩
  · rintro ⟨hrequested, hcapacity⟩
    -- the lease was inserted under its id, for the peer that the batch is about
    exact ⟨rfl, hexecutors, hbid, hrequested, hcapacity, floor_le_offerPrice hbid, lease,
      AList.lookup_insert w.manager.ledger, rfl, rfl, hpeer⟩

/-- **A step** : its offers cover the request exactly if the request fits. -/
theorem offersCover_step {a : Happening PeerId} {effect : Effect PeerId} {tasks : List (Task PeerId)}
    (hI : ∀ t ∈ w.tasks, t.Serves cfg h) (hsteps : Steps cfg w a effect tasks) :
    OffersCover cfg (taken w a effect tasks) h ↔ answeredFits cfg (taken w a effect tasks) = true := by
  unfold answeredFits
  rw [Bool.or_eq_true]
  constructor
  · intro hcover
    rcases hbuilt : offersBuilt (taken w a effect tasks) with _ | ⟨⟨peer, offer⟩, more⟩
    · exact .inl rfl
    · have hmem : (peer, offer) ∈ offersBuilt (taken w a effect tasks) := hbuilt ▸ List.mem_cons_self
      obtain ⟨request, hserved, -, hiff⟩ := offersBuilt_covers hI hsteps hmem
      obtain ⟨request', hserved', -, hcovers⟩ := hcover peer offer hmem
      rw [hserved] at hserved' ⊢
      obtain ⟨-, rfl⟩ := Prod.mk.inj (Option.some.inj hserved')
      exact .inr (hiff.mp hcovers)
  · intro hfits peer offer hmem
    obtain ⟨request, hserved, hreceived, hiff⟩ := offersBuilt_covers hI hsteps hmem
    refine ⟨request, hserved, hreceived, hiff.mpr ?_⟩
    rw [hserved, List.isEmpty_iff] at hfits
    exact hfits.resolve_left (List.ne_nil_of_mem hmem)

theorem offersBuilt_refused (w : Arbiter PeerId) (a : Happening PeerId) : offersBuilt (refused w a) = [] := by
  show (w.tasks.drop w.tasks.length).filterMap Task.offer? = []
  rw [List.drop_length]
  rfl

theorem along_offersCover (cfg : Config) (happenings : List (Happening PeerId)) :
    Along (fun e h => OffersCover cfg e h ↔ answeredFits cfg e = true) (run cfg happenings).history := by
  refine (run_rule (fun w h => ∀ t ∈ w.tasks, t.Serves cfg h) (fun _ _ => True) _ ?_ ?_ ?_ happenings
    (along_true _)).2
  · exact fun t ht => absurd ht List.not_mem_nil
  · intro w h a hI _
    have hnone := offersBuilt_refused w a
    refine ⟨fun t ht => (hI t ht).cons _, iff_of_true ?_ ?_⟩
    · intro peer offer hmem
      exact absurd (hnone ▸ hmem) List.not_mem_nil
    · unfold answeredFits
      rw [hnone]
      rfl
  · exact fun w h a effect tasks hI hsteps _ => ⟨serves_step hI hsteps, offersCover_step hI hsteps⟩

end Hypha.Worker
