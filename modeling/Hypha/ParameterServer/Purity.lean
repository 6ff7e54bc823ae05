import Hypha.ParameterServer.Cluster

/-!
# What an aggregate is made of

The parameter server keeps the files it has received by peer, and an aggregation takes the newest file of each peer.
Nothing says to which round a file belongs: a file that comes late, or a second copy of one, is there for the next
aggregation.

* `issuedIn` : the round in which the answer of an exchange was issued;
* `Cluster.serves` : the exchange whose `AggregateUpdates` the parameter server has to carry out;
* `Timely` : files come in the round they were ordered in, and a round advances when all of it is done;
* `OneRound` : the invariant;
* `aggregate_of_one_round` : then an aggregation takes files of its own round, at most one from every worker;
* `straggler_aggregated` : a file that comes late is taken in the next round.
-/

namespace Hypha.ParameterServer

open Hypha.Lib Hypha.Action Hypha.Scheduler

set_option linter.unusedSectionVars false

variable {PeerId T : Type} [LinearOrder PeerId] [RuntimeStatistic T]

/-! ## Answers and their rounds -/

/-- Whether the handler of an exchange ends in a step. -/
def ends (i : Nat) (e : ClusterStep PeerId T) : Bool :=
  match e.input with
  | .runs j _ _ => e.output && decide (j = i) && (e.post.exchanges[i]?).any fun x => x.handler.ended
  | _ => false

/-- The round in which the answer of an exchange was issued. -/
def issuedIn (i : Nat) : List (ClusterStep PeerId T) → Option Nat
  | [] => none
  | e :: h => if ends i e then some e.post.scheduler.roundState.round else issuedIn i h

def isAggregateUpdates : ExecutorAction PeerId → Bool
  | .aggregate (.aggregateUpdates _) => true
  | _ => false

/-- Whether an exchange was answered `AggregateUpdates`. -/
def Cluster.aggregates (cfg : Settings) (c : Cluster PeerId T) (i : Nat) : Bool :=
  (c.exchanges[i]?.bind (Exchange.answer? cfg)).any isAggregateUpdates

/-- The exchange whose `AggregateUpdates` the parameter server carries out or is about to hear. -/
def Cluster.serves (cfg : Settings) (c : Cluster PeerId T) : Option Nat :=
  match c.executor.phase with
  | .aggregating i _ _ => some i
  | .awaiting _ i => if c.aggregates cfg i then some i else none
  | _ => none

/-- Whether a file comes in another round than it was ordered in. -/
def comesLate (e : ClusterStep PeerId T) (h : List (ClusterStep PeerId T)) : Bool :=
  match e.input with
  | .arrives n =>
    (e.pre.transits[n]?).any fun u => !decide (issuedIn u.2 h = some e.pre.scheduler.roundState.round)
  | _ => false

/-- No file comes late, and when the round advances no file is left and no `AggregateUpdates` is outstanding. -/
def Timely (cfg : Settings) (e : ClusterStep PeerId T) (h : List (ClusterStep PeerId T)) : Prop :=
  comesLate e h = false ∧
    (advances e = true → e.pre.executor.store.isEmpty = true ∧ (e.pre.serves cfg).isNone = true)

instance instDecidableTimely (cfg : Settings) (e : ClusterStep PeerId T) (h : List (ClusterStep PeerId T)) :
    Decidable (Timely cfg e h) := inferInstanceAs (Decidable (_ ∧ (_ → _)))

/-- The file is an update that its worker was told in round `r` to send to the parameter server. -/
structure OrderedIn (ps : PeerId) (r : Nat) (c : Cluster PeerId T) (h : List (ClusterStep PeerId T))
    (u : PeerId × Nat) : Prop where
  order : c.exchanges[u.2]?.bind (Exchange.order ps) = some u.1
  issued : issuedIn u.2 h = some r

/-- What an aggregation has taken: updates ordered in the round in which `AggregateUpdates` was issued, at most one from
every worker. -/
def TakesOneRound (cfg : Settings) (ps : PeerId) (c : Cluster PeerId T) (h : List (ClusterStep PeerId T)) : Prop :=
  ∀ i allowed used, c.executor.phase = .aggregating i allowed used →
    ∃ r, c.aggregates cfg i = true ∧ issuedIn i h = some r ∧ (∀ u ∈ used, OrderedIn ps r c h u) ∧
      (used.map Prod.fst).Nodup

/-! ## What the executor takes -/

/-- Where the loop neither waits for an answer nor aggregates. -/
def Phase.rests {F : Type} : Phase PeerId F → Bool
  | .awaiting _ _ | .aggregating _ _ _ => false
  | _ => true

section Executor
variable {e e' : Executor PeerId Nat}

theorem pick_cases {p : PeerId} (h : e.pick p = some e') :
    ∃ i allowed used u, e.phase = .aggregating i allowed used ∧ u ∈ e.store ∧ u.1 ∉ used.map Prod.fst ∧
      e'.phase = .aggregating i allowed (u :: used) ∧ e'.store ⊆ e.store := by
  unfold Executor.pick at h
  split at h
  · next i allowed used hphase =>
    split_ifs at h with hguard
    obtain ⟨u, hu, rfl⟩ := Option.map_eq_some_iff.mp h
    have hup : u.1 = p := by simpa using List.find?_some hu
    have hfresh : u.1 ∉ used.map Prod.fst := by
      intro hmem
      obtain ⟨v, hv, hvu⟩ := List.mem_map.mp hmem
      refine hguard (Bool.or_eq_true_iff.mpr (Or.inr ?_))
      have hany : used.any (fun u => decide (u.1 = p)) = true := List.any_eq_true.mpr ⟨v, hv, by simp [hvu, hup]⟩
      simp [eligible, hany]
    exact ⟨i, allowed, used, u, hphase, List.mem_of_find?_eq_some hu, hfresh, rfl, List.eraseP_subset⟩
  · cases h

/-- The other acts that the executor does on its own take nothing, and lead to where it rests. -/
theorem own_rests {act : Act PeerId Nat} (hown : act.isOwn = true) (hpicks : ∀ p, act ≠ .picks p)
    (h : e.step act = some e') : e'.store = e.store ∧ e'.phase.rests = true := by
  cases act with
  | asks exchange => cases hown
  | hears action => cases hown
  | receives p file => cases hown
  | picks p => exact absurd rfl (hpicks p)
  | cancels =>
    cases h
    exact ⟨rfl, rfl⟩
  | fails message =>
    simp only [Executor.step] at h
    split at h <;> cases h
    unfold Executor.attemptFails
    split_ifs <;> exact ⟨rfl, rfl⟩
  | wakes =>
    simp only [Executor.step] at h
    split at h <;> cases h
    exact ⟨rfl, rfl⟩
  | aggregates result =>
    simp only [Executor.step, Executor.aggregated] at h
    split at h
    · cases result <;> dsimp only at h <;> split_ifs at h <;> cases h <;> exact ⟨rfl, rfl⟩
    · cases h
  | broadcasts error =>
    simp only [Executor.step, Executor.broadcasted] at h
    split at h
    · split at h <;> cases h <;> exact ⟨rfl, rfl⟩
    · cases h

/-- An answer is `AggregateUpdates`, or the loop comes to rest. -/
theorem respondTo_rests (e : Executor PeerId Nat) (i : Nat) (action : ExecutorAction PeerId) :
    (e.respondTo i action).store = e.store ∧
      ((isAggregateUpdates action = true ∧ ∃ allowed, (e.respondTo i action).phase = .aggregating i allowed []) ∨
        (e.respondTo i action).phase.rests = true) := by
  unfold Executor.respondTo
  split
  · exact ⟨rfl, Or.inr rfl⟩
  · exact ⟨rfl, Or.inr rfl⟩
  · split
    · exact ⟨rfl, Or.inr rfl⟩
    · next allowed hallowed => exact ⟨rfl, Or.inl ⟨rfl, allowed, rfl⟩⟩
  · split
    · exact ⟨rfl, Or.inr rfl⟩
    · split <;> exact ⟨rfl, Or.inr rfl⟩
  · exact ⟨rfl, Or.inr rfl⟩

end Executor

/-! ## Answers stay -/

theorem ended_of_answer {cfg : Settings} {x : Exchange PeerId} {action : ExecutorAction PeerId}
    (h : x.answer? cfg = some action) : x.handler.ended = true := by
  unfold Exchange.answer? at h
  split at h
  · cases h
  · next ctx k hk =>
    split_ifs at h with hdone
    rw [hk]
    exact hdone

theorem ended_of_order {ps w : PeerId} {x : Exchange PeerId} (h : x.order ps = some w) : x.handler.ended = true := by
  obtain ⟨request, k⟩ := x
  unfold Exchange.order at h
  split at h
  · next peer peers strategy timeout weight hanswer =>
    cases k with
    | pending request => cases hanswer
    | suspended ctx k =>
      rw [Handler.answer?_suspended] at hanswer
      cases k with
      | done result => rfl
      | _ => cases hanswer.2
  · cases h

section Stay
variable {cfg : Settings} {ps : PeerId} {c c' : Cluster PeerId T} {a : Happening PeerId}

/-- An exchange that has ended stays as it is, and its answer is not issued again. -/
theorem ended_step (hstep : c.step cfg ps a = some c') {i : Nat} {x : Exchange PeerId} (hx : c.exchanges[i]? = some x)
    (hended : x.handler.ended = true) : c'.exchanges[i]? = some x ∧ ends i ⟨c, a, true, c'⟩ = false := by
  have hruns : ∀ t now, a ≠ .runs i t now := by
    rintro t now rfl
    cases steps_of_step hstep with
    | runs _ _ _ y hy hrun =>
      obtain rfl : x = y := Option.some.inj (hx.symm.trans hy)
      cases hended.symm.trans (not_ended_of_mayRun hrun)
  refine ⟨step_exchanges hstep hx hruns, ?_⟩
  cases a with
  | runs j t now =>
    have hij : j ≠ i := by
      rintro rfl
      exact hruns t now rfl
    simp [ends, hij]
  | _ => rfl

theorem aggregates_iff {i : Nat} : c.aggregates cfg i = true ↔
    ∃ x action, c.exchanges[i]? = some x ∧ x.answer? cfg = some action ∧ isAggregateUpdates action = true := by
  unfold Cluster.aggregates
  rw [Option.any_eq_true]
  constructor
  · rintro ⟨action, haction, hupdates⟩
    obtain ⟨x, hx, hanswer⟩ := Option.bind_eq_some_iff.mp haction
    exact ⟨x, action, hx, hanswer, hupdates⟩
  · rintro ⟨x, action, hx, hanswer, hupdates⟩
    exact ⟨action, Option.bind_eq_some_iff.mpr ⟨x, hx, hanswer⟩, hupdates⟩

theorem aggregates_step (hstep : c.step cfg ps a = some c') {i : Nat} (hi : c.aggregates cfg i = true) :
    c'.aggregates cfg i = true ∧ ends i ⟨c, a, true, c'⟩ = false := by
  obtain ⟨x, action, hx, hanswer, hupdates⟩ := aggregates_iff.mp hi
  obtain ⟨hx', hends⟩ := ended_step hstep hx (ended_of_answer hanswer)
  exact ⟨aggregates_iff.mpr ⟨x, action, hx', hanswer, hupdates⟩, hends⟩

/-- An exchange is answered once. -/
theorem aggregates_of_step (hstep : c.step cfg ps a = some c') {i : Nat} (hi : c'.aggregates cfg i = true) :
    c.aggregates cfg i = true ∨ ends i ⟨c, a, true, c'⟩ = true := by
  obtain ⟨x, action, hx, hanswer, hupdates⟩ := aggregates_iff.mp hi
  rcases exchange_cases hstep hx with hx' | ⟨request, rfl⟩ | ⟨t, now, rfl⟩
  · exact Or.inl (aggregates_iff.mpr ⟨x, action, hx', hanswer, hupdates⟩)
  · cases hanswer
  · right
    simp [ends, hx, ended_of_answer hanswer]

/-- The stretch that advances the round is not the last one. -/
theorem not_ends_of_advances (hstep : c.step cfg ps a = some c') (ha : advances ⟨c, a, true, c'⟩ = true) (i : Nat) :
    ends i ⟨c, a, true, c'⟩ = false := by
  cases steps_of_step hstep with
  | runs j t now x hx hrun =>
    simp only [advances, hx, Option.any_some, Bool.true_and] at ha
    have hends : (x.handler.run cfg c.scheduler t now).2.ended = false := by
      unfold isAdvancing at ha
      split at ha
      · next ctx hk =>
        rw [hk]
        rfl
      · cases ha
    by_cases hij : j = i
    · subst hij
      simp [ends, List.getElem?_set_self (List.getElem?_eq_some_iff.mp hx).1, hends]
    · simp [ends, hij]
  | _ => rfl

theorem order_step (hstep : c.step cfg ps a = some c') {i : Nat} {w : PeerId}
    (hi : c.exchanges[i]?.bind (Exchange.order ps) = some w) :
    c'.exchanges[i]?.bind (Exchange.order ps) = some w ∧ ends i ⟨c, a, true, c'⟩ = false := by
  obtain ⟨x, hx, horder⟩ := Option.bind_eq_some_iff.mp hi
  obtain ⟨hx', hends⟩ := ended_step hstep hx (ended_of_order horder)
  exact ⟨Option.bind_eq_some_iff.mpr ⟨x, hx', horder⟩, hends⟩

theorem issuedIn_cons {i : Nat} {e : ClusterStep PeerId T} (he : ends i e = false) (h : List (ClusterStep PeerId T)) :
    issuedIn i (e :: h) = issuedIn i h := by
  rw [issuedIn, he]
  rfl

theorem OrderedIn.step {r : Nat} {h : List (ClusterStep PeerId T)} {u : PeerId × Nat} (hu : OrderedIn ps r c h u)
    (hstep : c.step cfg ps a = some c') : OrderedIn ps r c' (⟨c, a, true, c'⟩ :: h) u := by
  obtain ⟨horder, hends⟩ := order_step hstep hu.order
  exact ⟨horder, (issuedIn_cons hends h).trans hu.issued⟩

end Stay

/-! ## The invariant -/

/-- **The invariant.** What is stored, what is taken and what is to be carried out belong to the current round. -/
structure OneRound (cfg : Settings) (ps : PeerId) (c : Cluster PeerId T) (h : List (ClusterStep PeerId T)) : Prop where
  transits : ∀ u ∈ c.transits, c.exchanges[u.2]?.bind (Exchange.order ps) = some u.1
  stored : ∀ u ∈ c.executor.store, OrderedIn ps c.scheduler.roundState.round c h u
  serves : ∀ i, c.serves cfg = some i →
    c.aggregates cfg i = true ∧ issuedIn i h = some c.scheduler.roundState.round
  taken : ∀ i allowed used, c.executor.phase = .aggregating i allowed used →
    (∀ u ∈ used, OrderedIn ps c.scheduler.roundState.round c h u) ∧ (used.map Prod.fst).Nodup

theorem OneRound.takes {cfg : Settings} {ps : PeerId} {c : Cluster PeerId T} {h : List (ClusterStep PeerId T)}
    (hI : OneRound cfg ps c h) : TakesOneRound cfg ps c h := by
  intro i allowed used hphase
  obtain ⟨haggregates, hissued⟩ := hI.serves i (by rw [Cluster.serves, hphase])
  exact ⟨c.scheduler.roundState.round, haggregates, hissued, hI.taken i allowed used hphase⟩

section Steps
variable {cfg : Settings} {ps : PeerId} {c c' : Cluster PeerId T} {a : Happening PeerId}
  {h : List (ClusterStep PeerId T)}

theorem serves_rests (hphase : c.executor.phase.rests = true) : c.serves cfg = none := by
  unfold Cluster.serves
  split
  · next hp =>
    rw [hp] at hphase
    cases hphase
  · next hp =>
    rw [hp] at hphase
    cases hphase
  · rfl

theorem not_aggregating_of_rests {i : Nat} {allowed : List PeerId} {used : Gradient PeerId Nat}
    (hrests : c.executor.phase.rests = true) : c.executor.phase ≠ .aggregating i allowed used := by
  intro hphase
  rw [hphase] at hrests
  cases hrests

/-- What is stored was so before, or it arrives. -/
theorem step_store (hstep : c.step cfg ps a = some c') {u : PeerId × Nat} (hu : u ∈ c'.executor.store) :
    u ∈ c.executor.store ∨ ∃ n, a = .arrives n ∧ c.transits[n]? = some u := by
  cases steps_of_step hstep with
  | asks attempts hask =>
    exact Or.inl hu
  | hears attempts i x action hwaits hx hanswer =>
    rw [(respondTo_rests c.executor i action).1] at hu
    exact Or.inl hu
  | acts act executor hown hexecutor =>
    by_cases hpicks : ∃ p, act = .picks p
    · obtain ⟨p, rfl⟩ := hpicks
      obtain ⟨-, -, -, -, -, -, -, -, hsubset⟩ := pick_cases hexecutor
      exact Or.inl (hsubset hu)
    · rw [(own_rests hown (fun p hp => hpicks ⟨p, hp⟩) hexecutor).1] at hu
      exact Or.inl hu
  | arrives n v hv =>
    rcases List.mem_cons.mp hu with rfl | hu
    · exact Or.inr ⟨n, rfl, hv⟩
    · exact Or.inl hu
  | _ => exact Or.inl hu

/-- What an aggregation has taken in a step: nothing yet, what it had, or one stored file of another worker more. -/
theorem step_taken (hstep : c.step cfg ps a = some c') {i : Nat} {allowed : List PeerId} {used : Gradient PeerId Nat}
    (hphase : c'.executor.phase = .aggregating i allowed used) :
    used = [] ∨ c.executor.phase = .aggregating i allowed used ∨
      ∃ u before, used = u :: before ∧ c.executor.phase = .aggregating i allowed before ∧ u ∈ c.executor.store ∧
        u.1 ∉ before.map Prod.fst := by
  cases steps_of_step hstep with
  | asks attempts hask =>
    cases hphase
  | hears attempts j x action hwaits hx hanswer =>
    rcases (respondTo_rests c.executor j action).2 with ⟨-, allowed', hphase'⟩ | hrests
    · cases hphase.symm.trans hphase'
      exact Or.inl rfl
    · exact absurd hphase (not_aggregating_of_rests hrests)
  | acts act executor hown hexecutor =>
    by_cases hpicks : ∃ p, act = .picks p
    · obtain ⟨p, rfl⟩ := hpicks
      obtain ⟨j, allowed', before, u, hbefore, hu, hfresh, hafter, -⟩ := pick_cases hexecutor
      cases hphase.symm.trans hafter
      exact Or.inr (Or.inr ⟨u, before, rfl, hbefore, hu, hfresh⟩)
    · exact absurd hphase (not_aggregating_of_rests (own_rests hown (fun p hp => hpicks ⟨p, hp⟩) hexecutor).2)
  | _ =>
    rw [(step_loop hstep (by simp) (by simp) (by simp)).1] at hphase
    exact Or.inr (Or.inl hphase)

/-- An `AggregateUpdates` that is to be carried out was so before, or it is issued. -/
theorem step_serves (hstep : c.step cfg ps a = some c') {i : Nat} (hi : c'.serves cfg = some i) :
    c.serves cfg = some i ∨ c'.aggregates cfg i = true ∧ ends i ⟨c, a, true, c'⟩ = true := by
  cases steps_of_step hstep with
  | asks attempts hphase =>
    have hpending : Cluster.aggregates cfg { c with
        executor := { c.executor with phase := .awaiting attempts c.exchanges.length }
        exchanges := c.exchanges ++ [.sent (ps, ⟨cfg.id, .aggregate c.executor.currentStatus⟩)] }
        c.exchanges.length = false := by
      simp [Cluster.aggregates, Exchange.sent, Exchange.answer?]
    simp only [Cluster.serves, hpending] at hi
    cases hi
  | hears attempts j x action hphase hx hanswer =>
    rcases (respondTo_rests c.executor j action).2 with ⟨hupdates, allowed, hphase'⟩ | hrests
    · simp only [Cluster.serves, hphase', Option.some.injEq] at hi
      subst hi
      have haggregates : c.aggregates cfg j = true := aggregates_iff.mpr ⟨x, action, hx, hanswer, hupdates⟩
      left
      rw [Cluster.serves, hphase]
      exact if_pos haggregates
    · rw [serves_rests hrests] at hi
      cases hi
  | acts act executor hown hexecutor =>
    by_cases hpicks : ∃ p, act = .picks p
    · obtain ⟨p, rfl⟩ := hpicks
      obtain ⟨j, allowed, before, u, hbefore, -, -, hafter, -⟩ := pick_cases hexecutor
      simp only [Cluster.serves, hafter] at hi
      left
      rw [Cluster.serves, hbefore]
      exact hi
    · rw [serves_rests (own_rests hown (fun p hp => hpicks ⟨p, hp⟩) hexecutor).2] at hi
      cases hi
  | _ =>
    -- the loop stays where it is; what it waits for becomes an `AggregateUpdates` when the handler of that ends
    have hphase := (step_loop hstep (by simp) (by simp) (by simp)).1
    unfold Cluster.serves at hi ⊢
    rw [hphase] at hi
    split at hi
    · exact Or.inl hi
    · split_ifs at hi with haggregates
      obtain rfl := Option.some.inj hi
      rcases aggregates_of_step hstep haggregates with hbefore | hends
      · exact Or.inl (if_pos hbefore)
      · exact Or.inr ⟨haggregates, hends⟩
    · cases hi

section Invariant
variable (hI : OneRound cfg ps c h) (hstep : c.step cfg ps a = some c')

include hI hstep

theorem OneRound.transits_step : ∀ u ∈ c'.transits, c'.exchanges[u.2]?.bind (Exchange.order ps) = some u.1 := by
  intro u hu
  rcases step_transits hstep hu with hu | horder
  · exact (order_step hstep (hI.transits u hu)).1
  · exact (order_step hstep horder).1

/-- The round advances. -/
theorem OneRound.advance (hadvances : advances ⟨c, a, true, c'⟩ = true) (hstore : c.executor.store = [])
    (hserves : c.serves cfg = none) : OneRound cfg ps c' (⟨c, a, true, c'⟩ :: h) := by
  have hnone : c'.serves cfg = none := by
    rw [Option.eq_none_iff_forall_ne_some]
    intro i hi
    rcases step_serves hstep hi with hi | ⟨-, hends⟩
    · cases hserves.symm.trans hi
    · cases hends.symm.trans (not_ends_of_advances hstep hadvances i)
  refine ⟨hI.transits_step hstep, fun u hu => ?_, fun i hi => ?_, fun i allowed used hphase => ?_⟩
  · rcases step_store hstep hu with hu | ⟨n, rfl, -⟩
    · rw [hstore] at hu
      cases hu
    · cases hadvances
  · cases hnone.symm.trans hi
  · rw [Cluster.serves, hphase] at hnone
    cases hnone

/-- It does not. -/
theorem OneRound.keep (hadvances : advances ⟨c, a, true, c'⟩ = false)
    (hlate : comesLate ⟨c, a, true, c'⟩ h = false) : OneRound cfg ps c' (⟨c, a, true, c'⟩ :: h) := by
  have hround := step_round hstep hadvances
  refine ⟨hI.transits_step hstep, ?_, ?_, ?_⟩
  · intro u hu
    rw [hround]
    rcases step_store hstep hu with hu | ⟨n, rfl, hn⟩
    · exact (hI.stored u hu).step hstep
    · refine OrderedIn.step ⟨hI.transits u (List.mem_of_getElem? hn), ?_⟩ hstep
      simpa [comesLate, hn] using hlate
  · intro i hi
    rcases step_serves hstep hi with hi | ⟨haggregates, hends⟩
    · obtain ⟨haggregates, hissued⟩ := hI.serves i hi
      obtain ⟨haggregates', hends⟩ := aggregates_step hstep haggregates
      exact ⟨haggregates', by rw [issuedIn_cons hends, hissued, hround]⟩
    · exact ⟨haggregates, by rw [issuedIn, hends]; rfl⟩
  · intro i allowed used hphase
    rw [hround]
    rcases step_taken hstep hphase with rfl | hbefore | ⟨u, before, rfl, hbefore, hu, hfresh⟩
    · exact ⟨fun u hu => (by cases hu), List.nodup_nil⟩
    · obtain ⟨hused, hnodup⟩ := hI.taken i allowed used hbefore
      exact ⟨fun u hu => (hused u hu).step hstep, hnodup⟩
    · obtain ⟨hused, hnodup⟩ := hI.taken i allowed before hbefore
      refine ⟨fun v hv => ?_, List.nodup_cons.mpr ⟨hfresh, hnodup⟩⟩
      rcases List.mem_cons.mp hv with rfl | hv
      · exact (hI.stored v hu).step hstep
      · exact (hused v hv).step hstep

end Invariant

end Steps

/-- What cannot happen changes nothing. -/
theorem OneRound.idle {cfg : Settings} {ps : PeerId} {c : Cluster PeerId T} {h : List (ClusterStep PeerId T)}
    (hI : OneRound cfg ps c h) (a : Happening PeerId) : OneRound cfg ps c (⟨c, a, false, c⟩ :: h) := by
  have hissued : ∀ i, issuedIn i (⟨c, a, false, c⟩ :: h) = issuedIn i h := by
    intro i
    refine issuedIn_cons ?_ h
    cases a <;> rfl
  have hordered : ∀ {r u}, OrderedIn ps r c h u → OrderedIn ps r c (⟨c, a, false, c⟩ :: h) u :=
    fun hu => ⟨hu.order, (hissued _).trans hu.issued⟩
  refine ⟨hI.transits, fun u hu => hordered (hI.stored u hu), fun i hi => ?_, fun i allowed used hphase => ?_⟩
  · rw [hissued]
    exact hI.serves i hi
  · obtain ⟨hused, hnodup⟩ := hI.taken i allowed used hphase
    exact ⟨fun u hu => hordered (hused u hu), hnodup⟩

/-- **Round purity.** In every run in which no file comes late and a round advances only when no file is left and no
`AggregateUpdates` is outstanding, an aggregation takes updates that were ordered in the round in which it was, and at
most one from every worker. -/
theorem aggregate_of_one_round (job : Job) (ps : PeerId) (workers servers : List (WorkerDescriptor PeerId))
    (happenings : List (Happening PeerId))
    (htimely : Along (Timely job.settings) (run T job ps workers servers happenings).history) :
    TakesOneRound job.settings ps (run T job ps workers servers happenings).state
      (run T job ps workers servers happenings).history := by
  refine ((cluster job.settings ps).along_of_invariant (fun w => OneRound job.settings ps w.state w.history)
    (Timely job.settings) (fun _ _ => True) ?_ ?_ happenings htimely).1.takes
  · refine ⟨fun u hu => (by cases hu), fun u hu => (by cases hu), fun i hi => (by cases hi), ?_⟩
    exact fun i allowed used hphase => (by cases hphase)
  · intro w a hI htimely
    refine ⟨?_, trivial⟩
    change OneRound job.settings ps ((cluster job.settings ps).event w.state a).post
      ((cluster job.settings ps).event w.state a :: w.history)
    rcases cluster_event job.settings ps w.state a with ⟨-, hevent⟩ | ⟨c', hstep, hevent⟩
    · rw [hevent]
      exact hI.idle a
    · rw [hevent] at htimely ⊢
      obtain ⟨hlate, hdone⟩ := htimely
      cases hadvances : advances ⟨w.state, a, true, c'⟩ with
      | true =>
        obtain ⟨hstore, hserves⟩ := hdone hadvances
        exact hI.advance hstep hadvances (List.isEmpty_iff.mp hstore) (Option.isNone_iff_eq_none.mp hserves)
      | false => exact hI.keep hstep hadvances hlate

/-- Both workers' updates arrive and are aggregated; in the next round worker 1 is the first. -/
def punctual : List (Happening Nat) :=
  List.flatten [
    [.reports 1 (.batchCompleted 1 1)], turns 3 0,
    [.begins 0, .arrives 0, .settles 0, .reports 1 (.sentUpdate 0 [])], turns 4 1,
    [.reports 2 (.batchCompleted 1 1)], turns 3 2,
    [.begins 2, .arrives 0, .settles 2, .reports 2 (.sentUpdate 0 [])], turns 4 3, [.asks], turns 3 4,
    [.hears, .acts (.picks 1), .acts (.picks 2), .acts (.aggregates .finished), .asks], turns 2 5,
    [.hears, .acts (.broadcasts none), .asks], turns 7 6, [.hears, .reports 1 (.batchCompleted 1 1)], turns 3 7,
    [.begins 7, .arrives 0, .settles 7, .reports 1 (.sentUpdate 1 [])], turns 4 8, [.acts .wakes, .asks], turns 3 9,
    [.hears, .acts (.picks 1)]]

theorem aggregate_of_one_round_punctual :
    (twoWorkers punctual).history.all (·.output) = true ∧
      (twoWorkers punctual).state.executor.phase = .aggregating 9 [1, 2] [(1, 7)] ∧
      Along (Timely (smallJob 1 1 2).settings) (twoWorkers punctual).history ∧
      TakesOneRound (smallJob 1 1 2).settings 9 (twoWorkers punctual).state (twoWorkers punctual).history :=
  ⟨by decide +kernel, by decide +kernel, by decide +kernel,
    aggregate_of_one_round (smallJob 1 1 2) 9 (joined [1, 2]) (joined [9]) punctual (by decide +kernel)⟩

/-- Worker 2 is slow: the round ends without its update, which arrives and is reported in the next round. -/
def straggling : List (Happening Nat) :=
  List.flatten [
    [.reports 1 (.batchCompleted 1 1)], turns 3 0,
    [.begins 0, .arrives 0, .settles 0, .reports 1 (.sentUpdate 0 [])], turns 4 1,
    [.reports 2 (.batchCompleted 1 1)], turns 3 2, [.begins 2, .asks], turns 3 3,
    [.hears, .acts (.picks 1), .acts (.aggregates .finished), .asks], turns 2 4,
    [.hears, .acts (.broadcasts none), .asks], turns 7 5,
    [.hears, .arrives 0, .settles 2, .reports 2 (.sentUpdate 0 [])], turns 4 6, [.acts .wakes, .asks], turns 3 7,
    [.hears, .acts (.picks 2)]]

/-- It is aggregated in round 1, though it was ordered in round 0. -/
theorem straggler_aggregated :
    (twoWorkers straggling).history.all (·.output) = true ∧
      (twoWorkers straggling).state.executor.phase = .aggregating 7 [1, 2] [(2, 2)] ∧
      issuedIn 7 (twoWorkers straggling).history = some 1 ∧ issuedIn 2 (twoWorkers straggling).history = some 0 ∧
      ¬TakesOneRound (smallJob 1 1 2).settings 9 (twoWorkers straggling).state (twoWorkers straggling).history := by
  have hphase : (twoWorkers straggling).state.executor.phase = .aggregating 7 [1, 2] [(2, 2)] := by decide +kernel
  have haggregate : issuedIn 7 (twoWorkers straggling).history = some 1 := by decide +kernel
  have hupdate : issuedIn 2 (twoWorkers straggling).history = some 0 := by decide +kernel
  refine ⟨by decide +kernel, hphase, haggregate, hupdate, fun htakes => ?_⟩
  obtain ⟨r, -, hr, hused, -⟩ := htakes 7 [1, 2] [(2, 2)] hphase
  cases haggregate.symm.trans hr
  cases hupdate.symm.trans (hused (2, 2) (List.mem_singleton.mpr rfl)).issued

end Hypha.ParameterServer
