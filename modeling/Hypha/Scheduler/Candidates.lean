import Hypha.Lib.Smallest
import Hypha.Worker.Arbiter

/-!
# Candidates

The offers that an allocation keeps (`allocator.rs`): at most `capacity`, sorted by score, with at most one for each peer
if it strives for diversity. Scores are taken from a linear order.

* `Candidates.tryInsert` : one more offer;
* `tryInsert_smallest`, `tryInsert_smallestPerOwner` : the offers stay a selection of the best;
* `candidates_best` : after any sequence of offers, the scores are the smallest of all, or of the minima of the peers.
-/

namespace Hypha.Scheduler

open Hypha.Lib List

variable {PeerId K : Type} [DecidableEq PeerId] [LinearOrder K]

/-- `worker_offer::Request`, under the name the allocator imports it with. -/
abbrev WorkerOfferRequest := Hypha.Worker.WorkerOffer

inductive CandidatesError where
  | rejected
  | full
  deriving DecidableEq

structure Candidate (PeerId K : Type) where
  peerId : PeerId
  offer : WorkerOfferRequest
  score : K
  deriving DecidableEq

structure Candidates (PeerId K : Type) where
  offers : List (Candidate PeerId K)
  capacity : Nat
  diversity : Bool

namespace Candidates

def new (capacity : Nat) (diversity : Bool) : Candidates PeerId K := ⟨[], capacity, diversity⟩

variable (self : Candidates PeerId K) (candidate : Candidate PeerId K)

/-- `sort_by`, which is stable. -/
def sort : Candidates PeerId K :=
  { self with offers := self.offers.insertionSort fun a b => a.score ≤ b.score }

/-- The second part of `try_insert`: a new offer if there is space, else in place of the worst. -/
def tryAdd : Candidates PeerId K × Except CandidatesError Unit :=
  if self.offers.length < self.capacity then
    ({ self with offers := self.offers ++ [candidate] }.sort, .ok ())
  else match self.offers.getLast? with
    | some last =>
      if candidate.score < last.score then
        ({ self with offers := self.offers.dropLast ++ [candidate] }.sort, .ok ())
      else (self, .error .full)
    | none => (self, .error .full)

def tryInsert : Candidates PeerId K × Except CandidatesError Unit :=
  match if self.diversity then self.offers.findIdx? (fun c => c.peerId = candidate.peerId) else none with
  | some i =>
    if self.offers[i]?.any (fun old => candidate.score < old.score) then
      ({ self with offers := self.offers.set i candidate }.sort, .ok ())
    else (self, .error .rejected)
  | none => self.tryAdd candidate

def len : Nat := self.offers.length

/-- The offers with their peers, best first. -/
def toOffers : List (PeerId × WorkerOfferRequest) := self.offers.map fun c => (c.peerId, c.offer)

end Candidates

/-! ## One more offer -/

instance : Std.Total fun a b : Candidate PeerId K => a.score ≤ b.score := ⟨fun a b => le_total a.score b.score⟩

instance : IsTrans (Candidate PeerId K) fun a b => a.score ≤ b.score := ⟨fun _ _ _ => le_trans⟩

section Insert
variable {self : Candidates PeerId K} {candidate : Candidate PeerId K} {k : Nat} {seen : List (Candidate PeerId K)}

omit [DecidableEq PeerId] in
theorem sort_perm (self : Candidates PeerId K) : self.sort.offers ~ self.offers := perm_insertionSort _ _

omit [DecidableEq PeerId] in
theorem sort_sorted (self : Candidates PeerId K) : self.sort.offers.Pairwise fun a b => a.score ≤ b.score :=
  pairwise_insertionSort _ _

omit [DecidableEq PeerId] in
/-- What the second part of `try_insert` does. -/
theorem tryAdd_cases (self : Candidates PeerId K) (candidate : Candidate PeerId K) :
    (self.offers.length < self.capacity ∧
      (self.tryAdd candidate).1 = { self with offers := self.offers ++ [candidate] }.sort) ∨
    (∃ init last, self.offers = init ++ [last] ∧ self.capacity ≤ self.offers.length ∧ candidate.score < last.score ∧
      (self.tryAdd candidate).1 = { self with offers := init ++ [candidate] }.sort) ∨
    (self.capacity ≤ self.offers.length ∧ (∀ last ∈ self.offers.getLast?, last.score ≤ candidate.score) ∧
      (self.tryAdd candidate).1 = self) := by
  unfold Candidates.tryAdd
  split_ifs with hroom
  · exact .inl ⟨hroom, rfl⟩
  · rw [Nat.not_lt] at hroom
    rcases eq_nil_or_concat self.offers with hnil | ⟨init, last, hoffers⟩
    · rw [hnil] at hroom ⊢
      exact .inr (.inr ⟨hroom, fun _ h => absurd h (Option.not_mem_none _), rfl⟩)
    · rw [concat_eq_append] at hoffers
      rw [hoffers] at hroom ⊢
      rw [getLast?_concat, dropLast_concat]
      dsimp only
      split_ifs with hlt
      · exact .inr (.inl ⟨init, last, rfl, hroom, hlt, rfl⟩)
      · refine .inr (.inr ⟨hroom, fun x hx => ?_, rfl⟩)
        rw [← Option.mem_some_iff.mp hx]
        exact not_lt.mp hlt

/-- What `try_insert` does if it strives for diversity. -/
theorem tryInsert_cases (candidate : Candidate PeerId K) (hdiv : self.diversity = true) :
    (∃ l₁ old l₂, self.offers = l₁ ++ old :: l₂ ∧ old.peerId = candidate.peerId ∧ candidate.score < old.score ∧
      (self.tryInsert candidate).1 = { self with offers := l₁ ++ candidate :: l₂ }.sort) ∨
    (∃ old ∈ self.offers, old.peerId = candidate.peerId ∧ old.score ≤ candidate.score ∧
      (self.tryInsert candidate).1 = self) ∨
    (candidate.peerId ∉ self.offers.map (·.peerId) ∧ self.tryInsert candidate = self.tryAdd candidate) := by
  unfold Candidates.tryInsert
  rw [hdiv, if_pos rfl]
  cases hfind : self.offers.findIdx? (fun c => c.peerId = candidate.peerId) with
  | none =>
    refine .inr (.inr ⟨fun hmem => ?_, rfl⟩)
    obtain ⟨old, hold, hpeer⟩ := mem_map.mp hmem
    have hne := findIdx?_eq_none_iff.mp hfind old hold
    exact of_decide_eq_false hne hpeer
  | some i =>
    obtain ⟨hi, hpeer, -⟩ := findIdx?_eq_some_iff_getElem.mp hfind
    rw [decide_eq_true_eq] at hpeer
    dsimp only
    rw [getElem?_eq_getElem hi, Option.any_some, set_eq_take_append_cons_drop, if_pos hi]
    split_ifs with hlt
    · refine .inl ⟨self.offers.take i, self.offers[i], self.offers.drop (i + 1), ?_, hpeer, of_decide_eq_true hlt, rfl⟩
      rw [getElem_cons_drop, take_append_drop]
    · refine .inr (.inl ⟨self.offers[i], getElem_mem hi, hpeer, ?_, rfl⟩)
      exact not_lt.mp fun h => hlt (decide_eq_true h)

omit [DecidableEq PeerId] in
/-- The worst offer is the last one. -/
theorem le_of_getLast {offers : List (Candidate PeerId K)} {b : K}
    (hsorted : offers.Pairwise fun a b => a.score ≤ b.score) (hlast : ∀ last ∈ offers.getLast?, last.score ≤ b) :
    ∀ c ∈ offers, c.score ≤ b := by
  intro c hc
  rcases eq_nil_or_concat offers with rfl | ⟨init, last, rfl⟩
  · exact absurd hc not_mem_nil
  · rw [concat_eq_append] at *
    have hle : last.score ≤ b := hlast last getLast?_concat
    rcases mem_append.mp hc with hc | hc
    · exact ((pairwise_append.mp hsorted).2.2 c hc last (mem_singleton_self last)).trans hle
    · rw [mem_singleton.mp hc]
      exact hle

theorem tryInsert_of_not_diversity (hdiv : self.diversity = false) :
    self.tryInsert candidate = self.tryAdd candidate := by
  unfold Candidates.tryInsert
  rw [hdiv]
  rfl

omit [DecidableEq PeerId] in
theorem tryAdd_smallest (h : Smallest Candidate.score k seen self.offers) (hk : self.capacity = k) :
    Smallest Candidate.score k (seen ++ [candidate]) (self.tryAdd candidate).1.offers := by
  have hlen := h.length
  rcases tryAdd_cases self candidate with ⟨hroom, heq⟩ | ⟨init, last, hoffers, hfull, hlt, heq⟩ | ⟨hfull, hlast, heq⟩
  · rw [heq]
    exact h.add (hk ▸ hroom) (sort_perm _) (sort_sorted _)
  · rw [heq]
    rw [hoffers] at h hfull hlen
    exact h.replace (by omega) hlt (sort_perm _) (sort_sorted _)
  · rw [heq]
    exact h.reject (by omega) (le_of_getLast h.sorted hlast)

theorem tryInsert_smallestPerOwner (hdiv : self.diversity = true) (hk : self.capacity = k)
    (h : SmallestPerOwner Candidate.peerId Candidate.score k seen self.offers) :
    SmallestPerOwner Candidate.peerId Candidate.score k (seen ++ [candidate]) (self.tryInsert candidate).1.offers := by
  have hlen := h.length
  rcases tryInsert_cases candidate hdiv with
    ⟨l₁, old, l₂, hoffers, hpeer, hlt, heq⟩ | ⟨old, hold, hpeer, hle, heq⟩ | ⟨hnew, heq⟩
  · rw [heq]
    rw [hoffers] at h
    exact h.improve hpeer hlt (sort_perm _) (sort_sorted _)
  · -- the peer has a better offer
    rw [heq, h.append_iff, forall_mem_singleton]
    constructor
    · intro c hc hown
      have hsame : c = old := inj_on_of_nodup_map h.nodup hc hold (hown.symm.trans hpeer.symm)
      exact hsame ▸ hle
    · exact fun hout => absurd (hpeer ▸ mem_map_of_mem hold) hout
  · rw [heq]
    rcases tryAdd_cases self candidate with ⟨hroom, heq⟩ | ⟨init, last, hoffers, hfull, hlt, heq⟩ | ⟨hfull, hlast, heq⟩
    · rw [heq]
      exact h.add hnew (hk ▸ hroom) (sort_perm _) (sort_sorted _)
    · rw [heq]
      rw [hoffers] at h hfull hlen hnew
      exact h.replace hnew (by omega) hlt (sort_perm _) (sort_sorted _)
    · rw [heq, h.append_iff, forall_mem_singleton]
      exact ⟨fun c hc hown => absurd (hown ▸ mem_map_of_mem hc) hnew,
        fun _ => ⟨by omega, le_of_getLast h.sorted hlast⟩⟩

omit [DecidableEq PeerId] in
theorem tryAdd_fixed (self : Candidates PeerId K) (candidate : Candidate PeerId K) :
    (self.tryAdd candidate).1.capacity = self.capacity ∧ (self.tryAdd candidate).1.diversity = self.diversity := by
  rcases tryAdd_cases self candidate with ⟨-, heq⟩ | ⟨init, last, -, -, -, heq⟩ | ⟨-, -, heq⟩ <;>
  · rw [heq]
    exact ⟨rfl, rfl⟩

theorem tryInsert_fixed (self : Candidates PeerId K) (candidate : Candidate PeerId K) :
    (self.tryInsert candidate).1.capacity = self.capacity ∧ (self.tryInsert candidate).1.diversity = self.diversity := by
  cases hdiv : self.diversity with
  | false =>
    rw [tryInsert_of_not_diversity hdiv, ← hdiv]
    exact tryAdd_fixed self candidate
  | true =>
    rw [← hdiv]
    rcases tryInsert_cases candidate hdiv with
      ⟨l₁, old, l₂, -, -, -, heq⟩ | ⟨old, -, -, -, heq⟩ | ⟨-, heq⟩
    · rw [heq]
      exact ⟨rfl, rfl⟩
    · rw [heq]
      exact ⟨rfl, rfl⟩
    · rw [heq]
      exact tryAdd_fixed self candidate

omit [DecidableEq PeerId] in
theorem tryAdd_of_error {error : CandidatesError} (h : (self.tryAdd candidate).2 = .error error) :
    (self.tryAdd candidate).1 = self := by
  unfold Candidates.tryAdd at h ⊢
  split_ifs at h ⊢ with hroom
  split at h
  · split_ifs at h ⊢ with hlt
    rfl
  · rfl

/-- An offer that is not taken changes nothing. -/
theorem tryInsert_of_error {error : CandidatesError} (h : (self.tryInsert candidate).2 = .error error) :
    (self.tryInsert candidate).1 = self := by
  unfold Candidates.tryInsert at h ⊢
  split at h
  · split_ifs at h ⊢ with hlt
    rfl
  · exact tryAdd_of_error h

end Insert

/-! ## Any sequence of offers -/

/-- The candidates after a sequence of offers. -/
def Candidates.insertAll (self : Candidates PeerId K) (arrivals : List (Candidate PeerId K)) : Candidates PeerId K :=
  arrivals.foldl (fun self candidate => (self.tryInsert candidate).1) self

theorem insertAll_snoc (self : Candidates PeerId K) (arrivals : List (Candidate PeerId K))
    (candidate : Candidate PeerId K) :
    self.insertAll (arrivals ++ [candidate]) = ((self.insertAll arrivals).tryInsert candidate).1 :=
  foldl_append

section Sequence
variable (capacity : Nat) (arrivals : List (Candidate PeerId K))

theorem insertAll_fixed (diversity : Bool) :
    ((Candidates.new capacity diversity).insertAll arrivals).capacity = capacity ∧
      ((Candidates.new capacity diversity).insertAll arrivals).diversity = diversity := by
  induction arrivals using reverseRecOn with
  | nil => exact ⟨rfl, rfl⟩
  | append_singleton arrivals candidate ih =>
    rw [insertAll_snoc, (tryInsert_fixed _ candidate).1, (tryInsert_fixed _ candidate).2]
    exact ih

/-- Without diversity. -/
theorem insertAll_smallest :
    Smallest Candidate.score capacity arrivals ((Candidates.new capacity false).insertAll arrivals).offers := by
  induction arrivals using reverseRecOn with
  | nil => exact .nil
  | append_singleton arrivals candidate ih =>
    have hfixed := insertAll_fixed capacity arrivals false
    rw [insertAll_snoc, tryInsert_of_not_diversity hfixed.2]
    exact tryAdd_smallest ih hfixed.1

/-- With diversity. -/
theorem insertAll_smallestPerOwner :
    SmallestPerOwner Candidate.peerId Candidate.score capacity arrivals
      ((Candidates.new capacity true).insertAll arrivals).offers := by
  induction arrivals using reverseRecOn with
  | nil => exact .nil
  | append_singleton arrivals candidate ih =>
    have hfixed := insertAll_fixed capacity arrivals true
    rw [insertAll_snoc]
    exact tryInsert_smallestPerOwner hfixed.2 hfixed.1 ih

/-- A peer is kept with the first of its best offers. -/
theorem insertAll_firstBest :
    ∀ c ∈ ((Candidates.new capacity true).insertAll arrivals).offers,
      firstBest Candidate.peerId Candidate.score arrivals c.peerId = some c := by
  induction arrivals using reverseRecOn with
  | nil => exact fun c hc => absurd hc not_mem_nil
  | append_singleton arrivals candidate ih =>
    have hbest := insertAll_smallestPerOwner capacity arrivals
    obtain ⟨hcapacity, hdiv⟩ := insertAll_fixed capacity arrivals true
    rw [insertAll_snoc]
    generalize (Candidates.new capacity true).insertAll arrivals = self at *
    have hother : ∀ c ∈ self.offers, candidate.peerId ≠ c.peerId →
        firstBest Candidate.peerId Candidate.score (arrivals ++ [candidate]) c.peerId = some c := by
      intro c hc hne
      rw [firstBest_snoc_of_ne hne]
      exact ih c hc
    intro c hc
    rcases tryInsert_cases candidate hdiv with
      ⟨l₁, old, l₂, hoffers, hpeer, hlt, heq⟩ | ⟨old, hold, hpeer, hle, heq⟩ | ⟨hnew, heq⟩
    · -- the peer improves: its new offer is better than all that it has made
      rw [heq] at hc
      have hnodup := hbest.nodup
      have hold : old ∈ self.offers := hoffers ▸ mem_append_right l₁ mem_cons_self
      rw [hoffers, map_append, map_cons, nodup_middle, nodup_cons, ← map_append, hpeer] at hnodup
      rcases mem_append.mp ((sort_perm _).subset hc) with hc | hc
      · refine hother c (hoffers ▸ mem_append_left _ hc) fun he => hnodup.1 ?_
        exact he ▸ mem_map_of_mem (mem_append_left _ hc)
      rcases mem_cons.mp hc with rfl | hc
      · exact firstBest_snoc_of_lt fun x hx hown => hlt.trans_le (hbest.best old hold x hx (hown.trans hpeer.symm))
      · refine hother c (hoffers ▸ mem_append_right _ (mem_cons_of_mem _ hc)) fun he => hnodup.1 ?_
        exact he ▸ mem_map_of_mem (mem_append_right _ hc)
    · rw [heq] at hc
      by_cases hown : candidate.peerId = c.peerId
      · have hsame : c = old := inj_on_of_nodup_map hbest.nodup hc hold (hown.symm.trans hpeer.symm)
        exact firstBest_snoc_of_le (ih c hc) (hsame ▸ hle)
      · exact hother c hc hown
    · have hne : ∀ c ∈ self.offers, candidate.peerId ≠ c.peerId := fun c hc he => hnew (he ▸ mem_map_of_mem hc)
      rw [heq] at hc
      rcases tryAdd_cases self candidate with ⟨hroom, heq⟩ | ⟨init, last, hoffers, -, hlt, heq⟩ | ⟨-, -, heq⟩ <;>
        rw [heq] at hc
      · rcases mem_append.mp ((sort_perm _).subset hc) with hc | hc
        · exact hother c hc (hne c hc)
        · -- while there is room every peer is kept
          rw [mem_singleton.mp hc]
          refine firstBest_snoc_of_lt fun x hx hown => ?_
          have hfull := (hbest.rest x hx (hown ▸ hnew)).1
          omega
      · rcases mem_append.mp ((sort_perm _).subset hc) with hc | hc
        · have hc' : c ∈ self.offers := hoffers ▸ mem_append_left _ hc
          exact hother c hc' (hne c hc')
        · -- a peer that is not kept has made no better offer than the worst that is
          rw [mem_singleton.mp hc]
          refine firstBest_snoc_of_lt fun x hx hown => hlt.trans_le ?_
          exact (hbest.rest x hx (hown ▸ hnew)).2 last (hoffers ▸ mem_append_right _ (mem_singleton_self last))
      · exact hother c hc (hne c hc)

/-- The offers that are kept of a sequence. -/
def stored (diversity : Bool) : List (Candidate PeerId K) :=
  ((Candidates.new capacity diversity).insertAll arrivals).offers

/-- **The best offers are kept**, whatever the order in which they come: the scores are the smallest of all offers, or of
the minima of the peers. -/
theorem candidates_best (diversity : Bool) :
    (stored capacity arrivals diversity).Pairwise (fun a b => a.score ≤ b.score) ∧
      (stored capacity arrivals diversity).length ≤ capacity ∧
      (∀ c ∈ stored capacity arrivals diversity, c ∈ arrivals) ∧
      (diversity = false →
        (stored capacity arrivals diversity).map (·.score) = smallest capacity (arrivals.map (·.score))) ∧
      (diversity = true → ((stored capacity arrivals diversity).map (·.peerId)).Nodup ∧
        (stored capacity arrivals diversity).map (·.score) =
          smallest capacity (minima Candidate.peerId Candidate.score arrivals)) := by
  cases diversity with
  | false =>
    have h := insertAll_smallest capacity arrivals
    obtain ⟨rest, hperm, -⟩ := h.rest
    refine ⟨h.sorted, h.length, fun c hc => ?_, fun _ => h.scores, fun hdiv => absurd hdiv Bool.false_ne_true⟩
    exact hperm.symm.subset (mem_append_left rest hc)
  | true =>
    have h := insertAll_smallestPerOwner capacity arrivals
    exact ⟨h.sorted, h.length, h.mem, fun hdiv => absurd hdiv.symm Bool.false_ne_true, fun _ => ⟨h.nodup, h.scores⟩⟩

end Sequence

end Hypha.Scheduler
