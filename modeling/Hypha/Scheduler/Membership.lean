import Hypha.Scheduler.Effect
import Hypha.Scheduler.PoolTask

/-!
# Who is a member of a pool

* `membership_mirrors_iff` : the members are the peers of the handles that are watched, as long as no peer joins that is
  a member;
* `joinMembers_of_later` : who joins later is listed later;
* `stable_primary` : the members are in the order in which they joined, and the first one changes only when it leaves.
-/

namespace Hypha.Scheduler

open Hypha.Lib

variable {PeerId : Type} [LinearOrder PeerId]

/-! ## Members and handles -/

/-- The allocator gives at most as many workers as it was asked for, of different peers. -/
def WellAnswered (e : PoolEvent PeerId) : Prop :=
  ∀ needed, e.output = some needed → (joinsIn e).length ≤ needed ∧ ((joinsIn e).map (·.1.peerId)).Nodup

/-- No worker joins whose peer is a member. -/
def Fresh (e : PoolEvent PeerId) : Prop := ∀ w ∈ joinsIn e, w.1.peerId ∉ e.pre.members.map (·.peerId)

/-- While the task runs, the members are the peers of the handles that are watched, once each, and not more than the
target. -/
def Mirrors (config : PoolConfig) (s : PoolTask PeerId) : Prop :=
  s.error = none → (s.members.map (·.peerId)).Perm (s.watchers.map (·.peerId)) ∧
    (s.members.map (·.peerId)).Nodup ∧ s.members.length ≤ config.target

theorem joinMembers_perm (members : List (WorkerDescriptor PeerId)) (workers : List (Worker PeerId × SystemTime)) :
    ((joinMembers members (workers.map fun (worker, now) => worker.descriptor now)).map (·.peerId)).Perm
      (members.map (·.peerId) ++ workers.map (·.1.peerId)) := by
  refine ((List.perm_insertionSort _ _).map _).trans ?_
  rw [List.map_append, List.map_map]
  rfl

omit [LinearOrder PeerId] in
/-- Removing the one handle of a peer. -/
theorem eraseIdx_perm_filter [DecidableEq PeerId] {watchers : List (Worker PeerId)} {n : Nat} {worker : Worker PeerId}
    (h : watchers[n]? = some worker) (hnodup : (watchers.map (·.peerId)).Nodup) :
    ((watchers.map (·.peerId)).filter (· ≠ worker.peerId)).Perm ((watchers.eraseIdx n).map (·.peerId)) := by
  have hperm : (watchers.map (·.peerId)).Perm (worker.peerId :: (watchers.eraseIdx n).map (·.peerId)) := by
    obtain ⟨hn, rfl⟩ := List.getElem?_eq_some_iff.mp h
    exact ((List.getElem_cons_eraseIdx_perm hn).map (·.peerId)).symm
  obtain ⟨hnot, -⟩ := List.nodup_cons.mp (hperm.nodup_iff.mp hnodup)
  refine (hperm.filter _).trans ?_
  rw [List.filter_cons_of_neg (by simp), List.filter_eq_self.mpr]
  intro p hp
  exact decide_eq_true fun heq => hnot (heq ▸ hp)

section Step
variable {config : PoolConfig} {s : PoolTask PeerId} {i : PoolInput PeerId} {r : PoolTask PeerId × Option Nat}

/-- A step after which the members mirror the handles, if they did so before. -/
theorem Change.mirrors_iff (h : Change config s i r) (hs : Mirrors config s)
    (hanswer : ∀ needed, r.2 = some needed →
      (joining r.2 i).length ≤ needed ∧ ((joining r.2 i).map (·.1.peerId)).Nodup) :
    Mirrors config r.1 ↔ ∀ w ∈ joining r.2 i, w.1.peerId ∉ s.members.map (·.peerId) := by
  cases h with
  | @stays s' request members watchers joins =>
    refine iff_of_true (fun hrunning => ?_) (fun w hw => ?_)
    · obtain ⟨hbefore, hwatchers⟩ := watchers hrunning
      rw [members, hwatchers]
      exact hs hbefore
    · rw [joins] at hw
      cases hw
  | @joins s' request below members watchers running asked =>
    obtain ⟨hperm, hnodup, hle⟩ := hs running.1
    obtain ⟨hcount, hdistinct⟩ := hanswer _ asked
    dsimp only at hcount hdistinct ⊢
    have hjoined := joinMembers_perm s.members (joining request i)
    rw [← members] at hjoined
    have hlength := hjoined.length_eq
    rw [List.length_append, List.length_map, List.length_map, List.length_map] at hlength
    constructor
    · intro hmirrors w hw hmem
      have happend := hjoined.nodup_iff.mp (hmirrors running.2).2.1
      exact (List.nodup_append.mp happend).2.2 _ hmem _ (List.mem_map.mpr ⟨w, hw, rfl⟩) rfl
    · intro hfresh _
      refine ⟨hjoined.trans ?_, hjoined.nodup_iff.mpr (List.nodup_append.mpr ⟨hnodup, hdistinct, ?_⟩), by omega⟩
      · rw [watchers, List.map_append, List.map_map]
        exact hperm.append_right _
      · intro p hp q hq heq
        obtain ⟨w, hw, rfl⟩ := List.mem_map.mp hq
        exact hfresh w hw (heq ▸ hp)
  | @exits s' n result worker watched input members watchers running =>
    refine iff_of_true (fun _ => ?_) (fun w hw => ?_)
    · obtain ⟨hperm, hnodup, hle⟩ := hs running.1
      have hmembers : s'.members.map (·.peerId) = (s.members.map (·.peerId)).filter (· ≠ worker.peerId) := by
        rw [members, List.filter_map]
        rfl
      refine ⟨?_, hmembers ▸ hnodup.filter _, ?_⟩
      · rw [hmembers, watchers]
        exact (hperm.filter _).trans (eraseIdx_perm_filter watched (hperm.nodup_iff.mp hnodup))
      · rw [members]
        exact (List.length_filter_le _ _).trans hle
    · rw [input] at hw
      cases hw

end Step

/-- **When membership mirrors the live workers**, over every run. -/
theorem membership_mirrors_iff (config : PoolConfig) (inputs : List (PoolInput PeerId))
    (hanswers : Along (fun e _ => WellAnswered e) (runPool config inputs).history) :
    Along (fun e _ => Mirrors config e.post) (runPool config inputs).history ↔
      Along (fun e _ => Fresh e) (runPool config inputs).history := by
  refine (poolMachine config).along_invariant_iff (fun w => Mirrors config w.state) (fun e _ => WellAnswered e)
    (fun e _ => Fresh e) ?_ ?_ inputs hanswers
  · exact fun _ => ⟨List.Perm.refl _, List.nodup_nil, Nat.zero_le _⟩
  · intro w i hmirrors hanswer
    exact (poolStep_change config _ i).mirrors_iff hmirrors hanswer

/-- A worker of a peer, with its handle. -/
def handle (lease : Uuid) (p : Nat) : Worker Nat := ⟨lease, p, {}⟩

/-- A pool of two members. -/
def twoMembers : PoolConfig := ⟨"train", 1, 2, 0⟩

/-- Two workers join at once, one of them exits, and it joins again. -/
def rejoining : List (PoolInput Nat) :=
  [.tick 0 (.ok [(handle 1 1, 5), (handle 2 2, 5)]), .exit 0 (.ok ()), .tick 1 (.ok [(handle 3 1, 6)])]

theorem membership_mirrors_rejoining :
    Along (fun e _ => Mirrors twoMembers e.post) (runPool twoMembers rejoining).history ↔
      Along (fun e _ => Fresh e) (runPool twoMembers rejoining).history :=
  membership_mirrors_iff twoMembers rejoining (by unfold WellAnswered; decide)

/-- A peer that is a member joins once more, and then one of its two handles exits. -/
def joiningTwice : List (PoolInput Nat) :=
  [.tick 0 (.ok [(handle 1 1, 5)]), .tick 1 (.ok [(handle 2 1, 6)]), .exit 0 (.ok ())]

/-- The peer is a member twice, and then no member at all while its second handle is watched. -/
theorem membership_fails :
    Along (fun e _ => WellAnswered e) (runPool twoMembers joiningTwice).history ∧
      (runPool twoMembers joiningTwice).state.error.isNone = true ∧
      (runPool twoMembers joiningTwice).state.members.map (·.peerId) = [] ∧
      (runPool twoMembers joiningTwice).state.watchers.map (·.peerId) = [1] ∧
      ¬ Along (fun e _ => Mirrors twoMembers e.post) (runPool twoMembers joiningTwice).history := by
  refine ⟨by unfold WellAnswered; decide, by decide, by decide, by decide, fun h => ?_⟩
  have hlength := (h.1 rfl).1.length_eq
  exact absurd hlength (by decide)

/-! ## The first member -/

/-- Who joins in a step joins later than all who have joined before. -/
def JoinsLater (e : PoolEvent PeerId) (h : List (PoolEvent PeerId)) : Prop :=
  ∀ w ∈ joinsIn e, ∀ e' ∈ h, ∀ w' ∈ joinsIn e', w'.2 < w.2

/-- The worker of a peer exits. -/
def Exits (p : PeerId) (e : PoolEvent PeerId) : Prop :=
  ∃ n result worker, e.input = .exit n result ∧ e.pre.watchers[n]? = some worker ∧ worker.peerId = p

instance : IsTrans (WorkerDescriptor PeerId) descriptorLe where
  trans := by
    rintro a b c (hab | ⟨hab, hp⟩) (hbc | ⟨hbc, hq⟩)
    · exact Or.inl (hab.trans hbc)
    · exact Or.inl (hbc ▸ hab)
    · exact Or.inl (hab ▸ hbc)
    · exact Or.inr ⟨hab.trans hbc, hp.trans hq⟩

instance : Std.Total (@descriptorLe PeerId _) where
  total a b := by
    rcases lt_trichotomy a.joinedAt b.joinedAt with h | h | h
    · exact Or.inl (Or.inl h)
    · exact (le_total a.peerId b.peerId).imp (fun hp => Or.inr ⟨h, hp⟩) fun hp => Or.inr ⟨h.symm, hp⟩
    · exact Or.inr (Or.inl h)

/-- Who joins later than every member is listed after them. -/
theorem joinMembers_of_later {workers : List (WorkerDescriptor PeerId)} :
    ∀ {members : List (WorkerDescriptor PeerId)}, members.Pairwise descriptorLe →
      (∀ m ∈ members, ∀ w ∈ workers, m.joinedAt < w.joinedAt) →
        joinMembers members workers = members ++ workers.insertionSort descriptorLe := by
  intro members
  induction members with
  | nil => exact fun _ _ => rfl
  | cons d members ih =>
    intro hsorted hlater
    obtain ⟨hfirst, hsorted⟩ := List.pairwise_cons.mp hsorted
    have hrest := ih hsorted fun m hm => hlater m (List.mem_cons_of_mem d hm)
    unfold joinMembers at hrest ⊢
    rw [List.cons_append, List.insertionSort_cons_of_forall_rel, hrest, List.cons_append]
    intro b hb
    rcases List.mem_append.mp hb with hb | hb
    · exact hfirst b hb
    · exact Or.inl (hlater d List.mem_cons_self b hb)

theorem sorted_joinMembers (members workers : List (WorkerDescriptor PeerId)) :
    (joinMembers members workers).Pairwise descriptorLe := List.pairwise_insertionSort _ _

/-- The first member stays the first one while others leave. -/
theorem head?_exitMembers_of_ne {members : List (WorkerDescriptor PeerId)} {d : WorkerDescriptor PeerId} {p : PeerId}
    (hd : members.head? = some d) (hne : d.peerId ≠ p) : (exitMembers members p).head? = some d := by
  obtain ⟨rest, rfl⟩ := List.head?_eq_some_iff.mp hd
  unfold exitMembers
  rw [List.filter_cons_of_pos (by simpa using hne), List.head?_cons]

/-- What a step does to the order of the members and to the first of them. -/
theorem Change.ordered {config : PoolConfig} {s : PoolTask PeerId} {i : PoolInput PeerId}
    {r : PoolTask PeerId × Option Nat} (h : Change config s i r) (hsorted : s.members.Pairwise descriptorLe)
    (hlater : ∀ m ∈ s.members, ∀ w ∈ joining r.2 i, m.joinedAt < w.2) :
    r.1.members.Pairwise descriptorLe ∧
      (∀ m ∈ r.1.members, m ∈ s.members ∨ ∃ w ∈ joining r.2 i, w.2 = m.joinedAt) ∧
      ∀ d, s.members.head? = some d → r.1.members.head? ≠ some d →
        ∃ n result worker, i = .exit n result ∧ s.watchers[n]? = some worker ∧ worker.peerId = d.peerId := by
  cases h with
  | stays members watchers joins =>
    dsimp only at *
    rw [members]
    exact ⟨hsorted, fun _ => Or.inl, fun d hd hne => absurd hd hne⟩
  | joins below members watchers running asked =>
    dsimp only at *
    rw [members]
    refine ⟨sorted_joinMembers _ _, fun m hm => ?_, fun d hd hne => absurd ?_ hne⟩
    · rcases List.mem_append.mp ((List.mem_insertionSort _).mp hm) with hm | hm
      · exact Or.inl hm
      · obtain ⟨w, hw, rfl⟩ := List.mem_map.mp hm
        exact Or.inr ⟨w, hw, rfl⟩
    · rw [joinMembers_of_later hsorted, List.head?_append, hd, Option.some_or]
      intro m hm d hd
      obtain ⟨w, hw, rfl⟩ := List.mem_map.mp hd
      exact hlater m hm w hw
  | @exits s' n result worker watched input members watchers running =>
    dsimp only at *
    rw [members]
    refine ⟨hsorted.filter _, fun m hm => Or.inl (List.mem_of_mem_filter hm), fun d hd hne => ?_⟩
    refine ⟨n, result, worker, input, watched, ?_⟩
    by_contra hother
    exact hne (head?_exitMembers_of_ne hd (Ne.symm hother))

/-- What `run_pool` keeps of its members: they are in order, and everybody has joined in some step. -/
structure Ordered (w : World (PoolTask PeerId) (PoolInput PeerId) (Option Nat)) : Prop where
  sorted : w.state.members.Pairwise descriptorLe
  joined : ∀ m ∈ w.state.members, ∃ e ∈ w.history, ∃ j ∈ joinsIn e, j.2 = m.joinedAt

/-- The first member changes only when a worker of its peer exits. -/
def FirstStays (e : PoolEvent PeerId) : Prop :=
  ∀ d, e.pre.members.head? = some d → e.post.members.head? ≠ some d → Exits d.peerId e

theorem Ordered.step {config : PoolConfig} {w : World (PoolTask PeerId) (PoolInput PeerId) (Option Nat)}
    (h : Ordered w) (i : PoolInput PeerId) (hlater : JoinsLater ((poolMachine config).event w.state i) w.history) :
    Ordered ((poolMachine config).next w i) ∧ FirstStays ((poolMachine config).event w.state i) := by
  obtain ⟨hsorted, hjoined, hfirst⟩ := (poolStep_change config w.state i).ordered h.sorted fun m hm j hj => by
    obtain ⟨e, he, j', hj', hstamp⟩ := h.joined m hm
    rw [← hstamp]
    exact hlater j hj e he j' hj'
  refine ⟨⟨hsorted, fun m hm => ?_⟩, hfirst⟩
  rcases hjoined m hm with hold | hnew
  · obtain ⟨e, he, hj⟩ := h.joined m hold
    exact ⟨e, List.mem_cons_of_mem _ he, hj⟩
  · exact ⟨_, List.mem_cons_self, hnew⟩

/-- The primary parameter server of handlers that read the members before and after a step changes only when a worker of
that peer exits. -/
def PrimaryStays (T : Type) [RuntimeStatistic T] (e : PoolEvent PeerId) : Prop :=
  ∀ (cfg : Settings) (s s' : SchedulerState PeerId T), s.parameterPool.members = e.pre.members →
    s'.parameterPool.members = e.post.members → ∀ t now p j t' now' p' j' ps,
      (context cfg s t now p j).primaryPs = some ps → (context cfg s' t' now' p' j').primaryPs ≠ some ps → Exits ps e

theorem FirstStays.primary {T : Type} [RuntimeStatistic T] {e : PoolEvent PeerId} (h : FirstStays e) :
    PrimaryStays T e := by
  intro cfg s s' hpre hpost t now p j t' now' p' j' ps hps hne
  rw [context_primaryPs] at hps hne
  unfold PoolWithAggregateInfo.ids at hps hne
  rw [hpre, List.head?_map] at hps
  rw [hpost, List.head?_map] at hne
  obtain ⟨d, hd, rfl⟩ := Option.map_eq_some_iff.mp hps
  refine h d hd fun hd' => hne ?_
  rw [hd', Option.map_some]

/-- **The primary is stable** over every run in which later batches join later. -/
theorem stable_primary (T : Type) [RuntimeStatistic T] (config : PoolConfig) (inputs : List (PoolInput PeerId))
    (hlater : Along JoinsLater (runPool config inputs).history) :
    Along (fun e _ => e.post.members.Pairwise descriptorLe ∧ FirstStays e ∧ PrimaryStays T e)
      (runPool config inputs).history := by
  refine ((poolMachine config).along_of_invariant Ordered JoinsLater _ ⟨List.Pairwise.nil, fun _ h => by cases h⟩ ?_
    inputs hlater).2
  intro w i h hlater
  obtain ⟨hnext, hfirst⟩ := h.step i hlater
  exact ⟨hnext, hnext.sorted, hfirst, hfirst.primary⟩

theorem stable_primary_rejoining :
    Along (fun e _ => e.post.members.Pairwise descriptorLe ∧ FirstStays e ∧ PrimaryStays RunningMean e)
      (runPool twoMembers rejoining).history :=
  stable_primary RunningMean twoMembers rejoining (by unfold JoinsLater; decide)

end Hypha.Scheduler
