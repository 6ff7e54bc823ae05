import Hypha.Worker.Holding

/-!
# Renewed leases

The prune loop lists the expired leases in one access to the ledger and removes them by their ids in later ones. A lease
that is renewed in between is removed all the same.

* `Promised`, `Honours` : a lease that has been answered as renewed is not removed as expired, and no job cancelled for
  it, before the timeout that was answered;
* `Task.condemned`, `Task.sentenced` : the leases that `proceed` has listed, and those it has removed;
* `renewedTooLate_removed` : a lease is renewed for three minutes and removed at once;
* `renewals_honoured` : renewals are honoured if none is granted for a lease that is already listed.
-/

namespace Hypha.Worker

open Hypha.Lib

set_option linter.unusedSectionVars false

variable {PeerId : Type} [DecidableEq PeerId] {cfg : Config} {w : Arbiter PeerId} {h : List (ArbiterStep PeerId)}

/-- The leases that `proceed` has listed as expired and has not come to. -/
def Task.condemned : Task PeerId → List Uuid
  | .pruning (.proceeding (.removing (.taking id) rest _)) => id :: rest.map Lease.id
  | .pruning (.proceeding (.removing (.releasing _) rest _)) => rest.map Lease.id
  | _ => []

/-- The leases that the iteration has removed as expired and whose jobs it has yet to cancel. -/
def Task.sentenced : Task PeerId → List Uuid
  | .pruning (.proceeding (.removing (.taking _) _ removed)) => removed.map Lease.id
  | .pruning (.proceeding (.removing (.releasing lease) _ removed)) => lease.id :: removed.map Lease.id
  | .pruning (.linking lease leases) => lease.id :: leases.map Lease.id
  | .pruning (.cancelling _ (.linked lease _ leases)) => lease.id :: leases.map Lease.id
  | .pruning (.joining _ (.linked lease _ leases)) => lease.id :: leases.map Lease.id
  | _ => []

/-- What has been promised for a lease: that it has been renewed until then. -/
def Promised (h : List (ArbiterStep PeerId)) (id : Uuid) (timeout : SystemTime) : Prop :=
  ∃ e ∈ h, answer? e = some (.renewLease (.renewed id timeout))

instance (h : List (ArbiterStep PeerId)) (id : Uuid) (timeout : SystemTime) : Decidable (Promised h id timeout) :=
  inferInstanceAs (Decidable (∃ e ∈ h, answer? e = some (.renewLease (.renewed id timeout))))

/-- What has been promised is honoured: `proceed` does not remove the lease before, and no job is cancelled for its
expiry before. -/
def Honours (e : ArbiterStep PeerId) (h : List (ArbiterStep PeerId)) : Prop :=
  ∀ i r id timeout, e.input = .runs i r → Promised h id timeout →
    (∀ rest removed lease, e.pre.tasks[i]? = some (.pruning (.proceeding (.removing (.taking id) rest removed))) →
      e.output = some (.lease (.takes id lease)) → timeout ≤ r.now) ∧
    ∀ job lease jobs leases x, e.pre.tasks[i]? = some (.pruning (.cancelling job (.linked lease jobs leases))) →
      lease.id = id → e.output = some (.job (.cancels job x)) → timeout ≤ r.now

/-- The lease that a task is about to renew. -/
def Task.renews? : Task PeerId → Option Uuid
  | .renewing _ id => some id
  | _ => none

/-- When a handler comes to renew a lease of the ledger, no `proceed` in flight has listed it. -/
def RenewsUnlisted (e : ArbiterStep PeerId) : Prop :=
  ∀ task ∈ running e, ∀ id ∈ task.renews?, id ∈ e.pre.manager.ledger → ∀ t ∈ e.pre.tasks, id ∉ t.condemned

instance (e : ArbiterStep PeerId) : Decidable (RenewsUnlisted e) :=
  decidable_of_iff ((running e).all (fun task => task.renews?.all fun id =>
    !(e.pre.manager.ledger.lookup id).isSome ||
      e.pre.tasks.all fun t => t.condemned.all fun k => decide (k ≠ id)) = true) <| by
      simp only [RenewsUnlisted, Option.all_eq_true, Bool.or_eq_true, Bool.not_eq_true', List.all_eq_true,
        decide_eq_true_iff, Option.mem_def, ← AList.lookup_isSome]
      refine forall₂_congr fun task _ => forall₂_congr fun id _ => ?_
      cases (e.pre.manager.ledger.lookup id).isSome
      · simp
      · simp only [Bool.true_eq_false, false_or, true_implies]
        exact forall₂_congr fun t _ => ⟨fun hall hmem => hall id hmem rfl, fun hnot k hk heq => hnot (heq ▸ hk)⟩

/-! ## What is listed and what is removed -/

section Lists

theorem nextRequest_idle (rest : List (PeerId × WorkerRequest)) :
    (nextRequest cfg rest).condemned = [] ∧ (nextRequest cfg rest).sentenced = [] := by
  cases rest <;> exact ⟨rfl, rfl⟩

theorem condemned_nextLease (leases : List (WorkerLease PeerId)) : (nextLease leases).condemned = [] := by
  cases leases <;> rfl

theorem sentenced_nextLease (leases : List (WorkerLease PeerId)) :
    (nextLease leases).sentenced = leases.map Lease.id := by
  cases leases <;> rfl

theorem condemned_nextExpired (removed rest : List (WorkerLease PeerId)) :
    (nextExpired removed rest).condemned = rest.map Lease.id := by
  cases rest with
  | nil => exact condemned_nextLease removed
  | cons lease rest => rfl

theorem sentenced_nextExpired (removed rest : List (WorkerLease PeerId)) :
    (nextExpired removed rest).sentenced = removed.map Lease.id := by
  cases rest with
  | nil => exact sentenced_nextLease removed
  | cons lease rest => rfl

theorem condemned_nextLinked (lease : WorkerLease PeerId) (leases : List (WorkerLease PeerId))
    (jobs : List (JobDescriptor PeerId)) : (nextLinked lease leases jobs).condemned = [] := by
  cases jobs with
  | nil => exact condemned_nextLease leases
  | cons job jobs => rfl

theorem sentenced_nextLinked (lease : WorkerLease PeerId) (leases : List (WorkerLease PeerId))
    (jobs : List (JobDescriptor PeerId)) :
    (nextLinked lease leases jobs).sentenced ⊆ lease.id :: leases.map Lease.id := by
  cases jobs with
  | nil =>
    show (nextLease leases).sentenced ⊆ _
    rw [sentenced_nextLease]
    exact List.subset_cons_self _ _
  | cons job jobs => exact List.Subset.refl _

theorem nextFinished_idle (jobs : List (JobDescriptor PeerId)) :
    (Task.pruning (nextFinished jobs)).condemned = [] ∧ (Task.pruning (nextFinished jobs)).sentenced = [] := by
  induction jobs with
  | nil => exact ⟨rfl, rfl⟩
  | cons job jobs ih =>
    unfold nextFinished
    split_ifs
    · exact ⟨rfl, rfl⟩
    · exact ih

theorem condemned_after (after : After PeerId) : after.next.condemned = [] := by
  cases after with
  | finished rest => exact (nextFinished_idle rest).1
  | linked lease jobs leases => exact condemned_nextLinked lease leases jobs

/-- The leases whose jobs are being cancelled. -/
def After.sentenced : After PeerId → List Uuid
  | .finished _ => []
  | .linked lease _ leases => lease.id :: leases.map Lease.id

theorem sentenced_after (after : After PeerId) : after.next.sentenced ⊆ after.sentenced := by
  cases after with
  | finished rest =>
    show (Task.pruning (nextFinished rest)).sentenced ⊆ _
    rw [(nextFinished_idle rest).2]
    exact List.nil_subset _
  | linked lease jobs leases => exact sentenced_nextLinked lease leases jobs

end Lists

/-- What a stretch lists: what was listed, or an expired lease. -/
theorem Runs.condemned {s : Shared PeerId} {r : Moment} {t t' : Task PeerId} {effect : Effect PeerId}
    {spawned : List (Task PeerId)} (hruns : Runs cfg s r t effect t' spawned) {id : Uuid} (hid : id ∈ t'.condemned) :
    id ∈ t.condemned ∨ ∃ lease ∈ s.manager.ledger.listExpired r.rank r.now, lease.id = id := by
  cases hruns with
  | declines peer request rest point hheld =>
    rw [(nextRequest_idle rest).1] at hid
    cases hid
  | grants peer request rest lease duration _ htimeout =>
    rw [(nextRequest_idle rest).1] at hid
    cases hid
  | finds =>
    rw [(nextFinished_idle _).1] at hid
    cases hid
  | lists =>
    rw [condemned_nextExpired] at hid
    exact Or.inr (List.mem_map.mp hid)
  | proceedTakes k lease rest removed hlease => exact Or.inl (List.mem_cons_of_mem _ hid)
  | proceedMisses k rest removed hlease =>
    rw [condemned_nextExpired] at hid
    exact Or.inl (List.mem_cons_of_mem _ hid)
  | proceedFrees lease rest removed =>
    rw [condemned_nextExpired] at hid
    exact Or.inl hid
  | links lease leases =>
    rw [condemned_nextLinked] at hid
    cases hid
  | cancelMisses k after hjob =>
    rw [condemned_after] at hid
    cases hid
  | joins execution after x status hx hphase =>
    rw [condemned_after] at hid
    cases hid
  | _ => cases hid

/-- What a stretch removes as expired: what was removed, or a lease it takes now. -/
theorem Runs.sentenced {s : Shared PeerId} {r : Moment} {t t' : Task PeerId} {effect : Effect PeerId}
    {spawned : List (Task PeerId)} (hruns : Runs cfg s r t effect t' spawned) {id : Uuid} (hid : id ∈ t'.sentenced) :
    id ∈ t.sentenced ∨
      ∃ k lease, effect = .lease (.takes k lease) ∧ lease.id = id ∧ k ∈ t.condemned ∧
        s.manager.ledger.lookup k = some lease := by
  cases hruns with
  | declines peer request rest point hheld =>
    rw [(nextRequest_idle rest).2] at hid
    cases hid
  | grants peer request rest lease duration _ htimeout =>
    rw [(nextRequest_idle rest).2] at hid
    cases hid
  | finds =>
    rw [(nextFinished_idle _).2] at hid
    cases hid
  | lists =>
    rw [sentenced_nextExpired] at hid
    cases hid
  | proceedTakes k lease rest removed hlease =>
    rcases List.mem_cons.mp hid with rfl | hid
    · exact Or.inr ⟨k, lease, rfl, rfl, List.mem_cons_self, hlease⟩
    · exact Or.inl hid
  | proceedMisses k rest removed hlease =>
    rw [sentenced_nextExpired] at hid
    exact Or.inl hid
  | proceedFrees lease rest removed =>
    rw [sentenced_nextExpired, List.map_append, List.mem_append] at hid
    rcases hid with hid | hid
    · exact Or.inl (List.mem_cons_of_mem _ hid)
    · rw [List.mem_singleton.mp hid]
      exact Or.inl List.mem_cons_self
  | links lease leases => exact Or.inl (sentenced_nextLinked _ _ _ hid)
  | cancels k job after hjob => cases after <;> exact Or.inl hid
  | cancelMisses k after hjob => cases after <;> exact Or.inl (sentenced_after _ hid)
  | joins execution after x status hx hphase => cases after <;> exact Or.inl (sentenced_after _ hid)
  | _ => cases hid

/-! ## Promises -/

/-- The clock has reached a time. -/
def Passed (h : List (ArbiterStep PeerId)) (time : SystemTime) : Prop := ∃ e ∈ h, ∃ now ∈ e.input.now?, time ≤ now

theorem Passed.cons {time : SystemTime} (hpassed : Passed h time) (e : ArbiterStep PeerId) : Passed (e :: h) time := by
  obtain ⟨e', he', hnow⟩ := hpassed
  exact ⟨e', List.mem_cons_of_mem _ he', hnow⟩

/-- With a steady clock what has passed is not later than now. -/
theorem Passed.le {time now : SystemTime} {e : ArbiterStep PeerId} (hpassed : Passed h time) (hsteady : Steady e h)
    (hnow : now ∈ e.input.now?) : time ≤ now := by
  obtain ⟨e', he', now', hnow', hle⟩ := hpassed
  exact hle.trans (hsteady now hnow e' he' now' hnow')

/-- What has been promised is not later than the timeout of the lease; what is listed has expired; and what has been
removed is gone, with everything that was promised for it passed. -/
structure Timely (w : Arbiter PeerId) (h : List (ArbiterStep PeerId)) : Prop where
  drawn : ∀ id timeout, Promised h id timeout → id ∈ w.manager.drawn
  renewed : ∀ id timeout, Promised h id timeout → ∃ e ∈ h, ∃ now ∈ e.input.now?, timeout = now + leaseTimeout
  current : ∀ id timeout lease, Promised h id timeout → w.manager.ledger.lookup id = some lease →
    timeout ≤ lease.timeout
  condemned : ∀ t ∈ w.tasks, ∀ id ∈ t.condemned, id ∈ w.manager.drawn ∧
    ∀ lease, w.manager.ledger.lookup id = some lease → Passed h lease.timeout
  sentenced : ∀ t ∈ w.tasks, ∀ id ∈ t.sentenced, id ∈ w.manager.drawn ∧ id ∉ w.manager.ledger ∧
    ∀ timeout, Promised h id timeout → Passed h timeout

section Step
variable {a : Happening PeerId} {effect : Effect PeerId} {tasks : List (Task PeerId)}

/-- A promise after a step was made before, or the lease has just been renewed. -/
theorem Steps.promised {id : Uuid} {timeout : SystemTime} (hsteps : Steps cfg w a effect tasks)
    (hpromised : Promised (taken w a effect tasks :: h) id timeout) :
    Promised h id timeout ∨
      ∃ i r peer lease, a = .runs i r ∧ w.tasks[i]? = some (.renewing peer id) ∧
        w.manager.ledger.lookup id = some lease ∧ timeout = r.now + leaseTimeout ∧
        effect = .lease (.renews id { lease with timeout := timeout }) := by
  obtain ⟨e, he, hanswer⟩ := hpromised
  rcases List.mem_cons.mp he with rfl | he
  · obtain ⟨i, r, t, rfl, ht, hanswers⟩ := hsteps.answers hanswer
    cases hanswers with
    | renews peer id lease hlease => exact Or.inr ⟨i, r, peer, lease, rfl, ht, hlease, rfl, rfl⟩
  · exact Or.inl ⟨e, he, hanswer⟩

/-- What is found under an id that has been drawn was there before, or it has been renewed. -/
theorem lookup_of_drawn (hsteps : Steps cfg w a effect tasks) (hfresh : Fresh (taken w a effect tasks)) {id : Uuid}
    {lease : WorkerLease PeerId} (hdrawn : id ∈ w.manager.drawn)
    (hlease : (effect.apply w.toShared).manager.ledger.lookup id = some lease) :
    w.manager.ledger.lookup id = some lease ∨
      ∃ i r peer old, a = .runs i r ∧ w.tasks[i]? = some (.renewing peer id) ∧ w.manager.ledger.lookup id = some old ∧
        lease = { old with timeout := r.now + leaseTimeout } := by
  rw [Effect.apply_manager] at hlease
  obtain ⟨j, held, hmove, -⟩ := hsteps.moves
  rcases hmove.lookup_cases hlease with hold | ⟨haccess, hid⟩ | ⟨old, timeout, haccess, hold, -⟩
  · exact Or.inl hold
  · have hnodup : (effect.apply w.toShared).manager.drawn.Nodup := hfresh
    rw [Effect.apply_manager, haccess] at hnodup
    exact absurd (hid ▸ hdrawn) (List.nodup_cons.mp hnodup).1
  · obtain ⟨i, r, t, t', spawned, rfl, ht, hruns, -⟩ := hsteps.runs_of_access (by rw [haccess]; simp)
    cases hruns with
    | renews peer k l hl =>
      cases haccess
      exact Or.inr ⟨i, r, peer, l, rfl, ht, hl, rfl⟩
    | _ => cases haccess

theorem mem_drawn_of_step (effect : Effect PeerId) {id : Uuid} (hid : id ∈ w.manager.drawn) :
    id ∈ (effect.apply w.toShared).manager.drawn := by
  rw [Effect.apply_manager]
  exact (effect.access.drawn_suffix w.manager).subset hid

/-- The timeout of a lease is not earlier than what has been promised for it. -/
theorem Timely.step_current (hI : Timely w h) (hsteps : Steps cfg w a effect tasks)
    (hfresh : Fresh (taken w a effect tasks)) (hsteady : Steady (taken w a effect tasks) h) {id : Uuid}
    {timeout : SystemTime} {lease : WorkerLease PeerId} (hpromised : Promised (taken w a effect tasks :: h) id timeout)
    (hlease : (effect.apply w.toShared).manager.ledger.lookup id = some lease) : timeout ≤ lease.timeout := by
  rcases hsteps.promised hpromised with hearlier | ⟨i, r, peer, old, -, -, -, -, rfl⟩
  · rcases lookup_of_drawn hsteps hfresh (hI.drawn id timeout hearlier) hlease with
      hold | ⟨i, r, peer, old, rfl, -, -, rfl⟩
    · exact hI.current id timeout lease hearlier hold
    · obtain ⟨e, he, now, hnow, rfl⟩ := hI.renewed id timeout hearlier
      have hle : now ≤ r.now := hsteady r.now rfl e he now hnow
      exact Nat.add_le_add_right hle leaseTimeout
  · have hfound : (w.manager.ledger.insert id { old with timeout := timeout }).lookup id = some lease := hlease
    rw [AList.lookup_insert] at hfound
    exact (congrArg Lease.timeout (Option.some.inj hfound)).le

/-- What is listed has expired. -/
theorem Timely.step_condemned (hI : Timely w h) (hsafe : Safe w) (hsteps : Steps cfg w a effect tasks)
    (hfresh : Fresh (taken w a effect tasks)) (hunlisted : RenewsUnlisted (taken w a effect tasks)) {u : Task PeerId}
    (hu : u ∈ tasks) {id : Uuid} (hid : id ∈ u.condemned) :
    id ∈ (effect.apply w.toShared).manager.drawn ∧
      ∀ lease, (effect.apply w.toShared).manager.ledger.lookup id = some lease →
        Passed (taken w a effect tasks :: h) lease.timeout := by
  -- what was listed before cannot have been renewed
  have hold : ∀ t ∈ w.tasks, id ∈ t.condemned →
      id ∈ (effect.apply w.toShared).manager.drawn ∧
        ∀ lease, (effect.apply w.toShared).manager.ledger.lookup id = some lease →
          Passed (taken w a effect tasks :: h) lease.timeout := by
    intro t ht hmem
    obtain ⟨hdrawn, hpassed⟩ := hI.condemned t ht id hmem
    refine ⟨mem_drawn_of_step effect hdrawn, fun lease hlease => ?_⟩
    rcases lookup_of_drawn hsteps hfresh hdrawn hlease with hsame | ⟨i, r, peer, old, rfl, hrun, hlookup, -⟩
    · exact (hpassed lease hsame).cons _
    · exact absurd hmem (hunlisted (.renewing peer id) hrun id rfl (Table.mem_of_lookup hlookup) t ht)
  rcases hsteps.mem_cases hu with hu | ⟨i, r, t, spawned, rfl, ht, hruns⟩ | hbegins
  · exact hold u hu hid
  · rcases hruns.condemned hid with hmem | ⟨lease, hlease, rfl⟩
    · exact hold t (List.mem_of_getElem? ht) hmem
    · obtain ⟨⟨k, hk⟩, hexpired⟩ := Ledger.mem_listExpired.mp hlease
      obtain rfl := hsafe.keyed.key k lease hk
      have hdrawn := hsafe.keyed.leases _ (Table.mem_of_lookup hk)
      refine ⟨mem_drawn_of_step effect hdrawn, fun lease' hlease' => ?_⟩
      rcases lookup_of_drawn hsteps hfresh hdrawn hlease' with hsame | ⟨j, r', peer, old, ha, hrun, -, -⟩
      · obtain rfl := Option.some.inj (hk.symm.trans hsame)
        exact ⟨_, List.mem_cons_self, r.now, rfl, hexpired⟩
      · obtain ⟨rfl, rfl⟩ := Happening.runs.inj ha
        obtain rfl := Option.some.inj (ht.symm.trans hrun)
        cases hruns with
        | renews peer k l hl => cases hid
        | renewMisses peer k hl => cases hid
  · cases hbegins with
    | batch batch =>
      rw [(nextRequest_idle _).1] at hid
      cases hid
    | _ => cases hid

/-- What has been removed as expired is gone, and what was promised for it has passed. -/
theorem Timely.step_sentenced (hI : Timely w h) (hsafe : Safe w) (hsteps : Steps cfg w a effect tasks)
    (hfresh : Fresh (taken w a effect tasks)) {u : Task PeerId} (hu : u ∈ tasks) {id : Uuid} (hid : id ∈ u.sentenced) :
    id ∈ (effect.apply w.toShared).manager.drawn ∧ id ∉ (effect.apply w.toShared).manager.ledger ∧
      ∀ timeout, Promised (taken w a effect tasks :: h) id timeout → Passed (taken w a effect tasks :: h) timeout := by
  have hold : ∀ t ∈ w.tasks, id ∈ t.sentenced →
      id ∈ (effect.apply w.toShared).manager.drawn ∧ id ∉ (effect.apply w.toShared).manager.ledger ∧
        ∀ timeout, Promised (taken w a effect tasks :: h) id timeout →
          Passed (taken w a effect tasks :: h) timeout := by
    intro t ht hmem
    obtain ⟨hdrawn, hgone, hpassed⟩ := hI.sentenced t ht id hmem
    have hnone : ∀ lease, w.manager.ledger.lookup id ≠ some lease := fun _ hl => hgone (Table.mem_of_lookup hl)
    refine ⟨mem_drawn_of_step effect hdrawn, fun hin => ?_, fun timeout hpromised => ?_⟩
    · obtain ⟨lease, hlease⟩ := Table.exists_lookup hin
      rcases lookup_of_drawn hsteps hfresh hdrawn hlease with hsame | ⟨i, r, peer, old, -, -, hlookup, -⟩
      · exact hnone lease hsame
      · exact hnone old hlookup
    · rcases hsteps.promised hpromised with hearlier | ⟨i, r, peer, old, -, -, hlookup, -, -⟩
      · exact (hpassed timeout hearlier).cons _
      · exact absurd hlookup (hnone old)
  rcases hsteps.mem_cases hu with hu | ⟨i, r, t, spawned, rfl, ht, hruns⟩ | hbegins
  · exact hold u hu hid
  · have hmemt := List.mem_of_getElem? ht
    rcases hruns.sentenced hid with hmem | ⟨k, lease, rfl, rfl, hlisted, hlease⟩
    · exact hold t hmemt hmem
    · obtain rfl := hsafe.keyed.key k lease hlease
      obtain ⟨hdrawn, hpassed⟩ := hI.condemned t hmemt _ hlisted
      refine ⟨hdrawn, fun hin => (AList.mem_erase.mp hin).1 rfl, fun timeout hpromised => ?_⟩
      rcases hsteps.promised hpromised with hearlier | ⟨j, r', peer, old, -, -, -, -, heffect⟩
      · have hle := hI.current lease.id timeout lease hearlier hlease
        obtain ⟨e, he, now, hnow, hexpired⟩ := hpassed lease hlease
        exact ⟨e, List.mem_cons_of_mem _ he, now, hnow, hle.trans hexpired⟩
      · cases heffect
  · cases hbegins with
    | batch batch =>
      rw [(nextRequest_idle _).2] at hid
      cases hid
    | _ => cases hid

theorem Timely.step (hI : Timely w h) (hsafe : Safe w) (hsteps : Steps cfg w a effect tasks)
    (hfresh : Fresh (taken w a effect tasks)) (hsteady : Steady (taken w a effect tasks) h)
    (hunlisted : RenewsUnlisted (taken w a effect tasks)) :
    Timely ⟨effect.apply w.toShared, tasks⟩ (taken w a effect tasks :: h) := by
  refine ⟨?_, ?_, ?_, ?_, ?_⟩
  · intro id timeout hpromised
    rcases hsteps.promised hpromised with hearlier | ⟨i, r, peer, lease, -, -, hlease, -, -⟩
    · exact mem_drawn_of_step effect (hI.drawn id timeout hearlier)
    · exact mem_drawn_of_step effect (hsafe.keyed.leases id (Table.mem_of_lookup hlease))
  · intro id timeout hpromised
    rcases hsteps.promised hpromised with hearlier | ⟨i, r, peer, lease, rfl, -, -, htimeout, -⟩
    · obtain ⟨e, he, hnow⟩ := hI.renewed id timeout hearlier
      exact ⟨e, List.mem_cons_of_mem _ he, hnow⟩
    · exact ⟨_, List.mem_cons_self, r.now, rfl, htimeout⟩
  · exact fun id timeout lease hpromised hlease => hI.step_current hsteps hfresh hsteady hpromised hlease
  · exact fun u hu id hid => hI.step_condemned hsafe hsteps hfresh hunlisted hu hid
  · exact fun u hu id hid => hI.step_sentenced hsafe hsteps hfresh hu hid

theorem Timely.honours (hI : Timely w h) (hsteps : Steps cfg w a effect tasks)
    (hsteady : Steady (taken w a effect tasks) h) : Honours (taken w a effect tasks) h := by
  rintro i r id timeout rfl hpromised
  refine ⟨fun rest removed lease htask houtput => ?_, fun job lease jobs leases x htask hlease houtput => ?_⟩
  · have htask : w.tasks[i]? = some (.pruning (.proceeding (.removing (.taking id) rest removed))) := htask
    obtain rfl := Option.some.inj houtput
    have hlookup : w.manager.ledger.lookup id = some lease := by
      cases hsteps with
      | runs i r t t' effect spawned ht hruns => exact (hruns.moves_of rfl).of_takes.2.2
    obtain ⟨-, hpassed⟩ := hI.condemned _ (List.mem_of_getElem? htask) id List.mem_cons_self
    exact (hI.current id timeout lease hpromised hlookup).trans ((hpassed lease hlookup).le hsteady rfl)
  · have htask : w.tasks[i]? = some (.pruning (.cancelling job (.linked lease jobs leases))) := htask
    obtain ⟨-, -, hpassed⟩ := hI.sentenced _ (List.mem_of_getElem? htask) lease.id List.mem_cons_self
    exact (hpassed timeout (hlease ▸ hpromised)).le hsteady rfl

end Step

theorem Timely.initial (cfg : Config) : Timely (Arbiter.initial cfg : Arbiter PeerId) [] := by
  have hno : ∀ id timeout, ¬ Promised ([] : List (ArbiterStep PeerId)) id timeout := by
    rintro id timeout ⟨e, he, -⟩
    cases he
  refine ⟨fun _ _ hp => ?_, fun _ _ hp => ?_, fun _ _ _ hp => ?_, fun t ht => ?_, fun t ht => ?_⟩
  · exact absurd hp (hno _ _)
  · exact absurd hp (hno _ _)
  · exact absurd hp (hno _ _)
  · cases ht
  · cases ht

theorem promised_refused {a : Happening PeerId} {id : Uuid} {timeout : SystemTime}
    (hpromised : Promised (refused w a :: h) id timeout) : Promised h id timeout := by
  obtain ⟨e, he, hanswer⟩ := hpromised
  rcases List.mem_cons.mp he with rfl | he
  · rw [answer?_refused] at hanswer
    cases hanswer
  · exact ⟨e, he, hanswer⟩

theorem Timely.cons_refused (hI : Timely w h) (a : Happening PeerId) : Timely w (refused w a :: h) := by
  refine ⟨fun id timeout hp => hI.drawn id timeout (promised_refused hp), fun id timeout hp => ?_,
    fun id timeout lease hp => hI.current id timeout lease (promised_refused hp), fun t ht id hid => ?_,
    fun t ht id hid => ?_⟩
  · obtain ⟨e, he, hnow⟩ := hI.renewed id timeout (promised_refused hp)
    exact ⟨e, List.mem_cons_of_mem _ he, hnow⟩
  · obtain ⟨hdrawn, hpassed⟩ := hI.condemned t ht id hid
    exact ⟨hdrawn, fun lease hlease => (hpassed lease hlease).cons _⟩
  · obtain ⟨hdrawn, hgone, hpassed⟩ := hI.sentenced t ht id hid
    exact ⟨hdrawn, hgone, fun timeout hp => (hpassed timeout (promised_refused hp)).cons _⟩

/-- **Renewals are honoured** if none is granted for a lease that a `proceed` in flight has listed as expired, with a
clock that does not go backwards and UUIDs that are not drawn twice. -/
theorem renewals_honoured (cfg : Config) (happenings : List (Happening PeerId))
    (hfresh : (run cfg happenings).state.manager.drawn.Nodup) (hsteady : Along Steady (run cfg happenings).history)
    (hunlisted : Along (fun e _ => RenewsUnlisted e) (run cfg happenings).history) :
    Along Honours (run cfg happenings).history := by
  refine (run_rule (fun w h => Safe w ∧ Timely w h) (fun e h => Fresh e ∧ Steady e h ∧ RenewsUnlisted e) Honours
    ⟨Safe.initial cfg, Timely.initial cfg⟩ ?_ ?_ happenings
    ((along_fresh happenings hfresh).and (hsteady.and hunlisted))).2
  · rintro w h a ⟨hsafe, hI⟩ -
    refine ⟨⟨hsafe, hI.cons_refused a⟩, fun i r id timeout _ _ => ⟨fun _ _ _ _ houtput => ?_, ?_⟩⟩
    · cases houtput
    · intro _ _ _ _ _ _ _ houtput
      cases houtput
  · rintro w h a effect tasks ⟨hsafe, hI⟩ hsteps ⟨hfresh, hsteady, hunlisted⟩
    exact ⟨⟨hsafe.step hsteps hfresh, hI.step hsafe hsteps hfresh hsteady hunlisted⟩, hI.honours hsteps hsteady⟩

/-- The lease is renewed in time; three minutes later it is removed, and the job cancelled. -/
def renewedInTime : List (Happening Nat) :=
  List.flatten [dispatched, [.renews 7 2, .runs 3 {}, .runs 3 {}, .ticks, .runs 4 { now := leaseTimeout },
    .runs 4 { now := leaseTimeout }, .runs 4 { now := leaseTimeout }, .runs 4 { now := leaseTimeout },
    .runs 4 { now := leaseTimeout }, .runs 4 { now := leaseTimeout }]]

theorem renewals_honoured_renewedInTime :
    (run fourCores renewedInTime).state.manager.drawn.Nodup ∧ Along Steady (run fourCores renewedInTime).history ∧
      Along (fun e _ => RenewsUnlisted e) (run fourCores renewedInTime).history ∧
      Along Honours (run fourCores renewedInTime).history := by
  have hfresh : (run fourCores renewedInTime).state.manager.drawn.Nodup := by decide +kernel
  have hsteady : Along Steady (run fourCores renewedInTime).history := by decide +kernel
  have hunlisted : Along (fun e _ => RenewsUnlisted e) (run fourCores renewedInTime).history := by decide +kernel
  exact ⟨hfresh, hsteady, hunlisted, renewals_honoured _ _ hfresh hsteady hunlisted⟩

/-- The prune loop lists the lease, and then it is renewed for three minutes. -/
def renewedTooLate : List (Happening Nat) :=
  List.flatten [dispatched, [.ticks, .runs 3 { now := offerTimeout }, .runs 3 { now := offerTimeout }, .renews 7 2,
    .runs 4 { now := offerTimeout }, .runs 4 { now := offerTimeout }]]

theorem renewedTooLate_removed :
    (run fourCores (renewedTooLate ++ [.runs 3 { now := offerTimeout }])).state.manager.drawn.Nodup ∧
      Along Steady (run fourCores (renewedTooLate ++ [.runs 3 { now := offerTimeout }])).history ∧
      ¬ Along Honours (run fourCores (renewedTooLate ++ [.runs 3 { now := offerTimeout }])).history := by
  refine ⟨by decide +kernel, by decide +kernel, fun hhonours => ?_⟩
  have hpromised : Promised (run fourCores renewedTooLate).history 2 (offerTimeout + leaseTimeout) := by decide +kernel
  have hlast := (along_last hhonours 3 { now := offerTimeout } 2 _ rfl hpromised).1 [] []
    ⟨2, ⟨7, 1⟩, offerTimeout + leaseTimeout⟩ (by decide +kernel) (by decide +kernel)
  exact absurd hlast (by decide +kernel)

end Hypha.Worker
