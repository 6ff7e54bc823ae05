import Mathlib.Tactic.Ring
import Hypha.Executor.Training
import Hypha.ParameterServer.Retry

/-!
# The outer optimization (`training.py`, `parameter_server.rs`)

Workers train on their own and send what has changed, weighted; the parameter server sums it, takes a Nesterov step and
sends an update that all workers add to the weights they had. Here the two sides meet, in exact arithmetic: PyTorch's
numbers are rational, and no type rounds them.

* `Contribution` : an update of a worker that has applied the same updates as the others and nothing else;
* `Federation` : the rounds of a parameter server that takes the contributions of each round;
* `diloco_recurrence` : the weights of all workers after every round;
* `federated_averaging` : without momentum they are the weighted mean of what the workers have trained;
* `retried_update` : what is sent when an update could not be sent at once.
-/

namespace Hypha.Executor.Diloco

open Hypha.Lib Hypha.Executor.Training Hypha.ParameterServer

variable {PeerId : Type}

/-- PyTorch without rounding, for tensors of the same shape. -/
def exactTorch : Torch (Tensor ℚ) Unit where
  shape := Tensor.shape
  dtype _ := ()
  isFloatingPoint _ := true
  cast x _ := x
  bfloat16 := id
  add := Tensor.add
  isub a b := a.add (b.scale (-1))
  imul a w := some (a.scale w.toRat)

theorem exactTorch_documented : exactTorch.Documented where
  shape_cast _ _ := rfl
  dtype_cast _ _ := rfl
  cast_dtype _ := rfl
  isub _ _ _ h := ⟨(Tensor.add_shape h).2, rfl⟩
  imul _ _ _ h := by
    obtain rfl := Option.some.inj h
    exact ⟨rfl, rfl⟩

/-- What an update of a name is weighted with. -/
def share (weight : Weight) (name : String) : ℚ :=
  if "num_batches_tracked".toList <:+: name.toList then 1 else weight.toRat

theorem difference_get {weight : Weight} {name : String} {x p d : Tensor ℚ}
    (h : difference exactTorch weight name x p = some d) :
    d.shape = x.shape ∧ ∀ i, d.get i = share weight name * (x.get i - p.get i) := by
  have hshape := (exactTorch_documented.difference h).1
  obtain ⟨x', hx', h⟩ := Option.bind_eq_some_iff.mp h
  have hget : ∀ i, x'.get i = x.get i - p.get i := fun i => by
    have hadd : x.add (p.scale (-1)) = some x' := hx'
    rw [Tensor.add_get hadd, Tensor.scale_get]
    ring
  refine ⟨hshape, fun i => ?_⟩
  unfold share
  split_ifs at h with hweight
  · obtain rfl := Option.some.inj h
    rw [if_neg hweight.2, ← hget]
    exact Tensor.scale_get _ _ _
  · obtain rfl := Option.some.inj h
    rw [hget]
    split_ifs with hname
    · rw [one_mul]
    · rw [not_not.mp fun hne => hweight ⟨hne, hname⟩, one_mul]

/-! ## Weights by their elements -/

/-- An element of the global weights. -/
def entry (weights : String → Option (Tensor ℚ)) (name : String) (i : Nat) : ℚ := (weights name).elim 0 (·.get i)

theorem entry_eq {weights : String → Option (Tensor ℚ)} {m : StateDict (Tensor ℚ)}
    (h : ∀ name, m.lookup name = weights name) (name : String) (i : Nat) : entry weights name i = element m name i := by
  unfold entry element
  rw [h]

section Contributions
variable (model : StateDict (Tensor ℚ))

/-- The global weights after some updates. -/
def weightsAfter (updates : List (StateDict (Tensor ℚ))) : String → Option (Tensor ℚ) :=
  globalWeights exactTorch model (updates.map .applied)

/-- A worker that has applied these updates, whatever else it was told to do, and sends one of its own. -/
structure Contribution (PeerId : Type) (updates : List (StateDict (Tensor ℚ))) where
  cfg : Setting
  files : String → Option (Training.Content (Tensor ℚ))
  inputs : List (Input (Tensor ℚ) PeerId)
  sound : ∀ input ∈ inputs, input.Sound exactTorch model
  synced : syncs ((trainer exactTorch cfg PeerId).run (launched model files) inputs).history = updates.map .applied
  target : Reference PeerId
  weight : Weight
  gradients : StateDict (Tensor ℚ)
  sends : (step exactTorch cfg ((trainer exactTorch cfg PeerId).run (launched model files) inputs).state
    (.sendUpdate (some target) weight (.ok ()))).2 = .sentUpdate gradients

variable {model} {updates : List (StateDict (Tensor ℚ))}

/-- What the worker has trained. -/
def Contribution.trained (c : Contribution model PeerId updates) : StateDict (Tensor ℚ) :=
  ((trainer exactTorch c.cfg PeerId).run (launched model c.files) c.inputs).state.model

theorem Contribution.kept (c : Contribution model PeerId updates) :
    Kept exactTorch model ((trainer exactTorch c.cfg PeerId).run (launched model c.files) c.inputs) :=
  (trainer_kept exactTorch c.cfg model c.files exactTorch_documented c.inputs c.sound).1

/-- What a contribution comes to. -/
theorem Contribution.gradients_spec (c : Contribution model PeerId updates) :
    SameLayout c.gradients model ∧ ∀ name ∈ model, ∀ i,
      element c.gradients name i =
        share c.weight name * (element c.trained name i - entry (weightsAfter model updates) name i) := by
  have hkept := c.kept
  have hsound : (Input.sendUpdate (some c.target) c.weight (.ok ()) : Input (Tensor ℚ) PeerId).Sound exactTorch model := trivial
  obtain ⟨target, weight, hinput, hmem, hlookup⟩ :=
    (hkept.next exactTorch c.cfg model exactTorch_documented hsound).2.update c.gradients c.sends
  cases hinput
  rw [c.synced] at hlookup
  have hspec : ∀ name x, model.lookup name = some x → ∃ y p d, c.trained.lookup name = some y ∧
      weightsAfter model updates name = some p ∧ c.gradients.lookup name = some d ∧ d.shape = x.shape ∧
      ∀ i, d.get i = share c.weight name * (y.get i - p.get i) := by
    intro name x hx
    obtain ⟨y, hy, hshape, -⟩ := hkept.alike.symm.exists_lookup hx
    obtain ⟨p, hp, -⟩ := hkept.exists_global hx
    rw [c.synced] at hp
    obtain ⟨d, hd, hgradients⟩ := hlookup name y p hy hp
    obtain ⟨hdshape, hget⟩ := difference_get hd
    exact ⟨y, p, d, hy, hp, hgradients, hdshape.trans hshape, hget⟩
  constructor
  · intro name
    cases hx : model.lookup name with
    | none =>
      have hnone := (hmem name).not.mpr (AList.lookup_eq_none.mp hx)
      rw [AList.lookup_eq_none.mpr hnone]
    | some x =>
      obtain ⟨y, p, d, -, -, hd, hshape, -⟩ := hspec name x hx
      rw [hd, Option.map_some, Option.map_some, hshape]
  · intro name hname i
    obtain ⟨x, hx⟩ := Table.exists_lookup hname
    obtain ⟨y, p, d, hy, hp, hd, -, hget⟩ := hspec name x hx
    rw [element_of_lookup hd, element_of_lookup hy, hget]
    unfold entry
    rw [hp]
    rfl

/-- The weights after one more update, where it has the layout of the model. -/
theorem entry_weightsAfter {update : StateDict (Tensor ℚ)} (hlayout : SameLayout update model)
    (hweights : ∀ name, (weightsAfter model updates name).map Tensor.shape = (model.lookup name).map Tensor.shape) :
    (∀ name, (weightsAfter model (updates ++ [update]) name).map Tensor.shape =
        (model.lookup name).map Tensor.shape) ∧
      ∀ name ∈ model, ∀ i, entry (weightsAfter model (updates ++ [update])) name i =
        entry (weightsAfter model updates) name i + element update name i := by
  have hstep : ∀ name, weightsAfter model (updates ++ [update]) name =
      synchronize exactTorch model (weightsAfter model updates) (.applied update) name := by
    intro name
    unfold weightsAfter globalWeights
    rw [List.map_append, List.foldl_append]
    rfl
  have hspec : ∀ name x, model.lookup name = some x → ∃ p g t, weightsAfter model updates name = some p ∧
      update.lookup name = some g ∧ weightsAfter model (updates ++ [update]) name = some t ∧ t.shape = x.shape ∧
      ∀ i, t.get i = p.get i + g.get i := by
    intro name x hx
    have hshape := hweights name
    rw [hx] at hshape
    obtain ⟨p, hp, hpx⟩ := Option.map_eq_some_iff.mp hshape
    obtain ⟨g, hg, hgx⟩ := hlayout.symm.symm.exists_lookup hx
    obtain ⟨t, ht⟩ := Tensor.exists_add (hpx.trans hgx)
    refine ⟨p, g, t, hp, hg, ?_, (Tensor.add_shape ht).2.trans hpx, Tensor.add_get ht⟩
    have hadd : exactTorch.add p (exactTorch.cast g (exactTorch.dtype p)) = some t := ht
    rw [hstep]
    simp only [synchronize, hp, hg, hadd, hx, Option.bind_eq_bind, Option.bind_some]
    rfl
  constructor
  · intro name
    cases hx : model.lookup name with
    | none =>
      have hnone := hweights name
      rw [hx] at hnone
      rw [hstep]
      simp only [synchronize, Option.map_eq_none_iff.mp hnone, Option.bind_eq_bind, Option.bind_none]
    | some x =>
      obtain ⟨p, g, t, -, -, ht, hshape, -⟩ := hspec name x hx
      rw [ht, Option.map_some, Option.map_some, hshape]
  · intro name hname i
    obtain ⟨x, hx⟩ := Table.exists_lookup hname
    obtain ⟨p, g, t, hp, hg, ht, -, hget⟩ := hspec name x hx
    rw [element_of_lookup hg]
    unfold entry
    rw [ht, hp]
    exact hget i

end Contributions

/-! ## The rounds of the parameter server -/

/-- What a file of the work directory has, or nothing. -/
def tensorsAt (dir : WorkDir ℚ) (f : FileName) : StateDict (Tensor ℚ) :=
  match dir f with
  | some (.tensors m) => m
  | _ => ∅

/-- Calls of the parameter server, of which nothing is known but that the momentum is left alone between them. -/
structure Rounds (PeerId : Type) where
  digest : String → BitVec 256
  server : Nat → Server PeerId ℚ
  call : Nat → Call PeerId ℚ

section Server
variable [DecidableEq PeerId]

/-- The update of round `k`. -/
def Rounds.update (rounds : Rounds PeerId) (k : Nat) : StateDict (Tensor ℚ) :=
  tensorsAt (aggregateUpdates rounds.digest (rounds.call k) (rounds.server k)).1.dir .gradientUpdate

/-- The updates of the rounds before round `k`. -/
def Rounds.updates (rounds : Rounds PeerId) (k : Nat) : List (StateDict (Tensor ℚ)) :=
  (List.range k).map rounds.update

/-- The workers and the parameter server over some rounds: in round `k` the server takes contributions of workers that have
applied the updates of the rounds before. -/
structure Federation (PeerId : Type) [DecidableEq PeerId] extends Rounds PeerId where
  model : StateDict (Tensor ℚ)
  momentum : ℚ
  learningRate : ℚ
  rounds : Nat
  contributions : (k : Nat) → List (Contribution model PeerId (toRounds.updates k))
  coefficients : ∀ k < rounds, (call k).momentum = momentum ∧ (call k).learningRate = learningRate
  fresh : ∀ k < rounds, (server k).Fresh
  apart : ∀ k < rounds, TellsApart digest ((call k).taken (server k))
  ended : ∀ k < rounds, (call k).ending (server k) = .finished
  takes : ∀ k < rounds, contentsOf ((call k).taken (server k)) = (contributions k).map fun c => ofTensors c.gradients
  some_contribution : ∀ k < rounds, contributions k ≠ []
  some_name : ∃ name, name ∈ model
  first : (server 0).dir .momentum = none
  next : ∀ k, k + 1 < rounds →
    (server (k + 1)).dir .momentum = (aggregateUpdates digest (call k) (server k)).1.dir .momentum

namespace Federation
variable (f : Federation PeerId)

/-- The weights of all workers that have applied the updates of `k` rounds. -/
def weights (k : Nat) : String → Option (Tensor ℚ) := weightsAfter f.model (f.updates k)

/-- The weighted sum of what the workers have trained in round `k`. -/
def progress (name : String) (i : Nat) (k : Nat) : ℚ :=
  ((f.contributions k).map fun c => share c.weight name * (element c.trained name i - entry (f.weights k) name i)).sum

/-- What the optimizer is called with in round `k`. -/
def total (k : Nat) : StateDict (Tensor ℚ) := tensorsAt (gather f.digest (f.call k) (f.server k)).1.dir .avgFinal

variable {f} {k : Nat}

theorem tensorsAt_eq {dir : WorkDir ℚ} {file : FileName} {m : StateDict (Tensor ℚ)} (h : dir file = some (.tensors m)) :
    tensorsAt dir file = m := by
  unfold tensorsAt
  rw [h]

theorem maps_eq (hk : k < f.rounds) :
    (∀ u ∈ (f.call k).taken (f.server k), u.2.content = ofTensors u.2.tensors) ∧
      mapsOf ((f.call k).taken (f.server k)) = (f.contributions k).map fun c => c.gradients := by
  have htakes := f.takes k hk
  have hreadable : ∀ u ∈ (f.call k).taken (f.server k), u.2.content = ofTensors u.2.tensors := by
    intro u hu
    have hmem : u.2.content ∈ (f.contributions k).map fun c => ofTensors c.gradients :=
      htakes ▸ List.mem_map_of_mem hu
    obtain ⟨c, -, hc⟩ := List.mem_map.mp hmem
    rw [StagedFile.tensors_of_content hc.symm, hc]
  refine ⟨hreadable, List.map_injective_iff.mpr ofTensors_injective ?_⟩
  rw [← contentsOf_of_readable hreadable, htakes, List.map_map]
  rfl

/-- The optimizer gets the sum of the contributions. -/
theorem total_spec (hk : k < f.rounds) :
    (gather f.digest (f.call k) (f.server k)).2 = some (.ok ()) ∧
      (gather f.digest (f.call k) (f.server k)).1.dir .avgFinal = some (.tensors (f.total k)) ∧
      (gather f.digest (f.call k) (f.server k)).1.dir .momentum = (f.server k).dir .momentum ∧
      Set.InjOn f.digest {name | name ∈ f.total k} ∧ SameLayout (f.total k) f.model ∧
      ∀ name ∈ f.model, ∀ i, element (f.total k) name i = f.progress name i k := by
  obtain ⟨hreadable, hmaps⟩ := maps_eq hk
  have hne : (f.call k).taken (f.server k) ≠ [] := by
    intro hnil
    rw [hnil] at hmaps
    exact f.some_contribution k hk (List.map_eq_nil_iff.mp hmaps.symm)
  have hlayouts : ∀ m ∈ mapsOf ((f.call k).taken (f.server k)), SameLayout m f.model := by
    rw [hmaps]
    exact List.forall_mem_map.mpr fun c _ => c.gradients_spec.1
  obtain ⟨name, hname⟩ := f.some_name
  have hfitting : Fitting (mapsOf ((f.call k).taken (f.server k))) :=
    .of_sameShapes (fun _ => ⟨name, fun m hm => ((hlayouts m hm).mem_iff name).mpr hname⟩)
      fun a ha b hb => ((hlayouts a ha).trans (hlayouts b hb).symm).sameShapes
  obtain ⟨total, hsum, hok, hfinal, hframe⟩ :=
    gather_sum (f.fresh k hk) (f.apart k hk) (f.ended k hk) hne (fittingContents_iff.mpr ⟨hreadable, hfitting⟩)
  obtain rfl : f.total k = total := tensorsAt_eq hfinal
  refine ⟨hok, hfinal, hframe .momentum rfl nofun, injOn_sum (f.apart k hk) hne hreadable hsum, ?_, ?_⟩
  · obtain ⟨m, hm⟩ := List.exists_mem_of_ne_nil _ (fun h => hne (List.map_eq_nil_iff.mp h) : mapsOf _ ≠ [])
    intro name
    by_cases hname : name ∈ f.model
    · obtain ⟨t, ht⟩ := Table.exists_lookup ((hsum.mem_iff name).mpr fun m hm => ((hlayouts m hm).mem_iff name).mpr hname)
      obtain ⟨x, hx⟩ := Table.exists_lookup (((hlayouts m hm).mem_iff name).mpr hname)
      rw [← hlayouts m hm name, ht, hx, Option.map_some, Option.map_some, hsum.shape name t ht m hm x hx]
    · have hnone : name ∉ f.total k := fun h => hname (((hlayouts m hm).mem_iff name).mp ((hsum.mem_iff name).mp h m hm))
      rw [AList.lookup_eq_none.mpr hnone, AList.lookup_eq_none.mpr hname]
  · intro name hname i
    rw [hsum.element name ((hsum.mem_iff name).mpr fun m hm => ((hlayouts m hm).mem_iff name).mpr hname), hmaps,
      List.map_map]
    unfold progress
    exact congrArg List.sum (List.map_congr_left fun c _ => c.gradients_spec.2 name hname i)

/-- The optimizer's call of each round. -/
def optimizerRounds (f : Federation PeerId) (k : Nat) : Round ℚ where
  gradientFile := .avgFinal
  isInput := rfl
  gradient := f.total k
  momentumRank := (f.call k).momentumRank
  updateRank := (f.call k).updateRank
  others := (gather f.digest (f.call k) (f.server k)).1.dir

/-- What it comes to. -/
def optimized (f : Federation PeerId) (k : Nat) : WorkDir ℚ × Except Failure FileName :=
  nesterov f.digest f.momentum f.learningRate (f.call k).momentumRank (f.call k).updateRank
    (gather f.digest (f.call k) (f.server k)).1.dir (.named .avgFinal)

/-- After a call that succeeds, everything but the optimizer's input is as the optimizer left it. -/
theorem aggregated (hk : k < f.rounds) (h : (f.optimized k).2 = .ok .gradientUpdate) :
    (aggregateUpdates f.digest (f.call k) (f.server k)).2 = some (.ok .gradientUpdate) ∧
      ∀ file, file ≠ .avgFinal →
        (aggregateUpdates f.digest (f.call k) (f.server k)).1.dir file = (f.optimized k).1 file := by
  have hgather := (total_spec hk).1
  obtain ⟨hmomentum, hrate⟩ := f.coefficients k hk
  unfold optimized at h ⊢
  unfold aggregateUpdates
  rcases hg : gather f.digest (f.call k) (f.server k) with ⟨s', result⟩
  rw [hg] at hgather h
  obtain rfl : result = some (.ok ()) := hgather
  dsimp only at h ⊢
  rw [hmomentum, hrate]
  rcases hn : nesterov f.digest f.momentum f.learningRate (f.call k).momentumRank (f.call k).updateRank s'.dir
    (.named .avgFinal) with ⟨dir, result⟩
  rw [hn] at h
  obtain rfl : result = .ok .gradientUpdate := h
  exact ⟨rfl, fun file hfile => Function.update_of_ne hfile _ _⟩

theorem sameLayout_total {j : Nat} (hj : j < f.rounds) (hk : k < f.rounds) : SameLayout (f.total j) (f.total k) :=
  (total_spec hj).2.2.2.2.1.trans (total_spec hk).2.2.2.2.1.symm

theorem exists_total (hk : k < f.rounds) : ∃ name, name ∈ f.total k := by
  obtain ⟨name, hname⟩ := f.some_name
  exact ⟨name, ((total_spec hk).2.2.2.2.1.mem_iff name).mpr hname⟩

/-- The momentum of the optimizer follows its recurrence, round after round. -/
theorem follows (hk : k < f.rounds) :
    Follows f.momentum f.learningRate f.optimizerRounds k (f.optimized k) := by
  induction k with
  | zero =>
    obtain ⟨name, hname⟩ := exists_total hk
    obtain ⟨-, hfinal, hmomentum, hinj, -, -⟩ := total_spec hk
    have hcalled : Called f.momentum f.learningRate (f.optimizerRounds 0).gradient (f.optimizerRounds 0).gradient
        (f.optimized 0) := nesterov_first rfl (hmomentum.trans f.first) hfinal hinj
    exact hcalled.follows (fun _ => rfl) ⟨name, hname, hname⟩ fun _ _ _ => rfl
  | succ k ih =>
    have hk' := Nat.lt_of_succ_lt hk
    specialize ih hk'
    obtain ⟨name, hname⟩ := exists_total hk
    obtain ⟨-, hfinal, hmomentum, hinj, -, -⟩ := total_spec hk
    obtain ⟨M, hM, hMlayout, helements⟩ := ih.kept
    have hnext : SameLayout (f.optimizerRounds (k + 1)).gradient (f.optimizerRounds k).gradient :=
      sameLayout_total hk hk'
    have hprevious := hMlayout.trans hnext.symm
    have hmeets : Meets (f.optimizerRounds (k + 1)).gradient M := ⟨name, hname, (hprevious.mem_iff name).mpr hname⟩
    have hkept := (aggregated hk' ih.returned).2 .momentum nofun
    have hcall : ∃ M', Combined (momentumOp f.momentum) (f.optimizerRounds (k + 1)).gradient M M' ∧
        Called f.momentum f.learningRate (f.optimizerRounds (k + 1)).gradient M' (f.optimized (k + 1)) :=
      nesterov_next rfl (hmomentum.trans ((f.next k hk).trans (hkept.trans hM))) hfinal hinj hprevious.symm.sameShapes hmeets
    obtain ⟨M', hM', hcalled⟩ := hcall
    obtain ⟨hlayout', helements'⟩ := velocity_next hMlayout hnext helements hM'
    exact Called.follows hcalled hlayout' ⟨name, hname, (hlayout'.mem_iff name).mpr hname⟩ helements'

omit [DecidableEq PeerId] in
/-- The velocity depends on what came before. -/
theorem velocity_congr {momentum : ℚ} {g g' : Nat → ℚ} : ∀ {k : Nat}, (∀ j ≤ k, g j = g' j) →
    velocity momentum g k = velocity momentum g' k
  | 0, h => h 0 le_rfl
  | k + 1, h => by
    unfold velocity
    rw [velocity_congr fun j hj => h j (Nat.le_succ_of_le hj), h (k + 1) le_rfl]

/-- The update of a round. -/
theorem update_spec (hk : k < f.rounds) :
    (aggregateUpdates f.digest (f.call k) (f.server k)).2 = some (.ok .gradientUpdate) ∧
      SameLayout (f.update k) f.model ∧ ∀ name ∈ f.model, ∀ i, element (f.update k) name i =
        f.learningRate * (f.momentum * velocity f.momentum (f.progress name i) k + f.progress name i k) := by
  have hfollows := follows hk
  obtain ⟨hok, hfiles⟩ := aggregated hk hfollows.returned
  obtain ⟨U, hU, hlayout, helements⟩ := hfollows.update
  obtain rfl : f.update k = U := tensorsAt_eq ((hfiles .gradientUpdate nofun).trans hU)
  have htotal := (total_spec hk).2.2.2.2.1
  refine ⟨hok, hlayout.trans htotal, fun name hname i => ?_⟩
  rw [helements name ((htotal.mem_iff name).mpr hname)]
  have hsum : ∀ j ≤ k, elements f.optimizerRounds name i j = f.progress name i j := fun j hj =>
    (total_spec (Nat.lt_of_le_of_lt hj hk)).2.2.2.2.2 name hname i
  rw [hsum k le_rfl, velocity_congr hsum]

theorem updates_succ (f : Federation PeerId) (k : Nat) : f.updates (k + 1) = f.updates k ++ [f.update k] := by
  unfold Rounds.updates
  rw [List.range_succ, List.map_append]
  rfl

/-- The weights of all rounds have the layout of the model. -/
theorem weights_shaped (hk : k ≤ f.rounds) :
    ∀ name, (f.weights k name).map Tensor.shape = (f.model.lookup name).map Tensor.shape := by
  induction k with
  | zero => exact fun _ => rfl
  | succ k ih =>
    unfold weights
    rw [f.updates_succ]
    exact (entry_weightsAfter (update_spec hk).2.1 (ih (Nat.le_of_succ_le hk))).1

theorem weights_succ (hk : k < f.rounds) {name : String} (hname : name ∈ f.model) (i : Nat) :
    entry (f.weights (k + 1)) name i = entry (f.weights k) name i +
      f.learningRate * (f.momentum * velocity f.momentum (f.progress name i) k + f.progress name i k) := by
  obtain ⟨-, hlayout, helements⟩ := update_spec hk
  rw [← helements name hname i]
  unfold weights
  rw [f.updates_succ]
  exact (entry_weightsAfter hlayout (weights_shaped hk.le)).2 name hname i

end Federation

/-- A worker that was told anything, as long as it has applied the updates of `k` rounds and nothing else, has the weights
of that round. -/
def Federation.Shared (f : Federation PeerId) (k : Nat) : Prop :=
  ∀ cfg files (inputs : List (Input (Tensor ℚ) PeerId)), (∀ input ∈ inputs, input.Sound exactTorch f.model) →
    syncs ((trainer exactTorch cfg PeerId).run (launched f.model files) inputs).history = (f.updates k).map .applied →
      ∃ m, ((trainer exactTorch cfg PeerId).run (launched f.model files) inputs).state.files CURRENT_MODEL_NAME =
          some (.tensors m) ∧ ∀ name, m.lookup name = f.weights k name

theorem Federation.shared (f : Federation PeerId) (k : Nat) : f.Shared k := by
  intro cfg files inputs hsound hsynced
  obtain ⟨m, hm, hlookup⟩ := (trainer_kept exactTorch cfg f.model files exactTorch_documented inputs hsound).1.file
  rw [hsynced] at hlookup
  exact ⟨m, hm, hlookup⟩

theorem sum_map_mul_sub {α : Type} (w x : α → ℚ) (y : ℚ) : ∀ l : List α,
    (l.map fun a => w a * (x a - y)).sum = (l.map fun a => w a * x a).sum - (l.map w).sum * y
  | [] => by simp
  | a :: l => by
    simp only [List.map_cons, List.sum_cons, sum_map_mul_sub w x y l]
    ring

/-- **Federated averaging**: without momentum, at rate one and with weights that sum to one, the weights after a round are
the weighted mean of what the workers have trained. -/
theorem federated_averaging (f : Federation PeerId) (k : Nat) (hk : k < f.rounds) (hmomentum : f.momentum = 0)
    (hrate : f.learningRate = 1) (hweights : ((f.contributions k).map fun c => c.weight.toRat).sum = 1)
    (name : String) (hname : name ∈ f.model)
    (htracked : ¬ "num_batches_tracked".toList <:+: name.toList) (i : Nat) :
    entry (f.weights (k + 1)) name i = ((f.contributions k).map fun c => c.weight.toRat * element c.trained name i).sum := by
  have hshare : ∀ c : Contribution f.model PeerId (f.updates k), share c.weight name = c.weight.toRat := fun _ =>
    if_neg htracked
  rw [Federation.weights_succ hk hname i, hmomentum, hrate, zero_mul, zero_add, one_mul]
  unfold Federation.progress
  simp only [hshare]
  rw [sum_map_mul_sub, hweights]
  ring

end Server

/-! ## Updates that are sent again -/

section Retry
variable {x p : Tensor ℚ} {weight : Weight} {name : String} {t : Trainer (Tensor ℚ)}
  {previous changed : StateDict (Tensor ℚ)}

theorem exists_difference (weight : Weight) (name : String) (hshape : x.shape = p.shape) :
    ∃ d, difference exactTorch weight name x p = some d := by
  have hsub : ∃ d, x.add (p.scale (-1)) = some d := Tensor.exists_add hshape
  obtain ⟨d, hd⟩ := hsub
  have hisub : exactTorch.isub x (exactTorch.cast p (exactTorch.dtype x)) = some d := hd
  unfold difference
  rw [hisub, Option.bind_eq_bind, Option.bind_some]
  split_ifs
  · exact ⟨_, rfl⟩
  · exact ⟨_, rfl⟩

/-- What has the layout of the file can be compared with it, and keeps it. -/
theorem exists_differences (weight : Weight) (hlayout : SameLayout t.model previous) :
    ∃ changed, differences exactTorch t.model previous weight = some changed ∧ SameLayout changed previous ∧
      ∀ name ∈ previous, ∀ i, element changed name i =
        share weight name * (element t.model name i - element previous name i) := by
  have hsome : ∀ name x, t.model.lookup name = some x →
      (((previous.lookup name).map (difference exactTorch weight name x)).getD (some x)).isSome := by
    intro name x hx
    obtain ⟨p, hp, hshape⟩ := hlayout.symm.exists_lookup hx
    obtain ⟨d, hd⟩ := exists_difference weight name hshape
    rw [hp, Option.map_some, Option.getD_some, hd]
    rfl
  obtain ⟨changed, hchanged⟩ := Table.exists_traverse hsome
  have hdifferences : differences exactTorch t.model previous weight = some changed :=
    (if_pos fun name hname => (hlayout.mem_iff name).mpr (AList.mem_keys.mpr hname)).trans hchanged
  refine ⟨changed, hdifferences, fun name => ?_, fun name hname i => ?_⟩
  · have halike := congrArg (Option.map Prod.fst) (exactTorch_documented.alike_differences hdifferences name)
    rw [Option.map_map, Option.map_map] at halike
    exact Eq.trans halike (hlayout name)
  · obtain ⟨p, hp⟩ := Table.exists_lookup hname
    obtain ⟨x, hx, hshape⟩ := hlayout.exists_lookup hp
    obtain ⟨d, hd⟩ := exists_difference weight name hshape.symm
    have hlookup := Table.lookup_of_traverse hchanged name
    rw [hx, Option.bind_some, hp, Option.map_some, Option.getD_some, hd] at hlookup
    rw [element_of_lookup hlookup, element_of_lookup hx, element_of_lookup hp, (difference_get hd).2]

/-- `bfloat16` rounds nothing here. -/
theorem extractGradients_of_differences (h : differences exactTorch t.model previous weight = some changed) :
    ∃ gradients, extractGradients exactTorch t.model previous weight = some gradients ∧
      ∀ name, gradients.lookup name = changed.lookup name := by
  refine ⟨_, congrArg (Option.map _) h, fun name => ?_⟩
  rw [Table.lookup_mapValues]
  cases changed.lookup name with
  | none => rfl
  | some d =>
    rw [Option.map_some]
    split_ifs <;> rfl

/-- A turn that sends an update, or tries to. -/
theorem step_sendUpdate (cfg : Setting) {gradients : StateDict (Tensor ℚ)} (hphase : t.phase = .running)
    (hfile : t.files CURRENT_MODEL_NAME = some (.tensors previous))
    (h : differences exactTorch t.model previous weight = some changed)
    (hgradients : extractGradients exactTorch t.model previous weight = some gradients) (target : Reference PeerId) :
    (∀ exc, (step exactTorch cfg t (.sendUpdate (some target) weight (.error exc))).1.phase = .running ∧
      (step exactTorch cfg t (.sendUpdate (some target) weight (.error exc))).1.files CURRENT_MODEL_NAME =
        some (.tensors previous) ∧
      (step exactTorch cfg t (.sendUpdate (some target) weight (.error exc))).1.model =
        if cfg.cpu then changed else t.model) ∧
    (step exactTorch cfg t (.sendUpdate (some target) weight (.ok ()))).2 = .sentUpdate gradients := by
  have hopened := Trainer.opened_iff.mpr hfile
  have hne := (localGradientsName_ne t.epochCounter).symm
  simp only [step, sendUpdate, hopened, h, hgradients, hphase, ne_eq, not_true_eq_false, if_false]
  exact ⟨fun _ => ⟨rfl, (Trainer.write_ne hne).trans hfile, rfl⟩, trivial⟩

/-- What a weighted difference becomes when it is taken for the trained weight, again and again. -/
def compounded (weight x p : ℚ) : Nat → ℚ
  | 0 => weight * (x - p)
  | failures + 1 => compounded weight (weight * (x - p)) p failures

/-- **An update that is sent again** after some failures is the same update, unless the model is on the CPU: there it has
taken the place of the trained weights. -/
theorem retried_update (t : Trainer (Tensor ℚ)) (hphase : t.phase = .running)
    (hfile : t.files CURRENT_MODEL_NAME = some (.tensors previous)) (hlayout : SameLayout t.model previous)
    (cfg : Setting) (weight : Weight) (target : Reference PeerId) (failures : List String) :
    ∃ gradients, (step exactTorch cfg ((trainer exactTorch cfg PeerId).run t
        (failures.map fun exc => .sendUpdate (some target) weight (.error exc))).state
        (.sendUpdate (some target) weight (.ok ()))).2 = .sentUpdate gradients ∧
      ∀ name ∈ previous, ∀ i, element gradients name i =
        if cfg.cpu then
          compounded (share weight name) (element t.model name i) (element previous name i) failures.length
        else share weight name * (element t.model name i - element previous name i) := by
  induction failures generalizing t with
  | nil =>
    obtain ⟨changed, hchanged, -, helements⟩ := exists_differences weight hlayout
    obtain ⟨gradients, hgradients, hlookup⟩ := extractGradients_of_differences hchanged
    have hsent := (step_sendUpdate cfg hphase hfile hchanged hgradients target).2
    refine ⟨gradients, hsent, fun name hname i => ?_⟩
    have helement : element gradients name i = element changed name i := by
      unfold element
      rw [hlookup]
    rw [helement, helements name hname i]
    split_ifs <;> rfl
  | cons exc failures ih =>
    obtain ⟨changed, hchanged, hchangedLayout, helements⟩ := exists_differences weight hlayout
    obtain ⟨_, hgradients, -⟩ := extractGradients_of_differences hchanged
    obtain ⟨hphase', hfile', hmodel'⟩ := (step_sendUpdate cfg hphase hfile hchanged hgradients target).1 exc
    rw [List.map_cons, Machine.run_cons_state]
    have hlayout' : SameLayout (if cfg.cpu = true then changed else t.model) previous := by
      split_ifs
      · exact hchangedLayout
      · exact hlayout
    obtain ⟨gradients, hsent, hget⟩ := ih _ hphase' hfile' (hmodel' ▸ hlayout')
    refine ⟨gradients, hsent, fun name hname i => (hget name hname i).trans ?_⟩
    rw [hmodel']
    by_cases hcpu : cfg.cpu = true
    · simp only [hcpu, if_true, helements name hname i]
      rfl
    · simp only [hcpu, Bool.false_eq_true, if_false]

end Retry

/-! ## Two workers -/

theorem length_singleton (x : ℚ) : [x].length = [1].prod := rfl

def testWeights (x : ℚ) : StateDict (Tensor ℚ) := AList.singleton "weight" ⟨[1], [x], length_singleton x⟩

theorem testWeights_sameLayout (x y : ℚ) : SameLayout (testWeights x) (testWeights y) := fun name => by
  unfold testWeights
  rw [Table.lookup_singleton, Table.lookup_singleton]
  split_ifs <;> rfl

theorem testWeights_alike (x y : ℚ) : Alike exactTorch (testWeights x) (testWeights y) := fun name => by
  unfold testWeights
  rw [Table.lookup_singleton, Table.lookup_singleton]
  split_ifs <;> rfl

/-- It has trained the weights to `x`. -/
def testTrainer (cpu : Bool) (x : ℚ) : Trainer (Tensor ℚ) :=
  ((trainer exactTorch ⟨32, cpu⟩ Nat).run (launched (testWeights 1) fun _ => none)
    [.executeBatch 1 [(testWeights x, 1/2)]]).state

theorem testTrainer_file (cpu : Bool) (x : ℚ) :
    (testTrainer cpu x).files CURRENT_MODEL_NAME = some (.tensors (testWeights 1)) :=
  launched_file (testWeights 1) fun _ => none

/-- On the CPU, nothing is left of an update that could not be sent at once. -/
theorem retried_update_cpu : ∃ gradients, (step exactTorch ⟨32, true⟩ ((trainer exactTorch ⟨32, true⟩ Nat).run
      (testTrainer true 3) [.sendUpdate (some (.peers [9] .one none)) ⟨1, 2⟩ (.error "timed out")]).state
      (.sendUpdate (some (.peers [9] .one none)) ⟨1, 2⟩ (.ok ()))).2 = .sentUpdate gradients ∧
    element gradients "weight" 0 = 0 := by
  obtain ⟨gradients, hsent, hget⟩ := retried_update (testTrainer true 3) rfl (testTrainer_file _ _)
    (testWeights_sameLayout _ _) ⟨32, true⟩ ⟨1, 2⟩ (.peers [9] .one none) ["timed out"]
  exact ⟨gradients, hsent, (hget "weight" (by decide) 0).trans (by decide +kernel)⟩

/-- What it sends with the weight one half. -/
def testGradients (x : ℚ) : StateDict (Tensor ℚ) :=
  (extractGradients exactTorch (testWeights x) (testWeights 1) ⟨1, 2⟩).getD ∅

def testContribution (x : ℚ) : Contribution (testWeights 1) Nat [] where
  cfg := ⟨32, false⟩
  files _ := none
  inputs := [.executeBatch 1 [(testWeights x, 1/2)]]
  sound := by
    simp only [List.forall_mem_singleton, Input.Sound]
    exact testWeights_alike _ _
  synced := rfl
  target := .peers [9] .one none
  weight := ⟨1, 2⟩
  gradients := testGradients x
  sends := by
    obtain ⟨changed, hchanged, -, -⟩ :=
      exists_differences (t := testTrainer false x) ⟨1, 2⟩ (testWeights_sameLayout x 1)
    obtain ⟨gradients, hgradients, -⟩ := extractGradients_of_differences hchanged
    have htest : testGradients x = gradients := congrArg (Option.getD · ∅) hgradients
    rw [htest]
    exact (step_sendUpdate ⟨32, false⟩ rfl (testTrainer_file _ _) hchanged hgradients _).2

def testFile (uuid : Nat) (x : ℚ) : StagedFile ℚ := ⟨uuid, ofTensors (testGradients x)⟩

def testRounds : Rounds Nat where
  digest := testDigest
  server _ := ⟨AList.insert 1 [testFile 10 3] (AList.singleton 2 [testFile 20 2]), fun _ => none, 0, []⟩
  call _ := ⟨[1, 2], 0, 1, [⟨[], id, fun _ => 0, .notified⟩, ⟨[], id, fun _ => 0, .notified⟩], [], fun _ => 0, fun _ => 0⟩

theorem testRounds_taken (k : Nat) :
    (testRounds.call k).taken (testRounds.server k) = [(1, testFile 10 3), (2, testFile 20 2)] := rfl

/-- One worker has trained the weights to 3, the other to 2. -/
def testFederation : Federation Nat where
  toRounds := testRounds
  model := testWeights 1
  momentum := 0
  learningRate := 1
  rounds := 1
  contributions
    | 0 => [testContribution 3, testContribution 2]
    | _ + 1 => []
  coefficients _ _ := ⟨rfl, rfl⟩
  fresh _ _ _ _ := rfl
  apart k _ u hu m hm := by
    have htensors : ∃ x, m = testGradients x := by
      rw [testRounds_taken] at hu
      simp only [List.mem_cons, List.not_mem_nil, or_false] at hu
      rcases hu with rfl | rfl
      · exact ⟨3, ofTensors_injective hm.symm⟩
      · exact ⟨2, ofTensors_injective hm.symm⟩
    obtain ⟨x, rfl⟩ := htensors
    intro a ha b hb _
    have hlayout := (testContribution x).gradients_spec.1
    have hname : ∀ n ∈ testGradients x, n = "weight" := fun n hn =>
      List.mem_singleton.mp ((hlayout.mem_iff n).mp hn)
    rw [hname a ha, hname b hb]
  ended _ _ := rfl
  takes k hk := by
    obtain rfl := Nat.lt_one_iff.mp hk
    rfl
  some_contribution k hk := by
    obtain rfl := Nat.lt_one_iff.mp hk
    exact List.cons_ne_nil _ _
  some_name := ⟨"weight", List.mem_singleton_self _⟩
  first := rfl
  next k hk := absurd hk (by omega)

/-- Their mean is two and a half. -/
theorem federated_averaging_test : entry (testFederation.weights 1) "weight" 0 = 5 / 2 :=
  (federated_averaging testFederation 0 Nat.one_pos rfl rfl (by decide +kernel) "weight" (List.mem_singleton_self _)
    (by decide +kernel) 0).trans (by decide +kernel)

end Hypha.Executor.Diloco
