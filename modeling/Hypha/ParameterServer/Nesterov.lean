import Mathlib.Algebra.Field.Rat
import Mathlib.Algebra.Ring.Rat
import Hypha.ParameterServer.TensorOp

/-!
# The optimizer (`parameter_server.rs`)

`nesterov` takes a file of gradients, updates the momentum in the file `momentum` of the work directory and writes the
update to `gradient_update`. The first call copies the gradients to the momentum.

* `updateMomentum`, `nesterov` : the functions, with the order in which the tensors of the gradients are listed;
* `nesterov_first`, `nesterov_next` : one call;
* `nesterov_recurrence` : the calls one after the other follow the recurrence of the momentum.
-/

namespace Hypha.ParameterServer

open Hypha.Lib

set_option linter.unusedSectionVars false

variable {R : Type} [CommRing R]

section Functions
variable (digest : String → BitVec 256) (momentum learningRate : R)

def momentumOp : TensorOp R := fun g m => (m.scale momentum).add g

def nesterovOp : TensorOp R := fun g m => ((m.scale momentum).add g).map (Tensor.scale learningRate)

/-- `fs::copy(momentum_update_file, momentum_file)`. -/
def copyMomentumUpdate (dir : WorkDir R) : WorkDir R × Except Failure Unit :=
  match dir .momentumUpdate with
  | some content => (Function.update dir .momentum (some content), .ok ())
  | none => (dir, .error (.io "no such file"))

def updateMomentum (rank : String → Nat) (dir : WorkDir R) (gradientFile : Source R) :
    WorkDir R × Except Failure Unit :=
  if dir .momentum = none then
    match dir.read gradientFile with
    | some content => (Function.update dir .momentum (some content), .ok ())
    | none => (dir, .error (.panicked "copy gradients to momentum"))
  else
    andThen (applyTensorOp digest (momentumOp momentum) rank dir gradientFile (.named .momentum) .momentumUpdate)
      fun dir _ => copyMomentumUpdate dir

def nesterov (momentumRank updateRank : String → Nat) (dir : WorkDir R) (gradientFile : Source R) :
    WorkDir R × Except Failure FileName :=
  andThen (updateMomentum digest momentum momentumRank dir gradientFile) fun dir _ =>
    andThen (applyTensorOp digest (nesterovOp momentum learningRate) updateRank dir gradientFile (.named .momentum)
      .gradientUpdate) fun dir _ => (dir, .ok .gradientUpdate)

end Functions

/-! ## The operations on elements -/

theorem momentumOp_elementwise (momentum : R) : Elementwise (momentumOp momentum) fun g m => momentum * m + g := by
  intro g m hshape
  have hsum : ∃ t, (m.scale momentum).add g = some t := Tensor.exists_add hshape.symm
  obtain ⟨t, ht⟩ := hsum
  refine ⟨t, ht, (Tensor.add_shape ht).2.trans hshape.symm, fun i => ?_⟩
  rw [Tensor.add_get ht, Tensor.scale_get]

theorem nesterovOp_elementwise (momentum learningRate : R) :
    Elementwise (nesterovOp momentum learningRate) fun g m => learningRate * (momentum * m + g) := by
  intro g m hshape
  obtain ⟨t, ht, htg, hget⟩ := momentumOp_elementwise momentum g m hshape
  refine ⟨t.scale learningRate, ?_, htg, fun i => ?_⟩
  · exact congrArg (Option.map (Tensor.scale learningRate)) ht
  · rw [Tensor.scale_get, hget]

/-! ## One call -/

section Call
variable {digest : String → BitVec 256} {momentum learningRate : R} {rank updateRank : String → Nat} {dir : WorkDir R}
  {gradientFile : Source R} {G M : TensorMap R}

theorem updateMomentum_first (h : dir .momentum = none) {content : Content R}
    (hG : dir.read gradientFile = some content) :
    updateMomentum digest momentum rank dir gradientFile = (Function.update dir .momentum (some content), .ok ()) := by
  unfold updateMomentum
  rw [if_pos h, hG]

/-- An operation on the gradients and the momentum, where they have the same shapes. -/
theorem applied_of_sameShapes {op : TensorOp R} {f : R → R → R} (hop : Elementwise op f) (rank : String → Nat)
    (output : FileName) (houtput : output.isResult = false)
    (hG : dir.read gradientFile = some (.tensors G)) (hM : dir .momentum = some (.tensors M))
    (hinj : Set.InjOn digest {n | n ∈ G}) (hshapes : SameShapes G M) :
    ∃ dir' C, applyTensorOp digest op rank dir gradientFile (.named .momentum) output = (dir', .ok ()) ∧
      Applied op G M output dir dir' C :=
  applyTensorOp_ok hG hM hinj houtput fun n x y hx hy => hop.isSome (hshapes n x y hx hy)

theorem copyMomentumUpdate_of_some {content : Content R} (h : dir .momentumUpdate = some content) :
    copyMomentumUpdate dir = (Function.update dir .momentum (some content), .ok ()) := by
  unfold copyMomentumUpdate
  rw [h]

/-- Where there is a momentum of the same shapes. -/
theorem updateMomentum_applied (momentum : R) (rank : String → Nat)
    (hG : dir.read gradientFile = some (.tensors G)) (hM : dir .momentum = some (.tensors M))
    (hinj : Set.InjOn digest {n | n ∈ G}) (hshapes : SameShapes G M) :
    ∃ dir' C, updateMomentum digest momentum rank dir gradientFile = copyMomentumUpdate dir' ∧
      Applied (momentumOp momentum) G M .momentumUpdate dir dir' C := by
  obtain ⟨dir', C, hrun, happlied⟩ :=
    applied_of_sameShapes (momentumOp_elementwise momentum) rank .momentumUpdate rfl hG hM hinj hshapes
  refine ⟨dir', C, ?_, happlied⟩
  unfold updateMomentum
  rw [if_neg (hM ▸ Option.some_ne_none _), hrun]
  rfl

/-- What one call comes to, where it updates the momentum to `M'`. -/
structure Called (momentum learningRate : R) (G M' : TensorMap R) (after : WorkDir R × Except Failure FileName) :
    Prop where
  returned : after.2 = .ok .gradientUpdate
  kept : after.1 .momentum = some (.tensors M')
  update : Meets G M' → ∃ U, after.1 .gradientUpdate = some (.tensors U) ∧
    Combined (nesterovOp momentum learningRate) G M' U

/-- The second operation of a call. -/
theorem nesterov_called {dir' : WorkDir R}
    (hmomentum : updateMomentum digest momentum rank dir gradientFile = (dir', .ok ()))
    (hG : dir'.read gradientFile = some (.tensors G)) (hM : dir' .momentum = some (.tensors M))
    (hinj : Set.InjOn digest {n | n ∈ G}) (hshapes : SameShapes G M) :
    Called momentum learningRate G M (nesterov digest momentum learningRate rank updateRank dir gradientFile) := by
  obtain ⟨dir'', U, hrun, happlied⟩ :=
    applied_of_sameShapes (nesterovOp_elementwise momentum learningRate) updateRank .gradientUpdate rfl hG hM hinj
      hshapes
  unfold nesterov
  rw [hmomentum]
  rw [andThen_ok, hrun]
  exact ⟨rfl, (happlied.frame .momentum nofun rfl).trans hM, fun h => ⟨U, happlied.written h, happlied.combined⟩⟩

/-- The first call: the gradients become the momentum. -/
theorem nesterov_first (hinput : gradientFile.isInput = true) (h : dir .momentum = none)
    (hG : dir.read gradientFile = some (.tensors G)) (hinj : Set.InjOn digest {n | n ∈ G}) :
    Called momentum learningRate G G (nesterov digest momentum learningRate rank updateRank dir gradientFile) := by
  refine nesterov_called (updateMomentum_first h hG) ?_ (Function.update_self _ _ _) hinj (SameShapes.refl G)
  rw [WorkDir.read_congr (fun f hf => ?_) hinput, hG]
  exact Function.update_of_ne (by rintro rfl; cases hf) _ _

/-- The calls after it. -/
theorem nesterov_next (hinput : gradientFile.isInput = true) (hM : dir .momentum = some (.tensors M))
    (hG : dir.read gradientFile = some (.tensors G)) (hinj : Set.InjOn digest {n | n ∈ G}) (hshapes : SameShapes G M)
    (hmeets : Meets G M) :
    ∃ M', Combined (momentumOp momentum) G M M' ∧
      Called momentum learningRate G M' (nesterov digest momentum learningRate rank updateRank dir gradientFile) := by
  obtain ⟨dir', M', hrun, happlied⟩ := updateMomentum_applied momentum rank hG hM hinj hshapes
  have hcopied : copyMomentumUpdate dir' = (Function.update dir' .momentum (some (.tensors M')), .ok ()) :=
    copyMomentumUpdate_of_some (happlied.written hmeets)
  refine ⟨M', happlied.combined, nesterov_called (hrun.trans hcopied) ?_ (Function.update_self _ _ _) hinj ?_⟩
  · rw [WorkDir.read_congr (fun f hf => ?_) hinput, hG]
    rw [Function.update_of_ne (by rintro rfl; cases hf),
      happlied.frame f (by rintro rfl; cases hf) (FileName.not_isResult hf)]
  · intro n x y hx hy
    obtain ⟨x', m, hx', hm, ht⟩ := happlied.combined.exists_of_lookup hy
    obtain ⟨t, ht', hshape, -⟩ := momentumOp_elementwise momentum x' m (hshapes n x' m hx' hm)
    rw [Option.some.inj (hx.symm.trans hx'), Option.some.inj (ht.symm.trans ht'), hshape]

/-! ## When a call succeeds -/

theorem nesterov_error {e : Failure} (h : (updateMomentum digest momentum rank dir gradientFile).2 = .error e) :
    (nesterov digest momentum learningRate rank updateRank dir gradientFile).2 = .error e := andThen_error h

/-- Where the second operation fails, so does the call. -/
theorem nesterov_error_second {dir' : WorkDir R} {e : Failure}
    (hmomentum : updateMomentum digest momentum rank dir gradientFile = (dir', .ok ()))
    (h : (applyTensorOp digest (nesterovOp momentum learningRate) updateRank dir' gradientFile (.named .momentum)
      .gradientUpdate).2 = .error e) :
    (nesterov digest momentum learningRate rank updateRank dir gradientFile).2 = .error e := by
  unfold nesterov
  rw [hmomentum, andThen_ok]
  exact andThen_error h

theorem updateMomentum_error {e : Failure} (h : dir .momentum ≠ none)
    (herror : (applyTensorOp digest (momentumOp momentum) rank dir gradientFile (.named .momentum) .momentumUpdate).2 =
      .error e) : (updateMomentum digest momentum rank dir gradientFile).2 = .error e := by
  unfold updateMomentum
  rw [if_neg h]
  exact andThen_error herror

/-- The momentum fits the gradients: there is none, or it has the same shapes and a common name. Without one the last
update of the momentum is copied again, and it has to fit. -/
def OptimizerFits (dir : WorkDir R) (G : TensorMap R) : Prop :=
  dir .momentum = none ∨ ∃ M, dir .momentum = some (.tensors M) ∧ SameShapes G M ∧
    (Meets G M ∨ ∃ U, dir .momentumUpdate = some (.tensors U) ∧ SameShapes G U)

theorem OptimizerFits.of_sameLayout {G' : TensorMap R} (h : OptimizerFits dir G) (hlayout : SameLayout G G') :
    OptimizerFits dir G' := by
  rcases h with hnone | ⟨M, hM, hshapes, hmeets⟩
  · exact .inl hnone
  · refine .inr ⟨M, hM, hshapes.of_sameLayout hlayout, ?_⟩
    exact hmeets.imp (·.of_sameLayout hlayout) fun ⟨U, hU, hU'⟩ => ⟨U, hU, hU'.of_sameLayout hlayout⟩

/-- It depends on two files. -/
theorem optimizerFits_congr {dir' : WorkDir R} (hmomentum : dir' .momentum = dir .momentum)
    (hupdate : dir' .momentumUpdate = dir .momentumUpdate) : OptimizerFits dir' G ↔ OptimizerFits dir G := by
  unfold OptimizerFits
  rw [hmomentum, hupdate]

/-- Reading the gradients again, after the momentum has been updated. -/
theorem read_after_update {dir' : WorkDir R} {content : Option (Content R)} (hinput : gradientFile.isInput = true)
    (hframe : ∀ f, f ≠ .momentumUpdate → f.isResult = false → dir' f = dir f) :
    WorkDir.read (Function.update dir' .momentum content) gradientFile = dir.read gradientFile := by
  refine WorkDir.read_congr (fun f hf => ?_) hinput
  rw [Function.update_of_ne (by rintro rfl; cases hf), hframe f (by rintro rfl; cases hf) (FileName.not_isResult hf)]

/-- Gradients and a momentum of other shapes, or a file that is not one of tensors, fail an operation. -/
theorem exists_error {op : TensorOp R} (rank : String → Nat) (output : FileName)
    (hop : ∀ g m, g.shape ≠ m.shape → op g m = none)
    (hG : dir.read gradientFile = some (.tensors G))
    (h : ¬ ∃ M, dir .momentum = some (.tensors M) ∧ SameShapes G M) :
    ∃ e, (applyTensorOp digest op rank dir gradientFile (.named .momentum) output).2 = .error e := by
  by_cases htensors : ∃ M, dir .momentum = some (.tensors M)
  · obtain ⟨M, hM⟩ := htensors
    refine ⟨_, applyTensorOp_mismatch hG hM ?_⟩
    by_contra hnone
    refine h ⟨M, hM, fun n x y hx hy => ?_⟩
    by_contra hshape
    exact hnone ⟨n, x, y, hx, hy, hop x y hshape⟩
  · exact ⟨_, applyTensorOp_refused fun ⟨_, M, _, hM⟩ => htensors ⟨M, hM⟩⟩

theorem momentumOp_eq_none (momentum : R) (g m : Tensor R) (h : g.shape ≠ m.shape) : momentumOp momentum g m = none :=
  Tensor.add_eq_none_iff.mpr h.symm

theorem nesterovOp_eq_none (momentum learningRate : R) (g m : Tensor R) (h : g.shape ≠ m.shape) :
    nesterovOp momentum learningRate g m = none :=
  Option.map_eq_none_iff.mpr (momentumOp_eq_none momentum g m h)

/-- A call on a directory whose last update of the momentum is copied again. -/
theorem nesterov_copied_iff {dir' : WorkDir R} (hinput : gradientFile.isInput = true)
    (hG : dir.read gradientFile = some (.tensors G)) (hinj : Set.InjOn digest {n | n ∈ G})
    (hmomentum : updateMomentum digest momentum rank dir gradientFile = copyMomentumUpdate dir')
    (hframe : ∀ f, f ≠ .momentumUpdate → f.isResult = false → dir' f = dir f) :
    (nesterov digest momentum learningRate rank updateRank dir gradientFile).2 = .ok .gradientUpdate ↔
      ∃ U, dir' .momentumUpdate = some (.tensors U) ∧ SameShapes G U := by
  cases hU : dir' .momentumUpdate with
  | none =>
    have herror : (updateMomentum digest momentum rank dir gradientFile).2 = .error (.io "no such file") := by
      unfold copyMomentumUpdate at hmomentum
      rw [hmomentum, hU]
    exact iff_of_false (fun hok => nomatch (nesterov_error herror).symm.trans hok) nofun
  | some content =>
    have hcopied := hmomentum.trans (copyMomentumUpdate_of_some hU)
    have hread : WorkDir.read (Function.update dir' .momentum (some content)) gradientFile = some (.tensors G) :=
      (read_after_update hinput hframe).trans hG
    have hkept : Function.update dir' .momentum (some content) .momentum = some content := Function.update_self _ _ _
    by_cases hsame : ∃ U, some content = some (.tensors U) ∧ SameShapes G U
    · obtain ⟨U, hcontent, hU'⟩ := hsame
      exact iff_of_true (nesterov_called hcopied hread (hkept.trans hcontent) hinj hU').returned ⟨U, hcontent, hU'⟩
    · have hother := hsame
      rw [← hkept] at hother
      obtain ⟨e, he⟩ := exists_error updateRank .gradientUpdate (nesterovOp_eq_none momentum learningRate) hread hother
      exact iff_of_false (fun hok => nomatch (nesterov_error_second hcopied he).symm.trans hok) hsame

/-- **When a call succeeds.** -/
theorem nesterov_ok_iff (hinput : gradientFile.isInput = true) (hG : dir.read gradientFile = some (.tensors G))
    (hinj : Set.InjOn digest {n | n ∈ G}) :
    (nesterov digest momentum learningRate rank updateRank dir gradientFile).2 = .ok .gradientUpdate ↔
      OptimizerFits dir G := by
  by_cases hnone : dir .momentum = none
  · exact iff_of_true (nesterov_first hinput hnone hG hinj).returned (.inl hnone)
  by_cases hsame : ∃ M, dir .momentum = some (.tensors M) ∧ SameShapes G M
  swap
  · obtain ⟨e, he⟩ := exists_error rank .momentumUpdate (momentumOp_eq_none momentum) hG hsame
    refine iff_of_false (fun hok => nomatch (nesterov_error (updateMomentum_error hnone he)).symm.trans hok) ?_
    rintro (h | ⟨M, hM, hshapes, -⟩)
    · exact hnone h
    · exact hsame ⟨M, hM, hshapes⟩
  obtain ⟨M, hM, hshapes⟩ := hsame
  by_cases hmeets : Meets G M
  · obtain ⟨M', -, hcalled⟩ := nesterov_next hinput hM hG hinj hshapes hmeets
    exact iff_of_true hcalled.returned (.inr ⟨M, hM, hshapes, .inl hmeets⟩)
  -- nothing is written, and the last update of the momentum is copied
  obtain ⟨dir', M', hrun, happlied⟩ := updateMomentum_applied momentum rank hG hM hinj hshapes
  have hfits : OptimizerFits dir G ↔ ∃ U, dir .momentumUpdate = some (.tensors U) ∧ SameShapes G U := by
    constructor
    · rintro (h | ⟨N, hN, -, h | h⟩)
      · exact absurd h hnone
      · cases hM.symm.trans hN
        exact absurd h hmeets
      · exact h
    · exact fun h => .inr ⟨M, hM, hshapes, .inr h⟩
  rw [hfits, ← happlied.unwritten hmeets]
  exact nesterov_copied_iff hinput hG hinj hrun happlied.frame

/-- A file that is not one of tensors. -/
theorem nesterov_refused (hinput : gradientFile.isInput = true) {content : Content R}
    (hread : dir.read gradientFile = some content) (h : ∀ G, content ≠ .tensors G) :
    (nesterov digest momentum learningRate rank updateRank dir gradientFile).2 =
      .error (.candle "invalid safetensors") := by
  have hnot : ∀ {dir' : WorkDir R} {b : Source R}, dir'.read gradientFile = some content →
      ¬ ∃ A B, dir'.read gradientFile = some (.tensors A) ∧ dir'.read b = some (.tensors B) := by
    rintro dir' b hread' ⟨A, -, hA, -⟩
    exact h A (Option.some.inj (hread'.symm.trans hA))
  by_cases hnone : dir .momentum = none
  · refine nesterov_error_second (updateMomentum_first hnone hread) (applyTensorOp_refused (hnot ?_))
    rw [read_after_update hinput fun _ _ _ => rfl, hread]
  · exact nesterov_error (updateMomentum_error hnone (applyTensorOp_refused (hnot hread)))

theorem copyMomentumUpdate_ne_config {e : Failure} (h : (copyMomentumUpdate dir).2 = .error e) (message : String) :
    e ≠ .invalidExecutorConfig message := by
  unfold copyMomentumUpdate at h
  split at h
  · cases h
  · cases h
    exact nofun

theorem updateMomentum_ne_config {e : Failure}
    (h : (updateMomentum digest momentum rank dir gradientFile).2 = .error e) (message : String) :
    e ≠ .invalidExecutorConfig message := by
  unfold updateMomentum at h
  split_ifs at h
  · split at h
    · cases h
    · cases h
      exact nofun
  · rcases andThen_eq_error h with h | ⟨dir', -, -, h⟩
    · obtain ⟨error, rfl⟩ := applyTensorOp_candle h
      exact nofun
    · exact copyMomentumUpdate_ne_config h message

/-- None of the errors is one of configuration. -/
theorem nesterov_ne_config {e : Failure}
    (h : (nesterov digest momentum learningRate rank updateRank dir gradientFile).2 = .error e) (message : String) :
    e ≠ .invalidExecutorConfig message := by
  rcases andThen_eq_error h with h | ⟨dir', -, -, h⟩
  · exact updateMomentum_ne_config h message
  · rcases andThen_eq_error h with h | ⟨dir'', -, -, h⟩
    · obtain ⟨error, rfl⟩ := applyTensorOp_candle h
      exact nofun
    · cases h

theorem nesterov_path {path : FileName}
    (h : (nesterov digest momentum learningRate rank updateRank dir gradientFile).2 = .ok path) :
    path = .gradientUpdate := by
  obtain ⟨dir', -, -, h⟩ := andThen_eq_ok h
  obtain ⟨dir'', -, -, h⟩ := andThen_eq_ok h
  exact (Except.ok.inj h).symm

end Call

/-! ## Call after call -/

/-- The momentum of a sequence of gradients. -/
def velocity (momentum : R) (g : Nat → R) : Nat → R
  | 0 => g 0
  | k + 1 => momentum * velocity momentum g k + g (k + 1)

/-- One call of many: its gradients are written to their file, and apart from the momentum the directory may have changed
since the last call in any way. -/
structure Round (R : Type) where
  gradientFile : FileName
  isInput : gradientFile.isInput = true
  gradient : TensorMap R
  momentumRank : String → Nat
  updateRank : String → Nat
  others : WorkDir R

def Round.before (round : Round R) (dir : WorkDir R) : WorkDir R :=
  Function.update (Function.update round.others .momentum (dir .momentum)) round.gradientFile
    (some (.tensors round.gradient))

theorem Round.before_momentum (round : Round R) (dir : WorkDir R) : round.before dir .momentum = dir .momentum := by
  have hne : FileName.momentum ≠ round.gradientFile := fun heq => by
    cases (congrArg FileName.isInput heq).trans round.isInput
  unfold before
  rw [Function.update_of_ne hne, Function.update_self]

theorem Round.before_read (round : Round R) (dir : WorkDir R) :
    (round.before dir).read (.named round.gradientFile) = some (.tensors round.gradient) := Function.update_self _ _ _

theorem Round.source_isInput (round : Round R) : (Source.named round.gradientFile : Source R).isInput = true :=
  round.isInput

section Rounds
variable (digest : String → BitVec 256) (momentum learningRate : R) (rounds : Nat → Round R) (dir : WorkDir R)

def Round.call (round : Round R) (dir : WorkDir R) : WorkDir R × Except Failure FileName :=
  nesterov digest momentum learningRate round.momentumRank round.updateRank (round.before dir) (.named round.gradientFile)

/-- The directory after some calls. -/
def dirAfter : Nat → WorkDir R
  | 0 => dir
  | k + 1 => ((rounds k).call digest momentum learningRate (dirAfter k)).1

/-- An element over the rounds. -/
def elements (name : String) (i : Nat) (k : Nat) : R := element (rounds k).gradient name i

/-- The call of round `k` leaves the momentum of that round, and returns its update. -/
structure Follows (k : Nat) (after : WorkDir R × Except Failure FileName) : Prop where
  returned : after.2 = .ok .gradientUpdate
  kept : ∃ M, after.1 .momentum = some (.tensors M) ∧ SameLayout M (rounds k).gradient ∧
    ∀ name ∈ (rounds k).gradient, ∀ i, element M name i = velocity momentum (elements rounds name i) k
  update : ∃ U, after.1 .gradientUpdate = some (.tensors U) ∧ SameLayout U (rounds k).gradient ∧
    ∀ name ∈ (rounds k).gradient, ∀ i, element U name i =
      learningRate * (momentum * velocity momentum (elements rounds name i) k + elements rounds name i k)

variable {digest momentum learningRate rounds dir}

/-- A call that leaves the momentum of its round also returns its update. -/
theorem Called.follows {k : Nat} {M : TensorMap R} {after : WorkDir R × Except Failure FileName}
    (h : Called momentum learningRate (rounds k).gradient M after) (hlayout : SameLayout M (rounds k).gradient)
    (hmeets : Meets (rounds k).gradient M)
    (hM : ∀ name ∈ (rounds k).gradient, ∀ i, element M name i = velocity momentum (elements rounds name i) k) :
    Follows momentum learningRate rounds k after := by
  obtain ⟨U, hU, hcombined⟩ := h.update hmeets
  have hop := nesterovOp_elementwise momentum learningRate
  refine ⟨h.returned, ⟨M, h.kept, hlayout, hM⟩, U, hU, hcombined.sameLayout hop hlayout, fun name hname i => ?_⟩
  rw [hcombined.element hop hlayout hname, hM name hname]
  rfl

/-- The next momentum. -/
theorem velocity_next {k : Nat} {M M' : TensorMap R} (hlayout : SameLayout M (rounds k).gradient)
    (hnext : SameLayout (rounds (k + 1)).gradient (rounds k).gradient)
    (hM : ∀ name ∈ (rounds k).gradient, ∀ i, element M name i = velocity momentum (elements rounds name i) k)
    (h : Combined (momentumOp momentum) (rounds (k + 1)).gradient M M') :
    SameLayout M' (rounds (k + 1)).gradient ∧
      ∀ name ∈ (rounds (k + 1)).gradient, ∀ i,
        element M' name i = velocity momentum (elements rounds name i) (k + 1) := by
  have hop := momentumOp_elementwise momentum
  have hprevious := hlayout.trans hnext.symm
  refine ⟨h.sameLayout hop hprevious, fun name hname i => ?_⟩
  rw [h.element hop hprevious hname, hM name ((hnext.mem_iff name).mp hname)]
  rfl

/-- **The recurrence of the momentum**, for gradients with the same names and shapes, of which there is one. -/
theorem nesterov_recurrence (hfresh : dir .momentum = none)
    (hlayout : ∀ k, SameLayout (rounds k).gradient (rounds 0).gradient) (hsome : ∃ name, name ∈ (rounds 0).gradient)
    (hdigest : Set.InjOn digest {name | name ∈ (rounds 0).gradient}) (k : Nat) :
    Follows momentum learningRate rounds k
      ((rounds k).call digest momentum learningRate (dirAfter digest momentum learningRate rounds dir k)) := by
  have hmem : ∀ k name, name ∈ (rounds k).gradient ↔ name ∈ (rounds 0).gradient := fun k => (hlayout k).mem_iff
  have hinj : ∀ k, Set.InjOn digest {name | name ∈ (rounds k).gradient} := fun k =>
    hdigest.mono fun name hname => (hmem k name).mp hname
  obtain ⟨name, hname⟩ := hsome
  induction k with
  | zero =>
    have hmomentum := ((rounds 0).before_momentum dir).trans hfresh
    have hcalled : Called momentum learningRate (rounds 0).gradient (rounds 0).gradient
        ((rounds 0).call digest momentum learningRate dir) :=
      nesterov_first (rounds 0).source_isInput hmomentum ((rounds 0).before_read dir) (hinj 0)
    exact hcalled.follows (fun _ => rfl) ⟨name, hname, hname⟩ fun _ _ _ => rfl
  | succ k ih =>
    obtain ⟨M, hM, hMlayout, helements⟩ := ih.kept
    have hnext := (hlayout (k + 1)).trans (hlayout k).symm
    have hprevious := hMlayout.trans hnext.symm
    have hnextName := (hmem (k + 1) name).mpr hname
    have hmeets : Meets (rounds (k + 1)).gradient M := ⟨name, hnextName, (hprevious.mem_iff name).mpr hnextName⟩
    have hmomentum := ((rounds (k + 1)).before_momentum
      (dirAfter digest momentum learningRate rounds dir (k + 1))).trans hM
    obtain ⟨M', hM', hcalled⟩ := nesterov_next (rounds (k + 1)).source_isInput hmomentum
      ((rounds (k + 1)).before_read _) (hinj (k + 1)) hprevious.symm.sameShapes hmeets
    obtain ⟨hlayout', helements'⟩ := velocity_next hMlayout hnext helements hM'
    exact hcalled.follows hlayout' ⟨name, hnextName, (hlayout'.mem_iff name).mpr hnextName⟩ helements'

end Rounds

/-- Gradients of five elements: one, and another from then on. -/
def testTensor : Nat → Tensor ℚ
  | 0 => ⟨[5], [1/2, 1/2, 1/2, 1/2, 1/2], rfl⟩
  | _ + 1 => ⟨[5], [1/10, 2/10, 3/10, 4/10, 5/10], rfl⟩

/-- SHA-256 of the name under which they are. -/
def testDigest : String → BitVec 256 := fun _ => 0x1b6a3443f30a8adc08c12490d5b12cbe9a8590f6c76b73a15cdb3ac880eb7cc4

def testRounds (k : Nat) : Round ℚ :=
  ⟨.other "gradient_file", rfl, AList.singleton "gradient" (testTensor k), fun _ => 0, fun _ => 0, fun _ => none⟩

/-- The second step of the test returns 0.0415 as its first element. -/
theorem nesterov_recurrence_test :
    Follows (7/10 : ℚ) (1/10) testRounds 1
        ((testRounds 1).call testDigest (7/10) (1/10) (dirAfter testDigest (7/10) (1/10) testRounds (fun _ => none) 1)) ∧
      1/10 * (7/10 * velocity (7/10) (elements testRounds "gradient" 0) 1 + elements testRounds "gradient" 0 1) =
        (415/10000 : ℚ) := by
  refine ⟨nesterov_recurrence rfl (fun k name => ?_) ⟨"gradient", by decide⟩ (fun a ha b hb _ => ?_) 1, by decide +kernel⟩
  · unfold testRounds
    rw [Table.lookup_singleton, Table.lookup_singleton]
    split_ifs
    · cases k <;> rfl
    · rfl
  · exact (List.mem_singleton.mp ha).trans (List.mem_singleton.mp hb).symm

/-- Gradients without tensors. -/
def emptyRound : Round ℚ := ⟨.other "gradient_file", rfl, ∅, fun _ => 0, fun _ => 0, fun _ => none⟩

/-- Gradients without tensors: nothing is written that could be copied, and the second call fails. -/
theorem nesterov_recurrence_fails :
    (¬ ∀ (digest : String → BitVec 256) (momentum learningRate : ℚ) (rounds : Nat → Round ℚ) (dir : WorkDir ℚ),
      dir .momentum = none → (∀ k, SameLayout (rounds k).gradient (rounds 0).gradient) →
        Set.InjOn digest {name | name ∈ (rounds 0).gradient} →
          ∀ k, Follows momentum learningRate rounds k
            ((rounds k).call digest momentum learningRate (dirAfter digest momentum learningRate rounds dir k))) ∧
      (Round.call testDigest (7/10) (1/10) emptyRound
        (emptyRound.call testDigest (7/10) (1/10) fun _ => none).1).2 = .error (.io "no such file") := by
  have herror : (Round.call testDigest (7/10) (1/10) emptyRound
      (emptyRound.call testDigest (7/10) (1/10) fun _ => none).1).2 = .error (.io "no such file") := rfl
  refine ⟨fun hclaim => ?_, herror⟩
  have hfollows := hclaim testDigest (7/10) (1/10) (fun _ => emptyRound) (fun _ => none) rfl (fun _ _ => rfl)
    (fun _ ha => nomatch ha) 1
  cases herror.symm.trans hfollows.returned

end Hypha.ParameterServer
