import Mathlib.Algebra.Ring.Int.Defs
import Mathlib.Algebra.Ring.Nat
import Mathlib.Data.List.Basic

/-!
# Runtime statistics and projection

What the batch scheduler is generic over: a statistic of how long a worker needs for a batch (`RuntimeStatistic`, with
its instance `RunningMean`), and a projection of the pool's next batches (`Simulation`, with `basicSimulation`).
Casts between integer types wrap as Rust's `as` does.
-/

namespace Hypha

/-- The trait `RuntimeStatistic`; `update` takes a time in milliseconds and a number of batches. -/
class RuntimeStatistic (T : Type) where
  default : T
  update : T → Nat → Nat → T
  value : T → Nat

/-- The largest `u64`. -/
def u64Max : Nat := 2 ^ 64 - 1

/-- `x as i64`. -/
def toI64 (x : Int) : Int := x.bmod (2 ^ 64)

/-- `x as u64`. -/
def toU64 (x : Int) : Nat := (x % 2 ^ 64).toNat

structure RunningMean where
  runningMean : Nat
  samples : Nat

def RunningMean.update (self : RunningMean) (time count : Nat) : RunningMean :=
  if count > 0 then
    if self.samples = 0 then ⟨time / count, count⟩
    else
      let samples : Nat := (self.samples + count) % 2 ^ 64
      ⟨toU64 (toI64 (toI64 self.runningMean +
        (toI64 (toI64 ↑(time / count) - toI64 self.runningMean)).tdiv (toI64 ↑samples))), samples⟩
  else self

instance : RuntimeStatistic RunningMean where
  default := ⟨u64Max, 0⟩
  update := RunningMean.update
  value self := self.runningMean

/-- The trait `Simulation`: from the workers' progress, batch sizes and statistics, the samples left and the cap on
steps, it projects the time, the samples still to go, the batches per worker and whether the cap was hit. There is one
projected number of batches per worker. -/
structure Simulation where
  project : List Nat → List Nat → List Nat → Nat → Nat → Nat × Int × List Nat × Bool
  length_project : ∀ progress batchSizes statistics left cap,
    (project progress batchSizes statistics left cap).2.2.1.length = batchSizes.length

/-- `x as i32`. -/
def toI32 (x : Int) : Int := x.bmod (2 ^ 32)

/-- The mutable variables of `BasicSimulation::project`. -/
structure Projection where
  time : Nat
  toGo : Int
  updates : List Nat
  nextUpdate : List Nat
  capped : Bool

/-- The body of the inner `for` loop: worker `idx` completes a batch. -/
def Projection.complete (batchSizes statistics : List Nat) (cap : Nat) (s : Projection) (idx : Nat) : Projection :=
  let done := min (s.updates.getD idx 0 + 1) (2 ^ 32 - 1)
  { s with
    toGo := toI32 (s.toGo - toI32 ↑(batchSizes.getD idx 0))
    updates := s.updates.set idx done
    capped := s.capped || decide (cap ≤ done)
    nextUpdate := s.nextUpdate.set idx (min (s.nextUpdate.getD idx 0 + statistics.getD idx 0) u64Max) }

/-- The body of the `while` loop: advance to the next event and complete a batch of every worker due then. (An empty
pool, on which the source's indexing panics, is never projected.) -/
def Projection.advance (batchSizes statistics : List Nat) (cap : Nat) (s : Projection) : Projection :=
  match s.nextUpdate.min? with
  | none => s
  | some t =>
    ((List.range batchSizes.length).filter (fun i => s.nextUpdate[i]? = some t)).foldl
      (Projection.complete batchSizes statistics cap) { s with time := t }

/-- The `while` loop. Every round completes a batch and the loop stops once some worker has `cap` of them, so
`batchSizes.length * cap + 1` rounds are enough. -/
def Projection.loop (batchSizes statistics : List Nat) (cap : Nat) : Nat → Projection → Projection
  | 0, s => s
  | fuel + 1, s =>
    if 0 < s.toGo ∧ s.capped = false then
      Projection.loop batchSizes statistics cap fuel (s.advance batchSizes statistics cap)
    else s

/-- The variables of `BasicSimulation::project` when its loop has ended. -/
def Projection.final (progress batchSizes statistics : List Nat) (left cap : Nat) : Projection :=
  Projection.loop batchSizes statistics cap (batchSizes.length * cap + 1)
    { time := 0
      toGo := toI32 left
      updates := List.replicate batchSizes.length 0
      nextUpdate := List.zipWith (fun a b => (a + b) % 2 ^ 64) progress statistics
      capped := false }

/-- What `BasicSimulation::project` returns. -/
def Projection.result (s : Projection) : Nat × Int × List Nat × Bool := (s.time, s.toGo, s.updates, s.capped)

theorem Projection.result_updates (s : Projection) : s.result.2.2.1 = s.updates := rfl

theorem Projection.length_updates_foldl (batchSizes statistics : List Nat) (cap : Nat) (is : List Nat) :
    ∀ s : Projection,
      (is.foldl (Projection.complete batchSizes statistics cap) s).updates.length = s.updates.length := by
  induction is with
  | nil => exact fun _ => rfl
  | cons i is ih =>
    intro s
    rw [List.foldl_cons, ih]
    exact List.length_set ..

theorem Projection.length_updates_loop (batchSizes statistics : List Nat) (cap fuel : Nat) :
    ∀ s : Projection, (Projection.loop batchSizes statistics cap fuel s).updates.length = s.updates.length := by
  induction fuel with
  | zero => exact fun _ => rfl
  | succ fuel ih =>
    intro s
    unfold Projection.loop
    split
    · rw [ih]
      unfold Projection.advance
      split
      · rfl
      · exact Projection.length_updates_foldl ..
    · rfl

theorem Projection.length_updates_final (progress batchSizes statistics : List Nat) (left cap : Nat) :
    (Projection.final progress batchSizes statistics left cap).updates.length = batchSizes.length := by
  unfold Projection.final
  rw [Projection.length_updates_loop]
  exact List.length_replicate

/-- `BasicSimulation`. -/
def basicSimulation : Simulation where
  project progress batchSizes statistics left cap :=
    (Projection.final progress batchSizes statistics left cap).result
  length_project progress batchSizes statistics left cap :=
    (congrArg List.length (Projection.result_updates _)).trans
      (Projection.length_updates_final progress batchSizes statistics left cap)

end Hypha
