import Hypha.Lib.Ieee
import Hypha.Scheduler.Handler

/-!
# Two computations of the batch size

The scheduler tells a worker its batch size when it dispatches the job, and computes it again whenever it projects a
round (`hypha-scheduler.rs`). The two expressions differ: `batch_sizer` guards the division and caps the integer, the
dispatcher divides unguarded and caps the double.

* `batchSizer`, `dispatchedBatchSize` : the two expressions, for any rounding of the quotient;
* `dispatched_eq_batchSizer` : they agree if the worker specification asks for some GPU;
* `batch_sizes_agree_iff` : exactly when they agree and give a worker that covers the specification a batch.
-/

namespace Hypha.Scheduler

open Hypha.Lib

/-- The offer has what the specification asks for. -/
def Covers (offer spec : Resources) : Prop :=
  spec.cpu ≤ offer.cpu ∧ spec.memory ≤ offer.memory ∧ spec.gpu ≤ offer.gpu ∧ spec.storage ≤ offer.storage

section BatchSize
variable (rnd : Rounding) (spec : Resources) (maxBatchSize : Option UInt32)

/-- **`batch_sizer`**. -/
def batchSizer (resources : Resources) : Nat :=
  let raw := if 0 < spec.gpu then (rnd.div resources.gpu spec.gpu).floor.toU32 else 0
  match maxBatchSize with
  | some max => min raw max.toNat
  | none => raw

/-- The cap, as a double. -/
def maxBatchSizeF64 : Double :=
  match maxBatchSize with
  | some bs => .fin (bs.toNat : ℚ)
  | none => Double.max

/-- **The `batch_size`** that the dispatcher puts into the configuration of a worker. -/
def dispatchedBatchSize (worker : Resources) : Nat :=
  ((rnd.div worker.gpu spec.gpu).floor.min (maxBatchSizeF64 maxBatchSize)).toU32

/-- The batch size that is dispatched is the projected one, and a worker that covers the specification gets one. -/
structure BatchSizesAgree (worker : Resources) : Prop where
  agree : dispatchedBatchSize rnd spec maxBatchSize worker = batchSizer rnd spec maxBatchSize worker
  pos : Covers worker spec → 1 ≤ dispatchedBatchSize rnd spec maxBatchSize worker

/-- The cap, as an integer. -/
def cap : Nat := (maxBatchSizeF64 maxBatchSize).toU32

theorem toNat_le_u32Max (x : UInt32) : x.toNat ≤ u32Max := Nat.le_of_lt_succ x.toNat_lt

theorem cap_some (max : UInt32) : cap (some max) = max.toNat := Double.toU32_natCast (toNat_le_u32Max max)

theorem cap_none : cap none = u32Max := Double.toU32_max

theorem cap_eq_zero_iff : cap maxBatchSize = 0 ↔ maxBatchSize = some 0 := by
  cases maxBatchSize with
  | none =>
    rw [cap_none]
    exact iff_of_false (by decide) nofun
  | some max =>
    rw [cap_some, Option.some_inj, ← UInt32.toNat_inj]
    rfl

theorem maxBatchSizeF64_ne_nan : maxBatchSizeF64 maxBatchSize ≠ .nan := by
  cases maxBatchSize <;> exact nofun

/-- `batch_sizer` caps what it computes. -/
theorem batchSizer_eq (resources : Resources) :
    batchSizer rnd spec maxBatchSize resources =
      min (if 0 < spec.gpu then (rnd.div resources.gpu spec.gpu).floor.toU32 else 0) (cap maxBatchSize) := by
  unfold batchSizer
  cases maxBatchSize with
  | some max => rw [cap_some]
  | none =>
    rw [cap_none]
    refine (min_eq_left ?_).symm
    split_ifs
    · exact Double.toU32_le _
    · exact Nat.zero_le _

variable {rnd spec maxBatchSize}

/-- The dispatcher's cap before the cast is `batch_sizer`'s after it. -/
theorem dispatched_eq_batchSizer (h : 0 < spec.gpu) (worker : Resources) :
    dispatchedBatchSize rnd spec maxBatchSize worker = batchSizer rnd spec maxBatchSize worker := by
  rw [batchSizer_eq, if_pos h]
  exact Double.toU32_min (Double.floor_ne_nan (rnd.div_ne_nan h.ne')) (maxBatchSizeF64_ne_nan maxBatchSize)

/-- Without GPUs in the specification the dispatcher divides by zero, and only the cap is left. -/
theorem dispatched_of_zero (h : spec.gpu = 0) {worker : Resources} (hworker : 0 ≤ worker.gpu) :
    dispatchedBatchSize rnd spec maxBatchSize worker = cap maxBatchSize := by
  unfold dispatchedBatchSize Rounding.div
  rw [if_pos h]
  split_ifs with hzero hpos
  · rfl
  · have hinf : Double.posInf ≠ .nan := nofun
    show (Double.posInf.min (maxBatchSizeF64 maxBatchSize)).toU32 = cap maxBatchSize
    rw [Double.toU32_min hinf (maxBatchSizeF64_ne_nan maxBatchSize)]
    exact min_eq_right (Double.toU32_le _)
  · exact absurd (lt_of_le_of_ne hworker (Ne.symm hzero)) hpos

theorem batchSizer_of_zero (h : spec.gpu = 0) (resources : Resources) :
    batchSizer rnd spec maxBatchSize resources = 0 := by
  rw [batchSizer_eq, if_neg h.not_gt, Nat.zero_min]

/-- A worker that covers the specification has a batch before the cap. -/
theorem one_le_dispatched_iff (h : 0 < spec.gpu) {worker : Resources} (hcovers : Covers worker spec) :
    1 ≤ dispatchedBatchSize rnd spec maxBatchSize worker ↔ maxBatchSize ≠ some 0 := by
  have hraw : 1 ≤ (rnd.div worker.gpu spec.gpu).floor.toU32 :=
    Double.one_le_toU32_floor (rnd.one_le_div h hcovers.2.2.1)
  rw [dispatched_eq_batchSizer h, batchSizer_eq, if_pos h, le_min_iff, and_iff_right hraw, Nat.one_le_iff_ne_zero,
    ne_eq, cap_eq_zero_iff]

/-- A round is projected with the batch sizes that were dispatched, if the specification asks for some GPU. -/
theorem projected_eq_dispatched {PeerId : Type} {cfg : Settings} (hcfg : cfg.batchSizer = batchSizer rnd spec maxBatchSize)
    (h : 0 < spec.gpu) (snapshot : List (WorkerDescriptorWithInfo PeerId)) :
    snapshot.map (fun w => cfg.batchSizer w.resources) =
      snapshot.map fun w => dispatchedBatchSize rnd spec maxBatchSize w.resources := by
  rw [hcfg]
  exact List.map_congr_left fun w _ => (dispatched_eq_batchSizer h w.resources).symm

variable (rnd spec maxBatchSize)

/-- **The batch sizes agree**, and a worker that covers the specification gets a batch, exactly if the specification asks
for some GPU or nothing is to be batched, and the latter only of workers that do not cover it. -/
theorem batch_sizes_agree_iff (worker : Resources) (hspec : 0 ≤ spec.gpu) (hworker : 0 ≤ worker.gpu) :
    BatchSizesAgree rnd spec maxBatchSize worker ↔
      (0 < spec.gpu ∨ maxBatchSize = some 0) ∧ (Covers worker spec → maxBatchSize ≠ some 0) := by
  rcases hspec.eq_or_lt with hzero | hpos
  · have hdispatched : dispatchedBatchSize rnd spec maxBatchSize worker = cap maxBatchSize :=
      dispatched_of_zero hzero.symm hworker
    have hsizer : batchSizer rnd spec maxBatchSize worker = 0 := batchSizer_of_zero hzero.symm worker
    have hnone : ¬ 0 < spec.gpu := hzero.not_lt
    rw [or_iff_right hnone]
    constructor
    · rintro ⟨hagree, hbatch⟩
      rw [hdispatched] at hagree hbatch
      rw [hsizer, cap_eq_zero_iff] at hagree
      refine ⟨hagree, fun hcovers => ?_⟩
      rw [ne_eq, ← cap_eq_zero_iff]
      exact Nat.one_le_iff_ne_zero.mp (hbatch hcovers)
    · rintro ⟨hmax, hcovers⟩
      refine ⟨?_, fun h => absurd hmax (hcovers h)⟩
      rw [hdispatched, hsizer]
      exact (cap_eq_zero_iff maxBatchSize).mpr hmax
  · rw [and_iff_right (.inl hpos)]
    constructor
    · exact fun h hcovers => (one_le_dispatched_iff hpos hcovers).mp (h.pos hcovers)
    · exact fun h => ⟨dispatched_eq_batchSizer hpos worker, fun hcovers =>
        (one_le_dispatched_iff hpos hcovers).mpr (h hcovers)⟩

/-- A specification of two GPUs, a worker with five of them, and no cap. -/
theorem batch_sizes_agree_five_gpus : BatchSizesAgree .exact { gpu := 2 } none { gpu := 5 } :=
  (batch_sizes_agree_iff .exact { gpu := 2 } none { gpu := 5 } (by decide) (by decide)).mpr
    ⟨.inl (by decide), fun _ => nofun⟩

/-- A specification without GPUs: the division gives NaN, the dispatcher's cap discards it, and the worker is told to run
batches of the largest `u32`, which are projected to be empty. -/
theorem batch_sizes_agree_fails :
    ¬ ∀ (rnd : Rounding) (spec : Resources) (maxBatchSize : Option UInt32) (worker : Resources), 0 ≤ spec.gpu →
      0 ≤ worker.gpu → BatchSizesAgree rnd spec maxBatchSize worker := by
  intro hclaim
  have hagree := (hclaim .exact {} none {} le_rfl le_rfl).agree
  rw [dispatched_of_zero rfl le_rfl, batchSizer_of_zero rfl, cap_none] at hagree
  exact absurd hagree (by decide)

end BatchSize

end Hypha.Scheduler
