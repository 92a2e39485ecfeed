import Mathlib.Data.Nat.Prime.Basic
import Mathlib.Tactic.NormNum.Prime

/-!
The size of an epoch's dataset: a table for the first epochs, and for the later
ones the largest size below the growing bound whose number of rows is prime.
-/
namespace Canchain.Hashimoto

def datasetInitBytes : UInt64 := 1073741824
def datasetGrowthBytes : UInt64 := 8388608
def epochLength : UInt64 := 30000
def mixBytes : UInt64 := 128
def hashBytes : UInt64 := 64

def maxEpoch : Nat := 2048
set_option maxRecDepth 20000 in
/-- The steps by which the sizes of the table are below the bounds of their epochs, 32 epochs to a row. -/
def datasetSteps : List Nat := List.flatten
  [[7,0,16,3,12,2,13,0,4,25,0,10,1,26,7,9,2,11,18,2,2,0,3,23,4,14,2,0,11,5,10,3],
    [4,16,0,14,0,8,7,0,5,5,3,3,5,0,8,1,3,2,2,6,5,1,0,2,1,1,9,2,7,2,16,18],
    [9,4,12,18,11,0,3,1,1,3,4,4,5,13,21,27,5,0,5,1,9,2,16,0,6,1,19,8,19,9,6,10],
    [0,20,1,7,5,10,1,11,1,9,8,4,16,27,4,10,14,2,12,3,1,1,3,16,4,2,11,3,2,10,22,9],
    [1,0,12,28,10,2,1,3,20,5,7,0,7,30,5,2,0,14,7,0,18,20,3,5,8,9,27,35,6,18,7,0],
    [0,1,3,2,4,3,11,8,4,9,5,7,0,2,1,18,10,1,2,4,18,23,4,3,20,10,3,15,14,1,9,2],
    [6,17,4,7,6,16,4,6,5,1,30,14,0,17,2,6,2,5,0,15,20,3,11,22,16,0,26,15,3,5,4,2],
    [2,3,6,16,21,6,5,7,11,1,0,3,1,16,8,14,15,5,10,1,0,23,0,11,28,0,2,8,6,11,10,0],
    [5,4,1,0,5,10,3,4,7,14,2,0,6,16,27,5,10,18,0,2,0,6,2,1,0,10,3,14,7,4,0,13],
    [22,2,14,1,5,1,21,3,25,4,6,4,0,0,10,6,5,5,36,3,11,0,9,5,10,32,1,3,3,19,4,5],
    [20,13,3,8,1,12,1,4,2,4,3,2,14,1,2,19,1,0,13,4,0,2,1,8,2,9,0,1,9,9,13,7],
    [5,34,0,8,7,9,2,10,0,3,16,3,2,2,1,0,13,9,3,10,1,2,17,24,11,1,7,5,2,6,20,2],
    [19,24,5,10,2,4,13,0,10,24,2,13,1,0,1,22,8,8,0,26,5,34,0,4,16,0,10,0,8,16,22,15],
    [2,4,21,2,0,3,1,12,0,5,3,8,1,10,2,1,0,6,2,0,6,4,1,0,5,13,8,1,0,18,5,0],
    [9,2,12,2,4,4,0,4,0,9,7,7,8,1,10,3,4,25,6,1,12,0,4,48,0,34,0,3,8,1,8,4],
    [0,0,10,13,2,5,0,3,1,6,8,17,3,2,11,0,3,10,18,12,19,0,14,7,6,8,10,6,12,4,9,2],
    [8,4,5,14,0,6,1,9,5,2,1,9,17,0,3,5,3,0,2,10,0,1,9,5,11,1,6,32,18,23,4,21],
    [2,19,1,0,16,19,8,1,9,2,1,9,6,8,4,14,14,10,6,2,21,18,5,1,8,16,3,3,4,12,11,19],
    [12,6,17,4,8,2,1,3,2,12,2,14,7,15,19,3,6,4,0,0,1,18,2,1,0,23,11,9,5,2,3,8],
    [22,1,2,20,0,24,7,12,0,10,9,9,7,6,6,4,4,3,16,13,11,5,10,8,16,4,0,14,3,6,1,12],
    [24,8,18,14,4,3,2,4,18,5,2,0,5,8,10,5,22,6,9,1,13,5,4,13,0,7,7,5,7,4,5,16],
    [16,3,2,0,12,13,16,9,5,1,6,11,1,2,1,36,9,5,3,2,13,3,9,8,0,18,7,6,9,26,1,17],
    [17,4,20,1,3,24,4,12,11,1,0,5,16,4,11,4,10,0,5,22,6,13,21,38,1,1,3,13,24,6,19,4],
    [5,1,4,6,14,21,0,22,6,3,1,9,3,1,4,2,4,3,6,7,3,9,17,19,14,1,0,2,10,12,11,4],
    [1,5,10,0,5,4,1,0,2,0,14,2,4,0,13,3,0,19,1,5,11,15,9,1,0,9,4,7,18,19,7,5],
    [5,7,0,7,10,0,10,4,18,4,7,3,14,1,6,5,6,14,1,9,0,11,3,3,5,13,6,4,4,6,5,1],
    [5,13,9,8,5,0,6,1,4,3,1,6,0,2,3,3,2,1,0,10,6,8,1,3,3,14,1,9,2,0,26,8],
    [4,8,7,6,2,2,9,5,5,1,2,4,3,6,2,6,5,2,4,2,2,0,12,8,7,21,2,3,5,1,12,12],
    [2,1,26,4,4,2,8,3,12,5,0,0,22,36,2,1,3,3,4,9,8,23,12,2,4,15,15,2,10,18,5,19],
    [14,5,0,11,4,24,5,7,0,0,22,0,2,5,3,6,14,0,11,4,3,0,7,0,9,1,9,2,1,4,2,1],
    [7,23,5,6,14,5,10,0,16,0,3,2,13,11,4,4,5,1,4,0,13,1,11,13,0,15,7,4,2,1,0,11],
    [4,1,6,5,1,9,7,1,12,1,21,2,2,12,11,8,9,14,8,12,6,11,6,2,1,6,6,1,0,8,1,16],
    [2,14,15,8,1,7,17,10,49,6,5,22,3,8,1,6,4,0,3,13,36,12,5,3,9,1,30,23,4,21,5,8],
    [12,15,2,4,0,25,9,6,4,25,5,5,4,0,13,3,0,1,6,0,20,1,2,2,4,5,8,12,6,10,15,5],
    [7,1,9,1,9,3,11,10,0,8,16,6,4,1,0,4,6,0,2,0,3,2,0,2,26,1,14,2,10,26,7,16],
    [2,7,3,3,14,9,3,1,1,6,4,6,14,7,0,24,1,0,6,19,3,0,1,1,5,4,0,0,2,24,5,11],
    [13,2,17,10,5,19,9,11,7,0,9,2,12,3,1,0,17,4,4,8,5,19,11,13,7,3,13,4,3,1,6,8],
    [7,4,12,8,16,14,2,12,6,28,7,0,8,4,2,10,24,6,11,1,6,2,1,3,4,0,0,1,0,2,2,3],
    [12,8,3,9,4,3,15,1,9,15,11,13,9,5,30,3,10,7,2,4,0,20,2,1,15,1,3,3,4,30,11,1],
    [1,5,4,0,6,2,0,5,13,0,12,16,0,5,13,4,5,2,3,6,2,10,3,8,4,9,14,3,3,11,3,5],
    [8,0,18,4,4,8,20,1,3,2,4,6,1,4,0,7,7,20,14,0,14,1,4,11,1,0,32,1,7,0,17,1],
    [3,1,6,5,10,15,8,4,4,5,1,21,11,13,7,0,7,9,0,5,9,3,5,7,6,4,18,5,4,0,0,7],
    [6,2,11,0,17,19,19,2,5,3,2,4,7,6,14,0,12,2,1,11,5,4,12,10,12,11,20,0,0,4,4,12],
    [11,36,14,2,3,8,11,13,2,14,7,3,4,9,0,1,15,3,2,4,6,1,4,0,14,0,5,16,6,14,8,4],
    [2,5,24,0,4,9,2,5,3,9,4,1,5,10,3,2,16,7,6,50,3,0,19,3,5,13,21,2,1,54,3,14],
    [30,6,10,1,27,2,7,0,1,10,8,5,0,3,1,0,6,1,1,5,5,13,3,1,0,5,7,18,29,7,0,15],
    [5,6,15,5,1,29,2,1,23,1,4,8,1,0,12,10,4,0,5,7,0,2,6,0,7,40,6,4,3,2,1,4],
    [2,4,12,3,2,4,12,7,3,18,16,19,8,4,3,2,2,1,3,1,6,0,11,3,6,16,3,33,16,18,0,5],
    [0,0,14,7,2,17,6,3,1,12,5,1,21,15,2,10,35,1,10,9,32,0,17,14,7,6,23,34,14,7,0,21],
    [46,1,3,7,13,2,5,0,0,20,13,0,14,0,3,7,1,0,10,0,12,35,4,12,13,3,5,7,1,3,1,12],
    [12,5,0,11,16,3,2,1,19,2,7,0,20,7,4,9,31,0,24,2,7,0,11,19,20,5,6,14,13,0,0,1],
    [9,8,7,22,18,1,18,0,10,12,0,7,1,17,7,13,9,11,0,15,1,4,9,2,0,6,2,10,0,11,9,6],
    [1,22,30,8,3,0,8,6,3,14,9,2,25,21,6,1,3,2,8,33,12,14,12,0,14,10,0,10,4,2,2,3],
    [5,5,6,2,2,1,3,2,0,0,2,10,9,11,10,0,4,6,2,4,15,9,4,12,2,7,1,8,11,4,3,4],
    [7,9,8,12,5,1,6,5,1,0,2,7,3,12,1,9,0,4,0,14,4,0,3,1,1,2,7,4,20,10,19,12],
    [2,33,8,7,6,0,11,9,6,16,3,0,1,1,11,4,6,8,7,9,12,5,0,2,22,0,3,11,6,14,13,3],
    [8,4,1,2,11,13,21,31,0,5,5,3,0,7,0,0,1,10,17,25,3,24,31,4,18,1,4,24,7,10,9,7],
    [4,0,8,9,3,1,9,3,13,6,0,2,6,6,7,0,3,8,9,8,16,15,6,14,3,12,4,16,3,1,9,8],
    [8,4,6,1,0,12,4,1,45,13,1,0,1,1,8,1,6,21,1,0,6,28,19,5,4,7,0,4,9,8,13,1],
    [9,2,13,26,1,4,5,4,6,6,2,15,0,17,13,2,7,0,8,11,1,9,19,10,3,4,4,0,1,9,8,1],
    [19,3,5,4,0,4,7,5,4,24,2,2,9,8,1,7,5,1,1,2,4,13,18,41,22,3,1,3,6,11,0,0],
    [5,6,0,8,6,0,1,9,17,1,3,6,7,12,15,8,12,15,13,1,0,37,6,15,1,3,17,11,28,3,1,3],
    [0,8,0,30,2,39,5,7,0,2,2,9,2,23,6,20,8,7,8,16,1,2,8,1,33,16,0,6,46,4,2,10],
    [0,0,2,6,5,7,15,6,4,3,20,1,6,6,10,0,18,2,0,0,1,0,2,19,12,15,14,7,30,2,1,6]]
/-- The table, from these steps of two rows of the mix. -/
def datasetSizes : List Nat := datasetSteps.zipIdx.map fun entry => 1073741824 + 8388608*entry.2 - 128 - 256*entry.1

/-- The loop of `calcDatasetSize`. `ProbablyPrime` is exact for the numbers below 2^64. -/
def shrink : Nat → UInt64 → Option UInt64
  | 0, _ => none
  | fuel + 1, size =>
    if Nat.Prime (size / mixBytes).toNat then some size else shrink fuel (size - 2*mixBytes)
/-- `none` would be a loop without an end: see `datasetSize_spec`. -/
def calcDatasetSize (epoch : Nat) : Option UInt64 :=
  shrink (2^64) (datasetInitBytes + datasetGrowthBytes*UInt64.ofNat epoch - mixBytes)
def datasetSize (block : UInt64) : Option UInt64 :=
  let epoch := (block / epochLength).toNat
  if epoch < maxEpoch then some (UInt64.ofNat (datasetSizes.getD epoch 0)) else calcDatasetSize epoch

/-- What the dataset needs of its size: whole rows of the mix, and a hundredth of it is still an item. -/
structure Sized (size : UInt64) : Prop where
  rows : size.toNat % 128 = 0
  large : 6400 ≤ size.toNat

/-- The quotients run through the odd numbers and 65521 is prime, so the loop ends there or before. -/
theorem shrink_spec (fuel : Nat) (size : UInt64) (rows : size.toNat % 128 = 0) (odd : size.toNat/128 % 2 = 1)
    (large : 65521 ≤ size.toNat/128) (enough : size.toNat < fuel) : ∃ size', shrink fuel size = some size' ∧ Sized size' := by
  induction fuel generalizing size with
  | zero => omega
  | succ fuel ih =>
    have quotient : (size / mixBytes).toNat = size.toNat/128 := by simp [mixBytes]
    rw [shrink,quotient]
    split
    next prime => exact ⟨size,rfl,rows,by omega⟩
    next composite =>
      have beyond : size.toNat/128 ≠ 65521 := fun same => composite (by rw [same]; norm_num)
      have smaller : (size - 2*mixBytes).toNat = size.toNat - 256 := by
        rw [UInt64.toNat_sub,show (2*mixBytes : UInt64).toNat = 256 from rfl]
        have := size.toNat_lt
        omega
      exact ih _ (by omega) (by omega) (by omega) (by omega)

theorem datasetSizes_sized : datasetSizes.length = maxEpoch ∧ ∀ size ∈ datasetSizes, size % 128 = 0 ∧ 6400 ≤ size ∧ size < 2^64 := by
  decide +kernel
example : datasetSizes.take 4 = [1073739904,1082130304,1090514816,1098906752] ∧ datasetSizes.getLast? = some 18245220736 := by
  decide +kernel

/-- Every epoch has a size. -/
theorem datasetSize_spec (block : UInt64) : ∃ size, datasetSize block = some size ∧ Sized size := by
  simp only [datasetSize]
  split
  next listed =>
    obtain ⟨rows,large,fits⟩ := datasetSizes_sized.2 (datasetSizes.getD (block / epochLength).toNat 0) (by
      rw [List.getD_eq_getElem?_getD,List.getElem?_eq_getElem (by rw [datasetSizes_sized.1]; exact listed),Option.getD_some]
      exact List.getElem_mem _)
    have value : (UInt64.ofNat (datasetSizes.getD (block / epochLength).toNat 0)).toNat = _ := UInt64.toNat_ofNat_of_lt fits
    exact ⟨_,rfl,by rw [value]; exact rows,by rw [value]; exact large⟩
  next =>
    generalize (block / epochLength).toNat = epoch
    have start : (datasetInitBytes + datasetGrowthBytes*UInt64.ofNat epoch - mixBytes).toNat =
        (2^64 - 128 + (2^30 + 2^23*epoch) % 2^64) % 2^64 := by
      rw [UInt64.toNat_sub,UInt64.toNat_add,UInt64.toNat_mul,UInt64.toNat_ofNat',show mixBytes.toNat = 128 from rfl,
        show datasetInitBytes.toNat = 2^30 from rfl,show datasetGrowthBytes.toNat = 2^23 from rfl]
      omega
    exact shrink_spec _ _ (by omega) (by omega) (by omega) (UInt64.toNat_lt _)

end Canchain.Hashimoto
