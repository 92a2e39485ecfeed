import Canchain.Rlp

/-!
The memory of a call and its fee, after `kernel/vm/memory.go`, `gas_table.go` and
`common.go`. The fee is quadratic in the words and computed in 64 bits: the cut-off lets the
square wrap, so it is right only for fewer than 2^32 words (`memory_fee_exact_iff`).
-/
namespace Canchain.Evm
open List Except Prod UInt64
open Rlp (Bytes)

def memoryGas : UInt64 := 3
def quadCoeffDiv : UInt64 := 512

inductive GasError where
  /-- "gas uint64 overflow" -/
  | gasUintOverflow
  deriving DecidableEq

structure Memory where
  store : Bytes
  lastGasCost : UInt64
  deriving DecidableEq
def newMemory : Memory := ⟨[],0⟩
def Memory.len (m : Memory) : Nat := m.store.length
def Memory.resize (m : Memory) (size : UInt64) : Memory :=
  if UInt64.ofNat m.len < size then { m with store := m.store ++ List.replicate (size - UInt64.ofNat m.len).toNat 0 } else m

def toWordSize (size : UInt64) : UInt64 := if size > 0xffffffffffffffff - 31 then 0xffffffffffffffff/32 + 1 else (size + 31)/32
/-- The fee, and the memory with the fee paid so far. -/
def memoryGasCost (mem : Memory) (newMemSize : UInt64) : Except GasError (UInt64 × Memory) :=
  if newMemSize = 0 then .ok (0,mem)
  else if newMemSize > 0xffffffffe0 then .error .gasUintOverflow
  else
    let newMemSizeWords := toWordSize newMemSize
    let newMemSize := newMemSizeWords*32
    if newMemSize > UInt64.ofNat mem.len then
      let square := newMemSizeWords*newMemSizeWords
      let linCoef := newMemSizeWords*memoryGas
      let quadCoef := square/quadCoeffDiv
      let newTotalFee := linCoef + quadCoef
      .ok (newTotalFee - mem.lastGasCost,{ mem with lastGasCost := newTotalFee })
    else .ok (0,mem)
/-- What the interpreter does for an operation that needs this size: the fee, then the memory. -/
def expand (mem : Memory) (size : UInt64) : Except GasError (UInt64 × Memory) :=
  match memoryGasCost mem size with
  | .error e => .error e
  | .ok (fee,mem) => .ok (fee,mem.resize (toWordSize size*32))
/-- The fees of several expansions in a row. -/
def expandAll : List UInt64 → Memory → Except GasError (List UInt64 × Memory)
  | [], mem => .ok ([],mem)
  | size :: sizes, mem =>
    match expand mem size with
    | .error e => .error e
    | .ok (fee,mem) =>
      match expandAll sizes mem with
      | .error e => .error e
      | .ok (fees,mem) => .ok (fee :: fees,mem)

/-- The fee of so many words, over the integers. -/
def wordsFee (w : Nat) : Nat := 3*w + w*w/512
def wordsOf (size : UInt64) : Nat := (size.toNat + 31)/32
/-- The words of the largest size asked for, or so many if they are more. -/
def largestFrom (w : Nat) (sizes : List UInt64) : Nat := sizes.foldl (fun w size => max w (wordsOf size)) w
def largest (sizes : List UInt64) : Nat := largestFrom 0 sizes
def paid (fees : List UInt64) : Nat := (fees.map UInt64.toNat).sum

/-- What the code makes of it: the square is reduced modulo 2^64. -/
def wrappedFee (w : Nat) : Nat := 3*w + w*w%2^64/512

variable {w : Nat} {size : UInt64} {mem mem' : Memory}
private theorem wrappedFee_small (small : w < 2^32) : wrappedFee w = wordsFee w := by
  have square : w*w < 2^64 := by nlinarith
  rw [wrappedFee,wordsFee,Nat.mod_eq_of_lt square]
/-- A fee that wraps falls short by a multiple of 2^55 that is no multiple of 2^64. -/
private theorem wrappedFee_large (large : 2^32 ≤ w) (bounded : w < 2^35) :
    wrappedFee w < wordsFee w ∧ wordsFee w < wrappedFee w + 2^64 := by
  have low : 2^64 ≤ w*w := by nlinarith
  have high : w*w < 2^70 := by nlinarith
  unfold wrappedFee wordsFee
  omega
private theorem wordsFee_mono {w' : Nat} (le : w ≤ w') : wordsFee w ≤ wordsFee w' := by
  have : w*w ≤ w'*w' := Nat.mul_le_mul le le
  unfold wordsFee
  omega

private theorem toWordSize_eq (accepted : size.toNat ≤ 0xffffffffe0) :
    (toWordSize size).toNat = wordsOf size ∧ wordsOf size < 2^35 := by
  have small : ¬ size > 0xffffffffffffffff - 31 := by
    rw [gt_iff_lt,lt_iff_toNat_lt]
    simp
    omega
  rw [toWordSize,if_neg small,UInt64.toNat_div,UInt64.toNat_add]
  unfold wordsOf
  simp
  omega
/-- The memory is of so many words, and what the code takes their fee to be is paid. -/
structure Holds (mem : Memory) (w : Nat) : Prop where
  size : mem.store.length = 32*w
  fee : mem.lastGasCost.toNat = wrappedFee w
  bounded : w < 2^35

private theorem holds_newMemory : Holds newMemory 0 := ⟨rfl,rfl,by omega⟩
private theorem wrappedFee_lt (bounded : w < 2^35) : wrappedFee w < 2^56 := by
  unfold wrappedFee
  omega
private theorem memoryGasCost_large (large : 0xffffffffe0 < size.toNat) : memoryGasCost mem size = .error .gasUintOverflow := by
  have some : size ≠ 0 := by
    rintro rfl
    simp at large
  rw [memoryGasCost,if_neg some,if_pos (by rw [gt_iff_lt,lt_iff_toNat_lt]; simpa using large)]
/-- The fee of the code for an accepted size. -/
private theorem newTotalFee_eq (accepted : size.toNat ≤ 0xffffffffe0) :
    (toWordSize size*memoryGas + toWordSize size*toWordSize size/quadCoeffDiv).toNat = wrappedFee (wordsOf size) := by
  obtain ⟨words,bounded⟩ := toWordSize_eq accepted
  simp only [UInt64.toNat_add,UInt64.toNat_mul,UInt64.toNat_div,words,memoryGas,quadCoeffDiv,wrappedFee]
  simp
  omega
private theorem memoryGasCost_spec (holds : Holds mem w) (accepted : size.toNat ≤ 0xffffffffe0) :
    (wordsOf size ≤ w ∧ memoryGasCost mem size = .ok (0,mem)) ∨
      (w < wordsOf size ∧ ∃ total : UInt64, total.toNat = wrappedFee (wordsOf size) ∧
        memoryGasCost mem size = .ok (total - mem.lastGasCost,⟨mem.store,total⟩)) := by
  obtain ⟨words,bounded⟩ := toWordSize_eq accepted
  have := holds.bounded
  by_cases none : size = 0
  · subst none
    exact .inl ⟨by simp [wordsOf],rfl⟩
  have inside : ¬ size > 0xffffffffe0 := by
    rw [gt_iff_lt,lt_iff_toNat_lt]
    simpa using accepted
  have grows : toWordSize size*32 > ofNat mem.len ↔ w < wordsOf size := by
    rw [gt_iff_lt,lt_iff_toNat_lt,UInt64.toNat_mul,words,Memory.len,holds.size]
    simp
    omega
  by_cases more : w < wordsOf size
  · refine .inr ⟨more,_,newTotalFee_eq accepted,?_⟩
    rw [memoryGasCost,if_neg none,if_neg inside]
    exact if_pos (grows.mpr more)
  · refine .inl ⟨by omega,?_⟩
    rw [memoryGasCost,if_neg none,if_neg inside]
    exact if_neg (mt grows.mp more)
private theorem resize_spec (size : mem.store.length = 32*w) (bounded : w < 2^35) {asked : UInt64}
    (accepted : asked.toNat ≤ 0xffffffffe0) :
    (mem.resize (toWordSize asked*32)).store.length = 32*max w (wordsOf asked) ∧
      (mem.resize (toWordSize asked*32)).lastGasCost = mem.lastGasCost := by
  obtain ⟨words,_⟩ := toWordSize_eq accepted
  have target : (toWordSize asked*32).toNat = 32*wordsOf asked := by
    rw [UInt64.toNat_mul,words]
    simp
    omega
  have length : (ofNat mem.len).toNat = 32*w := by
    rw [Memory.len,size]
    simp
    omega
  unfold Memory.resize
  split
  · rename_i less
    rw [lt_iff_toNat_lt,target,length] at less
    refine ⟨?_,rfl⟩
    rw [length_append,length_replicate,UInt64.toNat_sub_of_le _ _ (le_iff_toNat_le.mpr (by omega)),size,target,length]
    omega
  · rename_i enough
    rw [lt_iff_toNat_lt,target,length] at enough
    exact ⟨by rw [size]; omega,rfl⟩
/-- An expansion is accepted up to the cut-off. It takes the memory to the largest size so far, and the fee is the difference
    of the fees, modulo 2^64. -/
private theorem expand_spec (holds : Holds mem w) {fee : UInt64}
    (done : expand mem size = .ok (fee,mem')) : Holds mem' (max w (wordsOf size)) ∧
      fee.toNat = (wrappedFee (max w (wordsOf size)) + 2^64 - wrappedFee w) % 2^64 := by
  have accepted : size.toNat ≤ 0xffffffffe0 := by
    by_contra large
    rw [expand,memoryGasCost_large (by omega)] at done
    cases done
  have small := wrappedFee_lt holds.bounded
  obtain ⟨-,bounded⟩ := toWordSize_eq accepted
  rcases memoryGasCost_spec holds accepted with ⟨less,free⟩ | ⟨more,total,isFee,charged⟩
  · rw [expand,free] at done
    obtain ⟨rfl,rfl⟩ := mk.inj (ok.inj done)
    obtain ⟨length,cost⟩ := resize_spec holds.size holds.bounded accepted
    rw [max_eq_left less] at length ⊢
    refine ⟨⟨length,by rw [cost,holds.fee],holds.bounded⟩,?_⟩
    simp
  · rw [expand,charged] at done
    obtain ⟨rfl,rfl⟩ := mk.inj (ok.inj done)
    obtain ⟨length,cost⟩ := resize_spec (show (Memory.mk mem.store total).store.length = _ from holds.size) holds.bounded accepted
    rw [max_eq_right more.le] at length ⊢
    refine ⟨⟨length,by rw [cost,isFee],bounded⟩,?_⟩
    have large := wrappedFee_lt bounded
    rw [UInt64.toNat_sub,isFee,holds.fee]
    omega

private theorem expandAll_cons {sizes fees : List UInt64}
    (done : expandAll (size :: sizes) mem = .ok (fees,mem')) : ∃ fee mem₁ fees', expand mem size = .ok (fee,mem₁) ∧
      expandAll sizes mem₁ = .ok (fees',mem') ∧ fees = fee :: fees' := by
  simp only [expandAll] at done
  split at done
  · cases done
  rename_i fee mem₁ first
  split at done
  · cases done
  rename_i fees' mem₂ rest
  obtain ⟨rfl,rfl⟩ := mk.inj (ok.inj done)
  exact ⟨fee,mem₁,fees',first,rest,rfl⟩
/-- From a memory of fewer than 2^32 words on, the fees add up as long as sizes stay below that. -/
private theorem fees_exact_iff {sizes fees : List UInt64} (holds : Holds mem w) (small : w < 2^32)
    (done : expandAll sizes mem = .ok (fees,mem')) :
    (∀ k ≤ sizes.length, paid (fees.take k) + wordsFee w = wordsFee (largestFrom w (sizes.take k))) ↔
      ∀ size ∈ sizes, wordsOf size < 2^32 := by
  induction sizes generalizing fees mem w with
  | nil =>
    obtain ⟨rfl,-⟩ := mk.inj (ok.inj done)
    simp [paid,largestFrom]
  | cons size sizes ih =>
    obtain ⟨fee,mem₁,fees,first,rest,rfl⟩ := expandAll_cons done
    obtain ⟨holds₁,isFee⟩ := expand_spec holds first
    by_cases fits : wordsOf size < 2^32
    · have small₁ : max w (wordsOf size) < 2^32 := by omega
      rw [wrappedFee_small small,wrappedFee_small small₁] at isFee
      have more : wordsFee w ≤ wordsFee (max w (wordsOf size)) := wordsFee_mono (by omega)
      have bounded := wrappedFee_lt holds₁.bounded
      rw [wrappedFee_small small₁] at bounded
      have exactly : fee.toNat + wordsFee w = wordsFee (max w (wordsOf size)) := by omega
      have tail := ih holds₁ small₁ rest
      simp only [forall_mem_cons,fits,true_and,← tail]
      constructor
      · intro all k inside
        have step := all (k+1) (by simpa using inside)
        simp only [take_succ_cons,paid,map_cons,sum_cons,largestFrom,foldl_cons] at step ⊢
        omega
      · intro all k inside
        cases k with
        | zero => simp [paid,largestFrom]
        | succ k =>
          have step := all k (by simpa using inside)
          simp only [take_succ_cons,paid,map_cons,sum_cons,largestFrom,foldl_cons] at step ⊢
          omega
    · refine iff_of_false (fun all => ?_) fun all => fits (all size mem_cons_self)
      have step := all 1 (by simp)
      simp only [take_succ_cons,take_zero,paid,map_cons,map_nil,sum_cons,sum_nil,largestFrom,
        foldl_cons,foldl_nil] at step
      have isMax : max w (wordsOf size) = wordsOf size := by omega
      rw [isMax] at step isFee holds₁
      have short := wrappedFee_large (by omega) holds₁.bounded
      rw [wrappedFee_small small] at isFee
      omega

/-- The fees of a sequence of accepted expansions add up to the fee of the largest size at each step exactly if all sizes are of
    fewer than 2^32 words. -/
theorem memory_fee_exact_iff (sizes fees : List UInt64) (mem : Memory) (accepted : expandAll sizes newMemory = .ok (fees,mem)) :
    (∀ k ≤ sizes.length, paid (fees.take k) = wordsFee (largest (sizes.take k))) ↔ ∀ size ∈ sizes, wordsOf size < 2^32 := by
  exact fees_exact_iff holds_newMemory (by omega) accepted
theorem memory_fee_exact_some : ∃ fees mem, expandAll [64,20,100] newMemory = .ok (fees,mem) ∧
    ∀ k ≤ 3, paid (fees.take k) = wordsFee (largest ([64,20,100].take k)) :=
  ⟨_,_,rfl,(memory_fee_exact_iff [64,20,100] _ _ rfl).mpr (by simp [wordsOf])⟩
/-- The square of 2^32 words is 0 in 64 bits. -/
theorem memory_fee_wraps : ∃ fee mem, expandAll [0x2000000000] newMemory = .ok ([fee],mem) ∧ paid [fee] = 12884901888 ∧
    wordsFee (largest [0x2000000000]) = 36028809903865856 := by
  refine ⟨12884901888,⟨replicate 0x2000000000 0,12884901888⟩,?_,by decide,by decide⟩
  have charged : memoryGasCost newMemory 0x2000000000 = .ok (12884901888,⟨[],12884901888⟩) := by decide +kernel
  have grown : Memory.resize ⟨[],12884901888⟩ (toWordSize 0x2000000000*32) = ⟨replicate 0x2000000000 0,12884901888⟩ := by
    rw [Memory.resize,if_pos (by decide +kernel),nil_append]
    rw [show (toWordSize 0x2000000000*32 - UInt64.ofNat (Memory.len ⟨[],12884901888⟩)).toNat = 0x2000000000 by decide +kernel]
  simp only [expandAll,expand,charged,grown]

end Canchain.Evm
