import Canchain.Common

/-!
Keccak-256 and Keccak-512, after `lib/crypto/sha3`: a sponge of 25 lanes of 64 bits that
takes in 136 or 72 bytes at a time. The permutation is written as its five steps, round by
round; the source merges the steps and unrolls four rounds. A lane is a natural
number below 2^64.
-/
namespace Canchain.Keccak
open Rlp Common List Nat

/-- The lane at 5*y + x is the one at column x and row y. -/
abbrev Lanes := List Nat

def Lanes.at (a : Lanes) (i : Nat) : Nat := a.getD i 0
def rotate (lane by_ : Nat) : Nat := (lane <<< by_) % 2^64 ||| lane >>> (64 - by_)
/-- The round constants of the ι step. -/
def rc : List Nat :=
  [0x0000000000000001,0x0000000000008082,0x800000000000808A,0x8000000080008000,0x000000000000808B,0x0000000080000001,
   0x8000000080008081,0x8000000000008009,0x000000000000008A,0x0000000000000088,0x0000000080008009,0x000000008000000A,
   0x000000008000808B,0x800000000000008B,0x8000000000008089,0x8000000000008003,0x8000000000008002,0x8000000000000080,
   0x000000000000800A,0x800000008000000A,0x8000000080008081,0x8000000000008080,0x0000000080000001,0x8000000080008008]
/-- The rotations of the ρ step. -/
def offsets : Lanes := [0,1,62,28,27, 36,44,6,55,20, 3,10,43,25,39, 41,45,15,21,8, 18,2,61,56,14]

def theta (a : Lanes) : Lanes :=
  let c : Lanes := (List.range 5).map fun x => a.at x ^^^ a.at (x+5) ^^^ a.at (x+10) ^^^ a.at (x+15) ^^^ a.at (x+20)
  let d : Lanes := (List.range 5).map fun x => c.at ((x+4)%5) ^^^ rotate (c.at ((x+1)%5)) 1
  (List.range 25).map fun i => a.at i ^^^ d.at (i%5)
/-- ρ and π: the lane at x and y, rotated, goes to column y and row 2x + 3y. -/
def rhoPi (a : Lanes) : Lanes :=
  (List.range 25).map fun i =>
    let source := 5*(i%5) + (i/5 + 20 - 3*(i%5))*3%5
    rotate (a.at source) (offsets.at source)
def chi (a : Lanes) : Lanes :=
  (List.range 25).map fun i => a.at i ^^^ ((a.at (i/5*5 + (i+1)%5) ^^^ (2^64 - 1)) &&& a.at (i/5*5 + (i+2)%5))
def iota (constant : Nat) : Lanes → Lanes
  | [] => []
  | first :: rest => (first ^^^ constant) :: rest
def keccakF1600 (a : Lanes) : Lanes := rc.foldl (fun a constant => iota constant (chi (rhoPi (theta a)))) a

def laneOf (b : Bytes) : Nat := b.foldr (fun x lane => x.toNat + 256*lane) 0
def bytesOf : Nat → Nat → Bytes
  | 0, _ => []
  | n + 1, lane => UInt8.ofNat (lane%256) :: bytesOf n (lane/256)
/-- `xorIn` of a block. -/
def xorIn (a : Lanes) (block : Bytes) : Lanes := (List.range 25).map fun i => a.at i ^^^ laneOf ((block.drop (8*i)).take 8)
/-- `padAndPermute` before the permutation: the domain byte 1 and the final bit. -/
def padTo (rate : Nat) (rest : Bytes) : Bytes :=
  if rest.length = rate - 1 then rest ++ [0x81] else rest ++ 1 :: List.replicate (rate - 2 - rest.length) 0 ++ [0x80]
/-- `Write` and `padAndPermute`, with a block for each unit of fuel. -/
def absorbAt (rate : Nat) : Nat → Lanes → Bytes → Lanes
  | 0, a, rest => keccakF1600 (xorIn a (padTo rate rest))
  | fuel + 1, a, rest => absorbAt rate fuel (keccakF1600 (xorIn a (rest.take rate))) (rest.drop rate)
def keccak256 (data : Bytes) : Hash :=
  let a := absorbAt 136 (data.length/136) (List.replicate 25 0) data
  ⟨bytesOf 8 (a.at 0) ++ (bytesOf 8 (a.at 1) ++ (bytesOf 8 (a.at 2) ++ bytesOf 8 (a.at 3))),by simp [bytesOf]⟩
def keccak512 (data : Bytes) : Bytes :=
  let a := absorbAt 72 (data.length/72) (List.replicate 25 0) data
  (List.range 8).flatMap fun i => bytesOf 8 (a.at i)

theorem bytesOf_length (n lane : Nat) : (bytesOf n lane).length = n := by
  induction n generalizing lane with
  | zero => rfl
  | succ n ih => simp [bytesOf,ih]
theorem keccak512_length (data : Bytes) : (keccak512 data).length = 64 := by
  simp [keccak512,bytesOf_length]

/-! ### Evaluation

The steps once more, on one number that holds the 25 lanes. The functions of `Nat`
are written out: the kernel computes them at once. -/

def ones : Nat := 0xffffffffffffffff
def lane (s i : Nat) : Nat := Nat.land (Nat.shiftRight s (Nat.mul 64 i)) ones
def pack : Lanes → Nat
  | [] => 0
  | first :: rest => Nat.lor first (Nat.shiftLeft (pack rest) 64)
def turn (lane by_ : Nat) : Nat := Nat.lor (Nat.land (Nat.shiftLeft lane by_) ones) (Nat.shiftRight lane (Nat.sub 64 by_))

/-- The sums of the columns, in the lowest five lanes. -/
def columns (s : Nat) : Nat :=
  Nat.xor s (Nat.xor (Nat.shiftRight s 320) (Nat.xor (Nat.shiftRight s 640) (Nat.xor (Nat.shiftRight s 960) (Nat.shiftRight s 1280))))
def spread (c : Nat) : Lanes :=
  [Nat.xor (lane c 4) (turn (lane c 1) 1),Nat.xor (lane c 0) (turn (lane c 2) 1),
    Nat.xor (lane c 1) (turn (lane c 3) 1),Nat.xor (lane c 2) (turn (lane c 4) 1),Nat.xor (lane c 3) (turn (lane c 0) 1)]
def rows (d : Nat) : Nat :=
  Nat.lor d (Nat.lor (Nat.shiftLeft d 320) (Nat.lor (Nat.shiftLeft d 640) (Nat.lor (Nat.shiftLeft d 960) (Nat.shiftLeft d 1280))))
def thetaPacked (s : Nat) : Nat := Nat.xor s (rows (pack (spread (columns s))))
def rhoPiPacked (s : Nat) : Nat :=
  pack [turn (lane s 0) 0,turn (lane s 6) 44,turn (lane s 12) 43,turn (lane s 18) 21,turn (lane s 24) 14,
    turn (lane s 3) 28,turn (lane s 9) 20,turn (lane s 10) 3,turn (lane s 16) 45,turn (lane s 22) 61,
    turn (lane s 1) 1,turn (lane s 7) 6,turn (lane s 13) 25,turn (lane s 19) 8,turn (lane s 20) 18,
    turn (lane s 4) 27,turn (lane s 5) 36,turn (lane s 11) 10,turn (lane s 17) 15,turn (lane s 23) 56,
    turn (lane s 2) 62,turn (lane s 8) 55,turn (lane s 14) 39,turn (lane s 15) 41,turn (lane s 21) 2]
/-- The lanes of the mask are full where the bit of their column is set. -/
def mask (b0 b1 b2 b3 b4 : Bool) : Nat :=
  let full (b : Bool) : Nat := if b then ones else 0
  rows (pack [full b0,full b1,full b2,full b3,full b4])
/-- Each lane becomes the next one in its row, or the one after that. -/
def next (s : Nat) : Nat :=
  Nat.lor (Nat.land (Nat.shiftRight s 64) (mask true true true true false))
    (Nat.land (Nat.shiftLeft s 256) (mask false false false false true))
def nextButOne (s : Nat) : Nat :=
  Nat.lor (Nat.land (Nat.shiftRight s 128) (mask true true true false false))
    (Nat.land (Nat.shiftLeft s 192) (mask false false false true true))
def chiPacked (s : Nat) : Nat :=
  Nat.xor s (Nat.land (Nat.xor (next s) (mask true true true true true)) (nextButOne s))
def permutePacked (s : Nat) : Nat := rc.foldl (fun s constant => Nat.xor (chiPacked (rhoPiPacked (thetaPacked s))) constant) s
def absorbPacked (rate : Nat) : Nat → Nat → Bytes → Nat
  | 0, s, rest => permutePacked (Nat.xor s (laneOf (padTo rate rest)))
  | fuel + 1, s, rest => absorbPacked rate fuel (permutePacked (Nat.xor s (laneOf (rest.take rate)))) (rest.drop rate)
def keccakPacked (data : Bytes) : Hash :=
  let s := absorbPacked 136 (data.length/136) 0 data
  ⟨bytesOf 8 (lane s 0) ++ (bytesOf 8 (lane s 1) ++ (bytesOf 8 (lane s 2) ++ bytesOf 8 (lane s 3))),by simp [bytesOf]⟩
def keccak512Packed (data : Bytes) : Bytes :=
  let s := absorbPacked 72 (data.length/72) 0 data
  (List.range 8).flatMap fun i => bytesOf 8 (lane s i)

/-! Lanes of numbers. -/

theorem testBit_lane (s i j : Nat) : (lane s i).testBit j = (s.testBit (64*i + j) && decide (j < 64)) := by
  have mask : ones = 2^64 - 1 := rfl
  change ((s >>> (64*i)) &&& ones).testBit j = _
  rw [testBit_and,mask,testBit_two_pow_sub_one,testBit_shiftRight]
theorem lane_lt (s i : Nat) : lane s i < 2^64 := by
  change (s >>> (64*i)) &&& (2^64 - 1) < 2^64
  rw [and_two_pow_sub_one_eq_mod]
  exact mod_lt _ (by decide)
theorem lane_xor (s t i : Nat) : lane (Nat.xor s t) i = lane s i ^^^ lane t i := by
  apply eq_of_testBit_eq
  intro j
  rw [testBit_xor,testBit_lane,testBit_lane,testBit_lane,show Nat.xor s t = s ^^^ t from rfl,testBit_xor]
  cases decide (j < 64) <;> simp
theorem lane_land (s t i : Nat) : lane (land s t) i = lane s i &&& lane t i := by
  apply eq_of_testBit_eq
  intro j
  rw [testBit_and,testBit_lane,testBit_lane,testBit_lane,show land s t = s &&& t from rfl,testBit_and]
  cases decide (j < 64) <;> simp
theorem lane_lor (s t i : Nat) : lane (lor s t) i = lane s i ||| lane t i := by
  apply eq_of_testBit_eq
  intro j
  rw [testBit_or,testBit_lane,testBit_lane,testBit_lane,show lor s t = s ||| t from rfl,testBit_or]
  cases decide (j < 64) <;> simp
theorem lane_shiftRight (s k i : Nat) : lane (shiftRight s (64*k)) i = lane s (i + k) := by
  apply eq_of_testBit_eq
  intro j
  rw [testBit_lane,testBit_lane,show shiftRight s (64*k) = s >>> (64*k) from rfl,testBit_shiftRight]
  congr 2
  omega
theorem lane_shiftLeft (s k i : Nat) : lane (shiftLeft s (64*k)) i = if i < k then 0 else lane s (i - k) := by
  apply eq_of_testBit_eq
  intro j
  rw [testBit_lane,show shiftLeft s (64*k) = s <<< (64*k) from rfl,testBit_shiftLeft]
  by_cases low : i < k
  · rw [if_pos low,zero_testBit]
    by_cases inside : j < 64
    · have below : ¬64*i + j ≥ 64*k := by omega
      simp [below]
    · simp [inside]
  · rw [if_neg low,testBit_lane]
    by_cases inside : j < 64
    · have above : 64*i + j ≥ 64*k := by omega
      have same : 64*i + j - 64*k = 64*(i - k) + j := by omega
      simp [above,same]
    · simp [inside]
theorem lane_zero (i : Nat) : lane 0 i = 0 := by
  apply eq_of_testBit_eq
  intro j
  simp [testBit_lane]
variable {s i : Nat} {a : Lanes}
theorem lane_small (small : s < 2^64) (i : Nat) : lane s i = if i = 0 then s else 0 := by
  have shifted : lane s i = (s >>> (64*i)) % 2^64 := and_two_pow_sub_one_eq_mod _ 64
  rw [shifted,shiftRight_eq_div_pow]
  by_cases first : i = 0
  · rw [first,if_pos rfl]
    simpa using mod_eq_of_lt small
  · have wide : 2^64 ≤ 2^(64*i) := Nat.pow_le_pow_right (by decide) (by omega)
    rw [if_neg first,div_eq_of_lt (small.trans_le wide)]
    rfl
theorem lane_pack (small : ∀ x ∈ a, x < 2^64) (i : Nat) : lane (pack a) i = a.at i := by
  induction a generalizing i with
  | nil => exact lane_zero i
  | cons first rest ih =>
    rw [pack,lane_lor,lane_small (small first (.head _)),lane_shiftLeft (pack rest) 1]
    cases i with
    | zero => simp [Lanes.at]
    | succ i =>
      simp [ih (fun x mem => small x (.tail _ mem)),Lanes.at]
theorem turn_rotate (lane by_ : Nat) : turn lane by_ = rotate lane by_ := by
  change ((lane <<< by_) &&& (2^64 - 1)) ||| lane >>> (64 - by_) = _
  rw [and_two_pow_sub_one_eq_mod]
  rfl

/-- The number holds the 25 lanes. -/
structure Holds (s : Nat) (a : Lanes) : Prop where
  length : a.length = 25
  lanes : ∀ i, lane s i = a.at i

theorem at_range (f : Nat → Nat) (i : Nat) : Lanes.at ((range 25).map f) i = if i < 25 then f i else 0 := by
  by_cases inside : i < 25 <;> simp [Lanes.at,inside]
theorem at_outside (outside : a.length ≤ i) : a.at i = 0 := by
  simp [Lanes.at,getElem?_eq_none outside]
theorem rotate_lt {lane : Nat} (small : lane < 2^64) (by_ : Nat) : rotate lane by_ < 2^64 := by
  refine or_lt_two_pow (mod_lt _ (by decide)) ?_
  rw [shiftRight_eq_div_pow]
  exact (Nat.div_le_self _ _).trans_lt small
theorem turn_lt (s i by_ : Nat) : turn (lane s i) by_ < 2^64 := by
  rw [turn_rotate]
  exact rotate_lt (lane_lt s i) by_

theorem lane_rows {d : Nat} (five : ∀ i ≥ 5, lane d i = 0) (i : Nat) :
    lane (rows d) i = if i < 25 then lane d (i%5) else 0 := by
  have shifted (k : Nat) : lane (shiftLeft d (64*k)) i = if i < k then 0 else lane d (i - k) := lane_shiftLeft d k i
  have first := shifted 5
  have second := shifted 10
  have third := shifted 15
  have fourth := shifted 20
  simp only [reduceMul] at first second third fourth
  simp only [rows,lane_lor,first,second,third,fourth]
  have cases_ : i < 5 ∨ 5 ≤ i ∧ i < 10 ∨ 10 ≤ i ∧ i < 15 ∨ 15 ≤ i ∧ i < 20 ∨ 20 ≤ i ∧ i < 25 ∨ 25 ≤ i := by omega
  have column (k : Nat) (low : 5*k ≤ i) (high : i < 5*k + 5) : lane d (i%5) = lane d (i - 5*k) := by
    congr 1
    omega
  rcases cases_ with row | ⟨low,row⟩ | ⟨low,row⟩ | ⟨low,row⟩ | ⟨low,row⟩ | row
  · rw [column 0 (by omega) (by omega)]
    simp (disch := omega) [if_pos,five]
  · rw [column 1 (by omega) (by omega)]
    simp (disch := omega) [if_pos,if_neg,five]
  · rw [column 2 (by omega) (by omega)]
    simp (disch := omega) [if_pos,if_neg,five]
  · rw [column 3 (by omega) (by omega)]
    simp (disch := omega) [if_pos,if_neg,five]
  · rw [column 4 (by omega) (by omega)]
    simp (disch := omega) [if_pos,if_neg,five]
  · simp (disch := omega) [five]

theorem theta_holds (holds : Holds s a) : Holds (thetaPacked s) (theta a) := by
  have column (x : Nat) : lane (columns s) x = a.at x ^^^ a.at (x+5) ^^^ a.at (x+10) ^^^ a.at (x+15) ^^^ a.at (x+20) := by
    have first := lane_shiftRight s 5 x
    have second := lane_shiftRight s 10 x
    have third := lane_shiftRight s 15 x
    have fourth := lane_shiftRight s 20 x
    simp only [reduceMul] at first second third fourth
    simp only [columns,lane_xor,first,second,third,fourth,holds.lanes,Nat.xor_assoc]
  have spreads (i : Nat) : lane (pack (spread (columns s))) i = (spread (columns s)).at i := by
    have small (x y : Nat) : Nat.xor (lane (columns s) x) (turn (lane (columns s) y) 1) < 2^64 :=
      xor_lt_two_pow (lane_lt _ _) (turn_lt _ _ _)
    refine lane_pack ?_ i
    simp only [spread,mem_cons,not_mem_nil,or_false,forall_eq_or_imp,forall_eq]
    exact ⟨small _ _,small _ _,small _ _,small _ _,small _ _⟩
  have five (i : Nat) (above : i ≥ 5) : lane (pack (spread (columns s))) i = 0 := by
    rw [spreads,at_outside above]
  refine ⟨by simp [theta],fun i => ?_⟩
  rw [thetaPacked,lane_xor,lane_rows five,theta,at_range,holds.lanes]
  by_cases inside : i < 25
  · rw [if_pos inside,if_pos inside,spreads]
    congr 1
    have row : i%5 = 0 ∨ i%5 = 1 ∨ i%5 = 2 ∨ i%5 = 3 ∨ i%5 = 4 := by omega
    rcases row with same | same | same | same | same <;> rw [same]
    all_goals
      simp only [spread,turn_rotate,column]
      rfl
  · rw [if_neg inside,if_neg inside,at_outside (by rw [holds.length]; omega)]
    rfl

theorem rhoPi_holds (holds : Holds s a) : Holds (rhoPiPacked s) (rhoPi a) := by
  refine ⟨by simp [rhoPi],fun i => ?_⟩
  rw [rhoPiPacked,lane_pack]
  · simp only [turn_rotate,holds.lanes]
    rfl
  · simp only [mem_cons,not_mem_nil,or_false,forall_eq_or_imp,forall_eq]
    simp only [turn_lt,and_self]

theorem lane_mask (b0 b1 b2 b3 b4 : Bool) (i : Nat) : lane (mask b0 b1 b2 b3 b4) i =
    if i < 25 then (if [b0,b1,b2,b3,b4].getD (i%5) false then ones else 0) else 0 := by
  have lanes (j : Nat) : lane (pack ([b0,b1,b2,b3,b4].map fun b => if b then ones else 0)) j =
      if [b0,b1,b2,b3,b4].getD j false then ones else 0 := by
    rw [lane_pack]
    · have row : j = 0 ∨ j = 1 ∨ j = 2 ∨ j = 3 ∨ j = 4 ∨ 5 ≤ j := by omega
      rcases row with rfl | rfl | rfl | rfl | rfl | above
      · rfl
      · rfl
      · rfl
      · rfl
      · rfl
      · rw [at_outside above]
        simp [getElem?_eq_none (show [b0,b1,b2,b3,b4].length ≤ j from above)]
    · intro x mem
      obtain ⟨b,-,rfl⟩ := mem_map.mp mem
      cases b <;> decide
  have five (j : Nat) (above : j ≥ 5) : lane (pack ([b0,b1,b2,b3,b4].map fun b => if b then ones else 0)) j = 0 := by
    rw [lanes]
    simp [getElem?_eq_none (show [b0,b1,b2,b3,b4].length ≤ j from above)]
  change lane (rows (pack ([b0,b1,b2,b3,b4].map fun b => if b then ones else 0))) i = _
  rw [lane_rows five,lanes]

theorem land_ones (s i : Nat) : lane s i &&& ones = lane s i := by
  change lane s i &&& (2^64 - 1) = _
  rw [and_two_pow_sub_one_eq_mod,mod_eq_of_lt (lane_lt s i)]

theorem lane_turned (s : Nat) (inside : i < 25) :
    lane (next s) i = lane s (i/5*5 + (i+1)%5) ∧ lane (nextButOne s) i = lane s (i/5*5 + (i+2)%5) := by
  have right := lane_shiftRight s 1 i
  have left := lane_shiftLeft s 4 i
  have right₂ := lane_shiftRight s 2 i
  have left₂ := lane_shiftLeft s 3 i
  simp only [reduceMul,Nat.mul_one] at right left right₂ left₂
  rw [next,nextButOne]
  simp only [lane_lor,lane_land,lane_mask,right,left,right₂,left₂,if_pos inside]
  have row : i%5 = 0 ∨ i%5 = 1 ∨ i%5 = 2 ∨ i%5 = 3 ∨ i%5 = 4 := by omega
  rcases row with same | same | same | same | same
  all_goals
    rw [same]
    simp only [getD_cons_zero,getD_cons_succ,if_true,if_false,Bool.false_eq_true,and_zero,or_zero,
      zero_or,land_ones]
    constructor
  all_goals
    try rw [if_neg (by omega),land_ones]
    congr 1
    omega
theorem chi_holds (holds : Holds s a) : Holds (chiPacked s) (chi a) := by
  refine ⟨by simp [chi],fun i => ?_⟩
  rw [chiPacked,lane_xor,lane_land,lane_xor,lane_mask,chi,at_range]
  by_cases inside : i < 25
  · have full : [true,true,true,true,true].getD (i%5) false = true := by
      have row : i%5 = 0 ∨ i%5 = 1 ∨ i%5 = 2 ∨ i%5 = 3 ∨ i%5 = 4 := by omega
      rcases row with same | same | same | same | same <;> rw [same] <;> rfl
    rw [if_pos inside,if_pos inside,full,if_pos rfl,(lane_turned s inside).1,(lane_turned s inside).2,holds.lanes,holds.lanes,
      holds.lanes]
    rfl
  · rw [if_neg inside,if_neg inside,nextButOne,lane_lor,lane_land,lane_land,lane_mask,lane_mask,if_neg inside,if_neg inside,
      holds.lanes,at_outside (by rw [holds.length]; omega)]
    simp
theorem iota_holds {constant : Nat} (small : constant < 2^64) (holds : Holds s a) :
    Holds (Nat.xor s constant) (iota constant a) := by
  obtain ⟨length,lanes⟩ := holds
  cases a with
  | nil => cases length
  | cons first rest =>
    refine ⟨length,fun i => ?_⟩
    rw [lane_xor,lane_small small,lanes]
    cases i with
    | zero => rfl
    | succ i => simp [iota,Lanes.at]
theorem permute_holds (holds : Holds s a) : Holds (permutePacked s) (keccakF1600 a) := by
  have small : ∀ constant ∈ rc, constant < 2^64 := by decide
  rw [permutePacked,keccakF1600]
  generalize rc = constants at small
  induction constants generalizing s a with
  | nil => exact holds
  | cons constant constants ih =>
    exact ih (iota_holds (small constant (.head _)) (chi_holds (rhoPi_holds (theta_holds holds))))
      (fun constant mem => small constant (.tail _ mem))

theorem laneOf_drop (b : Bytes) (n : Nat) : laneOf b/256^n = laneOf (b.drop n) := by
  induction n generalizing b with
  | zero => simp
  | succ n ih =>
    cases b with
    | nil => simp [laneOf]
    | cons x b =>
      have small := x.toNat_lt
      have tail : laneOf (x :: b)/256 = laneOf b := by
        change (x.toNat + 256*laneOf b)/256 = _
        omega
      rw [pow_succ',← Nat.div_div_eq_div_mul,tail,ih,drop_succ_cons]
theorem laneOf_take (b : Bytes) (n : Nat) : laneOf b % 256^n = laneOf (b.take n) := by
  induction n generalizing b with
  | zero => simp [laneOf,mod_one]
  | succ n ih =>
    cases b with
    | nil => simp [laneOf]
    | cons x b =>
      have small := x.toNat_lt
      have first : (x.toNat + 256*laneOf b) % 256 = x.toNat := by omega
      have tail : (x.toNat + 256*laneOf b)/256 = laneOf b := by omega
      change (x.toNat + 256*laneOf b) % 256^(n+1) = x.toNat + 256*laneOf (b.take n)
      rw [← ih,pow_succ',mod_mul,first,tail]
theorem lane_laneOf (b : Bytes) (i : Nat) : lane (laneOf b) i = laneOf ((b.drop (8*i)).take 8) := by
  have shifted : lane (laneOf b) i = (laneOf b >>> (64*i)) % 2^64 := and_two_pow_sub_one_eq_mod _ 64
  have base : 2^(64*i) = 256^(8*i) := by
    rw [show (256 : Nat) = 2^8 from rfl,← pow_mul]
    congr 1
    omega
  rw [shifted,shiftRight_eq_div_pow,base,laneOf_drop,show (2 : Nat)^64 = 256^8 from rfl,laneOf_take]
theorem xorIn_holds {block : Bytes} (fits : block.length ≤ 200) (holds : Holds s a) :
    Holds (Nat.xor s (laneOf block)) (xorIn a block) := by
  refine ⟨by simp [xorIn],fun i => ?_⟩
  rw [lane_xor,lane_laneOf,xorIn,at_range,holds.lanes]
  by_cases inside : i < 25
  · rw [if_pos inside]
  · rw [if_neg inside,at_outside (by rw [holds.length]; omega),drop_eq_nil_of_le (by omega)]
    rfl
theorem absorb_holds {rate : Nat} (wide : 2 ≤ rate ∧ rate ≤ 200) (fuel : Nat) (holds : Holds s a)
    (rest : Bytes) (enough : rest.length < rate*(fuel + 1)) : Holds (absorbPacked rate fuel s rest) (absorbAt rate fuel a rest) := by
  induction fuel generalizing s a rest with
  | zero =>
    have length : (padTo rate rest).length ≤ 200 := by
      rw [padTo]
      split <;> simp <;> omega
    exact permute_holds (xorIn_holds length holds)
  | succ fuel ih =>
    refine ih (permute_holds (xorIn_holds ?_ holds)) _ ?_
    · rw [length_take]
      omega
    · have positive : 0 < rate*(fuel + 1) := Nat.mul_pos (by omega) (by omega)
      rw [mul_succ] at enough
      rw [length_drop]
      omega
theorem zero_holds : Holds 0 (replicate 25 0) := by
  refine ⟨rfl,fun i => ?_⟩
  rw [lane_zero,Lanes.at,getD_eq_getElem?_getD,getElem?_replicate]
  split <;> rfl

theorem keccak_packed : keccak256 = keccakPacked := by
  funext data
  have holds := absorb_holds (show 2 ≤ 136 ∧ 136 ≤ 200 by decide) (data.length/136) zero_holds data (by omega)
  simp [keccak256,keccakPacked,holds.lanes]
theorem keccak512_packed : keccak512 = keccak512Packed := by
  funext data
  have holds := absorb_holds (show 2 ≤ 72 ∧ 72 ≤ 200 by decide) (data.length/72) zero_holds data (by omega)
  simp [keccak512,keccak512Packed,holds.lanes]

example : keccak256 [] =
    ⟨[0xc5,0xd2,0x46,0x01,0x86,0xf7,0x23,0x3c,0x92,0x7e,0x7d,0xb2,0xdc,0xc7,0x03,0xc0,
      0xe5,0x00,0xb6,0x53,0xca,0x82,0x27,0x3b,0x7b,0xfa,0xd8,0x04,0x5d,0x85,0xa4,0x70],by decide⟩ := by
  rw [keccak_packed]
  decide +kernel

end Canchain.Keccak
