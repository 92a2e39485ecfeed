import Mathlib

/-!
The arithmetic of the virtual machine, after `kernel/vm/instructions.go` and
`common/math/big.go`. Words are integers that are cut to 256 bits after each operation; on
words each operation is the one on 256-bit vectors (`arithmetic_words`).
-/
namespace Canchain.Evm
open List Int

def tt255 : Int := 2^255
def tt256 : Int := 2^256
def tt256m1 : Int := tt256 - 1
def U256 (x : Int) : Int := Int.land x tt256m1
def S256 (x : Int) : Int := if x < tt255 then x else x - tt256
/-- `Bits` of a number: its 64-bit words, the lowest first. -/
def bits (x : Int) : List Nat := Nat.digits (2^64) x.natAbs
/-- The rounds of `Exp` for one word of the exponent. -/
def expWord : Nat → Nat → Int × Int → Int × Int
  | 0, _, s => s
  | rounds+1, word, (result,base) =>
    expWord rounds (word >>> 1) (if word &&& 1 = 1 then U256 (result*base) else result,U256 (base*base))
def exp (base exponent : Int) : Int := ((bits exponent).foldl (fun s word => expWord 64 word s) (1,base)).1
def bigEndianByteAt (x : Int) (n : Nat) : Nat :=
  match (bits x)[n/8]? with
  | none => 0
  | some word => (word >>> (8*(n%8))) % 256
def byteAt (x : Int) (padlength n : Nat) : Nat := if n ≥ padlength then 0 else bigEndianByteAt x (padlength - 1 - n)
/-- `Uint64` of a number: its lowest word. -/
def uint64 (x : Int) : Nat := x.natAbs % 2^64

/-! ### The instructions -/

/-- The top of the stack is in front. `none` is the panic of a stack that is too short. -/
abbrev Stack := List Int

def ofBool (b : Bool) : Int := if b then 1 else 0

def opAdd : Stack → Option Stack
  | x :: y :: s => some (U256 (x + y) :: s)
  | _ => none
def opSub : Stack → Option Stack
  | x :: y :: s => some (U256 (x - y) :: s)
  | _ => none
def opMul : Stack → Option Stack
  | x :: y :: s => some (U256 (x*y) :: s)
  | _ => none
def opDiv : Stack → Option Stack
  | x :: y :: s => some ((if y ≠ 0 then U256 (x/y) else 0) :: s)
  | _ => none
def opSdiv : Stack → Option Stack
  | x :: y :: s =>
    let x := S256 x
    let y := S256 y
    if y = 0 ∨ x = 0 then some (0 :: s)
    else if x.sign ≠ y.sign then some (U256 (-((x.natAbs : Int)/y.natAbs)) :: s)
    else some (U256 ((x.natAbs : Int)/y.natAbs) :: s)
  | _ => none
def opMod : Stack → Option Stack
  | x :: y :: s => some ((if y = 0 then 0 else U256 (x % y)) :: s)
  | _ => none
def opSmod : Stack → Option Stack
  | x :: y :: s =>
    let x := S256 x
    let y := S256 y
    if y = 0 then some (0 :: s)
    else if x.sign < 0 then some (U256 (-((x.natAbs : Int) % y.natAbs)) :: s)
    else some (U256 ((x.natAbs : Int) % y.natAbs) :: s)
  | _ => none
def opExp : Stack → Option Stack
  | base :: exponent :: s =>
    if exponent < 1 then some (1 :: s)
    else if base = 0 then some (0 :: s)
    else if exponent = 1 then some (base :: s)
    else some (exp base exponent :: s)
  | _ => none
def opSignExtend : Stack → Option Stack
  | back :: s =>
    if back < 31 then
      match s with
      | num :: s =>
        let bit := uint64 back*8 + 7
        let mask : Int := (1 : Int) <<< bit - 1
        some (U256 (if Int.testBit num bit then Int.lor num (-mask - 1) else Int.land num mask) :: s)
      | _ => none
    else some s
  | _ => none
def opNot : Stack → Option Stack
  | x :: s => some (U256 (-x - 1) :: s)
  | _ => none
def opLt : Stack → Option Stack
  | x :: y :: s => some (ofBool (x < y) :: s)
  | _ => none
def opGt : Stack → Option Stack
  | x :: y :: s => some (ofBool (x > y) :: s)
  | _ => none
def opSlt : Stack → Option Stack
  | x :: y :: s =>
    if x ≥ tt255 ∧ y < tt255 then some (1 :: s)
    else if x < tt255 ∧ y ≥ tt255 then some (0 :: s)
    else some (ofBool (x < y) :: s)
  | _ => none
def opSgt : Stack → Option Stack
  | x :: y :: s =>
    if x ≥ tt255 ∧ y < tt255 then some (0 :: s)
    else if x < tt255 ∧ y ≥ tt255 then some (1 :: s)
    else some (ofBool (x > y) :: s)
  | _ => none
def opEq : Stack → Option Stack
  | x :: y :: s => some (ofBool (x = y) :: s)
  | _ => none
def opIszero : Stack → Option Stack
  | x :: s => some ((if x.sign > 0 then 0 else 1) :: s)
  | _ => none
def opAnd : Stack → Option Stack
  | x :: y :: s => some (Int.land x y :: s)
  | _ => none
def opOr : Stack → Option Stack
  | x :: y :: s => some (Int.lor x y :: s)
  | _ => none
def opXor : Stack → Option Stack
  | x :: y :: s => some (Int.xor x y :: s)
  | _ => none
def opByte : Stack → Option Stack
  | th :: val :: s => some ((if th < 32 then (byteAt val 32 th.toNat : Int) else 0) :: s)
  | _ => none
def opAddmod : Stack → Option Stack
  | x :: y :: z :: s => some ((if z > 0 then U256 ((x + y) % z) else 0) :: s)
  | _ => none
def opMulmod : Stack → Option Stack
  | x :: y :: z :: s => some ((if z > 0 then U256 (x*y % z) else 0) :: s)
  | _ => none
def opSHL : Stack → Option Stack
  | shift :: value :: s =>
    let shift := U256 shift
    let value := U256 value
    if shift ≥ 256 then some (0 :: s) else some (U256 (value <<< uint64 shift) :: s)
  | _ => none
def opSHR : Stack → Option Stack
  | shift :: value :: s =>
    let shift := U256 shift
    let value := U256 value
    if shift ≥ 256 then some (0 :: s) else some (U256 (value >>> uint64 shift) :: s)
  | _ => none
def opSAR : Stack → Option Stack
  | shift :: value :: s =>
    let shift := U256 shift
    let value := S256 value
    if shift ≥ 256 then some (U256 (if value.sign ≥ 0 then 0 else -1) :: s)
    else some (U256 (value >>> uint64 shift) :: s)
  | _ => none

abbrev Word := BitVec 256
/-- A word as the code holds it. -/
def value (x : Word) : Int := x.toNat
/-- The instruction takes `args` from any stack and leaves `result` there, as a number below `2^256`. -/
def Leaves (op : Stack → Option Stack) (args : List Word) (result : Word) : Prop :=
  ∀ rest, ∃ top, op (args.map value ++ rest) = some (top :: rest) ∧ top = value result ∧ 0 ≤ top ∧ top < 2^256

/-- The quotient of the signed readings, rounded towards zero, and zero for a division by zero. -/
def signedDiv (x y : Word) : Word := if y = 0 then 0 else BitVec.ofInt 256 (x.toInt.tdiv y.toInt)
/-- The remainder with the sign of the dividend. -/
def signedMod (x y : Word) : Word := if y = 0 then 0 else BitVec.ofInt 256 (x.toInt.tmod y.toInt)
def modulo (x y : Word) : Word := if y = 0 then 0 else x % y
def addModulo (x y z : Word) : Word := if z = 0 then 0 else BitVec.ofNat 256 ((x.toNat + y.toNat) % z.toNat)
def mulModulo (x y z : Word) : Word := if z = 0 then 0 else BitVec.ofNat 256 (x.toNat*y.toNat % z.toNat)
def truth (b : Bool) : Word := if b then 1 else 0
/-- The lowest `back + 1` bytes as a signed number. -/
def signExtend (back x : Word) : Word :=
  if back.toNat < 31 then (x.setWidth (8*back.toNat + 8)).signExtend 256 else x
/-- Byte `th`, counted from the most significant one. -/
def byteOf (th x : Word) : Word := if th.toNat < 32 then BitVec.ofNat 256 (x.toNat/256^(31 - th.toNat) % 256) else 0

/-! ### Cutting to a word -/

theorem ldiff_mask (n m : Nat) : Nat.ldiff (2^n - 1) m = 2^n - 1 - m % 2^n := by
  have below : m % 2^n < 2^n := Nat.mod_lt _ (Nat.two_pow_pos n)
  apply Nat.eq_of_testBit_eq
  intro i
  have sub : 2^n - 1 - m % 2^n = 2^n - (m % 2^n + 1) := by omega
  rw [sub,Nat.testBit_two_pow_sub_succ below,Nat.testBit_ldiff,Nat.testBit_two_pow_sub_one,Nat.testBit_mod_two_pow]
  by_cases small : i < n <;> simp [small]

/-- `And` with a mask of `n` ones is the remainder, for negative numbers as well. -/
theorem land_mask (x : Int) (n : Nat) : land x (2^n - 1) = x % 2^n := by
  have one : 1 ≤ 2^n := Nat.one_le_two_pow
  have mask : (2^n - 1 : Int) = ((2^n - 1 : Nat) : Int) := by
    rw [Nat.cast_sub one]
    push_cast
    rfl
  rw [mask]
  cases x with
  | ofNat m =>
    have low := Nat.and_two_pow_sub_one_eq_mod m n
    change ((m &&& (2^n - 1) : Nat) : Int) = _
    rw [low]
    simp
  | negSucc m =>
    change ((Nat.ldiff (2^n - 1) m : Nat) : Int) = _
    have below : m % 2^n < 2^n := Nat.mod_lt _ (Nat.two_pow_pos n)
    rw [ldiff_mask,negSucc_emod m (by positivity)]
    rw [Nat.cast_sub (by omega),Nat.cast_sub one]
    push_cast
    ring

theorem U256_mod (x : Int) : U256 x = x % 2^256 := land_mask x 256

theorem U256_value (x : Int) : U256 x = value (BitVec.ofInt 256 x) := by
  rw [U256_mod,value,BitVec.toNat_ofInt,toNat_of_nonneg]
  · norm_cast
  · exact emod_nonneg _ (by positivity)

theorem S256_value (x : Word) : S256 (value x) = x.toInt := by
  rw [BitVec.toInt_eq_toNat_cond]
  have half : value x < tt255 ↔ 2*x.toNat < 2^256 := by
    simp only [value,tt255]
    omega
  by_cases small : 2*x.toNat < 2^256
  · rw [S256,if_pos (half.mpr small),if_pos small,value]
  · rw [S256,if_neg (mt half.mp small),if_neg small,value,tt256]
    norm_cast

theorem value_bounds (x : Word) : 0 ≤ value x ∧ value x < 2^256 := by
  have below := x.isLt
  simp only [value]
  omega

theorem leaves_value {op : Stack → Option Stack} {args : List Word} {result : Word}
    (run : ∀ rest, op (args.map value ++ rest) = some (value result :: rest)) : Leaves op args result :=
  fun rest => ⟨_,run rest,rfl,value_bounds result⟩

/-- An instruction that cuts `x` to a word leaves the word of `x`. -/
theorem leaves_cut {op : Stack → Option Stack} {args : List Word} {result : Word} (x : Int)
    (run : ∀ rest, op (args.map value ++ rest) = some (U256 x :: rest)) (same : BitVec.ofInt 256 x = result) :
    Leaves op args result :=
  leaves_value (fun rest => by rw [run,U256_value,same])
theorem leaves_two {op : Stack → Option Stack} {x y result : Word}
    (run : ∀ rest, op (value x :: value y :: rest) = some (value result :: rest)) : Leaves op [x,y] result := leaves_value run
theorem cut_two {op : Stack → Option Stack} {x y result : Word} (n : Int)
    (run : ∀ rest, op (value x :: value y :: rest) = some (U256 n :: rest)) (same : BitVec.ofInt 256 n = result) :
    Leaves op [x,y] result := leaves_cut n run same

theorem ofInt_value (x : Word) : BitVec.ofInt 256 (value x) = x := by
  rw [value,BitVec.ofInt_natCast,BitVec.ofNat_toNat,BitVec.setWidth_eq]

theorem value_eq_zero {x : Word} : value x = 0 ↔ x = 0 := by
  rw [value,natCast_eq_zero,BitVec.toNat_eq]
  rfl

theorem toInt_eq_zero {x : Word} : x.toInt = 0 ↔ x = 0 := by
  rw [← BitVec.toInt_inj]
  rfl

theorem add_leaves (x y : Word) : Leaves opAdd [x,y] (x + y) := by
  refine leaves_cut (value x + value y) (fun _ => rfl) ?_
  rw [BitVec.ofInt_add,ofInt_value,ofInt_value]

theorem sub_leaves (x y : Word) : Leaves opSub [x,y] (x - y) := by
  refine leaves_cut (value x - value y) (fun _ => rfl) ?_
  rw [sub_eq_add_neg,BitVec.ofInt_add,BitVec.ofInt_neg,ofInt_value,ofInt_value,BitVec.sub_eq_add_neg]

theorem mul_leaves (x y : Word) : Leaves opMul [x,y] (x*y) := by
  refine leaves_cut (value x*value y) (fun _ => rfl) ?_
  rw [BitVec.ofInt_mul,ofInt_value,ofInt_value]

theorem not_leaves (x : Word) : Leaves opNot [x] (~~~x) := by
  refine leaves_cut (-value x - 1) (fun _ => rfl) ?_
  rw [sub_eq_add_neg,BitVec.ofInt_add,BitVec.ofInt_neg,ofInt_value,BitVec.not_eq_neg_add,BitVec.sub_eq_add_neg]
  rfl

theorem U256_nat {n : Nat} (below : n < 2^256) : U256 n = n := by
  rw [U256_mod]
  omega

theorem div_leaves (x y : Word) : Leaves opDiv [x,y] (x/y) := by
  refine leaves_two (fun rest => ?_)
  have quotient : value (x/y) = value x/value y := by simp [value]
  have below := (x/y).isLt
  simp only [opDiv]
  by_cases zero : value y = 0
  · rw [if_neg (by simpa using zero),quotient,zero,Int.ediv_zero]
  · rw [if_pos zero,← quotient,value,U256_nat below]

theorem mod_leaves (x y : Word) : Leaves opMod [x,y] (modulo x y) := by
  refine leaves_two (fun rest => ?_)
  have rem : value (x % y) = value x % value y := by simp [value]
  have below := (x % y).isLt
  simp only [opMod,modulo,← value_eq_zero]
  by_cases zero : value y = 0
  · rw [if_pos zero,if_pos zero]
    rfl
  · rw [if_neg zero,if_neg zero,← rem,value,U256_nat below]

theorem remainder_value (n : Nat) (z : Word) :
    (if value z > 0 then U256 ((n : Int) % value z) else 0) =
      value (if z = 0 then 0 else BitVec.ofNat 256 (n % z.toNat)) := by
  by_cases zero : z = 0
  · rw [if_pos zero,if_neg (by rw [value_eq_zero.mpr zero]; omega)]
    rfl
  · have positive : 0 < z.toNat := Nat.pos_of_ne_zero (fun none => zero (BitVec.eq_of_toNat_eq none))
    have below : n % z.toNat < 2^256 := (Nat.mod_lt _ positive).trans z.isLt
    have rem : (n : Int) % value z = (n % z.toNat : Nat) := by simp [value]
    rw [if_neg zero,if_pos (by simpa [value] using positive),rem,U256_nat below,value,BitVec.toNat_ofNat,
      Nat.mod_eq_of_lt below]

theorem addmod_leaves (x y z : Word) : Leaves opAddmod [x,y,z] (addModulo x y z) := by
  refine leaves_value (fun rest => ?_)
  rw [addModulo,← remainder_value]
  simp [map,opAddmod,value]

theorem mulmod_leaves (x y z : Word) : Leaves opMulmod [x,y,z] (mulModulo x y z) := by
  refine leaves_value (fun rest => ?_)
  rw [mulModulo,← remainder_value]
  simp [map,opMulmod,value]

theorem tdiv_abs {x y : Int} (left : x ≠ 0) (right : y ≠ 0) :
    x.tdiv y = if x.sign = y.sign then (x.natAbs : Int)/y.natAbs else -((x.natAbs : Int)/y.natAbs) := by
  obtain ⟨m,rfl | rfl⟩ := Int.eq_nat_or_neg x <;> obtain ⟨n,rfl | rfl⟩ := Int.eq_nat_or_neg y
  all_goals
    have m_ne : m ≠ 0 := by omega
    have n_ne : n ≠ 0 := by omega
    simp [sign_natCast_of_ne_zero m_ne,sign_natCast_of_ne_zero n_ne,Int.neg_tdiv,Int.tdiv_neg]

theorem tmod_abs (x y : Int) :
    x.tmod y = if x.sign < 0 then -((x.natAbs : Int) % y.natAbs) else (x.natAbs : Int) % y.natAbs := by
  obtain ⟨m,rfl | rfl⟩ := Int.eq_nat_or_neg x <;> obtain ⟨n,rfl | rfl⟩ := Int.eq_nat_or_neg y <;>
    rcases Nat.eq_zero_or_pos m with rfl | positive
  all_goals simp [*,neg_tmod,tmod_neg,← ofNat_tmod]

theorem sdiv_leaves (x y : Word) : Leaves opSdiv [x,y] (signedDiv x y) := by
  have run : ∀ rest, opSdiv (value x :: value y :: rest) = some (U256 (x.toInt.tdiv y.toInt) :: rest) := by
    intro rest
    simp only [opSdiv,S256_value]
    by_cases zero : y.toInt = 0 ∨ x.toInt = 0
    · rw [if_pos zero]
      have none : x.toInt.tdiv y.toInt = 0 := by
        rcases zero with zero | zero <;> simp [zero]
      rw [none]
      rfl
    · rw [if_neg zero,tdiv_abs (fun none => zero (.inr none)) (fun none => zero (.inl none))]
      by_cases same : x.toInt.sign = y.toInt.sign
      · rw [if_neg (not_not.mpr same),if_pos same]
      · rw [if_pos same,if_neg same]
  refine cut_two _ run ?_
  by_cases zero : y = 0
  · rw [signedDiv,if_pos zero,toInt_eq_zero.mpr zero,Int.tdiv_zero]
    rfl
  · rw [signedDiv,if_neg zero]

theorem smod_leaves (x y : Word) : Leaves opSmod [x,y] (signedMod x y) := by
  by_cases zero : y.toInt = 0
  · refine leaves_two (fun rest => ?_)
    simp only [opSmod,S256_value,signedMod,← toInt_eq_zero,if_pos zero]
    rfl
  · refine cut_two (x.toInt.tmod y.toInt) (fun rest => ?_) ?_
    · simp only [opSmod,S256_value,if_neg zero,tmod_abs]
      split <;> rfl
    · rw [signedMod,if_neg (mt toInt_eq_zero.mpr zero)]

theorem ofBool_value (b : Bool) : ofBool b = value (truth b) := by
  cases b <;> rfl

theorem lt_leaves (x y : Word) : Leaves opLt [x,y] (truth (decide (x.toNat < y.toNat))) := by
  refine leaves_two (fun rest => ?_)
  simp only [opLt,ofBool_value,value,Nat.cast_lt]

theorem gt_leaves (x y : Word) : Leaves opGt [x,y] (truth (decide (x.toNat > y.toNat))) := by
  refine leaves_two (fun rest => ?_)
  simp only [opGt,ofBool_value,value,gt_iff_lt,Nat.cast_lt]

/-- Signs decide first; words of one sign compare as they stand. -/
theorem signed_lt (x y : Word) : x.toInt < y.toInt ↔
    (value x ≥ tt255 ∧ value y < tt255) ∨ (¬(value x < tt255 ∧ value y ≥ tt255) ∧ value x < value y) := by
  have left := value_bounds x
  have right := value_bounds y
  rw [← S256_value,← S256_value]
  simp only [S256,tt255,tt256]
  omega

theorem slt_leaves (x y : Word) : Leaves opSlt [x,y] (truth (decide (x.toInt < y.toInt))) := by
  refine leaves_two (fun rest => ?_)
  simp only [opSlt,← ofBool_value,signed_lt]
  by_cases less : value x ≥ tt255 ∧ value y < tt255
  · rw [if_pos less,decide_eq_true (.inl less)]
    rfl
  by_cases greater : value x < tt255 ∧ value y ≥ tt255
  · rw [if_neg less,if_pos greater,decide_eq_false (fun some => some.elim less (fun same => same.1 greater))]
    rfl
  · simp [less,greater]

theorem sgt_leaves (x y : Word) : Leaves opSgt [x,y] (truth (decide (x.toInt > y.toInt))) := by
  refine leaves_two (fun rest => ?_)
  simp only [opSgt,← ofBool_value,gt_iff_lt,signed_lt]
  by_cases less : value x ≥ tt255 ∧ value y < tt255
  · rw [if_pos less,decide_eq_false (fun some => some.elim (fun other => absurd less.1 (not_le.mpr other.2))
      (fun same => same.1 less.symm))]
    rfl
  by_cases greater : value x < tt255 ∧ value y ≥ tt255
  · rw [if_neg less,if_pos greater,decide_eq_true (.inl greater.symm)]
    rfl
  · simp [less,greater,and_comm]

theorem U256_value_id (x : Word) : U256 (value x) = value x := U256_nat x.isLt

/-! ### Shifts and bytes -/

theorem uint64_value {x : Word} (small : x.toNat < 2^64) : uint64 (value x) = x.toNat := by
  rw [uint64,value,natAbs_natCast,Nat.mod_eq_of_lt small]

theorem value_ge (x : Word) : value x ≥ 256 ↔ x.toNat ≥ 256 := by
  simp only [value]
  omega

theorem shl_leaves (shift x : Word) : Leaves opSHL [shift,x] (x <<< shift.toNat) := by
  by_cases large : shift.toNat ≥ 256
  · refine leaves_two (fun rest => ?_)
    have zero : x <<< shift.toNat = 0 := BitVec.shiftLeft_eq_zero large
    simp only [opSHL,U256_value_id,zero]
    rw [if_pos ((value_ge shift).mpr large)]
    rfl
  · refine cut_two (value x <<< shift.toNat) (fun rest => ?_) ?_
    · simp only [opSHL,U256_value_id]
      rw [if_neg (mt (value_ge shift).mp large),uint64_value (by omega)]
    · have cut : value x <<< shift.toNat = ((x.toNat <<< shift.toNat : Nat) : Int) := rfl
      apply BitVec.eq_of_toNat_eq
      rw [cut,BitVec.ofInt_natCast,BitVec.toNat_ofNat,BitVec.toNat_shiftLeft]

theorem shr_leaves (shift x : Word) : Leaves opSHR [shift,x] (x >>> shift.toNat) := by
  refine leaves_two (fun rest => ?_)
  simp only [opSHR,U256_value_id]
  by_cases large : shift.toNat ≥ 256
  · have zero : x >>> shift.toNat = 0 := BitVec.ushiftRight_eq_zero large
    rw [if_pos ((value_ge shift).mpr large),zero]
    rfl
  · rw [if_neg (mt (value_ge shift).mp large),uint64_value (by omega)]
    have same : value x >>> shift.toNat = value (x >>> shift.toNat) := by
      simp [value]
    rw [same,U256_value_id]

theorem sar_leaves (shift x : Word) : Leaves opSAR [shift,x] (x.sshiftRight shift.toNat) := by
  refine cut_two (x.toInt >>> shift.toNat) (fun rest => ?_) ?_
  · simp only [opSAR,U256_value_id,S256_value]
    by_cases large : shift.toNat ≥ 256
    · have low := x.toInt_lt
      have high := x.le_toInt
      have wide : (2^256 : Int) ≤ 2^shift.toNat := by exact_mod_cast Nat.pow_le_pow_right (by omega) large
      rw [if_pos ((value_ge shift).mpr large),shiftRight_eq_div_pow]
      congr 3
      split
      · next sign =>
        exact (ediv_eq_zero_of_lt (Int.sign_nonneg_iff.mp sign) (by push_cast; omega)).symm
      · next sign =>
        have negative : x.toInt < 0 := not_le.mp (mt Int.sign_nonneg_iff.mpr sign)
        symm
        rw [ediv_eq_iff_of_pos (by positivity)]
        push_cast
        omega
    · rw [if_neg (mt (value_ge shift).mp large),uint64_value (by omega)]
  · apply BitVec.eq_of_toInt_eq
    rw [BitVec.toInt_sshiftRight,← BitVec.toInt_sshiftRight,BitVec.ofInt_toInt]

theorem word_byte {j : Nat} (inside : j < 8) (a : Nat) : (a % 2^64) >>> (8*j) % 256 = a >>> (8*j) % 256 := by
  apply Nat.eq_of_testBit_eq
  intro i
  simp only [show (256 : Nat) = 2^8 from rfl,Nat.testBit_mod_two_pow,Nat.testBit_shiftRight]
  by_cases low : i < 8
  · have within : 8*j + i < 64 := by omega
    simp [low,within]
  · simp [low]

theorem bigEndianByteAt_value (x : Word) (n : Nat) : bigEndianByteAt (value x) n = x.toNat/256^n % 256 := by
  have word := Nat.getD_digits x.toNat (n/8) (show 2 ≤ 2^64 by norm_num)
  have shifted : (x.toNat/(2^64)^(n/8) % 2^64) >>> (8*(n % 8)) % 256 = x.toNat/256^n % 256 := by
    rw [word_byte (by omega),Nat.shiftRight_eq_div_pow,Nat.div_div_eq_div_mul]
    congr 2
    rw [← pow_mul,← pow_add,show (256 : Nat) = 2^8 from rfl,← pow_mul]
    congr 1
    omega
  rw [← shifted,← word,bigEndianByteAt,bits,value,natAbs_natCast,getD_eq_getElem?_getD]
  cases (Nat.digits (2^64) x.toNat)[n/8]? with
  | none => simp
  | some word => rfl

theorem byte_leaves (th x : Word) : Leaves opByte [th,x] (byteOf th x) := by
  refine leaves_two (fun rest => ?_)
  have small : value th < 32 ↔ th.toNat < 32 := by
    simp only [value]
    omega
  simp only [opByte,byteOf,small]
  by_cases inside : th.toNat < 32
  · have index : (value th).toNat = th.toNat := by simp [value]
    have below : x.toNat/256^(31 - th.toNat) % 256 < 2^256 := by omega
    rw [if_pos inside,if_pos inside,index,byteAt,if_neg (by omega),bigEndianByteAt_value,value,BitVec.toNat_ofNat,
      Nat.mod_eq_of_lt below]
  · rw [if_neg inside,if_neg inside]
    rfl

theorem getLsbD_ofInt (z : Int) (i : Nat) :
    (BitVec.ofInt 256 z).getLsbD i = (testBit z i && decide (i < 256)) := by
  have cut : testBit (value (BitVec.ofInt 256 z)) i = testBit (U256 z) i := by rw [U256_value]
  have mask : tt256m1 = ((2^256 - 1 : Nat) : Int) := by simp [tt256m1,tt256]
  have ones : testBit tt256m1 i = decide (i < 256) := by
    rw [mask]
    exact Nat.testBit_two_pow_sub_one 256 i
  rw [U256,testBit_land,ones] at cut
  exact cut

/-- Both branches keep the bits below the sign bit and fill the others with it. -/
theorem signFill (x : Word) {bit : Nat} (inside : bit < 256) :
    BitVec.ofInt 256 (if testBit (value x) bit then lor (value x) (-((1 : Int) <<< bit - 1) - 1)
      else land (value x) ((1 : Int) <<< bit - 1)) = (x.setWidth (bit + 1)).signExtend 256 := by
  have mask : ((1 : Int) <<< bit - 1) = ((2^bit - 1 : Nat) : Int) := by
    rw [shiftLeft_eq,one_mul,Nat.cast_sub Nat.one_le_two_pow]
    push_cast
    rfl
  have ones (i : Nat) : testBit ((2^bit - 1 : Nat) : Int) i = decide (i < bit) :=
    Nat.testBit_two_pow_sub_one bit i
  have zeros : (-((2^bit - 1 : Nat) : Int) - 1) = lnot ((2^bit - 1 : Nat) : Int) := by
    change _ = Int.negSucc (2^bit - 1)
    rw [negSucc_eq]
    ring
  have sign : testBit (value x) bit = x.getLsbD bit := rfl
  have top : (x.setWidth (bit + 1)).msb = x.getLsbD bit := by
    simp [BitVec.msb_eq_getLsbD_last]
  apply BitVec.eq_of_getLsbD_eq
  intro i below
  rw [mask,zeros,getLsbD_ofInt,BitVec.getLsbD_signExtend,top,BitVec.getLsbD_setWidth,sign]
  have same : testBit (value x) i = x.getLsbD i := rfl
  cases filled : x.getLsbD bit with
  | true =>
    rw [if_pos rfl,testBit_lor,testBit_lnot,ones,same]
    rcases lt_trichotomy i bit with low | rfl | high
    · simp [low,below,Nat.lt_succ_of_lt low]
    · simp [below,filled]
    · simp [below,not_lt.mpr high.le,show ¬ i < bit + 1 by omega]
  | false =>
    rw [if_neg (by simp),testBit_land,ones,same]
    rcases lt_trichotomy i bit with low | rfl | high
    · simp [low,below,Nat.lt_succ_of_lt low]
    · rw [filled]
      simp
    · simp [below,not_lt.mpr high.le,show ¬ i < bit + 1 by omega]

theorem signExtend_leaves (back x : Word) : Leaves opSignExtend [back,x] (signExtend back x) := by
  have small : value back < 31 ↔ back.toNat < 31 := by
    simp only [value]
    omega
  by_cases inside : back.toNat < 31
  · rw [signExtend,if_pos inside]
    have filled := signFill x (show 8*back.toNat + 7 < 256 by omega)
    refine cut_two _ (fun rest => ?_) filled
    · simp only [opSignExtend,small,if_pos inside]
      rw [uint64_value (by omega),mul_comm back.toNat 8]
  · refine leaves_two (fun rest => ?_)
    simp only [opSignExtend,small,if_neg inside,signExtend]

/-! ### Powers -/

theorem U256_modEq (x : Int) : U256 x ≡ x [ZMOD 2^256] := by
  rw [U256_mod]
  exact mod_modEq x _

theorem U256_bounds (x : Int) : 0 ≤ U256 x ∧ U256 x < 2^256 := by
  rw [U256_value]
  exact value_bounds _

/-- The rounds for one word multiply the result by the power that the word's low bits give. -/
theorem expWord_spec (rounds word : Nat) (result base : Int) (inside : 0 ≤ result ∧ result < 2^256) :
    (expWord rounds word (result,base)).1 ≡ result*base^(word % 2^rounds) [ZMOD 2^256] ∧
    (expWord rounds word (result,base)).2 ≡ base^2^rounds [ZMOD 2^256] ∧
    0 ≤ (expWord rounds word (result,base)).1 ∧ (expWord rounds word (result,base)).1 < 2^256 := by
  induction rounds generalizing word result base with
  | zero =>
    simp only [expWord,pow_zero,Nat.mod_one,mul_one,pow_one]
    exact ⟨rfl,rfl,inside⟩
  | succ rounds later =>
    have half : word >>> 1 = word/2 := rfl
    have digit : word % 2^(rounds + 1) = 2*(word/2 % 2^rounds) + word % 2 := by
      rw [pow_succ',Nat.mod_mul]
      omega
    have square (n : Nat) : U256 (base*base)^n ≡ base^(2*n) [ZMOD 2^256] := by
      have step := (U256_modEq (base*base)).pow n
      rwa [mul_pow,← pow_add,← two_mul] at step
    have last := square (2^rounds)
    rw [← pow_succ'] at last
    rw [expWord,Nat.and_one_is_mod,half]
    by_cases odd : word % 2 = 1
    · rw [if_pos odd]
      obtain ⟨first,second,bounds⟩ := later (word/2) (U256 (result*base)) (U256 (base*base)) (U256_bounds _)
      refine ⟨first.trans ?_,second.trans last,bounds⟩
      have product := (U256_modEq (result*base)).mul (square (word/2 % 2^rounds))
      rw [mul_assoc,mul_comm base (base^_),← pow_succ,← odd,← digit] at product
      exact product
    · rw [if_neg odd]
      obtain ⟨first,second,bounds⟩ := later (word/2) result (U256 (base*base)) inside
      refine ⟨first.trans ?_,second.trans last,bounds⟩
      have even : word % 2 = 0 := by omega
      rw [digit,even,add_zero]
      exact (square _).mul_left result

theorem exp_words (words : List Nat) (small : ∀ word ∈ words, word < 2^64) (result base : Int)
    (inside : 0 ≤ result ∧ result < 2^256) :
    (words.foldl (fun s word => expWord 64 word s) (result,base)).1 ≡
      result*base^Nat.ofDigits (2^64) words [ZMOD 2^256] ∧
    0 ≤ (words.foldl (fun s word => expWord 64 word s) (result,base)).1 ∧
    (words.foldl (fun s word => expWord 64 word s) (result,base)).1 < 2^256 := by
  induction words generalizing result base with
  | nil =>
    simp only [foldl,Nat.ofDigits_nil,pow_zero,mul_one]
    exact ⟨rfl,inside⟩
  | cons word words later =>
    obtain ⟨first,second,bounds⟩ := expWord_spec 64 word result base inside
    rw [foldl_cons]
    generalize expWord 64 word (result,base) = next at *
    obtain ⟨rest,inside'⟩ := later (fun other mem => small other (.tail _ mem)) next.1 next.2 bounds
    refine ⟨rest.trans ?_,inside'⟩
    have product := first.mul (second.pow (Nat.ofDigits (2^64) words))
    rw [Nat.mod_eq_of_lt (small word (.head _)),← pow_mul,mul_assoc,← pow_add,← Nat.ofDigits_cons] at product
    exact product

theorem exp_value (base exponent : Word) :
    exp (value base) (value exponent) = value (BitVec.ofNat 256 (base.toNat^exponent.toNat)) := by
  have digits : Nat.ofDigits (2^64) (bits (value exponent)) = exponent.toNat := Nat.ofDigits_digits _ _
  obtain ⟨power,bounds⟩ := exp_words (bits (value exponent)) (fun word mem => Nat.digits_lt_base (by norm_num) mem) 1
    (value base) (by norm_num)
  rw [digits,one_mul] at power
  have whole : value base^exponent.toNat = ((base.toNat^exponent.toNat : Nat) : Int) := by simp [value]
  have cut : value (BitVec.ofNat 256 (base.toNat^exponent.toNat)) = value base^exponent.toNat % 2^256 := by
    rw [whole,value,BitVec.toNat_ofNat]
    norm_cast
  rw [cut,exp,← emod_eq_of_lt bounds.1 bounds.2]
  exact power

theorem exp_leaves (base exponent : Word) :
    Leaves opExp [base,exponent] (BitVec.ofNat 256 (base.toNat^exponent.toNat)) := by
  refine leaves_two (fun rest => ?_)
  have none : value exponent < 1 ↔ exponent.toNat = 0 := by
    simp only [value]
    omega
  have one : value exponent = 1 ↔ exponent.toNat = 1 := by
    simp only [value]
    omega
  simp only [opExp,none,one]
  by_cases empty : exponent.toNat = 0
  · rw [if_pos empty,empty,pow_zero]
    rfl
  by_cases zero : value base = 0
  · have nothing : base.toNat = 0 := by simpa [value] using zero
    rw [if_neg empty,if_pos zero,nothing,zero_pow empty]
    rfl
  by_cases single : exponent.toNat = 1
  · rw [if_neg empty,if_neg zero,if_pos single,single,pow_one,BitVec.ofNat_toNat,BitVec.setWidth_eq]
  · rw [if_neg empty,if_neg zero,if_neg single,exp_value]

/-- On any words, each arithmetic instruction leaves the word of its two's-complement definition. -/
theorem arithmetic_words (x y z : Word) :
    Leaves opAdd [x,y] (x + y) ∧ Leaves opSub [x,y] (x - y) ∧ Leaves opMul [x,y] (x*y) ∧
    Leaves opDiv [x,y] (x/y) ∧ Leaves opSdiv [x,y] (signedDiv x y) ∧
    Leaves opMod [x,y] (modulo x y) ∧ Leaves opSmod [x,y] (signedMod x y) ∧
    Leaves opAddmod [x,y,z] (addModulo x y z) ∧ Leaves opMulmod [x,y,z] (mulModulo x y z) ∧
    Leaves opExp [x,y] (BitVec.ofNat 256 (x.toNat^y.toNat)) ∧
    Leaves opSignExtend [x,y] (signExtend x y) ∧
    Leaves opLt [x,y] (truth (decide (x.toNat < y.toNat))) ∧
    Leaves opGt [x,y] (truth (decide (x.toNat > y.toNat))) ∧
    Leaves opSlt [x,y] (truth (decide (x.toInt < y.toInt))) ∧
    Leaves opSgt [x,y] (truth (decide (x.toInt > y.toInt))) ∧
    Leaves opByte [x,y] (byteOf x y) ∧
    Leaves opSHL [x,y] (y <<< x.toNat) ∧ Leaves opSHR [x,y] (y >>> x.toNat) ∧
    Leaves opSAR [x,y] (y.sshiftRight x.toNat) ∧
    Leaves opNot [x] (~~~x) :=
  ⟨add_leaves x y,sub_leaves x y,mul_leaves x y,div_leaves x y,sdiv_leaves x y,mod_leaves x y,smod_leaves x y,
    addmod_leaves x y z,mulmod_leaves x y z,exp_leaves x y,signExtend_leaves x y,lt_leaves x y,gt_leaves x y,
    slt_leaves x y,sgt_leaves x y,byte_leaves x y,shl_leaves x y,shr_leaves x y,sar_leaves x y,not_leaves x⟩

/-- The instructions whose result needs no cut. -/
theorem logic_words (x y : Word) :
    Leaves opEq [x,y] (truth (x = y)) ∧ Leaves opIszero [x] (truth (x = 0)) ∧ Leaves opAnd [x,y] (x &&& y) ∧
    Leaves opOr [x,y] (x ||| y) ∧ Leaves opXor [x,y] (x ^^^ y) := by
  refine ⟨leaves_two fun rest => ?_,leaves_value fun rest => ?_,leaves_two fun rest => ?_,leaves_two fun rest => ?_,
    leaves_two fun rest => ?_⟩
  · have same : value x = value y ↔ x = y := by rw [value,value,Nat.cast_inj,BitVec.toNat_inj]
    simp only [opEq,ofBool_value,same]
  · by_cases zero : x = 0
    · rw [zero]
      rfl
    · have positive : (value x).sign = 1 :=
        sign_eq_one_of_pos (lt_of_le_of_ne (value_bounds x).1 (Ne.symm (mt value_eq_zero.mp zero)))
      rw [decide_eq_false zero]
      simp only [map,cons_append,nil_append,opIszero,positive]
      rfl
  · simp only [opAnd,value,BitVec.toNat_and]
    rfl
  · simp only [opOr,value,BitVec.toNat_or]
    rfl
  · simp only [opXor,value,BitVec.toNat_xor]
    rfl

end Canchain.Evm
