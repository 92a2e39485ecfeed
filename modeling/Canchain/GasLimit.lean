import Canchain.Ethash

/-!
The gas limit that a miner gives a block, after `CalcGasLimit` of
`kernel/block_validator.go`, against the bounds of `verifyHeader`. It stays within them, but for
a parent that used nearly all of a limit below 5120: there it grows by 4, as much as the bound
that it has to stay under.
-/
namespace Canchain.Ethash
open Rlp Common Types Int64

def calcGasLimit (parent : Header) (gasFloor gasCeil : UInt64) : UInt64 :=
  let contrib := (parent.gasUsed + parent.gasUsed/2)/gasLimitBoundDivisor
  let decay := parent.gasLimit/gasLimitBoundDivisor - 1
  let limit := parent.gasLimit - decay + contrib
  let limit := if limit < minGasLimit then minGasLimit else limit
  if limit < gasFloor then
    let limit := parent.gasLimit + decay
    if limit > gasFloor then gasFloor else limit
  else if limit > gasCeil then
    let limit := parent.gasLimit - decay
    if limit < gasCeil then gasCeil else limit
  else limit

/-- The bounds of `verifyHeader` for the gas limit of a block. -/
def WithinBounds (parent header : Header) : Prop :=
  header.gasLimit ≤ gasLimitCap ∧ gasLimitDiff parent.gasLimit header.gasLimit < parent.gasLimit/gasLimitBoundDivisor ∧
    minGasLimit ≤ header.gasLimit
/-- The errors of `verifyHeader` about the gas limit of a block. -/
def EthashError.ofGasLimit : EthashError → Bool
  | gasLimitTooHigh .. | gasLimitOutOfBounds .. => true
  | _ => false

section
variable {keccak : Bytes → Hash} {ethash : Engine} {chain : ChainReader} {now : Nat} {header parent : Header}
  {uncle withSeal : Bool} {e : EthashError}

theorem later_notGas (failed : verifySeal keccak ethash header = .error e ∨ verifyDAOHeaderExtraData chain.config header = .error e ∨
    verifyForkHashes keccak chain.config header uncle = .error e) : e.ofGasLimit = false := by
  simp only [verifySeal,verifyDAOHeaderExtraData,verifyForkHashes] at failed
  rcases failed with failed | failed | failed
  all_goals
    repeat' split at failed
    all_goals cases failed <;> rfl
/-- `verifyHeader` accepts only what is within the bounds. -/
theorem verifyHeader_bounds (accepted : verifyHeader keccak ethash chain now header parent uncle withSeal = .ok ()) :
    WithinBounds parent header := by
  by_contra refused
  rw [WithinBounds,not_and_or,not_and_or,UInt64.not_le,UInt64.not_lt,UInt64.not_le] at refused
  rcases refused with refused | refused
  all_goals
    simp only [verifyHeader,refused,if_true,bind,Except.bind,throw,throwThe,MonadExceptOf.throw] at accepted
    repeat' split at accepted
    all_goals cases accepted
/-- It finds no fault with a limit that is. -/
theorem verifyHeader_notGas (bounds : WithinBounds parent header)
    (failed : verifyHeader keccak ethash chain now header parent uncle withSeal = .error e) : e.ofGasLimit = false := by
  have later := @later_notGas keccak ethash chain header uncle e
  have low : ¬ gasLimitCap < header.gasLimit := UInt64.not_lt.mpr bounds.1
  have near : ¬ (parent.gasLimit/gasLimitBoundDivisor ≤ gasLimitDiff parent.gasLimit header.gasLimit ∨
      header.gasLimit < minGasLimit) := not_or.mpr ⟨UInt64.not_le.mpr bounds.2.1,UInt64.not_lt.mpr bounds.2.2⟩
  simp only [verifyHeader,low,near,if_false,bind,Except.bind,throw,throwThe,MonadExceptOf.throw] at failed
  repeat' split at failed
  all_goals first
    | exact later (.inr (.inr failed))
    | cases failed; first | rfl | exact later (.inl ‹_›) | exact later (.inr (.inl ‹_›))
end

/-- The distance is the one of the numbers, as long as they are not negative as signed words. -/
theorem gasLimitDiff_toNat {p h : UInt64} (first : p.toNat < 2^63) (second : h.toNat < 2^63) :
    (gasLimitDiff p h).toNat = (p.toNat - h.toNat) + (h.toNat - p.toNat) := by
  have signed {x : UInt64} (small : x.toNat < 2^63) : x.toInt64.toInt = x.toNat := by
    rw [toInt,UInt64.toBitVec_toInt64]
    exact BitVec.toInt_eq_toNat_of_lt (by simpa using by omega)
  have diff : (p.toInt64 - h.toInt64).toInt = (p.toNat : Int) - h.toNat := by
    rw [toInt_sub,signed first,signed second]
    exact Int.bmod_eq_of_le (by omega) (by omega)
  have unsigned (d : Int64) (positive : 0 ≤ d.toInt) : (d.toUInt64.toNat : Int) = d.toInt := by
    rw [toNat_toUInt64_of_le (le_iff_toInt_le.mpr positive),← toNat_toInt]
    omega
  simp only [gasLimitDiff,lt_iff_toInt_lt,diff,toInt_zero]
  split
  · have negated : ((p.toInt64 - h.toInt64)*(-1)).toInt = (h.toNat : Int) - p.toNat := by
      rw [toInt_mul,diff,show (-1 : Int64).toInt = -1 from rfl]
      have := Int.bmod_eq_of_le (n := (p.toNat - h.toNat : Int)*(-1)) (m := 2^64) (by omega) (by omega)
      omega
    have := unsigned ((p.toInt64 - h.toInt64)*(-1)) (by omega)
    omega
  · have := unsigned (p.toInt64 - h.toInt64) (by omega)
    omega

/-- `CalcGasLimit` over the numbers: nothing wraps around. -/
theorem calcGasLimit_toNat {parent : Header} (gasFloor gasCeil : UInt64) {g u limit : Nat}
    (limited : parent.gasLimit.toNat = g) (spent : parent.gasUsed.toNat = u) (least : 5000 ≤ g) (signed : g < 2^63) (used : u ≤ g)
    (first : limit = max (g - (g/1024 - 1) + (u + u/2)/1024) 5000) :
    limit < gasFloor.toNat ∧ (calcGasLimit parent gasFloor gasCeil).toNat = min (g + (g/1024 - 1)) gasFloor.toNat ∨
    gasFloor.toNat ≤ limit ∧ gasCeil.toNat < limit ∧
      (calcGasLimit parent gasFloor gasCeil).toNat = max (g - (g/1024 - 1)) gasCeil.toNat ∨
    gasFloor.toNat ≤ limit ∧ limit ≤ gasCeil.toNat ∧ (calcGasLimit parent gasFloor gasCeil).toNat = limit := by
  have numbers : gasLimitBoundDivisor.toNat = 1024 ∧ (1 : UInt64).toNat = 1 ∧ (2 : UInt64).toNat = 2 ∧ minGasLimit.toNat = 5000 :=
    ⟨rfl,rfl,rfl,rfl⟩
  simp only [calcGasLimit]
  generalize isContrib : (parent.gasUsed + parent.gasUsed/2)/gasLimitBoundDivisor = contrib
  generalize isDecay : parent.gasLimit/gasLimitBoundDivisor - 1 = decay
  have contribution : contrib.toNat = (u + u/2)/1024 := by
    rw [← isContrib,UInt64.toNat_div,UInt64.toNat_add,UInt64.toNat_div,spent,numbers.1,numbers.2.2.1]
    omega
  have decays : decay.toNat = g/1024 - 1 := by
    rw [← isDecay,UInt64.toNat_sub,UInt64.toNat_div,limited,numbers.1]
    omega
  have lower : (parent.gasLimit - decay).toNat = g - (g/1024 - 1) := by
    rw [UInt64.toNat_sub]
    omega
  have upper : (parent.gasLimit + decay).toNat = g + (g/1024 - 1) := by
    rw [UInt64.toNat_add]
    omega
  have next : (parent.gasLimit - decay + contrib).toNat = g - (g/1024 - 1) + (u + u/2)/1024 := by
    rw [UInt64.toNat_add]
    omega
  generalize isChosen : (if parent.gasLimit - decay + contrib < minGasLimit then minGasLimit
    else parent.gasLimit - decay + contrib) = chosen
  have raised : chosen.toNat = limit := by
    rw [← isChosen]
    simp only [UInt64.lt_iff_toNat_lt]
    split <;> omega
  simp only [UInt64.lt_iff_toNat_lt,gt_iff_lt,raised,lower,upper]
  repeat' split
  all_goals omega

/-- The gas limit of a child passes the checks of `verifyHeader`, except for a parent with a limit below 5120 of which it
    used 4779 or more, if the floor and the ceiling leave room for four more. -/
theorem gasLimit_accepted_iff (parent header : Header) (gasFloor gasCeil : UInt64) (least : 5000 ≤ parent.gasLimit)
    (most : parent.gasLimit ≤ gasLimitCap) (used : parent.gasUsed ≤ parent.gasLimit) (floor : 5000 ≤ gasFloor)
    (ordered : gasFloor ≤ gasCeil) (ceiling : gasCeil ≤ gasLimitCap)
    (chosen : header.gasLimit = calcGasLimit parent gasFloor gasCeil) :
    (WithinBounds parent header ↔ ¬ (parent.gasLimit < 5120 ∧ 4779 ≤ parent.gasUsed ∧ gasFloor ≤ parent.gasLimit + 4 ∧
      parent.gasLimit + 4 ≤ gasCeil)) ∧
    ∀ keccak ethash chain now uncle withSeal,
      (WithinBounds parent header → ∀ e, verifyHeader keccak ethash chain now header parent uncle withSeal = .error e →
        e.ofGasLimit = false) ∧
      (¬ WithinBounds parent header → verifyHeader keccak ethash chain now header parent uncle withSeal ≠ .ok ()) := by
  refine ⟨?_,fun keccak ethash chain now uncle withSeal =>
    ⟨fun bounds e => verifyHeader_notGas bounds,fun outside accepted => outside (verifyHeader_bounds accepted)⟩⟩
  generalize limited : parent.gasLimit.toNat = g
  generalize spent : parent.gasUsed.toNat = u
  have numbers : gasLimitCap.toNat = 2^63 - 1 ∧ gasLimitBoundDivisor.toNat = 1024 ∧ (4 : UInt64).toNat = 4 ∧
      (5000 : UInt64).toNat = 5000 ∧ (4779 : UInt64).toNat = 4779 ∧ (5120 : UInt64).toNat = 5120 ∧ minGasLimit.toNat = 5000 :=
    ⟨rfl,rfl,rfl,rfl,rfl,rfl,rfl⟩
  simp only [UInt64.le_iff_toNat_le] at least most used floor ordered ceiling
  have result := calcGasLimit_toNat gasFloor gasCeil limited spent (by omega) (by omega) (by omega) rfl
  rw [← chosen] at result
  have near := gasLimitDiff_toNat (p := parent.gasLimit) (h := header.gasLimit) (by omega) (by omega)
  have room : (parent.gasLimit + 4).toNat = g + 4 := by
    rw [UInt64.toNat_add]
    omega
  simp only [WithinBounds,UInt64.le_iff_toNat_le,UInt64.lt_iff_toNat_lt,UInt64.toNat_div,near,room,limited,spent,numbers]
  clear near room
  rcases result with ⟨below,result⟩ | ⟨above,beyond,result⟩ | ⟨above,inside,result⟩
  · omega
  · omega
  · omega

/-- A parent that used as much gas. -/
def spender (gasLimit gasUsed : UInt64) : Header :=
  { parentHash := .zero, uncleHash := .zero, coinbase := .zero, root := .zero, txHash := .zero, receiptHash := .zero,
    bloom := .zero, difficulty := 131072, number := 1, gasLimit := gasLimit, gasUsed := gasUsed, time := 10, extra := [],
    mixDigest := .zero, nonce := .zero }
/-- After a full block of 8000000 the limit goes up. -/
theorem gasLimit_accepted_full : calcGasLimit (spender 8000000 8000000) 8000000 9000000 = 8003907 ∧
    WithinBounds (spender 8000000 8000000) (spender 8003907 0) :=
  ⟨by decide,(gasLimit_accepted_iff (spender 8000000 8000000) (spender 8003907 0) 8000000 9000000 (by decide) (by decide)
    (by decide) (by decide) (by decide) (by decide) (by decide)).1.mpr (by decide)⟩
/-- With the least limit and all of it used the limit goes up by four, which is a 1024th of it. -/
theorem gasLimit_overshoots : calcGasLimit (spender 5000 5000) 5000 8000000 = 5004 ∧
    ¬ WithinBounds (spender 5000 5000) (spender 5004 0) :=
  ⟨by decide,fun within => absurd within.2.1 (by decide)⟩

end Canchain.Ethash
