import Canchain.EvmCode

/-!
Compression of sparse byte strings, after `common/bitutil/compress.go`. A bitset tells
which bytes are not zero; it is compressed in turn, and those bytes follow it. A string that
decompresses is the compression of what it gives (`compression_exact`).
-/
namespace Canchain.BitUtil
open List
open Rlp (Bytes)
open Evm (orAt marked orAt_bit and_bit)

inductive Failure where
  | missingData
  | unreferencedData
  | exceededTarget
  | zeroContent
  | indexOutOfRange
  deriving DecidableEq

/-- `1 << byte(7-i%8)`. -/
def bitOf (i : Nat) : UInt8 := 1 <<< UInt8.ofNat (7 - i % 8)

/-- The loop of `bitsetEncodeBytes` from the position `i` on. -/
def collect : Bytes → Nat → Bytes → Bytes → Option (Bytes × Bytes)
  | [], _, nonZeroBitset, nonZeroBytes => some (nonZeroBitset,nonZeroBytes)
  | b :: rest, i, nonZeroBitset, nonZeroBytes =>
    if b ≠ 0 then
      match orAt nonZeroBitset (i/8) (bitOf i) with
      | none => none
      | some nonZeroBitset => collect rest (i + 1) nonZeroBitset (nonZeroBytes ++ [b])
    else collect rest (i + 1) nonZeroBitset nonZeroBytes

variable {bits bits' data : Bytes} {i p : Nat}
theorem orAt_length {mask : UInt8} (done : orAt bits i mask = some bits') : bits'.length = bits.length := by
  rw [orAt] at done
  split at done
  next => cases done
  next => rw [← Option.some_inj.mp done,length_set]
theorem collect_length {found : Bytes} {r : Bytes × Bytes}
    (done : collect data i bits found = some r) : r.1.length = bits.length := by
  induction data generalizing i bits found with
  | nil =>
    rw [← Option.some_inj.mp done]
  | cons b rest ih =>
    rw [collect] at done
    split at done
    next =>
      split at done
      next => cases done
      next bits' stored => rw [ih done,orAt_length stored]
    next => exact ih done

def bitsetEncodeBytes (data : Bytes) : Option Bytes :=
  match data with
  | [] => some []
  | [b] => if b = 0 then some [] else some [b]
  | a :: b :: rest =>
    match _done : collect (a :: b :: rest) 0 (List.replicate (((a :: b :: rest).length + 7)/8) 0) [] with
    | none => none
    | some (nonZeroBitset,nonZeroBytes) =>
      if nonZeroBytes = [] then some []
      else (bitsetEncodeBytes nonZeroBitset).map (· ++ nonZeroBytes)
termination_by data.length
decreasing_by
  have length := collect_length _done
  rw [List.length_replicate] at length
  simp only [List.length_cons] at length ⊢
  omega

def compressBytes (data : Bytes) : Option Bytes :=
  (bitsetEncodeBytes data).map fun out => if out.length < data.length then out else data

/-- The loop of `bitsetDecodePartialBytes`, for the rounds that are left. -/
def place (data nonZeroBitset : Bytes) : Nat → Nat → Nat → Bytes → Except Failure (Bytes × Nat)
  | 0, _, ptr, decomp => .ok (decomp,ptr)
  | left + 1, i, ptr, decomp =>
    match nonZeroBitset[i/8]? with
    | none => .error .indexOutOfRange
    | some b =>
      if b &&& bitOf i ≠ 0 then
        if data.length ≤ ptr then .error .missingData
        else if decomp.length ≤ i then .error .exceededTarget
        else
          match data[ptr]? with
          | none => .error .indexOutOfRange
          | some x =>
            if x = 0 then .error .zeroContent
            else place data nonZeroBitset left (i + 1) (ptr + 1) (decomp.set i x)
      else place data nonZeroBitset left (i + 1) ptr decomp

def bitsetDecodePartialBytes (data : Bytes) (target : Nat) : Except Failure (Bytes × Nat) :=
  if target = 0 then .ok ([],0)
  else
    let decomp := List.replicate target 0
    match data with
    | [] => .ok (decomp,0)
    | first :: rest =>
      if target = 1 then .ok ([first],if first ≠ 0 then 1 else 0)
      else
        match bitsetDecodePartialBytes (first :: rest) ((target + 7)/8) with
        | .error err => .error err
        | .ok (nonZeroBitset,ptr) => place (first :: rest) nonZeroBitset (8*nonZeroBitset.length) 0 ptr decomp
termination_by target
decreasing_by omega

def bitsetDecodeBytes (data : Bytes) (target : Nat) : Except Failure Bytes :=
  match bitsetDecodePartialBytes data target with
  | .error err => .error err
  | .ok (out,size) => if size ≠ data.length then .error .unreferencedData else .ok out

def decompressBytes (data : Bytes) (target : Nat) : Except Failure Bytes :=
  if target < data.length then .error .exceededTarget
  else if data.length = target then .ok data
  else bitsetDecodeBytes data target

theorem bitOf_mask (i : Nat) : (bitOf i).toBitVec = BitVec.twoPow 8 (7 - i % 8) := by
  have every : ∀ k : Fin 8, ((1 : UInt8) <<< UInt8.ofNat (7 - k)).toBitVec = BitVec.twoPow 8 (7 - k) := by decide
  exact every ⟨i % 8,by omega⟩
theorem and_bitOf (b : UInt8) (i : Nat) : b &&& bitOf i ≠ 0 ↔ b.toBitVec.getLsbD (7 - i % 8) = true := by
  rw [ne_eq,and_bit (bitOf_mask i),Bool.not_eq_false]
theorem orAt_bitOf (inside : i/8 < bits.length) :
    ∃ bits', orAt bits (i/8) (bitOf i) = some bits' ∧ bits'.length = bits.length ∧
      ∀ p, marked bits' p = (marked bits p || decide (p = i)) :=
  orAt_bit (bitOf_mask i) inside
theorem marked_outside (outside : bits.length ≤ p/8) : marked bits p = false := by
  rw [marked,getElem?_eq_none outside]
  simp
theorem marked_zeros (n p : Nat) : marked (replicate n 0) p = false := by
  rw [marked,getElem?_replicate]
  split <;> simp
theorem marked_ext (length : bits.length = bits'.length) (same : ∀ p, marked bits p = marked bits' p) :
    bits = bits' := by
  refine ext_getElem length ?_
  intro k left right
  rw [← UInt8.toBitVec_inj]
  refine BitVec.eq_of_getLsbD_eq ?_
  intro j inside
  have bit := same (8*k + (7 - j))
  rw [marked,marked,show (8*k + (7 - j))/8 = k by omega,show 7 - (8*k + (7 - j)) % 8 = j by omega,
    getElem?_eq_getElem left,getElem?_eq_getElem right] at bit
  exact bit

/-! ### The loops -/

/-- The bytes that are not zero. -/
def nonZero (data : Bytes) : Bytes := data.filter (· ≠ 0)
/-- The bitset of a byte string: as long as needed, with the bits of the bytes that are not zero. -/
structure IsBitset (bits data : Bytes) : Prop where
  length : bits.length = (data.length + 7)/8
  marks : ∀ p, marked bits p = decide (data.getD p 0 ≠ 0)

theorem getD_outside (outside : data.length ≤ p) : data.getD p 0 = 0 := by
  rw [getD_eq_getElem?_getD,getElem?_eq_none outside,Option.getD_none]
theorem IsBitset.unique (one : IsBitset bits data) (other : IsBitset bits' data) : bits = bits' :=
  marked_ext (one.length.trans other.length.symm) fun p => by rw [one.marks,other.marks]

theorem collect_spec (data : Bytes) (i : Nat) (bits found : Bytes) (room : i + data.length ≤ 8*bits.length) :
    ∃ bits', collect data i bits found = some (bits',found ++ nonZero data) ∧ bits'.length = bits.length ∧
      ∀ p, marked bits' p = (marked bits p || decide (i ≤ p ∧ data.getD (p - i) 0 ≠ 0)) := by
  induction data generalizing i bits found with
  | nil =>
    refine ⟨bits,by simp [collect,nonZero],rfl,?_⟩
    intro p
    simp
  | cons b rest ih =>
    rw [length_cons] at room
    -- the mark of this byte and those of the others
    have later (p : Nat) : (i ≤ p ∧ (b :: rest).getD (p - i) 0 ≠ 0) ↔
        (p = i ∧ b ≠ 0) ∨ (i + 1 ≤ p ∧ rest.getD (p - (i + 1)) 0 ≠ 0) := by
      rcases Nat.lt_trichotomy p i with less | rfl | more
      · simp [show ¬ i ≤ p by omega,show p ≠ i by omega,show ¬ i + 1 ≤ p by omega]
      · simp only [le_refl,Nat.sub_self,getD_cons_zero,true_and,show ¬ p + 1 ≤ p by omega,false_and,or_false]
      · rw [show p - i = (p - (i + 1)) + 1 by omega,getD_cons_succ]
        simp [show i ≤ p by omega,show i + 1 ≤ p by omega,show p ≠ i by omega]
    by_cases zero : b = 0
    · obtain ⟨bits',done,length,spec⟩ := ih (i + 1) bits found (by omega)
      refine ⟨bits',?_,length,?_⟩
      · rw [collect,if_neg (by simp [zero]),done]
        simp [nonZero,zero]
      · intro p
        rw [spec]
        congr 1
        rw [decide_eq_decide,later]
        simp [zero]
    · obtain ⟨bits₁,stored,length₁,spec₁⟩ := orAt_bitOf (show i/8 < bits.length by omega)
      obtain ⟨bits',done,length,spec⟩ := ih (i + 1) bits₁ (found ++ [b]) (by omega)
      refine ⟨bits',?_,length.trans length₁,?_⟩
      · rw [collect,if_pos zero,stored]
        simp only [done]
        simp [nonZero,zero]
      · intro p
        rw [spec,spec₁,Bool.or_assoc,← Bool.decide_or]
        congr 1
        rw [decide_eq_decide,later]
        simp [zero]
/-- The first loop makes the bitset and the bytes that are not zero. -/
theorem collect_bitset (data : Bytes) : ∃ bits, IsBitset bits data ∧
    collect data 0 (replicate ((data.length + 7)/8) 0) [] = some (bits,nonZero data) := by
  obtain ⟨bits,done,length,spec⟩ := collect_spec data 0 (replicate ((data.length + 7)/8) 0) []
    (by rw [length_replicate]; omega)
  refine ⟨bits,⟨by rw [length,length_replicate],?_⟩,by simpa using done⟩
  intro p
  rw [spec,marked_zeros]
  simp

/-- What the second loop has read: the rest of the output, with the bytes that are not zero taken from the input in their order. -/
structure Placed (data bits : Bytes) (i ptr m : Nat) (tail : Bytes) (ptr' : Nat) : Prop where
  length : tail.length = m
  marks : ∀ p, i ≤ p → marked bits p = decide (tail.getD (p - i) 0 ≠ 0)
  forward : ptr ≤ ptr'
  inside : ptr' ≤ data.length
  taken : nonZero tail = (data.drop ptr).take (ptr' - ptr)

theorem mark_read (inside : i/8 < bits.length) :
    ∃ b, bits[i/8]? = some b ∧ (b &&& bitOf i ≠ 0 ↔ marked bits i = true) := by
  refine ⟨bits[i/8],getElem?_eq_getElem inside,?_⟩
  rw [and_bitOf,marked,getElem?_eq_getElem inside,Option.getD_some]
theorem set_next (pre : Bytes) (m : Nat) (x : UInt8) :
    (pre ++ replicate (m + 1) 0).set pre.length x = (pre ++ [x]) ++ replicate m 0 := by
  rw [set_append_right _ _ le_rfl,Nat.sub_self,replicate_succ,set_cons_zero,append_assoc]
  rfl
theorem getD_after {b : UInt8} {tail : Bytes} (after : i + 1 ≤ p) :
    (b :: tail).getD (p - i) 0 = tail.getD (p - (i + 1)) 0 := by
  rw [show p - i = (p - (i + 1)) + 1 by omega,getD_cons_succ]

/-- The second loop stays in range. If it succeeds, it has placed the bytes at the bits of the bitset. Past the end of the
    output there is nothing left to fill. -/
theorem place_spec (data bits : Bytes) (left i ptr m : Nat) (pre : Bytes) (rounds : left + i = 8*bits.length)
    (here : pre.length ≤ i ∧ (0 < m → pre.length = i)) (start : ptr ≤ data.length) :
    (∃ e ≠ Failure.indexOutOfRange, place data bits left i ptr (pre ++ replicate m 0) = .error e) ∨
    ∃ tail ptr', place data bits left i ptr (pre ++ replicate m 0) = .ok (pre ++ tail,ptr') ∧
      Placed data bits i ptr m tail ptr' := by
  induction left generalizing i ptr m pre with
  | zero =>
    refine .inr ⟨replicate m 0,ptr,rfl,length_replicate,?_,le_rfl,start,?_⟩
    · intro p after
      rw [marked_outside (by omega),getD_eq_getElem?_getD,getElem?_replicate]
      split <;> simp
    · simp [nonZero]
  | succ left ih =>
    obtain ⟨b,read,mark⟩ := mark_read (show i/8 < bits.length by omega)
    rw [place]
    simp only [read]
    by_cases set : marked bits i = true
    · rw [if_pos (mark.mpr set)]
      by_cases ended : data.length ≤ ptr
      · rw [if_pos ended]
        exact .inl ⟨_,by decide,rfl⟩
      rw [if_neg ended]
      by_cases full : (pre ++ replicate m 0).length ≤ i
      · rw [if_pos full]
        exact .inl ⟨_,by decide,rfl⟩
      rw [if_neg full,getElem?_eq_getElem (by omega)]
      dsimp only
      by_cases zero : data[ptr] = 0
      · rw [if_pos zero]
        exact .inl ⟨_,by decide,rfl⟩
      rw [if_neg zero]
      rw [length_append,length_replicate] at full
      obtain ⟨m,rfl⟩ : ∃ k, m = k + 1 := ⟨m - 1,by omega⟩
      obtain rfl := here.2 (Nat.succ_pos m)
      rw [set_next]
      rcases ih (pre.length + 1) (ptr + 1) m (pre ++ [data[ptr]]) (by omega) (by simp) (by omega) with failed | ⟨tail,ptr',done,placed⟩
      · exact .inl failed
      have forward := placed.forward
      refine .inr ⟨data[ptr] :: tail,ptr',by rw [done,append_assoc]; rfl,?_⟩
      refine ⟨by rw [length_cons,placed.length],?_,by omega,placed.inside,?_⟩
      · intro p after
        rcases Nat.eq_or_lt_of_le after with rfl | more
        · rw [set,Nat.sub_self,getD_cons_zero]
          simp [zero]
        · rw [placed.marks p more,getD_after more]
      · rw [nonZero,filter_cons_of_pos (by simpa using zero),← nonZero,placed.taken,
          drop_eq_getElem_cons (show ptr < data.length by omega),
          show ptr' - ptr = (ptr' - (ptr + 1)) + 1 by omega,take_succ_cons]
    · rw [if_neg (fun nonzero => set (mark.mp nonzero))]
      cases m with
      | zero =>
        rcases ih (i + 1) ptr 0 pre (by omega) ⟨by omega,by omega⟩ start with failed | ⟨tail,ptr',done,placed⟩
        · exact .inl failed
        obtain rfl := length_eq_zero_iff.mp placed.length
        refine .inr ⟨[],ptr',done,rfl,?_,placed.forward,placed.inside,placed.taken⟩
        intro p after
        rcases Nat.eq_or_lt_of_le after with rfl | more
        · simpa using set
        · rw [placed.marks p more]
          simp
      | succ m =>
        obtain rfl := here.2 (Nat.succ_pos m)
        have shift : pre ++ replicate (m + 1) 0 = (pre ++ [0]) ++ replicate m 0 := by
          rw [replicate_succ,append_assoc]
          rfl
        rw [shift]
        rcases ih (pre.length + 1) ptr m (pre ++ [0]) (by omega) (by simp) start with failed | ⟨tail,ptr',done,placed⟩
        · exact .inl failed
        refine .inr ⟨0 :: tail,ptr',by rw [done,append_assoc]; rfl,?_⟩
        refine ⟨by rw [length_cons,placed.length],?_,placed.forward,placed.inside,?_⟩
        · intro p after
          rcases Nat.eq_or_lt_of_le after with rfl | more
          · rw [Nat.sub_self,getD_cons_zero]
            simpa using set
          · rw [placed.marks p more,getD_after more]
        · rw [nonZero,filter_cons_of_neg (by simp),← nonZero,placed.taken]

/-- With the bytes that are not zero in front, the second loop puts each where it was. -/
theorem place_fill (data bits d rest : Bytes) (marks : ∀ p, marked bits p = decide (d.getD p 0 ≠ 0)) (left i ptr : Nat)
    (rounds : left + i = 8*bits.length) (room : d.length ≤ 8*bits.length) (source : data.drop ptr = nonZero (d.drop i) ++ rest) :
    place data bits left i ptr (d.take i ++ replicate (d.length - i) 0) = .ok (d,ptr + (nonZero (d.drop i)).length) := by
  induction left generalizing i ptr with
  | zero =>
    have all : d.length ≤ i := by omega
    rw [place,take_of_length_le all,drop_of_length_le all,Nat.sub_eq_zero_of_le all]
    simp [nonZero]
  | succ left ih =>
    obtain ⟨b,read,mark⟩ := mark_read (show i/8 < bits.length by omega)
    rw [place]
    simp only [read]
    by_cases inside : i < d.length
    · have here : d.getD i 0 = d[i] := by rw [getD_eq_getElem?_getD,List.getElem?_eq_getElem inside,Option.getD_some]
      have front : d.take (i + 1) = d.take i ++ [d[i]] := take_succ_eq_append_getElem inside
      have remaining : d.length - i = (d.length - (i + 1)) + 1 := by omega
      rw [drop_eq_getElem_cons inside] at source ⊢
      by_cases zero : d[i] = 0
      · rw [if_neg (by rw [mark,marks,here,zero]; simp)]
        have shift : d.take i ++ replicate (d.length - i) 0 = d.take (i + 1) ++ replicate (d.length - (i + 1)) 0 := by
          rw [front,zero,remaining,replicate_succ,append_assoc]
          rfl
        have nothing : nonZero (d[i] :: d.drop (i + 1)) = nonZero (d.drop (i + 1)) := filter_cons_of_neg (by simp [zero])
        rw [nothing] at source ⊢
        rw [shift]
        exact ih (i + 1) ptr (by omega) source
      · have found : nonZero (d[i] :: d.drop (i + 1)) = d[i] :: nonZero (d.drop (i + 1)) := filter_cons_of_pos (by simpa using zero)
        rw [found,cons_append] at source
        have here' : data[ptr]? = some d[i] := by
          have first := congrArg (·[0]?) source
          simpa using first
        have more : ptr < data.length := (List.getElem?_eq_some_iff.mp here').1
        have source' : data.drop (ptr + 1) = nonZero (d.drop (i + 1)) ++ rest := by
          rw [← drop_drop,source]
          rfl
        have length : (d.take i).length = i := by rw [length_take]; omega
        rw [if_pos (by rw [mark,marks,here]; simpa using zero),if_neg (by omega),
          if_neg (by rw [length_append,length,length_replicate]; omega)]
        simp only [here',if_neg zero]
        have stored := set_next (d.take i) (d.length - (i + 1)) d[i]
        rw [length,← remaining,← front] at stored
        rw [stored,ih (i + 1) (ptr + 1) (by omega) source',found,length_cons]
        congr 2
        omega
    · have none : nonZero (d.drop i) = [] := by
        rw [drop_of_length_le (by omega)]
        rfl
      have none' : nonZero (d.drop (i + 1)) = [] := by
        rw [drop_of_length_le (by omega)]
        rfl
      have next := ih (i + 1) ptr (by omega) (by rw [none',← none]; exact source)
      rw [if_neg (by rw [mark,marks,getD_outside (by omega)]; simp),none]
      rw [none',take_of_length_le (by omega),show d.length - (i + 1) = 0 by omega] at next
      rw [take_of_length_le (by omega),show d.length - i = 0 by omega]
      exact next

/-! ### Round trips -/

/-- The recursion: the bitset encoded, then the bytes that are not zero. -/
theorem encode_bitset (long : 2 ≤ data.length) : ∃ bits, IsBitset bits data ∧
    bitsetEncodeBytes data = if nonZero data = [] then some [] else (bitsetEncodeBytes bits).map (· ++ nonZero data) := by
  obtain ⟨bits,isBitset,done⟩ := collect_bitset data
  refine ⟨bits,isBitset,?_⟩
  match data,long,done with
  | a :: b :: rest,_,done =>
    rw [bitsetEncodeBytes]
    split
    next failed => rw [done] at failed; cases failed
    next found =>
      rw [done] at found
      obtain ⟨rfl,rfl⟩ := Prod.mk.inj (Option.some_inj.mp found)
      rfl

theorem nonZero_eq_nil : nonZero data = [] ↔ ∀ p, data.getD p 0 = 0 := by
  constructor
  · intro none p
    by_cases inside : p < data.length
    · have zero := filter_eq_nil_iff.mp none data[p] (getElem_mem inside)
      rw [getD_eq_getElem?_getD,getElem?_eq_getElem inside,Option.getD_some]
      simpa using zero
    · exact getD_outside (by omega)
  · intro zeros
    refine filter_eq_nil_iff.mpr ?_
    intro b member
    obtain ⟨p,inside,rfl⟩ := mem_iff_getElem.mp member
    have zero := zeros p
    rw [getD_eq_getElem?_getD,getElem?_eq_getElem inside,Option.getD_some] at zero
    simp [zero]
theorem zeros_of_nonZero (none : nonZero data = []) : data = replicate data.length 0 := by
  refine eq_replicate_iff.mpr ⟨rfl,?_⟩
  intro b member
  have zero := filter_eq_nil_iff.mp none b member
  simpa using zero
theorem IsBitset.nonZero_iff (isBitset : IsBitset bits data) : nonZero bits = [] ↔ nonZero data = [] := by
  constructor
  · intro none
    refine nonZero_eq_nil.mpr fun p => ?_
    have unmarked := isBitset.marks p
    rw [zeros_of_nonZero none,marked_zeros] at unmarked
    simpa using unmarked.symm
  · intro none
    have zeros := nonZero_eq_nil.mp none
    have same : bits = replicate bits.length 0 := by
      refine marked_ext (by rw [length_replicate]) fun p => ?_
      rw [isBitset.marks,marked_zeros,zeros p]
      simp
    rw [same]
    simp [nonZero]

theorem decodePartial_nil (target : Nat) : bitsetDecodePartialBytes [] target = .ok (replicate target 0,0) := by
  rw [bitsetDecodePartialBytes]
  by_cases none : target = 0
  · rw [if_pos none,none]
    rfl
  · rw [if_neg none]
theorem decodePartial_long (some : data ≠ []) {target : Nat} (long : 2 ≤ target) :
    bitsetDecodePartialBytes data target = match bitsetDecodePartialBytes data ((target + 7)/8) with
      | .error err => .error err
      | .ok (nonZeroBitset,ptr) => place data nonZeroBitset (8*nonZeroBitset.length) 0 ptr (replicate target 0) := by
  obtain ⟨first,rest,rfl⟩ := exists_cons_of_ne_nil some
  rw [bitsetDecodePartialBytes,if_neg (by omega)]
  simp [if_neg (show target ≠ 1 by omega)]

/-- What an encoding is: nothing for zeros, and in front of anything else it is read back. -/
structure Encodes (d e : Bytes) : Prop where
  empty : e = [] ↔ nonZero d = []
  read : ∀ rest, (nonZero d = [] → rest = []) → bitsetDecodePartialBytes (e ++ rest) d.length = .ok (d,e.length)

theorem encodes_zeros {d : Bytes} (none : nonZero d = []) : Encodes d [] := by
  refine ⟨by simp [none],?_⟩
  intro rest ended
  rw [ended none,append_nil,decodePartial_nil,← zeros_of_nonZero none]
  rfl
/-- By induction on the length: the bitset is shorter than what it is the bitset of. -/
theorem bitsetEncodeBytes_spec (d : Bytes) : ∃ e, bitsetEncodeBytes d = some e ∧ Encodes d e := by
  induction length : d.length using Nat.strong_induction_on generalizing d with
  | _ n ih =>
    subst length
    by_cases long : 2 ≤ d.length
    · obtain ⟨bits,isBitset,encoded⟩ := encode_bitset long
      by_cases none : nonZero d = []
      · rw [if_pos none] at encoded
        exact ⟨[],encoded,encodes_zeros none⟩
      · rw [if_neg none] at encoded
        have bits_length := isBitset.length
        obtain ⟨e,encoded_bits,encodes⟩ := ih bits.length (by omega) bits rfl
        have bits_some : nonZero bits ≠ [] := fun empty => none (isBitset.nonZero_iff.mp empty)
        have some : e ≠ [] := fun empty => bits_some (encodes.empty.mp empty)
        rw [encoded_bits,Option.map_some] at encoded
        refine ⟨e ++ nonZero d,encoded,by simp [none],?_⟩
        intro rest _
        have inner := encodes.read (nonZero d ++ rest) fun empty => absurd empty bits_some
        rw [decodePartial_long (by simp [some]) long,← bits_length,append_assoc,inner]
        have filled := place_fill (e ++ (nonZero d ++ rest)) bits d rest isBitset.marks (8*bits.length) 0 e.length rfl (by omega)
          (by rw [drop_left,drop_zero])
        rw [take_zero,nil_append,Nat.sub_zero,drop_zero,← length_append] at filled
        exact filled
    · match d,long with
      | [],_ => exact ⟨[],by rw [bitsetEncodeBytes],encodes_zeros rfl⟩
      | [b],_ =>
        by_cases zero : b = 0
        · exact ⟨[],by rw [bitsetEncodeBytes,if_pos zero],encodes_zeros (by simp [nonZero,zero])⟩
        · refine ⟨[b],by rw [bitsetEncodeBytes,if_neg zero],by simp [nonZero,zero],?_⟩
          intro rest _
          rw [cons_append,nil_append,bitsetDecodePartialBytes]
          simp [zero]
      | a :: b :: rest,long => exact absurd (by simp) long

theorem bitsetDecodePartialBytes_spec (data : Bytes) (target : Nat) :
    (∃ e ≠ Failure.indexOutOfRange, bitsetDecodePartialBytes data target = .error e) ∨
    ∃ d size, bitsetDecodePartialBytes data target = .ok (d,size) ∧ d.length = target ∧ size ≤ data.length ∧
      bitsetEncodeBytes d = some (data.take size) := by
  induction target using Nat.strong_induction_on with
  | _ target ih =>
    have zeros (n : Nat) : bitsetEncodeBytes (replicate n 0) = some [] := by
      obtain ⟨e,encoded,encodes⟩ := bitsetEncodeBytes_spec (replicate n 0)
      rw [encoded,encodes.empty.mpr (by simp [nonZero])]
    by_cases empty : data = []
    · subst empty
      exact .inr ⟨_,0,decodePartial_nil target,length_replicate,le_rfl,zeros target⟩
    by_cases long : 2 ≤ target
    · rw [decodePartial_long empty long]
      rcases ih ((target + 7)/8) (by omega) with ⟨e,other,failed⟩ | ⟨bits,ptr,decoded,length,inside,encoded⟩
      · rw [failed]
        exact .inl ⟨e,other,rfl⟩
      rw [decoded]
      have spec := place_spec data bits (8*bits.length) 0 ptr target [] rfl (by simp) inside
      rw [nil_append] at spec
      rcases spec with failed | ⟨d,size,placed_ok,placed⟩
      · exact .inl failed
      rw [nil_append] at placed_ok
      have isBitset : IsBitset bits d := by
        refine ⟨by rw [length,placed.length],fun p => ?_⟩
        have mark := placed.marks p (Nat.zero_le p)
        rwa [Nat.sub_zero] at mark
      refine .inr ⟨d,size,placed_ok,placed.length,placed.inside,?_⟩
      obtain ⟨bits',isBitset',encoded_d⟩ := encode_bitset (show 2 ≤ d.length by rw [placed.length]; exact long)
      obtain rfl := isBitset.unique isBitset'
      have forward := placed.forward
      have within := placed.inside
      have taken := placed.taken
      by_cases none : nonZero d = []
      · -- nothing was placed, and the bitset was empty already
        rw [if_pos none] at encoded_d
        rw [none] at taken
        have nothing : (data.drop ptr).take (size - ptr) = [] := taken.symm
        have size_eq : size = ptr := by
          have := congrArg List.length nothing
          simp only [length_take,length_drop,length_nil] at this
          omega
        rw [zeros_of_nonZero (isBitset.nonZero_iff.mpr none),zeros] at encoded
        rw [encoded_d,size_eq]
        exact encoded
      · rw [if_neg none,encoded,Option.map_some,taken] at encoded_d
        rw [encoded_d,← take_add,show ptr + (size - ptr) = size by omega]
    · obtain ⟨first,rest,rfl⟩ := exists_cons_of_ne_nil empty
      rw [bitsetDecodePartialBytes]
      by_cases none : target = 0
      · rw [if_pos none]
        exact .inr ⟨[],0,rfl,none.symm,Nat.zero_le _,zeros 0⟩
      · rw [if_neg none]
        simp only [if_pos (show target = 1 by omega)]
        refine .inr ⟨[first],_,rfl,by simp; omega,?_,?_⟩
        · split <;> simp
        · rw [bitsetEncodeBytes]
          by_cases zero : first = 0 <;> simp [zero]

/-- What is compressed comes back. Decoding stays in range, and what it accepts is the encoding of what it returns. -/
theorem compression_exact : (∀ d : Bytes, ∃ c, compressBytes d = some c ∧ decompressBytes c d.length = .ok d) ∧
    ∀ (b : Bytes) (n : Nat), bitsetDecodeBytes b n ≠ .error .indexOutOfRange ∧
      ∀ d, bitsetDecodeBytes b n = .ok d → d.length = n ∧ bitsetEncodeBytes d = some b := by
  constructor
  · intro d
    obtain ⟨e,encoded,encodes⟩ := bitsetEncodeBytes_spec d
    refine ⟨if e.length < d.length then e else d,by rw [compressBytes,encoded,Option.map_some],?_⟩
    by_cases shorter : e.length < d.length
    · have read := encodes.read [] fun _ => rfl
      rw [append_nil] at read
      rw [if_pos shorter,decompressBytes,if_neg (by omega),if_neg (by omega),bitsetDecodeBytes,read]
      simp
    · rw [if_neg shorter,decompressBytes,if_neg (by omega),if_pos rfl]
  · intro b n
    rw [bitsetDecodeBytes]
    rcases bitsetDecodePartialBytes_spec b n with ⟨e,other,failed⟩ | ⟨d,size,decoded,length,inside,encoded⟩
    · rw [failed]
      exact ⟨by simpa using other,by intro d done; cases done⟩
    · rw [decoded]
      dsimp only
      by_cases whole : size = b.length
      · rw [if_neg (by simp [whole])]
        refine ⟨by simp,?_⟩
        intro d' same
        obtain rfl := Except.ok.inj same
        rw [whole,take_length] at encoded
        exact ⟨length,encoded⟩
      · rw [if_pos whole]
        exact ⟨by simp,by intro d done; cases done⟩

end Canchain.BitUtil
