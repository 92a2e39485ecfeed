import Canchain.EvmWords
import Canchain.Keccak

/-!
Jump destinations, after `kernel/vm/analysis.go` and `contract.go`. The scan marks the bytes
that a push instruction carries; the bitmap is kept with the contract, or under the hash of the
code. The answer is the one of decoding the code from its first byte (`jumpdests_exact`).
-/
namespace Canchain.Evm
open Function Option List UInt8
open Rlp (Bytes)
open Common (Hash)

abbrev OpCode := UInt8
def JUMPDEST : OpCode := 0x5b
def PUSH1 : OpCode := 0x60
def PUSH32 : OpCode := 0x7f

/-- The bytes of the bitmap. `none` is the panic of an index out of range. -/
abbrev Bitvec := List UInt8

def orAt (bits : Bitvec) (i : Nat) (mask : UInt8) : Option Bitvec :=
  match bits[i]? with
  | none => none
  | some b => some (bits.set i (b ||| mask))
def Bitvec.set (bits : Bitvec) (pos : Nat) : Option Bitvec := orAt bits (pos/8) (0x80 >>> UInt8.ofNat (pos % 8))
def Bitvec.set8 (bits : Bitvec) (pos : Nat) : Option Bitvec :=
  match orAt bits (pos/8) (0xFF >>> UInt8.ofNat (pos % 8)) with
  | none => none
  | some bits => orAt bits (pos/8 + 1) (~~~(0xFF >>> UInt8.ofNat (pos % 8)))
def Bitvec.codeSegment (bits : Bitvec) (pos : Nat) : Option Bool :=
  match bits[pos/8]? with
  | none => none
  | some b => some (b &&& (0x80 >>> UInt8.ofNat (pos % 8)) == 0)

/-- The loops of the scan, which take eight bits a round and one. -/
def setRounds (set : Bitvec → Nat → Option Bitvec) (width : Nat) : Nat → Nat → Bitvec → Option Bitvec
  | 0, _, bits => some bits
  | rounds+1, pc, bits =>
    match set bits pc with
    | none => none
    | some bits => setRounds set width rounds (pc + width) bits
def set8s : Nat → Nat → Bitvec → Option Bitvec := setRounds Bitvec.set8 8
def sets : Nat → Nat → Bitvec → Option Bitvec := setRounds Bitvec.set 1
/-- One round of the scan: where it goes on, and the bitmap. -/
def scanOp (op : OpCode) (pc : Nat) (bits : Bitvec) : Option (Nat × Bitvec) :=
  if op ≥ PUSH1 ∧ op ≤ PUSH32 then
    let numbits := (op - PUSH1 + 1).toNat
    let pc := pc + 1
    match set8s (numbits/8) pc bits with
    | none => none
    | some bits =>
      let pc := pc + 8*(numbits/8)
      match sets (numbits % 8) pc bits with
      | none => none
      | some bits => some (pc + numbits % 8,bits)
  else some (pc + 1,bits)
/-- The scan moves on with each round, so there are at most as many rounds as bytes. -/
def scan (code : Bytes) : Nat → Nat → Bitvec → Option Bitvec
  | 0, _, bits => some bits
  | rounds+1, pc, bits =>
    match code[pc]? with
    | none => some bits
    | some op =>
      match scanOp op pc bits with
      | none => none
      | some (pc,bits) => scan code rounds pc bits
def codeBitmap (code : Bytes) : Option Bitvec := scan code code.length 0 (List.replicate (code.length/8 + 1 + 4) 0)

/-- Whether the bit of `pos` is set. Bytes beyond the end count as zero. -/
def marked (bits : Bitvec) (pos : Nat) : Bool := (bits[pos/8]?.getD 0).toBitVec.getLsbD (7 - pos % 8)

theorem bit_mask : ∀ k : Fin 8, ((0x80 : UInt8) >>> ofNat k).toBitVec = BitVec.twoPow 8 (7 - k) := by decide
theorem low_mask : ∀ j k : Fin 8, ((0xFF : UInt8) >>> ofNat j).toBitVec.getLsbD (7 - k) = decide (j ≤ k) := by
  decide

variable {bits : Bitvec} {pos : Nat}
/-- A mask of one bit tests this bit. -/
theorem and_bit {mask : UInt8} (isBit : mask.toBitVec = BitVec.twoPow 8 (7 - pos % 8)) (b : UInt8) :
    b &&& mask = 0 ↔ b.toBitVec.getLsbD (7 - pos % 8) = false := by
  have nonzero : BitVec.twoPow 8 (7 - pos % 8) ≠ 0#8 := by
    have some : ∀ k : Fin 8, BitVec.twoPow 8 (7 - k) ≠ 0#8 := by decide
    exact some ⟨pos % 8,by omega⟩
  rw [← UInt8.toBitVec_inj,UInt8.toBitVec_and,isBit,BitVec.and_twoPow]
  cases set : b.toBitVec.getLsbD (7 - pos % 8) <;> simp [nonzero]
theorem codeSegment_marked (inside : pos/8 < bits.length) : bits.codeSegment pos = some (!marked bits pos) := by
  have test (b : UInt8) : (b &&& (0x80 >>> ofNat (pos % 8)) == 0) = !b.toBitVec.getLsbD (7 - pos % 8) := by
    rw [Bool.eq_iff_iff,beq_iff_eq,and_bit (bit_mask ⟨pos % 8,by omega⟩),Bool.not_eq_true']
  rw [Bitvec.codeSegment,marked,getElem?_eq_getElem inside,getD_some]
  exact congrArg some (test _)

/-- Or-ing a mask into a byte adds the mask's bits there. -/
theorem orAt_marked {i : Nat} (mask : UInt8) (inside : i < bits.length) :
    ∃ bits', orAt bits i mask = some bits' ∧ bits'.length = bits.length ∧ ∀ pos,
      marked bits' pos = (marked bits pos || (decide (pos/8 = i) && mask.toBitVec.getLsbD (7 - pos % 8))) := by
  refine ⟨List.set bits i (bits[i] ||| mask),by rw [orAt,getElem?_eq_getElem inside],length_set,?_⟩
  intro pos
  by_cases same : pos/8 = i
  · subst same
    simp [marked,getElem?_set_self inside,getElem?_eq_getElem inside]
  · simp [marked,getElem?_set_ne (Ne.symm same),same]

/-- A mask of one bit marks one position. -/
theorem orAt_bit {mask : UInt8} (isBit : mask.toBitVec = BitVec.twoPow 8 (7 - pos % 8)) (inside : pos/8 < bits.length) :
    ∃ bits', orAt bits (pos/8) mask = some bits' ∧ bits'.length = bits.length ∧
      ∀ i, marked bits' i = (marked bits i || decide (i = pos)) := by
  obtain ⟨bits',run,len,spec⟩ := orAt_marked mask inside
  refine ⟨bits',run,len,fun i => ?_⟩
  have bit : (BitVec.twoPow 8 (7 - pos % 8)).getLsbD (7 - i % 8) = decide (i % 8 = pos % 8) := by
    rw [BitVec.getLsbD_twoPow]
    have : 7 - pos % 8 < 8 := by omega
    simp only [this,decide_true,Bool.true_and,decide_eq_decide]
    omega
  rw [spec,isBit,bit,← Bool.decide_and]
  congr 1
  rw [decide_eq_decide]
  omega
theorem set_marked (inside : (pos + 1)/8 < bits.length) : ∃ bits', bits.set pos = some bits' ∧ bits'.length = bits.length ∧
      ∀ i, marked bits' i = (marked bits i || decide (pos ≤ i ∧ i < pos + 1)) := by
  obtain ⟨bits',run,len,spec⟩ := orAt_bit (bit_mask ⟨pos % 8,by omega⟩) (show pos/8 < bits.length by omega)
  refine ⟨bits',run,len,fun i => ?_⟩
  rw [spec]
  congr 1
  rw [decide_eq_decide]
  omega
theorem set8_marked (inside : (pos + 8)/8 < bits.length) :
    ∃ bits', bits.set8 pos = some bits' ∧ bits'.length = bits.length ∧
      ∀ i, marked bits' i = (marked bits i || decide (pos ≤ i ∧ i < pos + 8)) := by
  obtain ⟨half,run,len,spec⟩ := orAt_marked (0xFF >>> ofNat (pos % 8)) (show pos/8 < bits.length by omega)
  obtain ⟨bits',run',len',spec'⟩ := orAt_marked (~~~(0xFF >>> ofNat (pos % 8)))
    (show pos/8 + 1 < half.length by omega)
  refine ⟨bits',by simp [Bitvec.set8,run,run'],len'.trans len,fun i => ?_⟩
  have first := low_mask ⟨pos % 8,by omega⟩ ⟨i % 8,by omega⟩
  have second : (~~~((0xFF : UInt8) >>> ofNat (pos % 8))).toBitVec.getLsbD (7 - i % 8) =
      decide (i % 8 < pos % 8) := by
    rw [UInt8.toBitVec_not,BitVec.getLsbD_not,first]
    have below : 7 - i % 8 < 8 := by omega
    simp only [below,decide_true,Bool.true_and,← decide_not,decide_eq_decide,Fin.mk_le_mk]
    omega
  rw [spec',spec,first,second,Bool.or_assoc,← Bool.decide_and,← Bool.decide_and,← Bool.decide_or]
  congr 1
  simp only [decide_eq_decide,Fin.mk_le_mk]
  omega

theorem setRounds_marked {set : Bitvec → Nat → Option Bitvec} {width : Nat}
    (one : ∀ bits pos, (pos + width)/8 < bits.length → ∃ bits', set bits pos = some bits' ∧ bits'.length = bits.length ∧
      ∀ i, marked bits' i = (marked bits i || decide (pos ≤ i ∧ i < pos + width)))
    (rounds pc : Nat) (bits : Bitvec) (inside : (pc + width*rounds)/8 < bits.length) :
    ∃ bits', setRounds set width rounds pc bits = some bits' ∧ bits'.length = bits.length ∧
      ∀ i, marked bits' i = (marked bits i || decide (pc ≤ i ∧ i < pc + width*rounds)) := by
  induction rounds generalizing pc bits with
  | zero =>
    refine ⟨bits,rfl,rfl,fun i => ?_⟩
    simp
  | succ rounds later =>
    rw [Nat.mul_succ] at inside ⊢
    obtain ⟨next,run,len,spec⟩ := one bits pc (by omega)
    obtain ⟨bits',run',len',spec'⟩ := later (pc + width) next (by rw [len]; omega)
    refine ⟨bits',by simp [setRounds,run,run'],len'.trans len,fun i => ?_⟩
    rw [spec',spec,Bool.or_assoc,← Bool.decide_or]
    congr 1
    rw [decide_eq_decide]
    omega

/-! ### Instructions from left to right -/

/-- The bytes an instruction carries behind its own. -/
def immediate (op : OpCode) : Nat := if op ≥ PUSH1 ∧ op ≤ PUSH32 then op.toNat - PUSH1.toNat + 1 else 0
/-- Where the `n`-th instruction starts. Behind the end of the code every byte is one instruction. -/
def instruction (code : Bytes) : Nat → Nat
  | 0 => 0
  | n+1 => instruction code n + 1 + immediate (code[instruction code n]?.getD 0)
def Boundary (code : Bytes) (pos : Nat) : Prop := ∃ n, instruction code n = pos

theorem instruction_lt (code : Bytes) : StrictMono (instruction code) :=
  strictMono_nat_of_lt_succ (fun n => by rw [instruction]; omega)

theorem immediate_le (op : OpCode) : immediate op ≤ 32 := by
  have top := op.toNat_lt
  rw [immediate]
  split
  · next push =>
    have last := le_iff_toNat_le.mp push.2
    have : PUSH32.toNat = 127 := rfl
    have : PUSH1.toNat = 96 := rfl
    omega
  · omega

variable {code : Bytes} {n : Nat}
/-- No instruction starts inside the bytes another one carries. -/
theorem not_boundary (low : instruction code n < pos)
    (high : pos < instruction code (n + 1)) : ¬Boundary code pos := by
  rintro ⟨m,rfl⟩
  have after := (instruction_lt code).lt_iff_lt.mp low
  have before := (instruction_lt code).lt_iff_lt.mp high
  omega

theorem scanOp_marked (op : OpCode) (pc : Nat) (bits : Bitvec) (inside : (pc + 33)/8 < bits.length) :
    ∃ bits', scanOp op pc bits = some (pc + 1 + immediate op,bits') ∧ bits'.length = bits.length ∧
      ∀ i, marked bits' i = (marked bits i || decide (pc < i ∧ i ≤ pc + immediate op)) := by
  by_cases push : op ≥ PUSH1 ∧ op ≤ PUSH32
  · have numbits : (op - PUSH1 + 1).toNat = immediate op := by
      have first := le_iff_toNat_le.mp push.1
      have last := le_iff_toNat_le.mp push.2
      have sixty : PUSH1.toNat = 96 := rfl
      have top : PUSH32.toNat = 127 := rfl
      rw [immediate,if_pos push,UInt8.toNat_add,UInt8.toNat_sub_of_le _ _ push.1,show (1 : UInt8).toNat = 1 from rfl]
      omega
    have bound := immediate_le op
    obtain ⟨next,run,len,spec⟩ := setRounds_marked (fun _ _ => set8_marked) (immediate op/8) (pc + 1) bits (by omega)
    obtain ⟨bits',run',len',spec'⟩ := setRounds_marked (fun _ _ => set_marked) (immediate op % 8)
      (pc + 1 + 8*(immediate op/8)) next (by rw [len]; omega)
    refine ⟨bits',?_,len'.trans len,fun i => ?_⟩
    · have whole : pc + 1 + 8*(immediate op/8) + immediate op % 8 = pc + 1 + immediate op := by omega
      simp [scanOp,set8s,sets,if_pos push,numbits,run,run',whole]
    · rw [spec',spec,Bool.or_assoc,← Bool.decide_or]
      congr 1
      rw [decide_eq_decide]
      omega
  · refine ⟨bits,by rw [scanOp,if_neg push,immediate,if_neg push,add_zero],rfl,fun i => ?_⟩
    have none : ¬(pc < i ∧ i ≤ pc + immediate op) := by
      rw [immediate,if_neg push]
      omega
    simp [none]

/-- At the `n`-th instruction exactly the earlier bytes that start no instruction are marked. -/
def Marks (code : Bytes) (n : Nat) (bits : Bitvec) : Prop :=
  ∀ i, marked bits i = true ↔ i < instruction code n ∧ ¬Boundary code i

theorem Marks.scanOp {op : OpCode} (marks : Marks code n bits)
    (here : code[instruction code n]? = some op) (size : bits.length = code.length/8 + 1 + 4) :
    ∃ bits', scanOp op (instruction code n) bits = some (instruction code (n + 1),bits') ∧
      bits'.length = bits.length ∧ Marks code (n + 1) bits' := by
  have inside := (List.getElem?_eq_some_iff.mp here).1
  have next : instruction code (n + 1) = instruction code n + 1 + immediate op := by rw [instruction,here]; rfl
  obtain ⟨bits',run,len,spec⟩ := scanOp_marked op (instruction code n) bits (by omega)
  refine ⟨bits',by rw [run,next],len,fun i => ?_⟩
  rw [spec,Bool.or_eq_true,marks,decide_eq_true_eq]
  constructor
  · rintro (⟨low,no⟩ | ⟨low,high⟩)
    · exact ⟨by omega,no⟩
    · exact ⟨by omega,not_boundary low (by omega)⟩
  · rintro ⟨low,no⟩
    rcases lt_trichotomy i (instruction code n) with before | rfl | after
    · exact .inl ⟨before,no⟩
    · exact absurd ⟨n,rfl⟩ no
    · exact .inr ⟨after,by omega⟩

theorem scan_marks (rounds n : Nat) (bits : Bitvec) (marks : Marks code n bits)
    (size : bits.length = code.length/8 + 1 + 4) (enough : code.length ≤ instruction code n + rounds) :
    ∃ bits', scan code rounds (instruction code n) bits = some bits' ∧ bits'.length = code.length/8 + 1 + 4 ∧
      ∃ last, code.length ≤ instruction code last ∧ Marks code last bits' := by
  induction rounds generalizing n bits with
  | zero => exact ⟨bits,rfl,size,n,by omega,marks⟩
  | succ rounds later =>
    cases here : code[instruction code n]? with
    | none => exact ⟨bits,by rw [scan,here],size,n,getElem?_eq_none_iff.mp here,marks⟩
    | some op =>
      obtain ⟨next,run,len,marks'⟩ := marks.scanOp here size
      have forward := instruction_lt code (show n < n + 1 by omega)
      obtain ⟨bits',rest,result⟩ := later (n + 1) next marks' (len.trans size) (by omega)
      exact ⟨bits',by simp [scan,here,run,rest],result⟩

/-- The scan of any code ends without an index out of range, and marks exactly the
    bytes of the code that start no instruction. -/
theorem codeBitmap_spec (code : Bytes) :
    ∃ bits, codeBitmap code = some bits ∧ bits.length = code.length/8 + 5 ∧
      ∀ pos < code.length, bits.codeSegment pos = some true ↔ Boundary code pos := by
  have start : Marks code 0 (replicate (code.length/8 + 1 + 4) 0) := by
    intro i
    have zero : (replicate (code.length/8 + 1 + 4) (0 : UInt8))[i/8]?.getD 0 = 0 := by
      rw [getElem?_replicate]
      split <;> rfl
    simp [marked,zero,instruction]
  obtain ⟨bits,run,size,last,reached,marks⟩ := scan_marks code.length 0 _ start (by simp) (by omega)
  refine ⟨bits,run,size,fun pos inside => ?_⟩
  rw [codeSegment_marked (by omega),some_inj,Bool.not_eq_true',← Bool.not_eq_true,marks]
  constructor
  · intro unmarked
    by_contra no
    exact unmarked ⟨by omega,no⟩
  · rintro yes ⟨_,no⟩
    exact no yes

/-! ### The caches -/

/-- A slice of code. No address space holds `2^62` bytes. -/
structure Code where
  bytes : Bytes
  short : bytes.length < 2^62
  deriving DecidableEq
/-- What a contract knows of its code. -/
structure ContractCode where
  code : Code
  codeHash : Hash
  analysis : Option Bitvec
/-- The map from the hash of a code to its bitmap. -/
abbrev Jumpdests := Hash → Option Bitvec

def bitLen (x : Int) : Nat := x.natAbs.size

/-- The answer, with both caches after it. -/
def validJumpdest (c : ContractCode) (jumpdests : Jumpdests) (dest : Int) :
    Option (Bool × ContractCode × Jumpdests) :=
  let udest := uint64 dest
  if bitLen dest ≥ 63 ∨ udest ≥ c.code.bytes.length then some (false,c,jumpdests)
  else
    match c.code.bytes[udest]? with
    | none => none
    | some op =>
      if op ≠ JUMPDEST then some (false,c,jumpdests)
      else if c.codeHash ≠ Hash.zero then
        match jumpdests c.codeHash with
        | some analysis => (analysis.codeSegment udest).map (·,c,jumpdests)
        | none =>
          match codeBitmap c.code.bytes with
          | none => none
          | some analysis =>
            (analysis.codeSegment udest).map (·,c,Function.update jumpdests c.codeHash (some analysis))
      else
        match c.analysis with
        | some analysis => (analysis.codeSegment udest).map (·,c,jumpdests)
        | none =>
          match codeBitmap c.code.bytes with
          | none => none
          | some analysis => (analysis.codeSegment udest).map (·,{ c with analysis := some analysis },jumpdests)

/-- The contracts made so far, each with the map it uses. -/
structure Calls where
  contracts : List (ContractCode × Nat)
  jumpdests : List Jumpdests
inductive Event where
  /-- `NewContract` with its code set. A contract that calls hands its map on. -/
  | newContract (caller : Option Nat) (code : Code) (codeHash : Hash)
  | validJumpdest (contract : Nat) (dest : Word)
structure Answer where
  code : Code
  dest : Word
  valid : Bool
  deriving DecidableEq

def Calls.newContract (s : Calls) (caller : Option Nat) (c : ContractCode) : Calls :=
  match caller.bind (fun i => s.contracts[i]?) with
  | some (_,jumpdests) => { s with contracts := s.contracts ++ [(c,jumpdests)] }
  | none => ⟨s.contracts ++ [(c,s.jumpdests.length)],s.jumpdests ++ [fun _ => none]⟩
def Calls.step (s : Calls) : Event → Option (Calls × List Answer)
  | .newContract caller code codeHash => some (s.newContract caller ⟨code,codeHash,none⟩,[])
  | .validJumpdest i dest =>
    match s.contracts[i]? with
    | none => some (s,[])
    | some (c,m) =>
      match Evm.validJumpdest c (s.jumpdests[m]?.getD (fun _ => none)) (value dest) with
      | none => none
      | some (valid,c,jumpdests) =>
        some (⟨s.contracts.set i (c,m),s.jumpdests.set m jumpdests⟩,[⟨c.code,dest,valid⟩])
def Calls.run (s : Calls) : List Event → Option (Calls × List Answer)
  | [] => some (s,[])
  | event :: events =>
    match s.step event with
    | none => none
    | some (s,answers) =>
      match s.run events with
      | none => none
      | some (s,more) => some (s,answers ++ more)

/-- The destinations that decoding the code from left to right allows. -/
def Valid (code : Bytes) (dest : Nat) : Prop := code[dest]? = some JUMPDEST ∧ Boundary code dest
variable {s : Calls}

section
variable (keccak : Bytes → Hash) (codes : Set Bytes)

/-- The hash that comes with a code: an account's, or none for code that creates one. -/
def Hashed (code : Code) (codeHash : Hash) : Prop :=
  codeHash = Hash.zero ∨ code.bytes = [] ∨ codeHash = keccak code.bytes

structure SoundCode (c : ContractCode) : Prop where
  known : c.code.bytes ∈ codes
  hashed : Hashed keccak c.code c.codeHash
  analysis : ∀ bits, c.analysis = some bits → codeBitmap c.code.bytes = some bits
def SoundMap (jumpdests : Jumpdests) : Prop :=
  ∀ hash bits, jumpdests hash = some bits → ∃ code ∈ codes, hash = keccak code ∧ codeBitmap code = some bits

variable {keccak codes}

/-- The first test of `validJumpdest` asks whether the destination lies behind the code. -/
theorem outside_iff (code : Code) (dest : Word) :
    (bitLen (value dest) ≥ 63 ∨ uint64 (value dest) ≥ code.bytes.length) ↔ dest.toNat ≥ code.bytes.length := by
  have short := code.short
  have size : bitLen (value dest) ≥ 63 ↔ 2^62 ≤ dest.toNat := Nat.lt_size
  rw [size]
  by_cases large : 2^62 ≤ dest.toNat
  · simp only [large,true_or,true_iff]
    omega
  · rw [uint64_value (by omega)]
    simp only [large,false_or]

theorem segment_valid {dest : Nat} (scanned : codeBitmap code = some bits)
    (here : code[dest]? = some JUMPDEST) :
    ∃ answer, bits.codeSegment dest = some answer ∧ (answer = true ↔ Valid code dest) := by
  obtain ⟨bits',scanned',size,spec⟩ := codeBitmap_spec code
  obtain rfl : bits' = bits := some_inj.mp (scanned'.symm.trans scanned)
  have inside := (List.getElem?_eq_some_iff.mp here).1
  have read := codeSegment_marked (show dest/8 < bits'.length by omega)
  refine ⟨_,read,?_⟩
  have boundary := spec dest inside
  rw [read,some_inj] at boundary
  rw [boundary,Valid,here]
  simp

theorem validJumpdest_spec (injective : Set.InjOn keccak codes) {c : ContractCode} {jumpdests : Jumpdests}
    (sound : SoundCode keccak codes c) (map : SoundMap keccak codes jumpdests) (dest : Word) :
    ∃ valid c' jumpdests', validJumpdest c jumpdests (value dest) = some (valid,c',jumpdests') ∧
      (valid = true ↔ Valid c.code.bytes dest.toNat) ∧ c'.code = c.code ∧
      SoundCode keccak codes c' ∧ SoundMap keccak codes jumpdests' := by
  cases here : c.code.bytes[dest.toNat]? with
  | none =>
    have outside := (outside_iff c.code dest).mpr (List.getElem?_eq_none_iff.mp here)
    refine ⟨false,c,jumpdests,by simp [validJumpdest,if_pos outside],?_,rfl,sound,map⟩
    simp [Valid,here]
  | some op =>
    have inside := (List.getElem?_eq_some_iff.mp here).1
    have enter := mt (outside_iff c.code dest).mp (not_le.mpr inside)
    have udest : uint64 (value dest) = dest.toNat := uint64_value (by have := c.code.short; omega)
    rw [udest] at enter
    simp only [validJumpdest,udest,if_neg enter,here]
    by_cases other : op ≠ JUMPDEST
    · refine ⟨false,c,jumpdests,if_pos other,?_,rfl,sound,map⟩
      simp [Valid,here,other]
    obtain rfl := not_not.mp other
    obtain ⟨bits,scanned,size,-⟩ := codeBitmap_spec c.code.bytes
    obtain ⟨answer,read,exact'⟩ := segment_valid scanned here
    rw [if_neg other]
    -- both caches hold the bitmap of this code, or are filled with it now
    by_cases hashless : c.codeHash = Hash.zero
    · rw [if_neg (not_not.mpr hashless)]
      cases cached : c.analysis with
      | some analysis =>
        obtain rfl := some_inj.mp ((sound.analysis analysis cached).symm.trans scanned)
        exact ⟨answer,c,jumpdests,by simp [read],exact',rfl,sound,map⟩
      | none =>
        refine ⟨answer,{ c with analysis := some bits },jumpdests,by simp [scanned,read],exact',rfl,?_,map⟩
        exact ⟨sound.known,sound.hashed,fun other same => some_inj.mp same ▸ scanned⟩
    · rw [if_pos hashless]
      have hash : c.codeHash = keccak c.code.bytes := by
        rcases sound.hashed with zero | empty | hash
        · exact absurd zero hashless
        · rw [empty] at inside
          exact absurd inside (by simp)
        · exact hash
      cases cached : jumpdests c.codeHash with
      | some analysis =>
        obtain ⟨code,known,same,scanned'⟩ := map _ _ cached
        obtain rfl := injective sound.known known (hash.symm.trans same)
        obtain rfl := some_inj.mp (scanned'.symm.trans scanned)
        exact ⟨answer,c,jumpdests,by simp [read],exact',rfl,sound,map⟩
      | none =>
        refine ⟨answer,c,update jumpdests c.codeHash (some bits),by simp [scanned,read],
          exact',rfl,sound,?_⟩
        intro other bits' stored
        by_cases same : other = c.codeHash
        · subst same
          rw [update_self,some_inj] at stored
          exact ⟨_,sound.known,hash,stored ▸ scanned⟩
        · rw [update_of_ne same] at stored
          exact map other bits' stored

variable (keccak codes) in
structure SoundCalls (s : Calls) : Prop where
  contracts : ∀ c ∈ s.contracts, SoundCode keccak codes c.1
  jumpdests : ∀ map ∈ s.jumpdests, SoundMap keccak codes map

/-- What an event brings in. -/
def Event.Sound (keccak : Bytes → Hash) (codes : Set Bytes) : Event → Prop
  | .newContract _ code codeHash => code.bytes ∈ codes ∧ Hashed keccak code codeHash
  | .validJumpdest _ _ => True

theorem step_spec (injective : Set.InjOn keccak codes) (sound : SoundCalls keccak codes s) {event : Event}
    (brings : event.Sound keccak codes) :
    ∃ s' answers, s.step event = some (s',answers) ∧ SoundCalls keccak codes s' ∧
      ∀ answer ∈ answers, answer.valid = true ↔ Valid answer.code.bytes answer.dest.toNat := by
  cases event with
  | newContract caller code codeHash =>
    have fresh : SoundCode keccak codes ⟨code,codeHash,none⟩ := ⟨brings.1,brings.2,nofun⟩
    refine ⟨_,[],rfl,?_,nofun⟩
    rw [Calls.newContract]
    split
    · refine ⟨?_,sound.jumpdests⟩
      intro c mem
      rcases mem_append.mp mem with old | new
      · exact sound.contracts c old
      · rw [mem_singleton.mp new]
        exact fresh
    · constructor
      · intro c mem
        rcases mem_append.mp mem with old | new
        · exact sound.contracts c old
        · rw [mem_singleton.mp new]
          exact fresh
      · intro map mem
        rcases mem_append.mp mem with old | new
        · exact sound.jumpdests map old
        · rw [mem_singleton.mp new]
          exact fun _ _ => nofun
  | validJumpdest i dest =>
    simp only [Calls.step]
    cases found : s.contracts[i]? with
    | none => exact ⟨s,[],rfl,sound,nofun⟩
    | some known =>
      obtain ⟨c,m⟩ := known
      have map : SoundMap keccak codes (s.jumpdests[m]?.getD (fun _ => none)) := by
        cases held : s.jumpdests[m]? with
        | none => exact fun _ _ => nofun
        | some map => exact sound.jumpdests map (mem_of_getElem? held)
      obtain ⟨valid,c',map',run,exact',code,sound',soundMap⟩ :=
        validJumpdest_spec injective (sound.contracts _ (mem_of_getElem? found)) map dest
      refine ⟨⟨s.contracts.set i (c',m),s.jumpdests.set m map'⟩,[⟨c'.code,dest,valid⟩],by simp [run],⟨?_,?_⟩,?_⟩
      · intro other mem
        rcases mem_or_eq_of_mem_set mem with old | new
        · exact sound.contracts other old
        · rw [new]
          exact sound'
      · intro other mem
        rcases mem_or_eq_of_mem_set mem with old | new
        · exact sound.jumpdests other old
        · rw [new]
          exact soundMap
      · intro answer mem
        obtain rfl := mem_singleton.mp mem
        rw [exact',code]

theorem run_spec (injective : Set.InjOn keccak codes) (events : List Event)
    (sound : SoundCalls keccak codes s) (brings : ∀ event ∈ events, event.Sound keccak codes) :
    ∃ s' answers, s.run events = some (s',answers) ∧
      ∀ answer ∈ answers, answer.valid = true ↔ Valid answer.code.bytes answer.dest.toNat := by
  induction events generalizing s with
  | nil => exact ⟨s,[],rfl,nofun⟩
  | cons event events later =>
    obtain ⟨next,answers,step,sound',exact'⟩ := step_spec injective sound (brings event (.head _))
    obtain ⟨s',more,run,rest⟩ := later sound' (fun event mem => brings event (.tail _ mem))
    refine ⟨s',answers ++ more,by simp [Calls.run,step,run],fun answer mem => ?_⟩
    exact (mem_append.mp mem).elim (exact' answer) (rest answer)
end

end Canchain.Evm
