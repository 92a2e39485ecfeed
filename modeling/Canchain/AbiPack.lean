import Canchain.EvmWords
import Canchain.Common

/-!
Packing the arguments of a call, after `accounts/abi`. A `*big.Int` is a reference to a
cell: packing cuts the number in the cell to 256 bits. So the caller finds its numbers as
they were if and only if none that is packed is negative or too large (`pack_keeps_iff`).
-/
namespace Canchain.Abi
open Rlp Common Evm

/-- The kinds of `reflect`, as far as they are told apart. -/
inductive Kind where
  | Bool | Int | Int8 | Int16 | Int32 | Int64 | Uint | Uint8 | Uint16 | Uint32 | Uint64 | Array | Ptr | Slice | String | Invalid | Other
  deriving DecidableEq
/-- The types that `NewType` makes. -/
inductive Ty where
  | int (size : Nat) | uint (size : Nat) | bool | string | slice (elem : Ty) | array (elem : Ty) (size : Nat)
  | address | fixedBytes (size : Nat) | bytes | function
/-- What `reflect` shows of a value. A list knows whether it is an array, and the kind of its elements. -/
inductive Val where
  | num (kind : Kind) (n : Int)
  | big (ref : Nat)
  | nil
  | ptr (v : Val)
  | bool (b : Bool)
  | string (s : Bytes)
  | list (array : Bool) (elem : Kind) (vs : List Val)
  | invalid
  | other
inductive PackError where
  /-- "abi: cannot use %v as type %v as argument" -/
  | typeErr
  /-- "argument count mismatch: %d for %d" -/
  | countMismatch (got want : Nat)
  | panicked
/-- The numbers that pointers lead to. -/
abbrev Mem := Nat → Int
/-- The bytes or an error, and the numbers after it. -/
abbrev Packing := Except PackError Bytes × Mem

def reflectIntKind (unsigned : Bool) : Nat → Kind
  | 8 => if unsigned then .Uint8 else .Int8
  | 16 => if unsigned then .Uint16 else .Int16
  | 32 => if unsigned then .Uint32 else .Int32
  | 64 => if unsigned then .Uint64 else .Int64
  | _ => .Ptr
def Ty.kind : Ty → Kind
  | .int size => reflectIntKind false size
  | .uint size => reflectIntKind true size
  | .bool => .Bool
  | .string => .String
  | .slice _ | .bytes => .Slice
  | .array _ _ | .address | .fixedBytes _ | .function => .Array
def Val.kind : Val → Kind
  | .num kind _ => kind
  | .big _ | .nil | .ptr _ => .Ptr
  | .bool _ => .Bool
  | .string _ => .String
  | .list array _ _ => if array then .Array else .Slice
  | .invalid => .Invalid
  | .other => .Other
def Val.elems : Val → List Val
  | .list _ _ vs => vs
  | _ => []
/-- The bytes of a slice or an array of bytes. -/
def Val.bytes : Val → Except PackError Bytes
  | .list _ .Uint8 vs => .ok (vs.map fun | .num _ n => UInt8.ofNat n.toNat | _ => 0)
  | _ => .error .panicked
def indirect : Val → Except PackError Val
  | .ptr v => indirect v
  | .nil => .error .panicked
  | v => .ok v

def checkElem (elem : Ty) (check : Val → Except PackError Unit) (kind : Kind) (vs : List Val) : Except PackError Unit :=
  match elem, vs with
  | .slice _, v :: _ | .array _ _, v :: _ => check v
  | .array _ _, [] => .error .panicked
  | _, _ => if kind ≠ elem.kind then .error .typeErr else .ok ()
def sliceTypeCheck : Ty → Val → Except PackError Unit
  | .slice elem, .list _ kind vs => checkElem elem (sliceTypeCheck elem) kind vs
  | .array elem size, .list _ kind vs =>
    if vs.length ≠ size then .error .typeErr else checkElem elem (sliceTypeCheck elem) kind vs
  | _, .invalid => .error .panicked
  | _, _ => .error .typeErr
def typeCheck (t : Ty) (value : Val) : Except PackError Unit :=
  match t with
  | .slice _ | .array _ _ => sliceTypeCheck t value
  | .fixedBytes size => if t.kind ≠ value.kind ∨ size ≠ value.elems.length then .error .typeErr else .ok ()
  | _ => if t.kind ≠ value.kind then .error .typeErr else .ok ()

def leftPadBytes (slice : Bytes) (l : Nat) : Bytes := List.replicate (l - slice.length) 0 ++ slice
def rightPadBytes (slice : Bytes) (l : Nat) : Bytes := slice ++ List.replicate (l - slice.length) 0
def paddedBigBytes (bigint n : Nat) : Bytes := if bigint.size/8 ≥ n then putint bigint else setBytes n (putint bigint)
/-- `packNum` of a number that is no pointer. -/
def packInt (n : Int) : Bytes := paddedBigBytes (U256 n).toNat 32
def packNum (value : Val) (mem : Mem) : Packing :=
  match value with
  | .num _ n => (.ok (packInt n),mem)
  | .big ref => (.ok (packInt (mem ref)),Function.update mem ref (U256 (mem ref)))
  | _ => (.error .panicked,mem)
def packBytesSlice (bytes : Bytes) (l : Nat) : Bytes := packInt l ++ rightPadBytes bytes ((l + 31)/32*32)
def packElement (t : Ty) (value : Val) (mem : Mem) : Packing :=
  match t, value with
  | .int _, _ | .uint _, _ => packNum value mem
  | .string, .string s => (.ok (packBytesSlice s s.length),mem)
  | .bool, .bool b => (.ok (paddedBigBytes (if b then 1 else 0) 32),mem)
  | .address, _ => (value.bytes.map (leftPadBytes · 32),mem)
  | .bytes, _ => (value.bytes.map fun b => packBytesSlice b b.length,mem)
  | .fixedBytes _, _ | .function, _ => (value.bytes.map (rightPadBytes · 32),mem)
  | _, _ => (.error .panicked,mem)

/-- Goes on with the bytes if there is no error. -/
def andThen (a : Packing) (f : Bytes → Mem → Packing) : Packing :=
  match a with
  | (.error e,mem) => (.error e,mem)
  | (.ok b,mem) => f b mem
def packElems (pack : Val → Mem → Packing) : List Val → Bytes → Mem → Packing
  | [], packed, mem => (.ok packed,mem)
  | v :: vs, packed, mem => andThen (pack v mem) fun val mem => packElems pack vs (packed ++ val) mem
/-- The checks at the top of `pack`: what is done after an error, and with the value. -/
def checked {β : Type} (t : Ty) (v : Val) (failed : PackError → β) (f : Val → β) : β :=
  match (indirect v).bind fun v => (typeCheck t v).map fun _ => v with
  | .error e => failed e
  | .ok v => f v
/-- The method `pack` of `Type`. -/
def Ty.pack (t : Ty) (v : Val) (mem : Mem) : Packing := checked t v (fun e => (.error e,mem)) fun v =>
  match t with
  | .slice elem => andThen (packElems elem.pack v.elems [] mem) fun packed mem => (.ok (packBytesSlice packed v.elems.length),mem)
  | .array elem _ => packElems elem.pack v.elems [] mem
  | t => packElement t v mem
def Ty.requiresLengthPrefix : Ty → Bool
  | .string | .bytes | .slice _ => true
  | _ => false
/-- The loop of `Pack` over the arguments. -/
def packFrom (inputOffset : Nat) : List (Ty × Val) → Bytes → Bytes → Mem → Packing
  | [], ret, variableInput, mem => (.ok (ret ++ variableInput),mem)
  | (t,v) :: args, ret, variableInput, mem => andThen (t.pack v mem) fun packed mem =>
    if t.requiresLengthPrefix then
      packFrom inputOffset args (ret ++ packInt (inputOffset + variableInput.length : Nat)) (variableInput ++ packed) mem
    else packFrom inputOffset args (ret ++ packed) variableInput mem
/-- `Arguments.Pack`. -/
def packArguments (arguments : List Ty) (args : List Val) (mem : Mem) : Packing :=
  if args.length ≠ arguments.length then (.error (.countMismatch args.length arguments.length),mem)
  else
    let inputOffset := (arguments.map fun | .array _ size => 32*size | _ => 32).sum
    packFrom inputOffset (arguments.zip args) [] [] mem

/-! ### The numbers that the arguments lead to -/

/-- Whether a value is fit for an elementary type, and the reference that it is, if it is one to a number. -/
def Ty.ref : Ty → Val → Bool × List Nat
  | .int _, .big ref | .uint _, .big ref => (true,[ref])
  | .int _, .num _ _ | .uint _, .num _ _ | .string, .string _ | .bool, .bool _ => (true,[])
  | .address, .list _ .Uint8 _ | .bytes, .list _ .Uint8 _ | .fixedBytes _, .list _ .Uint8 _ | .function, .list _ .Uint8 _ => (true,[])
  | _, _ => (false,[])
/-- Whether all in a row are fit, and the references up to the first that is not. -/
def row {α : Type} (each : α → Bool × List Nat) : List α → Bool × List Nat
  | [] => (true,[])
  | x :: xs => ((each x).1 && (row each xs).1,(each x).2 ++ if (each x).1 then (row each xs).2 else [])
/-- Whether a value is fit for a type, and the references to numbers that are in it. -/
def Ty.refs (t : Ty) (v : Val) : Bool × List Nat := checked t v (fun _ => (false,[])) fun v =>
  match t with
  | .slice elem | .array elem _ => row elem.refs v.elems
  | t => t.ref v
def reached (arguments : List Ty) (args : List Val) : List Nat :=
  if args.length = arguments.length then (row (fun arg => arg.1.refs arg.2) (arguments.zip args)).2 else []

/-- Packing leaves all numbers as they are, and so does the same again. -/
def Keeps (arguments : List Ty) (args : List Val) (mem : Mem) : Prop :=
  (packArguments arguments args mem).2 = mem ∧
    packArguments arguments args (packArguments arguments args mem).2 = packArguments arguments args mem
def cut (mem : Mem) (refs : List Nat) : Mem := fun ref => if ref ∈ refs then U256 (mem ref) else mem ref
/-- The step cuts the numbers behind the references, and fails if they end at a value that is not fit. -/
def Cuts (step : Mem → Packing) (r : Bool × List Nat) : Prop := ∀ mem, (step mem).1.isOk = r.1 ∧ (step mem).2 = cut mem r.2

private theorem U256_self_iff (x : Int) : U256 x = x ↔ 0 ≤ x ∧ x < 2^256 := by
  rw [U256_mod]
  omega
private theorem cut_nil (mem : Mem) : cut mem [] = mem := by
  funext ref
  simp [cut]
private theorem cut_cut (mem : Mem) (refs refs' : List Nat) : cut (cut mem refs) refs' = cut mem (refs ++ refs') := by
  funext ref
  have twice : U256 (U256 (mem ref)) = U256 (mem ref) := by
    simp [U256_mod,Int.emod_emod_of_dvd _ (dvd_refl _)]
  by_cases first : ref ∈ refs <;> by_cases second : ref ∈ refs' <;> simp [cut,first,second,twice]
private theorem cuts_nothing (b : Except PackError Bytes) : Cuts (fun mem => (b,mem)) (b.isOk,[]) :=
  fun mem => ⟨rfl,(cut_nil mem).symm⟩

private theorem Cuts.andThen {a : Mem → Packing} {f : Bytes → Mem → Packing} {r r' : Bool × List Nat} (first : Cuts a r)
    (next : ∀ b, Cuts (f b) r') : Cuts (fun mem => andThen (a mem) f) (r.1 && r'.1,r.2 ++ if r.1 then r'.2 else []) := by
  intro mem
  obtain ⟨fit,cuts⟩ := first mem
  rcases done : a mem with ⟨e | b,mem'⟩
  · rw [done] at fit cuts
    simp only [Abi.andThen,done,← fit]
    exact ⟨rfl,cuts.trans (by simp [Except.isOk,Except.toBool])⟩
  · rw [done] at fit cuts
    obtain ⟨fit',cuts'⟩ := next b mem'
    simp only [Abi.andThen,done,← fit]
    exact ⟨fit',by rw [cuts',show mem' = _ from cuts,cut_cut]; rfl⟩
private theorem packElems_cuts {pack : Val → Mem → Packing} {each : Val → Bool × List Nat} (one : ∀ v, Cuts (pack v) (each v))
    (vs : List Val) (packed : Bytes) : Cuts (packElems pack vs packed) (row each vs) := by
  induction vs generalizing packed with
  | nil => exact cuts_nothing _
  | cons v vs ih => exact (one v).andThen fun _ => ih _
private theorem packNum_cuts (ref : Nat) : Cuts (packNum (.big ref)) (true,[ref]) := by
  refine fun mem => ⟨rfl,?_⟩
  funext other
  by_cases same : other = ref
  · simp [packNum,cut,same]
  · simp [packNum,cut,same]
private theorem ref_cuts (t : Ty) (v : Val) : Cuts (packElement t v) (t.ref v) := by
  cases t with
  | int | uint =>
    cases v with
    | big ref => exact packNum_cuts ref
    | _ => exact cuts_nothing _
  | _ =>
    cases v with
    | list array kind vs => cases kind <;> exact cuts_nothing _
    | _ => exact cuts_nothing _
private theorem checked_cuts {pack : Val → Mem → Packing} {each : Val → Bool × List Nat} (one : ∀ v, Cuts (pack v) (each v))
    (t : Ty) (v : Val) :
    Cuts (fun mem => checked t v (fun e => (.error e,mem)) fun v => pack v mem) (checked t v (fun _ => (false,[])) each) := by
  unfold checked
  split
  · exact cuts_nothing (.error _)
  · exact one _
private theorem pack_cuts (t : Ty) (v : Val) : Cuts (t.pack v) (t.refs v) := by
  induction t generalizing v with
  | slice elem ih =>
    refine checked_cuts (fun v => ?_) (.slice elem) v
    have last (b : Bytes) : Cuts (fun mem => (.ok (packBytesSlice b v.elems.length),mem)) (true,[]) := cuts_nothing (.ok _)
    simpa using (packElems_cuts ih v.elems []).andThen last
  | array elem size ih => exact checked_cuts (fun v => packElems_cuts ih v.elems []) (.array elem size) v
  | _ => exact checked_cuts (ref_cuts _) _ v
private theorem packFrom_cuts (inputOffset : Nat) (args : List (Ty × Val)) (ret input : Bytes) :
    Cuts (packFrom inputOffset args ret input) (row (fun arg => arg.1.refs arg.2) args) := by
  induction args generalizing ret input with
  | nil => exact cuts_nothing _
  | cons arg args ih =>
    refine (pack_cuts arg.1 arg.2).andThen fun b => ?_
    split <;> exact ih _ _
/-- Packing cuts the numbers that the arguments lead to, and changes nothing else. -/
theorem packArguments_cuts (arguments : List Ty) (args : List Val) (mem : Mem) :
    (packArguments arguments args mem).2 = cut mem (reached arguments args) := by
  unfold reached packArguments
  by_cases same : args.length = arguments.length
  · rw [if_neg (not_not.mpr same),if_pos same]
    exact (packFrom_cuts _ _ [] [] mem).2
  · rw [if_pos same,if_neg same,cut_nil]

theorem pack_keeps_iff (arguments : List Ty) (args : List Val) (mem : Mem) :
    Keeps arguments args mem ↔ ∀ ref ∈ reached arguments args, 0 ≤ mem ref ∧ mem ref < 2^256 := by
  constructor
  · intro keeps ref packed
    have same := congrFun ((packArguments_cuts arguments args mem).symm.trans keeps.1) ref
    rw [cut,if_pos packed] at same
    exact (U256_self_iff _).mp same
  · intro small
    have same : (packArguments arguments args mem).2 = mem := by
      rw [packArguments_cuts]
      funext ref
      unfold cut
      split
      · next packed => exact (U256_self_iff _).mpr (small ref packed)
      · rfl
    exact ⟨same,by rw [same]⟩
/-- Packing -1 as an `int256` makes it 2^256 - 1, which the caller then has. -/
theorem minus_one_changed : (packArguments [.int 256] [.big 0] fun _ => -1).2 0 = 2^256 - 1 := by
  change U256 (-1) = _
  rw [U256_mod]
  rfl

end Canchain.Abi
