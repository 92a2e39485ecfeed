import Canchain.RlpStream

/-!
Encoding and decoding by type: `makeWriter` and `makeDecoder`. A Go type is known by what
reflection says of it, its `Shape`, so that types may refer to each other. A decoder is given a
number of nested calls and rounds, and `outOfFuel` says that they did not do.
-/
namespace Canchain.Rlp
open List Except Prod

structure Tags where
  nilOK : Bool
  tail : Bool
  deriving DecidableEq
def Tags.none : Tags := ⟨false,false⟩
structure Field (τ : Type) where
  name : String
  typ : τ
  tags : Tags
  deriving DecidableEq
/-- The kinds of types. An unsigned integer has a number of bytes, and a struct its exported fields that are not ignored. -/
inductive Shape (τ : Type) where
  | bool
  | uint (size : Nat)
  | bigInt
  | string
  | slice (elem : τ)
  | array (length : Nat) (elem : τ)
  | struct (fields : List (Field τ))
  | ptr (elem : τ)
  /-- `interface{}` -/
  | iface
  deriving DecidableEq

/-- The values of these types. `bytes` are byte slices and byte arrays, `list` other slices and arrays, and a value in an
    interface is one of the two. -/
inductive Val where
  | bool (b : Bool)
  | uint (n : Nat)
  | big (i : Int)
  | string (b : Bytes)
  | bytes (b : Bytes)
  | list (vs : List Val)
  | struct (vs : List Val)
  | ptr (v : Val)
  | nil

section
variable {τ : Type} (types : τ → Shape τ)

def isByte (typ : τ) : Bool :=
  match types typ with
  | .uint 1 => true
  | _ => false
def isBigInt (typ : τ) : Bool :=
  match types typ with
  | .bigInt => true
  | _ => false

inductive EncodeError where
  /-- "rlp: cannot encode negative *big.Int" -/
  | negative
  /-- The value is not one of the type. -/
  | illTyped
  /-- A nil pointer to a pointer to a pointer, without end. -/
  | overflow
  deriving DecidableEq

/-- An empty list: `w.listEnd(w.list())`. -/
def Encbuf.emptyList (w : Encbuf) : Encbuf := w.list.2.listEnd w.list.1
/-- What stands for a nil pointer to the type. -/
def nilfunc : Nat → τ → Encbuf → Except EncodeError Encbuf
  | 0, _, _ => .error .overflow
  | fuel+1, elem, w =>
    match types elem with
    | .array _ e => .ok (if isByte types e then w.write [0x80] else w.emptyList)
    | .struct _ => .ok w.emptyList
    | .slice e => .ok (if isByte types e then w.write [0x80] else w.emptyList)
    | .bool | .uint _ | .bigInt | .string => .ok (w.write [0x80])
    | .iface => .ok (w.write [0xC0])
    | .ptr e => if isBigInt types e then .ok (w.write [0x80]) else nilfunc fuel e w

def writeUint (i : Nat) (w : Encbuf) : Encbuf :=
  if i = 0 then w.write [0x80]
  else if i < 128 then w.write [UInt8.ofNat i]
  else w.write ((0x80 + UInt8.ofNat (putint i).length) :: putint i)
def writeBool (b : Bool) (w : Encbuf) : Encbuf := w.write (if b then [0x01] else [0x80])
def writeBigInt (i : Int) (w : Encbuf) : Except EncodeError Encbuf :=
  if i < 0 then .error .negative
  else if i = 0 then .ok (w.write [0x80])
  else .ok (w.encodeString (putint i.toNat))

mutual
/-- `makeWriter`, applied to a value. -/
def write (fuel : Nat) : Val → τ → Tags → Encbuf → Except EncodeError Encbuf
  | .bool b, typ, _, w =>
    match types typ with
    | .bool => .ok (writeBool b w)
    | _ => .error .illTyped
  | .uint n, typ, _, w =>
    match types typ with
    | .uint _ => .ok (writeUint n w)
    | _ => .error .illTyped
  | .big i, typ, _, w =>
    match types typ with
    | .bigInt => writeBigInt i w
    | _ => .error .illTyped
  | .string b, typ, _, w =>
    match types typ with
    | .string => .ok (w.encodeString b)
    | _ => .error .illTyped
  | .bytes b, typ, _, w =>
    match types typ with
    | .slice e => if isByte types e then .ok (w.encodeString b) else .error .illTyped
    | .array _ e => if isByte types e then .ok (w.encodeString b) else .error .illTyped
    | .iface => .ok (w.encodeString b)
    | _ => .error .illTyped
  | .list vs, typ, tags, w =>
    match types typ with
    | .slice e =>
      if isByte types e then .error .illTyped
      else if tags.tail then writeAll fuel vs e w
      else (writeAll fuel vs e w.list.2).map (·.listEnd w.list.1)
    | .array _ e =>
      if isByte types e then .error .illTyped else (writeAll fuel vs e w.list.2).map (·.listEnd w.list.1)
    | .iface => (writeAll fuel vs typ w.list.2).map (·.listEnd w.list.1)
    | _ => .error .illTyped
  | .struct vs, typ, _, w =>
    match types typ with
    | .struct fields => (writeFields fuel vs fields w.list.2).map (·.listEnd w.list.1)
    | _ => .error .illTyped
  | .ptr v, typ, _, w =>
    match types typ with
    | .ptr e => write fuel v e .none w
    | _ => .error .illTyped
  | .nil, typ, _, w =>
    match types typ with
    | .ptr e => if isBigInt types e then .ok (w.write [0x80]) else nilfunc types fuel e w
    | .iface => .ok (w.write [0xC0])
    | _ => .error .illTyped
/-- The elements of a slice or an array. -/
def writeAll (fuel : Nat) : List Val → τ → Encbuf → Except EncodeError Encbuf
  | [], _, w => .ok w
  | v :: vs, e, w => (write fuel v e .none w).bind fun w => writeAll fuel vs e w
/-- The fields of a struct. -/
def writeFields (fuel : Nat) : List Val → List (Field τ) → Encbuf → Except EncodeError Encbuf
  | [], [], w => .ok w
  | v :: vs, f :: fs, w => (write fuel v f.typ f.tags w).bind fun w => writeFields fuel vs fs w
  | _, _, _ => .error .illTyped
end

def encodeToBytes (fuel : Nat) (typ : τ) (v : Val) : Except EncodeError Bytes :=
  (write types fuel v typ .none .empty).map (·.toBytes)

/-! ### Decoders -/

inductive Message where
  /-- "non-canonical integer (leading zero bytes)" -/
  | nonCanonicalInteger
  /-- "non-canonical size information" -/
  | nonCanonicalSize
  /-- "expected input list" -/
  | expectedList
  /-- "expected input string or byte" -/
  | expectedString
  /-- "input string too long" -/
  | tooLong
  /-- "input string too short" -/
  | tooShort
  /-- "input list has too many elements" -/
  | tooManyElements
  /-- "input list has too few elements" -/
  | tooFewElements
  /-- "too few elements" -/
  | tooFewFields
  deriving DecidableEq
/-- A part of the place an error occurred at. -/
inductive Context where
  | index (i : Nat)
  | field (name : String)
  | root
  deriving DecidableEq
inductive DecodeError (τ : Type) where
  | stream (e : StreamError)
  | decode (msg : Message) (typ : τ) (ctx : List Context)
  /-- "rlp: input contains more than one value" -/
  | moreThanOneValue
  | outOfFuel
  deriving DecidableEq

def wrapStreamError (e : StreamError) (typ : τ) : DecodeError τ :=
  match e with
  | .canonInt => .decode .nonCanonicalInteger typ []
  | .canonSize => .decode .nonCanonicalSize typ []
  | .expectedList => .decode .expectedList typ []
  | .expectedString => .decode .expectedString typ []
  | .uintOverflow => .decode .tooLong typ []
  | .notAtEOL => .decode .tooManyElements typ []
  | e => .stream e
def addErrorContext (e : DecodeError τ) (place : Context) : DecodeError τ :=
  match e with
  | .decode msg typ ctx => .decode msg typ (ctx ++ [place])
  | e => e

/-- What a decoder does to a stream. -/
abbrev Decoder (τ α : Type) : Type := Stream → Except (DecodeError τ) α × Stream

/-- A result of the stream as a value, its errors wrapped for a type. -/
def wrapped {α β : Type} (typ : τ) (f : α → β) : Except StreamError α × Stream → Except (DecodeError τ) β × Stream
  | (.error e,s) => (.error (wrapStreamError e typ),s)
  | (.ok a,s) => (.ok (f a),s)
def decodeUint (typ : τ) (size : Nat) : Decoder τ Val := fun s => wrapped typ .uint (s.uint (8*size))
def decodeBool (typ : τ) : Decoder τ Val := fun s => wrapped typ .bool s.bool
def decodeString (typ : τ) : Decoder τ Val := fun s => wrapped typ .string s.bytes
def decodeByteSlice (typ : τ) : Decoder τ Val := fun s => wrapped typ .bytes s.bytes
def decodeBigInt (typ : τ) : Decoder τ Val := fun s =>
  match s.bytes with
  | (.error e,s) => (.error (wrapStreamError e typ),s)
  | (.ok b,s) => if b.head? = some 0 then (.error (wrapStreamError .canonInt typ),s) else (.ok (.big (getint b)),s)
/-- `decodeByteArray`, which does not look at the error of `Uint`. -/
def decodeByteArray (typ : τ) (vlen : Nat) : Decoder τ Val := fun s =>
  match s.kind with
  | (.error e,s) => (.error (.stream e),s)
  | (.ok (.Byte,_),s) =>
    if vlen = 0 then (.error (.decode .tooLong typ []),s)
    else if 1 < vlen then (.error (.decode .tooShort typ []),s)
    else match s.uint 64 with
    | (.error _,s) => (.ok (.bytes [0]),s)
    | (.ok bv,s) => (.ok (.bytes [UInt8.ofNat bv]),s)
  | (.ok (.String,size),s) =>
    if vlen < size then (.error (.decode .tooLong typ []),s)
    else if size < vlen then (.error (.decode .tooShort typ []),s)
    else match s.readFull vlen with
    | (.error e,s) => (.error (.stream e),s)
    | (.ok b,s) =>
      if size = 1 ∧ b.head?.any (·.toNat < 128) then (.error (wrapStreamError .canonSize typ),s) else (.ok (.bytes b),s)
  | (.ok (.List,_),s) => (.error (wrapStreamError .expectedString typ),s)
/-- `decodeSliceElems`: elements until the end of the list, from index `i` on. -/
def decodeSliceElems (elemdec : Decoder τ Val) : Nat → Nat → Decoder τ (List Val)
  | 0, _, s => (.error .outOfFuel,s)
  | fuel+1, i, s =>
    match elemdec s with
    | (.error (.stream .EOL),s) => (.ok [],s)
    | (.error e,s) => (.error (addErrorContext e (.index i)),s)
    | (.ok v,s) =>
      match decodeSliceElems elemdec fuel (i+1) s with
      | (.error e,s) => (.error e,s)
      | (.ok vs,s) => (.ok (v :: vs),s)
/-- The end of a list, with a value for it. -/
def listEndWith (wrap : StreamError → DecodeError τ) (v : Val) : Decoder τ Val := fun s =>
  match s.listEnd with
  | (.error e,s) => (.error (wrap e),s)
  | (.ok (),s) => (.ok v,s)
def decodeListSlice (typ : τ) (elemdec : Decoder τ Val) (fuel : Nat) : Decoder τ Val := fun s =>
  match s.list with
  | (.error e,s) => (.error (wrapStreamError e typ),s)
  | (.ok size,s) =>
    if size = 0 then listEndWith .stream (.list []) s
    else match decodeSliceElems elemdec fuel 0 s with
    | (.error e,s) => (.error e,s)
    | (.ok vs,s) => listEndWith .stream (.list vs) s
/-- The loop of `decodeListArray` for the elements that are left. -/
def decodeArrayElems (typ : τ) (elemdec : Decoder τ Val) : Nat → Nat → Decoder τ (List Val)
  | 0, _, s => (.ok [],s)
  | left+1, i, s =>
    match elemdec s with
    | (.error (.stream .EOL),s) => (.error (.decode .tooFewElements typ []),s)
    | (.error e,s) => (.error (addErrorContext e (.index i)),s)
    | (.ok v,s) =>
      match decodeArrayElems typ elemdec left (i+1) s with
      | (.error e,s) => (.error e,s)
      | (.ok vs,s) => (.ok (v :: vs),s)
def decodeListArray (typ : τ) (elemdec : Decoder τ Val) (vlen : Nat) : Decoder τ Val := fun s =>
  match s.list with
  | (.error e,s) => (.error (wrapStreamError e typ),s)
  | (.ok _,s) =>
    match decodeArrayElems typ elemdec vlen 0 s with
    | (.error e,s) => (.error e,s)
    | (.ok vs,s) => listEndWith (wrapStreamError · typ) (.list vs) s
/-- The loop of `makeStructDecoder`. -/
def decodeFields (typ : τ) (dec : Field τ → Decoder τ Val) : List (Field τ) → Decoder τ (List Val)
  | [], s => (.ok [],s)
  | f :: fs, s =>
    match dec f s with
    | (.error (.stream .EOL),s) => (.error (.decode .tooFewFields typ []),s)
    | (.error e,s) => (.error (addErrorContext e (.field f.name)),s)
    | (.ok v,s) =>
      match decodeFields typ dec fs s with
      | (.error e,s) => (.error e,s)
      | (.ok vs,s) => (.ok (v :: vs),s)
def decodeStruct (typ : τ) (dec : Field τ → Decoder τ Val) (fields : List (Field τ)) : Decoder τ Val := fun s =>
  match s.list with
  | (.error e,s) => (.error (wrapStreamError e typ),s)
  | (.ok _,s) =>
    match decodeFields typ dec fields s with
    | (.error e,s) => (.error e,s)
    | (.ok vs,s) => listEndWith (wrapStreamError · typ) (.struct vs) s
/-- `makePtrDecoder` -/
def decodePtr (elemdec : Decoder τ Val) : Decoder τ Val := fun s =>
  match elemdec s with
  | (.error e,s) => (.error e,s)
  | (.ok v,s) => (.ok (.ptr v),s)
/-- `makeOptionalPtrDecoder` -/
def decodeOptionalPtr (elemdec : Decoder τ Val) : Decoder τ Val := fun s =>
  match s.kind with
  | (.error e,s) => (.error (.stream e),s.release)
  | (.ok (k,size),s) => if size = 0 ∧ k ≠ .Byte then (.ok .nil,s.release) else decodePtr elemdec s
def decodeInterface (typ : τ) (elemdec : Decoder τ Val) (fuel : Nat) : Decoder τ Val := fun s =>
  match s.kind with
  | (.error e,s) => (.error (.stream e),s)
  | (.ok (k,_),s) =>
    if k = .List then decodeListSlice typ elemdec fuel s
    else match s.bytes with
    | (.error e,s) => (.error (.stream e),s)
    | (.ok b,s) => (.ok (.bytes b),s)

/-- `makeDecoder` -/
def decode : Nat → τ → Tags → Decoder τ Val
  | 0, _, _ => fun s => (.error .outOfFuel,s)
  | fuel+1, typ, tags =>
    match types typ with
    | .bool => decodeBool typ
    | .uint size => decodeUint typ size
    | .bigInt => decodeBigInt typ
    | .string => decodeString typ
    | .slice e =>
      if isByte types e then decodeByteSlice typ
      else if tags.tail then fun s =>
        match decodeSliceElems (decode fuel e .none) fuel 0 s with
        | (.error e,s) => (.error e,s)
        | (.ok vs,s) => (.ok (.list vs),s)
      else decodeListSlice typ (decode fuel e .none) fuel
    | .array vlen e =>
      if isByte types e then decodeByteArray typ vlen else decodeListArray typ (decode fuel e .none) vlen
    | .struct fields => decodeStruct typ (fun f => decode fuel f.typ f.tags) fields
    | .ptr e =>
      if isBigInt types e then decodePtr (decodeBigInt typ)
      else if tags.nilOK then decodeOptionalPtr (decode fuel e .none)
      else decodePtr (decode fuel e .none)
    | .iface => decodeInterface typ (decode fuel typ .none) fuel
/-- `Stream.Decode` into a variable of the type. -/
def streamDecode (fuel : Nat) (typ : τ) : Decoder τ Val := fun s =>
  match decode types fuel typ .none s with
  | (.error (.decode msg t ctx),s) => (.error (.decode msg t (if ctx = [] then [] else ctx ++ [.root])),s)
  | r => r
def decodeBytes (fuel : Nat) (typ : τ) (b : Bytes) : Except (DecodeError τ) Val :=
  match streamDecode types fuel typ (newStream b) with
  | (.error e,_) => .error e
  | (.ok v,s) => if s.input ≠ [] then .error .moreThanOneValue else .ok v

end
variable {fuel : Nat} {b : Bytes}

theorem decodeBytes_ok {τ : Type} {types : τ → Shape τ} {typ : τ} {v : Val}
    (decoded : decodeBytes types fuel typ b = .ok v) :
    ∃ s', decode types fuel typ .none (newStream b) = (.ok v,s') ∧ s'.input = [] := by
  simp only [decodeBytes] at decoded
  repeat' split at decoded
  all_goals cases decoded
  rename_i s' consumed read
  simp only [streamDecode] at read
  split at read
  · simp at read
  · exact ⟨s',read,by simpa using consumed⟩
variable {place : Context} {i : Nat}

section
variable {τ : Type} {s s' : Stream}

/-- A round of the three loops over elements and fields: the first value, and what the loop does after it. At the end of the
    list the loops differ. -/
def next (atEnd : Except (DecodeError τ) (List Val)) (place : Context) (first : Decoder τ Val)
    (others : Decoder τ (List Val)) : Decoder τ (List Val) := fun s =>
  match first s with
  | (.error (.stream .EOL),s) => (atEnd,s)
  | (.error e,s) => (.error (addErrorContext e place),s)
  | (.ok v,s) =>
    match others s with
    | (.error e,s) => (.error e,s)
    | (.ok vs,s) => (.ok (v :: vs),s)
theorem sliceElems_next (dec : Decoder τ Val) (rounds i : Nat) :
    decodeSliceElems dec (rounds+1) i = next (.ok []) (.index i) dec (decodeSliceElems dec rounds (i+1)) := rfl
theorem arrayElems_next (typ : τ) (dec : Decoder τ Val) (count i : Nat) : decodeArrayElems typ dec (count+1) i =
    next (.error (.decode .tooFewElements typ [])) (.index i) dec (decodeArrayElems typ dec count (i+1)) := rfl
theorem fields_next (typ : τ) (dec : Field τ → Decoder τ Val) (f : Field τ) (fs : List (Field τ)) :
    decodeFields typ dec (f :: fs) =
      next (.error (.decode .tooFewFields typ [])) (.field f.name) (dec f) (decodeFields typ dec fs) := rfl

theorem wrapStreamError_EOL {e : StreamError} {typ : τ} : wrapStreamError e typ = .stream .EOL ↔ e = .EOL := by
  cases e <;> simp [wrapStreamError]
theorem addErrorContext_EOL {e : DecodeError τ} : addErrorContext e place = .stream .EOL ↔ e = .stream .EOL := by
  cases e <;> simp [addErrorContext]

section
variable {atEnd : Except (DecodeError τ) (List Val)} {first : Decoder τ Val} {others : Decoder τ (List Val)}

theorem next_ok {vs : List Val} : next atEnd place first others s = (.ok vs,s') ↔
    (first s = (.error (.stream .EOL),s') ∧ atEnd = .ok vs) ∨
      ∃ v vs' s₁, first s = (.ok v,s₁) ∧ others s₁ = (.ok vs',s') ∧ vs = v :: vs' := by
  rcases read : first s with ⟨e | v,s₁⟩
  · by_cases ended : e = .stream .EOL
    · simp [next,read,ended,and_comm]
    · simp [next,read,ended]
  · rcases rest : others s₁ with ⟨e | vs',s₂⟩
    · simp [next,read,rest]
    · simp [next,read,rest,eq_comm,and_comm]
/-- The end of a list does not leave the loop over its elements. -/
theorem next_not_EOL (ends : atEnd ≠ .error (.stream .EOL)) (later : ∀ s s', others s ≠ (.error (.stream .EOL),s')) :
    next atEnd place first others s ≠ (.error (.stream .EOL),s') := by
  rcases read : first s with ⟨e | v,s₁⟩
  · by_cases ended : e = .stream .EOL
    · simp [next,read,ended,ends]
    · simp [next,read,ended,addErrorContext_EOL]
  · rcases rest : others s₁ with ⟨e | vs,s₂⟩
    · simpa [next,read,rest] using later s₁ s'
    · simp [next,read,rest]

end

/-- A list: its head, a loop, and its end. -/
def inList (typ : τ) (wrap : StreamError → DecodeError τ) (result : List Val → Val) (elems : Decoder τ (List Val)) :
    Decoder τ Val := fun s =>
  match s.list with
  | (.error e,s) => (.error (wrapStreamError e typ),s)
  | (.ok _,s) =>
    match elems s with
    | (.error e,s) => (.error e,s)
    | (.ok vs,s) => listEndWith wrap (result vs) s
theorem listArray_inList (typ : τ) (dec : Decoder τ Val) (vlen : Nat) : decodeListArray typ dec vlen =
    inList typ (wrapStreamError · typ) .list (decodeArrayElems typ dec vlen 0) := rfl
theorem struct_inList (typ : τ) (dec : Field τ → Decoder τ Val) (fields : List (Field τ)) : decodeStruct typ dec fields =
    inList typ (wrapStreamError · typ) .struct (decodeFields typ dec fields) := rfl
/-- An empty slice does not get to the loop. -/
theorem listSlice_inList (typ : τ) (dec : Decoder τ Val) (rounds : Nat) : decodeListSlice typ dec rounds s =
    inList typ .stream .list (fun s₁ => if s.list.1 = .ok 0 then (.ok [],s₁) else decodeSliceElems dec rounds 0 s₁) s := by
  rcases entered : s.list with ⟨e | size,s₁⟩
  · simp [decodeListSlice,inList,entered]
  · by_cases empty : size = 0
    · simp [decodeListSlice,inList,entered,empty]
    · rcases elems : decodeSliceElems dec rounds 0 s₁ with ⟨e | vs,s₂⟩
      · simp [decodeListSlice,inList,entered,empty,elems]
      · simp [decodeListSlice,inList,entered,empty,elems]

theorem sliceElems_not_EOL {elemdec : Decoder τ Val} (s s' : Stream) :
    decodeSliceElems elemdec fuel i s ≠ (.error (.stream .EOL),s') := by
  induction fuel generalizing i s s' with
  | zero => simp [decodeSliceElems]
  | succ fuel ih => exact next_not_EOL (by simp) fun s s' => ih s s'
theorem arrayElems_not_EOL {typ : τ} {elemdec : Decoder τ Val} {count : Nat} (s s' : Stream) :
    decodeArrayElems typ elemdec count i s ≠ (.error (.stream .EOL),s') := by
  induction count generalizing i s s' with
  | zero => simp [decodeArrayElems]
  | succ count ih => exact next_not_EOL (by simp) fun s s' => ih s s'
theorem fields_not_EOL {typ : τ} {dec : Field τ → Decoder τ Val} {fields : List (Field τ)} (s s' : Stream) :
    decodeFields typ dec fields s ≠ (.error (.stream .EOL),s') := by
  induction fields generalizing s s' with
  | nil => simp [decodeFields]
  | cons f fs ih => exact next_not_EOL (by simp) fun s s' => ih s s'

end
variable {rest : Bytes} {rounds : Nat}

section
variable {τ : Type} {elemdec : Decoder τ Val} {e payload : Bytes} {v : Val}

/-- The decoder reads the item `e` as `v`, whatever follows it, and leaves the stream behind it. -/
def Reads (elemdec : Decoder τ Val) (e : Bytes) (v : Val) : Prop :=
  ∀ (s : Stream) (rest : Bytes) (stack : List ListPos), Ready s (e ++ rest) stack → Room e.length stack →
    ∃ s', elemdec s = (.ok v,s') ∧ Ready s' rest (bump e.length stack)
/-- The decoder finds the end of a list. -/
def Ends (elemdec : Decoder τ Val) : Prop :=
  ∀ (s : Stream) (b : Bytes) (tos : ListPos) (below : List ListPos), Ready s b (tos :: below) → tos.pos = tos.size →
    ∃ s', elemdec s = (.error (.stream .EOL),s') ∧ Ready s' b (tos :: below)
/-- The decoder reads the payload of a list, all that is left of it, as this. -/
def ReadsAll {α : Type} (dec : Decoder τ α) (payload : Bytes) (vs : α) : Prop :=
  ∀ (s : Stream) (rest : Bytes) (pos : Nat) (below : List ListPos),
    Ready s (payload ++ rest) (⟨pos,pos + payload.length⟩ :: below) →
    ∃ s', dec s = (.ok vs,s') ∧ Stands s' rest (⟨pos + payload.length,pos + payload.length⟩ :: below)

theorem sliceElems_nil (ends : Ends elemdec) (fuel i : Nat) : ReadsAll (decodeSliceElems elemdec (fuel+1) i) [] [] := by
  intro s rest pos below ready
  obtain ⟨s',read,ready'⟩ := ends s rest ⟨pos,pos⟩ below ready rfl
  exact ⟨s',by simp [decodeSliceElems,read],ready'.toStands⟩
variable {vs : List Val} {typ : τ} {s s' : Stream} {stack : List ListPos}
theorem next_cons {atEnd : Except (DecodeError τ) (List Val)} {others : Decoder τ (List Val)}
    (first : Reads elemdec e v) (rest : ReadsAll others payload vs) :
    ReadsAll (next atEnd place elemdec others) (e ++ payload) (v :: vs) := by
  intro s left pos below ready
  rw [length_append,← Nat.add_assoc] at ready ⊢
  rw [append_assoc] at ready
  obtain ⟨s₁,read₁,ready₁⟩ := first s _ _ ready (by simp [Room])
  obtain ⟨s₂,read₂,stands₂⟩ := rest s₁ left (pos + e.length) below ready₁
  exact ⟨s₂,by simp [next,read₁,read₂],stands₂⟩
theorem fields_nil (typ : τ) (dec : Field τ → Decoder τ Val) : ReadsAll (decodeFields typ dec []) [] [] :=
  fun s _ _ _ ready => ⟨s,rfl,ready.toStands⟩
theorem fields_last {dec : Field τ → Decoder τ Val} {f : Field τ} (last : ReadsAll (dec f) e v) :
    ReadsAll (decodeFields typ dec [f]) e [v] := by
  intro s rest pos below ready
  obtain ⟨s₁,read,stands⟩ := last s rest pos below ready
  exact ⟨s₁,by simp [decodeFields,read],stands⟩

theorem listEndWith_ok (wrap : StreamError → DecodeError τ) {tos : ListPos}
    (stands : Stands s b (tos :: stack)) (full : tos.pos = tos.size) (room : Room tos.size stack) :
    ∃ s', listEndWith wrap v s = (.ok v,s') ∧ Ready s' b (bump tos.size stack) := by
  obtain ⟨s',closed,ready⟩ := listEnd_ok stands full room
  exact ⟨s',by simp [listEndWith,closed],ready⟩
/-- The head of a list, its payload and its end. -/
theorem readsList {dec : Decoder τ (List Val)} (reads : ReadsAll dec payload vs)
    (here : AtList s payload rest stack) : ∃ s₁ s₂, s.list = (.ok payload.length,s₁) ∧ dec s₁ = (.ok vs,s₂) ∧
      ∀ (wrap : StreamError → DecodeError τ) (v : Val), ∃ s', listEndWith wrap v s₂ = (.ok v,s') ∧
        Ready s' rest (bump payload.length stack) := by
  obtain ⟨s₁,entered,ready⟩ := list_ok here
  have ready' : Ready s₁ (payload ++ rest) (⟨0,0 + payload.length⟩ :: stack) := by rwa [Nat.zero_add]
  obtain ⟨s₂,read,stands⟩ := reads s₁ rest 0 stack ready'
  obtain ⟨-,-,-,room⟩ := here
  refine ⟨s₁,s₂,entered,read,fun wrap v => ?_⟩
  have closed := listEndWith_ok (v := v) wrap stands rfl (by simpa using room)
  simpa using closed
theorem listSlice_ok (typ : τ) (reads : ReadsAll (decodeSliceElems elemdec fuel 0) payload vs)
    (empty : payload = [] → vs = []) (here : AtList s payload rest stack) :
    ∃ s', decodeListSlice typ elemdec fuel s = (.ok (.list vs),s') ∧ Ready s' rest (bump payload.length stack) := by
  by_cases none : payload = []
  · -- The elements are not asked for.
    obtain ⟨s₁,entered,ready⟩ := list_ok here
    obtain ⟨-,-,-,room⟩ := here
    obtain ⟨s',closed,ready'⟩ := listEndWith_ok (v := .list []) (DecodeError.stream (τ := τ)) ready.toStands
      (by simp [none]) room
    refine ⟨s',?_,?_⟩
    · simp only [decodeListSlice,entered,none,length_nil,if_true,closed,empty none]
    · simpa [none] using ready'
  · obtain ⟨s₁,s₂,entered,read,closes⟩ := readsList reads here
    obtain ⟨s',closed,ready'⟩ := closes .stream (.list vs)
    refine ⟨s',?_,ready'⟩
    simp only [decodeListSlice,entered,if_neg (mt length_eq_zero_iff.mp none),read,closed]

variable {wrap : StreamError → DecodeError τ}
theorem listEndWith_inv {v' : Val} (closed : listEndWith wrap v s = (.ok v',s')) : v' = v ∧ s.listEnd = (.ok (),s') := by
  rcases ended : s.listEnd with ⟨e | u,s₁⟩
  · simp [listEndWith,ended] at closed
  · simpa [listEndWith,ended,eq_comm] using closed

theorem fields_inv {dec : Field τ → Decoder τ Val} {f : Field τ} {fs : List (Field τ)}
    (read : decodeFields typ dec (f :: fs) s = (.ok vs,s')) : ∃ v vs' s₁, dec f s = (.ok v,s₁) ∧
      decodeFields typ dec fs s₁ = (.ok vs',s') ∧ vs = v :: vs' :=
  (next_ok.mp read).resolve_left (by simp)
/-- The elements of an array are read like the fields of a struct, but for the errors. -/
theorem arrayElems_fields {dec : Field τ → Decoder τ Val} {f : Field τ} (same : dec f = elemdec) {count : Nat} :
    decodeArrayElems typ elemdec count i s = (.ok vs,s') ↔ decodeFields typ dec (replicate count f) s = (.ok vs,s') := by
  induction count generalizing i s vs with
  | zero => simp [decodeArrayElems,decodeFields]
  | succ count ih =>
    rw [replicate_succ,arrayElems_next,fields_next,next_ok,next_ok,same]
    simp [ih]

theorem listEndWith_not_EOL (keeps : ∀ e, wrap e = .stream .EOL → e = .EOL) :
    listEndWith wrap v s ≠ (.error (.stream .EOL),s') := by
  rcases closed : s.listEnd with ⟨e | u,s₁⟩
  · simpa [listEndWith,closed] using fun ended => absurd (keeps e ended) (listEnd_error closed)
  · simp [listEndWith,closed]
/-! A decoder that finds the end of a list has looked for the next item. -/
theorem inList_end {result : List Val → Val} {elems : Decoder τ (List Val)}
    (keeps : ∀ e, wrap e = .stream .EOL → e = .EOL) (inside : ∀ s s', elems s ≠ (.error (.stream .EOL),s'))
    (ended : inList typ wrap result elems s = (.error (.stream .EOL),s')) : s.kind = (.error .EOL,s') := by
  rcases entered : s.list with ⟨e | size,s₁⟩
  · refine s.list_acts.ends (entered.trans ?_)
    simpa [inList,entered,wrapStreamError_EOL] using ended
  · rcases loop : elems s₁ with ⟨e | vs,s₂⟩
    · simp only [inList,entered,loop] at ended
      cases ended
      exact absurd loop (inside _ _)
    · simp only [inList,entered,loop] at ended
      exact absurd ended (listEndWith_not_EOL keeps)
theorem listSlice_end (ended : decodeListSlice typ elemdec rounds s = (.error (.stream .EOL),s')) : s.kind = (.error .EOL,s') := by
  rw [listSlice_inList] at ended
  refine inList_end (fun e same => by simpa using same) (fun s₁ s₂ => ?_) ended
  split
  · simp
  · exact sliceElems_not_EOL s₁ s₂
theorem interface_end (ended : decodeInterface typ elemdec rounds s = (.error (.stream .EOL),s')) :
    s.kind = (.error .EOL,s') := by
  rcases found : s.kind with ⟨e | ⟨k,size⟩,s₁⟩
  · simpa [decodeInterface,found] using ended
  · have again := kind_again found
    by_cases isList : k = .List
    · simp [listSlice_end (show decodeListSlice typ elemdec rounds s₁ = _ by simpa [decodeInterface,found,isList] using ended)] at again
    · rcases read : s₁.bytes with ⟨e | b,s₂⟩
      · simp only [decodeInterface,found,isList,if_false,read] at ended
        cases ended
        simp [s₁.bytes_acts.ends read] at again
      · simp [decodeInterface,found,isList,read] at ended

end

end Canchain.Rlp
