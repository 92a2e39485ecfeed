import Canchain.RlpValues

/-!
Whether decoding ends. The loop over a slice stops at the end of the list or at an error, so
each element has to take something off the stream. They all do but one: the decoder of byte
arrays leaves a zero byte where it is.
-/
namespace Canchain.Rlp
open Except Rlp.Stream

namespace Stream
variable {s s' s₁ : Stream} {k : Kind} {n : Nat}

private theorem release_left (found : s.kind = (.ok (k,n),s₁)) : s₁.release.left < s.left :=
  (Acts.took (r := (.ok (),s₁.release)) found (by simp) rfl le_rfl).takes rfl
private theorem listEnd_left (read : s.listEnd = (.ok (),s')) : s'.left ≤ s.left := by
  unfold listEnd at read
  repeat' split at read
  all_goals cases read
  exact (left_of_none (s := s.close _) rfl).le.trans (input_le_left s)

end Stream

variable {τ α : Type} {types : τ → Shape τ} {s s' : Stream} {r : Except StreamError α × Stream} {vlen i : Nat}
  {typ t : τ} {wrap : StreamError → DecodeError τ} {elemdec : Decoder τ Val} {rounds fuel : Nat} {tags : Tags}
  {v : Val} {vs : List Val}

/-! ### The types without elements and those with elements -/

/-- The decoder of a type whose values have no others in them. -/
def leaf (types : τ → Shape τ) (t : τ) : Option (Decoder τ Val) :=
  match types t with
  | .bool => some (decodeBool t)
  | .uint size => some (decodeUint t size)
  | .bigInt => some (decodeBigInt t)
  | .string => some (decodeString t)
  | .slice x => if isByte types x then some (decodeByteSlice t) else none
  | .array vlen x => if isByte types x then some (decodeByteArray t vlen) else none
  | .ptr x => if isBigInt types x then some (decodePtr (decodeBigInt t)) else none
  | .struct _ | .iface => none
/-- What a list of a fixed length holds: the elements of an array, or the fields of a struct. -/
def parts (types : τ → Shape τ) (t : τ) : Option (List (Field τ)) :=
  match types t with
  | .array vlen x => if isByte types x then none else some (List.replicate vlen (element x))
  | .struct fields => some fields
  | _ => none

theorem shape_cases (isLeaf : leaf types t = none) : (∃ x, types t = .slice x ∧ isByte types x = false) ∨
    (∃ fields, parts types t = some fields) ∨ (∃ x, types t = .ptr x ∧ isBigInt types x = false) ∨ types t = .iface := by
  unfold leaf at isLeaf
  unfold parts
  split at isLeaf
  all_goals simp_all
theorem decode_leaf (isLeaf : leaf types t = some elemdec) : decode types (fuel+1) t tags = elemdec := by
  unfold leaf at isLeaf
  split at isLeaf
  all_goals simp_all [decode]
/-- An array of one byte, or a pointer to one. -/
inductive OneByte (types : τ → Shape τ) : τ → Prop
  | array {t x : τ} (shape : types t = .array 1 x) (byte : isByte types x = true) : OneByte types t
  | ptr {t x : τ} (shape : types t = .ptr x) (notBig : isBigInt types x = false) (inner : OneByte types x) : OneByte types t
/-- The next item is a zero byte. -/
def ZeroNext (s : Stream) : Prop := ∃ size s₁, s.kind = (.ok (.Byte,size),s₁) ∧ s₁.byteval = 0

/-- What the decoder of a type without elements does. It does not run out of anything, it finds the end of a list only
    without a head, and what it reads is taken off. But there may be types that are stuck at a zero byte. -/
structure Single (stuck : Prop) (s : Stream) (r : Except (DecodeError τ) Val × Stream) : Prop where
  fuel : r.1 ≠ .error .outOfFuel
  ends : ∀ {s'}, r = (.error (.stream .EOL),s') → s.kind = (.error .EOL,s')
  takes : ∀ {v s'}, r = (.ok v,s') → s'.left < s.left ∨ s'.left ≤ s.left ∧ stuck ∧ ZeroNext s

section
variable {stuck : Prop} {s₁ : Stream} {e : DecodeError τ}

theorem Single.error (s : Stream) (inside : e ≠ .outOfFuel) (notEnd : e ≠ .stream .EOL) : Single stuck s (.error e,s₁) :=
  ⟨by simpa using inside,by simp [notEnd],by simp⟩
theorem Single.ok (taken : s₁.left < s.left ∨ s₁.left ≤ s.left ∧ stuck ∧ ZeroNext s) : Single (τ := τ) stuck s (.ok v,s₁) := by
  refine ⟨by simp,by simp,?_⟩
  rintro v s' ⟨⟩
  exact taken
theorem wrapStreamError_fuel {e : StreamError} : wrapStreamError e typ ≠ .outOfFuel := by
  cases e <;> simp [wrapStreamError]
private theorem wrapped_single {f : α → Val} (acts : Acts s r) : Single stuck s (wrapped typ f r) := by
  obtain ⟨e | a,s₁⟩ := r
  · refine ⟨by simpa [wrapped] using wrapStreamError_fuel,fun ended => acts.ends ?_,by simp [wrapped]⟩
    simpa [wrapped,wrapStreamError_EOL] using ended
  · exact .ok (.inl (acts.takes rfl))
private theorem decodeBigInt_single (t : τ) (s : Stream) : Single stuck s (decodeBigInt t s) := by
  have acts := s.bytes_acts
  unfold decodeBigInt
  split
  · rename_i failed
    exact wrapped_single (f := Val.bytes) (failed ▸ acts)
  · rename_i read
    split
    · exact .error s wrapStreamError_fuel (by simp [wrapStreamError])
    · exact .ok (.inl (acts.takes read))
private theorem decodePtr_single (single : Single stuck s (elemdec s)) : Single stuck s (decodePtr elemdec s) := by
  unfold decodePtr
  split
  · rename_i failed
    rw [failed] at single
    exact ⟨by simpa using single.fuel,fun ended => single.ends (by simpa using ended),by simp⟩
  · exact .ok (single.takes ‹_›)
/-- A byte array is taken off, unless it is of length one and meets a zero byte. -/
theorem decodeByteArray_single (t : τ) (s : Stream) (one : vlen = 1 → stuck) : Single stuck s (decodeByteArray t vlen s) := by
  unfold decodeByteArray
  split
  · rename_i found
    exact ⟨by simp,fun ended => found.trans (by simpa using ended),by simp⟩
  · rename_i size s₁ found
    split
    · exact .error s (by simp) (by simp)
    split
    · exact .error s (by simp) (by simp)
    by_cases zero : s₁.byteval = 0
    · have left : s₁.uint 64 = (.error .canonInt,s₁) := by simp [uint,kind_again found,zero]
      rw [left]
      exact .ok (.inr ⟨(kind_left found).2.1,one (by omega),size,s₁,found,zero⟩)
    · have taken : s₁.uint 64 = (.ok s₁.byteval.toNat,s₁.release) := by simp [uint,kind_again found,zero]
      rw [taken]
      exact .ok (.inl (release_left found))
  · rename_i size s₁ found
    have full := (readFull_takes s₁ vlen).1
    split
    · exact .error s (by simp) (by simp)
    split
    · exact .error s (by simp) (by simp)
    split
    · exact .error s (by simp) (by simpa using full.ne ‹_›)
    split
    · exact .error s wrapStreamError_fuel (by simp [wrapStreamError])
    · exact .ok (.inl ((Acts.read found full).takes ‹_›))
  · exact .error s wrapStreamError_fuel (by simp [wrapStreamError])
theorem leaf_single (isLeaf : leaf types t = some elemdec) (s : Stream) : Single (OneByte types t) s (elemdec s) := by
  unfold leaf at isLeaf
  repeat' split at isLeaf
  all_goals cases isLeaf
  · exact wrapped_single s.bool_acts
  · exact wrapped_single (s.uint_acts _)
  · exact decodeBigInt_single t s
  · exact wrapped_single s.bytes_acts
  · exact wrapped_single s.bytes_acts
  · rename_i vlen x shape byte
    exact decodeByteArray_single t s fun one => .array (one ▸ shape) byte
  · exact decodePtr_single (decodeBigInt_single t s)

end
private theorem decodePtr_end (ended : decodePtr elemdec s = (.error (.stream .EOL),s')) : elemdec s = (.error (.stream .EOL),s') := by
  rcases read : elemdec s with ⟨e | v,s₁⟩
  · simpa [decodePtr,read] using ended
  · simp [decodePtr,read] at ended
theorem pointers_one (notPtr : ¬ ∃ x, types t = .ptr x ∧ isBigInt types x = false) : pointers types 1 t = true := by
  simp only [pointers]
  split
  · rename_i x shape
    simpa using fun notBig => notPtr ⟨x,shape,notBig⟩
  · rfl
/-- A slice without a head of its own. -/
def tailSlice (elems : Decoder τ (List Val)) : Decoder τ Val := fun s =>
  match elems s with
  | (.error e,s) => (.error e,s)
  | (.ok vs,s) => (.ok (.list vs),s)
theorem decode_tailSlice (shape : types t = .slice x) (notByte : isByte types x = false) (tail : tags.tail = true) :
    decode types (fuel+1) t tags = tailSlice (decodeSliceElems (decode types fuel x .none) fuel 0) := by
  simp only [decode,shape,notByte,tail,Bool.false_eq_true,if_false,if_true]
  rfl

theorem decode_iface (shape : types t = .iface) :
    decode types (fuel+1) t tags = decodeInterface t (decode types fuel t .none) fuel := by
  simp [decode,shape]
/-- The elements of an array are read like fields. -/
theorem decode_fixed {fields : List (Field τ)} (fixed : parts types t = some fields) : ∃ result elems,
    decode types (fuel+1) t tags = inList t (wrapStreamError · t) result elems ∧
      (∀ s s', elems s ≠ (.error (.stream .EOL),s')) ∧
      ∀ s vs s', elems s = (.ok vs,s') ↔ decodeFields t (fun f => decode types fuel f.typ f.tags) fields s = (.ok vs,s') := by
  unfold parts at fixed
  repeat' split at fixed
  all_goals cases fixed
  · rename_i vlen x shape notByte
    have same : (fun f : Field τ => decode types fuel f.typ f.tags) (element x) = decode types fuel x .none := rfl
    exact ⟨.list,_,by rw [decode_array shape (by simpa using notByte),listArray_inList],arrayElems_not_EOL,
      fun s vs s' => arrayElems_fields same⟩
  · rename_i fields shape
    exact ⟨.struct,_,by simp only [decode,shape,struct_inList],fields_not_EOL,fun s vs s' => .rfl⟩
/-- A decoder that finds the end of a list has looked for the next item and nothing else, behind pointers that have an end. -/
theorem decode_end (ended : decode types fuel t tags s = (.error (.stream .EOL),s')) (noNil : tags.nilOK = false) :
    s.kind = (.error .EOL,s') ∧ ∃ n, pointers types n t = true := by
  induction fuel generalizing t tags with
  | zero => simp [decode] at ended
  | succ fuel ih =>
    by_cases pointer : ∃ x, types t = .ptr x ∧ isBigInt types x = false
    · obtain ⟨x,shape,notBig⟩ := pointer
      rw [decode_ptr shape notBig noNil] at ended
      obtain ⟨found,n,ends⟩ := ih (decodePtr_end ended) rfl
      exact ⟨found,n+1,by simp [pointers,shape,ends]⟩
    · refine ⟨?_,1,pointers_one pointer⟩
      cases isLeaf : leaf types t with
      | some elemdec =>
        rw [decode_leaf isLeaf] at ended
        exact (leaf_single isLeaf s).ends ended
      | none =>
        rcases shape_cases isLeaf with ⟨x,shape,notByte⟩ | ⟨fields,fixed⟩ | isPtr | shape
        · cases tail : tags.tail with
          | true =>
            rw [decode_tailSlice shape notByte tail,tailSlice] at ended
            split at ended
            · rename_i e s₁ elems
              simp only [Prod.mk.injEq,error.injEq] at ended
              exact absurd (ended.1 ▸ elems) (sliceElems_not_EOL _ _)
            · simp at ended
          | false =>
            rw [decode_slice shape notByte tail] at ended
            exact listSlice_end ended
        · obtain ⟨result,elems,same,inside,-⟩ := decode_fixed fixed
          rw [same] at ended
          exact inList_end (fun e => wrapStreamError_EOL.mp) inside ended
        · exact absurd isPtr pointer
        · rw [decode_iface shape] at ended
          exact interface_end ended

/-! ### What is read -/

/-- A call of the decoder for a type. -/
structure Call (τ : Type) where
  typ : τ
  tags : Tags
  stream : Stream
/-- The call reads the head of a list of this size, for elements of the type. -/
inductive Heads (types : τ → Shape τ) : Call τ → τ → Nat → Stream → Prop
  | slice {c : Call τ} {x : τ} {size : Nat} {s₁ : Stream} (shape : types c.typ = .slice x) (notByte : isByte types x = false)
      (headed : c.tags.tail = false) (entered : c.stream.list = (.ok size,s₁)) : Heads types c x size s₁
  | iface {c : Call τ} {n size : Nat} {s₁ s₂ : Stream} (shape : types c.typ = .iface)
      (found : c.stream.kind = (.ok (.List,n),s₁)) (entered : s₁.list = (.ok size,s₂)) : Heads types c c.typ size s₂
/-- The call reads the rest of a list as elements of the type. -/
def Tails (types : τ → Shape τ) (c : Call τ) (x : τ) : Prop :=
  types c.typ = .slice x ∧ isByte types x = false ∧ c.tags.tail = true
/-- The list is at its end, where an element of the type is looked for. -/
def AtEnd (types : τ → Shape τ) (x : τ) (s s' : Stream) : Prop := s.kind = (.error .EOL,s') ∧ ∃ n, pointers types n x = true
/-- Values of these types are read one after the other. -/
inductive InRow (types : τ → Shape τ) : List (Field τ) → Stream → Stream → Prop
  | nil (s : Stream) : InRow types [] s s
  | cons {f : Field τ} {fs : List (Field τ)} {s s₁ s₂ : Stream} (first : InRow types [f] s s₁) (others : InRow types fs s₁ s₂) :
      InRow types (f :: fs) s s₂
  | leaf {f : Field τ} {dec : Decoder τ Val} {v : Val} {s s' : Stream} (isLeaf : leaf types f.typ = some dec)
      (read : dec s = (.ok v,s')) : InRow types [f] s s'
  | string {f : Field τ} {k : Kind} {n : Nat} {b : Bytes} {s s₁ s' : Stream} (shape : types f.typ = .iface)
      (found : s.kind = (.ok (k,n),s₁)) (notList : k ≠ .List) (read : s₁.bytes = (.ok b,s')) : InRow types [f] s s'
  | empty {f : Field τ} {x : τ} {s s₁ s' : Stream} (heads : Heads types ⟨f.typ,f.tags,s⟩ x 0 s₁)
      (closed : s₁.listEnd = (.ok (),s')) : InRow types [f] s s'
  | slice {f : Field τ} {x : τ} {size i : Nat} {s s₁ s₂ s₃ s' : Stream} (heads : Heads types ⟨f.typ,f.tags,s⟩ x size s₁)
      (some : size ≠ 0) (elems : InRow types (List.replicate i (element x)) s₁ s₂) (ended : AtEnd types x s₂ s₃)
      (closed : s₃.listEnd = (.ok (),s')) : InRow types [f] s s'
  | tail {f : Field τ} {x : τ} {i : Nat} {s s₁ s' : Stream} (tails : Tails types ⟨f.typ,f.tags,s⟩ x)
      (elems : InRow types (List.replicate i (element x)) s s₁) (ended : AtEnd types x s₁ s') : InRow types [f] s s'
  | fixed {f : Field τ} {fields : List (Field τ)} {size : Nat} {s s₁ s₂ s' : Stream} (fixed : parts types f.typ = some fields)
      (entered : s.list = (.ok size,s₁)) (elems : InRow types fields s₁ s₂) (closed : s₂.listEnd = (.ok (),s')) :
      InRow types [f] s s'
  | ptr {f : Field τ} {x : τ} {s s' : Stream} (shape : types f.typ = .ptr x) (notBig : isBigInt types x = false)
      (noNil : f.tags.nilOK = false) (inner : InRow types [element x] s s') : InRow types [f] s s'
  | null {f : Field τ} {x : τ} {k : Kind} {size : Nat} {s s₁ : Stream} (shape : types f.typ = .ptr x)
      (notBig : isBigInt types x = false) (nilOK : f.tags.nilOK = true) (found : s.kind = (.ok (k,size),s₁))
      (none : size = 0 ∧ k ≠ .Byte) : InRow types [f] s s₁.release
  | optional {f : Field τ} {x : τ} {k : Kind} {size : Nat} {s s₁ s' : Stream} (shape : types f.typ = .ptr x)
      (notBig : isBigInt types x = false) (nilOK : f.tags.nilOK = true) (found : s.kind = (.ok (k,size),s₁))
      (some : ¬ (size = 0 ∧ k ≠ .Byte)) (inner : InRow types [element x] s₁ s') : InRow types [f] s s'

/-! The decoders read this. -/

theorem inList_read {result : List Val → Val} {elems : Decoder τ (List Val)} :
    (∃ v, inList typ wrap result elems s = (.ok v,s')) ↔ ∃ size s₁ vs s₂, s.list = (.ok size,s₁) ∧ elems s₁ = (.ok vs,s₂) ∧
      s₂.listEnd = (.ok (),s') := by
  rcases entered : s.list with ⟨e | size,s₁⟩
  · simp [inList,entered]
  · rcases loop : elems s₁ with ⟨e | vs,s₂⟩
    · simp [inList,entered,loop]
    · rcases closed : s₂.listEnd with ⟨e | u,s₃⟩ <;> simp [inList,entered,loop,listEndWith,closed]
private theorem listSlice_read : (∃ v, decodeListSlice typ elemdec rounds s = (.ok v,s')) ↔ ∃ size s₁, s.list = (.ok size,s₁) ∧
    (size = 0 ∧ s₁.listEnd = (.ok (),s') ∨
      size ≠ 0 ∧ ∃ vs s₂, decodeSliceElems elemdec rounds 0 s₁ = (.ok vs,s₂) ∧ s₂.listEnd = (.ok (),s')) := by
  rw [listSlice_inList,inList_read]
  rcases entered : s.list with ⟨e | size,s₁⟩
  · simp
  · by_cases empty : size = 0 <;> simp [empty]
theorem interface_read : (∃ v, decodeInterface typ elemdec rounds s = (.ok v,s')) ↔ ∃ k n s₁, s.kind = (.ok (k,n),s₁) ∧
    (k = .List ∧ (∃ v, decodeListSlice typ elemdec rounds s₁ = (.ok v,s')) ∨ k ≠ .List ∧ ∃ b, s₁.bytes = (.ok b,s')) := by
  rcases found : s.kind with ⟨e | ⟨k,n⟩,s₁⟩
  · simp [decodeInterface,found]
  · by_cases isList : k = .List
    · simp [decodeInterface,found,isList]
    · rcases string : s₁.bytes with ⟨e | b,s₂⟩ <;> simp [decodeInterface,found,isList,string]
theorem heads_read {c : Call τ} {x : τ} {size : Nat} {s₁ : Stream} (heads : Heads types c x size s₁) :
    (∃ v, decode types (fuel+1) c.typ c.tags c.stream = (.ok v,s')) ↔ size = 0 ∧ s₁.listEnd = (.ok (),s') ∨
      size ≠ 0 ∧ ∃ vs s₂, decodeSliceElems (decode types fuel x .none) fuel 0 s₁ = (.ok vs,s₂) ∧ s₂.listEnd = (.ok (),s') := by
  cases heads with
  | slice shape notByte headed entered =>
    rw [decode_slice shape notByte headed,listSlice_read]
    simp [entered]
  | iface shape found entered =>
    rw [decode_iface shape,interface_read]
    simp [found,listSlice_read,entered]
theorem optionalPtr_read : (∃ v, decodeOptionalPtr elemdec s = (.ok v,s')) ↔ ∃ k n s₁, s.kind = (.ok (k,n),s₁) ∧
    ((n = 0 ∧ k ≠ .Byte) ∧ s' = s₁.release ∨ ¬ (n = 0 ∧ k ≠ .Byte) ∧ ∃ v, elemdec s₁ = (.ok v,s')) := by
  rcases found : s.kind with ⟨e | ⟨k,n⟩,s₁⟩
  · simp [decodeOptionalPtr,found]
  · by_cases none : n = 0 ∧ k ≠ .Byte
    · simp [decodeOptionalPtr,found,none,eq_comm]
    · simpa [decodeOptionalPtr,found,none,decodePtr_ok] using fun _ _ => by simpa using none
private theorem sliceElems_inRow {x : τ} (each : ∀ s v s', decode types fuel x .none s = (.ok v,s') → InRow types [element x] s s')
    (read : decodeSliceElems (decode types fuel x .none) rounds i s = (.ok vs,s')) :
    ∃ j s₁, InRow types (List.replicate j (element x)) s s₁ ∧ AtEnd types x s₁ s' := by
  induction rounds generalizing i s vs with
  | zero => simp [decodeSliceElems] at read
  | succ rounds ih =>
    rcases next_ok.mp read with ⟨ended,-⟩ | ⟨v,vs',s₁,first,others,-⟩
    · exact ⟨0,s,.nil s,decode_end ended rfl⟩
    · obtain ⟨j,s₂,elems,atEnd⟩ := ih others
      exact ⟨j+1,s₂,.cons (each s v s₁ first) elems,atEnd⟩
private theorem fields_inRow (each : ∀ (f : Field τ) s v s', decode types fuel f.typ f.tags s = (.ok v,s') → InRow types [f] s s')
    {fields : List (Field τ)} (read : decodeFields typ (fun f => decode types fuel f.typ f.tags) fields s = (.ok vs,s')) :
    InRow types fields s s' := by
  induction fields generalizing s vs with
  | nil =>
    obtain ⟨-,rfl⟩ := Prod.mk.inj read
    exact .nil s
  | cons f fs ih =>
    obtain ⟨v,vs',s₁,first,others,-⟩ := fields_inv read
    exact .cons (each f s v s₁ first) (ih others)
theorem decode_inRow {f : Field τ} (read : decode types fuel f.typ f.tags s = (.ok v,s')) : InRow types [f] s s' := by
  induction fuel generalizing f s s' v with
  | zero => simp [decode] at read
  | succ fuel ih =>
    have listed {x : τ} {v : Val} {s₁ : Stream}
        (heads : ∀ {size s₂}, s₁.list = (.ok size,s₂) → Heads types ⟨f.typ,f.tags,s⟩ x size s₂)
        (read : decodeListSlice f.typ (decode types fuel x .none) fuel s₁ = (.ok v,s')) : InRow types [f] s s' := by
      obtain ⟨size,s₂,entered,⟨rfl,closed⟩ | ⟨some,vs,s₃,loop,closed⟩⟩ := listSlice_read.mp ⟨v,read⟩
      · exact .empty (heads entered) closed
      · obtain ⟨j,s₄,elems,ended⟩ := sliceElems_inRow (fun s v s' => ih (f := element x)) loop
        exact .slice (heads entered) some elems ended closed
    cases isLeaf : leaf types f.typ with
    | some elemdec =>
      rw [decode_leaf isLeaf] at read
      exact .leaf isLeaf read
    | none =>
      rcases shape_cases isLeaf with ⟨x,shape,notByte⟩ | ⟨fields,fixed⟩ | ⟨x,shape,notBig⟩ | shape
      · cases tail : f.tags.tail with
        | true =>
          obtain ⟨vs,loop,-⟩ := (decode_tail shape notByte tail).mp read
          obtain ⟨j,s₁,elems,ended⟩ := sliceElems_inRow (fun s v s' => ih (f := element x)) loop
          exact .tail ⟨shape,notByte,tail⟩ elems ended
        | false =>
          rw [decode_slice shape notByte tail] at read
          exact listed (.slice shape notByte tail) read
      · obtain ⟨result,elems,same,-,reads⟩ := decode_fixed fixed
        rw [same] at read
        obtain ⟨size,s₁,vs,s₂,entered,loop,closed⟩ := inList_read.mp ⟨v,read⟩
        exact .fixed fixed entered (fields_inRow (fun f s v s' => ih) ((reads _ _ _).mp loop)) closed
      · cases nilOK : f.tags.nilOK with
        | false =>
          rw [decode_ptr shape notBig nilOK] at read
          obtain ⟨v',read,-⟩ := decodePtr_ok.mp read
          exact .ptr shape notBig nilOK (ih read)
        | true =>
          rw [decode_optional shape notBig nilOK] at read
          obtain ⟨k,n,s₁,found,⟨none,rfl⟩ | ⟨some,v',read⟩⟩ := optionalPtr_read.mp ⟨v,read⟩
          · exact .null shape notBig nilOK found none
          · exact .optional shape notBig nilOK found some (ih read)
      · rw [decode_iface shape] at read
        obtain ⟨k,n,s₁,found,⟨rfl,v',read⟩ | ⟨notList,b,string⟩⟩ := interface_read.mp ⟨v,read⟩
        · exact listed (.iface shape found) read
        · exact .string shape found notList string

/-! ### What a value takes off -/

private theorem zeroNext_again {r : Kind × Nat} {s₁ : Stream} (found : s.kind = (.ok r,s₁)) (zero : ZeroNext s₁) : ZeroNext s := by
  obtain ⟨size,s₂,found₂,byteval⟩ := zero
  rw [kind_again found] at found₂
  simp only [Prod.mk.injEq,ok.injEq] at found₂
  obtain ⟨rfl,rfl⟩ := found₂
  exact ⟨size,s₁,found,byteval⟩

theorem heads_left {c : Call τ} {x : τ} {size : Nat} {s₁ : Stream} (heads : Heads types c x size s₁) :
    s₁.left < c.stream.left := by
  cases heads with
  | slice _ _ _ entered => exact (list_acts _).takes entered
  | iface _ found entered => exact ((list_acts _).takes entered).trans_le (kind_left found).2.1
private theorem tails_tailed {c : Call τ} {x : τ} (tails : Tails types c x) : tailed types c.typ c.tags = true := by
  obtain ⟨shape,notByte,tail⟩ := tails
  simp [tailed,shape,notByte,tail]
/-- Values that are read are taken off the stream, with one exception. Only a slice without a head may be empty. -/
theorem inRow_left {row : List (Field τ)} (read : InRow types row s s') : s'.left ≤ s.left ∧
    ∀ f, row = [f] → tailed types f.typ f.tags = false → s'.left < s.left ∨ OneByte types f.typ ∧ ZeroNext s := by
  have strict {s s' : Stream} {row : List (Field τ)} (less : s'.left < s.left) : s'.left ≤ s.left ∧
      ∀ f, row = [f] → tailed types f.typ f.tags = false → s'.left < s.left ∨ OneByte types f.typ ∧ ZeroNext s :=
    ⟨less.le,fun _ _ _ => .inl less⟩
  induction read with
  | nil s => exact ⟨le_rfl,by simp⟩
  | cons _ _ first others =>
    refine ⟨others.1.trans first.1,?_⟩
    rintro f ⟨⟩ headed
    exact (first.2 _ rfl headed).imp_left others.1.trans_lt
  | leaf isLeaf read =>
    rcases (leaf_single isLeaf _).takes read with less | ⟨kept,stuck⟩
    · exact strict less
    · refine ⟨kept,?_⟩
      rintro f ⟨⟩ -
      exact .inr stuck
  | string _ found _ read => exact strict (((bytes_acts _).takes read).trans_le (kind_left found).2.1)
  | empty heads closed => exact strict ((listEnd_left closed).trans_lt (heads_left heads))
  | slice heads _ _ ended closed elems =>
    exact strict (((listEnd_left closed).trans ((kind_end_left ended.1).le.trans elems.1)).trans_lt (heads_left heads))
  | tail tails _ ended elems =>
    refine ⟨(kind_end_left ended.1).le.trans elems.1,?_⟩
    rintro f ⟨⟩ headed
    cases (tails_tailed tails).symm.trans headed
  | fixed _ entered _ closed elems => exact strict (((listEnd_left closed).trans elems.1).trans_lt ((list_acts _).takes entered))
  | ptr shape notBig _ _ inner =>
    refine ⟨inner.1,?_⟩
    rintro f ⟨⟩ -
    exact (inner.2 _ rfl rfl).imp_right fun stuck => ⟨.ptr shape notBig stuck.1,stuck.2⟩
  | null _ _ _ found _ => exact strict (release_left found)
  | optional shape notBig _ found _ _ inner =>
    have less := (kind_left found).2.1
    refine ⟨inner.1.trans less,?_⟩
    rintro f ⟨⟩ -
    rcases inner.2 _ rfl rfl with less' | ⟨one,zero⟩
    · exact .inl (less'.trans_le less)
    · exact .inr ⟨.ptr shape notBig one,zeroNext_again found zero⟩

end Canchain.Rlp
