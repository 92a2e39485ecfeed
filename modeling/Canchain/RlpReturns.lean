import Mathlib.Logic.Relation
import Canchain.RlpProgress

/-!
When `DecodeBytes` returns. More nested calls and rounds do not change a result
(`decode_extends`). It fails to return if and only if it gets to a loop that reads one
zero byte for ever, or to a type that is a pointer to a pointer without end.
-/
namespace Canchain.Rlp
open List Except Rlp.Stream

open Filter Relation
variable {place : Context} {rounds' fuel' enough i count size : Nat} {s₁ : Stream} {b : Bytes}

section
variable {τ α : Type} {types : τ → Shape τ} {s s' : Stream}

/-! ### Where the fuel gives out -/

/-- The decoder runs out of fuel. -/
def Out (dec : Decoder τ α) (s : Stream) : Prop := (dec s).1 = .error .outOfFuel
/-- The second decoder returns what the first one does, where that returns. -/
def Extends (dec dec' : Decoder τ α) : Prop := ∀ s, ¬ Out dec s → dec' s = dec s

theorem Extends.refl (dec : Decoder τ α) : Extends dec dec := fun _ _ => rfl
variable {typ t x : τ} {dec dec' : Decoder τ Val} {rounds fuel : Nat} {tags : Tags}
private theorem addErrorContext_fuel {e : DecodeError τ} : addErrorContext e place = .outOfFuel ↔ e = .outOfFuel := by
  cases e <;> simp [addErrorContext]
private theorem listEndWith_in {wrap : StreamError → DecodeError τ} (wraps : ∀ e, wrap e ≠ .outOfFuel) (v : Val) :
    ¬ Out (listEndWith wrap v) s := by
  simp only [Out,listEndWith]
  split
  · simpa using wraps _
  · simp

section
variable {atEnd : Except (DecodeError τ) (List Val)} {first first' : Decoder τ Val}
  {others others' : Decoder τ (List Val)}

private theorem next_out (ends : atEnd ≠ .error .outOfFuel) : Out (next atEnd place first others) s ↔
    Out first s ∨ ∃ v s₁, first s = (.ok v,s₁) ∧ Out others s₁ := by
  rcases read : first s with ⟨e | v,s₁⟩
  · by_cases ended : e = .stream .EOL
    · simp [Out,next,read,ended,ends]
    · simp [Out,next,read,addErrorContext_fuel]
  · rcases rest : others s₁ with ⟨e | vs,s₂⟩ <;> simp [Out,next,read,rest]
private theorem next_extends (ends : atEnd ≠ .error .outOfFuel) (one : Extends first first') (all : Extends others others') :
    Extends (next atEnd place first others) (next atEnd place first' others') := by
  intro s done
  rw [next_out ends,not_or] at done
  obtain ⟨now,later⟩ := done
  rcases read : first s with ⟨e | v,s₁⟩
  · by_cases ended : e = .stream .EOL
    · simp [next,one s now,read,ended]
    · simp [next,one s now,read]
  · have rest : ¬ Out others s₁ := fun out => later ⟨v,s₁,read,out⟩
    simp [next,one s now,read,all s₁ rest]

end

private theorem sliceElems_extends (more : Extends dec dec') (less : rounds ≤ rounds')
    (i : Nat) : Extends (decodeSliceElems dec rounds i) (decodeSliceElems dec' rounds' i) := by
  induction rounds generalizing rounds' i with
  | zero =>
    intro s done
    exact absurd rfl done
  | succ rounds ih =>
    obtain ⟨rounds',rfl⟩ := Nat.exists_eq_add_of_le' (show 1 ≤ rounds' by omega)
    rw [sliceElems_next,sliceElems_next]
    exact next_extends (by simp) more (ih (by omega) (i+1))
private theorem arrayElems_extends (more : Extends dec dec') (typ : τ) (count i : Nat) :
    Extends (decodeArrayElems typ dec count i) (decodeArrayElems typ dec' count i) := by
  induction count generalizing i with
  | zero => exact .refl _
  | succ count ih =>
    rw [arrayElems_next,arrayElems_next]
    exact next_extends (by simp) more (ih (i+1))
private theorem fields_extends {dec dec' : Field τ → Decoder τ Val} (more : ∀ f, Extends (dec f) (dec' f)) (typ : τ)
    (fields : List (Field τ)) : Extends (decodeFields typ dec fields) (decodeFields typ dec' fields) := by
  induction fields with
  | nil => exact .refl _
  | cons f fs ih =>
    rw [fields_next,fields_next]
    exact next_extends (by simp) (more f) ih

/-! The decoders around the loops. -/

section
variable {wrap : StreamError → DecodeError τ} {result : List Val → Val} {elems elems' : Decoder τ (List Val)}

private theorem inList_out (wraps : ∀ e, wrap e ≠ .outOfFuel) :
    Out (inList typ wrap result elems) s ↔ ∃ size s₁, s.list = (.ok size,s₁) ∧ Out elems s₁ := by
  rcases entered : s.list with ⟨e | size,s₁⟩
  · simp [Out,inList,entered,wrapStreamError_fuel]
  · rcases loop : elems s₁ with ⟨e | vs,s₂⟩
    · simp [Out,inList,entered,loop]
    · have closed : (listEndWith wrap (result vs) s₂).1 ≠ .error .outOfFuel := listEndWith_in wraps _
      simp [Out,inList,entered,loop,closed]
private theorem inList_extends (wraps : ∀ e, wrap e ≠ .outOfFuel) (more : Extends elems elems') :
    Extends (inList typ wrap result elems) (inList typ wrap result elems') := by
  intro s done
  rcases entered : s.list with ⟨e | size,s₁⟩
  · simp [inList,entered]
  · have loop : ¬ Out elems s₁ := fun out => done ((inList_out wraps).mpr ⟨size,s₁,entered,out⟩)
    simp [inList,entered,more s₁ loop]
private theorem listSlice_out : Out (decodeListSlice typ dec rounds) s ↔
    ∃ size s₁, s.list = (.ok size,s₁) ∧ size ≠ 0 ∧ Out (decodeSliceElems dec rounds 0) s₁ := by
  rw [Out,listSlice_inList,← Out,inList_out (by simp)]
  refine exists_congr fun size => exists_congr fun s₁ => and_congr_right fun entered => ?_
  rw [entered]
  by_cases empty : size = 0
  · simp [Out,empty]
  · simp [Out,empty]
private theorem listSlice_extends (more : Extends dec dec')
    (less : rounds ≤ rounds') : Extends (decodeListSlice typ dec rounds) (decodeListSlice typ dec' rounds') := by
  intro s done
  rw [Out,listSlice_inList] at done
  rw [listSlice_inList,listSlice_inList]
  refine inList_extends (by simp) ?_ s done
  intro s₁ loop
  split
  · rfl
  · rename_i some
    rw [Out,if_neg some] at loop
    exact sliceElems_extends more less 0 s₁ loop

end

private theorem decodePtr_out : Out (decodePtr dec) s ↔ Out dec s := by
  rcases read : dec s with ⟨e | v,s₁⟩ <;> simp [Out,decodePtr,read]
private theorem decodePtr_extends (more : Extends dec dec') : Extends (decodePtr dec) (decodePtr dec') := by
  intro s done
  rw [decodePtr_out] at done
  simp [decodePtr,more s done]
private theorem optionalPtr_out : Out (decodeOptionalPtr dec) s ↔
    ∃ k size s₁, s.kind = (.ok (k,size),s₁) ∧ ¬ (size = 0 ∧ k ≠ .Byte) ∧ Out dec s₁ := by
  rcases found : s.kind with ⟨e | ⟨k,size⟩,s₁⟩
  · simp [Out,decodeOptionalPtr,found]
  · by_cases none : size = 0 ∧ k ≠ .Byte
    · simp [Out,decodeOptionalPtr,found,none]
    · have inner : Out (decodeOptionalPtr dec) s ↔ Out (decodePtr dec) s₁ := by
        simp [Out,decodeOptionalPtr,found,if_neg none]
      rw [inner,decodePtr_out]
      simpa [none] using fun _ => by simpa using none
private theorem optionalPtr_extends (more : Extends dec dec') : Extends (decodeOptionalPtr dec) (decodeOptionalPtr dec') := by
  intro s done
  rw [optionalPtr_out] at done
  simp only [decodeOptionalPtr]
  split
  · rfl
  · rename_i k size s₁ found
    split
    · rfl
    · rename_i some
      exact decodePtr_extends more s₁ fun out => done ⟨k,size,s₁,found,some,decodePtr_out.mp out⟩
private theorem interface_out : Out (decodeInterface typ dec rounds) s ↔
    ∃ size s₁, s.kind = (.ok (.List,size),s₁) ∧ Out (decodeListSlice typ dec rounds) s₁ := by
  rcases found : s.kind with ⟨e | ⟨k,size⟩,s₁⟩
  · simp [Out,decodeInterface,found]
  · by_cases isList : k = .List
    · simp [Out,decodeInterface,found,isList]
    · rcases string : s₁.bytes with ⟨e | b,s₂⟩ <;> simp [Out,decodeInterface,found,isList,string]
private theorem interface_extends (more : Extends dec dec')
    (less : rounds ≤ rounds') : Extends (decodeInterface typ dec rounds) (decodeInterface typ dec' rounds') := by
  intro s done
  rw [interface_out] at done
  simp only [decodeInterface]
  split
  · rfl
  · rename_i k size s₁ found
    split
    · rename_i isList
      subst isList
      exact listSlice_extends more less s₁ fun out => done ⟨size,s₁,found,out⟩
    · rfl
private theorem tailSlice_out {elems : Decoder τ (List Val)} : Out (tailSlice elems) s ↔ Out elems s := by
  rcases read : elems s with ⟨e | vs,s₁⟩ <;> simp [Out,tailSlice,read]
private theorem tailSlice_extends {elems elems' : Decoder τ (List Val)} (more : Extends elems elems') :
    Extends (tailSlice elems) (tailSlice elems') := by
  intro s done
  rw [tailSlice_out] at done
  simp [tailSlice,more s done]
private theorem decode_struct {fields : List (Field τ)} (shape : types t = .struct fields) :
    decode types (fuel+1) t tags = decodeStruct t (fun f => decode types fuel f.typ f.tags) fields := by
  simp [decode,shape]

private theorem decode_extends (fuel : Nat) (t : τ) (tags : Tags) : Extends (decode types fuel t tags) (decode types (fuel+1) t tags) := by
  induction fuel generalizing t tags with
  | zero =>
    intro s done
    exact absurd rfl done
  | succ fuel ih =>
    cases isLeaf : leaf types t with
    | some elemdec =>
      rw [decode_leaf isLeaf,decode_leaf isLeaf]
      exact .refl _
    | none =>
      rcases shape_cases isLeaf with ⟨x,shape,notByte⟩ | ⟨fields,fixed⟩ | ⟨x,shape,notBig⟩ | shape
      · cases tail : tags.tail with
        | true =>
          rw [decode_tailSlice shape notByte tail,decode_tailSlice shape notByte tail]
          exact tailSlice_extends (sliceElems_extends (ih x .none) (Nat.le_succ fuel) 0)
        | false =>
          rw [decode_slice shape notByte tail,decode_slice shape notByte tail]
          exact listSlice_extends (ih x .none) (Nat.le_succ fuel)
      · unfold parts at fixed
        repeat' split at fixed
        all_goals cases fixed
        · rename_i vlen x shape notByte
          rw [decode_array shape (by simpa using notByte),decode_array shape (by simpa using notByte)]
          exact inList_extends (fun _ => wrapStreamError_fuel) (arrayElems_extends (ih x .none) t vlen 0)
        · rename_i shape
          rw [decode_struct shape,decode_struct shape]
          exact inList_extends (fun _ => wrapStreamError_fuel) (fields_extends (fun f => ih f.typ f.tags) t fields)
      · cases nilOK : tags.nilOK with
        | false =>
          rw [decode_ptr shape notBig nilOK,decode_ptr shape notBig nilOK]
          exact decodePtr_extends (ih x .none)
        | true =>
          rw [decode_optional shape notBig nilOK,decode_optional shape notBig nilOK]
          exact optionalPtr_extends (ih x .none)
      · rw [decode_iface shape,decode_iface shape]
        exact interface_extends (ih t .none) (Nat.le_succ fuel)

private theorem decode_extends_le (less : fuel ≤ fuel') (t : τ) (tags : Tags) :
    Extends (decode types fuel t tags) (decode types fuel' t tags) := by
  induction fuel', less using Nat.le_induction with
  | base => exact .refl _
  | succ fuel' less ih =>
    intro s done
    have same := ih s done
    rw [decode_extends fuel' t tags s (by rwa [Out,same]),same]
/-- Two numbers that are enough give one result. -/
theorem decode_unique (done : ¬ Out (decode types fuel t tags) s)
    (done' : ¬ Out (decode types fuel' t tags) s) : decode types fuel t tags s = decode types fuel' t tags s := by
  rcases Nat.le_total fuel fuel' with less | less
  · exact (decode_extends_le less t tags s done).symm
  · exact decode_extends_le less t tags s done'

/-- No number of nested calls and rounds is enough. -/
def Hangs (types : τ → Shape τ) (c : Call τ) : Prop := ∀ fuel, Out (decode types fuel c.typ c.tags) c.stream

/-- The call decodes a slice: the type of its elements, and the stream where the loop over them begins. -/
inductive Elements (types : τ → Shape τ) : Call τ → τ → Stream → Prop
  | list {c : Call τ} {x : τ} {size : Nat} {s₁ : Stream} (heads : Heads types c x size s₁) (some : size ≠ 0) : Elements types c x s₁
  | tail {c : Call τ} {x : τ} (tails : Tails types c x) : Elements types c x c.stream
/-- The loop over elements of the type gets from the first stream to the second. -/
def Loops (types : τ → Shape τ) (x : τ) (s s' : Stream) : Prop := ∃ i, InRow types (List.replicate i (element x)) s s'
/-- The first call makes the second one. -/
inductive Calls (types : τ → Shape τ) : Call τ → Call τ → Prop
  | element {c : Call τ} {x : τ} {s₁ s₂ : Stream} (elements : Elements types c x s₁) (before : Loops types x s₁ s₂) :
      Calls types c ⟨x,.none,s₂⟩
  | part {c : Call τ} {front back : List (Field τ)} {f : Field τ} {size : Nat} {s₁ s₂ : Stream}
      (fixed : parts types c.typ = some (front ++ f :: back)) (entered : c.stream.list = (.ok size,s₁))
      (before : InRow types front s₁ s₂) : Calls types c ⟨f.typ,f.tags,s₂⟩
  | ptr {c : Call τ} {x : τ} (shape : types c.typ = .ptr x) (notBig : isBigInt types x = false) (noNil : c.tags.nilOK = false) :
      Calls types c ⟨x,.none,c.stream⟩
  | optional {c : Call τ} {x : τ} {s₁ : Stream} {k : Kind} {size : Nat} (shape : types c.typ = .ptr x)
      (notBig : isBigInt types x = false) (nilOK : c.tags.nilOK = true) (found : c.stream.kind = (.ok (k,size),s₁))
      (some : ¬ (size = 0 ∧ k ≠ .Byte)) : Calls types c ⟨x,.none,s₁⟩

/-- The type is a pointer to a pointer without end. -/
def Endless (types : τ → Shape τ) (t : τ) : Prop := ∀ n, pointers types n t = false
/-- The call is stuck: it decodes a slice of one-byte arrays and meets a zero byte, or its type has no end. -/
def Stalls (types : τ → Shape τ) (c : Call τ) : Prop :=
  (∃ x s₁ s₂, Elements types c x s₁ ∧ Loops types x s₁ s₂ ∧ OneByte types x ∧ ZeroNext s₂) ∨
    (c.tags.nilOK = false ∧ Endless types c.typ)

/-! ### What is read is decoded -/

/-- The decoders of these types return one after the other. -/
inductive Decoded (types : τ → Shape τ) : List (Field τ) → Stream → Stream → Prop
  | nil (s : Stream) : Decoded types [] s s
  | cons {fuel : Nat} {f : Field τ} {v : Val} {s s₁ s₂ : Stream} {fs : List (Field τ)}
      (first : decode types fuel f.typ f.tags s = (.ok v,s₁)) (others : Decoded types fs s₁ s₂) : Decoded types (f :: fs) s s₂

private theorem decode_eventually {v : Val} (read : decode types enough t tags s = (.ok v,s₁)) :
    ∀ᶠ fuel in atTop, decode types fuel t tags s = (.ok v,s₁) := by
  filter_upwards [eventually_ge_atTop enough] with fuel less
  rw [decode_extends_le less t tags s (by simp [Out,read]),read]
private theorem sliceElems_decoded (before : Decoded types (replicate i (element x)) s s₁) (ended : AtEnd types x s₁ s') :
    ∃ vs, ∀ᶠ fuel in atTop, ∀ rounds j, i < rounds → decodeSliceElems (decode types fuel x .none) rounds j s = (.ok vs,s') := by
  induction i generalizing s with
  | zero =>
    cases before
    obtain ⟨found,n,ends⟩ := ended
    refine ⟨[],?_⟩
    filter_upwards [eventually_ge_atTop n] with fuel enough rounds j more
    obtain ⟨rounds,rfl⟩ := Nat.exists_eq_add_of_le' more
    rw [sliceElems_next,next_ok]
    exact .inl ⟨decode_atEnd ends enough found,rfl⟩
  | succ i ih =>
    cases before with
    | @cons _ _ v _ _ _ _ first others =>
      obtain ⟨vs,all⟩ := ih others
      refine ⟨v :: vs,?_⟩
      filter_upwards [decode_eventually first,all] with fuel one all rounds j more
      obtain ⟨rounds,rfl⟩ := Nat.exists_eq_add_of_le' (show 1 ≤ rounds by omega)
      rw [sliceElems_next,next_ok]
      exact .inr ⟨v,vs,_,one,all rounds (j+1) (by omega),rfl⟩
private theorem fields_decoded {fields : List (Field τ)} (before : Decoded types fields s s₁) (typ : τ) :
    ∃ vs, ∀ᶠ fuel in atTop, decodeFields typ (fun f => decode types fuel f.typ f.tags) fields s = (.ok vs,s₁) := by
  induction before with
  | nil s => exact ⟨[],Eventually.of_forall fun fuel => rfl⟩
  | @cons _ _ v _ _ _ _ first others ih =>
    obtain ⟨vs,all⟩ := ih
    refine ⟨v :: vs,?_⟩
    filter_upwards [decode_eventually first,all] with fuel one all
    rw [fields_next,next_ok]
    exact .inr ⟨v,vs,_,one,all,rfl⟩
/-- What is read is decoded, with enough nested calls and rounds. -/
theorem inRow_decoded {row : List (Field τ)} (read : InRow types row s s') : Decoded types row s s' := by
  have one {f : Field τ} {s s' : Stream} (read : ∃ fuel v, decode types fuel f.typ f.tags s = (.ok v,s')) :
      Decoded types [f] s s' := by
    obtain ⟨fuel,v,read⟩ := read
    exact .cons read (.nil s')
  induction read with
  | nil s => exact .nil s
  | cons _ _ first others =>
    cases first with
    | cons first none =>
      cases none
      exact .cons first others
  | leaf isLeaf read => exact one ⟨1,_,(congrFun (decode_leaf isLeaf) _).trans read⟩
  | string shape found notList read =>
    refine one ⟨1,?_⟩
    rw [decode_iface shape,interface_read]
    exact ⟨_,_,_,found,.inr ⟨notList,_,read⟩⟩
  | empty heads closed => exact one ⟨1,(heads_read heads).mpr (.inl ⟨rfl,closed⟩)⟩
  | slice heads some _ ended closed elems =>
    obtain ⟨vs,all⟩ := sliceElems_decoded elems ended
    obtain ⟨fuel,loop,enough⟩ := (all.and (eventually_gt_atTop _)).exists
    exact one ⟨fuel+1,(heads_read heads).mpr (.inr ⟨some,vs,_,loop fuel 0 enough,closed⟩)⟩
  | tail tails _ ended elems =>
    obtain ⟨shape,notByte,tail⟩ := tails
    obtain ⟨vs,all⟩ := sliceElems_decoded elems ended
    obtain ⟨fuel,loop,enough⟩ := (all.and (eventually_gt_atTop _)).exists
    exact one ⟨fuel+1,_,(decode_tail shape notByte tail).mpr ⟨vs,loop fuel 0 enough,rfl⟩⟩
  | fixed fixed entered _ closed elems =>
    obtain ⟨vs,all⟩ := fields_decoded elems _
    obtain ⟨fuel,loop⟩ := all.exists
    obtain ⟨result,elems,same,-,reads⟩ := decode_fixed fixed
    refine one ⟨fuel+1,?_⟩
    rw [same,inList_read]
    exact ⟨_,_,vs,_,entered,(reads _ _ _).mpr loop,closed⟩
  | ptr shape notBig noNil _ inner =>
    cases inner with
    | @cons fuel _ v _ _ _ _ first none =>
      cases none
      refine one ⟨fuel+1,.ptr v,?_⟩
      rw [decode_ptr shape notBig noNil,decodePtr_ok]
      exact ⟨v,first,rfl⟩
  | null shape notBig nilOK found none =>
    refine one ⟨1,?_⟩
    rw [decode_optional shape notBig nilOK,optionalPtr_read]
    exact ⟨_,_,_,found,.inl ⟨none,rfl⟩⟩
  | optional shape notBig nilOK found some _ inner =>
    cases inner with
    | @cons fuel _ v _ _ _ _ first none =>
      cases none
      refine one ⟨fuel+1,?_⟩
      rw [decode_optional shape notBig nilOK,optionalPtr_read]
      exact ⟨_,_,_,found,.inr ⟨some,v,first⟩⟩

/-! ### Calls that do not return -/

private theorem decode_or {v : Val} (read : decode types enough t tags s = (.ok v,s₁))
    (fuel : Nat) : Out (decode types fuel t tags) s ∨ decode types fuel t tags s = (.ok v,s₁) := by
  by_cases out : Out (decode types fuel t tags) s
  · exact .inl out
  · exact .inr ((decode_unique out (by simp [Out,read])).trans read)
/-! A loop that does not get through from some place on does not get through. -/
theorem sliceElems_out (before : Decoded types (replicate i (element x)) s s')
    (later : ∀ rounds j, Out (decodeSliceElems (decode types fuel x .none) rounds j) s') (rounds j : Nat) :
    Out (decodeSliceElems (decode types fuel x .none) rounds j) s := by
  induction i generalizing s rounds j with
  | zero =>
    cases before with
    | nil => exact later rounds j
  | succ i ih =>
    cases before with
    | cons first others =>
      cases rounds with
      | zero => rfl
      | succ rounds =>
        rw [sliceElems_next,next_out (by simp)]
        exact (decode_or first fuel).imp_right fun read => ⟨_,_,read,ih others rounds (j+1)⟩
private theorem fields_out {front back : List (Field τ)} (before : Decoded types front s s')
    (later : Out (decodeFields typ (fun f => decode types fuel f.typ f.tags) back) s') :
    Out (decodeFields typ (fun f => decode types fuel f.typ f.tags) (front ++ back)) s := by
  induction front generalizing s with
  | nil =>
    cases before with
    | nil => exact later
  | cons f front ih =>
    cases before with
    | cons first others =>
      rw [cons_append,fields_next,next_out (by simp)]
      exact (decode_or first fuel).imp_right fun read => ⟨_,_,read,ih others⟩
/-- The elements of an array are decoded like fields. -/
theorem arrayElems_out {dec' : Field τ → Decoder τ Val} {f : Field τ} (same : dec' f = dec) :
    Out (decodeArrayElems typ dec count i) s ↔ Out (decodeFields typ dec' (replicate count f)) s := by
  induction count generalizing i s with
  | zero => simp [Out,decodeArrayElems,decodeFields]
  | succ count ih => simp [replicate_succ,arrayElems_next,fields_next,next_out,same,ih]
private theorem fixed_out {fields : List (Field τ)} (fixed : parts types t = some fields) :
    Out (decode types (fuel+1) t tags) s ↔
      ∃ size s₁, s.list = (.ok size,s₁) ∧ Out (decodeFields t (fun f => decode types fuel f.typ f.tags) fields) s₁ := by
  unfold parts at fixed
  repeat' split at fixed
  all_goals cases fixed
  · rename_i vlen x shape notByte
    have same : (fun f : Field τ => decode types fuel f.typ f.tags) (element x) = decode types fuel x .none := rfl
    rw [decode_array shape (by simpa using notByte),listArray_inList,inList_out fun _ => wrapStreamError_fuel]
    exact exists_congr fun size => exists_congr fun s₁ => and_congr_right fun _ => arrayElems_out same
  · rename_i fields shape
    rw [decode_struct shape,struct_inList,inList_out fun _ => wrapStreamError_fuel]
private theorem heads_out {c : Call τ} (heads : Heads types c x size s₁) : Out (decode types (fuel+1) c.typ c.tags) c.stream ↔
    size ≠ 0 ∧ Out (decodeSliceElems (decode types fuel x .none) fuel 0) s₁ := by
  cases heads with
  | slice shape notByte headed entered =>
    rw [decode_slice shape notByte headed,listSlice_out]
    simp [entered]
  | iface shape found entered =>
    rw [decode_iface shape,interface_out]
    simp [found,listSlice_out,entered]

variable {c : Call τ}
private theorem hangs_succ (step : ∀ fuel, Out (decode types (fuel+1) c.typ c.tags) c.stream) : Hangs types c := by
  intro fuel
  cases fuel with
  | zero => rfl
  | succ fuel => exact step fuel
/-- The loop over the elements of a slice has no end, so the call has none. -/
theorem elements_hang (elements : Elements types c x s)
    (loop : ∀ fuel rounds j, Out (decodeSliceElems (decode types fuel x .none) rounds j) s) : Hangs types c := by
  refine hangs_succ fun fuel => ?_
  cases elements with
  | list heads some => exact (heads_out heads).mpr ⟨some,loop fuel fuel 0⟩
  | tail tails =>
    rw [decode_tailSlice tails.1 tails.2.1 tails.2.2,tailSlice_out]
    exact loop fuel fuel 0
private theorem calls_hang {c' : Call τ} (calls : Calls types c c') (hangs : Hangs types c') : Hangs types c := by
  cases calls with
  | element elements before =>
    obtain ⟨i,before⟩ := before
    refine elements_hang elements fun fuel => sliceElems_out (inRow_decoded before) ?_
    intro rounds j
    cases rounds with
    | zero => rfl
    | succ rounds =>
      rw [sliceElems_next,next_out (by simp)]
      exact .inl (hangs fuel)
  | part fixed entered before =>
    refine hangs_succ fun fuel => (fixed_out fixed).mpr ⟨_,_,entered,fields_out (inRow_decoded before) ?_⟩
    rw [fields_next,next_out (by simp)]
    exact .inl (hangs fuel)
  | ptr shape notBig noNil =>
    refine hangs_succ fun fuel => ?_
    rw [decode_ptr shape notBig noNil,decodePtr_out]
    exact hangs fuel
  | optional shape notBig nilOK found some =>
    refine hangs_succ fun fuel => ?_
    rw [decode_optional shape notBig nilOK,optionalPtr_out]
    exact ⟨_,_,_,found,some,hangs fuel⟩

/-- A one-byte array that meets a zero byte is read, and the zero byte is still there. -/
theorem oneByte_reads (one : OneByte types x) (found : s.kind = (.ok (.Byte,size),s₁))
    (zero : s₁.byteval = 0) : ∃ fuel v, decode types fuel x .none s = (.ok v,s₁) := by
  induction one with
  | array shape byte =>
    refine ⟨1,.bytes [0],?_⟩
    simp only [decode,shape,byte,if_true,decodeByteArray,found,Nat.one_ne_zero,if_false,lt_self_iff_false,Stream.uint,
      kind_again found,zero]
  | ptr shape notBig inner ih =>
    obtain ⟨fuel,v,read⟩ := ih
    exact ⟨fuel+1,.ptr v,by rw [decode_ptr shape notBig rfl]; exact decodePtr_ok.mpr ⟨v,read,rfl⟩⟩
private theorem oneByte_loops (one : OneByte types x) (zero : ZeroNext s) (fuel rounds j : Nat) :
    Out (decodeSliceElems (decode types fuel x .none) rounds j) s := by
  induction rounds generalizing s j with
  | zero => rfl
  | succ rounds ih =>
    obtain ⟨size,s₁,found,byteval⟩ := zero
    obtain ⟨enough,v,read⟩ := oneByte_reads one found byteval
    rw [sliceElems_next,next_out (by simp)]
    exact (decode_or read fuel).imp_right fun read => ⟨v,s₁,read,ih ⟨size,s₁,kind_again found,byteval⟩ (j+1)⟩
private theorem endless_out (endless : Endless types t) (noNil : tags.nilOK = false) (fuel : Nat) :
    Out (decode types fuel t tags) s := by
  induction fuel generalizing t tags with
  | zero => rfl
  | succ fuel ih =>
    cases shape : types t with
    | ptr x =>
      have inner (n : Nat) : isBigInt types x = false ∧ pointers types n x = false := by
        have := endless (n+1)
        simpa [pointers,shape] using this
      rw [decode_ptr shape (inner 0).1 noNil,decodePtr_out]
      exact ih (fun n => (inner n).2) rfl
    | _ =>
      have := endless 1
      simp [pointers,shape] at this
private theorem stalls_hang (stalls : Stalls types c) : Hangs types c := by
  rcases stalls with ⟨x,s₁,s₂,elements,⟨i,before⟩,one,zero⟩ | ⟨noNil,endless⟩
  · exact elements_hang elements fun fuel => sliceElems_out (inRow_decoded before) (oneByte_loops one zero fuel)
  · exact endless_out endless noNil
private theorem reached_hang {c' : Call τ} (reached : ReflTransGen (Calls types) c c') (stalls : Stalls types c') : Hangs types c := by
  induction reached using ReflTransGen.head_induction_on with
  | refl => exact stalls_hang stalls
  | head calls _ ih => exact calls_hang calls ih

/-! ### Calls that return -/

/-- Some number of nested calls and rounds is enough. -/
def Returns (types : τ → Shape τ) (c : Call τ) : Prop := ∃ fuel, ¬ Out (decode types fuel c.typ c.tags) c.stream
/-- The call does not get to one that is stuck. -/
def Safe (types : τ → Shape τ) (c : Call τ) : Prop := ∀ c', ReflTransGen (Calls types) c c' → ¬ Stalls types c'

theorem Safe.calls {c' : Call τ} (safe : Safe types c) (calls : Calls types c c') : Safe types c' :=
  fun c'' reached => safe c'' (.head calls reached)

private theorem next_in {atEnd : Except (DecodeError τ) (List Val)} (ends : atEnd ≠ .error .outOfFuel)
    {others : Decoder τ (List Val)} (done : ¬ Out (decode types enough t tags) s) (less : enough ≤ fuel)
    (later : ∀ v s₁, decode types enough t tags s = (.ok v,s₁) → ¬ Out others s₁) :
    ¬ Out (next atEnd place (decode types fuel t tags) others) s := by
  have same := decode_extends_le less t tags s done
  rw [next_out ends,not_or]
  constructor
  · rwa [Out,same]
  · rintro ⟨v,s₁,read,out⟩
    exact later v s₁ (same ▸ read) out
/-- What some number is enough for after a read that succeeds. -/
theorem if_read {ε : Type} {r : Except ε α × Stream} {P : α → Stream → Nat → Prop} (later : ∀ v s, r = (.ok v,s) → ∃ n, P v s n) :
    ∃ n, ∀ v s, r = (.ok v,s) → P v s n := by
  obtain ⟨e | v,s⟩ := r
  · exact ⟨0,by simp⟩
  · obtain ⟨n,enough⟩ := later v s rfl
    refine ⟨n,?_⟩
    rintro v' s' ⟨⟩
    exact enough
/-- The loop over the elements of a slice ends, if each of them returns and takes something off. -/
theorem sliceElems_returns (each : ∀ s', Loops types x s s' → Returns types ⟨x,.none,s'⟩ ∧
    ¬ (OneByte types x ∧ ZeroNext s')) :
    ∃ n, ∀ fuel rounds j, n ≤ fuel → n ≤ rounds → ¬ Out (decodeSliceElems (decode types fuel x .none) rounds j) s := by
  induction measured : s.left using Nat.strong_induction_on generalizing s with
  | _ m ih =>
    obtain ⟨⟨enough,done⟩,moves⟩ := each s ⟨0,.nil s⟩
    obtain ⟨n,later⟩ := if_read (r := decode types enough x .none s) fun v s₁ read =>
      ih s₁.left (measured ▸ ((inRow_left (decode_inRow (f := element x) read)).2 _ rfl rfl).resolve_right moves)
        (fun s' ⟨i,before⟩ => each s' ⟨i+1,.cons (decode_inRow (f := element x) read) before⟩) rfl
    refine ⟨max enough n + 1,?_⟩
    intro fuel rounds j enoughFuel enoughRounds
    obtain ⟨rounds,rfl⟩ := Nat.exists_eq_add_of_le' (show 1 ≤ rounds by omega)
    rw [sliceElems_next]
    exact next_in (by simp) done (by omega) fun v s₁ read => later v s₁ read fuel rounds (j+1) (by omega) (by omega)
private theorem fields_returns (typ : τ) (fields : List (Field τ)) (each : ∀ front f back s', fields = front ++ f :: back →
    InRow types front s s' → Returns types ⟨f.typ,f.tags,s'⟩) :
    ∃ n, ∀ fuel, n ≤ fuel → ¬ Out (decodeFields typ (fun f => decode types fuel f.typ f.tags) fields) s := by
  induction fields generalizing s with
  | nil => exact ⟨0,by simp [Out,decodeFields]⟩
  | cons f fs ih =>
    obtain ⟨enough,done⟩ := each [] f fs s rfl (.nil s)
    obtain ⟨n,later⟩ := if_read (r := decode types enough f.typ f.tags s) fun v s₁ read =>
      ih fun front g back s' same before => each (f :: front) g back s' (by rw [same]; rfl) (.cons (decode_inRow read) before)
    refine ⟨max enough n,?_⟩
    intro fuel enoughFuel
    rw [fields_next]
    exact next_in (by simp) done (by omega) fun v s₁ read => later v s₁ read fuel (by omega)

private theorem optional_returns (shape : types t = .ptr x) (notBig : isBigInt types x = false)
    (nilOK : tags.nilOK = true) (inner : ∀ k size s₁, s.kind = (.ok (k,size),s₁) → ¬ (size = 0 ∧ k ≠ .Byte) →
      Returns types ⟨x,.none,s₁⟩) : Returns types ⟨t,tags,s⟩ := by
  have value (head : Kind × Nat) (s₁ : Stream) (found : s.kind = (.ok head,s₁)) :
      ∃ n, ¬ (head.2 = 0 ∧ head.1 ≠ .Byte) → ¬ Out (decode types n x .none) s₁ := by
    by_cases none : head.2 = 0 ∧ head.1 ≠ .Byte
    · exact ⟨0,fun some => absurd none some⟩
    · exact (inner head.1 head.2 s₁ found none).imp fun n done _ => done
  obtain ⟨enough,done⟩ := if_read value
  refine ⟨enough+1,?_⟩
  rw [decode_optional shape notBig nilOK,optionalPtr_out]
  rintro ⟨k,size,s₁,found,some,out⟩
  exact done (k,size) s₁ found some out

section
variable {n : Nat} (less : ∀ c : Call τ, c.stream.left < n → Safe types c → Returns types c)
include less

/-- The elements of a slice return, if all calls with less on the stream do. -/
theorem elements_return (safe : Safe types c) (elements : Elements types c x s₁) (shorter : s₁.left < n) :
    ∃ n, ∀ fuel rounds j, n ≤ fuel → n ≤ rounds → ¬ Out (decodeSliceElems (decode types fuel x .none) rounds j) s₁ := by
  refine sliceElems_returns ?_
  rintro s' ⟨i,before⟩
  constructor
  · exact less _ ((inRow_left before).1.trans_lt shorter) (safe.calls (.element elements ⟨i,before⟩))
  · intro stuck
    exact safe c .refl (.inl ⟨x,s₁,s',elements,⟨i,before⟩,stuck⟩)
private theorem heads_return (safe : Safe types c) (heads : Heads types c x size s₁) (inside : c.stream.left ≤ n) : Returns types c := by
  by_cases empty : size = 0
  · exact ⟨1,by rw [heads_out heads]; simp [empty]⟩
  · obtain ⟨enough,done⟩ := elements_return less safe (.list heads empty) ((heads_left heads).trans_le inside)
    refine ⟨enough+1,?_⟩
    rw [heads_out heads]
    exact fun out => done enough enough 0 le_rfl le_rfl out.2
/-- A call with a head of its own returns, if all calls with less on the stream do and its pointers have an end. -/
theorem headed_returns {m : Nat} (grounded : pointers types m t = true)
    (headed : tailed types t tags = false) (inside : s.left ≤ n) (safe : Safe types ⟨t,tags,s⟩) :
    Returns types ⟨t,tags,s⟩ := by
  induction m generalizing t tags s with
  | zero => simp [pointers] at grounded
  | succ m ih =>
    cases isLeaf : leaf types t with
    | some elemdec => exact ⟨1,by rw [decode_leaf isLeaf]; exact (leaf_single isLeaf s).fuel⟩
    | none =>
      rcases shape_cases isLeaf with ⟨x,shape,notByte⟩ | ⟨fields,fixed⟩ | ⟨x,shape,notBig⟩ | shape
      · have noTail : tags.tail = false := by simpa [tailed,shape,notByte] using headed
        rcases entered : s.list with ⟨e | size,s₁⟩
        · exact ⟨1,by rw [decode_slice shape notByte noTail,listSlice_out]; simp [entered]⟩
        · exact heads_return less safe (.slice shape notByte noTail entered) inside
      · obtain ⟨enough,done⟩ := if_read (r := s.list) fun size s₁ list =>
          fields_returns t fields fun front f back s' same before => less ⟨f.typ,f.tags,s'⟩
            ((inRow_left before).1.trans_lt ((s.list_acts.takes list).trans_le inside)) (safe.calls (.part (same ▸ fixed) list before))
        refine ⟨enough+1,?_⟩
        rw [fixed_out fixed]
        rintro ⟨size,s₁,list,out⟩
        exact done size s₁ list enough le_rfl out
      · have grounded' : pointers types m x = true := by simpa [pointers,shape,notBig] using grounded
        cases nilOK : tags.nilOK with
        | false =>
          obtain ⟨enough,done⟩ := ih grounded' rfl inside (safe.calls (.ptr shape notBig nilOK))
          refine ⟨enough+1,?_⟩
          rw [decode_ptr shape notBig nilOK,decodePtr_out]
          exact done
        | true =>
          refine optional_returns shape notBig nilOK ?_
          intro k size s₁ found some
          exact ih grounded' rfl ((kind_left found).2.1.trans inside) (safe.calls (.optional shape notBig nilOK found some))
      · rcases found : s.kind with ⟨e | ⟨k,size⟩,s₁⟩
        · exact ⟨1,by rw [decode_iface shape,interface_out]; simp [found]⟩
        by_cases isList : k = .List
        · subst isList
          rcases entered : s₁.list with ⟨e | size,s₂⟩
          · exact ⟨1,by rw [decode_iface shape,interface_out]; simp [found,listSlice_out,entered]⟩
          · exact heads_return less safe (.iface shape found entered) inside
        · exact ⟨1,by rw [decode_iface shape,interface_out]; simp [found,isList]⟩

end

private theorem safe_grounded (safe : Safe types c) (noNil : c.tags.nilOK = false) : ∃ m, pointers types m c.typ = true := by
  by_contra none
  simp only [not_exists,Bool.not_eq_true] at none
  exact safe c .refl (.inr ⟨noNil,none⟩)
/-- Every call that does not get to one that is stuck returns. -/
theorem safe_returns (safe : Safe types c) : Returns types c := by
  induction measured : c.stream.left using Nat.strong_induction_on generalizing c with
  | _ n ih =>
    have less (c : Call τ) (shorter : c.stream.left < n) (safe : Safe types c) : Returns types c := ih _ shorter safe rfl
    obtain ⟨t,tags,s⟩ := c
    have inside : s.left ≤ n := measured.le
    have plain {x : τ} {s' : Stream} (inside : s'.left ≤ n) (safe : Safe types ⟨x,.none,s'⟩) : Returns types ⟨x,.none,s'⟩ := by
      obtain ⟨m,grounded⟩ := safe_grounded safe rfl
      exact headed_returns less grounded rfl inside safe
    cases headed : tailed types t tags with
    | true =>
      -- The elements stand on the stream of the call itself.
      simp only [tailed,Bool.and_eq_true] at headed
      obtain ⟨tail,isSlice⟩ := headed
      cases shape : types t with
      | slice x =>
        have notByte : isByte types x = false := by simpa [shape] using isSlice
        have elements : Elements types ⟨t,tags,s⟩ x s := .tail ⟨shape,notByte,tail⟩
        obtain ⟨enough,done⟩ := sliceElems_returns (x := x) (s := s) fun s' loops =>
          ⟨plain ((inRow_left loops.choose_spec).1.trans inside) (safe.calls (.element elements loops)),
            fun stuck => safe _ .refl (.inl ⟨x,s,s',elements,loops,stuck⟩)⟩
        refine ⟨enough+1,?_⟩
        rw [decode_tailSlice shape notByte tail,tailSlice_out]
        exact done enough enough 0 le_rfl le_rfl
      | _ => simp [shape] at isSlice
    | false =>
      cases nilOK : tags.nilOK with
      | false =>
        obtain ⟨m,grounded⟩ := safe_grounded safe nilOK
        exact headed_returns less grounded headed inside safe
      | true =>
        by_cases pointer : ∃ x, types t = .ptr x ∧ isBigInt types x = false
        · obtain ⟨x,shape,notBig⟩ := pointer
          refine optional_returns shape notBig nilOK ?_
          intro k size s₁ found some
          exact plain ((kind_left found).2.1.trans inside) (safe.calls (.optional shape notBig nilOK found some))
        · exact headed_returns less (pointers_one pointer) headed inside safe
/-- A call does not return if and only if it gets to one that is stuck. -/
theorem returns_iff : Returns types c ↔ ∀ c', ReflTransGen (Calls types) c c' → ¬ Stalls types c' := by
  constructor
  · rintro ⟨fuel,done⟩ c' reached stalls
    exact done (reached_hang reached stalls fuel)
  · exact safe_returns

/-- `DecodeBytes` comes to a result, which is the same for all numbers of calls and rounds that are enough. -/
def Terminates (types : τ → Shape τ) (typ : τ) (b : Bytes) : Prop :=
  ∃ r, r ≠ .error .outOfFuel ∧ ∀ᶠ fuel in atTop, decodeBytes types fuel typ b = r

private theorem decodeBytes_out :
    decodeBytes types fuel typ b = .error .outOfFuel ↔ Out (decode types fuel typ .none) (newStream b) := by
  simp only [decodeBytes,streamDecode,Out]
  cases read : decode types fuel typ .none (newStream b) with
  | mk r s =>
    cases r with
    | error e => cases e <;> simp
    | ok v =>
      simp only [reduceCtorEq,iff_false]
      split <;> simp
private theorem terminates_iff : Terminates types typ b ↔ Returns types ⟨typ,.none,newStream b⟩ := by
  constructor
  · rintro ⟨r,notOut,later⟩
    obtain ⟨fuel,result⟩ := later.exists
    exact ⟨fuel,fun out => notOut (result ▸ decodeBytes_out.mpr out)⟩
  · rintro ⟨enough,done⟩
    refine ⟨decodeBytes types enough typ b,mt decodeBytes_out.mp done,?_⟩
    filter_upwards [eventually_ge_atTop enough] with fuel less
    simp [decodeBytes,streamDecode,decode_extends_le less typ .none _ done]

/-- An element that is decoded takes at least a byte off, except for a one-byte array at a zero byte. -/
theorem takes_iff : (∀ fuel v s', decode types fuel t .none s = (.ok v,s') → s'.left < s.left) ↔
    ¬ (OneByte types t ∧ ZeroNext s) := by
  constructor
  · rintro takes ⟨one,size,s₁,found,zero⟩
    obtain ⟨fuel,v,read⟩ := oneByte_reads one found zero
    have same := (kind_left found).2.2 rfl
    exact absurd (takes fuel v s₁ read) (by omega)
  · intro moves fuel v s' read
    exact ((inRow_left (decode_inRow (f := element t) read)).2 _ rfl rfl).resolve_right moves

/-- Elements make progress unless they are one-byte arrays that meet a zero byte, and `DecodeBytes` returns for exactly the
    types and inputs that do not lead it to a slice of such elements, or to pointers without end. -/
theorem decodeBytes_terminates_iff (types : τ → Shape τ) :
    (∀ t s, (∀ fuel v s', decode types fuel t .none s = (.ok v,s') → s'.left < s.left) ↔ ¬ (OneByte types t ∧ ZeroNext s)) ∧
      ∀ typ b, Terminates types typ b ↔
        ∀ c, ReflTransGen (Calls types) ⟨typ,.none,newStream b⟩ c → ¬ Stalls types c :=
  ⟨fun _ _ => takes_iff,fun _ _ => terminates_iff.trans returns_iff⟩

end

/-- The types `[][1]byte`, `[1]byte` and `byte`. -/
inductive OneByteSlice where
  | slice
  | array
  | byte
def oneByteSlice : OneByteSlice → Shape OneByteSlice
  | .slice => .slice .array
  | .array => .array 1 .byte
  | .byte => .uint 1

/-- A list of one zero byte is decoded for ever. -/
theorem zero_byte_hangs : ¬ Terminates oneByteSlice .slice [0xC1,0x00] := by
  have elements : Elements oneByteSlice ⟨.slice,.none,newStream [0xC1,0x00]⟩ .array
      (newStream [0xC1,0x00]).list.2 := .list (.slice rfl rfl rfl (show _ = (Except.ok 1,_) from rfl)) (by simp)
  have zero : ZeroNext (newStream [0xC1,0x00]).list.2 := ⟨0,_,rfl,rfl⟩
  rw [terminates_iff]
  rintro ⟨fuel,done⟩
  exact done (elements_hang elements (oneByte_loops (.array rfl rfl) zero) fuel)

end Canchain.Rlp
