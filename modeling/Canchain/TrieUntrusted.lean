import Canchain.RlpParsers
import Canchain.TrieSync
import Canchain.Keccak

/-!
`decodeNode` on bytes from outside. Every slice that `rlp.Split` and `rlp.CountValues` take is
in range and the recursion ends, but `compactToHex` cuts two nibbles off the empty key. So
decoding panics exactly on buffers that lead it to a short node with an empty key.
-/
namespace Canchain.TrieUntrusted
open Rlp Common HexKeys TrieNode Sweep Except Prod

/-- The number of items that `decodeNode` switches on. -/
def count (elems : Bytes) : Nat := (countValues elems.length elems).toOption.getD 0
/-- A list small enough to be an embedded node. -/
def IsEmbedded (buf : Bytes) : Prop := ∃ val rest, split buf = .ok (.List,val,rest) ∧ buf.length - rest.length ≤ 32
/-- Nothing, a hash or an embedded node is in front of the buffer, and this is what is left behind it. -/
inductive IsRef (node : Bytes → Prop) : Bytes → Bytes → Prop
  | string {val buf rest : Bytes} (found : split buf = .ok (.String,val,rest)) (size : val.length = 0 ∨ val.length = 32) :
      IsRef node buf rest
  | embedded {val buf rest : Bytes} (found : split buf = .ok (.List,val,rest)) (small : buf.length - rest.length ≤ 32)
      (inner : node buf) : IsRef node buf rest
/-- So many references, and this is what is left then. -/
inductive After (node : Bytes → Prop) : Nat → Bytes → Bytes → Prop
  | zero (elems : Bytes) : After node 0 elems elems
  | succ {i : Nat} {elems rest last : Bytes} (ref : IsRef node elems rest) (more : After node i rest last) :
      After node (i+1) elems last
/-- The bytes of a node. -/
inductive IsNode : Bytes → Prop
  | leaf {buf elems rest kbuf inner val last : Bytes} {key : Hex} (list : splitList buf = .ok (elems,rest))
      (two : count elems = 2) (first : splitString elems = .ok (kbuf,inner)) (isKey : compactToHex kbuf = some key)
      (ends : hasTerm key = true) (second : splitString inner = .ok (val,last)) : IsNode buf
  | extension {buf elems rest kbuf inner last : Bytes} {key : Hex} (list : splitList buf = .ok (elems,rest))
      (two : count elems = 2) (first : splitString elems = .ok (kbuf,inner)) (isKey : compactToHex kbuf = some key)
      (goesOn : hasTerm key = false) (second : IsRef IsNode inner last) : IsNode buf
  | branch {buf elems rest inner val last : Bytes} (list : splitList buf = .ok (elems,rest)) (many : count elems = 17)
      (children : After IsNode 16 elems inner) (value : splitString inner = .ok (val,last)) : IsNode buf
/-- Behind an extension's key or the first children of a branch, there is an embedded node. -/
def Embeds (node : Bytes → Prop) (buf inner : Bytes) : Prop := IsEmbedded inner ∧ ∃ elems rest, splitList buf = .ok (elems,rest) ∧
  ((count elems = 2 ∧ ∃ kbuf key, splitString elems = .ok (kbuf,inner) ∧ compactToHex kbuf = some key ∧ hasTerm key = false) ∨
    count elems = 17 ∧ ∃ i < 16, After node i elems inner)
/-- `decodeNode` of the first buffer calls itself on the second. -/
def Calls : Bytes → Bytes → Prop := Embeds IsNode
/-- A short node without a key. -/
def EmptyKey (buf : Bytes) : Prop := ∃ elems rest rest', splitList buf = .ok (elems,rest) ∧ count elems = 2 ∧
  splitString elems = .ok ([],rest')

/-- What `Split` and `CountValues` cut off is there. -/
theorem readKind_inside {b : Bytes} {k : Kind} {tagsize size : Nat} (read : readKind b = .ok (k,tagsize,size)) :
    tagsize + size ≤ b.length := by
  obtain ⟨head,content,rest,-,rfl,rfl,rfl⟩ := readKind_value read
  simp

section
variable {node node' : Bytes → Prop} {i : Nat} {elems last buf inner rest : Bytes}

theorem IsRef.mono (ref : IsRef node buf rest) (more : node buf → node' buf) : IsRef node' buf rest := by
  cases ref with
  | string found size => exact .string found size
  | embedded found small inner => exact .embedded found small (more inner)
private theorem isRef_shorter (ref : IsRef node buf rest) : rest.length ≤ buf.length := by
  obtain ⟨k,val,found⟩ : ∃ k val, split buf = .ok (k,val,rest) := by
    cases ref with
    | string found _ => exact ⟨_,_,found⟩
    | embedded found _ _ => exact ⟨_,_,found⟩
  have := (split_length found).1
  omega
private theorem after_zero : After node 0 elems last ↔ elems = last := by
  constructor
  · rintro ⟨⟩
    rfl
  · rintro rfl
    exact .zero elems
private theorem after_succ : After node (i+1) elems last ↔ ∃ rest, IsRef node elems rest ∧ After node i rest last := by
  constructor
  · rintro ⟨⟩
    exact ⟨_,‹_›,‹_›⟩
  · exact fun ⟨_,ref,more⟩ => .succ ref more
private theorem after_shorter (after : After node i elems last) : last.length ≤ elems.length := by
  induction after with
  | zero => exact le_rfl
  | succ ref _ ih => exact ih.trans (isRef_shorter ref)
theorem After.mono (after : After node i elems last) (more : ∀ b : Bytes, b.length ≤ elems.length → node b → node' b) :
    After node' i elems last := by
  induction after with
  | zero => exact .zero _
  | succ ref _ ih =>
    have shorter := isRef_shorter ref
    exact .succ (ref.mono (more _ le_rfl)) (ih fun b inside => more b (by omega))
/-- An embedded node is shorter than the buffer around it. -/
theorem embeds_shorter (embeds : Embeds node buf inner) : inner.length < buf.length := by
  obtain ⟨-,elems,rest,list,⟨-,kbuf,key,first,-⟩ | ⟨-,i,-,after⟩⟩ := embeds
  · have := splitList_length list
    have := splitString_length first
    omega
  · have := splitList_length list
    have := after_shorter after
    omega
theorem Embeds.mono (embeds : Embeds node buf inner) (more : ∀ b : Bytes, b.length < buf.length → node b → node' b) :
    Embeds node' buf inner := by
  obtain ⟨small,elems,rest,list,form⟩ := embeds
  have size := (splitList_length list).1
  refine ⟨small,elems,rest,list,form.imp_right fun ⟨many,i,inside,after⟩ => ⟨many,i,inside,?_⟩⟩
  exact after.mono fun b inside => more b (by omega)

end
variable {fuel : Nat} {e : DecodeError}

section
variable {d d' : Bytes → Except DecodeError Node} {hash : Option Hash} {buf elems rest last inner : Bytes} {gen : UInt16}

/-! ### What is decoded -/

/-- The decoder reads a node. -/
def Reads (d : Bytes → Except DecodeError Node) (buf : Bytes) : Prop := ∃ n, d buf = .ok n

private theorem decodeRef_ok : (∃ n, decodeRef d buf = .ok (n,rest)) ↔ IsRef (Reads d) buf rest := by
  constructor
  · rintro ⟨n,read⟩
    obtain ⟨kind,val,found,⟨rfl,small,inner⟩ | ⟨rfl,⟨empty,-⟩ | ⟨long,-⟩⟩⟩ := decodeRef_inv read
    · exact .embedded found small ⟨n,inner⟩
    · exact .string found (.inl empty)
    · exact .string found (.inr long)
  · rintro (⟨found,empty | long⟩ | ⟨found,small,n,inner⟩)
    · exact ⟨.nil,by simp [decodeRef,found,empty]⟩
    · exact ⟨.hash ⟨_,long⟩,by simp [decodeRef,found,long]⟩
    · exact ⟨n,by simp [decodeRef,found,inner,Except.map,Nat.not_lt.mpr small]⟩
private theorem decodeShort_ok : Reads (decodeShort d hash · gen) elems ↔ ∃ kbuf key inner, splitString elems = .ok (kbuf,inner) ∧
    compactToHex kbuf = some key ∧ (hasTerm key = true ∧ (∃ val last, splitString inner = .ok (val,last)) ∨
      hasTerm key = false ∧ ∃ last, IsRef (Reads d) inner last) := by
  simp only [Reads,← decodeRef_ok]
  cases first : splitString elems with
  | error e => simp [decodeShort,first]
  | ok r =>
    obtain ⟨kbuf,inner⟩ := r
    cases key : compactToHex kbuf with
    | none => simp [decodeShort,first,key]
    | some k =>
      cases term : hasTerm k with
      | true => rcases value : splitString inner with e | ⟨val,last⟩ <;> simp [decodeShort,first,key,term,value]
      | false => rcases ref : decodeRef d inner with e | ⟨m,last⟩ <;> simp [decodeShort,first,key,term,ref]
private theorem sweep_cons {n : Nat} {ctx : Fin (n+1) → String} {m : Node} (read : decodeRef d elems = .ok (m,rest)) :
    sweep (n+1) (fun i e => (decodeRef d e).mapError (wrapError (ctx i))) elems =
      (sweep n (fun i e => (decodeRef d e).mapError (wrapError (ctx i.succ))) rest).map fun r => (Fin.cons m r.1,r.2) := by
  have first : (decodeRef d elems).mapError (wrapError (ctx 0)) = .ok (m,rest) := by rw [read]; rfl
  simp only [sweep,first]
  cases sweep n _ rest <;> rfl
private theorem sweep_after {n : Nat} {ctx : Fin n → String} :
    (∃ g, sweep n (fun i e => (decodeRef d e).mapError (wrapError (ctx i))) elems = .ok (g,last)) ↔ After (Reads d) n elems last := by
  induction n generalizing elems with
  | zero => simp [sweep,after_zero]
  | succ n ih =>
    have later (rest : Bytes) : (∃ g, sweep n (fun i e => (decodeRef d e).mapError (wrapError (ctx i.succ))) rest = .ok (g,last)) ↔
        After (Reads d) n rest last := ih
    simp only [after_succ,← decodeRef_ok,← later]
    rcases first : decodeRef d elems with e | ⟨m,rest⟩
    · simp [sweep,first,Except.mapError]
    · simp only [sweep_cons first,ok.injEq,mk.injEq,Runs.map_ok]
      simp
private theorem decodeFull_ok : Reads (decodeFull d hash · gen) elems ↔
    ∃ inner val last, After (Reads d) 16 elems inner ∧ splitString inner = .ok (val,last) := by
  have swept (inner : Bytes) : (∃ g, sweep 16 (fun i e => (decodeRef d e).mapError (wrapError ("[" ++ toString i.val ++ "]"))) elems =
      .ok (g,inner)) ↔ After (Reads d) 16 elems inner := sweep_after
  simp only [Reads,decodeFull,← swept]
  rcases sweep 16 _ elems with e | ⟨children,inner⟩
  · simp
  · rcases value : splitString inner with e | ⟨val,last⟩ <;> simp [value]
/-- A property of results that no returned error has, whatever its context. -/
structure Sharp (good : Except DecodeError Node → Prop) : Prop where
  soft : ∀ what stack, ¬ good (.error (.fault what stack))
  wraps : ∀ ctx r, good (r.mapError (wrapError ctx)) ↔ good r

private theorem sharp_ok : Sharp fun r => ∃ n, r = .ok n := by
  refine ⟨by simp,fun ctx r => ?_⟩
  cases r <;> simp [Except.mapError]
/-- One call: a list of two or of seventeen items. -/
theorem Sharp.decodeNode {good : Except DecodeError Node → Prop} (sharp : Sharp good) :
    good (decodeNode (fuel+1) hash buf gen) ↔ ∃ elems rest, splitList buf = .ok (elems,rest) ∧
      (count elems = 2 ∧ good (decodeShort (decodeNode fuel none · gen) hash elems gen) ∨
        count elems = 17 ∧ good (decodeFull (decodeNode fuel none · gen) hash elems gen)) := by
  by_cases some : buf.length = 0
  · obtain rfl := List.length_eq_zero_iff.mp some
    simp [TrieNode.decodeNode,sharp.soft,splitList,split,readKind]
  rcases list : splitList buf with e' | ⟨elems,rest⟩
  · simp [TrieNode.decodeNode,some,list,sharp.soft]
  · simp only [TrieNode.decodeNode,some,if_false,list,ok.injEq,mk.injEq]
    rw [show (countValues elems.length elems).toOption.getD 0 = count elems from rfl]
    split
    · rename_i two
      simp [two,sharp.wraps]
    · rename_i many
      simp [many,sharp.wraps]
    · rename_i notTwo notMany
      refine iff_of_false (sharp.soft _ _) ?_
      rintro ⟨_,_,⟨rfl,rfl⟩,⟨two,-⟩ | ⟨many,-⟩⟩
      · exact notTwo two
      · exact notMany many
/-- `decodeNode` returns a node for exactly the bytes of one. -/
theorem decodeNode_ok (enough : buf.length < fuel) : Reads (decodeNode fuel none · gen) buf ↔ IsNode buf := by
  induction fuel generalizing buf with
  | zero => omega
  | succ fuel ih =>
    have inside {elems rest b : Bytes} (list : splitList buf = .ok (elems,rest)) (shorter : b.length ≤ elems.length) :
        Reads (decodeNode fuel none · gen) b ↔ IsNode b := by
      have size := (splitList_length list).1
      exact ih (by omega)
    have step : Reads (decodeNode (fuel+1) none · gen) buf ↔ ∃ elems rest, splitList buf = .ok (elems,rest) ∧
        (count elems = 2 ∧ Reads (decodeShort (decodeNode fuel none · gen) none · gen) elems ∨
          count elems = 17 ∧ Reads (decodeFull (decodeNode fuel none · gen) none · gen) elems) := sharp_ok.decodeNode
    rw [step]
    simp only [decodeShort_ok,decodeFull_ok]
    constructor
    · rintro ⟨elems,rest,list,⟨two,kbuf,key,inner,first,isKey,⟨ends,val,last,second⟩ | ⟨goesOn,last,second⟩⟩ |
        ⟨many,inner,val,last,children,value⟩⟩
      · exact .leaf list two first isKey ends second
      · have size := splitString_length first
        exact .extension list two first isKey goesOn (second.mono (inside list (by omega)).mp)
      · exact .branch list many (children.mono fun b shorter => (inside list shorter).mp) value
    · intro isNode
      cases isNode with
      | leaf list two first isKey ends second => exact ⟨_,_,list,.inl ⟨two,_,_,_,first,isKey,.inl ⟨ends,_,_,second⟩⟩⟩
      | extension list two first isKey goesOn second =>
        have size := splitString_length first
        exact ⟨_,_,list,.inl ⟨two,_,_,_,first,isKey,.inr ⟨goesOn,_,second.mono (inside list (by omega)).mpr⟩⟩⟩
      | branch list many children value =>
        exact ⟨_,_,list,.inr ⟨many,_,_,_,children.mono fun b shorter => (inside list shorter).mpr,value⟩⟩

/-! ### Where decoding panics -/

/-- A panic, or a recursion that was cut off: not an error that is returned. -/
def Hard (e : DecodeError) : Prop := ∀ what stack, e ≠ .fault what stack

private theorem hard_panic (p : Panic) : Hard (.panicked p) := nofun
private theorem wrapError_hard {ctx : String} {e' : DecodeError} (hard : Hard e') : wrapError ctx e = e' ↔ e = e' := by
  cases e with
  | fault what stack =>
    constructor
    · exact fun same => absurd same.symm (hard _ _)
    · exact fun same => absurd same.symm (hard _ _)
  | panicked p => rfl
  | outOfFuel => rfl

private theorem decodeRef_hard (hard : Hard e) : decodeRef d buf = .error e ↔ IsEmbedded buf ∧ d buf = .error e := by
  have soft : ∀ what, (.fault what [] : DecodeError) ≠ e := fun what same => hard _ _ same.symm
  unfold decodeRef IsEmbedded
  cases found : split buf with
  | error e => simp [soft]
  | ok r =>
    obtain ⟨kind,val,rest⟩ := r
    by_cases isList : kind = .List
    · subst isList
      by_cases small : buf.length - rest.length > 32
      · simp [small,soft]
        omega
      · cases inner : d buf with
        | error e => simp [small,Except.map]; omega
        | ok n => simp [small,Except.map]
    · simp only [isList,if_false]
      repeat' split
      all_goals simp [isList,soft]
private theorem decodeShort_hard (hard : Hard e) : decodeShort d hash elems gen = .error e ↔
    (∃ rest, splitString elems = .ok ([],rest) ∧ e = .panicked .sliceOutOfRange) ∨
      ∃ kbuf key inner, splitString elems = .ok (kbuf,inner) ∧ compactToHex kbuf = some key ∧ hasTerm key = false ∧
        decodeRef d inner = .error e := by
  have soft : ∀ what, (.fault what [] : DecodeError) ≠ e := fun what same => hard _ _ same.symm
  cases first : splitString elems with
  | error e => simp [decodeShort,first,soft]
  | ok r =>
    obtain ⟨kbuf,inner⟩ := r
    cases key : compactToHex kbuf with
    | none =>
      obtain rfl := compactToHex_none.mp key
      simp [decodeShort,first,key,@eq_comm _ e]
    | some k =>
      have nonempty : kbuf ≠ [] := fun empty => by simp [compactToHex_none.mpr empty] at key
      cases term : hasTerm k with
      | true => rcases value : splitString inner with e | ⟨val,last⟩ <;> simp [decodeShort,first,key,term,value,soft,nonempty]
      | false =>
        rcases ref : decodeRef d inner with e | ⟨m,last⟩ <;> simp [decodeShort,first,key,term,ref,wrapError_hard hard,nonempty]
private theorem sharp_hard (hard : Hard e) : Sharp (· = .error e) := by
  refine ⟨fun what stack same => hard _ _ (error.inj same).symm,fun ctx r => ?_⟩
  cases r <;> simp [Except.mapError,wrapError_hard hard]
private theorem sweep_hard (hard : Hard e) {n : Nat} {ctx : Fin n → String} :
    sweep n (fun i e => (decodeRef d e).mapError (wrapError (ctx i))) elems = .error e ↔
      ∃ i < n, ∃ inner, After (Reads d) i elems inner ∧ decodeRef d inner = .error e := by
  induction n generalizing elems with
  | zero => simp [sweep]
  | succ n ih =>
    rw [Nat.exists_lt_succ_left]
    simp only [after_succ,after_zero,← decodeRef_ok]
    rcases first : decodeRef d elems with e' | ⟨m,rest⟩
    · simp [sweep,first,Except.mapError,wrapError_hard hard]
    · have later {r : Except DecodeError ((Fin n → Node) × Bytes)} :
          (r.map fun r => ((Fin.cons m r.1 : Fin (n+1) → Node),r.2)) = .error e ↔ r = .error e := by
        cases r <;> simp [Except.map]
      rw [sweep_cons first,later,ih]
      simp [first]
private theorem decodeFull_hard (hard : Hard e) : decodeFull d hash elems gen = .error e ↔
    ∃ i < 16, ∃ inner, After (Reads d) i elems inner ∧ IsEmbedded inner ∧ d inner = .error e := by
  have step : decodeFull d hash elems gen = .error e ↔
      sweep 16 (fun i e => (decodeRef d e).mapError (wrapError ("[" ++ toString i.val ++ "]"))) elems = .error e := by
    have soft : ∀ what, (.fault what [] : DecodeError) ≠ e := fun what same => hard _ _ same.symm
    rw [decodeFull]
    rcases sweep 16 _ elems with e' | ⟨children,inner⟩
    · simp
    · rcases value : splitString inner with e' | ⟨val,last⟩ <;> simp [value,soft]
  rw [step,sweep_hard hard]
  simp [decodeRef_hard hard]

/-- One call: a short node without a key, or a failure of a call further in. -/
theorem decodeNode_hard (hard : Hard e) (enough : buf.length ≤ fuel) : decodeNode (fuel+1) hash buf gen = .error e ↔
    (EmptyKey buf ∧ e = .panicked .sliceOutOfRange) ∨ ∃ inner, Calls buf inner ∧ decodeNode fuel none inner gen = .error e := by
  have same (node node' : Bytes → Prop) (inner : Bytes) (more : ∀ b : Bytes, b.length < fuel → node b → node' b)
      (embeds : Embeds node buf inner) : Embeds node' buf inner := embeds.mono fun b shorter => more b (by omega)
  have calls (inner : Bytes) : Calls buf inner ↔ Embeds (Reads (decodeNode fuel none · gen)) buf inner :=
    ⟨same _ _ inner fun b shorter => (decodeNode_ok shorter).mpr,same _ _ inner fun b shorter => (decodeNode_ok shorter).mp⟩
  rw [(sharp_hard hard).decodeNode]
  simp only [decodeShort_hard hard,decodeFull_hard hard,decodeRef_hard hard,calls]
  constructor
  · rintro ⟨elems,rest,list,⟨two,⟨rest',key,rfl⟩ | ⟨kbuf,key,inner,first,isKey,goesOn,small,failed⟩⟩ |
      ⟨many,i,inside,inner,after,small,failed⟩⟩
    · exact .inl ⟨⟨elems,rest,rest',list,two,key⟩,rfl⟩
    · exact .inr ⟨inner,⟨small,elems,rest,list,.inl ⟨two,kbuf,key,first,isKey,goesOn⟩⟩,failed⟩
    · exact .inr ⟨inner,⟨small,elems,rest,list,.inr ⟨many,i,inside,after⟩⟩,failed⟩
  · rintro (⟨⟨elems,rest,rest',list,two,key⟩,rfl⟩ |
      ⟨inner,⟨small,elems,rest,list,⟨two,kbuf,key,first,isKey,goesOn⟩ | ⟨many,i,inside,after⟩⟩,failed⟩)
    · exact ⟨elems,rest,list,.inl ⟨two,.inl ⟨rest',key,rfl⟩⟩⟩
    · exact ⟨elems,rest,list,.inl ⟨two,.inr ⟨kbuf,key,inner,first,isKey,goesOn,small,failed⟩⟩⟩
    · exact ⟨elems,rest,list,.inr ⟨many,i,inside,inner,after,small,failed⟩⟩
private theorem decodeNode_ends (enough : buf.length < fuel) : decodeNode fuel hash buf gen ≠ .error .outOfFuel := by
  induction fuel generalizing buf hash with
  | zero => omega
  | succ fuel ih =>
    have hard : Hard .outOfFuel := fun _ _ => nofun
    rw [ne_eq,decodeNode_hard hard (by omega)]
    rintro (⟨-,same⟩ | ⟨inner,calls,failed⟩)
    · cases same
    · have shorter := embeds_shorter calls
      exact ih (by omega) failed
private theorem decodeNode_panics (enough : buf.length < fuel) : (∃ p, decodeNode fuel hash buf gen = .error (.panicked p)) ↔
    ∃ inner, Relation.ReflTransGen Calls buf inner ∧ EmptyKey inner := by
  induction fuel generalizing buf hash with
  | zero => omega
  | succ fuel ih =>
    simp only [decodeNode_hard (hard_panic _) (show buf.length ≤ fuel by omega)]
    constructor
    · rintro ⟨p,⟨empty,-⟩ | ⟨inner,calls,failed⟩⟩
      · exact ⟨buf,.refl,empty⟩
      · have shorter := embeds_shorter calls
        obtain ⟨last,reached,empty⟩ := (ih (by omega)).mp ⟨p,failed⟩
        exact ⟨last,.head calls reached,empty⟩
    · rintro ⟨last,reached,empty⟩
      rcases reached.cases_head with rfl | ⟨inner,calls,reached⟩
      · exact ⟨_,.inl ⟨empty,rfl⟩⟩
      · have shorter := embeds_shorter calls
        obtain ⟨p,failed⟩ : ∃ p, decodeNode fuel none inner gen = .error (.panicked p) :=
          (ih (by omega)).mpr ⟨last,reached,empty⟩
        exact ⟨p,.inr ⟨inner,calls,failed⟩⟩

end

/-- `decodeNode` ends on every buffer, and what it cuts off is there. It panics exactly on those that lead it to a short node
    without a key. -/
theorem decodeNode_panics_iff (hash : Option Hash) (buf : Bytes) (gen : UInt16) :
    decodeNode (buf.length+1) hash buf gen ≠ .error .outOfFuel ∧
    (∀ b kind tagsize size, readKind b = .ok (kind,tagsize,size) → tagsize + size ≤ b.length) ∧
    ((∃ p, decodeNode (buf.length+1) hash buf gen = .error (.panicked p)) ↔
      ∃ inner, Relation.ReflTransGen Calls buf inner ∧ EmptyKey inner) :=
  ⟨decodeNode_ends (by omega),fun _ _ _ _ => readKind_inside,decodeNode_panics (by omega)⟩

/-- A list of two empty strings. -/
def noKey : Bytes := [0xc2,0x80,0x80]
def noKeyHash : Hash := bytesToHash (putint 0x3947d64d838a72a40582ad1ae01c10fd900939d1eab56ee373ea5e2bd4e2cfb3)

/-- A peer can send it for a node that is asked for. -/
theorem noKey_panics : Keccak.keccak256 noKey = noKeyHash ∧
    decodeNode (noKey.length+1) (some noKeyHash) noKey 0 = .error (.panicked .sliceOutOfRange) ∧
    (TrieSync.Sync.newSync noKeyHash (fun _ => none) (none : Option Unit)).bind
      (TrieSync.Sync.process (fun _ _ => none) · [⟨noKeyHash,noKey⟩]) = .error (.decodeNode .sliceOutOfRange) := by
  refine ⟨?_,?_,?_⟩
  · rw [Keccak.keccak_packed]
    decide +kernel
  · have lists : EmptyKey noKey := ⟨[0x80,0x80],[],[0x80],by decide +kernel,by decide +kernel,by decide +kernel⟩
    exact (decodeNode_hard (hard_panic _) le_rfl).mpr (.inl ⟨lists,rfl⟩)
  · have evaluated : ((TrieSync.Sync.newSync noKeyHash (fun _ => none) (none : Option Unit)).bind
        (TrieSync.Sync.process (fun _ _ => none) · [⟨noKeyHash,noKey⟩])).map (fun _ => ()) = .error (.decodeNode .sliceOutOfRange) := by
      decide +kernel
    cases run : (TrieSync.Sync.newSync noKeyHash (fun _ => none) (none : Option Unit)).bind
        (TrieSync.Sync.process (fun _ _ => none) · [⟨noKeyHash,noKey⟩]) with
    | error e => rw [run] at evaluated; exact congrArg Except.error (error.inj evaluated)
    | ok r => rw [run] at evaluated; cases evaluated

end Canchain.TrieUntrusted
