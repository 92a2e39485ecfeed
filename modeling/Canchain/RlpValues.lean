import Mathlib.Order.Filter.AtTopBot.Basic
import Canchain.RlpTypes

/-!
Values of Go types. `Denotes` says which values a type has and what RLP makes of them. The
writers write it and the decoders read it back, with one exception: a zero byte in an array of
length one stays in the look-ahead. A value is read back if nothing stands behind such an array
and its nil pointers can be told from what they point to (`Clean`).
-/
namespace Canchain.Rlp
open List Rlp.Stream

open Filter

/-- Induction over a value, with all elements of a list or a struct. -/
theorem Val.induct {P : Val → Prop} (bool : ∀ b, P (.bool b)) (uint : ∀ n, P (.uint n)) (big : ∀ i, P (.big i))
    (string : ∀ b, P (.string b)) (bytes : ∀ b, P (.bytes b)) (list : ∀ vs, (∀ v ∈ vs, P v) → P (.list vs))
    (struct : ∀ vs, (∀ v ∈ vs, P v) → P (.struct vs)) (ptr : ∀ v, P v → P (.ptr v)) (nil : P .nil) : ∀ v, P v :=
  @Val.rec P (fun vs => ∀ v ∈ vs, P v) bool uint big string bytes list struct ptr nil
    (fun _ member => by cases member)
    (fun v vs first others w member => by
      rcases mem_cons.mp member with rfl | member
      · exact first
      · exact others w member)

section
variable {τ : Type} (types : τ → Shape τ)

/-- The pointers from a type on end after at most `n` of them. -/
def pointers : Nat → τ → Bool
  | 0, _ => false
  | n+1, t =>
    match types t with
    | .ptr e => isBigInt types e || pointers n e
    | _ => true
/-- No type is a pointer to a pointer without end. -/
def Grounded : Prop := ∀ t, ∃ n, pointers types n t = true

/-- A slice that is written without a head of its own. -/
def tailed (t : τ) (tags : Tags) : Bool :=
  tags.tail && match types t with
    | .slice e => !isByte types e
    | _ => false
/-- What is written for a nil pointer to the type. -/
def nilBytes : Nat → τ → Option Bytes
  | 0, _ => none
  | fuel+1, elem =>
    match types elem with
    | .array _ e => some (if isByte types e then [0x80] else [0xC0])
    | .struct _ => some [0xC0]
    | .slice e => some (if isByte types e then [0x80] else [0xC0])
    | .bool | .uint _ | .bigInt | .string => some [0x80]
    | .iface => some [0xC0]
    | .ptr e => if isBigInt types e then some [0x80] else nilBytes fuel e

mutual
/-- The value is one of the type, and this is its encoding. A nil pointer needs the tag. -/
def Denotes : Val → τ → Tags → Bytes → Prop
  | .bool b, t, _, e => types t = .bool ∧ e = encodeString (putint (if b then 1 else 0))
  | .uint n, t, _, e => ∃ size, types t = .uint size ∧ size ∈ [1,2,4,8] ∧ n < 256^size ∧ e = encodeString (putint n)
  | .big i, t, _, e => types t = .bigInt ∧ 0 ≤ i ∧ e = encodeString (putint i.toNat)
  | .string b, t, _, e => types t = .string ∧ e = encodeString b
  | .bytes b, t, _, e =>
    ∃ x, isByte types x = true ∧ (types t = .slice x ∨ types t = .array b.length x) ∧ e = encodeString b
  | .list vs, t, tags, e => ∃ x payload, isByte types x = false ∧ DenotesAll vs x payload ∧
    (types t = .slice x ∧ e = (if tags.tail then payload else encodeList payload) ∨
      types t = .array vs.length x ∧ e = encodeList payload)
  | .struct vs, t, _, e => ∃ fields payload, types t = .struct fields ∧ DenotesFields vs fields payload ∧ e = encodeList payload
  | .ptr v, t, _, e => ∃ x, types t = .ptr x ∧ Denotes v x .none e
  | .nil, t, tags, e => tags.nilOK = true ∧ ∃ x, types t = .ptr x ∧
    (isBigInt types x = true ∧ e = [0x80] ∨ isBigInt types x = false ∧ ∃ n, nilBytes types n x = some e)
def DenotesAll : List Val → τ → Bytes → Prop
  | [], _, e => e = []
  | v :: vs, x, e => ∃ e₁ e₂, Denotes v x .none e₁ ∧ DenotesAll vs x e₂ ∧ e = e₁ ++ e₂
/-- The fields in order; only the last one may be a tail. -/
def DenotesFields : List Val → List (Field τ) → Bytes → Prop
  | [], [], e => e = []
  | v :: vs, f :: fs, e => ∃ e₁ e₂, Denotes v f.typ f.tags e₁ ∧ DenotesFields vs fs e₂ ∧ e = e₁ ++ e₂ ∧
    (tailed types f.typ f.tags = true → fs = [])
  | _, _, _ => False
end

/-- A byte array of length one that holds zero, perhaps behind pointers: its item stays in the look-ahead. -/
def stuck : Val → τ → Bool
  | .bytes b, t =>
    match types t with
    | .array _ _ => b = [0]
    | _ => false
  | .ptr v, t =>
    match types t with
    | .ptr e => stuck v e
    | _ => false
  | _, _ => false

mutual
/-- Nothing is read behind an array that is stuck: the elements of a slice are read until its end is found, those of an array
    and the fields of a struct by their number. And with the tag for nil pointers, a pointer is not one to a value of size
    zero, which reads as nil, and a nil pointer is not one to a `big.Int`, which reads as zero. -/
def Clean : Val → τ → Tags → Prop
  | .list vs, t, _ =>
    match types t with
    | .slice x => CleanSlice vs x
    | .array _ x => CleanArray vs x
    | _ => True
  | .struct vs, t, _ =>
    match types t with
    | .struct fields => CleanFields vs fields
    | _ => True
  | .ptr v, t, tags =>
    match types t with
    | .ptr x => Clean v x .none ∧ (tags.nilOK = true → isBigInt types x = false →
      ¬ Denotes types v x .none [0x80] ∧ ¬ Denotes types v x .none [0xC0])
    | _ => True
  | .nil, t, _ =>
    match types t with
    | .ptr x => isBigInt types x = false
    | _ => True
  | _, _, _ => True
def CleanSlice : List Val → τ → Prop
  | [], _ => True
  | v :: vs, x => Clean v x .none ∧ stuck types v x = false ∧ CleanSlice vs x
def CleanArray : List Val → τ → Prop
  | [], _ => True
  | v :: vs, x => Clean v x .none ∧ (vs ≠ [] → stuck types v x = false) ∧ CleanArray vs x
def CleanFields : List Val → List (Field τ) → Prop
  | v :: vs, f :: fs => Clean v f.typ f.tags ∧ (fs ≠ [] → stuck types v f.typ = false) ∧ CleanFields vs fs
  | _, _ => True
end

end
variable {b : Bytes} {s s' : Stream}

section
variable {τ : Type} {types : τ → Shape τ}

variable {x t : τ} {e payload : Bytes} {n fuel : Nat} {v : Val} {tags : Tags} {vs : List Val} {dec : Decoder τ Val}
theorem isBigInt_iff : isBigInt types x = true ↔ types x = .bigInt := by
  unfold isBigInt
  split <;> simp_all

/-- A string or a list, of a length that fits a word. -/
def IsValue (e : Bytes) : Prop := (∃ c, Fits c ∧ e = encodeString c) ∨ ∃ p, Fits p ∧ e = encodeList p

theorem IsValue.ne_nil (value : IsValue e) : e ≠ [] := by
  rcases value with ⟨c,-,rfl⟩ | ⟨p,-,rfl⟩
  · exact encodeString_ne_nil c
  · exact encodeList_ne_nil p
theorem isValue_string {c : Bytes} (fits : Fits (encodeString c)) : IsValue (encodeString c) := .inl ⟨c,fits_string fits,rfl⟩
theorem isValue_list {p : Bytes} (fits : Fits (encodeList p)) : IsValue (encodeList p) := .inr ⟨p,fits_payload fits,rfl⟩
theorem nilBytes_value (nil : nilBytes types n x = some e) : e = [0x80] ∨ e = [0xC0] := by
  induction n generalizing x with
  | zero => simp [nilBytes] at nil
  | succ n ih =>
    simp only [nilBytes] at nil
    repeat' split at nil
    all_goals first
      | exact ih nil
      | simp only [Option.some.injEq] at nil; simp [← nil]
theorem isValue_nil (nil : e = [0x80] ∨ e = [0xC0]) : IsValue e := by
  rcases nil with rfl | rfl
  · exact .inl ⟨[],by simp [Fits],rfl⟩
  · exact .inr ⟨[],by simp [Fits],rfl⟩
theorem denotes_value (denotes : Denotes types v t tags e) (fits : Fits e)
    (headed : tailed types t tags = false) : IsValue e := by
  induction v using Val.induct generalizing t tags with
  | bool _ | string _ => exact denotes.2 ▸ isValue_string (denotes.2 ▸ fits)
  | uint n =>
    obtain ⟨size,-,-,-,rfl⟩ := denotes
    exact isValue_string fits
  | big i =>
    obtain ⟨-,-,rfl⟩ := denotes
    exact isValue_string fits
  | bytes b =>
    obtain ⟨x,-,-,rfl⟩ := denotes
    exact isValue_string fits
  | list vs ih =>
    obtain ⟨x,payload,notByte,-,⟨shape,rfl⟩ | ⟨shape,rfl⟩⟩ := denotes
    · have noTail : tags.tail = false := by simpa [tailed,shape,notByte] using headed
      simp only [noTail,Bool.false_eq_true,if_false] at fits ⊢
      exact isValue_list fits
    · exact isValue_list fits
  | struct vs ih =>
    obtain ⟨fields,payload,-,-,rfl⟩ := denotes
    exact isValue_list fits
  | ptr v ih =>
    obtain ⟨x,-,inner⟩ := denotes
    exact ih inner rfl
  | nil =>
    obtain ⟨-,x,-,⟨-,rfl⟩ | ⟨-,n,nil⟩⟩ := denotes
    · exact isValue_nil (.inl rfl)
    · exact isValue_nil (nilBytes_value nil)

/-! ### Writing -/

theorem eventually_succ {P : Nat → Prop} (later : ∀ᶠ n in atTop, P (n+1)) : ∀ᶠ n in atTop, P n := by
  rw [← map_add_atTop_eq_nat 1]
  exact later

/-- The value is written as these bytes, given enough rounds for its nil pointers. -/
def WritesAs (types : τ → Shape τ) (v : Val) : Prop :=
  ∀ (t : τ) (tags : Tags) (e : Bytes), Denotes types v t tags e → Fits e →
    ∀ᶠ fuel in atTop, ∀ w, ∃ w', write types fuel v t tags w = .ok w' ∧ Writes w w' e

theorem putint_small (positive : 0 < n) (small : n < 256) : putint n = [UInt8.ofNat n] := by
  rw [putint_step positive,Nat.div_eq_of_lt small,Nat.mod_eq_of_lt small]
  rfl
theorem writeUint_eq (n : Nat) (w : Encbuf) (small : n < 2^64) : writeUint n w = w.write (encodeString (putint n)) := by
  unfold writeUint
  split
  · subst n
    rfl
  · rename_i nonzero
    have positive : 0 < n := Nat.pos_of_ne_zero nonzero
    split
    · rename_i low
      rw [putint_small positive (by omega),encodeString_low]
      simp
      omega
    · rename_i notLow
      have length := putint_length n 8 (by omega)
      have head : encodeString (putint n) = headOf .String (putint n).length ++ putint n := by
        apply encodeString_head
        intro x isOne
        have value := getint_putint n
        rw [isOne] at value
        have valueIs : x.toNat = n := by simpa [getint] using value
        omega
      rw [head]
      simp [headOf,puthead,if_pos (show (putint n).length < 56 by omega)]
theorem writes_emptyList (w : Encbuf) : Writes w w.emptyList [0xC0] := writes_list (writes_nil _) (by simp)
theorem nilfunc_writes (nil : nilBytes types n x = some e) (enough : n ≤ fuel)
    (w : Encbuf) : ∃ w', nilfunc types fuel x w = .ok w' ∧ Writes w w' e := by
  induction n generalizing x fuel with
  | zero => simp [nilBytes] at nil
  | succ n ih =>
    obtain ⟨fuel,rfl⟩ := Nat.exists_eq_add_of_le' (show 1 ≤ fuel by omega)
    have headed (byte : Bool) (nil : some (if byte then [0x80] else [0xC0]) = some e) :
        Writes w (if byte then w.write [0x80] else w.emptyList) e := by
      cases byte with
      | false => exact Option.some.inj nil ▸ writes_emptyList w
      | true => exact Option.some.inj nil ▸ writes_write w _
    cases shape : types x with
    | slice _ | array _ _ =>
      simp only [nilBytes,shape] at nil
      exact ⟨_,by simp [nilfunc,shape],headed _ nil⟩
    | struct fields =>
      simp only [nilBytes,shape] at nil
      exact ⟨w.emptyList,by simp [nilfunc,shape],headed false nil⟩
    | ptr elem =>
      simp only [nilBytes,shape] at nil
      simp only [nilfunc,shape]
      split
      · rename_i big
        simp only [big,if_true] at nil
        exact ⟨_,rfl,headed true nil⟩
      · rename_i notBig
        simp only [notBig,Bool.false_eq_true,if_false] at nil
        exact ih nil (by omega)
    | iface =>
      simp only [nilBytes,shape,Option.some.injEq] at nil
      exact ⟨w.write [0xC0],by simp [nilfunc,shape],nil ▸ writes_write w _⟩
    | _ =>
      simp only [nilBytes,shape] at nil
      exact ⟨w.write [0x80],by simp [nilfunc,shape],headed true nil⟩

theorem fits_append {a : Bytes} (fits : Fits (a ++ b)) : Fits a ∧ Fits b := by
  simp only [Fits,length_append] at fits ⊢
  omega
theorem writes_fields (each : ∀ v ∈ vs, WritesAs types v) {fields : List (Field τ)}
    (denotes : DenotesFields types vs fields payload) (fits : Fits payload) :
    ∀ᶠ fuel in atTop, ∀ w, ∃ w', writeFields types fuel vs fields w = .ok w' ∧ Writes w w' payload := by
  induction vs generalizing fields payload with
  | nil =>
    cases fields with
    | nil =>
      obtain rfl : payload = [] := denotes
      exact Eventually.of_forall fun fuel w => ⟨w,rfl,writes_nil w⟩
    | cons f fs => exact denotes.elim
  | cons v vs ih =>
    cases fields with
    | nil => exact denotes.elim
    | cons f fs =>
      obtain ⟨e₁,e₂,first,others,rfl,-⟩ := denotes
      obtain ⟨fits₁,fits₂⟩ := fits_append fits
      filter_upwards [each v (by simp) f.typ f.tags e₁ first fits₁,ih (fun v member => each v (by simp [member])) others fits₂]
        with fuel one all w
      obtain ⟨w₁,written₁,writes₁⟩ := one w
      obtain ⟨w₂,written₂,writes₂⟩ := all w₁
      exact ⟨w₂,by simp [writeFields,written₁,Except.bind,written₂],writes₁.trans writes₂⟩
/-- An element of an array, as a field. -/
def element (x : τ) : Field τ := ⟨"",x,.none⟩
theorem denotesAll_fields (denotes : DenotesAll types vs x e) : DenotesFields types vs (replicate vs.length (element x)) e := by
  induction vs generalizing e with
  | nil => exact denotes
  | cons v vs ih =>
    obtain ⟨e₁,e₂,first,others,same⟩ := denotes
    exact ⟨e₁,e₂,first,ih others,same,by simp [element,tailed,Tags.none]⟩
theorem writeAll_fields (fuel : Nat) (w : Encbuf) :
    writeAll types fuel vs x w = writeFields types fuel vs (replicate vs.length (element x)) w := by
  induction vs generalizing w with
  | nil => rfl
  | cons v vs ih => simp [writeAll,writeFields,replicate_succ,element,ih]
theorem writes_all (each : ∀ v ∈ vs, WritesAs types v) (denotes : DenotesAll types vs x payload) (fits : Fits payload) :
    ∀ᶠ fuel in atTop, ∀ w, ∃ w', writeAll types fuel vs x w = .ok w' ∧ Writes w w' payload := by
  simp only [writeAll_fields]
  exact writes_fields each (denotesAll_fields denotes) fits
theorem writes_val (v : Val) : WritesAs types v := by
  induction v using Val.induct with
  | bool b =>
    rintro t tags e ⟨shape,rfl⟩ -
    refine Eventually.of_forall fun fuel w => ⟨writeBool b w,by simp [write,shape],?_⟩
    cases b <;> exact writes_write w _
  | uint n =>
    rintro t tags e ⟨size,shape,sizes,small,rfl⟩ -
    have word : n < 2^64 := by
      simp only [mem_cons,not_mem_nil,or_false] at sizes
      rcases sizes with rfl | rfl | rfl | rfl <;> omega
    refine Eventually.of_forall fun fuel w => ⟨_,by simp [write,shape,writeUint_eq n w word],writes_write w _⟩
  | big i =>
    rintro t tags e ⟨shape,positive,rfl⟩ -
    refine Eventually.of_forall fun fuel w => ⟨w.encodeString (putint i.toNat),?_,writes_write w _⟩
    simp only [write,shape,writeBigInt,if_neg (not_lt.mpr positive)]
    split
    · subst i
      rfl
    · rfl
  | string b =>
    rintro t tags e ⟨shape,rfl⟩ -
    exact Eventually.of_forall fun fuel w => ⟨w.encodeString b,by simp [write,shape],writes_write w _⟩
  | bytes b =>
    rintro t tags e ⟨x,byte,shape | shape,rfl⟩ -
    · exact Eventually.of_forall fun fuel w => ⟨w.encodeString b,by simp [write,shape,byte],writes_write w _⟩
    · exact Eventually.of_forall fun fuel w => ⟨w.encodeString b,by simp [write,shape,byte],writes_write w _⟩
  | list vs ih =>
    rintro t tags e ⟨x,payload,notByte,elements,⟨shape,rfl⟩ | ⟨shape,rfl⟩⟩ fits
    · by_cases tail : tags.tail = true
      · simp only [tail,if_true] at fits ⊢
        filter_upwards [writes_all ih elements fits] with fuel all w
        obtain ⟨w',written,writes⟩ := all w
        exact ⟨w',by simp [write,shape,notByte,tail,written],writes⟩
      · simp only [tail] at fits ⊢
        filter_upwards [writes_all ih elements (fits_payload fits)] with fuel all w
        obtain ⟨w',written,writes⟩ := all w.list.2
        exact ⟨_,by simp [write,shape,notByte,tail,written,Except.map],
          writes_list writes (fits_payload fits)⟩
    · filter_upwards [writes_all ih elements (fits_payload fits)] with fuel all w
      obtain ⟨w',written,writes⟩ := all w.list.2
      exact ⟨_,by simp [write,shape,notByte,written,Except.map],
        writes_list writes (fits_payload fits)⟩
  | struct vs ih =>
    rintro t tags e ⟨fields,payload,shape,elements,rfl⟩ fits
    filter_upwards [writes_fields ih elements (fits_payload fits)] with fuel all w
    obtain ⟨w',written,writes⟩ := all w.list.2
    exact ⟨_,by simp [write,shape,written,Except.map],writes_list writes (fits_payload fits)⟩
  | ptr v ih =>
    rintro t tags e ⟨x,shape,inner⟩ fits
    filter_upwards [ih x .none e inner fits] with fuel writes w
    simpa only [write,shape] using writes w
  | nil =>
    rintro t tags e ⟨-,x,shape,⟨big,rfl⟩ | ⟨notBig,n,nil⟩⟩ -
    · exact Eventually.of_forall fun fuel w => ⟨_,by simp [write,shape,big],writes_write w _⟩
    · filter_upwards [eventually_ge_atTop n] with fuel enough w
      simpa only [write,shape,notBig,Bool.false_eq_true,if_false] using nilfunc_writes nil enough w
theorem denotes_unique {e' : Bytes} (denotes : Denotes types v t tags e) (fits : Fits e)
    (denotes' : Denotes types v t tags e') (fits' : Fits e') : e = e' := by
  obtain ⟨fuel,one,other⟩ := ((writes_val v t tags e denotes fits).and (writes_val v t tags e' denotes' fits')).exists
  obtain ⟨w,written,writes⟩ := one .empty
  obtain ⟨w',written',writes'⟩ := other .empty
  rw [written] at written'
  cases written'
  rw [← writes.toBytes,← writes'.toBytes]

/-- The decoder reads the item `e` as `v`. Where it is stuck, a zero byte stays in the look-ahead. -/
def Decodes (lag : Bool) (dec : Decoder τ Val) (e : Bytes) (v : Val) : Prop :=
  ∀ (s : Stream) (rest : Bytes) (stack : List ListPos), Ready s (e ++ rest) stack → Room e.length stack →
    ∃ s', dec s = (.ok v,s') ∧
      if lag then Armed s' .Byte 0 0 rest (bump e.length stack) else Ready s' rest (bump e.length stack)

theorem decodes_false : Decodes false dec e v ↔ Reads dec e v := by
  simp [Decodes,Reads]
theorem Decodes.all {lag : Bool} (decodes : Decodes lag dec e v) : ReadsAll dec e v := by
  intro s rest pos below ready
  obtain ⟨s',read,after⟩ := decodes s rest _ ready (le_refl _)
  refine ⟨s',read,?_⟩
  split at after
  · exact after.toStands
  · exact after.toStands

/-! The decoders of types with elements. -/

theorem decode_slice (shape : types t = .slice x) (notByte : isByte types x = false) (noTail : tags.tail = false) :
    decode types (fuel+1) t tags = decodeListSlice t (decode types fuel x .none) fuel := by
  simp [decode,shape,notByte,noTail]
theorem decode_tail (shape : types t = .slice x) (notByte : isByte types x = false) (tail : tags.tail = true)
    : decode types (fuel+1) t tags s = (.ok v,s') ↔
      ∃ vs, decodeSliceElems (decode types fuel x .none) fuel 0 s = (.ok vs,s') ∧ v = .list vs := by
  simp only [decode,shape,notByte,tail,Bool.false_eq_true,if_false,if_true]
  rcases decodeSliceElems (decode types fuel x .none) fuel 0 s with ⟨e | vs,s₁⟩
  · simp
  · simp [eq_comm,and_comm]
theorem decode_array {vlen : Nat} (shape : types t = .array vlen x) (notByte : isByte types x = false) :
    decode types (fuel+1) t tags = decodeListArray t (decode types fuel x .none) vlen := by
  simp [decode,shape,notByte]
theorem decode_ptr (shape : types t = .ptr x) (notBig : isBigInt types x = false) (noNil : tags.nilOK = false) :
    decode types (fuel+1) t tags = decodePtr (decode types fuel x .none) := by
  simp [decode,shape,notBig,noNil]
theorem decode_optional (shape : types t = .ptr x) (notBig : isBigInt types x = false) (nilOK : tags.nilOK = true) :
    decode types (fuel+1) t tags = decodeOptionalPtr (decode types fuel x .none) := by
  simp [decode,shape,notBig,nilOK]
theorem decode_bigPtr (shape : types t = .ptr x) (big : isBigInt types x = true) :
    decode types (fuel+1) t tags = decodePtr (decodeBigInt t) := by
  simp [decode,shape,big]

theorem decodePtr_ok : decodePtr dec s = (.ok v,s') ↔ ∃ v', dec s = (.ok v',s') ∧ v = .ptr v' := by
  rcases read : dec s with ⟨e | v',s₁⟩
  · simp [decodePtr,read]
  · simp [decodePtr,read,eq_comm,and_comm]
theorem decode_look (headed : tailed types t tags = false) {s₁ : Stream}
    {r : Kind × Nat} (found : s.kind = (.ok r,s₁)) :
    decode types fuel t tags s₁ = (.ok v,s') ↔ decode types fuel t tags s = (.ok v,s') := by
  have again := kind_again found
  induction fuel generalizing t tags v with
  | zero => simp [decode]
  | succ fuel ih =>
    cases shape : types t with
    | bool => simp [decode,shape,decodeBool,Stream.bool,uint_look found]
    | uint size => simp [decode,shape,decodeUint,uint_look found]
    | bigInt => simp [decode,shape,decodeBigInt,bytes_look found]
    | string => simp [decode,shape,decodeString,bytes_look found]
    | slice x =>
      simp only [decode,shape]
      split
      · simp [decodeByteSlice,bytes_look found]
      · rename_i notByte
        have noTail : tags.tail = false := by simpa [tailed,shape,notByte] using headed
        simp [noTail,decodeListSlice,list_look found]
    | array length x =>
      simp only [decode,shape]
      split
      · simp [decodeByteArray,found,again]
      · simp [decodeListArray,list_look found]
    | struct fields => simp [decode,shape,decodeStruct,list_look found]
    | ptr x =>
      simp only [decode,shape]
      split
      · simp [decodePtr,decodeBigInt,bytes_look found]
      · split
        · simp [decodeOptionalPtr,found,again]
        · rw [decodePtr_ok,decodePtr_ok]
          simp [ih (show tailed types x .none = false from rfl)]
    | iface => simp [decode,shape,decodeInterface,found,again]
/-- A decoder finds the end of a list, given enough calls for the pointers on the way. -/
theorem decode_atEnd (grounded : pointers types n t = true) (enough : n ≤ fuel) (ended : s.kind = (.error .EOL,s')) :
    decode types fuel t .none s = (.error (.stream .EOL),s') := by
  induction n generalizing t fuel with
  | zero => simp [pointers] at grounded
  | succ n ih =>
    obtain ⟨fuel,rfl⟩ := Nat.exists_eq_add_of_le' (show 1 ≤ fuel by omega)
    cases shape : types t with
    | bool => simp [decode,shape,decodeBool,Stream.bool,uint,ended,wrapped,wrapStreamError]
    | uint size => simp [decode,shape,decodeUint,uint,ended,wrapped,wrapStreamError]
    | bigInt => simp [decode,shape,decodeBigInt,bytes,ended,wrapStreamError]
    | string => simp [decode,shape,decodeString,bytes,ended,wrapped,wrapStreamError]
    | slice x =>
      cases byte : isByte types x with
      | true => simp [decode,shape,byte,decodeByteSlice,bytes,ended,wrapped,wrapStreamError]
      | false => simp [decode_slice shape byte (show Tags.none.tail = false from rfl),decodeListSlice,list,ended,wrapStreamError]
    | array length x =>
      simp only [decode,shape]
      split
      · simp [decodeByteArray,ended]
      · simp [decodeListArray,list,ended,wrapStreamError]
    | struct fields => simp [decode,shape,decodeStruct,list,ended,wrapStreamError]
    | ptr x =>
      simp only [pointers,shape,Bool.or_eq_true] at grounded
      cases big : isBigInt types x with
      | true => simp [decode_bigPtr shape big,decodePtr,decodeBigInt,bytes,ended,wrapStreamError]
      | false => simp only [decode_ptr shape big (show Tags.none.nilOK = false from rfl),decodePtr,
        ih (grounded.resolve_left (by simp [big])) (Nat.le_of_succ_le_succ enough)]
    | iface => simp [decode,shape,decodeInterface,ended]

/-! What is read back at a string. -/

section
variable {rest : Bytes} {stack : List ListPos}

theorem bool_ok {b : Bool} (here : AtString s (putint (if b then 1 else 0)) rest stack) :
    ∃ s', s.bool = (.ok b,s') ∧ Ready s' rest stack := by
  have short : (putint (if b then 1 else 0)).length ≤ 8/8 := by cases b <;> decide
  obtain ⟨s',read,ready⟩ := uint_ok here short
  refine ⟨s',?_,ready⟩
  cases b <;> simp only [Stream.bool,read,Bool.false_eq_true,if_false,if_true]
theorem decodeBigInt_ok (t : τ) (here : AtString s (putint n) rest stack) :
    ∃ s', decodeBigInt t s = (.ok (.big n),s') ∧ Ready s' rest stack := by
  obtain ⟨s',read,ready⟩ := bytes_ok here
  refine ⟨s',?_,ready⟩
  have canonical : (putint n).head? ≠ some 0 := by
    cases bytes : putint n with
    | nil => simp
    | cons x tail => simpa using putint_head n x tail bytes
  simp [decodeBigInt,read,if_neg canonical]
theorem decodeByteArray_ok (t : τ) (here : AtString s b rest stack) :
    ∃ s', decodeByteArray t b.length s = (.ok (.bytes b),s') ∧
      if b = [0] then Armed s' .Byte 0 0 rest stack else Ready s' rest stack := by
  rcases here with ⟨x,s₁,rfl,low,found,armed⟩ | ⟨s₁,stack',notLow,found,armed,room,rfl⟩
  · by_cases zero : x = 0
    · subst zero
      refine ⟨s₁,?_,by simpa using armed⟩
      simp [decodeByteArray,found,uint,kind_armed armed,armed.byteval]
    · refine ⟨s₁.release,?_,by simpa [zero] using armed.release⟩
      simp [decodeByteArray,found,uint,kind_armed armed,armed.byteval,zero]
  · obtain ⟨s₂,read,ready,-⟩ := readFull_ok armed.toStands room
    refine ⟨s₂,by simp [decodeByteArray,found,read,if_neg (not_low notLow)],?_⟩
    have notZero : b ≠ [0] := fun zero => by simpa using notLow 0 zero
    simpa [notZero] using ready

end

/-- A value is read back: where it has a head of its own, whatever follows it, and as the tail of a struct, up to the end. -/
structure ReadsBack (types : τ → Shape τ) (v : Val) : Prop where
  headed : ∀ (t : τ) (tags : Tags) (e : Bytes), tailed types t tags = false → Denotes types v t tags e →
    Clean types v t tags → Fits e → ∀ᶠ fuel in atTop, Decodes (stuck types v t) (decode types fuel t tags) e v
  tail : ∀ (t : τ) (tags : Tags) (e : Bytes), tailed types t tags = true → Denotes types v t tags e →
    Clean types v t tags → Fits e → ∀ᶠ fuel in atTop, ReadsAll (decode types fuel t tags) e v

theorem readsBack_string {content : Bytes} (lag : Bool) (fits : Fits (encodeString content))
    (reads : ∀ fuel s rest stack, AtString s content rest stack → ∃ s', decode types (fuel+1) t tags s = (.ok v,s') ∧
      if lag then Armed s' .Byte 0 0 rest stack else Ready s' rest stack) :
    ∀ᶠ fuel in atTop, Decodes lag (decode types fuel t tags) (encodeString content) v :=
  eventually_succ (Eventually.of_forall fun fuel s rest _ ready room =>
    reads fuel s rest _ (at_string ready room (fits_string fits)))

theorem decodes_list (fits : Fits payload) (reads : ∀ s rest stack, AtList s payload rest stack →
      ∃ s', dec s = (.ok v,s') ∧ Ready s' rest (bump payload.length stack)) : Decodes false dec (encodeList payload) v := by
  rw [decodes_false]
  intro s rest stack ready room
  obtain ⟨s',read,ready'⟩ := reads s rest _ (at_list ready room fits)
  refine ⟨s',read,?_⟩
  rw [bump_bump,← length_append] at ready'
  exact ready'

section
variable (each : ∀ v ∈ vs, ReadsBack types v)
include each

theorem reads_slice (grounded : Grounded types) (denotes : DenotesAll types vs x payload) (clean : CleanSlice types vs x)
    (fits : Fits payload) : ∀ᶠ fuel in atTop, ∀ rounds i, vs.length < rounds →
      ReadsAll (decodeSliceElems (decode types fuel x .none) rounds i) payload vs := by
  induction vs generalizing payload with
  | nil =>
    obtain rfl : payload = [] := denotes
    obtain ⟨n,ends⟩ := grounded x
    filter_upwards [eventually_ge_atTop n] with fuel enough rounds i more
    obtain ⟨rounds,rfl⟩ := Nat.exists_eq_add_of_le' (show 1 ≤ rounds from more)
    exact sliceElems_nil (fun s b tos below ready full =>
      ⟨s.noError,decode_atEnd ends enough (kind_end ready full),ready.noError⟩) rounds i
  | cons v vs ih =>
    obtain ⟨e₁,e₂,first,others,rfl⟩ := denotes
    obtain ⟨cleanFirst,moves,cleanOthers⟩ := clean
    obtain ⟨fits₁,fits₂⟩ := fits_append fits
    filter_upwards [(each v (by simp)).headed x .none e₁ rfl first cleanFirst fits₁,
      ih (fun v member => each v (by simp [member])) others cleanOthers fits₂] with fuel one all rounds i more
    simp only [length_cons] at more
    obtain ⟨rounds,rfl⟩ := Nat.exists_eq_add_of_le' (show 1 ≤ rounds by omega)
    rw [moves,decodes_false] at one
    exact next_cons one (all rounds (i+1) (by omega))
theorem reads_fields (t : τ) {fields : List (Field τ)} (denotes : DenotesFields types vs fields payload)
    (clean : CleanFields types vs fields) (fits : Fits payload) :
    ∀ᶠ fuel in atTop, ReadsAll (decodeFields t (fun f => decode types fuel f.typ f.tags) fields) payload vs := by
  induction vs generalizing fields payload with
  | nil =>
    cases fields with
    | nil =>
      obtain rfl : payload = [] := denotes
      exact Eventually.of_forall fun fuel => fields_nil t _
    | cons f fs => exact denotes.elim
  | cons v vs ih =>
    cases fields with
    | nil => exact denotes.elim
    | cons f fs =>
      obtain ⟨e₁,e₂,first,others,rfl,isLast⟩ := denotes
      obtain ⟨cleanFirst,moves,cleanOthers⟩ := clean
      obtain ⟨fits₁,fits₂⟩ := fits_append fits
      have reads : ∀ᶠ fuel in atTop, ReadsAll (decode types fuel f.typ f.tags) e₁ v ∧
          (fs ≠ [] → Reads (decode types fuel f.typ f.tags) e₁ v) := by
        cases tail : tailed types f.typ f.tags with
        | true =>
          filter_upwards [(each v (by simp)).tail f.typ f.tags e₁ tail first cleanFirst fits₁] with fuel one
          exact ⟨one,fun more => absurd (isLast tail) more⟩
        | false =>
          filter_upwards [(each v (by simp)).headed f.typ f.tags e₁ tail first cleanFirst fits₁] with fuel one
          refine ⟨one.all,fun more => ?_⟩
          rwa [moves more,decodes_false] at one
      filter_upwards [reads,ih (fun v member => each v (by simp [member])) others cleanOthers fits₂] with fuel one all
      by_cases last : fs = []
      · subst last
        cases vs with
        | nil =>
          obtain rfl : e₂ = [] := others
          rw [append_nil]
          exact fields_last one.1
        | cons v vs => exact others.elim
      · exact next_cons (one.2 last) all

end

theorem cleanArray_fields : CleanArray types vs x ↔ CleanFields types vs (replicate vs.length (element x)) := by
  induction vs with
  | nil => simp [CleanArray,CleanFields]
  | cons v vs ih => simp [CleanArray,CleanFields,replicate_succ,ih,element]

theorem denotesAll_empty (denotes : DenotesAll types vs x []) (fits : Fits []) : vs = [] := by
  cases vs with
  | nil => rfl
  | cons v vs =>
    obtain ⟨e₁,e₂,first,-,empty⟩ := denotes
    obtain ⟨rfl,rfl⟩ := append_eq_nil_iff.mp empty.symm
    exact absurd rfl (denotes_value first fits rfl).ne_nil

theorem denotes_big (big : isBigInt types x = true)
    (denotes : Denotes types v x tags e) : ∃ n : Nat, v = .big n ∧ e = encodeString (putint n) := by
  rw [isBigInt_iff] at big
  cases v with
  | big i =>
    obtain ⟨-,positive,rfl⟩ := denotes
    exact ⟨i.toNat,by rw [Int.toNat_of_nonneg positive],rfl⟩
  | _ => simp [Denotes,big] at denotes
theorem denotes_tail (tail : tailed types t tags = true)
    (denotes : Denotes types v t tags e) : ∃ x vs, types t = .slice x ∧ isByte types x = false ∧ tags.tail = true ∧
      v = .list vs ∧ DenotesAll types vs x e := by
  simp only [tailed,Bool.and_eq_true] at tail
  obtain ⟨isTail,notByte⟩ := tail
  cases shape : types t with
  | slice x =>
    simp only [shape,Bool.not_eq_true'] at notByte
    cases v with
    | list vs =>
      obtain ⟨x',payload,-,elements,⟨shape',rfl⟩ | ⟨shape',-⟩⟩ := denotes
      · obtain rfl : x = x' := by simpa [shape] using shape'
        exact ⟨x,vs,rfl,notByte,isTail,rfl,by simpa [isTail] using elements⟩
      · simp [shape] at shape'
    | bytes b =>
      obtain ⟨x',byte,shape' | shape',-⟩ := denotes
      · obtain rfl : x = x' := by simpa [shape] using shape'
        simp [byte] at notByte
      · simp [shape] at shape'
    | _ => simp [Denotes,shape] at denotes
  | _ => simp [shape] at notByte
/-- The values of size zero are the two that stand for nil. -/
theorem kind_value {rest : Bytes} {stack : List ListPos} (value : IsValue e) (ready : Ready s (e ++ rest) stack)
    (room : Room e.length stack) : ∃ k n s₁, s.kind = (.ok (k,n),s₁) ∧ ((n = 0 ∧ k ≠ .Byte) ↔ e = [0x80] ∨ e = [0xC0]) ∧
      (n = 0 ∧ k ≠ .Byte → Ready s₁.release rest (bump e.length stack)) := by
  rcases value with ⟨c,fits,rfl⟩ | ⟨p,fits,rfl⟩
  · rcases at_string ready room fits with ⟨x,s₁,rfl,low,found,armed⟩ | ⟨s₁,stack',notLow,found,armed,-,after⟩
    · refine ⟨_,_,s₁,found,?_,fun empty => absurd rfl empty.2⟩
      rw [encodeString_low low]
      constructor
      · rintro ⟨-,notByte⟩
        exact absurd rfl notByte
      · rintro (same | same) <;> simp only [List.cons.injEq,and_true] at same <;> subst same <;> simp at low
    · refine ⟨_,_,s₁,found,?_,?_⟩
      · constructor
        · rintro ⟨none,-⟩
          obtain rfl := length_eq_zero_iff.mp none
          exact .inl rfl
        · rintro (same | same)
          · exact ⟨length_eq_zero_iff.mpr (encodeString_injective (b := []) fits (by simp [Fits]) same),by simp⟩
          · exact absurd same (encodeString_ne_encodeList (b := []) fits (by simp [Fits]))
      · rintro ⟨none,-⟩
        obtain rfl := length_eq_zero_iff.mp none
        rw [← after]
        simpa using armed.release
  · obtain ⟨s₁,found,armed,-⟩ := at_list ready room fits
    refine ⟨_,_,s₁,found,?_,?_⟩
    · constructor
      · rintro ⟨none,-⟩
        obtain rfl := length_eq_zero_iff.mp none
        exact .inr rfl
      · rintro (same | same)
        · exact absurd same.symm (encodeString_ne_encodeList (a := []) (by simp [Fits]) fits)
        · exact ⟨length_eq_zero_iff.mpr (encodeList_injective (b := []) fits (by simp [Fits]) same),by simp⟩
    · rintro ⟨none,-⟩
      obtain rfl := length_eq_zero_iff.mp none
      exact armed.release

/-- Only lists are written without a head. -/
theorem ReadsBack.of_headed (notList : ∀ vs, v ≠ .list vs) (headed : ∀ (t : τ) (tags : Tags) (e : Bytes),
    tailed types t tags = false → Denotes types v t tags e → Clean types v t tags → Fits e →
      ∀ᶠ fuel in atTop, Decodes (stuck types v t) (decode types fuel t tags) e v) : ReadsBack types v := by
  refine ⟨headed,fun t tags e tail denotes => ?_⟩
  obtain ⟨x,vs,-,-,-,isList,-⟩ := denotes_tail tail denotes
  exact absurd isList (notList vs)
/-- Every value that is clean is read back. -/
theorem reads_val (grounded : Grounded types) (v : Val) : ReadsBack types v := by
  induction v using Val.induct with
  | bool b =>
    refine .of_headed (by simp) ?_
    rintro t tags e - ⟨shape,rfl⟩ - fits
    refine readsBack_string false fits fun fuel s rest stack here => ?_
    obtain ⟨s',read,ready⟩ := bool_ok here
    exact ⟨s',by simp [decode,shape,decodeBool,read,wrapped],ready⟩
  | uint n =>
    refine .of_headed (by simp) ?_
    rintro t tags e - ⟨size,shape,-,small,rfl⟩ - fits
    refine readsBack_string false fits fun fuel s rest stack here => ?_
    have short : (putint n).length ≤ 8*size/8 := by simpa using putint_length n size small
    obtain ⟨s',read,ready⟩ := uint_ok here short
    exact ⟨s',by simp [decode,shape,decodeUint,read,wrapped],ready⟩
  | big i =>
    refine .of_headed (by simp) ?_
    rintro t tags e - ⟨shape,positive,rfl⟩ - fits
    refine readsBack_string false fits fun fuel s rest stack here => ?_
    obtain ⟨s',read,ready⟩ := decodeBigInt_ok t here
    exact ⟨s',by simp [decode,shape,read,Int.toNat_of_nonneg positive],ready⟩
  | string b =>
    refine .of_headed (by simp) ?_
    rintro t tags e - ⟨shape,rfl⟩ - fits
    refine readsBack_string false fits fun fuel s rest stack here => ?_
    obtain ⟨s',read,ready⟩ := bytes_ok here
    exact ⟨s',by simp [decode,shape,decodeString,read,wrapped],ready⟩
  | bytes b =>
    refine .of_headed (by simp) ?_
    rintro t tags e - ⟨x,byte,shape | shape,rfl⟩ - fits
    · refine readsBack_string _ fits fun fuel s rest stack here => ?_
      obtain ⟨s',read,ready⟩ := bytes_ok here
      refine ⟨s',by simp [decode,shape,byte,decodeByteSlice,read,wrapped],?_⟩
      simpa [stuck,shape] using ready
    · refine readsBack_string _ fits fun fuel s rest stack here => ?_
      obtain ⟨s',read,after⟩ := decodeByteArray_ok t here
      refine ⟨s',by simp [decode,shape,byte,read],?_⟩
      simpa [stuck,shape] using after
  | list vs ih =>
    refine ⟨?_,?_⟩
    · rintro t tags e headed ⟨x,payload,notByte,elements,⟨shape,rfl⟩ | ⟨shape,rfl⟩⟩ clean fits
      · have noTail : tags.tail = false := by simpa [tailed,shape,notByte] using headed
        simp only [noTail,Bool.false_eq_true,if_false] at fits ⊢
        simp only [Clean,shape] at clean
        apply eventually_succ
        filter_upwards [reads_slice ih grounded elements clean (fits_payload fits),eventually_gt_atTop vs.length] with fuel all more
        rw [decode_slice shape notByte noTail]
        refine decodes_list (fits_payload fits) fun s rest stack here => ?_
        exact listSlice_ok t (all fuel 0 more) (fun none => denotesAll_empty (none ▸ elements) (none ▸ fits_payload fits)) here
      · simp only [Clean,shape] at clean
        apply eventually_succ
        filter_upwards [reads_fields ih t (denotesAll_fields elements) (cleanArray_fields.mp clean) (fits_payload fits)] with fuel all
        rw [decode_array shape notByte]
        refine decodes_list (fits_payload fits) fun s rest stack here => ?_
        obtain ⟨s₁,s₂,entered,read,closes⟩ := readsList all here
        obtain ⟨s',closed,ready'⟩ := closes (wrapStreamError · t) (.list vs)
        have elems : decodeArrayElems t (decode types fuel x .none) vs.length 0 s₁ = (.ok vs,s₂) :=
          (arrayElems_fields (f := element x) rfl).mpr read
        exact ⟨s',by simp [decodeListArray,entered,elems,closed],ready'⟩
    · rintro t tags e tailIs ⟨x,payload,notByte,elements,⟨shape,rfl⟩ | ⟨shape,rfl⟩⟩ clean fits
      · have tail : tags.tail = true := by simpa [tailed,shape,notByte] using tailIs
        simp only [tail,if_true] at fits ⊢
        simp only [Clean,shape] at clean
        apply eventually_succ
        filter_upwards [reads_slice ih grounded elements clean fits,eventually_gt_atTop vs.length] with fuel all more
        intro s rest pos below ready
        obtain ⟨s',read,stands⟩ := all fuel 0 more s rest pos below ready
        exact ⟨s',(decode_tail shape notByte tail).mpr ⟨vs,read,rfl⟩,stands⟩
      · simp [tailed,shape] at tailIs
  | struct vs ih =>
    refine .of_headed (by simp) ?_
    rintro t tags e - ⟨fields,payload,shape,elements,rfl⟩ clean fits
    simp only [Clean,shape] at clean
    apply eventually_succ
    filter_upwards [reads_fields ih t elements clean (fits_payload fits)] with fuel all
    refine decodes_list (fits_payload fits) fun s rest stack here => ?_
    obtain ⟨s₁,s₂,entered,read,closes⟩ := readsList all here
    obtain ⟨s',closed,ready'⟩ := closes (wrapStreamError · t) (.struct vs)
    exact ⟨s',by simp [decode,shape,decodeStruct,entered,read,closed],ready'⟩
  | ptr v ih =>
    refine .of_headed (by simp) ?_
    rintro t tags e - ⟨x,shape,inner⟩ clean fits
    simp only [Clean,shape] at clean
    obtain ⟨cleanInner,sized⟩ := clean
    simp only [stuck,shape]
    cases big : isBigInt types x with
    | true =>
      obtain ⟨n,rfl,rfl⟩ := denotes_big big inner
      refine readsBack_string false fits fun fuel s rest stack here => ?_
      obtain ⟨s',read,ready⟩ := decodeBigInt_ok t here
      exact ⟨s',by simp [decode_bigPtr shape big,decodePtr,read],ready⟩
    | false =>
      apply eventually_succ
      filter_upwards [ih.headed x .none e rfl inner cleanInner fits] with fuel one s rest stack ready room
      obtain ⟨s',read,after⟩ := one s rest stack ready room
      refine ⟨s',?_,after⟩
      cases nilOK : tags.nilOK with
      | false => simp [decode_ptr shape big nilOK,decodePtr,read]
      | true =>
        obtain ⟨k,n,s₁,found,size,-⟩ := kind_value (denotes_value inner fits rfl) ready room
        have notEmpty : ¬ (n = 0 ∧ k ≠ .Byte) := by
          obtain ⟨not80,notC0⟩ := sized nilOK big
          rw [size]
          rintro (rfl | rfl)
          · exact not80 inner
          · exact notC0 inner
        have read₁ := (decode_look rfl found).mpr read
        simp [decode_optional shape big nilOK,decodeOptionalPtr,found,if_neg notEmpty,decodePtr,read₁]
  | nil =>
    refine .of_headed (by simp) ?_
    rintro t tags e - ⟨nilOK,x,shape,isNil⟩ clean fits
    simp only [Clean,shape] at clean
    obtain ⟨n,nil⟩ : ∃ n, nilBytes types n x = some e := by simpa [clean] using isNil
    refine eventually_succ (Eventually.of_forall fun fuel s rest stack ready room => ?_)
    obtain ⟨k,n,s₁,found,size,after⟩ := kind_value (isValue_nil (nilBytes_value nil)) ready room
    have empty := size.mpr (nilBytes_value nil)
    refine ⟨s₁.release,?_,after empty⟩
    simp [decode_optional shape clean nilOK,decodeOptionalPtr,found,if_pos empty]

end

end Canchain.Rlp
