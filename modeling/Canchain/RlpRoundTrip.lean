import Canchain.RlpValues

/-!
The values that are not read back. Once a zero byte stands in the look-ahead, each value that
is read is one zero byte, and the stream stays behind what was written (`Lags`) up to the end
of the list. So a value is read back if and only if it is clean.
-/
namespace Canchain.Rlp
open List Val

open Filter

section
variable {τ : Type} {types : τ → Shape τ}

/-! ### A zero byte in the look-ahead -/

/-- From a zero byte in the look-ahead: a value that is read is one that is written as a zero byte, and the stream is behind
    the byte or has it in the look-ahead still. The end of a list is not found. -/
structure Passes (types : τ → Shape τ) (t : τ) (tags : Tags) (b : Bytes) (stack : List ListPos)
    (result : Except (DecodeError τ) Val × Stream) : Prop where
  notEnd : result.1 ≠ .error (.stream .EOL)
  value : ∀ v e, result.1 = .ok v → Denotes types v t tags e →
    e = [0] ∧ (Ready result.2 b stack ∨ Armed result.2 .Byte 0 0 b stack)

section
variable {t : τ} {tags : Tags} {b : Bytes} {stack : List ListPos}

variable {s : Stream}
theorem passes_error {err : DecodeError τ} (notEnd : err ≠ .stream .EOL) :
    Passes types t tags b stack (.error err,s) := ⟨by simpa using notEnd,by simp⟩
theorem passes_ok {v : Val} (written : ∀ e, Denotes types v t tags e → e = [0])
    (after : Ready s b stack ∨ Armed s .Byte 0 0 b stack) : Passes types t tags b stack (.ok v,s) := by
  refine ⟨by simp,?_⟩
  rintro v e same denotes
  obtain rfl := Except.ok.inj same
  exact ⟨written e denotes,after⟩
theorem passes_ptr {x : τ} (shape : types t = .ptr x) {dec : Decoder τ Val}
    (inner : Passes types x .none b stack (dec s)) : Passes types t tags b stack (decodePtr dec s) := by
  cases read : dec s with
  | mk result s₁ =>
    rw [read] at inner
    cases result with
    | error e =>
      simp only [decodePtr,read]
      exact passes_error (by simpa using inner.notEnd)
    | ok v =>
      simp only [decodePtr,read]
      refine ⟨by simp,?_⟩
      rintro v' e same denotes
      obtain rfl := Except.ok.inj same
      obtain ⟨x',shape',denotes⟩ := denotes
      obtain rfl : x = x' := by simpa [shape] using shape'
      exact inner.value v e rfl denotes
theorem decode_zero {fuel : Nat} (headed : tailed types t tags = false) {s₁ : Stream}
    (found : s.kind = (.ok (.Byte,0),s₁)) (armed : Armed s₁ .Byte 0 0 b stack) :
    Passes types t tags b stack (decode types fuel t tags s) := by
  induction fuel generalizing t tags s with
  | zero => exact passes_error (by simp)
  | succ fuel ih =>
    have asBytes : s.bytes = (.ok [0],s₁.release) := by simp [Stream.bytes,found,armed.byteval]
    have asUint (bits : Nat) : s.uint bits = (.error .canonInt,s₁) := by simp [Stream.uint,found,armed.byteval]
    have asList : s.list = (.error .expectedList,s₁) := by simp [Stream.list,found]
    have written : encodeString [0] = [0] := by decide
    cases shape : types t with
    | bool =>
      simp only [decode,shape,decodeBool,Stream.bool,asUint,wrapped,wrapStreamError]
      exact passes_error (by simp)
    | uint size =>
      simp only [decode,shape,decodeUint,asUint,wrapped,wrapStreamError]
      exact passes_error (by simp)
    | bigInt =>
      simp only [decode,shape,decodeBigInt,asBytes,head?_cons,if_true,wrapStreamError]
      exact passes_error (by simp)
    | string =>
      simp only [decode,shape,decodeString,asBytes,wrapped]
      exact passes_ok (fun e denotes => denotes.2.trans written) (.inl armed.release)
    | slice x =>
      cases byte : isByte types x with
      | true =>
        simp only [decode,shape,byte,if_true,decodeByteSlice,asBytes,wrapped]
        refine passes_ok ?_ (.inl armed.release)
        rintro e ⟨-,-,-,rfl⟩
        exact written
      | false =>
        have noTail : tags.tail = false := by simpa [tailed,shape,byte] using headed
        simp only [decode_slice shape byte noTail,decodeListSlice,asList,wrapStreamError]
        exact passes_error (by simp)
    | array vlen x =>
      cases byte : isByte types x with
      | true =>
        simp only [decode,shape,byte,if_true,decodeByteArray,found]
        split
        · exact passes_error (by simp)
        split
        · exact passes_error (by simp)
        simp only [uint_look found,asUint]
        refine passes_ok ?_ (.inr armed)
        rintro e ⟨-,-,-,rfl⟩
        exact written
      | false =>
        simp only [decode_array shape byte,decodeListArray,asList,wrapStreamError]
        exact passes_error (by simp)
    | struct fields =>
      simp only [decode,shape,decodeStruct,asList,wrapStreamError]
      exact passes_error (by simp)
    | ptr x =>
      cases big : isBigInt types x with
      | true =>
        simp only [decode_bigPtr shape big,decodePtr,decodeBigInt,asBytes,head?_cons,if_true,wrapStreamError]
        exact passes_error (by simp)
      | false =>
        cases nilOK : tags.nilOK with
        | false =>
          rw [decode_ptr shape big nilOK]
          exact passes_ptr shape (ih rfl found)
        | true =>
          simp only [decode_optional shape big nilOK,decodeOptionalPtr,found,ne_eq,not_true_eq_false,and_false,if_false]
          exact passes_ptr shape (ih rfl (kind_armed armed))
    | iface =>
      simp only [decode,shape,decodeInterface,found,reduceCtorEq,if_false,bytes_look found,asBytes]
      exact passes_ok (fun e denotes => by simp [Denotes,shape] at denotes) (.inl armed.release)

end

/-- The stream has `m` zero bytes more before it than the values that are still to be read, `payload`, and perhaps one in
    the look-ahead. -/
def Lags (m : Nat) (s : Stream) (payload rest : Bytes) (below : List ListPos) : Prop :=
  ∃ pos, Armed s .Byte 0 0 (List.replicate m 0 ++ (payload ++ rest)) (⟨pos,pos + (m + payload.length)⟩ :: below) ∨
    0 < m ∧ Ready s (List.replicate m 0 ++ (payload ++ rest)) (⟨pos,pos + (m + payload.length)⟩ :: below)

section
variable {m fuel : Nat} {s s' : Stream} {e payload rest : Bytes} {below : List ListPos}

/-- One value later the stream lags by at least one byte. -/
theorem lags_step {t : τ} {tags : Tags} (headed : tailed types t tags = false) (lags : Lags m s (e ++ payload) rest below)
    {r : Except (DecodeError τ) Val} (read : decode types fuel t tags s = (r,s')) :
    r ≠ .error (.stream .EOL) ∧ ∀ v, r = .ok v → Denotes types v t tags e → ∃ m', 0 < m' ∧ Lags m' s' payload rest below := by
  have looked : ∃ k pos s₁, s.kind = (.ok (.Byte,0),s₁) ∧ Armed s₁ .Byte 0 0 (replicate k 0 ++ (e ++ payload ++ rest))
      (⟨pos,pos + (k + (e ++ payload).length)⟩ :: below) := by
    obtain ⟨pos,armed | ⟨positive,ready⟩⟩ := lags
    · exact ⟨m,pos,s,kind_armed armed,armed⟩
    · obtain ⟨k,rfl⟩ := Nat.exists_eq_add_of_le' positive
      rw [replicate_succ,cons_append] at ready
      obtain ⟨s₁,found,armed⟩ := kind_byte ready (by simp only [Room]; omega) (by simp)
      refine ⟨k,pos+1,s₁,found,?_⟩
      simpa only [bump,Nat.add_assoc,Nat.add_comm,Nat.add_left_comm] using armed
  obtain ⟨k,pos,s₁,found,armed⟩ := looked
  have passes : Passes types t tags _ _ (decode types fuel t tags s) := decode_zero headed found armed
  rw [read] at passes
  refine ⟨passes.notEnd,?_⟩
  rintro v rfl denotes
  obtain ⟨rfl,after⟩ := passes.value v e rfl denotes
  have moved : replicate k (0 : UInt8) ++ ([0] ++ payload ++ rest) = replicate (k+1) 0 ++ (payload ++ rest) := by
    simp [replicate_succ']
  have length : k + ([0] ++ payload).length = k + 1 + payload.length := by
    simp only [length_append,length_singleton]
    omega
  rw [moved,length] at after
  exact ⟨k+1,by omega,pos,after.symm.imp_right fun ready => ⟨by omega,ready⟩⟩
/-- A list that lags is not at its end. -/
theorem lags_end {wrap : StreamError → DecodeError τ} {v w : Val} (positive : 0 < m) (lags : Lags m s [] rest below) :
    listEndWith wrap v s ≠ (.ok w,s') := by
  obtain ⟨pos,top⟩ : ∃ pos, s.stack = ⟨pos,pos + m⟩ :: below := by
    obtain ⟨pos,armed | ⟨-,ready⟩⟩ := lags
    · exact ⟨pos,armed.stack_eq⟩
    · exact ⟨pos,ready.stack_eq⟩
  simp [listEndWith,Stream.listEnd,top,positive.ne']
variable {vs : List Val}
theorem lags_slice {x : τ} {rounds i : Nat} (lags : Lags m s payload rest below)
    (denotes : DenotesAll types vs x payload) :
    decodeSliceElems (decode types fuel x .none) rounds i s ≠ (.ok vs,s') := by
  induction rounds generalizing m s payload vs i with
  | zero => simp [decodeSliceElems]
  | succ rounds ih =>
    intro read
    rcases next_ok.mp read with ⟨ended,⟨⟩⟩ | ⟨v,vs,s₁,one,all,rfl⟩
    · exact (lags_step (e := []) rfl lags ended).1 rfl
    · obtain ⟨e₁,e₂,first,others,rfl⟩ := denotes
      obtain ⟨m',-,lags'⟩ := (lags_step rfl lags one).2 v rfl first
      exact ih lags' others all
theorem lags_fields {t : τ} {fields : List (Field τ)} (lags : Lags m s payload rest below)
    (some : 0 < m ∨ vs ≠ []) (denotes : DenotesFields types vs fields payload)
    (read : decodeFields t (fun f => decode types fuel f.typ f.tags) fields s = (.ok vs,s')) :
    ∃ m', 0 < m' ∧ Lags m' s' [] rest below := by
  induction vs generalizing m s payload fields with
  | nil =>
    cases fields with
    | nil =>
      obtain rfl : payload = [] := denotes
      simp only [decodeFields,Prod.mk.injEq,true_and] at read
      subst read
      exact ⟨m,by simpa using some,lags⟩
    | cons f fs => exact denotes.elim
  | cons v vs ih =>
    cases fields with
    | nil => exact denotes.elim
    | cons f fs =>
      obtain ⟨e₁,e₂,first,others,rfl,isLast⟩ := denotes
      obtain ⟨v',vs',s₁,one,all,same⟩ := fields_inv read
      obtain ⟨rfl,rfl⟩ := List.cons.inj same
      cases tail : tailed types f.typ f.tags with
      | false =>
        obtain ⟨m',positive,lags'⟩ := (lags_step tail lags one).2 v rfl first
        exact ih lags' (.inl positive) others all
      | true =>
        obtain rfl := isLast tail
        obtain ⟨x,ws,shape,notByte,isTail,rfl,elements⟩ := denotes_tail tail first
        obtain rfl : e₂ = [] := by
          cases vs with
          | nil => exact others
          | cons v vs => exact others.elim
        cases fuel with
        | zero => simp [decode] at one
        | succ fuel =>
          obtain ⟨ws',elems,same⟩ := (decode_tail shape notByte isTail).mp one
          obtain rfl := list.inj same
          rw [append_nil] at lags
          exact absurd elems (lags_slice lags elements)

end

/-! ### What is read back is clean -/

/-- The value is clean if it is read back. -/
structure CleanIfRead (types : τ → Shape τ) (v : Val) : Prop where
  headed : ∀ (t : τ) (tags : Tags) (e : Bytes), tailed types t tags = false → Denotes types v t tags e → Fits e →
    ∀ᶠ fuel in atTop, ∀ (s s' : Stream) (rest : Bytes) (stack : List ListPos), Ready s (e ++ rest) stack →
      Room e.length stack → decode types fuel t tags s = (.ok v,s') → Clean types v t tags
  tail : ∀ (t : τ) (tags : Tags) (e : Bytes), tailed types t tags = true → Denotes types v t tags e → Fits e →
    ∀ᶠ fuel in atTop, ∀ (s s' : Stream) (rest : Bytes) (pos : Nat) (below : List ListPos),
      Ready s (e ++ rest) (⟨pos,pos + e.length⟩ :: below) → decode types fuel t tags s = (.ok v,s') → Clean types v t tags

/-- After the first value of a list: it is clean, and the stream is behind it or lags. -/
theorem first_read {v : Val} (reads : ReadsBack types v) (cleans : CleanIfRead types v) {t : τ} {tags : Tags} {e : Bytes}
    (headed : tailed types t tags = false) (denotes : Denotes types v t tags e) (fits : Fits e) :
    ∀ᶠ fuel in atTop, ∀ (s s₁ : Stream) (payload rest : Bytes) (pos : Nat) (below : List ListPos),
      Ready s (e ++ payload ++ rest) (⟨pos,pos + (e ++ payload).length⟩ :: below) →
      decode types fuel t tags s = (.ok v,s₁) → Clean types v t tags ∧
        if stuck types v t then Lags 0 s₁ payload rest below
        else Ready s₁ (payload ++ rest) (⟨pos + e.length,pos + e.length + payload.length⟩ :: below) := by
  have isClean := cleans.headed t tags e headed denotes fits
  have reading : ∀ᶠ fuel in atTop, Clean types v t tags → Decodes (stuck types v t) (decode types fuel t tags) e v := by
    by_cases clean : Clean types v t tags
    · filter_upwards [reads.headed t tags e headed denotes clean fits] with fuel decodes _
      exact decodes
    · exact Eventually.of_forall fun fuel isClean => absurd isClean clean
  filter_upwards [isClean,reading] with fuel isClean reading s s₁ payload rest pos below ready read
  rw [length_append,← Nat.add_assoc,append_assoc] at ready
  have clean := isClean s s₁ _ _ ready (by simp [Room]) read
  obtain ⟨s₁',read',after⟩ := reading clean s _ _ ready (by simp [Room])
  obtain rfl : s₁ = s₁' := by simpa [read] using read'
  refine ⟨clean,?_⟩
  cases lag : stuck types v t with
  | true =>
    simp only [lag,if_true] at after ⊢
    exact ⟨_,.inl (by simpa [bump] using after)⟩
  | false =>
    simp only [lag,Bool.false_eq_true,if_false] at after ⊢
    exact after

section
variable {vs : List Val} (reads : ∀ v ∈ vs, ReadsBack types v) (cleans : ∀ v ∈ vs, CleanIfRead types v) {x : τ}
  {payload : Bytes}
include reads cleans

theorem slice_clean (denotes : DenotesAll types vs x payload) (fits : Fits payload) :
    ∀ᶠ fuel in atTop, ∀ (rounds i : Nat) (s s' : Stream) (rest : Bytes) (pos : Nat) (below : List ListPos),
      Ready s (payload ++ rest) (⟨pos,pos + payload.length⟩ :: below) →
      decodeSliceElems (decode types fuel x .none) rounds i s = (.ok vs,s') → CleanSlice types vs x := by
  induction vs generalizing payload with
  | nil => exact Eventually.of_forall fun _ _ _ _ _ _ _ _ _ _ => trivial
  | cons v vs ih =>
    obtain ⟨e₁,e₂,first,others,rfl⟩ := denotes
    obtain ⟨fits₁,fits₂⟩ := fits_append fits
    filter_upwards [first_read (reads v (by simp)) (cleans v (by simp)) rfl first fits₁,
      ih (fun v member => reads v (by simp [member])) (fun v member => cleans v (by simp [member])) others fits₂]
      with fuel one all rounds i s s' rest pos below ready read
    cases rounds with
    | zero => simp [decodeSliceElems] at read
    | succ rounds =>
      rcases next_ok.mp read with ⟨-,same⟩ | ⟨v',vs',s₁,readFirst,readOthers,same⟩
      · simp at same
      · obtain ⟨rfl,rfl⟩ := List.cons.inj same
        obtain ⟨clean,after⟩ := one s s₁ e₂ rest pos below ready readFirst
        cases lag : stuck types v x with
        | true =>
          simp only [lag,if_true] at after
          exact absurd readOthers (lags_slice after others)
        | false =>
          simp only [lag,Bool.false_eq_true,if_false] at after
          exact ⟨clean,lag,all _ _ _ _ _ _ _ after readOthers⟩
theorem fields_clean (t : τ) {fields : List (Field τ)} (denotes : DenotesFields types vs fields payload) (fits : Fits payload) :
    ∀ᶠ fuel in atTop, ∀ (s s' : Stream) (rest : Bytes) (pos : Nat) (below : List ListPos),
      Ready s (payload ++ rest) (⟨pos,pos + payload.length⟩ :: below) →
      decodeFields t (fun f => decode types fuel f.typ f.tags) fields s = (.ok vs,s') →
      CleanFields types vs fields ∨ ∃ m, 0 < m ∧ Lags m s' [] rest below := by
  induction vs generalizing fields payload with
  | nil => exact Eventually.of_forall fun _ _ _ _ _ _ _ _ => .inl (by simp [CleanFields])
  | cons v vs ih =>
    cases fields with
    | nil => exact denotes.elim
    | cons f fs =>
      obtain ⟨e₁,e₂,first,others,rfl,isLast⟩ := denotes
      obtain ⟨fits₁,fits₂⟩ := fits_append fits
      cases tail : tailed types f.typ f.tags with
      | true =>
        obtain rfl := isLast tail
        cases vs with
        | cons v vs => exact others.elim
        | nil =>
          obtain rfl : e₂ = [] := others
          rw [append_nil]
          filter_upwards [(cleans v (by simp)).tail f.typ f.tags e₁ tail first fits₁] with fuel one s s' rest pos below ready read
          obtain ⟨v',vs',s₁,readFirst,-,same⟩ := fields_inv read
          obtain ⟨rfl,-⟩ := List.cons.inj same
          exact .inl ⟨one s s₁ rest pos below ready readFirst,fun more => absurd rfl more,by simp [CleanFields]⟩
      | false =>
        filter_upwards [first_read (reads v (by simp)) (cleans v (by simp)) tail first fits₁,
          ih (fun v member => reads v (by simp [member])) (fun v member => cleans v (by simp [member])) others fits₂]
          with fuel one all s s' rest pos below ready read
        obtain ⟨v',vs',s₁,readFirst,readOthers,same⟩ := fields_inv read
        obtain ⟨rfl,rfl⟩ := List.cons.inj same
        obtain ⟨clean,after⟩ := one s s₁ e₂ rest pos below ready readFirst
        cases lag : stuck types v f.typ with
        | true =>
          simp only [lag,if_true] at after
          by_cases last : vs = []
          · subst last
            cases fs with
            | nil => exact .inl ⟨clean,fun more => absurd rfl more,by simp [CleanFields]⟩
            | cons f fs => exact others.elim
          · exact .inr (lags_fields after (.inr last) others readOthers)
        | false =>
          simp only [lag,Bool.false_eq_true,if_false] at after
          exact (all _ _ _ _ _ after readOthers).imp_left fun cleanOthers => ⟨clean,fun _ => lag,cleanOthers⟩

end

/-- The number of elements does not depend on the input, so a list that lags is found out at its end. -/
theorem closed_clean {P : Prop} {dec : Decoder τ (List Val)} {make : List Val → Val} {wrap : StreamError → DecodeError τ}
    {vs : List Val} {s s' : Stream} {rest : Bytes} {below : List ListPos} (inj : ∀ ws, make ws = make vs → ws = vs)
    (cleans : ∀ s₁, dec s = (.ok vs,s₁) → P ∨ ∃ m, 0 < m ∧ Lags m s₁ [] rest below)
    (read : (match dec s with
      | (.error e,s) => (.error e,s)
      | (.ok vs,s) => listEndWith wrap (make vs) s) = (.ok (make vs),s')) : P := by
  cases all : dec s with
  | mk result s₁ =>
    cases result with
    | error e => simp [all] at read
    | ok ws =>
      simp only [all] at read
      obtain ⟨same,-⟩ := listEndWith_inv read
      obtain rfl := inj ws same.symm
      rcases cleans s₁ all with clean | ⟨m,positive,lags⟩
      · exact clean
      · exact absurd read (lags_end positive lags)

/-- Every value that is read back is clean. -/
theorem clean_val (grounded : Grounded types) (v : Val) : CleanIfRead types v := by
  induction v using induct with
  | list vs ih =>
    have reads : ∀ v ∈ vs, ReadsBack types v := fun v _ => reads_val grounded v
    refine ⟨?_,?_⟩
    · rintro t tags e headed ⟨x,payload,notByte,elements,⟨shape,rfl⟩ | ⟨shape,rfl⟩⟩ fits
      · have noTail : tags.tail = false := by simpa [tailed,shape,notByte] using headed
        simp only [noTail,Bool.false_eq_true,if_false] at fits ⊢
        simp only [Clean,shape]
        apply eventually_succ
        filter_upwards [slice_clean reads ih elements (fits_payload fits)] with fuel all s s' rest stack ready room read
        obtain ⟨s₁,entered,ready₁⟩ := list_ok (at_list ready room (fits_payload fits))
        rw [← Nat.zero_add payload.length] at ready₁
        simp only [decode_slice shape notByte noTail,decodeListSlice,entered] at read
        split at read
        · obtain ⟨same,-⟩ := listEndWith_inv read
          obtain rfl := list.inj same
          trivial
        · cases elems : decodeSliceElems (decode types fuel x .none) fuel 0 s₁ with
          | mk result s₂ =>
            rw [elems] at read
            cases result with
            | error e => simp at read
            | ok ws =>
              obtain ⟨same,-⟩ := listEndWith_inv read
              obtain rfl := list.inj same
              exact all _ _ _ _ _ _ _ ready₁ elems
      · simp only [Clean,shape]
        apply eventually_succ
        filter_upwards [fields_clean reads ih t (denotesAll_fields elements) (fits_payload fits)]
          with fuel all s s' rest stack ready room read
        obtain ⟨s₁,entered,ready₁⟩ := list_ok (at_list ready room (fits_payload fits))
        rw [← Nat.zero_add payload.length] at ready₁
        simp only [decode_array shape notByte,decodeListArray,entered] at read
        rw [cleanArray_fields]
        exact closed_clean (fun _ => list.inj) (fun s₂ elems => all _ _ _ _ _ ready₁ ((arrayElems_fields rfl).mp elems)) read
    · rintro t tags e tail denotes fits
      obtain ⟨x,ws,shape,notByte,isTail,same,elements⟩ := denotes_tail tail denotes
      obtain rfl := list.inj same
      simp only [Clean,shape]
      apply eventually_succ
      filter_upwards [slice_clean reads ih elements fits] with fuel all s s' rest pos below ready read
      obtain ⟨ws,elems,same⟩ := (decode_tail shape notByte isTail).mp read
      obtain rfl := list.inj same
      exact all _ _ _ _ _ _ _ ready elems
  | struct vs ih =>
    have reads : ∀ v ∈ vs, ReadsBack types v := fun v _ => reads_val grounded v
    refine ⟨?_,?_⟩
    · rintro t tags e - ⟨fields,payload,shape,elements,rfl⟩ fits
      simp only [Clean,shape]
      apply eventually_succ
      filter_upwards [fields_clean reads ih t elements (fits_payload fits)] with fuel all s s' rest stack ready room read
      obtain ⟨s₁,entered,ready₁⟩ := list_ok (at_list ready room (fits_payload fits))
      rw [← Nat.zero_add payload.length] at ready₁
      simp only [decode,shape,decodeStruct,entered] at read
      exact closed_clean (fun _ => struct.inj) (fun s₂ => all _ _ _ _ _ ready₁) read
    · rintro t tags e tail ⟨fields,payload,shape,-⟩
      simp [tailed,shape] at tail
  | ptr v ih =>
    refine ⟨?_,?_⟩
    · rintro t tags e - ⟨x,shape,inner⟩ fits
      simp only [Clean,shape]
      cases big : isBigInt types x with
      | true =>
        obtain ⟨n,rfl,-⟩ := denotes_big big inner
        exact Eventually.of_forall fun _ _ _ _ _ _ _ _ => ⟨trivial,by simp⟩
      | false =>
        apply eventually_succ
        filter_upwards [ih.headed x .none e rfl inner fits] with fuel one s s' rest stack ready room read
        cases nilOK : tags.nilOK with
        | false =>
          rw [decode_ptr shape big nilOK,decodePtr_ok] at read
          obtain ⟨v',readInner,same⟩ := read
          obtain rfl := ptr.inj same
          exact ⟨one s s' rest stack ready room readInner,by simp⟩
        | true =>
          obtain ⟨k,n,s₁,found,size,-⟩ := kind_value (denotes_value inner fits rfl) ready room
          simp only [decode_optional shape big nilOK,decodeOptionalPtr,found] at read
          split at read
          · simp at read
          · rename_i notEmpty
            rw [decodePtr_ok] at read
            obtain ⟨v',readInner,same⟩ := read
            obtain rfl := ptr.inj same
            refine ⟨one s s' rest stack ready room ((decode_look rfl found).mp readInner),fun _ _ => ⟨?_,?_⟩⟩
            · intro empty
              exact notEmpty (size.mpr (.inl (denotes_unique inner fits empty (by simp [Fits]))))
            · intro empty
              exact notEmpty (size.mpr (.inr (denotes_unique inner fits empty (by simp [Fits]))))
    · rintro t tags e tail ⟨x,shape,-⟩
      simp [tailed,shape] at tail
  | nil =>
    refine ⟨?_,?_⟩
    · rintro t tags e - ⟨nilOK,x,shape,-⟩ -
      simp only [Clean,shape]
      refine eventually_succ (Eventually.of_forall fun fuel s s' rest stack _ _ read => ?_)
      cases big : isBigInt types x with
      | false => rfl
      | true =>
        rw [decode_bigPtr shape big,decodePtr_ok] at read
        obtain ⟨v,-,same⟩ := read
        simp at same
    · rintro t tags e tail ⟨-,x,shape,-⟩
      simp [tailed,shape] at tail
  | _ =>
    constructor
    · intros
      exact Eventually.of_forall fun _ _ _ _ _ _ _ _ => by simp [Clean]
    · intros
      exact Eventually.of_forall fun _ _ _ _ _ _ _ _ => by simp [Clean]

/-- A value is read back from its encoding if and only if it is clean. -/
theorem typed_roundtrip_iff_clean (grounded : Grounded types) {t : τ} {v : Val} {e : Bytes} (denotes : Denotes types v t .none e)
    (fits : Fits e) :
    (∃ enough, ∀ fuel ≥ enough, ∃ b, encodeToBytes types fuel t v = .ok b ∧ decodeBytes types fuel t b = .ok v) ↔
      Clean types v t .none := by
  have encodes : ∀ᶠ fuel in atTop, encodeToBytes types fuel t v = .ok e := by
    filter_upwards [writes_val v t .none e denotes fits] with fuel writes
    obtain ⟨w,written,writes⟩ := writes .empty
    simp [encodeToBytes,written,Except.map,writes.toBytes]
  have ready : Ready (newStream e) (e ++ []) [] := by simpa using newStream_ready e
  rw [← eventually_atTop]
  constructor
  · intro returns
    obtain ⟨fuel,⟨b,encoded,decoded⟩,encoded',cleans⟩ :=
      (returns.and (encodes.and ((clean_val grounded v).headed t .none e rfl denotes fits))).exists
    obtain rfl : b = e := by simpa [encoded] using encoded'
    obtain ⟨s',read,-⟩ := decodeBytes_ok decoded
    exact cleans _ s' [] [] ready trivial read
  · intro clean
    filter_upwards [encodes,(reads_val grounded v).headed t .none e rfl denotes clean fits] with fuel encoded decodes
    refine ⟨e,encoded,?_⟩
    obtain ⟨s',read,after⟩ := decodes _ [] [] ready trivial
    have consumed : s'.input = [] := by
      split at after
      · exact after.input
      · exact after.input
    simp [decodeBytes,streamDecode,read,consumed]

end

/-! `struct { A [1]byte; B uint8 }` and `struct { B uint8; A [1]byte }`. -/

def sampleTypes : Fin 4 → Shape (Fin 4)
  | 0 => .struct [⟨"A",2,.none⟩,⟨"B",3,.none⟩]
  | 1 => .struct [⟨"B",3,.none⟩,⟨"A",2,.none⟩]
  | 2 => .array 1 3
  | 3 => .uint 1

theorem typed_roundtrip_array_last : Clean sampleTypes (.struct [.uint 5,.bytes [0]]) 1 .none ∧
    ∃ enough, ∀ fuel ≥ enough, ∃ b, encodeToBytes sampleTypes fuel 1 (.struct [.uint 5,.bytes [0]]) = .ok b ∧
      decodeBytes sampleTypes fuel 1 b = .ok (.struct [.uint 5,.bytes [0]]) := by
  have clean : Clean sampleTypes (.struct [.uint 5,.bytes [0]]) 1 .none := by
    simp [Clean,CleanFields,sampleTypes,stuck]
  have grounded : Grounded sampleTypes := fun t => ⟨1,by revert t; decide⟩
  have denotes : Denotes sampleTypes (.struct [.uint 5,.bytes [0]]) 1 .none [0xC2,0x05,0x00] :=
    ⟨_,[0x05,0x00],rfl,⟨[0x05],[0x00],⟨1,rfl,by simp,by decide,by decide⟩,
      ⟨[0x00],[],⟨3,rfl,.inr rfl,by decide⟩,rfl,rfl,by decide⟩,rfl,by decide⟩,by decide⟩
  exact ⟨clean,(typed_roundtrip_iff_clean grounded denotes (by simp [Fits])).mpr clean⟩
/-- With the array in front, its byte is met again as the number, where it is not canonical. -/
theorem array_in_front_lost : Denotes sampleTypes (.struct [.bytes [0],.uint 5]) 0 .none [0xC2,0x00,0x05] ∧
    ∀ fuel, encodeToBytes sampleTypes fuel 0 (.struct [.bytes [0],.uint 5]) = .ok [0xC2,0x00,0x05] ∧
      decodeBytes sampleTypes (fuel+2) 0 [0xC2,0x00,0x05] = .error (.decode .nonCanonicalInteger 3 [.field "B",.root]) := by
  refine ⟨⟨_,[0x00,0x05],rfl,⟨[0x00],[0x05],⟨3,rfl,.inr rfl,by decide⟩,
    ⟨[0x05],[],⟨1,rfl,by simp,by decide,by decide⟩,rfl,rfl,by decide⟩,rfl,by decide⟩,by decide⟩,fun fuel => ⟨?_,?_⟩⟩
  · have byte : isByte sampleTypes 3 = true := rfl
    simp only [encodeToBytes,write,sampleTypes,writeFields,byte,if_true,Except.bind,Except.map]
    decide
  · have byte : isByte sampleTypes 3 = true := rfl
    simp only [decodeBytes,streamDecode,decode,sampleTypes,decodeStruct,decodeFields,byte,if_true]
    rfl

end Canchain.Rlp
