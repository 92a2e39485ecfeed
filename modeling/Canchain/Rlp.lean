import Mathlib.Tactic

/-!
The string and list heads of RLP as `lib/rlp` writes and reads them. An encoded
item is self-delimiting: `split` returns the content of the item at the front of a
buffer and the rest, so two sequences of items that are written to the same bytes
have the same contents.
-/
namespace Canchain.Rlp
open List Option Except Prod UInt8

abbrev Bytes := List UInt8

/-- The big-endian bytes of `n` without leading zeros, at most `fuel` of them. -/
def bigEndian : Nat → Nat → Bytes
  | 0, _ => []
  | fuel+1, n => if n = 0 then [] else bigEndian fuel (n/256) ++ [UInt8.ofNat (n%256)]
/-- `putint` of the source, which is also `big.Int.Bytes`. -/
def putint (n : Nat) : Bytes := bigEndian (n.log2/8+1) n
/-- The value of big-endian bytes, as `readSize` and `big.Int.SetBytes` read it. -/
def getint (b : Bytes) : Nat := b.foldl (fun acc x => acc*256 + x.toNat) 0

theorem getint_append (a b : Bytes) : getint (a ++ b) = getint a * 256^b.length + getint b := by
  have general : ∀ (b : Bytes) (n : Nat),
      b.foldl (fun acc x => acc*256 + x.toNat) n = n * 256^b.length + getint b := by
    intro b
    induction b with
    | nil => intro n; simp [getint]
    | cons x rest ih =>
      intro n
      simp only [foldl_cons,getint,length_cons]
      rw [ih,ih]
      ring
  simp only [getint,foldl_append]
  exact general b _

theorem getint_bigEndian (fuel n : Nat) (enough : n < 256^fuel) : getint (bigEndian fuel n) = n := by
  induction fuel generalizing n with
  | zero => simp at enough; simp [bigEndian,getint,enough]
  | succ fuel ih =>
    by_cases zero : n = 0
    · simp [bigEndian,zero,getint]
    · have smaller : n/256 < 256^fuel := by
        rw [pow_succ] at enough
        exact Nat.div_lt_of_lt_mul (by rw [Nat.mul_comm]; exact enough)
      have last : getint [ofNat (n%256)] = n%256 := by
        simp [getint]
      rw [bigEndian,if_neg zero,getint_append,ih _ smaller,last]
      simp only [length_singleton,pow_one]
      omega
theorem bigEndian_length (fuel n width : Nat) (fits : n < 256^width) : (bigEndian fuel n).length ≤ width := by
  induction fuel generalizing n width with
  | zero => simp [bigEndian]
  | succ fuel ih =>
    by_cases zero : n = 0
    · simp [bigEndian,zero]
    · cases width with
      | zero => simp at fits; exact absurd fits zero
      | succ width =>
        have smaller : n/256 < 256^width := by
          rw [pow_succ] at fits
          exact Nat.div_lt_of_lt_mul (by rw [Nat.mul_comm]; exact fits)
        have := ih (n/256) width smaller
        rw [bigEndian,if_neg zero]
        simp only [length_append,length_singleton]
        omega
theorem bigEndian_head (fuel n : Nat) (enough : n < 256^fuel) (x : UInt8) (rest : Bytes)
    (same : bigEndian fuel n = x :: rest) : x ≠ 0 := by
  induction fuel generalizing n rest with
  | zero => simp [bigEndian] at same
  | succ fuel ih =>
    by_cases zero : n = 0
    · simp [bigEndian,zero] at same
    · have smaller : n/256 < 256^fuel := by
        rw [pow_succ] at enough
        exact Nat.div_lt_of_lt_mul (by rw [Nat.mul_comm]; exact enough)
      rw [bigEndian,if_neg zero] at same
      cases front : bigEndian fuel (n/256) with
      | nil =>
        -- The quotient has no byte, so it is zero and `x` is all of `n`.
        have quotient : n/256 = 0 := by
          rw [← getint_bigEndian fuel _ smaller,front]; rfl
        simp only [front,nil_append,List.cons.injEq] at same
        rw [← same.1]
        intro isZero
        have := congrArg UInt8.toNat isZero
        simp at this
        omega
      | cons y tail =>
        simp only [front,cons_append,List.cons.injEq] at same
        obtain ⟨rfl,-⟩ := same
        exact ih _ smaller tail front

theorem putint_enough (n : Nat) : n < 256^(n.log2/8+1) := by
  have bound : n < 2^(n.log2+1) := Nat.lt_log2_self
  have base : (256 : Nat) = 2^8 := by norm_num
  rw [base,← pow_mul]
  exact bound.trans_le (Nat.pow_le_pow_right (by norm_num) (by omega))
@[simp] theorem getint_putint (n : Nat) : getint (putint n) = n := getint_bigEndian _ n (putint_enough n)
theorem putint_length (n width : Nat) (fits : n < 256^width) : (putint n).length ≤ width :=
  bigEndian_length _ n width fits
theorem putint_head (n : Nat) (x : UInt8) (rest : Bytes) (same : putint n = x :: rest) : x ≠ 0 :=
  bigEndian_head _ n (putint_enough n) x rest same
theorem putint_ne_nil (n : Nat) (positive : 0 < n) : putint n ≠ [] := by
  intro nil
  have := getint_putint n
  rw [nil] at this
  simp [getint] at this
  omega

/-- `puthead`: a short size sits in the tag, a long one follows it big-endian. -/
def puthead (smalltag largetag : UInt8) (size : Nat) : Bytes :=
  if size < 56 then [smalltag + UInt8.ofNat size]
  else (largetag + UInt8.ofNat (putint size).length) :: putint size
/-- `encbuf.encodeString`. -/
def encodeString (b : Bytes) : Bytes :=
  match b with
  | [x] => if x ≤ 0x7F then [x] else puthead 0x80 0xB7 1 ++ [x]
  | b => puthead 0x80 0xB7 b.length ++ b
/-- A list whose items are already encoded: `listEnd` followed by the head. -/
def encodeList (payload : Bytes) : Bytes := puthead 0xC0 0xF7 payload.length ++ payload

theorem puthead_ne_nil (smalltag largetag : UInt8) (size : Nat) : puthead smalltag largetag size ≠ [] := by
  unfold puthead
  split <;> simp
theorem encodeString_ne_nil (b : Bytes) : encodeString b ≠ [] := by
  unfold encodeString
  split
  · split <;> simp
  · simp [puthead_ne_nil]
theorem encodeList_ne_nil (payload : Bytes) : encodeList payload ≠ [] := by simp [encodeList,puthead_ne_nil]

inductive Kind where
  | Byte | String | List
  deriving DecidableEq, Repr
inductive Error where
  | unexpectedEOF | canonSize | valueTooLarge | expectedString | expectedList
  deriving DecidableEq, Repr

/-- `readSize`: the long form must be needed and must not be padded. -/
def readSize (b : Bytes) (slen : Nat) : Except Error Nat :=
  if slen > b.length then .error .unexpectedEOF
  else if getint (b.take slen) < 56 || b.head? = some 0 then .error .canonSize
  else .ok (getint (b.take slen))
/-- `readKind`: kind, tag size and content size of the item at the front. -/
def readKind (buf : Bytes) : Except Error (Kind × Nat × Nat) :=
  match buf with
  | [] => .error .unexpectedEOF
  | b :: tail =>
    let fits (k : Kind) (tagsize contentsize : Nat) : Except Error (Kind × Nat × Nat) :=
      if contentsize > buf.length - tagsize then .error .valueTooLarge else .ok (k,tagsize,contentsize)
    if b.toNat < 0x80 then fits .Byte 0 1
    else if b.toNat < 0xB8 then
      if b.toNat - 0x80 = 1 ∧ (∃ c ∈ tail.head?, c.toNat < 128) then .error .canonSize
      else fits .String 1 (b.toNat - 0x80)
    else if b.toNat < 0xC0 then
      match readSize tail (b.toNat - 0xB7) with
      | .error e => .error e
      | .ok size => fits .String (b.toNat - 0xB7 + 1) size
    else if b.toNat < 0xF8 then fits .List 1 (b.toNat - 0xC0)
    else
      match readSize tail (b.toNat - 0xF7) with
      | .error e => .error e
      | .ok size => fits .List (b.toNat - 0xF7 + 1) size
/-- `Split`: kind, content and rest. -/
def split (b : Bytes) : Except Error (Kind × Bytes × Bytes) :=
  match readKind b with
  | .error e => .error e
  | .ok (k,ts,cs) => .ok (k,(b.drop ts).take cs,b.drop (ts+cs))
def splitString (b : Bytes) : Except Error (Bytes × Bytes) :=
  match split b with
  | .error e => .error e
  | .ok (k,content,rest) => if k = .List then .error .expectedString else .ok (content,rest)
def splitList (b : Bytes) : Except Error (Bytes × Bytes) :=
  match split b with
  | .error e => .error e
  | .ok (k,content,rest) => if k ≠ .List then .error .expectedList else .ok (content,rest)

/-! ### Reading back what was written -/

/-- Contents that `puthead` can announce: the size is a `uint64`. -/
def Fits (b : Bytes) : Prop := b.length < 2^64

theorem readSize_putint (size : Nat) (long : 56 ≤ size) (rest : Bytes) :
    readSize (putint size ++ rest) (putint size).length = .ok size := by
  have inside : ¬ (putint size).length > (putint size ++ rest).length := by simp
  have front : (putint size ++ rest).take (putint size).length = putint size := by simp
  have head : (putint size ++ rest).head? ≠ some 0 := by
    cases same : putint size with
    | nil => exact absurd same (putint_ne_nil size (by omega))
    | cons x tail =>
      simp only [cons_append,List.head?_cons,ne_eq,some.injEq]
      exact putint_head size x tail same
  have notSmall : ¬ (size < 56) := by omega
  rw [readSize,if_neg inside,front,getint_putint]
  simp only [notSmall,head,decide_false,Bool.or_false,Bool.false_eq_true,↓reduceIte]

private theorem tag_toNat (tag n : Nat) (small : tag + n < 256) :
    (ofNat tag + ofNat n).toNat = tag + n := by
  rw [UInt8.toNat_add,toNat_ofNat',toNat_ofNat',← Nat.add_mod]
  exact Nat.mod_eq_of_lt small

private theorem putint_width (size : Nat) (bound : size < 2^64) (long : 56 ≤ size) :
    1 ≤ (putint size).length ∧ (putint size).length ≤ 8 := by
  refine ⟨length_pos_iff.mpr (putint_ne_nil size (by omega)),?_⟩
  exact putint_length size 8 (by norm_num; omega)

/-- What `readKind` measured is what `split` cuts out. -/
private theorem split_of_readKind {k : Kind} (head content rest : Bytes)
    (kind : readKind (head ++ content ++ rest) = .ok (k,head.length,content.length)) :
    split (head ++ content ++ rest) = .ok (k,content,rest) := by
  have tail : (head ++ content ++ rest).drop (head.length + content.length) = rest := by
    rw [← length_append,drop_left]
  rw [split,kind]
  simp only [tail]
  simp only [append_assoc,drop_left,take_left]

/-- The item `encodeString b` at the front of a buffer is read back as `b`. -/
theorem split_encodeString (b rest : Bytes) (fits : Fits b) :
    ∃ k, k ≠ Kind.List ∧ split (encodeString b ++ rest) = .ok (k,b,rest) := by
  unfold Fits at fits
  have short (b : Bytes) (small : b.length < 56) (notByte : ∀ x, b = [x] → 0x7F < x) :
      split (puthead 0x80 0xB7 b.length ++ b ++ rest) = .ok (.String,b,rest) := by
    have tag : ((0x80 : UInt8) + ofNat b.length).toNat = 0x80 + b.length := tag_toNat 0x80 b.length (by omega)
    have canonical : ¬ (b.length = 1 ∧ ∃ c ∈ (b ++ rest).head?, c.toNat < 128) := by
      rintro ⟨one,c,first,low⟩
      obtain ⟨x,rfl⟩ := length_eq_one_iff.mp one
      simp only [singleton_append,List.head?_cons,mem_def,some.injEq] at first
      have := notByte x rfl
      rw [lt_iff_toNat_lt] at this
      rw [first] at this
      simp at this
      omega
    apply split_of_readKind
    simp only [puthead,if_pos small,cons_append,nil_append,readKind,tag,
      Nat.add_sub_cancel_left,length_singleton]
    rw [if_neg (by omega),if_pos (by omega),if_neg canonical,if_neg (by simp)]
  have long (b : Bytes) (large : 56 ≤ b.length) (bound : b.length < 2^64) :
      split (puthead 0x80 0xB7 b.length ++ b ++ rest) = .ok (.String,b,rest) := by
    obtain ⟨low,high⟩ := putint_width b.length bound large
    have tag : ((0xB7 : UInt8) + ofNat (putint b.length).length).toNat = 0xB7 + (putint b.length).length :=
      tag_toNat 0xB7 _ (by omega)
    have notSmall : ¬ b.length < 56 := by omega
    apply split_of_readKind
    simp only [puthead,if_neg notSmall,cons_append,append_assoc,readKind,tag,
      Nat.add_sub_cancel_left,readSize_putint _ large,length_cons]
    rw [if_neg (by omega),if_neg (by omega),if_pos (by omega),if_neg]
    simp
  match b with
  | [x] =>
    by_cases low : x ≤ 0x7F
    · have low' : x.toNat < 0x80 := by
        rw [le_iff_toNat_le] at low
        simp at low
        omega
      refine ⟨.Byte,by simp,?_⟩
      simp [encodeString,if_pos low,split,readKind,if_pos low']
    · refine ⟨.String,by simp,?_⟩
      have := short [x] (by simp) (by intro y same; cases same; exact UInt8.not_le.mp low)
      simpa [encodeString,if_neg low] using this
  | [] => exact ⟨.String,by simp,by simpa [encodeString] using short [] (by simp) (by simp)⟩
  | x :: y :: tail =>
    refine ⟨.String,by simp,?_⟩
    rcases Nat.lt_or_ge (x :: y :: tail).length 56 with small | large
    · exact short _ small (by simp)
    · exact long _ large fits

/-- The list with the given payload at the front of a buffer is read back. -/
theorem split_encodeList (payload rest : Bytes) (fits : Fits payload) :
    split (encodeList payload ++ rest) = .ok (.List,payload,rest) := by
  unfold Fits at fits
  rcases Nat.lt_or_ge payload.length 56 with small | large
  · have tag : ((0xC0 : UInt8) + ofNat payload.length).toNat = 0xC0 + payload.length :=
      tag_toNat 0xC0 _ (by omega)
    apply split_of_readKind
    simp only [puthead,if_pos small,cons_append,nil_append,readKind,tag,
      Nat.add_sub_cancel_left,length_singleton]
    rw [if_neg (by omega),if_neg (by omega),if_neg (by omega),if_pos (by omega),if_neg]
    simp
  · obtain ⟨low,high⟩ := putint_width payload.length fits large
    have tag : ((0xF7 : UInt8) + ofNat (putint payload.length).length).toNat =
        0xF7 + (putint payload.length).length := tag_toNat 0xF7 _ (by omega)
    have notSmall : ¬ payload.length < 56 := by omega
    apply split_of_readKind
    simp only [puthead,if_neg notSmall,cons_append,append_assoc,readKind,tag,
      Nat.add_sub_cancel_left,readSize_putint _ large,length_cons]
    rw [if_neg (by omega),if_neg (by omega),if_neg (by omega),if_neg (by omega),if_neg]
    simp

variable {b : Bytes}
theorem encodeString_injective {a : Bytes} (fitsA : Fits a) (fitsB : Fits b)
    (same : encodeString a = encodeString b) : a = b := by
  obtain ⟨k,-,readA⟩ := split_encodeString a [] fitsA
  obtain ⟨l,-,readB⟩ := split_encodeString b [] fitsB
  rw [same,readB] at readA
  simp only [ok.injEq,mk.injEq] at readA
  exact readA.2.1.symm
theorem encodeList_injective {a : Bytes} (fitsA : Fits a) (fitsB : Fits b)
    (same : encodeList a = encodeList b) : a = b := by
  have readA := split_encodeList a [] fitsA
  have readB := split_encodeList b [] fitsB
  rw [same,readB] at readA
  simp only [ok.injEq,mk.injEq] at readA
  exact readA.2.1.symm
theorem encodeString_ne_encodeList {a : Bytes} (fitsA : Fits a) (fitsB : Fits b) : encodeString a ≠ encodeList b := by
  intro same
  obtain ⟨k,notList,readA⟩ := split_encodeString a [] fitsA
  have readB := split_encodeList b [] fitsB
  rw [same,readB] at readA
  simp only [ok.injEq,mk.injEq] at readA
  exact notList readA.1.symm

/-- A whole item: at the front of any buffer it is what `split` takes off. -/
def IsItem (e : Bytes) : Prop := ∀ rest, ∃ k content, split (e ++ rest) = .ok (k,content,rest)

theorem isItem_encodeString (fits : Fits b) : IsItem (encodeString b) := by
  intro rest
  obtain ⟨k,-,read⟩ := split_encodeString b rest fits
  exact ⟨k,b,read⟩
theorem isItem_encodeList {payload : Bytes} (fits : Fits payload) : IsItem (encodeList payload) :=
  fun rest => ⟨.List,payload,split_encodeList payload rest fits⟩
theorem IsItem.ne_nil {e : Bytes} (item : IsItem e) : e ≠ [] := by
  rintro rfl
  obtain ⟨k,content,read⟩ := item []
  simp [split,readKind] at read
/-- A concatenation of items determines the items. -/
theorem items_injective {es fs : List Bytes} (itemsE : ∀ e ∈ es, IsItem e) (itemsF : ∀ f ∈ fs, IsItem f)
    (same : es.flatten = fs.flatten) : es = fs := by
  induction es generalizing fs with
  | nil =>
    cases fs with
    | nil => rfl
    | cons f fs =>
      simp only [flatten_nil,flatten_cons,nil_eq,append_eq_nil_iff] at same
      exact absurd same.1 (itemsF f (by simp)).ne_nil
  | cons e es ih =>
    cases fs with
    | nil =>
      simp only [flatten_nil,flatten_cons,append_eq_nil_iff] at same
      exact absurd same.1 (itemsE e (by simp)).ne_nil
    | cons f fs =>
      rw [flatten_cons,flatten_cons] at same
      obtain ⟨k,c,readE⟩ := itemsE e (by simp) es.flatten
      obtain ⟨l,d,readF⟩ := itemsF f (by simp) fs.flatten
      rw [same,readF] at readE
      simp only [ok.injEq,mk.injEq] at readE
      have rests := readE.2.2
      rw [← rests] at same
      rw [append_cancel_right same,
        ih (fun e m => itemsE e (by simp [m])) (fun f m => itemsF f (by simp [m])) rests.symm]

theorem length_le_encodeString (b : Bytes) : b.length ≤ (encodeString b).length := by
  match b with
  | [] => simp
  | [x] => by_cases low : x ≤ 0x7F <;> simp [encodeString,low]
  | x :: y :: tail => simp [encodeString]
theorem length_lt_encodeList (payload : Bytes) : payload.length < (encodeList payload).length := by
  unfold encodeList puthead
  split <;> simp
theorem fits_payload {payload : Bytes} (fits : Fits (encodeList payload)) : Fits payload := by
  have := length_lt_encodeList payload
  unfold Fits at *; omega
theorem fits_string (fits : Fits (encodeString b)) : Fits b := by
  have := length_le_encodeString b
  unfold Fits at *; omega

example : encodeString [0x64,0x6f,0x67] = [0x83,0x64,0x6f,0x67] := by decide

end Canchain.Rlp
