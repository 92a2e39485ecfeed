import Canchain.RlpStream
import Canchain.TrieNode

/-!
The two parsers: `Split` and `CountValues` of `lib/rlp/raw.go` cut a buffer, the `Stream` of
`lib/rlp/decode.go` reads byte by byte. Each is compared with what a value looks like (`Item`),
so that they agree.
-/
namespace Canchain.Rlp
open List Except
open TrieNode (countValues)

/-- The bytes of a value: its kind, its content, and the whole of it. -/
inductive Item : Kind → Bytes → Bytes → Prop
  | byte (x : UInt8) (low : x.toNat < 0x80) : Item .Byte [x] [x]
  | string (content : Bytes) (fits : Fits content) (notLow : ∀ x, content = [x] → 0x80 ≤ x.toNat) :
      Item .String content (headOf .String content.length ++ content)
  | list (payload : Bytes) (fits : Fits payload) : Item .List payload (headOf .List payload.length ++ payload)

/-! ### The parser of buffers -/

section
variable {b content rest e : Bytes} {k : Kind} {slen size tagsize : Nat}

theorem readSize_iff (some : 1 ≤ slen) :
    readSize b slen = .ok size ↔ 56 ≤ size ∧ ∃ rest, b = putint size ++ rest ∧ (putint size).length = slen := by
  constructor
  · intro read
    simp only [readSize] at read
    split at read
    · cases read
    rename_i inside
    split at read
    · cases read
    rename_i canonical
    simp only [Bool.or_eq_true,decide_eq_true_eq,not_or,Nat.not_lt] at canonical
    obtain rfl := ok.inj read
    have head : (b.take slen).head? ≠ Option.some 0 := by
      rw [List.head?_take,if_neg (by omega)]
      exact canonical.2
    refine ⟨canonical.1,b.drop slen,?_,?_⟩
    · rw [putint_getint head,take_append_drop]
    · rw [putint_getint head,length_take]
      omega
  · rintro ⟨long,rest,rfl,rfl⟩
    exact readSize_putint size long rest

/-- A head of `tagsize` bytes and a content of `size` bytes are in front of the buffer. -/
def Measured (b : Bytes) (k : Kind) (tagsize size : Nat) : Prop :=
  ∃ head content rest, Item k content (head ++ content) ∧ b = head ++ content ++ rest ∧ head.length = tagsize ∧
    content.length = size

/-- The length test that `readKind` ends with. -/
private theorem fits_ok {k' : Kind} {tag n : Nat}
    (read : (if n > b.length - tag then .error .valueTooLarge else .ok (k',tag,n)) =
      (.ok (k,tagsize,size) : Except Error (Kind × Nat × Nat))) :
    k' = k ∧ tag = tagsize ∧ n = size ∧ size ≤ b.length - tagsize := by
  split at read
  · cases read
  · obtain ⟨rfl,rfl,rfl⟩ := by simpa using read
    exact ⟨rfl,rfl,rfl,by omega⟩
/-- A head, and enough bytes behind it. -/
private theorem measured {tail : Bytes} (inside : size ≤ tail.length)
    (item : ∀ c : Bytes, c.length = size → c <+: tail → Item k c (headOf k c.length ++ c)) :
    Measured (headOf k size ++ tail) k (headOf k size).length size := by
  have length : (tail.take size).length = size := by simp [inside]
  have whole := item _ length ( take_prefix _ _)
  rw [length] at whole
  exact ⟨_,tail.take size,tail.drop size,whole,by simp,rfl,length⟩
private theorem measured_string (tail : Bytes) (inside : size ≤ tail.length) (small : size < 2^64)
    (canonical : ∀ x ∈ tail.head?, size = 1 → 0x80 ≤ x.toNat) :
    Measured (headOf .String size ++ tail) .String (headOf .String size).length size := by
  refine measured inside ?_
  rintro c rfl ⟨rest,rfl⟩
  refine .string c small ?_
  rintro x rfl
  exact canonical x (by simp) rfl
private theorem measured_list (tail : Bytes) (inside : size ≤ tail.length) (small : size < 2^64) :
    Measured (headOf .List size ++ tail) .List (headOf .List size).length size := by
  refine measured inside ?_
  rintro c rfl -
  exact .list c small
/-- What `readKind` measures is a value. -/
theorem readKind_value (read : readKind b = .ok (k,tagsize,size)) : Measured b k tagsize size := by
  cases b with
  | nil => cases read
  | cons x tail =>
    have bound := x.toNat_lt
    -- The long form: the size is in the bytes behind the tag.
    have long (base : Nat) {n : Nat} (above : base < x.toNat) (few : x.toNat - base ≤ 8)
        (number : readSize tail (x.toNat - base) = .ok n) : 56 ≤ n ∧ n < 2^64 ∧ ∃ tail', tail = putint n ++ tail' ∧
          (putint n).length = x.toNat - base ∧ ∀ small, puthead small (UInt8.ofNat base) n = x :: putint n := by
      obtain ⟨large,tail',rfl,width⟩ := (readSize_iff (by omega)).mp number
      have fits := putint_length_lt n (show (putint n).length ≤ 8 by omega)
      norm_num at fits
      exact ⟨large,by norm_num; exact fits,tail',rfl,width,fun _ => puthead_long base (by omega) large width⟩
    simp only [readKind] at read
    split at read
    · rename_i low
      obtain ⟨rfl,rfl,rfl,-⟩ := fits_ok read
      exact ⟨[],[x],tail,.byte x low,rfl,rfl,rfl⟩
    split at read
    · split at read
      · cases read
      rename_i high small canonical
      obtain ⟨rfl,rfl,rfl,inside⟩ := fits_ok read
      have head : headOf .String (x.toNat - 0x80) = [x] := puthead_short 0x80 (by omega) (by omega)
      have whole := measured_string tail (by simpa using inside) (show x.toNat - 0x80 < 2^64 by omega) (by
        intro y first one
        by_contra low
        exact canonical ⟨one,y,first,by omega⟩)
      rwa [head] at whole
    split at read
    · split at read
      · cases read
      rename_i n number
      obtain ⟨rfl,rfl,rfl,inside⟩ := fits_ok read
      obtain ⟨large,fits,tail',rfl,width,heads⟩ := long 0xB7 (by omega) (by omega) number
      have head : headOf .String n = x :: putint n := heads 0x80
      have whole := measured_string tail' (by simp at inside; omega) fits (by intros; omega)
      rwa [head,length_cons,width] at whole
    split at read
    · obtain ⟨rfl,rfl,rfl,inside⟩ := fits_ok read
      have head : headOf .List (x.toNat - 0xC0) = [x] := puthead_short 0xC0 (by omega) (by omega)
      have whole := measured_list tail (by simpa using inside) (show x.toNat - 0xC0 < 2^64 by omega)
      rwa [head] at whole
    · split at read
      · cases read
      rename_i n number
      obtain ⟨rfl,rfl,rfl,inside⟩ := fits_ok read
      obtain ⟨large,fits,tail',rfl,width,heads⟩ := long 0xF7 (by omega) (by omega) number
      have head : headOf .List n = x :: putint n := heads 0xC0
      have whole := measured_list tail' (by simp at inside; omega) fits
      rwa [head,length_cons,width] at whole

theorem split_value (read : split b = .ok (k,content,rest)) : ∃ e, Item k content e ∧ b = e ++ rest := by
  unfold split at read
  split at read
  · cases read
  rename_i k' tagsize size found
  simp only [ok.injEq,Prod.mk.injEq] at read
  obtain ⟨rfl,rfl,rfl⟩ := read
  obtain ⟨head,content,rest,item,rfl,rfl,rfl⟩ := readKind_value found
  have front : ((head ++ content ++ rest).drop head.length).take content.length = content := by simp
  have behind : (head ++ content ++ rest).drop (head.length + content.length) = rest := by
    rw [← length_append,drop_left]
  rw [front,behind]
  exact ⟨_,item,rfl⟩
theorem split_item (item : Item k content e) (rest : Bytes) : split (e ++ rest) = .ok (k,content,rest) := by
  cases item with
  | byte x low => simp [split,readKind,low]
  | string content fits notLow =>
    obtain ⟨k,notList,read⟩ := split_encodeString content rest fits
    rw [encodeString_head notLow] at read
    -- It is not a single byte, which would be its own content.
    cases k with
    | Byte =>
      obtain ⟨e,item,-⟩ := split_value read
      cases item with
      | byte x low => exact absurd (notLow x rfl) (by omega)
    | String => exact read
    | List => exact absurd rfl notList
  | list _ fits => exact split_encodeList content rest fits
/-- `Split` succeeds exactly on a value and what follows it. -/
theorem split_iff : split b = .ok (k,content,rest) ↔ ∃ e, Item k content e ∧ b = e ++ rest := by
  constructor
  · exact split_value
  · rintro ⟨e,item,rfl⟩
    exact split_item item rest

end

/-- A stream over the bytes finds a value of the kind. A string is read by `Bytes` and leaves the rest behind; for a list the
    size is that of the payload, which is next, before the rest. -/
def StreamReads (b : Bytes) (k : Kind) (content rest : Bytes) : Prop :=
  ∃ size s, (newStream b).kind = (.ok (k,size),s) ∧
    if k = .List then size = content.length ∧ s.input = content ++ rest
    else ∃ s', s.bytes = (.ok content,s') ∧ s'.input = rest

section
variable {b content rest e : Bytes} {k : Kind}

theorem streamReads_item (item : Item k content e) (rest : Bytes) : StreamReads (e ++ rest) k content rest := by
  have ready := newStream_ready (e ++ rest)
  -- After `Kind`, `Bytes` reads what it would have read before.
  have string {size : Nat} {s : Stream} (isString : e = encodeString content) (fits : Fits content) (notList : k ≠ .List)
      (found : (newStream (e ++ rest)).kind = (.ok (k,size),s)) : StreamReads (e ++ rest) k content rest := by
    subst isString
    obtain ⟨s',read,after⟩ := bytes_ok (at_string ready trivial fits)
    refine ⟨size,s,found,?_⟩
    rw [if_neg notList,bytes_look found]
    exact ⟨s',read,after.input⟩
  cases item with
  | byte x low =>
    obtain ⟨s,found,-⟩ := kind_byte ready trivial low
    exact string (encodeString_low low).symm (by simp [Fits]) (by simp) found
  | string _ fits notLow =>
    rw [append_assoc] at ready
    obtain ⟨s,found,-⟩ := kind_head (by simp) ready trivial fits (by simp)
    rw [← append_assoc] at found
    exact string (encodeString_head notLow).symm fits (by simp) found
  | list _ fits =>
    rw [append_assoc] at ready
    obtain ⟨s,found,armed⟩ := kind_head (by simp) ready trivial fits (by simp)
    rw [← append_assoc] at found
    exact ⟨content.length,s,found,by simpa using armed.input⟩
theorem streamReads_value (reads : StreamReads b k content rest) : ∃ e, Item k content e ∧ b = e ++ rest := by
  obtain ⟨size,s,found,after⟩ := reads
  have ready := newStream_ready b
  by_cases isList : k = .List
  · rw [if_pos isList] at after
    subst isList
    rcases kind_inv ready found with ⟨isByte,-⟩ | ⟨-,fits,tail,rfl,-,armed⟩
    · cases isByte
    obtain ⟨rfl,left⟩ := after
    obtain rfl : tail = content ++ rest := armed.input.symm.trans left
    exact ⟨_,.list content fits,(append_assoc _ _ _).symm⟩
  · rw [if_neg isList,bytes_look found] at after
    obtain ⟨s',read,left⟩ := after
    obtain ⟨rest',rfl,fits,-,after⟩ := bytes_inv ready read
    obtain rfl : rest' = rest := after.input.symm.trans left
    refine ⟨_,?_,rfl⟩
    by_cases byte : ∃ x, content = [x] ∧ x.toNat < 0x80
    · obtain ⟨x,rfl,low⟩ := byte
      rw [encodeString_low low] at found ready ⊢
      obtain ⟨s₁,found₁,-⟩ := kind_byte ready trivial low
      obtain ⟨⟨rfl,-⟩,-⟩ := by simpa using found.symm.trans found₁
      exact .byte x low
    · have notLow : ∀ x, content = [x] → 0x80 ≤ x.toNat := fun x isOne => Nat.le_of_not_lt fun low => byte ⟨x,isOne,low⟩
      rw [encodeString_head notLow] at found ready ⊢
      rw [append_assoc] at found ready
      obtain ⟨s₁,found₁,-⟩ := kind_head (by simp) ready trivial fits (by simp)
      obtain ⟨⟨rfl,-⟩,-⟩ := by simpa using found.symm.trans found₁
      exact .string content fits notLow
theorem streamReads_iff : StreamReads b k content rest ↔ ∃ e, Item k content e ∧ b = e ++ rest := by
  constructor
  · exact streamReads_value
  · rintro ⟨e,item,rfl⟩
    exact streamReads_item item rest

end

/-- So many values are split off, one after the other, and nothing is left. -/
inductive Splits : Bytes → Nat → Prop
  | nil : Splits [] 0
  | cons {b content rest : Bytes} {k : Kind} {n : Nat} (first : split b = .ok (k,content,rest)) (others : Splits rest n) :
      Splits b (n+1)

theorem Item.ne_nil {k : Kind} {content e : Bytes} (item : Item k content e) : e ≠ [] := by
  cases item with
  | byte x low => simp
  | string _ _ _ | list _ _ => simp [headOf,puthead_ne_nil]
theorem split_shorter {b content rest : Bytes} {k : Kind} (read : split b = .ok (k,content,rest)) : rest.length < b.length := by
  obtain ⟨e,item,rfl⟩ := split_value read
  have := length_pos_iff.mpr item.ne_nil
  simp
  omega
theorem countValues_nil {fuel n : Nat} : countValues fuel [] = .ok n ↔ Splits [] n := by
  have none : countValues fuel [] = .ok 0 := by cases fuel <;> rfl
  rw [none]
  constructor
  · intro counted
    obtain rfl := ok.inj counted
    exact .nil
  · intro splits
    cases splits with
    | nil => rfl
    | cons first others => cases first
theorem countValues_iff {b : Bytes} {fuel n : Nat} (enough : b.length ≤ fuel) : countValues fuel b = .ok n ↔ Splits b n := by
  induction fuel generalizing b n with
  | zero =>
    obtain rfl : b = [] := length_eq_zero_iff.mp (by omega)
    exact countValues_nil
  | succ fuel ih =>
    cases b with
    | nil => exact countValues_nil
    | cons x tail =>
      cases read : readKind (x :: tail) with
      | error e =>
        have failed : split (x :: tail) = .error e := by simp [split,read]
        constructor
        · intro counted
          simp [countValues,read] at counted
        · intro splits
          cases splits with
          | cons first others => rw [failed] at first; cases first
      | ok head =>
        obtain ⟨k,tagsize,size⟩ := head
        have cut : split (x :: tail) =
            .ok (k,((x :: tail).drop tagsize).take size,(x :: tail).drop (tagsize+size)) := by simp [split,read]
        have shorter := split_shorter cut
        have rest (m : Nat) := ih (b := (x :: tail).drop (tagsize+size)) (n := m) (by omega)
        simp only [countValues,read]
        constructor
        · intro counted
          obtain ⟨m,below,rfl⟩ := Runs.map_ok.mp counted
          exact .cons cut ((rest m).mp below)
        · intro splits
          cases splits with
          | cons first others =>
            obtain ⟨rfl,rfl,rfl⟩ := by simpa using cut.symm.trans first
            rw [(rest _).mpr others]
            rfl

/-- The parsers agree: on the value in front of any bytes, and on the number of values. -/
theorem parsers_agree (b : Bytes) :
    (∀ k content rest, split b = .ok (k,content,rest) ↔ StreamReads b k content rest) ∧
      ∀ n, countValues b.length b = .ok n ↔ Splits b n :=
  ⟨fun _ _ _ => split_iff.trans streamReads_iff.symm,fun _ => countValues_iff le_rfl⟩

end Canchain.Rlp
