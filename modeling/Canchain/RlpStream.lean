import Canchain.RlpBuffer

/-!
The `Stream` of `lib/rlp/decode.go` over a limited reader. It keeps the head of the next item
until the item is read, and counts the position in each open list. A stream with nothing in its
look-ahead that stands before some bytes is `Ready`; one that has read a head is `Armed`.
-/
namespace Canchain.Rlp
open List Option Except Prod UInt8

inductive StreamError where
  /-- "rlp: end of list" -/
  | EOL
  /-- "rlp: expected String or Byte" -/
  | expectedString
  /-- "rlp: expected List" -/
  | expectedList
  /-- "rlp: non-canonical integer format" -/
  | canonInt
  /-- "rlp: non-canonical size information" -/
  | canonSize
  /-- "rlp: element is larger than containing list" -/
  | elemTooLarge
  /-- "rlp: value size exceeds available input length" -/
  | valueTooLarge
  /-- "rlp: call of ListEnd outside of any list" -/
  | notInList
  /-- "rlp: call of ListEnd not positioned at EOL" -/
  | notAtEOL
  /-- "rlp: uint overflow" -/
  | uintOverflow
  /-- "EOF" -/
  | EOF
  /-- "unexpected EOF" -/
  | unexpectedEOF
  /-- "rlp: invalid boolean value: %d" -/
  | invalidBool (num : Nat)
  deriving DecidableEq

structure ListPos where
  pos : Nat
  size : Nat
  deriving DecidableEq
/-- The field `kind` of the source is `armed`, with `none` for the value -1. The innermost list is on top of the stack. -/
structure Stream where
  input : Bytes
  remaining : Nat
  limited : Bool
  armed : Option Kind
  size : Nat
  byteval : UInt8
  kinderr : Option StreamError
  stack : List ListPos
  deriving DecidableEq

/-- `NewStream` on a reader of these bytes. -/
def newStream (b : Bytes) : Stream := ⟨b,b.length,true,none,0,0,none,[]⟩

namespace Stream

def willRead (s : Stream) (n : Nat) : Except StreamError Unit × Stream :=
  let s := { s with armed := none }
  let limit (s : Stream) : Except StreamError Unit × Stream :=
    if s.limited then
      if s.remaining < n then (.error .valueTooLarge,s) else (.ok (),{ s with remaining := s.remaining - n })
    else (.ok (),s)
  match s.stack with
  | [] => limit s
  | tos :: below =>
    if tos.size - tos.pos < n then (.error .elemTooLarge,s)
    else limit { s with stack := { tos with pos := tos.pos + n } :: below }
def readByte (s : Stream) : Except StreamError UInt8 × Stream :=
  match s.willRead 1 with
  | (.error e,s) => (.error e,s)
  | (.ok (),s) =>
    match s.input with
    | [] => (.error .unexpectedEOF,s)
    | b :: rest => (.ok b,{ s with input := rest })
/-- `readFull` of a buffer of length `n`. -/
def readFull (s : Stream) (n : Nat) : Except StreamError Bytes × Stream :=
  match s.willRead n with
  | (.error e,s) => (.error e,s)
  | (.ok (),s) =>
    if s.input.length < n then (.error .unexpectedEOF,{ s with input := [] })
    else (.ok (s.input.take n),{ s with input := s.input.drop n })
/-- The item in the look-ahead has been read. -/
def release (s : Stream) : Stream := { s with armed := none }
def readUint (s : Stream) (size : Nat) : Except StreamError Nat × Stream :=
  if size = 0 then (.ok 0,s.release)
  else if size = 1 then
    match s.readByte with
    | (.error e,s) => (.error e,s)
    | (.ok b,s) => (.ok b.toNat,s)
  else
    match s.readFull size with
    | (.error e,s) => (.error e,s)
    | (.ok b,s) => if b.head? = some 0 then (.error .canonSize,s) else (.ok (getint b),s)
/-- The long form of a head: kind and size, and the error if there is one. -/
def readLong (s : Stream) (k : Kind) (size : Nat) : (Kind × Nat × Option StreamError) × Stream :=
  match s.readUint size with
  | (.error e,s) => ((k,0,some e),s)
  | (.ok size,s) => ((k,size,if size < 56 then some .canonSize else none),s)
/-- At the outermost level the end of the input is no surprise. -/
def outerError (stack : List ListPos) (e : StreamError) : StreamError :=
  if stack = [] ∧ (e = .unexpectedEOF ∨ e = .valueTooLarge) then .EOF else e
def readKind (s : Stream) : (Kind × Nat × Option StreamError) × Stream :=
  match s.readByte with
  | (.error e,s) => ((.Byte,0,some (outerError s.stack e)),s)
  | (.ok b,s) =>
    let s := { s with byteval := 0 }
    if b.toNat < 0x80 then ((.Byte,0,none),{ s with byteval := b })
    else if b.toNat < 0xB8 then ((.String,b.toNat - 0x80,none),s)
    else if b.toNat < 0xC0 then s.readLong .String (b.toNat - 0xB7)
    else if b.toNat < 0xF8 then ((.List,b.toNat - 0xC0,none),s)
    else s.readLong .List (b.toNat - 0xF7)
/-- The size of an item must fit the list it is in, or the input. -/
def sizeError (s : Stream) (tos : Option ListPos) (size : Nat) : Option StreamError :=
  match tos with
  | none => if s.limited && s.remaining < size then some .valueTooLarge else none
  | some tos => if tos.size - tos.pos < size then some .elemTooLarge else none
/-- What `Kind` returns when the look-ahead is filled. -/
def look (s : Stream) (k : Kind) : Except StreamError (Kind × Nat) × Stream :=
  match s.kinderr with
  | some e => (.error e,s)
  | none => (.ok (k,s.size),s)
def noError (s : Stream) : Stream := { s with kinderr := none }
/-- The look-ahead is filled with what `readKind` returned. -/
def fill : (Kind × Nat × Option StreamError) × Stream → Except StreamError (Kind × Nat) × Stream
  | ((k,size,err),s) => look { s with armed := some k, size := size, kinderr := err.or (s.sizeError s.stack.head? size) } k
def kind (s : Stream) : Except StreamError (Kind × Nat) × Stream :=
  match s.armed with
  | some k => s.look k
  | none =>
    if s.stack.head?.any fun tos => tos.pos = tos.size then (.error .EOL,s.noError)
    else fill s.noError.readKind
def bytes (s : Stream) : Except StreamError Bytes × Stream :=
  match s.kind with
  | (.error e,s) => (.error e,s)
  | (.ok (.Byte,_),s) => (.ok [s.byteval],s.release)
  | (.ok (.String,size),s) =>
    match s.readFull size with
    | (.error e,s) => (.error e,s)
    | (.ok b,s) => if size = 1 ∧ b.head?.any (·.toNat < 128) then (.error .canonSize,s) else (.ok b,s)
  | (.ok (.List,_),s) => (.error .expectedString,s)
/-- `uint` of a number of bits. -/
def uint (s : Stream) (maxbits : Nat) : Except StreamError Nat × Stream :=
  match s.kind with
  | (.error e,s) => (.error e,s)
  | (.ok (.Byte,_),s) =>
    if s.byteval = 0 then (.error .canonInt,s) else (.ok s.byteval.toNat,s.release)
  | (.ok (.String,size),s) =>
    if maxbits/8 < size then (.error .uintOverflow,s)
    else match s.readUint size with
    | (.error e,s) => (.error (if e = .canonSize then .canonInt else e),s)
    | (.ok v,s) => if 0 < size ∧ v < 128 then (.error .canonSize,s) else (.ok v,s)
  | (.ok (.List,_),s) => (.error .expectedString,s)
def bool (s : Stream) : Except StreamError Bool × Stream :=
  match s.uint 8 with
  | (.error e,s) => (.error e,s)
  | (.ok 0,s) => (.ok false,s)
  | (.ok 1,s) => (.ok true,s)
  | (.ok num,s) => (.error (.invalidBool num),s)
/-- Inside a list of the given size. -/
def enter (s : Stream) (size : Nat) : Stream := { s with stack := ⟨0,size⟩ :: s.stack, armed := none, size := 0 }
def list (s : Stream) : Except StreamError Nat × Stream :=
  match s.kind with
  | (.error e,s) => (.error e,s)
  | (.ok (k,size),s) =>
    if k ≠ .List then (.error .expectedList,s)
    else (.ok size,s.enter size)
/-- The list on top is done: its size counts in the list around it. -/
def leave (tos : ListPos) : List ListPos → List ListPos
  | [] => []
  | outer :: below => { outer with pos := outer.pos + tos.size } :: below
def close (s : Stream) (stack : List ListPos) : Stream := { s with stack := stack, armed := none, size := 0 }
def listEnd (s : Stream) : Except StreamError Unit × Stream :=
  match s.stack with
  | [] => (.error .notInList,s)
  | tos :: below =>
    if tos.pos ≠ tos.size then (.error .notAtEOL,s)
    else (.ok (),s.close (leave tos below))

end Stream

/-! ### Where a stream stands -/

/-- The innermost list has room for `n` more bytes. -/
def Room (n : Nat) : List ListPos → Prop
  | [] => True
  | tos :: _ => tos.pos + n ≤ tos.size
/-- The input that is left, all of it within the limit, and the open lists, the innermost one not overrun. -/
structure Stands (s : Stream) (b : Bytes) (stack : List ListPos) : Prop where
  input : s.input = b
  remaining : s.remaining = b.length
  limited : s.limited = true
  stack_eq : s.stack = stack
  placed : Room 0 stack
/-- Nothing is in the look-ahead. -/
structure Ready (s : Stream) (b : Bytes) (stack : List ListPos) : Prop extends Stands s b stack where
  armed : s.armed = none
/-- The head of an item is in the look-ahead, and the input is what follows it. -/
structure Armed (s : Stream) (k : Kind) (size : Nat) (x : UInt8) (b : Bytes) (stack : List ListPos) : Prop
    extends Stands s b stack where
  armed : s.armed = some k
  size_eq : s.size = size
  byteval : s.byteval = x
  kinderr : s.kinderr = none

/-- The innermost list after `n` bytes. -/
def bump (n : Nat) : List ListPos → List ListPos
  | [] => []
  | tos :: below => { tos with pos := tos.pos + n } :: below

@[simp] theorem bump_bump (m n : Nat) (stack : List ListPos) : bump n (bump m stack) = bump (m + n) stack := by
  cases stack with
  | nil => rfl
  | cons tos below => simp [bump,Nat.add_assoc]
@[simp] theorem bump_zero (stack : List ListPos) : bump 0 stack = stack := by
  cases stack <;> rfl
theorem bump_head? (n : Nat) (stack : List ListPos) :
    (bump n stack).head? = stack.head?.map fun tos => { tos with pos := tos.pos + n } := by
  cases stack <;> rfl
theorem room_bump {m n : Nat} {stack : List ListPos} : Room n (bump m stack) ↔ Room (m + n) stack := by
  cases stack with
  | nil => simp [Room,bump]
  | cons tos below => simp [Room,bump,Nat.add_assoc]
theorem Room.bump {m n : Nat} {stack : List ListPos} (room : Room (m + n) stack) : Room n (bump m stack) := room_bump.mpr room
theorem Room.mono {m n : Nat} {stack : List ListPos} (room : Room n stack) (less : m ≤ n) : Room m stack := by
  cases stack with
  | nil => trivial
  | cons tos below => exact (Nat.add_le_add_left less _).trans room

theorem newStream_ready (b : Bytes) : Ready (newStream b) b [] := ⟨⟨rfl,rfl,rfl,rfl,trivial⟩,rfl⟩

section
variable {s s' : Stream} {b rest : Bytes} {stack : List ListPos} {n : Nat}

theorem willRead_ok (stands : Stands s b stack) (room : Room n stack) (inside : n ≤ b.length) :
    s.willRead n = (.ok (),{ s with armed := none, remaining := b.length - n, stack := bump n stack }) := by
  obtain ⟨-,remaining,limited,stackIs,-⟩ := stands
  cases stack with
  | nil => simp [Stream.willRead,stackIs,limited,remaining,bump,inside]
  | cons tos below =>
    have fits : ¬ tos.size - tos.pos < n := by simp only [Room] at room; omega
    simp [Stream.willRead,stackIs,limited,fits,remaining,bump,inside]
/-- The innermost list and the limit have room for `n` bytes. -/
def Stream.Allows (s : Stream) (n : Nat) : Prop :=
  (∀ tos ∈ s.stack.head?, n ≤ tos.size - tos.pos) ∧ (s.limited = true → n ≤ s.remaining)
theorem willRead_inv (read : s.willRead n = (.ok (),s')) : s.Allows n ∧
    s' = { s with armed := none, remaining := if s.limited then s.remaining - n else s.remaining, stack := bump n s.stack } := by
  obtain ⟨input,remaining,limited,armed,size,byteval,kinderr,_ | ⟨tos,below⟩⟩ := s
  all_goals
    simp only [Stream.willRead] at read
    repeat' split at read
  all_goals cases read
  all_goals simp_all [Stream.Allows,bump]

/-- The stream after `n` bytes of the input. -/
def Stream.after (s : Stream) (n : Nat) : Stream :=
  { s with armed := none, remaining := s.remaining - n, stack := bump n s.stack, input := s.input.drop n }
theorem Stands.after {content : Bytes} (stands : Stands s (content ++ rest) stack) (room : Room content.length stack) :
    Ready (s.after content.length) rest (bump content.length stack) := by
  obtain ⟨input,remaining,limited,stackIs,-⟩ := stands
  exact ⟨⟨by simp [Stream.after,input],by simp [Stream.after,remaining],limited,by simp [Stream.after,stackIs],
    Room.bump room⟩,rfl⟩

variable {content payload : Bytes} {x : UInt8} {size v : Nat} {k : Kind} {tos : ListPos} {s₁ : Stream} {e : StreamError}
  {r : Kind × Nat}
/-- `readFull` gives the bytes in front, if there is room for them. -/
theorem readFull_ok (stands : Stands s (content ++ rest) stack) (room : Room content.length stack) :
    ∃ s', s.readFull content.length = (.ok content,s') ∧ Ready s' rest (bump content.length stack) ∧
      s'.byteval = s.byteval := by
  have will := willRead_ok stands room (by simp)
  have enough : ¬ (content ++ rest).length < content.length := by simp
  refine ⟨s.after content.length,?_,stands.after room,rfl⟩
  simp only [Stream.readFull,will,stands.input,if_neg enough,take_left,drop_left,Stream.after,stands.remaining,
    stands.stack_eq]
/-- The stream after the bytes `c` of the input. -/
structure Consumes (s : Stream) (c : Bytes) (s' : Stream) : Prop where
  input : s.input = c ++ s'.input
  allowed : s.Allows c.length
  stack : s'.stack = bump c.length s.stack
  limited : s'.limited = s.limited
  remaining : s.limited = true → s'.remaining = s.remaining - c.length
  armed : s'.armed = none

theorem Consumes.trans {c c' : Bytes} {s₂ : Stream} (first : Consumes s c s₁) (second : Consumes s₁ c' s₂) :
    Consumes s (c ++ c') s₂ := by
  have limited := second.limited.trans first.limited
  obtain ⟨allowed,limit⟩ := second.allowed
  rw [first.limited] at limit
  rw [first.stack] at allowed
  refine ⟨by rw [first.input,second.input,append_assoc],⟨fun tos top => ?_,fun isLimited => ?_⟩,?_,limited,fun isLimited => ?_,
    second.armed⟩
  · have before := first.allowed.1 tos top
    have after := allowed { tos with pos := tos.pos + c.length } (by rw [bump_head?,top]; rfl)
    simp only [length_append] at *
    omega
  · have before := first.allowed.2 isLimited
    have after := limit isLimited
    rw [first.remaining isLimited] at after
    rw [length_append]
    omega
  · rw [second.stack,first.stack,bump_bump,length_append]
  · rw [second.remaining (first.limited.trans isLimited),first.remaining isLimited,length_append]
    omega
theorem Stands.consume {c : Bytes} (stands : Stands s b stack) (consumes : Consumes s c s') :
    ∃ rest, b = c ++ rest ∧ Room c.length stack ∧ Ready s' rest (bump c.length stack) := by
  obtain ⟨rfl,remaining,limited,rfl,placed⟩ := stands
  have room : Room c.length s.stack := by
    have allowed := consumes.allowed.1
    cases top : s.stack with
    | nil => trivial
    | cons tos below =>
      have fits := allowed tos (by rw [top]; rfl)
      rw [top] at placed
      simp only [Room] at placed ⊢
      omega
  refine ⟨s'.input,consumes.input,room,⟨⟨rfl,?_,consumes.limited.trans limited,consumes.stack,room.bump⟩,consumes.armed⟩⟩
  rw [consumes.remaining limited,remaining,consumes.input,length_append,Nat.add_sub_cancel_left]
theorem willRead_consumes (will : s.willRead content.length = (.ok (),s₁)) (input : s.input = content ++ rest) :
    Consumes s content { s₁ with input := rest } ∧ s₁.byteval = s.byteval ∧ s₁.input = s.input := by
  obtain ⟨allowed,rfl⟩ := willRead_inv will
  exact ⟨⟨input,allowed,rfl,rfl,fun limited => by simp [limited],rfl⟩,rfl,rfl⟩
theorem readFull_inv (read : s.readFull n = (.ok content,s')) :
    content.length = n ∧ Consumes s content s' ∧ s'.byteval = s.byteval := by
  unfold Stream.readFull at read
  split at read
  · cases read
  rename_i s₁ will
  obtain ⟨-,same⟩ := willRead_inv will
  split at read
  · cases read
  cases read
  rename_i enough
  have length : (s₁.input.take n).length = n := by simp; omega
  have input : s.input = s₁.input.take n ++ s₁.input.drop n := by rw [take_append_drop,same]
  obtain ⟨consumes,byteval,-⟩ := willRead_consumes (length.symm ▸ will) input
  exact ⟨length,consumes,byteval⟩
theorem readByte_ok (stands : Stands s (x :: rest) stack) (room : Room 1 stack) :
    ∃ s', s.readByte = (.ok x,s') ∧ Ready s' rest (bump 1 stack) ∧ s'.byteval = s.byteval := by
  have will := willRead_ok stands room (by simp)
  refine ⟨s.after 1,?_,(show Stands s ([x] ++ rest) stack from stands).after room,rfl⟩
  simp [Stream.readByte,will,stands.input,Stream.after,stands.remaining,stands.stack_eq]
theorem readByte_inv (read : s.readByte = (.ok x,s')) : Consumes s [x] s' ∧ s'.byteval = s.byteval := by
  unfold Stream.readByte at read
  split at read
  · cases read
  rename_i s₁ will
  obtain ⟨-,same⟩ := willRead_inv will
  split at read
  · cases read
  cases read
  rename_i rest first
  have input : s.input = [x] ++ rest := by rw [singleton_append,← first,same]
  obtain ⟨consumes,byteval,-⟩ := willRead_consumes will input
  exact ⟨consumes,byteval⟩

theorem readUint_ok (stands : Stands s (putint n ++ rest) stack) (room : Room (putint n).length stack)
    (positive : 0 < n) :
    ∃ s', s.readUint (putint n).length = (.ok n,s') ∧ Ready s' rest (bump (putint n).length stack) ∧
      s'.byteval = s.byteval := by
  have nonempty := putint_ne_nil n positive
  have value := getint_putint n
  have head := putint_head n
  generalize putint n = content at *
  match content, nonempty with
  | [x], _ =>
    obtain ⟨s',read,ready,kept⟩ := readByte_ok stands room
    refine ⟨s',?_,ready,kept⟩
    simp only [Stream.readUint,length_singleton,Nat.one_ne_zero,if_false,if_true,read,mk.injEq,ok.injEq,and_true]
    simpa [getint] using value
  | x :: y :: tail, _ =>
    obtain ⟨s',read,ready,kept⟩ := readFull_ok stands room
    refine ⟨s',?_,ready,kept⟩
    have canonical : (x :: y :: tail).head? ≠ some 0 := by simpa using head x (y :: tail) rfl
    rw [Stream.readUint,if_neg (by simp),if_neg (by simp),read]
    simp only [if_neg canonical,value]
theorem readUint_inv (positive : 0 < size) (read : s.readUint size = (.ok v,s')) (notSmall : 0 < v) :
    (putint v).length = size ∧ Consumes s (putint v) s' ∧ s'.byteval = s.byteval := by
  rw [Stream.readUint,if_neg (by omega)] at read
  split at read
  · rename_i one
    split at read
    · cases read
    cases read
    rename_i x byte
    have nonzero : x ≠ 0 := fun zero => by simp [zero] at notSmall
    have bytes : putint x.toNat = [x] := by
      have := putint_getint (b := [x]) (by simpa using nonzero)
      simpa [getint] using this
    rw [bytes,one]
    exact ⟨rfl,readByte_inv byte⟩
  · split at read
    · cases read
    rename_i full
    split at read
    · cases read
    rename_i canonical
    cases read
    rw [putint_getint canonical]
    exact readFull_inv full

/-! ### The head of an item -/

/-- The head that announces a string or a list of `n` bytes. -/
def headOf : Kind → Nat → Bytes
  | .Byte, _ => []
  | .String, n => puthead 0x80 0xB7 n
  | .List, n => puthead 0xC0 0xF7 n

theorem tag_add (tag : Nat) (small : tag + n < 256) : (UInt8.ofNat tag + UInt8.ofNat n).toNat = tag + n := by
  rw [UInt8.toNat_add,UInt8.toNat_ofNat',UInt8.toNat_ofNat',← Nat.add_mod]
  exact Nat.mod_eq_of_lt small
theorem tag_sub {tag : Nat} (above : tag ≤ x.toNat) : UInt8.ofNat tag + UInt8.ofNat (x.toNat - tag) = x := by
  apply UInt8.toNat_inj.mp
  rw [tag_add tag (by have := x.toNat_lt; omega)]
  omega
/-- A size in the tag, and a size in the bytes behind it. -/
theorem puthead_short (base : Nat) {large : UInt8} (above : base ≤ x.toNat) (few : x.toNat - base < 56) :
    puthead (ofNat base) large (x.toNat - base) = [x] := by
  simp [puthead,if_pos few,tag_sub above]
theorem puthead_long (base : Nat) {small : UInt8} (above : base ≤ x.toNat) (large : 56 ≤ v)
    (length : (putint v).length = x.toNat - base) : puthead small (ofNat base) v = x :: putint v := by
  simp [puthead,if_neg (show ¬ v < 56 by omega),length,tag_sub above]
theorem getint_lt (b : Bytes) : getint b < 256^b.length := by
  induction b using reverseRecOn with
  | nil => simp [getint]
  | append_singleton front last ih =>
    have low := last.toNat_lt
    rw [getint_append]
    simp only [getint,foldl_cons,foldl_nil,length_append,length_singleton,pow_succ] at ih ⊢
    omega
theorem long_length (long : 56 ≤ n) (fits : n < 2^64) : 1 ≤ (putint n).length ∧ (putint n).length ≤ 8 :=
  ⟨length_pos_iff.mpr (putint_ne_nil n (by omega)),putint_length n 8 (by norm_num; omega)⟩

theorem putint_length_lt (n : Nat) {width : Nat} (length : (putint n).length ≤ width) : n < 256^width := by
  have bound := getint_lt (putint n)
  rw [getint_putint] at bound
  exact bound.trans_le (Nat.pow_le_pow_right (by norm_num) length)

theorem readLong_ok (stands : Stands s (putint n ++ rest) stack) (room : Room (putint n).length stack) (long : 56 ≤ n) :
    ∃ s', s.readLong k (putint n).length = ((k,n,none),s') ∧ Ready s' rest (bump (putint n).length stack) ∧
      s'.byteval = s.byteval := by
  obtain ⟨s',read,ready,kept⟩ := readUint_ok stands room (by omega)
  exact ⟨s',by simp [Stream.readLong,read,if_neg (show ¬ n < 56 by omega)],ready,kept⟩
theorem readLong_inv {k' : Kind} (positive : 0 < size) (read : s.readLong k size = ((k',v,none),s')) :
    k' = k ∧ 56 ≤ v ∧ (putint v).length = size ∧ Consumes s (putint v) s' ∧ s'.byteval = s.byteval := by
  unfold Stream.readLong at read
  split at read
  · cases read
  rename_i w s₁ number
  simp only [mk.injEq,ite_eq_right_iff,reduceCtorEq,imp_false,Nat.not_lt] at read
  obtain ⟨⟨rfl,rfl,long⟩,rfl⟩ := read
  exact ⟨rfl,long,readUint_inv positive number (by omega)⟩

theorem Stands.noByte (stands : Stands s b stack) : Stands { s with byteval := 0 } b stack :=
  { stands with }
theorem readKind_ok (notByte : k ≠ .Byte) (stands : Stands s (headOf k n ++ rest) stack)
    (room : Room (headOf k n).length stack) (fits : n < 2^64) :
    ∃ s', s.readKind = ((k,n,none),s') ∧ Ready s' rest (bump (headOf k n).length stack) ∧ s'.byteval = 0 := by
  by_cases small : n < 56
  · have head (tag large : UInt8) : puthead tag large n = [tag + ofNat n] := by simp [puthead,small]
    have string : ((0x80 : UInt8) + ofNat n).toNat = 0x80 + n := tag_add 0x80 (by omega)
    have list : ((0xC0 : UInt8) + ofNat n).toNat = 0xC0 + n := tag_add 0xC0 (by omega)
    cases k with
    | Byte => exact absurd rfl notByte
    | String | List =>
      simp only [headOf,head] at stands room ⊢
      obtain ⟨s₁,read,ready,-⟩ := readByte_ok stands room
      refine ⟨{ s₁ with byteval := 0 },?_,⟨ready.toStands.noByte,ready.armed⟩,rfl⟩
      simp only [Stream.readKind,read,string,list,Nat.add_sub_cancel_left]
      repeat rw [if_neg (by omega)]
      rw [if_pos (by omega)]
  · have head (tag large : UInt8) : puthead tag large n = (large + ofNat (putint n).length) :: putint n := by
      simp [puthead,small]
    obtain ⟨low,high⟩ := long_length (by omega) fits
    have string : ((0xB7 : UInt8) + ofNat (putint n).length).toNat = 0xB7 + (putint n).length := tag_add 0xB7 (by omega)
    have list : ((0xF7 : UInt8) + ofNat (putint n).length).toNat = 0xF7 + (putint n).length := tag_add 0xF7 (by omega)
    cases k with
    | Byte => exact absurd rfl notByte
    | String | List =>
      simp only [headOf,head,cons_append,length_cons,Nat.add_comm _ 1] at stands room ⊢
      obtain ⟨s₁,read,ready,-⟩ := readByte_ok stands (room.mono (by omega))
      obtain ⟨s₂,number,ready₂,kept⟩ := readLong_ok ready.toStands.noByte room.bump (by omega)
      refine ⟨s₂,?_,bump_bump 1 _ stack ▸ ready₂,kept⟩
      simp only [Stream.readKind,read,string,list,Nat.add_sub_cancel_left]
      repeat rw [if_neg (by omega)]
      try rw [if_pos (by omega)]
      exact number
/-- What a head without an error was: a small byte, or the one head of a string or list of that size. -/
theorem readKind_inv (read : s.readKind = ((k,n,none),s')) :
    (k = .Byte ∧ n = 0 ∧ s'.byteval.toNat < 0x80 ∧ Consumes s [s'.byteval] s') ∨
      (k ≠ .Byte ∧ n < 2^64 ∧ Consumes s (headOf k n) s' ∧ s'.byteval = 0) := by
  unfold Stream.readKind at read
  split at read
  · cases read
  rename_i x s₁ byte
  have first := (readByte_inv byte).1
  have low := x.toNat_lt
  have cleared : Consumes s [x] { s₁ with byteval := 0 } := { first with }
  have long {k : Kind} (notByte : k ≠ .Byte) (few : (putint n).length ≤ 8) (head : headOf k n = [x] ++ putint n)
      (consumes : Consumes { s₁ with byteval := 0 } (putint n) s') (kept : s'.byteval = 0) :
      k ≠ .Byte ∧ n < 2^64 ∧ Consumes s (headOf k n) s' ∧ s'.byteval = 0 :=
    ⟨notByte,putint_length_lt n few,head ▸ cleared.trans consumes,kept⟩
  dsimp only at read
  split at read
  · cases read
    exact .inl ⟨rfl,rfl,‹_›,{ first with }⟩
  split at read
  · simp only [mk.injEq] at read
    obtain ⟨⟨rfl,rfl,-⟩,rfl⟩ := read
    have head : headOf .String (x.toNat - 0x80) = [x] := puthead_short 0x80 (by omega) (by omega)
    exact .inr ⟨by simp,by omega,head ▸ cleared,rfl⟩
  split at read
  · obtain ⟨rfl,large,length,consumes,kept⟩ := readLong_inv (by omega) read
    exact .inr (long (by simp) (by omega) (puthead_long 0xB7 (by omega) large length) consumes kept)
  split at read
  · simp only [mk.injEq] at read
    obtain ⟨⟨rfl,rfl,-⟩,rfl⟩ := read
    have head : headOf .List (x.toNat - 0xC0) = [x] := puthead_short 0xC0 (by omega) (by omega)
    exact .inr ⟨by simp,by omega,head ▸ cleared,rfl⟩
  · obtain ⟨rfl,large,length,consumes,kept⟩ := readLong_inv (by omega) read
    exact .inr (long (by simp) (by omega) (puthead_long 0xF7 (by omega) large length) consumes kept)

theorem kind_armed (armed : Armed s k size x b stack) : s.kind = (.ok (k,size),s) := by
  simp [Stream.kind,armed.armed,Stream.look,armed.kinderr,armed.size_eq]
theorem Ready.noError (ready : Ready s b stack) : Ready s.noError b stack :=
  { ready with }
theorem Ready.arm (ready : Ready s b stack) :
    Armed { s with armed := some k, size := size, kinderr := none } k size s.byteval b stack :=
  ⟨{ ready with },rfl,rfl,rfl,rfl⟩
/-- A list that has no room left is at its end. -/
theorem kind_end {below : List ListPos} (ready : Ready s b (tos :: below)) (full : tos.pos = tos.size) :
    s.kind = (.error .EOL,s.noError) := by
  simp [Stream.kind,ready.armed,ready.stack_eq,full]
theorem sizeError_none (stands : Stands s b stack) (room : Room n stack) (inside : n ≤ b.length) :
    s.sizeError stack.head? n = none := by
  cases stack with
  | nil => simp [Stream.sizeError,stands.remaining,inside]
  | cons tos below =>
    simp only [Room] at room
    simp only [Stream.sizeError,List.head?_cons]
    rw [if_neg (by omega)]
theorem room_of_sizeError (stands : Stands s b stack) (fits : s.sizeError stack.head? n = none) : Room n stack := by
  cases stack with
  | nil => trivial
  | cons tos below =>
    have placed := stands.placed
    simp only [Stream.sizeError,List.head?_cons,ite_eq_right_iff,reduceCtorEq,imp_false] at fits
    simp only [Room] at placed ⊢
    omega
theorem not_end (ready : Ready s b stack) : (s.stack.head?.any fun tos => tos.pos = tos.size) = false ↔ Room 1 stack := by
  have placed := ready.placed
  rw [ready.stack_eq]
  cases stack with
  | nil => simp [Room]
  | cons tos below =>
    simp only [Room] at placed ⊢
    simp
    omega

theorem kind_of_readKind {tail : Bytes} {stack₁ : List ListPos} (ready : Ready s b stack)
    (room : Room 1 stack) (read : s.noError.readKind = ((k,n,none),s₁)) (ready₁ : Ready s₁ tail stack₁)
    (room₁ : Room n stack₁) (inside : n ≤ tail.length) :
    ∃ s', s.kind = (.ok (k,n),s') ∧ Armed s' k n s₁.byteval tail stack₁ := by
  refine ⟨{ s₁ with armed := some k, size := n, kinderr := none },?_,ready₁.arm⟩
  have fits := sizeError_none ready₁.toStands room₁ inside
  rw [← ready₁.stack_eq] at fits
  simp [Stream.kind,ready.armed,(not_end ready).mpr room,read,Stream.fill,fits,Stream.look]
theorem kind_byte (ready : Ready s (x :: rest) stack) (room : Room 1 stack) (low : x.toNat < 0x80) :
    ∃ s', s.kind = (.ok (.Byte,0),s') ∧ Armed s' .Byte 0 x rest (bump 1 stack) := by
  obtain ⟨s₁,byte,ready₁,-⟩ := readByte_ok ready.noError.toStands room
  have read : s.noError.readKind = ((.Byte,0,none),{ s₁ with byteval := x }) := by
    simp [Stream.readKind,byte,if_pos low]
  have ready₂ : Ready { s₁ with byteval := x } rest (bump 1 stack) :=
    { ready₁ with }
  exact kind_of_readKind ready room read ready₂ ready₂.placed (Nat.zero_le _)
theorem headOf_length_pos (notByte : k ≠ .Byte) (n : Nat) : 1 ≤ (headOf k n).length := by
  cases k with
  | Byte => exact absurd rfl notByte
  | String | List => exact length_pos_iff.mpr (puthead_ne_nil _ _ _)
theorem kind_head (notByte : k ≠ .Byte) (ready : Ready s (headOf k n ++ rest) stack)
    (room : Room ((headOf k n).length + n) stack) (fits : n < 2^64) (inside : n ≤ rest.length) :
    ∃ s', s.kind = (.ok (k,n),s') ∧ Armed s' k n 0 rest (bump (headOf k n).length stack) := by
  have positive := headOf_length_pos notByte n
  obtain ⟨s₁,read,ready₁,byteval⟩ := readKind_ok notByte ready.noError.toStands (room.mono (by omega)) fits
  exact byteval ▸ kind_of_readKind ready (room.mono (by omega)) read ready₁ room.bump inside

/-- A head was in the look-ahead already, or it was read. -/
theorem kind_found (found : s.kind = (.ok (k,n),s')) : (s.armed = some k ∧ s.kinderr = none ∧ s.size = n ∧ s' = s) ∨
    (s.armed = none ∧ ∃ s₁, s.noError.readKind = ((k,n,none),s₁) ∧ s₁.sizeError s₁.stack.head? n = none ∧
      s' = { s₁ with armed := some k, size := n, kinderr := none }) := by
  cases armed : s.armed with
  | some k' =>
    simp only [Stream.kind,armed,Stream.look] at found
    cases error : s.kinderr with
    | some e => simp [error] at found
    | none =>
      simp only [error,mk.injEq,ok.injEq] at found
      obtain ⟨⟨rfl,rfl⟩,rfl⟩ := found
      exact .inl ⟨rfl,rfl,rfl,rfl⟩
  | none =>
    simp only [Stream.kind,armed] at found
    split at found
    · simp at found
    · cases read : s.noError.readKind with
      | mk q s₂ =>
        obtain ⟨k',size,err⟩ := q
        simp only [read,Stream.fill,Stream.look] at found
        cases error : err.or (s₂.sizeError s₂.stack.head? size) with
        | some e => simp [error] at found
        | none =>
          simp only [error,mk.injEq,ok.injEq] at found
          obtain ⟨⟨rfl,rfl⟩,rfl⟩ := found
          obtain ⟨rfl,fits⟩ := or_eq_none_iff.mp error
          exact .inr ⟨rfl,s₂,rfl,fits,rfl⟩
/-- What `Kind` has found, if it was not at the end of a list. -/
theorem kind_inv (ready : Ready s b stack) (found : s.kind = (.ok (k,n),s')) :
    (k = .Byte ∧ n = 0 ∧ ∃ x rest, b = x :: rest ∧ x.toNat < 0x80 ∧ Room 1 stack ∧
      Armed s' .Byte 0 x rest (bump 1 stack)) ∨
    (k ≠ .Byte ∧ n < 2^64 ∧ ∃ rest, b = headOf k n ++ rest ∧ Room ((headOf k n).length + n) stack ∧
      Armed s' k n 0 rest (bump (headOf k n).length stack)) := by
  rcases kind_found found with ⟨armed,-⟩ | ⟨-,s₁,read,fits,rfl⟩
  · rw [ready.armed] at armed
    cases armed
  rcases readKind_inv read with ⟨rfl,rfl,low,consumes⟩ | ⟨notByte,small,consumes,byteval⟩
  · obtain ⟨rest,rfl,room,ready₁⟩ := ready.noError.consume consumes
    exact .inl ⟨rfl,rfl,_,rest,rfl,low,room,ready₁.arm⟩
  · obtain ⟨rest,rfl,room,ready₁⟩ := ready.noError.consume consumes
    rw [ready₁.stack_eq] at fits
    refine .inr ⟨notByte,small,rest,rfl,room_bump.mp (room_of_sizeError ready₁.toStands fits),byteval ▸ ready₁.arm⟩

/-! ### Strings -/

/-- The item of a string: a small byte stands for itself, any other string has a head. -/
theorem encodeString_low (low : x.toNat < 0x80) : encodeString [x] = [x] := by
  have le : x ≤ 0x7F := by
    rw [le_iff_toNat_le]
    simp
    omega
  simp [encodeString,le]
theorem encodeString_head (notLow : ∀ x, content = [x] → 0x80 ≤ x.toNat) :
    encodeString content = headOf .String content.length ++ content := by
  match content with
  | [] => rfl
  | [x] =>
    have high : ¬ x ≤ 0x7F := by
      have := notLow x rfl
      rw [le_iff_toNat_le]
      simp
      omega
    simp [encodeString,high,headOf]
  | x :: y :: tail => rfl
theorem encodeList_head (payload : Bytes) : encodeList payload = headOf .List payload.length ++ payload := rfl

/-- A string is in front of the stream, in the look-ahead or not, and this is what it leaves behind: the rest and the lists. -/
def AtString (s : Stream) (content rest : Bytes) (stack : List ListPos) : Prop :=
  (∃ x s', content = [x] ∧ x.toNat < 0x80 ∧ s.kind = (.ok (.Byte,0),s') ∧ Armed s' .Byte 0 x rest stack) ∨
  (∃ s' stack', (∀ x, content = [x] → 0x80 ≤ x.toNat) ∧ s.kind = (.ok (.String,content.length),s') ∧
    Armed s' .String content.length 0 (content ++ rest) stack' ∧ Room content.length stack' ∧
    bump content.length stack' = stack)
/-- The same for a list; the lists are those around it, when it begins. -/
def AtList (s : Stream) (payload rest : Bytes) (stack : List ListPos) : Prop :=
  ∃ s', s.kind = (.ok (.List,payload.length),s') ∧ Armed s' .List payload.length 0 (payload ++ rest) stack ∧
    Room payload.length stack

theorem at_string (ready : Ready s (encodeString content ++ rest) stack)
    (room : Room (encodeString content).length stack) (fits : Fits content) :
    AtString s content rest (bump (encodeString content).length stack) := by
  by_cases byte : ∃ x, content = [x] ∧ x.toNat < 0x80
  · obtain ⟨x,rfl,low⟩ := byte
    rw [encodeString_low low] at ready room ⊢
    obtain ⟨s',found,armed⟩ := kind_byte ready room low
    exact .inl ⟨x,s',rfl,low,found,armed⟩
  · have notLow : ∀ x, content = [x] → 0x80 ≤ x.toNat := fun x isOne => Nat.le_of_not_lt fun low => byte ⟨x,isOne,low⟩
    rw [encodeString_head notLow] at ready room ⊢
    rw [length_append] at room ⊢
    rw [append_assoc] at ready
    obtain ⟨s',found,armed⟩ := kind_head (by simp) ready room fits (by simp)
    exact .inr ⟨s',_,notLow,found,armed,room.bump,bump_bump _ _ stack⟩
theorem at_list (ready : Ready s (encodeList payload ++ rest) stack)
    (room : Room (encodeList payload).length stack) (fits : Fits payload) :
    AtList s payload rest (bump (headOf .List payload.length).length stack) := by
  rw [encodeList_head] at ready room
  rw [length_append] at room
  rw [append_assoc] at ready
  obtain ⟨s',found,armed⟩ := kind_head (by simp) ready room fits (by simp)
  exact ⟨s',found,armed,room.bump⟩
/-- Looking at the head does not move the stream. -/
theorem AtString.look (here : AtString s content rest stack)
    (found : s.kind = (.ok (k,n),s₁)) : AtString s₁ content rest stack := by
  rcases here with ⟨x,s',isOne,low,found',armed⟩ | ⟨s',stack',notLow,found',armed,room,after⟩
  · rw [found'] at found
    cases found
    exact .inl ⟨x,s₁,isOne,low,kind_armed armed,armed⟩
  · rw [found'] at found
    cases found
    exact .inr ⟨s₁,stack',notLow,kind_armed armed,armed,room,after⟩
theorem AtList.look (here : AtList s payload rest stack)
    (found : s.kind = (.ok (k,n),s₁)) : AtList s₁ payload rest stack := by
  obtain ⟨s',found',armed,room⟩ := here
  rw [found'] at found
  cases found
  exact ⟨s₁,kind_armed armed,armed,room⟩

theorem Armed.release (armed : Armed s k size x b stack) : Ready s.release b stack :=
  ⟨{ armed with },rfl⟩
theorem not_low (notLow : ∀ x, content = [x] → 0x80 ≤ x.toNat) :
    ¬ (content.length = 1 ∧ content.head?.any (·.toNat < 128) = true) := by
  rintro ⟨one,small⟩
  obtain ⟨x,rfl⟩ := length_eq_one_iff.mp one
  have := notLow x rfl
  simp at small
  omega
theorem bytes_ok (here : AtString s content rest stack) : ∃ s', s.bytes = (.ok content,s') ∧ Ready s' rest stack := by
  rcases here with ⟨x,s',rfl,low,found,armed⟩ | ⟨s',stack',notLow,found,armed,room,rfl⟩
  · exact ⟨s'.release,by simp [Stream.bytes,found,armed.byteval],armed.release⟩
  · obtain ⟨s₂,read,ready,-⟩ := readFull_ok armed.toStands room
    exact ⟨s₂,by simp [Stream.bytes,found,read,if_neg (not_low notLow)],ready⟩
theorem uint_ok {bits : Nat} (here : AtString s (putint v) rest stack) (fits : (putint v).length ≤ bits/8) :
    ∃ s', s.uint bits = (.ok v,s') ∧ Ready s' rest stack := by
  have value := getint_putint v
  rcases here with ⟨x,s',isOne,low,found,armed⟩ | ⟨s',stack',notLow,found,armed,room,rfl⟩
  · have nonzero := putint_head v x [] isOne
    rw [isOne] at value
    have valueIs : x.toNat = v := by simpa [getint] using value
    refine ⟨s'.release,?_,armed.release⟩
    simp [Stream.uint,found,armed.byteval,if_neg nonzero,valueIs]
  · rcases Nat.eq_zero_or_pos v with rfl | positive
    · refine ⟨s'.release,?_,?_⟩
      · simp [Stream.uint,found,Stream.readUint]
      · have := armed.release
        simpa using this
    · obtain ⟨s₂,read,ready,-⟩ := readUint_ok armed.toStands room positive
      have notSmall : ¬ (0 < (putint v).length ∧ v < 128) := by
        rintro ⟨-,small⟩
        have single : putint v = [ofNat v] := by
          rw [putint_step positive,Nat.div_eq_of_lt (by omega),Nat.mod_eq_of_lt (by omega)]
          rfl
        have := notLow _ single
        simp at this
        omega
      refine ⟨s₂,?_,ready⟩
      simp [Stream.uint,found,if_neg (show ¬ bits/8 < (putint v).length by omega),read,if_neg notSmall]
theorem Armed.enter (armed : Armed s k size x b stack) : Ready (s.enter size) b (⟨0,size⟩ :: stack) :=
  ⟨{ armed with stack_eq := by simp [Stream.enter,armed.stack_eq], placed := Nat.zero_le _ },rfl⟩
theorem list_ok (here : AtList s payload rest stack) :
    ∃ s', s.list = (.ok payload.length,s') ∧ Ready s' (payload ++ rest) (⟨0,payload.length⟩ :: stack) := by
  obtain ⟨s',found,armed,room⟩ := here
  exact ⟨s'.enter payload.length,by simp [Stream.list,found],armed.enter⟩
theorem leave_eq (tos : ListPos) (stack : List ListPos) : Stream.leave tos stack = bump tos.size stack := by
  cases stack <;> rfl
/-- A list that is read to its end is closed, whatever is in the look-ahead. -/
theorem listEnd_ok (stands : Stands s b (tos :: stack)) (full : tos.pos = tos.size) (room : Room tos.size stack) :
    ∃ s', s.listEnd = (.ok (),s') ∧ Ready s' b (bump tos.size stack) := by
  refine ⟨s.close (bump tos.size stack),by
    simp only [Stream.listEnd,stands.stack_eq,full,ne_eq,not_true_eq_false,if_false,leave_eq],?_⟩
  exact ⟨{ stands with stack_eq := rfl, placed := Room.bump room },rfl⟩

theorem bytes_inv (ready : Ready s b stack) (read : s.bytes = (.ok content,s')) :
    ∃ rest, b = encodeString content ++ rest ∧ Fits content ∧ Room (encodeString content).length stack ∧
      Ready s' rest (bump (encodeString content).length stack) := by
  unfold Stream.bytes at read
  split at read
  · cases read
  · cases read
    rename_i found
    rcases kind_inv ready found with ⟨-,rfl,x,rest,rfl,low,room,armed⟩ | ⟨notByte,-⟩
    · rw [armed.byteval,encodeString_low low]
      exact ⟨rest,rfl,by simp [Fits],room,armed.release⟩
    · exact absurd rfl notByte
  · rename_i n s₁ found
    rcases kind_inv ready found with ⟨isByte,-⟩ | ⟨-,small,rest,rfl,room,armed⟩
    · cases isByte
    split at read
    · cases read
    rename_i full
    split at read
    · cases read
    rename_i canonical
    cases read
    obtain ⟨rfl,consumes,-⟩ := readFull_inv full
    obtain ⟨rest',rfl,-,ready'⟩ := armed.consume consumes
    have notLow : ∀ x, content = [x] → 0x80 ≤ x.toNat := by
      rintro x rfl
      simpa using canonical
    rw [encodeString_head notLow,length_append]
    exact ⟨rest',(append_assoc _ _ _).symm,small,room,bump_bump _ _ stack ▸ ready'⟩
  · cases read
theorem list_inv (ready : Ready s b stack) (read : s.list = (.ok n,s')) :
    ∃ rest, b = headOf .List n ++ rest ∧ n < 2^64 ∧ Room ((headOf .List n).length + n) stack ∧
      Ready s' rest (⟨0,n⟩ :: bump (headOf .List n).length stack) := by
  unfold Stream.list at read
  split at read
  · cases read
  rename_i k size s₁ found
  split at read
  · cases read
  rename_i isList
  cases read
  obtain rfl := not_not.mp isList
  rcases kind_inv ready found with ⟨isByte,-⟩ | ⟨-,small,rest,rfl,room,armed⟩
  · cases isByte
  · exact ⟨rest,rfl,small,room,armed.enter⟩
theorem listEnd_inv (stands : Stands s b (tos :: stack)) (room : Room tos.size stack)
    (read : s.listEnd = (.ok (),s')) : Ready s' b (bump tos.size stack) := by
  by_cases full : tos.pos = tos.size
  · obtain ⟨s₂,read₂,ready⟩ := listEnd_ok stands full room
    rw [read] at read₂
    simp only [mk.injEq,true_and] at read₂
    exact read₂ ▸ ready
  · simp [Stream.listEnd,stands.stack_eq,full] at read

/-! ### What reading takes -/

/-- What reading does, whether it gets what it asked for or not: it meets no end of a list, and the look-ahead is empty
    after it. -/
structure Takes {α : Type} (s : Stream) (r : Except StreamError α × Stream) : Prop where
  notEnd : r.1 ≠ .error .EOL
  armed : r.2.armed = none
  shorter : r.2.input.length ≤ s.input.length

theorem Takes.ne {α : Type} {r : Except StreamError α × Stream} (takes : Takes s r) (failed : r = (.error e,s')) : e ≠ .EOL := by
  rintro rfl
  exact takes.notEnd (by rw [failed])
/-- The same with another result. -/
theorem Takes.result {α β : Type} {r : Except StreamError α × Stream} {a : Except StreamError β} (takes : Takes s r)
    (same : r.2 = s₁) (notEnd : a ≠ .error .EOL) : Takes s (a,s₁) := by
  subst same
  exact ⟨notEnd,takes.armed,takes.shorter⟩

theorem willRead_takes (s : Stream) (n : Nat) : Takes s (s.willRead n) := by
  unfold Stream.willRead
  dsimp only
  repeat' split
  all_goals exact ⟨by simp,rfl,le_rfl⟩
theorem readByte_takes (s : Stream) :
    Takes s s.readByte ∧ (s.readByte.1.isOk → s.readByte.2.input.length + 1 = s.input.length) := by
  have will := willRead_takes s 1
  rcases read : s.readByte with ⟨e | x,s'⟩
  · refine ⟨?_,by simp [isOk,Except.toBool]⟩
    unfold Stream.readByte at read
    split at read
    · rename_i failed
      cases read
      exact will.result (by rw [failed]) (by simpa using will.ne failed)
    · rename_i passed
      split at read <;> cases read
      exact will.result (by rw [passed]) (by simp)
  · obtain ⟨consumes,-⟩ := readByte_inv read
    exact ⟨⟨by simp,consumes.armed,by simp [consumes.input]⟩,fun _ => by simp [consumes.input]⟩
theorem readFull_takes (s : Stream) (n : Nat) : Takes s (s.readFull n) ∧ ((s.readFull n).1.isOk → n ≤ s.input.length) := by
  have will := willRead_takes s n
  rcases read : s.readFull n with ⟨e | c,s'⟩
  · refine ⟨?_,by simp [isOk,Except.toBool]⟩
    unfold Stream.readFull at read
    split at read
    · rename_i failed
      cases read
      exact will.result (by rw [failed]) (by simpa using will.ne failed)
    · rename_i passed
      rw [passed] at will
      split at read <;> cases read
      exact ⟨by simp,will.armed,Nat.zero_le _⟩
  · obtain ⟨length,consumes,-⟩ := readFull_inv read
    exact ⟨⟨by simp,consumes.armed,by simp [consumes.input]⟩,fun _ => by simp [consumes.input,length]⟩
theorem readUint_takes (s : Stream) (size : Nat) : Takes s (s.readUint size) := by
  have byte := (readByte_takes s).1
  have full := (readFull_takes s size).1
  unfold Stream.readUint
  split
  · exact ⟨by simp,rfl,le_rfl⟩
  split
  · split
    · rename_i failed
      exact byte.result (by rw [failed]) (by simpa using byte.ne failed)
    · rename_i read
      exact byte.result (by rw [read]) (by simp)
  · split
    · rename_i failed
      exact full.result (by rw [failed]) (by simpa using full.ne failed)
    · rename_i read
      split <;> exact full.result (by rw [read]) (by simp)
/-- What reading a head does. It takes a byte at least, and a small byte is all of its head. -/
structure TakesHead (s : Stream) (q : (Kind × Nat × Option StreamError) × Stream) : Prop where
  notEnd : q.1.2.2 ≠ some .EOL
  taken : q.1.2.2 = none → q.2.input.length + 1 ≤ s.input.length ∧ (q.1.1 = .Byte → q.2.input.length + 1 = s.input.length)

theorem readLong_takes (less : s₁.input.length + 1 = s.input.length) (notByte : k ≠ .Byte) (size : Nat) :
    TakesHead s (s₁.readLong k size) := by
  have number := readUint_takes s₁ size
  unfold Stream.readLong
  split
  · rename_i e s₂ failed
    have notEnd := number.ne failed
    exact ⟨by simpa using notEnd,by simp⟩
  · rename_i n s₂ read
    have shorter := number.shorter
    rw [read] at shorter
    dsimp only at shorter
    exact ⟨by dsimp only; split <;> simp,fun _ => ⟨by dsimp only; omega,fun isByte => absurd isByte notByte⟩⟩
theorem readKind_takes (s : Stream) : TakesHead s s.readKind := by
  obtain ⟨byte,first⟩ := readByte_takes s
  unfold Stream.readKind
  split
  · rename_i e s₁ failed
    have notEnd := byte.ne failed
    refine ⟨?_,by simp⟩
    dsimp only [Stream.outerError]
    split
    · simp
    · simpa using notEnd
  · rename_i x s₁ read
    rw [read] at first
    have length : ({ s₁ with byteval := 0 } : Stream).input.length + 1 = s.input.length := first rfl
    dsimp only
    split
    · exact ⟨by simp,fun _ => ⟨length.le,fun _ => length⟩⟩
    split
    · exact ⟨by simp,fun _ => ⟨length.le,by simp⟩⟩
    split
    · exact readLong_takes length (by simp) _
    split
    · exact ⟨by simp,fun _ => ⟨length.le,by simp⟩⟩
    · exact readLong_takes length (by simp) _

/-! ### The end of a list -/

/-- The end of a list was in the look-ahead already, or it is found at the end of a list. -/
theorem kind_ended (found : s.kind = (.error .EOL,s')) : s.armed.isSome ∧ s' = s ∨
    (s.stack.head?.any fun tos => tos.pos = tos.size) = true ∧ s' = s.noError := by
  cases armed : s.armed with
  | some k =>
    simp only [Stream.kind,armed,Stream.look] at found
    split at found
    · exact .inl ⟨rfl,(mk.inj found).2.symm⟩
    · simp at found
  | none =>
    simp only [Stream.kind,armed] at found
    split at found
    · exact .inr ⟨‹_›,(mk.inj found).2.symm⟩
    · exfalso
      cases read : s.noError.readKind with
      | mk q s₁ =>
        obtain ⟨k,size,err⟩ := q
        simp only [read,Stream.fill,Stream.look] at found
        cases err with
        | some e =>
          simp only [some_or,mk.injEq,error.injEq] at found
          exact (readKind_takes _).notEnd (by rw [read,found.1])
        | none =>
          simp only [none_or,Stream.sizeError] at found
          repeat' split at found
          all_goals simp_all
theorem kind_EOL (ready : Ready s b stack) (found : s.kind = (.error .EOL,s')) :
    ∃ tos below, stack = tos :: below ∧ tos.pos = tos.size ∧ s' = s.noError := by
  rcases kind_ended found with ⟨armed,-⟩ | ⟨atEnd,rfl⟩
  · simp [ready.armed] at armed
  · rw [ready.stack_eq] at atEnd
    cases stack with
    | nil => simp at atEnd
    | cons tos below => exact ⟨tos,below,rfl,by simpa using atEnd,rfl⟩
theorem listEnd_error (failed : s.listEnd = (.error e,s')) : e ≠ .EOL := by
  rintro rfl
  simp only [Stream.listEnd] at failed
  repeat' split at failed
  all_goals simp at failed
variable (found : s.kind = (.ok r,s₁))
include found
/-- A head that was found stays in the look-ahead. -/
theorem kind_again : s₁.kind = (.ok r,s₁) := by
  rcases kind_found found with ⟨armed,error,size,rfl⟩ | ⟨-,s₂,-,-,rfl⟩
  · simp [Stream.kind,armed,Stream.look,error,size]
  · simp [Stream.kind,Stream.look]

/-- The operations look at the head first, so that it makes no difference whether it was looked at. -/
theorem list_look : s₁.list = s.list := by
  simp [Stream.list,found,kind_again found]
theorem bytes_look : s₁.bytes = s.bytes := by
  simp [Stream.bytes,found,kind_again found]
theorem uint_look (bits : Nat) : s₁.uint bits = s.uint bits := by
  simp [Stream.uint,found,kind_again found]

end

namespace Stream

/-- The bytes that are not read, with one for the head in the look-ahead. -/
def left (s : Stream) : Nat := s.input.length + if s.armed.isSome then 1 else 0

section
variable {α : Type} {s s' s₁ : Stream} {r : Except StreamError α × Stream} {e : StreamError} {k : Kind} {n : Nat}

theorem left_of_none (ready : s.armed = none) : s.left = s.input.length := by simp [left,ready]
theorem left_of_some (armed : s.armed.isSome = true) : s.left = s.input.length + 1 := by simp [left,armed]
theorem input_le_left (s : Stream) : s.input.length ≤ s.left := Nat.le_add_right _ _
/-- A head in the look-ahead is not read yet, so that looking at it takes nothing off. -/
theorem kind_left (found : s.kind = (.ok (k,n),s')) :
    s'.armed.isSome ∧ s'.left ≤ s.left ∧ (k = .Byte → s'.left = s.left) := by
  rcases kind_found found with ⟨armed,-,-,rfl⟩ | ⟨armed,s₁,read,-,rfl⟩
  · exact ⟨by simp [armed],le_rfl,fun _ => rfl⟩
  · have taken := (readKind_takes s.noError).taken
    rw [read] at taken
    rw [left_of_none armed,left_of_some (by simp)]
    exact ⟨by simp,taken rfl⟩
theorem kind_end_left (found : s.kind = (.error .EOL,s')) : s'.left = s.left := by
  rcases kind_ended found with ⟨-,rfl⟩ | ⟨-,rfl⟩
  · rfl
  · rfl

/-- What a call does that looks at the head of an item first. Only without a head it finds the end of a list, and what it reads
    is taken off. -/
structure Acts (s : Stream) (r : Except StreamError α × Stream) : Prop where
  ends : ∀ {s'}, r = (.error .EOL,s') → s.kind = (.error .EOL,s')
  takes : ∀ {a s'}, r = (.ok a,s') → s'.left < s.left

theorem Acts.failed (found : s.kind = (.error e,s₁)) : Acts s ((.error e,s₁) : Except StreamError α × Stream) := by
  refine ⟨?_,by simp⟩
  rintro s' ⟨⟩
  exact found
theorem Acts.kept (s : Stream) (notEnd : e ≠ .EOL) : Acts s ((.error e,s₁) : Except StreamError α × Stream) :=
  ⟨by simp [notEnd],by simp⟩
theorem Acts.took (found : s.kind = (.ok (k,n),s₁)) (notEnd : r.1 ≠ .error .EOL) (empty : r.2.armed = none)
    (shorter : r.2.input.length ≤ s₁.input.length) : Acts s r := by
  refine ⟨?_,?_⟩
  · rintro s' rfl
    exact absurd rfl notEnd
  · rintro a s' rfl
    obtain ⟨armed,less,-⟩ := kind_left found
    rw [left_of_some armed] at less
    exact (left_of_none empty).trans_lt ((Nat.lt_succ_of_le shorter).trans_le less)
theorem Acts.read (found : s.kind = (.ok (k,n),s₁)) (takes : Takes s₁ r) : Acts s r :=
  .took found takes.notEnd takes.armed takes.shorter

end

theorem bytes_acts (s : Stream) : Acts s s.bytes := by
  unfold bytes
  split
  · exact .failed ‹_›
  · rename_i found
    exact .took found (by simp) rfl le_rfl
  · rename_i size s₁ found
    have full := (readFull_takes s₁ size).1
    split
    · rename_i failed
      exact .read found (full.result (by rw [failed]) (by simpa using full.ne failed))
    · rename_i read
      split <;> exact .read found (full.result (by rw [read]) (by simp))
  · exact .kept s (by simp)
theorem uint_acts (s : Stream) (bits : Nat) : Acts s (s.uint bits) := by
  unfold uint
  split
  · exact .failed ‹_›
  · rename_i found
    split
    · exact .kept s (by simp)
    · exact .took found (by simp) rfl le_rfl
  · rename_i size s₁ found
    have number := readUint_takes s₁ size
    split
    · exact .kept s (by simp)
    split
    · rename_i failed
      refine .read found (number.result (by rw [failed]) ?_)
      split
      · simp
      · simpa using number.ne failed
    · rename_i read
      split <;> exact .read found (number.result (by rw [read]) (by simp))
  · exact .kept s (by simp)
theorem bool_acts (s : Stream) : Acts s s.bool := by
  have number := uint_acts s 8
  have read {b : Bool} {v : Nat} {s₁ : Stream} (read : s.uint 8 = (.ok v,s₁)) :
      Acts s ((.ok b,s₁) : Except StreamError Bool × Stream) := by
    refine ⟨by simp,?_⟩
    rintro b s' ⟨⟩
    exact number.takes read
  unfold bool
  split
  · rename_i failed
    refine ⟨?_,by simp⟩
    rintro s' ⟨⟩
    exact number.ends failed
  · exact read ‹_›
  · exact read ‹_›
  · exact .kept s (by simp)
theorem list_acts (s : Stream) : Acts s s.list := by
  unfold list
  split
  · exact .failed ‹_›
  · rename_i found
    split
    · exact .kept s (by simp)
    · exact .took found (by simp) rfl le_rfl

end Stream

end Canchain.Rlp
