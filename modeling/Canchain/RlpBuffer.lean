import Canchain.Rlp

/-!
`encbuf`: strings go into one buffer, and the heads of the lists are kept beside it with
their places, since the size of a list is only known at its end; `toBytes` puts them in. What a
writer adds is the encoding it stands for (`Writes`), whatever was written before.
-/
namespace Canchain.Rlp
open List

structure ListHead where
  offset : Nat
  size : Nat
  deriving DecidableEq
structure Encbuf where
  str : Bytes
  lheads : List ListHead
  lhsize : Nat
  deriving DecidableEq

def intsizeFrom : Nat → Nat → Nat
  | 0, _ => 1
  | rounds+1, i => if i/256 = 0 then 1 else 1 + intsizeFrom rounds (i/256)
/-- `intsize`: the number of bytes of a word, at least one. -/
def intsize (i : Nat) : Nat := intsizeFrom 7 i
def headsize (size : Nat) : Nat := if size < 56 then 1 else 1 + intsize size
def ListHead.encode (head : ListHead) : Bytes := puthead 0xC0 0xF7 head.size

namespace Encbuf

def empty : Encbuf := ⟨[],[],0⟩
def size (w : Encbuf) : Nat := w.str.length + w.lhsize
def write (w : Encbuf) (b : Bytes) : Encbuf := { w with str := w.str ++ b }
def encodeString (w : Encbuf) (b : Bytes) : Encbuf := w.write (Rlp.encodeString b)
/-- `list`: a head at the end of the buffer, which remembers the heads before it. -/
def list (w : Encbuf) : Nat × Encbuf := (w.lheads.length,{ w with lheads := w.lheads ++ [⟨w.str.length,w.lhsize⟩] })
/-- `listEnd` for the head of the given place. -/
def listEnd (w : Encbuf) (place : Nat) : Encbuf :=
  match w.lheads[place]? with
  | none => w
  | some lh =>
    let size := w.size - lh.offset - lh.size
    { w with lheads := w.lheads.set place ⟨lh.offset,size⟩, lhsize := w.lhsize + headsize size }
def toBytesFrom (str : Bytes) : Nat → List ListHead → Bytes
  | strpos, [] => str.drop strpos
  | strpos, head :: heads => (str.drop strpos).take (head.offset - strpos) ++ head.encode ++ toBytesFrom str head.offset heads
def toBytes (w : Encbuf) : Bytes := toBytesFrom w.str 0 w.lheads

end Encbuf
variable {n : Nat}

theorem bigEndian_fuel {f g : Nat} (enough : n < 256^f) (enough' : n < 256^g) : bigEndian f n = bigEndian g n := by
  induction f generalizing g n with
  | zero =>
    obtain rfl : n = 0 := by simpa using enough
    cases g <;> simp [bigEndian]
  | succ f ih =>
    cases g with
    | zero =>
      obtain rfl : n = 0 := by simpa using enough'
      simp [bigEndian]
    | succ g =>
      by_cases zero : n = 0
      · simp [bigEndian,zero]
      · have smaller (k : Nat) (bound : n < 256^(k+1)) : n/256 < 256^k :=
          Nat.div_lt_of_lt_mul (by rw [Nat.mul_comm,← pow_succ]; exact bound)
        simp [bigEndian,if_neg zero,ih (smaller f enough) (smaller g enough')]
theorem putint_step (positive : 0 < n) : putint n = putint (n/256) ++ [UInt8.ofNat (n%256)] := by
  have bound := putint_enough n
  have smaller : n/256 < 256^(n.log2/8) :=
    Nat.div_lt_of_lt_mul (by rw [Nat.mul_comm,← pow_succ]; exact bound)
  rw [putint,bigEndian,if_neg (by omega),putint,bigEndian_fuel smaller (putint_enough (n/256))]
@[simp] theorem putint_zero : putint 0 = [] := rfl
/-- Bytes without leading zeros are those of their value. -/
theorem putint_getint {b : Bytes} (canonical : b.head? ≠ some 0) : putint (getint b) = b := by
  induction b using reverseRecOn with
  | nil => rfl
  | append_singleton front last ih =>
    have value : getint (front ++ [last]) = getint front * 256 + last.toNat := by
      rw [getint_append]
      simp [getint]
    have low := last.toNat_lt
    have quotient : (getint front * 256 + last.toNat) / 256 = getint front := by omega
    have remainder : (getint front * 256 + last.toNat) % 256 = last.toNat := by omega
    have positive : 0 < getint front * 256 + last.toNat := by
      cases front with
      | nil =>
        have nonzero : last ≠ 0 := by simpa using canonical
        have : last.toNat ≠ 0 := fun zero => nonzero (UInt8.toNat_inj.mp zero)
        omega
      | cons first rest =>
        have head : first ≠ 0 := by simpa using canonical
        have front : putint (getint (first :: rest)) = first :: rest := ih (by simpa using head)
        have : getint (first :: rest) ≠ 0 := by
          intro zero
          rw [zero] at front
          simp at front
        omega
    have frontCanonical : front.head? ≠ some 0 := by
      cases front with
      | nil => simp
      | cons first rest => simpa using canonical
    rw [value,putint_step positive,quotient,remainder,ih frontCanonical]
    simp

theorem intsizeFrom_putint {rounds : Nat} (positive : 0 < n) (fits : n < 256^(rounds+1)) :
    intsizeFrom rounds n = (putint n).length := by
  induction rounds generalizing n with
  | zero =>
    have small : n < 256 := by simpa using fits
    rw [putint_step positive,Nat.div_eq_of_lt small]
    rfl
  | succ rounds ih =>
    rw [putint_step positive,intsizeFrom]
    by_cases small : n/256 = 0
    · simp [small]
    · rw [if_neg small,ih (Nat.pos_of_ne_zero small)]
      · simp [Nat.add_comm]
      · exact Nat.div_lt_of_lt_mul (by rw [Nat.mul_comm,← pow_succ]; exact fits)
theorem headsize_puthead (smalltag largetag : UInt8) {size : Nat} (fits : size < 2^64) :
    headsize size = (puthead smalltag largetag size).length := by
  unfold headsize puthead
  split
  · rfl
  · rw [intsize,intsizeFrom_putint (by omega) (by norm_num; omega)]
    simp [Nat.add_comm]

/-- The heads stand in order, from a position to the end of the buffer. -/
def Within (length : Nat) : Nat → List ListHead → Prop
  | _, [] => True
  | pos, head :: heads => pos ≤ head.offset ∧ head.offset ≤ length ∧ Within length head.offset heads
def ListHead.shift (n : Nat) (head : ListHead) : ListHead := ⟨n + head.offset,head.size⟩
@[simp] theorem ListHead.shift_offset (n : Nat) (head : ListHead) : (head.shift n).offset = n + head.offset := rfl
@[simp] theorem ListHead.shift_encode (n : Nat) (head : ListHead) : (head.shift n).encode = head.encode := rfl
variable {length pos : Nat} {heads : List ListHead}

theorem Within.shift (within : Within length pos heads) :
    Within (n + length) (n + pos) (heads.map (·.shift n)) := by
  induction heads generalizing pos with
  | nil => trivial
  | cons head heads ih => exact ⟨Nat.add_le_add_left within.1 n,Nat.add_le_add_left within.2.1 n,ih within.2.2⟩
variable {more : List ListHead}

theorem Within.append {middle : Nat} (first : Within middle pos heads)
    (second : Within length middle more) (inside : pos ≤ middle) (longer : middle ≤ length) :
    Within length pos (heads ++ more) := by
  induction heads generalizing pos with
  | nil =>
    cases more with
    | nil => trivial
    | cons head more => exact ⟨inside.trans second.1,second.2⟩
  | cons head heads ih => exact ⟨first.1,first.2.1.trans longer,ih first.2.2 first.2.1⟩

namespace Encbuf

theorem toBytesFrom_shift (a b : Bytes) (pos : Nat) (heads : List ListHead) :
    toBytesFrom (a ++ b) (a.length + pos) (heads.map (·.shift a.length)) = toBytesFrom b pos heads := by
  induction heads generalizing pos with
  | nil => simp only [map_nil,toBytesFrom,← drop_drop,drop_left]
  | cons head heads ih =>
    simp only [map_cons,toBytesFrom,ListHead.shift_offset,ListHead.shift_encode,ih,← drop_drop,drop_left,
      Nat.add_sub_add_left]
theorem toBytesFrom_append {a b : Bytes} (within : Within a.length pos heads)
    (inside : pos ≤ a.length) :
    toBytesFrom (a ++ b) pos (heads ++ more.map (·.shift a.length)) = toBytesFrom a pos heads ++ toBytesFrom b 0 more := by
  induction heads generalizing pos with
  | nil =>
    have shifted := toBytesFrom_shift a b
    cases more with
    | nil => simp only [nil_append,map_nil,toBytesFrom,drop_append_of_le_length inside,drop_zero]
    | cons head more =>
      have place : a.length + head.offset - pos = (a.drop pos).length + head.offset := by simp; omega
      simp only [nil_append,map_cons,toBytesFrom,ListHead.shift_offset,ListHead.shift_encode,shifted head.offset more,
        drop_append_of_le_length inside,place,take_length_add_append,drop_zero,Nat.sub_zero,append_assoc]
  | cons head heads ih =>
    have fits : head.offset - pos ≤ (a.drop pos).length := by
      have := within.2.1
      simp
      omega
    simp [toBytesFrom,ih within.2.2 within.2.1,drop_append_of_le_length inside,take_append_of_le_length fits]

end Encbuf

/-- A buffer has become another one by writing the bytes `e`: what was added to the string, and the heads to put into it. -/
def Writes (w w' : Encbuf) (e : Bytes) : Prop :=
  ∃ (str : Bytes) (heads : List ListHead) (hsize : Nat), w'.str = w.str ++ str ∧
    w'.lheads = w.lheads ++ heads.map (·.shift w.str.length) ∧ w'.lhsize = w.lhsize + hsize ∧
    Within str.length 0 heads ∧ Encbuf.toBytesFrom str 0 heads = e ∧ str.length + hsize = e.length

theorem writes_write (w : Encbuf) (b : Bytes) : Writes w (w.write b) b :=
  ⟨b,[],0,rfl,by simp [Encbuf.write],rfl,trivial,rfl,rfl⟩
theorem writes_nil (w : Encbuf) : Writes w w [] := ⟨[],[],0,by simp,by simp,rfl,trivial,rfl,rfl⟩
theorem shift_shift (m n : Nat) (heads : List ListHead) :
    (heads.map (·.shift n)).map (·.shift m) = heads.map (·.shift (m + n)) := by
  simp [ListHead.shift,Nat.add_assoc]
open Encbuf
variable {w w' : Encbuf} {e : Bytes}

theorem Writes.trans {w'' : Encbuf} {e' : Bytes} (first : Writes w w' e) (second : Writes w' w'' e') :
    Writes w w'' (e ++ e') := by
  obtain ⟨str,heads,hsize,strIs,headsIs,sizeIs,within,woven,length⟩ := first
  obtain ⟨str',heads',hsize',strIs',headsIs',sizeIs',within',woven',length'⟩ := second
  refine ⟨str ++ str',heads ++ heads'.map (·.shift str.length),hsize + hsize',?_,?_,?_,?_,?_,?_⟩
  · rw [strIs',strIs,append_assoc]
  · rw [headsIs',headsIs,strIs,length_append,map_append,append_assoc,shift_shift]
  · omega
  · rw [length_append]
    exact within.append (within'.shift (n := str.length)) (by omega) (by omega)
  · rw [toBytesFrom_append within (by omega),woven,woven']
  · simp only [length_append]
    omega
/-- The head that `list` has put down gets the size of what was written since. -/
theorem writes_list {payload : Bytes} (written : Writes w.list.2 w' payload) (fits : payload.length < 2^64) :
    Writes w (w'.listEnd w.list.1) (encodeList payload) := by
  obtain ⟨str,heads,hsize,strIs,headsIs,sizeIs,within,woven,length⟩ := written
  simp only [list] at strIs headsIs sizeIs
  have here : w'.lheads[w.lheads.length]? = some ⟨w.str.length,w.lhsize⟩ := by rw [headsIs]; simp
  have size : w'.size - w.str.length - w.lhsize = payload.length := by
    simp only [size,strIs,sizeIs,length_append]
    omega
  have replaced : w'.lheads.set w.lheads.length ⟨w.str.length,payload.length⟩ =
      w.lheads ++ (⟨0,payload.length⟩ :: heads : List ListHead).map (·.shift w.str.length) := by
    rw [headsIs]
    simp [ListHead.shift]
  refine ⟨str,⟨0,payload.length⟩ :: heads,hsize + headsize payload.length,?_,?_,?_,?_,?_,?_⟩
  · simp [listEnd,list,here,strIs]
  · simp [listEnd,list,here,size,replaced]
  · simp only [listEnd,list,here,size,sizeIs]
    omega
  · exact ⟨Nat.le_refl 0,Nat.zero_le _,within⟩
  · simp [toBytesFrom,woven,ListHead.encode,encodeList]
  · rw [headsize_puthead 0xC0 0xF7 fits]
    simp only [encodeList,length_append]
    omega
theorem Writes.toBytes (written : Writes .empty w e) : w.toBytes = e := by
  obtain ⟨str,heads,hsize,strIs,headsIs,-,-,woven,-⟩ := written
  have unshifted : heads.map (·.shift 0) = heads := by simp [ListHead.shift]
  simp only [Encbuf.empty,nil_append,length_nil,unshifted] at strIs headsIs
  rw [Encbuf.toBytes,strIs,headsIs,woven]

end Canchain.Rlp
