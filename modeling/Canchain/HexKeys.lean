import Canchain.Rlp

/-!
The three key forms of `lib/trie/encoding.go`: key bytes, hex keys (one nibble
each, with the terminator 16 at the end of a key that leads to a value) and
compact keys, which pack a hex key and its terminator flag into bytes.
-/
namespace Canchain.HexKeys
open List UInt8
open Rlp (Bytes)

/-- Nibbles 0 to 15 and the terminator 16; the index into `fullNode.Children`. -/
abbrev Nibble := Fin 17
instance neZero_nibbles : NeZero 17 := ⟨by decide⟩
abbrev Hex := List Nibble

def keybytesToHex (str : Bytes) : Hex :=
  str.flatMap (fun b => [Fin.ofNat 17 (b.toNat/16),Fin.ofNat 17 (b.toNat%16)]) ++ [16]

def hasTerm (s : Hex) : Bool := s.getLast? = some 16

/-- `decodeNibbles` on a buffer of half the length. -/
def decodeNibbles : Hex → Bytes
  | a :: b :: rest => (UInt8.ofNat a.val <<< 4 ||| UInt8.ofNat b.val) :: decodeNibbles rest
  | _ => []

/-- The buffer of `hexToCompact` once the terminator is cut off: the flags of
    the first byte, the odd nibble if there is one, and the pairs. -/
def packHex (terminator : UInt8) (hex : Hex) : Bytes :=
  if hex.length % 2 = 1 then
    match hex with
    | [] => []
    | x :: rest => (terminator <<< 5 ||| (1 : UInt8) <<< 4 ||| UInt8.ofNat x.val) :: decodeNibbles rest
  else (terminator <<< 5) :: decodeNibbles hex
def hexToCompact (hex : Hex) : Bytes :=
  if hasTerm hex then packHex 1 hex.dropLast else packHex 0 hex

/-- `compactToHex`; `none` is the slice panic on the empty string, whose hex
    form is the lone terminator. -/
def compactToHex (compact : Bytes) : Option Hex :=
  match keybytesToHex compact with
  | [] => none
  | first :: tail =>
    let base := if first.val < 2 then (first :: tail).dropLast else first :: tail
    let chop := 2 - first.val % 2
    if chop > base.length then none else some (base.drop chop)

/-- Length of the common prefix of two keys. -/
def prefixLen : Hex → Hex → Nat
  | a :: as, b :: bs => if a = b then prefixLen as bs + 1 else 0
  | _, _ => 0

/-- Nibbles only: no terminator. -/
def Plain (k : Hex) : Prop := ∀ x ∈ k, x.val < 16
instance (k : Hex) : Decidable (Plain k) := inferInstanceAs (Decidable (∀ x ∈ k, x.val < 16))
/-- A hex key as the trie stores it: nibbles, then perhaps the terminator. -/
def WellFormed (k : Hex) : Prop := Plain k ∨ ∃ p, Plain p ∧ k = p ++ [16]

theorem plain_cons {x : Nibble} {k : Hex} : Plain (x :: k) ↔ x.val < 16 ∧ Plain k := by
  simp [Plain]

/-- The nibbles of key bytes. -/
def nibbles (str : Bytes) : Hex :=
  str.flatMap (fun b => [Fin.ofNat 17 (b.toNat/16),Fin.ofNat 17 (b.toNat%16)])

private theorem high_val (b : UInt8) : (Fin.ofNat 17 (b.toNat/16)).val = b.toNat/16 := by
  have := b.toNat_lt
  simp [Fin.ofNat]; omega
private theorem low_val (b : UInt8) : (Fin.ofNat 17 (b.toNat%16)).val = b.toNat%16 := by
  simp [Fin.ofNat]; omega

theorem nibbles_plain (str : Bytes) : Plain (nibbles str) := by
  intro x member
  simp only [nibbles,mem_flatMap,mem_cons,not_mem_nil,or_false] at member
  obtain ⟨b,-,rfl | rfl⟩ := member
  · rw [high_val]; have := b.toNat_lt; omega
  · rw [low_val]; omega
theorem nibbles_injective {a b : Bytes} (same : nibbles a = nibbles b) : a = b := by
  induction a generalizing b with
  | nil =>
    cases b with
    | nil => rfl
    | cons y ys => simp [nibbles] at same
  | cons x xs ih =>
    cases b with
    | nil => simp [nibbles] at same
    | cons y ys =>
      simp only [nibbles,flatMap_cons,cons_append,nil_append,List.cons.injEq] at same
      obtain ⟨high,low,rest⟩ := same
      have high := congrArg Fin.val high
      have low := congrArg Fin.val low
      rw [high_val,high_val] at high
      rw [low_val,low_val] at low
      have : x = y := UInt8.toNat_inj.mp (by omega)
      rw [this,ih rest]
theorem keybytesToHex_injective {a b : Bytes} (same : keybytesToHex a = keybytesToHex b) : a = b :=
  nibbles_injective (append_cancel_right same)

theorem length_keybytesToHex (key : Bytes) : (keybytesToHex key).length = 2*key.length + 1 := by
  induction key with
  | nil => rfl
  | cons b key ih =>
    simp only [keybytesToHex,flatMap_cons,length_append,length_cons,length_nil] at ih ⊢
    omega

theorem hasTerm_append (p : Hex) : hasTerm (p ++ [16]) = true := by simp [hasTerm]
theorem hasTerm_plain {p : Hex} (plain : Plain p) : hasTerm p = false := by
  simp only [hasTerm,decide_eq_false_iff_not]
  intro last
  have := plain 16 (mem_of_getLast? last)
  simp at this

theorem decodeNibbles_nibbles (p : Hex) (plain : Plain p) (even : p.length % 2 = 0) :
    nibbles (decodeNibbles p) = p := by
  match p with
  | [] => rfl
  | [x] => simp at even
  | a :: b :: rest =>
    have pair : ∀ a b : Nibble, a.val < 16 → b.val < 16 → nibbles (decodeNibbles [a,b]) = [a,b] := by decide
    obtain ⟨lowA,lowB,plainRest⟩ : a.val < 16 ∧ b.val < 16 ∧ Plain rest := by
      simpa only [plain_cons,and_assoc] using plain
    have ih := decodeNibbles_nibbles rest plainRest (by simp at even; omega)
    have unfolded : nibbles (decodeNibbles (a :: b :: rest)) = nibbles (decodeNibbles [a,b]) ++ nibbles (decodeNibbles rest) := rfl
    rw [unfolded,pair a b lowA lowB,ih]
    rfl

/-- What `compactToHex` makes of a flag byte whose high nibble holds the two
    flags and whose low nibble is dropped exactly for even keys. -/
private theorem compactToHex_cons (flag : UInt8) (body : Bytes) :
    compactToHex (flag :: body) =
      let high := flag.toNat/16
      let base := Fin.ofNat 17 high :: Fin.ofNat 17 (flag.toNat%16) :: (nibbles body ++ [16])
      some ((if high < 2 then base.dropLast else base).drop (2 - high%2)) := by
  have shape : keybytesToHex (flag :: body) =
      Fin.ofNat 17 (flag.toNat/16) :: Fin.ofNat 17 (flag.toNat%16) :: (nibbles body ++ [16]) := rfl
  have enough : ¬ 2 - flag.toNat/16%2 > (if flag.toNat/16 < 2 then
      (Fin.ofNat 17 (flag.toNat/16) :: Fin.ofNat 17 (flag.toNat%16) :: (nibbles body ++ [16])).dropLast else
      Fin.ofNat 17 (flag.toNat/16) :: Fin.ofNat 17 (flag.toNat%16) :: (nibbles body ++ [16])).length := by
    split <;> simp <;> omega
  simp only [compactToHex,shape,high_val,if_neg enough]

/-- Only the empty string is no compact key. -/
theorem compactToHex_none {compact : Bytes} : compactToHex compact = none ↔ compact = [] := by
  constructor
  · intro none
    cases compact with
    | nil => rfl
    | cons flag body =>
      rw [compactToHex_cons] at none
      cases none
  · rintro rfl
    rfl

/-- Packing a stored key and unpacking it gives the key back. -/
theorem compactToHex_hexToCompact (k : Hex) (wf : WellFormed k) : compactToHex (hexToCompact k) = some k := by
  -- The two flags of the first byte, for each parity and terminator.
  have oddFlag : ∀ x : Nibble, x.val < 16 → ∀ t : UInt8, t = 0 ∨ t = 1 →
      (t <<< 5 ||| (1 : UInt8) <<< 4 ||| ofNat x.val).toNat/16 = 2*t.toNat + 1 ∧
      Fin.ofNat 17 ((t <<< 5 ||| (1 : UInt8) <<< 4 ||| ofNat x.val).toNat%16) = x := by
    intro x low t flag
    rcases flag with rfl | rfl
    · revert x; decide
    · revert x; decide
  have odd (x : Nibble) (rest : Hex) (plain : Plain (x :: rest)) (even : rest.length % 2 = 0)
      (t : UInt8) (flag : t = 0 ∨ t = 1) :
      compactToHex ((t <<< 5 ||| (1 : UInt8) <<< 4 ||| ofNat x.val) :: decodeNibbles rest) =
        some (if t = 0 then x :: rest else x :: rest ++ [16]) := by
    obtain ⟨low,plainRest⟩ := plain_cons.mp plain
    obtain ⟨high,body⟩ := oddFlag x low t flag
    rw [compactToHex_cons]
    simp only [high,body,decodeNibbles_nibbles rest plainRest even]
    rcases flag with rfl | rfl
    · have drop : (x :: (rest ++ [16])).dropLast = x :: rest := by
        rw [← cons_append,dropLast_concat]
      simp [dropLast_cons_cons,drop]
    · simp
  have evenCase (p : Hex) (plain : Plain p) (even : p.length % 2 = 0) (t : UInt8) (flag : t = 0 ∨ t = 1) :
      compactToHex ((t <<< 5) :: decodeNibbles p) = some (if t = 0 then p else p ++ [16]) := by
    rw [compactToHex_cons]
    simp only [decodeNibbles_nibbles p plain even]
    rcases flag with rfl | rfl
    · have : ((0 : UInt8) <<< 5).toNat/16 = 0 := by decide
      have drop : ((0 : Nibble) :: 0 :: (p ++ [16])).dropLast = 0 :: 0 :: p := by
        rw [← cons_append,← cons_append,dropLast_concat]
      simp only [this,Nat.zero_lt_two,↓reduceIte]
      rw [show Fin.ofNat 17 0 = (0 : Nibble) from rfl,show Fin.ofNat 17 (((0 : UInt8) <<< 5).toNat % 16) = (0 : Nibble) from rfl,drop]
      simp
    · simp
  have packed (p : Hex) (plain : Plain p) (t : UInt8) (flag : t = 0 ∨ t = 1) :
      compactToHex (packHex t p) = some (if t = 0 then p else p ++ [16]) := by
    unfold packHex
    split
    · rename_i parity
      cases p with
      | nil => simp at parity
      | cons x rest => exact odd x rest plain (by simp at parity; omega) t flag
    · rename_i parity
      exact evenCase p plain (by omega) t flag
  rcases wf with plain | ⟨p,plain,rfl⟩
  · simpa [hexToCompact,hasTerm_plain plain] using packed k plain 0 (.inl rfl)
  · simpa [hexToCompact,hasTerm_append] using packed p plain 1 (.inr rfl)
theorem hexToCompact_injective {a b : Hex} (wfA : WellFormed a) (wfB : WellFormed b)
    (same : hexToCompact a = hexToCompact b) : a = b := by
  have := compactToHex_hexToCompact a wfA
  rw [same,compactToHex_hexToCompact b wfB] at this
  exact (Option.some.inj this).symm

/-- The keys that `hexToCompact` makes: two flags in front, and no other bit in the first byte of an even key. -/
def IsCompact : Bytes → Prop
  | [] => False
  | flag :: _ => flag.toNat < 64 ∧ (flag.toNat/16 % 2 = 0 → flag.toNat % 16 = 0)
theorem nibbles_length (body : Bytes) : (nibbles body).length = 2*body.length := by
  have := length_keybytesToHex body
  rw [show keybytesToHex body = nibbles body ++ [16] from rfl,length_append,length_singleton] at this
  omega
theorem decodeNibbles_self (body : Bytes) : decodeNibbles (nibbles body) = body := by
  have length := nibbles_length body
  exact nibbles_injective (decodeNibbles_nibbles (nibbles body) (nibbles_plain body) (by omega))
theorem packHex_unpacked (t : UInt8) (flag : UInt8) (body : Bytes) (two : t = 0 ∨ t = 1) (high : flag.toNat/32 = t.toNat)
    (clean : flag.toNat/16 % 2 = 0 → flag.toNat % 16 = 0) : ∃ p, Plain p ∧ packHex t p = flag :: body := by
  have length := nibbles_length body
  have below := flag.toNat_lt
  by_cases odd : flag.toNat/16 % 2 = 1
  · have value : ∀ x : Nibble, x.val < 16 → ((0 : UInt8) <<< 5 ||| (1 : UInt8) <<< 4 ||| ofNat x.val).toNat = 16 + x.val ∧
        ((1 : UInt8) <<< 5 ||| (1 : UInt8) <<< 4 ||| ofNat x.val).toNat = 48 + x.val := by decide
    have isLow := low_val flag
    obtain ⟨even,uneven⟩ := value (Fin.ofNat 17 (flag.toNat%16)) (by omega)
    refine ⟨Fin.ofNat 17 (flag.toNat%16) :: nibbles body,plain_cons.mpr ⟨by omega,nibbles_plain body⟩,?_⟩
    rw [packHex,if_pos (by simp only [length_cons,length]; omega),decodeNibbles_self]
    congr 1
    apply UInt8.toNat_inj.mp
    rcases two with rfl | rfl
    · simp only [toNat_ofNat] at high
      omega
    · simp only [toNat_ofNat] at high
      omega
  · refine ⟨nibbles body,nibbles_plain body,?_⟩
    rw [packHex.eq_def,if_neg (by omega),decodeNibbles_self]
    congr 1
    apply UInt8.toNat_inj.mp
    have low := clean (by omega)
    rcases two with rfl | rfl
    · simp only [toNat_ofNat] at high
      rw [show ((0 : UInt8) <<< 5).toNat = 0 from rfl]
      omega
    · simp only [toNat_ofNat] at high
      rw [show ((1 : UInt8) <<< 5).toNat = 32 from rfl]
      omega
/-- Unpacking a compact key and packing it gives the key back. -/
theorem hexToCompact_compactToHex {key : Bytes} (is : IsCompact key) : ∃ k, WellFormed k ∧ compactToHex key = some k ∧ hexToCompact k = key := by
  cases key with
  | nil => exact is.elim
  | cons flag body =>
    obtain ⟨small,clean⟩ := is
    have packed : ∃ k, WellFormed k ∧ hexToCompact k = flag :: body := by
      by_cases term : flag.toNat < 32
      · obtain ⟨p,plain,same⟩ := packHex_unpacked 0 flag body (.inl rfl) (by simp; omega) clean
        exact ⟨p,.inl plain,by simpa [hexToCompact,hasTerm_plain plain] using same⟩
      · obtain ⟨p,plain,same⟩ := packHex_unpacked 1 flag body (.inr rfl) (by simp; omega) clean
        exact ⟨p ++ [16],.inr ⟨p,plain,rfl⟩,by simpa [hexToCompact,hasTerm_append] using same⟩
    obtain ⟨k,wf,same⟩ := packed
    exact ⟨k,wf,by rw [← same,compactToHex_hexToCompact k wf],same⟩

example : hexToCompact [0,15,1,12,11,8,16] = [0x20,0x0f,0x1c,0xb8] := by decide

end Canchain.HexKeys
