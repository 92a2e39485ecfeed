import Canchain.TrieNode
import Canchain.PatriciaUpdate

/-!
The collapsed form of a trie as a function of its entries. In `collapse` a child is replaced
by its reference: the child itself where its encoding is shorter than a hash, its hash
otherwise. On such nodes the RLP encoding is injective (`encode_injective`).
-/
namespace Canchain.TrieCollapse
open Rlp Common HexKeys TrieNode Patricia List Raw
open HexKeys (WellFormed)

/-- The values of a trie: an empty value means absence. -/
abbrev Value := {v : Bytes // v ≠ []}
/-- The radix trees over nibbles, with the terminator as last digit. -/
abbrev Entries := Tree 16 Value

theorem last_eq : Fin.last 16 = (16 : Nibble) := rfl
theorem plain_iff (k : Hex) : Patricia.Plain (b := 16) k ↔ HexKeys.Plain k := by
  have inner : ∀ x : Nibble, x ≠ Fin.last 16 ↔ x.val < 16 := by decide
  simp only [Patricia.Plain,HexKeys.Plain,inner]
variable {k : Hex}

theorem wellFormed_of_plain (plain : Patricia.Plain (b := 16) k) : WellFormed k := .inl ((plain_iff k).mp plain)
theorem wellFormed_of_terminated (term : Terminated (b := 16) k) : WellFormed k := by
  obtain ⟨p,plain,is⟩ := terminated_iff.mp term
  exact .inr ⟨p,(plain_iff p).mp plain,is⟩
theorem terminated_keybytesToHex (key : Bytes) : Terminated (b := 16) (keybytesToHex key) :=
  terminated_iff.mpr ⟨nibbles key,(plain_iff _).mpr (nibbles_plain key),rfl⟩
theorem not_plain_of_terminated (term : Terminated (b := 16) k) : ¬ Patricia.Plain (b := 16) k := by
  obtain ⟨p,-,rfl⟩ := terminated_iff.mp term
  intro plain
  exact (plain_append.mp plain).2 (Fin.last 16) (by simp) rfl

/-! ### The encoding is injective on well-formed nodes -/

/-- What the hasher builds below a branch or a short node: a reference, or a
    node whose terminated keys lead to values and whose other keys to nodes. -/
def Formed : Raw → Prop
  | .nil => False
  | .value _ => False
  | .hash _ => True
  | .short key val => ∃ k, key = hexToCompact k ∧
      ((Terminated (b := 16) k ∧ ∃ v, v ≠ [] ∧ val = .value v) ∨ (Patricia.Plain (b := 16) k ∧ Formed val))
  | .full cs => (∀ i, i ≠ Fin.last 16 → cs i = .nil ∨ Formed (cs i)) ∧
      (cs (Fin.last 16) = .nil ∨ ∃ v, v ≠ [] ∧ cs (Fin.last 16) = .value v)

/-- What a branch writes for a child. -/
def childItem (r : Raw) : Bytes := if r.isNil then [0x80] else r.encode

theorem encode_full (cs : Nibble → Raw) :
    (full cs).encode = encodeList (((finRange 17).map fun i => childItem (cs i)).flatten) := by
  rw [encode,flatMap_def]
  rfl
theorem encode_short (key : Bytes) (val : Raw) :
    (short key val).encode = encodeList ([encodeString key,val.encode].flatten) := by
  simp [encode]
variable {e : Bytes} {es : List Bytes}

theorem length_mem_flatten (member : e ∈ es) : e.length ≤ es.flatten.length := by
  induction es with
  | nil => simp at member
  | cons f es ih =>
    rw [flatten_cons,length_append]
    rcases mem_cons.mp member with rfl | later
    · omega
    · have := ih later; omega
/-- The items of a list are shorter than the list. -/
theorem fits_item (fits : Fits (encodeList es.flatten)) (member : e ∈ es) : Fits e := by
  have := length_lt_encodeList es.flatten
  have := length_mem_flatten member
  unfold Fits at *; omega
variable {r : Raw}
theorem isNil_eq_false : r.isNil = false ↔ r ≠ .nil := by cases r <;> simp [isNil]
theorem childItem_nil : childItem .nil = encodeString [] := by decide
theorem childItem_some (some : r ≠ .nil) : childItem r = r.encode := by
  simp [childItem,isNil_eq_false.mpr some]

/-- The encoding of a node, reference or value is one item. -/
theorem isItem_encode (some : r ≠ .nil) (fits : Fits r.encode) : IsItem r.encode := by
  cases r with
  | nil => exact absurd rfl some
  | hash _ | value _ => exact isItem_encodeString (fits_string fits)
  | short _ _ | full _ => exact isItem_encodeList (fits_payload fits)
theorem isItem_childItem (fits : Fits (childItem r)) : IsItem (childItem r) := by
  by_cases empty : r = .nil
  · rw [empty,childItem_nil]
    exact isItem_encodeString (by simp [Fits])
  · rw [childItem_some empty] at fits ⊢
    exact isItem_encode empty fits
theorem Formed.ne_nil (formed : Formed r) : r ≠ .nil := by rintro rfl; exact formed

/-- The empty string is no node, reference or value. -/
theorem encode_ne_empty (fits : Fits r.encode) (ok : Formed r ∨ ∃ v, v ≠ [] ∧ r = .value v) :
    r.encode ≠ encodeString [] := by
  have none : Fits [] := by simp [Fits]
  rcases ok with formed | ⟨v,some,rfl⟩
  · cases r with
    | nil | value _ => exact formed.elim
    | hash h =>
      intro same
      have := encodeString_injective (fits_string fits) none same
      have size := h.size
      rw [this] at size
      simp at size
    | short _ _ | full _ => exact (encodeString_ne_encodeList none (fits_payload fits)).symm
  · intro same
    exact some (encodeString_injective (fits_string fits) none same)
variable {key : Bytes} {val : Raw}

theorem formed_short_value (formed : Formed (.short key val)) : val ≠ .nil := by
  obtain ⟨k,-,⟨-,v,-,rfl⟩ | ⟨-,below⟩⟩ := formed
  · simp
  · exact below.ne_nil
theorem items_short (formed : Formed (.short key val)) (fits : Fits (short key val).encode) :
    ∀ e ∈ [encodeString key,val.encode], IsItem e := by
  rw [encode_short] at fits
  have each := fun e m => fits_item (e := e) fits m
  simp only [mem_cons,not_mem_nil,or_false,forall_eq_or_imp,forall_eq] at each ⊢
  exact ⟨isItem_encodeString (fits_string each.1),isItem_encode (formed_short_value formed) each.2⟩
variable {cs : Nibble → Raw}

theorem fits_child (fits : Fits (full cs).encode) (i : Nibble) : Fits (childItem (cs i)) := by
  rw [encode_full] at fits
  exact fits_item fits (mem_map.mpr ⟨i,mem_finRange i,rfl⟩)
theorem items_full (fits : Fits (full cs).encode) :
    ∀ e ∈ (finRange 17).map fun i => childItem (cs i), IsItem e := by
  intro e member
  obtain ⟨i,-,rfl⟩ := mem_map.mp member
  exact isItem_childItem (fits_child fits i)

variable {s : Raw}
theorem same_items {fs : List Bytes} (isE : r.encode = encodeList es.flatten) (isF : s.encode = encodeList fs.flatten)
    (itemsE : ∀ e ∈ es, IsItem e) (itemsF : ∀ f ∈ fs, IsItem f) (fitsR : Fits r.encode) (fitsS : Fits s.encode)
    (same : r.encode = s.encode) : es = fs := by
  rw [isE] at fitsR same
  rw [isF] at fitsS same
  exact items_injective itemsE itemsF (encodeList_injective (fits_payload fitsR) (fits_payload fitsS) same)
theorem short_ne_full (formed : Formed (.short key val))
    (fitsR : Fits (short key val).encode) (fitsS : Fits (full cs).encode) : (short key val).encode ≠ (full cs).encode := by
  intro same
  have lists := same_items (encode_short key val) (encode_full cs) (items_short formed fitsR) (items_full fitsS) fitsR fitsS same
  have := congrArg length lists
  simp at this
/-- Children in one slot with the same item are equal, where nodes are known by
    their encoding. -/
theorem childItem_injective (fitsR : Fits (childItem r)) (fitsS : Fits (childItem s))
    (okR : r = .nil ∨ Formed r ∨ ∃ v, v ≠ [] ∧ r = .value v) (okS : s = .nil ∨ Formed s ∨ ∃ v, v ≠ [] ∧ s = .value v)
    (known : r ≠ .nil → s ≠ .nil → Fits r.encode → Fits s.encode → r.encode = s.encode → r = s)
    (same : childItem r = childItem s) : r = s := by
  by_cases emptyR : r = .nil
  · by_cases emptyS : s = .nil
    · rw [emptyR,emptyS]
    · rw [childItem_some emptyS] at same fitsS
      rw [emptyR,childItem_nil] at same
      exact absurd same.symm (encode_ne_empty fitsS (okS.resolve_left emptyS))
  · rw [childItem_some emptyR] at same fitsR
    by_cases emptyS : s = .nil
    · rw [emptyS,childItem_nil] at same
      exact absurd same (encode_ne_empty fitsR (okR.resolve_left emptyR))
    · rw [childItem_some emptyS] at same fitsS
      exact known emptyR emptyS fitsR fitsS same

/-- Well-formed nodes with the same encoding are equal. -/
theorem encode_injective (formedR : Formed r) (formedS : Formed s) (fitsR : Fits r.encode)
    (fitsS : Fits s.encode) (same : r.encode = s.encode) : r = s := by
  induction r generalizing s with
  | nil | value _ => exact formedR.elim
  | hash h =>
    cases s with
    | nil | value _ => exact formedS.elim
    | hash g =>
      have bytes := encodeString_injective (fits_string fitsR) (fits_string fitsS) same
      cases h; cases g
      simp only at bytes
      subst bytes
      rfl
    | short _ _ | full _ => exact absurd same (encodeString_ne_encodeList (fits_string fitsR) (fits_payload fitsS))
  | short key val ih =>
    cases s with
    | nil | value _ => exact formedS.elim
    | hash g => exact absurd same.symm (encodeString_ne_encodeList (fits_string fitsS) (fits_payload fitsR))
    | full cs => exact absurd same (short_ne_full formedR fitsR fitsS)
    | short key' val' =>
      have lists := same_items (encode_short key val) (encode_short key' val') (items_short formedR fitsR)
        (items_short formedS fitsS) fitsR fitsS same
      simp only [List.cons.injEq,and_true] at lists
      rw [encode_short] at fitsR fitsS
      have fitsKey := fits_string (fits_item fitsR (e := encodeString key) (by simp))
      have fitsKey' := fits_string (fits_item fitsS (e := encodeString key') (by simp))
      have fitsVal := fits_item fitsR (e := val.encode) (by simp)
      have fitsVal' := fits_item fitsS (e := val'.encode) (by simp)
      have keys := encodeString_injective fitsKey fitsKey' lists.1
      obtain ⟨k,isK,kindR⟩ := formedR
      obtain ⟨l,isL,kindS⟩ := formedS
      have wfK : WellFormed k := kindR.elim (fun h => wellFormed_of_terminated h.1) (fun h => wellFormed_of_plain h.1)
      have wfL : WellFormed l := kindS.elim (fun h => wellFormed_of_terminated h.1) (fun h => wellFormed_of_plain h.1)
      obtain rfl : k = l := hexToCompact_injective wfK wfL (by rw [← isK,← isL,keys])
      -- The terminator decides on both sides alike whether a value follows.
      rcases kindR with ⟨term,v,-,rfl⟩ | ⟨plain,below⟩
      · rcases kindS with ⟨-,w,-,rfl⟩ | ⟨plain,-⟩
        · rw [keys,encodeString_injective (fits_string fitsVal) (fits_string fitsVal') lists.2]
        · exact absurd plain (not_plain_of_terminated term)
      · rcases kindS with ⟨term,-⟩ | ⟨-,below'⟩
        · exact absurd plain (not_plain_of_terminated term)
        · rw [keys,ih below below' fitsVal fitsVal' lists.2]
  | full cs ih =>
    cases s with
    | nil | value _ => exact formedS.elim
    | hash g => exact absurd same.symm (encodeString_ne_encodeList (fits_string fitsS) (fits_payload fitsR))
    | short key val => exact absurd same.symm (short_ne_full formedS fitsS fitsR)
    | full ds =>
      have lists := same_items (encode_full cs) (encode_full ds) (items_full fitsR) (items_full fitsS) fitsR fitsS same
      have slot : ∀ i, childItem (cs i) = childItem (ds i) :=
        fun i => map_inj_left.mp lists i (mem_finRange i)
      congr 1
      funext i
      have equal := childItem_injective (fits_child fitsR i) (fits_child fitsS i)
      by_cases final : i = Fin.last 16
      · subst final
        refine equal (formedR.2.imp_right .inr) (formedS.2.imp_right .inr) ?_ (slot _)
        intro someR someS fitsV fitsW encodings
        obtain ⟨v,-,isV⟩ := formedR.2.resolve_left someR
        obtain ⟨w,-,isW⟩ := formedS.2.resolve_left someS
        rw [isV] at fitsV encodings ⊢
        rw [isW] at fitsW encodings ⊢
        rw [encodeString_injective (fits_string fitsV) (fits_string fitsW) encodings]
      · refine equal ((formedR.1 i final).imp_right .inl) ((formedS.1 i final).imp_right .inl) ?_ (slot i)
        intro someR someS fitsV fitsW encodings
        exact ih i ((formedR.1 i final).resolve_left someR) ((formedS.1 i final).resolve_left someS) fitsV fitsW encodings

section
variable (keccak : Bytes → Hash)

def isNode : Raw → Bool
  | .short _ _ => true
  | .full _ => true
  | _ => false
/-- The reference to a collapsed node that is not forced to a hash. -/
def refTo (r : Raw) : Raw := if isNode r ∧ ¬ r.encode.length < 32 then .hash (keccak r.encode) else r
/-- The collapsed node at the top of a tree. -/
def collapse : Entries → Raw
  | .nil => .nil
  | .short k t => .short (hexToCompact k) (refTo keccak (collapse t))
  | .full cs => .full fun i => refTo keccak (collapse (cs i))
  | .value v => .value v.1
/-- The hash a node is stored under. -/
def nodeHash (t : Entries) : Hash := keccak (collapse keccak t).encode
/-- The root hash of a trie with these entries. -/
def rootHash (t : Entries) : Hash := if t.isNil then emptyRoot else nodeHash keccak t

/-- The encoding of the node is shorter than a hash. -/
def Embedded (t : Entries) : Prop := (collapse keccak t).encode.length < 32
instance (t : Entries) : Decidable (Embedded keccak t) := inferInstanceAs (Decidable (_ < _))

variable {keccak}

variable {t : Entries}
theorem refTo_small (small : Embedded keccak t) : refTo keccak (collapse keccak t) = collapse keccak t :=
  if_neg fun h => h.2 small
theorem isNode_collapse (c : Tree.Canonical t) : isNode (collapse keccak t) = true := by
  cases c <;> rfl
theorem refTo_large (c : Tree.Canonical t) (large : ¬ Embedded keccak t) :
    refTo keccak (collapse keccak t) = .hash (nodeHash keccak t) := if_pos ⟨isNode_collapse c,large⟩
@[simp] theorem refTo_nil : refTo keccak (collapse keccak .nil) = .nil := rfl
@[simp] theorem refTo_value (v : Value) : refTo keccak (collapse keccak (.value v)) = .value v.1 := rfl
theorem refTo_formed (formed : Formed r) : Formed (refTo keccak r) := by
  unfold refTo; split; exacts [trivial,formed]

/-- A canonical tree collapses to a well-formed node. -/
theorem collapse_formed (c : Tree.Canonical t) : Formed (collapse keccak t) := by
  induction c with
  | @leaf k v term => exact ⟨k,rfl,.inl ⟨term,v.1,v.2,rfl⟩⟩
  | @ext k cs _ plain _ ih => exact ⟨k,rfl,.inr ⟨plain,refTo_formed ih⟩⟩
  | @branch cs inner last _ ih =>
    constructor
    · intro i final
      by_cases empty : cs i = .nil
      · exact .inl (by simp [empty])
      · exact .inr (refTo_formed (ih i final empty))
    · rcases last with none | ⟨v,is⟩
      · exact .inl (by simp only [none,refTo_nil])
      · exact .inr ⟨v.1,v.2,by simp only [is,refTo_value]⟩
theorem rootHash_canonical (c : Tree.Canonical t) : rootHash keccak t = nodeHash keccak t := by
  simp [rootHash,c.isNil]

end
end Canchain.TrieCollapse
