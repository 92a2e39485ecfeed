import Mathlib.Data.List.Chain
import Mathlib.Data.List.Nodup
import Mathlib.Logic.Function.Basic

/-!
Doubly linked lists in a table: the links of the elements are functions, and one
element that is not in the list stands for its end. The links before the first
element are never followed, so nothing is said about them.
-/
namespace Canchain.DoublyLinked
open List Function

variable {α : Type} {nil first last x : α} {next prev next' prev' : α → α} {l : List α}

/-- The list from `first` to `last`. -/
structure Linked (nil : α) (next prev : α → α) (first last : α) (l : List α) : Prop where
  nodup : l.Nodup
  proper : nil ∉ l
  chain : l.IsChain fun a b => next a = b ∧ prev b = a
  head : first = l.headD nil
  tail : ∀ a, l.getLast? = some a → last = a ∧ next a = nil

theorem linked_nil : Linked nil next prev nil last [] := ⟨by simp,by simp,.nil,rfl,by simp⟩
variable (linked : Linked nil next prev first last l)
include linked
/-- Only the links inside the list matter. -/
theorem Linked.congr (nexts : ∀ a ∈ l, next' a = next a)
    (prevs : ∀ a ∈ l.tail, prev' a = prev a) : Linked nil next' prev' first last l := by
  refine ⟨linked.nodup,linked.proper,?_,linked.head,fun a isLast => ?_⟩
  · refine linked.chain.imp_of_mem_tail_imp fun a b inside behind link => ?_
    rw [nexts a inside,prevs b behind]
    exact link
  · rw [nexts a (mem_of_getLast? isLast)]
    exact linked.tail a isLast
theorem Linked.first_nil : first = nil ↔ l = [] := by
  cases l with
  | nil => simpa using linked.head
  | cons a l =>
    have isFirst : first = a := linked.head
    constructor
    · intro ends
      refine absurd ?_ linked.proper
      rw [← ends,isFirst]
      exact mem_cons_self
    · intro empty
      cases empty
/-- The link of an element leads to what is behind it. -/
theorem Linked.next_at {front rest : List α} (split : l = front ++ x :: rest) :
    next x = rest.headD nil := by
  cases rest with
  | nil => exact (linked.tail x (by simp [split])).2
  | cons y rest =>
    have chain := linked.chain
    rw [split] at chain
    exact (isChain_cons_cons.mp (isChain_append.mp chain).2.1).1.1
omit linked in
theorem linked_single (proper : x ≠ nil) (ends : next x = nil) : Linked nil next prev x x [x] := by
  refine ⟨by simp,by simpa using proper.symm,.singleton x,rfl,?_⟩
  intro a isLast
  obtain rfl : x = a := by simpa using isLast
  exact ⟨rfl,ends⟩
/-- Around an element that is not the first. -/
theorem Linked.before (is : x ∈ l) (notFirst : x ≠ first) :
    ∃ front back, l = front ++ prev x :: x :: back ∧ next (prev x) = x := by
  obtain ⟨front,back,rfl⟩ := append_of_mem is
  rcases eq_nil_or_concat front with rfl | ⟨front,y,rfl⟩
  · have isFirst : first = x := linked.head
    exact absurd isFirst.symm notFirst
  · rw [concat_eq_append] at *
    have link := (isChain_append_cons_cons.mp (by simpa using linked.chain)).2.1
    refine ⟨front,back,?_,?_⟩
    · rw [link.2]
      simp
    · rw [link.2,link.1]
omit linked

section
variable [DecidableEq α] {y : α} {m : List α}

/-- The link to an element that is not in the chain is changed. -/
theorem chain_next (z : α) (joins : next y = x) (out : x ∉ m) (chain : m.IsChain fun a b => next a = b ∧ prev b = a) :
    m.IsChain fun a b => update next y z a = b ∧ prev b = a := by
  refine chain.imp_of_mem_tail_imp fun a b _ behind link => ⟨?_,link.2⟩
  rw [update_of_ne,link.1]
  rintro rfl
  exact out (joins.symm.trans link.1 ▸ mem_of_mem_tail behind)
theorem chain_prev (z : α) (joins : prev y = x) (out : x ∉ m) (chain : m.IsChain fun a b => next a = b ∧ prev b = a) :
    m.IsChain fun a b => next a = b ∧ update prev y z b = a := by
  refine chain.imp_of_mem_tail_imp fun a b inside _ link => ⟨link.1,?_⟩
  rw [update_of_ne,link.2]
  rintro rfl
  exact out (joins.symm.trans link.2 ▸ inside)
variable (linked : Linked nil next prev first last l)
include linked
theorem Linked.append (some : l ≠ []) (new : x ∉ l) (proper : x ≠ nil)
    (ends : next x = nil) (joins : prev x = last) : Linked nil (update next last x) prev first x (l ++ [x]) := by
  obtain ⟨front,z,rfl⟩ := eq_nil_or_concat l |>.resolve_left some
  rw [concat_eq_append] at *
  obtain ⟨rfl,atEnd⟩ := linked.tail z (by simp)
  refine ⟨?_,?_,?_,?_,?_⟩
  · refine nodup_append.mpr ⟨linked.nodup,by simp,?_⟩
    rintro a member b isNew rfl
    exact new (mem_singleton.mp isNew ▸ member)
  · simp only [mem_append,mem_singleton,not_or]
    exact ⟨by simpa using linked.proper,proper.symm⟩
  · -- nothing comes after the last element
    rw [append_assoc,singleton_append,isChain_append_cons_cons]
    exact ⟨chain_next x atEnd linked.proper linked.chain,⟨update_self _ _ _,joins⟩,.singleton x⟩
  · rw [linked.head]
    cases front <;> rfl
  · intro a isLast
    obtain rfl : x = a := by simpa using isLast
    refine ⟨rfl,?_⟩
    rw [update_of_ne,ends]
    rintro rfl
    exact new (by simp)

theorem Linked.unlink_first (z : α) (is : x ∈ l) (isFirst : x = first) :
    ∃ rest, l = x :: rest ∧ Linked nil next (update prev (next x) z) (next x) last rest := by
  cases l with
  | nil => cases is
  | cons a rest =>
    obtain rfl : x = a := isFirst.trans linked.head
    obtain ⟨fresh,nodup⟩ := nodup_cons.mp linked.nodup
    refine ⟨rest,rfl,nodup,fun member => linked.proper (mem_cons_of_mem _ member),?_,linked.next_at (nil_append _).symm,?_⟩
    · cases rest with
      | nil => exact .nil
      | cons c rest =>
        obtain ⟨⟨rfl,joins⟩,chain⟩ := isChain_cons_cons.mp linked.chain
        exact chain_prev z joins fresh chain
    · intro a isLast
      exact linked.tail a (by rw [getLast?_cons,isLast]; rfl)
theorem Linked.unlink_last (is : x ∈ l) (notFirst : x ≠ first) (isLast : x = last) :
    ∃ front, l = front ++ [x] ∧ Linked nil (update next (prev x) nil) prev first (prev x) front := by
  obtain ⟨front,back,rfl,joins⟩ := linked.before is notFirst
  have isEnd : back = [] := by
    rcases eq_nil_or_concat back with rfl | ⟨back,z,rfl⟩
    · rfl
    · rw [concat_eq_append] at linked
      obtain ⟨same,-⟩ := linked.tail z (by simp [getLast?_append,getLast?_cons])
      have twice := linked.nodup
      rw [isLast,same] at twice
      simp [nodup_append] at twice
  subst isEnd
  have split : front ++ [prev x,x] = (front ++ [prev x]) ++ [x] := by simp
  rw [split] at linked
  obtain ⟨nodup,-,out⟩ := nodup_append.mp linked.nodup
  refine ⟨front ++ [prev x],split,nodup,fun member => linked.proper (mem_append_left _ member),?_,?_,?_⟩
  · exact chain_next nil joins (fun member => out x member x (by simp) rfl) linked.chain.left_of_append
  · rw [linked.head]
    cases front <;> rfl
  · intro a isEnd
    obtain rfl : prev x = a := by simpa using isEnd
    exact ⟨rfl,update_self _ _ _⟩
theorem Linked.unlink_middle (is : x ∈ l) (notFirst : x ≠ first) (notLast : x ≠ last) :
    ∃ front back, l = front ++ x :: back ∧ next x ∈ l ∧
      Linked nil (update next (prev x) (next x)) (update prev (next x) (prev x)) first last (front ++ back) := by
  obtain ⟨front,back,rfl,joins⟩ := linked.before is notFirst
  obtain ⟨y,back,rfl⟩ : ∃ y rest, back = y :: rest := by
    cases back with
    | nil => exact absurd (linked.tail x (by simp)).1.symm notLast
    | cons y rest => exact ⟨y,rest,rfl⟩
  obtain ⟨chainFront,-,chainBack⟩ := isChain_append_cons_cons.mp linked.chain
  obtain ⟨⟨rfl,joins'⟩,chainBack⟩ := isChain_cons_cons.mp chainBack
  have split : front ++ prev x :: x :: next x :: back = (front ++ [prev x]) ++ x :: next x :: back := by simp
  rw [split] at linked
  obtain ⟨out,nodup⟩ := nodup_cons.mp (nodup_middle.mp linked.nodup)
  rw [mem_append,not_or] at out
  refine ⟨front ++ [prev x],next x :: back,split,by simp,nodup,?_,?_,?_,?_⟩
  · intro member
    refine linked.proper ?_
    simp only [mem_append,mem_cons] at member ⊢
    tauto
  · rw [append_assoc,singleton_append,isChain_append_cons_cons]
    exact ⟨chain_prev _ joins' out.1 (chain_next _ joins out.1 chainFront),⟨update_self _ _ _,update_self _ _ _⟩,
      chain_prev _ joins' out.2 (chain_next _ joins out.2 chainBack)⟩
  · rw [linked.head]
    cases front <;> rfl
  · intro a isLast
    obtain ⟨same,ends⟩ := linked.tail a (by simpa using isLast)
    refine ⟨same,?_⟩
    rw [update_of_ne,ends]
    -- the element before `x` is followed by `x`
    rintro rfl
    exact linked.proper (by rw [← ends,joins]; simp)

end

end Canchain.DoublyLinked
