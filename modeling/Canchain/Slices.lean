import Mathlib.Data.List.Basic
import Mathlib.Data.List.Infix

/-!
Memory cells and slices. Cells are allocated at the end, so whoever writes only to later cells
leaves a prefix alone. A slice is the first part of an array in a cell, which it shares with
the slices made from it; appending writes in place while there is room.
-/
namespace Canchain.Slices
open List Option

variable {α : Type}

variable {old cells : List α} {r : Nat}
/-- Writing to a later cell leaves the earlier ones alone. -/
theorem prefix_set (kept : old <+: cells) (later : old.length ≤ r) (x : α) :
    old <+: cells.set r x := by
  obtain ⟨rest,rfl⟩ := kept
  rw [set_append_right _ _ later]
  exact prefix_append _ _
theorem prefix_alloc (kept : old <+: cells) (x : α) : old <+: cells ++ [x] :=
  kept.trans (prefix_append _ _)
theorem prefix_read (kept : old <+: cells) {x : α} (held : old[r]? = some x) :
    cells[r]? = some x := by
  obtain ⟨rest,rfl⟩ := kept
  rw [List.getElem?_append_left (List.getElem?_eq_some_iff.mp held).1]
  exact held

/-- A slice from the start of its array. -/
structure Slice where
  array : Nat
  len : Nat
  cap : Nat
  deriving DecidableEq
/-- The nil slice has no array. -/
def Slice.nil : Slice := ⟨0,0,0⟩

variable (arrays : List (List α)) (s : Slice)

def Slice.elements : List α := (arrays.getD s.array []).take s.len
/-- `append(s[:i], s[i+1:]...)`: the elements after move down in place. -/
def removeAt (i : Nat) : List (List α) × Slice :=
  let a := arrays.getD s.array []
  (arrays.set s.array (a.take i ++ ((a.take s.len).drop (i+1) ++ a.drop (s.len - 1))),{ s with len := s.len - 1 })
/-- `append(s, x)`: in place while there is room, else to a new array with some to spare. -/
def push (spare : Nat) (zero x : α) : List (List α) × Slice :=
  if s.len < s.cap then (arrays.set s.array ((arrays.getD s.array []).set s.len x),{ s with len := s.len + 1 })
  else (arrays ++ [s.elements arrays ++ x :: List.replicate spare zero],⟨arrays.length,s.len + 1,s.len + 1 + spare⟩)
/-- `make` of the same length, and `copy`. -/
def copy : List (List α) × Slice := (arrays ++ [s.elements arrays],⟨arrays.length,s.len,s.len⟩)

/-- The array of the slice is there, and as large as the slice says. -/
structure Slice.Valid : Prop where
  fits : s.len ≤ s.cap
  array : 0 < s.cap → ∃ a, arrays[s.array]? = some a ∧ a.length = s.cap

variable {arrays : List (List α)} {s : Slice}

theorem nil_valid : Slice.nil.Valid arrays := ⟨le_rfl,nofun⟩
@[simp] theorem nil_elements : Slice.nil.elements arrays = [] := take_zero
theorem elements_eq {a : List α} (held : arrays[s.array]? = some a) : s.elements arrays = a.take s.len := by
  rw [Slice.elements,getD_eq_getElem?_getD,held,getD_some]
theorem elements_empty (empty : s.len = 0) : s.elements arrays = [] := by
  rw [Slice.elements,empty,take_zero]
variable (valid : s.Valid arrays)
include valid
theorem Slice.Valid.mono {more : List (List α)} (kept : arrays <+: more) :
    s.Valid more ∧ s.elements more = s.elements arrays := by
  have fits := valid.fits
  refine ⟨⟨fits,fun some => ?_⟩,?_⟩
  · obtain ⟨a,held,size⟩ := valid.array some
    exact ⟨a,prefix_read kept held,size⟩
  · by_cases some : 0 < s.cap
    · obtain ⟨a,held,-⟩ := valid.array some
      rw [elements_eq held,elements_eq (prefix_read kept held)]
    · rw [elements_empty (by omega),elements_empty (by omega)]
theorem Slice.Valid.elements_length : (s.elements arrays).length = s.len := by
  have fits := valid.fits
  by_cases some : 0 < s.cap
  · obtain ⟨a,held,size⟩ := valid.array some
    rw [elements_eq held,length_take]
    omega
  · rw [elements_empty (by omega),length_nil]
    omega

theorem removeAt_spec {i : Nat} (inside : i < s.len) :
    (removeAt arrays s i).2.Valid (removeAt arrays s i).1 ∧
      (removeAt arrays s i).2.elements (removeAt arrays s i).1 = (s.elements arrays).eraseIdx i := by
  have fits := valid.fits
  obtain ⟨a,held,size⟩ := valid.array (by omega)
  have front : (a.take i ++ (a.take s.len).drop (i+1)).length = s.len - 1 := by
    simp only [length_append,length_take,length_drop]
    omega
  have stored : (removeAt arrays s i).1[s.array]? = some (a.take i ++ (a.take s.len).drop (i+1) ++ a.drop (s.len - 1)) := by
    simp only [removeAt,getD_eq_getElem?_getD,held,getD_some,append_assoc]
    exact List.getElem?_set_self (List.getElem?_eq_some_iff.mp held).1
  refine ⟨⟨(Nat.sub_le _ _).trans fits,fun _ => ⟨_,stored,?_⟩⟩,?_⟩
  · rw [length_append,front,length_drop]
    simp only [removeAt]
    omega
  · refine (elements_eq (s := { s with len := s.len - 1 }) stored).trans ?_
    rw [elements_eq held,eraseIdx_eq_take_drop_succ,take_take,Nat.min_eq_left (by omega)]
    exact take_left' front
theorem push_spec (spare : Nat) (zero x : α) :
    (push arrays s spare zero x).2.Valid (push arrays s spare zero x).1 ∧
      (push arrays s spare zero x).2.elements (push arrays s spare zero x).1 = s.elements arrays ++ [x] := by
  unfold push
  split
  · rename_i room
    obtain ⟨a,held,size⟩ := valid.array (by omega)
    have stored : (arrays.set s.array ((arrays.getD s.array []).set s.len x))[s.array]? = some (a.set s.len x) := by
      simp only [getD_eq_getElem?_getD,held,getD_some]
      exact List.getElem?_set_self (List.getElem?_eq_some_iff.mp held).1
    refine ⟨⟨room,fun _ => ⟨_,stored,by rw [length_set]; exact size⟩⟩,?_⟩
    refine (elements_eq (s := { s with len := s.len + 1 }) stored).trans ?_
    rw [elements_eq held,take_add_one,List.getElem?_set_self (by omega),take_set_of_le le_rfl]
    rfl
  · have size := valid.elements_length
    have stored : (arrays ++ [s.elements arrays ++ x :: replicate spare zero])[arrays.length]? =
        some (s.elements arrays ++ [x] ++ replicate spare zero) := by
      rw [List.getElem?_concat_length,append_assoc]
      rfl
    refine ⟨⟨Nat.le_add_right _ _,fun _ => ⟨_,stored,?_⟩⟩,?_⟩
    · simp only [length_append,length_cons,length_nil,length_replicate,size]
    · refine (elements_eq (s := ⟨arrays.length,s.len + 1,s.len + 1 + spare⟩) stored).trans ?_
      exact take_left' (by simp [size])
theorem copy_spec :
    (copy arrays s).2.Valid (copy arrays s).1 ∧ (copy arrays s).2.elements (copy arrays s).1 = s.elements arrays := by
  have size := valid.elements_length
  have stored : (arrays ++ [s.elements arrays])[arrays.length]? = some (s.elements arrays) := List.getElem?_concat_length
  refine ⟨⟨le_rfl,fun _ => ⟨_,stored,size⟩⟩,?_⟩
  refine (elements_eq (s := ⟨arrays.length,s.len,s.len⟩) stored).trans ?_
  exact take_of_length_le (le_of_eq size)

end Canchain.Slices
