import Mathlib.Data.List.Basic

/-!
A journal of changes with revisions, which are positions in it. The journal stands for copies of
the state, one for each revision (`copies`): if every change is recorded by entries that undo
it, reverting to a revision gives its copy.
-/
namespace Canchain.Undo
open List

/-- A revision by its identifier and the length of the journal when it was made. -/
structure Revision where
  id : Nat
  journalIndex : Nat
  deriving DecidableEq

section
variable {W E : Type} (undo : E → W → W)

/-- The entries are undone from the last to the first. -/
def undoAll (entries : List E) (w : W) : W := entries.foldr undo w

@[simp] theorem undoAll_nil (w : W) : undoAll undo [] w = w := rfl
@[simp] theorem undoAll_singleton (e : E) (w : W) : undoAll undo [e] w = undo e w := rfl
@[simp] theorem undoAll_append (a b : List E) (w : W) :
    undoAll undo (a ++ b) w = undoAll undo a (undoAll undo b w) := foldr_append

/-- From the newest entry on, each one fits the state that the later ones lead back to. -/
def Undoable (Fits : E → W → Prop) : List E → W → Prop
  | [], _ => True
  | e :: es, w => Fits e w ∧ Undoable Fits es (undo e w)

theorem undoable_append (Fits : E → W → Prop) (a b : List E) (w : W) :
    Undoable undo Fits (a ++ b) w ↔ Undoable undo Fits a w ∧ Undoable undo Fits b (undoAll undo a.reverse w) := by
  induction a generalizing w with
  | nil => simp [Undoable]
  | cons e es ih => simp [Undoable,ih,and_assoc]

/-- The state that each revision leads back to, by its identifier. -/
def copies (entries : List E) (revisions : List Revision) (w : W) : List (Nat × W) :=
  revisions.map fun r => (r.id,undoAll undo (entries.drop r.journalIndex) w)

/-- The revisions are positions in the journal, in the order of their identifiers. -/
structure Ordered (length : Nat) (revisions : List Revision) : Prop where
  inside : ∀ r ∈ revisions, r.journalIndex ≤ length
  sorted : revisions.Pairwise (fun r r' => r.id < r'.id ∧ r.journalIndex ≤ r'.journalIndex)

variable {undo} {entries : List E} {revisions : List Revision} {w : W}

theorem ordered_nil (length : Nat) : Ordered length [] := ⟨by simp,.nil⟩
variable {length i : Nat} {r : Revision}
variable (ordered : Ordered length revisions)
include ordered
theorem Ordered.grow {length' : Nat} (le : length ≤ length') : Ordered length' revisions :=
  ⟨fun r member => Nat.le_trans (ordered.inside r member) le,ordered.sorted⟩
theorem Ordered.push {id : Nat} (fresh : ∀ r ∈ revisions, r.id < id) : Ordered length (revisions ++ [⟨id,length⟩]) := by
  constructor
  · intro r member
    rcases mem_append.mp member with old | last
    · exact ordered.inside r old
    · obtain rfl := mem_singleton.mp last
      exact Nat.le_refl length
  · refine pairwise_append.mpr ⟨ordered.sorted,pairwise_singleton _ _,?_⟩
    intro r member r' last
    rw [mem_singleton.mp last]
    exact ⟨fresh r member,ordered.inside r member⟩
theorem Ordered.before
    (found : revisions[i]? = some r) : ∀ r' ∈ revisions.take i, r'.id < r.id ∧ r'.journalIndex ≤ r.journalIndex := by
  obtain ⟨inside,rfl⟩ := List.getElem?_eq_some_iff.mp found
  have split := ordered.sorted
  rw [← take_append_drop i revisions] at split
  have here : revisions[i] ∈ revisions.drop i := by
    rw [drop_eq_getElem_cons inside]
    exact mem_cons_self
  intro r' member
  exact (pairwise_append.mp split).2.2 r' member _ here
theorem Ordered.revert (found : revisions[i]? = some r) : Ordered r.journalIndex (revisions.take i) :=
  ⟨fun r' member => (ordered.before found r' member).2,ordered.sorted.sublist (take_sublist i revisions)⟩
omit ordered

/-- A change that its entries undo leaves the copies. -/
theorem copies_change {w' : W} (ordered : Ordered entries.length revisions) {added : List E}
    (undone : undoAll undo added w' = w) :
    copies undo (entries ++ added) revisions w' = copies undo entries revisions w := by
  refine map_congr_left fun r member => ?_
  rw [drop_append_of_le_length (ordered.inside r member),undoAll_append,undone]
theorem copies_push (id : Nat) : copies undo entries (revisions ++ [⟨id,entries.length⟩]) w =
    copies undo entries revisions w ++ [(id,w)] := by simp [copies]
theorem copies_getElem (found : revisions[i]? = some r) :
    (copies undo entries revisions w)[i]? = some (r.id,undoAll undo (entries.drop r.journalIndex) w) := by
  simp [copies,found]
theorem copies_revert (ordered : Ordered entries.length revisions) (found : revisions[i]? = some r) :
    copies undo (entries.take r.journalIndex) (revisions.take i) (undoAll undo (entries.drop r.journalIndex) w) =
      (copies undo entries revisions w).take i := by
  rw [copies,copies,← map_take]
  refine map_congr_left fun r' member => ?_
  have le := (ordered.before found r' member).2
  have inside := ordered.inside r (mem_of_getElem? found)
  -- The journal behind the earlier revision is its part up to the later one and the rest.
  have split : entries.drop r'.journalIndex =
      (entries.take r.journalIndex).drop r'.journalIndex ++ entries.drop r.journalIndex := by
    rw [← drop_append_of_le_length (by rw [length_take]; omega),take_append_drop]
  rw [split,undoAll_append]

end
end Canchain.Undo
