import Mathlib.Tactic

/-!
Branches of a tree whose nodes name their parents. The branch of a node is the list
of the node and its ancestors down to the root. In a set of nodes with different
identities a node has one branch, and a node of a branch is found by its height.
-/
namespace Canchain.Branches
open List

/-- How the nodes of a tree refer to each other. -/
structure Links (β η : Type) where
  id : β → η
  parentId : β → η
  height : β → Nat

variable {β η : Type} {links : Links β η} {root : β} {nodes nodes' : Set β} {a b p : β} {l l' r : List β}

/-- The list of a node and its ancestors, the node first. -/
inductive Branch (links : Links β η) (root : β) (nodes : Set β) : β → List β → Prop where
  | root : Branch links root nodes root [root]
  | child {b p : β} {l : List β} : b ∈ nodes → links.id p = links.parentId b → links.height b = links.height p + 1 →
      Branch links root nodes p l → Branch links root nodes b (b :: l)
/-- Nodes with one identity are one node. -/
def Apart (links : Links β η) (nodes : Set β) : Prop := ∀ a ∈ nodes, ∀ b ∈ nodes, links.id a = links.id b → a = b
/-- A node that can be added to a tree. -/
def Joins (links : Links β η) (nodes : Set β) (b : β) : Prop :=
  ∃ p ∈ nodes, links.id p = links.parentId b ∧ links.height b = links.height p + 1

namespace Branch

variable (branch : Branch links root nodes b l)
include branch
theorem head : ∃ rest, l = b :: rest := by
  cases branch with
  | root => exact ⟨[],rfl⟩
  | child _ _ _ _ => exact ⟨_,rfl⟩
theorem mono (more : nodes ⊆ nodes') : Branch links root nodes' b l := by
  induction branch with
  | root => exact .root
  | child member named higher _ ih => exact .child (more member) named higher ih
theorem mem_nodes (rooted : root ∈ nodes) : ∀ a ∈ l, a ∈ nodes := by
  induction branch with
  | root =>
    intro a member
    rw [mem_singleton.mp member]
    exact rooted
  | child member named higher _ ih =>
    intro a among
    rcases mem_cons.mp among with rfl | later
    · exact member
    · exact ih a later
theorem length (zero : links.height root = 0) : l.length = links.height b + 1 := by
  induction branch with
  | root => simp [zero]
  | child member named higher _ ih => rw [length_cons,ih,higher]
/-- The end of a branch is the branch of its first node. -/
theorem suffix {above : List β} (split : l = above ++ a :: r) : Branch links root nodes a (a :: r) := by
  induction branch generalizing above with
  | root =>
    cases above with
    | nil => cases split; exact .root
    | cons x above => simp at split
  | child member named higher below ih =>
    cases above with
    | nil => cases split; exact .child member named higher below
    | cons x above => exact ih (List.cons.inj split).2
omit branch in
theorem unique (apart : Apart links nodes) (rooted : root ∈ nodes) (zero : links.height root = 0)
    (branch : Branch links root nodes b l) (other : Branch links root nodes b l') : l = l' := by
  induction branch generalizing l' with
  | root =>
    cases other with
    | root => rfl
    | child member named higher _ => omega
  | @child b p l member named higher below ih =>
    cases other with
    | root => omega
    | @child _ p' l' member' named' higher' below' =>
      obtain ⟨rest,first⟩ := below.head
      obtain ⟨rest',first'⟩ := below'.head
      have inside : p ∈ nodes := below.mem_nodes rooted p (by simp [first])
      have inside' : p' ∈ nodes := below'.mem_nodes rooted p' (by simp [first'])
      have same : p = p' := apart p inside p' inside' (named.trans named'.symm)
      subst same
      rw [ih below']
/-- The node of a branch at a height. -/
theorem height_getElem (zero : links.height root = 0) {n : Nat}
    (found : l.reverse[n]? = some a) : links.height a = n := by
  induction branch generalizing a n with
  | root =>
    cases n with
    | zero => simp at found; rw [← found,zero]
    | succ n => simp at found
  | @child b p l member named higher below ih =>
    rw [reverse_cons] at found
    have count := below.length zero
    by_cases inside : n < l.reverse.length
    · rw [getElem?_append_left inside] at found
      exact ih found
    · rw [getElem?_append_right (by omega)] at found
      rw [length_reverse] at found inside
      cases rest : n - l.length with
      | zero =>
        simp [rest] at found
        rw [← found]
        omega
      | succ k => simp [rest] at found

end Branch

theorem Joins.branch (joins : Joins links nodes b) (rooted : ∀ p ∈ nodes, ∃ l, Branch links root nodes p l) :
    ∃ l, Branch links root (insert b nodes) b (b :: l) := by
  obtain ⟨p,member,named,higher⟩ := joins
  obtain ⟨l,below⟩ := rooted p member
  exact ⟨l,.child (Set.mem_insert b nodes) named higher (below.mono (Set.subset_insert b nodes))⟩

end Canchain.Branches
