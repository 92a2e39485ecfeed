import Mathlib.Data.List.AList
import Mathlib.Algebra.BigOperators.Group.List.Basic
import Mathlib.Algebra.Order.Group.Multiset

/-!
Sums over the entries of a table. A quantity that is counted over all entries,
such as how often something is pointed to, changes with one entry at a time.
-/
namespace Canchain.Tables
open List

variable {α β M : Type} [DecidableEq α] [AddCommMonoid M]

/-- The sum of `f` over the values of the table. -/
def total (f : β → M) (s : AList fun _ : α => β) : M := (s.entries.map fun entry => f entry.2).sum

variable {s : AList fun _ : α => β} {a : α} {b : β}
theorem entries_perm (found : s.lookup a = some b) : s.entries.Perm (⟨a,b⟩ :: (s.erase a).entries) := by
  have member : a ∈ s := AList.lookup_isSome.mp (by simp [found])
  obtain ⟨b',front,back,fresh,split,erased⟩ := exists_of_kerase member
  have same : b' = b := by
    have := dlookup_append front (⟨a,b'⟩ :: back) a
    rw [AList.lookup,split,this,dlookup_eq_none.mpr fresh] at found
    simpa using found
  subst same
  rw [split]
  refine perm_middle.trans (List.Perm.cons _ ?_)
  change (front ++ back).Perm (s.entries.kerase a)
  rw [erased]
theorem total_erase (f : β → M) (found : s.lookup a = some b) : total f s = f b + total f (s.erase a) := by
  have perm := (entries_perm found).map fun entry => f entry.2
  rw [total,perm.sum_eq,map_cons,sum_cons]
  rfl
theorem total_insert (f : β → M) (s : AList fun _ : α => β) (a : α) (b : β) :
    total f (s.insert a b) = f b + total f (s.erase a) := by
  rw [total,AList.entries_insert,map_cons,sum_cons]
  rfl
theorem erase_fresh (fresh : s.lookup a = none) : s.erase a = s := by
  apply AList.ext
  exact kerase_of_notMem_keys (AList.lookup_eq_none.mp fresh)
theorem total_keys (f : β → M) (s : AList fun _ : α => β) :
    total f s = (s.keys.map fun a => ((s.lookup a).map f).getD 0).sum := by
  unfold total AList.keys keys
  rw [map_map]
  congr 1
  refine map_congr_left fun entry member => ?_
  have found : s.lookup entry.1 = some entry.2 := AList.mem_lookup_iff.mpr member
  simp [found]
theorem length_erase (found : s.lookup a = some b) : (s.erase a).entries.length + 1 = s.entries.length := by
  rw [(entries_perm found).length_eq,length_cons]
theorem length_insert (found : s.lookup a = some b) (b' : β) : (s.insert a b').entries.length = s.entries.length := by
  rw [AList.entries_insert,← length_erase found]
  rfl
theorem mem_total {γ : Type} (f : β → Multiset γ) {c : γ} : c ∈ total f s ↔ ∃ a b, s.lookup a = some b ∧ c ∈ f b := by
  have mem_sum : ∀ entries : List (Sigma fun _ : α => β), c ∈ (entries.map fun entry => f entry.2).sum ↔
      ∃ entry ∈ entries, c ∈ f entry.2 := by
    intro entries
    induction entries with
    | nil => simp
    | cons entry entries ih => simp [ih]
  rw [total,mem_sum]
  constructor
  · rintro ⟨⟨a,b⟩,member,inside⟩
    exact ⟨a,b,AList.mem_lookup_iff.mpr member,inside⟩
  · rintro ⟨a,b,found,inside⟩
    exact ⟨⟨a,b⟩,AList.mem_lookup_iff.mp found,inside⟩

end Canchain.Tables
