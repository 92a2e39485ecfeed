import Mathlib

/-!
`ReadRandomNodes` of `lib/p2p/discover/table.go`. The buckets with entries are shuffled, and each
gives its first node in turn until the buffer is full or no node is left. What is returned is
one more than the last index: right only if the nodes end first (`random_nodes_iff`).
-/
namespace Canchain.Discover
open List

variable {α : Type}

/-- The buckets with the indices `i` and `j` change places. -/
def swap (buckets : List (List α)) (i j : Nat) : List (List α) := (buckets.set i (buckets.getD j [])).set j (buckets.getD i [])
/-- The loop with the random numbers, from an index downwards. -/
def shuffle (draws : Nat → Nat) : Nat → List (List α) → List (List α)
  | 0, buckets => buckets
  | i+1, buckets => shuffle draws i (swap buckets (i+1) (draws i % buckets.length))
/-- The loop over the buffer, of which `slots` are left: what is written from `i` on, and `i` after
    the loop. An index out of range is a panic. -/
def fill : Nat → Nat → List (List α) → Nat → Option (List α × Nat)
  | 0, i, _, _ => some ([],i)
  | slots+1, i, buckets, j =>
    match buckets[j]? with
    | none | some [] => none
    | some (x :: rest) =>
      let buckets := if rest.length = 0 then buckets.eraseIdx j else buckets.set j rest
      if buckets.length = 0 then some ([x],i)
      else (fill slots (i+1) buckets ((j+1) % buckets.length)).map fun (nodes,i) => (x :: nodes,i)
/-- The entries of all buckets are given, and the length of the buffer. What is written to its front
    is returned with the number; the entries are only read. -/
def readRandomNodes (initDone : Bool) (entries : List (List α)) (draws : Nat → Nat) (buf : Nat) : Option (List α × Nat) :=
  if ¬ initDone then some ([],0)
  else
    let buckets := entries.filter fun b => b.length > 0
    if buckets.length = 0 then some ([],0)
    else (fill buf 0 (shuffle draws (buckets.length - 1) buckets) 0).map fun (nodes,i) => (nodes,i+1)
variable {buckets : List (List α)} {i j : Nat}

private theorem swap_perm (inI : i < buckets.length) (inJ : j < buckets.length) :
    swap buckets i j ~ buckets := by
  rw [swap,getD_eq_getElem _ _ inI,getD_eq_getElem _ _ inJ]
  exact set_set_perm inI inJ
private theorem shuffle_perm (draws : Nat → Nat) (inside : i < buckets.length) :
    shuffle draws i buckets ~ buckets := by
  induction i generalizing buckets with
  | zero => exact .refl _
  | succ i ih =>
    have swapped : swap buckets (i+1) (draws i % buckets.length) ~ buckets := swap_perm inside (Nat.mod_lt _ (by omega))
    refine (ih ?_).trans swapped
    rw [swapped.length_eq]
    omega
/-- The buckets without the first node of one of them. -/
private theorem take_perm {x : α} {rest : List α} (found : buckets[j]? = some (x :: rest)) :
    buckets.flatten ~ x :: (if rest.length = 0 then buckets.eraseIdx j else buckets.set j rest).flatten := by
  obtain ⟨inside,is⟩ := List.getElem?_eq_some_iff.mp found
  have around : buckets = buckets.take j ++ (x :: rest) :: buckets.drop (j+1) := by
    rw [← is,← drop_eq_getElem_cons inside,take_append_drop]
  have left : (if rest.length = 0 then buckets.eraseIdx j else buckets.set j rest).flatten =
      (buckets.take j).flatten ++ (rest ++ (buckets.drop (j+1)).flatten) := by
    split
    · next none => rw [eraseIdx_eq_take_drop_succ,flatten_append,eq_nil_of_length_eq_zero none,nil_append]
    · rw [set_eq_take_append_cons_drop,if_pos inside,flatten_append,flatten_cons]
  rw [left]
  nth_rewrite 1 [around]
  rw [flatten_append,flatten_cons,cons_append]
  exact perm_middle
/-- All buckets have nodes, so each round finds one, and none is left over before the buffer is full. -/
private theorem fill_spec (slots i : Nat) (inside : j < buckets.length) (some_ : ∀ b ∈ buckets, b ≠ []) :
    ∃ nodes r, fill slots i buckets j = some (nodes,r) ∧ nodes <+~ buckets.flatten ∧
      nodes.length = min slots buckets.flatten.length ∧
      r + 1 = i + if buckets.flatten.length ≤ slots then buckets.flatten.length else slots + 1 := by
  induction slots generalizing i buckets j with
  | zero =>
    have positive : 0 < buckets.flatten.length :=
      length_pos_iff.mpr fun none => some_ _ (getElem_mem inside) (flatten_eq_nil_iff.mp none _ (getElem_mem inside))
    exact ⟨[],i,rfl,nil_subperm,by simp,by rw [if_neg (by omega)]⟩
  | succ slots ih =>
    have found := getElem?_eq_getElem inside
    cases is : buckets[j] with
    | nil => exact absurd is (some_ _ (getElem_mem inside))
    | cons x rest =>
      rw [is] at found
      have perm := take_perm found
      generalize left : (if rest.length = 0 then buckets.eraseIdx j else buckets.set j rest) = buckets' at perm
      have some' : ∀ b ∈ buckets', b ≠ [] := by
        intro b member
        rw [← left] at member
        split at member
        · exact some_ b (mem_of_mem_eraseIdx member)
        · next more =>
          rcases mem_or_eq_of_mem_set member with old | rfl
          · exact some_ b old
          · exact fun none => more (by rw [none]; rfl)
      have size := perm.length_eq
      rw [length_cons] at size
      by_cases last : buckets'.length = 0
      · obtain rfl := eq_nil_of_length_eq_zero last
        rw [flatten_nil,length_nil] at size
        refine ⟨[x],i,by simp only [fill,found,left,if_pos last],perm.symm.subperm,?_,?_⟩
        · rw [size,length_singleton]
          omega
        · rw [size,if_pos (by omega)]
      · obtain ⟨nodes,r,filled,part,count,ends⟩ := ih (i+1) (j := (j+1) % buckets'.length) (Nat.mod_lt _ (by omega)) some'
        refine ⟨x :: nodes,r,?_,((subperm_cons x).mpr part).trans perm.symm.subperm,?_,?_⟩
        · simp only [fill,found,left,if_neg last,filled,Option.map_some]
        · rw [length_cons,count,size]
          omega
        · rw [ends,size]
          split <;> split <;> omega

/-- The number that is returned is the number of nodes in the buffer, as many as there are or
    as it holds, and no entry is in it twice. -/
def Reports (entries : List (List α)) (draws : Nat → Nat) (buf : Nat) : Prop :=
  ∃ nodes, readRandomNodes true entries draws buf = some (nodes,min buf entries.flatten.length) ∧
    nodes.length = min buf entries.flatten.length ∧ nodes <+~ entries.flatten

private theorem filter_flatten (entries : List (List α)) : (entries.filter fun b => b.length > 0).flatten = entries.flatten := by
  induction entries with
  | nil => rfl
  | cons b entries ih =>
    cases b with
    | nil => exact ih
    | cons x b => rw [filter_cons_of_pos (by simp),flatten_cons,flatten_cons,ih]
/-- The buffer is filled from any table; the number is right if the nodes end first. -/
theorem random_nodes_iff (entries : List (List α)) (draws : Nat → Nat) (buf : Nat) :
    (∃ nodes n, readRandomNodes true entries draws buf = some (nodes,n) ∧ nodes.length = min buf entries.flatten.length ∧
      nodes <+~ entries.flatten) ∧ (Reports entries draws buf ↔ entries.flatten.length ≤ buf) := by
  rw [Reports,readRandomNodes,if_neg (by simp),← filter_flatten entries]
  dsimp only
  have some_ : ∀ b ∈ entries.filter fun b => b.length > 0, b ≠ [] := by
    intro b member
    simpa [length_pos_iff] using (mem_filter.mp member).2
  generalize (entries.filter fun b => b.length > 0) = buckets at some_
  by_cases none : buckets.length = 0
  · obtain rfl := eq_nil_of_length_eq_zero none
    simp
  · have perm : shuffle draws (buckets.length - 1) buckets ~ buckets := shuffle_perm draws (by omega)
    have first : 0 < (shuffle draws (buckets.length - 1) buckets).length := by
      rw [perm.length_eq]
      omega
    obtain ⟨nodes,r,filled,part,count,ends⟩ := fill_spec buf 0 first fun b member => some_ b (perm.mem_iff.mp member)
    rw [perm.flatten.length_eq] at count ends
    have part := part.trans perm.flatten.subperm
    rw [if_neg none,filled,Option.map_some]
    refine ⟨⟨nodes,r+1,rfl,count,part⟩,?_⟩
    constructor
    · rintro ⟨nodes',same,-⟩
      have number : r + 1 = min buf buckets.flatten.length := (Prod.mk.inj (Option.some.inj same)).2
      by_contra more
      rw [if_neg more] at ends
      omega
    · intro fits
      rw [if_pos fits] at ends
      refine ⟨nodes,?_,count,part⟩
      rw [ends,Nat.zero_add,Nat.min_eq_right fits]
/-- Two nodes and a buffer for one: the number is 2. -/
theorem one_too_many : readRandomNodes true [[7,8]] (fun _ => 0) 1 = some ([7],2) := rfl

end Canchain.Discover
