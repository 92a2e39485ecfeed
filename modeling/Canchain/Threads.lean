import Mathlib.Data.List.Basic
import Mathlib.Logic.Function.Basic

/-!
Threads that write to a shared memory, each in its own order, mixed in any way (`Interleave`).
What a cell holds at the end does not depend on the order, as soon as all the writes to that
cell agree (`writes_agree`).
-/
namespace Canchain.Threads
open List

variable {α ι β : Type}

/-- The second argument is a mix of the sequences of the first: each one in its own
    order, a thread that still has something to do taking the next step. -/
inductive Interleave : List (List α) → List α → Prop where
  | done {threads : List (List α)} (finished : ∀ steps ∈ threads, steps = []) : Interleave threads []
  | step {threads : List (List α)} {k : Nat} {x : α} {rest mixed : List α} (next : threads[k]? = some (x :: rest))
      (later : Interleave (threads.set k rest) mixed) : Interleave threads (x :: mixed)
variable {threads : List (List α)}

theorem mem_set {k : Nat} {x y : α} {rest : List α} (next : threads[k]? = some (x :: rest)) :
    (∃ steps ∈ threads, y ∈ steps) ↔ y = x ∨ ∃ steps ∈ threads.set k rest, y ∈ steps := by
  obtain ⟨inside,held⟩ := List.getElem?_eq_some_iff.mp next
  constructor
  · rintro ⟨steps,member,y_in⟩
    obtain ⟨i,i_inside,rfl⟩ := mem_iff_getElem.mp member
    by_cases same : i = k
    · subst same
      rw [held] at y_in
      rcases mem_cons.mp y_in with rfl | y_in
      · exact .inl rfl
      · exact .inr ⟨rest,List.mem_set inside rest,y_in⟩
    · refine .inr ⟨threads[i],mem_iff_getElem.mpr ⟨i,by simpa using i_inside,?_⟩,y_in⟩
      rw [getElem_set_ne (Ne.symm same)]
  · rintro (rfl | ⟨steps,member,y_in⟩)
    · exact ⟨_,mem_of_getElem? next,mem_cons_self⟩
    · rcases mem_or_eq_of_mem_set member with member | rfl
      · exact ⟨steps,member,y_in⟩
      · exact ⟨_,mem_of_getElem? next,mem_cons_of_mem x y_in⟩

/-- Nothing is lost and nothing is added. -/
theorem Interleave.mem_iff {mixed : List α} (mix : Interleave threads mixed) (y : α) :
    y ∈ mixed ↔ ∃ steps ∈ threads, y ∈ steps := by
  induction mix with
  | done finished =>
    constructor
    · exact fun member => (not_mem_nil member).elim
    · rintro ⟨steps,member,y_in⟩
      rwa [finished steps member] at y_in
  | step next _ ih => rw [mem_set next,mem_cons,ih]

/-- The threads can run one after the other. -/
theorem interleave_flatten (threads : List (List α)) : Interleave threads threads.flatten := by
  suffices shifted : ∀ done : List (List α), (∀ steps ∈ done, steps = []) →
      Interleave (done ++ threads) threads.flatten from shifted [] nofun
  induction threads with
  | nil => exact fun done finished => .done (by simpa using finished)
  | cons steps threads ih =>
    intro done finished
    induction steps with
    | nil =>
      have := ih (done ++ [[]]) (by simpa [or_imp,forall_and] using finished)
      simpa using this
    | cons x rest ih_rest =>
      refine .step (show (done ++ (x :: rest) :: threads)[done.length]? = some (x :: rest) by simp) ?_
      simpa using ih_rest
variable {ws : List (ι × β)} {p : ι}

section Memory
variable [DecidableEq ι]

def write (memory : ι → β) (w : ι × β) : ι → β := Function.update memory w.1 w.2

theorem unwritten (elsewhere : ∀ w ∈ ws, w.1 ≠ p) (memory : ι → β) :
    ws.foldl write memory p = memory p := by
  induction ws generalizing memory with
  | nil => rfl
  | cons w ws ih =>
    rw [foldl_cons,ih (fun v member => elsewhere v (mem_cons_of_mem w member)),write,
      Function.update_of_ne (elsewhere w mem_cons_self).symm]
theorem writes_agree {v : β} (agree : ∀ w ∈ ws, w.1 = p → w.2 = v) (reached : (p,v) ∈ ws)
    (memory : ι → β) : ws.foldl write memory p = v := by
  induction ws generalizing memory with
  | nil => exact (not_mem_nil reached).elim
  | cons w ws ih =>
    rw [foldl_cons]
    have agree_rest : ∀ w' ∈ ws, w'.1 = p → w'.2 = v := fun w' member => agree w' (mem_cons_of_mem w member)
    by_cases again : (p,v) ∈ ws
    · exact ih agree_rest again _
    · have last : w = (p,v) := by
        rcases mem_cons.mp reached with same | member
        · exact same.symm
        · exact absurd member again
      have elsewhere : ∀ w' ∈ ws, w'.1 ≠ p := by
        intro w' member same
        exact again (by rwa [← same,← agree_rest w' member same])
      rw [unwritten elsewhere,last,write,Function.update_self]

end Memory

end Canchain.Threads
