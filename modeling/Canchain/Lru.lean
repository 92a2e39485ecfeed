import Mathlib.Data.List.Basic

/-!
A cache of bounded size that forgets the entry used least recently. What such a
cache gives back was put into it: a property of every pair that is added holds of
every pair in the cache (`Holds`).
-/
namespace Canchain

/-- The entries, the one used last first. -/
structure Lru (κ ν : Type) where
  size : Nat
  entries : List (κ × ν)

namespace Lru
variable {κ ν : Type} [DecidableEq κ]

def new (size : Nat) : Lru κ ν := ⟨size,[]⟩
def find (c : Lru κ ν) (k : κ) : Option (κ × ν) := c.entries.find? fun e => e.1 = k
def without (c : Lru κ ν) (k : κ) : List (κ × ν) := c.entries.filter fun e => e.1 ≠ k
/-- The value kept for a key, which becomes the entry used last. -/
def get (c : Lru κ ν) (k : κ) : Option ν × Lru κ ν :=
  match c.find k with
  | none => (none,c)
  | some e => (some e.2,{ c with entries := e :: c.without k })
/-- A new entry takes the place of an old one for its key, or of the one used least recently. -/
def add (c : Lru κ ν) (k : κ) (v : ν) : Lru κ ν := { c with entries := ((k,v) :: c.without k).take c.size }

/-- Every entry of the cache has the property. -/
def Holds (P : κ → ν → Prop) (c : Lru κ ν) : Prop := ∀ e ∈ c.entries, P e.1 e.2

variable {P Q : κ → ν → Prop} {c : Lru κ ν} {k : κ} {v : ν}

omit [DecidableEq κ] in
theorem holds_new (P : κ → ν → Prop) (size : Nat) : Holds P (new size) := by
  intro e member
  cases member
variable (holds : Holds P c)
include holds
omit [DecidableEq κ] in
theorem Holds.mono (weaker : ∀ k v, P k v → Q k v) : Holds Q c :=
  fun e member => weaker e.1 e.2 (holds e member)
theorem Holds.without (k : κ) : ∀ e ∈ c.without k, P e.1 e.2 :=
  fun e member => holds e (List.mem_filter.mp member).1
theorem Holds.find {e : κ × ν} (found : c.find k = some e) : e.1 = k ∧ P k e.2 := by
  have same : e.1 = k := by simpa using List.find?_some found
  exact ⟨same,same ▸ holds e (List.mem_of_find?_eq_some found)⟩
theorem Holds.get_some (hit : (c.get k).1 = some v) : P k v := by
  unfold Lru.get at hit
  split at hit
  · cases hit
  · next e found =>
    cases hit
    exact (holds.find found).2
theorem Holds.get (k : κ) : Holds P (c.get k).2 := by
  unfold Lru.get
  split
  · exact holds
  · next e found =>
    intro e' member
    rcases List.mem_cons.mp member with rfl | later
    · have hit := holds.find found
      rw [hit.1]
      exact hit.2
    · exact holds.without k e' later
theorem Holds.add (new : P k v) : Holds P (c.add k v) := by
  intro e member
  rcases List.mem_cons.mp (List.mem_of_mem_take member) with rfl | later
  · exact new
  · exact holds.without k e later

end Lru
end Canchain
