import Mathlib.Data.Fin.Tuple.Basic

/-!
A loop over the positions of an array that threads a state, may fail, and keeps a result for
each position. A step that keeps the invariant and only moves the state upwards makes the loop
succeed, with every result good in the final state (`sweep_ok`).
-/
namespace Canchain.Sweep

variable {σ ε α : Type}

def sweep : (n : Nat) → (Fin n → σ → Except ε (α × σ)) → σ → Except ε ((Fin n → α) × σ)
  | 0, _, s => .ok (Fin.elim0,s)
  | n+1, f, s =>
    match f 0 s with
    | .error e => .error e
    | .ok (a,s) =>
      match sweep n (fun i => f i.succ) s with
      | .error e => .error e
      | .ok (g,s) => .ok (Fin.cons a g,s)

variable {n : Nat} {f : Fin n → σ → Except ε (α × σ)}
theorem sweep_ok (Inv : σ → Prop) (Upwards : σ → σ → Prop) (Good : Fin n → α → σ → Prop) (refl : ∀ s, Upwards s s)
    (trans : ∀ {s t u}, Upwards s t → Upwards t u → Upwards s u)
    (stable : ∀ {i a s t}, Good i a s → Upwards s t → Good i a t)
    (step : ∀ i s, Inv s → ∃ a t, f i s = .ok (a,t) ∧ Inv t ∧ Upwards s t ∧ Good i a t) (s : σ) (inv : Inv s) :
    ∃ g t, sweep n f s = .ok (g,t) ∧ Inv t ∧ Upwards s t ∧ ∀ i, Good i (g i) t := by
  induction n generalizing s with
  | zero => exact ⟨Fin.elim0,s,rfl,inv,refl s,fun i => i.elim0⟩
  | succ n ih =>
    obtain ⟨a,t,first,invT,upT,goodA⟩ := step 0 s inv
    obtain ⟨g,u,rest,invU,upU,goodG⟩ := ih (fun i => Good i.succ) stable (fun i => step i.succ) t invT
    refine ⟨Fin.cons a g,u,by simp [sweep,first,rest],invU,trans upT upU,fun i => ?_⟩
    induction i using Fin.cases with
    | zero => exact stable goodA upU
    | succ i => exact goodG i

/-- A loop whose steps lead from state to state of a given sequence. -/
theorem sweep_walk {g : Fin n → α} (s : Fin (n+1) → σ)
    (step : ∀ i, f i (s i.castSucc) = .ok (g i,s i.succ)) : sweep n f (s 0) = .ok (g,s (Fin.last n)) := by
  induction n with
  | zero => exact congrArg Except.ok (Prod.ext (funext fun i => i.elim0) rfl)
  | succ n ih =>
    have first := step 0
    have rest := ih (g := fun i => g i.succ) (fun i => s i.succ) fun i => step i.succ
    rw [Fin.castSucc_zero] at first
    simp only [sweep,first,rest,Fin.succ_last]
    congr 2
    exact Fin.cons_self_tail g

/-- What a finished loop has done: each result comes from a step in a state that keeps the invariant. -/
theorem sweep_inv (Inv : σ → Prop)
    (keeps : ∀ {i s a t}, f i s = .ok (a,t) → Inv s → Inv t) {s t : σ} {g : Fin n → α} (done : sweep n f s = .ok (g,t)) (inv : Inv s) :
    Inv t ∧ ∀ i, ∃ s t, Inv s ∧ f i s = .ok (g i,t) := by
  induction n generalizing s with
  | zero =>
    obtain ⟨-,rfl⟩ := Prod.mk.inj (Except.ok.inj done)
    exact ⟨inv,fun i => i.elim0⟩
  | succ n ih =>
    simp only [sweep] at done
    split at done
    · cases done
    rename_i a s₁ first
    split at done
    · cases done
    rename_i g' t' rest
    obtain ⟨rfl,rfl⟩ := Prod.mk.inj (Except.ok.inj done)
    obtain ⟨invT,steps⟩ := ih (f := fun i => f i.succ) keeps rest (keeps first inv)
    refine ⟨invT,fun i => ?_⟩
    induction i using Fin.cases with
    | zero => exact ⟨s,s₁,inv,first⟩
    | succ i => exact steps i

/-- The element of a list that has exactly one. -/
def only : List α → Option α
  | [a] => some a
  | _ => none

/-- `n` slots and one more behind them. -/
def slots {n : Nat} (g : Fin n → α) (last : α) (i : Fin (n+1)) : α :=
  if inside : i.val < n then g ⟨i.val,inside⟩ else last

@[simp] theorem slots_castSucc (g : Fin n → α) (last : α) (i : Fin n) : slots g last i.castSucc = g i := by
  simp [slots]
@[simp] theorem slots_last (g : Fin n → α) (last : α) : slots g last (Fin.last n) = last := by
  simp [slots]

end Canchain.Sweep
