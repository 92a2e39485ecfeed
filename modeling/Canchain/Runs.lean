import Mathlib.Data.List.Basic

/-!
Runs of a machine whose operations may fail. A step that an abstract machine
matches, wherever the step is allowed, makes the abstract machine match every
run whose steps are all allowed (`run_simulates`).
-/
namespace Canchain.Runs
open List

variable {σ τ ω ρ ε : Type}

/-- The final state and the answers of a run, unless a step fails. -/
def run (step : σ → ω → Except ε (σ × ρ)) : σ → List ω → Except ε (σ × List ρ)
  | s, [] => .ok (s,[])
  | s, op :: ops =>
    match step s op with
    | .error e => .error e
    | .ok (s,answer) =>
      match run step s ops with
      | .error e => .error e
      | .ok (s,answers) => .ok (s,answer :: answers)
/-- The same for a machine that cannot fail. -/
def replay (step : τ → ω → τ × ρ) : τ → List ω → τ × List ρ
  | t, [] => (t,[])
  | t, op :: ops => ((replay step (step t op).1 ops).1,(step t op).2 :: (replay step (step t op).1 ops).2)
/-- The operations of a run, each with the state it is applied to. -/
def visits (step : σ → ω → Except ε (σ × ρ)) : σ → List ω → List (σ × ω)
  | _, [] => []
  | s, op :: ops =>
    (s,op) :: match step s op with
      | .error _ => []
      | .ok (s,_) => visits step s ops
variable {α β : Type} {x : Except ε α} {b : β}

theorem map_ok {f : α → β} : x.map f = .ok b ↔ ∃ a, x = .ok a ∧ f a = b := by
  cases x with
  | error e => simp [Except.map]
  | ok a => simp [Except.map]

variable {step : σ → ω → Except ε (σ × ρ)} {s s' : σ} {op : ω} {ops : List ω} {answers : List ρ}
  {f : σ → ω → Except ε σ}
theorem run_cons (ran : run step s (op :: ops) = .ok (s',answers)) :
    ∃ s₁ answer answers₁, step s op = .ok (s₁,answer) ∧ run step s₁ ops = .ok (s',answers₁) ∧ answers = answer :: answers₁ := by
  cases stepped : step s op with
  | error e => simp [run,stepped] at ran
  | ok r =>
    cases rest : run step r.1 ops with
    | error e => simp [run,stepped,rest] at ran
    | ok r' =>
      simp only [run,stepped,rest,Except.ok.injEq,Prod.mk.injEq] at ran
      exact ⟨r.1,r.2,r'.2,rfl,by rw [rest,← ran.1],ran.2.symm⟩
theorem run_cons_ok (ran : run step s (op :: ops) = .ok (s',answers)) :
    ∃ s₁ answer answers₁, step s op = .ok (s₁,answer) ∧ run step s₁ ops = .ok (s',answers₁) := by
  obtain ⟨s₁,answer,answers₁,stepped,rest,-⟩ := run_cons ran
  exact ⟨s₁,answer,answers₁,stepped,rest⟩
variable {v : σ × ω}

theorem visits_mem (member : v ∈ visits step s ops) : v.2 ∈ ops := by
  induction ops generalizing s with
  | nil => simp [visits] at member
  | cons op ops ih =>
    rcases mem_cons.mp member with rfl | later
    · simp
    · cases stepped : step s op with
      | error e => simp [stepped] at later
      | ok r =>
        simp only [stepped] at later
        exact mem_cons_of_mem op (ih later)
variable {answer : ρ}

theorem run_append {s'' : σ}
    (ran : run step s ops = .ok (s',answers)) (stepped : step s' op = .ok (s'',answer)) :
    run step s (ops ++ [op]) = .ok (s'',answers ++ [answer]) := by
  induction ops generalizing s answers with
  | nil =>
    cases ran
    simp [run,stepped]
  | cons first ops ih =>
    obtain ⟨s₁,answer₁,answers₁,firstStep,rest,rfl⟩ := run_cons ran
    simp [run,firstStep,ih rest]
theorem visits_append
    (ran : run step s ops = .ok (s',answers)) (op : ω) : visits step s (ops ++ [op]) = visits step s ops ++ [(s',op)] := by
  induction ops generalizing s answers with
  | nil =>
    cases ran
    simp only [nil_append,visits]
    split <;> rfl
  | cons first ops ih =>
    obtain ⟨s₁,answer,answers₁,stepped,rest⟩ := run_cons_ok ran
    simp [visits,stepped,ih rest]

theorem visits_pair {first second : ω}
    (stepped : step s first = .ok (s',answer)) (member : v ∈ visits step s [first,second]) : v = (s,first) ∨ v = (s',second) := by
  simp only [visits,stepped,mem_cons] at member
  rcases member with same | same | later
  · exact Or.inl same
  · exact Or.inr same
  · split at later <;> cases later

theorem run_simulates {spec : τ → ω → τ × ρ} {Matches : σ → τ → Prop} {Allowed : σ → ω → Prop}
    (one : ∀ s t op, Matches s t → Allowed s op → ∃ s', step s op = .ok (s',(spec t op).2) ∧ Matches s' (spec t op).1)
    {t : τ} (start : Matches s t) (ops : List ω) (allowed : ∀ v ∈ visits step s ops, Allowed v.1 v.2) :
    ∃ s', run step s ops = .ok (s',(replay spec t ops).2) ∧ Matches s' (replay spec t ops).1 := by
  induction ops generalizing s t with
  | nil => exact ⟨s,rfl,start⟩
  | cons op ops ih =>
    obtain ⟨s',stepped,matched⟩ := one s t op start (allowed (s,op) (by simp [visits]))
    obtain ⟨s'',ran,final⟩ := ih matched (fun v member => allowed v (by simp [visits,stepped,member]))
    exact ⟨s'',by simp [run,stepped,ran,replay],final⟩
/-- What every allowed step keeps holds after a run whose steps are all allowed. -/
theorem run_keeps (Good : σ → Prop) (Allowed : σ → ω → Prop)
    (one : ∀ s op s' answer, Good s → Allowed s op → step s op = .ok (s',answer) → Good s')
    (start : Good s) (ops : List ω) (allowed : ∀ v ∈ visits step s ops, Allowed v.1 v.2)
    (ran : run step s ops = .ok (s',answers)) : Good s' := by
  induction ops generalizing s answers with
  | nil => cases ran; exact start
  | cons op ops ih =>
    obtain ⟨s₁,answer,answers₁,stepped,rest⟩ := run_cons_ok ran
    have good := one s op s₁ answer start (allowed (s,op) (by simp [visits])) stepped
    exact ih good (fun v member => allowed v (by simp [visits,stepped,member])) rest

/-- If an allowed step is right in every good state and leads to another one, the steps of a run are right if all are allowed. -/
theorem visits_right (Good : σ → Prop) {Right Allowed : σ → ω → Prop}
    (one : ∀ s op, Good s → Allowed s op → Right s op ∧ ∀ s' answer, step s op = .ok (s',answer) → Good s') (start : Good s)
    (ops : List ω) (allowed : ∀ v ∈ visits step s ops, Allowed v.1 v.2) : ∀ v ∈ visits step s ops, Right v.1 v.2 := by
  induction ops generalizing s with
  | nil => simp [visits]
  | cons op ops ih =>
    rw [visits,forall_mem_cons] at allowed ⊢
    obtain ⟨right,next⟩ := one s op start allowed.1
    refine ⟨right,?_⟩
    cases stepped : step s op with
    | error e => simp
    | ok r =>
      rw [stepped] at allowed
      exact ih (next r.1 r.2 stepped) allowed.2

theorem bind_ok {f : α → Except ε β} (bound : (x >>= f) = .ok b) :
    ∃ a, x = .ok a ∧ f a = .ok b := by
  cases x with
  | error e => cases bound
  | ok a => exact ⟨a,rfl,bound⟩
theorem ok_of_any {test : α → Bool} (holds : x.toOption.any test) : ∃ a, x = .ok a ∧ test a := by
  cases x with
  | error e => cases holds
  | ok a => exact ⟨a,rfl,holds⟩
theorem foldlM_cons_ok {x : ω} {xs : List ω} :
    (x :: xs).foldlM f s = .ok s' ↔ ∃ s₁, f s x = .ok s₁ ∧ xs.foldlM f s₁ = .ok s' := by
  rw [foldlM_cons]
  cases f s x with
  | error e => simp [bind,Except.bind]
  | ok s₁ => simp [bind,Except.bind]
/-- A loop that may fail: what one round keeps, for the elements that are left. -/
theorem foldlM_keeps (Good : List ω → σ → Prop)
    (one : ∀ x rest s s', Good (x :: rest) s → f s x = .ok s' → Good rest s')
    (xs : List ω) (start : Good xs s) (ran : xs.foldlM f s = .ok s') : Good [] s' := by
  induction xs generalizing s with
  | nil => cases ran; exact start
  | cons x rest ih =>
    obtain ⟨s₁,first,later⟩ := foldlM_cons_ok.mp ran
    exact ih (one x rest s s₁ start first) later
/-- The same, for the elements that have been dealt with. -/
theorem foldlM_history (Good : List ω → σ → Prop)
    (one : ∀ past x s s', Good past s → f s x = .ok s' → Good (past ++ [x]) s')
    (xs : List ω) (start : Good [] s) (ran : xs.foldlM f s = .ok s') : Good xs s' := by
  have whole : ∃ past, past ++ [] = xs ∧ Good past s' := by
    refine foldlM_keeps (fun rest s => ∃ past, past ++ rest = xs ∧ Good past s) ?_ xs ⟨[],rfl,start⟩ ran
    rintro x rest s s' ⟨past,all,good⟩ stepped
    exact ⟨past ++ [x],by simpa using all,one past x s s' good stepped⟩
  obtain ⟨past,all,good⟩ := whole
  rw [← all,append_nil]
  exact good

end Canchain.Runs
