import Canchain.DatabaseFlush

/-!
Flushes that fail. Whatever operation of a batch fails in `Cap` or `Commit`, the memory is
as before, and a retry that does not fail leaves the disk as if there had been no failure. A
`Write` that fails in the loop of `Commit` over the preimages keeps the read lock for ever.
-/
namespace Canchain.TrieDatabase
open Rlp Common TrieNode List Option Except TrieDatabase.System

section
variable (faults : Nat → Option Nat) (walk : Walk)

/-- The preimages that the call puts, and the entries. -/
def capPreimages (db : Database) : List (Bytes × Bytes) :=
  if 4*1024*1024 < db.preimagesSize then preimagePuts (walk.preimages db.preimages) else []
def commitPreimages (db : Database) : List (Bytes × Bytes) := preimagePuts (walk.preimages db.preimages)
def capPlan (db : Database) (limit : Int) : Plan Hash := flushPlan db limit (db.dirties.entries.length+1) db.capSize db.oldest
def commitNode (db : Database) (node : Hash) : Plan Unit := commitPlan walk db (db.dirties.entries.length+1) node

/-- How a call goes on after its flush, if the read lock is given back. -/
def System.flushed {α : Type} (s : System) (change : α → Database → Except Fault Database) : Except Stop (α × Flush) → Except Fault Result
  | .error (.fault e) => .error e
  | .error (.failed _ f) => .ok (.failed (s.after f s.readers))
  | .ok (a,f) => (s.after f s.readers).locked (change a)
/-- What `Cap` does to the memory. -/
def capChange (stop : Hash) (db : Database) : Except Fault Database := db.capEnd (decide (4*1024*1024 < db.preimagesSize)) stop
def commitChange (node : Hash) (_ : Unit) (db : Database) : Except Fault Database := db.commitEnd walk node

theorem cap_eq (s : System) (limit : Int) : s.cap faults walk limit =
    s.flushed capChange (flushAll faults (capPreimages walk s.db) (capPlan s.db limit) s.flush) := by
  have loop : (if 4*1024*1024 < s.db.preimagesSize then putPreimages faults (walk.preimages s.db.preimages) s.flush else .ok s.flush) =
      putList faults preimageLarge (capPreimages walk s.db) s.flush := by
    unfold capPreimages
    split
    · exact putPreimages_eq _ _ _
    · rfl
  unfold System.cap capFlush flushAll
  simp only [loop,flushList_eq]
  cases putList faults preimageLarge (capPreimages walk s.db) s.flush with
  | error e => cases e <;> rfl
  | ok f =>
    simp only [capPlan]
    rcases (flushPlan s.db limit (s.db.dirties.entries.length+1) s.db.capSize s.db.oldest).run faults entryLarge f with (⟨op,f⟩ | e) | ⟨a,f⟩
    · rfl
    · rfl
    · simp only
      rcases f.write faults with (⟨op,f⟩ | e) | f
      · rfl
      · rfl
      · rfl
/-- `Commit` differs from `Cap` where a `Write` fails in the loop over the preimages. -/
theorem commit_eq (s : System) (node : Hash) : s.commit faults walk node =
    match putList faults preimageLarge (commitPreimages walk s.db) s.flush with
    | .error (.failed .write f) => .ok (.failed (s.after f (s.readers+1)))
    | _ => s.flushed (commitChange walk node) (flushAll faults (commitPreimages walk s.db) (commitNode walk s.db node) s.flush) := by
  unfold System.commit flushAll commitPreimages
  simp only [commitFrom_eq,putPreimages_eq,commitNode]
  rcases putList faults preimageLarge (preimagePuts (walk.preimages s.db.preimages)) s.flush with (⟨op,f⟩ | e) | f
  · cases op with
    | put => rfl
    | write => rfl
  · rfl
  · simp only
    rcases (commitPlan walk s.db (s.db.dirties.entries.length+1) node).run faults entryLarge f with (⟨op,f⟩ | e) | ⟨a,f⟩
    · rfl
    · rfl
    · simp only [Except.map]
      rcases f.write faults with (⟨op,f⟩ | e) | f
      · rfl
      · rfl
      · rfl

end

/-! ### What a call does to the memory -/

/-- The memory after a call that is done. -/
def change (walk : Walk) (db : Database) : System.Call → Except Fault Database
  | .insertBlob hash blob => db.insertBlob hash blob
  | .insertNode hash n => db.insertNode hash n
  | .insertPreimage hash preimage => .ok (db.insertPreimage hash preimage)
  | .reference child parent => db.reference child parent
  | .dereference root => db.dereference walk root
  | .cap limit => (capPlan db limit).result.bind fun stop => capChange stop db
  | .commit node => (commitNode walk db node).result.bind fun _ => commitChange walk node () db
variable {f : Database → Except Fault Database} {r : Result}

section
variable {faults : Nat → Option Nat} {walk : Walk} {s s' : System} {α : Type} {preimages : List (Bytes × Bytes)} {plan : Plan α}

theorem locked_ok (ended : s.locked f = .ok r) :
    (∃ s', r = .done s' ∧ f s.db = .ok s'.db) ∨ r = .blocked := by
  unfold locked at ended
  split at ended
  · obtain ⟨db,changed,rfl⟩ := Runs.map_ok.mp ended
    exact .inl ⟨_,rfl,changed⟩
  · exact .inr (ok.inj ended).symm
variable {db : Database}
theorem locked_returns (changed : f s.db = .ok db) : ∃ r, s.locked f = .ok r := by
  unfold locked
  split
  · exact ⟨_,by rw [changed]; rfl⟩
  · exact ⟨_,rfl⟩
theorem flushAll_result {f f' : Flush} {a : α} (done : flushAll faults preimages plan f = .ok (a,f')) : plan.result = .ok a := by
  unfold flushAll at done
  repeat' split at done
  all_goals cases done
  rename_i ran _
  unfold Plan.run at ran
  repeat' split at ran
  all_goals cases ran
  assumption
theorem flushAll_ends {a : α} {e : Fault} (ends : plan.result = .ok a) : flushAll faults preimages plan s.flush ≠ .error (.fault e) := by
  rcases first_failure faults s.count (preimageOps preimages ++ entryOps preimages plan).length with works | ⟨i,inside,⟨part,fails⟩,before⟩
  · obtain ⟨f',done,-⟩ := flushAll_works faults preimages plan (f := s.flush) ⟨rfl,rfl⟩ works
    rw [done,ends]
    intro same
    cases same
  · obtain ⟨op,f',failed,-⟩ := flushAll_fails (f := s.flush) ⟨rfl,rfl⟩ inside fails before
    rw [failed]
    intro same
    cases same
theorem flushed_ok {f : α → Database → Except Fault Database}
    (ended : s.flushed f (flushAll faults preimages plan s.flush) = .ok r) :
    (∃ s', r = .done s' ∧ plan.result.bind (fun a => f a s.db) = .ok s'.db) ∨ (∃ s', r = .failed s' ∧ s'.db = s.db) ∨ r = .blocked := by
  rcases flushed : flushAll faults preimages plan s.flush with (⟨op,f'⟩ | e) | ⟨a,f'⟩
  · rw [flushed] at ended
    exact .inr (.inl ⟨_,(ok.inj ended).symm,rfl⟩)
  · rw [flushed] at ended
    cases ended
  · rw [flushed] at ended
    rw [flushAll_result flushed]
    exact (locked_ok (s := s.after f' s.readers) ended).imp_right .inr
theorem flushed_returns {f : α → Database → Except Fault Database}
    (changed : plan.result.bind (fun a => f a s.db) = .ok db) : ∃ r, s.flushed f (flushAll faults preimages plan s.flush) = .ok r := by
  obtain ⟨a,ends,changed⟩ := Runs.bind_ok changed
  rcases flushed : flushAll faults preimages plan s.flush with (⟨op,f'⟩ | e) | ⟨a',f'⟩
  · exact ⟨_,rfl⟩
  · exact absurd flushed (flushAll_ends ends)
  · have same := ok.inj (ends.symm.trans (flushAll_result flushed))
    subst same
    exact locked_returns (s := s.after f' s.readers) changed

variable {call : System.Call}

theorem step_ok (ended : step faults walk s call = .ok r) :
    (∃ s', r = .done s' ∧ change walk s.db call = .ok s'.db) ∨ (∃ s', r = .failed s' ∧ s'.db = s.db) ∨ r = .blocked := by
  cases call with
  | insertBlob hash blob => exact (locked_ok (f := (·.insertBlob hash blob)) ended).imp_right .inr
  | insertNode hash n => exact (locked_ok (f := (·.insertNode hash n)) ended).imp_right .inr
  | insertPreimage hash preimage => 
    exact (locked_ok (f := fun db => .ok (db.insertPreimage hash preimage)) ended).imp_right .inr
  | reference child parent =>
    obtain ⟨db,changed,rfl⟩ := Runs.map_ok.mp ended
    exact .inl ⟨_,rfl,changed⟩
  | dereference root =>
    simp only [step] at ended
    split at ended
    · rename_i isZero
      refine .inl ⟨s,(ok.inj ended).symm,?_⟩
      simp [change,Database.dereference,if_pos isZero]
    · exact (locked_ok (f := (·.dereference walk root)) ended).imp_right .inr
  | cap limit =>
    simp only [step,cap_eq] at ended
    exact flushed_ok ended
  | commit node =>
    simp only [step,commit_eq] at ended
    split at ended
    · exact .inr (.inl ⟨_,(ok.inj ended).symm,rfl⟩)
    · exact flushed_ok ended
/-- A call that does not panic returns, or waits for the lock. -/
theorem step_returns (faults : Nat → Option Nat) (changed : change walk s.db call = .ok db) :
    ∃ r, step faults walk s call = .ok r := by
  cases call with
  | insertBlob hash blob => exact locked_returns (f := (·.insertBlob hash blob)) changed
  | insertNode hash n => exact locked_returns (f := (·.insertNode hash n)) changed
  | insertPreimage hash preimage => exact locked_returns (f := fun db => .ok (db.insertPreimage hash preimage)) changed
  | reference child parent =>
    have changed' : s.db.reference child parent = .ok db := changed
    simp only [step,changed']
    exact ⟨_,rfl⟩
  | dereference root =>
    simp only [step]
    split
    · exact ⟨_,rfl⟩
    · exact locked_returns (f := (·.dereference walk root)) changed
  | cap limit =>
    simp only [step,cap_eq]
    exact flushed_returns changed
  | commit node =>
    simp only [step,commit_eq]
    split
    · exact ⟨_,rfl⟩
    · exact flushed_returns changed

end

/-! ### Retries -/
variable {β : Type} {hashes : List Hash} {preimages : List (Bytes × Bytes)}

section
variable {walk walk' : Walk} {db : Database}

variable {put : Bytes × Bytes} {α : Type} {plan : Plan α} {s : System}
theorem preimagePuts_keys (walk walk' : Walk) (preimages : AList fun _ : Hash => Bytes)
    (member : put ∈ preimagePuts (walk.preimages preimages)) : put ∈ preimagePuts (walk'.preimages preimages) := by
  obtain ⟨entry,inside,rfl⟩ := mem_map.mp member
  have same := (walk.isPreimages preimages).trans (walk'.isPreimages preimages).symm
  exact mem_map.mpr ⟨entry,same.mem_iff.mp inside,rfl⟩
theorem andThen_puts {next : α → Plan β} (member : put ∈ (plan.andThen next).puts) :
    put ∈ plan.puts ∨ ∃ a, plan.result = .ok a ∧ put ∈ (next a).puts := by
  unfold Plan.andThen at member
  cases ends : plan.result with
  | error e =>
    rw [ends] at member
    exact .inl member
  | ok a =>
    rw [ends] at member
    exact (mem_append.mp member).imp_right fun later => ⟨a,rfl,later⟩
theorem andThen_ok {next : α → Plan β} {b : β} (done : (plan.andThen next).result = .ok b) :
    ∃ a, plan.result = .ok a ∧ (next a).result = .ok b ∧ (plan.andThen next).puts = plan.puts ++ (next a).puts := by
  unfold Plan.andThen at done ⊢
  cases ends : plan.result with
  | error e =>
    rw [ends] at done
    cases done
  | ok a =>
    rw [ends] at done
    exact ⟨a,rfl,done,rfl⟩
theorem allPlans_puts {plan : Hash → Plan Unit} (member : put ∈ (allPlans plan hashes).puts) :
    ∃ hash ∈ hashes, put ∈ (plan hash).puts := by
  induction hashes with
  | nil => cases member
  | cons hash hashes ih =>
    rcases andThen_puts member with here | ⟨_,-,later⟩
    · exact ⟨hash,mem_cons_self,here⟩
    · obtain ⟨hash',inside,found⟩ := ih later
      exact ⟨hash',mem_cons_of_mem _ inside,found⟩
theorem allPlans_ok {plan : Hash → Plan Unit} (done : (allPlans plan hashes).result = .ok ()) :
    ∀ hash ∈ hashes, (plan hash).result = .ok () ∧ ∀ put ∈ (plan hash).puts, put ∈ (allPlans plan hashes).puts := by
  induction hashes with
  | nil =>
    intro hash member
    cases member
  | cons first hashes ih =>
    obtain ⟨⟨⟩,head,rest,puts⟩ := andThen_ok done
    intro hash member
    rw [allPlans,puts]
    rcases mem_cons.mp member with rfl | member
    · exact ⟨head,fun put inside => mem_append_left _ inside⟩
    · obtain ⟨ends,inside⟩ := ih rest hash member
      exact ⟨ends,fun put found => mem_append_right _ (inside put found)⟩
/-- In whatever order the children come, a commit that ends puts all that any other puts. -/
theorem commitPlan_puts (walk walk' : Walk) {fuel : Nat} {hash : Hash} (done : (commitPlan walk' db fuel hash).result = .ok ())
    (member : put ∈ (commitPlan walk db fuel hash).puts) : put ∈ (commitPlan walk' db fuel hash).puts := by
  induction fuel generalizing hash put with
  | zero => cases member
  | succ fuel ih =>
    unfold commitPlan at done member ⊢
    cases found : db.dirties.lookup hash with
    | none =>
      rw [found] at member
      cases member
    | some node =>
      rw [found] at done member
      simp only at done member ⊢
      obtain ⟨⟨⟩,children,-,puts⟩ := andThen_ok done
      rw [puts]
      rcases andThen_puts member with below | ⟨_,-,here⟩
      · obtain ⟨c,isChild,inside⟩ := allPlans_puts below
        have isChild' : c ∈ node.childs walk' hash := by
          simp only [CachedNode.childs,mem_append,(walk.isChildren hash node.children).mem_iff,
            (walk'.isChildren hash node.children).mem_iff] at isChild ⊢
          exact isChild
        obtain ⟨ends,all⟩ := allPlans_ok children c isChild'
        exact mem_append_left _ (all put (ih ends inside))
      · exact mem_append_right _ here

/-- What can be seen of the result of a call: whether it failed, and the state. -/
def Result.seen : Result → Option (Bool × Database × (Bytes → Option Bytes) × Nat)
  | .done s => some (true,s.db,s.disk,s.readers)
  | .failed s => some (false,s.db,s.disk,s.readers)
  | .blocked => none
/-- After a failed flush every call can go on, and the same call without a failure does what it would have done at once. -/
structure Harmless (s s' : System) (call : System.Call) : Prop where
  released : s'.readers = s.readers
  proceeds : s.readers = 0 → ∀ faults walk next, System.step faults walk s' next ≠ .ok .blocked
  retry : ∀ walk, (System.step (fun _ => none) walk s' call).map Result.seen = (System.step (fun _ => none) walk s call).map Result.seen

theorem locked_free (free : s.readers = 0) (change : Database → Except Fault Database) : s.locked change ≠ .ok .blocked := by
  unfold locked
  rw [if_pos free]
  intro same
  obtain ⟨db,-,⟨⟩⟩ := Runs.map_ok.mp same
theorem flushed_free (free : s.readers = 0) (change : α → Database → Except Fault Database)
    (r : Except Stop (α × Flush)) : s.flushed change r ≠ .ok .blocked := by
  rcases r with (⟨op,f⟩ | e) | ⟨a,f⟩
  · intro same
    cases same
  · intro same
    cases same
  · exact locked_free (s := s.after f s.readers) free (change a)
theorem step_free (free : s.readers = 0) (faults : Nat → Option Nat) (walk : Walk) (call : System.Call) :
    step faults walk s call ≠ .ok .blocked := by
  cases call with
  | insertBlob hash blob => exact locked_free free fun db => db.insertBlob hash blob
  | insertNode hash n => exact locked_free free fun db => db.insertNode hash n
  | insertPreimage hash preimage => exact locked_free free fun db => .ok (db.insertPreimage hash preimage)
  | reference child parent =>
    intro same
    obtain ⟨db,-,⟨⟩⟩ := Runs.map_ok.mp same
  | dereference root =>
    simp only [step]
    split
    · intro same
      cases same
    · exact locked_free free _
  | cap limit =>
    simp only [step,cap_eq]
    exact flushed_free free _ _
  | commit node =>
    simp only [step,commit_eq]
    split
    · intro same
      cases same
    · exact flushed_free free _ _

/-- A flush without failures depends on the memory alone, and covers what a failed one has written. -/
theorem flushed_retry {s' : System} {written : List (Bytes × Bytes)}
    (change : α → Database → Except Fault Database) (sameDb : s'.db = s.db) (sameReaders : s'.readers = s.readers)
    (disk : s'.disk = stored s.disk written)
    (covered : ∀ a, plan.result = .ok a → ∀ put ∈ written, put.1 ∈ (preimages ++ plan.puts).map Prod.fst) :
    (s'.flushed change (flushAll (fun _ => none) preimages plan s'.flush)).map Result.seen =
      (s.flushed change (flushAll (fun _ => none) preimages plan s.flush)).map Result.seen := by
  obtain ⟨f',done',disk'⟩ := flushAll_works (fun _ => none) preimages plan (f := s'.flush) ⟨rfl,rfl⟩ (fun _ _ => rfl)
  obtain ⟨f,done,disk₀⟩ := flushAll_works (fun _ => none) preimages plan (f := s.flush) ⟨rfl,rfl⟩ (fun _ _ => rfl)
  rw [done',done]
  cases ends : plan.result with
  | error e => rfl
  | ok a =>
    have same : f'.disk = f.disk := by
      rw [disk',disk₀]
      change stored s'.disk _ = stored s.disk _
      rw [disk]
      exact stored_again s.disk (covered a ends)
    change ((s'.after f' s'.readers).locked (change a)).map Result.seen = ((s.after f s.readers).locked (change a)).map Result.seen
    by_cases free : s.readers = 0
    · have free' : s'.readers = 0 := sameReaders.trans free
      rw [locked,locked,if_pos (by exact free'),if_pos (by exact free)]
      change ((change a s'.db).map fun db => Result.done ⟨db,f'.disk,s'.readers,f'.count⟩).map Result.seen =
        ((change a s.db).map fun db => Result.done ⟨db,f.disk,s.readers,f.count⟩).map Result.seen
      rw [sameDb]
      cases change a s.db with
      | error e => rfl
      | ok db => simp [Except.map,Result.seen,same,sameReaders]
    · have free' : s'.readers ≠ 0 := fun isFree => free (sameReaders.symm.trans isFree)
      rw [locked,locked,if_neg (by exact free'),if_neg (by exact free)]
theorem commit_works (s : System) (walk : Walk) (node : Hash) : s.commit (fun _ => none) walk node =
    s.flushed (commitChange walk node) (flushAll (fun _ => none) (commitPreimages walk s.db) (commitNode walk s.db node) s.flush) := by
  obtain ⟨f,done,-⟩ := putList_works (fun _ => none) preimageLarge (commitPreimages walk s.db) (f := s.flush) (fun _ _ => rfl)
  rw [commit_eq,done]

end

/-! ### Failures -/

/-- The calls that flush. -/
inductive Flushes : System.Call → Prop
  | cap (limit : Int) : Flushes (.cap limit)
  | commit (node : Hash) : Flushes (.commit node)
/-- The batch operations of a call on this memory, in their order: first those of the loop over the preimages. -/
def loopOps (walk : Walk) (db : Database) : System.Call → List BatchOp
  | .cap _ => preimageOps (capPreimages walk db)
  | .commit _ => preimageOps (commitPreimages walk db)
  | _ => []
def callOps (walk : Walk) (db : Database) : System.Call → List BatchOp
  | .cap limit => preimageOps (capPreimages walk db) ++ entryOps (capPreimages walk db) (capPlan db limit)
  | .commit node => preimageOps (commitPreimages walk db) ++ entryOps (commitPreimages walk db) (commitNode walk db node)
  | _ => []
/-- The operation is a `Write` in the loop of `Commit` over the preimages. -/
def KeepsLock (walk : Walk) (db : Database) (call : System.Call) (i : Nat) : Prop :=
  (∃ node, call = .commit node) ∧ (loopOps walk db call)[i]? = some .write
variable {α : Type} {i part : Nat}

section
variable {faults : Nat → Option Nat} {walk : Walk} {s : System}

/-- The memory after a failed flush, and how the disk has changed. -/
theorem flushed_fails {plan : Plan α} (change : α → Database → Except Fault Database)
    (inside : i < (preimageOps preimages ++ entryOps preimages plan).length) (fails : faults (s.count + i) = some part)
    (before : ∀ j < i, faults (s.count + j) = none) : ∃ s', s.flushed change (flushAll faults preimages plan s.flush) = .ok (.failed s') ∧
      s'.db = s.db ∧ s'.readers = s.readers ∧ ∃ written, written <+: preimages ++ plan.puts ∧ s'.disk = stored s.disk written := by
  obtain ⟨op,f',failed,written,less,disk⟩ := flushAll_fails (f := s.flush) ⟨rfl,rfl⟩ inside fails before
  exact ⟨s.after f' s.readers,by rw [failed]; rfl,rfl,rfl,written,less,disk⟩
theorem flushed_works {plan : Plan α} (change : α → Database → Except Fault Database)
    (works : ∀ j < (preimageOps preimages ++ entryOps preimages plan).length, faults (s.count + j) = none) (s' : System) :
    s.flushed change (flushAll faults preimages plan s.flush) ≠ .ok (.failed s') := by
  obtain ⟨f',done,-⟩ := flushAll_works faults preimages plan (f := s.flush) ⟨rfl,rfl⟩ works
  rw [done]
  cases plan.result with
  | error e =>
    intro same
    cases same
  | ok a =>
    intro same
    rcases locked_ok (s := s.after f' s.readers) same with ⟨_,isDone,-⟩ | blocked
    · cases isDone
    · cases blocked

/-- Only a `Write` in the loop ends it as one. -/
theorem write_keeps {node : Hash} {f : Flush}
    (failed : putList faults preimageLarge (commitPreimages walk s.db) s.flush = .error (.failed .write f))
    (fails : faults (s.count + i) = some part) (before : ∀ j < i, faults (s.count + j) = none) :
    KeepsLock walk s.db (.commit node) i := by
  refine ⟨⟨node,rfl⟩,?_⟩
  by_cases early : i < (preimageOps (commitPreimages walk s.db)).length
  · obtain ⟨op,f',failed',isOp,-⟩ := putList_fails preimageLarge (commitPreimages walk s.db) (f := s.flush) early fails before
    rw [failed] at failed'
    cases failed'
    exact isOp
  · obtain ⟨f',done,-⟩ := putList_works faults preimageLarge (commitPreimages walk s.db) (f := s.flush)
      (fun j less => before j (less.trans_le (not_lt.mp early)))
    rw [failed] at done
    cases done

/-- For every memory and every point at which an operation of a flush fails, the call
    returns the error with the memory unchanged. The lock is given back, so that every
    call can go on and a retry persists the same, unless it is the `Write` of `Commit`
    in the loop over the preimages. If no operation fails the call does not. -/
theorem failed_flush (s : System) (walk : Walk) (faults : Nat → Option Nat) (call : System.Call) (flushes : Flushes call) :
    ((∀ i < (callOps walk s.db call).length, faults (s.count + i) = none) →
      ∀ s', System.step faults walk s call ≠ .ok (.failed s')) ∧
    ∀ i < (callOps walk s.db call).length, (∀ j < i, faults (s.count + j) = none) → faults (s.count + i) ≠ none →
      ∃ s', System.step faults walk s call = .ok (.failed s') ∧ s'.db = s.db ∧
        (Harmless s s' call ↔ ¬ KeepsLock walk s.db call i) := by
  cases flushes with
  | cap limit =>
    simp only [step,cap_eq,callOps]
    refine ⟨fun works => flushed_works _ works,?_⟩
    intro i inside before fails
    obtain ⟨part,fails⟩ := ne_none_iff_exists'.mp fails
    obtain ⟨s',failed,sameDb,released,written,less,disk⟩ := flushed_fails capChange inside fails before
    refine ⟨s',failed,sameDb,?_⟩
    have free : ¬ KeepsLock walk s.db (.cap limit) i := by
      rintro ⟨⟨node,same⟩,-⟩
      cases same
    refine iff_of_true ⟨released,?_,?_⟩ free
    · intro noReaders
      exact step_free (released.trans noReaders)
    · intro walk'
      simp only [step,cap_eq,sameDb]
      refine flushed_retry capChange sameDb released disk ?_
      intro a _ put member
      refine mem_map_of_mem ?_
      rcases mem_append.mp (less.subset member) with inPreimages | inEntries
      · refine mem_append_left _ ?_
        unfold capPreimages at inPreimages ⊢
        by_cases many : 4*1024*1024 < s.db.preimagesSize
        · rw [if_pos many] at inPreimages ⊢
          exact preimagePuts_keys walk walk' _ inPreimages
        · rw [if_neg many] at inPreimages
          cases inPreimages
      · exact mem_append_right _ inEntries
  | commit node =>
    simp only [step,commit_eq,callOps]
    constructor
    · intro works s'
      obtain ⟨f',done,-⟩ := putList_works faults preimageLarge (commitPreimages walk s.db) (f := s.flush)
        (fun j less => works j (by rw [length_append]; exact Nat.lt_add_right _ less))
      rw [done]
      exact flushed_works _ works s'
    intro i inside before fails
    obtain ⟨part,fails⟩ := ne_none_iff_exists'.mp fails
    by_cases keeps : KeepsLock walk s.db (.commit node) i
    · obtain ⟨-,isWrite⟩ := keeps
      obtain ⟨early,-⟩ := List.getElem?_eq_some_iff.mp isWrite
      obtain ⟨op,f',failed,isOp,-⟩ := putList_fails preimageLarge (commitPreimages walk s.db) (f := s.flush) early fails before
      obtain rfl := some.inj (isOp.symm.trans isWrite)
      refine ⟨s.after f' (s.readers+1),by rw [failed],rfl,?_⟩
      refine iff_of_false (fun harmless => ?_) (fun free => free ⟨⟨node,rfl⟩,isWrite⟩)
      exact absurd harmless.released (Nat.succ_ne_self _)
    · obtain ⟨s',failed,sameDb,released,written,less,disk⟩ := flushed_fails (commitChange walk node) inside fails before
      refine ⟨s',?_,sameDb,iff_of_true ⟨released,?_,?_⟩ keeps⟩
      · rw [← failed]
        cases loop : putList faults preimageLarge (commitPreimages walk s.db) s.flush with
        | ok f => rfl
        | error e =>
          cases e with
          | fault e => rfl
          | failed op f =>
            cases op with
            | put => rfl
            | write => exact absurd (write_keeps loop fails before) keeps
      · intro noReaders
        exact step_free (released.trans noReaders)
      · intro walk'
        simp only [step,commit_works,sameDb]
        refine flushed_retry (commitChange walk' node) sameDb released disk ?_
        intro a ends put member
        refine mem_map_of_mem ?_
        rcases mem_append.mp (less.subset member) with inPreimages | inEntries
        · exact mem_append_left _ (preimagePuts_keys walk walk' _ inPreimages)
        · exact mem_append_right _ (commitPlan_puts walk walk' ends inEntries)

end

/-- Maps that are walked in the order of their entries. -/
def inOrder : Walk where
  children _ m := m.keys
  preimages m := m.entries.map fun entry => (entry.1,entry.2)
  isChildren _ _ := List.Perm.refl _
  isPreimages _ := List.Perm.refl _
/-- One operation fails, and a failed `Write` has written nothing. -/
def failsAt (n : Nat) (i : Nat) : Option Nat := if i = n then some 0 else none
def sampleHash : Hash := ⟨List.replicate 31 0 ++ [1],rfl⟩
/-- A database with one blob in memory. -/
def oneBlob : Database := ⟨AList.insert sampleHash ⟨.raw [1,2,3],3,0,∅,Hash.zero,Hash.zero⟩ (AList.insert Hash.zero metaRoot ∅),
  sampleHash,sampleHash,∅,35,0⟩

/-- The last `Write` of `Cap` fails, and all is well. -/
theorem failed_flush_cap : newDatabase.insertBlob sampleHash [1,2,3] = .ok oneBlob ∧
    ∃ s', System.step (failsAt 1) inOrder ⟨oneBlob,fun _ => none,0,0⟩ (.cap 0) = .ok (.failed s') ∧ s'.db = oneBlob ∧
      Harmless ⟨oneBlob,fun _ => none,0,0⟩ s' (.cap 0) := by
  refine ⟨rfl,?_⟩
  have ops : callOps inOrder oneBlob (.cap 0) = [.put,.write] := by decide
  obtain ⟨-,points⟩ := failed_flush ⟨oneBlob,fun _ => none,0,0⟩ inOrder (failsAt 1) (.cap 0) (.cap 0)
  obtain ⟨s',failed,sameDb,harmless⟩ := points 1 (by rw [ops]; decide) (by decide) (by decide)
  refine ⟨s',failed,sameDb,harmless.mpr ?_⟩
  rintro ⟨⟨node,same⟩,-⟩
  cases same

/-- A preimage that is large enough is written out in the loop; here the `Write` fails. -/
theorem large_preimage (hash node : Hash) {preimage : Bytes} (large : idealBatchSize < 0 + preimage.length) :
    step (failsAt 1) inOrder ⟨newDatabase.insertPreimage hash preimage,fun _ => none,0,0⟩ (.commit node) =
      .ok (.failed ⟨newDatabase.insertPreimage hash preimage,fun _ => none,1,2⟩) := by
  have loop : putPreimages (failsAt 1) [(hash,preimage)] ⟨fun _ => none,[],0,0⟩ =
      .error (.failed .write ⟨fun _ => none,[(secureKey hash,preimage)],0 + preimage.length,2⟩) := by
    rw [putPreimages,put_works (by rfl)]
    simp only [Flush.writeIf,large,decide_true,if_true]
    rfl
  have walked : inOrder.preimages (newDatabase.insertPreimage hash preimage).preimages = [(hash,preimage)] := rfl
  simp [step,System.commit,walked,flush,loop,System.after]
/-- A preimage of more than 100 KiB is written out in the loop of `Commit`. If that
    `Write` fails the read lock is kept, and no later insertion ever returns. -/
theorem lock_is_kept :
    ∃ s', System.step (failsAt 1) inOrder ⟨newDatabase.insertPreimage sampleHash (List.replicate 102401 0),fun _ => none,0,0⟩
        (.commit sampleHash) = .ok (.failed s') ∧ s'.readers = 1 ∧
      ∀ faults walk hash blob, System.step faults walk s' (.insertBlob hash blob) = .ok .blocked := by
  have large : idealBatchSize < 0 + (replicate 102401 (0 : UInt8)).length := by
    rw [length_replicate]
    decide
  exact ⟨_,large_preimage sampleHash sampleHash large,rfl,fun _ _ _ _ => rfl⟩

end Canchain.TrieDatabase
