import Canchain.TrieDatabase

/-!
The loops of `Cap` and `Commit` put a list of pairs into the batch, which depends on the
memory alone (`Plan`), and write the batch out when it is large. So there is one loop to reason
about, `putList`, and a failing operation leaves a prefix of the pairs on the disk.
-/
namespace Canchain.TrieDatabase
open Rlp Common TrieNode List Function Prod

theorem stored_append (disk : Bytes → Option Bytes) (puts more : List (Bytes × Bytes)) :
    stored disk (puts ++ more) = stored (stored disk puts) more := foldl_append
variable {puts : List (Bytes × Bytes)}
variable {disk : Bytes → Option Bytes} {key : Bytes}

theorem stored_other (away : key ∉ puts.map fst) :
    stored disk puts key = disk key := by
  induction puts generalizing disk with
  | nil => rfl
  | cons put puts ih =>
    rw [map_cons,mem_cons,not_or] at away
    exact (ih away.2).trans (update_of_ne away.1 _ _)
/-- Where something is put it does not matter what was there. -/
theorem stored_congr {disk' : Bytes → Option Bytes}
    (same : key ∈ puts.map fst ∨ disk' key = disk key) : stored disk' puts key = stored disk puts key := by
  induction puts generalizing disk disk' with
  | nil => exact same.resolve_left (by simp)
  | cons put puts ih =>
    refine ih ?_
    by_cases isKey : key = put.1
    · right
      subst isKey
      simp
    · refine same.imp (fun member => ?_) (fun same => ?_)
      · rw [map_cons,mem_cons] at member
        exact member.resolve_left isKey
      · simp [update_of_ne isKey,same]
/-- What has been put before under the same keys leaves no trace. -/
theorem stored_again (disk : Bytes → Option Bytes) {before : List (Bytes × Bytes)}
    (covered : ∀ put ∈ before, put.1 ∈ puts.map fst) : stored (stored disk before) puts = stored disk puts := by
  funext key
  refine stored_congr ?_
  by_cases written : key ∈ before.map fst
  · obtain ⟨put,member,rfl⟩ := mem_map.mp written
    exact .inl (covered put member)
  · exact .inr (stored_other written)

/-! ### The loop -/

/-- `Put` of each pair, and `Write` and `Reset` when the batch is large. -/
def putList (faults : Nat → Option Nat) (large : Nat → Bool) : List (Bytes × Bytes) → Flush → Except Stop Flush
  | [], f => .ok f
  | (key,value) :: puts, f =>
    match f.put faults key value with
    | .error e => .error e
    | .ok f =>
      match f.writeIf faults (large f.valueSize) with
      | .error e => .error e
      | .ok f => putList faults large puts f
/-- The operations of the loop, for a batch of this size. -/
def putOps (large : Nat → Bool) : List (Bytes × Bytes) → Nat → List BatchOp
  | [], _ => []
  | (_,value) :: puts, size =>
    if large (size + value.length) then .put :: .write :: putOps large puts 0
    else .put :: putOps large puts (size + value.length)
/-- What the loop leaves in the batch, and its size. -/
def pending (large : Nat → Bool) : List (Bytes × Bytes) → List (Bytes × Bytes) × Nat → List (Bytes × Bytes) × Nat
  | [], batch => batch
  | (key,value) :: puts, (batch,size) =>
    if large (size + value.length) then pending large puts ([],0)
    else pending large puts (batch ++ [(key,value)],size + value.length)
variable {part i : Nat} {f'' : Flush}

section
variable {faults : Nat → Option Nat} {large : Nat → Bool} {f f' : Flush}

theorem put_works (works : faults f.count = none) (key value : Bytes) : f.put faults key value =
    .ok { f with batch := f.batch ++ [(key,value)], valueSize := f.valueSize + value.length, count := f.count+1 } := by
  simp [Flush.put,works]
theorem put_fails (fails : faults f.count = some part) (key value : Bytes) :
    f.put faults key value = .error (.failed .put { f with count := f.count+1 }) := by
  simp [Flush.put,fails]
theorem write_works (works : faults f.count = none) :
    f.write faults = .ok { f with disk := stored f.disk f.batch, count := f.count+1 } := by
  simp [Flush.write,works]
theorem write_fails (fails : faults f.count = some part) :
    f.write faults = .error (.failed .write { f with disk := stored f.disk (f.batch.take part), count := f.count+1 }) := by
  simp [Flush.write,fails]

/-- These pairs have gone into the batch, and a part of them to the disk. -/
def Wrote (puts : List (Bytes × Bytes)) (f f' : Flush) : Prop :=
  ∃ written, written ++ f'.batch = f.batch ++ puts ∧ f'.disk = stored f.disk written
/-- No more than these pairs have gone to the disk. -/
def WroteSome (puts : List (Bytes × Bytes)) (f f' : Flush) : Prop :=
  ∃ written, written <+: f.batch ++ puts ∧ f'.disk = stored f.disk written

theorem Wrote.trans {more : List (Bytes × Bytes)} (first : Wrote puts f f') (second : Wrote more f' f'') :
    Wrote (puts ++ more) f f'' := by
  obtain ⟨written,split,disk⟩ := first
  obtain ⟨written',split',disk'⟩ := second
  refine ⟨written ++ written',?_,?_⟩
  · rw [append_assoc,split',← append_assoc,split,append_assoc]
  · rw [stored_append,← disk,disk']
theorem Wrote.some {more : List (Bytes × Bytes)} (first : Wrote puts f f') (second : WroteSome more f' f'') :
    WroteSome (puts ++ more) f f'' := by
  obtain ⟨written,split,disk⟩ := first
  obtain ⟨written',⟨rest,split'⟩,disk'⟩ := second
  refine ⟨written ++ written',⟨rest,?_⟩,?_⟩
  · rw [append_assoc,split',← append_assoc,split,append_assoc]
  · rw [stored_append,← disk,disk']
theorem WroteSome.more {more : List (Bytes × Bytes)} (wrote : WroteSome puts f f') : WroteSome (puts ++ more) f f' := by
  obtain ⟨written,less,disk⟩ := wrote
  exact ⟨written,less.trans (by rw [← append_assoc]; exact prefix_append _ _),disk⟩

/-- The first of `n` operations that fails, if one does. -/
theorem first_failure (faults : Nat → Option Nat) (start n : Nat) : (∀ j < n, faults (start + j) = none) ∨
    ∃ i < n, (∃ part, faults (start + i) = some part) ∧ ∀ j < i, faults (start + j) = none := by
  by_cases works : ∀ j < n, faults (start + j) = none
  · exact .inl works
  · push Not at works
    obtain ⟨i,⟨less,fails⟩,first⟩ := Nat.findX works
    refine .inr ⟨i,less,Option.ne_none_iff_exists'.mp fails,fun j before => ?_⟩
    by_contra fails'
    exact first j before ⟨before.trans less,fails'⟩

theorem putList_works (faults : Nat → Option Nat) (large : Nat → Bool) (puts : List (Bytes × Bytes))
    (works : ∀ j < (putOps large puts f.valueSize).length, faults (f.count + j) = none) :
    ∃ f', putList faults large puts f = .ok f' ∧ f'.count = f.count + (putOps large puts f.valueSize).length ∧
      (f'.batch,f'.valueSize) = pending large puts (f.batch,f.valueSize) ∧ Wrote puts f f' := by
  induction puts generalizing f with
  | nil => exact ⟨f,rfl,rfl,rfl,[],by simp,rfl⟩
  | cons put puts ih =>
    obtain ⟨key,value⟩ := put
    simp only [putOps] at works
    have first : faults f.count = none := by
      have := works 0 (by split <;> simp)
      simpa using this
    by_cases isLarge : large (f.valueSize + value.length) = true
    · simp only [isLarge,if_true] at works
      have second : faults (f.count + 1) = none := works 1 (by simp)
      obtain ⟨f',done,count,left,wrote⟩ := ih (f := ⟨stored f.disk (f.batch ++ [(key,value)]),[],0,f.count+2⟩) (by
        intro j less
        have := works (j+2) (by simpa using less)
        rwa [show f.count + 2 + j = f.count + (j+2) by omega])
      refine ⟨f',?_,?_,?_,?_⟩
      · simp only [putList,put_works first,isLarge,Flush.writeIf,if_true]
        rw [write_works (by exact second)]
        exact done
      · simp only [putOps,isLarge,if_true,count,length_cons]
        omega
      · simp [pending,isLarge,left]
      · have here : Wrote [(key,value)] f ⟨stored f.disk (f.batch ++ [(key,value)]),[],0,f.count+2⟩ := ⟨_,by simp,rfl⟩
        exact here.trans wrote
    · simp only [isLarge,if_false,Bool.false_eq_true] at works
      obtain ⟨f',done,count,left,wrote⟩ := ih (f := ⟨f.disk,f.batch ++ [(key,value)],f.valueSize + value.length,f.count+1⟩) (by
        intro j less
        have := works (j+1) (by simpa using less)
        rwa [show f.count + 1 + j = f.count + (j+1) by omega])
      refine ⟨f',?_,?_,?_,?_⟩
      · simp only [putList,put_works first,isLarge,Flush.writeIf,if_false,Bool.false_eq_true]
        exact done
      · simp only [putOps,isLarge,if_false,Bool.false_eq_true,count,length_cons]
        omega
      · simp [pending,isLarge,left]
      · have here : Wrote [(key,value)] f ⟨f.disk,f.batch ++ [(key,value)],f.valueSize + value.length,f.count+1⟩ := ⟨[],by simp,rfl⟩
        exact here.trans wrote
theorem putList_fails (large : Nat → Bool) (puts : List (Bytes × Bytes)) (inside : i < (putOps large puts f.valueSize).length) (fails : faults (f.count + i) = some part)
    (before : ∀ j < i, faults (f.count + j) = none) : ∃ op f', putList faults large puts f = .error (.failed op f') ∧
      (putOps large puts f.valueSize)[i]? = some op ∧ WroteSome puts f f' := by
  induction puts generalizing f i with
  | nil => cases inside
  | cons put puts ih =>
    obtain ⟨key,value⟩ := put
    cases i with
    | zero =>
      refine ⟨.put,{ f with count := f.count+1 },?_,?_,[],by simp,rfl⟩
      · simp [putList,put_fails (f := f) fails]
      · simp only [putOps]
        split <;> rfl
    | succ i =>
      have first : faults f.count = none := before 0 (by omega)
      by_cases isLarge : large (f.valueSize + value.length) = true
      · simp only [putOps,isLarge,if_true] at inside ⊢
        cases i with
        | zero =>
          refine ⟨.write,⟨stored f.disk ((f.batch ++ [(key,value)]).take part),f.batch ++ [(key,value)],
            f.valueSize + value.length,f.count+2⟩,?_,rfl,?_⟩
          · simp only [putList,put_works first,isLarge,Flush.writeIf,if_true]
            rw [write_fails (by exact fails)]
          · refine ⟨_,( take_prefix _ _).trans ?_,rfl⟩
            exact ⟨puts,by simp⟩
        | succ i =>
          have second : faults (f.count + 1) = none := before 1 (by omega)
          have shift : ∀ j, f.count + 2 + j = f.count + (j+2) := by omega
          obtain ⟨op,f',failed,isOp,wrote⟩ := ih (f := ⟨stored f.disk (f.batch ++ [(key,value)]),[],0,f.count+2⟩) (i := i)
            (by simpa using inside) (by rw [shift]; exact fails) (fun j less => by rw [shift]; exact before (j+2) (by omega))
          refine ⟨op,f',?_,by simpa using isOp,?_⟩
          · simp only [putList,put_works first,isLarge,Flush.writeIf,if_true]
            rw [write_works (by exact second)]
            exact failed
          · have here : Wrote [(key,value)] f ⟨stored f.disk (f.batch ++ [(key,value)]),[],0,f.count+2⟩ := ⟨_,by simp,rfl⟩
            exact here.some wrote
      · simp only [putOps,isLarge,if_false,Bool.false_eq_true] at inside ⊢
        have shift : ∀ j, f.count + 1 + j = f.count + (j+1) := by omega
        obtain ⟨op,f',failed,isOp,wrote⟩ := ih (f := ⟨f.disk,f.batch ++ [(key,value)],f.valueSize + value.length,f.count+1⟩)
          (i := i) (by simpa using inside) (by rw [shift]; exact fails) (fun j less => by rw [shift]; exact before (j+1) (by omega))
        refine ⟨op,f',?_,by simpa using isOp,?_⟩
        · simp only [putList,put_works first,isLarge,Flush.writeIf,if_false,Bool.false_eq_true]
          exact failed
        · have here : Wrote [(key,value)] f ⟨f.disk,f.batch ++ [(key,value)],f.valueSize + value.length,f.count+1⟩ := ⟨[],by simp,rfl⟩
          exact here.some wrote

theorem putList_append (more : List (Bytes × Bytes)) (f : Flush) : putList faults large (puts ++ more) f =
    match putList faults large puts f with
    | .error e => .error e
    | .ok f => putList faults large more f := by
  induction puts generalizing f with
  | nil => rfl
  | cons put puts ih =>
    obtain ⟨key,value⟩ := put
    simp only [cons_append,putList]
    split
    · rfl
    split
    · rfl
    exact ih _
theorem putList_single (key value : Bytes) (f : Flush) : putList faults large [(key,value)] f =
    match f.put faults key value with
    | .error e => .error e
    | .ok f => f.writeIf faults (large f.valueSize) := by
  simp only [putList]
  split
  · rfl
  split <;> simp_all

end

/-! ### What is put -/

/-- The pairs a loop puts into the batch, and how it ends when all of them are there. -/
structure Plan (α : Type) where
  puts : List (Bytes × Bytes)
  result : Except Fault α
variable {f : Flush}

section
variable {α β : Type} (faults : Nat → Option Nat) (large : Nat → Bool)

def Plan.run (plan : Plan α) (f : Flush) : Except Stop (α × Flush) :=
  match putList faults large plan.puts f with
  | .error e => .error e
  | .ok f =>
    match plan.result with
    | .error e => .error (.fault e)
    | .ok a => .ok (a,f)
def Plan.andThen (plan : Plan α) (next : α → Plan β) : Plan β :=
  match plan.result with
  | .error e => ⟨plan.puts,.error e⟩
  | .ok a => ⟨plan.puts ++ (next a).puts,(next a).result⟩
theorem Plan.run_andThen (plan : Plan α) (next : α → Plan β) (f : Flush) : (plan.andThen next).run faults large f =
    match plan.run faults large f with
    | .error e => .error e
    | .ok (a,f) => (next a).run faults large f := by
  unfold Plan.andThen Plan.run
  cases plan.result with
  | error e =>
    simp only
    split <;> rfl
  | ok a =>
    simp only [putList_append]
    cases putList faults large plan.puts f with
    | error e => rfl
    | ok f => rfl

variable {faults large}

theorem Plan.run_works (faults : Nat → Option Nat) (large : Nat → Bool) (plan : Plan α)
    (works : ∀ j < (putOps large plan.puts f.valueSize).length, faults (f.count + j) = none) :
    ∃ f', (plan.run faults large f = match plan.result with
        | .error e => .error (.fault e)
        | .ok a => .ok (a,f')) ∧
      f'.count = f.count + (putOps large plan.puts f.valueSize).length ∧ Wrote plan.puts f f' := by
  obtain ⟨f',done,count,-,wrote⟩ := putList_works faults large plan.puts works
  exact ⟨f',by simp [Plan.run,done],count,wrote⟩
theorem Plan.run_fails {plan : Plan α} (inside : i < (putOps large plan.puts f.valueSize).length)
    (fails : faults (f.count + i) = some part) (before : ∀ j < i, faults (f.count + j) = none) :
    ∃ op f', plan.run faults large f = .error (.failed op f') ∧ WroteSome plan.puts f f' := by
  obtain ⟨op,f',failed,-,wrote⟩ := putList_fails large plan.puts inside fails before
  exact ⟨op,f',by simp [Plan.run,failed],wrote⟩

end

def preimageLarge (size : Nat) : Bool := decide (idealBatchSize < size)
def entryLarge (size : Nat) : Bool := decide (idealBatchSize ≤ size)
def preimagePuts (preimages : List (Hash × Bytes)) : List (Bytes × Bytes) := preimages.map fun entry => (secureKey entry.1,entry.2)
variable (faults : Nat → Option Nat)
theorem putPreimages_eq (preimages : List (Hash × Bytes)) (f : Flush) :
    putPreimages faults preimages f = putList faults preimageLarge (preimagePuts preimages) f := by
  induction preimages generalizing f with
  | nil => rfl
  | cons entry preimages ih =>
    obtain ⟨hash,preimage⟩ := entry
    simp only [putPreimages,ih]
    rfl

def entryPlan (hash : Hash) (node : CachedNode) : Plan Unit :=
  match node.rlp with
  | .error e => ⟨[],.error e⟩
  | .ok blob => ⟨[(hash.bytes,blob)],.ok ()⟩
theorem putEntry_eq (hash : Hash) (node : CachedNode) (f : Flush) :
    putEntry faults hash node f = ((entryPlan hash node).run faults entryLarge f).map snd := by
  unfold putEntry entryPlan Plan.run
  cases node.rlp with
  | error e => rfl
  | ok blob =>
    simp only [putList_single]
    cases f.put faults hash.bytes blob with
    | error e => rfl
    | ok f =>
      simp only [entryLarge]
      cases f.writeIf faults (decide (idealBatchSize ≤ f.valueSize)) with
      | error e => rfl
      | ok f => rfl

/-- The entries that `Cap` flushes, and where it stops. -/
def flushPlan (db : Database) (limit : Int) : Nat → Int → Hash → Plan Hash
  | 0, _, _ => ⟨[],.error .outOfFuel⟩
  | fuel+1, size, oldest =>
    if limit < size ∧ oldest ≠ Hash.zero then
      match db.dirties.lookup oldest with
      | none => ⟨[],.error .nilDereference⟩
      | some node => (entryPlan oldest node).andThen fun _ =>
          flushPlan db limit fuel (float64 (size - (96 + node.size.toNat : Nat))) node.flushNext
    else ⟨[],.ok oldest⟩
theorem flushList_eq (db : Database) (limit : Int) (fuel : Nat) (size : Int) (oldest : Hash) (f : Flush) :
    flushList faults db limit fuel size oldest f = (flushPlan db limit fuel size oldest).run faults entryLarge f := by
  induction fuel generalizing size oldest f with
  | zero => rfl
  | succ fuel ih =>
    unfold flushList flushPlan
    split
    · cases db.dirties.lookup oldest with
      | none => rfl
      | some node =>
        simp only [putEntry_eq,Plan.run_andThen]
        cases (entryPlan oldest node).run faults entryLarge f with
        | error e => rfl
        | ok done => exact ih _ _ _
    · rfl

/-- The plans of these hashes, one after the other. -/
def allPlans (plan : Hash → Plan Unit) : List Hash → Plan Unit
  | [] => ⟨[],.ok ()⟩
  | hash :: hashes => (plan hash).andThen fun _ => allPlans plan hashes
theorem putAll_eq {faults : Nat → Option Nat} {g : Hash → Flush → Except Stop Flush} {plan : Hash → Plan Unit}
    (same : ∀ hash f, g hash f = ((plan hash).run faults entryLarge f).map snd) (hashes : List Hash) (f : Flush) :
    putAll g hashes f = ((allPlans plan hashes).run faults entryLarge f).map snd := by
  induction hashes generalizing f with
  | nil => rfl
  | cons hash hashes ih =>
    simp only [putAll,allPlans,same,Plan.run_andThen]
    cases (plan hash).run faults entryLarge f with
    | error e => rfl
    | ok done => exact ih _
/-- The entries that `Commit` flushes, children first. -/
def commitPlan (walk : Walk) (db : Database) : Nat → Hash → Plan Unit
  | 0, _ => ⟨[],.error .outOfFuel⟩
  | fuel+1, hash =>
    match db.dirties.lookup hash with
    | none => ⟨[],.ok ()⟩
    | some node => (allPlans (commitPlan walk db fuel) (node.childs walk hash)).andThen fun _ => entryPlan hash node
theorem commitFrom_eq (walk : Walk) (db : Database) (fuel : Nat) (hash : Hash) (f : Flush) :
    commitFrom faults walk db fuel hash f = ((commitPlan walk db fuel hash).run faults entryLarge f).map snd := by
  induction fuel generalizing hash f with
  | zero => rfl
  | succ fuel ih =>
    unfold commitFrom commitPlan
    cases db.dirties.lookup hash with
    | none => rfl
    | some node =>
      simp only [putAll_eq ih,Plan.run_andThen,putEntry_eq]
      cases (allPlans (commitPlan walk db fuel) (node.childs walk hash)).run faults entryLarge f with
      | error e => rfl
      | ok done => rfl

section
variable {α : Type}

/-- The part of `Cap` and `Commit` under the read lock: preimages, entries and the last `Write`. -/
def flushAll (faults : Nat → Option Nat) (preimages : List (Bytes × Bytes)) (plan : Plan α) (f : Flush) : Except Stop (α × Flush) :=
  match putList faults preimageLarge preimages f with
  | .error e => .error e
  | .ok f =>
    match plan.run faults entryLarge f with
    | .error e => .error e
    | .ok (a,f) =>
      match f.write faults with
      | .error e => .error e
      | .ok f => .ok (a,f)
/-- The operations on an empty batch: those of the loop over the preimages, and the others. -/
def preimageOps (preimages : List (Bytes × Bytes)) : List BatchOp := putOps preimageLarge preimages 0
def entryOps (preimages : List (Bytes × Bytes)) (plan : Plan α) : List BatchOp :=
  putOps entryLarge plan.puts (pending preimageLarge preimages ([],0)).2 ++
    match plan.result with
    | .error _ => []
    | .ok _ => [.write]

variable {faults : Nat → Option Nat} {preimages : List (Bytes × Bytes)} {plan : Plan α} {f' : Flush}

theorem flushAll_works (faults : Nat → Option Nat) (preimages : List (Bytes × Bytes)) (plan : Plan α) (empty : f.batch = [] ∧ f.valueSize = 0)
    (works : ∀ j < (preimageOps preimages ++ entryOps preimages plan).length, faults (f.count + j) = none) :
    ∃ f', (flushAll faults preimages plan f = match plan.result with
        | .error e => .error (.fault e)
        | .ok a => .ok (a,f')) ∧ f'.disk = stored f.disk (preimages ++ plan.puts) := by
  obtain ⟨noBatch,noSize⟩ := empty
  simp only [preimageOps,entryOps,length_append] at works
  obtain ⟨f₁,done₁,count₁,left,wrote₁⟩ := putList_works faults preimageLarge preimages (f := f)
    (fun j less => works j (by rw [noSize] at less; omega))
  have size₁ : f₁.valueSize = (pending preimageLarge preimages ([],0)).2 := by rw [← noBatch,← noSize,← left]
  rw [noSize] at count₁
  obtain ⟨f₂,done₂,count₂,wrote₂⟩ := Plan.run_works faults entryLarge plan (f := f₁) (by
    intro j less
    rw [size₁] at less
    rw [count₁,Nat.add_assoc]
    exact works _ (by omega))
  rw [size₁] at count₂
  obtain ⟨written,split,disk⟩ := wrote₁.trans wrote₂
  rw [noBatch,nil_append] at split
  simp only [flushAll,done₁,done₂]
  cases ends : plan.result with
  | error e => exact ⟨{ f₂ with disk := stored f.disk (preimages ++ plan.puts) },rfl,rfl⟩
  | ok a =>
    rw [ends] at works
    have last : faults f₂.count = none := by
      rw [count₂,count₁,Nat.add_assoc]
      exact works _ (by simp)
    refine ⟨{ f₂ with disk := stored f₂.disk f₂.batch, count := f₂.count+1 },by simp [write_works last],?_⟩
    change stored f₂.disk f₂.batch = _
    rw [disk,← stored_append,split]
theorem flushAll_fails (empty : f.batch = [] ∧ f.valueSize = 0)
    (inside : i < (preimageOps preimages ++ entryOps preimages plan).length) (fails : faults (f.count + i) = some part)
    (before : ∀ j < i, faults (f.count + j) = none) :
    ∃ op f', flushAll faults preimages plan f = .error (.failed op f') ∧
      ∃ written, written <+: preimages ++ plan.puts ∧ f'.disk = stored f.disk written := by
  obtain ⟨noBatch,noSize⟩ := empty
  have some_ : ∀ f', WroteSome (preimages ++ plan.puts) f f' →
      ∃ written, written <+: preimages ++ plan.puts ∧ f'.disk = stored f.disk written := by
    rintro f' ⟨written,less,disk⟩
    rw [noBatch] at less
    exact ⟨written,less,disk⟩
  by_cases early : i < (preimageOps preimages).length
  · obtain ⟨op,f',failed,-,wrote⟩ := putList_fails preimageLarge preimages (f := f)
      (by rw [noSize]; exact early) fails before
    exact ⟨op,f',by simp [flushAll,failed],some_ f' wrote.more⟩
  rw [preimageOps] at early
  simp only [preimageOps,entryOps,length_append] at inside
  obtain ⟨f₁,done₁,count₁,left,wrote₁⟩ := putList_works faults preimageLarge preimages (f := f)
    (fun j less => before j (by rw [noSize] at less; omega))
  have size₁ : f₁.valueSize = (pending preimageLarge preimages ([],0)).2 := by rw [← noBatch,← noSize,← left]
  rw [noSize] at count₁
  have shift : ∀ j, f₁.count + j = f.count + ((putOps preimageLarge preimages 0).length + j) := by omega
  obtain ⟨k,isK⟩ : ∃ k, i = (putOps preimageLarge preimages 0).length + k := ⟨_,(Nat.add_sub_of_le (by omega)).symm⟩
  have fails' : faults (f₁.count + k) = some part := by rw [shift,← isK,fails]
  have before' : ∀ j < k, faults (f₁.count + j) = none := by
    intro j less
    rw [shift]
    exact before _ (by omega)
  by_cases middle : k < (putOps entryLarge plan.puts f₁.valueSize).length
  · obtain ⟨op,f',failed,wrote⟩ := Plan.run_fails middle fails' before'
    exact ⟨op,f',by simp [flushAll,done₁,failed],some_ f' (wrote₁.some wrote)⟩
  obtain ⟨f₂,done₂,count₂,wrote₂⟩ := Plan.run_works faults entryLarge plan (f := f₁)
    (fun j less => before' j (by omega))
  rw [size₁] at count₂ middle
  simp only [flushAll,done₁,done₂]
  cases ends : plan.result with
  | error e =>
    rw [ends] at inside
    simp only [length_nil] at inside
    omega
  | ok a =>
    rw [ends] at inside
    simp only [length_singleton] at inside
    have last : faults f₂.count = some part := by
      rw [← fails']
      congr 1
      omega
    refine ⟨.write,{ f₂ with disk := stored f₂.disk (f₂.batch.take part), count := f₂.count+1 },by simp [write_fails last],?_⟩
    have partly : WroteSome [] f₂ { f₂ with disk := stored f₂.disk (f₂.batch.take part), count := f₂.count+1 } :=
      ⟨_,by simpa using take_prefix part f₂.batch,rfl⟩
    have wrote := (wrote₁.trans wrote₂).some partly
    rw [append_nil] at wrote
    exact some_ _ wrote

end

end Canchain.TrieDatabase
