import Canchain.StateView

/-!
The account state with its journal does what the world with its copies does. Every command is
a chain of changes; reverting takes the entries back one by one. So a command on the state is
the command on the world (`exec_follows`), whatever is cached.
-/
namespace Canchain.StateRefines
open Rlp Common State Worlds StateView Function StateDB Option
open Undo

section
variable {keccak : Bytes → Hash} {db : Database} {o o' : StateObject} {e : Entry}
variable {s s' : StateDB} {addr : Address} {w : World}

/-! ### Commands -/

theorem acctOf_emptyObject (addr : Address) : acctOf keccak db (emptyObject keccak addr) = Acct.new keccak db := by
  have slot (key : Hash) : slotOf keccak Secure.empty key = Hash.zero := by simp [slotOf,StateObject.decodeSlot]
  have opened : db.openTrie Hash.zero = some Secure.empty := by simp [Database.openTrie]
  refine Acct.ext rfl rfl rfl ?_ rfl rfl (funext fun key => ?_) (funext fun key => ?_)
  · simp [acctOf,codeAt,emptyObject,newObject,Acct.new]
  · simp [acctOf,stateAt,committedAt,trieOf,emptyObject,newObject,Acct.new,slot,opened]
  · simp [acctOf,committedAt,trieOf,emptyObject,newObject,Acct.new,slot,opened]

theorem getStateObject_changes (s : StateDB) (addr : Address) : Changes keccak s [] (s.getStateObject keccak addr).2 := by
  rw [getStateObject_state]
  split
  · rename_i absent loaded
    exact .single (.cache ((find_uncached absent).trans loaded) (.refl _))
  · exact .refl
theorem view_of_nil (objects : Objects keccak s) (changes : Changes keccak s [] s') : view keccak s' = view keccak s :=
  (changes.undone objects).1
theorem find_getStateObject (s : StateDB) (addr a : Address) :
    find keccak (s.getStateObject keccak addr).2 a = find keccak s a := by
  rw [getStateObject_state]
  split
  · rename_i o absent loaded
    obtain ⟨data,rfl⟩ := load_fresh loaded
    rw [find_setStateObject rfl]
    by_cases same : a = addr
    · subst same
      rw [find_uncached absent,loaded]
      simp [newObject]
    · simp [newObject,same]
  · rfl
variable {α : Type} {f : StateObject → StateObject}
/-- A read gives what the view has. -/
theorem read_shown (addr : Address) (absent : α) {f : StateObject → α × StateObject} {g : Acct → α}
    (value : ∀ o, (f o).1 = g (acctOf keccak s.db o)) :
    (s.read keccak addr absent f).1 = (((view keccak s).accounts addr).map g).getD absent := by
  show _ = (((s.getStateObject keccak addr).1.map (acctOf keccak s.db)).map g).getD absent
  unfold StateDB.read
  cases s.getStateObject keccak addr with
  | mk found s' =>
    cases found with
    | none => rfl
    | some o => exact value o
theorem getStateObject_none (absent : find keccak s addr = none) : s.getStateObject keccak addr = (none,s) := by
  cases cached : s.stateObjects addr with
  | some o =>
    rw [find_cached cached] at absent
    simp [getStateObject,cached,absent]
  | none =>
    rw [find_uncached cached] at absent
    simp [getStateObject,cached,absent]
theorem getStateObject_some (found : find keccak s addr = some o) : ∃ s', s.getStateObject keccak addr = (some o,s') ∧
    Changes keccak s [] s' ∧ s'.db = s.db ∧ find keccak s' addr = some o := by
  have changes : Changes keccak s [] _ := getStateObject_changes s addr
  exact ⟨_,Prod.ext found rfl,changes,changes.frame.1,(find_getStateObject s addr addr).trans found⟩
theorem read_changes (addr : Address) (absent : α) {f : StateObject → α × StateObject}
    (caches : ∀ o, Caches keccak s.db o (f o).2) : Changes keccak s [] (s.read keccak addr absent f).2 := by
  unfold StateDB.read
  cases found : find keccak s addr with
  | none =>
    rw [getStateObject_none found]
    exact .refl
  | some o =>
    obtain ⟨s',got,changes,db,found'⟩ := getStateObject_some found
    rw [got]
    exact changes.trans (.single (.cache found' (db ▸ caches o)))

/-- The object that a setter works on. -/
theorem getOrNewStateObject_spec (objects : Objects keccak s) (addr : Address) :
    ∃ o s', s.getOrNewStateObject keccak addr = (o,s') ∧ (∃ es, Changes keccak s es s') ∧ s'.db = s.db ∧
      find keccak s' addr = some o ∧ acctOf keccak s.db o = ((view keccak s).accounts addr).getD (Acct.new keccak s.db) ∧
      view keccak s' = (view keccak s).set addr (acctOf keccak s.db o) := by
  cases found : find keccak s addr with
  | some o =>
    obtain ⟨s',got,changes,db,found'⟩ := getStateObject_some found
    refine ⟨o,s',by simp [getOrNewStateObject,got],⟨_,changes⟩,db,found',?_,?_⟩
    · rw [view_accounts found]
      rfl
    · rw [view_of_nil objects changes,set_self (view_accounts found)]
  | none =>
    have got := getStateObject_none found
    refine ⟨emptyObject keccak addr,_,?_,⟨_,.single (.create found)⟩,rfl,?_,?_,?_⟩
    · simp [getOrNewStateObject,createObject,got]
    · rw [find_setStateObject rfl]
      exact if_pos rfl
    · rw [view_absent found,acctOf_emptyObject]
      rfl
    · exact view_record rfl _

variable (keccak) in
/-- A setter: a chain of changes, after which the account is changed. -/
def Sets (s s' : StateDB) (addr : Address) (f : Acct → Acct) : Prop :=
  (∃ es, Changes keccak s es s') ∧ view keccak s' = (view keccak s).change keccak addr f

variable (objects : Objects keccak s)
include objects
theorem sets_of_put {s₁ : StateDB} {f : Acct → Acct}
    (changes : ∃ es, Changes keccak s es s₁) (db : s₁.db = s.db) (found : find keccak s₁ addr = some o)
    (acct : acctOf keccak s.db o = ((view keccak s).accounts addr).getD (Acct.new keccak s.db))
    (shown : view keccak s₁ = (view keccak s).set addr (acctOf keccak s.db o)) (puts : Puts keccak s.db o e o')
    (changed : acctOf keccak s.db o' = f (acctOf keccak s.db o)) :
    Sets keccak s ((s₁.append e).setStateObject o') addr f := by
  obtain ⟨es,changes⟩ := changes
  obtain ⟨address,deleted,-,-⟩ := puts.fields
  have same := (changes.objects objects).find_address found
  refine ⟨⟨_,changes.trans (.single (.put found (db ▸ puts)))⟩,?_⟩
  rw [view_record (deleted.trans (find_deleted found)),shown,db,address,same,set_set,changed,acct]
  rfl
open StateDB

theorem addBalance_sets (addr : Address) (amount : Int) :
    Sets keccak s (s.addBalance keccak addr amount) addr fun x => { x with balance := x.balance + amount } := by
  obtain ⟨o,s₁,got,⟨es,changes⟩,db,found,acct,shown⟩ := getOrNewStateObject_spec objects addr
  unfold addBalance
  rw [got]
  by_cases zero : amount = 0
  · subst zero
    have unchanged : view keccak s₁ = (view keccak s).change keccak addr fun x => { x with balance := x.balance + 0 } := by
      rw [shown,acct]
      simp only [Int.add_zero]
      rfl
    by_cases empty : o.empty keccak = true
    · simp only [if_true,empty]
      exact ⟨⟨_,changes.trans (.single (.touch found))⟩,by rw [view_touch,unchanged]⟩
    · simp only [if_true,empty]
      exact ⟨⟨_,changes⟩,unchanged⟩
  · simp only [zero,if_false]
    exact sets_of_put objects ⟨es,changes⟩ db found acct shown (.balance _) rfl
theorem subBalance_sets (addr : Address) (amount : Int) :
    Sets keccak s (s.subBalance keccak addr amount) addr fun x => { x with balance := x.balance - amount } := by
  obtain ⟨o,s₁,got,changes,db,found,acct,shown⟩ := getOrNewStateObject_spec objects addr
  unfold subBalance
  rw [got]
  by_cases zero : amount = 0
  · subst zero
    refine ⟨changes,?_⟩
    simp only [if_true,Int.sub_zero]
    rw [shown,acct]
    rfl
  · simp only [zero,if_false]
    exact sets_of_put objects changes db found acct shown (.balance _) rfl
theorem setBalance_sets (addr : Address) (amount : Int) :
    Sets keccak s (s.setBalance keccak addr amount) addr fun x => { x with balance := amount } := by
  obtain ⟨o,s₁,got,changes,db,found,acct,shown⟩ := getOrNewStateObject_spec objects addr
  unfold setBalance
  rw [got]
  exact sets_of_put objects changes db found acct shown (.balance _) rfl
theorem setNonce_sets (addr : Address) (nonce : UInt64) :
    Sets keccak s (s.setNonce keccak addr nonce) addr fun x => { x with nonce := nonce } := by
  obtain ⟨o,s₁,got,changes,db,found,acct,shown⟩ := getOrNewStateObject_spec objects addr
  unfold setNonce
  rw [got]
  exact sets_of_put objects changes db found acct shown (.nonce _) rfl
/-- Caching in the object of a setter. -/
theorem cache_spec {s₁ : StateDB} (changes : ∃ es, Changes keccak s es s₁)
    (db : s₁.db = s.db) (found : find keccak s₁ addr = some o)
    (acct : acctOf keccak s.db o = ((view keccak s).accounts addr).getD (Acct.new keccak s.db))
    (shown : view keccak s₁ = (view keccak s).set addr (acctOf keccak s.db o)) (caches : Caches keccak s.db o o') :
    (∃ es, Changes keccak s es (s₁.setStateObject o')) ∧ find keccak (s₁.setStateObject o') addr = some o' ∧
      acctOf keccak s.db o' = ((view keccak s).accounts addr).getD (Acct.new keccak s.db) ∧
      view keccak (s₁.setStateObject o') = (view keccak s).set addr (acctOf keccak s.db o') := by
  obtain ⟨es,changes⟩ := changes
  have same := (changes.objects objects).find_address found
  have live := caches.deleted.trans (find_deleted found)
  refine ⟨⟨_,changes.trans (.single (.cache found (db ▸ caches)))⟩,?_,caches.acct.trans acct,?_⟩
  · rw [find_setStateObject live]
    exact if_pos (caches.address.trans same).symm
  · rw [view_setStateObject live,shown,db,caches.address,same,set_set]
omit objects in
/-- The object that was cached is replaced. -/
theorem append_setStateObject (s : StateDB) (e : Entry) (address : o'.address = o.address) :
    (s.append e).setStateObject o' = ((s.setStateObject o).append e).setStateObject o' := by
  simp [setStateObject,append,address]
theorem setCode_sets (addr : Address) (code : Option Bytes) :
    Sets keccak s (s.setCode keccak addr code) addr (Acct.setCode keccak s.db (keccak (code.getD [])) code) := by
  obtain ⟨o,s₁,got,changes,db,found,acct,shown⟩ := getOrNewStateObject_spec objects addr
  have caches : Caches keccak s.db o _ := loadCode_caches o
  obtain ⟨changes',found',acct',shown'⟩ := cache_spec objects changes db found acct shown caches
  have value : (o.loadCode keccak s.db).1 =
      codeAt keccak s.db (o.loadCode keccak s.db).2.data.codeHash (o.loadCode keccak s.db).2.code := by
    rw [loadCode_value]
    exact congrArg Acct.code caches.acct.symm
  unfold setCode
  rw [got]
  simp only [db]
  have address : ((o.loadCode keccak s.db).2.putCode (keccak (code.getD [])) code).address =
    (o.loadCode keccak s.db).2.address := rfl
  rw [append_setStateObject s₁ _ address,value]
  exact sets_of_put objects changes' db found' acct' shown' (.code _ code) rfl
theorem setState_sets (addr : Address) (key value : Hash) :
    Sets keccak s (s.setState keccak addr key value) addr fun x =>
      { x with storage := update x.storage key value } := by
  obtain ⟨o,s₁,got,changes,db,found,acct,shown⟩ := getOrNewStateObject_spec objects addr
  have caches : Caches keccak s.db o _ := getState_caches o key
  obtain ⟨changes',found',acct',shown'⟩ := cache_spec objects changes db found acct shown caches
  have prev : (o.getState keccak s.db key).1 = stateAt keccak s.db (o.getState keccak s.db key).2 key := by
    rw [getState_value]
    exact congrFun (congrArg Acct.storage caches.acct.symm) key
  unfold setState
  rw [got]
  simp only [db]
  by_cases same : (o.getState keccak s.db key).1 = value
  · simp only [same,if_true]
    refine ⟨changes',?_⟩
    have stays : { acctOf keccak s.db (o.getState keccak s.db key).2 with
        storage := update (acctOf keccak s.db (o.getState keccak s.db key).2).storage key value } =
        acctOf keccak s.db (o.getState keccak s.db key).2 := by
      rw [← same,prev]
      exact Acct.ext rfl rfl rfl rfl rfl rfl (update_eq_self _ _) rfl
    rw [shown',← stays,acct']
    rfl
  · simp only [same,if_false]
    have address : ((o.getState keccak s.db key).2.putState key value).address = (o.getState keccak s.db key).2.address := rfl
    rw [append_setStateObject s₁ _ address,prev]
    exact sets_of_put objects changes' db found' acct' shown' (.slot key value (getState_cached o key))
      (Acct.ext rfl rfl rfl rfl rfl rfl (stateAt_putState _ key value) rfl)
theorem createAccount_sets (addr : Address) :
    (∃ es, Changes keccak s es (s.createAccount keccak addr)) ∧ view keccak (s.createAccount keccak addr) =
      (view keccak s).set addr { Acct.new keccak s.db with
        balance := (((view keccak s).accounts addr).map Acct.balance).getD 0 } := by
  unfold createAccount createObject
  cases found : find keccak s addr with
  | none =>
    rw [getStateObject_none found]
    refine ⟨⟨_,.single (.create found)⟩,?_⟩
    show view keccak ((s.append _).setStateObject _) = _
    rw [view_record rfl,acctOf_emptyObject,view_absent found]
    rfl
  | some o =>
    obtain ⟨s₁,got,changes,db,found'⟩ := getStateObject_some found
    rw [got]
    have twice : ((s₁.append (.resetObjectChange o)).setStateObject (emptyObject keccak addr)).setStateObject
        { emptyObject keccak addr with data.balance := o.data.balance } =
        (s₁.append (.resetObjectChange o)).setStateObject (replaced keccak addr o.data.balance) := by
      simp [setStateObject,replaced]
    have shown : acctOf keccak s₁.db (replaced keccak addr o.data.balance) =
        { Acct.new keccak s₁.db with balance := o.data.balance } := by
      rw [← acctOf_emptyObject addr]
      rfl
    have reset := Change.reset found'
    rw [← twice] at reset
    refine ⟨⟨_,changes.trans (.single reset)⟩,?_⟩
    show view keccak (((s₁.append _).setStateObject _).setStateObject _) = _
    rw [twice,view_record rfl,shown,db,view_of_nil objects changes,view_accounts found]
    rfl
theorem suicide_sets (addr : Address) : (∃ es, Changes keccak s es (s.suicide keccak addr).2) ∧
      (s.suicide keccak addr).1 = ((view keccak s).accounts addr).isSome ∧
      view keccak (s.suicide keccak addr).2 = (view keccak s).modify addr fun x =>
        { x with suicided := true, balance := 0 } := by
  unfold suicide
  cases found : find keccak s addr with
  | none =>
    rw [getStateObject_none found]
    refine ⟨⟨_,.refl⟩,by rw [view_absent found]; rfl,?_⟩
    refine World.ext rfl ?_ rfl rfl rfl rfl rfl rfl rfl
    show (view keccak s).accounts = update (view keccak s).accounts addr (Option.map _ ((view keccak s).accounts addr))
    rw [view_absent found,map_none,← view_absent found,update_eq_self]
  | some o =>
    obtain ⟨s₁,got,changes,db,found'⟩ := getStateObject_some found
    obtain rfl := objects.find_address found
    rw [got]
    refine ⟨⟨_,changes.trans (.single (.put found' .suicide))⟩,by rw [view_accounts found]; rfl,?_⟩
    have live : ({ o with suicided := true, data.balance := 0 } : StateObject).deleted = false :=
      (find_deleted found : o.deleted = false)
    show view keccak ((s₁.append _).setStateObject _) = _
    rw [view_record live,view_of_nil objects changes,db]
    have before : (view keccak s).set o.address (acctOf keccak s.db o) = view keccak s := set_self (view_accounts found)
    rw [← before,modify_set,set_set]
    rfl
omit objects

/-! ### Reverting -/

/-- The object that an entry gives back; only for the entries that change an object in place. -/
def restored : Entry → Option (StateObject → StateObject)
  | .suicideChange _ prev prevbalance => some fun o => { o with suicided := prev, data.balance := prevbalance }
  | .balanceChange _ prev => some fun o => { o with data.balance := prev }
  | .nonceChange _ prev => some fun o => { o with data.nonce := prev }
  | .storageChange _ key prevalue => some fun o => o.putState key prevalue
  | .codeChange _ prevcode prevhash => some fun o => o.putCode prevhash prevcode
  | _ => none

theorem restored_fields (puts : restored e = some f) (o : StateObject) :
    (f o).address = o.address ∧ (f o).deleted = o.deleted := by
  cases e <;> simp only [restored,some.injEq,reduceCtorEq] at puts <;> subst puts <;> exact ⟨rfl,rfl⟩
theorem restored_subject (puts : restored e = some f) : ∃ a, subject e = some a := by
  cases e <;> simp only [restored,some.injEq,reduceCtorEq] at puts <;> exact ⟨_,rfl⟩
theorem getStateObject_set {x : StateObject} (address : x.address = addr) :
    (s.getStateObject keccak addr).2.setStateObject x = s.setStateObject x := by
  rw [getStateObject_state]
  split
  · rename_i o absent loaded
    obtain ⟨data,rfl⟩ := load_fresh loaded
    simp [setStateObject,address,newObject]
  · rfl
theorem revertEntry_put (objects : Objects keccak s) (puts : restored e = some f)
    (about : subject e = some addr) (found : find keccak s addr = some o) :
    s.revertEntry keccak e = .ok (s.setStateObject (f o)) := by
  have same := objects.find_address found
  have set : (s.getStateObject keccak addr).2.setStateObject (f o) = s.setStateObject (f o) :=
    getStateObject_set ((restored_fields puts o).1.trans same)
  obtain ⟨s',got,-⟩ := getStateObject_some found
  rw [got] at set
  cases e <;> simp only [restored,some.injEq,reduceCtorEq] at puts <;> cases about <;> subst puts <;>
    simp [revertEntry,onObject,got,set]
theorem acctOf_restored (puts : restored e = some f) (about : subject e = some addr) (w : World) (o : StateObject) :
    undo keccak e (w.set addr (acctOf keccak w.db o)) = w.set addr (acctOf keccak w.db (f o)) := by
  cases e with
  | suicideChange _ _ _ | balanceChange _ _ | nonceChange _ _ | codeChange _ _ _ =>
    cases about
    cases puts
    exact modify_set _ _ _ _
  | storageChange account key prevalue =>
    cases about
    cases puts
    exact (modify_set _ _ _ _).trans
      (congrArg _ (Acct.ext rfl rfl rfl rfl rfl rfl (stateAt_putState o key prevalue).symm rfl))
  | _ => cases puts
theorem fits_found (fits : CanRevert keccak s e (view keccak s)) (about : subject e = some addr) :
    ∃ o, find keccak s addr = some o := by
  have there := fits.1 addr about
  cases found : find keccak s addr with
  | some o => exact ⟨o,rfl⟩
  | none => simp [view_absent found] at there
theorem dirties_uncount (s : StateDB) (e : Entry) {a : Address} (ne : e.dirtied ≠ some a) :
    (s.uncount e).journal.dirties a = s.journal.dirties a := by
  simp only [uncount,count]
  cases dirtied : e.dirtied with
  | none => rfl
  | some b => exact update_of_ne (fun same => ne (by rw [dirtied,same])) _ _
/-- The counts change where the object is a live one. -/
theorem objects_uncount (objects : Objects keccak s) (live : ∀ a o, e.dirtied = some a → s.stateObjects a = some o →
    o.deleted = false) : Objects keccak (s.uncount e) := by
  refine ⟨objects.keyed,objects.gone,?_⟩
  intro a o there deleted
  rw [dirties_uncount]
  · exact objects.clean a o there deleted
  · intro same
    rw [live a o same there] at deleted
    cases deleted
/-- Reverting an entry that fits takes its change back. -/
theorem revertEntry_spec (objects : Objects keccak s) (fits : CanRevert keccak s e (view keccak s)) :
    ∃ s', s.revertEntry keccak e = .ok s' ∧ view keccak s' = undo keccak e (view keccak s) ∧
      Objects keccak (s'.uncount e) ∧ s'.db = s.db ∧ s'.trie = s.trie ∧ s'.journal = s.journal ∧
      s'.validRevisions = s.validRevisions ∧ s'.nextRevisionId = s.nextRevisionId := by
  cases puts : restored e with
  | some f =>
    obtain ⟨a,about⟩ := restored_subject puts
    obtain ⟨o,found⟩ := fits_found fits about
    obtain ⟨address,deleted⟩ := restored_fields puts o
    have same := objects.find_address found
    have live := deleted.trans (find_deleted found)
    have objects' : Objects keccak (s.setStateObject (f o)) := objects.put live rfl rfl fun _ _ => rfl
    refine ⟨_,revertEntry_put objects puts about found,?_,?_,rfl,rfl,rfl,rfl,rfl⟩
    · rw [view_setStateObject live,address,same]
      exact (acctOf_restored puts about (view keccak s) o).symm.trans
        (congrArg (undo keccak e) (set_self (view_accounts found)))
    · refine objects_uncount objects' fun b x dirtied there => ?_
      have here : b = (f o).address := by
        rw [address,same]
        cases e <;> cases puts <;> cases about <;> cases dirtied <;> rfl
      rw [here] at there
      simp only [setStateObject,update_self,some.injEq] at there
      rw [← there,live]
  | none =>
    cases e with
    | createObjectChange account =>
      have gone : s.load keccak account = none := fits.2
      refine ⟨_,rfl,World.ext rfl (funext fun a => ?_) rfl rfl rfl rfl rfl rfl rfl,?_,rfl,rfl,rfl,rfl,rfl⟩
      · show (find keccak _ a).map (acctOf keccak s.db) = update (view keccak s).accounts account none a
        by_cases same : a = account
        · subst same
          rw [find_uncached (by simp),update_self]
          exact congrArg _ gone
        · rw [update_of_ne same]
          exact congrArg _ (find_congr (update_of_ne same _ _) rfl)
      · have before {a : Address} {o : StateObject} (there : update s.stateObjects account none a = some o) :
            a ≠ account ∧ s.stateObjects a = some o := by
          by_cases same : a = account
          · simp [same] at there
          · exact ⟨same,by simpa [same] using there⟩
        refine ⟨fun a o there => objects.keyed a o (before there).2,fun a o there => objects.gone a o (before there).2,?_⟩
        intro a o there deleted
        rw [dirties_uncount]
        · exact objects.clean a o (before there).2 deleted
        · intro same
          cases same
          exact (before there).1 rfl
    | resetObjectChange prev =>
      have live : prev.deleted = false := fits.2
      have objects' : Objects keccak (s.setStateObject prev) := objects.put live rfl rfl fun _ _ => rfl
      refine ⟨_,rfl,view_setStateObject live,objects_uncount objects' ?_,rfl,rfl,rfl,rfl,rfl⟩
      intro a o dirtied
      cases dirtied
    | refundChange _ | addLogChange _ | addPreimageChange _ =>
      refine ⟨_,rfl,view_with rfl rfl rfl,?_,rfl,rfl,rfl,rfl,rfl⟩
      exact { objects with }
    | touchChange account =>
      obtain ⟨o,found⟩ : ∃ o, find keccak s account = some o := fits_found fits rfl
      refine ⟨s,rfl,rfl,objects_uncount objects ?_,rfl,rfl,rfl,rfl,rfl⟩
      intro a x same there
      cases same
      by_contra deleted
      rw [find_cached there] at found
      simp [deleted] at found
    | _ => cases puts
/-- Reverting entries takes their changes back, from the newest one on. -/
theorem revertEntries_spec {es : List Entry} (objects : Objects keccak s)
    (undoable : Undoable (undo keccak) (CanRevert keccak s) es (view keccak s)) :
    ∃ s', s.revertEntries keccak es = .ok s' ∧ view keccak s' = undoAll (undo keccak) es.reverse (view keccak s) ∧
      Objects keccak s' ∧ s'.db = s.db ∧ s'.trie = s.trie ∧ s'.journal.entries = s.journal.entries ∧
      s'.validRevisions = s.validRevisions ∧ s'.nextRevisionId = s.nextRevisionId := by
  induction es generalizing s with
  | nil => exact ⟨s,rfl,rfl,objects,rfl,rfl,rfl,rfl,rfl⟩
  | cons e es ih =>
    obtain ⟨fits,rest⟩ := undoable
    obtain ⟨s₁,reverted,shown,objects₁,db,trie,journal,revisions,nextId⟩ := revertEntry_spec objects fits
    have shown₁ : view keccak (s₁.uncount e) = undo keccak e (view keccak s) := by rw [view_uncount,shown]
    have trie₁ : (s₁.uncount e).trie = s.trie := trie
    rw [← fits_congr trie₁,← shown₁] at rest
    obtain ⟨s',ran,shown',objects',db',trie',entries',revisions',nextId'⟩ := ih objects₁ rest
    refine ⟨s',by simp [revertEntries,reverted,ran],?_,objects',db'.trans db,trie'.trans trie,?_,
      revisions'.trans revisions,nextId'.trans nextId⟩
    · rw [shown',shown₁,List.reverse_cons,undoAll_append,undoAll_singleton]
    · rw [entries',← journal]
      rfl

/-- Reverting to a snapshot gives the copy it made. -/
theorem revertToSnapshot_spec (sound : Sound keccak s) (revid : Nat) :
    (s.revertToSnapshot keccak revid).map (standsFor keccak) = (standsFor keccak s).revertToSnapshot revid ∧
      ∀ s', s.revertToSnapshot keccak revid = .ok s' → Sound keccak s' := by
  have index : (standsFor keccak s).saved.findIdx (fun c => c.1 ≥ revid) = s.validRevisions.findIdx (fun r => r.id ≥ revid) := by
    simp only [standsFor,copies,List.findIdx_map]
    rfl
  unfold revertToSnapshot Copies.revertToSnapshot
  simp only [index]
  cases found : s.validRevisions[s.validRevisions.findIdx (fun r => r.id ≥ revid)]? with
  | none =>
    have none : (standsFor keccak s).saved[s.validRevisions.findIdx (fun r => r.id ≥ revid)]? = none := by
      simp [standsFor,copies,found]
    simp [none,Except.map]
  | some r =>
    have saved : (standsFor keccak s).saved[s.validRevisions.findIdx (fun r => r.id ≥ revid)]? =
      some (r.id,undoAll (undo keccak) (s.journal.entries.drop r.journalIndex) (view keccak s)) := copies_getElem found
    simp only [saved]
    by_cases same : r.id ≠ revid
    · simp [same,Except.map]
    · obtain rfl : r.id = revid := not_not.mp same
      have undoable := sound.undoable
      rw [← List.take_append_drop r.journalIndex s.journal.entries,List.reverse_append,undoable_append,
        List.reverse_reverse] at undoable
      obtain ⟨s',ran,shown,objects,db,trie,entries,revisions,nextId⟩ := revertEntries_spec sound.objects undoable.1
      rw [List.reverse_reverse] at shown
      simp only [ne_eq,not_true_eq_false,if_false,ran]
      have shown' : view keccak (s'.cut r.journalIndex (s.validRevisions.findIdx fun r' => r'.id ≥ r.id)) =
          undoAll (undo keccak) (s.journal.entries.drop r.journalIndex) (view keccak s) := by rw [view_cut,shown]
      have inside := sound.ordered.inside r (List.mem_of_getElem? found)
      have length : (s.journal.entries.take r.journalIndex).length = r.journalIndex := by
        rw [List.length_take]
        omega
      constructor
      · simp only [Except.map,standsFor,shown']
        simp only [cut,entries,revisions,nextId]
        rw [copies_revert sound.ordered found]
      · rintro _ ⟨⟩
        refine ⟨{ objects with },?_,?_,?_⟩
        · have fits (idx : Nat) : CanRevert keccak (s'.cut r.journalIndex idx) = CanRevert keccak s := fits_congr trie
          rw [shown',fits]
          simpa only [cut,entries] using undoable.2
        · simp only [cut,entries,revisions,length]
          exact sound.ordered.revert found
        · simp only [cut,revisions,nextId]
          exact fun r' member => sound.fresh r' (List.mem_of_mem_take member)

/-! ### The commands on the world -/

variable (keccak) in
/-- What a command does to the state. -/
inductive Moves (s : StateDB) : StateDB → Prop
  | changes {es : List Entry} {s' : StateDB} (changes : Changes keccak s es s') : Moves s s'
  | snapshot : Moves s s.snapshot.2
  | revert {revid : Nat} {s' : StateDB} (reverted : s.revertToSnapshot keccak revid = .ok s') : Moves s s'
variable (keccak) in
/-- The state does what the world does, and stays sound. -/
def Follows {α : Type} (s : StateDB) (r : Except Failure (α × StateDB)) (r' : Except Failure (α × Copies)) : Prop :=
  r.map (fun r => (r.1,standsFor keccak r.2)) = r' ∧ ∀ a s', r = .ok (a,s') → Sound keccak s' ∧ Moves keccak s s'

theorem follows_changes {a : α} {r : α × StateDB} (sound : Sound keccak s) (value : r.1 = a)
    (sets : (∃ es, Changes keccak s es r.2) ∧ view keccak r.2 = w) :
    Follows keccak s (.ok r) (.ok (a,(standsFor keccak s).put w)) := by
  obtain ⟨⟨es,changes⟩,shown⟩ := sets
  obtain ⟨sound',stands⟩ := sound.changes changes
  refine ⟨by simp [Except.map,value,stands,shown],?_⟩
  rintro b s' same
  cases same
  exact ⟨sound',.changes changes⟩
theorem follows_read {absent : α} {f : StateObject → α × StateObject} {g : Acct → α} (sound : Sound keccak s)
    (caches : ∀ o, Caches keccak s.db o (f o).2) (value : ∀ o, (f o).1 = g (acctOf keccak s.db o)) :
    Follows keccak s (.ok (s.read keccak addr absent f)) (.ok ((standsFor keccak s).read addr absent g)) := by
  have changes := read_changes (s := s) addr absent caches
  obtain ⟨sound',stands⟩ := sound.changes changes
  have same : standsFor keccak (s.read keccak addr absent f).2 = standsFor keccak s := by
    rw [stands,view_of_nil sound.objects changes]
    rfl
  constructor
  · exact congrArg Except.ok (Prod.ext (read_shown addr absent value) same)
  · intro a s' result
    rw [Except.ok.inj result] at sound' changes
    exact ⟨sound',.changes changes⟩

/-- A command on the state is the command on the world that it shows. -/
theorem exec_follows (sound : Sound keccak s) (c : Cmd) :
    Follows keccak s (s.exec keccak c) ((standsFor keccak s).exec keccak c) := by
  have objects := sound.objects
  cases c with
  | createAccount addr => exact follows_changes sound rfl (createAccount_sets objects addr)
  | subBalance addr amount => exact follows_changes sound rfl (subBalance_sets objects addr amount)
  | addBalance addr amount => exact follows_changes sound rfl (addBalance_sets objects addr amount)
  | setBalance addr amount => exact follows_changes sound rfl (setBalance_sets objects addr amount)
  | setNonce addr nonce => exact follows_changes sound rfl (setNonce_sets objects addr nonce)
  | setCode addr code => exact follows_changes sound rfl (setCode_sets objects addr code)
  | setState addr key value => exact follows_changes sound rfl (setState_sets objects addr key value)
  | suicide addr =>
    obtain ⟨changes,value,shown⟩ := suicide_sets objects addr
    exact follows_changes sound value ⟨changes,shown⟩
  | getBalance _ | getNonce _ | getCodeHash _ | getCodeSize _ | hasSuicided _ | exist _ | isEmpty _ =>
    exact follows_read sound (fun o => .refl o) fun _ => rfl
  | getCode addr => exact follows_read sound (fun o => loadCode_caches o) fun o => loadCode_value o
  | getCommittedState addr key =>
    exact follows_read sound (fun o => getCommittedState_caches o key) fun o => getCommittedState_value o key
  | getState addr key => exact follows_read sound (fun o => getState_caches o key) fun o => getState_value o key
  | addRefund gas =>
    exact follows_changes sound rfl ⟨⟨_,.single (.refund _)⟩,view_with rfl rfl rfl⟩
  | subRefund gas =>
    show Follows keccak s ((s.subRefund gas).map _) (if gas > s.refund then _ else _)
    unfold subRefund
    by_cases below : gas > s.refund
    · simp only [below,if_true]
      exact ⟨rfl,fun _ _ failed => nomatch failed⟩
    · simp only [below,if_false]
      exact follows_changes sound rfl ⟨⟨_,.single (.refund _)⟩,view_with rfl rfl rfl⟩
  | getRefund =>
    refine ⟨rfl,?_⟩
    rintro a s' ⟨⟩
    exact ⟨sound,.changes .refl⟩
  | addLog log =>
    exact follows_changes sound rfl ⟨⟨_,.single (.log log)⟩,view_with rfl rfl rfl⟩
  | addPreimage hash preimage =>
    show Follows keccak s (.ok ((),s.addPreimage hash preimage))
      (.ok ((),(standsFor keccak s).put ((view keccak s).addPreimage hash preimage)))
    cases known : s.preimages hash with
    | some old =>
      refine follows_changes sound rfl ⟨⟨[],?_⟩,?_⟩
      · simpa [addPreimage,known] using Changes.refl
      · simp [addPreimage,World.addPreimage,known,show (view keccak s).preimages = s.preimages from rfl]
    | none =>
      have stored : s.addPreimage hash preimage = { s.append (.addPreimageChange hash) with
          preimages := update s.preimages hash (some preimage) } := by simp [addPreimage,known]
      rw [stored]
      refine follows_changes sound rfl ⟨⟨_,.single (.preimage known preimage)⟩,?_⟩
      simp only [World.addPreimage,show (view keccak s).preimages = s.preimages from rfl,known,isSome_none,
        Bool.false_eq_true,if_false]
      exact view_with rfl rfl rfl
  | snapshot =>
    constructor
    · refine congrArg Except.ok (Prod.ext rfl (Copies.ext (view_snapshot s) ?_ rfl))
      show copies (undo keccak) s.journal.entries (s.validRevisions ++ [⟨s.nextRevisionId,s.journal.entries.length⟩])
        (view keccak s.snapshot.2) = _
      rw [view_snapshot,copies_push]
      rfl
    · rintro a s' ⟨⟩
      refine ⟨⟨{ objects with },?_,sound.ordered.push sound.fresh,?_⟩,.snapshot⟩
      · have undoable := sound.undoable
        rw [← view_snapshot s] at undoable
        exact undoable
      · intro r member
        rcases List.mem_append.mp member with old | last
        · have := sound.fresh r old
          show r.id < s.nextRevisionId + 1
          omega
        · obtain rfl := List.mem_singleton.mp last
          exact Nat.lt_succ_self _
  | revertToSnapshot revid =>
    obtain ⟨same,sound'⟩ := revertToSnapshot_spec sound revid
    show Follows keccak s ((s.revertToSnapshot keccak revid).map fun s => ((),s))
      (((standsFor keccak s).revertToSnapshot revid).map fun k => ((),k))
    rw [← same]
    cases reverted : s.revertToSnapshot keccak revid with
    | error failure => exact ⟨rfl,fun _ _ failed => nomatch failed⟩
    | ok s' =>
      refine ⟨rfl,?_⟩
      rintro a s'' ⟨⟩
      exact ⟨sound' s' reverted,.revert reverted⟩

end
end Canchain.StateRefines
