import Canchain.Worlds

/-!
The account state shows a world (`view`), and its journal stands for the copies that its
snapshots would have made (`standsFor`). Each of its changes (`Change`) leaves the view or is
recorded by an entry that takes it back, so a chain of them leaves the copies.
-/
namespace Canchain.StateView
open Rlp Common State Worlds Function StateObject
open Undo

section
variable {keccak : Bytes → Hash} {db : Database} {o o' o'' : StateObject} {e : Entry}

/-! ### Objects -/

variable (keccak) in
/-- The second object is the first with more in its caches. -/
structure Caches (db : Database) (o o' : StateObject) : Prop where
  address : o'.address = o.address
  data : o'.data = o.data
  dirtyStorage : o'.dirtyStorage = o.dirtyStorage
  suicided : o'.suicided = o.suicided
  deleted : o'.deleted = o.deleted
  dirtyCode : o'.dirtyCode = o.dirtyCode
  code : o'.code = o.code ∨ o.code = none ∧ o.data.codeHash ≠ emptyCodeHash keccak ∧ o'.code = db.codes o.data.codeHash
  trie : trieOf db o' = trieOf db o
  opened : o'.trie = none → o.trie = none
  origin : ∀ key, o'.originStorage key = o.originStorage key ∨
    o.originStorage key = none ∧ o'.originStorage key = some (slotOf keccak (trieOf db o) key)

theorem Caches.refl (o : StateObject) : Caches keccak db o o :=
  ⟨rfl,rfl,rfl,rfl,rfl,rfl,.inl rfl,rfl,id,fun _ => .inl rfl⟩
theorem Caches.acct (caches : Caches keccak db o o') : acctOf keccak db o' = acctOf keccak db o := by
  have committed (key : Hash) : committedAt keccak db o' key = committedAt keccak db o key := by
    rcases caches.origin key with same | ⟨empty,loaded⟩
    · simp [committedAt,same,caches.trie]
    · simp [committedAt,empty,loaded]
  have code : codeAt keccak db o.data.codeHash o'.code = codeAt keccak db o.data.codeHash o.code ∧
      sizeAt db o.data.codeHash o'.code = sizeAt db o.data.codeHash o.code := by
    rcases caches.code with same | ⟨empty,notEmpty,loaded⟩
    · rw [same]; exact ⟨rfl,rfl⟩
    · rw [empty,loaded]
      cases stored : db.codes o.data.codeHash with
      | none => exact ⟨rfl,rfl⟩
      | some code => simp [codeAt,sizeAt,notEmpty,stored]
  have storage (key : Hash) : stateAt keccak db o' key = stateAt keccak db o key := by
    simp [stateAt,caches.dirtyStorage,committed]
  ext1
  · simp [acctOf,caches.data]
  · simp [acctOf,caches.data]
  · simp [acctOf,caches.data]
  · simpa [acctOf,caches.data] using code.1
  · simpa [acctOf,caches.data] using code.2
  · simp [acctOf,caches.suicided]
  · exact funext storage
  · exact funext committed

theorem getTrie_value (o : StateObject) : (o.getTrie db).1 = trieOf db o := by
  unfold getTrie trieOf
  cases o.trie with
  | some t => rfl
  | none => cases db.openTrie o.data.root <;> rfl
theorem getTrie_object (db : Database) (o : StateObject) :
    ∃ failed, (o.getTrie db).2 = { o with trie := some (trieOf db o), dbErr := failed } := by
  unfold getTrie trieOf
  cases there : o.trie with
  | some t => exact ⟨o.dbErr,by cases o; cases there; rfl⟩
  | none =>
    cases db.openTrie o.data.root with
    | some t => exact ⟨o.dbErr,rfl⟩
    | none => exact ⟨true,rfl⟩
theorem getCommittedState_value (o : StateObject) (key : Hash) :
    (o.getCommittedState keccak db key).1 = committedAt keccak db o key := by
  unfold getCommittedState committedAt
  cases o.originStorage key with
  | some value => rfl
  | none => simp [getTrie_value,slotOf]
theorem getCommittedState_caches (o : StateObject) (key : Hash) :
    Caches keccak db o (o.getCommittedState keccak db key).2 := by
  unfold getCommittedState
  cases cached : o.originStorage key with
  | some value => exact .refl o
  | none =>
    obtain ⟨failed,opened⟩ := getTrie_object db o
    simp only [getTrie_value,opened]
    refine ⟨rfl,rfl,rfl,rfl,rfl,rfl,.inl rfl,rfl,nofun,fun k => ?_⟩
    by_cases same : k = key
    · subst same
      exact .inr ⟨cached,by simp [slotOf]⟩
    · exact .inl (by simp [same])
theorem getCommittedState_cached (o : StateObject) (key : Hash) :
    (o.getCommittedState keccak db key).2.originStorage key = some (committedAt keccak db o key) := by
  unfold getCommittedState committedAt
  cases cached : o.originStorage key with
  | some value => simpa using cached
  | none => simp [getTrie_value,slotOf]
theorem getState_value (o : StateObject) (key : Hash) : (o.getState keccak db key).1 = stateAt keccak db o key := by
  unfold getState stateAt
  cases o.dirtyStorage key with
  | some value => rfl
  | none => exact getCommittedState_value o key
theorem getState_caches (o : StateObject) (key : Hash) : Caches keccak db o (o.getState keccak db key).2 := by
  unfold getState
  cases o.dirtyStorage key with
  | some value => exact .refl o
  | none => exact getCommittedState_caches o key
theorem getState_cached (o : StateObject) (key : Hash) : (o.getState keccak db key).2.dirtyStorage key ≠ none ∨
    (o.getState keccak db key).2.originStorage key ≠ none := by
  unfold getState
  cases dirty : o.dirtyStorage key with
  | some value => exact .inl (by simp [dirty])
  | none => exact .inr (by simp [getCommittedState_cached])
theorem loadCode_value (o : StateObject) :
    (o.loadCode keccak db).1 = codeAt keccak db o.data.codeHash o.code := by
  unfold loadCode codeAt
  cases o.code with
  | some code => rfl
  | none =>
    by_cases empty : o.data.codeHash = emptyCodeHash keccak
    · simp [empty]
    · cases db.codes o.data.codeHash <;> simp [empty]
theorem loadCode_caches (o : StateObject) : Caches keccak db o (o.loadCode keccak db).2 := by
  unfold loadCode
  cases there : o.code with
  | some code => exact .refl o
  | none =>
    by_cases empty : o.data.codeHash = emptyCodeHash keccak
    · simpa only [empty,if_true] using Caches.refl o
    · cases found : db.codes o.data.codeHash with
      | some code => simpa [empty] using ⟨rfl,rfl,rfl,rfl,rfl,rfl,.inr ⟨there,empty,found.symm⟩,rfl,id,fun _ => .inl rfl⟩
      | none => simpa [empty] using ⟨rfl,rfl,rfl,rfl,rfl,rfl,.inl there.symm,rfl,id,fun _ => .inl rfl⟩

variable (keccak) in
/-- What `getStateObject` finds. -/
def find (s : StateDB) (addr : Address) : Option StateObject := (s.getStateObject keccak addr).1
variable (keccak) in
def view (s : StateDB) : World where
  db := s.db
  accounts addr := (find keccak s addr).map (acctOf keccak s.db)
  refund := s.refund
  thash := s.thash
  bhash := s.bhash
  txIndex := s.txIndex
  logs := s.logs
  logSize := s.logSize
  preimages := s.preimages

variable {s s' : StateDB} {addr : Address} {w : World}
open StateDB

theorem find_cached (cached : s.stateObjects addr = some o) :
    find keccak s addr = if o.deleted then none else some o := by
  simp [find,getStateObject,cached]
theorem find_uncached (absent : s.stateObjects addr = none) : find keccak s addr = s.load keccak addr := by
  simp only [find,getStateObject,absent]
  cases s.load keccak addr <;> rfl
theorem find_congr (object : s'.stateObjects addr = s.stateObjects addr) (trie : s'.trie = s.trie) :
    find keccak s' addr = find keccak s addr := by
  have load : s'.load keccak addr = s.load keccak addr := by simp [load,trie]
  cases cached : s.stateObjects addr with
  | some o => rw [find_cached cached,find_cached (object.trans cached)]
  | none => rw [find_uncached cached,find_uncached (object.trans cached),load]
theorem load_fresh (loaded : s.load keccak addr = some o) : ∃ data, o = newObject addr data := by
  obtain ⟨data,-,same⟩ := Option.map_eq_some_iff.mp loaded
  exact ⟨data,same.symm⟩
theorem find_cases (found : find keccak s addr = some o) : s.stateObjects addr = some o ∧ o.deleted = false ∨
    s.stateObjects addr = none ∧ s.load keccak addr = some o := by
  cases cached : s.stateObjects addr with
  | some obj =>
    rw [find_cached cached] at found
    split at found
    · cases found
    · cases found
      rename_i live
      exact .inl ⟨rfl,by simpa using live⟩
  | none => exact .inr ⟨rfl,(find_uncached cached).symm.trans found⟩
theorem find_deleted (found : find keccak s addr = some o) : o.deleted = false := by
  rcases find_cases found with ⟨-,live⟩ | ⟨-,loaded⟩
  · exact live
  · obtain ⟨data,rfl⟩ := load_fresh loaded
    rfl
/-- Only objects that are found, under their own address, are in the map. -/
theorem getStateObject_state (s : StateDB) (addr : Address) : (s.getStateObject keccak addr).2 =
    match s.stateObjects addr, s.load keccak addr with
    | none, some o => s.setStateObject o
    | _, _ => s := by
  unfold getStateObject
  cases s.stateObjects addr with
  | some obj => rfl
  | none => cases s.load keccak addr <;> rfl

theorem find_setStateObject (live : o.deleted = false) (a : Address) :
    find keccak (s.setStateObject o) a = if a = o.address then some o else find keccak s a := by
  by_cases same : a = o.address
  · subst same
    rw [find_cached (o := o) (by simp [setStateObject])]
    simp [live]
  · have other : (s.setStateObject o).stateObjects a = s.stateObjects a := by simp [setStateObject,same]
    rw [if_neg same,find_congr other rfl]
theorem view_setStateObject (live : o.deleted = false) :
    view keccak (s.setStateObject o) = (view keccak s).set o.address (acctOf keccak s.db o) := by
  have accounts (a : Address) : (view keccak (s.setStateObject o)).accounts a =
      ((view keccak s).set o.address (acctOf keccak s.db o)).accounts a := by
    show (find keccak (s.setStateObject o) a).map (acctOf keccak s.db) = _
    rw [find_setStateObject live]
    by_cases same : a = o.address
    · simp [same,World.set]
    · simp [same,World.set,view]
  exact World.ext rfl (funext accounts) rfl rfl rfl rfl rfl rfl rfl
theorem view_congr (objects : s'.stateObjects = s.stateObjects) (trie : s'.trie = s.trie) (db : s'.db = s.db) :
    (view keccak s').accounts = (view keccak s).accounts := by
  funext a
  show (find keccak s' a).map (acctOf keccak s'.db) = (find keccak s a).map (acctOf keccak s.db)
  rw [find_congr (congrFun objects a) trie,db]
theorem view_with (objects : s'.stateObjects = s.stateObjects) (trie : s'.trie = s.trie) (db : s'.db = s.db) :
    view keccak s' = { view keccak s' with accounts := (view keccak s).accounts } := by
  rw [← view_congr objects trie db]
@[simp] theorem view_append (s : StateDB) (e : Entry) : view keccak (s.append e) = view keccak s := view_with rfl rfl rfl
@[simp] theorem view_uncount (s : StateDB) (e : Entry) : view keccak (s.uncount e) = view keccak s := view_with rfl rfl rfl
@[simp] theorem view_cut (s : StateDB) (journalIndex idx : Nat) : view keccak (s.cut journalIndex idx) = view keccak s := view_with rfl rfl rfl
@[simp] theorem view_snapshot (s : StateDB) : view keccak s.snapshot.2 = view keccak s := view_with rfl rfl rfl
theorem view_record (live : o.deleted = false) (e : Entry) :
    view keccak ((s.append e).setStateObject o) = (view keccak s).set o.address (acctOf keccak s.db o) := by
  rw [view_setStateObject live,view_append]
  rfl
theorem view_accounts (found : find keccak s addr = some o) :
    (view keccak s).accounts addr = some (acctOf keccak s.db o) := by simp [view,found]
theorem view_absent (absent : find keccak s addr = none) : (view keccak s).accounts addr = none := by simp [view,absent]

theorem set_self {x : Acct} (there : w.accounts addr = some x) : w.set addr x = w := by
  refine World.ext rfl ?_ rfl rfl rfl rfl rfl rfl rfl
  show update w.accounts addr (some x) = w.accounts
  rw [← there,update_eq_self]
theorem set_set (w : World) (addr : Address) (x y : Acct) : (w.set addr x).set addr y = w.set addr y := by
  simp [World.set]
theorem modify_set (w : World) (addr : Address) (x : Acct) (f : Acct → Acct) :
    (w.set addr x).modify addr f = w.set addr (f x) := by simp [World.set,World.modify]

/-! ### Changes -/

theorem stateAt_putState (o : StateObject) (key value : Hash) :
    stateAt keccak db (o.putState key value) = update (stateAt keccak db o) key value := by
  funext k
  by_cases here : k = key
  · simp [here,stateAt,putState]
  · simp [here,stateAt,putState]
    rfl
variable (keccak) in
/-- A change of an object and the entry that records it. -/
inductive Puts (db : Database) (o : StateObject) : Entry → StateObject → Prop
  | balance (amount : Int) : Puts db o (.balanceChange o.address o.data.balance) { o with data.balance := amount }
  | nonce (nonce : UInt64) : Puts db o (.nonceChange o.address o.data.nonce) { o with data.nonce := nonce }
  | suicide : Puts db o (.suicideChange o.address o.suicided o.data.balance) { o with suicided := true, data.balance := 0 }
  | code (hash : Hash) (code : Option Bytes) :
      Puts db o (.codeChange o.address (codeAt keccak db o.data.codeHash o.code) o.data.codeHash) (o.putCode hash code)
  | slot (key value : Hash) (cached : o.dirtyStorage key ≠ none ∨ o.originStorage key ≠ none) :
      Puts db o (.storageChange o.address key (stateAt keccak db o key)) (o.putState key value)

variable (keccak) in
/-- The object of an account that was created over another one. -/
def replaced (addr : Address) (balance : Int) : StateObject := { emptyObject keccak addr with data.balance := balance }
@[simp] theorem emptyObject_address (addr : Address) : (emptyObject keccak addr).address = addr := rfl
@[simp] theorem replaced_address (addr : Address) (balance : Int) : (replaced keccak addr balance).address = addr := rfl

variable (keccak) in
/-- What the commands do to the state, with the entries they append. -/
inductive Change (s : StateDB) : List Entry → StateDB → Prop
  | cache {addr : Address} {o o' : StateObject} (found : find keccak s addr = some o)
      (caches : Caches keccak s.db o o') : Change s [] (s.setStateObject o')
  | put {addr : Address} {o o' : StateObject} {e : Entry} (found : find keccak s addr = some o)
      (puts : Puts keccak s.db o e o') : Change s [e] ((s.append e).setStateObject o')
  | create {addr : Address} (absent : find keccak s addr = none) : Change s [.createObjectChange addr]
      ((s.append (.createObjectChange addr)).setStateObject (emptyObject keccak addr))
  | reset {addr : Address} {prev : StateObject} (found : find keccak s addr = some prev) :
      Change s [.resetObjectChange prev] ((s.append (.resetObjectChange prev)).setStateObject
        (replaced keccak addr prev.data.balance))
  | touch {addr : Address} {o : StateObject} (found : find keccak s addr = some o) :
      Change s [.touchChange o.address] (s.touch o)
  | refund (gas : UInt64) : Change s [.refundChange s.refund] { s.append (.refundChange s.refund) with refund := gas }
  | log (log : Log) : Change s [.addLogChange s.thash] (s.addLog log)
  | preimage {hash : Hash} (new : s.preimages hash = none) (preimage : Bytes) :
      Change s [.addPreimageChange hash] { s.append (.addPreimageChange hash) with
        preimages := Function.update s.preimages hash (some preimage) }
variable (keccak) in
/-- A chain of changes. -/
inductive Changes (s : StateDB) : List Entry → StateDB → Prop
  | refl : Changes s [] s
  | tail {es fs : List Entry} {s' s'' : StateDB} (changes : Changes s es s') (change : Change keccak s' fs s'') :
      Changes s (es ++ fs) s''

variable (keccak) in
/-- Objects are under their address, and one that was deleted is gone from the trie. -/
structure Objects (s : StateDB) : Prop where
  keyed : ∀ a o, s.stateObjects a = some o → o.address = a
  gone : ∀ a o, s.stateObjects a = some o → o.deleted = true →
    s.load keccak a = none ∧ (o.suicided = true ∨ o.empty keccak = true)
  clean : ∀ a o, s.stateObjects a = some o → o.deleted = true → s.journal.dirties a = 0

theorem Objects.find_address (objects : Objects keccak s) (found : find keccak s addr = some o) : o.address = addr := by
  rcases find_cases found with ⟨there,-⟩ | ⟨-,loaded⟩
  · exact objects.keyed addr o there
  · obtain ⟨data,rfl⟩ := load_fresh loaded
    rfl
/-- A live object is put in the map, and the counts of other addresses stay. -/
theorem Objects.put (objects : Objects keccak s) (live : o.deleted = false) (trie : s'.trie = s.trie)
    (objs : s'.stateObjects = update s.stateObjects o.address (some o))
    (dirties : ∀ a, a ≠ o.address → s'.journal.dirties a = s.journal.dirties a) : Objects keccak s' := by
  have load (a : Address) : s'.load keccak a = s.load keccak a := by simp [load,trie]
  have other {a : Address} {x : StateObject} (there : s'.stateObjects a = some x) (deleted : x.deleted = true) :
      a ≠ o.address ∧ s.stateObjects a = some x := by
    by_cases same : a = o.address
    · rw [objs,same,update_self] at there
      cases there
      rw [live] at deleted
      cases deleted
    · rw [objs,update_of_ne same] at there
      exact ⟨same,there⟩
  constructor
  · intro a x there
    by_cases same : a = o.address
    · rw [objs,same,update_self] at there
      cases there
      exact same.symm
    · rw [objs,update_of_ne same] at there
      exact objects.keyed a x there
  · intro a x there deleted
    rw [load]
    exact objects.gone a x (other there deleted).2 deleted
  · intro a x there deleted
    obtain ⟨ne,before⟩ := other there deleted
    rw [dirties a ne]
    exact objects.clean a x before deleted

/-- The address whose object an entry is about. -/
def subject : Entry → Option Address
  | .resetObjectChange prev => some prev.address
  | e => e.dirtied
variable (keccak) in
/-- The entry can be reverted in a state that shows the world. -/
def CanRevert (s : StateDB) (e : Entry) (w : World) : Prop :=
  (∀ a, subject e = some a → (w.accounts a).isSome) ∧
    match e with
    | .createObjectChange account => s.load keccak account = none
    | .resetObjectChange prev => prev.deleted = false
    | _ => True

theorem Puts.fields (puts : Puts keccak db o e o') : o'.address = o.address ∧ o'.deleted = o.deleted ∧
    subject e = some o.address ∧ e.dirtied = some o.address := by
  cases puts <;> exact ⟨rfl,rfl,rfl,rfl⟩
variable (keccak db) in
theorem codeAt_codeAt (hash : Hash) (code : Option Bytes) :
    codeAt keccak db hash (codeAt keccak db hash code) = codeAt keccak db hash code ∧
      sizeAt db hash (codeAt keccak db hash code) = sizeAt db hash code := by
  cases code with
  | some code => exact ⟨rfl,rfl⟩
  | none =>
    by_cases empty : hash = emptyCodeHash keccak
    · simp [codeAt,sizeAt,empty]
    · cases stored : db.codes hash <;> simp [codeAt,sizeAt,empty,stored]
theorem Puts.undone (puts : Puts keccak w.db o e o') :
    undo keccak e (w.set o.address (acctOf keccak w.db o')) = w.set o.address (acctOf keccak w.db o) := by
  cases puts with
  | balance _ | nonce _ | suicide => exact modify_set _ _ _ _
  | code hash code =>
    refine (modify_set _ _ _ _).trans (congrArg _ ?_)
    obtain ⟨sameCode,sameSize⟩ := codeAt_codeAt keccak w.db o.data.codeHash o.code
    exact Acct.ext rfl rfl rfl sameCode sameSize rfl rfl rfl
  | slot key value cached =>
    refine (modify_set _ _ _ _).trans (congrArg _ ?_)
    refine Acct.ext rfl rfl rfl rfl rfl rfl ?_ rfl
    show update (stateAt keccak w.db (o.putState key value)) key (stateAt keccak w.db o key) = stateAt keccak w.db o
    rw [stateAt_putState,update_idem,update_eq_self]

variable {es : List Entry}
/-- Everything but the objects, the refund, the logs, the preimages and the journal stays. -/
theorem Change.frame (change : Change keccak s es s') : s'.db = s.db ∧ s'.trie = s.trie ∧
    s'.stateObjectsDirty = s.stateObjectsDirty ∧ s'.validRevisions = s.validRevisions ∧
    s'.nextRevisionId = s.nextRevisionId ∧ s'.journal.entries = s.journal.entries ++ es := by
  cases change with
  | cache => exact ⟨rfl,rfl,rfl,rfl,rfl,(List.append_nil _).symm⟩
  | touch =>
    unfold StateDB.touch
    split <;> exact ⟨rfl,rfl,rfl,rfl,rfl,rfl⟩
  | _ => exact ⟨rfl,rfl,rfl,rfl,rfl,rfl⟩
theorem view_touch (s : StateDB) (o : StateObject) : view keccak (s.touch o) = view keccak s := by
  unfold StateDB.touch
  split <;> exact view_with rfl rfl rfl
/-- The entries take the change back, and fit. -/
theorem Change.undone (objects : Objects keccak s) (change : Change keccak s es s') :
    undoAll (undo keccak) es (view keccak s') = view keccak s ∧
      Undoable (undo keccak) (CanRevert keccak s) es.reverse (view keccak s') := by
  cases change with
  | @cache addr o o' found caches =>
    refine ⟨?_,trivial⟩
    rw [view_setStateObject (caches.deleted.trans (find_deleted found)),caches.acct,caches.address,
      objects.find_address found]
    exact set_self (view_accounts found)
  | @put addr o o' e found puts =>
    obtain ⟨address,deleted,about,-⟩ := puts.fields
    rw [view_record (deleted.trans (find_deleted found)),address]
    refine ⟨?_,⟨?_,?_⟩,trivial⟩
    · refine (puts.undone (w := view keccak s)).trans ?_
      rw [objects.find_address found]
      exact set_self (view_accounts found)
    · intro a same
      rw [about] at same
      cases same
      simp [World.set]
    · cases puts <;> trivial
  | @create addr absent =>
    rw [view_record rfl]
    refine ⟨?_,⟨?_,?_⟩,trivial⟩
    · refine World.ext rfl ?_ rfl rfl rfl rfl rfl rfl rfl
      show update (update (view keccak s).accounts addr _) addr none = (view keccak s).accounts
      rw [update_idem,← view_absent absent,update_eq_self]
    · intro a same
      cases same
      simp [World.set]
    · show s.load keccak addr = none
      cases cached : s.stateObjects addr with
      | some obj =>
        refine (objects.gone addr obj cached ?_).1
        rw [find_cached cached] at absent
        by_contra live
        simp [live] at absent
      | none => rw [← find_uncached cached]; exact absent
  | @reset addr prev found =>
    rw [view_record rfl]
    refine ⟨?_,⟨?_,find_deleted found⟩,trivial⟩
    · show ((view keccak s).set addr _).set prev.address _ = view keccak s
      rw [objects.find_address found,set_set]
      exact set_self (view_accounts found)
    · intro a same
      cases same
      simp [World.set,objects.find_address found]
  | @touch addr o found =>
    rw [view_touch]
    refine ⟨rfl,⟨?_,trivial⟩,trivial⟩
    intro a same
    cases same
    rw [objects.find_address found,view_accounts found]
    rfl
  | refund gas =>
    refine ⟨World.ext rfl (view_congr rfl rfl rfl) rfl rfl rfl rfl rfl rfl rfl,⟨?_,trivial⟩,trivial⟩
    intro a same
    cases same
  | log log =>
    refine ⟨World.ext rfl (view_congr rfl rfl rfl) rfl rfl rfl rfl ?_ ?_ rfl,⟨?_,trivial⟩,trivial⟩
    · show update (update s.logs s.thash _) s.thash
        (update s.logs s.thash (s.logs s.thash ++ [_]) s.thash).dropLast = s.logs
      simp
    · show s.logSize + 1 - 1 = s.logSize
      simp
    · intro a same
      cases same
  | @preimage hash new preimage =>
    refine ⟨World.ext rfl (view_congr rfl rfl rfl) rfl rfl rfl rfl rfl rfl ?_,⟨?_,trivial⟩,trivial⟩
    · show update (update s.preimages hash _) hash none = s.preimages
      rw [update_idem,← new,update_eq_self]
    · intro a same
      cases same
theorem Change.objects (objects : Objects keccak s) (change : Change keccak s es s') : Objects keccak s' := by
  have counts (e : Entry) (about : Address) (dirtied : e.dirtied = none ∨ e.dirtied = some about) (a : Address)
      (ne : a ≠ about) : (s.append e).journal.dirties a = s.journal.dirties a := by
    rcases dirtied with nobody | it
    · simp [append,Journal.append,nobody,count]
    · simp [append,Journal.append,it,count,ne]
  cases change with
  | @cache addr o o' found caches =>
    exact objects.put (caches.deleted.trans (find_deleted found)) rfl rfl fun _ _ => rfl
  | @put addr o o' e found puts =>
    obtain ⟨address,deleted,-,dirtied⟩ := puts.fields
    exact objects.put (deleted.trans (find_deleted found)) rfl rfl (counts e _ (.inr (dirtied.trans (by rw [address]))))
  | @create addr absent => exact objects.put (o := emptyObject keccak addr) rfl rfl rfl (counts _ _ (.inr rfl))
  | @reset addr prev found =>
    exact objects.put (o := replaced keccak addr prev.data.balance) rfl rfl rfl (counts _ _ (.inl rfl))
  | @touch addr o found =>
    have same := objects.find_address found
    -- The object that is touched is not a deleted one.
    refine ⟨?_,?_,?_⟩
    · unfold StateDB.touch
      split <;> exact objects.keyed
    · unfold StateDB.touch
      split <;> exact objects.gone
    · intro a x there deleted
      have before : s.stateObjects a = some x := by
        rw [← there]
        unfold StateDB.touch
        split <;> rfl
      have ne : a ≠ o.address := by
        rintro rfl
        rw [← same,find_cached before,deleted] at found
        cases found
      have clean := objects.clean a x before deleted
      unfold StateDB.touch
      split
      · simp [append,Journal.append,Journal.dirty,Entry.dirtied,count,ne,clean]
      · simp [append,Journal.append,Entry.dirtied,count,ne,clean]
  | refund _ | log _ | preimage _ _ => exact { objects with }

theorem Changes.single (change : Change keccak s es s') : Changes keccak s es s' := by
  simpa using Changes.tail .refl change
theorem Changes.trans {fs : List Entry} {s'' : StateDB} (first : Changes keccak s es s')
    (then_ : Changes keccak s' fs s'') : Changes keccak s (es ++ fs) s'' := by
  induction then_ with
  | refl => simpa using first
  | tail _ change ih =>
    rw [← List.append_assoc]
    exact .tail ih change
theorem Changes.objects (objects : Objects keccak s) (changes : Changes keccak s es s') : Objects keccak s' := by
  induction changes with
  | refl => exact objects
  | tail _ change ih => exact change.objects ih
theorem Changes.frame (changes : Changes keccak s es s') : s'.db = s.db ∧ s'.trie = s.trie ∧
    s'.stateObjectsDirty = s.stateObjectsDirty ∧ s'.validRevisions = s.validRevisions ∧
    s'.nextRevisionId = s.nextRevisionId ∧ s'.journal.entries = s.journal.entries ++ es := by
  induction changes with
  | refl => exact ⟨rfl,rfl,rfl,rfl,rfl,(List.append_nil _).symm⟩
  | tail _ change ih =>
    obtain ⟨db,trie,flags,revisions,nextId,entries⟩ := ih
    obtain ⟨db',trie',flags',revisions',nextId',entries'⟩ := change.frame
    exact ⟨db'.trans db,trie'.trans trie,flags'.trans flags,revisions'.trans revisions,nextId'.trans nextId,
      by rw [entries',entries,List.append_assoc]⟩
theorem fits_congr (trie : s'.trie = s.trie) : CanRevert keccak s' = CanRevert keccak s := by
  have load (a : Address) : s'.load keccak a = s.load keccak a := by simp [load,trie]
  funext e w
  simp [CanRevert,load]
theorem Changes.undone (objects : Objects keccak s) (changes : Changes keccak s es s') :
    undoAll (undo keccak) es (view keccak s') = view keccak s ∧
      Undoable (undo keccak) (CanRevert keccak s) es.reverse (view keccak s') := by
  induction changes with
  | refl => exact ⟨rfl,trivial⟩
  | @tail es fs s' s'' before change ih =>
    obtain ⟨undone,undoable⟩ := change.undone (before.objects objects)
    rw [fits_congr before.frame.2.1] at undoable
    refine ⟨by rw [undoAll_append,undone,ih.1],?_⟩
    rw [List.reverse_append,undoable_append,List.reverse_reverse,undone]
    exact ⟨undoable,ih.2⟩

variable (keccak) in
/-- The world and the copies that the state and its journal stand for. -/
def standsFor (s : StateDB) : Copies :=
  ⟨view keccak s,copies (undo keccak) s.journal.entries s.validRevisions (view keccak s),s.nextRevisionId⟩
variable (keccak) in
/-- The journal can be reverted to each of its revisions. -/
structure Sound (s : StateDB) : Prop where
  objects : Objects keccak s
  undoable : Undoable (undo keccak) (CanRevert keccak s) s.journal.entries.reverse (view keccak s)
  ordered : Ordered s.journal.entries.length s.validRevisions
  fresh : ∀ r ∈ s.validRevisions, r.id < s.nextRevisionId

theorem Sound.changes (sound : Sound keccak s) (changes : Changes keccak s es s') :
    Sound keccak s' ∧ standsFor keccak s' = (standsFor keccak s).put (view keccak s') := by
  obtain ⟨undone,undoable⟩ := changes.undone sound.objects
  obtain ⟨db,trie,-,revisions,nextId,entries⟩ := changes.frame
  refine ⟨⟨changes.objects sound.objects,?_,?_,?_⟩,?_⟩
  · rw [fits_congr trie,entries,List.reverse_append,undoable_append,List.reverse_reverse,undone]
    exact ⟨undoable,sound.undoable⟩
  · rw [entries,revisions]
    exact sound.ordered.grow (by simp)
  · rw [revisions,nextId]
    exact sound.fresh
  · simp [standsFor,Copies.put,entries,revisions,nextId,copies_change sound.ordered undone]

end
end Canchain.StateView
