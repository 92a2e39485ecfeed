import Canchain.SecureTrie
import Canchain.Undo

/-!
The account state, after `kernel/state`: objects loaded lazily over secure tries and changed
in memory, the journal that undoes the changes, and the writing back to the tries. Where the
source ranges over a map, the order of its keys is an argument.
-/
namespace Canchain.State
open Rlp Common
open TrieNode (emptyRoot)
open Secure (SecureTrie)
open Undo (Revision)

/-! ### Accounts -/

/-- `Account`. The code hash is a slice in the source; every account written has
    32 bytes there. -/
structure Account where
  nonce : UInt64
  balance : Int
  root : Hash
  codeHash : Hash
  deriving DecidableEq

/-- `rlp.EncodeToBytes` of an account; a negative balance has no encoding. -/
def encodeAccount (a : Account) : Option Bytes :=
  if a.balance < 0 then none
  else some (encodeList (encodeString (putint a.nonce.toNat) ++ (encodeString (putint a.balance.toNat) ++
    (encodeString a.root.bytes ++ encodeString a.codeHash.bytes))))
/-- An integer without leading zeros. -/
def decodeInt (b : Bytes) : Option (Nat × Bytes) :=
  match splitString b with
  | .error _ => none
  | .ok (content,rest) => if content.head? = some 0 then none else some (getint content,rest)
def decodeHash (b : Bytes) : Option (Hash × Bytes) :=
  match splitString b with
  | .error _ => none
  | .ok (content,rest) => if size : content.length = 32 then some (⟨content,size⟩,rest) else none
/-- `rlp.DecodeBytes` into an account. -/
def decodeAccount (enc : Bytes) : Option Account := do
  match splitList enc with
  | .error _ => none
  | .ok (fields,trailing) =>
    let (nonce,fields) ← decodeInt fields
    let (balance,fields) ← decodeInt fields
    let (root,fields) ← decodeHash fields
    let (codeHash,fields) ← decodeHash fields
    if nonce < 2^64 ∧ fields = [] ∧ trailing = [] then some ⟨UInt64.ofNat nonce,balance,root,codeHash⟩ else none

/-! ### The database of tries and codes -/

structure Database where
  tries : Hash → Option SecureTrie
  codes : Hash → Option Bytes

def newDatabase : Database := ⟨fun _ => none,fun _ => none⟩
/-- `OpenTrie` and `OpenStorageTrie`. -/
def Database.openTrie (db : Database) (root : Hash) : Option SecureTrie :=
  if root = Hash.zero ∨ root = emptyRoot then some Secure.empty else db.tries root
/-- `InsertBlob`: a blob that is there stays. -/
def Database.insertBlob (db : Database) (hash : Hash) (blob : Bytes) : Database :=
  if (db.codes hash).isSome then db else { db with codes := Function.update db.codes hash (some blob) }

section
variable (keccak : Bytes → Hash)

/-- `Trie.Commit`: the trie is in the database under its root. -/
def Database.commitTrie (db : Database) (t : SecureTrie) : Database :=
  if t.val.isNil ∨ (db.tries (Secure.hash keccak t)).isSome then db
  else { db with tries := Function.update db.tries (Secure.hash keccak t) (some t) }
def emptyCodeHash : Hash := keccak []

/-! ### State objects -/

structure StateObject where
  address : Address
  data : Account
  /-- `dbErr` is set. -/
  dbErr : Bool
  trie : Option SecureTrie
  code : Option Bytes
  originStorage : Hash → Option Hash
  dirtyStorage : Hash → Option Hash
  dirtyCode : Bool
  suicided : Bool
  deleted : Bool

def newObject (address : Address) (data : Account) : StateObject :=
  ⟨address,data,false,none,none,fun _ => none,fun _ => none,false,false,false⟩
/-- `newObject` of `Account{}`, with the fields that are nil filled in. -/
def emptyObject (address : Address) : StateObject := newObject address ⟨0,0,Hash.zero,emptyCodeHash keccak⟩

namespace StateObject

def empty (o : StateObject) : Bool := o.data.nonce = 0 ∧ o.data.balance = 0 ∧ o.data.codeHash = emptyCodeHash keccak
/-- `getTrie`; a root that is not in the database gives the empty trie and an error. -/
def getTrie (db : Database) (o : StateObject) : SecureTrie × StateObject :=
  match o.trie with
  | some t => (t,o)
  | none =>
    match db.openTrie o.data.root with
    | some t => (t,{ o with trie := some t })
    | none => (Secure.empty,{ o with trie := some Secure.empty, dbErr := true })
/-- The value of an encoded slot; `failed` if it does not decode. -/
def decodeSlot (enc : Option Bytes) : Hash × Bool :=
  match enc with
  | none => (Hash.zero,false)
  | some enc =>
    match split enc with
    | .error _ => (Hash.zero,true)
    | .ok (_,content,_) => (bytesToHash content,false)
def getCommittedState (db : Database) (o : StateObject) (key : Hash) : Hash × StateObject :=
  match o.originStorage key with
  | some value => (value,o)
  | none =>
    let (t,o) := o.getTrie db
    let (value,failed) := decodeSlot (Secure.tryGet keccak t key.bytes)
    (value,{ o with originStorage := Function.update o.originStorage key (some value), dbErr := o.dbErr || failed })
def getState (db : Database) (o : StateObject) (key : Hash) : Hash × StateObject :=
  match o.dirtyStorage key with
  | some value => (value,o)
  | none => o.getCommittedState keccak db key
/-- `setState`. -/
def putState (o : StateObject) (key value : Hash) : StateObject :=
  { o with dirtyStorage := Function.update o.dirtyStorage key (some value) }
def loadCode (db : Database) (o : StateObject) : Option Bytes × StateObject :=
  match o.code with
  | some code => (some code,o)
  | none =>
    if o.data.codeHash = emptyCodeHash keccak then (none,o)
    else
      match db.codes o.data.codeHash with
      | some code => (some code,{ o with code := some code })
      | none => (none,{ o with dbErr := true })
/-- `setCode`. -/
def putCode (o : StateObject) (codeHash : Hash) (code : Option Bytes) : StateObject :=
  { o with code := code, data.codeHash := codeHash, dirtyCode := true }
/-- The size `GetCodeSize` finds. -/
def codeSize (db : Database) (o : StateObject) : Nat :=
  match o.code with
  | some code => code.length
  | none => ((db.codes o.data.codeHash).getD []).length

/-- The slot in the trie; a zero slot is not in it. -/
def writeSlot (t : SecureTrie) (key value : Hash) : SecureTrie :=
  if value = Hash.zero then Secure.tryDelete keccak t key.bytes
  else Secure.tryUpdate keccak t key.bytes (encodeString (value.bytes.dropWhile (· = 0)))
/-- One round of the loop of `updateTrie`; a value the trie has is not written. -/
def updateSlot (t : SecureTrie) (o : StateObject) (key : Hash) : SecureTrie × StateObject :=
  match o.dirtyStorage key with
  | none => (t,o)
  | some value =>
    if value = (o.originStorage key).getD Hash.zero then
      (t,{ o with dirtyStorage := Function.update o.dirtyStorage key none })
    else (writeSlot keccak t key value,{ o with
      dirtyStorage := Function.update o.dirtyStorage key none
      originStorage := Function.update o.originStorage key (some value) })
def updateSlots (t : SecureTrie) (o : StateObject) : List Hash → SecureTrie × StateObject
  | [] => (t,o)
  | key :: keys => updateSlots (updateSlot keccak t o key).1 (updateSlot keccak t o key).2 keys
/-- `updateTrie`, ranging over the dirty slots in the given order. -/
def updateTrie (db : Database) (o : StateObject) (keys : List Hash) : SecureTrie × StateObject :=
  let (t,o) := o.getTrie db
  let (t,o) := updateSlots keccak t o keys
  (t,{ o with trie := some t })
def updateRoot (db : Database) (o : StateObject) (keys : List Hash) : StateObject :=
  let (t,o) := o.updateTrie keccak db keys
  { o with data.root := Secure.hash keccak t }
/-- `CommitTrie`, with the database afterwards; none is the error of the object. -/
def commitTrie (db : Database) (o : StateObject) (keys : List Hash) : Option (Database × StateObject) :=
  let (t,o) := o.updateTrie keccak db keys
  if o.dbErr then none else some (db.commitTrie keccak t,{ o with data.root := Secure.hash keccak t })
/-- The code is inserted if it is new. -/
def commitCode (db : Database) (o : StateObject) : Database × StateObject :=
  match o.code, o.dirtyCode with
  | some code, true => (db.insertBlob o.data.codeHash code,{ o with dirtyCode := false })
  | _, _ => (db,o)
/-- `deepCopy`: a new object, without the error. -/
def deepCopy (o : StateObject) : StateObject := { o with dbErr := false }

end StateObject

/-! ### The journal -/

inductive Entry where
  | createObjectChange (account : Address)
  | resetObjectChange (prev : StateObject)
  | suicideChange (account : Address) (prev : Bool) (prevbalance : Int)
  | balanceChange (account : Address) (prev : Int)
  | nonceChange (account : Address) (prev : UInt64)
  | storageChange (account : Address) (key prevalue : Hash)
  | codeChange (account : Address) (prevcode : Option Bytes) (prevhash : Hash)
  | refundChange (prev : UInt64)
  | addLogChange (txhash : Hash)
  | addPreimageChange (hash : Hash)
  | touchChange (account : Address)

def Entry.dirtied : Entry → Option Address
  | .createObjectChange account => some account
  | .resetObjectChange _ => none
  | .suicideChange account _ _ => some account
  | .balanceChange account _ => some account
  | .nonceChange account _ => some account
  | .storageChange account _ _ => some account
  | .codeChange account _ _ => some account
  | .refundChange _ => none
  | .addLogChange _ => none
  | .addPreimageChange _ => none
  | .touchChange account => some account

/-- `journal`; an address that is not in `dirties` counts 0. -/
structure Journal where
  entries : List Entry
  dirties : Address → Int

def newJournal : Journal := ⟨[],fun _ => 0⟩
/-- Add to the count of an address, if there is one. -/
def count (dirties : Address → Int) (addr : Option Address) (by_ : Int) : Address → Int :=
  match addr with
  | none => dirties
  | some addr => Function.update dirties addr (dirties addr + by_)
def Journal.append (j : Journal) (entry : Entry) : Journal :=
  ⟨j.entries ++ [entry],count j.dirties entry.dirtied 1⟩
def Journal.dirty (j : Journal) (addr : Address) : Journal := { j with dirties := count j.dirties (some addr) 1 }

/-! ### StateDB -/

/-- `types.Log`. -/
structure Log where
  address : Address
  topics : List Hash
  data : Bytes
  blockNumber : UInt64
  txHash : Hash
  txIndex : UInt64
  blockHash : Hash
  index : UInt64
  deriving DecidableEq

structure StateDB where
  db : Database
  trie : SecureTrie
  stateObjects : Address → Option StateObject
  stateObjectsDirty : Address → Bool
  refund : UInt64
  thash : Hash
  bhash : Hash
  txIndex : UInt64
  /-- A hash without logs has the empty list. -/
  logs : Hash → List Log
  logSize : UInt64
  preimages : Hash → Option Bytes
  journal : Journal
  validRevisions : List Revision
  nextRevisionId : Nat

/-- The panics, and the errors of `Commit` and `Reset`. -/
inductive Failure where
  /-- panic "Refund counter below zero" -/
  | refundBelowZero
  /-- panic "revision id %v cannot be reverted" -/
  | cannotBeReverted (revid : Nat)
  /-- A nil state object is dereferenced. -/
  | nilObject (addr : Address)
  /-- panic "can't encode object at %x: %v" -/
  | cannotEncode (addr : Address)
  /-- The `dbErr` of an object. -/
  | dbErr (addr : Address)
  | missingRoot (root : Hash)
  deriving DecidableEq

namespace StateDB

/-- `New` on a trie that is open. -/
def opened (db : Database) (trie : SecureTrie) : StateDB where
  db := db
  trie := trie
  stateObjects _ := none
  stateObjectsDirty _ := false
  refund := 0
  thash := Hash.zero
  bhash := Hash.zero
  txIndex := 0
  logs _ := []
  logSize := 0
  preimages _ := none
  journal := newJournal
  validRevisions := []
  nextRevisionId := 0
def new (root : Hash) (db : Database) : Option StateDB := (db.openTrie root).map (opened db)

def append (s : StateDB) (entry : Entry) : StateDB := { s with journal := s.journal.append entry }
def setStateObject (s : StateDB) (object : StateObject) : StateDB :=
  { s with stateObjects := Function.update s.stateObjects object.address (some object) }
def clearJournalAndRefund (s : StateDB) : StateDB := { s with journal := newJournal, validRevisions := [], refund := 0 }

/-- The object in the trie. -/
def load (s : StateDB) (addr : Address) : Option StateObject :=
  ((Secure.tryGet keccak s.trie addr.bytes).bind decodeAccount).map (newObject addr)
def getStateObject (s : StateDB) (addr : Address) : Option StateObject × StateDB :=
  match s.stateObjects addr with
  | some obj => (if obj.deleted then none else some obj,s)
  | none =>
    match s.load keccak addr with
    | none => (none,s)
    | some obj => (some obj,s.setStateObject obj)
/-- `createObject`, with the object that was there. -/
def createObject (s : StateDB) (addr : Address) : StateObject × Option StateObject × StateDB :=
  match s.getStateObject keccak addr with
  | (none,s) => (emptyObject keccak addr,none,(s.append (.createObjectChange addr)).setStateObject (emptyObject keccak addr))
  | (some prev,s) =>
    (emptyObject keccak addr,some prev,(s.append (.resetObjectChange prev)).setStateObject (emptyObject keccak addr))
def getOrNewStateObject (s : StateDB) (addr : Address) : StateObject × StateDB :=
  match s.getStateObject keccak addr with
  | (some obj,s) => (obj,s)
  | (none,s) => ((s.createObject keccak addr).1,(s.createObject keccak addr).2.2)

/-! Reads: the object that is read may cache what it loads. -/

def read {α : Type} (s : StateDB) (addr : Address) (absent : α) (f : StateObject → α × StateObject) : α × StateDB :=
  match s.getStateObject keccak addr with
  | (none,s) => (absent,s)
  | (some obj,s) => ((f obj).1,s.setStateObject (f obj).2)
def exist (s : StateDB) (addr : Address) : Bool × StateDB := s.read keccak addr false fun o => (true,o)
def isEmpty (s : StateDB) (addr : Address) : Bool × StateDB := s.read keccak addr true fun o => (o.empty keccak,o)
def getBalance (s : StateDB) (addr : Address) : Int × StateDB := s.read keccak addr 0 fun o => (o.data.balance,o)
def getNonce (s : StateDB) (addr : Address) : UInt64 × StateDB := s.read keccak addr 0 fun o => (o.data.nonce,o)
def getCode (s : StateDB) (addr : Address) : Option Bytes × StateDB := s.read keccak addr none fun o => o.loadCode keccak s.db
def getCodeSize (s : StateDB) (addr : Address) : Nat × StateDB := s.read keccak addr 0 fun o => (o.codeSize s.db,o)
def getCodeHash (s : StateDB) (addr : Address) : Hash × StateDB :=
  s.read keccak addr Hash.zero fun o => (o.data.codeHash,o)
def getState (s : StateDB) (addr : Address) (key : Hash) : Hash × StateDB :=
  s.read keccak addr Hash.zero fun o => o.getState keccak s.db key
def getCommittedState (s : StateDB) (addr : Address) (key : Hash) : Hash × StateDB :=
  s.read keccak addr Hash.zero fun o => o.getCommittedState keccak s.db key
def hasSuicided (s : StateDB) (addr : Address) : Bool × StateDB := s.read keccak addr false fun o => (o.suicided,o)

/-! Changes: each is journaled first. -/

def ripemd : Address := bytesToAddress [3]
/-- `touch` of an object. -/
def touch (s : StateDB) (o : StateObject) : StateDB :=
  let s := s.append (.touchChange o.address)
  if o.address = ripemd then { s with journal := s.journal.dirty o.address } else s
/-- `SetBalance` of an object. -/
def putBalance (s : StateDB) (o : StateObject) (amount : Int) : StateDB :=
  (s.append (.balanceChange o.address o.data.balance)).setStateObject { o with data.balance := amount }
def addBalance (s : StateDB) (addr : Address) (amount : Int) : StateDB :=
  let (o,s) := s.getOrNewStateObject keccak addr
  if amount = 0 then (if o.empty keccak then s.touch o else s) else s.putBalance o (o.data.balance + amount)
def subBalance (s : StateDB) (addr : Address) (amount : Int) : StateDB :=
  let (o,s) := s.getOrNewStateObject keccak addr
  if amount = 0 then s else s.putBalance o (o.data.balance - amount)
def setBalance (s : StateDB) (addr : Address) (amount : Int) : StateDB :=
  let (o,s) := s.getOrNewStateObject keccak addr
  s.putBalance o amount
def setNonce (s : StateDB) (addr : Address) (nonce : UInt64) : StateDB :=
  let (o,s) := s.getOrNewStateObject keccak addr
  (s.append (.nonceChange o.address o.data.nonce)).setStateObject { o with data.nonce := nonce }
def setCode (s : StateDB) (addr : Address) (code : Option Bytes) : StateDB :=
  let (o,s) := s.getOrNewStateObject keccak addr
  let (prevcode,o) := o.loadCode keccak s.db
  (s.append (.codeChange o.address prevcode o.data.codeHash)).setStateObject (o.putCode (keccak (code.getD [])) code)
def setState (s : StateDB) (addr : Address) (key value : Hash) : StateDB :=
  let (o,s) := s.getOrNewStateObject keccak addr
  let (prev,o) := o.getState keccak s.db key
  if prev = value then s.setStateObject o
  else (s.append (.storageChange o.address key prev)).setStateObject (o.putState key value)
def createAccount (s : StateDB) (addr : Address) : StateDB :=
  match s.createObject keccak addr with
  | (_,none,s) => s
  | (new,some prev,s) => s.setStateObject { new with data.balance := prev.data.balance }
def suicide (s : StateDB) (addr : Address) : Bool × StateDB :=
  match s.getStateObject keccak addr with
  | (none,s) => (false,s)
  | (some o,s) => (true,(s.append (.suicideChange addr o.suicided o.data.balance)).setStateObject
      { o with suicided := true, data.balance := 0 })
def addRefund (s : StateDB) (gas : UInt64) : StateDB :=
  { s.append (.refundChange s.refund) with refund := s.refund + gas }
def subRefund (s : StateDB) (gas : UInt64) : Except Failure StateDB :=
  if gas > s.refund then .error .refundBelowZero
  else .ok { s.append (.refundChange s.refund) with refund := s.refund - gas }
def addLog (s : StateDB) (log : Log) : StateDB :=
  let log := { log with txHash := s.thash, blockHash := s.bhash, txIndex := s.txIndex, index := s.logSize }
  { s.append (.addLogChange s.thash) with
    logs := Function.update s.logs s.thash (s.logs s.thash ++ [log]), logSize := s.logSize + 1 }
def addPreimage (s : StateDB) (hash : Hash) (preimage : Bytes) : StateDB :=
  if (s.preimages hash).isSome then s
  else { s.append (.addPreimageChange hash) with preimages := Function.update s.preimages hash (some preimage) }

/-! Snapshots. -/

/-- Change the object of an entry that is reverted. -/
def onObject (s : StateDB) (addr : Address) (f : StateObject → StateObject) : Except Failure StateDB :=
  match s.getStateObject keccak addr with
  | (none,_) => .error (.nilObject addr)
  | (some o,s) => .ok (s.setStateObject (f o))
/-- `revert` of an entry. -/
def revertEntry (s : StateDB) : Entry → Except Failure StateDB
  | .createObjectChange account => .ok { s with
      stateObjects := Function.update s.stateObjects account none
      stateObjectsDirty := Function.update s.stateObjectsDirty account false }
  | .resetObjectChange prev => .ok (s.setStateObject prev)
  | .suicideChange account prev prevbalance =>
    match s.getStateObject keccak account with
    | (none,s) => .ok s
    | (some o,s) => .ok (s.setStateObject { o with suicided := prev, data.balance := prevbalance })
  | .balanceChange account prev => s.onObject keccak account fun o => { o with data.balance := prev }
  | .nonceChange account prev => s.onObject keccak account fun o => { o with data.nonce := prev }
  | .storageChange account key prevalue => s.onObject keccak account fun o => o.putState key prevalue
  | .codeChange account prevcode prevhash => s.onObject keccak account fun o => o.putCode prevhash prevcode
  | .refundChange prev => .ok { s with refund := prev }
  | .addLogChange txhash => .ok { s with
      logs := Function.update s.logs txhash (s.logs txhash).dropLast, logSize := s.logSize - 1 }
  | .addPreimageChange hash => .ok { s with preimages := Function.update s.preimages hash none }
  | .touchChange _ => .ok s
/-- A reverted entry no longer counts for its address. -/
def uncount (s : StateDB) (e : Entry) : StateDB := { s with journal.dirties := count s.journal.dirties e.dirtied (-1) }
/-- The loop of `journal.revert`, over the entries from the last one. -/
def revertEntries (s : StateDB) : List Entry → Except Failure StateDB
  | [] => .ok s
  | e :: es =>
    match s.revertEntry keccak e with
    | .error failure => .error failure
    | .ok s => revertEntries (s.uncount e) es
def snapshot (s : StateDB) : Nat × StateDB :=
  (s.nextRevisionId,{ s with
    nextRevisionId := s.nextRevisionId + 1
    validRevisions := s.validRevisions ++ [⟨s.nextRevisionId,s.journal.entries.length⟩] })
/-- The journal up to an entry and the revisions before one of them. -/
def cut (s : StateDB) (journalIndex idx : Nat) : StateDB := { s with
  journal.entries := s.journal.entries.take journalIndex
  validRevisions := s.validRevisions.take idx }
def revertToSnapshot (s : StateDB) (revid : Nat) : Except Failure StateDB :=
  let idx := s.validRevisions.findIdx (fun r => r.id ≥ revid)
  match s.validRevisions[idx]? with
  | none => .error (.cannotBeReverted revid)
  | some r =>
    if r.id ≠ revid then .error (.cannotBeReverted revid)
    else
      match s.revertEntries keccak (s.journal.entries.drop r.journalIndex).reverse with
      | .error failure => .error failure
      | .ok s => .ok (s.cut r.journalIndex idx)

/-! Writing the objects back. -/

/-- The orders in which the keys of the maps come up in the loops of one call. -/
structure Order where
  /-- `journal.dirties` -/
  dirties : List Address
  /-- `stateObjects` -/
  objects : List Address
  /-- `stateObjectsDirty` -/
  flagged : List Address
  /-- `dirtyStorage` of the object of an address -/
  slots : Address → List Hash

/-- The address is in `stateObjectsDirty` or not. -/
def setDirty (s : StateDB) (addr : Address) (dirty : Bool) : StateDB :=
  { s with stateObjectsDirty := Function.update s.stateObjectsDirty addr dirty }
def updateStateObject (s : StateDB) (o : StateObject) : Except Failure StateDB :=
  match encodeAccount o.data with
  | none => .error (.cannotEncode o.address)
  | some data => .ok { s.setStateObject o with trie := Secure.tryUpdate keccak s.trie o.address.bytes data }
def deleteStateObject (s : StateDB) (o : StateObject) : StateDB :=
  { s.setStateObject { o with deleted := true } with trie := Secure.tryDelete keccak s.trie o.address.bytes }
/-- One round of the loop of `Finalise`. -/
def finaliseObject (deleteEmptyObjects : Bool) (order : Order) (s : StateDB) (addr : Address) : Except Failure StateDB :=
  match s.stateObjects addr with
  | none => .ok s
  | some o =>
    (if o.suicided || (deleteEmptyObjects && o.empty keccak) then .ok (s.deleteStateObject keccak o)
      else s.updateStateObject keccak (o.updateRoot keccak s.db (order.slots addr))).map fun s => s.setDirty addr true
def finalise (s : StateDB) (deleteEmptyObjects : Bool) (order : Order) : Except Failure StateDB := do
  let s ← order.dirties.foldlM (finaliseObject keccak deleteEmptyObjects order) s
  return s.clearJournalAndRefund
def intermediateRoot (s : StateDB) (deleteEmptyObjects : Bool) (order : Order) : Except Failure (Hash × StateDB) := do
  let s ← s.finalise keccak deleteEmptyObjects order
  return (Secure.hash keccak s.trie,s)
/-- The branch of `Commit` that writes an object: its code, its storage and itself. -/
def commitDirty (s : StateDB) (o : StateObject) (keys : List Hash) : Except Failure StateDB :=
  match (o.commitCode s.db).2.commitTrie keccak (o.commitCode s.db).1 keys with
  | none => .error (.dbErr o.address)
  | some (db,o) => updateStateObject keccak { s with db := db } o
/-- One round of the loop of `Commit`. -/
def commitObject (deleteEmptyObjects : Bool) (order : Order) (s : StateDB) (addr : Address) : Except Failure StateDB :=
  match s.stateObjects addr with
  | none => .ok s
  | some o =>
    let isDirty := s.stateObjectsDirty addr
    (if o.suicided || (isDirty && deleteEmptyObjects && o.empty keccak) then .ok (s.deleteStateObject keccak o)
      else if isDirty then s.commitDirty keccak o (order.slots addr) else .ok s).map fun s => s.setDirty addr false
/-- The first loop of `Commit`. -/
def markDirty (s : StateDB) (dirties : List Address) : StateDB := dirties.foldl (fun s addr => s.setDirty addr true) s
def commit (s : StateDB) (deleteEmptyObjects : Bool) (order : Order) : Except Failure (Hash × StateDB) := do
  let s ← order.objects.foldlM (commitObject keccak deleteEmptyObjects order) (s.markDirty order.dirties)
  return (Secure.hash keccak s.trie,clearJournalAndRefund { s with db := s.db.commitTrie keccak s.trie })
def reset (s : StateDB) (root : Hash) : Except Failure StateDB :=
  match s.db.openTrie root with
  | none => .error (.missingRoot root)
  | some trie => .ok { opened s.db trie with nextRevisionId := s.nextRevisionId }
def prepare (s : StateDB) (thash bhash : Hash) (ti : UInt64) : StateDB :=
  { s with thash := thash, bhash := bhash, txIndex := ti }
/-- The first loop of `Copy` copies the object of the address. -/
def copiedFirst (s : StateDB) (addr : Address) : Bool := s.journal.dirties addr ≠ 0 && (s.stateObjects addr).isSome
def copied (s : StateDB) (addr : Address) : Bool := s.copiedFirst addr || s.stateObjectsDirty addr
/-- `Copy`: the objects that are dirty, over the same database. -/
def copy (s : StateDB) (order : Order) : Except Failure StateDB :=
  match order.flagged.find? (fun addr => !s.copiedFirst addr && (s.stateObjects addr).isNone) with
  | some addr => .error (.nilObject addr)
  | none => .ok { opened s.db s.trie with
      stateObjects := fun addr => if s.copied addr then (s.stateObjects addr).map StateObject.deepCopy else none
      stateObjectsDirty := s.copied
      refund := s.refund
      logs := s.logs
      logSize := s.logSize
      preimages := s.preimages }

end StateDB

/-! ### Commands and operations -/

/-- The calls that a transaction makes. -/
inductive Cmd where
  | createAccount (addr : Address)
  | subBalance (addr : Address) (amount : Int)
  | addBalance (addr : Address) (amount : Int)
  | setBalance (addr : Address) (amount : Int)
  | getBalance (addr : Address)
  | getNonce (addr : Address)
  | setNonce (addr : Address) (nonce : UInt64)
  | getCodeHash (addr : Address)
  | getCode (addr : Address)
  | setCode (addr : Address) (code : Option Bytes)
  | getCodeSize (addr : Address)
  | addRefund (gas : UInt64)
  | subRefund (gas : UInt64)
  | getRefund
  | getCommittedState (addr : Address) (key : Hash)
  | getState (addr : Address) (key : Hash)
  | setState (addr : Address) (key value : Hash)
  | suicide (addr : Address)
  | hasSuicided (addr : Address)
  | exist (addr : Address)
  | isEmpty (addr : Address)
  | revertToSnapshot (revid : Nat)
  | snapshot
  | addLog (log : Log)
  | addPreimage (hash : Hash) (preimage : Bytes)

def Cmd.Reply : Cmd → Type
  | .getBalance _ => Int
  | .getNonce _ => UInt64
  | .getCodeHash _ => Hash
  | .getCode _ => Option Bytes
  | .getCodeSize _ => Nat
  | .getRefund => UInt64
  | .getCommittedState _ _ => Hash
  | .getState _ _ => Hash
  | .suicide _ => Bool
  | .hasSuicided _ => Bool
  | .exist _ => Bool
  | .isEmpty _ => Bool
  | .snapshot => Nat
  | _ => Unit

def StateDB.exec (s : StateDB) : (c : Cmd) → Except Failure (c.Reply × StateDB)
  | .createAccount addr => .ok ((),s.createAccount keccak addr)
  | .subBalance addr amount => .ok ((),s.subBalance keccak addr amount)
  | .addBalance addr amount => .ok ((),s.addBalance keccak addr amount)
  | .setBalance addr amount => .ok ((),s.setBalance keccak addr amount)
  | .getBalance addr => .ok (s.getBalance keccak addr)
  | .getNonce addr => .ok (s.getNonce keccak addr)
  | .setNonce addr nonce => .ok ((),s.setNonce keccak addr nonce)
  | .getCodeHash addr => .ok (s.getCodeHash keccak addr)
  | .getCode addr => .ok (s.getCode keccak addr)
  | .setCode addr code => .ok ((),s.setCode keccak addr code)
  | .getCodeSize addr => .ok (s.getCodeSize keccak addr)
  | .addRefund gas => .ok ((),s.addRefund gas)
  | .subRefund gas => (s.subRefund gas).map fun s => ((),s)
  | .getRefund => .ok (s.refund,s)
  | .getCommittedState addr key => .ok (s.getCommittedState keccak addr key)
  | .getState addr key => .ok (s.getState keccak addr key)
  | .setState addr key value => .ok ((),s.setState keccak addr key value)
  | .suicide addr => .ok (s.suicide keccak addr)
  | .hasSuicided addr => .ok (s.hasSuicided keccak addr)
  | .exist addr => .ok (s.exist keccak addr)
  | .isEmpty addr => .ok (s.isEmpty keccak addr)
  | .revertToSnapshot revid => (s.revertToSnapshot keccak revid).map fun s => ((),s)
  | .snapshot => .ok s.snapshot
  | .addLog log => .ok ((),s.addLog log)
  | .addPreimage hash preimage => .ok ((),s.addPreimage hash preimage)

/-- The commands of transactions and what happens between them. -/
inductive Op where
  | cmd (c : Cmd)
  | prepare (thash bhash : Hash) (ti : UInt64)
  | finalise (deleteEmptyObjects : Bool) (order : StateDB.Order)
  | intermediateRoot (deleteEmptyObjects : Bool) (order : StateDB.Order)
  | commit (deleteEmptyObjects : Bool) (order : StateDB.Order)
  | copy (order : StateDB.Order)
  | reset (root : Hash)

/-- The root is answered where the operation has one. -/
def step (s : StateDB) : Op → Except Failure (StateDB × Option Hash)
  | .cmd c => (s.exec keccak c).map fun r => (r.2,none)
  | .prepare thash bhash ti => .ok (s.prepare thash bhash ti,none)
  | .finalise del order => (s.finalise keccak del order).map fun s => (s,none)
  | .intermediateRoot del order => (s.intermediateRoot keccak del order).map fun r => (r.2,some r.1)
  | .commit del order => (s.commit keccak del order).map fun r => (r.2,some r.1)
  | .copy order => (s.copy order).map fun s => (s,none)
  | .reset root => (s.reset root).map fun s => (s,none)

end
end Canchain.State
