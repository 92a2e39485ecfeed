import Canchain.State

/-!
What the account state is for: a map of accounts with their storage, a refund counter, logs and
preimages, of which a snapshot is a copy. The journal entries appear only through the change
that each one takes back (`undo`).
-/
namespace Canchain.Worlds
open Rlp Common State
open Secure (SecureTrie)

/-- What the getters of the state show of an account. -/
@[ext] structure Acct where
  balance : Int
  nonce : UInt64
  codeHash : Hash
  code : Option Bytes
  codeSize : Nat
  suicided : Bool
  storage : Hash → Hash
  committed : Hash → Hash

@[ext] structure World where
  db : Database
  accounts : Address → Option Acct
  refund : UInt64
  thash : Hash
  bhash : Hash
  txIndex : UInt64
  logs : Hash → List Log
  logSize : UInt64
  preimages : Hash → Option Bytes

section
variable (keccak : Bytes → Hash)

/-- The code of an account that holds the hash and perhaps the code. -/
def codeAt (db : Database) (hash : Hash) (code : Option Bytes) : Option Bytes :=
  match code with
  | some code => some code
  | none => if hash = emptyCodeHash keccak then none else db.codes hash
def sizeAt (db : Database) (hash : Hash) (code : Option Bytes) : Nat :=
  match code with
  | some code => code.length
  | none => ((db.codes hash).getD []).length

namespace Acct

def setCode (db : Database) (hash : Hash) (code : Option Bytes) (x : Acct) : Acct :=
  { x with codeHash := hash, code := codeAt keccak db hash code, codeSize := sizeAt db hash code }
def empty (x : Acct) : Bool := x.nonce = 0 ∧ x.balance = 0 ∧ x.codeHash = emptyCodeHash keccak
/-- An account that was just created. -/
def new (db : Database) : Acct where
  balance := 0
  nonce := 0
  codeHash := emptyCodeHash keccak
  code := none
  codeSize := sizeAt db (emptyCodeHash keccak) none
  suicided := false
  storage _ := Hash.zero
  committed _ := Hash.zero

end Acct

namespace World

def set (w : World) (addr : Address) (x : Acct) : World := { w with accounts := Function.update w.accounts addr (some x) }
/-- Change an account, which is created if it does not exist. -/
def change (w : World) (addr : Address) (f : Acct → Acct) : World :=
  w.set addr (f ((w.accounts addr).getD (Acct.new keccak w.db)))
/-- Change an account if it exists. -/
def modify (w : World) (addr : Address) (f : Acct → Acct) : World :=
  { w with accounts := Function.update w.accounts addr ((w.accounts addr).map f) }
def addLog (w : World) (log : Log) : World := { w with
  logs := Function.update w.logs w.thash (w.logs w.thash ++
    [{ log with txHash := w.thash, blockHash := w.bhash, txIndex := w.txIndex, index := w.logSize }])
  logSize := w.logSize + 1 }
def addPreimage (w : World) (hash : Hash) (preimage : Bytes) : World :=
  if (w.preimages hash).isSome then w else { w with preimages := Function.update w.preimages hash (some preimage) }

end World

/-! What an object shows, over the database its trie and code are in. -/

def trieOf (db : Database) (o : StateObject) : SecureTrie := o.trie.getD ((db.openTrie o.data.root).getD Secure.empty)
/-- The value of a slot in a storage trie. -/
def slotOf (t : SecureTrie) (key : Hash) : Hash := (StateObject.decodeSlot (Secure.tryGet keccak t key.bytes)).1
def committedAt (db : Database) (o : StateObject) (key : Hash) : Hash :=
  (o.originStorage key).getD (slotOf keccak (trieOf db o) key)
def stateAt (db : Database) (o : StateObject) (key : Hash) : Hash :=
  (o.dirtyStorage key).getD (committedAt keccak db o key)
def acctOf (db : Database) (o : StateObject) : Acct where
  balance := o.data.balance
  nonce := o.data.nonce
  codeHash := o.data.codeHash
  code := codeAt keccak db o.data.codeHash o.code
  codeSize := sizeAt db o.data.codeHash o.code
  suicided := o.suicided
  storage := stateAt keccak db o
  committed := committedAt keccak db o

/-- The change that an entry takes back. -/
def undo (e : Entry) (w : World) : World :=
  match e with
  | .createObjectChange account => { w with accounts := Function.update w.accounts account none }
  | .resetObjectChange prev => w.set prev.address (acctOf keccak w.db prev)
  | .suicideChange account prev prevbalance => w.modify account fun x => { x with suicided := prev, balance := prevbalance }
  | .balanceChange account prev => w.modify account fun x => { x with balance := prev }
  | .nonceChange account prev => w.modify account fun x => { x with nonce := prev }
  | .storageChange account key prevalue => w.modify account fun x => { x with storage := Function.update x.storage key prevalue }
  | .codeChange account prevcode prevhash => w.modify account (Acct.setCode keccak w.db prevhash prevcode)
  | .refundChange prev => { w with refund := prev }
  | .addLogChange txhash => { w with
      logs := Function.update w.logs txhash (w.logs txhash).dropLast, logSize := w.logSize - 1 }
  | .addPreimageChange hash => { w with preimages := Function.update w.preimages hash none }
  | .touchChange _ => w

/-! ### Snapshots as copies -/

/-- The world and the copies that its snapshots made. -/
@[ext] structure Copies where
  world : World
  saved : List (Nat × World)
  nextId : Nat

namespace Copies

def put (k : Copies) (w : World) : Copies := { k with world := w }
def snapshot (k : Copies) : Nat × Copies :=
  (k.nextId,{ k with saved := k.saved ++ [(k.nextId,k.world)], nextId := k.nextId + 1 })
def revertToSnapshot (k : Copies) (revid : Nat) : Except Failure Copies :=
  let idx := k.saved.findIdx (fun c => c.1 ≥ revid)
  match k.saved[idx]? with
  | none => .error (.cannotBeReverted revid)
  | some c =>
    if c.1 ≠ revid then .error (.cannotBeReverted revid)
    else .ok { k with world := c.2, saved := k.saved.take idx }
/-- A read of an account. -/
def read {α : Type} (k : Copies) (addr : Address) (absent : α) (f : Acct → α) : α × Copies :=
  (((k.world.accounts addr).map f).getD absent,k)

def exec (k : Copies) : (c : Cmd) → Except Failure (c.Reply × Copies)
  | .createAccount addr => .ok ((),k.put (k.world.set addr
      { Acct.new keccak k.world.db with balance := ((k.world.accounts addr).map Acct.balance).getD 0 }))
  | .subBalance addr amount => .ok ((),k.put (k.world.change keccak addr fun x => { x with balance := x.balance - amount }))
  | .addBalance addr amount => .ok ((),k.put (k.world.change keccak addr fun x => { x with balance := x.balance + amount }))
  | .setBalance addr amount => .ok ((),k.put (k.world.change keccak addr fun x => { x with balance := amount }))
  | .getBalance addr => .ok (k.read addr (0 : Int) Acct.balance)
  | .getNonce addr => .ok (k.read addr (0 : UInt64) Acct.nonce)
  | .setNonce addr nonce => .ok ((),k.put (k.world.change keccak addr fun x => { x with nonce := nonce }))
  | .getCodeHash addr => .ok (k.read addr Hash.zero Acct.codeHash)
  | .getCode addr => .ok (k.read addr none Acct.code)
  | .setCode addr code => .ok ((),k.put (k.world.change keccak addr
      (Acct.setCode keccak k.world.db (keccak (code.getD [])) code)))
  | .getCodeSize addr => .ok (k.read addr (0 : Nat) Acct.codeSize)
  | .addRefund gas => .ok ((),k.put { k.world with refund := k.world.refund + gas })
  | .subRefund gas =>
    if gas > k.world.refund then .error .refundBelowZero
    else .ok ((),k.put { k.world with refund := k.world.refund - gas })
  | .getRefund => .ok (k.world.refund,k)
  | .getCommittedState addr key => .ok (k.read addr Hash.zero fun x => x.committed key)
  | .getState addr key => .ok (k.read addr Hash.zero fun x => x.storage key)
  | .setState addr key value => .ok ((),k.put (k.world.change keccak addr fun x =>
      { x with storage := Function.update x.storage key value }))
  | .suicide addr => .ok ((k.world.accounts addr).isSome,k.put (k.world.modify addr fun x =>
      { x with suicided := true, balance := 0 }))
  | .hasSuicided addr => .ok (k.read addr false Acct.suicided)
  | .exist addr => .ok (k.read addr false fun _ => true)
  | .isEmpty addr => .ok (k.read addr true (Acct.empty keccak))
  | .revertToSnapshot revid => (k.revertToSnapshot revid).map fun k => ((),k)
  | .snapshot => .ok k.snapshot
  | .addLog log => .ok ((),k.put (k.world.addLog log))
  | .addPreimage hash preimage => .ok ((),k.put (k.world.addPreimage hash preimage))

end Copies
end
end Canchain.Worlds
