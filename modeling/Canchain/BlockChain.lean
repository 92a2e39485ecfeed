import Canchain.Types
import Canchain.Lru
import Canchain.State

/-!
Writing a block to the chain, after `kernel/blockchain.go`, `kernel/headerchain.go` and
`kernel/rawdb`. The store has a map for each kind of key; only the last batch of
`WriteBlockWithState` may fail. What other components decide is part of a write: the results of
`state.Commit` and `triedb.Commit`, the size of the trie cache, the coin of a tie and the time.
-/
namespace Canchain.Chain
open Rlp Common Types State

/-! ### The store -/

structure TxLookupEntry where
  blockHash : Hash
  blockIndex : Nat
  index : Nat
  deriving DecidableEq
/-- The part of a receipt that is read here. -/
structure Receipt where
  logs : List Log
structure Body where
  transactions : List Transaction
  uncles : List Header

/-- The key-value store; the numbers in its keys are `uint64`. -/
structure Db where
  headers : Nat → Hash → Option Header
  bodies : Nat → Hash → Option Body
  numbers : Hash → Option Nat
  tds : Nat → Hash → Option Nat
  canonical : Nat → Option Hash
  receipts : Nat → Hash → Option (List Receipt)
  lookups : Hash → Option TxLookupEntry
  headBlock : Option Hash
  headHeader : Option Hash
  headFastBlock : Option Hash

def Db.empty : Db where
  headers _ _ := none
  bodies _ _ := none
  numbers _ := none
  tds _ _ := none
  canonical _ := none
  receipts _ _ := none
  lookups _ := none
  headBlock := none
  headHeader := none
  headFastBlock := none

/-- A map with two keys, changed at one pair. -/
def put {α : Type} (m : Nat → Hash → Option α) (number : Nat) (hash : Hash) (a : α) : Nat → Hash → Option α :=
  fun n h => if n = number ∧ h = hash then some a else m n h

namespace Db

/-- `ReadCanonicalHash`: no entry reads as the zero hash. -/
def readCanonicalHash (db : Db) (number : Nat) : Hash := (db.canonical number).getD Hash.zero
def writeCanonicalHash (db : Db) (hash : Hash) (number : Nat) : Db :=
  { db with canonical := Function.update db.canonical number (some hash) }
def writeTd (db : Db) (hash : Hash) (number td : Nat) : Db := { db with tds := put db.tds number hash td }
def writeReceipts (db : Db) (hash : Hash) (number : Nat) (receipts : List Receipt) : Db :=
  { db with receipts := put db.receipts number hash receipts }
def readBlock (db : Db) (hash : Hash) (number : Nat) : Option Block :=
  match db.headers number hash, db.bodies number hash with
  | some header, some body => some ⟨header,body.uncles,body.transactions⟩
  | _, _ => none

variable (keccak : Bytes → Hash)

def writeBlock (db : Db) (block : Block) : Db :=
  { db with
    bodies := put db.bodies block.numberU64 (block.hash keccak) ⟨block.transactions,block.uncles⟩
    numbers := Function.update db.numbers (block.hash keccak) (some block.numberU64)
    headers := put db.headers block.numberU64 (block.hash keccak) block.header }
/-- The entries `WriteTxLookupEntries` puts, from a position of the block on. -/
def putLookups (block : Block) : Nat → List Transaction → (Hash → Option TxLookupEntry) → Hash → Option TxLookupEntry
  | _, [], lookups => lookups
  | i, tx :: txs, lookups =>
    putLookups block (i+1) txs
      (Function.update lookups (tx.hash keccak) (some ⟨block.hash keccak,block.numberU64,i⟩))
def writeTxLookupEntries (db : Db) (block : Block) : Db :=
  { db with lookups := putLookups keccak block 0 block.transactions db.lookups }
def deleteTxLookupEntry (db : Db) (hash : Hash) : Db := { db with lookups := Function.update db.lookups hash none }

end Db

/-! ### Reading through the caches -/

structure Caches where
  headerCache : Lru Hash Header
  tdCache : Lru Hash Nat
  numberCache : Lru Hash Nat
  blockCache : Lru Hash Block

def headerCacheLimit : Nat := 512
def tdCacheLimit : Nat := 1024
def numberCacheLimit : Nat := 2048
def blockCacheLimit : Nat := 256

def Caches.empty : Caches :=
  ⟨Lru.new headerCacheLimit,Lru.new tdCacheLimit,Lru.new numberCacheLimit,Lru.new blockCacheLimit⟩

/-- What a cache or, if it has nothing, the store has for a hash; a value from the store is kept. -/
def readThrough {ν : Type} (cache : Lru Hash ν) (hash : Hash) (stored : Option ν) : Option ν × Lru Hash ν :=
  match (cache.get hash).1, stored with
  | some v, _ => (some v,(cache.get hash).2)
  | none, some v => (some v,(cache.get hash).2.add hash v)
  | none, none => (none,(cache.get hash).2)

namespace Caches

def getTd (c : Caches) (db : Db) (hash : Hash) (number : Nat) : Option Nat × Caches :=
  let read := readThrough c.tdCache hash (db.tds number hash)
  (read.1,{ c with tdCache := read.2 })
def getHeader (c : Caches) (db : Db) (hash : Hash) (number : Nat) : Option Header × Caches :=
  let read := readThrough c.headerCache hash (db.headers number hash)
  (read.1,{ c with headerCache := read.2 })
def getBlockNumber (c : Caches) (db : Db) (hash : Hash) : Option Nat × Caches :=
  let read := readThrough c.numberCache hash (db.numbers hash)
  (read.1,{ c with numberCache := read.2 })
/-- A block that is read is kept under its own hash, which is the one it is stored under. -/
def getBlock (c : Caches) (db : Db) (hash : Hash) (number : Nat) : Option Block × Caches :=
  let read := readThrough c.blockCache hash (db.readBlock hash number)
  (read.1,{ c with blockCache := read.2 })
def getHeaderByNumber (c : Caches) (db : Db) (number : Nat) : Option Header × Caches :=
  if db.readCanonicalHash number = Hash.zero then (none,c) else c.getHeader db (db.readCanonicalHash number) number

end Caches

/-! ### The chain -/

/-- A command to the trie database. -/
inductive TrieCommand where
  | reference (root : Hash)
  | dereference (root : Hash)
  | cap (limit : Int)
  | commit (root : Hash)
  deriving DecidableEq

structure BlockChain where
  db : Db
  caches : Caches
  genesisBlock : Block
  currentBlock : Block
  currentFastBlock : Block
  currentHeader : Header
  currentHeaderHash : Hash
  /-- The roots that are still referenced, with their priorities, the highest first. -/
  triegc : List (Hash × Int)
  gcproc : Nat
  lastWrite : Nat

structure CacheConfig where
  disabled : Bool
  trieDirtyLimit : Nat
  trieTimeLimit : Nat
structure Config where
  cacheConfig : CacheConfig
  shouldPreserve : Option (Block → Bool)

/-- What ends the process or keeps a call from returning. -/
inductive Panic where
  /-- A nil pointer is dereferenced. -/
  | nilDereference
  /-- A loop that does not end. -/
  | endless
inductive WriteError where
  | unknownAncestor
  | invalidOldChain
  | invalidNewChain
  | stateCommit (text : String)
  | trieCommit (text : String)
  | batchWrite (text : String)
  deriving DecidableEq
/-- The text of the errors that are made here. -/
def WriteError.text : WriteError → String
  | unknownAncestor => "unknown ancestor"
  | invalidOldChain => "Invalid old chain"
  | invalidNewChain => "Invalid new chain"
  | stateCommit text => text
  | trieCommit text => text
  | batchWrite text => text
inductive WriteStatus where
  | nonStatTy | canonStatTy | sideStatTy
  deriving DecidableEq
/-- What is sent to the feeds of the chain. -/
inductive Event where
  | removedLogs (logs : List Log)
  | chainSide (block : Block)

/-- The argument of `WriteBlockWithState` and what the components it calls answer. -/
structure Write where
  block : Block
  receipts : List Receipt
  /-- The result of `state.Commit`. -/
  stateCommit : Except String Hash
  /-- The result of `triedb.Commit` of an archive node. -/
  trieCommit : Except String Unit
  /-- The sizes that `triedb.Size` gives. -/
  trieSize : Nat × Nat
  /-- The time that was added to `gcproc` since the last write. -/
  elapsed : Nat
  /-- `mrand.Float64() < 0.5`. -/
  coin : Bool
  /-- The result of writing the last batch. -/
  batchWrite : Except String Unit
structure Written where
  status : WriteStatus
  err : Option WriteError
  trie : List TrieCommand
  events : List Event

def triesInMemory : Nat := 128
def idealBatchSize : Nat := 100*1024

/-- `n - 1` of a `uint64`. -/
def before (n : Nat) : Nat := (n + 2^64 - 1) % 2^64
/-- The `int64` with the bits of a `uint64`. -/
def toInt64 (n : Nat) : Int := if n < 2^63 then n else (n : Int) - 2^64
/-- The `uint64` with the bits of an `int64`. -/
def toUint64 (n : Int) : Nat := (n % 2^64).toNat

/-- `Push` of the priority queue. -/
def push (item : Hash × Int) : List (Hash × Int) → List (Hash × Int)
  | [] => [item]
  | first :: rest => if item.2 > first.2 then item :: first :: rest else first :: push item rest
/-- The loop that dereferences the roots up to a block. -/
def release (chosen : Nat) : List (Hash × Int) → List TrieCommand × List (Hash × Int)
  | [] => ([],[])
  | (root,number) :: rest =>
    if toUint64 (-number) > chosen then ([],(root,number) :: rest)
    else (.dereference root :: (release chosen rest).1,(release chosen rest).2)

namespace BlockChain

/-- What a node that does not keep every state does with a new root: it commits or
releases the states that are more than `triesInMemory` blocks old. The header of that
height is dereferenced whether it was found or not. -/
def collect (cfg : Config) (bc : BlockChain) (root : Hash) (w : Write) : Except Panic (BlockChain × List TrieCommand) :=
  let current := w.block.numberU64
  let bc := { bc with triegc := push (root,-toInt64 current) bc.triegc }
  if current > triesInMemory then
    let limit : Nat := cfg.cacheConfig.trieDirtyLimit*1024*1024
    let cap := if w.trieSize.1 > limit ∨ w.trieSize.2 > 4*1024*1024 then [TrieCommand.cap ((limit : Int) - idealBatchSize)] else []
    let read := bc.caches.getHeaderByNumber bc.db (current - triesInMemory)
    match read.1 with
    | none => .error .nilDereference
    | some header =>
      let chosen := header.numberU64
      let late := decide (bc.gcproc > cfg.cacheConfig.trieTimeLimit)
      let released := release chosen bc.triegc
      .ok ({ bc with
              caches := read.2
              lastWrite := if late then chosen else bc.lastWrite
              gcproc := if late then 0 else bc.gcproc
              triegc := released.2 },
            .reference root :: cap ++ (if late then [.commit header.root] else []) ++ released.1)
  else .ok (bc,[.reference root])

variable (keccak : Bytes → Hash)

def insert (bc : BlockChain) (block : Block) : BlockChain :=
  let updateHeads := decide (bc.db.readCanonicalHash block.numberU64 ≠ block.hash keccak)
  let db := { bc.db.writeCanonicalHash (block.hash keccak) block.numberU64 with headBlock := some (block.hash keccak) }
  if updateHeads then
    { bc with
      db := { db with headHeader := some (block.hash keccak), headFastBlock := some (block.hash keccak) }
      currentBlock := block
      currentHeader := block.header
      currentHeaderHash := block.hash keccak
      currentFastBlock := block }
  else { bc with db := db, currentBlock := block }

/-! ### Reorganisations -/

/-- What `reorg` gathers on the way to the common block. -/
structure Walk where
  caches : Caches
  oldChain : List Block
  newChain : List Block
  deletedTxs : List Transaction
  deletedLogs : List Log

/-- `collectLogs` of `reorg`. -/
def collectLogs (db : Db) (c : Caches) (hash : Hash) : List Log × Caches :=
  let read := c.getBlockNumber db hash
  match read.1 with
  | none => ([],read.2)
  | some number => (((db.receipts number hash).getD []).flatMap (·.logs),read.2)

namespace Walk

/-- A block leaves the canonical chain. -/
def drop (db : Db) (walk : Walk) (old : Block) : Walk :=
  let logs := collectLogs db walk.caches (old.hash keccak)
  { walk with
    caches := logs.2
    oldChain := walk.oldChain ++ [old]
    deletedTxs := walk.deletedTxs ++ old.transactions
    deletedLogs := walk.deletedLogs ++ logs.1 }
def add (walk : Walk) (new : Block) : Walk := { walk with newChain := walk.newChain ++ [new] }
/-- The parent of a block, as `GetBlock` finds it. -/
def parent (db : Db) (walk : Walk) (block : Block) : Option Block × Walk :=
  let read := walk.caches.getBlock db block.parentHash (before block.numberU64)
  (read.1,{ walk with caches := read.2 })

/-- The first loop: from the old block down to a number. -/
def lowerOld (db : Db) (target : Nat) : Nat → Walk → Option Block → Except Panic (Option Block × Walk)
  | _, walk, none => .ok (none,walk)
  | 0, _, some _ => .error .endless
  | fuel + 1, walk, some old =>
    if old.numberU64 = target then .ok (some old,walk)
    else
      let read := (walk.drop keccak db old).parent db old
      lowerOld db target fuel read.2 read.1
/-- The same from the new block. -/
def lowerNew (db : Db) (target : Nat) : Nat → Walk → Option Block → Except Panic (Option Block × Walk)
  | _, walk, none => .ok (none,walk)
  | 0, _, some _ => .error .endless
  | fuel + 1, walk, some new =>
    if new.numberU64 = target then .ok (some new,walk)
    else
      let read := (walk.add new).parent db new
      lowerNew db target fuel read.2 read.1
/-- The second loop: down to the common block. -/
def meet (db : Db) : Nat → Walk → Block → Block → Except Panic (Walk × Option WriteError)
  | 0, _, _, _ => .error .endless
  | fuel + 1, walk, old, new =>
    if old.hash keccak = new.hash keccak then .ok (walk,none)
    else
      let readOld := ((walk.drop keccak db old).add new).parent db old
      let readNew := readOld.2.parent db new
      match readOld.1, readNew.1 with
      | none, _ => .ok (readNew.2,some .invalidOldChain)
      | some _, none => .ok (readNew.2,some .invalidNewChain)
      | some old, some new => meet db fuel readNew.2 old new
/-- Both loops, from the old and the new head. -/
def find (db : Db) (c : Caches) (old new : Block) : Except Panic (Walk × Option WriteError) :=
  let walk : Walk := ⟨c,[],[],[],[]⟩
  let fuel := old.numberU64 + new.numberU64 + 1
  if old.numberU64 > new.numberU64 then
    match lowerOld keccak db new.numberU64 fuel walk (some old) with
    | .error panic => .error panic
    | .ok (none,walk) => .ok (walk,some .invalidOldChain)
    | .ok (some old,walk) => walk.meet keccak db fuel old new
  else
    match lowerNew db old.numberU64 fuel walk (some new) with
    | .error panic => .error panic
    | .ok (none,walk) => .ok (walk,some .invalidNewChain)
    | .ok (some new,walk) => walk.meet keccak db fuel old new

end Walk

/-- A block of the new chain is inserted and its transactions are indexed. -/
def adopt (bc : BlockChain) (block : Block) : BlockChain :=
  let bc := bc.insert keccak block
  { bc with db := bc.db.writeTxLookupEntries keccak block }
/-- What `reorg` does once the common block is known: the new chain from the bottom up,
then the entries of the transactions that are only in the old one are deleted. -/
def switch (bc : BlockChain) (walk : Walk) : BlockChain :=
  let bc := walk.newChain.reverse.foldl (adopt keccak) bc
  let addedTxs := walk.newChain.reverse.flatMap (·.transactions)
  let diff := txDifference keccak walk.deletedTxs addedTxs
  { bc with db := (diff.map (·.hash keccak)).foldl Db.deleteTxLookupEntry bc.db }
def events (walk : Walk) : List Event :=
  (if walk.deletedLogs.length > 0 then [.removedLogs walk.deletedLogs] else []) ++ walk.oldChain.map .chainSide
def reorg (bc : BlockChain) (old new : Block) : Except Panic (BlockChain × Option WriteError × List Event) :=
  match Walk.find keccak bc.db bc.caches old new with
  | .error panic => .error panic
  | .ok (walk,some err) => .ok ({ bc with caches := walk.caches },some err,[])
  | .ok (walk,none) => .ok (({ bc with caches := walk.caches }).switch keccak walk,none,events walk)

/-! ### Writing a block -/

/-- Whether the new block becomes the head. -/
def overtakes (cfg : Config) (current : Block) (localTd externTd : Nat) (w : Write) : Bool :=
  if externTd > localTd then true
  else if externTd = localTd then
    if w.block.numberU64 < current.numberU64 then true
    else if w.block.numberU64 = current.numberU64 then
      let preserve := cfg.shouldPreserve.getD fun _ => false
      !preserve current && (preserve w.block || w.coin)
    else false
  else false
/-- The state of the block is committed, and kept or collected. -/
def commitState (cfg : Config) (bc : BlockChain) (w : Write) :
    Except Panic (BlockChain × Option WriteError × List TrieCommand) :=
  match w.stateCommit with
  | .error text => .ok (bc,some (.stateCommit text),[])
  | .ok root =>
    if cfg.cacheConfig.disabled then
      match w.trieCommit with
      | .error text => .ok (bc,some (.trieCommit text),[.commit root])
      | .ok _ => .ok (bc,none,[.commit root])
    else
      match bc.collect cfg root w with
      | .error panic => .error panic
      | .ok (bc,trie) => .ok (bc,none,trie)
/-- The end of a write: the batch with the receipts and, for a new head, its transactions. -/
def flush (bc : BlockChain) (w : Write) (status : WriteStatus) (trie : List TrieCommand) (events : List Event) :
    BlockChain × Written :=
  match w.batchWrite with
  | .error text => (bc,⟨.nonStatTy,some (.batchWrite text),trie,events⟩)
  | .ok _ =>
    let db := bc.db.writeReceipts (w.block.hash keccak) w.block.numberU64 w.receipts
    if status = .canonStatTy then
      (({ bc with db := db.writeTxLookupEntries keccak w.block }).insert keccak w.block,⟨status,none,trie,events⟩)
    else ({ bc with db := db },⟨status,none,trie,events⟩)
/-- The part of a write that decides about the head. -/
def choose (cfg : Config) (bc : BlockChain) (w : Write) (localTd externTd : Nat) (trie : List TrieCommand) :
    Except Panic (BlockChain × Written) :=
  if overtakes cfg bc.currentBlock localTd externTd w then
    if w.block.parentHash ≠ bc.currentBlock.hash keccak then
      match bc.reorg keccak bc.currentBlock w.block with
      | .error panic => .error panic
      | .ok (bc,some err,_) => .ok (bc,⟨.nonStatTy,some err,trie,[]⟩)
      | .ok (bc,none,events) => .ok (bc.flush keccak w .canonStatTy trie events)
    else .ok (bc.flush keccak w .canonStatTy trie [])
  else .ok (bc.flush keccak w .sideStatTy trie [])
/-- The total difficulty and the block are stored. -/
def store (bc : BlockChain) (block : Block) (td : Nat) : BlockChain :=
  { bc with
    db := (bc.db.writeTd (block.hash keccak) block.numberU64 td).writeBlock keccak block
    caches := { bc.caches with tdCache := bc.caches.tdCache.add (block.hash keccak) td } }
def writeBlockWithState (cfg : Config) (bc : BlockChain) (w : Write) : Except Panic (BlockChain × Written) :=
  let parent := bc.caches.getTd bc.db w.block.parentHash (before w.block.numberU64)
  let bc := { bc with caches := parent.2, gcproc := bc.gcproc + w.elapsed }
  match parent.1 with
  | none => .ok (bc,⟨.nonStatTy,some .unknownAncestor,[],[]⟩)
  | some ptd =>
    let head := bc.caches.getTd bc.db (bc.currentBlock.hash keccak) bc.currentBlock.numberU64
    let bc := { bc with caches := head.2 }
    let externTd := w.block.difficulty + ptd
    let bc := bc.store keccak w.block externTd
    match bc.commitState cfg w with
    | .error panic => .error panic
    | .ok (bc,some err,trie) => .ok (bc,⟨.nonStatTy,some err,trie,[]⟩)
    | .ok (bc,none,trie) =>
      match head.1 with
      | none => .error .nilDereference
      | some localTd => bc.choose keccak cfg w localTd externTd trie

/-- The chain that `Genesis.Commit` and `NewBlockChain` leave. -/
def start (genesis : Block) (td : Nat) : BlockChain :=
  let db := ((Db.empty.writeTd (genesis.hash keccak) genesis.numberU64 td).writeBlock keccak genesis).writeReceipts
    (genesis.hash keccak) genesis.numberU64 []
  { db := { db.writeCanonicalHash (genesis.hash keccak) genesis.numberU64 with
            headBlock := some (genesis.hash keccak), headHeader := some (genesis.hash keccak) }
    caches := Caches.empty
    genesisBlock := genesis
    currentBlock := genesis
    currentFastBlock := genesis
    currentHeader := genesis.header
    currentHeaderHash := genesis.hash keccak
    triegc := []
    gcproc := 0
    lastWrite := 0 }

end BlockChain
end Canchain.Chain
