import Canchain.TrieNode
import Canchain.Tables

/-!
The node database of `lib/trie/database.go`: nodes and blobs in memory with their reference
counts and flush list, the preimages, the two ways to the disk, `Cap` and `Commit`, and the
lock. `dirties` always has the meta root, an entry without a node under the zero hash. A call is
one step; the batch of `Cap` and `Commit` may fail at any of its operations.
-/
namespace Canchain.TrieDatabase
open Rlp Common TrieNode

/-! ### Entries -/

/-- `common.StorageSize`, a float64 that holds whole numbers: beyond 2^53 a sum is rounded to 53 bits, ties to even. -/
def float64 (x : Int) : Int :=
  if x.natAbs ≤ 2^53 then x
  else
    let unit := 2^(x.natAbs.log2 - 52)
    let up := if unit < 2*(x.natAbs % unit) ∨ unit = 2*(x.natAbs % unit) ∧ x.natAbs / unit % 2 = 1 then 1 else 0
    x.sign*((x.natAbs / unit + up)*unit : Nat)

/-- What an entry holds: a `rawNode`, or a simplified node. The node of the meta root is nil. -/
inductive Content where
  | raw (blob : Bytes)
  | node (n : Raw)
structure CachedNode where
  node : Content
  size : UInt16
  parents : UInt32
  children : AList fun _ : Hash => UInt16
  flushPrev : Hash
  flushNext : Hash

/-- Where the source panics, and a recursion that the model cuts off. -/
inductive Fault where
  | nilDereference
  /-- "unknown node type: %T" -/
  | unknownNodeType
  /-- `rlp` of the nil node of the meta root. -/
  | encodeNil
  | outOfFuel
  deriving DecidableEq

/-- The bytes of an entry. -/
def Content.bytes : Content → Bytes
  | .raw blob => blob
  | .node n => n.encode
/-- `cachedNode.rlp`. -/
def CachedNode.rlp (n : CachedNode) : Except Fault Bytes :=
  match n.node with
  | .node .nil => .error .encodeNil
  | content => .ok content.bytes
def gatherChildren : Raw → List Hash
  | .short _ val => gatherChildren val
  | .full cs => (List.finRange 16).flatMap fun i => gatherChildren (cs i.castSucc)
  | .hash h => [h]
  | .value _ => []
  | .nil => []
def Content.gathered : Content → List Hash
  | .raw _ => []
  | .node n => gatherChildren n

/-- The order in which the keys of maps come: that of the references of an entry, and that of the preimages. -/
structure Walk where
  children : Hash → (AList fun _ : Hash => UInt16) → List Hash
  preimages : (AList fun _ : Hash => Bytes) → List (Hash × Bytes)
  isChildren : ∀ hash m, (children hash m).Perm m.keys
  isPreimages : ∀ m, (preimages m).Perm (m.entries.map fun entry => (entry.1,entry.2))

/-- `cachedNode.childs` of the entry of this hash. -/
def CachedNode.childs (walk : Walk) (hash : Hash) (n : CachedNode) : List Hash := walk.children hash n.children ++ n.node.gathered

/-- One more reference to the child, in 16 bits. -/
def CachedNode.refer (n : CachedNode) (child : Hash) : CachedNode :=
  { n with children := n.children.insert child ((n.children.lookup child).getD 0 + 1) }
/-- One reference less to the child. -/
def CachedNode.forget (n : CachedNode) (child : Hash) : CachedNode :=
  match n.children.lookup child with
  | none => n
  | some count =>
    if count > 0 then
      { n with children := if count - 1 = 0 then n.children.erase child else n.children.insert child (count - 1) }
    else n
def CachedNode.release (n : CachedNode) : CachedNode := { n with parents := if n.parents > 0 then n.parents - 1 else n.parents }

structure Database where
  dirties : AList fun _ : Hash => CachedNode
  oldest : Hash
  newest : Hash
  preimages : AList fun _ : Hash => Bytes
  dirtiesSize : Int
  preimagesSize : Int

def metaRoot : CachedNode := ⟨.node .nil,0,0,∅,Hash.zero,Hash.zero⟩
def newDatabase : Database := ⟨AList.insert Hash.zero metaRoot ∅,Hash.zero,Hash.zero,∅,0,0⟩

namespace Database

def put (db : Database) (hash : Hash) (n : CachedNode) : Database := { db with dirties := db.dirties.insert hash n }
/-- An assignment to a field of `db.dirties[hash]`. -/
def update (db : Database) (hash : Hash) (f : CachedNode → CachedNode) : Except Fault Database :=
  match db.dirties.lookup hash with
  | none => .error .nilDereference
  | some n => .ok (db.put hash (f n))
def setPrev (hash : Hash) (n : CachedNode) : CachedNode := { n with flushPrev := hash }
def setNext (hash : Hash) (n : CachedNode) : CachedNode := { n with flushNext := hash }

/-! ### Insertions and references -/

/-- A child that is in memory has one more parent. -/
def adopt (db : Database) (child : Hash) : Database :=
  match db.dirties.lookup child with
  | none => db
  | some c => db.put child { c with parents := c.parents + 1 }
/-- The entry goes to the end of the flush list. -/
def link (db : Database) (hash : Hash) : Except Fault Database :=
  if db.oldest = Hash.zero then .ok { db with oldest := hash, newest := hash }
  else (db.update db.newest (setNext hash)).map fun db => { db with newest := hash }
/-- `insert` of what is not there yet. The size is counted in 16 bits. -/
def insertNew (db : Database) (hash : Hash) (blob : Bytes) (node : Content) : Except Fault Database :=
  let entry : CachedNode := ⟨node,UInt16.ofNat blob.length,0,∅,db.newest,Hash.zero⟩
  (((node.gathered.foldl adopt db).put hash entry).link hash).map fun db =>
    { db with dirtiesSize := float64 (db.dirtiesSize + (32 + entry.size).toNat) }
def insertBlob (db : Database) (hash : Hash) (blob : Bytes) : Except Fault Database :=
  if (db.dirties.lookup hash).isSome then .ok db else db.insertNew hash blob (.raw blob)
/-- `insert` of a collapsed node with its encoding, as `hasher.store` calls it. -/
def insertNode (db : Database) (hash : Hash) (n : Raw) : Except Fault Database :=
  if (db.dirties.lookup hash).isSome then .ok db
  else if n.simplifies then db.insertNew hash n.encode (.node n)
  else .error .unknownNodeType
def insertPreimage (db : Database) (hash : Hash) (preimage : Bytes) : Database :=
  if (db.preimages.lookup hash).isSome then db
  else { db with preimages := db.preimages.insert hash preimage
                 preimagesSize := float64 (db.preimagesSize + (32 + preimage.length : Nat)) }

def reference (db : Database) (child parent : Hash) : Except Fault Database :=
  match db.dirties.lookup child with
  | none => .ok db
  | some node =>
    match db.dirties.lookup parent with
    | none => .error .nilDereference
    | some p =>
      if (p.children.lookup child).isSome ∧ parent ≠ Hash.zero then .ok db
      else (db.put child { node with parents := node.parents + 1 }).update parent (CachedNode.refer · child)

/-! ### Removals -/

/-- The entry is taken out of the flush list. -/
def unlink (db : Database) (hash : Hash) (node : CachedNode) : Except Fault Database :=
  if hash = db.oldest then { db with oldest := node.flushNext }.update node.flushNext (setPrev Hash.zero)
  else if hash = db.newest then { db with newest := node.flushPrev }.update node.flushPrev (setNext Hash.zero)
  else
    match db.update node.flushPrev (setNext node.flushNext) with
    | .error e => .error e
    | .ok db => db.update node.flushNext (setPrev node.flushPrev)
/-- The entry is deleted, and its size subtracted. -/
def drop (db : Database) (hash : Hash) (node : CachedNode) : Database :=
  { db with dirties := db.dirties.erase hash, dirtiesSize := float64 (db.dirtiesSize - (32 + node.size.toNat : Nat)) }
/-- A loop over hashes that changes the database. -/
def forAll (f : Hash → Database → Except Fault Database) : List Hash → Database → Except Fault Database
  | [], db => .ok db
  | hash :: hashes, db =>
    match f hash db with
    | .error e => .error e
    | .ok db => forAll f hashes db
def dereferenceFrom (walk : Walk) : Nat → Hash → Hash → Database → Except Fault Database
  | 0, _, _, _ => .error .outOfFuel
  | fuel+1, parent, child, db =>
    match db.update parent (CachedNode.forget · child) with
    | .error e => .error e
    | .ok db =>
      match db.dirties.lookup child with
      | none => .ok db
      | some old =>
        let node := old.release
        let db := db.put child node
        if node.parents = 0 then
          match db.unlink child node with
          | .error e => .error e
          | .ok db =>
            match forAll (dereferenceFrom walk fuel child) (node.childs walk child) db with
            | .error e => .error e
            | .ok db => .ok (db.drop child node)
        else .ok db
/-- `Dereference`. The entries on the way down are all different, so their number bounds the recursion. -/
def dereference (walk : Walk) (db : Database) (root : Hash) : Except Fault Database :=
  if root = Hash.zero then .ok db else dereferenceFrom walk (db.dirties.entries.length+1) Hash.zero root db
def uncacheFrom (walk : Walk) : Nat → Hash → Database → Except Fault Database
  | 0, _, _ => .error .outOfFuel
  | fuel+1, hash, db =>
    match db.dirties.lookup hash with
    | none => .ok db
    | some node =>
      match db.unlink hash node with
      | .error e => .error e
      | .ok db =>
        match forAll (uncacheFrom walk fuel) (node.childs walk hash) db with
        | .error e => .error e
        | .ok db => .ok (db.drop hash node)
def uncache (walk : Walk) (db : Database) (hash : Hash) : Except Fault Database := uncacheFrom walk (db.dirties.entries.length+1) hash db

end Database

/-! ### Batches -/

/-- `candb.IdealBatchSize`. -/
def idealBatchSize : Nat := 100*1024
/-- A batch and the disk it is written to, with the number of batch operations so far. -/
structure Flush where
  disk : Bytes → Option Bytes
  batch : List (Bytes × Bytes)
  valueSize : Nat
  count : Nat
inductive BatchOp where
  | put
  | write
  deriving DecidableEq
/-- Why a flush stops: an operation of the batch failed, or a panic. -/
inductive Stop where
  | failed (op : BatchOp) (f : Flush)
  | fault (e : Fault)

/-- The disk after these writes. -/
def stored (disk : Bytes → Option Bytes) (puts : List (Bytes × Bytes)) : Bytes → Option Bytes :=
  puts.foldl (fun disk put => Function.update disk put.1 (some put.2)) disk

section
-- Which operations fail, by their number; of a `Write` that fails so much may have reached the disk.
variable (faults : Nat → Option Nat)

def Flush.put (f : Flush) (key value : Bytes) : Except Stop Flush :=
  match faults f.count with
  | some _ => .error (.failed .put { f with count := f.count+1 })
  | none => .ok { f with batch := f.batch ++ [(key,value)], valueSize := f.valueSize + value.length, count := f.count+1 }
def Flush.write (f : Flush) : Except Stop Flush :=
  match faults f.count with
  | some part => .error (.failed .write { f with disk := stored f.disk (f.batch.take part), count := f.count+1 })
  | none => .ok { f with disk := stored f.disk f.batch, count := f.count+1 }
/-- `Write` and `Reset`, if the batch is large. -/
def Flush.writeIf (f : Flush) (large : Bool) : Except Stop Flush :=
  if large then
    match f.write faults with
    | .error e => .error e
    | .ok f => .ok { f with batch := [], valueSize := 0 }
  else .ok f

/-- "secure-key-" -/
def secureKeyPrefix : Bytes := "secure-key-".toUTF8.toList
def secureKey (hash : Hash) : Bytes := secureKeyPrefix ++ hash.bytes
/-- The loop over the preimages, in `Cap` and in `Commit`. -/
def putPreimages : List (Hash × Bytes) → Flush → Except Stop Flush
  | [], f => .ok f
  | (hash,preimage) :: preimages, f =>
    match f.put faults (secureKey hash) preimage with
    | .error e => .error e
    | .ok f =>
      match f.writeIf faults (decide (idealBatchSize < f.valueSize)) with
      | .error e => .error e
      | .ok f => putPreimages preimages f
/-- An entry is put into the batch. -/
def putEntry (hash : Hash) (node : CachedNode) (f : Flush) : Except Stop Flush :=
  match node.rlp with
  | .error e => .error (.fault e)
  | .ok blob =>
    match f.put faults hash.bytes blob with
    | .error e => .error e
    | .ok f => f.writeIf faults (decide (idealBatchSize ≤ f.valueSize))
/-- The loop of `Cap` over the flush list: where it stops, and the batch. -/
def flushList (db : Database) (limit : Int) : Nat → Int → Hash → Flush → Except Stop (Hash × Flush)
  | 0, _, _, _ => .error (.fault .outOfFuel)
  | fuel+1, size, oldest, f =>
    if limit < size ∧ oldest ≠ Hash.zero then
      match db.dirties.lookup oldest with
      | none => .error (.fault .nilDereference)
      | some node =>
        match putEntry faults oldest node f with
        | .error e => .error e
        | .ok f => flushList db limit fuel (float64 (size - (96 + node.size.toNat : Nat))) node.flushNext f
    else .ok (oldest,f)
/-- A loop over hashes that fills the batch. -/
def putAll (g : Hash → Flush → Except Stop Flush) : List Hash → Flush → Except Stop Flush
  | [], f => .ok f
  | hash :: hashes, f =>
    match g hash f with
    | .error e => .error e
    | .ok f => putAll g hashes f
/-- `commit`: a trie goes into the batch, children first. -/
def commitFrom (walk : Walk) (db : Database) : Nat → Hash → Flush → Except Stop Flush
  | 0, _, _ => .error (.fault .outOfFuel)
  | fuel+1, hash, f =>
    match db.dirties.lookup hash with
    | none => .ok f
    | some node =>
      match putAll (commitFrom walk db fuel) (node.childs walk hash) f with
      | .error e => .error e
      | .ok f => putEntry faults hash node f

end

namespace Database

/-- The end of `Cap`: entries are deleted up to the one where the flush stopped. -/
def dropOldest (stop : Hash) : Nat → Database → Except Fault Database
  | 0, _ => .error .outOfFuel
  | fuel+1, db =>
    if db.oldest = stop then .ok db
    else
      match db.dirties.lookup db.oldest with
      | none => .error .nilDereference
      | some node => dropOldest stop fuel { db.drop db.oldest node with oldest := node.flushNext }
def capEnd (db : Database) (flushPreimages : Bool) (stop : Hash) : Except Fault Database :=
  let db := if flushPreimages then { db with preimages := ∅, preimagesSize := 0 } else db
  match dropOldest stop (db.dirties.entries.length+1) db with
  | .error e => .error e
  | .ok db => if db.oldest ≠ Hash.zero then db.update db.oldest (setPrev Hash.zero) else .ok db
def commitEnd (walk : Walk) (db : Database) (node : Hash) : Except Fault Database :=
  { db with preimages := ∅, preimagesSize := 0 }.uncache walk node
/-- What `Cap` takes for the memory in use: the entries, and 64 bytes more for each in the flush list. -/
def capSize (db : Database) : Int := float64 (db.dirtiesSize + ((db.dirties.entries.length - 1)*2*32 : Nat))

end Database

/-! ### Calls -/

/-- The database with its disk and its lock: how many hold it for reading, and how many batch operations there have been. -/
structure System where
  db : Database
  disk : Bytes → Option Bytes
  readers : Nat
  count : Nat
/-- How a call ends: it is done, it returns an error of the batch, or it waits for ever for the write lock. -/
inductive Result where
  | done (s : System)
  | failed (s : System)
  | blocked

namespace System

/-- A change under the write lock. -/
def locked (s : System) (change : Database → Except Fault Database) : Except Fault Result :=
  if s.readers = 0 then (change s.db).map fun db => .done { s with db := db } else .ok .blocked
def flush (s : System) : Flush := ⟨s.disk,[],0,s.count⟩
/-- The state after a flush, with so many readers. -/
def after (s : System) (f : Flush) (readers : Nat) : System := { s with disk := f.disk, readers := readers, count := f.count }

section
variable (faults : Nat → Option Nat) (walk : Walk)

/-- The part of `Cap` under the read lock. -/
def capFlush (db : Database) (limit : Int) (f : Flush) : Except Stop (Hash × Flush) :=
  match (if 4*1024*1024 < db.preimagesSize then putPreimages faults (walk.preimages db.preimages) f else .ok f) with
  | .error e => .error e
  | .ok f =>
    match flushList faults db limit (db.dirties.entries.length+1) db.capSize db.oldest f with
    | .error e => .error e
    | .ok (oldest,f) =>
      match f.write faults with
      | .error e => .error e
      | .ok f => .ok (oldest,f)
def cap (s : System) (limit : Int) : Except Fault Result :=
  match capFlush faults walk s.db limit s.flush with
  | .error (.fault e) => .error e
  | .error (.failed _ f) => .ok (.failed (s.after f s.readers))
  | .ok (stop,f) => (s.after f s.readers).locked fun db => db.capEnd (decide (4*1024*1024 < db.preimagesSize)) stop
/-- `Commit`. If a `Write` in the loop over the preimages fails, the read lock is not given back. -/
def commit (s : System) (node : Hash) : Except Fault Result :=
  match putPreimages faults (walk.preimages s.db.preimages) s.flush with
  | .error (.fault e) => .error e
  | .error (.failed .put f) => .ok (.failed (s.after f s.readers))
  | .error (.failed .write f) => .ok (.failed (s.after f (s.readers+1)))
  | .ok f =>
    match commitFrom faults walk s.db (s.db.dirties.entries.length+1) node f with
    | .error (.fault e) => .error e
    | .error (.failed _ f) => .ok (.failed (s.after f s.readers))
    | .ok f =>
      match f.write faults with
      | .error (.fault e) => .error e
      | .error (.failed _ f) => .ok (.failed (s.after f s.readers))
      | .ok f => (s.after f s.readers).locked fun db => db.commitEnd walk node

end

/-- The calls of the database. `Reference` only takes the read lock. -/
inductive Call where
  | insertBlob (hash : Hash) (blob : Bytes)
  | insertNode (hash : Hash) (n : Raw)
  | insertPreimage (hash : Hash) (preimage : Bytes)
  | reference (child parent : Hash)
  | dereference (root : Hash)
  | cap (limit : Int)
  | commit (node : Hash)
def step (faults : Nat → Option Nat) (walk : Walk) (s : System) : Call → Except Fault Result
  | .insertBlob hash blob => s.locked (·.insertBlob hash blob)
  | .insertNode hash n => s.locked (·.insertNode hash n)
  | .insertPreimage hash preimage => s.locked fun db => .ok (db.insertPreimage hash preimage)
  | .reference child parent => (s.db.reference child parent).map fun db => .done { s with db := db }
  | .dereference root => if root = Hash.zero then .ok (.done s) else s.locked (·.dereference walk root)
  | .cap limit => s.cap faults walk limit
  | .commit node => s.commit faults walk node

end System

end Canchain.TrieDatabase
