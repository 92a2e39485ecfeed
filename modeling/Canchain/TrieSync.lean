import Canchain.TrieNode
import Canchain.Tables

/-!
The scheduler of a trie download, after `lib/trie/sync.go`. A node that has come in waits for
everything below it (`deps`) before it goes to the batch. Requests of the same hash are one
request with several parents, known by their hashes. A callback for the values of a trie is
given by the further tries and raw entries that it adds (`leaf`).
-/
namespace Canchain.TrieSync
open Rlp Common TrieNode

/-- `Keccak256Hash(nil)`. -/
def emptyState : Hash :=
  ⟨[0xc5,0xd2,0x46,0x01,0x86,0xf7,0x23,0x3c,0x92,0x7e,0x7d,0xb2,0xdc,0xc7,0x03,0xc0,
    0xe5,0x00,0xb6,0x53,0xca,0x82,0x27,0x3b,0x7b,0xfa,0xd8,0x04,0x5d,0x85,0xa4,0x70],by decide⟩

/-- Where the source panics, and what it cannot come to: a parent that is no longer requested, or a recursion without end. -/
inductive Fault where
  /-- "sub-trie ancestor not found: %x" -/
  | subTrieAncestor (parent : Hash)
  /-- "raw-entry ancestor not found: %x" -/
  | rawEntryAncestor (parent : Hash)
  /-- "unknown node: %+v" -/
  | unknownNode
  | decodeNode (p : TrieNode.Panic)
  | lostRequest (hash : Hash)
  | outOfFuel
  deriving DecidableEq
inductive SyncError where
  /-- "not requested" -/
  | notRequested
  /-- "already processed" -/
  | alreadyProcessed
  | decode (e : TrieNode.DecodeError)
  | callback
  deriving DecidableEq

/-- What a callback adds below the node of its value. -/
inductive Addition (κ : Type) where
  | subTrie (root : Hash) (depth : Nat) (callback : Option κ)
  | rawEntry (hash : Hash) (depth : Nat)
/-- The callbacks by name: what they add for a value, or nothing for an error. -/
abbrev LeafCallback (κ : Type) := κ → Bytes → Option (List (Addition κ))
structure Request (κ : Type) where
  hash : Hash
  data : Option Bytes
  raw : Bool
  parents : List Hash
  depth : Nat
  deps : Int
  callback : Option κ
/-- The request depends on `n` more. -/
def Request.count {κ : Type} (req : Request κ) (n : Int) : Request κ := { req with deps := req.deps + n }
/-- The data of the request has come in. -/
def Request.fill {κ : Type} (req : Request κ) (data : Bytes) : Request κ := { req with data := some data }
/-- The request has more parents. -/
def Request.join {κ : Type} (req : Request κ) (parents : List Hash) : Request κ := { req with parents := req.parents ++ parents }
structure SyncResult where
  hash : Hash
  data : Bytes
structure MemBatch where
  batch : Hash → Option Bytes
  order : List Hash
def newSyncMemBatch : MemBatch := ⟨fun _ => none,[]⟩
structure Sync (κ : Type) where
  database : Hash → Option Bytes
  membatch : MemBatch
  requests : AList fun _ : Hash => Request κ
  queue : List (Hash × Nat)

namespace Sync
variable {κ : Type}

/-- The request under its hash, in place of the one that is there. -/
def put (s : Sync κ) (req : Request κ) : Sync κ := { s with requests := s.requests.insert req.hash req }
def schedule (s : Sync κ) (req : Request κ) : Sync κ :=
  match s.requests.lookup req.hash with
  | some old => s.put (old.join req.parents)
  | none => { s with queue := s.queue ++ [(req.hash,req.depth)], requests := s.requests.insert req.hash req }
/-- A request below a parent, which then depends on one more; the zero hash stands for no parent. -/
def scheduleBelow (s : Sync κ) (req : Request κ) (parent : Hash) (lost : Fault) : Except Fault (Sync κ) :=
  if parent ≠ Hash.zero then
    match s.requests.lookup parent with
    | none => .error lost
    | some ancestor => .ok ((s.put (ancestor.count 1)).schedule (req.join [parent]))
  else .ok (s.schedule req)
/-- `decodeNode` of what the database has, nothing if it has nothing. -/
def decoded (hash : Hash) (blob : Bytes) : Except TrieNode.DecodeError Node := decodeNode (blob.length+1) (some hash) blob 0
def addSubTrie (s : Sync κ) (root : Hash) (depth : Nat) (parent : Hash) (callback : Option κ) : Except Fault (Sync κ) :=
  if root = emptyRoot then .ok s
  else if (s.membatch.batch root).isSome then .ok s
  else match decoded root ((s.database root).getD []) with
  | .ok _ => .ok s
  | .error (.panicked p) => .error (.decodeNode p)
  | .error _ => s.scheduleBelow ⟨root,none,false,[],depth,0,callback⟩ parent (.subTrieAncestor parent)
def addRawEntry (s : Sync κ) (hash : Hash) (depth : Nat) (parent : Hash) : Except Fault (Sync κ) :=
  if hash = emptyState then .ok s
  else if (s.membatch.batch hash).isSome then .ok s
  else if (s.database hash).isSome then .ok s
  else s.scheduleBelow ⟨hash,none,true,[],depth,0,none⟩ parent (.rawEntryAncestor parent)
def newSync (root : Hash) (database : Hash → Option Bytes) (callback : Option κ) : Except Fault (Sync κ) :=
  addSubTrie ⟨database,newSyncMemBatch,∅,[]⟩ root 0 Hash.zero callback

/-- `PopItem`: an entry of the greatest priority. Among equals the source takes what its heap has on top, here the first. -/
def popItem : List (Hash × Nat) → Option (Hash × List (Hash × Nat))
  | [] => none
  | x :: xs =>
    let top := xs.foldl (fun top y => if top.2 < y.2 then y else top) x
    some (top.1,(x :: xs).erase top)
/-- The loop of `Missing`, for at most as many rounds as there are entries. -/
def missingFrom (max : Nat) : Nat → List Hash → List (Hash × Nat) → List Hash × List (Hash × Nat)
  | 0, found, queue => (found,queue)
  | rounds+1, found, queue =>
    if max = 0 ∨ found.length < max then
      match popItem queue with
      | none => (found,queue)
      | some (hash,queue) => missingFrom max rounds (found ++ [hash]) queue
    else (found,queue)
def missing (s : Sync κ) (max : Nat) : List Hash × Sync κ :=
  let (found,queue) := missingFrom max s.queue.length [] s.queue
  (found,{ s with queue := queue })

/-! ### Commits -/

/-- The request goes to the batch. -/
def settle (s : Sync κ) (req : Request κ) : Sync κ :=
  { s with
    membatch := ⟨Function.update s.membatch.batch req.hash req.data,s.membatch.order ++ [req.hash]⟩
    requests := s.requests.erase req.hash }
/-- The parents depend on one less; one that depends on nothing is committed. -/
def releaseAll (commit : Hash → Sync κ → Except Fault (Sync κ)) : List Hash → Sync κ → Except Fault (Sync κ)
  | [], s => .ok s
  | p :: parents, s =>
    match s.requests.lookup p with
    | none => .error (.lostRequest p)
    | some parent =>
      if (parent.count (-1)).deps = 0 then
        match commit p (s.put (parent.count (-1))) with
        | .error e => .error e
        | .ok s => releaseAll commit parents s
      else releaseAll commit parents (s.put (parent.count (-1)))
/-- `commit` of a request. Each call takes one request out, so their number bounds the recursion. -/
def commit : Nat → Hash → Sync κ → Except Fault (Sync κ)
  | 0, _, _ => .error .outOfFuel
  | fuel+1, hash, s =>
    match s.requests.lookup hash with
    | none => .error (.lostRequest hash)
    | some req => releaseAll (commit fuel) req.parents (s.settle req)
/-- What is written to a database in this order. -/
def store (database : Hash → Option Bytes) (puts : List (Hash × Bytes)) : Hash → Option Bytes :=
  puts.foldl (fun database put => Function.update database put.1 (some put.2)) database
/-- The batch in its order. -/
def puts (s : Sync κ) : List (Hash × Bytes) := s.membatch.order.map fun key => (key,(s.membatch.batch key).getD [])
/-- `Commit` to the database, with what is put there. `fails` says which `Put` fails, if one does: then the batch is kept. -/
def commitTo (s : Sync κ) (fails : Option Nat) : List (Hash × Bytes) × Sync κ :=
  match fails with
  | none => (s.puts,{ s with database := store s.database s.puts, membatch := newSyncMemBatch })
  | some i =>
    if i < s.puts.length then (s.puts.take i,{ s with database := store s.database (s.puts.take i) })
    else (s.puts,{ s with database := store s.database s.puts, membatch := newSyncMemBatch })
def pending (s : Sync κ) : Nat := s.requests.entries.length

/-! ### Nodes that come in -/

/-- What stands directly below a node, with how much deeper it is. -/
def branches : Node → Except Fault (List (Node × Nat))
  | .short key val _ => .ok [(val,key.length)]
  | .full cs _ => .ok (((List.finRange 17).map cs).filterMap fun c => if c.isNil then none else some (c,1))
  | _ => .error .unknownNode
def add (s : Sync κ) (parent : Hash) : Addition κ → Except Fault (Sync κ)
  | .subTrie root depth callback => s.addSubTrie root depth parent callback
  | .rawEntry hash depth => s.addRawEntry hash depth parent
def addAll (parent : Hash) : List (Addition κ) → Sync κ → Except Fault (Sync κ)
  | [], s => .ok s
  | a :: additions, s =>
    match s.add parent a with
    | .error e => .error e
    | .ok s => addAll parent additions s

section
variable (leaf : LeafCallback κ)

/-- The callback of a request on what is below it, if that is a value. An error is `false`. -/
def call (s : Sync κ) (req : Request κ) (child : Node) : Except Fault (Bool × Sync κ) :=
  match req.callback, child with
  | some callback, .value v =>
    match leaf callback v with
    | none => .ok (false,s)
    | some additions => (addAll req.hash additions s).map fun s => (true,s)
  | _, _ => .ok (true,s)
/-- The request for what is below a request, unless it is there already or no node of its own. -/
def request (s : Sync κ) (req : Request κ) (child : Node) (depth : Nat) : List (Request κ) :=
  match child with
  | .hash hash =>
    if (s.membatch.batch hash).isSome ∨ (s.database hash).isSome then []
    else [⟨hash,none,false,[req.hash],req.depth + depth,0,req.callback⟩]
  | _ => []
/-- The loop of `children`. -/
def childrenFrom (req : Request κ) : List (Node × Nat) → List (Request κ) → Sync κ →
    Except Fault (Except SyncError (List (Request κ)) × Sync κ)
  | [], requests, s => .ok (.ok requests,s)
  | (child,depth) :: children, requests, s =>
    match s.call leaf req child with
    | .error e => .error e
    | .ok (false,s) => .ok (.error .callback,s)
    | .ok (true,s) => childrenFrom req children (requests ++ s.request req child depth) s
def children (s : Sync κ) (req : Request κ) (object : Node) : Except Fault (Except SyncError (List (Request κ)) × Sync κ) :=
  match branches object with
  | .error e => .error e
  | .ok below => childrenFrom leaf req below [] s

/-- The requests wait for the new ones, or the node is complete. The first result says whether it was committed. -/
def await (s : Sync κ) (hash : Hash) (requests : List (Request κ)) : Except Fault (Bool × Sync κ) :=
  match s.requests.lookup hash with
  | none => .error (.lostRequest hash)
  | some req =>
    if requests = [] ∧ req.deps = 0 then (commit (s.pending+1) hash s).map fun s => (true,s)
    else .ok (false,requests.foldl schedule (s.put (req.count requests.length)))
/-- One round of `Process`. -/
def processItem (s : Sync κ) (item : SyncResult) : Except Fault (Except SyncError Bool × Sync κ) :=
  match s.requests.lookup item.hash with
  | none => .ok (.error .notRequested,s)
  | some req =>
    if req.data.isSome then .ok (.error .alreadyProcessed,s)
    else if req.raw then
      (commit (s.pending+1) item.hash (s.put (req.fill item.data))).map fun s => (.ok true,s)
    else match decoded item.hash item.data with
    | .error (.panicked p) => .error (.decodeNode p)
    | .error e => .ok (.error (.decode e),s)
    | .ok node =>
      match children leaf (s.put (req.fill item.data)) (req.fill item.data) node with
      | .error e => .error e
      | .ok (.error e,s) => .ok (.error e,s)
      | .ok (.ok requests,s) => (s.await item.hash requests).map fun (committed,s) => (.ok committed,s)
/-- `Process`, from the item of index `i` on. -/
def processFrom : Nat → Bool → List SyncResult → Sync κ → Except Fault ((Bool × Nat × Option SyncError) × Sync κ)
  | _, committed, [], s => .ok ((committed,0,none),s)
  | i, committed, item :: results, s =>
    match s.processItem leaf item with
    | .error e => .error e
    | .ok (.error e,s) => .ok ((committed,i,some e),s)
    | .ok (.ok done,s) => processFrom (i+1) (committed || done) results s
def process (s : Sync κ) (results : List SyncResult) : Except Fault ((Bool × Nat × Option SyncError) × Sync κ) :=
  s.processFrom leaf 0 false results

/-! ### Runs -/

/-- The calls of a download. -/
inductive Op where
  | missing (max : Nat)
  | process (results : List SyncResult)
  | commit (fails : Option Nat)
/-- A call, with what it writes to the database. -/
def step (s : Sync κ) : Op → Except Fault (List (Hash × Bytes) × Sync κ)
  | .missing max => .ok ([],(s.missing max).2)
  | .process results => (s.process leaf results).map fun (_,s) => ([],s)
  | .commit fails => .ok (s.commitTo fails)
/-- The calls in order, with all that they write. -/
def run : List Op → Sync κ → Except Fault (List (Hash × Bytes) × Sync κ)
  | [], s => .ok ([],s)
  | op :: ops, s =>
    match s.step leaf op with
    | .error e => .error e
    | .ok (puts,s) => (run ops s).map fun (more,s) => (puts ++ more,s)

end

end Sync

end Canchain.TrieSync
