import Canchain.TrieNode

/-!
The operations of `lib/trie/trie.go` and the hasher of `lib/trie/hasher.go`. The recursion over
a key may pass through the database and runs on fuel, which `TryGet`, `TryUpdate` and `TryDelete`
choose from the length of the key.
-/
namespace Canchain.TrieOps
open Rlp Common HexKeys TrieNode Sweep

structure Trie where
  db : Database
  root : Node
  cachegen : UInt16
  cachelimit : UInt16

namespace Trie

def newFlag (t : Trie) : NodeFlag := ⟨none,t.cachegen,true⟩

def resolveHash (t : Trie) (n : Hash) (path : Hex) : Except Failure Node :=
  match t.db.node n t.cachegen with
  | .error e => .error e
  | .ok none => .error (.missingNode n path)
  | .ok (some node) => .ok node
def resolve (t : Trie) (n : Node) (path : Hex) : Except Failure Node :=
  match n with
  | .hash h => t.resolveHash h path
  | n => .ok n

/-- `New`. -/
def new (root : Hash) (db : Database) : Except Failure Trie :=
  let trie : Trie := ⟨db,.nil,0,0⟩
  if root ≠ Hash.zero ∧ root ≠ emptyRoot then
    match trie.resolveHash root [] with
    | .error e => .error e
    | .ok rootnode => .ok { trie with root := rootnode }
  else .ok trie
/-- `SetCacheLimit`. -/
def setCacheLimit (t : Trie) (l : UInt16) : Trie := { t with cachelimit := l }

/-- The recursion of `tryGet`: the value (none for nil), the node with what was
    resolved on the way, and whether anything was. -/
def tryGetFrom (t : Trie) : Nat → Node → Hex → Nat → Except Failure (Option Bytes × Node × Bool)
  | 0, _, _, _ => .error .outOfFuel
  | _+1, .nil, _, _ => .ok (none,.nil,false)
  | _+1, .value v, _, _ => .ok (some v,.value v,false)
  | fuel+1, .short nkey val fl, key, pos =>
    if key.length - pos < nkey.length ∨ nkey ≠ (key.drop pos).take nkey.length then .ok (none,.short nkey val fl,false)
    else
      match t.tryGetFrom fuel val key (pos + nkey.length) with
      | .error e => .error e
      | .ok (value,newnode,didResolve) =>
        if didResolve then .ok (value,.short nkey newnode { fl with gen := t.cachegen },true)
        else .ok (value,.short nkey val fl,false)
  | fuel+1, .full cs fl, key, pos =>
    match key[pos]? with
    | none => .error (.panicked .indexOutOfRange)
    | some x =>
      match t.tryGetFrom fuel (cs x) key (pos+1) with
      | .error e => .error e
      | .ok (value,newnode,didResolve) =>
        if didResolve then .ok (value,.full (Function.update cs x newnode) { fl with gen := t.cachegen },true)
        else .ok (value,.full cs fl,false)
  | fuel+1, .hash h, key, pos =>
    match t.resolveHash h (key.take pos) with
    | .error e => .error e
    | .ok child =>
      match t.tryGetFrom fuel child key pos with
      | .error e => .error e
      | .ok (value,newnode,_) => .ok (value,newnode,true)

/-- The recursion of `insert`: whether anything changed, and the new node. -/
def insert (t : Trie) : Nat → Node → Hex → Hex → Node → Except Failure (Bool × Node)
  | 0, _, _, _, _ => .error .outOfFuel
  | _+1, n, _, [], value =>
    match n with
    | .value v =>
      match value with
      | .value w => .ok (decide (v ≠ w),value)
      | _ => .error (.panicked .typeAssertion)
    | _ => .ok (true,value)
  | fuel+1, .short nkey nval fl, path, key@(_ :: _), value =>
    let matchlen := prefixLen key nkey
    if matchlen = nkey.length then
      match t.insert fuel nval (path ++ key.take matchlen) (key.drop matchlen) value with
      | .error e => .error e
      | .ok (dirty,nn) =>
        if dirty then .ok (true,.short nkey nn t.newFlag) else .ok (false,.short nkey nval fl)
    else
      match nkey[matchlen]?, key[matchlen]? with
      | some y, some x =>
        match t.insert fuel .nil (path ++ nkey.take (matchlen+1)) (nkey.drop (matchlen+1)) nval with
        | .error e => .error e
        | .ok (_,old) =>
          match t.insert fuel .nil (path ++ key.take (matchlen+1)) (key.drop (matchlen+1)) value with
          | .error e => .error e
          | .ok (_,new) =>
            let branch := Node.full (Function.update (Function.update (fun _ => .nil) y old) x new) t.newFlag
            if matchlen = 0 then .ok (true,branch) else .ok (true,.short (key.take matchlen) branch t.newFlag)
      | _, _ => .error (.panicked .indexOutOfRange)
  | fuel+1, .full cs fl, path, x :: key, value =>
    match t.insert fuel (cs x) (path ++ [x]) key value with
    | .error e => .error e
    | .ok (dirty,nn) =>
      if dirty then .ok (true,.full (Function.update cs x nn) t.newFlag) else .ok (false,.full cs fl)
  | _+1, .nil, _, key@(_ :: _), value => .ok (true,.short key value t.newFlag)
  | fuel+1, .hash h, path, key@(_ :: _), value =>
    match t.resolveHash h path with
    | .error e => .error e
    | .ok rn =>
      match t.insert fuel rn path key value with
      | .error e => .error e
      | .ok (dirty,nn) => if dirty then .ok (true,nn) else .ok (false,rn)
  | _+1, .value _, _, _ :: _, _ => .error (.panicked .invalidNode)

/-- The loop of `delete` that looks for the position of the only child. -/
def onlyChild (cs : Nibble → Node) : Option Nibble :=
  only ((List.finRange 17).filter fun i => !(cs i).isNil)

/-- The end of `delete` at a branch: with a single child left, the branch
    becomes a short node and takes over the key of a short child. -/
def contract (t : Trie) (path : Hex) (cs : Nibble → Node) : Except Failure (Bool × Node) :=
  match onlyChild cs with
  | none => .ok (true,.full cs t.newFlag)
  | some pos =>
    if pos ≠ 16 then
      match t.resolve (cs pos) path with
      | .error e => .error e
      | .ok (.short k v _) => .ok (true,.short (pos :: k) v t.newFlag)
      | .ok _ => .ok (true,.short [pos] (cs pos) t.newFlag)
    else .ok (true,.short [pos] (cs pos) t.newFlag)

/-- The end of `delete` at a short node: its key is put before that of a short
    child. -/
def merge (t : Trie) (nkey : Hex) : Node → Node
  | .short k v _ => .short (nkey ++ k) v t.newFlag
  | child => .short nkey child t.newFlag

/-- The recursion of `delete`. -/
def delete (t : Trie) : Nat → Node → Hex → Hex → Except Failure (Bool × Node)
  | 0, _, _, _ => .error .outOfFuel
  | fuel+1, .short nkey nval fl, path, key =>
    let matchlen := prefixLen key nkey
    if matchlen < nkey.length then .ok (false,.short nkey nval fl)
    else if matchlen = key.length then .ok (true,.nil)
    else
      match t.delete fuel nval (path ++ key.take nkey.length) (key.drop nkey.length) with
      | .error e => .error e
      | .ok (dirty,child) =>
        if dirty then .ok (true,t.merge nkey child) else .ok (false,.short nkey nval fl)
  | _+1, .full _ _, _, [] => .error (.panicked .indexOutOfRange)
  | fuel+1, .full cs fl, path, x :: key =>
    match t.delete fuel (cs x) (path ++ [x]) key with
    | .error e => .error e
    | .ok (dirty,nn) => if dirty then t.contract path (Function.update cs x nn) else .ok (false,.full cs fl)
  | _+1, .value _, _, _ => .ok (true,.nil)
  | _+1, .nil, _, _ => .ok (false,.nil)
  | fuel+1, .hash h, path, key =>
    match t.resolveHash h path with
    | .error e => .error e
    | .ok rn =>
      match t.delete fuel rn path key with
      | .error e => .error e
      | .ok (dirty,nn) => if dirty then .ok (true,nn) else .ok (false,rn)

/-- Fuel for a key: each nibble takes a node and at most one resolution. -/
def fuelFor (key : Hex) : Nat := 2*key.length + 2

/-- `TryGet`. -/
def tryGet (t : Trie) (key : Bytes) : Except Failure (Option Bytes × Trie) :=
  let k := keybytesToHex key
  match t.tryGetFrom (fuelFor k) t.root k 0 with
  | .error e => .error e
  | .ok (value,newroot,didResolve) => .ok (value,if didResolve then { t with root := newroot } else t)
/-- `TryDelete`. -/
def tryDelete (t : Trie) (key : Bytes) : Except Failure Trie :=
  let k := keybytesToHex key
  match t.delete (fuelFor k) t.root [] k with
  | .error e => .error e
  | .ok (_,n) => .ok { t with root := n }
/-- `TryUpdate`: an empty value deletes the key. -/
def tryUpdate (t : Trie) (key value : Bytes) : Except Failure Trie :=
  let k := keybytesToHex key
  if value.length ≠ 0 then
    match t.insert (fuelFor k) t.root [] k (.value value) with
    | .error e => .error e
    | .ok (_,n) => .ok { t with root := n }
  else
    match t.delete (fuelFor k) t.root [] k with
    | .error e => .error e
    | .ok (_,n) => .ok { t with root := n }

end Trie

/-! ### The hasher -/

section Hasher
variable (keccak : Bytes → Hash)

/-- The end of `store`: a node that is referenced by its hash goes into the
    database, if there is one. -/
def insertAt (hash : Hash) (n : Raw) : Option Database → Except Failure (Raw × Option Database)
  | none => .ok (.hash hash,none)
  | some db => (db.insert hash n).map fun db => (.hash hash,some db)
/-- `store`: the reference to a collapsed node, which is the node itself where
    its encoding is short and not `force`d. -/
def store (n : Raw) (cached : Option Hash) (db : Option Database) (force : Bool) :
    Except Failure (Raw × Option Database) :=
  match n with
  | .nil => .ok (.nil,db)
  | .hash h => .ok (.hash h,db)
  | n =>
    if n.encode.length < 32 ∧ force = false then .ok (n,db)
    else
      insertAt (cached.getD (keccak n.encode)) n db

/-- The part of `hash` that answers from the cached hash of a node. -/
def fromCache (cachegen cachelimit : UInt16) (n : Node) (fl : NodeFlag) (db : Option Database) :
    Option (Raw × Node) :=
  match fl.hash with
  | none => none
  | some h =>
    if db.isNone then some (.hash h,n)
    else if fl.canUnload cachegen cachelimit then some (.hash h,.hash h)
    else if fl.dirty = false then some (.hash h,n)
    else none

/-- The flags `hash` leaves on the cached copy of a node. -/
def hashedFlags (fl : NodeFlag) (hashed : Raw) (db : Option Database) : NodeFlag :=
  { fl with
    hash := match hashed with
      | .hash h => some h
      | _ => none
    dirty := if db.isSome then false else fl.dirty }

/-- The child of a short node in `hashChildren`: a value stays as it is. -/
def hashVal (val : Node) (db : Option Database) (hashed : Except Failure (Raw × Node × Option Database)) :
    Except Failure (Raw × Node × Option Database) :=
  match val with
  | .value v => .ok (.value v,.value v,db)
  | _ => hashed
/-- `hasher.hash` with `hashChildren`: the reference to a node, the node with
    its caches set, and the database. -/
def hash (cachegen cachelimit : UInt16) :
    Node → Option Database → Bool → Except Failure (Raw × Node × Option Database)
  | .nil, _, _ => .error (.panicked .nilDereference)
  | .hash h, db, _ => .ok (.hash h,.hash h,db)
  | .value v, db, force => (store keccak (.value v) none db force).map fun (hashed,db) => (hashed,.value v,db)
  | .short key val fl, db, force =>
    match fromCache cachegen cachelimit (.short key val fl) fl db with
    | some (hashed,cached) => .ok (hashed,cached,db)
    | none =>
      match hashVal val db (hash cachegen cachelimit val db false) with
      | .error e => .error e
      | .ok (collapsed,cached,db) =>
        match store keccak (.short (hexToCompact key) collapsed) fl.hash db force with
        | .error e => .error e
        | .ok (hashed,db) => .ok (hashed,.short key cached (hashedFlags fl hashed db),db)
  | .full cs fl, db, force =>
    match fromCache cachegen cachelimit (.full cs fl) fl db with
    | some (hashed,cached) => .ok (hashed,cached,db)
    | none =>
      let children : Except Failure ((Fin 16 → Raw × Node) × Option Database) := sweep 16 (fun i db =>
        if (cs i.castSucc).isNil then .ok ((.nil,.nil),db)
        else (hash cachegen cachelimit (cs i.castSucc) db false).map fun (hashed,cached,db) => ((hashed,cached),db)) db
      match children with
      | .error e => .error e
      | .ok (pairs,db) =>
        let collapsed := slots (fun i => (pairs i).1) (cs 16).simplify
        let cached := slots (fun i => (pairs i).2) (cs 16)
        match store keccak (.full collapsed) fl.hash db force with
        | .error e => .error e
        | .ok (hashed,db) => .ok (hashed,.full cached (hashedFlags fl hashed db),db)

namespace Trie

/-- `hashRoot`. -/
def hashRoot (t : Trie) (db : Option Database) : Except Failure (Raw × Node × Option Database) :=
  match t.root with
  | .nil => .ok (.hash emptyRoot,.nil,db)
  | root => TrieOps.hash keccak t.cachegen t.cachelimit root db true
/-- `Hash`. -/
def hash (t : Trie) : Except Failure (Hash × Trie) :=
  match t.hashRoot keccak none with
  | .error e => .error e
  | .ok (.hash h,cached,_) => .ok (h,{ t with root := cached })
  | .ok _ => .error (.panicked .typeAssertion)
/-- `Commit`, without the callback for leaves. -/
def commit (t : Trie) : Except Failure (Hash × Trie) :=
  match t.hashRoot keccak (some t.db) with
  | .error e => .error e
  | .ok (.hash h,cached,db) => .ok (h,{ t with db := db.getD t.db, root := cached, cachegen := t.cachegen + 1 })
  | .ok _ => .error (.panicked .typeAssertion)

end Trie
end Hasher

end Canchain.TrieOps
