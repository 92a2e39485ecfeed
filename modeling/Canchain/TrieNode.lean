import Canchain.Common
import Canchain.HexKeys
import Canchain.Runs
import Canchain.Sweep

/-!
Trie nodes, after `lib/trie/node.go`, and the node database of `lib/trie/database.go`: live
nodes with their cache flags, the collapsed nodes that are encoded and kept, and the two ways
back, `expandNode` and `decodeNode`.
-/
namespace Canchain.TrieNode
open Rlp Common HexKeys Sweep Prod Except

/-- The root of the empty trie, a constant of `trie.go`. -/
def emptyRoot : Hash :=
  ⟨[0x56,0xe8,0x1f,0x17,0x1b,0xcc,0x55,0xa6,0xff,0x83,0x45,0xe6,0x92,0xc0,0xf8,0x6e,
    0x5b,0x48,0xe0,0x1b,0x99,0x6c,0xad,0xc0,0x01,0x62,0x2f,0xb5,0xe3,0x63,0xb4,0x21],by simp⟩

/-- Where the source panics. -/
inductive Panic where
  | nilDereference | indexOutOfRange | sliceOutOfRange | typeAssertion
  | invalidNode | unknownNodeType | undecodableNode
  deriving DecidableEq, Repr
/-- How a trie operation fails. Running out of fuel stands for a recursion the
    model cuts off. -/
inductive Failure where
  | missingNode (nodeHash : Hash) (path : Hex)
  | panicked (p : Panic)
  | outOfFuel
  deriving DecidableEq

structure NodeFlag where
  hash : Option Hash
  gen : UInt16
  dirty : Bool
  deriving DecidableEq

def NodeFlag.canUnload (fl : NodeFlag) (cachegen cachelimit : UInt16) : Bool :=
  !fl.dirty && decide (cachegen - fl.gen ≥ cachelimit)

/-- The nodes of a live trie; `nil` is the nil interface value and a `hashNode`
    holds the bytes of a hash. -/
inductive Node where
  | nil
  | short (key : Hex) (val : Node) (flags : NodeFlag)
  | full (children : Nibble → Node) (flags : NodeFlag)
  | hash (h : Hash)
  | value (v : Bytes)

/-- Collapsed nodes: short nodes carry compact keys and nothing is cached. These
    are also `rawShortNode` and `rawFullNode`. -/
inductive Raw where
  | nil
  | short (key : Bytes) (val : Raw)
  | full (children : Nibble → Raw)
  | hash (h : Hash)
  | value (v : Bytes)

def Node.isNil : Node → Bool
  | .nil => true
  | _ => false
def Raw.isNil : Raw → Bool
  | .nil => true
  | _ => false

/-- `rlp.Encode` of a collapsed node. A branch writes an empty string for a
    missing child; the nil interface below a short node is an empty list. -/
def Raw.encode : Raw → Bytes
  | .nil => [0xC0]
  | .short key val => encodeList (encodeString key ++ val.encode)
  | .full cs => encodeList ((List.finRange 17).flatMap fun i => if (cs i).isNil then [0x80] else (cs i).encode)
  | .hash h => encodeString h.bytes
  | .value v => encodeString v

/-- A live node left in a collapsed one: `simplifyNode` keeps its key as it is. -/
def Node.simplify : Node → Raw
  | .nil => .nil
  | .short key val _ => .short (key.map fun x => UInt8.ofNat x.val) val.simplify
  | .full cs _ => .full fun i => (cs i).simplify
  | .hash h => .hash h
  | .value v => .value v
/-- `simplifyNode` reaches its panic at a short node without a child. -/
def Raw.simplifies : Raw → Bool
  | .nil => false
  | .short _ val => val.simplifies
  | .full cs => (List.finRange 17).all fun i => (cs i).isNil || (cs i).simplifies
  | .hash _ => true
  | .value _ => true

def expandNode (hash : Option Hash) (cachegen : UInt16) : Raw → Except Failure Node
  | .nil => .error (.panicked .unknownNodeType)
  | .short key val =>
    match compactToHex key with
    | none => .error (.panicked .sliceOutOfRange)
    | some k =>
      match expandNode none cachegen val with
      | .error e => .error e
      | .ok v => .ok (.short k v ⟨hash,cachegen,false⟩)
  | .full cs =>
    match sweep 17 (fun i (_ : Unit) =>
        if (cs i).isNil then .ok (.nil,()) else (expandNode none cachegen (cs i)).map fun n => (n,())) () with
    | .error e => .error e
    | .ok (children,_) => .ok (.full children ⟨hash,cachegen,false⟩)
  | .hash h => .ok (.hash h)
  | .value v => .ok (.value v)

/-! ### Decoding -/

/-- What `decodeNode` reports, and `wrapError` collects the path of. -/
inductive DecodeFault where
  | unexpectedEOF
  | notList (e : Rlp.Error)
  | elements (count : Nat)
  | rlp (e : Rlp.Error)
  | invalidValue (e : Rlp.Error)
  | oversized (size : Nat)
  | stringSize (size : Nat)
  deriving DecidableEq
inductive DecodeError where
  | fault (what : DecodeFault) (stack : List String)
  | panicked (p : Panic)
  | outOfFuel
  deriving DecidableEq
def wrapError (ctx : String) : DecodeError → DecodeError
  | .fault what stack => .fault what (stack ++ [ctx])
  | e => e

/-- `rlp.CountValues`; each value takes at least a byte, so the length is
    enough fuel. -/
def countValues : Nat → Bytes → Except Rlp.Error Nat
  | _, [] => .ok 0
  | 0, _ => .ok 0
  | fuel+1, b =>
    match readKind b with
    | .error e => .error e
    | .ok (_,tagsize,size) => (countValues fuel (b.drop (tagsize+size))).map (· + 1)

/-- `decodeRef`, over the decoder for an embedded node. -/
def decodeRef (decodeNode : Bytes → Except DecodeError Node) (buf : Bytes) : Except DecodeError (Node × Bytes) :=
  match split buf with
  | .error e => .error (.fault (.rlp e) [])
  | .ok (kind,val,rest) =>
    if kind = .List then
      if buf.length - rest.length > 32 then .error (.fault (.oversized (buf.length - rest.length)) [])
      else (decodeNode buf).map fun n => (n,rest)
    else if kind = .String ∧ val.length = 0 then .ok (.nil,rest)
    else if is : kind = .String ∧ val.length = 32 then .ok (.hash ⟨val,is.2⟩,rest)
    else .error (.fault (.stringSize val.length) [])
def decodeShort (decodeNode : Bytes → Except DecodeError Node) (hash : Option Hash) (elems : Bytes)
    (cachegen : UInt16) : Except DecodeError Node :=
  match splitString elems with
  | .error e => .error (.fault (.rlp e) [])
  | .ok (kbuf,rest) =>
    match compactToHex kbuf with
    | none => .error (.panicked .sliceOutOfRange)
    | some key =>
      if hasTerm key then
        match splitString rest with
        | .error e => .error (.fault (.invalidValue e) [])
        | .ok (val,_) => .ok (.short key (.value val) ⟨hash,cachegen,false⟩)
      else
        match decodeRef decodeNode rest with
        | .error e => .error (wrapError "val" e)
        | .ok (r,_) => .ok (.short key r ⟨hash,cachegen,false⟩)
def decodeFull (decodeNode : Bytes → Except DecodeError Node) (hash : Option Hash) (elems : Bytes)
    (cachegen : UInt16) : Except DecodeError Node :=
  match sweep 16 (fun i elems =>
      (decodeRef decodeNode elems).mapError (wrapError ("[" ++ toString i.val ++ "]"))) elems with
  | .error e => .error e
  | .ok (children,elems) =>
    match splitString elems with
    | .error e => .error (.fault (.rlp e) [])
    | .ok (val,_) =>
      .ok (.full (slots children (if val.length > 0 then .value val else .nil)) ⟨hash,cachegen,false⟩)
/-- `decodeNode`; an embedded node is shorter than the buffer around it, so the
    length of the buffer is enough fuel. -/
def decodeNode : Nat → Option Hash → Bytes → UInt16 → Except DecodeError Node
  | 0, _, _, _ => .error .outOfFuel
  | fuel+1, hash, buf, cachegen =>
    if buf.length = 0 then .error (.fault .unexpectedEOF [])
    else
      match splitList buf with
      | .error e => .error (.fault (.notList e) [])
      | .ok (elems,_) =>
        -- An error of `CountValues` is ignored: it comes with the count 0.
        match (countValues elems.length elems).toOption.getD 0 with
        | 2 => (decodeShort (decodeNode fuel none · cachegen) hash elems cachegen).mapError (wrapError "short")
        | 17 => (decodeFull (decodeNode fuel none · cachegen) hash elems cachegen).mapError (wrapError "full")
        | c => .error (.fault (.elements c) [])

/-! What a decoded node was read from. -/
variable {b content rest : Bytes}

theorem split_length {kind : Kind} (read : split b = .ok (kind,content,rest)) :
    content.length + rest.length ≤ b.length ∧ (kind ≠ .Byte → content.length + rest.length < b.length) := by
  unfold split at read
  split at read
  · cases read
  · rename_i k tagsize size is
    simp only [ok.injEq,mk.injEq] at read
    obtain ⟨rfl,rfl,rfl⟩ := read
    simp only [List.length_take,List.length_drop]
    refine ⟨by omega,fun notByte => ?_⟩
    cases b with
    | nil => cases is
    | cons x tail =>
      have front : 0 < tagsize := by
        unfold readKind at is
        dsimp only at is
        repeat' split at is
        all_goals simp_all
        all_goals omega
      simp only [List.length_cons]
      omega
theorem splitString_length (read : splitString b = .ok (content,rest)) :
    content.length + rest.length ≤ b.length := by
  unfold splitString at read
  repeat' split at read
  all_goals cases read
  rename_i found
  exact (split_length found).1
theorem splitList_length (read : splitList b = .ok (content,rest)) :
    content.length + rest.length < b.length ∧ split b = .ok (.List,content,rest) := by
  unfold splitList at read
  repeat' split at read
  all_goals cases read
  rename_i isList found
  obtain rfl := not_not.mp isList
  exact ⟨(split_length found).2 nofun,found⟩

theorem mapError_ok {α ε ε' : Type} {r : Except ε α} {f : ε → ε'} {a : α} (ok : r.mapError f = .ok a) : r = .ok a := by
  cases r with
  | error e => cases ok
  | ok b => exact congrArg _ (Except.ok.inj ok)
section
variable {decode : Bytes → Except DecodeError Node} {hash : Option Hash} {buf elems : Bytes} {cachegen : UInt16} {n : Node}

theorem decodeRef_inv (read : decodeRef decode buf = .ok (n,rest)) : ∃ kind val, split buf = .ok (kind,val,rest) ∧
    (kind = .List ∧ buf.length - rest.length ≤ 32 ∧ decode buf = .ok n ∨
      kind = .String ∧ (val.length = 0 ∧ n = .nil ∨ ∃ size : val.length = 32, n = .hash ⟨val,size⟩)) := by
  unfold decodeRef at read
  split at read
  · cases read
  rename_i kind val rest' found
  split at read
  · rename_i isList
    split at read
    · cases read
    rename_i small
    obtain ⟨m,inner,same⟩ := Runs.map_ok.mp read
    obtain ⟨rfl,rfl⟩ := mk.inj same
    exact ⟨kind,val,found,.inl ⟨isList,by omega,inner⟩⟩
  · repeat' split at read
    all_goals cases read
    · rename_i is
      exact ⟨kind,val,found,.inr ⟨is.1,.inl ⟨is.2,rfl⟩⟩⟩
    · rename_i is
      exact ⟨kind,val,found,.inr ⟨is.1,.inr ⟨is.2,rfl⟩⟩⟩
theorem decodeShort_inv (read : decodeShort decode hash elems cachegen = .ok n) : ∃ kbuf rest key r rest',
    splitString elems = .ok (kbuf,rest) ∧ n = .short key r ⟨hash,cachegen,false⟩ ∧
      ((∃ v, splitString rest = .ok (v,rest') ∧ r = .value v) ∨ decodeRef decode rest = .ok (r,rest')) := by
  unfold decodeShort at read
  split at read
  · cases read
  rename_i kbuf rest first
  split at read
  · cases read
  rename_i key _
  repeat' split at read
  all_goals cases read
  · rename_i v rest' second
    exact ⟨kbuf,rest,key,.value v,rest',first,rfl,.inl ⟨v,second,rfl⟩⟩
  · rename_i r rest' second
    exact ⟨kbuf,rest,key,r,rest',first,rfl,.inr second⟩
theorem decodeFull_inv (read : decodeFull decode hash elems cachegen = .ok n) : ∃ (ctx : Fin 16 → String) (children : Fin 16 → Node)
    (elems' val rest : Bytes), sweep 16 (fun i elems => (decodeRef decode elems).mapError (wrapError (ctx i))) elems =
      .ok (children,elems') ∧ splitString elems' = .ok (val,rest) ∧
      n = .full (slots children (if val.length > 0 then .value val else .nil)) ⟨hash,cachegen,false⟩ := by
  unfold decodeFull at read
  split at read
  · cases read
  rename_i children elems' swept
  split at read
  · cases read
  rename_i val rest last
  exact ⟨_,children,elems',val,rest,swept,last,(ok.inj read).symm⟩
theorem decodeNode_inv {fuel : Nat} (read : decodeNode (fuel+1) hash buf cachegen = .ok n) : ∃ elems rest,
    splitList buf = .ok (elems,rest) ∧ (decodeShort (decodeNode fuel none · cachegen) hash elems cachegen = .ok n ∨
      decodeFull (decodeNode fuel none · cachegen) hash elems cachegen = .ok n) := by
  simp only [decodeNode] at read
  split at read
  · cases read
  split at read
  · cases read
  rename_i elems rest list
  refine ⟨elems,rest,list,?_⟩
  split at read
  · exact .inl (mapError_ok read)
  · exact .inr (mapError_ok read)
  · cases read

end

/-! ### The node database -/

/-- The dirty nodes in memory and the encoded nodes on disk. -/
structure Database where
  dirties : Hash → Option Raw
  diskdb : Hash → Option Bytes

/-- `NewDatabase`: the only cached node is the empty one at the zero hash. -/
def newDatabase (diskdb : Hash → Option Bytes) : Database :=
  ⟨fun h => if h = Hash.zero then some .nil else none,diskdb⟩

def Database.insert (db : Database) (hash : Hash) (n : Raw) : Except Failure Database :=
  if (db.dirties hash).isSome then .ok db
  else if n.simplifies then .ok { db with dirties := Function.update db.dirties hash (some n) }
  else .error (.panicked .unknownNodeType)
/-- `Database.node` without the cache of clean nodes; `none` is its nil result. -/
def Database.node (db : Database) (hash : Hash) (cachegen : UInt16) : Except Failure (Option Node) :=
  match db.dirties hash with
  | some n => (expandNode (some hash) cachegen n).map some
  | none =>
    match db.diskdb hash with
    | none => .ok none
    | some enc =>
      -- `mustDecodeNode`
      match decodeNode (enc.length+1) (some hash) enc cachegen with
      | .error _ => .error (.panicked .undecodableNode)
      | .ok n => .ok (some n)

end Canchain.TrieNode
