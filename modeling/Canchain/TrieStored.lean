import Canchain.TrieDecode

/-!
The two ways back to a stored node, after `cachedNode` of `lib/trie/database.go`: the database
keeps a collapsed node without its flags (`simplifyNode`) and rebuilds it from memory
(`expandNode`), or from the bytes that were written to disk (`decodeNode`).
-/
namespace Canchain.TrieStored
open Rlp Common HexKeys TrieNode TrieDecode

/-- The collapsed nodes of the hasher: copies of live nodes, with their flags. -/
inductive Collapsed where
  | nil
  | short (key : Bytes) (val : Collapsed) (flags : NodeFlag)
  | full (children : Nibble → Collapsed) (flags : NodeFlag)
  | hash (h : Hash)
  | value (v : Bytes)
def Collapsed.isNil : Collapsed → Bool
  | .nil => true
  | _ => false
/-- `rlp.EncodeToBytes` of a `shortNode` or by `fullNode.EncodeRLP`: the flags are not exported. -/
def Collapsed.encode : Collapsed → Bytes
  | .nil => [0xC0]
  | .short key val _ => encodeList (encodeString key ++ val.encode)
  | .full cs _ => encodeList ((List.finRange 17).flatMap fun i => if (cs i).isNil then [0x80] else (cs i).encode)
  | .hash h => encodeString h.bytes
  | .value v => encodeString v
def simplifyNode : Collapsed → Except Failure Raw
  | .nil => .error (.panicked .unknownNodeType)
  | .short key val _ =>
    match simplifyNode val with
    | .error e => .error e
    | .ok val => .ok (.short key val)
  | .full cs _ =>
    match Sweep.sweep 17 (fun i (_ : Unit) =>
        if (cs i).isNil then .ok (.nil,()) else (simplifyNode (cs i)).map fun n => (n,())) () with
    | .error e => .error e
    | .ok (children,_) => .ok (.full children)
  | .hash h => .ok (.hash h)
  | .value v => .ok (.value v)
/-- What the database holds under a hash: bytes, or a simplified node. -/
inductive CachedNode where
  | rawNode (blob : Bytes)
  | node (n : Raw)
def CachedNode.rlp : CachedNode → Bytes
  | .rawNode blob => blob
  | .node n => n.encode
def mustDecodeNode (hash : Option Hash) (buf : Bytes) (cachegen : UInt16) : Except Failure Node :=
  match decodeNode (buf.length+1) hash buf cachegen with
  | .error _ => .error (.panicked .undecodableNode)
  | .ok n => .ok n
def CachedNode.obj (hash : Hash) (cachegen : UInt16) : CachedNode → Except Failure Node
  | .rawNode blob => mustDecodeNode (some hash) blob cachegen
  | .node n => expandNode (some hash) cachegen n

/-- A collapsed node without its flags. -/
def Collapsed.bare : Collapsed → Raw
  | .nil => .nil
  | .short key val _ => .short key val.bare
  | .full cs _ => .full fun i => (cs i).bare
  | .hash h => .hash h
  | .value v => .value v

theorem isNil_bare (c : Collapsed) : c.bare.isNil = c.isNil := by cases c <;> rfl
theorem encode_bare (c : Collapsed) : c.bare.encode = c.encode := by
  induction c with
  | short key val fl ih => simp [Collapsed.bare,Raw.encode,Collapsed.encode,ih]
  | full cs fl ih => simp [Collapsed.bare,Raw.encode,Collapsed.encode,ih,isNil_bare]
  | _ => rfl
theorem simplifyNode_bare {c : Collapsed} (formed : c.bare.simplifies) : simplifyNode c = .ok c.bare := by
  induction c with
  | nil => cases formed
  | hash h => rfl
  | value v => rfl
  | short key val fl ih => simp [simplifyNode,ih formed,Collapsed.bare]
  | full cs fl ih =>
    have each : ∀ i, (cs i).isNil ∨ (cs i).bare.simplifies := by
      simpa [Collapsed.bare,Raw.simplifies,isNil_bare] using formed
    have swept := Sweep.sweep_walk (g := fun i => (cs i).bare) (f := fun i (_ : Unit) =>
        if (cs i).isNil then .ok (.nil,()) else (simplifyNode (cs i)).map fun n => (n,())) (fun _ => ()) fun i => by
      by_cases empty : (cs i).isNil
      · cases isNil : cs i with
        | nil => rfl
        | _ => simp [isNil,Collapsed.isNil] at empty
      · rw [if_neg empty,ih i ((each i).resolve_left empty)]
        rfl
    simp only [simplifyNode]
    rw [swept]
    rfl

/-- A stored node is the same whether it is rebuilt from memory or from its bytes, and it is the node that was stored; the
    compact form of keys goes both ways. -/
theorem stored_node_reads_back (hash : Hash) (gen : UInt16) (c : Collapsed) (stored : Storable c.bare) (fits : Fits c.encode) :
    (∃ r n, simplifyNode c = .ok r ∧ (CachedNode.node r).rlp = c.encode ∧
      decodeNode (c.encode.length+1) (some hash) c.encode gen = .ok n ∧ compact n = c.bare ∧
      (CachedNode.node r).obj hash gen = .ok n ∧ (CachedNode.rawNode (CachedNode.node r).rlp).obj hash gen = .ok n) ∧
    (∀ k, WellFormed k → compactToHex (hexToCompact k) = some k) ∧
    ∀ key, IsCompact key → ∃ k, WellFormed k ∧ compactToHex key = some k ∧ hexToCompact k = key := by
  refine ⟨?_,compactToHex_hexToCompact,fun _ => hexToCompact_compactToHex⟩
  have encoded := encode_bare c
  obtain ⟨n,back⟩ := stored_readsBack stored (encoded ▸ fits) (some hash) gen
  have decoded : decodeNode (c.encode.length+1) (some hash) c.encode gen = .ok n := by
    have read := back.decoded (c.encode.length+1) [] (by rw [encoded]; omega)
    rwa [encoded,List.append_nil] at read
  refine ⟨c.bare,n,simplifyNode_bare (simplifies_storable stored),encoded,decoded,back.same,back.expanded,?_⟩
  simp [CachedNode.obj,CachedNode.rlp,encoded,mustDecodeNode,decoded]

/-- A branch with an embedded leaf, a hash and a value of its own, as it comes from a live trie with flags. -/
def sampleBranch : Collapsed := .full (fun i =>
  if i = 0 then .short (hexToCompact [5,16]) (.value [1,2,3]) ⟨none,7,true⟩
  else if i = 1 then .hash emptyRoot
  else if i = 16 then .value [9]
  else .nil) ⟨none,7,true⟩
theorem sampleBranch_storable : Storable sampleBranch.bare := by
  refine ⟨fun i final => ?_,.inr ⟨[9],by simp,rfl⟩⟩
  by_cases zero : i = 0
  · subst zero
    exact .inr (.inr ⟨⟨[5,16],rfl,.inl ⟨Patricia.terminated_iff.mpr ⟨[5],(TrieCollapse.plain_iff [5]).mpr (by decide),rfl⟩,_,rfl⟩⟩,by decide +kernel⟩)
  · by_cases one : i = 1
    · subst one
      exact .inr (.inl ⟨emptyRoot,rfl⟩)
    · refine .inl ?_
      have last : ¬ i = 16 := final
      simp [Collapsed.bare,if_neg zero,if_neg one,if_neg last]
theorem stored_node_reads_back_branch : ∃ r n, simplifyNode sampleBranch = .ok r ∧ (CachedNode.node r).rlp = sampleBranch.encode ∧
    decodeNode (sampleBranch.encode.length+1) (some emptyRoot) sampleBranch.encode 3 = .ok n ∧ compact n = sampleBranch.bare ∧
    (CachedNode.node r).obj emptyRoot 3 = .ok n ∧ (CachedNode.rawNode (CachedNode.node r).rlp).obj emptyRoot 3 = .ok n :=
  (stored_node_reads_back emptyRoot 3 sampleBranch sampleBranch_storable (by unfold Fits; decide +kernel)).1

end Canchain.TrieStored
