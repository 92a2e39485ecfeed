import Canchain.SyncRuns
import Canchain.TrieDecode
import Canchain.Keccak

/-!
The download of one trie. What a node refers to is read off its whole encoding; embedded nodes
are at most 32 bytes long and hold no hash of their own, so a download may look at the outermost
slots only.
-/
namespace Canchain.TrieSync
open Rlp Common TrieNode Sweep List

/-- The hashes and values in a node, those in embedded nodes included. -/
def leaves : Node → List Node
  | .nil => []
  | .short _ val _ => leaves val
  | .full cs _ => (List.finRange 17).flatMap fun i => leaves (cs i)
  | n => [n]
def leavesOf (blob : Hash → Option Bytes) (hash : Hash) : List Node :=
  match (blob hash).map (Sync.decoded hash) with
  | some (.ok n) => leaves n
  | _ => []
/-- The hashes a stored node refers to. -/
def Child (blob : Hash → Option Bytes) (hash c : Hash) : Prop := .hash c ∈ leavesOf blob hash
/-- The nodes of the trie under a root. -/
inductive Under (blob : Hash → Option Bytes) (root : Hash) : Hash → Prop
  | root (some : root ≠ emptyRoot) : Under blob root root
  | child {hash c : Hash} (under : Under blob root hash) (child : Child blob hash c) : Under blob root c
def Readable (blob : Hash → Option Bytes) (hash : Hash) : Prop := ∃ d n, blob hash = some d ∧ Sync.decoded hash d = .ok n
def ClosedUnder (blob database : Hash → Option Bytes) : Prop :=
  ∀ hash, (database hash).isSome → ∀ c, Child blob hash c → (database c).isSome

/-- The leaf of an embedded node. -/
def Short (x : Node) : Prop := ∃ v, x = .value v ∧ v.length ≤ 31

/-- What a node that is read from these elements holds: short values, and what stands in its slots. -/
def Holds (elems : Bytes) (n : Node) : Prop := ∃ bs, Sync.branches n = .ok bs ∧ ∀ x ∈ leaves n, Short x ∨
  (∃ branch ∈ bs, branch.1 = x) ∧ ((∃ h, x = .hash h ∧ 32 ≤ elems.length) ∨ ∃ v, x = .value v ∧ v.length ≤ elems.length)
theorem Holds.short {elems : Bytes} {n : Node} (holds : Holds elems n) (small : elems.length ≤ 31) : ∀ x ∈ leaves n, Short x := by
  intro x member
  obtain ⟨bs,-,all⟩ := holds
  rcases all x member with short | ⟨-,⟨h,-,long⟩ | ⟨v,rfl,size⟩⟩
  · exact short
  · omega
  · exact ⟨v,rfl,by omega⟩

section
variable {fuel : Nat} {hash : Option Hash} {buf elems rest : Bytes} {gen : UInt16} {n : Node}

/-- What a reference reads is a hash, nothing, or an embedded node. -/
theorem decodeRef_leaves
    (inner : ∀ {buf n elems rest}, decodeNode fuel none buf gen = .ok n → splitList buf = .ok (elems,rest) → Holds elems n)
    (read : decodeRef (decodeNode fuel none · gen) buf = .ok (n,rest)) :
    rest.length ≤ buf.length ∧ ((∀ x ∈ leaves n, Short x) ∨ ∃ h, n = .hash h ∧ 32 ≤ buf.length) := by
  obtain ⟨kind,val,found,form⟩ := decodeRef_inv read
  have sizes := split_length found
  refine ⟨by omega,?_⟩
  rcases form with ⟨rfl,bounded,node⟩ | ⟨-,⟨-,rfl⟩ | ⟨size,rfl⟩⟩
  · have list : splitList buf = .ok (val,rest) := by simp [splitList,found]
    have smaller := sizes.2 (by intro is; cases is)
    exact .inl ((inner node list).short (by omega))
  · exact .inl (by simp [leaves])
  · exact .inr ⟨_,rfl,by omega⟩
theorem slot_branch {cs : HexKeys.Nibble → Node} {i : HexKeys.Nibble} (some : (cs i).isNil = false) :
    (cs i,1) ∈ ((finRange 17).map cs).filterMap fun c => if c.isNil then none else Option.some (c,1) := by
  refine mem_filterMap.mpr ⟨cs i,mem_map_of_mem (mem_finRange i),?_⟩
  rw [if_neg (by simp [some])]
theorem decodeNode_leaves (read : decodeNode fuel hash buf gen = .ok n) (list : splitList buf = .ok (elems,rest)) : Holds elems n := by
  induction fuel generalizing hash buf n elems rest with
  | zero => cases read
  | succ fuel ih =>
    obtain ⟨elems',rest',list',form⟩ := decodeNode_inv read
    obtain ⟨rfl,rfl⟩ := Prod.mk.inj (Except.ok.inj (list.symm.trans list'))
    rcases form with short | full
    · obtain ⟨kbuf,rest₁,key,r,rest₂,first,rfl,second⟩ := decodeShort_inv short
      have size := splitString_length first
      refine ⟨_,rfl,fun x member => ?_⟩
      simp only [leaves] at member
      rcases second with ⟨v,value,rfl⟩ | reference
      · have size' := splitString_length value
        obtain rfl : x = .value v := by simpa [leaves] using member
        exact .inr ⟨⟨_,mem_singleton_self _,rfl⟩,.inr ⟨v,rfl,by omega⟩⟩
      · rcases (decodeRef_leaves ih reference).2 with all | ⟨h,rfl,long⟩
        · exact .inl (all x member)
        · obtain rfl : x = .hash h := by simpa [leaves] using member
          exact .inr ⟨⟨_,mem_singleton_self _,rfl⟩,.inl ⟨h,rfl,by omega⟩⟩
    · obtain ⟨ctx,children,elems',val,rest',swept,last,rfl⟩ := decodeFull_inv full
      obtain ⟨shorter,each⟩ := sweep_inv (fun b : Bytes => b.length ≤ elems.length)
        (fun {i s a t} step bound => (decodeRef_leaves ih (mapError_ok step)).1.trans bound) swept le_rfl
      refine ⟨_,rfl,fun x member => ?_⟩
      simp only [leaves,mem_flatMap,mem_finRange,true_and] at member
      obtain ⟨i,member⟩ := member
      by_cases inside : i.val < 16
      · obtain ⟨b,t,bound,step⟩ := each ⟨i.val,inside⟩
        have isChild : slots children (if val.length > 0 then Node.value val else .nil) i = children ⟨i.val,inside⟩ := dif_pos inside
        rcases (decodeRef_leaves ih (mapError_ok step)).2 with all | ⟨h,isHash,long⟩
        · exact .inl (all x (isChild ▸ member))
        · rw [isChild,isHash] at member
          obtain rfl : x = .hash h := by simpa [leaves] using member
          refine .inr ⟨⟨_,slot_branch (by rw [isChild,isHash]; rfl),isChild.trans isHash⟩,.inl ⟨h,rfl,by omega⟩⟩
      · have isLast : slots children (if val.length > 0 then Node.value val else .nil) i =
            if val.length > 0 then Node.value val else .nil := dif_neg inside
        rw [isLast] at member
        split at member
        · rename_i long
          obtain rfl : x = .value val := by simpa [leaves] using member
          have isValue := isLast.trans (if_pos long)
          have size := splitString_length last
          refine .inr ⟨⟨_,slot_branch (by rw [isValue]; rfl),isValue⟩,.inr ⟨val,rfl,by omega⟩⟩
        · simp [leaves] at member

/-- The leaves of a node that are not short values are what stands in its slots. -/
theorem decoded_leaves {hash : Hash} {d : Bytes} (read : Sync.decoded hash d = .ok n) : ∃ bs, Sync.branches n = .ok bs ∧
    (∀ x ∈ leaves n, Short x ∨ ∃ branch ∈ bs, branch.1 = x) ∧
      ∀ branch ∈ bs, ∀ x, branch.1 = x → leaves x = [x] → x ∈ leaves n := by
  obtain ⟨elems,rest,list,-⟩ := decodeNode_inv read
  obtain ⟨bs,isBranches,all⟩ := decodeNode_leaves read list
  refine ⟨bs,isBranches,fun x member => (all x member).imp_right And.left,?_⟩
  intro branch member x isSlot isLeaf
  cases n with
  | short key val fl =>
    obtain rfl := Except.ok.inj isBranches
    obtain rfl := mem_singleton.mp member
    subst isSlot
    simp only [leaves,isLeaf]
    exact mem_singleton_self _
  | full cs fl =>
    obtain rfl := Except.ok.inj isBranches
    obtain ⟨c,isChild,isBranch⟩ := mem_filterMap.mp member
    obtain ⟨i,-,rfl⟩ := mem_map.mp isChild
    split at isBranch
    · cases isBranch
    obtain rfl := Option.some.inj isBranch
    subst isSlot
    simp only [leaves,mem_flatMap,mem_finRange,true_and]
    exact ⟨i,isLeaf ▸ mem_singleton_self _⟩
  | nil | hash _ | value _ => cases isBranches

end

/-! ### The trie under a root -/

section
variable {κ : Type} {leaf : LeafCallback κ} {blob database : Hash → Option Bytes} {root hash c : Hash}

variable {item : Role κ × Hash}
theorem leaves_items {callback : Option κ} {x : Node} (asks : item ∈ itemsOf leaf callback x) : leaves x = [x] := by
  cases x with
  | hash h => rfl
  | value v => rfl
  | _ => simp [itemsOf] at asks
/-- What is asked for below a node is what the leaves of the node ask for, if short values ask for nothing. -/
theorem mem_below {callback : Option κ} (quiet : ∀ v : Bytes, v.length ≤ 31 → itemsOf leaf callback (.value v) = [])
    : item ∈ below leaf blob (.trie callback,hash) ↔ ∃ x ∈ leavesOf blob hash, item ∈ itemsOf leaf callback x := by
  simp only [below,leavesOf]
  rcases read : (blob hash).map (Sync.decoded hash) with _ | _ | n
  · simp
  · simp
  · obtain ⟨d,-,decodes⟩ := Option.map_eq_some_iff.mp read
    obtain ⟨bs,branches,inside,outside⟩ := decoded_leaves decodes
    simp only [branches,Except.toOption,Option.getD_some,mem_flatMap]
    constructor
    · rintro ⟨branch,member,asks⟩
      exact ⟨branch.1,outside branch member _ rfl (leaves_items asks),asks⟩
    · rintro ⟨x,member,asks⟩
      rcases inside x member with ⟨v,rfl,size⟩ | ⟨branch,isBranch,rfl⟩
      · rw [quiet v size] at asks
        cases asks
      · exact ⟨branch,isBranch,asks⟩

theorem below_node : item ∈ below leaf blob (.trie none,hash) ↔ item.1 = .trie none ∧ Child blob hash item.2 := by
  rw [mem_below fun _ _ => rfl]
  constructor
  · rintro ⟨x,member,asks⟩
    cases x with
    | hash h =>
      obtain rfl := mem_singleton.mp asks
      exact ⟨rfl,member⟩
    | _ => simp [itemsOf] at asks
  · rintro ⟨isNode,child⟩
    exact ⟨_,child,by simp [itemsOf,← isNode]⟩
theorem wanted_node : Wanted leaf blob root none item ↔ item.1 = .trie none ∧ Under blob root item.2 := by
  constructor
  · intro wanted
    induction wanted with
    | root some => exact ⟨rfl,.root some⟩
    | next _ isBelow ih =>
      rename_i item item' _
      obtain ⟨role,hash⟩ := item
      obtain ⟨rfl,under⟩ := ih
      obtain ⟨isNode,child⟩ := below_node.mp isBelow
      exact ⟨isNode,.child under child⟩
  · obtain ⟨role,hash⟩ := item
    rintro ⟨rfl,under⟩
    replace under : Under blob root hash := under
    induction under with
    | root some => exact .root some
    | child _ child ih => exact .next ih (below_node.mpr ⟨rfl,child⟩)
theorem kids_node : c ∈ kids leaf blob root none hash ↔ Under blob root hash ∧ Child blob hash c := by
  constructor
  · rintro ⟨role,role',wanted,isBelow⟩
    obtain ⟨rfl,under⟩ := wanted_node.mp wanted
    exact ⟨under,(below_node.mp isBelow).2⟩
  · rintro ⟨under,child⟩
    exact ⟨.trie none,.trie none,wanted_node.mpr ⟨rfl,under⟩,below_node.mpr ⟨rfl,child⟩⟩
/-- A trie whose nodes can all be read serves a download without a callback. -/
theorem served_trie (trie : ∀ hash, Under blob root hash → Readable blob hash) : Served leaf blob root none := by
  refine ⟨fun {cb hash} wanted => ?_,fun {hash} wanted => ?_,fun {k hash} wanted => ?_,fun {role role' hash} wanted wanted' q c isBelow => ?_⟩
  · obtain ⟨isNode,under⟩ := wanted_node.mp wanted
    obtain rfl : cb = none := by simpa using isNode
    obtain ⟨d,n,isBlob,decodes⟩ := trie hash under
    exact ⟨d,n,isBlob,decodes,fun _ _ _ _ _ _ isSome => by cases isSome⟩
  · cases (wanted_node.mp wanted).1
  · cases (wanted_node.mp wanted).1
  · obtain ⟨rfl,-⟩ := wanted_node.mp wanted
    obtain ⟨rfl,-⟩ := wanted_node.mp wanted'
    exact ⟨q,isBelow⟩

/-- Every run of a download without a callback returns. Each of its writes leaves the database closed under children, no node
    is written twice or over one that was there, and when nothing is pending a commit completes the trie. -/
theorem sync_closed_complete {κ : Type} (leaf : LeafCallback κ) (blob database : Hash → Option Bytes)
    (root : Hash) (ops : List Sync.Op) (trie : ∀ hash, Under blob root hash → Readable blob hash)
    (base : ∀ hash d, database hash = some d → blob hash = some d) (closed : ClosedUnder blob database)
    (correct : ∀ op ∈ ops, Correct blob op) :
    ∃ s puts s', Sync.newSync root database none = .ok s ∧ Sync.run leaf ops s = .ok (puts,s') ∧
      s'.database = Sync.store database puts ∧
      (∀ front back, puts = front ++ back → ClosedUnder blob (Sync.store database front)) ∧
      ((∀ op ∈ ops, Reliable op) → (puts.map Prod.fst).Nodup ∧ ∀ put ∈ puts, database put.1 = none) ∧
      (s'.pending = 0 → ∀ hash, Under blob root hash → ∃ d, blob hash = some d ∧ (s'.commitTo none).2.database hash = some d) := by
  have served : Served leaf blob root none := served_trie trie
  obtain ⟨s,started,inv,rfl,unwritten⟩ := newSync_spec served base
    fun hash stored c isKid => closed hash stored c (kids_node.mp isKid).2
  obtain ⟨puts,s',ran,inv',isStore,closes,right,once⟩ := run_spec served inv correct
  refine ⟨s,puts,s',started,ran,isStore,?_,fun reliable => once reliable unwritten,?_⟩
  · intro front back split hash stored c child
    rcases (store_isSome _ _ _).mp stored with before | isPut
    · exact (store_isSome _ _ _).mpr (.inl (closed hash before c child))
    · obtain ⟨put,member,rfl⟩ := mem_map.mp isPut
      obtain ⟨-,role,wanted⟩ := right put (split ▸ mem_append_left _ member)
      exact closes front back split put.1 stored c (kids_node.mpr ⟨(wanted_node.mp wanted).2,child⟩)
  · intro done hash under
    obtain ⟨d,found⟩ := Option.isSome_iff_exists.mp (inv'.complete done (wanted_node.mpr ⟨rfl,under⟩))
    exact ⟨d,(inv'.commitTo none).database hash d found,found⟩

end

/-- What the hashes of a list stand for. -/
def blobOf (nodes : List (Hash × Bytes)) (hash : Hash) : Option Bytes := (nodes.find? (·.1 = hash)).map (·.2)
/-- The node can be read, refers to these hashes only, and its values pass the test. -/
def checks (blob : Hash → Option Bytes) (keys : List Hash) (value : Bytes → Bool) (hash : Hash) : Bool :=
  ((blob hash).any fun d => (Sync.decoded hash d).isOk) && (leavesOf blob hash).all fun x => match x with
    | .hash c => decide (c ∈ keys)
    | .value v => value v
    | _ => true

theorem under_checked {blob : Hash → Option Bytes} {keys : List Hash} {value : Bytes → Bool} {root : Hash} (start : root ∈ keys)
    (all : keys.all (checks blob keys value)) {hash : Hash} (under : Under blob root hash) :
    hash ∈ keys ∧ Readable blob hash ∧ ∀ v, .value v ∈ leavesOf blob hash → value v := by
  have each : ∀ hash ∈ keys, ((blob hash).any fun d => (Sync.decoded hash d).isOk) = true ∧
      ∀ x ∈ leavesOf blob hash, (match x with
        | .hash c => decide (c ∈ keys)
        | .value v => value v
        | _ => true) = true := by
    intro hash member
    simpa only [checks,Bool.and_eq_true,all_eq_true] using all_eq_true.mp all hash member
  have inside : hash ∈ keys := by
    induction under with
    | root _ => exact start
    | child _ child ih => exact of_decide_eq_true ((each _ ih).2 _ child)
  obtain ⟨readable,leaves⟩ := each hash inside
  refine ⟨inside,?_,fun v member => leaves _ member⟩
  obtain ⟨d,isBlob,decodes⟩ := (Option.any_eq_true _ _).mp readable
  cases read : Sync.decoded hash d with
  | error e => simp [read,Except.isOk,Except.toBool] at decodes
  | ok n => exact ⟨d,n,isBlob,read⟩

/-- A branch that refers to one leaf in two slots: the keys 0x15 and 0x25 have the same value. -/
def sharedLeaf : Bytes := encodeList (encodeString [0x35] ++ encodeString (List.replicate 33 7))
def sharedLeafHash : Hash := bytesToHash (putint 0x88f72f883eade0bf2091b23b489d5707e706154abd9e079644108444b46c19cc)
def sharedRoot : Bytes := encodeList ((List.range 17).flatMap fun i => encodeString (if i = 1 ∨ i = 2 then sharedLeafHash.bytes else []))
def sharedRootHash : Hash := bytesToHash (putint 0x5bc7f68dac1fb93d00ee23a4ab8e4ebf2ad020ad89a5c8569729d164b5fbc1f9)
def sharedBlob : Hash → Option Bytes := blobOf [(sharedRootHash,sharedRoot),(sharedLeafHash,sharedLeaf)]
def sharedOps : List Sync.Op := [.missing 0,.process [⟨sharedRootHash,sharedRoot⟩],.commit none,.missing 1,
  .process [⟨sharedLeafHash,sharedLeaf⟩],.commit none]

/-- The download of this trie into an empty database: the leaf is written once, before the branch. -/
theorem sync_closed_complete_shared :
    (Keccak.keccak256 sharedLeaf = sharedLeafHash ∧ Keccak.keccak256 sharedRoot = sharedRootHash) ∧
    ∃ s puts s', Sync.newSync sharedRootHash (fun _ => none) (none : Option Unit) = .ok s ∧
      Sync.run (fun _ _ => none) sharedOps s = .ok (puts,s') ∧
      puts = [(sharedLeafHash,sharedLeaf),(sharedRootHash,sharedRoot)] ∧ s'.pending = 0 ∧
      (∀ front back, puts = front ++ back → ClosedUnder sharedBlob (Sync.store (fun _ => none) front)) ∧
      ∀ hash, Under sharedBlob sharedRootHash hash → ((s'.commitTo none).2.database hash).isSome := by
  refine ⟨?_,?_⟩
  · rw [Keccak.keccak_packed]
    refine ⟨?_,?_⟩ <;> decide +kernel
  have start : sharedRootHash ∈ [sharedRootHash,sharedLeafHash] := by simp
  have all : [sharedRootHash,sharedLeafHash].all (checks sharedBlob [sharedRootHash,sharedLeafHash] fun _ => true) := by decide +kernel
  have blobs : sharedBlob sharedRootHash = some sharedRoot ∧ sharedBlob sharedLeafHash = some sharedLeaf := by decide +kernel
  obtain ⟨s,puts,s',started,ran,-,closes,-,complete⟩ := sync_closed_complete (fun (_ : Unit) _ => none) sharedBlob (fun _ => none)
    sharedRootHash sharedOps (fun _ under => (under_checked start all under).2.1) (by simp) (fun _ stored => by simp at stored)
    (by simp [sharedOps,Correct,blobs.1,blobs.2])
  have evaluated : ((Sync.newSync sharedRootHash (fun _ => none) (none : Option Unit)).bind
      (Sync.run (fun _ _ => none) sharedOps)).map (fun r => (r.1,r.2.pending)) =
        .ok ([(sharedLeafHash,sharedLeaf),(sharedRootHash,sharedRoot)],0) := by decide +kernel
  simp only [started,ran,Except.bind,Except.map,Except.ok.injEq,Prod.mk.injEq] at evaluated
  refine ⟨s,puts,s',started,ran,evaluated.1,evaluated.2,closes,fun hash under => ?_⟩
  obtain ⟨d,-,found⟩ := complete evaluated.2 hash under
  rw [found]
  rfl

end Canchain.TrieSync
