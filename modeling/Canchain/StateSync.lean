import Canchain.SyncTries
import Canchain.RlpProgress

/-!
The download of a state, after `kernel/state/sync.go`: the callback adds the storage trie and
the code of each account. A hash that is asked for as code first is not looked into when it is
asked for as a node; the download is complete where no code is a node with something below it.
-/
namespace Canchain.StateSync
open Rlp Common TrieNode TrieSync List Option

/-- The types in `Account`, as `rlp` sees them. -/
inductive AccountType where
  | account
  | uint64
  | bigInt
  | bigIntPtr
  | hash
  | byteSlice
  | byte
  deriving DecidableEq
def accountTypes : AccountType → Shape AccountType
  | .account => .struct [⟨"Nonce",.uint64,.none⟩,⟨"Balance",.bigIntPtr,.none⟩,⟨"Root",.hash,.none⟩,⟨"CodeHash",.byteSlice,.none⟩]
  | .uint64 => .uint 8
  | .bigInt => .bigInt
  | .bigIntPtr => .ptr .bigInt
  | .hash => .array 32 .byte
  | .byteSlice => .slice .byte
  | .byte => .uint 1
/-- `rlp.Decode` of a leaf into an `Account`: the storage root, and the code hash as a hash. Bytes behind it are not looked at. -/
def decodeLeaf (leaf : Bytes) : Option (Hash × Hash) :=
  match (streamDecode accountTypes 2 .account (newStream leaf)).1 with
  | .ok (.struct [_,_,.bytes root,.bytes codeHash]) => some (bytesToHash root,bytesToHash codeHash)
  | _ => none
/-- The callback of `NewStateSync`. -/
def callback (_ : Unit) (leaf : Bytes) : Option (List (Addition Unit)) :=
  (decodeLeaf leaf).map fun (root,codeHash) => [.subTrie root 64 none,.rawEntry codeHash 64]
def newStateSync (root : Hash) (database : Hash → Option Bytes) : Except Fault (Sync Unit) := Sync.newSync root database (some ())

section
variable (blob : Hash → Option Bytes) (root : Hash)

/-- The accounts of the state, by storage root and code hash. -/
def HasAccount (account : Hash × Hash) : Prop :=
  ∃ hash v, Under blob root hash ∧ .value v ∈ leavesOf blob hash ∧ decodeLeaf v = some account
def StorageNode (hash : Hash) : Prop := ∃ account, HasAccount blob root account ∧ Under blob account.1 hash
def Code (hash : Hash) : Prop := ∃ account, HasAccount blob root account ∧ hash = account.2 ∧ hash ≠ emptyState
/-- Everything that belongs to the state. -/
def Reachable (hash : Hash) : Prop := Under blob root hash ∨ StorageNode blob root hash ∨ Code blob root hash
/-- What stands directly below an account node or a storage node. -/
def Below (hash c : Hash) : Prop :=
  (Under blob root hash ∧ (Child blob hash c ∨ ∃ v account, .value v ∈ leavesOf blob hash ∧ decodeLeaf v = some account ∧
    (c = account.1 ∧ c ≠ emptyRoot ∨ c = account.2 ∧ c ≠ emptyState))) ∨
  StorageNode blob root hash ∧ Child blob hash c
/-- A state: its nodes can be read, the values of the account trie are accounts, those of the storage tries strings, and the
    codes are there. -/
structure IsState : Prop where
  node : ∀ hash, Under blob root hash → Readable blob hash
  account : ∀ hash v, Under blob root hash → .value v ∈ leavesOf blob hash → (decodeLeaf v).isSome
  storage : ∀ hash, StorageNode blob root hash → Readable blob hash
  slot : ∀ hash v, StorageNode blob root hash → .value v ∈ leavesOf blob hash → ∃ content, v = encodeString content ∧ content.length ≤ 32
  code : ∀ hash, Code blob root hash → (blob hash).isSome

end

theorem decodeByteArray_input {typ : AccountType} {size : Nat} {s s' : Stream} {v : Val} (some : 1 < size)
    (read : decodeByteArray typ size s = (.ok v,s')) : size ≤ s.left := by
  unfold decodeByteArray at read
  repeat' split at read
  all_goals simp only [Prod.mk.injEq,reduceCtorEq,false_and] at read
  rename_i s₁ found _ _ _ b s₂ full _
  have inside := (readFull_takes _ size).2 (by rw [full]; rfl)
  exact inside.trans ((Stream.input_le_left s₁).trans (Stream.kind_left found).2.1)
theorem decodeLeaf_inv {leaf : Bytes} {account : Hash × Hash} (read : decodeLeaf leaf = some account) :
    ∃ n s₁ v s', (newStream leaf).list = (.ok n,s₁) ∧ decodeFields .account (fun f => decode accountTypes 1 f.typ f.tags)
      [⟨"Nonce",.uint64,.none⟩,⟨"Balance",.bigIntPtr,.none⟩,⟨"Root",.hash,.none⟩,⟨"CodeHash",.byteSlice,.none⟩] s₁ = (.ok v,s') := by
  unfold decodeLeaf at read
  split at read
  · rename_i v₁ v₂ r c decoded
    have done : ∃ s', decodeStruct .account (fun f => decode accountTypes 1 f.typ f.tags)
        [⟨"Nonce",.uint64,.none⟩,⟨"Balance",.bigIntPtr,.none⟩,⟨"Root",.hash,.none⟩,⟨"CodeHash",.byteSlice,.none⟩] (newStream leaf) =
          (.ok (.struct [v₁,v₂,.bytes r,.bytes c]),s') := by
      unfold streamDecode at decoded
      split at decoded
      · cases decoded
      · exact ⟨_,Prod.ext decoded rfl⟩
    obtain ⟨s',done⟩ := done
    unfold decodeStruct at done
    repeat' split at done
    any_goals cases done
    rename_i n s₁ entered _ vs s₂ fields
    exact ⟨n,s₁,vs,s₂,entered,fields⟩
  · cases read
/-- The storage root alone takes more than a short value has. -/
theorem decodeLeaf_short {leaf : Bytes} (short : leaf.length ≤ 31) : decodeLeaf leaf = none := by
  by_contra some
  obtain ⟨account,read⟩ := ne_none_iff_exists'.mp some
  obtain ⟨n,s₁,vs,s',entered,fields⟩ := decodeLeaf_inv read
  obtain ⟨nonce,vs₁,s₂,first,fields,-⟩ := fields_inv fields
  obtain ⟨balance,vs₂,s₃,second,fields,-⟩ := fields_inv fields
  obtain ⟨storageRoot,vs₃,s₄,third,-,-⟩ := fields_inv fields
  have inList : s₁.left < (newStream leaf).left := (newStream leaf).list_acts.takes entered
  have inNonce : s₂.left ≤ s₁.left := (inRow_left (decode_inRow (f := ⟨"Nonce",AccountType.uint64,.none⟩) first)).1
  have inBalance : s₃.left ≤ s₂.left := (inRow_left (decode_inRow (f := ⟨"Balance",AccountType.bigIntPtr,.none⟩) second)).1
  have inside : 32 ≤ s₃.left := decodeByteArray_input (by omega) third
  have whole : (newStream leaf).left = leaf.length := Stream.left_of_none rfl
  omega
theorem decodeLeaf_string {content : Bytes} (fits : Fits content) : decodeLeaf (encodeString content) = none := by
  by_contra some
  obtain ⟨account,read⟩ := ne_none_iff_exists'.mp some
  obtain ⟨n,s₁,-,-,entered,-⟩ := decodeLeaf_inv read
  have ready : Ready (newStream (encodeString content)) (encodeString content ++ []) [] := by
    rw [append_nil]
    exact newStream_ready _
  rcases at_string ready trivial fits with ⟨x,s,-,-,found,-⟩ | ⟨s,_,-,found,-⟩
  · simp [Stream.list,found] at entered
  · simp [Stream.list,found] at entered

/-! ### What a download of the state asks for -/

section
variable {blob database : Hash → Option Bytes} {root hash c : Hash}

variable {item : Role Unit × Hash}
theorem items_account {v : Bytes} : item ∈ itemsOf callback (some ()) (.value v) ↔
    ∃ account, decodeLeaf v = some account ∧ (item = (.trie none,account.1) ∧ account.1 ≠ emptyRoot ∨
      item = (.raw,account.2) ∧ account.2 ≠ emptyState) := by
  cases decoded : decodeLeaf v with
  | none => simp [itemsOf,callback,decoded]
  | some account =>
    by_cases noStorage : account.1 = emptyRoot <;> by_cases noCode : account.2 = emptyState <;>
      simp [itemsOf,callback,decoded,Addition.items,noStorage,noCode]
theorem below_account : item ∈ below callback blob (.trie (some ()),hash) ↔
    (item.1 = .trie (some ()) ∧ Child blob hash item.2) ∨
      ∃ v account, .value v ∈ leavesOf blob hash ∧ decodeLeaf v = some account ∧
        (item = (.trie none,account.1) ∧ account.1 ≠ emptyRoot ∨ item = (.raw,account.2) ∧ account.2 ≠ emptyState) := by
  have quiet : ∀ v : Bytes, v.length ≤ 31 → itemsOf callback (some ()) (.value v) = [] := by
    intro v short
    simp [itemsOf,callback,decodeLeaf_short short]
  rw [mem_below quiet]
  constructor
  · rintro ⟨x,member,asks⟩
    cases x with
    | hash h =>
      obtain rfl := mem_singleton.mp asks
      exact .inl ⟨rfl,member⟩
    | value v =>
      obtain ⟨account,decoded,form⟩ := items_account.mp asks
      exact .inr ⟨v,account,member,decoded,form⟩
    | _ => simp [itemsOf] at asks
  · rintro (⟨isNode,child⟩ | ⟨v,account,member,decoded,form⟩)
    · exact ⟨_,child,by simp [itemsOf,← isNode]⟩
    · exact ⟨_,member,items_account.mpr ⟨account,decoded,form⟩⟩
theorem HasAccount.asks {account : Hash × Hash} {v : Bytes} (wanted : Wanted callback blob root (some ()) (.trie (some ()),hash))
    (member : .value v ∈ leavesOf blob hash) (decoded : decodeLeaf v = some account) :
    (account.1 ≠ emptyRoot → Wanted callback blob root (some ()) (.trie none,account.1)) ∧
      (account.2 ≠ emptyState → Wanted callback blob root (some ()) (.raw,account.2)) :=
  ⟨fun some => .next wanted (below_account.mpr (.inr ⟨v,account,member,decoded,.inl ⟨rfl,some⟩⟩)),
    fun some => .next wanted (below_account.mpr (.inr ⟨v,account,member,decoded,.inr ⟨rfl,some⟩⟩))⟩
/-- What an item of the download is in the state. -/
def Stands (blob : Hash → Option Bytes) (root : Hash) : Role Unit × Hash → Prop
  | (.trie (some _),hash) => Under blob root hash
  | (.trie none,hash) => StorageNode blob root hash
  | (.raw,hash) => Code blob root hash
theorem wanted_stands (wanted : Wanted callback blob root (some ()) item) : Stands blob root item := by
  induction wanted with
  | root some => exact Under.root some
  | next _ isBelow ih =>
    rename_i item item' _
    obtain ⟨role,hash⟩ := item
    cases role with
    | raw => cases isBelow
    | trie cb =>
      cases cb with
      | none =>
        obtain ⟨account,has,under⟩ := ih
        obtain ⟨isNode,child⟩ := below_node.mp isBelow
        obtain ⟨role',c⟩ := item'
        subst isNode
        exact ⟨account,has,.child under child⟩
      | some _ =>
        rcases below_account.mp isBelow with ⟨isNode,child⟩ | ⟨v,account,member,decoded,⟨rfl,some⟩ | ⟨rfl,some⟩⟩
        · obtain ⟨role',c⟩ := item'
          subst isNode
          exact Under.child ih child
        · exact ⟨account,⟨hash,v,ih,member,decoded⟩,.root some⟩
        · exact ⟨account,⟨hash,v,ih,member,decoded⟩,rfl,some⟩
theorem under_wanted (under : Under blob root hash) : Wanted callback blob root (some ()) (.trie (some ()),hash) := by
  induction under with
  | root some => exact .root some
  | child _ child ih => exact .next ih (below_account.mpr (.inl ⟨rfl,child⟩))
theorem stands_wanted (stands : Stands blob root item) : Wanted callback blob root (some ()) item := by
  obtain ⟨_ | _ | _,hash⟩ := item
  · obtain ⟨account,⟨h,v,under,member,decoded⟩,rfl,some⟩ := stands
    exact (HasAccount.asks (under_wanted under) member decoded).2 some
  · obtain ⟨account,⟨h,v,under,member,decoded⟩,inStorage⟩ := stands
    induction inStorage with
    | root some => exact (HasAccount.asks (under_wanted under) member decoded).1 some
    | child _ child ih => exact .next ih (below_node.mpr ⟨rfl,child⟩)
  · exact under_wanted stands
theorem reachable_wanted : Reachable blob root hash ↔ ∃ role, Wanted callback blob root (some ()) (role,hash) := by
  constructor
  · rintro (under | storage | code)
    · exact ⟨_,under_wanted under⟩
    · exact ⟨.trie none,stands_wanted storage⟩
    · exact ⟨.raw,stands_wanted code⟩
  · rintro ⟨_ | _ | _,wanted⟩
    · exact .inr (.inr (wanted_stands wanted))
    · exact .inr (.inl (wanted_stands wanted))
    · exact .inl (wanted_stands wanted)
theorem kids_below : c ∈ kids callback blob root (some ()) hash ↔ Below blob root hash c := by
  constructor
  · rintro ⟨role,role',wanted,isBelow⟩
    have stands := wanted_stands wanted
    obtain _ | _ | _ := role
    · cases isBelow
    · exact .inr ⟨stands,(below_node.mp isBelow).2⟩
    · refine .inl ⟨stands,?_⟩
      rcases below_account.mp isBelow with ⟨-,child⟩ | ⟨v,account,member,decoded,form⟩
      · exact .inl child
      · refine .inr ⟨v,account,member,decoded,?_⟩
        rcases form with ⟨same,some⟩ | ⟨same,some⟩
        · obtain ⟨-,rfl⟩ := Prod.mk.inj same
          exact .inl ⟨rfl,some⟩
        · obtain ⟨-,rfl⟩ := Prod.mk.inj same
          exact .inr ⟨rfl,some⟩
  · rintro (⟨under,child | ⟨v,account,member,decoded,⟨rfl,some⟩ | ⟨rfl,some⟩⟩⟩ | ⟨storage,child⟩)
    · exact ⟨_,_,under_wanted under,below_account.mpr (.inl ⟨rfl,child⟩)⟩
    · exact ⟨_,_,under_wanted under,below_account.mpr (.inr ⟨v,account,member,decoded,.inl ⟨rfl,some⟩⟩)⟩
    · exact ⟨_,_,under_wanted under,below_account.mpr (.inr ⟨v,account,member,decoded,.inr ⟨rfl,some⟩⟩)⟩
    · exact ⟨.trie none,.trie none,stands_wanted storage,below_node.mpr ⟨rfl,child⟩⟩

/-- A state serves its download, unless a code is a node with something below it. -/
theorem served_state (state : IsState blob root) (nonzero : blob Hash.zero = none)
    (apart : ∀ hash, Code blob root hash → ∀ c, ¬ Below blob root hash c) : Served callback blob root (some ()) := by
  refine ⟨fun {cb hash} wanted => ?_,fun wanted => state.code _ (wanted_stands wanted),fun {k hash} wanted => ?_,
    fun {role role' hash} wanted wanted' q c isBelow => ?_⟩
  · have stands := wanted_stands wanted
    cases cb with
    | none =>
      obtain ⟨d,n,isBlob,decodes⟩ := state.storage hash stands
      exact ⟨d,n,isBlob,decodes,fun _ _ _ _ _ _ isSome => by cases isSome⟩
    | some _ =>
      obtain ⟨d,n,isBlob,decodes⟩ := state.node hash stands
      refine ⟨d,n,isBlob,decodes,fun bs branch k v isBranches member _ isValue => ?_⟩
      obtain ⟨bs',isBranches',-,outside⟩ := decoded_leaves decodes
      obtain rfl := Except.ok.inj (isBranches.symm.trans isBranches')
      have isLeaf : Node.value v ∈ leavesOf blob hash := by
        simp only [leavesOf,isBlob,map_some,decodes]
        exact outside branch member _ isValue rfl
      simpa [callback] using state.account hash v stands isLeaf
  · obtain ⟨d,n,isBlob,-⟩ := state.node hash (wanted_stands wanted)
    rintro rfl
    rw [nonzero] at isBlob
    cases isBlob
  · have isKid : Below blob root hash c := kids_below.mp ⟨role,q,wanted,isBelow⟩
    have stands := wanted_stands wanted
    have stands' := wanted_stands wanted'
    obtain _ | _ | _ := role'
    · exact absurd isKid (apart hash stands' c)
    · obtain _ | _ | _ := role
      · cases isBelow
      · exact ⟨q,isBelow⟩
      · rcases below_account.mp isBelow with ⟨-,child⟩ | ⟨v,account,member,decoded,-⟩
        · exact ⟨_,below_node.mpr ⟨rfl,child⟩⟩
        · -- a value cannot be an account and a slot at once
          obtain ⟨content,rfl,small⟩ := state.slot hash v stands' member
          rw [decodeLeaf_string (show content.length < 2^64 by omega)] at decoded
          cases decoded
    · obtain _ | _ | _ := role
      · cases isBelow
      · exact ⟨_,below_account.mpr (.inl ⟨rfl,(below_node.mp isBelow).2⟩)⟩
      · exact ⟨q,isBelow⟩

end

/-- Every run of a download of a state returns, and when nothing is pending a commit completes the state, if no code is a node
    with something below it. -/
theorem stateSync_complete (blob database : Hash → Option Bytes) (root : Hash) (ops : List Sync.Op) (state : IsState blob root)
    (nonzero : blob Hash.zero = none) (base : ∀ hash d, database hash = some d → blob hash = some d)
    (closed : ∀ hash, (database hash).isSome → ∀ c, Below blob root hash c → (database c).isSome)
    (correct : ∀ op ∈ ops, Correct blob op) (apart : ∀ hash, Code blob root hash → ∀ c, ¬ Below blob root hash c) :
    ∃ s puts s', newStateSync root database = .ok s ∧ Sync.run callback ops s = .ok (puts,s') ∧
      (s'.pending = 0 → ∀ hash, Reachable blob root hash → ∃ d, blob hash = some d ∧ (s'.commitTo none).2.database hash = some d) := by
  have served := served_state state nonzero apart
  obtain ⟨s,started,inv,rfl,-⟩ := newSync_spec served base
    fun hash stored c isKid => closed hash stored c (kids_below.mp isKid)
  obtain ⟨puts,s',ran,inv',-⟩ := run_spec served inv correct
  refine ⟨s,puts,s',started,ran,fun done hash reachable => ?_⟩
  obtain ⟨role,wanted⟩ := reachable_wanted.mp reachable
  obtain ⟨d,found⟩ := isSome_iff_exists.mp (inv'.complete done wanted)
  exact ⟨d,(inv'.commitTo none).database hash d found,found⟩

/-! ### Two states -/

/-- A value of a storage trie. -/
def isSlot (v : Bytes) : Bool :=
  match splitString v with
  | .ok (content,_) => v = encodeString content && content.length ≤ 32
  | .error _ => false
variable {blob : Hash → Option Bytes}
/-- The parts of a state that is given by lists of its nodes and accounts. -/
theorem state_checked {root : Hash} {nodes storage : List Hash} {accounts : List (Hash × Hash)}
    (start : root ∈ nodes) (nodes_ok : nodes.all (checks blob nodes fun v => (decodeLeaf v).any (· ∈ accounts)))
    (storage_ok : storage.all (checks blob storage isSlot))
    (accounts_ok : accounts.all fun account => (account.1 = emptyRoot || account.1 ∈ storage) &&
      (account.2 = emptyState || (blob account.2).isSome)) :
    IsState blob root ∧ (∀ hash, Under blob root hash → hash ∈ nodes) ∧ (∀ account, HasAccount blob root account → account ∈ accounts) ∧
      ∀ hash, StorageNode blob root hash → hash ∈ storage := by
  have account_ok : ∀ account ∈ accounts, (account.1 = emptyRoot ∨ account.1 ∈ storage) ∧
      (account.2 = emptyState ∨ (blob account.2).isSome) := by
    simpa using accounts_ok
  have listed : ∀ account, HasAccount blob root account → account ∈ accounts := by
    rintro account ⟨hash,v,under,member,decoded⟩
    have good := (under_checked start nodes_ok under).2.2 v member
    simpa [decoded] using good
  have slots : ∀ hash, StorageNode blob root hash → hash ∈ storage ∧ Readable blob hash ∧
      ∀ v, .value v ∈ leavesOf blob hash → isSlot v := by
    rintro hash ⟨account,has,under⟩
    rcases (account_ok account (listed account has)).1 with empty | inStorage
    · rw [empty] at under
      exfalso
      generalize isRoot : emptyRoot = top at under
      induction under with
      | root some => exact some isRoot.symm
      | child _ _ ih => exact ih
    · exact under_checked inStorage storage_ok under
  refine ⟨⟨?_,?_,?_,?_,?_⟩,fun hash under => (under_checked start nodes_ok under).1,listed,fun hash node => (slots hash node).1⟩
  · exact fun hash under => (under_checked start nodes_ok under).2.1
  · intro hash v under member
    have good := (under_checked start nodes_ok under).2.2 v member
    obtain ⟨account,decoded,-⟩ := (any_eq_true _ _).mp good
    rw [decoded]
    rfl
  · exact fun hash node => (slots hash node).2.1
  · intro hash v node member
    have good := (slots hash node).2.2 v member
    unfold isSlot at good
    split at good
    · rename_i content _ _
      simp only [Bool.and_eq_true,decide_eq_true_eq] at good
      exact ⟨content,good.1,good.2⟩
    · cases good
  · rintro hash ⟨account,has,rfl,some⟩
    exact (account_ok account (listed account has)).2.resolve_left some

def leafNode (key : Nat) (value : Bytes) : Bytes := encodeList (encodeString (putint key) ++ encodeString value)
def branchNode (children : List (Nat × Hash)) : Bytes :=
  encodeList ((List.range 17).flatMap fun i => encodeString ((children.lookup i).elim [] (·.bytes)))
def accountValue (nonce : Nat) (storage code : Hash) : Bytes :=
  encodeList (encodeString (putint nonce) ++ encodeString [] ++ encodeString storage.bytes ++ encodeString code.bytes)

/-- A storage trie with the slots 0 and 1. -/
def slotZero : Bytes := leafNode 0x390decd9548b62a8d60345a988386fc84ba6bc95484008f6362f93160ef3e563 (encodeString (List.replicate 32 7))
def slotZeroHash : Hash := bytesToHash (putint 0x94c49d525608348a65af601373da158c2001b59f25ba4fd7a43a27a5c9d8948f)
def slotOne : Bytes := leafNode 0x310e2d527612073b26eecdfd717e6a320cf44b4afac2b0732d9fcbe2b7fa0cf6 (encodeString (List.replicate 32 7))
def slotOneHash : Hash := bytesToHash (putint 0x0f7934672a24415be51efc35326c4f3e5091425f77caa6c5462ba3c92642d781)
def storageRoot : Bytes := branchNode [(2,slotZeroHash),(11,slotOneHash)]
def storageRootHash : Hash := bytesToHash (putint 0x5944e7921e9b2201b756092c437a51a485cb51b3d06bdb4955d944ad3f677c92)
/-- The account of address 2, which has this storage. -/
def holder : Bytes := leafNode 0x352688a8f926c816ca1e079067caba944f158e764817b83fc43594370ca9cf62
  (accountValue 1 storageRootHash emptyState)
def holderHash : Hash := bytesToHash (putint 0xd567e16d2c33b4995cea125ebd0e1d21fb31d333aada54aab93cda9c24798158)
/-- The account of address 1 with this code hash. -/
def coder (code : Hash) : Bytes := leafNode 0x3468288056310c82aa4c01a7e12a10f8111a0560e72b700555479031b86c357d (accountValue 1 emptyRoot code)
def plainCode : Bytes := [0x60,0x00]
def plainCodeHash : Hash := bytesToHash (putint 0x07ad118d6cc8642c86c03827f276d8b791a65e5c99a3845faf186be720a1455d)
def plainHash : Hash := bytesToHash (putint 0x592f3acfcadd541e8f32a0b32f7e64e8f6e1df939cbf465956644a6805b5d609)
def plainRootHash : Hash := bytesToHash (putint 0xd97182c57ae4a17edc463c1b9e4242af319113c134fe6dbb4ac7a3d4fcaea8fd)
/-- Its code is the root node of the storage of the other account. -/
def mimicHash : Hash := bytesToHash (putint 0x86d16e05e54bd15ae0583063982519ab5cff66e8476b967e63fe5e6828996d2b)
def mimicRootHash : Hash := bytesToHash (putint 0x508606bbf2d732596b029ca5e0423c01458e9b3edd4fd693773ec79ecbae6a26)
def storageNodes : List (Hash × Bytes) := [(storageRootHash,storageRoot),(slotZeroHash,slotZero),(slotOneHash,slotOne)]
def plainNodes : List (Hash × Bytes) := (plainRootHash,branchNode [(1,plainHash),(13,holderHash)]) :: (plainHash,coder plainCodeHash) ::
  (holderHash,holder) :: (plainCodeHash,plainCode) :: storageNodes
def mimicNodes : List (Hash × Bytes) := (mimicRootHash,branchNode [(1,mimicHash),(13,holderHash)]) ::
  (mimicHash,coder storageRootHash) :: (holderHash,holder) :: storageNodes
def deliver (nodes : List (Hash × Bytes)) : List Sync.Op := nodes.map fun node => .process [⟨node.1,node.2⟩]

theorem correct_deliver {nodes : List (Hash × Bytes)} (own : ∀ node ∈ nodes, blobOf nodes node.1 = some node.2)
    (sent : List (Hash × Bytes)) (among : ∀ node ∈ sent, node ∈ nodes) : ∀ op ∈ deliver sent, Correct (blobOf nodes) op := by
  intro op member
  obtain ⟨node,isSent,rfl⟩ := mem_map.mp member
  intro item isItem d isBlob
  obtain rfl := mem_singleton.mp isItem
  exact some.inj ((own node (among node isSent)).symm.trans isBlob)

def refers (blob : Hash → Option Bytes) (hash c : Hash) : Bool := (leavesOf blob hash).any fun x => match x with
  | .hash c' => c' = c
  | _ => false
theorem child_refers {hash c : Hash} (check : refers blob hash c) : Child blob hash c := by
  obtain ⟨x,member,isHash⟩ := any_eq_true.mp check
  cases x with
  | hash h => exact of_decide_eq_true isHash ▸ member
  | _ => cases isHash
def holds (blob : Hash → Option Bytes) (hash : Hash) (account : Hash × Hash) : Bool := (leavesOf blob hash).any fun x => match x with
  | .value v => decodeLeaf v = some account
  | _ => false
theorem account_holds {root hash : Hash} {account : Hash × Hash} (under : Under blob root hash)
    (check : holds blob hash account) : HasAccount blob root account := by
  obtain ⟨x,member,isAccount⟩ := any_eq_true.mp check
  cases x with
  | value v => exact ⟨hash,v,under,member,of_decide_eq_true isAccount⟩
  | _ => cases isAccount

/-- What evaluation says of the nodes of a state with these two accounts. -/
def Evaluates (nodes : List (Hash × Bytes)) (root first code : Hash) : Prop :=
  (∀ node ∈ nodes, Keccak.keccakPacked node.2 = node.1) ∧ (∀ node ∈ nodes, blobOf nodes node.1 = some node.2) ∧
    root ∈ [root,first,holderHash] ∧
    [root,first,holderHash].all (checks (blobOf nodes) [root,first,holderHash]
      fun v => (decodeLeaf v).any (· ∈ [(emptyRoot,code),(storageRootHash,emptyState)])) ∧
    [storageRootHash,slotZeroHash,slotOneHash].all (checks (blobOf nodes) [storageRootHash,slotZeroHash,slotOneHash] isSlot) ∧
    [(emptyRoot,code),(storageRootHash,emptyState)].all fun account =>
      (account.1 = emptyRoot || account.1 ∈ [storageRootHash,slotZeroHash,slotOneHash]) &&
        (account.2 = emptyState || (blobOf nodes account.2).isSome)
instance (nodes : List (Hash × Bytes)) (root first code : Hash) : Decidable (Evaluates nodes root first code) :=
  inferInstanceAs (Decidable (_ ∧ _ ∧ _ ∧ _ ∧ _ ∧ _))

/-- The state with a plain code, and the one whose code is a node. -/
theorem sample_facts : (Evaluates plainNodes plainRootHash plainHash plainCodeHash ∧
      plainCodeHash ∉ [plainRootHash,plainHash,holderHash] ++ [storageRootHash,slotZeroHash,slotOneHash] ∧
      blobOf plainNodes Hash.zero = none ∧
      ((newStateSync plainRootHash (fun _ => none)).bind (Sync.run callback (deliver plainNodes))).map (fun r => r.2.pending) =
        .ok 0) ∧
    Evaluates mimicNodes mimicRootHash mimicHash storageRootHash ∧
    ((newStateSync mimicRootHash (fun _ => none)).bind (Sync.run callback (deliver (mimicNodes.take 4)))).map
      (fun r => (r.2.pending,(r.2.commitTo none).2.database slotZeroHash)) = .ok (0,none) ∧
    mimicRootHash ≠ emptyRoot ∧ refers (blobOf mimicNodes) mimicRootHash holderHash ∧
    holds (blobOf mimicNodes) holderHash (storageRootHash,emptyState) ∧
    storageRootHash ≠ emptyRoot ∧ refers (blobOf mimicNodes) storageRootHash slotZeroHash := by
  decide +kernel

theorem plain_state : IsState (blobOf plainNodes) plainRootHash ∧
    ∀ hash, Code (blobOf plainNodes) plainRootHash hash → ∀ c, ¬ Below (blobOf plainNodes) plainRootHash hash c := by
  obtain ⟨⟨⟨-,-,start,nodes_ok,storage_ok,accounts_ok⟩,fresh,-⟩,-⟩ := sample_facts
  obtain ⟨state,nodes,accounts,storage⟩ := state_checked start nodes_ok storage_ok accounts_ok
  refine ⟨state,?_⟩
  rintro hash ⟨account,has,rfl,some⟩ c isBelow
  have isPlain : account.2 = plainCodeHash := by
    have member := accounts account has
    simp only [mem_cons,not_mem_nil,or_false] at member
    rcases member with rfl | rfl
    · rfl
    · exact absurd rfl some
  rw [isPlain] at isBelow
  rcases isBelow with ⟨under,-⟩ | ⟨inStorage,-⟩
  · exact fresh (mem_append_left _ (nodes _ under))
  · exact fresh (mem_append_right _ (storage _ inStorage))
/-- Both accounts, the storage and the code are fetched. -/
theorem stateSync_complete_plain : (∀ node ∈ plainNodes, Keccak.keccak256 node.2 = node.1) ∧
    ∃ s puts s', newStateSync plainRootHash (fun _ => none) = .ok s ∧ Sync.run callback (deliver plainNodes) s = .ok (puts,s') ∧
      s'.pending = 0 ∧ ∀ hash, Reachable (blobOf plainNodes) plainRootHash hash → ((s'.commitTo none).2.database hash).isSome := by
  obtain ⟨⟨⟨hashes,own,-⟩,-,nonzero,evaluated⟩,-⟩ := sample_facts
  refine ⟨by rwa [Keccak.keccak_packed],?_⟩
  obtain ⟨s,puts,s',started,ran,complete⟩ := stateSync_complete (blobOf plainNodes) (fun _ => none) plainRootHash (deliver plainNodes)
    plain_state.1 nonzero (by simp) (by simp) (correct_deliver own plainNodes fun _ => id) plain_state.2
  simp only [started,ran,Except.bind,Except.map,Except.ok.injEq] at evaluated
  refine ⟨s,puts,s',started,ran,evaluated,fun hash reachable => ?_⟩
  obtain ⟨d,-,found⟩ := complete evaluated hash reachable
  rw [found]
  rfl
/-- The code of one account is the root node of the storage of the other: the slots below it are never asked for. -/
theorem storage_hidden_by_code : (∀ node ∈ mimicNodes, Keccak.keccak256 node.2 = node.1) ∧ IsState (blobOf mimicNodes) mimicRootHash ∧
    (∀ op ∈ deliver (mimicNodes.take 4), Correct (blobOf mimicNodes) op) ∧
    ∃ s puts s', newStateSync mimicRootHash (fun _ => none) = .ok s ∧
      Sync.run callback (deliver (mimicNodes.take 4)) s = .ok (puts,s') ∧ s'.pending = 0 ∧
      Reachable (blobOf mimicNodes) mimicRootHash slotZeroHash ∧ (s'.commitTo none).2.database slotZeroHash = none := by
  obtain ⟨-,⟨hashes,own,start,nodes_ok,storage_ok,accounts_ok⟩,evaluated,some,top,account,storage,slot⟩ := sample_facts
  obtain ⟨state,-,-,-⟩ := state_checked start nodes_ok storage_ok accounts_ok
  refine ⟨by rwa [Keccak.keccak_packed],state,correct_deliver own _ fun _ => mem_of_mem_take,?_⟩
  cases started : newStateSync mimicRootHash (fun _ => none) with
  | error e => simp [started,Except.bind,Except.map] at evaluated
  | ok s =>
    cases ran : Sync.run callback (deliver (mimicNodes.take 4)) s with
    | error e => simp [started,ran,Except.bind,Except.map] at evaluated
    | ok r =>
      simp only [started,ran,Except.bind,Except.map,Except.ok.injEq,Prod.mk.injEq] at evaluated
      exact ⟨s,r.1,r.2,rfl,ran,evaluated.1,.inr (.inl ⟨_,account_holds (.child (.root some) (child_refers top)) account,
        .child (.root storage) (child_refers slot)⟩),evaluated.2⟩

end Canchain.StateSync
