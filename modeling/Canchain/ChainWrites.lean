import Canchain.ChainStore

/-!
What one write does. `Indexed` says that the number index has the blocks of a branch
and `LookedUp` that the transaction index does. A write keeps the store sound for one block
more, and leaves the head and both indexes or moves them to the new block (`write_spec`).
-/
namespace Canchain.Chain
open Rlp Common Types Branches List Function Except Db
open Lru (Holds)
open BlockChain (Walk)

variable {keccak : Bytes → Hash} {genesis : Block} {td : Nat} {stored : Set Block} {db db' : Db} {bc bc' : BlockChain} {b : Block}

variable (keccak) in
/-- Up to the length of the branch, the index has its blocks. -/
def Indexed (l : List Block) (canonical : Nat → Option Hash) : Prop :=
  ∀ n < l.length, canonical n = l.reverse[n]?.map (·.hash keccak)

theorem Indexed.suffix {above l : List Block} {canonical : Nat → Option Hash} (indexed : Indexed keccak (above ++ l) canonical) :
    Indexed keccak l canonical := by
  intro n inside
  rw [indexed n (by simp; omega),reverse_append,getElem?_append_left (by simpa using inside)]

/-! ### The transaction index -/

variable (keccak) in
/-- The hashes of the transactions of some blocks. -/
def txHashes (l : List Block) : List Hash := l.flatMap fun b => b.transactions.map (·.hash keccak)
variable (keccak) in
/-- The entry of a transaction of some blocks. -/
def EntryIn (l : List Block) (hash : Hash) (entry : TxLookupEntry) : Prop :=
  ∃ b ∈ l, ∃ i tx, b.transactions[i]? = some tx ∧ tx.hash keccak = hash ∧ entry = ⟨b.hash keccak,b.numberU64,i⟩
variable (keccak) in
/-- The index has the transactions of the blocks and no others. -/
def LookedUp (l : List Block) (lookups : Hash → Option TxLookupEntry) : Prop :=
  ∀ hash entry, lookups hash = some entry ↔ EntryIn keccak l hash entry
variable (keccak) in
/-- The entries of some blocks were put into the index. -/
structure Recorded (l : List Block) (lookups lookups' : Hash → Option TxLookupEntry) : Prop where
  other : ∀ hash, hash ∉ txHashes keccak l → lookups' hash = lookups hash
  entry : ∀ hash entry, EntryIn keccak l hash entry → lookups' hash = some entry

variable {l os ns rest : List Block} {hash : Hash} {entry : TxLookupEntry} {m m' m'' : Hash → Option TxLookupEntry}

theorem txHashes_append (l l' : List Block) : txHashes keccak (l ++ l') = txHashes keccak l ++ txHashes keccak l' := by
  simp [txHashes]
theorem EntryIn.mem (present : EntryIn keccak l hash entry) : hash ∈ txHashes keccak l := by
  obtain ⟨b,member,i,tx,at_,named,-⟩ := present
  exact mem_flatMap.mpr ⟨b,member,mem_map.mpr ⟨tx,mem_of_getElem? at_,named⟩⟩
theorem mem_txHashes (member : hash ∈ txHashes keccak l) : ∃ entry, EntryIn keccak l hash entry := by
  obtain ⟨b,inside,among⟩ := mem_flatMap.mp member
  obtain ⟨tx,present,named⟩ := mem_map.mp among
  obtain ⟨i,at_⟩ := mem_iff_getElem?.mp present
  exact ⟨_,b,inside,i,tx,at_,named,rfl⟩
theorem entryIn_append : EntryIn keccak (os ++ ns) hash entry ↔ EntryIn keccak os hash entry ∨ EntryIn keccak ns hash entry := by
  simp [EntryIn,or_and_right,exists_or]
theorem EntryIn.append_of_not_mem (absent : hash ∉ txHashes keccak os) :
    EntryIn keccak (os ++ rest) hash entry ↔ EntryIn keccak rest hash entry := by
  rw [entryIn_append]
  constructor
  · rintro (first | second)
    · exact absurd first.mem absent
    · exact second
  · exact Or.inr

theorem putLookups_other (b : Block) (i : Nat) (txs : List Transaction) (m : Hash → Option TxLookupEntry)
    (absent : hash ∉ txs.map (·.hash keccak)) : putLookups keccak b i txs m hash = m hash := by
  induction txs generalizing i m with
  | nil => rfl
  | cons tx txs ih =>
    simp only [map_cons,mem_cons,not_or] at absent
    rw [putLookups,ih (i+1) _ absent.2,update_of_ne absent.1]
theorem putLookups_entry (b : Block) (i j : Nat) (txs : List Transaction) (m : Hash → Option TxLookupEntry)
    (distinct : (txs.map (·.hash keccak)).Nodup) {tx : Transaction} (at_ : txs[j]? = some tx) :
    putLookups keccak b i txs m (tx.hash keccak) = some ⟨b.hash keccak,b.numberU64,i + j⟩ := by
  induction txs generalizing i j m with
  | nil => simp at at_
  | cons first txs ih =>
    rw [map_cons,nodup_cons] at distinct
    rw [putLookups]
    cases j with
    | zero =>
      cases at_
      rw [putLookups_other b (i+1) txs _ distinct.1,update_self,Nat.add_zero]
    | succ j =>
      rw [ih (i+1) j _ distinct.2 at_]
      congr 2
      omega
theorem recorded_block (b : Block) (m : Hash → Option TxLookupEntry) (distinct : (txHashes keccak [b]).Nodup) :
    Recorded keccak [b] m (putLookups keccak b 0 b.transactions m) := by
  simp only [txHashes,flatMap_cons,flatMap_nil,append_nil] at distinct
  constructor
  · intro hash absent
    exact putLookups_other b 0 b.transactions m (by simpa [txHashes] using absent)
  · rintro hash entry ⟨b',member,i,tx,at_,rfl,rfl⟩
    cases mem_singleton.mp member
    rw [putLookups_entry b 0 i b.transactions m distinct at_,Nat.zero_add]
theorem Recorded.cons (below : Recorded keccak ns m m') (top : Recorded keccak [b] m' m'')
    (distinct : (txHashes keccak (b :: ns)).Nodup) : Recorded keccak (b :: ns) m m'' := by
  have split : txHashes keccak (b :: ns) = txHashes keccak [b] ++ txHashes keccak ns := txHashes_append [b] ns
  rw [split] at distinct
  constructor
  · intro hash absent
    rw [split,mem_append,not_or] at absent
    rw [top.other hash absent.1,below.other hash absent.2]
  · intro hash entry present
    rcases entryIn_append.mp (show EntryIn keccak ([b] ++ ns) hash entry from present) with first | later
    · exact top.entry hash entry first
    · have apart : hash ∉ txHashes keccak [b] := fun both => (disjoint_of_nodup_append distinct) both later.mem
      rw [top.other hash apart]
      exact below.entry hash entry later
/-- The index after the entries of the new blocks were put in and those of the transactions
that only the old blocks have were deleted. -/
theorem LookedUp.moved (lookedUp : LookedUp keccak (os ++ rest) m) (recorded : Recorded keccak ns m m')
    (deleted : ∀ hash, m'' hash = if hash ∈ txHashes keccak os ∧ hash ∉ txHashes keccak ns then none else m' hash)
    (distinctOld : (txHashes keccak (os ++ rest)).Nodup) (distinctNew : (txHashes keccak (ns ++ rest)).Nodup) :
    LookedUp keccak (ns ++ rest) m'' := by
  intro hash entry
  rw [txHashes_append] at distinctOld distinctNew
  rw [deleted hash]
  by_cases new : hash ∈ txHashes keccak ns
  · rw [if_neg (by simp [new])]
    obtain ⟨entry',present⟩ := mem_txHashes new
    rw [recorded.entry hash entry' present,Option.some.injEq,entryIn_append]
    constructor
    · rintro rfl
      exact Or.inl present
    · rintro (inside | below)
      · have again := recorded.entry hash entry inside
        rw [recorded.entry hash entry' present] at again
        exact Option.some.inj again
      · exact absurd below.mem (disjoint_of_nodup_append distinctNew new)
  · rw [EntryIn.append_of_not_mem new]
    by_cases old : hash ∈ txHashes keccak os
    · rw [if_pos ⟨old,new⟩]
      constructor
      · nofun
      · intro below
        exact absurd below.mem (disjoint_of_nodup_append distinctOld old)
    · rw [if_neg (by simp [old]),recorded.other hash new,lookedUp hash entry,EntryIn.append_of_not_mem old]

/-! ### Inserting blocks -/

/-- A change of the chain that keeps the blocks, the total difficulties and their caches. -/
structure Kept (bc bc' : BlockChain) : Prop where
  headers : bc'.db.headers = bc.db.headers
  bodies : bc'.db.bodies = bc.db.bodies
  tds : bc'.db.tds = bc.db.tds
  blockCache : bc'.caches.blockCache = bc.caches.blockCache
  tdCache : bc'.caches.tdCache = bc.caches.tdCache

theorem Kept.refl (bc : BlockChain) : Kept bc bc := ⟨rfl,rfl,rfl,rfl,rfl⟩
variable {bc'' : BlockChain}

theorem Kept.trans (first : Kept bc bc') (second : Kept bc' bc'') : Kept bc bc'' :=
  ⟨second.headers.trans first.headers,second.bodies.trans first.bodies,second.tds.trans first.tds,
    second.blockCache.trans first.blockCache,second.tdCache.trans first.tdCache⟩
theorem Sound.kept (sound : Sound keccak genesis td stored bc) (kept : Kept bc bc') (current : bc'.currentBlock ∈ stored) :
    Sound keccak genesis td stored bc' := by
  refine ⟨sound.tree,⟨?_,?_⟩,⟨?_,?_⟩,current⟩
  · intro b member
    simp only [readBlock,kept.headers,kept.bodies]
    exact sound.db.blocks b member
  · rw [kept.tds]
    exact sound.db.tds
  · rw [kept.blockCache]
    exact sound.caches.blocks
  · rw [kept.tdCache]
    exact sound.caches.tds

theorem insert_spec (keccak : Bytes → Hash) (bc : BlockChain) (b : Block) : Kept bc (bc.insert keccak b) ∧
    (bc.insert keccak b).currentBlock = b ∧ (bc.insert keccak b).db.lookups = bc.db.lookups ∧
    (bc.insert keccak b).db.canonical = update bc.db.canonical b.numberU64 (some (b.hash keccak)) := by
  unfold BlockChain.insert
  dsimp only
  split <;> exact ⟨⟨rfl,rfl,rfl,rfl,rfl⟩,rfl,rfl,rfl⟩

variable (keccak) in
/-- A block becomes the head: its number and its transactions are entered. -/
structure Placed (b : Block) (bc bc' : BlockChain) : Prop where
  kept : Kept bc bc'
  current : bc'.currentBlock = b
  canonical : bc'.db.canonical = Function.update bc.db.canonical b.numberU64 (some (b.hash keccak))
  lookups : bc'.db.lookups = Db.putLookups keccak b 0 b.transactions bc.db.lookups

theorem placed_adopt (bc : BlockChain) (b : Block) : Placed keccak b bc (bc.adopt keccak b) := by
  obtain ⟨kept,current,lookups,canonical⟩ := insert_spec keccak bc b
  refine ⟨{ kept with },current,canonical,?_⟩
  show putLookups keccak b 0 b.transactions (bc.insert keccak b).db.lookups = _
  rw [lookups]

variable (keccak) in
/-- The indexes move from one branch to another: the blocks above the common ones are entered,
and the transactions that only the old ones have are deleted. -/
structure Moved (os ns rest : List Block) (db db' : Db) : Prop where
  canonical : ∀ n, db'.canonical n =
    if rest.length ≤ n ∧ n < (ns ++ rest).length then (ns ++ rest).reverse[n]?.map (·.hash keccak) else db.canonical n
  lookups : (txHashes keccak ns).Nodup → ∃ m, Recorded keccak ns db.lookups m ∧
    ∀ hash, db'.lookups hash = if hash ∈ txHashes keccak os ∧ hash ∉ txHashes keccak ns then none else m hash

theorem Moved.indexed (moved : Moved keccak os ns rest db db') (indexed : Indexed keccak (os ++ rest) db.canonical) :
    Indexed keccak (ns ++ rest) db'.canonical := by
  intro n inside
  rw [moved.canonical n]
  by_cases below : n < rest.length
  · rw [if_neg (by omega),indexed.suffix n below,reverse_append,getElem?_append_left (by simpa using below)]
  · rw [if_pos ⟨by omega,inside⟩]
theorem Moved.above (moved : Moved keccak os ns rest db db') {n : Nat} (above : (ns ++ rest).length ≤ n) :
    db'.canonical n = db.canonical n := by
  rw [moved.canonical n,if_neg (by omega)]
theorem Moved.lookedUp (moved : Moved keccak os ns rest db db') (lookedUp : LookedUp keccak (os ++ rest) db.lookups)
    (distinctOld : (txHashes keccak (os ++ rest)).Nodup) (distinctNew : (txHashes keccak (ns ++ rest)).Nodup) :
    LookedUp keccak (ns ++ rest) db'.lookups := by
  have new := distinctNew
  rw [txHashes_append] at new
  obtain ⟨m,recorded,deleted⟩ := moved.lookups (List.Nodup.of_append_left new)
  exact lookedUp.moved recorded deleted distinctOld distinctNew

theorem reverse_cons_length (b : Block) (l : List Block) : (b :: l).reverse[l.length]? = some b := by
  rw [reverse_cons,getElem?_append_right (by simp)]
  simp

theorem Placed.moved (placed : Placed keccak b bc bc') (next : b.numberU64 = rest.length) :
    Moved keccak [] [b] rest bc.db bc'.db := by
  refine ⟨fun n => ?_,fun distinct => ⟨_,recorded_block b bc.db.lookups distinct,fun hash => ?_⟩⟩
  · rw [placed.canonical,next]
    by_cases last : n = rest.length
    · rw [last,update_self,if_pos (by simp)]
      simp only [singleton_append,reverse_cons_length,Option.map_some]
    · rw [update_of_ne last,if_neg (by simp; omega)]
  · rw [placed.lookups,if_neg (by simp [txHashes])]
theorem Moved.cons {db'' : Db} (below : Moved keccak [] ns rest db db')
    (top : Moved keccak [] [b] (ns ++ rest) db' db'') :
    Moved keccak [] (b :: ns) rest db db'' := by
  constructor
  · intro n
    rw [top.canonical n,below.canonical n]
    simp only [cons_append,nil_append,length_cons,length_append]
    by_cases last : n = ns.length + rest.length
    · rw [if_pos ⟨by omega,by omega⟩,if_pos ⟨by omega,by omega⟩]
    · by_cases inside : rest.length ≤ n ∧ n < ns.length + rest.length
      · rw [if_neg (by omega),if_pos inside,if_pos (by omega),reverse_cons,getElem?_append_left (by simp; omega)]
      · rw [if_neg (by omega),if_neg inside,if_neg (by omega)]
  · intro distinct
    have split : txHashes keccak (b :: ns) = txHashes keccak [b] ++ txHashes keccak ns := txHashes_append [b] ns
    rw [split] at distinct
    obtain ⟨m,recorded,same⟩ := below.lookups (List.Nodup.of_append_right distinct)
    obtain ⟨m',recorded',same'⟩ := top.lookups (List.Nodup.of_append_left distinct)
    have unchanged : db'.lookups = m := by
      funext hash
      simpa [txHashes] using same hash
    rw [unchanged] at recorded'
    refine ⟨m',recorded.cons recorded' (by rw [split]; exact distinct),fun hash => ?_⟩
    simpa [txHashes] using same' hash
/-- The head of the new branch is placed once more. -/
theorem Moved.again (moved : Moved keccak os (b :: ns) rest db bc.db) (placed : Placed keccak b bc bc')
    (next : b.numberU64 = (ns ++ rest).length) : Moved keccak os (b :: ns) rest db bc'.db := by
  constructor
  · intro n
    rw [placed.canonical,next]
    by_cases last : n = (ns ++ rest).length
    · rw [last,update_self,if_pos ⟨by simp,by simp⟩,cons_append,reverse_cons_length,Option.map_some]
    · rw [update_of_ne last,moved.canonical n]
  · intro distinct
    obtain ⟨m,recorded,deleted⟩ := moved.lookups distinct
    have split : txHashes keccak (b :: ns) = txHashes keccak [b] ++ txHashes keccak ns := txHashes_append [b] ns
    have own : (txHashes keccak [b]).Nodup := by
      rw [split] at distinct
      exact List.Nodup.of_append_left distinct
    have put := recorded_block b bc.db.lookups own
    refine ⟨m,recorded,fun hash => ?_⟩
    rw [placed.lookups]
    by_cases present : hash ∈ txHashes keccak [b]
    · obtain ⟨entry,inside⟩ := mem_txHashes present
      have among : EntryIn keccak (b :: ns) hash entry := entryIn_append.mpr (Or.inl inside)
      rw [put.entry hash entry inside,if_neg (by simp [among.mem]),recorded.entry hash entry among]
    · rw [put.other hash present,deleted hash]
/-- The chain is cut back to one of its own blocks, which is placed once more. -/
theorem Moved.back (moved : Moved keccak os [] (b :: rest) db bc.db) (placed : Placed keccak b bc bc')
    (next : b.numberU64 = rest.length) : Moved keccak (os ++ [b]) [b] rest db bc'.db := by
  obtain ⟨m,recorded,deleted⟩ := moved.lookups (by simp [txHashes])
  constructor
  · intro n
    have same : bc.db.canonical n = db.canonical n := by rw [moved.canonical n,if_neg (by simp)]
    rw [(placed.moved next).canonical n,same]
  · intro distinct
    have put := recorded_block b bc.db.lookups distinct
    refine ⟨_,recorded_block b db.lookups distinct,fun hash => ?_⟩
    rw [placed.lookups]
    by_cases present : hash ∈ txHashes keccak [b]
    · obtain ⟨entry,inside⟩ := mem_txHashes present
      rw [put.entry hash entry inside,if_neg (by simp [present]),(recorded_block b _ distinct).entry hash entry inside]
    · rw [put.other hash present,deleted hash,txHashes_append]
      by_cases dropped : hash ∈ txHashes keccak os
      · rw [if_pos ⟨dropped,by simp [txHashes]⟩,if_pos ⟨mem_append_left _ dropped,present⟩]
      · rw [if_neg (by simp [dropped]),if_neg (by simp [dropped,present]),recorded.other hash (by simp [txHashes]),
          (recorded_block b _ distinct).other hash present]

/-! ### Reorganising -/

variable {top : Block}
/-- The loop that adopts the new blocks, the lowest first. -/
theorem moved_adoptAll (bc : BlockChain) (zero : genesis.numberU64 = 0) (branch : BranchOf keccak genesis stored top (ns ++ rest))
    (some_ : rest ≠ []) : Moved keccak [] ns rest bc.db (ns.reverse.foldl (BlockChain.adopt keccak) bc).db ∧
      Kept bc (ns.reverse.foldl (BlockChain.adopt keccak) bc) := by
  induction ns generalizing top with
  | nil =>
    refine ⟨⟨fun n => ?_,fun _ => ⟨bc.db.lookups,⟨fun _ _ => rfl,by simp [EntryIn]⟩,by simp [txHashes]⟩⟩,Kept.refl bc⟩
    rw [if_neg (by simp)]
    rfl
  | cons n ns ih =>
    rw [reverse_cons,foldl_append]
    have height := branch.length zero
    generalize shape : n :: ns ++ rest = l at branch height
    cases branch with
    | root =>
      have lengths := congrArg length shape
      have positive := length_pos_iff.mpr some_
      simp only [cons_append,length_cons,length_append,length_nil] at lengths
      omega
    | @child _ p l member named higher below =>
      cases shape
      obtain ⟨moved,kept⟩ := ih below
      have placed : Placed keccak n _ _ := placed_adopt (ns.reverse.foldl (BlockChain.adopt keccak) bc) n
      exact ⟨moved.cons (placed.moved (by simpa using height.symm)),kept.trans placed.kept⟩
theorem adoptAll_current (bc : BlockChain) (ns : List Block) :
    (ns.reverse.foldl (BlockChain.adopt keccak) bc).currentBlock = ns.headD bc.currentBlock := by
  cases ns with
  | nil => rfl
  | cons n ns =>
    rw [reverse_cons,foldl_append]
    exact (placed_adopt _ n).current

theorem deleteAll_lookups (hashes : List Hash) (db : Db) (hash : Hash) :
    (hashes.foldl deleteTxLookupEntry db).lookups hash = if hash ∈ hashes then none else db.lookups hash := by
  induction hashes generalizing db with
  | nil => simp
  | cons first hashes ih =>
    rw [foldl_cons,ih]
    by_cases same : hash = first
    · simp [same,deleteTxLookupEntry]
    · simp [same,deleteTxLookupEntry]
theorem deleteAll_db (hashes : List Hash) (db : Db) :
    hashes.foldl deleteTxLookupEntry db = { db with lookups := (hashes.foldl deleteTxLookupEntry db).lookups } := by
  induction hashes generalizing db with
  | nil => rfl
  | cons first hashes ih =>
    rw [foldl_cons,ih]
    rfl
theorem mem_txDifference (os ns : List Block) (hash : Hash) :
    hash ∈ (txDifference keccak (os.flatMap (·.transactions)) (ns.reverse.flatMap (·.transactions))).map (·.hash keccak) ↔
      hash ∈ txHashes keccak os ∧ hash ∉ txHashes keccak ns := by
  simp only [txDifference,txHashes,mem_map,mem_filter,mem_flatMap,mem_reverse,decide_eq_true_eq]
  constructor
  · rintro ⟨tx,⟨⟨b,member,among⟩,absent⟩,rfl⟩
    exact ⟨⟨b,member,tx,among,rfl⟩,fun ⟨b',member',tx',among',same⟩ => absent ⟨tx',⟨b',member',among'⟩,same⟩⟩
  · rintro ⟨⟨b,member,tx,among,rfl⟩,absent⟩
    exact ⟨tx,⟨⟨b,member,among⟩,fun ⟨tx',⟨b',member',among'⟩,same⟩ => absent ⟨b',member',tx',among',same⟩⟩,rfl⟩

/-- `reorg` after the walk. -/
theorem moved_switch (bc : BlockChain) (zero : genesis.numberU64 = 0) {walk : Walk} (old : walk.deletedTxs = os.flatMap (·.transactions))
    (new : walk.newChain = ns) (branch : BranchOf keccak genesis stored top (ns ++ rest)) (some_ : rest ≠ []) :
    Moved keccak os ns rest bc.db (bc.switch keccak walk).db ∧ Kept bc (bc.switch keccak walk) ∧
      (bc.switch keccak walk).currentBlock = ns.headD bc.currentBlock := by
  obtain ⟨adopted,kept⟩ := moved_adoptAll bc zero branch some_
  unfold BlockChain.switch
  dsimp only
  rw [old,new,deleteAll_db]
  refine ⟨⟨adopted.canonical,fun distinct => ?_⟩,{ kept with },adoptAll_current bc ns⟩
  obtain ⟨m,recorded,same⟩ := adopted.lookups distinct
  refine ⟨m,recorded,fun hash => ?_⟩
  show lookups (foldl _ _ _) hash = _
  rw [deleteAll_lookups,same hash]
  by_cases gone : hash ∈ txHashes keccak os ∧ hash ∉ txHashes keccak ns
  · rw [if_pos ((mem_txDifference os ns hash).mpr gone),if_pos gone]
  · rw [if_neg fun inside => gone ((mem_txDifference os ns hash).mp inside),if_neg (by simp [txHashes]),if_neg gone]

theorem weight_cons (td : Nat) (b : Block) (some_ : l ≠ []) : weight td (b :: l) = b.difficulty + weight td l := by
  cases l with
  | nil => exact absurd rfl some_
  | cons p l => rfl

theorem tree_insert (tree : Tree keccak genesis stored) (joins : Joins (links keccak) stored b)
    (apart : Apart (links keccak) (insert b stored)) : Tree keccak genesis (insert b stored) := by
  refine ⟨Set.mem_insert_of_mem b tree.root,tree.zero,apart,?_⟩
  rintro x (rfl | member)
  · obtain ⟨l,branch⟩ := joins.branch tree.rooted
    exact ⟨_,branch⟩
  · obtain ⟨l,branch⟩ := tree.rooted x member
    exact ⟨l,branch.mono (Set.subset_insert b stored)⟩
variable {α : Type}

theorem put_self (f : Nat → Hash → Option α) (n : Nat) (h : Hash) (a : α) : put f n h a n h = some a := by
  simp [put]
theorem put_other (f : Nat → Hash → Option α) {n n' : Nat} {h h' : Hash} (a : α) (differs : h' ≠ h) :
    put f n h a n' h' = f n' h' := by
  simp [put,differs]
theorem sound_store (sound : Sound keccak genesis td stored bc) (joins : Joins (links keccak) stored b)
    (apart : Apart (links keccak) (insert b stored)) (branch : BranchOf keccak genesis (insert b stored) b l) :
    Sound keccak genesis td (insert b stored) (bc.store keccak b (weight td l)) := by
  have tree := tree_insert sound.tree joins apart
  have more := Set.subset_insert b stored
  have old {x : Block} (member : x ∈ insert b stored) (other : x ≠ b) : x ∈ stored ∧ x.hash keccak ≠ b.hash keccak :=
    ⟨member.resolve_left other,fun same => other (apart x member b (Set.mem_insert b stored) same)⟩
  refine ⟨tree,⟨?_,?_⟩,⟨?_,?_⟩,more sound.current⟩
  · intro x member
    by_cases same : x = b
    · rw [same]
      simp [BlockChain.store,writeBlock,writeTd,readBlock,put_self]
    · obtain ⟨before,differs⟩ := old member same
      have read := sound.db.blocks x before
      simp only [readBlock] at read
      simpa only [BlockChain.store,writeBlock,writeTd,readBlock,put_other _ _ differs] using read
  · intro x member l' branch'
    by_cases same : x = b
    · subst same
      rw [tree.branch_unique branch' branch]
      exact put_self _ _ _ _
    · obtain ⟨before,differs⟩ := old member same
      obtain ⟨l'',branch''⟩ := sound.tree.rooted x before
      rw [tree.branch_unique branch' (branch''.mono more)]
      show put _ _ _ _ _ _ = _
      rw [put_other _ _ differs]
      exact sound.db.tds x before l'' branch''
  · exact sound.caches.blocks.mono fun hash x ⟨member,named⟩ => ⟨more member,named⟩
  · refine Holds.add (sound.caches.tds.mono ?_) ⟨b,Set.mem_insert b stored,rfl,l,branch,rfl⟩
    rintro hash t ⟨x,member,named,l',branch',value⟩
    exact ⟨x,more member,named,l',branch'.mono more,value⟩

/-! ### A whole write -/

/-- The head and both indexes are as they were. -/
structure Stayed (bc bc' : BlockChain) : Prop where
  current : bc'.currentBlock = bc.currentBlock
  canonical : bc'.db.canonical = bc.db.canonical
  lookups : bc'.db.lookups = bc.db.lookups

variable {cfg : Config} {w : Write} {trie : List TrieCommand} {ln : List Block}
theorem collect_stayed {root : Hash}
    (collected : bc.collect cfg root w = .ok (bc',trie)) : Kept bc bc' ∧ Stayed bc bc' := by
  unfold BlockChain.collect at collected
  dsimp only at collected
  split at collected
  · split at collected
    · cases collected
    · cases collected
      unfold Caches.getHeaderByNumber
      split <;> exact ⟨⟨rfl,rfl,rfl,rfl,rfl⟩,⟨rfl,rfl,rfl⟩⟩
  · cases collected
    exact ⟨⟨rfl,rfl,rfl,rfl,rfl⟩,⟨rfl,rfl,rfl⟩⟩
theorem commitState_stayed {err : Option WriteError}
    (committed : bc.commitState cfg w = .ok (bc',err,trie)) : Kept bc bc' ∧ Stayed bc bc' := by
  unfold BlockChain.commitState at committed
  repeat' split at committed
  all_goals cases committed
  any_goals exact ⟨Kept.refl bc,⟨rfl,rfl,rfl⟩⟩
  rename_i collected
  exact collect_stayed collected

theorem commitState_panics {panic : Panic} (failed : bc.commitState cfg w = .error panic) :
    panic = .nilDereference ∧ triesInMemory < w.block.numberU64 := by
  unfold BlockChain.commitState at failed
  repeat' split at failed
  all_goals cases failed
  rename_i collected
  unfold BlockChain.collect at collected
  dsimp only at collected
  split at collected
  · next high =>
    split at collected
    · cases collected
      exact ⟨rfl,high⟩
    · cases collected
  · cases collected

theorem flush_side (keccak : Bytes → Hash) (bc : BlockChain) (w : Write) (trie : List TrieCommand) (events : List Event) :
    Kept bc (bc.flush keccak w .sideStatTy trie events).1 ∧ Stayed bc (bc.flush keccak w .sideStatTy trie events).1 ∧
      (bc.flush keccak w .sideStatTy trie events).2.status ≠ .canonStatTy := by
  unfold BlockChain.flush
  split
  · exact ⟨Kept.refl bc,⟨rfl,rfl,rfl⟩,nofun⟩
  · exact ⟨⟨rfl,rfl,rfl,rfl,rfl⟩,⟨rfl,rfl,rfl⟩,nofun⟩
/-- A new head is placed, unless the batch cannot be written. -/
theorem flush_canon (keccak : Bytes → Hash) (bc : BlockChain) (w : Write) (trie : List TrieCommand) (events : List Event) :
    (Placed keccak w.block bc (bc.flush keccak w .canonStatTy trie events).1 ∧
      (bc.flush keccak w .canonStatTy trie events).2.status = .canonStatTy) ∨
    ((bc.flush keccak w .canonStatTy trie events).1 = bc ∧ ¬ w.batchWrite.isOk ∧
      (bc.flush keccak w .canonStatTy trie events).2.status = .nonStatTy ∧
      (bc.flush keccak w .canonStatTy trie events).2.err ≠ none) := by
  unfold BlockChain.flush
  split
  · next failed => exact Or.inr ⟨rfl,by simp [failed,isOk,Except.toBool],rfl,nofun⟩
  · dsimp only
    rw [if_pos rfl]
    obtain ⟨kept,current,lookups,canonical⟩ := insert_spec keccak { bc with
      db := (bc.db.writeReceipts (w.block.hash keccak) w.block.numberU64 w.receipts).writeTxLookupEntries keccak w.block } w.block
    exact Or.inl ⟨⟨{ kept with },current,canonical,lookups⟩,rfl⟩
variable {current : Block} {localTd externTd : Nat}

theorem overtakes_heavier
    (won : BlockChain.overtakes cfg current localTd externTd w = true) :
    localTd < externTd ∨ localTd = externTd ∧ w.block.numberU64 ≤ current.numberU64 := by
  unfold BlockChain.overtakes at won
  split at won
  · omega
  · split at won
    · split at won
      · omega
      · split at won
        · omega
        · cases won
    · cases won
theorem not_overtakes_lighter
    (under : ¬ BlockChain.overtakes cfg current localTd externTd w = true) : externTd ≤ localTd := by
  by_contra heavier
  exact under (by rw [BlockChain.overtakes,if_pos (by omega)])

variable (keccak) in
/-- What a write does to the head and the indexes: nothing, or they move to the branch of the block. Where
the last batch is lost, the transactions of a chain that was to be cut back are gone from their index. -/
inductive Outcome (w : Write) (td : Nat) (lo ln : List Block) (bc bc' : BlockChain) (out : Written) : Prop where
  | stays (current : bc'.currentBlock = bc.currentBlock) (canonical : bc'.db.canonical = bc.db.canonical)
      (lookups : w.batchWrite.isOk → bc'.db.lookups = bc.db.lookups)
      (status : out.status ≠ .canonStatTy) (lighter : out.err = none → weight td ln ≤ weight td lo)
  | moves {os ns rest : List Block} (old : lo = os ++ rest) (new : ln = ns ++ rest) (moved : Moved keccak os ns rest bc.db bc'.db)
      (current : bc'.currentBlock = w.block) (status : out.status ≠ .sideStatTy)
      (heavier : weight td lo < weight td ln ∨ weight td lo = weight td ln ∧ w.block.numberU64 ≤ bc.currentBlock.numberU64)

theorem Stayed.trans (first : Stayed bc bc') (second : Stayed bc' bc'') : Stayed bc bc'' :=
  ⟨second.current.trans first.current,second.canonical.trans first.canonical,second.lookups.trans first.lookups⟩

variable {lo : List Block}
theorem reorg_spec (sound : Sound keccak genesis td stored bc)
    (branchOld : BranchOf keccak genesis stored bc.currentBlock lo) (branchNew : BranchOf keccak genesis stored b ln) :
    ∃ bc' events os ns rest, bc.reorg keccak bc.currentBlock b = .ok (bc',none,events) ∧
      lo = os ++ rest ∧ ln = ns ++ rest ∧ rest ≠ [] ∧ Sound keccak genesis td stored bc' ∧
      Moved keccak os ns rest bc.db bc'.db ∧ bc'.currentBlock = ns.headD bc.currentBlock := by
  obtain ⟨walk,os,ns,rest,found,splitOld,splitNew,some_,walked⟩ := find_spec sound.tree sound.db sound.caches branchOld branchNew
  have new : walk.newChain = ns := by simpa using walked.new
  have txs : walk.deletedTxs = os.flatMap (·.transactions) := by simpa using walked.txs
  rw [splitNew] at branchNew
  obtain ⟨moved,kept,current⟩ := moved_switch { bc with caches := walk.caches } sound.tree.zero txs new branchNew some_
  have cached : Sound keccak genesis td stored { bc with caches := walk.caches } :=
    ⟨sound.tree,sound.db,walked.caches,sound.current⟩
  have inside : ns.headD bc.currentBlock ∈ stored := by
    cases ns with
    | nil => exact sound.current
    | cons n ns => exact branchNew.mem_nodes sound.tree.root n (by simp)
  refine ⟨_,BlockChain.events walk,os,ns,rest,?_,splitOld,splitNew,some_,cached.kept kept (current ▸ inside),moved,current⟩
  simp [BlockChain.reorg,found]

variable {out : Written}
/-- The choice of the head, once the block is stored. -/
theorem choose_spec (sound : Sound keccak genesis td stored bc)
    (branchOld : BranchOf keccak genesis stored bc.currentBlock lo)
    (branchNew : BranchOf keccak genesis stored w.block ln) (positive : w.block.numberU64 ≠ 0)
    (chosen : bc.choose keccak cfg w (weight td lo) (weight td ln) trie = .ok (bc',out)) :
    Sound keccak genesis td stored bc' ∧ Outcome keccak w td lo ln bc bc' out := by
  have height := branchNew.length sound.tree.zero
  obtain ⟨l,first⟩ := branchNew.head
  have member : w.block ∈ stored := branchNew.mem_nodes sound.tree.root _ (by simp [first])
  have next : w.block.numberU64 = l.length := by
    rw [first] at height
    simpa using height.symm
  unfold BlockChain.choose at chosen
  split at chosen
  · next won =>
    have heavier := overtakes_heavier won
    split at chosen
    · obtain ⟨bc₁,events,os,ns,rest,reorganised,splitOld,splitNew,some_,sound₁,moved,current⟩ :=
        reorg_spec sound branchOld branchNew
      simp only [reorganised,ok.injEq] at chosen
      obtain ⟨placed,status⟩ | ⟨same,lost,status,failed⟩ := flush_canon keccak bc₁ w trie events
      · rw [chosen] at placed status
        dsimp only at placed status
        refine ⟨sound₁.kept placed.kept (placed.current ▸ member),?_⟩
        cases ns with
        | nil =>
          -- the block is one of the old branch
          rw [nil_append] at splitNew
          rw [← splitNew,first] at moved splitOld
          have split : lo = (os ++ [w.block]) ++ l := by rw [splitOld,append_assoc,singleton_append]
          exact .moves split first (moved.back placed next) placed.current (by simp [status]) heavier
        | cons n ns =>
          rw [splitNew] at first
          obtain ⟨rfl,tail⟩ := List.cons.inj first
          rw [← tail] at next
          exact .moves splitOld splitNew (moved.again placed next) placed.current (by simp [status]) heavier
      · rw [chosen] at same status failed
        dsimp only at same status failed
        cases same
        refine ⟨sound₁,?_⟩
        cases ns with
        | nil =>
          have unchanged : bc'.db.canonical = bc.db.canonical := by
            funext n
            rw [moved.canonical n,if_neg (by simp)]
          exact .stays current unchanged (fun ok => absurd ok lost) (by simp [status]) fun none_ => absurd none_ failed
        | cons n ns =>
          rw [splitNew] at first
          obtain ⟨rfl,tail⟩ := List.cons.inj first
          exact .moves splitOld splitNew moved current (by simp [status]) heavier
    · next parent =>
      -- the block is a child of the head
      simp only [ok.injEq] at chosen
      have child : l = lo := by
        have named : bc.currentBlock.hash keccak = w.block.parentHash := (not_not.mp parent).symm
        cases branchNew with
        | root => exact absurd sound.tree.zero positive
        | @child _ p l' _ named' _ below =>
          obtain ⟨rest,top⟩ := below.head
          have inside := below.mem_nodes sound.tree.root p (by simp [top])
          cases sound.tree.apart p inside _ sound.current (named'.trans named.symm)
          exact (List.cons.inj first).2.symm.trans (sound.tree.branch_unique below branchOld)
      obtain ⟨placed,status⟩ | ⟨same,lost,status,failed⟩ := flush_canon keccak bc w trie []
      · rw [chosen] at placed status
        dsimp only at placed status
        refine ⟨sound.kept placed.kept (placed.current ▸ member),?_⟩
        exact .moves (nil_append lo).symm (first.trans (by rw [child]; rfl)) (placed.moved (child ▸ next)) placed.current
          (by simp [status]) heavier
      · rw [chosen] at same status failed
        dsimp only at same status failed
        cases same
        exact ⟨sound,.stays rfl rfl (fun _ => rfl) (by simp [status]) fun none_ => absurd none_ failed⟩
  · next lost =>
    have lighter := not_overtakes_lighter lost
    simp only [ok.injEq] at chosen
    obtain ⟨kept,stayed,status⟩ := flush_side keccak bc w trie []
    rw [chosen] at kept stayed status
    exact ⟨sound.kept kept (stayed.current ▸ sound.current),
      .stays stayed.current stayed.canonical (fun _ => stayed.lookups) status fun _ => lighter⟩

/-- What is left of a write once the total difficulties are read and the block is stored. -/
def commitAndChoose (keccak : Bytes → Hash) (cfg : Config) (bc : BlockChain) (w : Write) (localTd externTd : Nat) :
    Except Panic (BlockChain × Written) :=
  match bc.commitState cfg w with
  | .error panic => .error panic
  | .ok (bc,some err,trie) => .ok (bc,⟨.nonStatTy,some err,trie,[]⟩)
  | .ok (bc,none,trie) => bc.choose keccak cfg w localTd externTd trie

variable (sound : Sound keccak genesis td stored bc)
include sound
/-- A write of a block whose parent is there stores the block with its total difficulty. -/
theorem write_eq (cfg : Config)
    (joins : Joins (links keccak) stored w.block) (apart : Apart (links keccak) (insert w.block stored)) :
    ∃ bc₁ lo ln, Sound keccak genesis td (insert w.block stored) bc₁ ∧ Stayed bc bc₁ ∧
      BranchOf keccak genesis (insert w.block stored) bc.currentBlock lo ∧
      BranchOf keccak genesis (insert w.block stored) w.block ln ∧ w.block.numberU64 ≠ 0 ∧
      bc.writeBlockWithState keccak cfg w = commitAndChoose keccak cfg bc₁ w (weight td lo) (weight td ln) := by
  obtain ⟨p,member,named,higher⟩ := joins
  obtain ⟨lp,branchP⟩ := sound.tree.rooted p member
  obtain ⟨lo,branchO⟩ := sound.tree.rooted _ sound.current
  have more := Set.subset_insert w.block stored
  have branchN : BranchOf keccak genesis (insert w.block stored) w.block (w.block :: lp) :=
    .child (Set.mem_insert _ stored) named higher (branchP.mono more)
  have some_ : lp ≠ [] := by
    obtain ⟨rest,first⟩ := branchP.head
    simp [first]
  simp only [links_id,links_parentId,links_height] at named higher
  obtain ⟨read,cached⟩ := getTd_spec sound.tree sound.db sound.caches member branchP
  obtain ⟨readHead,cachedHead⟩ := getTd_spec sound.tree sound.db cached sound.current branchO
  have soundRead : Sound keccak genesis td stored { bc with
      caches := ((bc.caches.getTd bc.db (p.hash keccak) p.numberU64).2.getTd bc.db (bc.currentBlock.hash keccak)
        bc.currentBlock.numberU64).2
      gcproc := bc.gcproc + w.elapsed } := ⟨sound.tree,sound.db,cachedHead,sound.current⟩
  have soundStored := sound_store soundRead ⟨p,member,named,higher⟩ apart branchN
  refine ⟨_,lo,_,soundStored,⟨rfl,rfl,rfl⟩,branchO.mono more,branchN,by omega,?_⟩
  unfold BlockChain.writeBlockWithState
  dsimp only
  simp only [← named,before_succ higher w.block.numberU64_lt,read,readHead,weight_cons td _ some_]
  rfl

/-- One write of a block whose parent is there. -/
theorem write_spec
    (joins : Joins (links keccak) stored w.block) (apart : Apart (links keccak) (insert w.block stored))
    (wrote : bc.writeBlockWithState keccak cfg w = .ok (bc',out)) :
    Sound keccak genesis td (insert w.block stored) bc' ∧ ∃ lo ln, BranchOf keccak genesis (insert w.block stored) bc.currentBlock lo ∧
      BranchOf keccak genesis (insert w.block stored) w.block ln ∧ Outcome keccak w td lo ln bc bc' out := by
  obtain ⟨bc₁,lo,ln,sound₁,stayed₁,branchO,branchN,positive,equal⟩ := write_eq sound cfg joins apart
  rw [equal,commitAndChoose] at wrote
  split at wrote
  · cases wrote
  · next committed =>
    cases wrote
    obtain ⟨kept,stayed⟩ := commitState_stayed committed
    have unchanged := stayed₁.trans stayed
    refine ⟨sound₁.kept kept (stayed.current ▸ sound₁.current),lo,ln,branchO,branchN,?_⟩
    exact .stays unchanged.current unchanged.canonical (fun _ => unchanged.lookups) nofun nofun
  · next bc₂ trie committed =>
    obtain ⟨kept,stayed⟩ := commitState_stayed committed
    have unchanged := stayed₁.trans stayed
    have branchC : BranchOf keccak genesis (insert w.block stored) bc₂.currentBlock lo := by
      rw [unchanged.current]
      exact branchO
    obtain ⟨sound',outcome⟩ := choose_spec (sound₁.kept kept (stayed.current ▸ sound₁.current)) branchC branchN positive wrote
    refine ⟨sound',lo,ln,branchO,branchN,?_⟩
    cases outcome with
    | stays current canonical lookups status lighter =>
      exact .stays (current.trans unchanged.current) (canonical.trans unchanged.canonical)
        (fun ok => (lookups ok).trans unchanged.lookups) status lighter
    | moves old new moved current status heavier =>
      refine .moves old new ⟨?_,?_⟩ current status (unchanged.current ▸ heavier)
      · have before := moved.canonical
        rw [unchanged.canonical] at before
        exact before
      · have before := moved.lookups
        rw [unchanged.lookups] at before
        exact before
/-- A write of a block whose parent is there returns, or panics where the header of an old block is missing. -/
theorem write_returns (cfg : Config) (joins : Joins (links keccak) stored w.block)
    (apart : Apart (links keccak) (insert w.block stored)) :
    (∃ r, bc.writeBlockWithState keccak cfg w = .ok r) ∨
      bc.writeBlockWithState keccak cfg w = .error .nilDereference ∧ triesInMemory < w.block.numberU64 := by
  obtain ⟨bc₁,lo,ln,sound₁,-,branchO,branchN,-,equal⟩ := write_eq sound cfg joins apart
  rw [equal,commitAndChoose]
  split
  · next panic failed =>
    obtain ⟨rfl,high⟩ := commitState_panics failed
    exact .inr ⟨rfl,high⟩
  · exact .inl ⟨_,rfl⟩
  · next bc₂ trie committed =>
    obtain ⟨kept,stayed⟩ := commitState_stayed committed
    have sound₂ := sound₁.kept kept (stayed.current ▸ sound₁.current)
    obtain ⟨lo₂,branchC⟩ := sound₂.tree.rooted _ sound₂.current
    unfold BlockChain.choose
    split
    · split
      · obtain ⟨bc₃,events,os,ns,rest,reorganised,-⟩ := reorg_spec sound₂ branchC branchN
        exact .inl ⟨_,by rw [reorganised]⟩
      · exact .inl ⟨_,rfl⟩
    · exact .inl ⟨_,rfl⟩

end Canchain.Chain
