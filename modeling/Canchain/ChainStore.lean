import Canchain.BlockChain
import Canchain.Branches

/-!
What the store and the caches hold once a tree of blocks was written: the total
difficulty of a block is the sum over its branch (`Sound`). In a sound store the loops of
`reorg` end at a block that both branches have (`find_spec`).
-/
namespace Canchain.Chain
open Rlp Common Types Branches List
open Lru (Holds)
open BlockChain (Walk)

variable {keccak : Bytes → Hash} {genesis : Block} {td : Nat} {stored : Set Block} {db : Db} {c : Caches}

variable (keccak) in
/-- Blocks name their parents by hash; the height of a block is its number. -/
def links : Links Block Hash := ⟨Block.hash keccak,Block.parentHash,Block.numberU64⟩

@[simp] theorem links_id (b : Block) : (links keccak).id b = b.hash keccak := rfl
@[simp] theorem links_parentId (b : Block) : (links keccak).parentId b = b.parentHash := rfl
@[simp] theorem links_height (b : Block) : (links keccak).height b = b.numberU64 := rfl

variable (keccak) in
/-- The branch of a block down to the genesis block. -/
abbrev BranchOf (genesis : Block) (stored : Set Block) : Block → List Block → Prop := Branch (links keccak) genesis stored

/-- The sum of the difficulties of a branch, with the one that is stored for the genesis block. -/
def weight (td : Nat) : List Block → Nat
  | [] => 0
  | [_] => td
  | b :: p :: l => b.difficulty + weight td (p :: l)

variable (keccak) in
/-- The blocks are a tree with the genesis block as its root. -/
structure Tree (genesis : Block) (stored : Set Block) : Prop where
  root : genesis ∈ stored
  zero : genesis.numberU64 = 0
  apart : Apart (links keccak) stored
  rooted : ∀ b ∈ stored, ∃ l, BranchOf keccak genesis stored b l

variable (keccak) in
/-- The caches hold blocks and total difficulties of the tree. -/
structure Cached (genesis : Block) (td : Nat) (stored : Set Block) (c : Caches) : Prop where
  blocks : Holds (fun hash b => b ∈ stored ∧ b.hash keccak = hash) c.blockCache
  tds : Holds (fun hash t => ∃ b ∈ stored, b.hash keccak = hash ∧
    ∃ l, BranchOf keccak genesis stored b l ∧ t = weight td l) c.tdCache
variable (keccak) in
/-- The store has the blocks of the tree and their total difficulties. -/
structure Stored (genesis : Block) (td : Nat) (stored : Set Block) (db : Db) : Prop where
  blocks : ∀ b ∈ stored, db.readBlock (b.hash keccak) b.numberU64 = some b
  tds : ∀ b ∈ stored, ∀ l, BranchOf keccak genesis stored b l → db.tds b.numberU64 (b.hash keccak) = some (weight td l)

variable (keccak) in
structure Sound (genesis : Block) (td : Nat) (stored : Set Block) (bc : BlockChain) : Prop where
  tree : Tree keccak genesis stored
  db : Stored keccak genesis td stored bc.db
  caches : Cached keccak genesis td stored bc.caches
  current : bc.currentBlock ∈ stored

variable {b : Block} {l : List Block} {walk : Walk}
theorem Tree.branch_unique (tree : Tree keccak genesis stored) {l' : List Block}
    (branch : BranchOf keccak genesis stored b l) (other : BranchOf keccak genesis stored b l') : l = l' :=
  Branch.unique tree.apart tree.root tree.zero branch other

theorem before_succ {m n : Nat} (next : n = m + 1) (fits : n < 2^64) : before n = m := by
  unfold before
  omega
variable {ν : Type} {P : Hash → ν → Prop} {cache : Lru Hash ν} {hash : Hash} {value : Option ν}

theorem readThrough_holds (holds : Holds P cache)
    (good : ∀ v, value = some v → P hash v) : Holds P (readThrough cache hash value).2 := by
  unfold readThrough
  split
  · exact holds.get hash
  · exact (holds.get hash).add (good _ rfl)
  · exact holds.get hash
theorem readThrough_some (holds : Holds P cache)
    {v : ν} (here : value = some v) (only : ∀ v', P hash v' → v' = v) :
    (readThrough cache hash value).1 = some v := by
  unfold readThrough
  split
  · next v' hit => rw [only v' (holds.get_some hit)]
  · exact here
  · cases here

theorem getBlock_spec (tree : Tree keccak genesis stored) (store : Stored keccak genesis td stored db)
    (cached : Cached keccak genesis td stored c) (member : b ∈ stored) :
    (c.getBlock db (b.hash keccak) b.numberU64).1 = some b ∧
      Cached keccak genesis td stored (c.getBlock db (b.hash keccak) b.numberU64).2 := by
  refine ⟨readThrough_some cached.blocks (store.blocks b member) ?_,readThrough_holds cached.blocks ?_,cached.tds⟩
  · rintro b' ⟨member',same⟩
    exact tree.apart b' member' b member same
  · intro v found
    rw [store.blocks b member] at found
    cases found
    exact ⟨member,rfl⟩
theorem getTd_spec (tree : Tree keccak genesis stored) (store : Stored keccak genesis td stored db)
    (cached : Cached keccak genesis td stored c) (member : b ∈ stored) (branch : BranchOf keccak genesis stored b l) :
    (c.getTd db (b.hash keccak) b.numberU64).1 = some (weight td l) ∧
      Cached keccak genesis td stored (c.getTd db (b.hash keccak) b.numberU64).2 := by
  refine ⟨readThrough_some cached.tds (store.tds b member l branch) ?_,cached.blocks,readThrough_holds cached.tds ?_⟩
  · rintro t ⟨b',member',same,l',branch',value⟩
    cases tree.apart b' member' b member same
    rw [value,tree.branch_unique branch' branch]
  · intro t found
    rw [store.tds b member l branch] at found
    cases found
    exact ⟨b,member,rfl,l,branch,rfl⟩
theorem collectLogs_cached (cached : Cached keccak genesis td stored c) (hash : Hash) :
    Cached keccak genesis td stored (BlockChain.collectLogs db c hash).2 := by
  unfold BlockChain.collectLogs
  dsimp only
  split <;> exact ⟨cached.blocks,cached.tds⟩

/-! ### The way to the common block -/

variable (keccak) in
/-- What the loops of `reorg` have gathered: the blocks that leave and enter the chain. -/
structure Walked (genesis : Block) (td : Nat) (stored : Set Block) (walk walk' : Walk) (dropped added : List Block) : Prop where
  old : walk'.oldChain = walk.oldChain ++ dropped
  new : walk'.newChain = walk.newChain ++ added
  txs : walk'.deletedTxs = walk.deletedTxs ++ dropped.flatMap (·.transactions)
  caches : Cached keccak genesis td stored walk'.caches

theorem Walked.refl (cached : Cached keccak genesis td stored walk.caches) :
    Walked keccak genesis td stored walk walk [] [] := ⟨by simp,by simp,by simp,cached⟩
theorem Walked.trans {walk' walk'' : Walk} {dropped added dropped' added' : List Block}
    (first : Walked keccak genesis td stored walk walk' dropped added)
    (second : Walked keccak genesis td stored walk' walk'' dropped' added') :
    Walked keccak genesis td stored walk walk'' (dropped ++ dropped') (added ++ added') :=
  ⟨by rw [second.old,first.old,append_assoc],by rw [second.new,first.new,append_assoc],
    by rw [second.txs,first.txs,flatMap_append,append_assoc],second.caches⟩
theorem walked_drop (db : Db) (cached : Cached keccak genesis td stored walk.caches) (old : Block) :
    Walked keccak genesis td stored walk (walk.drop keccak db old) [old] [] :=
  ⟨rfl,by simp [Walk.drop],by simp [Walk.drop],collectLogs_cached cached _⟩
theorem walked_add (cached : Cached keccak genesis td stored walk.caches) (new : Block) :
    Walked keccak genesis td stored walk (walk.add new) [] [new] := ⟨by simp [Walk.add],rfl,by simp [Walk.add],cached⟩
theorem walked_parent (tree : Tree keccak genesis stored) (store : Stored keccak genesis td stored db)
    (cached : Cached keccak genesis td stored walk.caches) {p : Block}
    (below : BranchOf keccak genesis stored p l) (named : p.hash keccak = b.parentHash) (higher : b.numberU64 = p.numberU64 + 1) :
    (walk.parent db b).1 = some p ∧ Walked keccak genesis td stored walk (walk.parent db b).2 [] [] := by
  obtain ⟨rest,first⟩ := below.head
  have member := below.mem_nodes tree.root p (by simp [first])
  have found := getBlock_spec tree store cached member
  simp only [Walk.parent,← named,before_succ higher b.numberU64_lt]
  exact ⟨found.1,by simp,by simp,by simp,found.2⟩

variable (tree : Tree keccak genesis stored) (store : Stored keccak genesis td stored db)
include tree store

/-- Both loops go down a branch to the block of the number. -/
theorem lower_spec (lower : Nat → Walk → Option Block → Except Panic (Option Block × Walk)) (visit : Walk → Block → Walk)
    (dropped added : Block → List Block) {target : Nat}
    (ends : ∀ fuel walk b, b.numberU64 = target → lower (fuel+1) walk (some b) = .ok (some b,walk))
    (next : ∀ fuel walk b, b.numberU64 ≠ target →
      lower (fuel+1) walk (some b) = lower fuel ((visit walk b).parent db b).2 ((visit walk b).parent db b).1)
    (visited : ∀ walk b, Cached keccak genesis td stored walk.caches →
      Walked keccak genesis td stored walk (visit walk b) (dropped b) (added b))
    (fuel : Nat) (walk : Walk) (cached : Cached keccak genesis td stored walk.caches)
    (branch : BranchOf keccak genesis stored b l) (high : target ≤ b.numberU64) (enough : b.numberU64 < fuel + target) :
    ∃ walk' above x r, lower fuel walk (some b) = .ok (some x,walk') ∧ l = above ++ x :: r ∧ x.numberU64 = target ∧
      BranchOf keccak genesis stored x (x :: r) ∧
      Walked keccak genesis td stored walk walk' (above.flatMap dropped) (above.flatMap added) := by
  induction fuel generalizing walk b l with
  | zero => omega
  | succ fuel ih =>
    by_cases level : b.numberU64 = target
    · obtain ⟨rest,rfl⟩ := branch.head
      exact ⟨walk,[],b,rest,ends fuel walk b level,rfl,level,branch,Walked.refl cached⟩
    · cases branch with
      | root => exact absurd tree.zero (by omega)
      | @child _ p l member named higher below =>
        simp only [links_height] at higher
        have seen := visited walk b cached
        obtain ⟨found,same⟩ := walked_parent tree store seen.caches below named higher
        obtain ⟨walk',above,x,r,ran,rfl,level,rest,walked⟩ := ih _ same.caches below (by omega) (by omega)
        refine ⟨walk',b :: above,x,r,?_,rfl,level,rest,by simpa using (seen.trans same).trans walked⟩
        rw [next fuel walk b ‹_›,found]
        exact ran
variable {old new : Block} {lo ln : List Block}
/-- From two blocks of one height the walk ends at a block of both branches. -/
theorem meet_spec (fuel : Nat)
    (cached : Cached keccak genesis td stored walk.caches)
    (branchOld : BranchOf keccak genesis stored old lo) (branchNew : BranchOf keccak genesis stored new ln)
    (level : old.numberU64 = new.numberU64) (enough : old.numberU64 < fuel) :
    ∃ walk' dropped added rest, Walk.meet keccak db fuel walk old new = .ok (walk',none) ∧
      lo = dropped ++ rest ∧ ln = added ++ rest ∧ rest ≠ [] ∧ Walked keccak genesis td stored walk walk' dropped added := by
  induction fuel generalizing walk old new lo ln with
  | zero => omega
  | succ fuel ih =>
    obtain ⟨restOld,firstOld⟩ := branchOld.head
    obtain ⟨restNew,firstNew⟩ := branchNew.head
    have memberOld := branchOld.mem_nodes tree.root old (by simp [firstOld])
    have memberNew := branchNew.mem_nodes tree.root new (by simp [firstNew])
    by_cases same : old.hash keccak = new.hash keccak
    · cases tree.apart old memberOld new memberNew same
      refine ⟨walk,[],[],lo,by simp [Walk.meet],rfl,tree.branch_unique branchNew branchOld,by simp [firstOld],?_⟩
      exact Walked.refl cached
    · have zero := tree.zero
      cases branchOld with
      | root =>
        cases branchNew with
        | root => exact absurd rfl same
        | child _ _ higher _ => simp only [links_height] at higher; omega
      | @child _ p lo _ named higher below =>
        cases branchNew with
        | root => simp only [links_height] at higher; omega
        | @child _ p' ln _ named' higher' below' =>
          simp only [links_height] at higher higher'
          have dropped := walked_drop db cached old
          have step := dropped.trans (walked_add dropped.caches new)
          obtain ⟨found,parent⟩ := walked_parent tree store step.caches below named higher
          obtain ⟨found',parent'⟩ := walked_parent tree store parent.caches below' named' higher'
          obtain ⟨walk',os,ns,rest,ran,splitOld,splitNew,some_,walked⟩ :=
            ih parent'.caches below below' (by omega) (by omega)
          refine ⟨walk',old :: os,new :: ns,rest,?_,by rw [splitOld]; rfl,by rw [splitNew]; rfl,some_,?_⟩
          · simp only [Walk.meet,if_neg same,found,found']
            exact ran
          · exact ((step.trans parent).trans parent').trans walked
/-- The walk of `reorg` between two blocks of the tree. -/
theorem find_spec (cached : Cached keccak genesis td stored c)
    (branchOld : BranchOf keccak genesis stored old lo) (branchNew : BranchOf keccak genesis stored new ln) :
    ∃ walk dropped added rest, Walk.find keccak db c old new = .ok (walk,none) ∧
      lo = dropped ++ rest ∧ ln = added ++ rest ∧ rest ≠ [] ∧
      Walked keccak genesis td stored ⟨c,[],[],[],[]⟩ walk dropped added := by
  have nothing (l : List Block) : (l.flatMap fun _ => ([] : List Block)) = [] := flatMap_eq_nil_iff.mpr fun _ _ => rfl
  unfold Walk.find
  dsimp only
  by_cases higher : old.numberU64 > new.numberU64
  · -- the old branch is cut at the height of the new block
    obtain ⟨walk,above,x,r,lowered,rfl,level,below,walked⟩ := lower_spec tree store (Walk.lowerOld keccak db new.numberU64)
      (fun walk b => walk.drop keccak db b) (fun b => [b]) (fun _ => []) (fun _ _ _ level => if_pos level) (fun _ _ _ differs => if_neg differs)
      (fun _ b cached => walked_drop db cached b) (old.numberU64 + new.numberU64 + 1) ⟨c,[],[],[],[]⟩ cached branchOld
      higher.le (by omega)
    obtain ⟨walk',os,ns,rest,met,splitOld,splitNew,some_,walked'⟩ := meet_spec tree store
      (old.numberU64 + new.numberU64 + 1) walked.caches below branchNew level (by omega)
    refine ⟨walk',above ++ os,ns,rest,?_,by rw [splitOld,append_assoc],splitNew,some_,by simpa [nothing] using walked.trans walked'⟩
    simp [if_pos higher,lowered,met]
  · obtain ⟨walk,above,x,r,lowered,rfl,level,below,walked⟩ := lower_spec tree store (Walk.lowerNew db old.numberU64)
      Walk.add (fun _ => []) (fun b => [b]) (fun _ _ _ level => if_pos level) (fun _ _ _ differs => if_neg differs)
      (fun _ b cached => walked_add cached b) (old.numberU64 + new.numberU64 + 1) ⟨c,[],[],[],[]⟩ cached branchNew
      (not_lt.mp higher) (by omega)
    obtain ⟨walk',os,ns,rest,met,splitOld,splitNew,some_,walked'⟩ := meet_spec tree store
      (old.numberU64 + new.numberU64 + 1) walked.caches branchOld below level.symm (by omega)
    refine ⟨walk',os,above ++ ns,rest,?_,splitOld,by rw [splitNew,append_assoc],some_,by simpa [nothing] using walked.trans walked'⟩
    simp [if_neg higher,lowered,met]

end Canchain.Chain
