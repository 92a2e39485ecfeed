import Canchain.ChainWrites
import Canchain.Keccak

/-!
Runs of writes from the genesis block, each block after its parent. The head is never
lighter than a block that was written (`fork_choice`), so nodes with the same blocks agree
(`heads_agree`), the transaction index has the transactions of its branch (`lookups_follow`), and
the number index its blocks, unless the head moves to a lower one (`canonical_describes`).
-/
namespace Canchain.Chain
open Rlp Common Types Branches Keccak Runs List BlockChain

variable {keccak : Bytes → Hash} {genesis : Block} {td : Nat} {stored : Set Block} {bc bc' : BlockChain} {cfg : Config}
  {ops : List Write} {outs : List Written} {w : Write} {out : Written}

/-- What `Genesis.ToBlock` and `Genesis.Commit` make sure of. -/
structure IsGenesis (b : Block) : Prop where
  number : b.numberU64 = 0
  transactions : b.transactions = []

variable (keccak) in
/-- The blocks of a run join a tree one by one, and have different hashes. -/
def Planted (stored : Set Block) : List Write → Prop
  | [] => True
  | w :: ops => Joins (links keccak) stored w.block ∧ Apart (links keccak) (insert w.block stored) ∧
      Planted (insert w.block stored) ops
/-- The blocks of a run, with those that were there before. -/
def grown (stored : Set Block) : List Write → Set Block
  | [] => stored
  | w :: ops => grown (insert w.block stored) ops

variable (keccak) (cfg) in
abbrev step : BlockChain → Write → Except Panic (BlockChain × Written) := fun bc w => bc.writeBlockWithState keccak cfg w

/-- The blocks of the calls that returned no error. -/
def accepted : List Write → List Written → List Block
  | w :: ops, out :: outs => if out.err = none then w.block :: accepted ops outs else accepted ops outs
  | _, _ => []

theorem subset_grown (stored : Set Block) (ops : List Write) : stored ⊆ grown stored ops := by
  induction ops generalizing stored with
  | nil => exact subset_rfl
  | cons w ops ih => exact (Set.subset_insert w.block stored).trans (ih _)
theorem grown_append (stored : Set Block) (ops : List Write) (w : Write) :
    grown stored (ops ++ [w]) = insert w.block (grown stored ops) := by
  induction ops generalizing stored with
  | nil => rfl
  | cons first ops ih => exact ih _
theorem planted_append (stored : Set Block) (ops : List Write) (w : Write) :
    Planted keccak stored (ops ++ [w]) ↔ Planted keccak stored ops ∧ Joins (links keccak) (grown stored ops) w.block ∧
      Apart (links keccak) (insert w.block (grown stored ops)) := by
  induction ops generalizing stored with
  | nil => simp [Planted,grown]
  | cons first ops ih => simp [Planted,ih,grown,and_assoc]

theorem start_sound (zero : genesis.numberU64 = 0) : Sound keccak genesis td {genesis} (start keccak genesis td) := by
  refine ⟨⟨rfl,zero,?_,?_⟩,⟨?_,?_⟩,⟨Lru.holds_new _ _,Lru.holds_new _ _⟩,rfl⟩
  · rintro a rfl b rfl _
    rfl
  · rintro b rfl
    exact ⟨_,.root⟩
  · rintro b rfl
    simp [start,Db.readBlock,Db.writeReceipts,Db.writeBlock,Db.writeCanonicalHash,Db.writeTd,put_self]
  · rintro b rfl l branch
    cases branch with
    | root => exact put_self _ _ _ _
    | child member named higher below =>
      simp only [links_height] at higher
      omega

/-- What every write keeps, for the blocks stored before it, holds after a run. -/
theorem run_keeps_sound (Good : Set Block → BlockChain → Prop) (Allowed : BlockChain → Write → Prop)
    (one : ∀ stored bc w bc' out, Sound keccak genesis td stored bc → Joins (links keccak) stored w.block →
      Apart (links keccak) (insert w.block stored) → Good stored bc → Allowed bc w → step keccak cfg bc w = .ok (bc',out) →
      Good (insert w.block stored) bc')
    (sound : Sound keccak genesis td stored bc) (planted : Planted keccak stored ops) (good : Good stored bc)
    (allowed : ∀ v ∈ visits (step keccak cfg) bc ops, Allowed v.1 v.2)
    (ran : run (step keccak cfg) bc ops = .ok (bc',outs)) :
    Sound keccak genesis td (grown stored ops) bc' ∧ Good (grown stored ops) bc' := by
  induction ops generalizing stored bc outs with
  | nil => cases ran; exact ⟨sound,good⟩
  | cons w ops ih =>
    obtain ⟨bc₁,out,outs₁,stepped,rest⟩ := run_cons_ok ran
    obtain ⟨joins,apart,later⟩ := planted
    have good₁ := one stored bc w bc₁ out sound joins apart good (allowed (bc,w) (by simp [visits])) stepped
    exact ih (write_spec sound joins apart stepped).1 later good₁
      (fun v member => allowed v (by simp [visits,stepped,member])) rest
theorem run_sound (sound : Sound keccak genesis td stored bc) (planted : Planted keccak stored ops)
    (ran : run (step keccak cfg) bc ops = .ok (bc',outs)) : Sound keccak genesis td (grown stored ops) bc' :=
  (run_keeps_sound (fun _ _ => True) (fun _ _ => True) (fun _ _ _ _ _ _ _ _ _ _ _ => trivial) sound planted trivial
    (fun _ _ => trivial) ran).1

/-- A run returns, or stops where the header of an old block is missing. -/
theorem run_returns (sound : Sound keccak genesis td stored bc) (planted : Planted keccak stored ops) :
    (∃ r, run (step keccak cfg) bc ops = .ok r) ∨
      run (step keccak cfg) bc ops = .error .nilDereference ∧ ∃ w ∈ ops, triesInMemory < w.block.numberU64 := by
  induction ops generalizing stored bc with
  | nil => exact .inl ⟨_,rfl⟩
  | cons w ops ih =>
    obtain ⟨joins,apart,later⟩ := planted
    rcases write_returns sound cfg joins apart with ⟨⟨bc₁,out⟩,wrote⟩ | ⟨missing,high⟩
    · rcases ih (write_spec sound joins apart wrote).1 later with ⟨⟨bc₂,outs⟩,ran⟩ | ⟨stopped,w',member,high⟩
      · exact .inl ⟨(bc₂,out :: outs),by rw [run,step,wrote]; simp only [ran]⟩
      · exact .inr ⟨by rw [run,step,wrote]; simp only [stopped],w',by simp [member],high⟩
    · exact .inr ⟨by rw [run,step,missing],w,by simp,high⟩

/-! ### A tree of four blocks

Two light blocks on the genesis block, and a heavy one next to the first of them. -/

def sampleHeader (parent : Hash) (number difficulty : Nat) : Header :=
  ⟨parent,.zero,.zero,.zero,.zero,.zero,.zero,difficulty,number,0,0,0,[],.zero,.zero⟩
def sampleTx (nonce : UInt64) : Transaction := ⟨nonce,0,0,none,0,[],0,0,0⟩
def originHash : Hash :=
  ⟨[224,248,120,242,221,103,106,180,77,95,48,29,252,226,71,18,200,215,115,155,137,207,64,79,86,67,9,201,90,113,95,49],rfl⟩
def lightHash : Hash :=
  ⟨[253,108,134,10,165,120,51,128,56,30,149,200,22,24,133,238,60,10,210,68,175,226,243,127,178,47,113,203,227,71,89,77],rfl⟩
def origin : Block := ⟨sampleHeader Hash.zero 0 1,[],[]⟩
def light : Block := ⟨sampleHeader originHash 1 1,[],[]⟩
def lighter : Block := ⟨sampleHeader lightHash 2 1,[],[sampleTx 0]⟩
def heavy : Block := ⟨sampleHeader originHash 1 5,[],[sampleTx 1,sampleTx 0]⟩
def sampleCfg : Config := ⟨⟨false,256,300⟩,none⟩
def sampleWrite (b : Block) : Write := ⟨b,[],.ok Hash.zero,.ok (),(0,0),0,false,.ok ()⟩

theorem sample_hashes : (origin.hash keccak256 = originHash ∧ light.hash keccak256 = lightHash) ∧
    ∀ a ∈ [heavy,lighter,light,origin], a.hash keccak256 ≠ Hash.zero ∧
      ∀ b ∈ [heavy,lighter,light,origin], a.hash keccak256 = b.hash keccak256 → a = b := by
  rw [keccak_packed]
  decide +kernel
theorem origin_hash : origin.hash keccak256 = originHash := sample_hashes.1.1
theorem light_hash : light.hash keccak256 = lightHash := sample_hashes.1.2
theorem sample_apart : Apart (links keccak256) {heavy,lighter,light,origin} := fun a inA b inB =>
  (sample_hashes.2 a (by simpa using inA)).2 b (by simpa using inB)
theorem apart_mono {nodes nodes' : Set Block} (apart : Apart (links keccak) nodes') (fewer : nodes ⊆ nodes') :
    Apart (links keccak) nodes := fun a inA b inB => apart a (fewer inA) b (fewer inB)

theorem sample_planted : Planted keccak256 {origin} [sampleWrite light,sampleWrite lighter,sampleWrite heavy] := by
  refine ⟨⟨origin,rfl,origin_hash,rfl⟩,?_,⟨light,Or.inl rfl,light_hash,rfl⟩,?_,⟨origin,Or.inr (Or.inr rfl),origin_hash,rfl⟩,?_,
    trivial⟩
  · exact apart_mono sample_apart fun b inside => Or.inr (Or.inr inside)
  · exact apart_mono sample_apart fun b inside => Or.inr inside
  · exact sample_apart

/-- The head and the entry above it after a run over all of the tree. -/
theorem sample_runs : (∃ bc outs, run (step keccak256 sampleCfg) (start keccak256 origin 1)
      [sampleWrite light,sampleWrite heavy] = .ok (bc,outs)) ∧
    ∃ bc outs, run (step keccak256 sampleCfg) (start keccak256 origin 1)
        [sampleWrite light,sampleWrite lighter,sampleWrite heavy] = .ok (bc,outs) ∧
      bc.currentBlock.numberU64 = 1 ∧ bc.db.canonical 2 = some (lighter.hash keccak256) := by
  have computed : (run (step keccak256 sampleCfg) (start keccak256 origin 1)
        [sampleWrite light,sampleWrite heavy]).toOption.any (fun _ => true) ∧
      (run (step keccak256 sampleCfg) (start keccak256 origin 1)
        [sampleWrite light,sampleWrite lighter,sampleWrite heavy]).toOption.any fun r =>
          r.1.currentBlock.numberU64 = 1 ∧ r.1.db.canonical 2 = some (lighter.hash keccak256) := by
    rw [keccak_packed]
    decide +kernel
  obtain ⟨r,ran,-⟩ := ok_of_any computed.1
  obtain ⟨r',ran',shown⟩ := ok_of_any computed.2
  exact ⟨⟨r.1,r.2,ran⟩,r'.1,r'.2,ran',of_decide_eq_true shown⟩
theorem light_branch (here : light ∈ stored) : BranchOf keccak256 origin stored light [light,origin] :=
  .child here origin_hash rfl .root
theorem lighter_branch (here : light ∈ stored) (next : lighter ∈ stored) :
    BranchOf keccak256 origin stored lighter [lighter,light,origin] := .child next light_hash rfl (light_branch here)
theorem heavy_branch (here : heavy ∈ stored) : BranchOf keccak256 origin stored heavy [heavy,origin] :=
  .child here origin_hash rfl .root

/-! ### The number index -/

variable (keccak) in
/-- The block becomes the head only if it is not lower than the head: one that is lower has less total difficulty. -/
def Climbs (bc : BlockChain) (w : Write) : Prop :=
  w.block.numberU64 < bc.currentBlock.numberU64 →
    ∀ ptd localTd, bc.db.tds (before w.block.numberU64) w.block.parentHash = some ptd →
      bc.db.tds bc.currentBlock.numberU64 (bc.currentBlock.hash keccak) = some localTd → w.block.difficulty + ptd < localTd
variable (keccak) in
/-- The index has the branch of the head. -/
def IndexesHead (genesis : Block) (stored : Set Block) (bc : BlockChain) : Prop :=
  ∃ l, BranchOf keccak genesis stored bc.currentBlock l ∧ Indexed keccak l bc.db.canonical
/-- The index has nothing above the head. -/
def EndsAtHead (bc : BlockChain) : Prop := ∀ n > bc.currentBlock.numberU64, bc.db.canonical n = none

variable {l : List Block}
variable (sound : Sound keccak genesis td stored bc) (joins : Joins (links keccak) stored w.block)
  (apart : Apart (links keccak) (insert w.block stored))
include sound joins apart
theorem joins_weight (branch : BranchOf keccak genesis (insert w.block stored) w.block l) :
    ∃ ptd, bc.db.tds (before w.block.numberU64) w.block.parentHash = some ptd ∧ weight td l = w.block.difficulty + ptd := by
  have tree := tree_insert sound.tree joins apart
  obtain ⟨p,member,named,higher⟩ := joins
  obtain ⟨lp,below⟩ := sound.tree.rooted p member
  have child : BranchOf keccak genesis (insert w.block stored) w.block (w.block :: lp) :=
    .child (Set.mem_insert _ stored) named higher (below.mono (Set.subset_insert _ stored))
  simp only [links_id,links_parentId,links_height] at named higher
  refine ⟨weight td lp,?_,?_⟩
  · rw [before_succ higher w.block.numberU64_lt,← named]
    exact sound.db.tds p member lp below
  · obtain ⟨rest,first⟩ := below.head
    rw [tree.branch_unique branch child,weight_cons td _ (by simp [first])]

theorem indexesHead_step (indexes : IndexesHead keccak genesis stored bc)
    (stepped : step keccak cfg bc w = .ok (bc',out)) : IndexesHead keccak genesis (insert w.block stored) bc' := by
  obtain ⟨sound',lo,ln,branchOld,branchNew,outcome⟩ := write_spec sound joins apart stepped
  obtain ⟨l,branch,indexed⟩ := indexes
  cases sound'.tree.branch_unique branchOld (branch.mono (Set.subset_insert _ _))
  cases outcome with
  | stays current canonical _ _ _ =>
    refine ⟨lo,?_,?_⟩
    · rw [current]
      exact branchOld
    · rw [canonical]
      exact indexed
  | @moves os ns rest old new moved current _ _ =>
    subst old new
    refine ⟨ns ++ rest,?_,moved.indexed indexed⟩
    rw [current]
    exact branchNew
theorem endsAtHead_step (ends : EndsAtHead bc) (climbs : Climbs keccak bc w)
    (stepped : step keccak cfg bc w = .ok (bc',out)) : EndsAtHead bc' := by
  obtain ⟨sound',lo,ln,branchOld,branchNew,outcome⟩ := write_spec sound joins apart stepped
  cases outcome with
  | stays current canonical _ _ _ =>
    intro n high
    rw [current] at high
    rw [canonical]
    exact ends n high
  | @moves os ns rest old new moved current _ heavier =>
    have notLower : bc.currentBlock.numberU64 ≤ w.block.numberU64 := by
      by_contra lower
      obtain ⟨ptd,parent,value⟩ := joins_weight sound joins apart branchNew
      obtain ⟨l,branch⟩ := sound.tree.rooted _ sound.current
      have lighter := climbs (by omega) ptd (weight td l) parent (sound.db.tds _ sound.current l branch)
      rw [← sound'.tree.branch_unique branchOld (branch.mono (Set.subset_insert _ _))] at lighter
      omega
    have height := branchNew.length sound.tree.zero
    rw [new,links_height] at height
    intro n high
    rw [current] at high
    rw [moved.above (by omega)]
    exact ends n (by omega)
omit sound joins apart
theorem start_indexes (zero : genesis.numberU64 = 0) : IndexesHead keccak genesis {genesis} (start keccak genesis td) := by
  refine ⟨[genesis],.root,?_⟩
  intro n inside
  have first : n = 0 := by simpa using inside
  simp [first,start,Db.writeCanonicalHash,zero]
theorem start_ends (zero : genesis.numberU64 = 0) : EndsAtHead (start keccak genesis td) := by
  intro n high
  have later : n ≠ 0 := by omega
  simp [later,start,Db.writeCanonicalHash,Db.writeReceipts,Db.writeBlock,Db.writeTd,Db.empty,zero]
include sound in
theorem run_indexes (planted : Planted keccak stored ops)
    (indexes : IndexesHead keccak genesis stored bc) (ran : run (step keccak cfg) bc ops = .ok (bc',outs)) :
    IndexesHead keccak genesis (grown stored ops) bc' :=
  (run_keeps_sound (IndexesHead keccak genesis) (fun _ _ => True)
    (fun _ _ _ _ _ sound joins apart indexes _ => indexesHead_step sound joins apart indexes) sound planted indexes
    (fun _ _ => trivial) ran).2

/-- After a run in which no write moves the head to a lower block, the canonical hash of a number is the hash of
the ancestor of the head at that height, and there is none above the head. -/
theorem canonical_describes (zero : genesis.numberU64 = 0) (planted : Planted keccak {genesis} ops)
    (climbs : ∀ v ∈ visits (step keccak cfg) (BlockChain.start keccak genesis td) ops, Climbs keccak v.1 v.2)
    (ran : run (step keccak cfg) (BlockChain.start keccak genesis td) ops = .ok (bc,outs)) :
    ∃ l, BranchOf keccak genesis (grown {genesis} ops) bc.currentBlock l ∧
      (∀ n ≤ bc.currentBlock.numberU64, ∃ a, l.reverse[n]? = some a ∧ a.numberU64 = n ∧
        bc.db.canonical n = some (a.hash keccak)) ∧
      ∀ n > bc.currentBlock.numberU64, bc.db.canonical n = none := by
  obtain ⟨l,branch,indexed⟩ := run_indexes (start_sound zero) planted (start_indexes zero) ran
  obtain ⟨-,ends⟩ := run_keeps_sound (fun _ => EndsAtHead) (Climbs keccak) (fun _ _ _ _ _ => endsAtHead_step)
    (start_sound zero) planted (start_ends zero) climbs ran
  have height := branch.length zero
  simp only [links_height] at height
  refine ⟨l,branch,?_,ends⟩
  intro n low
  have inside : n < l.reverse.length := by simp; omega
  have found := getElem?_eq_getElem inside
  refine ⟨l.reverse[n],found,branch.height_getElem zero found,?_⟩
  rw [indexed n (by omega),found,Option.map_some]

/-- The heavy block takes the place of the first light one. -/
theorem canonical_describes_heavy : ∃ bc outs,
    run (step keccak256 sampleCfg) (BlockChain.start keccak256 origin 1) [sampleWrite light,sampleWrite heavy] = .ok (bc,outs) ∧
    ∃ l, BranchOf keccak256 origin (grown {origin} [sampleWrite light,sampleWrite heavy]) bc.currentBlock l ∧
      (∀ n ≤ bc.currentBlock.numberU64, ∃ a, l.reverse[n]? = some a ∧ a.numberU64 = n ∧
        bc.db.canonical n = some (a.hash keccak256)) ∧
      ∀ n > bc.currentBlock.numberU64, bc.db.canonical n = none := by
  have planted : Planted keccak256 {origin} [sampleWrite light,sampleWrite heavy] := by
    refine ⟨sample_planted.1,sample_planted.2.1,⟨origin,Or.inr rfl,origin_hash,rfl⟩,?_,trivial⟩
    refine apart_mono sample_apart ?_
    rintro b (rfl | rfl | rfl)
    · exact Or.inl rfl
    · exact Or.inr (Or.inr (Or.inl rfl))
    · exact Or.inr (Or.inr (Or.inr rfl))
  obtain ⟨⟨bc,outs,ran⟩,-⟩ := sample_runs
  refine ⟨bc,outs,ran,canonical_describes rfl planted ?_ ran⟩
  -- before each of the two writes the head has number 0 or 1
  obtain ⟨bc₁,out,outs₁,stepped,-⟩ := run_cons_ok ran
  have sound : Sound keccak256 origin 1 {origin} (BlockChain.start keccak256 origin 1) := start_sound rfl
  have current := (write_spec sound planted.1 planted.2.1 stepped).1.current
  intro v member
  rcases visits_pair stepped member with rfl | rfl
  · exact fun lower => absurd lower (Nat.not_lt_zero 1)
  · intro lower
    rcases current with same | same
    · rw [same] at lower
      exact absurd lower (Nat.lt_irrefl 1)
    · rw [Set.mem_singleton_iff.mp same] at lower
      exact absurd lower (Nat.not_lt_zero 1)
/-- After both light blocks were written the second is the head, and its entry stays when the heavy block
becomes the head. -/
theorem canonical_left_above : Planted keccak256 {origin} [sampleWrite light,sampleWrite lighter,sampleWrite heavy] ∧
    ∃ bc outs, run (step keccak256 sampleCfg) (BlockChain.start keccak256 origin 1)
        [sampleWrite light,sampleWrite lighter,sampleWrite heavy] = .ok (bc,outs) ∧
      bc.currentBlock.numberU64 = 1 ∧ bc.db.canonical 2 = some (lighter.hash keccak256) :=
  ⟨sample_planted,sample_runs.2⟩

/-! ### Fork choice -/

variable (keccak) in
/-- The stored total difficulty of a block. -/
def tdOf (bc : BlockChain) (b : Block) : Option Nat := bc.db.tds b.numberU64 (b.hash keccak)
variable (keccak) in
/-- No block of a set is heavier than the head. -/
def Heaviest (genesis : Block) (td : Nat) (stored written : Set Block) (bc : BlockChain) : Prop :=
  ∀ lo, BranchOf keccak genesis stored bc.currentBlock lo →
    ∀ b ∈ written, ∀ l, BranchOf keccak genesis stored b l → weight td l ≤ weight td lo

theorem heaviest_step {written : Set Block} (known : written ⊆ stored) (sound : Sound keccak genesis td stored bc)
    (joins : Joins (links keccak) stored w.block) (apart : Apart (links keccak) (insert w.block stored))
    (heaviest : Heaviest keccak genesis td stored written bc) (stepped : step keccak cfg bc w = .ok (bc',out)) :
    Heaviest keccak genesis td (insert w.block stored) written bc' ∧
      (out.err = none → Heaviest keccak genesis td (insert w.block stored) (insert w.block written) bc') := by
  obtain ⟨sound',lo,ln,branchOld,branchNew,outcome⟩ := write_spec sound joins apart stepped
  have more := Set.subset_insert w.block stored
  obtain ⟨lc,branchC⟩ := sound.tree.rooted _ sound.current
  cases sound'.tree.branch_unique branchOld (branchC.mono more)
  -- an older block has the branch it had
  have older : ∀ b ∈ written, ∀ l, BranchOf keccak genesis (insert w.block stored) b l → weight td l ≤ weight td lo := by
    intro b member l branch
    obtain ⟨l',branch'⟩ := sound.tree.rooted b (known member)
    rw [sound'.tree.branch_unique branch (branch'.mono more)]
    exact heaviest lo branchC b member l' branch'
  cases outcome with
  | stays current canonical lookups status lighter =>
    have keeps : Heaviest keccak genesis td (insert w.block stored) written bc' := by
      intro l branch b member l' branch'
      rw [current] at branch
      rw [sound'.tree.branch_unique branch branchOld]
      exact older b member l' branch'
    refine ⟨keeps,fun accepted => ?_⟩
    rintro l branch b (rfl | member) l' branch'
    · rw [current] at branch
      rw [sound'.tree.branch_unique branch branchOld,sound'.tree.branch_unique branch' branchNew]
      exact lighter accepted
    · exact keeps l branch b member l' branch'
  | moves old new moved current status heavier =>
    have all : Heaviest keccak genesis td (insert w.block stored) (insert w.block written) bc' := by
      rintro l branch b (rfl | member) l' branch'
      · rw [current] at branch
        rw [sound'.tree.branch_unique branch branch']
      · rw [current] at branch
        have least := older b member l' branch'
        rw [sound'.tree.branch_unique branch branchNew]
        omega
    exact ⟨fun l branch b member => all l branch b (Set.mem_insert_of_mem _ member),fun _ => all⟩

theorem run_heaviest {written : Set Block} (known : written ⊆ stored) (sound : Sound keccak genesis td stored bc)
    (planted : Planted keccak stored ops) (heaviest : Heaviest keccak genesis td stored written bc)
    (ran : run (step keccak cfg) bc ops = .ok (bc',outs)) :
    Heaviest keccak genesis td (grown stored ops) (written ∪ {b | b ∈ accepted ops outs}) bc' := by
  induction ops generalizing stored written bc outs with
  | nil =>
    cases ran
    simpa [accepted,grown] using heaviest
  | cons w ops ih =>
    obtain ⟨bc₁,out,outs₁,stepped,rest,rfl⟩ := run_cons ran
    obtain ⟨joins,apart,later⟩ := planted
    have sound₁ := (write_spec sound joins apart stepped).1
    obtain ⟨keeps,adds⟩ := heaviest_step known sound joins apart heaviest stepped
    have more := Set.subset_insert w.block stored
    by_cases good : out.err = none
    · have all := ih (Set.insert_subset_insert known) sound₁ later (adds good) rest
      intro lo branch b member
      apply all lo branch b
      simp only [accepted,if_pos good,Set.mem_union,Set.mem_ofPred_eq,mem_cons] at member
      rcases member with old | rfl | new
      · exact Or.inl (Set.mem_insert_of_mem _ old)
      · exact Or.inl (Set.mem_insert _ _)
      · exact Or.inr new
    · have all := ih (known.trans more) sound₁ later keeps rest
      simp only [accepted,if_neg good]
      exact all

theorem accepted_grown (stored : Set Block) {b : Block} (member : b ∈ accepted ops outs) : b ∈ grown stored ops := by
  induction ops generalizing stored outs with
  | nil => simp [accepted] at member
  | cons w ops ih =>
    cases outs with
    | nil => simp [accepted] at member
    | cons out outs =>
      rw [accepted] at member
      split at member
      · rcases mem_cons.mp member with rfl | later
        · exact subset_grown _ ops (Set.mem_insert _ _)
        · exact ih _ later
      · exact ih _ member
/-- A block other than the genesis block has its parent in the tree, and their total difficulties differ by its own. -/
theorem sound_td (sound : Sound keccak genesis td stored bc) {b : Block} (member : b ∈ stored) (other : b ≠ genesis) :
    ∃ p ∈ stored, p.hash keccak = b.parentHash ∧ ∃ ptd, tdOf keccak bc p = some ptd ∧ tdOf keccak bc b = some (ptd + b.difficulty) := by
  obtain ⟨l,branch⟩ := sound.tree.rooted b member
  have here := sound.db.tds b member l branch
  cases branch with
  | root => exact absurd rfl other
  | @child _ p l inside named higher below =>
    obtain ⟨rest,first⟩ := below.head
    have known := below.mem_nodes sound.tree.root p (by simp [first])
    refine ⟨p,known,named,weight td l,sound.db.tds p known l below,?_⟩
    rw [tdOf,here,weight_cons td b (by simp [first]),Nat.add_comm]

/-- For every run and every further write: the stored total difficulty of a block is its parent's and its own
difficulty; that of the head does not decrease, and no block that was written has more; a call that returns
`CanonStatTy` makes its block the head, and one that returns `SideStatTy` leaves the head alone. -/
theorem fork_choice (zero : genesis.numberU64 = 0) (planted : Planted keccak {genesis} (ops ++ [w]))
    (ran : run (step keccak cfg) (BlockChain.start keccak genesis td) ops = .ok (bc,outs))
    (wrote : bc.writeBlockWithState keccak cfg w = .ok (bc',out)) :
    (∀ b ∈ grown {genesis} (ops ++ [w]), b ≠ genesis → ∃ p ∈ grown {genesis} (ops ++ [w]), p.hash keccak = b.parentHash ∧
      ∃ ptd, tdOf keccak bc' p = some ptd ∧ tdOf keccak bc' b = some (ptd + b.difficulty)) ∧
    (∃ headTd headTd', tdOf keccak bc bc.currentBlock = some headTd ∧ tdOf keccak bc' bc'.currentBlock = some headTd' ∧
      headTd ≤ headTd' ∧ ∀ b ∈ genesis :: accepted (ops ++ [w]) (outs ++ [out]), ∃ t ≤ headTd', tdOf keccak bc' b = some t) ∧
    (out.status = .canonStatTy → bc'.currentBlock = w.block) ∧
    (out.status = .sideStatTy → bc'.currentBlock = bc.currentBlock) := by
  obtain ⟨planted₁,joins,apart⟩ := (planted_append _ _ _).mp planted
  have sound := run_sound (start_sound zero) planted₁ ran
  obtain ⟨sound',lo,ln,branchOld,branchNew,outcome⟩ := write_spec sound joins apart wrote
  have sound₀ : Sound keccak genesis td {genesis} (BlockChain.start keccak genesis td) := start_sound zero
  have start : Heaviest keccak genesis td {genesis} {genesis} (BlockChain.start keccak genesis td) := by
    rintro lo branch b rfl l branch'
    rw [sound₀.tree.branch_unique branch branch']
  have heaviest := run_heaviest subset_rfl sound₀ planted start (run_append ran wrote)
  rw [grown_append] at heaviest ⊢
  obtain ⟨lo₁,branchOld₁⟩ := sound.tree.rooted _ sound.current
  cases sound'.tree.branch_unique branchOld (branchOld₁.mono (Set.subset_insert _ _))
  obtain ⟨l,branch⟩ := sound'.tree.rooted _ sound'.current
  refine ⟨fun b member other => sound_td sound' member other,⟨weight td lo,weight td l,?_,?_,?_,?_⟩,?_,?_⟩
  · exact sound.db.tds _ sound.current lo branchOld₁
  · exact sound'.db.tds _ sound'.current l branch
  · cases outcome with
    | stays current _ _ _ _ =>
      rw [current] at branch
      rw [sound'.tree.branch_unique branch branchOld]
    | moves _ _ _ current _ heavier =>
      rw [current] at branch
      rw [sound'.tree.branch_unique branch branchNew]
      omega
  · intro b member
    have inside : b ∈ insert w.block (grown {genesis} ops) := by
      rcases mem_cons.mp member with rfl | later
      · exact sound'.tree.root
      · rw [← grown_append]
        exact accepted_grown _ later
    obtain ⟨l',branch'⟩ := sound'.tree.rooted b inside
    refine ⟨weight td l',heaviest l branch b ?_ l' branch',sound'.db.tds b inside l' branch'⟩
    rcases mem_cons.mp member with rfl | later
    · exact Or.inl rfl
    · exact Or.inr later
  · intro status
    cases outcome with
    | stays _ _ _ other _ => exact absurd status other
    | moves _ _ _ current _ _ => exact current
  · intro status
    cases outcome with
    | stays current _ _ _ _ => exact current
    | moves _ _ _ _ other _ => exact absurd status other

/-- The heavy block is written after both light ones. -/
theorem fork_choice_heavy : ∃ bc outs bc' out,
    run (step keccak256 sampleCfg) (BlockChain.start keccak256 origin 1) ([light,lighter].map sampleWrite) = .ok (bc,outs) ∧
    bc.writeBlockWithState keccak256 sampleCfg (sampleWrite heavy) = .ok (bc',out) ∧
    ∃ headTd headTd', tdOf keccak256 bc bc.currentBlock = some headTd ∧ tdOf keccak256 bc' bc'.currentBlock = some headTd' ∧
      headTd ≤ headTd' ∧ ∀ b ∈ origin :: accepted ([light,lighter].map sampleWrite ++ [sampleWrite heavy]) (outs ++ [out]),
        ∃ t ≤ headTd', tdOf keccak256 bc' b = some t := by
  obtain ⟨bc',outs,ran,-⟩ := sample_runs.2
  obtain ⟨bc₁,out₁,_,first,ran⟩ := run_cons_ok ran
  obtain ⟨bc,out₂,_,second,ran⟩ := run_cons_ok ran
  obtain ⟨_,out,_,wrote,⟨⟩⟩ := run_cons_ok ran
  have ran : run (step keccak256 sampleCfg) (BlockChain.start keccak256 origin 1) ([light,lighter].map sampleWrite) =
      .ok (bc,[out₁,out₂]) := by simp [run,first,second]
  have planted : Planted keccak256 {origin} ([light,lighter].map sampleWrite ++ [sampleWrite heavy]) := sample_planted
  exact ⟨bc,_,bc',out,ran,wrote,(fork_choice rfl planted ran wrote).2.1⟩

variable (keccak) in
/-- A node that wrote the blocks of a tree without an error, in some order. -/
def Wrote (genesis : Block) (td : Nat) (stored : Set Block) (bc : BlockChain) : Prop :=
  ∃ cfg ops outs, Planted keccak {genesis} ops ∧ run (step keccak cfg) (start keccak genesis td) ops = .ok (bc,outs) ∧
    grown {genesis} ops = stored ∧ stored ⊆ {genesis} ∪ {b | b ∈ accepted ops outs}
theorem wrote_heaviest (zero : genesis.numberU64 = 0) (wrote : Wrote keccak genesis td stored bc) :
    Sound keccak genesis td stored bc ∧ Heaviest keccak genesis td stored stored bc := by
  obtain ⟨cfg,ops,outs,planted,ran,rfl,all⟩ := wrote
  have sound : Sound keccak genesis td {genesis} (start keccak genesis td) := start_sound zero
  have heaviest := run_heaviest subset_rfl sound planted ?_ ran
  · exact ⟨run_sound sound planted ran,fun lo branch b member => heaviest lo branch b (all member)⟩
  · rintro lo branch b rfl l branch'
    rw [sound.tree.branch_unique branch branch']

/-- Nodes with the same blocks have heads of one total difficulty, in whichever order the blocks came in. -/
theorem heads_agree (zero : genesis.numberU64 = 0) (one : Wrote keccak genesis td stored bc)
    (other : Wrote keccak genesis td stored bc') : ∃ t, tdOf keccak bc bc.currentBlock = some t ∧
      tdOf keccak bc bc'.currentBlock = some t ∧ tdOf keccak bc' bc'.currentBlock = some t := by
  obtain ⟨sound,heaviest⟩ := wrote_heaviest zero one
  obtain ⟨sound',heaviest'⟩ := wrote_heaviest zero other
  obtain ⟨l,branch⟩ := sound.tree.rooted _ sound.current
  obtain ⟨l',branch'⟩ := sound.tree.rooted _ sound'.current
  have same : weight td l = weight td l' :=
    le_antisymm (heaviest' l' branch' _ sound.current l branch) (heaviest l branch _ sound'.current l' branch')
  refine ⟨weight td l,sound.db.tds _ sound.current l branch,?_,?_⟩
  · rw [same]
    exact sound.db.tds _ sound'.current l' branch'
  · rw [same]
    exact sound'.db.tds _ sound'.current l' branch'
/-- The heavy block comes last to one node, and first to the other. -/
theorem heads_agree_orders : ∃ bc bc' outs outs',
    run (step keccak256 sampleCfg) (start keccak256 origin 1) ([light,lighter,heavy].map sampleWrite) = .ok (bc,outs) ∧
    run (step keccak256 sampleCfg) (start keccak256 origin 1) ([heavy,light,lighter].map sampleWrite) = .ok (bc',outs') ∧
    ∃ t, tdOf keccak256 bc bc.currentBlock = some t ∧ tdOf keccak256 bc bc'.currentBlock = some t ∧
      tdOf keccak256 bc' bc'.currentBlock = some t := by
  have computed : ∀ blocks ∈ [[light,lighter,heavy],[heavy,light,lighter]],
      (run (step keccak256 sampleCfg) (start keccak256 origin 1) (blocks.map sampleWrite)).toOption.any fun r =>
        ∀ b ∈ [heavy,lighter,light], b ∈ accepted (blocks.map sampleWrite) r.2 := by
    rw [keccak_packed]
    decide +kernel
  have all {ops : List Write} {outs : List Written} (here : ∀ b ∈ [heavy,lighter,light], b ∈ accepted ops outs) :
      ({heavy,lighter,light,origin} : Set Block) ⊆ {origin} ∪ {b | b ∈ accepted ops outs} := by
    rintro b (rfl | rfl | rfl | rfl)
    · exact .inr (here heavy (by simp))
    · exact .inr (here lighter (by simp))
    · exact .inr (here light (by simp))
    · exact .inl rfl
  obtain ⟨⟨bc,outs⟩,ran,here⟩ := ok_of_any (computed [light,lighter,heavy] (by simp))
  obtain ⟨⟨bc',outs'⟩,ran',here'⟩ := ok_of_any (computed [heavy,light,lighter] (by simp))
  have same : ({lighter,light,heavy,origin} : Set Block) = {heavy,lighter,light,origin} := by
    rw [Set.insert_comm light,Set.insert_comm lighter]
  have planted : Planted keccak256 {origin} ([heavy,light,lighter].map sampleWrite) := by
    have apart : Apart (links keccak256) {lighter,light,heavy,origin} := same ▸ sample_apart
    refine ⟨⟨origin,rfl,origin_hash,rfl⟩,?_,⟨origin,Or.inr rfl,origin_hash,rfl⟩,?_,⟨light,Or.inl rfl,light_hash,rfl⟩,apart,trivial⟩
    · exact apart_mono apart fun b inside => Or.inr (Or.inr inside)
    · exact apart_mono apart fun b inside => Or.inr inside
  have one : Wrote keccak256 origin 1 {heavy,lighter,light,origin} bc :=
    ⟨sampleCfg,_,outs,sample_planted,ran,rfl,all (of_decide_eq_true here)⟩
  have other : Wrote keccak256 origin 1 {heavy,lighter,light,origin} bc' :=
    ⟨sampleCfg,_,outs',planted,ran',same,all (of_decide_eq_true here')⟩
  exact ⟨bc,bc',outs,outs',ran,ran',heads_agree rfl one other⟩

theorem lookedUp_step (sound : Sound keccak genesis td stored bc) (joins : Joins (links keccak) stored w.block)
    (apart : Apart (links keccak) (insert w.block stored))
    (distinct : ∀ b l, BranchOf keccak genesis (insert w.block stored) b l → (txHashes keccak l).Nodup)
    (disk : w.batchWrite.isOk) (branch : BranchOf keccak genesis stored bc.currentBlock l)
    (lookedUp : LookedUp keccak l bc.db.lookups) (stepped : step keccak cfg bc w = .ok (bc',out)) :
    ∃ l', BranchOf keccak genesis (insert w.block stored) bc'.currentBlock l' ∧ LookedUp keccak l' bc'.db.lookups := by
  obtain ⟨sound',lo,ln,branchOld,branchNew,outcome⟩ := write_spec sound joins apart stepped
  cases sound'.tree.branch_unique branchOld (branch.mono (Set.subset_insert _ _))
  cases outcome with
  | stays current _ lookups _ _ =>
    refine ⟨l,?_,?_⟩
    · rw [current]
      exact branchOld
    · rw [lookups disk]
      exact lookedUp
  | @moves os ns rest old new moved current _ _ =>
    subst old new
    refine ⟨ns ++ rest,?_,moved.lookedUp lookedUp (distinct _ _ branchOld) (distinct _ _ branchNew)⟩
    rw [current]
    exact branchNew

theorem run_lookedUp (sound : Sound keccak genesis td stored bc) (planted : Planted keccak stored ops)
    (distinct : ∀ b l, BranchOf keccak genesis (grown stored ops) b l → (txHashes keccak l).Nodup)
    (disk : ∀ w ∈ ops, w.batchWrite.isOk) (branch : BranchOf keccak genesis stored bc.currentBlock l)
    (lookedUp : LookedUp keccak l bc.db.lookups) (ran : run (step keccak cfg) bc ops = .ok (bc',outs)) :
    ∃ l', BranchOf keccak genesis (grown stored ops) bc'.currentBlock l' ∧ LookedUp keccak l' bc'.db.lookups := by
  induction ops generalizing stored bc outs l with
  | nil => cases ran; exact ⟨l,branch,lookedUp⟩
  | cons w ops ih =>
    obtain ⟨bc₁,out,outs₁,stepped,rest⟩ := run_cons_ok ran
    obtain ⟨joins,apart,later⟩ := planted
    have now : ∀ b l, BranchOf keccak genesis (insert w.block stored) b l → (txHashes keccak l).Nodup :=
      fun b l branch => distinct b l (branch.mono (subset_grown _ ops))
    obtain ⟨l₁,branch₁,lookedUp₁⟩ := lookedUp_step sound joins apart now (disk w (by simp)) branch lookedUp stepped
    exact ih (write_spec sound joins apart stepped).1 later distinct (fun w member => disk w (by simp [member]))
      branch₁ lookedUp₁ rest

/-- After a run over a tree in which no branch has a transaction twice, with a disk that does not fail, the index has
an entry for a transaction exactly if the branch of the head has the transaction, and the entry says where. -/
theorem lookups_follow (isGenesis : IsGenesis genesis) (planted : Planted keccak {genesis} ops)
    (distinct : ∀ b l, BranchOf keccak genesis (grown {genesis} ops) b l → (txHashes keccak l).Nodup)
    (disk : ∀ w ∈ ops, w.batchWrite.isOk)
    (ran : run (step keccak cfg) (BlockChain.start keccak genesis td) ops = .ok (bc,outs)) :
    ∃ l, BranchOf keccak genesis (grown {genesis} ops) bc.currentBlock l ∧
      ∀ hash entry, bc.db.lookups hash = some entry ↔ ∃ b ∈ l, ∃ i tx, b.transactions[i]? = some tx ∧
        tx.hash keccak = hash ∧ entry = ⟨b.hash keccak,b.numberU64,i⟩ := by
  have nothing : LookedUp keccak [genesis] (BlockChain.start keccak genesis td).db.lookups := by
    intro hash entry
    simp [EntryIn,isGenesis.transactions,BlockChain.start,Db.writeCanonicalHash,Db.writeReceipts,Db.writeBlock,Db.writeTd,Db.empty]
  exact run_lookedUp (start_sound isGenesis.number) planted distinct disk .root nothing ran
/-- A transaction of the second light block is in the heavy block too, at another place. -/
theorem lookups_follow_heavy : ∃ bc outs,
    run (step keccak256 sampleCfg) (BlockChain.start keccak256 origin 1) ([light,lighter,heavy].map sampleWrite) = .ok (bc,outs) ∧
    ∃ l, BranchOf keccak256 origin (grown {origin} ([light,lighter,heavy].map sampleWrite)) bc.currentBlock l ∧
      ∀ hash entry, bc.db.lookups hash = some entry ↔ ∃ b ∈ l, ∃ i tx, b.transactions[i]? = some tx ∧
        tx.hash keccak256 = hash ∧ entry = ⟨b.hash keccak256,b.numberU64,i⟩ := by
  have planted : Planted keccak256 {origin} ([light,lighter,heavy].map sampleWrite) := sample_planted
  obtain ⟨bc,outs,ran,-⟩ := sample_runs.2
  have start : Sound keccak256 origin 1 {origin} (BlockChain.start keccak256 origin 1) := start_sound rfl
  have tree := (run_sound start planted ran).tree
  have differ : ((sampleTx 1).hash keccak256).bytes.head? ≠ ((sampleTx 0).hash keccak256).bytes.head? := by
    rw [keccak_packed]
    decide +kernel
  have distinct : ∀ b l, BranchOf keccak256 origin (grown {origin} ([light,lighter,heavy].map sampleWrite)) b l →
      (txHashes keccak256 l).Nodup := by
    intro b l branch
    obtain ⟨rest,first⟩ := branch.head
    have light_ : light ∈ grown {origin} ([light,lighter,heavy].map sampleWrite) := Or.inr (Or.inr (Or.inl rfl))
    rcases branch.mem_nodes tree.root b (by simp [first]) with same | same | same | same
    · rw [same] at branch
      rw [tree.branch_unique branch (heavy_branch (Or.inl rfl))]
      have apart : (sampleTx 1).hash keccak256 ≠ (sampleTx 0).hash keccak256 := fun same => differ (by rw [same])
      simpa [txHashes,heavy,origin] using apart
    · rw [same] at branch
      rw [tree.branch_unique branch (lighter_branch light_ (Or.inr (Or.inl rfl)))]
      simp [txHashes,lighter,light,origin]
    · rw [same] at branch
      rw [tree.branch_unique branch (light_branch light_)]
      simp [txHashes,light,origin]
    · rw [Set.mem_singleton_iff.mp same] at branch
      rw [tree.branch_unique branch .root]
      simp [txHashes,origin]
  have disk : ∀ w ∈ [light,lighter,heavy].map sampleWrite, w.batchWrite.isOk := by
    intro w member
    obtain ⟨b,-,rfl⟩ := mem_map.mp member
    rfl
  exact ⟨bc,outs,ran,lookups_follow ⟨rfl,rfl⟩ planted distinct disk ran⟩

end Canchain.Chain
