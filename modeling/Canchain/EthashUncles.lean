import Canchain.Ethash
import Canchain.Keccak

/-!
Uncles along a chain. `VerifyUncles` looks at seven ancestors only, and that is enough: the
number of an uncle leaves no room for a block further back to have included it, or to be it.
-/
namespace Canchain.Ethash
open Rlp Common Types State List Function Keccak

/-! Chains are lists of blocks, the newest first. -/

/-- Each block names the next one as its parent and has the number after it. -/
def Linked (keccak : Bytes → Hash) : List Block → Prop
  | [] => True
  | [_] => True
  | block :: parent :: rest =>
    block.parentHash = parent.hash keccak ∧ block.header.number = parent.header.number + 1 ∧ Linked keccak (parent :: rest)
/-- The reader has the ancestors of the first block, and no block before the last one. -/
def Serves (keccak : Bytes → Hash) (chain : ChainReader) : List Block → Prop
  | [] => True
  | [first] => chain.getBlock first.parentHash (before first.numberU64) = none
  | _ :: parent :: rest =>
    chain.getBlock (parent.hash keccak) parent.numberU64 = some parent ∧ Serves keccak chain (parent :: rest)
/-- Each block is accepted by `VerifyUncles`, by a reader that has its ancestors. -/
def Accepted (keccak : Bytes → Hash) (ethash : Engine) : List Block → Prop
  | [] => True
  | block :: below =>
    (∃ chain now, Serves keccak chain (block :: below) ∧ verifyUncles keccak ethash chain now block = .ok ()) ∧
      Accepted keccak ethash below
/-- The headers of the blocks of a chain and of their uncles. -/
def headers (blocks : List Block) : List Header := blocks.flatMap fun block => block.header :: block.uncles
/-- The hashes of all uncles that the blocks of a chain include. -/
def uncleHashes (keccak : Bytes → Hash) (blocks : List Block) : List Hash :=
  blocks.flatMap fun block => block.uncles.map (·.hash keccak)
variable {header uncle : Header} {uncles : List Header} {rounds : Nat}

section
variable {keccak : Bytes → Hash} {ethash : Engine} {chain : ChainReader} {now : Nat}

theorem verifyHeader_number {parent : Header} {uncle withSeal : Bool}
    (accepted : verifyHeader keccak ethash chain now header parent uncle withSeal = .ok ()) :
    header.number = parent.number + 1 := by
  by_contra wrong
  have refused : (header.number : Int) - parent.number ≠ 1 := by omega
  simp only [verifyHeader,refused,ne_eq,not_false_eq_true,if_true,bind,Except.bind,throw,throwThe,
    MonadExceptOf.throw] at accepted
  repeat' split at accepted
  all_goals cases accepted

variable {block ancestor : Block} {blocks below : List Block} {g : Gathered} {hash : Hash}
theorem before_succ {parent : Block} (next : block.header.number = parent.header.number + 1) :
    before block.numberU64 = parent.numberU64 := by
  simp only [before,Block.numberU64,Header.numberU64,next]
  omega
theorem gather_ancestors (rounds : Nat) (block : Block) (below : List Block) (g : Gathered)
    (linked : Linked keccak (block :: below)) (serves : Serves keccak chain (block :: below)) :
    gather keccak chain rounds block.parentHash (before block.numberU64) g =
      (below.take rounds).foldl (·.collect keccak) g := by
  induction rounds generalizing block below g with
  | zero => rfl
  | succ rounds ih =>
    cases below with
    | nil => simp [gather,show chain.getBlock _ _ = none from serves]
    | cons parent rest =>
      obtain ⟨named,next,linked⟩ := linked
      obtain ⟨found,serves⟩ := serves
      simp only [gather,named,before_succ next,found,take_succ_cons,foldl_cons]
      exact ih parent rest _ linked serves

/-- What is gathered for a block with these blocks in reach. -/
def gathered (keccak : Bytes → Hash) (block : Block) (window : List Block) : Gathered :=
  let g : Gathered := window.foldl (·.collect keccak) ⟨[],fun _ => none⟩
  { uncles := block.hash keccak :: g.uncles
    ancestors := Function.update g.ancestors (block.hash keccak) (some block.header) }

theorem mem_uncles_foldl :
    hash ∈ (blocks.foldl (·.collect keccak) g).uncles ↔ hash ∈ g.uncles ∨ hash ∈ uncleHashes keccak blocks := by
  induction blocks generalizing g with
  | nil => simp [uncleHashes]
  | cons block rest ih =>
    simp only [foldl_cons,ih,Gathered.collect,mem_append,mem_reverse,uncleHashes,flatMap_cons]
    tauto
theorem ancestors_foldl (found : (blocks.foldl (·.collect keccak) g).ancestors hash = some header) :
    g.ancestors hash = some header ∨ ∃ block ∈ blocks, block.hash keccak = hash ∧ block.header = header := by
  induction blocks generalizing g with
  | nil => exact .inl found
  | cons block rest ih =>
    rcases ih found with here | ⟨other,member,same⟩
    · by_cases isHash : hash = block.hash keccak
      · subst isHash
        simp only [Gathered.collect,update_self,Option.some.injEq] at here
        exact .inr ⟨block,mem_cons_self,rfl,here⟩
      · simp only [Gathered.collect,update_of_ne isHash] at here
        exact .inl here
    · exact .inr ⟨other,mem_cons_of_mem _ member,same⟩
theorem ancestors_isSome (present : (g.ancestors hash).isSome ∨ ∃ block ∈ blocks, block.hash keccak = hash) :
    ((blocks.foldl (·.collect keccak) g).ancestors hash).isSome := by
  induction blocks generalizing g with
  | nil => simpa using present
  | cons block rest ih =>
    apply ih
    by_cases isHash : hash = block.hash keccak
    · simp [Gathered.collect,isHash]
    · simp only [Gathered.collect,update_of_ne isHash]
      rcases present with before | ⟨other,member,same⟩
      · exact .inl before
      · rcases mem_cons.mp member with rfl | member
        · exact absurd same.symm isHash
        · exact .inr ⟨other,member,same⟩

/-! ### What an accepted block says about its uncles -/

/-- An uncle that passed the checks against what was gathered. -/
structure Passed (keccak : Bytes → Hash) (block : Block) (g : Gathered) (uncle : Header) : Prop where
  fresh : uncle.hash keccak ∉ g.uncles
  notAncestor : g.ancestors (uncle.hash keccak) = none
  notSibling : uncle.parentHash ≠ block.parentHash
  next : ∃ parent, g.ancestors uncle.parentHash = some parent ∧ uncle.number = parent.number + 1

theorem checkUncles_ok (accepted : checkUncles keccak ethash chain now block g uncles = .ok ()) :
    (uncles.map (·.hash keccak)).Nodup ∧ ∀ uncle ∈ uncles, Passed keccak block g uncle := by
  induction uncles generalizing g with
  | nil => simp
  | cons uncle rest ih =>
    simp only [checkUncles] at accepted
    repeat' split at accepted
    any_goals cases accepted
    rename_i fresh notAncestor _ parent isParent notSibling _ verified
    obtain ⟨distinct,passed⟩ := ih accepted
    refine ⟨nodup_cons.mpr ⟨?_,distinct⟩,?_⟩
    · intro again
      obtain ⟨other,member,same⟩ := mem_map.mp again
      exact (passed other member).fresh (same ▸ mem_cons_self)
    · intro other member
      rcases mem_cons.mp member with rfl | member
      · exact ⟨fresh,by simpa using notAncestor,notSibling,parent,isParent,verifyHeader_number verified⟩
      · obtain ⟨fresh',notAncestor',notSibling',next'⟩ := passed other member
        exact ⟨fun inside => fresh' (mem_cons_of_mem _ inside),notAncestor',notSibling',next'⟩

/-- An uncle of a block, against the blocks the look-back reaches. -/
structure Fresh (keccak : Bytes → Hash) (block : Block) (window : List Block) (uncle : Header) : Prop where
  notIncluded : uncle.hash keccak ∉ uncleHashes keccak window
  notBlock : uncle.hash keccak ≠ block.hash keccak
  notAncestor : ∀ ancestor ∈ window, uncle.hash keccak ≠ ancestor.hash keccak
  notSibling : uncle.parentHash ≠ block.parentHash
  next : uncle.parentHash = block.hash keccak ∨
    ∃ parent ∈ window, parent.hash keccak = uncle.parentHash ∧ uncle.number = parent.header.number + 1

theorem verifyUncles_ok (mode : ethash.powMode ≠ .fullFake)
    (linked : Linked keccak (block :: below)) (serves : Serves keccak chain (block :: below))
    (accepted : verifyUncles keccak ethash chain now block = .ok ()) :
    block.uncles.length ≤ maxUncles ∧ (block.uncles.map (·.hash keccak)).Nodup ∧
      ∀ uncle ∈ block.uncles, Fresh keccak block (below.take lookBack) uncle := by
  simp only [verifyUncles,mode,if_false,gather_ancestors _ _ _ _ linked serves] at accepted
  split at accepted
  · cases accepted
  rename_i few
  obtain ⟨distinct,passed⟩ := checkUncles_ok (g := gathered keccak block (below.take lookBack)) accepted
  refine ⟨by omega,distinct,fun uncle member => ?_⟩
  obtain ⟨fresh,notAncestor,notSibling,parent,isParent,next⟩ := passed uncle member
  simp only [gathered,mem_cons,not_or,mem_uncles_foldl] at fresh notAncestor isParent
  obtain ⟨notBlock,-,notIncluded⟩ := fresh
  rw [update_of_ne notBlock] at notAncestor
  refine ⟨notIncluded,notBlock,?_,notSibling,?_⟩
  · intro ancestor inside same
    have found := ancestors_isSome (g := ⟨[],fun _ => none⟩) (.inr ⟨ancestor,inside,same.symm⟩)
    rw [notAncestor] at found
    cases found
  · by_cases own : uncle.parentHash = block.hash keccak
    · exact .inl own
    · rw [update_of_ne own] at isParent
      rcases ancestors_foldl isParent with initial | ⟨ancestor,inside,same,rfl⟩
      · cases initial
      · exact .inr ⟨ancestor,inside,same,next⟩

variable (linked : Linked keccak (block :: below))
include linked
theorem Linked.tail : Linked keccak below := by
  cases below with
  | nil => trivial
  | cons parent rest => exact linked.2.2
/-- An ancestor that the look-back of some rounds reaches is that much lower at most; the first is the parent. -/
theorem Linked.reached (inside : ancestor ∈ below.take rounds) :
    ancestor.header.number < block.header.number ∧ block.header.number ≤ ancestor.header.number + rounds ∧
      (ancestor.header.number + 1 = block.header.number → ancestor.hash keccak = block.parentHash) := by
  induction rounds generalizing block below with
  | zero => simp at inside
  | succ rounds ih =>
    cases below with
    | nil => simp at inside
    | cons parent rest =>
      obtain ⟨named,next,linked⟩ := linked
      rcases mem_cons.mp (take_succ_cons ▸ inside) with rfl | inside
      · exact ⟨by omega,by omega,fun _ => named.symm⟩
      · obtain ⟨lower,near,-⟩ := ih linked inside
        exact ⟨by omega,by omega,by omega⟩
theorem Linked.lower (inside : ancestor ∈ below) : ancestor.header.number < block.header.number :=
  (linked.reached ((take_length (l := below)).symm ▸ inside)).1
/-- An ancestor that is not too far down is reached. -/
theorem Linked.reaches
    (inside : ancestor ∈ below) (near : block.header.number ≤ ancestor.header.number + rounds) :
    ancestor ∈ below.take rounds := by
  induction rounds generalizing block below with
  | zero =>
    have := linked.lower inside
    omega
  | succ rounds ih =>
    cases below with
    | nil => cases inside
    | cons parent rest =>
      rw [take_succ_cons]
      rcases mem_cons.mp inside with rfl | inside
      · exact mem_cons_self
      · exact mem_cons_of_mem _ (ih linked.2.2 inside (by have := linked.2.1; omega))

/-- An uncle that does not build on its own block is one to six below it. -/
theorem Fresh.number
    (fresh : Fresh keccak block (below.take lookBack) uncle) (foreign : uncle.parentHash ≠ block.hash keccak) :
    block.header.number ≤ uncle.number + 6 ∧ uncle.number + 1 ≤ block.header.number := by
  obtain own | ⟨parent,inside,named,next⟩ := fresh.next
  · exact absurd own foreign
  · obtain ⟨lower,near,first⟩ := linked.reached inside
    have notParent : parent.header.number + 1 ≠ block.header.number := fun isFirst =>
      fresh.notSibling (named.symm.trans (first isFirst))
    have : lookBack = 7 := rfl
    omega

end

/-- What holds of the uncles of a block, given the blocks below it. -/
structure Settled (keccak : Bytes → Hash) (block : Block) (below : List Block) : Prop where
  few : block.uncles.length ≤ maxUncles
  distinct : (block.uncles.map (·.hash keccak)).Nodup
  fresh : ∀ uncle ∈ block.uncles, Fresh keccak block (below.take lookBack) uncle
  range : ∀ uncle ∈ block.uncles, block.header.number ≤ uncle.number + 6 ∧ uncle.number + 1 ≤ block.header.number

/-- A predicate of every block of a chain and the blocks below it. -/
def Everywhere (P : Block → List Block → Prop) : List Block → Prop
  | [] => True
  | block :: below => P block below ∧ Everywhere P below

variable {block : Block}
variable {blocks : List Block}

theorem Everywhere.mem {P : Block → List Block → Prop}
    (everywhere : Everywhere P blocks) (member : block ∈ blocks) : ∃ below, P block below := by
  induction blocks with
  | nil => cases member
  | cons first below ih =>
    rcases mem_cons.mp member with rfl | member
    · exact ⟨below,everywhere.1⟩
    · exact ih everywhere.2 member

section
variable {keccak : Bytes → Hash} {ethash : Engine}

theorem settled (mode : ethash.powMode ≠ .fullFake) (linked : Linked keccak blocks) (accepted : Accepted keccak ethash blocks)
    (foreign : ∀ block ∈ blocks, ∀ uncle ∈ block.uncles, uncle.parentHash ≠ block.hash keccak) :
    Everywhere (Settled keccak) blocks := by
  induction blocks with
  | nil => trivial
  | cons block below ih =>
    obtain ⟨⟨chain,now,serves,verified⟩,accepted⟩ := accepted
    obtain ⟨few,distinct,fresh⟩ := verifyUncles_ok mode linked serves verified
    refine ⟨⟨few,distinct,fresh,fun uncle member => ?_⟩,ih linked.tail accepted fun b inside =>
      foreign b (mem_cons_of_mem _ inside)⟩
    exact (fresh uncle member).number linked (foreign block mem_cons_self uncle member)

theorem mem_headers : header ∈ headers blocks ↔ ∃ block ∈ blocks, header = block.header ∨ header ∈ block.uncles := by
  simp [headers]
theorem mem_uncleHashes {hash : Hash} :
    hash ∈ uncleHashes keccak blocks ↔ ∃ block ∈ blocks, ∃ uncle ∈ block.uncles, uncle.hash keccak = hash := by
  simp [uncleHashes]

/-- Headers of a chain are told apart by their hashes. -/
def CollisionFree (keccak : Bytes → Hash) (blocks : List Block) : Prop :=
  ∀ a ∈ headers blocks, ∀ b ∈ headers blocks, a.hash keccak = b.hash keccak → a = b

theorem CollisionFree.tail (free : CollisionFree keccak (block :: blocks)) : CollisionFree keccak blocks := by
  intro a inA b inB
  refine free a ?_ b ?_
  · exact mem_append_right _ inA
  · exact mem_append_right _ inB

/-- No hash is included twice: a block further down than the look-back reaches has lower uncles only. -/
theorem uncleHashes_nodup (free : CollisionFree keccak blocks) (linked : Linked keccak blocks)
    (everywhere : Everywhere (Settled keccak) blocks) : (uncleHashes keccak blocks).Nodup := by
  induction blocks with
  | nil => exact nodup_nil
  | cons block below ih =>
    obtain ⟨here,everywhere⟩ := everywhere
    refine nodup_append.mpr ⟨here.distinct,ih free.tail linked.tail everywhere,?_⟩
    rintro _ included hash again rfl
    obtain ⟨uncle,member,rfl⟩ := mem_map.mp included
    obtain ⟨ancestor,inside,other,member',same⟩ := mem_uncleHashes.mp again
    have equal : other = uncle := free other
      (mem_headers.mpr ⟨ancestor,mem_cons_of_mem _ inside,.inr member'⟩) uncle
      (mem_headers.mpr ⟨block,mem_cons_self,.inr member⟩) same
    subst equal
    have high := (here.range other member).1
    obtain ⟨_,there⟩ := everywhere.mem inside
    have low := (there.range other member').2
    have reached : ancestor ∈ below.take lookBack := linked.reaches inside (by simp only [lookBack]; omega)
    exact (here.fresh other member).notIncluded (mem_uncleHashes.mpr ⟨ancestor,reached,other,member',rfl⟩)

/-- No uncle is a block of the chain, below or above the block that includes it. -/
theorem uncle_not_block (free : CollisionFree keccak blocks) (linked : Linked keccak blocks)
    (everywhere : Everywhere (Settled keccak) blocks) :
    ∀ block ∈ blocks, ∀ uncle ∈ block.uncles, ∀ other ∈ blocks, uncle.hash keccak ≠ other.hash keccak := by
  induction blocks with
  | nil => exact fun _ member => by cases member
  | cons first below ih =>
    obtain ⟨here,everywhere⟩ := everywhere
    intro block member uncle isUncle other member' same
    have equal : uncle = other.header := free uncle (mem_headers.mpr ⟨block,member,.inr isUncle⟩) other.header
      (mem_headers.mpr ⟨other,member',.inl rfl⟩) same
    rcases mem_cons.mp member with rfl | member
    · have range := here.range uncle isUncle
      rcases mem_cons.mp member' with rfl | member'
      · exact (here.fresh uncle isUncle).notBlock same
      · have reached : other ∈ below.take lookBack := linked.reaches member' (by simp only [← equal,lookBack]; omega)
        exact (here.fresh uncle isUncle).notAncestor other reached same
    · obtain ⟨_,there⟩ := everywhere.mem member
      rcases mem_cons.mp member' with isFirst | member'
      · have range := there.range uncle isUncle
        have lower := linked.lower member
        rw [← isFirst] at lower
        rw [equal] at range
        omega
      · exact ih free.tail linked.tail everywhere block member uncle isUncle other member' same

variable (config : ChainConfig)
theorem blockReward_cases (number : Nat) : blockReward config number = frontierBlockReward ∨
    blockReward config number = byzantiumBlockReward ∨ blockReward config number = constantinopleBlockReward := by
  simp only [blockReward]
  split
  · exact .inr (.inr rfl)
  · split
    · exact .inr (.inl rfl)
    · exact .inl rfl
/-- The reward of an uncle. -/
def uncleReward (config : ChainConfig) (header uncle : Header) : Int :=
  ((uncle.number : Int) + 8 - header.number) * blockReward config header.number / 8
/-- What the miner gets on top of the block reward. -/
def bonus (config : ChainConfig) (header : Header) (uncles : List Header) : Int :=
  uncles.length * (blockReward config header.number / 32)

/-- The rewards as payments: one to each uncle's coinbase, then one to the miner. -/
theorem accumulateRewards_pays (state : StateDB) (header : Header) (uncles : List Header) :
    accumulateRewards keccak config state header uncles =
      (uncles.foldl (fun state uncle => state.addBalance keccak uncle.coinbase (uncleReward config header uncle)) state).addBalance
        keccak header.coinbase (blockReward config header.number + bonus config header uncles) := by
  have rounds : ∀ (state : StateDB) (reward : Int),
      uncles.foldl (rewardUncle keccak (blockReward config header.number) header) (state,reward) =
        (uncles.foldl (fun state uncle => state.addBalance keccak uncle.coinbase (uncleReward config header uncle)) state,
          reward + bonus config header uncles) := by
    induction uncles with
    | nil => simp [bonus]
    | cons uncle rest ih =>
      intro state reward
      simp only [foldl_cons,rewardUncle,ih]
      refine Prod.ext rfl ?_
      simp only [bonus,length_cons,Nat.cast_add,Nat.cast_one]
      ring
  simp [accumulateRewards,rounds]

theorem uncleReward_bounds
    (range : header.number ≤ uncle.number + 6 ∧ uncle.number + 1 ≤ header.number) :
    2 * blockReward config header.number ≤ 8 * uncleReward config header uncle ∧
      8 * uncleReward config header uncle ≤ 7 * blockReward config header.number ∧ 0 < uncleReward config header uncle := by
  obtain ⟨high,low⟩ := range
  unfold uncleReward
  rcases blockReward_cases config header.number with reward | reward | reward <;>
    simp only [reward,frontierBlockReward,byzantiumBlockReward,constantinopleBlockReward] <;> omega
theorem bonus_bounds (header : Header) (few : uncles.length ≤ maxUncles) :
    0 ≤ bonus config header uncles ∧ 32 * bonus config header uncles ≤ 2 * blockReward config header.number := by
  simp only [maxUncles] at few
  unfold bonus
  rcases blockReward_cases config header.number with reward | reward | reward <;>
    simp only [reward,frontierBlockReward,byzantiumBlockReward,constantinopleBlockReward] <;> omega

/-- Along a chain of accepted blocks whose uncles do not build on the block that includes them, no uncle is included twice,
    none is a block of the chain, all are one to six below their block, and the rewards are in proportion. -/
theorem uncles_rewarded_once (keccak : Bytes → Hash) (ethash : Engine) (blocks : List Block)
    (free : CollisionFree keccak blocks) (mode : ethash.powMode ≠ .fullFake) (linked : Linked keccak blocks)
    (accepted : Accepted keccak ethash blocks)
    (foreign : ∀ block ∈ blocks, ∀ uncle ∈ block.uncles, uncle.parentHash ≠ block.hash keccak) :
    (uncleHashes keccak blocks).Nodup ∧
    (∀ block ∈ blocks, ∀ uncle ∈ block.uncles, ∀ other ∈ blocks, uncle.hash keccak ≠ other.hash keccak) ∧
    (∀ block ∈ blocks, ∀ uncle ∈ block.uncles,
      block.header.number ≤ uncle.number + 6 ∧ uncle.number + 1 ≤ block.header.number) ∧
    ∀ block ∈ blocks, ∀ (config : ChainConfig) (state : StateDB),
      accumulateRewards keccak config state block.header block.uncles =
        (block.uncles.foldl (fun state uncle =>
          state.addBalance keccak uncle.coinbase (uncleReward config block.header uncle)) state).addBalance
          keccak block.header.coinbase (blockReward config block.header.number + bonus config block.header block.uncles) ∧
      (∀ uncle ∈ block.uncles,
        2 * blockReward config block.header.number ≤ 8 * uncleReward config block.header uncle ∧
        8 * uncleReward config block.header uncle ≤ 7 * blockReward config block.header.number ∧
        0 < uncleReward config block.header uncle) ∧
      0 ≤ bonus config block.header block.uncles ∧
      32 * bonus config block.header block.uncles ≤ 2 * blockReward config block.header.number := by
  have everywhere := settled mode linked accepted foreign
  refine ⟨uncleHashes_nodup free linked everywhere,uncle_not_block free linked everywhere,?_,?_⟩
  · intro block member
    obtain ⟨_,here⟩ := everywhere.mem member
    exact here.range
  · intro block member config state
    obtain ⟨_,here⟩ := everywhere.mem member
    exact ⟨accumulateRewards_pays config state block.header block.uncles,
      fun uncle isUncle => uncleReward_bounds config (here.range uncle isUncle),bonus_bounds config block.header here.few⟩

end

/-! ### A chain with an uncle -/

def sampleHeader (parent uncleHash : Hash) (coinbase : Bytes) (number time difficulty : Nat) : Header :=
  { parentHash := parent, uncleHash := uncleHash, coinbase := bytesToAddress coinbase, root := .zero, txHash := .zero,
    receiptHash := .zero, bloom := .zero, difficulty := difficulty, number := number, gasLimit := 5000, gasUsed := 0,
    time := time, extra := [], mixDigest := .zero, nonce := .zero }
def emptyUncleHash : Hash := bytesToHash (putint 0x1dcc4de8dec75d7aab85b567b6ccd41ad312451b948a7413f0a142fd40d49347)
def genesisHash : Hash := bytesToHash (putint 0x679d8bc15035105e1b025688de1a41e589572726ba487bdfb77a56c85ac99e8b)
def firstHash : Hash := bytesToHash (putint 0x7b9c2017e1743060a811bd0c68521507ac159849b2c61cd831fa74f7a2c442ae)
def uncleListHash : Hash := bytesToHash (putint 0xe8142f42a8c18b9e06d7c171d95895b61d342c4a0c149095f72753facb9e488a)
def genesisBlock : Block := ⟨sampleHeader .zero emptyUncleHash [] 0 0 131072,[],[]⟩
def firstBlock : Block := ⟨sampleHeader genesisHash emptyUncleHash [1] 1 10 131136,[],[]⟩
/-- A block next to the first one, and the block that includes it. -/
def sampleUncle : Header := sampleHeader genesisHash emptyUncleHash [2] 1 12 131136
def secondBlock : Block := ⟨sampleHeader firstHash uncleListHash [1] 2 20 131200,[sampleUncle],[]⟩
/-- A header on top of the first block, and the first block with it as its uncle. -/
def childOfFirst : Header := sampleHeader firstHash emptyUncleHash [2] 2 20 131200
def selfParent : Block := { firstBlock with uncles := [childOfFirst] }

/-- No fork is planned, and seals are faked. -/
def frontier : ChainConfig := ⟨none,none,false,none,.zero,none,none⟩
def faker : Engine := ⟨.fake,false,0,fun _ _ _ _ => ([],[])⟩
def sampleReader (blocks : List (Hash × Block)) : ChainReader where
  config := frontier
  getHeader hash number := (blocks.find? fun b => b.1 = hash ∧ b.2.numberU64 = number).map (·.2.header)
  getBlock hash number := (blocks.find? fun b => b.1 = hash ∧ b.2.numberU64 = number).map (·.2)

theorem sample_hashes : (genesisBlock.hash keccak256 = genesisHash ∧ firstBlock.hash keccak256 = firstHash) ∧
    sampleUncle.parentHash ≠ secondBlock.hash keccak256 ∧
    ((headers [secondBlock,firstBlock,genesisBlock]).map (·.hash keccak256)).Nodup ∧
    ((headers [selfParent,genesisBlock]).map (·.hash keccak256)).Nodup := by
  rw [keccak_packed]
  decide +kernel
theorem genesisBlock_hash : genesisBlock.hash keccak256 = genesisHash := sample_hashes.1.1
theorem firstBlock_hash : firstBlock.hash keccak256 = firstHash := sample_hashes.1.2

theorem collisionFree_of_nodup {keccak : Bytes → Hash}
    (distinct : ((headers blocks).map (·.hash keccak)).Nodup) : CollisionFree keccak blocks :=
  fun _ inA _ inB => inj_on_of_nodup_map distinct inA inB
theorem sample_linked : Linked keccak256 [secondBlock,firstBlock,genesisBlock] :=
  ⟨firstBlock_hash.symm,rfl,genesisBlock_hash.symm,rfl,trivial⟩
theorem sample_serves : Serves keccak256 (sampleReader [(genesisHash,genesisBlock),(firstHash,firstBlock)])
    [secondBlock,firstBlock,genesisBlock] := by
  refine ⟨?_,?_,rfl⟩
  · rw [firstBlock_hash]
    decide +kernel
  · rw [genesisBlock_hash]
    decide +kernel
theorem genesis_serves : Serves keccak256 (sampleReader [(genesisHash,genesisBlock)]) [block,genesisBlock] := by
  refine ⟨?_,rfl⟩
  rw [genesisBlock_hash]
  decide +kernel
theorem genesis_accepted : Accepted keccak256 faker [genesisBlock] := ⟨⟨sampleReader [],0,rfl,rfl⟩,trivial⟩
theorem sample_verified : verifyUncles keccak256 faker (sampleReader [(genesisHash,genesisBlock),(firstHash,firstBlock)]) 0 secondBlock =
    .ok () ∧ verifyUncles keccak256 faker (sampleReader [(genesisHash,genesisBlock)]) 0 selfParent = .ok () := by
  rw [keccak_packed]
  decide +kernel

theorem uncles_rewarded_once_sample : (uncleHashes Keccak.keccak256 [secondBlock,firstBlock,genesisBlock]).Nodup ∧
    sampleUncle.hash Keccak.keccak256 ≠ firstBlock.hash Keccak.keccak256 ∧
    8 * uncleReward frontier secondBlock.header sampleUncle = 7 * blockReward frontier 2 ∧
    ∀ state, accumulateRewards Keccak.keccak256 frontier state secondBlock.header secondBlock.uncles =
      (state.addBalance Keccak.keccak256 sampleUncle.coinbase (uncleReward frontier secondBlock.header sampleUncle)).addBalance
        Keccak.keccak256 secondBlock.header.coinbase (blockReward frontier 2 + bonus frontier secondBlock.header [sampleUncle]) := by
  have accepted : Accepted keccak256 faker [secondBlock,firstBlock,genesisBlock] :=
    ⟨⟨_,0,sample_serves,sample_verified.1⟩,⟨_,0,genesis_serves,rfl⟩,genesis_accepted⟩
  have free : CollisionFree keccak256 [secondBlock,firstBlock,genesisBlock] := collisionFree_of_nodup sample_hashes.2.2.1
  have foreign : ∀ block ∈ [secondBlock,firstBlock,genesisBlock], ∀ uncle ∈ block.uncles,
      uncle.parentHash ≠ block.hash keccak256 := by
    intro block member uncle isUncle
    rcases mem_cons.mp member with rfl | member
    · obtain rfl : uncle = sampleUncle := mem_singleton.mp isUncle
      exact sample_hashes.2.1
    · rcases mem_cons.mp member with rfl | member
      · cases isUncle
      · obtain rfl := mem_singleton.mp member
        cases isUncle
  obtain ⟨once,apart,-,rewards⟩ := uncles_rewarded_once keccak256 faker [secondBlock,firstBlock,genesisBlock]
    free (by decide) sample_linked accepted foreign
  refine ⟨once,apart secondBlock mem_cons_self _ mem_cons_self firstBlock (by simp),by decide,fun state => ?_⟩
  exact (rewards secondBlock mem_cons_self frontier state).1

/-- A header on top of a block, included by that same block: `VerifyUncles` accepts it, and pays it nine eighths. -/
theorem uncle_on_own_block : Accepted Keccak.keccak256 faker [selfParent,genesisBlock] ∧
    Linked Keccak.keccak256 [selfParent,genesisBlock] ∧ CollisionFree Keccak.keccak256 [selfParent,genesisBlock] ∧
    childOfFirst ∈ selfParent.uncles ∧ childOfFirst.number = selfParent.header.number + 1 ∧
    8 * uncleReward frontier selfParent.header childOfFirst = 9 * blockReward frontier selfParent.header.number :=
  ⟨⟨⟨_,0,genesis_serves,sample_verified.2⟩,genesis_accepted⟩,⟨genesisBlock_hash.symm,rfl,trivial⟩,
    collisionFree_of_nodup sample_hashes.2.2.2,mem_cons_self,rfl,by decide⟩

end Canchain.Ethash
