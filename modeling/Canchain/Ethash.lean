import Canchain.State
import Canchain.Types

/-!
The rules of `lib/consensus/ethash/consensus.go`: the difficulty, the checks on headers and
uncles, and the rewards. The proof of work and the clock are parameters.
-/
namespace Canchain.Ethash
open Rlp Common Types State

/-- The forks of `params.ChainConfig` that the engine asks for; one that is not planned is `none`. -/
structure ChainConfig where
  homesteadBlock : Option Nat
  daoForkBlock : Option Nat
  daoForkSupport : Bool
  eip150Block : Option Nat
  eip150Hash : Hash
  byzantiumBlock : Option Nat
  constantinopleBlock : Option Nat

def isForked (s : Option Nat) (head : Nat) : Bool := s.any (· ≤ head)

namespace ChainConfig

def isHomestead (c : ChainConfig) : Nat → Bool := isForked c.homesteadBlock
def isByzantium (c : ChainConfig) : Nat → Bool := isForked c.byzantiumBlock
def isConstantinople (c : ChainConfig) : Nat → Bool := isForked c.constantinopleBlock

end ChainConfig

/-- The modes of the engine. -/
inductive Mode where
  | normal
  | shared
  | test
  | fake
  | fullFake
  deriving DecidableEq

/-- The engine: its mode, whether it hands seals to the shared engine (which has the normal
    mode), the number a faked engine fails at, and the proof-of-work hash of a seal hash and a
    nonce for a block number, over the small dataset of the test mode or the real one. -/
structure Engine where
  powMode : Mode
  shared : Bool
  fakeFail : Nat
  hashimotoLight : Bool → Nat → Hash → Bytes → Bytes × Bytes
/-- `consensus.ChainReader`, as far as the engine reads it. -/
structure ChainReader where
  config : ChainConfig
  getHeader : Hash → Nat → Option Header
  getBlock : Hash → Nat → Option Block

inductive EthashError where
  /-- "timestamp too big" -/
  | largeBlockTime
  /-- "timestamp equals parent's" -/
  | zeroBlockTime
  /-- "too many uncles" -/
  | tooManyUncles
  /-- "duplicate uncle" -/
  | duplicateUncle
  /-- "uncle is ancestor" -/
  | uncleIsAncestor
  /-- "uncle's parent is not ancestor" -/
  | danglingUncle
  /-- "non-positive difficulty" -/
  | invalidDifficulty
  /-- "invalid mix digest" -/
  | invalidMixDigest
  /-- "invalid proof-of-work" -/
  | invalidPoW
  /-- "unknown ancestor" -/
  | unknownAncestor
  /-- "block in the future" -/
  | futureBlock
  /-- "invalid block number" -/
  | invalidNumber
  /-- "extra-data too long: %d > %d" -/
  | extraTooLong (have_ max : Nat)
  /-- "invalid difficulty: have %v, want %v" -/
  | wrongDifficulty (have_ : Nat) (want : Int)
  /-- "invalid gasLimit: have %v, max %v" -/
  | gasLimitTooHigh (have_ max : UInt64)
  /-- "invalid gasUsed: have %d, gasLimit %d" -/
  | gasUsedTooHigh (have_ gasLimit : UInt64)
  /-- "invalid gas limit: have %d, want %d += %d" -/
  | gasLimitOutOfBounds (have_ want limit : UInt64)
  /-- "bad DAO pro-fork extra-data" -/
  | badProDAOExtra
  /-- "bad DAO no-fork extra-data" -/
  | badNoDAOExtra
  /-- "homestead gas reprice fork: have 0x%x, want 0x%x" -/
  | wrongForkHash (have_ want : Hash)
  deriving DecidableEq

/-! ### Difficulty -/

def difficultyBoundDivisor : Int := 2048
def minimumDifficulty : Int := 131072
def durationLimit : Int := 13
def expDiffPeriod : Int := 100000

/-- The ice age: what a period count adds to a difficulty. -/
def bomb (periodCount : Int) : Int := if 1 < periodCount then 2 ^ (periodCount - 2).toNat else 0
/-- The difficulty that a factor of the parent's adjustment gives, at least the minimum. -/
def adjusted (parent : Header) (x : Int) : Int :=
  max (parent.difficulty + (parent.difficulty : Int) / difficultyBoundDivisor * max x (-99)) minimumDifficulty

def makeDifficultyCalculator (keccak : Bytes → Hash) (bombDelay : Int) (time : Nat) (parent : Header) : Int :=
  let bombDelayFromParent := bombDelay - 1
  let x := ((time : Int) - parent.time) / 9
  let x := adjusted parent (if parent.uncleHash = calcUncleHash keccak [] then 1 - x else 2 - x)
  let fakeBlockNumber := if bombDelayFromParent ≤ parent.number then (parent.number : Int) - bombDelayFromParent else 0
  x + bomb (fakeBlockNumber / expDiffPeriod)
def calcDifficultyConstantinople (keccak : Bytes → Hash) : Nat → Header → Int := makeDifficultyCalculator keccak 5000000
def calcDifficultyByzantium (keccak : Bytes → Hash) : Nat → Header → Int := makeDifficultyCalculator keccak 3000000
def calcDifficultyHomestead (time : Nat) (parent : Header) : Int :=
  adjusted parent (1 - ((time : Int) - parent.time) / 10) + bomb (((parent.number : Int) + 1) / expDiffPeriod)
/-- The first rule: one step up or down, whichever side of the duration limit the block is on. -/
def calcDifficultyFrontier (time : Nat) (parent : Header) : Int :=
  let adjust := (parent.difficulty : Int) / difficultyBoundDivisor
  let diff := if (time : Int) - parent.time < durationLimit then parent.difficulty + adjust else parent.difficulty - adjust
  let diff := max diff minimumDifficulty
  let periodCount := ((parent.number : Int) + 1) / expDiffPeriod
  if 1 < periodCount then max (diff + bomb periodCount) minimumDifficulty else diff
def calcDifficulty (keccak : Bytes → Hash) (config : ChainConfig) (time : Nat) (parent : Header) : Int :=
  let next := parent.number + 1
  if config.isConstantinople next then calcDifficultyConstantinople keccak time parent
  else if config.isByzantium next then calcDifficultyByzantium keccak time parent
  else if config.isHomestead next then calcDifficultyHomestead time parent
  else calcDifficultyFrontier time parent

/-! ### Headers -/

/-- "dao-hard-fork" -/
def daoForkBlockExtra : Bytes := [0x64,0x61,0x6f,0x2d,0x68,0x61,0x72,0x64,0x2d,0x66,0x6f,0x72,0x6b]
def daoForkExtraRange : Nat := 10
def verifyDAOHeaderExtraData (config : ChainConfig) (header : Header) : Except EthashError Unit :=
  match config.daoForkBlock with
  | none => .ok ()
  | some fork =>
    if header.number < fork ∨ fork + daoForkExtraRange ≤ header.number then .ok ()
    else if config.daoForkSupport then
      if header.extra ≠ daoForkBlockExtra then .error .badProDAOExtra else .ok ()
    else if header.extra = daoForkBlockExtra then .error .badNoDAOExtra else .ok ()
def verifyForkHashes (keccak : Bytes → Hash) (config : ChainConfig) (header : Header) (uncle : Bool) :
    Except EthashError Unit :=
  if uncle then .ok ()
  else if config.eip150Block = some header.number ∧ config.eip150Hash ≠ .zero ∧
      config.eip150Hash ≠ header.hash keccak then .error (.wrongForkHash (header.hash keccak) config.eip150Hash)
  else .ok ()

def sealHash (keccak : Bytes → Hash) (h : Header) : Hash :=
  keccak (encodeList (encodeString h.parentHash.bytes ++ (encodeString h.uncleHash.bytes ++
    (encodeString h.coinbase.bytes ++ (encodeString h.root.bytes ++ (encodeString h.txHash.bytes ++
    (encodeString h.receiptHash.bytes ++ (encodeString h.bloom.bytes ++ (encodeInt h.difficulty ++ (encodeInt h.number ++
    (encodeInt h.gasLimit.toNat ++ (encodeInt h.gasUsed.toNat ++ (encodeInt h.time ++ encodeString h.extra)))))))))))))
/-- `VerifySeal`: with the cache and never with the full dataset. -/
def verifySeal (keccak : Bytes → Hash) (ethash : Engine) (header : Header) : Except EthashError Unit :=
  if ethash.powMode = .fake ∨ ethash.powMode = .fullFake then
    if ethash.fakeFail = header.numberU64 then .error .invalidPoW else .ok ()
  else if header.difficulty = 0 then .error .invalidDifficulty
  else
    let small := !ethash.shared && ethash.powMode = .test
    let (digest,result) := ethash.hashimotoLight small header.numberU64 (sealHash keccak header) header.nonce.bytes
    if header.mixDigest.bytes ≠ digest then .error .invalidMixDigest
    else if 2^256 / header.difficulty < getint result then .error .invalidPoW
    else .ok ()

def maximumExtraDataSize : Nat := 32
def gasLimitBoundDivisor : UInt64 := 1024
def minGasLimit : UInt64 := 5000
def allowedFutureBlockTime : Nat := 15
def gasLimitCap : UInt64 := 0x7fffffffffffffff
/-- The distance of two gas limits, in signed words of 64 bits. -/
def gasLimitDiff (parent header : UInt64) : UInt64 :=
  let diff := parent.toInt64 - header.toInt64
  (if diff < 0 then diff * (-1) else diff).toUInt64

/-- `verifyHeader`, at the time `now`. -/
def verifyHeader (keccak : Bytes → Hash) (ethash : Engine) (chain : ChainReader) (now : Nat) (header parent : Header)
    (uncle withSeal : Bool) : Except EthashError Unit := do
  if maximumExtraDataSize < header.extra.length then
    throw (.extraTooLong header.extra.length maximumExtraDataSize)
  if uncle then
    if 2^256 - 1 < header.time then throw .largeBlockTime
  else
    if now + allowedFutureBlockTime < header.time then throw .futureBlock
  if header.time ≤ parent.time then throw .zeroBlockTime
  let expected := calcDifficulty keccak chain.config (header.time % 2^64) parent
  if expected ≠ header.difficulty then throw (.wrongDifficulty header.difficulty expected)
  if gasLimitCap < header.gasLimit then throw (.gasLimitTooHigh header.gasLimit gasLimitCap)
  if header.gasLimit < header.gasUsed then throw (.gasUsedTooHigh header.gasUsed header.gasLimit)
  let limit := parent.gasLimit / gasLimitBoundDivisor
  if limit ≤ gasLimitDiff parent.gasLimit header.gasLimit ∨ header.gasLimit < minGasLimit then
    throw (.gasLimitOutOfBounds header.gasLimit parent.gasLimit limit)
  if (header.number : Int) - parent.number ≠ 1 then throw .invalidNumber
  if withSeal then verifySeal keccak ethash header
  verifyDAOHeaderExtraData chain.config header
  verifyForkHashes keccak chain.config header uncle
/-- `number - 1` in an unsigned word of 64 bits. -/
def before (number : Nat) : Nat := (number + (2^64 - 1)) % 2^64

/-! ### Uncles -/

def maxUncles : Nat := 2
/-- The look-back of `VerifyUncles`. -/
def lookBack : Nat := 7
/-- What `VerifyUncles` has gathered: the hashes that may not be included and the headers an uncle may build on. -/
structure Gathered where
  uncles : List Hash
  ancestors : Hash → Option Header
/-- An ancestor is an allowed parent, and its uncles are taken. -/
def Gathered.collect (keccak : Bytes → Hash) (g : Gathered) (ancestor : Block) : Gathered where
  uncles := (ancestor.uncles.map (·.hash keccak)).reverse ++ g.uncles
  ancestors := Function.update g.ancestors (ancestor.hash keccak) (some ancestor.header)
/-- The loop over the ancestors, from the block of the given hash and number on. -/
def gather (keccak : Bytes → Hash) (chain : ChainReader) : Nat → Hash → Nat → Gathered → Gathered
  | 0, _, _, g => g
  | rounds+1, parent, number, g =>
    match chain.getBlock parent number with
    | none => g
    | some ancestor => gather keccak chain rounds ancestor.parentHash (before number) (g.collect keccak ancestor)
/-- The loop over the uncles of a block. -/
def checkUncles (keccak : Bytes → Hash) (ethash : Engine) (chain : ChainReader) (now : Nat) (block : Block) :
    Gathered → List Header → Except EthashError Unit
  | _, [] => .ok ()
  | g, uncle :: rest =>
    let hash := uncle.hash keccak
    if hash ∈ g.uncles then .error .duplicateUncle
    else if (g.ancestors hash).isSome then .error .uncleIsAncestor
    else match g.ancestors uncle.parentHash with
    | none => .error .danglingUncle
    | some parent =>
      if uncle.parentHash = block.parentHash then .error .danglingUncle
      else match verifyHeader keccak ethash chain now uncle parent true true with
      | .error err => .error err
      | .ok () => checkUncles keccak ethash chain now block { g with uncles := hash :: g.uncles } rest
def verifyUncles (keccak : Bytes → Hash) (ethash : Engine) (chain : ChainReader) (now : Nat) (block : Block) :
    Except EthashError Unit :=
  if ethash.powMode = .fullFake then .ok ()
  else if maxUncles < block.uncles.length then .error .tooManyUncles
  else
    let g := gather keccak chain lookBack block.parentHash (before block.numberU64) ⟨[],fun _ => none⟩
    checkUncles keccak ethash chain now block
      { uncles := block.hash keccak :: g.uncles
        ancestors := Function.update g.ancestors (block.hash keccak) (some block.header) } block.uncles

/-! ### Rewards -/

def frontierBlockReward : Int := 5 * 10^18
def byzantiumBlockReward : Int := 3 * 10^18
def constantinopleBlockReward : Int := 2 * 10^18
/-- The reward of a block at a height. -/
def blockReward (config : ChainConfig) (number : Nat) : Int :=
  let reward := if config.isByzantium number then byzantiumBlockReward else frontierBlockReward
  if config.isConstantinople number then constantinopleBlockReward else reward
/-- One round of the loop of `accumulateRewards`: the state and the reward of the miner so far. -/
def rewardUncle (keccak : Bytes → Hash) (blockReward : Int) (header : Header) (acc : StateDB × Int) (uncle : Header) :
    StateDB × Int :=
  let r := ((uncle.number : Int) + 8 - header.number) * blockReward / 8
  (acc.1.addBalance keccak uncle.coinbase r,acc.2 + blockReward / 32)
def accumulateRewards (keccak : Bytes → Hash) (config : ChainConfig) (state : StateDB) (header : Header)
    (uncles : List Header) : StateDB :=
  let blockReward := blockReward config header.number
  let (state,reward) := uncles.foldl (rewardUncle keccak blockReward header) (state,blockReward)
  state.addBalance keccak header.coinbase reward

end Canchain.Ethash
