import Canchain.Types

/-!
The engine of `lib/consensus/clique`: the snapshots of the signers and their votes, the
replay of headers, and the checks of `verifySeal` and `Seal`. A Go map is a function, the
signers are a finite set and the recent ones a list of numbers with their signers. The
recovery of a public key is a parameter.
-/
namespace Canchain.Clique
open Rlp Common Types

/-- What the engine takes from `lib/crypto`. -/
structure Crypto where
  keccak : Bytes → Hash
  ecrecover : Hash → Bytes → Except String Bytes

inductive CliqueError where
  | unknownBlock
  | invalidVote
  | missingSignature
  | wrongDifficulty
  | invalidVotingChain
  | unauthorizedSigner
  | recentlySigned
  | unknownAncestor
  | ecrecover (text : String)
  deriving DecidableEq
def CliqueError.text : CliqueError → String
  | unknownBlock => "unknown block"
  | invalidVote => "vote nonce not 0x00..0 or 0xff..f"
  | missingSignature => "extra-data 65 byte signature suffix missing"
  | wrongDifficulty => "wrong difficulty"
  | invalidVotingChain => "invalid voting chain"
  | unauthorizedSigner => "unauthorized signer"
  | recentlySigned => "recently signed"
  | unknownAncestor => "unknown ancestor"
  | ecrecover text => text

/-- `params.CliqueConfig` as `New` keeps it: an epoch of zero was replaced. -/
structure CliqueConfig where
  period : Nat
  epoch : Nat
  positive : 0 < epoch
def epochLength : Nat := 30000
/-- The configuration of `New`. -/
def newConfig (period epoch : Nat) : CliqueConfig :=
  if zero : epoch = 0 then ⟨period,epochLength,by decide⟩ else ⟨period,epoch,Nat.pos_of_ne_zero zero⟩

structure Vote where
  signer : Address
  block : Nat
  address : Address
  authorize : Bool
  deriving DecidableEq
/-- `vote.Signer == signer && vote.Address == address` -/
def Vote.isOf (signer address : Address) (v : Vote) : Bool := v.signer = signer && v.address = address
structure Tally where
  authorize : Bool
  votes : Nat
  deriving DecidableEq
structure Snapshot where
  number : Nat
  hash : Hash
  signers : Finset Address
  recents : List (Nat × Address)
  votes : List Vote
  tally : Address → Option Tally

def extraVanity : Nat := 32
def extraSeal : Nat := 65
def nonceAuthVote : Bytes := List.replicate 8 0xff
def nonceDropVote : Bytes := List.replicate 8 0

def newSnapshot (number : Nat) (hash : Hash) (signers : List Address) : Snapshot :=
  ⟨number,hash,signers.toFinset,[],[],fun _ => none⟩

/-- The hash that is signed: the header without the signature at the end of its extra data. -/
def sigHash (crypto : Crypto) (header : Header) : Hash :=
  { header with extra := header.extra.take (header.extra.length - extraSeal) }.hash crypto.keccak
/-- The address of the account that signed the header. -/
def ecrecover (crypto : Crypto) (header : Header) : Except CliqueError Address :=
  if header.extra.length < extraSeal then .error .missingSignature
  else
    let signature := header.extra.drop (header.extra.length - extraSeal)
    match crypto.ecrecover (sigHash crypto header) signature with
    | .error text => .error (.ecrecover text)
    | .ok pubkey => .ok (bytesToAddress ((crypto.keccak (pubkey.drop 1)).bytes.drop 12))

namespace Snapshot

def validVote (s : Snapshot) (address : Address) (authorize : Bool) : Bool :=
  let signer := decide (address ∈ s.signers)
  (signer && !authorize) || (!signer && authorize)
def setTally (s : Snapshot) (address : Address) (tally : Option Tally) : Snapshot :=
  { s with tally := Function.update s.tally address tally }
def withSigners (s : Snapshot) (signers : Finset Address) : Snapshot := { s with signers := signers }
def cast (s : Snapshot) (address : Address) (authorize : Bool) : Bool × Snapshot :=
  if s.validVote address authorize then
    match s.tally address with
    | some old => (true,s.setTally address (some { old with votes := old.votes + 1 }))
    | none => (true,s.setTally address (some ⟨authorize,1⟩))
  else (false,s)
def uncast (s : Snapshot) (address : Address) (authorize : Bool) : Snapshot :=
  match s.tally address with
  | none => s
  | some tally =>
    if tally.authorize ≠ authorize then s
    else if tally.votes > 1 then s.setTally address (some { tally with votes := tally.votes - 1 })
    else s.setTally address none

/-- The number of consecutive blocks of which a signer may sign one. -/
def limit (s : Snapshot) : Nat := s.signers.card / 2 + 1
/-- `delete(snap.Recents, number-limit)`, once there are that many blocks. -/
def expire (s : Snapshot) (number : Nat) : Snapshot :=
  if number ≥ s.limit then { s with recents := s.recents.filter fun r => r.1 ≠ number - s.limit } else s
/-- Votes do not outlive their epoch. -/
def reset (s : Snapshot) (cfg : CliqueConfig) (number : Nat) : Snapshot :=
  if number % cfg.epoch = 0 then { s with votes := [], tally := fun _ => none } else s
/-- `snap.Recents[number] = signer` -/
def sign (s : Snapshot) (number : Nat) (signer : Address) : Snapshot :=
  { s with recents := (number,signer) :: s.recents.filter fun r => r.1 ≠ number }
/-- The signer of a block is a signer who has not signed recently, and has now. -/
def accept (s : Snapshot) (number : Nat) (signer : Address) : Except CliqueError Snapshot :=
  if signer ∉ s.signers then .error .unauthorizedSigner
  else if signer ∈ s.recents.map (·.2) then .error .recentlySigned
  else .ok (s.sign number signer)
/-- The loop that takes back an earlier vote of the signer on the address. -/
def discard (s : Snapshot) (signer address : Address) : Snapshot :=
  match s.votes.find? (Vote.isOf signer address) with
  | none => s
  | some vote =>
    { s.uncast vote.address vote.authorize with
      votes := s.votes.eraseP (Vote.isOf signer address) }
/-- What the nonce of a header votes for. -/
def authorizes (nonce : BlockNonce) : Except CliqueError Bool :=
  if nonce.bytes = nonceAuthVote then .ok true
  else if nonce.bytes = nonceDropVote then .ok false
  else .error .invalidVote
/-- A vote that is valid is counted and kept. -/
def record (s : Snapshot) (vote : Vote) : Snapshot :=
  if (s.cast vote.address vote.authorize).1 then
    { (s.cast vote.address vote.authorize).2 with votes := s.votes ++ [vote] }
  else s
/-- The loop that takes back the votes of an account that no longer is a signer. -/
def dropVotesOf (s : Snapshot) (signer : Address) : Snapshot :=
  { (s.votes.filter fun v => v.signer = signer).foldl (fun s v => s.uncast v.address v.authorize) s with
    votes := s.votes.filter fun v => v.signer ≠ signer }
/-- The loop that forgets the votes on an account, and its tally. -/
def dropVotesOn (s : Snapshot) (address : Address) : Snapshot :=
  ({ s with votes := s.votes.filter fun v => v.address ≠ address }).setTally address none
/-- The signers change if more than half of them agree. -/
def settle (s : Snapshot) (number : Nat) (address : Address) : Snapshot :=
  let tally := (s.tally address).getD ⟨false,0⟩
  if tally.votes > s.signers.card / 2 then
    if tally.authorize then (s.withSigners (insert address s.signers)).dropVotesOn address
    else (((s.withSigners (s.signers.erase address)).expire number).dropVotesOf address).dropVotesOn address
  else s

/-- One round of the loop of `apply`. -/
def applyHeader (crypto : Crypto) (cfg : CliqueConfig) (s : Snapshot) (header : Header) : Except CliqueError Snapshot := do
  let number := header.numberU64
  let s := (s.reset cfg number).expire number
  let signer ← ecrecover crypto header
  let s ← s.accept number signer
  let s := s.discard signer header.coinbase
  let authorize ← authorizes header.nonce
  let s := s.record ⟨signer,number,header.coinbase,authorize⟩
  return s.settle number header.coinbase

/-- The numbers of the headers go up by one. -/
def consecutive : List Header → Bool
  | first :: second :: rest => decide (second.numberU64 = (first.numberU64 + 1) % 2^64) && consecutive (second :: rest)
  | _ => true
def apply (crypto : Crypto) (cfg : CliqueConfig) (s : Snapshot) (headers : List Header) : Except CliqueError Snapshot :=
  match headers with
  | [] => .ok s
  | first :: rest =>
    if ¬ consecutive (first :: rest) then .error .invalidVotingChain
    else if first.numberU64 ≠ (s.number + 1) % 2^64 then .error .invalidVotingChain
    else do
      let snap ← (first :: rest).foldlM (applyHeader crypto cfg) s
      return { snap with
        number := (snap.number + (first :: rest).length) % 2^64
        hash := ((first :: rest).getLast (List.cons_ne_nil first rest)).hash crypto.keccak }

end Snapshot

/-! ### The checks of a seal -/

/-- `n - m` of two `uint64`. -/
def sub64 (n m : Nat) : Nat := (n + 2^64 - m) % 2^64

/-- `verifySeal` over the snapshot of the parent, up to the test of the difficulty. -/
def verifySigner (crypto : Crypto) (snap : Snapshot) (header : Header) : Except CliqueError Address :=
  let number := header.numberU64
  if number = 0 then .error .unknownBlock
  else
    match ecrecover crypto header with
    | .error err => .error err
    | .ok signer =>
      if signer ∉ snap.signers then .error .unauthorizedSigner
      else if snap.recents.any fun r => r.2 = signer ∧ r.1 > sub64 number snap.limit then .error .recentlySigned
      else .ok signer

/-- What `Seal` does with a block, before it signs it. -/
inductive SealStep where
  /-- An error is returned. -/
  | fails (err : CliqueError)
  /-- "Signed recently, must wait for others": nothing is returned. -/
  | waits
  | signs
  deriving DecidableEq
/-- The checks of `Seal` over the snapshot of the parent. (A block without transactions is
    already held back before, if the period is zero.) -/
def sealStep (snap : Snapshot) (number : Nat) (signer : Address) : SealStep :=
  if number = 0 then .fails .unknownBlock
  else if signer ∉ snap.signers then .fails .unauthorizedSigner
  else if snap.recents.any fun r => r.2 = signer ∧ (number < snap.limit ∨ r.1 > sub64 number snap.limit) then .waits
  else .signs

end Canchain.Clique
