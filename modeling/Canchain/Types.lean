import Canchain.Common

/-!
Headers, transactions and blocks of `kernel/types`. Their hashes are the Keccak hashes of their
RLP encodings; the hash is a parameter.
-/
namespace Canchain.Types
open Rlp Common

/-- `types.Bloom`. -/
structure Bloom where
  bytes : Bytes
  size : bytes.length = 256
  deriving DecidableEq
/-- `types.BlockNonce`. -/
structure BlockNonce where
  bytes : Bytes
  size : bytes.length = 8
  deriving DecidableEq
def Bloom.zero : Bloom := ⟨List.replicate 256 0,List.length_replicate⟩
def BlockNonce.zero : BlockNonce := ⟨List.replicate 8 0,List.length_replicate⟩

structure Header where
  parentHash : Hash
  uncleHash : Hash
  coinbase : Address
  root : Hash
  txHash : Hash
  receiptHash : Hash
  bloom : Bloom
  difficulty : Nat
  number : Nat
  gasLimit : UInt64
  gasUsed : UInt64
  time : Nat
  extra : Bytes
  mixDigest : Hash
  nonce : BlockNonce
  deriving DecidableEq

def encodeInt (n : Nat) : Bytes := encodeString (putint n)
/-- `rlp.Encode` of a header. -/
def Header.encode (h : Header) : Bytes :=
  encodeList (encodeString h.parentHash.bytes ++ (encodeString h.uncleHash.bytes ++ (encodeString h.coinbase.bytes ++
    (encodeString h.root.bytes ++ (encodeString h.txHash.bytes ++ (encodeString h.receiptHash.bytes ++
    (encodeString h.bloom.bytes ++ (encodeInt h.difficulty ++ (encodeInt h.number ++ (encodeInt h.gasLimit.toNat ++
    (encodeInt h.gasUsed.toNat ++ (encodeInt h.time ++ (encodeString h.extra ++ (encodeString h.mixDigest.bytes ++
    encodeString h.nonce.bytes))))))))))))))
def Header.hash (keccak : Bytes → Hash) (h : Header) : Hash := keccak h.encode
/-- `header.Number.Uint64()`. -/
def Header.numberU64 (h : Header) : Nat := h.number % 2^64

theorem Header.numberU64_lt (h : Header) : h.numberU64 < 2^64 := Nat.mod_lt _ (by norm_num)

/-- A transaction: its `txdata` without the JSON-only hash. -/
structure Transaction where
  accountNonce : UInt64
  price : Nat
  gasLimit : UInt64
  recipient : Option Address
  amount : Nat
  payload : Bytes
  v : Nat
  r : Nat
  s : Nat
  deriving DecidableEq

/-- `rlp.Encode` of a transaction; a missing recipient is the empty string. -/
def Transaction.encode (tx : Transaction) : Bytes :=
  encodeList (encodeInt tx.accountNonce.toNat ++ (encodeInt tx.price ++ (encodeInt tx.gasLimit.toNat ++
    (encodeString ((tx.recipient.map (·.bytes)).getD []) ++ (encodeInt tx.amount ++ (encodeString tx.payload ++
    (encodeInt tx.v ++ (encodeInt tx.r ++ encodeInt tx.s))))))))
def Transaction.hash (keccak : Bytes → Hash) (tx : Transaction) : Hash := keccak tx.encode

/-- The RLP encoding of a list of headers, hashed. -/
def calcUncleHash (keccak : Bytes → Hash) (uncles : List Header) : Hash :=
  keccak (encodeList (uncles.map Header.encode).flatten)

structure Block where
  header : Header
  uncles : List Header
  transactions : List Transaction
  deriving DecidableEq

def Block.hash (keccak : Bytes → Hash) (b : Block) : Hash := b.header.hash keccak
def Block.numberU64 (b : Block) : Nat := b.header.numberU64
def Block.parentHash (b : Block) : Hash := b.header.parentHash
def Block.difficulty (b : Block) : Nat := b.header.difficulty

theorem Block.numberU64_lt (b : Block) : b.numberU64 < 2^64 := b.header.numberU64_lt

/-- `TxDifference`: the transactions of the first list whose hash is not one of the second list's. -/
def txDifference (keccak : Bytes → Hash) (a b : List Transaction) : List Transaction :=
  let remove := b.map (·.hash keccak)
  a.filter fun tx => tx.hash keccak ∉ remove

end Canchain.Types
