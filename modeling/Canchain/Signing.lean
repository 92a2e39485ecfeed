import Canchain.Types
import Canchain.RlpStream
import Canchain.Secp256k1
import Canchain.Keccak

/-!
The signatures of `kernel/types/transaction_signing.go`. Under a chain id that is not zero a
signed transaction has its sender, and under every other id it is refused
(`signed_protected_iff`). Under the id zero `V` does not say that the hash that was signed has
the id, and the sender is recovered from another hash.
-/
namespace Canchain.Signing
open Rlp Common Types List

inductive SignError where
  /-- "invalid chain id for signer" -/
  | invalidChainId
  /-- "invalid transaction v, r, s values" -/
  | invalidSig
  /-- "invalid public key" -/
  | publicKey
  /-- The panic "wrong size for signature: got %d, want 65". -/
  | wrongSize (got : Nat)
  | crypto (text : String)
  deriving DecidableEq
/-- What `lib/crypto` does with a key. -/
structure Crypto (Key : Type) where
  keccak : Bytes → Hash
  sign : Hash → Key → Except String Bytes
  ecrecover : Hash → Bytes → Except String Bytes
  fromECDSAPub : Key → Bytes
inductive Signer where
  | eip155 (chainId : Nat)
  | homestead
  | frontier

def Signer.equal : Signer → Signer → Bool
  | .eip155 chainId, .eip155 chainId' => chainId' = chainId
  | .homestead, .homestead => true
  | .frontier, .frontier => true
  | _, _ => false
def isProtectedV (v : Nat) : Bool := if v < 256 then v ≠ 27 && v ≠ 28 else true
def deriveChainId (v : Nat) : Nat :=
  if v < 2^64 then if v = 27 ∨ v = 28 then 0 else ((UInt64.ofNat v - 35)/2).toNat
  else (v - 35)/2
def validateSignatureValues (v : UInt8) (r s : Nat) (homestead : Bool) : Bool :=
  if r < 1 ∨ s < 1 then false
  else if homestead ∧ Secp256k1.n/2 < s then false
  else r < Secp256k1.n && s < Secp256k1.n && (v = 0 || v = 1)

/-- The fields that every signer signs. -/
def fields (tx : Transaction) : Bytes :=
  encodeInt tx.accountNonce.toNat ++ (encodeInt tx.price ++ (encodeInt tx.gasLimit.toNat ++
    (encodeString ((tx.recipient.map (·.bytes)).getD []) ++ (encodeInt tx.amount ++ encodeString tx.payload))))
def Signer.hash (keccak : Bytes → Hash) (tx : Transaction) : Signer → Hash
  | .eip155 chainId => keccak (encodeList (fields tx ++ (encodeInt chainId ++ (encodeInt 0 ++ encodeInt 0))))
  | _ => keccak (encodeList (fields tx))
/-- `SignatureValues`, with the signature in the transaction as `WithSignature` puts it. -/
def Signer.withSignature (tx : Transaction) (sig : Bytes) (signer : Signer) : Except SignError Transaction :=
  if sig.length ≠ 65 then .error (.wrongSize sig.length)
  else
    let signed : Transaction := { tx with
      r := getint (sig.take 32), s := getint ((sig.drop 32).take 32), v := (sig.getD 64 0 + 27).toNat }
    match signer with
    | .eip155 chainId =>
      if chainId ≠ 0 then .ok { signed with v := (sig.getD 64 0 + 35).toNat + 2*chainId } else .ok signed
    | _ => .ok signed

section
variable {Key : Type} (crypto : Crypto Key)

/-- The address of a public key, without its first byte. -/
def addressOf (pub : Bytes) : Address := bytesToAddress ((crypto.keccak (pub.drop 1)).bytes.drop 12)
def pubkeyToAddress (key : Key) : Address := addressOf crypto (crypto.fromECDSAPub key)
def signTx (tx : Transaction) (signer : Signer) (key : Key) : Except SignError Transaction :=
  match crypto.sign (signer.hash crypto.keccak tx) key with
  | .error text => .error (.crypto text)
  | .ok sig => signer.withSignature tx sig
def recoverPlain (sighash : Hash) (r s : Nat) (vb : Int) (homestead : Bool) : Except SignError Address :=
  if 256 ≤ vb.natAbs then .error .invalidSig
  else
    let v := UInt8.ofNat vb.natAbs - 27
    if validateSignatureValues v r s homestead = false then .error .invalidSig
    else match crypto.ecrecover sighash (setBytes 32 (putint r) ++ (setBytes 32 (putint s) ++ [v])) with
    | .error text => .error (.crypto text)
    | .ok pub => if pub.head? ≠ some 4 then .error .publicKey else .ok (addressOf crypto pub)
/-- `Sender` of a signer. -/
def Signer.sender (tx : Transaction) : Signer → Except SignError Address
  | .eip155 chainId =>
    if isProtectedV tx.v = false then recoverPlain crypto (Signer.homestead.hash crypto.keccak tx) tx.r tx.s tx.v true
    else if deriveChainId tx.v ≠ chainId then .error .invalidChainId
    else recoverPlain crypto ((Signer.eip155 chainId).hash crypto.keccak tx) tx.r tx.s (tx.v - 2*chainId - 8) true
  | .homestead => recoverPlain crypto (Signer.homestead.hash crypto.keccak tx) tx.r tx.s tx.v true
  | .frontier => recoverPlain crypto (Signer.frontier.hash crypto.keccak tx) tx.r tx.s tx.v false
/-- The function `Sender`, with the `sigCache` of the transaction before and after it. -/
def sender (signer : Signer) (tx : Transaction) (cache : Option (Signer × Address)) :
    Except SignError Address × Option (Signer × Address) :=
  match cache.filter fun sc => sc.1.equal signer with
  | some sc => (.ok sc.2,cache)
  | none =>
    match signer.sender crypto tx with
    | .error e => (.error e,cache)
    | .ok addr => (.ok addr,some (signer,addr))
/-- The answers to calls of `Sender` one after the other. -/
def senders (tx : Transaction) : Option (Signer × Address) → List Signer → List (Except SignError Address)
  | _, [] => []
  | cache, signer :: signers => (sender crypto signer tx cache).1 :: senders tx (sender crypto signer tx cache).2 signers

/-- What signing promises: the sender is the key's address, the transaction is protected under this id and refused under
    every other one, and the cache of a transaction does not change what `Sender` answers. -/
def Protects (id : Nat) (tx : Transaction) (key : Key) : Prop :=
  (∃ signed, signTx crypto tx (.eip155 id) key = .ok signed ∧
    (Signer.eip155 id).sender crypto signed = .ok (pubkeyToAddress crypto key) ∧ isProtectedV signed.v = true ∧
    deriveChainId signed.v = id ∧ ∀ other, other ≠ id → (Signer.eip155 other).sender crypto signed = .error .invalidChainId) ∧
  ∀ tx signers, senders crypto tx none signers = signers.map (Signer.sender crypto tx)
/-- What `Sign` and `Ecrecover` are documented to do: the signature has the lower `S` and a recovery id of one bit, and
    the public key is recovered from it, uncompressed. -/
structure Signs (hash : Hash) (key : Key) : Prop where
  signature : ∃ sig v, crypto.sign hash key = .ok sig ∧ sig.length = 65 ∧ sig.drop 64 = [v] ∧ (v = 0 ∨ v = 1) ∧
    (1 ≤ getint (sig.take 32) ∧ getint (sig.take 32) < Secp256k1.n) ∧ 1 ≤ getint ((sig.drop 32).take 32) ∧
    getint ((sig.drop 32).take 32) ≤ Secp256k1.n/2 ∧ crypto.ecrecover hash sig = .ok (crypto.fromECDSAPub key)
  uncompressed : (crypto.fromECDSAPub key).head? = some 4

variable {crypto}

theorem Signer.equal_iff {a b : Signer} : a.equal b = true ↔ a = b := by
  cases a <;> cases b <;> simp [Signer.equal,eq_comm]
/-- What is in the cache is what its signer answers, so that no other signer gets it. -/
theorem senders_eq (tx : Transaction) (signers : List Signer) (cache : Option (Signer × Address))
    (filed : ∀ sc ∈ cache, sc.1.sender crypto tx = .ok sc.2) :
    senders crypto tx cache signers = signers.map (Signer.sender crypto tx) := by
  induction signers generalizing cache with
  | nil => rfl
  | cons signer signers ih =>
    rw [senders,map_cons]
    simp only [sender]
    split
    · rename_i sc hit
      obtain ⟨here,same⟩ := Option.filter_eq_some_iff.mp hit
      obtain rfl := Signer.equal_iff.mp same
      rw [filed sc here,ih cache filed]
    · cases answer : signer.sender crypto tx with
      | error e => rw [ih cache filed]
      | ok addr =>
        rw [ih]
        rintro _ ⟨⟩
        exact answer

theorem setBytes_putint {b : Bytes} : setBytes b.length (putint (getint b)) = b := by
  induction b with
  | nil => rfl
  | cons x b ih =>
    by_cases zero : x = 0
    · subst zero
      have short := putint_length (getint b) b.length (getint_lt b)
      have value : getint (0 :: b) = getint b := by simp [getint]
      rw [value]
      simp only [setBytes,length_cons,Nat.sub_eq_zero_of_le short,Nat.sub_eq_zero_of_le (Nat.le_succ_of_le short),
        drop_zero,Nat.succ_sub short,replicate_succ,cons_append] at ih ⊢
      rw [ih]
    · rw [putint_getint (by simpa using zero)]
      simp [setBytes]

theorem rebuilt {sig : Bytes} (length : sig.length = 65) : setBytes 32 (putint (getint (sig.take 32))) ++
    (setBytes 32 (putint (getint ((sig.drop 32).take 32))) ++ sig.drop 64) = sig := by
  have first := @setBytes_putint (sig.take 32)
  have second := @setBytes_putint ((sig.drop 32).take 32)
  rw [show (sig.take 32).length = 32 by simp [length]] at first
  rw [show ((sig.drop 32).take 32).length = 32 by simp [length]] at second
  rw [first,second,show sig.drop 64 = (sig.drop 32).drop 32 by rw [drop_drop],take_append_drop,take_append_drop]
/-- A signature with its recovery id raised by 27 gives the key back. -/
theorem recoverPlain_signed {hash : Hash} {key : Key} (good : Signs crypto hash key) : ∃ sig v, crypto.sign hash key = .ok sig ∧
    sig.length = 65 ∧ sig.getD 64 0 = v ∧ (v = 0 ∨ v = 1) ∧ recoverPlain crypto hash (getint (sig.take 32))
      (getint ((sig.drop 32).take 32)) (27 + v.toNat : Nat) true = .ok (pubkeyToAddress crypto key) := by
  obtain ⟨⟨sig,v,made,length,last,bit,r,s,low,recovered⟩,uncompressed⟩ := good
  refine ⟨sig,v,made,length,?_,bit,?_⟩
  · have here : sig[64]? = some v := by simpa [last] using (@getElem?_drop _ sig 64 0).symm
    rw [getD_eq_getElem?_getD,here,Option.getD_some]
  · have small : ¬ 256 ≤ ((27 + v.toNat : Nat) : Int).natAbs := by
      rcases bit with rfl | rfl <;> decide
    have back : UInt8.ofNat ((27 + v.toNat : Nat) : Int).natAbs - 27 = v := by
      rcases bit with rfl | rfl <;> decide
    have valid : validateSignatureValues v (getint (sig.take 32)) (getint ((sig.drop 32).take 32)) true = true := by
      have half : Secp256k1.n/2 < Secp256k1.n := by decide
      have bit : (v = 0 || v = 1) = true := by simpa using bit
      simp only [validateSignatureValues]
      rw [if_neg (by omega),if_neg (by simpa using low),bit]
      simp only [Bool.and_true,Bool.and_eq_true,decide_eq_true_eq]
      omega
    simp only [recoverPlain]
    rw [if_neg small,back,valid,if_neg (by simp),← last,rebuilt length,recovered]
    simp [uncompressed,pubkeyToAddress]

/-- Signing and recovering go together under every chain id but zero. -/
theorem signed_protected_iff (crypto : Crypto Key) (id : Nat) (tx : Transaction) (key : Key)
    (good : Signs crypto ((Signer.eip155 id).hash crypto.keccak tx) key) : Protects crypto id tx key ↔ id ≠ 0 := by
  obtain ⟨sig,v,made,length,last,bit,recovers⟩ := recoverPlain_signed good
  constructor
  · rintro ⟨⟨signed,done,-,shown,-⟩,-⟩ rfl
    simp only [signTx,made,Signer.withSignature,length,last,ne_eq,not_true_eq_false,if_false,Except.ok.injEq] at done
    rw [← done] at shown
    change isProtectedV (v + 27).toNat = true at shown
    revert shown
    rcases bit with rfl | rfl <;> decide
  · intro nonzero
    have raised : (v + 35).toNat = 35 + v.toNat := by
      rcases bit with rfl | rfl <;> rfl
    have small : v.toNat ≤ 1 := by
      rcases bit with rfl | rfl <;> decide
    have chain : deriveChainId (35 + v.toNat + 2*id) = id := by
      unfold deriveChainId
      split
      · rename_i word
        rw [if_neg (by omega),UInt64.toNat_div,UInt64.toNat_sub,UInt64.toNat_ofNat']
        change (2^64 - 35 + (35 + v.toNat + 2*id) % 2^64) % 2^64/2 = id
        omega
      · omega
    have shown : isProtectedV (35 + v.toNat + 2*id) = true := by
      unfold isProtectedV
      split
      · simp
        omega
      · rfl
    have plain : ((35 + v.toNat + 2*id : Nat) : Int) - 2*id - 8 = (27 + v.toNat : Nat) := by omega
    refine ⟨⟨{ tx with r := getint (sig.take 32), s := getint ((sig.drop 32).take 32), v := 35 + v.toNat + 2*id },?_,?_,
      shown,chain,?_⟩,fun tx signers => senders_eq tx signers none (by simp)⟩
    · simp only [signTx,made,Signer.withSignature,length,last,ne_eq,not_true_eq_false,if_false,nonzero,not_false_eq_true,
        if_true,raised]
    · simp only [Signer.sender]
      rw [if_neg (by simp [shown]),if_neg (by simp [chain]),plain]
      exact recovers
    · intro other differs
      simp only [Signer.sender,shown,chain]
      simp [differs.symm]

end

/-- The key 1 of the curve, with a signer that gives one signature. -/
def signing (sig : Nat) : Crypto Unit where
  keccak := Keccak.keccak256
  sign _ _ := .ok (Secp256k1.bytesOf 65 sig)
  ecrecover := Secp256k1.ecrecover
  fromECDSAPub _ := 4 :: Secp256k1.bytesOf 32 Secp256k1.gx ++ Secp256k1.bytesOf 32 Secp256k1.gy
def sampleTx : Transaction := ⟨0,1,21000,none,0,[],0,0,0⟩
def zeroSig : Nat :=
  0xb936e4042dbffc5a7cc6007eb809efb6de512adb1e121749a8810a515acce6c30bf84b40d99972d1dabd136169c3c61f88c69b8a1eb74b6c62d57087806eb7b301
def oneSig : Nat :=
  0x63bb15b1f0961e7712e10f0f3cb1afe3e4f6d02990babc8ccbdc886080203bdb6620422148b6509046310bcb940a01a29b2a61b70f11d1622db299a235d3859900

theorem signing_signs : Signs (signing zeroSig) ((Signer.eip155 0).hash Keccak.keccak256 sampleTx) () ∧
    Signs (signing oneSig) ((Signer.eip155 1).hash Keccak.keccak256 sampleTx) () := by
  rw [Keccak.keccak_packed]
  refine ⟨⟨⟨_,1,rfl,?_⟩,rfl⟩,⟨_,0,rfl,?_⟩,rfl⟩ <;> decide +kernel

theorem signed_under_one : Protects (signing oneSig) 1 sampleTx () :=
  (signed_protected_iff _ 1 sampleTx () signing_signs.2).mpr (by decide)
/-- Under the id zero the transaction is not protected, and its sender is not the one that signed it. -/
theorem signed_under_zero : Signs (signing zeroSig) ((Signer.eip155 0).hash Keccak.keccak256 sampleTx) () ∧
    ∃ signed, signTx (signing zeroSig) sampleTx (.eip155 0) () = .ok signed ∧ isProtectedV signed.v = false ∧
      (Signer.eip155 0).sender (signing zeroSig) signed ≠ .ok (pubkeyToAddress (signing zeroSig) ()) := by
  refine ⟨signing_signs.1,_,rfl,rfl,?_⟩
  rw [signing,Keccak.keccak_packed]
  decide +kernel

end Canchain.Signing
