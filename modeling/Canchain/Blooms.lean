import Canchain.BlockChain
import Canchain.RlpBuffer
import Canchain.Keccak
import Mathlib.Data.Nat.Bitwise

/-!
The blooms of `kernel/types/bloom9.go` and the positions that `kernel/bloombits` looks up
in them. Each test asks for the three bits that a hash picks. `TestBytes` asks for another
string where the given one starts with a zero.
-/
namespace Canchain.Blooms
open Rlp Common Types Chain List Nat

section
variable (keccak : Bytes → Hash)

/-- A byte of a hash, as `uint`. -/
def at_ (h : Hash) (i : Nat) : Nat := (h.bytes.getD i 0).toNat
def bloom9 (b : Bytes) : Nat :=
  [0,2,4].foldl (fun r i => r ||| 1 <<< ((at_ (keccak b) (i + 1) + at_ (keccak b) i <<< 8) &&& 2047)) 0
def calcBloomIndexes (b : Bytes) : List Nat :=
  [0,1,2].map fun i => (at_ (keccak b) (2*i) <<< 8 &&& 2047) + at_ (keccak b) (2*i + 1)

/-- `Bloom.Big`. -/
def big (bloom : Bloom) : Nat := getint bloom.bytes
/-- `BytesToBloom`; none is the panic "bloom bytes too big". -/
def bytesToBloom (d : Bytes) : Option Bloom := if 256 < d.length then none else some ⟨setBytes 256 d,setBytes_length 256 d⟩
def logsBloom (logs : List State.Log) : Nat :=
  logs.foldl (fun bin log => log.topics.foldl (fun bin b => bin ||| bloom9 keccak b.bytes) (bin ||| bloom9 keccak log.address.bytes)) 0
def createBloom (receipts : List Receipt) : Option Bloom :=
  bytesToBloom (putint (receipts.foldl (fun bin receipt => bin ||| logsBloom keccak receipt.logs) 0))

def bloomLookup (bin : Bloom) (topic : Bytes) : Bool := big bin &&& bloom9 keccak topic == bloom9 keccak topic
/-- `Bloom.Test`. -/
def test (bloom : Bloom) (n : Nat) : Bool := bloomLookup keccak bloom (putint n)
/-- `Bloom.TestBytes`. -/
def testBytes (bloom : Bloom) (b : Bytes) : Bool := test keccak bloom (getint b)
/-- The bit of a position, as `AddBloom` reads it. -/
def hasBit (bloom : Bloom) (i : Nat) : Bool := bloom.bytes.getD (256 - 1 - i/8) 0 &&& 1 <<< UInt8.ofNat (i % 8) != 0
def hasIndexes (bloom : Bloom) (b : Bytes) : Bool := (calcBloomIndexes keccak b).all (hasBit bloom)

/-- The positions a hash picks: eleven bits of each of its first three pairs of bytes. -/
def positions (h : Hash) : List Nat := [0,1,2].map fun i => (256*at_ h (2*i) + at_ h (2*i + 1)) % 2048

variable {keccak} {b : Bytes} {bloom : Bloom}

private theorem at_lt (h : Hash) (i : Nat) : at_ h i < 256 := UInt8.toNat_lt _
variable {i : Nat}
private theorem positions_lt {h : Hash} (member : i ∈ positions h) : i < 2048 := by
  obtain ⟨j,-,rfl⟩ := mem_map.mp member
  exact mod_lt _ (by norm_num)
private theorem calcBloomIndexes_eq (b : Bytes) : calcBloomIndexes keccak b = positions (keccak b) := by
  refine map_congr_left fun i _ => ?_
  have := at_lt (keccak b) (2*i + 1)
  rw [shiftLeft_eq,show 2047 = 2^11 - 1 from rfl,and_two_pow_sub_one_eq_mod]
  omega
private theorem bloom9_testBit (b : Bytes) (i : Nat) : (bloom9 keccak b).testBit i = true ↔ i ∈ positions (keccak b) := by
  have index : ∀ j, (at_ (keccak b) (j + 1) + at_ (keccak b) j <<< 8) &&& 2047 =
      (256*at_ (keccak b) j + at_ (keccak b) (j + 1)) % 2048 := by
    intro j
    rw [shiftLeft_eq,show 2047 = 2^11 - 1 from rfl,and_two_pow_sub_one_eq_mod]
    omega
  simp only [bloom9,positions,index,foldl_cons,foldl_nil,zero_or,testBit_or,one_shiftLeft,
    testBit_two_pow,Bool.or_eq_true,decide_eq_true_eq,map_cons,map_nil,mem_cons,not_mem_nil,or_false]
  simp [eq_comm,or_assoc]

private theorem and_eq_right_iff {x y : Nat} : x &&& y = y ↔ ∀ i, y.testBit i = true → x.testBit i = true := by
  constructor
  · intro same i set
    rw [← same,testBit_and,Bool.and_eq_true] at set
    exact set.1
  · intro inside
    refine eq_of_testBit_eq fun i => ?_
    rw [testBit_and]
    cases set : y.testBit i with
    | false => simp
    | true => simp [inside i set]
private theorem getint_testBit (bs : Bytes) (inside : i < 8*bs.length) :
    (getint bs).testBit i = (bs.getD (bs.length - 1 - i/8) 0).toNat.testBit (i % 8) := by
  induction bs using reverseRecOn generalizing i with
  | nil => simp at inside
  | append_singleton bs x ih =>
    rw [length_append,length_singleton] at inside ⊢
    have value : getint (bs ++ [x]) = 2^8*getint bs + x.toNat := by rw [getint_append]; simp [getint,mul_comm]
    rw [value,testBit_two_pow_mul_add _ x.toNat_lt]
    by_cases low : i < 8
    · rw [if_pos low,div_eq_of_lt low,mod_eq_of_lt low,show bs.length + 1 - 1 - 0 = bs.length by omega]
      simp
    · rw [if_neg low,ih (by omega),show bs.length + 1 - 1 - i/8 = bs.length - 1 - (i - 8)/8 by omega,
        show (i - 8) % 8 = i % 8 by omega,getD_append _ _ _ _ (by omega)]
private theorem hasBit_iff (inside : i < 2048) : hasBit bloom i = true ↔ (big bloom).testBit i = true := by
  rw [big,getint_testBit _ (by rw [bloom.size]; omega),bloom.size,hasBit,bne_iff_ne]
  generalize bloom.bytes.getD (256 - 1 - i/8) 0 = x
  have low : i % 8 < 8 := mod_lt _ (by norm_num)
  have mask : (1 <<< UInt8.ofNat (i % 8) : UInt8).toNat = 2^(i % 8) := by
    have := Nat.pow_lt_pow_right Nat.one_lt_two low
    rw [UInt8.toNat_shiftLeft,UInt8.toNat_ofNat',UInt8.toNat_one,one_shiftLeft]
    simp only [mod_mod_of_dvd _ (show 8 ∣ 2^8 by norm_num),mod_mod]
    exact mod_eq_of_lt this
  rw [ne_eq,← UInt8.toNat_inj,UInt8.toNat_and,mask,and_two_pow,UInt8.toNat_zero]
  cases x.toNat.testBit (i % 8) <;> simp

/-- Each test asks for the positions of a hash. -/
private theorem bloomLookup_iff : bloomLookup keccak bloom b = true ↔ ∀ i ∈ positions (keccak b), (big bloom).testBit i = true := by
  simp [bloomLookup,and_eq_right_iff,bloom9_testBit]
private theorem hasIndexes_eq : hasIndexes keccak bloom b = bloomLookup keccak bloom b := by
  rw [Bool.eq_iff_iff,bloomLookup_iff,hasIndexes,all_eq_true,calcBloomIndexes_eq]
  exact forall₂_congr fun i member => hasBit_iff (positions_lt member)

/-- A number of 2048 bits is that of a bloom. -/
private theorem bytesToBloom_spec {n : Nat} (small : ∀ i, n.testBit i = true → i < 2048) :
    ∃ bloom, bytesToBloom (putint n) = some bloom ∧ big bloom = n := by
  have bounded (k : Nat) (small : ∀ i, n.testBit i = true → i < 8*k) : n < 256^k := by
    rw [show 256 = 2^8 from rfl,← pow_mul]
    refine lt_pow_two_of_testBit n fun i far => ?_
    by_contra set
    exact absurd (small i (by simpa using set)) (by omega)
  have short := putint_length n 256 (bounded 256 small)
  have zeros (k : Nat) : getint (replicate k 0) = 0 := by
    induction k with
    | zero => rfl
    | succ k ih => rw [replicate_succ',getint_append,ih]; rfl
  refine ⟨_,if_neg (by omega),?_⟩
  change getint (setBytes 256 (putint n)) = n
  rw [setBytes,show (putint n).length - 256 = 0 by omega,drop_zero,getint_append,zeros,getint_putint,Nat.zero_mul,
    Nat.zero_add]

private theorem foldl_testBit {α : Type} (f : α → Nat) (xs : List α) (r i : Nat) :
    (xs.foldl (fun r x => r ||| f x) r).testBit i = true ↔ r.testBit i = true ∨ ∃ x ∈ xs, (f x).testBit i = true := by
  induction xs generalizing r with
  | nil => simp
  | cons x xs ih => simp [ih,or_assoc]

/-- What the logs of the receipts put into a bloom. -/
def entries (receipts : List Receipt) : List Bytes :=
  receipts.flatMap fun receipt => receipt.logs.flatMap fun log => log.address.bytes :: log.topics.map (·.bytes)

private theorem logsBloom_testBit (logs : List State.Log) (i : Nat) : (logsBloom keccak logs).testBit i = true ↔
    ∃ log ∈ logs, ∃ b ∈ log.address.bytes :: log.topics.map (·.bytes), i ∈ positions (keccak b) := by
  have from_ (r : Nat) : (logs.foldl (fun bin log => log.topics.foldl (fun bin b => bin ||| bloom9 keccak b.bytes)
      (bin ||| bloom9 keccak log.address.bytes)) r).testBit i = true ↔ r.testBit i = true ∨
      ∃ log ∈ logs, ∃ b ∈ log.address.bytes :: log.topics.map (·.bytes), i ∈ positions (keccak b) := by
    induction logs generalizing r with
    | nil => simp
    | cons log logs ih =>
      rw [foldl_cons,ih,foldl_testBit]
      simp [bloom9_testBit,or_assoc]
  simpa [logsBloom] using from_ 0
/-- The bits of the bloom are the positions of the entries. -/
private theorem createBloom_spec (receipts : List Receipt) : ∃ bloom, createBloom keccak receipts = some bloom ∧
    ∀ i, (big bloom).testBit i = true ↔ ∃ b ∈ entries receipts, i ∈ positions (keccak b) := by
  have bits (i : Nat) : (receipts.foldl (fun bin receipt => bin ||| logsBloom keccak receipt.logs) 0).testBit i = true ↔
      ∃ b ∈ entries receipts, i ∈ positions (keccak b) := by
    simp only [foldl_testBit,logsBloom_testBit,entries,mem_flatMap,zero_testBit,Bool.false_eq_true,false_or]
    grind
  obtain ⟨bloom,made,value⟩ := bytesToBloom_spec fun i set => by
    obtain ⟨b,-,member⟩ := (bits i).mp set
    exact positions_lt member
  exact ⟨bloom,made,by rw [value]; exact bits⟩

private theorem testBytes_eq : testBytes keccak bloom b = bloomLookup keccak bloom (b.dropWhile (· = 0)) := by
  rw [testBytes,test]
  congr 1
  induction b with
  | nil => rfl
  | cons x b ih =>
    by_cases zero : x = 0
    · subst zero
      simpa [getint] using ih
    · rw [putint_getint (by simpa using zero),dropWhile_cons_of_neg (by simpa using zero)]
/-- A string is found wherever another one is only if its positions are among the other's. -/
private theorem positions_subset {c : Bytes} (follows : ∀ bloom, bloomLookup keccak bloom b = true → bloomLookup keccak bloom c = true)
    (member : i ∈ positions (keccak c)) : i ∈ positions (keccak b) := by
  obtain ⟨bloom,-,value⟩ := bytesToBloom_spec fun i (set : (bloom9 keccak b).testBit i = true) =>
    positions_lt ((bloom9_testBit b i).mp set)
  have found := follows bloom (by rw [bloomLookup,value,Nat.and_self]; simp)
  rw [bloomLookup_iff,value] at found
  exact (bloom9_testBit b i).mp (found i member)

end

/-- An entry of a log is reported by all tests, and they agree on every bloom. -/
def Exact (keccak : Bytes → Hash) (b : Bytes) : Prop :=
  (∀ receipts, ∃ bloom, createBloom keccak receipts = some bloom ∧ (b ∈ entries receipts →
    bloomLookup keccak bloom b ∧ test keccak bloom (getint b) ∧ testBytes keccak bloom b ∧ hasIndexes keccak bloom b)) ∧
  ∀ bloom, test keccak bloom (getint b) = bloomLookup keccak bloom b ∧
    testBytes keccak bloom b = bloomLookup keccak bloom b ∧ hasIndexes keccak bloom b = bloomLookup keccak bloom b

/-- The tests are exact on the strings that do not start with a zero, and on those
    whose hash picks the same positions as the hash without the zeros. -/
theorem tests_exact_iff (keccak : Bytes → Hash) (b : Bytes) : Exact keccak b ↔
    b.head? ≠ some 0 ∨ ∀ i, i ∈ positions (keccak b) ↔ i ∈ positions (keccak (b.dropWhile (· = 0))) := by
  constructor
  · rintro ⟨-,agree⟩
    refine .inr fun i => ⟨fun member => positions_subset (fun bloom found => ?_) member,
      fun member => positions_subset (fun bloom found => ?_) member⟩
    · rwa [← (agree bloom).2.1,testBytes_eq]
    · rwa [← testBytes_eq,(agree bloom).2.1]
  · intro kind
    have same : ∀ i, i ∈ positions (keccak b) ↔ i ∈ positions (keccak (b.dropWhile (· = 0))) := by
      rcases kind with proper | same
      · cases b with
        | nil => simp
        | cons x b => simp_all
      · exact same
    have agree (bloom : Bloom) : testBytes keccak bloom b = bloomLookup keccak bloom b := by
      rw [testBytes_eq,Bool.eq_iff_iff,bloomLookup_iff,bloomLookup_iff]
      simp [same]
    refine ⟨fun receipts => ?_,fun bloom => ⟨agree bloom,agree bloom,hasIndexes_eq⟩⟩
    obtain ⟨bloom,made,bits⟩ := @createBloom_spec keccak receipts
    refine ⟨bloom,made,fun inside => ?_⟩
    have found : bloomLookup keccak bloom b = true := bloomLookup_iff.mpr fun i member => (bits i).mpr ⟨b,inside,member⟩
    exact ⟨found,(agree bloom).trans found,(agree bloom).trans found,hasIndexes_eq.trans found⟩

/-- A topic that holds the number one: `TestBytes` looks for another string. -/
theorem padded_topic_missed : (createBloom Keccak.keccak256 [⟨[⟨Address.zero,[bytesToHash [1]],[],0,Hash.zero,0,Hash.zero,0⟩]⟩]).map
    (fun bloom => (bloomLookup Keccak.keccak256 bloom (bytesToHash [1]).bytes,
      testBytes Keccak.keccak256 bloom (bytesToHash [1]).bytes)) = some (true,false) := by
  rw [Keccak.keccak_packed]
  decide +kernel

end Canchain.Blooms
