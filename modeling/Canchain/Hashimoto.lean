import Canchain.EthashEpochs
import Canchain.Keccak
import Canchain.Threads

/-!
The proof of work of `lib/consensus/ethash/algorithm.go` on a little-endian machine. A verifier
computes the items it needs from the cache, a miner lets its threads write all of them into one
array. An index out of range and a division by zero are `none`. The offsets are of 32 bits: up
to 4 GiB every item is found (`full_agrees`), above it the first items are written over.
-/
namespace Canchain.Hashimoto
open Rlp Common Keccak Threads List UInt64

def hashWords : UInt32 := 16
def datasetParents : Nat := 256
def loopAccesses : Nat := 64

/-- `binary.LittleEndian.Uint32`. -/
def getUint32 (b : Bytes) : UInt32 := UInt32.ofNat (laneOf (b.take 4))
def putUint32 (v : UInt32) : Bytes := bytesOf 4 v.toNat
def putUint64 (v : UInt64) : Bytes := bytesOf 8 v.toNat
def getWords (count : Nat) (b : Bytes) : List UInt32 := (List.range count).map fun i => getUint32 (b.drop (4*i))
def putWords (words : List UInt32) : Bytes := words.flatMap putUint32
/-- `copy(dest[off:], src)` for an offset inside. -/
def copyAt {α : Type} (dest : List α) (off : Nat) (src : List α) : List α :=
  dest.take off ++ (src.take (dest.length - off) ++ dest.drop (off + src.length))

def fnv (a b : UInt32) : UInt32 := a*0x01000193 ^^^ b
def fnvHash (mix data : List UInt32) : Option (List UInt32) :=
  if mix.length ≤ data.length then some (List.zipWith fnv mix data) else none

/-! ### The items -/

/-- The loop over the parents of an item, for the rounds that are left. -/
def mixParents (cache : List UInt32) (rows index : UInt32) : Nat → UInt32 → List UInt32 → Option (List UInt32)
  | 0, _, intMix => some intMix
  | left + 1, i, intMix =>
    let parent := fnv (index ^^^ i) (intMix.getD (i % 16).toNat 0) % rows
    let start := (parent*hashWords).toNat
    if cache.length < start then none
    else (fnvHash intMix (cache.drop start)).bind (mixParents cache rows index left (i + 1))
/-- An item from its row of the cache. -/
def itemOfRow (cache : List UInt32) (rows index : UInt32) (row : List UInt32) : Option Bytes :=
  let mix := keccak512 (putWords (row.modifyHead (· ^^^ index)))
  (mixParents cache rows index datasetParents 0 (getWords 16 mix)).map fun intMix => keccak512 (putWords intMix)
def generateDatasetItem (cache : List UInt32) (index : UInt32) : Option Bytes :=
  let rows := UInt32.ofNat (cache.length/16)
  if rows = 0 then none
  else ((List.range 16).mapM fun i => cache[(index % rows*hashWords + UInt32.ofNat i).toNat]?).bind (itemOfRow cache rows index)

/-! ### The dataset -/

/-- A slice of 32-bit words with the bytes that it is made of. -/
structure Buffer where
  words : Nat
  byte : Nat → UInt8

def Buffer.size (dest : Buffer) : UInt64 := UInt64.ofNat (4*dest.words)
def Buffer.word (dest : Buffer) (i : Nat) : UInt32 := getUint32 ((List.range 4).map fun j => dest.byte (4*i + j))

/-- What a thread writes for one item. The progress report divides by `percent`. -/
def itemWrites (cache : List UInt32) (size : UInt64) (percent index : UInt32) : Option (List (Nat × UInt8)) := do
  let item ← generateDatasetItem cache index
  let offset := (index*hashBytes.toUInt32).toNat
  if size.toNat < offset ∨ percent = 0 then none
  else some ((List.range (min item.length (size.toNat - offset))).map fun j => (offset + j,item.getD j 0))
/-- The indices of a thread: the first one and the one it stops at. -/
def batchOf (size : UInt64) (threads id : Nat) : UInt32 × UInt32 :=
  let batch := ((size + hashBytes*UInt64.ofNat threads - 1)/(hashBytes*UInt64.ofNat threads)).toUInt32
  let first := UInt32.ofNat id*batch
  let limit := first + batch
  let items := (size/hashBytes).toUInt32
  (first,if items < limit then items else limit)
/-- The writes of one thread of `generateDataset`, in their order. -/
def threadWrites (cache : List UInt32) (size : UInt64) (threads id : Nat) : Option (List (Nat × UInt8)) :=
  if hashBytes*UInt64.ofNat threads = 0 then none
  else
    let (first,limit) := batchOf size threads id
    let percent := (size/hashBytes/100).toUInt32
    ((List.range (limit.toNat - first.toNat)).mapM fun k =>
      itemWrites cache size percent (first + UInt32.ofNat k)).map List.flatten
/-- `generateDataset`: the threads write in any interleaving. -/
def GenerateDataset (cache : List UInt32) (threads : Nat) (dest result : Buffer) : Prop :=
  ∃ writes mixed, (List.range threads).mapM (threadWrites cache dest.size threads) = some writes ∧
    Interleave writes mixed ∧ result = ⟨dest.words,mixed.foldl write dest.byte⟩

/-! ### The proof of work -/

/-- One access of the main loop, on the mix and the buffer `temp`. -/
def access (rows seedHead : UInt32) (lookup : UInt32 → Option (List UInt32)) (i : Nat)
    (state : List UInt32 × List UInt32) : Option (List UInt32 × List UInt32) := do
  let parent := fnv (UInt32.ofNat i ^^^ seedHead) (state.1.getD (i % 32) 0) % rows
  let lower ← lookup (2*parent)
  let upper ← lookup (2*parent + 1)
  let temp := copyAt (copyAt state.2 0 lower) 16 upper
  let mix ← fnvHash state.1 temp
  some (mix,temp)
/-- The accesses that are left, from the number `i` on. -/
def accesses (rows seedHead : UInt32) (lookup : UInt32 → Option (List UInt32)) :
    Nat → Nat → List UInt32 × List UInt32 → Option (List UInt32 × List UInt32)
  | 0, _, state => some state
  | left + 1, i, state => (access rows seedHead lookup i state).bind (accesses rows seedHead lookup left (i + 1))
/-- The last loop writes the compressed mix over its own beginning. -/
def compress (mix : List UInt32) : List UInt32 :=
  let at_ (mix : List UInt32) (i : Nat) : UInt32 := mix.getD i 0
  ((List.range 8).foldl (fun mix k =>
    mix.set k (fnv (fnv (fnv (at_ mix (4*k)) (at_ mix (4*k + 1))) (at_ mix (4*k + 2))) (at_ mix (4*k + 3)))) mix).take 8

def seedOf (hash : Bytes) (nonce : UInt64) : Bytes := keccak512 (copyAt (copyAt (List.replicate 40 0) 0 hash) 32 (putUint64 nonce))
def startOf (seed : Bytes) : List UInt32 × List UInt32 :=
  ((List.range 32).map fun i => getUint32 (seed.drop (i % 16*4)),List.replicate 32 0)
/-- The digest and the result of a mix. -/
def finish (seed : Bytes) (mix : List UInt32) : Bytes × Hash :=
  let digest := putWords (compress mix)
  (digest,keccak256 (seed ++ digest))
def hashimoto (hash : Bytes) (nonce size : UInt64) (lookup : UInt32 → Option (List UInt32)) : Option (Bytes × Hash) :=
  let rows := (size/mixBytes).toUInt32
  if rows = 0 then none
  else
    let seed := seedOf hash nonce
    (accesses rows (getUint32 seed) lookup loopAccesses 0 (startOf seed)).map fun state => finish seed state.1

def lookupLight (cache : List UInt32) (index : UInt32) : Option (List UInt32) :=
  (generateDatasetItem cache index).map fun rawData => getWords (rawData.length/4) rawData
def hashimotoLight (size : UInt64) (cache : List UInt32) (hash : Bytes) (nonce : UInt64) : Option (Bytes × Hash) :=
  hashimoto hash nonce size (lookupLight cache)
/-- `dataset[offset : offset+hashWords]` of an item. -/
def Buffer.lookup (dataset : Buffer) (index : UInt32) : Option (List UInt32) :=
  let offset := index*hashWords
  let high := offset + hashWords
  if offset ≤ high ∧ high.toNat ≤ dataset.words then
    some ((List.range (high.toNat - offset.toNat)).map fun i => dataset.word (offset.toNat + i))
  else none
def hashimotoFull (dataset : Buffer) (hash : Bytes) (nonce : UInt64) : Option (Bytes × Hash) :=
  hashimoto hash nonce (UInt64.ofNat dataset.words*4) dataset.lookup

/-! ### Every index of an item is in range -/

/-- A cache with at least one row. -/
structure Cache where
  words : List UInt32
  full : 16 ≤ words.length
  short : words.length < 2^36

def Cache.rows (cache : Cache) : UInt32 := UInt32.ofNat (cache.words.length/16)

variable (cache : Cache) (index : UInt32)
theorem Cache.rows_toNat : cache.rows.toNat = cache.words.length/16 := by
  have := cache.short
  exact UInt32.toNat_ofNat_of_lt (by rw [UInt32.size]; omega)
theorem Cache.rows_ne : cache.rows ≠ 0 := by
  intro zero
  have value := cache.rows_toNat
  have := cache.full
  rw [zero,UInt32.toNat_zero] at value
  omega
/-- A row that is a remainder starts at least one row before the end, even where the product wraps. -/
theorem Cache.row_inside (x : UInt32) : (x % cache.rows*hashWords).toNat + 16 ≤ cache.words.length ∧
    (x % cache.rows*hashWords).toNat + 16 ≤ 2^32 := by
  have full := cache.full
  have small : (x % cache.rows).toNat < cache.words.length/16 := by
    rw [UInt32.toNat_mod,cache.rows_toNat]
    exact Nat.mod_lt _ (by omega)
  rw [UInt32.toNat_mul,show hashWords.toNat = 16 from rfl]
  omega

@[simp] theorem getWords_length (count : Nat) (b : Bytes) : (getWords count b).length = count := by simp [getWords]
variable {mix data : List UInt32}

theorem fnvHash_some (fits : mix.length ≤ data.length) :
    fnvHash mix data = some (zipWith fnv mix data) := if_pos fits
theorem zipWith_fnv_length (fits : mix.length ≤ data.length) :
    (zipWith fnv mix data).length = mix.length := by
  rw [length_zipWith]
  omega
theorem mapM_map {α β : Type} {f : α → Option β} {g : α → β} {l : List α} (each : ∀ x ∈ l, f x = some (g x)) :
    l.mapM f = some (l.map g) := by
  induction l with
  | nil => rfl
  | cons x l ih =>
    rw [mapM_cons,each x mem_cons_self,ih fun x' member => each x' (mem_cons_of_mem x member)]
    rfl

theorem mixParents_some (left : Nat) (i : UInt32) {intMix : List UInt32}
    (sixteen : intMix.length = 16) : ∃ mix, mixParents cache.words cache.rows index left i intMix = some mix := by
  induction left generalizing i intMix with
  | zero => exact ⟨intMix,rfl⟩
  | succ left ih =>
    have inside := (cache.row_inside (fnv (index ^^^ i) (intMix.getD (i % 16).toNat 0))).1
    have fits : intMix.length ≤ (cache.words.drop
        (fnv (index ^^^ i) (intMix.getD (i % 16).toNat 0) % cache.rows*hashWords).toNat).length := by
      rw [length_drop]
      omega
    rw [mixParents,if_neg (by omega),fnvHash_some fits,Option.bind_some]
    exact ih (i + 1) (by rw [zipWith_fnv_length fits,sixteen])
theorem itemOfRow_some (row : List UInt32) :
    ∃ item, itemOfRow cache.words cache.rows index row = some item ∧ item.length = 64 := by
  obtain ⟨intMix,mixed⟩ := mixParents_some cache index datasetParents 0
    (getWords_length 16 (keccak512 (putWords (row.modifyHead (· ^^^ index)))))
  refine ⟨keccak512 (putWords intMix),?_,keccak512_length _⟩
  rw [itemOfRow,mixed]
  rfl
theorem item_some : ∃ item, generateDatasetItem cache.words index = some item ∧ item.length = 64 := by
  have row : ∃ row, ((range 16).mapM fun i =>
      cache.words[(index % cache.rows*hashWords + UInt32.ofNat i).toNat]?) = some row := by
    refine ⟨_,mapM_map (g := fun i => cache.words.getD (index % cache.rows*hashWords + UInt32.ofNat i).toNat 0) fun i member => ?_⟩
    have below := mem_range.mp member
    obtain ⟨inside,whole⟩ := cache.row_inside index
    have place : (index % cache.rows*hashWords + UInt32.ofNat i).toNat = (index % cache.rows*hashWords).toNat + i := by
      rw [UInt32.toNat_add,UInt32.toNat_ofNat']
      omega
    rw [getD_eq_getElem?_getD,getElem?_eq_getElem (by omega),Option.getD_some]
  obtain ⟨row,found⟩ := row
  have unfolded : generateDatasetItem cache.words index = itemOfRow cache.words cache.rows index row := by
    change (if cache.rows = 0 then none else ((range 16).mapM fun i =>
      cache.words[(index % cache.rows*hashWords + UInt32.ofNat i).toNat]?).bind (itemOfRow cache.words cache.rows index)) = _
    rw [if_neg cache.rows_ne,found,Option.bind_some]
  rw [unfolded]
  exact itemOfRow_some cache index row

/-! ### The writes of the threads -/

def Cache.item (cache : Cache) (index : UInt32) : Bytes := (generateDatasetItem cache.words index).getD []

theorem Cache.item_eq : generateDatasetItem cache.words index = some (cache.item index) := by
  obtain ⟨item,found,_⟩ := item_some cache index
  rw [Cache.item,found,Option.getD_some]
theorem Cache.item_length : (cache.item index).length = 64 := by
  obtain ⟨item,found,length⟩ := item_some cache index
  rw [Cache.item,found,Option.getD_some,length]

theorem Cache.lookup_eq : lookupLight cache.words index = some (getWords 16 (cache.item index)) := by
  rw [lookupLight,cache.item_eq,Option.map_some,cache.item_length]

/-- The write of one byte of an item. -/
def Cache.cell (cache : Cache) (index : UInt32) (j : Nat) : Nat × UInt8 := (64*(index.toNat % 2^26) + j,(cache.item index).getD j 0)

variable {threads : Nat}

theorem product_toNat (few : threads < 2^57) : (hashBytes*ofNat threads).toNat = 64*threads := by
  rw [UInt64.toNat_mul,toNat_ofNat',show hashBytes.toNat = 64 from rfl]
  omega

section Writes
variable {size : UInt64} (short : size.toNat < 2^37)
include short

theorem items_toNat : (size/hashBytes).toUInt32.toNat = size.toNat/64 := by
  rw [toNat_toUInt32,UInt64.toNat_div,show hashBytes.toNat = 64 from rfl]
  omega
/-- Whatever wraps, a thread stays below the number of the items. -/
theorem batchOf_below (threads id : Nat) : (batchOf size threads id).2.toNat ≤ size.toNat/64 := by
  have items := items_toNat short
  simp only [batchOf]
  split
  next => exact items.le
  next within =>
    rw [UInt32.lt_iff_toNat_lt,items] at within
    omega

variable (sized : Sized size)
include sized

theorem itemWrites_eq (cache : Cache) {index : UInt32} (inside : index.toNat < size.toNat/64) :
    itemWrites cache.words size (size/hashBytes/100).toUInt32 index = some ((range 64).map (cache.cell index)) := by
  have offset : (index*hashBytes.toUInt32).toNat = 64*(index.toNat % 2^26) := by
    rw [UInt32.toNat_mul,show hashBytes.toUInt32.toNat = 64 from rfl]
    omega
  have percent : (size/hashBytes/100).toUInt32 ≠ 0 := by
    intro zero
    have value := congrArg UInt32.toNat zero
    rw [toNat_toUInt32,UInt64.toNat_div,UInt64.toNat_div,show hashBytes.toNat = 64 from rfl,
      show (100 : UInt64).toNat = 100 from rfl,UInt32.toNat_zero] at value
    have := sized.large
    omega
  have room : min 64 (size.toNat - 64*(index.toNat % 2^26)) = 64 := by omega
  simp only [itemWrites,cache.item_eq,Option.bind_eq_bind,Option.bind_some,cache.item_length,offset,room]
  rw [if_neg (by rintro (far | zero); exacts [by omega,percent zero])]
  rfl

variable (some_threads : 0 < threads) (few : threads < 2^57)
include some_threads few

theorem batch_toNat : ((size + hashBytes*ofNat threads - 1)/(hashBytes*ofNat threads)).toUInt32.toNat =
    (size.toNat/64 + threads - 1)/threads := by
  have product := product_toNat few
  have rows := sized.rows
  have sum : (size + hashBytes*ofNat threads - 1).toNat = 64*(size.toNat/64 + threads - 1) + 63 := by
    rw [UInt64.toNat_sub,UInt64.toNat_add,product,show (1 : UInt64).toNat = 1 from rfl]
    omega
  have quotient : (64*(size.toNat/64 + threads - 1) + 63)/(64*threads) = (size.toNat/64 + threads - 1)/threads := by
    rw [← Nat.div_div_eq_div_mul]
    congr 1
    omega
  have bound : (size.toNat/64 + threads - 1)/threads ≤ size.toNat/64 + 1 := by
    rw [Nat.div_le_iff_le_mul_add_pred some_threads,Nat.mul_add]
    have := Nat.le_mul_of_pos_left (size.toNat/64) some_threads
    omega
  rw [toNat_toUInt32,UInt64.toNat_div,sum,product,quotient]
  exact Nat.mod_eq_of_lt (by omega)
/-- Every item has a thread. -/
theorem batchOf_covers {k : Nat} (inside : k < size.toNat/64) : ∃ id < threads,
    (batchOf size threads id).1.toNat ≤ k ∧ k < (batchOf size threads id).2.toNat := by
  have items := items_toNat short
  have batch := batch_toNat short sized some_threads few
  generalize amount : (size.toNat/64 + threads - 1)/threads = b at batch
  have enough : size.toNat/64 ≤ threads*b := by
    have division := Nat.div_add_mod (size.toNat/64 + threads - 1) threads
    have rest := Nat.mod_lt (size.toNat/64 + threads - 1) some_threads
    rw [amount] at division
    omega
  have b_le : b ≤ size.toNat/64 := by
    rw [← amount,Nat.div_le_iff_le_mul_add_pred some_threads]
    have := Nat.le_mul_of_pos_left (size.toNat/64) some_threads
    omega
  have b_pos : 0 < b := by
    rcases Nat.eq_zero_or_pos b with zero | positive
    · rw [zero] at enough
      omega
    · exact positive
  have start : k/b*b ≤ k := Nat.div_mul_le_self k b
  have stop : k < k/b*b + b := by
    have := Nat.lt_div_mul_add b_pos (a := k)
    omega
  refine ⟨k/b,(Nat.div_lt_iff_lt_mul b_pos).mpr (by omega),?_⟩
  have first : (UInt32.ofNat (k/b)*((size + hashBytes*ofNat threads - 1)/
      (hashBytes*ofNat threads)).toUInt32).toNat = k/b*b := by
    have : k/b ≤ k := Nat.div_le_self k b
    rw [UInt32.toNat_mul,UInt32.toNat_ofNat',batch,Nat.mod_eq_of_lt (a := k/b) (by omega)]
    exact Nat.mod_eq_of_lt (by omega)
  have limit : (UInt32.ofNat (k/b)*((size + hashBytes*ofNat threads - 1)/(hashBytes*ofNat threads)).toUInt32 +
      ((size + hashBytes*ofNat threads - 1)/(hashBytes*ofNat threads)).toUInt32).toNat = k/b*b + b := by
    rw [UInt32.toNat_add,first,batch]
    exact Nat.mod_eq_of_lt (by omega)
  simp only [batchOf]
  refine ⟨by omega,?_⟩
  split
  next => omega
  next => omega

theorem threadWrites_spec (cache : Cache) (id : Nat) : ∃ ws, threadWrites cache.words size threads id = some ws ∧
    ∀ w, w ∈ ws ↔ ∃ index : UInt32, (batchOf size threads id).1.toNat ≤ index.toNat ∧
      index.toNat < (batchOf size threads id).2.toNat ∧ ∃ j < 64, w = cache.cell index j := by
  have product : hashBytes*ofNat threads ≠ 0 := by
    intro zero
    have value := product_toNat few
    rw [zero,UInt64.toNat_zero] at value
    omega
  have below := batchOf_below short threads id
  rw [threadWrites,if_neg product]
  generalize batchOf size threads id = batch at below
  obtain ⟨first,limit⟩ := batch
  have place : ∀ k < limit.toNat - first.toNat, (first + UInt32.ofNat k).toNat = first.toNat + k := by
    intro k inside
    have := limit.toNat_lt
    rw [UInt32.toNat_add,UInt32.toNat_ofNat']
    omega
  have each := mapM_map (f := fun k => itemWrites cache.words size (size/hashBytes/100).toUInt32 (first + UInt32.ofNat k))
    (g := fun k => (range 64).map (cache.cell (first + UInt32.ofNat k))) (l := range (limit.toNat - first.toNat))
    (fun k member => by
      have inside := mem_range.mp member
      exact itemWrites_eq short sized cache (by rw [place k inside]; dsimp only at below; omega))
  refine ⟨_,by simp only [each]; rfl,fun w => ?_⟩
  simp only [mem_flatten,mem_map,mem_range]
  constructor
  · rintro ⟨_,⟨k,inside,rfl⟩,member⟩
    obtain ⟨j,within,rfl⟩ := mem_map.mp member
    exact ⟨_,by rw [place k inside]; omega,by rw [place k inside]; omega,j,mem_range.mp within,rfl⟩
  · rintro ⟨index,from_first,to_limit,j,within,rfl⟩
    have same : first + UInt32.ofNat (index.toNat - first.toNat) = index := by
      rw [← UInt32.toNat_inj,place _ (by omega)]
      omega
    exact ⟨_,⟨index.toNat - first.toNat,by omega,rfl⟩,by rw [same]; exact mem_map.mpr ⟨j,mem_range.mpr within,rfl⟩⟩

end Writes

section Generated
variable {cache : Cache} {dest : Buffer} (sized : Sized dest.size) (short : 4*dest.words < 2^37)
  {threads : Nat} (some_threads : 0 < threads) (few : threads < 2^57)
include sized short some_threads few

omit sized some_threads few in
theorem size_toNat : dest.size.toNat = 4*dest.words := toNat_ofNat_of_lt (by rw [UInt64.size]; omega)

theorem writes_some : (range threads).mapM (threadWrites cache.words dest.size threads) =
    some ((range threads).map fun id => (threadWrites cache.words dest.size threads id).getD []) := by
  refine mapM_map fun id _ => ?_
  obtain ⟨ws,found,_⟩ := threadWrites_spec (by rwa [size_toNat short]) sized some_threads few cache id
  rw [found,Option.getD_some]
/-- No index of a thread is out of range, so there is a dataset at the end. -/
theorem generateDataset_some : ∃ result, GenerateDataset cache.words threads dest result :=
  ⟨_,_,_,writes_some sized short some_threads few,interleave_flatten _,rfl⟩
/-- Between them the threads write each byte of each item, and nothing else. -/
theorem mem_writes {writes : List (List (Nat × UInt8))} {mixed : List (Nat × UInt8)}
    (found : (range threads).mapM (threadWrites cache.words dest.size threads) = some writes)
    (mix : Interleave writes mixed) (w : Nat × UInt8) :
    w ∈ mixed ↔ ∃ index : UInt32, index.toNat < dest.words/16 ∧ ∃ j < 64, w = cache.cell index j := by
  have size := size_toNat short
  have short_size : dest.size.toNat < 2^37 := by rwa [size]
  have spec := threadWrites_spec short_size sized some_threads few cache
  obtain rfl := Option.some_inj.mp (found.symm.trans (writes_some sized short some_threads few))
  rw [mix.mem_iff]
  simp only [mem_map,mem_range]
  constructor
  · rintro ⟨_,⟨id,_,rfl⟩,member⟩
    obtain ⟨ws,thread,members⟩ := spec id
    rw [thread,Option.getD_some] at member
    obtain ⟨index,_,to_limit,cell⟩ := (members w).mp member
    have below := batchOf_below short_size threads id
    exact ⟨index,by omega,cell⟩
  · rintro ⟨index,inside,cell⟩
    obtain ⟨id,of_thread,from_first,to_limit⟩ := batchOf_covers short_size sized some_threads few (k := index.toNat) (by omega)
    obtain ⟨ws,thread,members⟩ := spec id
    refine ⟨_,⟨id,of_thread,rfl⟩,?_⟩
    rw [thread,Option.getD_some]
    exact (members w).mpr ⟨index,from_first,to_limit,cell⟩

variable {result : Buffer} (generated : GenerateDataset cache.words threads dest result)
include generated

variable {index : UInt32}
variable (inside : index.toNat < dest.words/16)
include inside
/-- An item that no other item is written over is where a reader looks for it. -/
theorem result_item (low : index.toNat < 2^26)
    (alone : dest.words/16 ≤ index.toNat + 2^26) {j : Nat} (within : j < 64) :
    result.byte (64*index.toNat + j) = (cache.item index).getD j 0 := by
  obtain ⟨writes,mixed,found,mix,rfl⟩ := generated
  have members := mem_writes sized short some_threads few found mix
  refine writes_agree (fun w member place => ?_) ((members _).mpr ⟨index,inside,j,within,?_⟩) dest.byte
  · obtain ⟨index',inside',j',within',rfl⟩ := (members w).mp member
    have same_place : 64*(index'.toNat % 2^26) + j' = 64*index.toNat + j := place
    have same_index : index' = index := UInt32.toNat_inj.mp (by omega)
    have same_byte : j' = j := by omega
    rw [same_index,same_byte,Cache.cell]
  · rw [Cache.cell,Nat.mod_eq_of_lt low]
omit inside in
/-- From 4 GiB on nothing is written. -/
theorem result_beyond {p : Nat} (beyond : 2^32 ≤ p) : result.byte p = dest.byte p := by
  obtain ⟨writes,mixed,found,mix,rfl⟩ := generated
  refine unwritten (fun w member => ?_) dest.byte
  obtain ⟨index,_,j,within,rfl⟩ := (mem_writes sized short some_threads few found mix w).mp member
  rw [Cache.cell]
  omega

omit sized some_threads few in
/-- The slice of an item whose words a 32-bit index reaches. -/
theorem result_lookup (reached : index.toNat < 2^28 - 1) :
    result.lookup index = some ((range 16).map fun i => result.word (16*index.toNat + i)) := by
  obtain ⟨writes,mixed,found,mix,same⟩ := generated
  have words : result.words = dest.words := by rw [same]
  have offset : (index*hashWords).toNat = 16*index.toNat := by
    rw [UInt32.toNat_mul,show hashWords.toNat = 16 from rfl]
    omega
  have high : (index*hashWords + hashWords).toNat = 16*index.toNat + 16 := by
    rw [UInt32.toNat_add,offset,show hashWords.toNat = 16 from rfl]
    omega
  have in_range : index*hashWords ≤ index*hashWords + hashWords ∧ (index*hashWords + hashWords).toNat ≤ result.words := by
    rw [UInt32.le_iff_toNat_le]
    omega
  rw [high] at in_range
  simp only [Buffer.lookup,high,offset,Nat.add_sub_cancel_left]
  rw [if_pos in_range]
theorem lookup_light (low : index.toNat < 2^26)
    (alone : dest.words/16 ≤ index.toNat + 2^26) : result.lookup index = lookupLight cache.words index := by
  rw [result_lookup short generated inside (by omega),cache.lookup_eq]
  refine congrArg some (map_congr_left fun i member => ?_)
  have below := mem_range.mp member
  have length := cache.item_length index
  have bytes : ((range 4).map fun j => result.byte (4*(16*index.toNat + i) + j)).take 4 =
      ((cache.item index).drop (4*i)).take 4 := by
    refine ext_getElem (by simp; omega) fun j in_left in_right => ?_
    have within : j < 4 := by
      simp at in_left
      omega
    have byte := result_item sized short some_threads few generated inside low alone (show 4*i + j < 64 by omega)
    rw [getD_eq_getElem?_getD,getElem?_eq_getElem (by omega),Option.getD_some] at byte
    simp only [getElem_take,getElem_map,getElem_range,getElem_drop]
    rw [← byte]
    congr 1
    omega
  rw [Buffer.word,getUint32,getUint32,bytes]

theorem lookup_beyond (far : 2^26 ≤ index.toNat)
    (reached : index.toNat < 2^28 - 1) :
    result.lookup index = some ((range 16).map fun i => dest.word (16*index.toNat + i)) := by
  rw [result_lookup short generated inside reached]
  refine congrArg some (map_congr_left fun i _ => congrArg getUint32 (map_congr_left fun j _ => ?_))
  exact result_beyond sized short some_threads few generated (by omega)

end Generated

/-! ### The main loop -/

section Loop
variable {rows : UInt32} (seedHead : UInt32) {lookup lookup' : UInt32 → Option (List UInt32)}

/-- A lookup that answers where another one does, and the same, can take its place. -/
theorem access_mono (extends_ : ∀ index words, lookup index = some words → lookup' index = some words) {i : Nat}
    {state next : List UInt32 × List UInt32} (done : access rows seedHead lookup i state = some next) :
    access rows seedHead lookup' i state = some next := by
  simp only [access,Option.bind_eq_bind,Option.bind_eq_some_iff] at done ⊢
  obtain ⟨lower,found_lower,upper,found_upper,rest⟩ := done
  exact ⟨lower,extends_ _ _ found_lower,upper,extends_ _ _ found_upper,rest⟩
theorem accesses_mono (extends_ : ∀ index words, lookup index = some words → lookup' index = some words) (left i : Nat)
    {state last : List UInt32 × List UInt32} (done : accesses rows seedHead lookup left i state = some last) :
    accesses rows seedHead lookup' left i state = some last := by
  induction left generalizing i state with
  | zero => exact done
  | succ left ih =>
    obtain ⟨next,first,rest⟩ := Option.bind_eq_some_iff.mp done
    rw [accesses,access_mono seedHead extends_ first,Option.bind_some]
    exact ih (i + 1) rest

theorem double_toNat {parent : UInt32} (small : 2*parent.toNat + 2 ≤ 2^32) :
    (2*parent).toNat = 2*parent.toNat ∧ (2*parent + 1).toNat = 2*parent.toNat + 1 := by
  have double : (2*parent).toNat = 2*parent.toNat := by
    rw [UInt32.toNat_mul,show (2 : UInt32).toNat = 2 from rfl]
    omega
  refine ⟨double,?_⟩
  rw [UInt32.toNat_add,double,show (1 : UInt32).toNat = 1 from rfl]
  omega
variable (ne : rows ≠ 0) (short : rows.toNat < 2^31) (each : ∀ index : UInt32, index.toNat < 2*rows.toNat →
    ∃ words, words.length = 16 ∧ lookup index = some words ∧ lookup' index = some words)
include ne short each
/-- The mix and the buffer are of 32 words, so the loop never leaves them. -/
theorem access_some (i : Nat) (state : List UInt32 × List UInt32) (mix : state.1.length = 32) (temp : state.2.length = 32) :
    ∃ next, access rows seedHead lookup i state = some next ∧ access rows seedHead lookup' i state = some next ∧
      next.1.length = 32 ∧ next.2.length = 32 := by
  set parent := fnv (UInt32.ofNat i ^^^ seedHead) (state.1.getD (i % 32) 0) % rows with parent_eq
  have positive : 0 < rows.toNat := by
    rcases Nat.eq_zero_or_pos rows.toNat with zero | positive
    · exact absurd (UInt32.toNat_inj.mp zero) ne
    · exact positive
  have below : parent.toNat < rows.toNat := by
    rw [parent_eq,UInt32.toNat_mod]
    exact Nat.mod_lt _ positive
  obtain ⟨double,double_one⟩ := double_toNat (show 2*parent.toNat + 2 ≤ 2^32 by omega)
  obtain ⟨lower,lower_length,found_lower,found_lower'⟩ := each (2*parent) (by omega)
  obtain ⟨upper,upper_length,found_upper,found_upper'⟩ := each (2*parent + 1) (by omega)
  have copied : (copyAt (copyAt state.2 0 lower) 16 upper).length = 32 := by
    simp only [copyAt,length_append,length_take,length_drop]
    omega
  have fits := mix.trans_le copied.ge
  refine ⟨(_,copyAt (copyAt state.2 0 lower) 16 upper),?_,?_,(zipWith_fnv_length fits).trans mix,copied⟩
  · simp only [access,← parent_eq,Option.bind_eq_bind,found_lower,found_upper,Option.bind_some,fnvHash_some fits]
  · simp only [access,← parent_eq,Option.bind_eq_bind,found_lower',found_upper',Option.bind_some,fnvHash_some fits]
theorem accesses_some (left i : Nat) (state : List UInt32 × List UInt32) (mix : state.1.length = 32) (temp : state.2.length = 32) :
    ∃ last, accesses rows seedHead lookup left i state = some last ∧ accesses rows seedHead lookup' left i state = some last := by
  induction left generalizing i state with
  | zero => exact ⟨state,rfl,rfl⟩
  | succ left ih =>
    obtain ⟨next,first,first',mix',temp'⟩ := access_some seedHead ne short each i state mix temp
    simp only [accesses,first,first',Option.bind_some]
    exact ih (i + 1) next mix' temp'

end Loop

/-- Two lookups that give the same words for every item lead to one answer. -/
theorem hashimoto_agrees {size : UInt64} (sized : Sized size) (short : size.toNat < 2^37)
    {lookup lookup' : UInt32 → Option (List UInt32)} (each : ∀ index : UInt32, index.toNat < size.toNat/64 →
      ∃ words, words.length = 16 ∧ lookup index = some words ∧ lookup' index = some words) (hash : Bytes) (nonce : UInt64) :
    ∃ answer, hashimoto hash nonce size lookup = some answer ∧ hashimoto hash nonce size lookup' = some answer := by
  have rows : (size/mixBytes).toUInt32.toNat = size.toNat/128 := by
    rw [toNat_toUInt32,UInt64.toNat_div,show mixBytes.toNat = 128 from rfl]
    omega
  have whole := sized.rows
  have large := sized.large
  have ne : (size/mixBytes).toUInt32 ≠ 0 := by
    intro zero
    rw [zero,UInt32.toNat_zero] at rows
    omega
  obtain ⟨last,done,done'⟩ := accesses_some (getUint32 (seedOf hash nonce)) ne (by omega) (fun index inside => each index (by omega))
    loopAccesses 0 (startOf (seedOf hash nonce)) (by simp [startOf]) (by simp [startOf])
  exact ⟨finish (seedOf hash nonce) last.1,by simp [hashimoto,if_neg ne,done],by simp [hashimoto,if_neg ne,done']⟩

/-- Mining and verifying agree: the items and the dataset are made without an index out of range, and every
    dataset that the threads can leave behind gives the answer of the cache. -/
def Agrees (cache : Cache) (threads : Nat) (dest : Buffer) (hash : Bytes) (nonce : UInt64) : Prop :=
  (∀ index, ∃ item, generateDatasetItem cache.words index = some item) ∧
    (∃ result, GenerateDataset cache.words threads dest result) ∧
    ∀ result, GenerateDataset cache.words threads dest result → ∃ answer,
      hashimotoFull result hash nonce = some answer ∧ hashimotoLight dest.size cache.words hash nonce = some answer

theorem full_size {dest result : Buffer} {cache : Cache} (generated : GenerateDataset cache.words threads dest result) :
    ofNat result.words*4 = dest.size := by
  obtain ⟨_,_,_,_,rfl⟩ := generated
  rw [Buffer.size,mul_comm,ofNat_mul]
  rfl

/-- Up to 4 GiB, for every epoch, number of threads and interleaving of their writes. -/
theorem full_agrees {block size : UInt64} (epoch : datasetSize block = some size) (small : size.toNat ≤ 2^32) (cache : Cache)
    {threads : Nat} (some_threads : 0 < threads) (few : threads < 2^57) {dest : Buffer} (room : dest.words = size.toNat/4)
    (hash : Bytes) (nonce : UInt64) : Agrees cache threads dest hash nonce := by
  obtain ⟨size',epoch',sized⟩ := datasetSize_spec block
  obtain rfl := Option.some_inj.mp (epoch.symm.trans epoch')
  have rows := sized.rows
  have same : dest.size = size := by
    rw [Buffer.size,room,← UInt64.toNat_inj,toNat_ofNat']
    omega
  have short : 4*dest.words < 2^37 := by omega
  rw [← same] at sized
  refine ⟨fun index => ⟨_,cache.item_eq index⟩,generateDataset_some sized short some_threads few,fun result generated => ?_⟩
  rw [hashimotoFull,hashimotoLight,full_size generated]
  refine hashimoto_agrees sized (by rw [size_toNat short]; exact short) (fun index inside => ?_) hash nonce
  rw [size_toNat short] at inside
  refine ⟨getWords 16 (cache.item index),getWords_length 16 _,?_,cache.lookup_eq index⟩
  rw [lookup_light sized short some_threads few generated (by omega) (by omega) (by omega),cache.lookup_eq]

/-- One row of zeros. -/
def zeroCache : Cache := ⟨List.replicate 16 0,by simp,by simp⟩
/-- `make([]uint32, words)`. -/
def blank (words : Nat) : Buffer := ⟨words,fun _ => 0⟩

theorem full_agrees_first : datasetSize 0 = some 1073739904 ∧ Agrees zeroCache 4 (blank 268434976) (List.replicate 32 0) 7 :=
  ⟨by decide,full_agrees (show datasetSize 0 = some 1073739904 by decide) (by decide) zeroCache (by decide) (by decide)
    (by decide) (replicate 32 0) 7⟩

end Canchain.Hashimoto
