import Canchain.Hashimoto

/-!
The dataset of the epoch 385 is the first one above 4 GiB. For a cache and a hash of zeros and
the nonce 1110, the last access goes beyond 4 GiB: a miner reads zeros there, a verifier computes
the item. The run is followed on numbers that hold the words of the mix.
-/
namespace Canchain.Hashimoto
open Rlp Common Keccak List Nat

/-! ### Words in a number -/

/-- The lowest words of a number. -/
def unpack : Nat → Nat → List UInt32
  | 0, _ => []
  | n + 1, s => UInt32.ofNat s :: unpack n (s/2^32)

@[simp] theorem unpack_length (n s : Nat) : (unpack n s).length = n := by
  induction n generalizing s with
  | zero => rfl
  | succ n ih => rw [unpack,length_cons,ih]
theorem ofNat_mod (x : Nat) : UInt32.ofNat (x % 2^32) = UInt32.ofNat x := by
  rw [← UInt32.toNat_inj,UInt32.toNat_ofNat',UInt32.toNat_ofNat',mod_mod]
theorem unpack_zero (n : Nat) : unpack n 0 = replicate n 0 := by
  induction n with
  | zero => rfl
  | succ n ih =>
    rw [unpack,Nat.zero_div,ih]
    rfl
theorem unpack_getD (n s : Nat) {i : Nat} (inside : i < n) : (unpack n s).getD i 0 = UInt32.ofNat (s/2^(32*i)) := by
  induction n generalizing s i with
  | zero => omega
  | succ n ih =>
    cases i with
    | zero => simp [unpack]
    | succ i =>
      rw [unpack,getD_cons_succ,ih _ (by omega),Nat.div_div_eq_div_mul,← pow_add,show 32 + 32*i = 32*(i + 1) by omega]
theorem pow_words (n : Nat) : 2^(32*(n + 1)) = 2^32*2^(32*n) := by rw [Nat.mul_add,pow_add,mul_comm]
theorem unpack_cons (n low upper : Nat) (small : low < 2^32) :
    unpack (n + 1) (low + 2^32*upper) = UInt32.ofNat low :: unpack n upper := by
  have head : UInt32.ofNat (low + 2^32*upper) = UInt32.ofNat low := by
    rw [← ofNat_mod]
    congr 1
    omega
  rw [unpack,head,show (low + 2^32*upper)/2^32 = upper by omega]
theorem unpack_append (m n a b : Nat) : unpack m a ++ unpack n b = unpack (m + n) (a % 2^(32*m) + 2^(32*m)*b) := by
  induction m generalizing a with
  | zero => simp [unpack,mod_one]
  | succ m ih =>
    rw [show m + 1 + n = (m + n) + 1 by omega,unpack,cons_append,ih,pow_words,mod_mul,mul_assoc,add_assoc (a % 2^32),← Nat.mul_add,
      unpack_cons _ _ _ (mod_lt _ (by norm_num)),ofNat_mod]

theorem laneOf_append (a b : Bytes) : laneOf (a ++ b) = laneOf a + 256^a.length*laneOf b := by
  induction a with
  | nil => simp [laneOf]
  | cons x a ih =>
    change x.toNat + 256*laneOf (a ++ b) = x.toNat + 256*laneOf a + 256^(a.length + 1)*laneOf b
    rw [ih,pow_succ']
    ring
theorem laneOf_bytesOf (n x : Nat) : laneOf (bytesOf n x) = x % 256^n := by
  induction n generalizing x with
  | zero => simp [bytesOf,laneOf,mod_one]
  | succ n ih =>
    change (UInt8.ofNat (x % 256)).toNat + 256*laneOf (bytesOf n (x/256)) = _
    rw [ih,pow_succ',mod_mul,UInt8.toNat_ofNat']
    omega

theorem getWords_unpack (n : Nat) (b : Bytes) : getWords n b = unpack n (laneOf b) := by
  induction n generalizing b with
  | zero => rfl
  | succ n ih =>
    have step : getWords (n + 1) b = getUint32 b :: getWords n (b.drop 4) := by
      simp only [getWords,range_succ_eq_map,map_cons,map_map,Nat.mul_zero,drop_zero,drop_drop]
      refine congrArg _ (map_congr_left fun i _ => ?_)
      change getUint32 (b.drop (4*(i + 1))) = _
      rw [show 4*(i + 1) = 4 + 4*i by omega]
    rw [step,ih,unpack,getUint32,← laneOf_take,← laneOf_drop]
    exact congrArg (· :: _) (ofNat_mod _)
theorem laneOf_putWords (n s : Nat) : laneOf (putWords (unpack n s)) = s % 2^(32*n) := by
  induction n generalizing s with
  | zero => simp [unpack,putWords,laneOf,mod_one]
  | succ n ih =>
    have step : putWords (unpack (n + 1) s) = bytesOf 4 (UInt32.ofNat s).toNat ++ putWords (unpack n (s/2^32)) := rfl
    rw [step,laneOf_append,laneOf_bytesOf,bytesOf_length,ih,pow_words,mod_mul,UInt32.toNat_ofNat']
    omega
theorem putWords_length (words : List UInt32) : (putWords words).length = 4*words.length := by
  induction words with
  | nil => rfl
  | cons word words ih =>
    change (putUint32 word ++ putWords words).length = _
    rw [length_append,ih,putUint32,bytesOf_length,length_cons]
    omega

/-- The base that sets the 16 words of an item apart from the next 16. -/
def half : Nat := 2^512
def block (s : Nat) : Nat := permutePacked (s + (half + 2^575)) % half

theorem half_words : half = 2^(32*16) := by rw [half]

theorem laneOf_lanes (s n : Nat) : laneOf ((range n).flatMap fun i => bytesOf 8 (lane s i)) = s % 2^(64*n) ∧
    ((range n).flatMap fun i => bytesOf 8 (lane s i)).length = 8*n := by
  induction n with
  | zero => simp [laneOf,mod_one]
  | succ n ih =>
    obtain ⟨value,length⟩ := ih
    have lane_eq : lane s n = s/2^(64*n) % 2^64 := by
      rw [← shiftRight_eq_div_pow]
      exact and_two_pow_sub_one_eq_mod _ 64
    have base : 256^(8*n) = 2^(64*n) := by rw [show (256 : Nat) = 2^8 from rfl,← pow_mul,show 8*(8*n) = 64*n by omega]
    rw [range_succ,flatMap_append,flatMap_singleton,laneOf_append,value,length,laneOf_bytesOf,base,lane_eq,
      Nat.mul_add,pow_add,mod_mul,length_append,length,bytesOf_length]
    exact ⟨by rw [show (256 : Nat)^8 = 2^(64*1) from rfl,mod_mod],by omega⟩
theorem laneOf_keccak512 {data : Bytes} (length : data.length = 64) : laneOf (keccak512 data) = block (laneOf data) := by
  have base : 256^64 = half := by rw [show (256 : Nat) = 2^8 from rfl,← pow_mul,half]
  have base_last : 256^71*128 = 2^575 := by rw [show (256 : Nat) = 2^8 from rfl,← pow_mul,show 128 = 2^7 from rfl,← pow_add]
  have padded : laneOf (padTo 72 data) = laneOf data + (half + 2^575) := by
    rw [padTo,if_neg (by omega),length,laneOf_append,laneOf_append,length_append,length,← base,← base_last]
    rw [show laneOf (1 :: replicate (72 - 2 - 64) 0) = 1 by decide,show laneOf [0x80] = 128 by decide,add_assoc,mul_one]
    rfl
  have absorbed : absorbPacked 72 (data.length/72) 0 data = permutePacked (laneOf (padTo 72 data)) := by
    rw [length,show 64/72 = 0 from rfl,absorbPacked]
    exact congrArg permutePacked (Nat.zero_xor _)
  rw [keccak512_packed,keccak512Packed,(laneOf_lanes _ 8).1,absorbed,padded,block,half]

/-- The words of a number, each times a factor. -/
def scale (factor : Nat) : Nat → Nat → Nat
  | 0, _ => 0
  | n + 1, s => Nat.add (Nat.mod (Nat.mul (Nat.mod s 4294967296) factor) 4294967296)
      (Nat.mul 4294967296 (scale factor n (Nat.div s 4294967296)))
/-- What 256 rounds over rows of zeros multiply a word by. -/
def factor : Nat := 0x01000193^256 % 2^32
def itemNumber (index : Nat) : Nat := block (scale factor 16 (block index))

theorem unpack_scale (c n s : Nat) : (unpack n s).map (· * UInt32.ofNat c) = unpack n (scale c n s) := by
  induction n generalizing s with
  | zero => rfl
  | succ n ih =>
    change _ = unpack (n + 1) ((s % 2^32*c) % 2^32 + 2^32*scale c n (s/2^32))
    rw [unpack_cons n _ _ (mod_lt _ (by norm_num)),← ih,unpack,map_cons,ofNat_mod,UInt32.ofNat_mul,ofNat_mod]
theorem scale_lt (c n s : Nat) : scale c n s < 2^(32*n) := by
  induction n generalizing s with
  | zero => exact Nat.one_pos
  | succ n ih =>
    change (s % 2^32*c) % 2^32 + 2^32*scale c n (s/2^32) < 2^(32*(n + 1))
    have := ih (s/2^32)
    have := mod_lt (s % 2^32*c) (show 0 < 2^32 by norm_num)
    rw [pow_words]
    omega

theorem zipWith_zero (mix : List UInt32) (sixteen : mix.length = 16) :
    zipWith fnv mix (replicate 16 0) = mix.map (· * 0x01000193) := by
  refine ext_getElem (by rw [length_zipWith,length_map,length_replicate,sixteen]; rfl) fun i _ _ => ?_
  rw [getElem_zipWith,getElem_map,getElem_replicate,fnv,UInt32.xor_zero]
theorem mixParents_zero (index : UInt32) (left : Nat) (i : UInt32) {mix : List UInt32} (sixteen : mix.length = 16) :
    mixParents zeroCache.words 1 index left i mix = some (mix.map (· * UInt32.ofNat (0x01000193^left))) := by
  induction left generalizing i mix with
  | zero => simp [mixParents]
  | succ left ih =>
    have first : fnvHash mix (zeroCache.words.drop 0) = some (mix.map (· * 0x01000193)) := by
      rw [fnvHash_some (by rw [sixteen]; decide)]
      exact congrArg some (zipWith_zero mix sixteen)
    have start : ∀ x : UInt32, (x % 1*hashWords).toNat = 0 := by
      intro x
      rw [UInt32.toNat_mul,UInt32.toNat_mod,UInt32.toNat_one,mod_one,Nat.zero_mul]
    rw [mixParents]
    simp only [start,first,Nat.not_lt_zero,if_false,Option.bind_some]
    rw [ih (i + 1) (by rw [length_map,sixteen]),map_map]
    refine congrArg some (map_congr_left fun x _ => ?_)
    change x*UInt32.ofNat 0x01000193*UInt32.ofNat (0x01000193^left) = _
    rw [UInt32.mul_assoc,← UInt32.ofNat_mul,← pow_succ']
theorem item_zero (index : UInt32) : generateDatasetItem zeroCache.words index = some
    (keccak512 (putWords ((getWords 16 (keccak512 (putWords (unpack 16 index.toNat)))).map (· * UInt32.ofNat factor)))) := by
  have row : ((range 16).mapM fun i => zeroCache.words[(index % 1*hashWords + UInt32.ofNat i).toNat]?) =
      some ((range 16).map fun _ => 0) := by
    refine mapM_map fun i member => ?_
    have below := mem_range.mp member
    have place : (index % 1*hashWords + UInt32.ofNat i).toNat = i := by
      rw [UInt32.toNat_add,UInt32.toNat_mul,UInt32.toNat_mod,UInt32.toNat_one,mod_one,Nat.zero_mul,UInt32.toNat_ofNat']
      omega
    rw [place]
    exact getElem?_replicate_of_lt below
  have words : ((range 16).map fun _ => (0 : UInt32)).modifyHead (· ^^^ index) = unpack 16 index.toNat := by
    rw [unpack,UInt32.ofNat_toNat,div_eq_of_lt index.toNat_lt,unpack_zero]
    change (0 ^^^ index) :: replicate 15 0 = _
    rw [UInt32.zero_xor]
  have rounds : UInt32.ofNat (0x01000193^datasetParents) = UInt32.ofNat factor := (ofNat_mod _).symm
  have unfolded : generateDatasetItem zeroCache.words index =
      itemOfRow zeroCache.words 1 index ((range 16).map fun _ => 0) := by
    change (if (1 : UInt32) = 0 then none else ((range 16).mapM fun i =>
      zeroCache.words[(index % 1*hashWords + UInt32.ofNat i).toNat]?).bind (itemOfRow zeroCache.words 1 index)) = _
    rw [if_neg (by decide),row,Option.bind_some]
  rw [unfolded,itemOfRow,words,mixParents_zero index datasetParents 0 (getWords_length 16 _),Option.map_some,rounds]
theorem lookup_zero (index : UInt32) : lookupLight zeroCache.words index = some (unpack 16 (itemNumber index.toNat)) := by
  have length (s : Nat) : (putWords (unpack 16 s)).length = 64 := by rw [putWords_length,unpack_length]
  have small : index.toNat % 2^(32*16) = index.toNat :=
    mod_eq_of_lt (index.toNat_lt.trans (Nat.pow_lt_pow_right Nat.one_lt_two (show 32 < 32*16 by norm_num)))
  rw [lookupLight,item_zero,Option.map_some,keccak512_length,getWords_unpack,getWords_unpack,unpack_scale,laneOf_keccak512 (length _),
    laneOf_keccak512 (length _),laneOf_putWords,laneOf_putWords,small,mod_eq_of_lt (scale_lt _ _ _),itemNumber]

/-! ### The accesses on numbers -/

/-- `fnvHash` on the words of two numbers. -/
def mixNumbers : Nat → Nat → Nat → Nat
  | 0, _, _ => 0
  | n + 1, a, b => Nat.add (Nat.xor (Nat.mod (Nat.mul (Nat.mod a 4294967296) 0x01000193) 4294967296) (Nat.mod b 4294967296))
      (Nat.mul 4294967296 (mixNumbers n (Nat.div a 4294967296) (Nat.div b 4294967296)))
def parentNumber (rows head i mix : Nat) : Nat :=
  Nat.mod (Nat.xor (Nat.mod (Nat.mul (Nat.xor i head) 0x01000193) 4294967296)
    (Nat.mod (Nat.shiftRight mix (Nat.mul 32 (Nat.mod i 32))) 4294967296)) rows
/-- The accesses of the light run, as long as they stay between two items. -/
def walk (rows head low high : Nat) : Nat → Nat → Nat → Option Nat
  | 0, _, mix => some mix
  | left + 1, i, mix =>
    let parent := parentNumber rows head i mix
    if (Nat.ble low (Nat.mul 2 parent) && Nat.ble (Nat.add (Nat.mul 2 parent) 2) high) = true then
      walk rows head low high left (Nat.add i 1) (mixNumbers 32 mix
        (Nat.add (itemNumber (Nat.mul 2 parent)) (Nat.mul half (itemNumber (Nat.add (Nat.mul 2 parent) 1)))))
    else none

theorem unpack_mix (n a b : Nat) : zipWith fnv (unpack n a) (unpack n b) = unpack n (mixNumbers n a b) := by
  induction n generalizing a b with
  | zero => rfl
  | succ n ih =>
    change _ = unpack (n + 1) (((a % 2^32*0x01000193) % 2^32 ^^^ b % 2^32) + 2^32*mixNumbers n (a/2^32) (b/2^32))
    have word : fnv (UInt32.ofNat a) (UInt32.ofNat b) = UInt32.ofNat ((a % 2^32*0x01000193) % 2^32 ^^^ b % 2^32) := by
      rw [← UInt32.toNat_inj,fnv,UInt32.toNat_xor,UInt32.toNat_mul,UInt32.toNat_ofNat',UInt32.toNat_ofNat',UInt32.toNat_ofNat']
      exact (mod_eq_of_lt (xor_lt_two_pow (mod_lt _ (by norm_num)) (mod_lt _ (by norm_num)))).symm
    rw [unpack_cons n _ _ (xor_lt_two_pow (mod_lt _ (by norm_num)) (mod_lt _ (by norm_num))),← ih,unpack,unpack,
      zipWith_cons_cons,word]

theorem copyAt_halves {temp lower upper : List UInt32} (whole : temp.length = 32) (first : lower.length = 16)
    (second : upper.length = 16) : copyAt (copyAt temp 0 lower) 16 upper = lower ++ upper := by
  have copied : copyAt temp 0 lower = lower ++ temp.drop 16 := by
    rw [copyAt,take_zero,nil_append,take_of_length_le (by omega),Nat.zero_add,first]
  rw [copied,copyAt,take_left' first,take_of_length_le (by simp; omega),drop_of_length_le (by simp; omega),
    append_nil]

/-- A state of the main loop whose mix is held by a number. -/
structure Held (mix : Nat) (state : List UInt32 × List UInt32) : Prop where
  words : state.1 = unpack 32 mix
  temp : state.2.length = 32

def parentOf (rows seedHead : UInt32) (i : Nat) (state : List UInt32 × List UInt32) : UInt32 :=
  fnv (UInt32.ofNat i ^^^ seedHead) (state.1.getD (i % 32) 0) % rows

variable {state : List UInt32 × List UInt32}
variable {rows seedHead : UInt32} {mix : Nat}

theorem parentOf_held {i : Nat} (held : Held mix state)
    (early : i < 64) : (parentOf rows seedHead i state).toNat = parentNumber rows.toNat seedHead.toNat i mix := by
  rw [parentOf,held.words,unpack_getD _ _ (mod_lt i (by norm_num)),UInt32.toNat_mod,fnv,UInt32.toNat_xor,UInt32.toNat_mul,
    UInt32.toNat_xor,UInt32.toNat_ofNat',UInt32.toNat_ofNat',mod_eq_of_lt (show i < 2^32 by omega),
    ← shiftRight_eq_div_pow]
  rfl
theorem access_held {lookup : UInt32 → Option (List UInt32)} {i a b : Nat}
    (held : Held mix state) (lower : lookup (2*parentOf rows seedHead i state) = some (unpack 16 a))
    (upper : lookup (2*parentOf rows seedHead i state + 1) = some (unpack 16 b)) (small : a < half) :
    ∃ next, access rows seedHead lookup i state = some next ∧ Held (mixNumbers 32 mix (a + half*b)) next := by
  have copied : copyAt (copyAt state.2 0 (unpack 16 a)) 16 (unpack 16 b) = unpack 32 (a + half*b) := by
    rw [copyAt_halves held.temp (unpack_length 16 a) (unpack_length 16 b),unpack_append,← half_words,mod_eq_of_lt small]
  refine ⟨(unpack 32 (mixNumbers 32 mix (a + half*b)),unpack 32 (a + half*b)),?_,rfl,unpack_length 32 _⟩
  have parent : fnv (UInt32.ofNat i ^^^ seedHead) (state.1.getD (i % 32) 0) % rows = parentOf rows seedHead i state := rfl
  simp only [access,parent,Option.bind_eq_bind,lower,upper,Option.bind_some,copied]
  rw [held.words,fnvHash_some (by simp),unpack_mix,Option.bind_some]

theorem half_pos : 0 < half := by
  rw [half_words]
  exact Nat.two_pow_pos _
theorem block_lt (s : Nat) : block s < half := mod_lt _ half_pos

/-- The light lookup, for the items between two bounds. -/
def between (low high : Nat) (index : UInt32) : Option (List UInt32) :=
  if low ≤ index.toNat ∧ index.toNat < high then lookupLight zeroCache.words index else none
variable {low high : Nat}

theorem walk_held (within : high ≤ 2^32) {left i last : Nat}
    (early : i + left ≤ 64) (held : Held mix state)
    (walked : walk rows.toNat seedHead.toNat low high left i mix = some last) :
    ∃ final, accesses rows seedHead (between low high) left i state = some final ∧ Held last final := by
  induction left generalizing i mix state with
  | zero =>
    obtain rfl := Option.some_inj.mp walked
    exact ⟨state,rfl,held⟩
  | succ left ih =>
    have parent : (parentOf rows seedHead i state).toNat = _ := parentOf_held held (by omega)
    rw [walk,← parent] at walked
    split at walked
    next inside =>
      simp only [Bool.and_eq_true,ble_eq] at inside
      obtain ⟨from_low,to_high⟩ := inside
      change low ≤ 2*(parentOf rows seedHead i state).toNat at from_low
      change 2*(parentOf rows seedHead i state).toNat + 2 ≤ high at to_high
      obtain ⟨lower,upper⟩ := double_toNat (to_high.trans within)
      have found_lower : between low high (2*parentOf rows seedHead i state) =
          some (unpack 16 (itemNumber (2*(parentOf rows seedHead i state).toNat))) := by
        rw [between,if_pos ⟨by omega,by omega⟩,lookup_zero,lower]
      have found_upper : between low high (2*parentOf rows seedHead i state + 1) =
          some (unpack 16 (itemNumber (2*(parentOf rows seedHead i state).toNat + 1))) := by
        rw [between,if_pos ⟨by omega,by omega⟩,lookup_zero,upper]
      obtain ⟨next,first,held'⟩ := access_held held found_lower found_upper (block_lt _)
      rw [accesses,first,Option.bind_some]
      exact ih (by omega) held' walked
    next => cases walked
theorem walk_append (rows head low high m n i mix : Nat) : walk rows head low high (m + n) i mix =
    (walk rows head low high m i mix).bind (walk rows head low high n (i + m)) := by
  induction m generalizing i mix with
  | zero => rw [Nat.zero_add,walk,Option.bind_some,Nat.add_zero]
  | succ m ih =>
    rw [show m + 1 + n = (m + n) + 1 by omega,walk,walk]
    split
    next => rw [ih,show Nat.add i 1 + m = i + (m + 1) from by rw [add_eq]; omega]
    next => rfl
theorem accesses_append (rows seedHead : UInt32) (lookup : UInt32 → Option (List UInt32)) (m n i : Nat)
    (state : List UInt32 × List UInt32) : accesses rows seedHead lookup (m + n) i state =
      (accesses rows seedHead lookup m i state).bind (accesses rows seedHead lookup n (i + m)) := by
  induction m generalizing i state with
  | zero => rw [Nat.zero_add,accesses,Option.bind_some,Nat.add_zero]
  | succ m ih =>
    rw [show m + 1 + n = (m + n) + 1 by omega,accesses,accesses]
    cases access rows seedHead lookup i state with
    | none => rfl
    | some next =>
      rw [Option.bind_some,Option.bind_some,ih,show i + 1 + m = i + (m + 1) by omega]

def seedNumber : Nat :=
  0x48d010e2f73f24e68ba595d5066985f6cbd50f12796c1e6bcdbd9e40db54a3e0e1fa92c0930c83306801aaeb85039e4b4cd75b4ea79122bcbc465f2d5366aa5f

/-- The first 63 accesses stay with the items that are written once, the last one goes beyond 4 GiB, and there
    the digests part. -/
def Parts (mix : Nat) : Prop :=
  let parent := parentNumber 33619919 (seedNumber % 2^32) 63 mix
  2^26 ≤ 2*parent ∧ 2*parent + 1 < 67239838 ∧
    putWords (compress (unpack 32 (mixNumbers 32 mix (itemNumber (2*parent) + half*itemNumber (2*parent + 1))))) ≠
      putWords (compress (unpack 32 (mixNumbers 32 mix (0 + half*0))))
instance (mix : Nat) : Decidable (Parts mix) := inferInstanceAs (Decidable (_ ∧ _ ∧ _))

theorem seed_value : laneOf (seedOf (replicate 32 0) 1110) = seedNumber := by
  rw [seedOf,keccak512_packed]
  decide +kernel
/-! The mix after 16, 32, 48 and 63 accesses. -/

def mixAt16 : Nat :=
  0xbeed3d6df44861db739b02d05bb1ec42dd1d20ff0249d9a9038bde7447d494163f323430ad8bd2ea0403ecb27f4e7124d2a1cd303525d4080baf2117ed008d5d13481be5b720e5f6f2a504054822566e472011fd6cca40212fb63457d967ff087f61b2b4613ab83b933231b3c02a3b035d5b9cc7cb72e08c22d910a69e2942e2
def mixAt32 : Nat :=
  0x8b3b4428990b15c7b40bbaccd264009b23e863299f3a06d4db7076ee2746adc77e7a6c09296647bcb51bc2f601e5d92e2f719ac57d2adf61df18c05f24aea7bba30041b81eee19e00cc442c467513435b414f0bd29aef0861267a3282c0625ecbfbca9e4f41f33fb414de9d63872cec584e33fe1690b48a9374ad191c9bb56e8
def mixAt48 : Nat :=
  0xc0ef29ac43b5615488c83b1e4d7adf865d82644a52143596dadb47fd352764c1ffd10ee3c3a51fc7728a5de52e1d2eb82f7dd7605f22e78617cb477cb89a7fc72da669207f3fc24188679f7953017bad89896df07fd98bce6c15e493b3599646b590a13675465301dccfeae0040f8836da1738e9745e735994a09cd399318a68
def mixAt63 : Nat :=
  0x9082dc69576acd64b3b27774ff7281ba01e478bf7fb792b5d3995b4fae786deb90e88545739eb173d8cdc476f138604e2bc13b67b9091e8b364e17b9f9ad00d5138e32a69e39dcb5986a1333c70fc742d87e1abe52b1514f8ec347637026cdfc663755d156355802dd0d92234781c29a36094753144335f6e575128cfecd4489

theorem run_parts : (walk 33619919 (seedNumber % 2^32) 130974 (2^26) 16 0 (seedNumber + half*seedNumber) = some mixAt16 ∧
      walk 33619919 (seedNumber % 2^32) 130974 (2^26) 16 16 mixAt16 = some mixAt32 ∧
      walk 33619919 (seedNumber % 2^32) 130974 (2^26) 16 32 mixAt32 = some mixAt48 ∧
      walk 33619919 (seedNumber % 2^32) 130974 (2^26) 15 48 mixAt48 = some mixAt63) ∧ Parts mixAt63 :=
  ⟨⟨by decide +kernel,by decide +kernel,by decide +kernel,by decide +kernel⟩,by decide +kernel⟩

theorem run_walk : walk 33619919 (seedNumber % 2^32) 130974 (2^26) 63 0 (seedNumber + half*seedNumber) = some mixAt63 := by
  obtain ⟨⟨first,second,third,last⟩,-⟩ := run_parts
  rw [show 63 = 16 + (16 + (16 + 15)) from rfl,walk_append,first,Option.bind_some,walk_append,Nat.zero_add,second,Option.bind_some,
    walk_append,third,Option.bind_some,last]

theorem start_held : Held (seedNumber + half*seedNumber) (startOf (seedOf (replicate 32 0) 1110)) := by
  generalize seed_eq : seedOf (replicate 32 0) 1110 = seed
  have value : laneOf seed = seedNumber := by rw [← seed_eq,seed_value]
  refine ⟨?_,by simp [startOf]⟩
  have halves : (startOf seed).1 = getWords 16 seed ++ getWords 16 seed := by
    simp only [startOf,getWords,show range 32 = range 16 ++ (range 16).map (16 + ·) by decide,map_append,
      map_map]
    refine congrArg₂ _ (map_congr_left fun i member => ?_) (map_congr_left fun i member => ?_)
    · rw [mod_eq_of_lt (mem_range.mp member),mul_comm]
    · change getUint32 (seed.drop ((16 + i) % 16*4)) = _
      rw [add_mod_left,mod_eq_of_lt (mem_range.mp member),mul_comm]
  rw [halves,getWords_unpack,value,unpack_append,← half_words,mod_eq_of_lt (by decide +kernel)]
theorem head_value : (getUint32 (seedOf (replicate 32 0) 1110)).toNat = seedNumber % 2^32 := by
  rw [getUint32,UInt32.toNat_ofNat',← laneOf_take,seed_value,show 256^4 = 2^32 from rfl,mod_mod]

/-- The digest of a run whose last access finds the items of two numbers. -/
theorem last_digest {hash : Bytes} {nonce size : UInt64} {lookup : UInt32 → Option (List UInt32)} {a b : Nat}
    {answer : Bytes × Hash}
    (done : accesses (size/mixBytes).toUInt32 (getUint32 (seedOf hash nonce)) lookup 63 0 (startOf (seedOf hash nonce)) = some state)
    (held : Held mix state) (ne : (size/mixBytes).toUInt32 ≠ 0)
    (lower : lookup (2*parentOf (size/mixBytes).toUInt32 (getUint32 (seedOf hash nonce)) 63 state) = some (unpack 16 a))
    (upper : lookup (2*parentOf (size/mixBytes).toUInt32 (getUint32 (seedOf hash nonce)) 63 state + 1) = some (unpack 16 b))
    (small : a < half) (answered : hashimoto hash nonce size lookup = some answer) :
    answer.1 = putWords (compress (unpack 32 (mixNumbers 32 mix (a + half*b)))) := by
  obtain ⟨last,found,held'⟩ := access_held held lower upper small
  have run : accesses (size/mixBytes).toUInt32 (getUint32 (seedOf hash nonce)) lookup loopAccesses 0
      (startOf (seedOf hash nonce)) = some last := by
    rw [show loopAccesses = 63 + 1 from rfl,accesses_append,done,Option.bind_some,Nat.zero_add,accesses,found,Option.bind_some,
      accesses]
  simp only [hashimoto,if_neg ne,run,Option.map_some,Option.some_inj] at answered
  rw [← answered,finish,held'.words]

theorem epoch_sized : Sized (blank 1075837408).size := ⟨by decide,by decide⟩

section Epoch
variable {threads : Nat} (some_threads : 0 < threads) (few : threads < 2^57) {result : Buffer}
  (generated : GenerateDataset zeroCache.words threads (blank 1075837408) result)
include some_threads few generated

/-- These items are written once. -/
theorem between_full (index : UInt32) (words : List UInt32) (found : between 130974 (2^26) index = some words) :
    result.lookup index = some words := by
  have items : (blank 1075837408).words/16 = 67239838 := by decide
  rw [between] at found
  split at found
  next bounds =>
    rwa [lookup_light epoch_sized (by decide) some_threads few generated (by omega) (by omega) (by omega)]
  next => cases found
/-- There are zeros where nothing is written. -/
theorem beyond_full {index : UInt32} (far : 2^26 ≤ index.toNat) (inside : index.toNat < 67239838) :
    result.lookup index = some (unpack 16 0) := by
  have items : (blank 1075837408).words/16 = 67239838 := by decide
  rw [lookup_beyond epoch_sized (by decide) some_threads few generated (by omega) far (by omega),unpack_zero]
  rfl

end Epoch

theorem between_light (index : UInt32) (words : List UInt32) (found : between low high index = some words) :
    lookupLight zeroCache.words index = some words := by
  rw [between] at found
  split at found
  next => exact found
  next => cases found

/-- In the epoch 385 a miner's answer is not the verifier's, for any number of threads. -/
theorem large_disagrees : datasetSize 11550000 = some 4303349632 ∧ ∀ threads, 0 < threads → threads < 2^57 →
    ¬Agrees zeroCache threads (blank 1075837408) (List.replicate 32 0) 1110 := by
  refine ⟨by decide +kernel,fun threads some_threads few ⟨_,exists_,agree⟩ => ?_⟩
  obtain ⟨result,generated⟩ := exists_
  obtain ⟨answer,full,light⟩ := agree result generated
  rw [hashimotoLight] at light
  rw [hashimotoFull,full_size generated] at full
  have rows_value : ((blank 1075837408).size/mixBytes).toUInt32.toNat = 33619919 := by decide
  have rows_ne : ((blank 1075837408).size/mixBytes).toUInt32 ≠ 0 := by decide
  have walked := run_walk
  have parts := run_parts.2
  simp only [Parts] at parts
  rw [← rows_value,← head_value] at walked parts
  obtain ⟨state,done,held⟩ := walk_held (by norm_num) (by norm_num) start_held walked
  rw [← parentOf_held held (by norm_num)] at parts
  obtain ⟨far,inside,parts⟩ := parts
  obtain ⟨lower,upper⟩ := double_toNat (Nat.le_trans (Nat.succ_le_of_lt inside) (by norm_num))
  have light_digest := last_digest (accesses_mono _ between_light 63 0 done) held rows_ne (lookup_zero _) (lookup_zero _)
    (block_lt _) light
  have full_digest := last_digest (accesses_mono _ (between_full some_threads few generated) 63 0 done) held rows_ne
    (beyond_full some_threads few generated (by omega) (by omega)) (beyond_full some_threads few generated (by omega) (by omega))
    half_pos full
  rw [lower,upper] at light_digest
  exact parts (light_digest.symm.trans full_digest)

end Canchain.Hashimoto
