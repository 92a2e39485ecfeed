import Canchain.Types
import Canchain.Runs

/-!
`kernel/tx_list.go`: the transactions of an account by their nonces, with caps for what they
cost and for their gas. `Add` raises the caps and `Filter` sets them to limits that it has just
enforced, so they are upper bounds in every list.
-/
namespace Canchain.TxPool
open Types

/-- `Transaction.Cost`. -/
def cost (tx : Transaction) : Int := tx.price*tx.gasLimit.toNat + tx.amount

/-- `txSortedMap`: the transactions in the order in which `range` comes by them, and the heap of their nonces as the
    ascending list of what is in it. The cache of `Flatten` is left out. -/
structure TxSortedMap where
  items : List Transaction
  index : List UInt64

inductive Panic where
  | indexOutOfRange
  deriving DecidableEq

namespace TxSortedMap

def get (m : TxSortedMap) (nonce : UInt64) : Option Transaction := m.items.find? (·.accountNonce = nonce)
def delete (items : List Transaction) (nonce : UInt64) : List Transaction := items.filter (·.accountNonce ≠ nonce)
def put (m : TxSortedMap) (tx : Transaction) : TxSortedMap where
  items := tx :: delete m.items tx.accountNonce
  index := if m.get tx.accountNonce = none then m.index.orderedInsert (· ≤ ·) tx.accountNonce else m.index

/-- The body of the loops that take nonces off the heap, one after the other; the transactions may be nil. -/
def takeOut (index : List UInt64) : List UInt64 → List Transaction → List (Option Transaction) × TxSortedMap
  | [], items => ([],⟨items,index⟩)
  | nonce :: nonces, items =>
    let rest := takeOut index nonces (delete items nonce)
    (items.find? (·.accountNonce = nonce) :: rest.1,rest.2)
def forward (m : TxSortedMap) (threshold : UInt64) : List (Option Transaction) × TxSortedMap :=
  takeOut (m.index.dropWhile (· < threshold)) (m.index.takeWhile (· < threshold)) m.items
def filter (m : TxSortedMap) (test : Transaction → Bool) : List Transaction × TxSortedMap :=
  let removed := m.items.filter test
  let items := m.items.filter (!test ·)
  (removed,⟨items,if removed = [] then m.index else (items.map (·.accountNonce)).insertionSort (· ≤ ·)⟩)
def cap (m : TxSortedMap) (threshold : Int) : Except Panic (List (Option Transaction) × TxSortedMap) :=
  if m.items.length ≤ threshold then .ok ([],m)
  -- The loop goes down from the place `len(m.items) - 1`.
  else if m.index.length < m.items.length ∨ threshold < 0 then .error .indexOutOfRange
  else .ok (takeOut (m.index.take threshold.toNat) ((m.index.take m.items.length).drop threshold.toNat).reverse m.items)
def remove (m : TxSortedMap) (nonce : UInt64) : Bool × TxSortedMap :=
  if m.get nonce = none then (false,m) else (true,⟨delete m.items nonce,m.index.erase nonce⟩)
/-- How often the loop of `Ready` is entered. -/
def rounds : UInt64 → List UInt64 → Nat
  | _, [] => 0
  | next, nonce :: index => if nonce = next then rounds (next + 1) index + 1 else 0
def ready (m : TxSortedMap) (start : UInt64) : List (Option Transaction) × TxSortedMap :=
  match m.index with
  | [] => ([],m)
  | first :: _ =>
    if first > start then ([],m)
    else takeOut (m.index.drop (rounds first m.index)) (m.index.take (rounds first m.index)) m.items

end TxSortedMap

/-- `txList`. -/
structure TxList where
  strict : Bool
  txs : TxSortedMap
  costcap : Int
  gascap : UInt64

def newTxList (strict : Bool) : TxList := ⟨strict,⟨[],[]⟩,0,0⟩

namespace TxList

/-- The price is not as much above that of the old transaction as a replacement takes. -/
def refused (tx : Transaction) (priceBump : UInt64) (old : Transaction) : Bool :=
  old.price ≥ tx.price ∨ (old.price*(100 + priceBump.toInt64).toInt : Int)/100 > tx.price
def add (l : TxList) (tx : Transaction) (priceBump : UInt64) : (Bool × Option Transaction) × TxList :=
  let old := l.txs.get tx.accountNonce
  if old.any (refused tx priceBump) then ((false,none),l)
  else ((true,old),{ l with
    txs := l.txs.put tx
    costcap := if l.costcap < cost tx then cost tx else l.costcap
    gascap := if l.gascap < tx.gasLimit then tx.gasLimit else l.gascap })
def forward (l : TxList) (threshold : UInt64) : List (Option Transaction) × TxList :=
  ((l.txs.forward threshold).1,{ l with txs := (l.txs.forward threshold).2 })
def lowest (removed : List Transaction) : UInt64 :=
  removed.foldl (fun lowest tx => if lowest > tx.accountNonce then tx.accountNonce else lowest) 0xffffffffffffffff
/-- The transaction costs more or takes more gas than the limits allow. -/
def Over (costLimit : Int) (gasLimit : UInt64) (tx : Transaction) : Prop := cost tx > costLimit ∨ tx.gasLimit > gasLimit
instance over_decidable (costLimit : Int) (gasLimit : UInt64) : DecidablePred (Over costLimit gasLimit) := fun _ => instDecidableOr
/-- The transactions that are over a limit, and those that cannot follow without them. -/
def filter (l : TxList) (costLimit : Int) (gasLimit : UInt64) : (List Transaction × List Transaction) × TxList :=
  if l.costcap ≤ costLimit ∧ l.gascap ≤ gasLimit then (([],[]),l)
  else
    let removed := l.txs.filter fun tx => Over costLimit gasLimit tx
    if l.strict = true ∧ removed.1 ≠ [] then
      let invalids := removed.2.filter fun tx => tx.accountNonce > lowest removed.1
      ((removed.1,invalids.1),⟨l.strict,invalids.2,costLimit,gasLimit⟩)
    else ((removed.1,[]),⟨l.strict,removed.2,costLimit,gasLimit⟩)
def cap (l : TxList) (threshold : Int) : Except Panic (List (Option Transaction) × TxList) :=
  (l.txs.cap threshold).map fun r => (r.1,{ l with txs := r.2 })
def remove (l : TxList) (tx : Transaction) : (Bool × List Transaction) × TxList :=
  let removed := l.txs.remove tx.accountNonce
  if removed.1 = false then ((false,[]),l)
  else if l.strict then
    let invalids := removed.2.filter fun other => other.accountNonce > tx.accountNonce
    ((true,invalids.1),{ l with txs := invalids.2 })
  else ((true,[]),{ l with txs := removed.2 })
def ready (l : TxList) (start : UInt64) : List (Option Transaction) × TxList :=
  ((l.txs.ready start).1,{ l with txs := (l.txs.ready start).2 })

end TxList
open TxList List

/-- The lists that calls lead to. -/
inductive Reached (strict : Bool) : TxList → Prop
  | new : Reached strict (newTxList strict)
  | add {l : TxList} (before : Reached strict l) (tx : Transaction) (priceBump : UInt64) : Reached strict (l.add tx priceBump).2
  | forward {l : TxList} (before : Reached strict l) (threshold : UInt64) : Reached strict (l.forward threshold).2
  | filter {l : TxList} (before : Reached strict l) (costLimit : Int) (gasLimit : UInt64) :
      Reached strict (l.filter costLimit gasLimit).2
  | cap {l l' : TxList} {drops : List (Option Transaction)} (before : Reached strict l) {threshold : Int}
      (capped : l.cap threshold = .ok (drops,l')) : Reached strict l'
  | remove {l : TxList} (before : Reached strict l) (tx : Transaction) : Reached strict (l.remove tx).2
  | ready {l : TxList} (before : Reached strict l) (start : UInt64) : Reached strict (l.ready start).2

/-- The caps are upper bounds. -/
def Capped (l : TxList) : Prop := ∀ tx ∈ l.txs.items, cost tx ≤ l.costcap ∧ tx.gasLimit ≤ l.gascap

/-- What `Filter` is for: it takes out and returns what is over a limit, and in strict mode also what is left above the lowest
    nonce of that, that is, above one of them. -/
structure Filtered (costLimit : Int) (gasLimit : UInt64) (l : TxList) (r : (List Transaction × List Transaction) × TxList) :
    Prop where
  removed : ∀ tx, tx ∈ r.1.1 ↔ tx ∈ l.txs.items ∧ Over costLimit gasLimit tx
  invalids : ∀ tx, tx ∈ r.1.2 ↔ l.strict = true ∧ (tx ∈ l.txs.items ∧ ¬ Over costLimit gasLimit tx) ∧
    ∃ low ∈ r.1.1, low.accountNonce < tx.accountNonce
  left : ∀ tx, tx ∈ r.2.txs.items ↔ tx ∈ l.txs.items ∧ tx ∉ r.1.1 ∧ tx ∉ r.1.2

section
variable {m : TxSortedMap} {l : TxList}

theorem takeOut_subset (index nonces : List UInt64) (items : List Transaction) :
    (TxSortedMap.takeOut index nonces items).2.items ⊆ items := by
  induction nonces generalizing items with
  | nil => exact List.Subset.refl _
  | cons nonce nonces ih => exact List.Subset.trans (ih _) (filter_subset_self _)
theorem ready_subset (start : UInt64) : (m.ready start).2.items ⊆ m.items := by
  unfold TxSortedMap.ready
  split
  · exact List.Subset.refl _
  · split
    · exact List.Subset.refl _
    · exact takeOut_subset _ _ _
theorem cap_subset {m' : TxSortedMap} {drops : List (Option Transaction)} {threshold : Int}
    (capped : m.cap threshold = .ok (drops,m')) : m'.items ⊆ m.items := by
  unfold TxSortedMap.cap at capped
  split at capped
  · cases capped
    exact List.Subset.refl _
  split at capped
  · cases capped
  · rw [← (Prod.mk.inj (Except.ok.inj capped)).2]
    exact takeOut_subset _ _ _
theorem remove_subset (nonce : UInt64) : (m.remove nonce).2.items ⊆ m.items := by
  unfold TxSortedMap.remove
  split
  · exact List.Subset.refl _
  · exact filter_subset_self _
theorem filter_subset (test : Transaction → Bool) : (m.filter test).2.items ⊆ m.items := filter_subset_self _

theorem Capped.shrink (capped : Capped l) (fewer : m.items ⊆ l.txs.items) : Capped { l with txs := m } :=
  fun tx member => capped tx (fewer member)
theorem capped_add (capped : Capped l) (tx : Transaction) (priceBump : UInt64) : Capped (l.add tx priceBump).2 := by
  simp only [TxList.add]
  split
  · exact capped
  · intro other member
    have bound : other = tx ∨ cost other ≤ l.costcap ∧ other.gasLimit ≤ l.gascap :=
      (mem_cons.mp member).imp_right fun before => capped other (filter_subset_self _ before)
    simp only [UInt64.lt_iff_toNat_lt,UInt64.le_iff_toNat_le] at bound ⊢
    constructor
    · split
      · rcases bound with rfl | ⟨cheap,-⟩ <;> omega
      · rcases bound with rfl | ⟨cheap,-⟩ <;> omega
    · split
      · rcases bound with rfl | ⟨-,small⟩ <;> omega
      · rcases bound with rfl | ⟨-,small⟩ <;> omega
theorem lowest_lt (removed : List Transaction) (nonce : UInt64) :
    TxList.lowest removed < nonce ↔ ∃ low ∈ removed, low.accountNonce < nonce := by
  have folded (start : UInt64) :
      removed.foldl (fun lowest tx => if lowest > tx.accountNonce then tx.accountNonce else lowest) start < nonce ↔
        start < nonce ∨ ∃ low ∈ removed, low.accountNonce < nonce := by
    induction removed generalizing start with
    | nil => simp
    | cons tx removed ih =>
      rw [foldl_cons,ih,exists_mem_cons_iff,← or_assoc]
      refine or_congr_left ?_
      simp only [gt_iff_lt,UInt64.lt_iff_toNat_lt]
      split <;> omega
  rw [TxList.lowest,folded]
  refine or_iff_right fun above => ?_
  have := nonce.toNat_lt
  simp only [UInt64.lt_iff_toNat_lt] at above
  change 2^64 - 1 < _ at above
  omega

theorem filtered (capped : Capped l) (costLimit : Int) (gasLimit : UInt64) :
    Filtered costLimit gasLimit l (l.filter costLimit gasLimit) ∧ Capped (l.filter costLimit gasLimit).2 := by
  unfold TxList.filter
  split
  · rename_i within
    have none (tx : Transaction) (member : tx ∈ l.txs.items) : ¬ Over costLimit gasLimit tx := by
      obtain ⟨cheap,small⟩ := capped tx member
      rintro (dear | large)
      · omega
      · exact absurd (UInt64.le_trans small within.2) (UInt64.not_le.mpr large)
    exact ⟨⟨by simpa using none,by simp,by simp⟩,capped⟩
  · have bounds {tx : Transaction} (allowed : ¬ Over costLimit gasLimit tx) : cost tx ≤ costLimit ∧ tx.gasLimit ≤ gasLimit := by
      simpa [Over] using allowed
    simp only [TxSortedMap.filter]
    split
    · rename_i strict
      refine ⟨⟨by simp,by simp [strict.1,lowest_lt,and_assoc,and_comm],?_⟩,?_⟩
      · intro tx
        simp only [mem_filter,Bool.not_eq_eq_eq_not,Bool.not_true,decide_eq_false_iff_not,gt_iff_lt,lowest_lt,decide_eq_true_eq]
        grind
      · intro tx member
        exact bounds (by simpa using (mem_filter.mp (mem_filter.mp member).1).2)
    · rename_i lenient
      refine ⟨⟨by simp,?_,?_⟩,?_⟩
      · rintro tx
        simp only [not_mem_nil,false_iff]
        rintro ⟨strict,-,low,member,-⟩
        exact lenient ⟨strict,ne_nil_of_mem member⟩
      · intro tx
        simp only [mem_filter,Bool.not_eq_eq_eq_not,Bool.not_true,decide_eq_false_iff_not,decide_eq_true_eq,not_mem_nil]
        tauto
      · intro tx member
        exact bounds (by simpa using (mem_filter.mp member).2)

/-- In every list that is reached the caps are upper bounds, and `Filter` with any limits does what it is for. -/
theorem filter_exact {strict : Bool} {l : TxList} (reached : Reached strict l) : Capped l ∧
    ∀ costLimit gasLimit, Filtered costLimit gasLimit l (l.filter costLimit gasLimit) := by
  have capped : Capped l := by
    induction reached with
    | new => simp [Capped,newTxList]
    | add _ tx priceBump ih => exact capped_add ih tx priceBump
    | forward _ threshold ih => exact ih.shrink (takeOut_subset _ _ _)
    | filter _ costLimit gasLimit ih => exact (filtered ih costLimit gasLimit).2
    | @cap l l' drops _ threshold done ih =>
      unfold TxList.cap at done
      obtain ⟨r,inner,same⟩ := Runs.map_ok.mp done
      rw [← (Prod.mk.inj same).2]
      exact ih.shrink (cap_subset inner)
    | @remove l _ tx ih =>
      simp only [TxList.remove]
      split
      · exact ih
      split
      · exact ih.shrink (List.Subset.trans (filter_subset _) (remove_subset _))
      · exact ih.shrink (remove_subset _)
    | ready _ start ih => exact ih.shrink (ready_subset start)
  exact ⟨capped,fun costLimit gasLimit => (filtered capped costLimit gasLimit).1⟩

end

def transfer (nonce : UInt64) (amount : Nat) : Transaction := ⟨nonce,1,21000,none,amount,[],27,1,1⟩
/-- The first of two transactions has become too expensive, and takes the second one with it. -/
theorem filter_exact_strict :
    transfer 1 5 ∈ ((((newTxList true).add (transfer 0 7000) 10).2.add (transfer 1 5) 10).2.filter 22000 50000).1.2 := by
  have filtered := (filter_exact (.add (.add (@Reached.new true) (transfer 0 7000) 10) (transfer 1 5) 10)).2 22000 50000
  refine (filtered.invalids _).mpr ⟨rfl,by decide,transfer 0 7000,?_,by decide⟩
  exact (filtered.removed _).mpr (by decide)

end Canchain.TxPool
