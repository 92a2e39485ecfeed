import Canchain.Types
import Canchain.Keccak

/-!
The search for the newest block that a peer's chain and ours have in common, after `findAncestor`
and `calculateRequestSpan` of `can/downloader/downloader.go`: a few headers below the peer's head,
and if none of them is known a bisection. What arrives is given for each request, up to the time
when its timer fires. With an honest peer the search ends, and it ends right (`ancestor_found`).
-/
namespace Canchain.AncestorSearch
open Rlp Common Types

def maxHeaderFetch : Int := 192
def maxForkAncestry : Nat := 3*30000

inductive SyncMode where
  | fullSync | fastSync | lightSync
/-- What the search asks of the local chains. -/
structure Downloader where
  currentBlock : Nat
  currentFastBlock : Nat
  currentHeader : Nat
  hasBlock : Hash → Nat → Bool
  hasFastBlock : Hash → Nat → Bool
  hasHeader : Hash → Nat → Bool
  getHeaderByHash : Hash → Option Header
inductive Failure where
  | cancelHeaderFetch | emptyHeaderSet | invalidChain | timeout | invalidAncestor | badPeer | nilHeader
/-- What arrives while an answer is waited for. -/
inductive Event where
  | cancel
  | headers (peer : String) (headers : List Header)
  | other

/-- The value of a number as an `int64`. -/
def int64 (n : Int) : Int := n.bmod (2^64)
/-- The first number, how many, how many to leave out in between, and the last number. -/
def calculateRequestSpan (remoteHeight localHeight : Nat) : Int × Int × Int × Int :=
  let maxCount := maxHeaderFetch.tdiv 16
  let requestHead := int64 (int64 remoteHeight - 1)
  let requestHead := if requestHead < 0 then 0 else requestHead
  let requestBottom := int64 (localHeight - 1)
  let requestBottom := if requestBottom < 0 then 0 else requestBottom
  let totalSpan := requestHead - requestBottom
  let span := 1 + totalSpan.tdiv maxCount
  let span := if span < 2 then 2 else span
  let span := if span > 16 then 16 else span
  let count := 1 + totalSpan.tdiv span
  let count := if count > maxCount then maxCount else count
  let count := if count < 2 then 2 else count
  let from_ := requestHead - (count - 1)*span
  let from_ := if from_ < 0 then 0 else from_
  (from_,count,span - 1,from_ + (count - 1)*span)

def Downloader.localHeight (d : Downloader) : SyncMode → Nat
  | .fullSync => d.currentBlock
  | .fastSync => d.currentFastBlock
  | .lightSync => d.currentHeader
def Downloader.known (d : Downloader) : SyncMode → Hash → Nat → Bool
  | .fullSync => d.hasBlock
  | .fastSync => d.hasFastBlock
  | .lightSync => d.hasHeader
def Downloader.floor (d : Downloader) (mode : SyncMode) : Int :=
  if maxForkAncestry ≤ d.localHeight mode then int64 (d.localHeight mode - maxForkAncestry) else -1
/-- The headers that the peer sends, unless the timer fires first. -/
def await (id : String) : List Event → Except Failure (List Header)
  | [] => .error .timeout
  | .cancel :: _ => .error .cancelHeaderFetch
  | .headers peer headers :: events => if peer ≠ id then await id events else .ok headers
  | .other :: events => await id events

section
variable (keccak : Bytes → Hash) (d : Downloader) (mode : SyncMode) (id : String)

def Downloader.knows (header : Header) : Bool := d.known mode (header.hash keccak) header.numberU64
/-- The headers come in the order in which they were asked for. -/
def ordered (from_ skip : Int) (headers : List Header) : Bool :=
  headers.zipIdx.all fun (header,i) => int64 header.number = int64 (from_ + i*(skip + 1))
/-- The bisection; `events` are those of the request for a number. -/
def search (events : Nat → List Event) : Nat → Nat → Nat → Option (Except Failure Nat)
  | 0, _, _ => none
  | fuel + 1, start, end_ =>
    if (start + 1) % 2^64 < end_ then
      let check := (start + end_) % 2^64 / 2
      match await id (events check) with
      | .error e => some (.error e)
      | .ok [header] =>
        if d.knows keccak mode header then
          match d.getHeaderByHash (header.hash keccak) with
          | none => some (.error .nilHeader)
          | some header => if header.numberU64 ≠ check then some (.error .badPeer) else search events fuel check end_
        else search events fuel start check
      | .ok _ => some (.error .badPeer)
    else some (.ok start)
def allow (floor : Int) (number : Nat) : Except Failure Nat :=
  if int64 number ≤ floor then .error .invalidAncestor else .ok number
def findAncestor (fuel : Nat) (remoteHeader : Header) (span : List Event) (events : Nat → List Event) :
    Option (Except Failure Nat) :=
  let floor := d.floor mode
  let remoteHeight := remoteHeader.numberU64
  let (from_,_,skip,max) := calculateRequestSpan remoteHeight (d.localHeight mode)
  match await id span with
  | .error e => some (.error e)
  | .ok headers =>
    if headers.length = 0 then some (.error .emptyHeaderSet)
    else if ¬ ordered from_ skip headers then some (.error .invalidChain)
    else
      let found := headers.reverse.find? fun header =>
        ¬ (int64 header.number < from_ ∨ header.numberU64 > max) ∧ d.knows keccak mode header
      match found.filter fun header => header.hash keccak ≠ Hash.zero with
      | some header => some (allow floor header.numberU64)
      | none =>
        (search keccak d mode id events fuel (if floor > 0 then floor.toNat else 0) remoteHeight).map fun outcome =>
          outcome.bind (allow floor)
end

/-- The numbers of the first `count` headers that are asked for. -/
def places (remoteHeight localHeight count : Nat) : List Nat :=
  let (from_,_,skip,_) := calculateRequestSpan remoteHeight localHeight
  (List.range count).map fun i : Nat => (from_ + i*(skip + 1)).toNat
/-- A peer whose chain `remote` shares with ours the blocks up to `ancestor`, and which answers what it is asked. The zero hash
    stands for no block: beyond `2^63`, where the bisection may not end, no header has it. -/
structure Honest (keccak : Bytes → Hash) (d : Downloader) (mode : SyncMode) (id : String) (remote : Nat → Header)
    (height ancestor : Nat) (span : List Event) (events : Nat → List Event) : Prop where
  numbers : ∀ n ≤ height, (remote n).number = n
  shared : ∀ n ≤ height, d.knows keccak mode (remote n) ↔ n ≤ ancestor
  stored : ∀ n ≤ height, n ≤ ancestor →
    ∃ header, d.getHeaderByHash ((remote n).hash keccak) = some header ∧ header.numberU64 = n
  spans : ∀ headers, .headers id headers ∈ span → ∃ count : Nat,
    count ≤ (calculateRequestSpan (remote height).numberU64 (d.localHeight mode)).2.1 ∧
    (∀ n ∈ places (remote height).numberU64 (d.localHeight mode) count, n ≤ height) ∧
    headers = (places (remote height).numberU64 (d.localHeight mode) count).map remote
  checks : ∀ n ≤ height, ∀ headers, .headers id headers ∈ events n → headers = [remote n]
  hashes : 2^63 < (remote height).numberU64 → ∀ n ≤ height, (remote n).hash keccak ≠ Hash.zero
variable {n : Nat}

private theorem int64_small (small : n < 2^63) : int64 n = n := by
  unfold int64
  rw [Int.bmod_eq_of_le] <;> omega
/-- A head beyond `2^63` is negative as an `int64`. -/
private theorem requestHead_spec (n : Nat) : 0 ≤ (if int64 (int64 n - 1) < 0 then 0 else int64 (int64 n - 1)) ∧
    (if int64 (int64 n - 1) < 0 then 0 else int64 (int64 n - 1)) < 2^63 ∧
    (n < 2^64 → (if int64 (int64 n - 1) < 0 then 0 else int64 (int64 n - 1)) = 0 ∨
      (if int64 (int64 n - 1) < 0 then 0 else int64 (int64 n - 1)) < n ∧ n ≤ 2^63) := by
  have wraps (x : Int) : int64 x = if x % 2^64 < 2^63 then x % 2^64 else x % 2^64 - 2^64 := Int.bmod_def _ _
  rw [wraps n,wraps]
  split_ifs <;> omega
/-- The span starts at 0 or below the peer's head, at 0 if that is beyond `2^63`, and ends below `2^63`. -/
private theorem span_spec {remoteHeight localHeight : Nat} {asked : Int × Int × Int × Int}
    (isSpan : calculateRequestSpan remoteHeight localHeight = asked) :
    0 ≤ asked.1 ∧ 2 ≤ asked.2.1 ∧ asked.2.1 ≤ maxHeaderFetch.tdiv 16 ∧
      (remoteHeight < 2^64 → asked.1 = 0 ∨ asked.1 < remoteHeight ∧ remoteHeight ≤ 2^63) ∧ asked.1 ≤ asked.2.2.2 ∧
      (∀ count : Nat, count ≤ asked.2.1 → ∀ n ∈ places remoteHeight localHeight count, n < 2^63) ∧
      ∀ count, 0 < count → asked.1.toNat ∈ places remoteHeight localHeight count := by
  unfold places
  rw [isSpan]
  unfold calculateRequestSpan at isSpan
  extract_lets maxCount head₀ head bottom₀ bottom totalSpan span₀ span₁ span count₀ count₁ count from₀ from_ at isSpan
  subst isSpan
  have spans : 2 ≤ span ∧ span ≤ 16 := by
    simp only [span,span₁]
    split_ifs <;> omega
  have isMax : maxCount = 12 := rfl
  have counts : 2 ≤ count ∧ count ≤ maxCount := by
    simp only [count,count₁]
    split_ifs <;> omega
  have product : 0 ≤ (count - 1)*span ∧ (count - 1)*span ≤ 11*16 :=
    ⟨Int.mul_nonneg (by omega) (by omega),Int.mul_le_mul (by omega) spans.2 (by omega) (by omega)⟩
  have heads : 0 ≤ head ∧ head < 2^63 ∧ (remoteHeight < 2^64 → head = 0 ∨ head < remoteHeight ∧ remoteHeight ≤ 2^63) :=
    requestHead_spec _
  have froms : 0 ≤ from_ ∧ (from_ = 0 ∨ from_ ≤ head) ∧ from_ + (count - 1)*span < 2^63 := by
    simp only [from_,from₀]
    split_ifs <;> omega
  dsimp only
  refine ⟨froms.1,counts.1,counts.2,by omega,by omega,fun most few n member => ?_,fun most some_ => ?_⟩
  · obtain ⟨i,before,rfl⟩ := List.mem_map.mp member
    have upTo := Int.mul_le_mul_of_nonneg_right (show (i : Int) ≤ count - 1 by have := List.mem_range.mp before; omega)
      (show 0 ≤ span by omega)
    rw [Int.sub_add_cancel]
    omega
  · exact List.mem_map.mpr ⟨0,List.mem_range.mpr some_,by simp⟩
variable {headers : List Header}

private theorem await_mem {id : String} {events : List Event} (got : await id events = .ok headers) :
    .headers id headers ∈ events := by
  induction events with
  | nil => cases got
  | cons event events ih =>
    cases event with
    | cancel => cases got
    | other => exact List.mem_cons_of_mem _ (ih got)
    | headers peer sent =>
      rw [await] at got
      split at got
      · exact List.mem_cons_of_mem _ (ih got)
      · rename_i same
        cases got
        simp [not_not.mp same]

section
variable {keccak : Bytes → Hash} {d : Downloader} {mode : SyncMode} {id : String} {remote : Nat → Header} {height ancestor : Nat}
  {span : List Event} {events : Nat → List Event} (honest : Honest keccak d mode id remote height ancestor span events)
include honest

private theorem Honest.numberU64_le : (remote height).numberU64 ≤ height := by
  rw [Header.numberU64,honest.numbers height le_rfl]
  exact Nat.mod_le _ _
/-- The bisection ends, at a shared block unless it is where it started, and at the last one if that is below its end. -/
private theorem search_spec (start end_ : Nat) (low : start < 2^63) (small : end_ ≤ 2^63) (inside : end_ ≤ height) :
    ∃ outcome, (∀ fuel > end_ - start, search keccak d mode id events fuel start end_ = some outcome) ∧
      ∀ n, outcome = .ok n → (n = start ∨ n < end_ ∧ n ≤ ancestor) ∧ (ancestor < end_ → ancestor ≤ n) := by
  generalize width : end_ - start = w
  induction w using Nat.strong_induction_on generalizing start end_ with
  | h w ih =>
    have noWrap : (start + 1) % 2^64 = start + 1 := Nat.mod_eq_of_lt (by omega)
    have noWrap' : (start + end_) % 2^64 = start + end_ := Nat.mod_eq_of_lt (by omega)
    have unfolds : ∀ {outcome}, (∀ fuel, w ≤ fuel → search keccak d mode id events (fuel + 1) start end_ = some outcome) →
        ∀ fuel > w, search keccak d mode id events fuel start end_ = some outcome := by
      intro outcome enough fuel more
      obtain ⟨k,rfl⟩ : ∃ k, fuel = k + 1 := ⟨fuel - 1,by omega⟩
      exact enough k (by omega)
    by_cases more : start + 1 < end_
    · have between : start < (start + end_)/2 ∧ (start + end_)/2 < end_ := by omega
      generalize isCheck : (start + end_)/2 = check at between
      cases got : await id (events check) with
      | error e =>
        refine ⟨.error e,unfolds fun fuel _ => ?_,fun n same => by cases same⟩
        simp only [search,noWrap,noWrap',more,if_true,isCheck,got]
      | ok headers =>
        obtain rfl := honest.checks check (by omega) headers (await_mem got)
        by_cases known : check ≤ ancestor
        · obtain ⟨header,found,number⟩ := honest.stored check (by omega) known
          obtain ⟨outcome,ends,right⟩ := ih _ (by omega) check end_ (by omega) small inside rfl
          refine ⟨outcome,unfolds fun fuel enough => ?_,fun n same => ?_⟩
          · rw [← ends fuel (by omega)]
            simp only [search,noWrap,noWrap',more,if_true,isCheck,got,(honest.shared check (by omega)).mpr known,found,number,
              ne_eq,not_true_eq_false,if_false]
          · have := right n same
            omega
        · obtain ⟨outcome,ends,right⟩ := ih _ (by omega) start check low (by omega) (by omega) rfl
          refine ⟨outcome,unfolds fun fuel enough => ?_,fun n same => ?_⟩
          · rw [← ends fuel (by omega)]
            have unknown := mt (honest.shared check (by omega)).mp known
            simp only [search,noWrap,noWrap',more,if_true,isCheck,got,unknown,Bool.false_eq_true,if_false]
          · have := right n same
            omega
    · refine ⟨.ok start,unfolds fun fuel _ => by simp only [search,noWrap,more,if_false],?_⟩
      rintro n ⟨⟩
      omega

theorem Honest.sampled {header : Header} (got : await id span = .ok headers) (member : header ∈ headers) :
    ∃ n ≤ height, header = remote n ∧ header.numberU64 = n ∧ n < 2^63 := by
  obtain ⟨count,few,inside,rfl⟩ := honest.spans headers (await_mem got)
  obtain ⟨n,place,rfl⟩ := List.mem_map.mp member
  have small := (span_spec rfl).2.2.2.2.2.1 count few n place
  refine ⟨n,inside n place,rfl,?_,small⟩
  rw [Header.numberU64,honest.numbers n (inside n place),Nat.mod_eq_of_lt (by omega)]
/-- The first header is that of the genesis block or of one below the peer's head, of the genesis block beyond `2^63`. -/
theorem Honest.first (got : await id span = .ok headers) (some_ : headers.length ≠ 0) :
    ∃ n ≤ height, remote n ∈ headers ∧ n = (calculateRequestSpan (remote height).numberU64 (d.localHeight mode)).1 ∧
      (n = 0 ∨ n < (remote height).numberU64 ∧ (remote height).numberU64 ≤ 2^63) := by
  obtain ⟨count,few,inside,rfl⟩ := honest.spans headers (await_mem got)
  obtain ⟨least,-,-,first,-,-,begins⟩ := span_spec (rfl : calculateRequestSpan (remote height).numberU64 (d.localHeight mode) = _)
  have place := begins count (Nat.pos_of_ne_zero fun none => some_ (by simp [places,none]))
  have := first (remote height).numberU64_lt
  exact ⟨_,inside _ place,List.mem_map_of_mem place,by omega,by omega⟩
/-- Beyond `2^63` a known header is found. -/
theorem Honest.finds (high : 2^63 < (remote height).numberU64) (got : await id span = .ok headers) (some_ : headers.length ≠ 0) :
    ∃ header, headers.reverse.find? (fun header => ¬ (int64 header.number <
      (calculateRequestSpan (remote height).numberU64 (d.localHeight mode)).1 ∨ header.numberU64 >
      (calculateRequestSpan (remote height).numberU64 (d.localHeight mode)).2.2.2) ∧ d.knows keccak mode header) = some header := by
  obtain ⟨n,inside,member,isFirst,zero⟩ := honest.first got some_
  obtain rfl : n = 0 := by omega
  obtain ⟨-,-,-,-,upTo,-⟩ := span_spec (rfl : calculateRequestSpan (remote height).numberU64 (d.localHeight mode) = _)
  rw [← Option.isSome_iff_exists,List.find?_isSome]
  refine ⟨remote 0,List.mem_reverse.mpr member,?_⟩
  have number : (remote 0).numberU64 = 0 := by rw [Header.numberU64,honest.numbers 0 inside,Nat.zero_mod]
  simp only [number,honest.numbers 0 inside,(honest.shared 0 inside).mpr (Nat.zero_le _),int64_small (n := 0) (by decide),
    decide_eq_true_eq,and_true]
  omega
end

/-- With an honest peer and a chain of our own of fewer than `2^63` blocks the search ends, and the block that it returns is
    known, shared and above the floor; it is the last shared block if none of the first headers is known. Two to twelve headers
    are asked for first, from a number that is not negative. -/
theorem ancestor_found (keccak : Bytes → Hash) (d : Downloader) (mode : SyncMode) (id : String) (remote : Nat → Header)
    (height ancestor : Nat) (span : List Event) (events : Nat → List Event)
    (honest : Honest keccak d mode id remote height ancestor span events) (smallLocal : d.localHeight mode < 2^63) :
    (∃ outcome, (∀ fuel > height, findAncestor keccak d mode id fuel (remote height) span events = some outcome) ∧
      ∀ n, outcome = .ok n → d.knows keccak mode (remote n) ∧ n ≤ ancestor ∧ (d.localHeight mode : Int) - maxForkAncestry < n ∧
        ((∀ headers, await id span = .ok headers → ∀ header ∈ headers, ¬ d.knows keccak mode header) → n = ancestor)) ∧
    ∀ remoteHeight localHeight, 2 ≤ (calculateRequestSpan remoteHeight localHeight).2.1 ∧
      (calculateRequestSpan remoteHeight localHeight).2.1 ≤ maxHeaderFetch.tdiv 16 ∧
      0 ≤ (calculateRequestSpan remoteHeight localHeight).1 := by
  constructor
  · have allowed : ∀ {n m : Nat}, n < 2^63 → allow (d.floor mode) n = .ok m → n = m ∧ d.floor mode < n := by
      intro n m small ok
      unfold allow at ok
      rw [int64_small small] at ok
      split at ok
      · cases ok
      · cases ok
        exact ⟨rfl,by omega⟩
    have floors : (d.localHeight mode : Int) - maxForkAncestry ≤ d.floor mode ∧ d.floor mode < 2^63 ∧ -1 ≤ d.floor mode := by
      unfold Downloader.floor
      split
      · rename_i deep
        rw [show (d.localHeight mode : Int) - maxForkAncestry = (d.localHeight mode - maxForkAncestry : Nat) by omega,
          int64_small (by omega)]
        omega
      · omega
    have upTo := honest.numberU64_le
    unfold findAncestor
    cases got : await id span with
    | error e => exact ⟨.error e,fun fuel _ => rfl,fun n same => by cases same⟩
    | ok headers =>
      dsimp only
      by_cases none_ : headers.length = 0
      · exact ⟨.error .emptyHeaderSet,fun fuel _ => by rw [if_pos none_],fun n same => by cases same⟩
      simp only [if_neg none_]
      split
      · exact ⟨.error .invalidChain,fun fuel _ => rfl,fun n same => by cases same⟩
      cases found : Option.filter _ (List.find? _ headers.reverse) with
      | some header =>
        refine ⟨allow (d.floor mode) header.numberU64,fun fuel _ => rfl,fun n same => ?_⟩
        obtain ⟨first,-⟩ := Option.filter_eq_some_iff.mp found
        have member : header ∈ headers := List.mem_reverse.mp (List.mem_of_find?_eq_some first)
        have known : d.knows keccak mode header := by
          have := List.find?_some first
          simp only [decide_eq_true_eq] at this
          exact this.2
        obtain ⟨m,inside,rfl,number,small⟩ := honest.sampled got member
        rw [number] at same
        obtain ⟨rfl,above⟩ := allowed small same
        exact ⟨known,(honest.shared m inside).mp known,by omega,fun unknown => absurd known (unknown headers rfl _ member)⟩
      | none =>
        -- beyond `2^63` the genesis block would have been found
        have low : (remote height).numberU64 ≤ 2^63 := by
          by_contra high
          obtain ⟨header,first⟩ := honest.finds (by omega) got none_
          have member : header ∈ headers := List.mem_reverse.mp (List.mem_of_find?_eq_some first)
          obtain ⟨m,inside,rfl,-⟩ := honest.sampled got member
          rw [first] at found
          simp [honest.hashes (by omega) m inside] at found
        obtain ⟨outcome,ends,right⟩ := search_spec honest (if d.floor mode > 0 then (d.floor mode).toNat else 0)
          (remote height).numberU64 (by split <;> omega) low upTo
        refine ⟨outcome.bind (allow (d.floor mode)),fun fuel enough => by rw [ends fuel (by omega)]; rfl,fun n same => ?_⟩
        cases outcome with
        | error e => cases same
        | ok m =>
          obtain ⟨place,last⟩ := right m rfl
          obtain ⟨rfl,above⟩ := allowed (by split at place <;> omega) same
          -- the search does not stay where it started, unless that is the genesis block
          have inside : m ≤ height ∧ m ≤ ancestor := by split at place <;> omega
          obtain ⟨inside,shared⟩ := inside
          refine ⟨(honest.shared m inside).mpr shared,shared,by omega,fun unknown => ?_⟩
          obtain ⟨first,within,member,-,below⟩ := honest.first got none_
          have above := mt (honest.shared first within).mpr (unknown headers rfl _ member)
          exact le_antisymm shared (last (by omega))
  · intro remoteHeight localHeight
    obtain ⟨first,least,most,-⟩ := span_spec (rfl : calculateRequestSpan remoteHeight localHeight = _)
    exact ⟨least,most,first⟩

def bare (number : Nat) : Header :=
  ⟨.zero,.zero,.zero,.zero,.zero,.zero,.zero,0,number,0,0,0,[],.zero,.zero⟩
/-- The first four blocks of a chain of our own, two of which are the peer's. -/
def ours (keccak : Bytes → Hash) (height : Nat) : Downloader :=
  let headers := [bare 0,bare 1,{ bare 2 with gasLimit := 1 },{ bare 3 with gasLimit := 1 }]
  ⟨height,0,0,fun hash n => headers[n]?.any (·.hash keccak = hash),fun _ _ => false,fun _ _ => false,
    fun hash => headers.find? (·.hash keccak = hash)⟩
def answer (numbers : List Nat) : List Event := [.headers "peer" (numbers.map bare)]
private theorem ours_shared : ∀ n ≤ 20, ((ours Keccak.keccak256 0).knows Keccak.keccak256 .fullSync (bare n) ↔ n ≤ 1) ∧
    (n ≤ 1 → (ours Keccak.keccak256 0).getHeaderByHash ((bare n).hash Keccak.keccak256) = some (bare n)) := by
  rw [Keccak.keccak_packed]
  decide +kernel
private theorem ours_honest {localHeight height : Nat} (count : Nat) (short : height ≤ 20)
    (few : count ≤ (calculateRequestSpan height localHeight).2.1) (inside : ∀ n ∈ places height localHeight count, n ≤ height) :
    Honest Keccak.keccak256 (ours Keccak.keccak256 localHeight) .fullSync "peer" bare height 1
      (answer (places height localHeight count)) fun n => answer [n] := by
  have number {n : Nat} (inside : n ≤ height) : (bare n).numberU64 = n := Nat.mod_eq_of_lt (show n < 2^64 by omega)
  refine ⟨fun n _ => rfl,fun n inside => (ours_shared n (by omega)).1,
    fun n inside known => ⟨bare n,(ours_shared n (by omega)).2 known,number inside⟩,?_,?_,?_⟩
  · intro headers sent
    cases List.mem_singleton.mp sent
    rw [number le_rfl]
    exact ⟨count,few,inside,rfl⟩
  · intro n _ headers sent
    cases List.mem_singleton.mp sent
    rfl
  · rw [number le_rfl]
    omega
/-- None of the nine headers that the peer sends first is known. -/
theorem ancestor_found_bisected : (findAncestor Keccak.keccak256 (ours Keccak.keccak256 3) .fullSync "peer" 21 (bare 20)
      (answer (places 20 3 9)) fun n => answer [n]).bind Except.toOption = some 1 ∧
    ∃ outcome, ∀ fuel > 20, findAncestor Keccak.keccak256 (ours Keccak.keccak256 3) .fullSync "peer" fuel (bare 20)
      (answer (places 20 3 9)) (fun n => answer [n]) = some outcome := by
  constructor
  · rw [Keccak.keccak_packed]
    decide +kernel
  · have found := ancestor_found Keccak.keccak256 (ours Keccak.keccak256 3) .fullSync "peer" bare 20 1 _ _
      (ours_honest 9 (by decide) (by decide) (by decide)) (by decide)
    exact found.1.imp fun _ right => right.1
/-- From `2^63` on the floor is negative, and the genesis block is returned from far below it. -/
theorem floor_overflows : Honest Keccak.keccak256 (ours Keccak.keccak256 (2^63 + maxForkAncestry)) .fullSync "peer" bare 1 1
      (answer (places 1 (2^63 + maxForkAncestry) 1)) (fun n => answer [n]) ∧
    (findAncestor Keccak.keccak256 (ours Keccak.keccak256 (2^63 + maxForkAncestry)) .fullSync "peer" 2 (bare 1)
      (answer (places 1 (2^63 + maxForkAncestry) 1)) fun n => answer [n]).bind Except.toOption = some 0 := by
  refine ⟨ours_honest 1 (by decide) (by decide +kernel) (by decide +kernel),?_⟩
  rw [Keccak.keccak_packed]
  decide +kernel

end Canchain.AncestorSearch
