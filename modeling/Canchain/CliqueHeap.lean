import Canchain.CliqueReplay
import Canchain.Slices

/-!
Snapshots in memory: the maps are references, and the votes a slice that is shortened and
extended in place. `apply` works on a copy with maps and an array of its own, so it does what
the snapshots as values do, and changes no snapshot that was there before (`apply_on_heap`).
-/
namespace Canchain.Clique
open Common Types Runs Slices List

/-- The fields of a snapshot in memory. -/
structure Fields where
  number : Nat
  hash : Hash
  signers : Nat
  recents : Nat
  votes : Slice
  tally : Nat
structure Heap where
  snapshots : List Fields
  signers : List (Finset Address)
  recents : List (List (Nat × Address))
  tallies : List (Address → Option Tally)
  arrays : List (List Vote)

/-- What an array holds past the slices of it. -/
def noVote : Vote := ⟨.zero,0,.zero,false⟩

namespace Heap

def fields (m : Heap) (p : Nat) : Fields := m.snapshots.getD p ⟨0,.zero,0,0,.nil,0⟩
def signersOf (m : Heap) (p : Nat) : Finset Address := m.signers.getD (m.fields p).signers ∅
def recentsOf (m : Heap) (p : Nat) : List (Nat × Address) := m.recents.getD (m.fields p).recents []
def tallyOf (m : Heap) (p : Nat) : Address → Option Tally := m.tallies.getD (m.fields p).tally fun _ => none
def votesOf (m : Heap) (p : Nat) : List Vote := (m.fields p).votes.elements m.arrays

def setFields (m : Heap) (p : Nat) (f : Fields) : Heap := { m with snapshots := m.snapshots.set p f }
def setSigners (m : Heap) (p : Nat) (signers : Finset Address) : Heap :=
  { m with signers := m.signers.set (m.fields p).signers signers }
def setRecents (m : Heap) (p : Nat) (recents : List (Nat × Address)) : Heap :=
  { m with recents := m.recents.set (m.fields p).recents recents }
def setTally (m : Heap) (p : Nat) (address : Address) (tally : Option Tally) : Heap :=
  { m with tallies := m.tallies.set (m.fields p).tally (Function.update (m.tallyOf p) address tally) }
/-- `snap.Votes = …`, together with what that did to the arrays. -/
def setVotes (m : Heap) (p : Nat) (votes : List (List Vote) × Slice) : Heap :=
  { m with arrays := votes.1, snapshots := m.snapshots.set p { m.fields p with votes := votes.2 } }

/-- `Snapshot.copy` -/
def copy (m : Heap) (p : Nat) : Heap × Nat :=
  let votes := Slices.copy m.arrays (m.fields p).votes
  let cpy : Fields :=
    { m.fields p with signers := m.signers.length, recents := m.recents.length, votes := votes.2, tally := m.tallies.length }
  ({ snapshots := m.snapshots ++ [cpy], signers := m.signers ++ [m.signersOf p], recents := m.recents ++ [m.recentsOf p],
     tallies := m.tallies ++ [m.tallyOf p], arrays := votes.1 },m.snapshots.length)

def validVote (m : Heap) (p : Nat) (address : Address) (authorize : Bool) : Bool :=
  let signer := decide (address ∈ m.signersOf p)
  (signer && !authorize) || (!signer && authorize)
def cast (m : Heap) (p : Nat) (address : Address) (authorize : Bool) : Bool × Heap :=
  if m.validVote p address authorize then
    match m.tallyOf p address with
    | some old => (true,m.setTally p address (some { old with votes := old.votes + 1 }))
    | none => (true,m.setTally p address (some ⟨authorize,1⟩))
  else (false,m)
def uncast (m : Heap) (p : Nat) (address : Address) (authorize : Bool) : Heap :=
  match m.tallyOf p address with
  | none => m
  | some tally =>
    if tally.authorize ≠ authorize then m
    else if tally.votes > 1 then m.setTally p address (some { tally with votes := tally.votes - 1 })
    else m.setTally p address none

def limit (m : Heap) (p : Nat) : Nat := (m.signersOf p).card / 2 + 1
def expire (m : Heap) (p number : Nat) : Heap :=
  if number ≥ m.limit p then m.setRecents p ((m.recentsOf p).filter fun r => r.1 ≠ number - m.limit p) else m
/-- The votes and a new map for the tally. -/
def reset (m : Heap) (cfg : CliqueConfig) (p number : Nat) : Heap :=
  if number % cfg.epoch = 0 then
    { m with
      tallies := m.tallies ++ [fun _ => none]
      snapshots := m.snapshots.set p { m.fields p with votes := .nil, tally := m.tallies.length } }
  else m
def sign (m : Heap) (p number : Nat) (signer : Address) : Heap :=
  m.setRecents p ((number,signer) :: (m.recentsOf p).filter fun r => r.1 ≠ number)
/-- `append(snap.Votes[:i], snap.Votes[i+1:]...)` -/
def removeVote (m : Heap) (p i : Nat) : Heap := m.setVotes p (removeAt m.arrays (m.fields p).votes i)
def discard (m : Heap) (p : Nat) (signer address : Address) : Heap :=
  match (m.votesOf p).findIdx? (Vote.isOf signer address) with
  | none => m
  | some i =>
    let vote := (m.votesOf p).getD i noVote
    (m.uncast p vote.address vote.authorize).removeVote p i
def record (m : Heap) (spare : Nat → Nat) (p : Nat) (vote : Vote) : Heap :=
  if (m.cast p vote.address vote.authorize).1 then
    let m := (m.cast p vote.address vote.authorize).2
    m.setVotes p (push m.arrays (m.fields p).votes (spare (m.fields p).votes.len) noVote vote)
  else m
/-- The loops that remove votes: the index stays where a vote was removed. -/
def sweep (p : Nat) (drops : Vote → Bool) (act : Heap → Vote → Heap) : Nat → Heap → Nat → Heap
  | 0, m, _ => m
  | fuel + 1, m, i =>
    match (m.votesOf p)[i]? with
    | none => m
    | some vote =>
      if drops vote then sweep p drops act fuel ((act m vote).removeVote p i) i
      else sweep p drops act fuel m (i + 1)
def dropVotesOf (m : Heap) (p : Nat) (signer : Address) : Heap :=
  sweep p (fun v => v.signer = signer) (fun m v => m.uncast p v.address v.authorize) (m.votesOf p).length m 0
def dropVotesOn (m : Heap) (p : Nat) (address : Address) : Heap :=
  (sweep p (fun v => v.address = address) (fun m _ => m) (m.votesOf p).length m 0).setTally p address none
def settle (m : Heap) (p number : Nat) (address : Address) : Heap :=
  let tally := (m.tallyOf p address).getD ⟨false,0⟩
  if tally.votes > (m.signersOf p).card / 2 then
    if tally.authorize then (m.setSigners p (insert address (m.signersOf p))).dropVotesOn p address
    else (((m.setSigners p ((m.signersOf p).erase address)).expire p number).dropVotesOf p address).dropVotesOn p address
  else m

/-- One round of the loop of `apply`. -/
def applyHeader (crypto : Crypto) (cfg : CliqueConfig) (spare : Nat → Nat) (p : Nat) (m : Heap) (header : Header) :
    Heap × Except CliqueError Unit :=
  let number := header.numberU64
  let m := (m.reset cfg p number).expire p number
  match ecrecover crypto header with
  | .error err => (m,.error err)
  | .ok signer =>
    if signer ∉ m.signersOf p then (m,.error .unauthorizedSigner)
    else if signer ∈ (m.recentsOf p).map (·.2) then (m,.error .recentlySigned)
    else
      let m := (m.sign p number signer).discard p signer header.coinbase
      match Snapshot.authorizes header.nonce with
      | .error err => (m,.error err)
      | .ok authorize => ((m.record spare p ⟨signer,number,header.coinbase,authorize⟩).settle p number header.coinbase,.ok ())
def replay (crypto : Crypto) (cfg : CliqueConfig) (spare : Nat → Nat) (p : Nat) : Heap → List Header → Heap × Except CliqueError Unit
  | m, [] => (m,.ok ())
  | m, header :: headers =>
    match applyHeader crypto cfg spare p m header with
    | (m,.error err) => (m,.error err)
    | (m,.ok ()) => replay crypto cfg spare p m headers
/-- `Snapshot.apply` on the snapshot at a pointer. -/
def apply (crypto : Crypto) (cfg : CliqueConfig) (spare : Nat → Nat) (m : Heap) (p : Nat) (headers : List Header) :
    Heap × Except CliqueError Nat :=
  match headers with
  | [] => (m,.ok p)
  | first :: rest =>
    if ¬ Snapshot.consecutive (first :: rest) then (m,.error .invalidVotingChain)
    else if first.numberU64 ≠ ((m.fields p).number + 1) % 2^64 then (m,.error .invalidVotingChain)
    else
      let snap := (m.copy p).2
      match replay crypto cfg spare snap (m.copy p).1 (first :: rest) with
      | (m,.error err) => (m,.error err)
      | (m,.ok ()) =>
        (m.setFields snap { m.fields snap with
          number := ((m.fields snap).number + (first :: rest).length) % 2^64
          hash := ((first :: rest).getLast (List.cons_ne_nil first rest)).hash crypto.keccak },.ok snap)

end Heap

/-- What was in memory is still there as it was. -/
structure Heap.Keeps (old new : Heap) : Prop where
  snapshots : old.snapshots <+: new.snapshots
  signers : old.signers <+: new.signers
  recents : old.recents <+: new.recents
  tallies : old.tallies <+: new.tallies
  arrays : old.arrays <+: new.arrays
/-- The snapshot at the pointer, through its fields. -/
structure Holds (m : Heap) (p : Nat) (f : Fields) (s : Snapshot) : Prop where
  fields : m.snapshots[p]? = some f
  number : f.number = s.number
  hash : f.hash = s.hash
  signers : m.signers[f.signers]? = some s.signers
  recents : m.recents[f.recents]? = some s.recents
  tally : m.tallies[f.tally]? = some s.tally
  valid : f.votes.Valid m.arrays
  votes : f.votes.elements m.arrays = s.votes
/-- The pointer shows the snapshot. -/
def Heap.Shows (m : Heap) (p : Nat) (s : Snapshot) : Prop := ∃ f, Holds m p f s
/-- The snapshot at the pointer, all of it allocated since. -/
structure Owned (old m : Heap) (p : Nat) (s : Snapshot) : Prop where
  keeps : old.Keeps m
  holds : ∃ f, Holds m p f s ∧ old.signers.length ≤ f.signers ∧ old.recents.length ≤ f.recents ∧
    old.tallies.length ≤ f.tally ∧ (f.votes.cap = 0 ∨ old.arrays.length ≤ f.votes.array)
  fresh : old.snapshots.length ≤ p

theorem Heap.Keeps.refl (m : Heap) : m.Keeps m :=
  ⟨prefix_refl _,prefix_refl _,prefix_refl _,prefix_refl _,prefix_refl _⟩
variable {s : Snapshot}
variable {old : Heap} {p : Nat}
/-- A snapshot that is left alone shows what it showed. -/
theorem Heap.Keeps.shows {new : Heap} (keeps : old.Keeps new) (shows_ : old.Shows p s) :
    new.Shows p s := by
  obtain ⟨f,holds⟩ := shows_
  obtain ⟨valid,votes⟩ := holds.valid.mono keeps.arrays
  exact ⟨f,prefix_read keeps.snapshots holds.fields,holds.number,holds.hash,prefix_read keeps.signers holds.signers,
    prefix_read keeps.recents holds.recents,prefix_read keeps.tallies holds.tally,valid,votes.trans holds.votes⟩
variable {m : Heap}

theorem Owned.shows (owned : Owned old m p s) : m.Shows p s := by
  obtain ⟨f,holds,-⟩ := owned.holds
  exact ⟨f,holds⟩

section
variable {f : Fields}

theorem Holds.fields_eq (holds : Holds m p f s) : m.fields p = f := by
  simp [Heap.fields,getD_eq_getElem?_getD,holds.fields]
theorem Heap.Shows.signers (shows_ : m.Shows p s) : m.signersOf p = s.signers := by
  obtain ⟨f,holds⟩ := shows_
  simp [signersOf,holds.fields_eq,getD_eq_getElem?_getD,holds.signers]
theorem Heap.Shows.recents (shows_ : m.Shows p s) : m.recentsOf p = s.recents := by
  obtain ⟨f,holds⟩ := shows_
  simp [recentsOf,holds.fields_eq,getD_eq_getElem?_getD,holds.recents]
theorem Heap.Shows.tally (shows_ : m.Shows p s) : m.tallyOf p = s.tally := by
  obtain ⟨f,holds⟩ := shows_
  simp [tallyOf,holds.fields_eq,getD_eq_getElem?_getD,holds.tally]
theorem Heap.Shows.votes (shows_ : m.Shows p s) : m.votesOf p = s.votes := by
  obtain ⟨f,holds⟩ := shows_
  rw [votesOf,holds.fields_eq,holds.votes]
end
variable {α : Type} {i : Nat} {x : α} {act : Heap → Vote → Heap} {Reached : Heap → α → Snapshot → Prop}

section
theorem getElem?_set_some {l : List α} (held : l[i]? = some x) (y : α) : (l.set i y)[i]? = some y :=
  List.getElem?_set_self (List.getElem?_eq_some_iff.mp held).1

variable (owned : Owned old m p s)
include owned
theorem owned_setSigners (signers : Finset Address) : Owned old (m.setSigners p signers) p (s.withSigners signers) := by
  obtain ⟨keeps,⟨f,holds,own⟩,fresh⟩ := owned
  have at_ := holds.fields_eq
  refine ⟨{ keeps with signers := prefix_set keeps.signers (by rw [at_]; exact own.1) signers },
    ⟨f,{ holds with signers := ?_ },own⟩,fresh⟩
  rw [Heap.setSigners,at_]
  exact getElem?_set_some holds.signers signers
theorem owned_setRecents (recents : List (Nat × Address)) :
    Owned old (m.setRecents p recents) p { s with recents := recents } := by
  obtain ⟨keeps,⟨f,holds,own⟩,fresh⟩ := owned
  have at_ := holds.fields_eq
  refine ⟨{ keeps with recents := prefix_set keeps.recents (by rw [at_]; exact own.2.1) recents },
    ⟨f,{ holds with recents := ?_ },own⟩,fresh⟩
  rw [Heap.setRecents,at_]
  exact getElem?_set_some holds.recents recents
theorem owned_setTally (address : Address) (tally : Option Tally) :
    Owned old (m.setTally p address tally) p (s.setTally address tally) := by
  have read := owned.shows.tally
  obtain ⟨keeps,⟨f,holds,own⟩,fresh⟩ := owned
  have at_ := holds.fields_eq
  refine ⟨{ keeps with tallies := prefix_set keeps.tallies (by rw [at_]; exact own.2.2.1) _ },
    ⟨f,{ holds with tally := ?_ },own⟩,fresh⟩
  rw [Heap.setTally,at_,read]
  exact getElem?_set_some holds.tally _
/-- Votes that were changed in place, or in a new array. -/
theorem owned_setVotes {votes : List (List Vote) × Slice} {left : List Vote}
    (valid : votes.2.Valid votes.1) (elements : votes.2.elements votes.1 = left) (kept : old.arrays <+: votes.1)
    (own : votes.2.cap = 0 ∨ old.arrays.length ≤ votes.2.array) :
    Owned old (m.setVotes p votes) p { s with votes := left } := by
  obtain ⟨keeps,⟨f,holds,signers,recents,tally,-⟩,fresh⟩ := owned
  have at_ := holds.fields_eq
  refine ⟨{ keeps with snapshots := prefix_set keeps.snapshots fresh _, arrays := kept },
    ⟨{ f with votes := votes.2 },{ holds with fields := ?_, valid := valid, votes := elements },signers,recents,tally,own⟩,fresh⟩
  rw [Heap.setVotes,at_]
  exact getElem?_set_some holds.fields _
theorem owned_reset (cfg : CliqueConfig) (number : Nat) : Owned old (m.reset cfg p number) p (s.reset cfg number) := by
  unfold Heap.reset Snapshot.reset
  split
  · obtain ⟨keeps,⟨f,holds,signers,recents,tally,-⟩,fresh⟩ := owned
    have at_ := holds.fields_eq
    refine ⟨{ keeps with snapshots := prefix_set keeps.snapshots fresh _, tallies := prefix_alloc keeps.tallies _ },
      ⟨{ f with votes := .nil, tally := m.tallies.length },
        { holds with fields := ?_, tally := List.getElem?_concat_length, valid := nil_valid, votes := nil_elements },
        signers,recents,keeps.tallies.length_le,Or.inl rfl⟩,fresh⟩
    rw [at_]
    exact getElem?_set_some holds.fields _
  · exact owned
theorem owned_stamp (number : Nat) (hash : Hash) :
    Owned old (m.setFields p { m.fields p with number := number, hash := hash }) p (s.stamp number hash) := by
  obtain ⟨keeps,⟨f,holds,own⟩,fresh⟩ := owned
  have at_ := holds.fields_eq
  refine ⟨{ keeps with snapshots := prefix_set keeps.snapshots fresh _ },
    ⟨{ f with number := number, hash := hash },{ holds with fields := ?_, number := rfl, hash := rfl },own⟩,fresh⟩
  rw [at_]
  exact getElem?_set_some holds.fields _
omit owned in
theorem owned_copy (shows_ : m.Shows p s) : Owned m (m.copy p).1 (m.copy p).2 s := by
  have signers := shows_.signers
  have recents := shows_.recents
  have tally := shows_.tally
  obtain ⟨f,holds⟩ := shows_
  obtain ⟨valid,votes⟩ := copy_spec holds.valid
  refine ⟨⟨prefix_append _ _,prefix_append _ _,prefix_append _ _,prefix_append _ _,prefix_append _ _⟩,
    ⟨_,⟨List.getElem?_concat_length,?_,?_,?_,?_,?_,?_,?_⟩,le_rfl,le_rfl,le_rfl,Or.inr le_rfl⟩,le_rfl⟩
  · rw [holds.fields_eq,holds.number]
  · rw [holds.fields_eq,holds.hash]
  · rw [← signers]
    exact List.getElem?_concat_length
  · rw [← recents]
    exact List.getElem?_concat_length
  · rw [← tally]
    exact List.getElem?_concat_length
  · simpa only [Heap.copy,holds.fields_eq] using valid
  · simpa only [Heap.copy,holds.fields_eq,holds.votes] using votes

/-! ### The steps of a round -/

omit owned in
theorem uncast_votes (s : Snapshot) (address : Address) (authorize : Bool) : (s.uncast address authorize).votes = s.votes := by
  unfold Snapshot.uncast
  split
  · rfl
  · split
    · rfl
    · split <;> rfl
theorem owned_uncast (address : Address) (authorize : Bool) :
    Owned old (m.uncast p address authorize) p (s.uncast address authorize) := by
  unfold Heap.uncast Snapshot.uncast
  rw [owned.shows.tally]
  cases s.tally address with
  | none => exact owned
  | some tally =>
    simp only
    split
    · exact owned
    · split
      · exact owned_setTally owned address _
      · exact owned_setTally owned address _
theorem owned_cast (address : Address) (authorize : Bool) :
    (m.cast p address authorize).1 = (s.cast address authorize).1 ∧
      Owned old (m.cast p address authorize).2 p (s.cast address authorize).2 := by
  have valid : m.validVote p address authorize = s.validVote address authorize := by
    rw [Heap.validVote,owned.shows.signers,Snapshot.validVote]
  unfold Heap.cast Snapshot.cast
  rw [valid,owned.shows.tally]
  split
  · cases s.tally address with
    | none | some _ => exact ⟨rfl,owned_setTally owned address _⟩
  · exact ⟨rfl,owned⟩
theorem owned_expire (number : Nat) : Owned old (m.expire p number) p (s.expire number) := by
  have limits : m.limit p = s.limit := by rw [Heap.limit,owned.shows.signers,Snapshot.limit]
  unfold Heap.expire Snapshot.expire
  rw [limits,owned.shows.recents]
  split
  · exact owned_setRecents owned _
  · exact owned
theorem owned_sign (number : Nat) (signer : Address) : Owned old (m.sign p number signer) p (s.sign number signer) := by
  unfold Heap.sign
  rw [owned.shows.recents]
  exact owned_setRecents owned _
theorem owned_removeVote (inside : i < s.votes.length) :
    Owned old (m.removeVote p i) p { s with votes := s.votes.eraseIdx i } := by
  have whole := owned
  obtain ⟨keeps,⟨f,holds,-,-,-,own⟩,-⟩ := owned
  have size : f.votes.len = s.votes.length := by rw [← holds.votes,holds.valid.elements_length]
  have fits := holds.valid.fits
  obtain ⟨valid,elements⟩ := removeAt_spec holds.valid (i := i) (by omega)
  rw [holds.votes] at elements
  have later : old.arrays.length ≤ f.votes.array := by
    rcases own with none | later
    · omega
    · exact later
  unfold Heap.removeVote
  rw [holds.fields_eq]
  exact owned_setVotes whole valid elements (prefix_set keeps.arrays later _) (Or.inr later)
theorem owned_push (spare : Nat) (vote : Vote) :
    Owned old (m.setVotes p (push m.arrays (m.fields p).votes spare noVote vote)) p { s with votes := s.votes ++ [vote] } := by
  have whole := owned
  obtain ⟨keeps,⟨f,holds,-,-,-,own⟩,-⟩ := owned
  obtain ⟨valid,elements⟩ := push_spec holds.valid spare noVote vote
  rw [holds.votes] at elements
  rw [holds.fields_eq]
  refine owned_setVotes whole valid elements ?_ ?_
  · unfold push
    split
    · rename_i room
      refine prefix_set keeps.arrays ?_ _
      rcases own with none | later
      · omega
      · exact later
    · exact prefix_alloc keeps.arrays _
  · unfold push
    split
    · exact own
    · exact Or.inr keeps.arrays.length_le
theorem owned_discard (signer address : Address) :
    Owned old (m.discard p signer address) p (s.discard signer address) := by
  unfold Heap.discard Snapshot.discard
  rw [owned.shows.votes,eraseP_eq_eraseIdx]
  cases found : s.votes.findIdx? (Vote.isOf signer address) with
  | none =>
    have none : s.votes.find? (Vote.isOf signer address) = none := by
      rw [find?_eq_none]
      simpa using findIdx?_eq_none_iff.mp found
    rw [none]
    exact owned
  | some i =>
    obtain ⟨inside,matching,earlier⟩ := findIdx?_eq_some_iff_getElem.mp found
    have first : s.votes.find? (Vote.isOf signer address) = some s.votes[i] :=
      find?_eq_some_iff_getElem.mpr ⟨matching,i,inside,rfl,fun j before => by simpa using earlier j before⟩
    have read : s.votes.getD i noVote = s.votes[i] := by
      rw [getD_eq_getElem?_getD,List.getElem?_eq_getElem inside,Option.getD_some]
    rw [first]
    simp only [read]
    have taken := owned_uncast owned s.votes[i].address s.votes[i].authorize
    have votes := uncast_votes s s.votes[i].address s.votes[i].authorize
    have removed := owned_removeVote taken (i := i) (by rw [votes]; exact inside)
    rw [votes] at removed
    exact removed
theorem owned_record (spare : Nat → Nat) (vote : Vote) : Owned old (m.record spare p vote) p (s.record vote) := by
  obtain ⟨same,cast⟩ := owned_cast owned vote.address vote.authorize
  unfold Heap.record Snapshot.record
  rw [same]
  split
  · have votes : (s.cast vote.address vote.authorize).2.votes = s.votes := by
      unfold Snapshot.cast
      split
      · split <;> rfl
      · rfl
    rw [← votes]
    exact owned_push cast _ vote
  · exact owned

omit owned in
/-- A loop that removes votes: those before the index have been looked at. -/
theorem owned_sweep {drops : Vote → Bool} {does : Snapshot → Vote → Snapshot}
    (acts : ∀ m s v, Owned old m p s → Owned old (act m v) p (does s v))
    (apart : ∀ s v left, does { s with votes := left } v = { does s v with votes := left })
    {fuel : Nat} {s : Snapshot} (kept rest : List Vote) (owned : Owned old m p s) (parts : s.votes = kept ++ rest)
    (enough : rest.length ≤ fuel) :
    Owned old (Heap.sweep p drops act fuel m kept.length) p
      { (rest.filter drops).foldl does s with votes := kept ++ rest.filter fun v => !drops v } := by
  induction fuel generalizing m s kept rest with
  | zero =>
    obtain rfl := length_eq_zero_iff.mp (Nat.le_zero.mp enough)
    rw [filter_nil,filter_nil,foldl_nil,← parts]
    exact owned
  | succ fuel ih =>
    unfold Heap.sweep
    rw [owned.shows.votes,parts]
    cases rest with
    | nil =>
      rw [append_nil,List.getElem?_eq_none le_rfl,filter_nil,filter_nil,foldl_nil,← parts]
      exact owned
    | cons v rest =>
      rw [List.getElem?_append_right le_rfl,Nat.sub_self,List.getElem?_cons_zero]
      simp only
      split
      · rename_i dropped
        have same : (does s v).votes = s.votes := by
          have whole := congrArg Snapshot.votes (apart s v s.votes)
          exact whole
        rw [parts] at same
        have removed := owned_removeVote (acts m s v owned) (i := kept.length) (by rw [same]; simp)
        have left : (does s v).votes.eraseIdx kept.length = kept ++ rest := by
          rw [same,eraseIdx_append_of_length_le le_rfl,Nat.sub_self]
          rfl
        rw [left] at removed
        have later := ih kept rest removed rfl (Nat.le_of_succ_le_succ enough)
        have folded : ∀ (gone : List Vote) (t : Snapshot) (left : List Vote),
            gone.foldl does { t with votes := left } = { gone.foldl does t with votes := left } := by
          intro gone
          induction gone with
          | nil => exact fun _ _ => rfl
          | cons w gone ih =>
            intro t left
            rw [foldl_cons,apart,ih]
            rfl
        rw [folded] at later
        simpa [dropped] using later
      · rename_i stays
        have next := ih (kept ++ [v]) rest owned (by rw [parts]; simp) (Nat.le_of_succ_le_succ enough)
        rw [length_append,length_singleton] at next
        simpa [stays] using next
omit owned in
theorem uncast_apart (s : Snapshot) (v : Vote) (left : List Vote) :
    ({ s with votes := left } : Snapshot).uncast v.address v.authorize =
      { s.uncast v.address v.authorize with votes := left } := by
  unfold Snapshot.uncast
  simp only
  cases s.tally v.address with
  | none => rfl
  | some tally =>
    simp only
    split
    · rfl
    · split <;> rfl
omit owned in
theorem owned_sweepAll (does : Snapshot → Vote → Snapshot)
    (acts : ∀ m s v, Owned old m p s → Owned old (act m v) p (does s v))
    (apart : ∀ s v left, does { s with votes := left } v = { does s v with votes := left })
    (owned : Owned old m p s) (drops : Vote → Bool) :
    Owned old (Heap.sweep p drops act (m.votesOf p).length m 0) p
      { (s.votes.filter drops).foldl does s with votes := s.votes.filter fun v => !drops v } := by
  rw [owned.shows.votes]
  exact owned_sweep acts apart [] s.votes owned rfl le_rfl
theorem owned_dropVotesOf (signer : Address) : Owned old (m.dropVotesOf p signer) p (s.dropVotesOf signer) := by
  have swept := owned_sweepAll _ (fun _ _ v owned => owned_uncast owned v.address v.authorize) uncast_apart owned
    fun v => decide (v.signer = signer)
  simp only [Snapshot.dropVotesOf,ne_eq,decide_not]
  exact swept
theorem owned_dropVotesOn (address : Address) : Owned old (m.dropVotesOn p address) p (s.dropVotesOn address) := by
  have swept := owned_sweepAll (fun s _ => s) (fun _ _ _ owned => owned) (fun _ _ _ => rfl) owned
    fun v => decide (v.address = address)
  have untouched (gone : List Vote) : gone.foldl (fun (s : Snapshot) _ => s) s = s := by
    induction gone with
    | nil => rfl
    | cons _ _ ih => exact ih
  rw [untouched] at swept
  simp only [Snapshot.dropVotesOn,ne_eq,decide_not]
  exact owned_setTally swept address none
theorem owned_settle (number : Nat) (address : Address) :
    Owned old (m.settle p number address) p (s.settle number address) := by
  unfold Heap.settle Snapshot.settle
  rw [owned.shows.tally,owned.shows.signers]
  simp only
  split
  · split
    · exact owned_dropVotesOn (owned_setSigners owned _) address
    · exact owned_dropVotesOn (owned_dropVotesOf (owned_expire (owned_setSigners owned _) number) address) address
  · exact owned
omit owned

/-- A computation on the heap comes out as one on values. -/
structure Follows {α : Type} (old : Heap) (ran : Heap × Except CliqueError α) (value : Except CliqueError Snapshot)
    (Reached : Heap → α → Snapshot → Prop) : Prop where
  keeps : old.Keeps ran.1
  failed : ∀ err, value = .error err → ran.2 = .error err
  reached : ∀ t, value = .ok t → ∃ x, ran.2 = .ok x ∧ Reached ran.1 x t

theorem follows_error (keeps : old.Keeps m) (err : CliqueError) :
    Follows old (m,.error err) (.error err) Reached := by
  refine ⟨keeps,?_,?_⟩
  · intro err' same
    cases same
    rfl
  · intro t same
    cases same
theorem follows_ok {t : Snapshot} (keeps : old.Keeps m)
    (reached : Reached m x t) : Follows old (m,.ok x) (.ok t) Reached := by
  refine ⟨keeps,?_,?_⟩
  · intro err same
    cases same
  · intro t' same
    cases same
    exact ⟨x,rfl,reached⟩

theorem follows_applyHeader (owned : Owned old m p s) (crypto : Crypto) (cfg : CliqueConfig) (spare : Nat → Nat) (header : Header) :
    Follows old (Heap.applyHeader crypto cfg spare p m header) (s.applyHeader crypto cfg header) fun m _ t => Owned old m p t := by
  have begun := owned_expire (owned_reset owned cfg header.numberU64) header.numberU64
  simp only [Heap.applyHeader,Snapshot.applyHeader,Snapshot.accept,begun.shows.signers,begun.shows.recents]
  generalize (m.reset cfg p header.numberU64).expire p header.numberU64 = m at begun
  generalize (s.reset cfg header.numberU64).expire header.numberU64 = s at begun
  cases ecrecover crypto header with
  | error err => exact follows_error begun.keeps err
  | ok signer =>
    simp only [bind,Except.bind]
    by_cases signs : signer ∈ s.signers
    · by_cases recent : signer ∈ s.recents.map (·.2)
      · simp only [signs,recent,not_true_eq_false,if_false,if_true]
        exact follows_error begun.keeps _
      · simp only [signs,recent,not_true_eq_false,if_false]
        have taken := owned_discard (owned_sign begun header.numberU64 signer) signer header.coinbase
        cases Snapshot.authorizes header.nonce with
        | error err => exact follows_error taken.keeps err
        | ok authorize =>
          have settled := owned_settle (owned_record taken spare ⟨signer,header.numberU64,header.coinbase,authorize⟩)
            header.numberU64 header.coinbase
          exact follows_ok settled.keeps settled
    · simp only [signs,not_false_eq_true,if_true]
      exact follows_error begun.keeps _
theorem follows_replay (crypto : Crypto) (cfg : CliqueConfig) (spare : Nat → Nat) (headers : List Header)
    (owned : Owned old m p s) :
    Follows old (Heap.replay crypto cfg spare p m headers) (headers.foldlM (Snapshot.applyHeader crypto cfg) s)
      fun m _ t => Owned old m p t := by
  induction headers generalizing m s with
  | nil => exact follows_ok owned.keeps owned
  | cons header headers ih =>
    have round := follows_applyHeader owned crypto cfg spare header
    rw [foldlM_cons]
    simp only [Heap.replay]
    generalize Heap.applyHeader crypto cfg spare p m header = ran at round
    obtain ⟨m',result⟩ := ran
    cases applied : s.applyHeader crypto cfg header with
    | error err =>
      obtain rfl : result = .error err := round.failed err applied
      exact follows_error round.keeps err
    | ok t =>
      obtain ⟨_,done,reached⟩ := round.reached t applied
      obtain rfl : result = .ok () := done
      exact ih reached
end

/-- On the heap `apply` gives a pointer to the snapshot that it gives for values, or the same
    error, and what was in memory before is as it was. -/
theorem apply_on_heap (shows_ : m.Shows p s) (crypto : Crypto) (cfg : CliqueConfig)
    (spare : Nat → Nat) (headers : List Header) :
    Follows m (m.apply crypto cfg spare p headers) (s.apply crypto cfg headers) Heap.Shows := by
  cases headers with
  | nil => exact follows_ok (.refl m) shows_
  | cons first rest =>
    have number : (m.fields p).number = s.number := by
      obtain ⟨f,holds⟩ := shows_
      rw [holds.fields_eq,holds.number]
    have loop := follows_replay crypto cfg spare (first :: rest) (owned_copy shows_)
    simp only [Heap.apply,Snapshot.apply,number]
    generalize Heap.replay crypto cfg spare (m.copy p).2 (m.copy p).1 (first :: rest) = ran at loop
    obtain ⟨m',result⟩ := ran
    split
    · exact follows_error (.refl m) _
    · split
      · exact follows_error (.refl m) _
      · cases replayed : (first :: rest).foldlM (Snapshot.applyHeader crypto cfg) s with
        | error err =>
          obtain rfl : result = .error err := loop.failed err replayed
          exact follows_error loop.keeps err
        | ok t =>
          obtain ⟨_,done,reached⟩ := loop.reached t replayed
          obtain rfl : result = .ok () := done
          have counted : (m'.fields (m.copy p).2).number = t.number := by
            obtain ⟨f,holds⟩ := reached.shows
            rw [holds.fields_eq,holds.number]
          have stamped := owned_stamp reached ((t.number + (first :: rest).length) % 2^64)
            (((first :: rest).getLast (cons_ne_nil _ _)).hash crypto.keccak)
          simp only [counted]
          exact follows_ok stamped.keeps stamped.shows

end Canchain.Clique
