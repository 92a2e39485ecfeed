import Canchain.CliqueReplay
import Canchain.Keccak
import Canchain.Secp256k1

/-!
The votes. The tally is what the list of votes adds up to, a signer has at most one vote on
an address, all of them ask for the same, and only signers have votes (`Books`). Each was cast
in the current epoch (`Ledger`), and the signers change only by a majority (`Majority`).
-/
namespace Canchain.Clique
open Rlp Common Types Runs List

/-- The number of votes on an address. -/
def votesOn (votes : List Vote) (address : Address) : Nat := votes.countP fun v => v.address = address
/-- What the votes on an address add up to: no entry without a vote. -/
def tallyOf (signers : Finset Address) (votes : List Vote) (address : Address) : Option Tally :=
  if votesOn votes address = 0 then none else some ⟨decide (address ∉ signers),votesOn votes address⟩

/-- The votes and the tally of a snapshot are in order. -/
structure Books (s : Snapshot) : Prop where
  tally : ∀ address, s.tally address = tallyOf s.signers s.votes address
  agree : ∀ v ∈ s.votes, v.authorize = decide (v.address ∉ s.signers)
  once : (s.votes.map fun v => (v.signer,v.address)).Nodup
  voters : ∀ v ∈ s.votes, v.signer ∈ s.signers

/-- The header casts the vote. -/
structure CastBy (crypto : Crypto) (header : Header) (vote : Vote) : Prop where
  signer : ecrecover crypto header = .ok vote.signer
  block : vote.block = header.numberU64
  address : vote.address = header.coinbase
  authorize : Snapshot.authorizes header.nonce = .ok vote.authorize
/-- The number of the last epoch block up to a number. -/
def lastEpoch (cfg : CliqueConfig) (number : Nat) : Nat := number - number % cfg.epoch
/-- The snapshot after the headers: its votes were cast by them, since the last epoch block. -/
structure Ledger (crypto : Crypto) (cfg : CliqueConfig) (headers : List Header) (s : Snapshot) : Prop where
  books : Books s
  cast : ∀ v ∈ s.votes, ∃ header ∈ headers, CastBy crypto header v
  since : ∀ v ∈ s.votes, lastEpoch cfg s.number ≤ v.block ∧ v.block ≤ s.number ∧ s.number < 2^64

/-- Ballots on an address from more than half of the signers of the snapshot before a
    header, one from each: votes that stand, or the vote of the header. -/
structure Majority (crypto : Crypto) (cfg : CliqueConfig) (headers : List Header) (s : Snapshot) (header : Header)
    (address : Address) (ballots : List Vote) : Prop where
  most : s.signers.card < 2 * ballots.length
  distinct : (ballots.map (·.signer)).Nodup
  voters : ∀ v ∈ ballots, v.signer ∈ s.signers
  agree : ∀ v ∈ ballots, v.address = address ∧ v.authorize = decide (address ∉ s.signers)
  stands : ∀ v ∈ ballots, (v ∈ s.votes ∧ ecrecover crypto header ≠ .ok v.signer) ∨ CastBy crypto header v
  cast : ∀ v ∈ ballots, ∃ h ∈ headers ++ [header], CastBy crypto h v
  since : ∀ v ∈ ballots, lastEpoch cfg header.numberU64 ≤ v.block ∧ v.block ≤ header.numberU64
variable {signers : Finset Address} {votes : List Vote}

theorem tallyOf_perm {votes' : List Vote} (same : votes.Perm votes') (address : Address) :
    tallyOf signers votes address = tallyOf signers votes' address := by
  unfold tallyOf
  rw [show votesOn votes address = votesOn votes' address from same.countP_eq _]
theorem votesOn_cons (v : Vote) (votes : List Vote) (address : Address) :
    votesOn (v :: votes) address = votesOn votes address + if v.address = address then 1 else 0 := by
  simp [votesOn,countP_cons]
variable {v : Vote}

theorem tallyOf_other {address : Address} (other : v.address ≠ address) (signers : Finset Address)
    (votes : List Vote) : tallyOf signers (v :: votes) address = tallyOf signers votes address := by
  simp [tallyOf,votesOn_cons,other]

namespace Snapshot

@[simp] theorem setTally_self (s : Snapshot) (address : Address) (tally : Option Tally) :
    (s.setTally address tally).tally address = tally := by simp [setTally]
variable {address : Address} {s t : Snapshot} {cfg : CliqueConfig} {number : Nat} {crypto : Crypto}
  {headers : List Header} {header : Header}
variable {other : Address}

theorem setTally_other (s : Snapshot) (tally : Option Tally) (differ : address ≠ other) :
    (s.setTally address tally).tally other = s.tally other := by
  simp [setTally,Function.update_of_ne (Ne.symm differ)]
theorem uncast_other (s : Snapshot) (authorize : Bool) (differ : address ≠ other) :
    (s.uncast address authorize).tally other = s.tally other := by
  unfold uncast
  split
  · rfl
  · split
    · rfl
    · split
      · exact setTally_other s _ differ
      · exact setTally_other s _ differ

theorem uncast_tally
    (counted : ∀ address, s.tally address = tallyOf signers (v :: votes) address)
    (agrees : v.authorize = decide (v.address ∉ signers)) (address : Address) :
    (s.uncast v.address v.authorize).tally address = tallyOf signers votes address := by
  by_cases same : v.address = address
  · subst same
    have entry : s.tally v.address = some ⟨v.authorize,votesOn votes v.address + 1⟩ := by
      simp [counted,tallyOf,votesOn_cons,agrees]
    by_cases more : votesOn votes v.address = 0
    · simp [uncast,entry,more,tallyOf]
    · have several : votesOn votes v.address + 1 > 1 := by omega
      simp [uncast,entry,several,more,tallyOf,agrees]
  · rw [uncast_other s v.authorize same,counted,tallyOf_other same]
/-- Taking back several votes takes them out of the tally, in whichever order. -/
theorem uncasts_tally {gone kept : List Vote}
    (counted : ∀ address, s.tally address = tallyOf signers (gone ++ kept) address)
    (agree : ∀ v ∈ gone, v.authorize = decide (v.address ∉ signers)) (address : Address) :
    (gone.foldl (fun s v => s.uncast v.address v.authorize) s).tally address = tallyOf signers kept address := by
  induction gone generalizing s with
  | nil => exact counted address
  | cons v gone ih =>
    rw [foldl_cons]
    exact ih (uncast_tally counted (agree v (by simp))) (fun w member => agree w (mem_cons_of_mem v member))

/-! ### What the steps of a round keep -/

theorem books_same (books : Books s) (signers : t.signers = s.signers) (votes : t.votes = s.votes)
    (tally : t.tally = s.tally) : Books t :=
  ⟨by rw [signers,votes,tally]; exact books.tally,by rw [signers,votes]; exact books.agree,
    by rw [votes]; exact books.once,by rw [signers,votes]; exact books.voters⟩
theorem books_empty (votes : s.votes = []) (tally : s.tally = fun _ => none) : Books s := by
  refine ⟨?_,?_,?_,?_⟩
  · simp [tally,votes,tallyOf,votesOn]
  · simp [votes]
  · simp [votes]
  · simp [votes]
theorem books_reset (books : Books s) (cfg : CliqueConfig) (number : Nat) : Books (s.reset cfg number) := by
  unfold reset
  split
  · exact books_empty rfl rfl
  · exact books

/-- An earlier vote of the signer on the address is gone, the others stay. -/
theorem discard_votes (s : Snapshot) (signer address : Address) :
    (s.discard signer address).votes = s.votes.eraseP (Vote.isOf signer address) := by
  unfold discard
  split
  · rename_i none
    rw [eraseP_of_forall_not (find?_eq_none.mp none)]
  · rfl
theorem discard_sublist (s : Snapshot) (signer address : Address) : (s.discard signer address).votes.Sublist s.votes := by
  rw [discard_votes]
  exact eraseP_sublist
theorem discard_tally (books : Books s) (signer voted address : Address) :
    (s.discard signer voted).tally address = tallyOf s.signers (s.votes.eraseP (Vote.isOf signer voted)) address := by
  unfold discard
  split
  · rename_i none
    rw [eraseP_of_forall_not (find?_eq_none.mp none)]
    exact books.tally address
  · rename_i vote found
    obtain ⟨matching,before,after,whole,earlier⟩ := find?_eq_some_iff_append.mp found
    have rest : s.votes.eraseP (Vote.isOf signer voted) = before ++ after := by
      rw [whole,eraseP_append_right _ (fun v member => by simpa using earlier v member),eraseP_cons_of_pos matching]
    refine uncast_tally (fun a => ?_) (books.agree vote (mem_of_find?_eq_some found)) address
    rw [books.tally,rest,whole]
    exact tallyOf_perm perm_middle a
theorem books_discard (books : Books s) (signer address : Address) : Books (s.discard signer address) := by
  have sub := discard_sublist s signer address
  refine ⟨?_,?_,books.once.sublist (sub.map _),?_⟩
  · intro a
    rw [(discard_keeps ..).1,discard_votes]
    exact discard_tally books signer address a
  · intro v member
    rw [(discard_keeps ..).1]
    exact books.agree v (sub.subset member)
  · intro v member
    rw [(discard_keeps ..).1]
    exact books.voters v (sub.subset member)
theorem discard_none (books : Books s) (signer address : Address) :
    ∀ v ∈ (s.discard signer address).votes, (v.signer,v.address) ≠ (signer,address) := by
  intro v member same
  rw [discard_votes] at member
  have matching : Vote.isOf signer address v = true := by simpa [Vote.isOf] using same
  obtain ⟨found,before,after,-,hit,whole,rest⟩ := exists_of_eraseP (mem_of_mem_eraseP member) matching
  have one := books.once
  rw [whole,(perm_middle.map _).nodup_iff,map_cons,nodup_cons] at one
  have key : (found.signer,found.address) = (v.signer,v.address) := by
    rw [same]
    simpa [Vote.isOf] using hit
  rw [rest] at member
  exact one.1 (key ▸ mem_map_of_mem member)

theorem validVote_iff (s : Snapshot) (address : Address) (authorize : Bool) :
    s.validVote address authorize = true ↔ authorize = decide (address ∉ s.signers) := by
  by_cases signs : address ∈ s.signers
  · cases authorize <;> simp [validVote,signs]
  · cases authorize <;> simp [validVote,signs]
theorem cast_valid (s : Snapshot) (address : Address) (authorize : Bool) :
    (s.cast address authorize).1 = s.validVote address authorize := by
  unfold cast
  split
  · rename_i valid
    rw [valid]
    split <;> rfl
  · rename_i invalid
    exact (Bool.eq_false_of_not_eq_true invalid).symm
/-- A vote is kept exactly if it asks for a change. -/
theorem record_cases (s : Snapshot) (vote : Vote) :
    (vote.authorize = decide (vote.address ∉ s.signers) ∧ (s.record vote).votes = s.votes ++ [vote] ∧
      (s.record vote).tally = (s.cast vote.address vote.authorize).2.tally) ∨ s.record vote = s := by
  unfold record
  rw [cast_valid]
  split
  · rename_i valid
    exact Or.inl ⟨(validVote_iff s _ _).mp valid,rfl,rfl⟩
  · exact Or.inr rfl
theorem cast_tally (counted : ∀ address, s.tally address = tallyOf s.signers s.votes address)
    (agrees : v.authorize = decide (v.address ∉ s.signers)) (address : Address) :
    (s.cast v.address v.authorize).2.tally address = tallyOf s.signers (v :: s.votes) address := by
  have valid := (validVote_iff s v.address v.authorize).mpr agrees
  by_cases same : v.address = address
  · subst same
    by_cases none : votesOn s.votes v.address = 0
    · have entry : s.tally v.address = .none := by simp [counted,tallyOf,none]
      rw [cast,if_pos valid,entry]
      simp [tallyOf,votesOn_cons,none,agrees]
    · have entry : s.tally v.address = some ⟨v.authorize,votesOn s.votes v.address⟩ := by
        simp [counted,tallyOf,none,agrees]
      rw [cast,if_pos valid,entry]
      simp [tallyOf,votesOn_cons,agrees]
  · rw [tallyOf_other same,← counted]
    simp only [cast,valid,if_true]
    split
    · exact setTally_other s _ same
    · exact setTally_other s _ same
theorem books_record (books : Books s) {vote : Vote} (signs : vote.signer ∈ s.signers)
    (first : ∀ v ∈ s.votes, (v.signer,v.address) ≠ (vote.signer,vote.address)) : Books (s.record vote) := by
  rcases record_cases s vote with ⟨agrees,votes,tally⟩ | same
  · have moved : (s.votes ++ [vote]).Perm (vote :: s.votes) := perm_append_singleton vote s.votes
    refine ⟨?_,?_,?_,?_⟩
    · intro a
      rw [tally,votes,(record_keeps ..).1,tallyOf_perm moved]
      exact cast_tally books.tally agrees a
    · rw [votes,(record_keeps ..).1]
      intro v member
      rcases mem_cons.mp (moved.mem_iff.mp member) with rfl | earlier
      · exact agrees
      · exact books.agree v earlier
    · rw [votes,(moved.map _).nodup_iff,map_cons,nodup_cons]
      refine ⟨?_,books.once⟩
      intro member
      obtain ⟨v,earlier,same⟩ := mem_map.mp member
      exact first v earlier same
    · rw [votes,(record_keeps ..).1]
      intro v member
      rcases mem_cons.mp (moved.mem_iff.mp member) with rfl | earlier
      · exact signs
      · exact books.voters v earlier
  · rw [same]
    exact books

variable {old : Finset Address}
/-- Once an address is decided, the votes on the others are in order for the new signers. -/
theorem books_dropVotesOn
    (tally : ∀ a, s.tally a = tallyOf old s.votes a) (agree : ∀ v ∈ s.votes, v.authorize = decide (v.address ∉ old))
    (once : (s.votes.map fun v => (v.signer,v.address)).Nodup) (voters : ∀ v ∈ s.votes, v.signer ∈ s.signers)
    (others : ∀ a, a ≠ address → (a ∈ s.signers ↔ a ∈ old)) : Books (s.dropVotesOn address) := by
  have sub : (s.dropVotesOn address).votes.Sublist s.votes := filter_sublist
  refine ⟨?_,?_,once.sublist (sub.map _),?_⟩
  · intro a
    by_cases same : a = address
    · subst same
      have none : votesOn (s.dropVotesOn a).votes a = 0 := by
        simp [votesOn,dropVotesOn,setTally]
      rw [show (s.dropVotesOn a).tally a = .none by simp [dropVotesOn],tallyOf,if_pos none]
    · have kept : votesOn (s.dropVotesOn address).votes a = votesOn s.votes a := by
        simp only [votesOn,dropVotesOn,setTally,countP_filter]
        refine countP_congr fun v _ => ?_
        simp only [decide_not,Bool.and_eq_true,decide_eq_true_eq,Bool.not_eq_true',decide_eq_false_iff_not]
        exact ⟨And.left,fun on => ⟨on,on ▸ same⟩⟩
      have member : a ∈ (s.dropVotesOn address).signers ↔ a ∈ old := others a same
      rw [show (s.dropVotesOn address).tally a = s.tally a from setTally_other _ _ (Ne.symm same),tally]
      simp [tallyOf,kept,member]
  · intro v member
    have other : v.address ≠ address := by
      simpa [dropVotesOn,setTally] using (mem_filter.mp member).2
    rw [agree v (sub.subset member)]
    have same : v.address ∈ (s.dropVotesOn address).signers ↔ v.address ∈ old := others _ other
    simp [same]
  · intro v member
    exact voters v (sub.subset member)

theorem uncasts_keep {β : Type} {part : Snapshot → β} (one : ∀ s a b, part (s.uncast a b) = part s) (votes : List Vote)
    (s : Snapshot) : part (votes.foldl (fun s v => s.uncast v.address v.authorize) s) = part s := by
  induction votes generalizing s with
  | nil => rfl
  | cons v votes ih => exact (ih _).trans (one s _ _)
theorem dropVotesOf_signers (s : Snapshot) (signer : Address) : (s.dropVotesOf signer).signers = s.signers :=
  uncasts_keep (fun s a b => (uncast_keeps s a b).1) _ _
theorem dropVotesOf_tally (tally : ∀ a, s.tally a = tallyOf old s.votes a)
    (agree : ∀ v ∈ s.votes, v.authorize = decide (v.address ∉ old)) (signer a : Address) :
    (s.dropVotesOf signer).tally a = tallyOf old (s.dropVotesOf signer).votes a := by
  refine uncasts_tally (fun a => ?_) (fun v member => agree v (mem_of_mem_filter member)) a
  rw [tally]
  have parts := filter_append_perm (fun v : Vote => decide (v.signer = signer)) s.votes
  have kept : (s.dropVotesOf signer).votes = s.votes.filter fun v => !decide (v.signer = signer) := by simp [dropVotesOf]
  rw [kept]
  exact tallyOf_perm parts.symm a

theorem tally_votes (books : Books s) (address : Address) :
    ((s.tally address).getD ⟨false,0⟩).votes = votesOn s.votes address := by
  rw [books.tally,tallyOf]
  split
  · rename_i none
    exact none.symm
  · rfl
theorem tally_authorize (books : Books s) (some : 0 < votesOn s.votes address) :
    ((s.tally address).getD ⟨false,0⟩).authorize = decide (address ∉ s.signers) := by
  rw [books.tally,tallyOf,if_neg (by omega)]
  rfl
/-- The signers and the votes after the decision of a round. -/
theorem settle_spec (books : Books s) (number : Nat) (address : Address) :
    Books (s.settle number address) ∧ (s.settle number address).votes.Sublist s.votes ∧
      ∀ a, ¬ (a ∈ s.signers ↔ a ∈ (s.settle number address).signers) →
        a = address ∧ s.signers.card / 2 < votesOn s.votes address := by
  simp only [settle,tally_votes books]
  split
  · rename_i decided
    rw [tally_authorize books (by omega)]
    split
    · refine ⟨?_,filter_sublist,?_⟩
      · refine books_dropVotesOn (s := s.withSigners _) books.tally books.agree books.once
          (fun v member => Finset.mem_insert_of_mem (books.voters v member)) ?_
        intro a other
        exact Finset.mem_insert.trans (or_iff_right other)
      · intro a changed
        refine ⟨?_,decided⟩
        by_contra other
        exact changed (Finset.mem_insert.trans (or_iff_right other)).symm
    · generalize dropped : (s.withSigners (s.signers.erase address)).expire number = u
      have signers : u.signers = s.signers.erase address := by rw [← dropped,(expire_keeps ..).1]; rfl
      have votes : u.votes = s.votes := by rw [← dropped,(expire_keeps ..).2.1]; rfl
      have tally : u.tally = s.tally := by rw [← dropped,(expire_keeps ..).2.2]; rfl
      have sub : (u.dropVotesOf address).votes.Sublist s.votes := votes ▸ filter_sublist
      have others : ∀ a, a ≠ address → (a ∈ (u.dropVotesOf address).signers ↔ a ∈ s.signers) := by
        intro a other
        rw [dropVotesOf_signers,signers,Finset.mem_erase]
        exact and_iff_right other
      refine ⟨?_,filter_sublist.trans sub,?_⟩
      · refine books_dropVotesOn (dropVotesOf_tally ?_ ?_ address) (fun v member => books.agree v (sub.subset member))
          (books.once.sublist (sub.map _)) ?_ others
        · rw [tally,votes]
          exact books.tally
        · rw [votes]
          exact books.agree
        · intro v member
          have other : v.signer ≠ address := by simpa [dropVotesOf] using (mem_filter.mp member).2
          exact (others _ other).mpr (books.voters v (sub.subset member))
      · intro a changed
        refine ⟨?_,decided⟩
        by_contra other
        exact changed (others a other).symm
  · exact ⟨books,List.Sublist.refl _,fun a changed => absurd Iff.rfl changed⟩

/-! ### What a header keeps -/

theorem lastEpoch_succ (within : (number + 1) % cfg.epoch ≠ 0) : lastEpoch cfg (number + 1) = lastEpoch cfg number := by
  have same : (number + 1) / cfg.epoch = number / cfg.epoch :=
    Nat.succ_div_of_not_dvd fun divides => within (Nat.mod_eq_zero_of_dvd divides)
  have before := Nat.div_add_mod number cfg.epoch
  have after := Nat.div_add_mod (number + 1) cfg.epoch
  rw [same] at after
  unfold lastEpoch
  omega
variable (ledger : Ledger crypto cfg headers s)
include ledger
/-- The votes that stand when a header comes are from its epoch. -/
theorem reset_since (next : number = (s.number + 1) % 2^64) :
    ∀ v ∈ (s.reset cfg number).votes, v ∈ s.votes ∧ lastEpoch cfg number ≤ v.block ∧ v.block ≤ number := by
  intro v member
  unfold reset at member
  split at member
  · cases member
  · rename_i within
    obtain ⟨since,upTo,small⟩ := ledger.since v member
    -- block numbers do not wrap here, as zero begins an epoch
    have succ : number = s.number + 1 := by
      by_cases wraps : s.number + 1 = 2^64
      · rw [next,wraps,Nat.mod_self,Nat.zero_mod] at within
        exact absurd rfl within
      · rw [next,Nat.mod_eq_of_lt (by omega)]
    rw [succ,lastEpoch_succ (succ ▸ within)]
    exact ⟨member,since,by omega⟩

variable {signer : Address}
/-- The votes when the signers are settled: the header's own, and those of the epoch
    that its signer did not take back. -/
theorem polled_spec (next : header.numberU64 = (s.number + 1) % 2^64)
    {authorize : Bool} (recovered : ecrecover crypto header = .ok signer) (voted : authorizes header.nonce = .ok authorize)
    (signs : signer ∈ s.signers) :
    Books (s.polled cfg header signer authorize) ∧ ∀ v ∈ (s.polled cfg header signer authorize).votes,
      (v ∈ s.votes ∧ (v.signer,v.address) ≠ (signer,header.coinbase) ∨ CastBy crypto header v) ∧
      lastEpoch cfg header.numberU64 ≤ v.block ∧ v.block ≤ header.numberU64 := by
  unfold polled
  generalize began : ((s.reset cfg header.numberU64).expire header.numberU64).sign header.numberU64 signer = r
  have signers : r.signers = s.signers := by rw [← began]; simp [sign]
  have votes : r.votes = (s.reset cfg header.numberU64).votes := by rw [← began]; simp [sign]
  have tally : r.tally = (s.reset cfg header.numberU64).tally := by rw [← began]; simp [sign]
  have books : Books r := books_same (books_reset ledger.books cfg header.numberU64) (by simp [signers]) votes tally
  have none := discard_none books signer header.coinbase
  refine ⟨books_record (books_discard books signer header.coinbase) (by simpa [signers] using signs) none,?_⟩
  intro v member
  have cases : v ∈ (r.discard signer header.coinbase).votes ∨ v = ⟨signer,header.numberU64,header.coinbase,authorize⟩ := by
    rcases record_cases (r.discard signer header.coinbase) ⟨signer,header.numberU64,header.coinbase,authorize⟩ with
      ⟨-,appended,-⟩ | same
    · rw [appended] at member
      simpa using member
    · rw [same] at member
      exact Or.inl member
  rcases cases with earlier | rfl
  · obtain ⟨stood,since⟩ := reset_since ledger next v (votes ▸ (discard_sublist r signer header.coinbase).subset earlier)
    exact ⟨Or.inl ⟨stood,none v earlier⟩,since⟩
  · exact ⟨Or.inr ⟨recovered,rfl,rfl,voted⟩,Nat.sub_le _ _,le_rfl⟩

variable {u : Snapshot}
/-- Votes of more than half of the signers are a majority. -/
theorem polled_majority (recovered : ecrecover crypto header = .ok signer)
    (books : Books u) (signers : u.signers = s.signers)
    (votes : ∀ v ∈ u.votes, (v ∈ s.votes ∧ (v.signer,v.address) ≠ (signer,header.coinbase) ∨ CastBy crypto header v) ∧
      lastEpoch cfg header.numberU64 ≤ v.block ∧ v.block ≤ header.numberU64)
    (decided : u.signers.card / 2 < votesOn u.votes header.coinbase) :
    Majority crypto cfg headers s header header.coinbase (u.votes.filter fun v => v.address = header.coinbase) := by
  have on : ∀ v ∈ u.votes.filter fun v => v.address = header.coinbase, v ∈ u.votes ∧ v.address = header.coinbase := by
    intro v member
    simpa using member
  refine ⟨?_,?_,?_,?_,?_,?_,?_⟩
  · have counted : votesOn u.votes header.coinbase = (u.votes.filter fun v => v.address = header.coinbase).length :=
      countP_eq_length_filter
    rw [← signers]
    omega
  · have pairs := books.once.sublist ((filter_sublist (p := fun v => v.address = header.coinbase)).map _)
    refine List.Nodup.of_map (fun a => (a,header.coinbase)) ?_
    rw [map_map]
    refine (map_congr_left fun v member => ?_) ▸ pairs
    simp [(on v member).2]
  · intro v member
    exact signers ▸ books.voters v (on v member).1
  · intro v member
    obtain ⟨stands,address⟩ := on v member
    exact ⟨address,by rw [← signers,books.agree v stands,address]⟩
  · intro v member
    obtain ⟨stands,address⟩ := on v member
    rcases (votes v stands).1 with ⟨stood,other⟩ | own
    · refine Or.inl ⟨stood,?_⟩
      intro same
      rw [recovered] at same
      injection same with same
      exact other (by rw [same,address])
    · exact Or.inr own
  · intro v member
    rcases (votes v (on v member).1).1 with ⟨stood,-⟩ | own
    · obtain ⟨h,earlier,caster⟩ := ledger.cast v stood
      exact ⟨h,mem_append_left _ earlier,caster⟩
    · exact ⟨header,by simp,own⟩
  · intro v member
    exact (votes v (on v member).1).2

/-- A header keeps the votes in order, and changes the signers only for a majority. -/
theorem ledger_advance (advanced : s.advance crypto cfg header = .ok t) :
    Ledger crypto cfg (headers ++ [header]) t ∧ ∀ a, ¬ (a ∈ s.signers ↔ a ∈ t.signers) →
        a = header.coinbase ∧ ∃ ballots, Majority crypto cfg headers s header a ballots := by
  obtain ⟨next,t,applied,rfl⟩ := advance_ok.mp advanced
  obtain ⟨signer,authorize,recovered,voted,signs,-,rfl⟩ := applyHeader_ok applied
  obtain ⟨books,votes⟩ := polled_spec ledger next recovered voted signs
  obtain ⟨settled,sub,changes⟩ := settle_spec books header.numberU64 header.coinbase
  refine ⟨⟨books_same settled rfl rfl rfl,?_,?_⟩,?_⟩
  · intro v member
    rcases (votes v (sub.subset member)).1 with ⟨stood,-⟩ | own
    · obtain ⟨h,earlier,caster⟩ := ledger.cast v stood
      exact ⟨h,mem_append_left _ earlier,caster⟩
    · exact ⟨header,by simp,own⟩
  · intro v member
    obtain ⟨since,upTo⟩ := (votes v (sub.subset member)).2
    exact ⟨since,upTo,header.numberU64_lt⟩
  · intro a changed
    obtain ⟨rfl,decided⟩ := changes a (by rw [polled_signers]; exact changed)
    exact ⟨rfl,_,polled_majority ledger recovered books (by simp) votes decided⟩
omit ledger

theorem ledger_new (crypto : Crypto) (cfg : CliqueConfig) (number : Nat) (hash : Hash) (signers : List Address) :
    Ledger crypto cfg [] (newSnapshot number hash signers) :=
  ⟨books_empty rfl rfl,nofun,nofun⟩
theorem ledger_apply {hash : Hash} {signers : List Address}
    (applied : (newSnapshot number hash signers).apply crypto cfg headers = .ok s) : Ledger crypto cfg headers s :=
  foldlM_history (Ledger crypto cfg) (fun _ _ _ _ ledger advanced => (ledger_advance ledger advanced).1) headers
    (ledger_new crypto cfg number hash signers) (apply_ok.mp applied)
theorem apply_snoc
    (before : s.apply crypto cfg headers = .ok t) (after : s.apply crypto cfg (headers ++ [header]) = .ok u) :
    t.advance crypto cfg header = .ok u := by
  rw [apply_ok] at before after
  rw [foldlM_append,before] at after
  obtain ⟨u',advanced,⟨⟩⟩ := foldlM_cons_ok.mp after
  exact advanced

end Snapshot

/-- In every chain of headers that is accepted from a new snapshot the votes are in order,
    and a header that changes the signers changes its own beneficiary, for which more than
    half of the signers have voted since the last epoch block. -/
theorem votes_in_order (crypto : Crypto) (cfg : CliqueConfig) (number : Nat) (hash : Hash) (signers : List Address)
    (headers : List Header) (s : Snapshot)
    (accepted : (newSnapshot number hash signers).apply crypto cfg headers = .ok s) :
    Books s ∧ ∀ header t, (newSnapshot number hash signers).apply crypto cfg (headers ++ [header]) = .ok t →
      ∀ a, ¬ (a ∈ s.signers ↔ a ∈ t.signers) →
        a = header.coinbase ∧ ∃ ballots, Majority crypto cfg headers s header a ballots := by
  have ledger := Snapshot.ledger_apply accepted
  refine ⟨ledger.books,?_⟩
  intro header t after
  exact (Snapshot.ledger_advance ledger (Snapshot.apply_snoc accepted after)).2

/-- The hash and the recovery that the engine runs with. -/
def crypto : Crypto := ⟨Keccak.keccak256,Secp256k1.ecrecover⟩
def alice : Address := bytesToAddress (Secp256k1.bytesOf 20 0x7e5f4552091a69125d5dfcb7b8c2659029395bdf)
def bob : Address := bytesToAddress (Secp256k1.bytesOf 20 0x2b5ad5c4795c026514f8317c7a215e218dccd6cf)
def carol : Address := bytesToAddress (Secp256k1.bytesOf 20 0x6813eb9362372eef6200f3b1dbc3f819671cba69)
def dave : Address := bytesToAddress (Secp256k1.bytesOf 20 0x1eff47bc3a10a45d4b230b5d10e37751fe6aa718)

def sampleHeader (parent : Hash) (number : Nat) (coinbase : Address) (extra : Bytes) (nonce : BlockNonce) : Header :=
  { parentHash := parent, uncleHash := .zero, coinbase := coinbase, root := .zero, txHash := .zero, receiptHash := .zero,
    bloom := .zero, difficulty := 2, number := number, gasLimit := 5000, gasUsed := 0, time := number, extra := extra,
    mixDigest := .zero, nonce := nonce }
def vanity : Bytes := List.replicate 32 0
def authVote : BlockNonce := ⟨nonceAuthVote,rfl⟩
def genesisHash : Hash := bytesToHash (Secp256k1.bytesOf 32 0x1b04250502793303779d4d025a7b2bb11610ebaa298c25b76d85a9087350b914)
def firstHash : Hash := bytesToHash (Secp256k1.bytesOf 32 0xe54694c83a9fb747003e3f1c03cc25a4af4372f67df1a5df077097ca1d55ee77)
/-- Alice votes for Carol. -/
def first : Header :=
  sampleHeader genesisHash 1 carol (vanity ++ Secp256k1.bytesOf 65
    0x8468ee1b76e43cfaac81e4dea26c1d16665cb070558285d6a922e3afd49e5cfd0e9c16991c05977641d734da437a0992e1a8db65d760d494d125a843b6ffcdfb01) authVote
/-- Bob votes for Carol. -/
def second : Header :=
  sampleHeader firstHash 2 carol (vanity ++ Secp256k1.bytesOf 65
    0xd85e6b4059e29e481ff0613961746c44f8e1422b6f3e2448f830619b0aea29322748c9fbf136021508a00fcb28e1c96f792dac4299f475b4368aba1fa2d4390000) authVote

theorem first_signer : ecrecover crypto first = .ok alice := by
  rw [crypto,Keccak.keccak_packed]
  decide +kernel
theorem second_signer : ecrecover crypto second = .ok bob := by
  rw [crypto,Keccak.keccak_packed]
  decide +kernel
def sampleConfig : CliqueConfig := newConfig 15 30000
def genesisSnapshot : Snapshot := newSnapshot 0 genesisHash [bob,alice]
def firstSnapshot : Snapshot :=
  ((genesisSnapshot.polled sampleConfig first alice true).settle 1 carol).stamp 1 (first.hash crypto.keccak)
def secondSnapshot : Snapshot :=
  ((firstSnapshot.polled sampleConfig second bob true).settle 2 carol).stamp 2 (second.hash crypto.keccak)
theorem first_advances : genesisSnapshot.advance crypto sampleConfig first = .ok firstSnapshot :=
  Snapshot.advance_ok.mpr ⟨by decide +kernel,_,
    Snapshot.applyHeader_eq first_signer (by decide +kernel) (by decide +kernel) (by decide +kernel),rfl⟩
theorem first_reached : genesisSnapshot.apply crypto sampleConfig [first] = .ok firstSnapshot :=
  (Snapshot.apply_one _ _).trans first_advances
theorem second_advances : firstSnapshot.advance crypto sampleConfig second = .ok secondSnapshot :=
  Snapshot.advance_ok.mpr ⟨by decide +kernel,_,
    Snapshot.applyHeader_eq second_signer (by decide +kernel) (by decide +kernel) (by decide +kernel),rfl⟩

/-- With the second vote Carol becomes a signer. -/
theorem votes_in_order_carol : carol ∉ firstSnapshot.signers ∧ carol ∈ secondSnapshot.signers ∧ Books firstSnapshot ∧
    ∃ ballots, Majority crypto sampleConfig [first] firstSnapshot second carol ballots := by
  have after : genesisSnapshot.apply crypto sampleConfig ([first] ++ [second]) = .ok secondSnapshot :=
    Snapshot.apply_ok.mpr (foldlM_cons_ok.mpr ⟨_,first_advances,foldlM_cons_ok.mpr ⟨_,second_advances,rfl⟩⟩)
  have absent : carol ∉ firstSnapshot.signers := by decide +kernel
  have present : carol ∈ secondSnapshot.signers := by decide +kernel
  obtain ⟨books,changes⟩ := votes_in_order crypto sampleConfig 0 genesisHash [bob,alice] [first] firstSnapshot first_reached
  exact ⟨absent,present,books,(changes second secondSnapshot after carol (fun same => absent (same.mpr present))).2⟩

end Canchain.Clique
