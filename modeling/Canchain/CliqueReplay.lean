import Canchain.Clique
import Canchain.Runs

/-!
The replay of headers one at a time. `apply` checks the numbers of all its headers first
and counts them last, but the rounds in between read neither the number nor the hash of the
snapshot: it succeeds exactly if the headers can be applied one by one (`apply_ok`).
-/
namespace Canchain.Clique
open Common Types Runs List

namespace Snapshot

section
variable (s : Snapshot)

@[simp] theorem reset_keeps (cfg : CliqueConfig) (number : Nat) :
    (s.reset cfg number).signers = s.signers ∧ (s.reset cfg number).recents = s.recents := by
  unfold reset
  split <;> exact ⟨rfl,rfl⟩
@[simp] theorem expire_keeps (number : Nat) :
    (s.expire number).signers = s.signers ∧ (s.expire number).votes = s.votes ∧ (s.expire number).tally = s.tally := by
  unfold expire
  split <;> exact ⟨rfl,rfl,rfl⟩
@[simp] theorem uncast_keeps (address : Address) (authorize : Bool) :
    (s.uncast address authorize).signers = s.signers ∧ (s.uncast address authorize).recents = s.recents := by
  unfold uncast
  split
  · exact ⟨rfl,rfl⟩
  · repeat' split
    all_goals exact ⟨rfl,rfl⟩
@[simp] theorem cast_keeps (address : Address) (authorize : Bool) :
    (s.cast address authorize).2.signers = s.signers ∧ (s.cast address authorize).2.recents = s.recents := by
  unfold cast
  split
  · split <;> exact ⟨rfl,rfl⟩
  · exact ⟨rfl,rfl⟩
@[simp] theorem discard_keeps (signer address : Address) :
    (s.discard signer address).signers = s.signers ∧ (s.discard signer address).recents = s.recents := by
  unfold discard
  split <;> simp
@[simp] theorem record_keeps (vote : Vote) : (s.record vote).signers = s.signers ∧ (s.record vote).recents = s.recents := by
  unfold record
  split <;> simp

end

/-- A snapshot with the number and the hash of another block. -/
def stamp (s : Snapshot) (number : Nat) (hash : Hash) : Snapshot := { s with number := number, hash := hash }
/-- `apply` of a single header. -/
def advance (crypto : Crypto) (cfg : CliqueConfig) (s : Snapshot) (header : Header) : Except CliqueError Snapshot :=
  if header.numberU64 ≠ (s.number + 1) % 2^64 then .error .invalidVotingChain
  else (s.applyHeader crypto cfg header).map fun t => t.stamp header.numberU64 (header.hash crypto.keccak)

section
variable (s : Snapshot) (number : Nat) (hash : Hash)

theorem reset_stamp (cfg : CliqueConfig) (n : Nat) : (s.stamp number hash).reset cfg n = (s.reset cfg n).stamp number hash := by
  unfold reset
  split <;> rfl
theorem expire_stamp (n : Nat) : (s.stamp number hash).expire n = (s.expire n).stamp number hash := by
  unfold expire
  by_cases enough : n ≥ s.limit
  · rw [if_pos enough,if_pos (show n ≥ (s.stamp number hash).limit from enough)]
    rfl
  · rw [if_neg enough,if_neg (show ¬ n ≥ (s.stamp number hash).limit from enough)]
theorem accept_stamp (n : Nat) (signer : Address) :
    (s.stamp number hash).accept n signer = (s.accept n signer).map fun t => t.stamp number hash := by
  by_cases signs : signer ∈ s.signers
  · by_cases recent : signer ∈ s.recents.map (·.2)
    · simp [accept,stamp,signs,recent,Except.map]
    · simp [accept,sign,stamp,signs,recent,Except.map]
  · simp [accept,stamp,signs,Except.map]
theorem uncast_stamp (address : Address) (authorize : Bool) :
    (s.stamp number hash).uncast address authorize = (s.uncast address authorize).stamp number hash := by
  simp only [uncast,stamp]
  cases s.tally address with
  | none => rfl
  | some tally =>
    simp only
    split
    · rfl
    · split <;> rfl
theorem uncasts_stamp (votes : List Vote) :
    votes.foldl (fun s v => s.uncast v.address v.authorize) (s.stamp number hash) =
      (votes.foldl (fun s v => s.uncast v.address v.authorize) s).stamp number hash := by
  induction votes generalizing s with
  | nil => rfl
  | cons v votes ih => rw [foldl_cons,foldl_cons,uncast_stamp,ih]
theorem discard_stamp (signer address : Address) :
    (s.stamp number hash).discard signer address = (s.discard signer address).stamp number hash := by
  unfold discard
  simp only [show (s.stamp number hash).votes = s.votes from rfl,uncast_stamp]
  split <;> rfl
theorem record_stamp (vote : Vote) : (s.stamp number hash).record vote = (s.record vote).stamp number hash := by
  have same : (s.stamp number hash).cast vote.address vote.authorize =
      ((s.cast vote.address vote.authorize).1,(s.cast vote.address vote.authorize).2.stamp number hash) := by
    simp only [cast,show (s.stamp number hash).validVote vote.address vote.authorize = s.validVote vote.address vote.authorize from rfl,
      show (s.stamp number hash).tally = s.tally from rfl]
    split
    · cases s.tally vote.address <;> rfl
    · rfl
  simp only [record,same]
  split <;> rfl
theorem withSigners_stamp (signers : Finset Address) :
    (s.stamp number hash).withSigners signers = (s.withSigners signers).stamp number hash := rfl
theorem dropVotesOf_stamp (signer : Address) :
    (s.stamp number hash).dropVotesOf signer = (s.dropVotesOf signer).stamp number hash := by
  unfold dropVotesOf
  rw [show (s.stamp number hash).votes = s.votes from rfl,uncasts_stamp]
  rfl
theorem settle_stamp (n : Nat) (address : Address) :
    (s.stamp number hash).settle n address = (s.settle n address).stamp number hash := by
  simp only [settle,show (s.stamp number hash).tally = s.tally from rfl,show (s.stamp number hash).signers = s.signers from rfl]
  split
  · split
    · rfl
    · rw [withSigners_stamp,expire_stamp,dropVotesOf_stamp]
      rfl
  · rfl

/-- A round neither reads nor changes the number and the hash of the snapshot. -/
theorem applyHeader_stamp (crypto : Crypto) (cfg : CliqueConfig) (header : Header) :
    (s.stamp number hash).applyHeader crypto cfg header =
      (s.applyHeader crypto cfg header).map fun t => t.stamp number hash := by
  simp only [applyHeader,reset_stamp,expire_stamp,accept_stamp]
  cases ecrecover crypto header with
  | error err => rfl
  | ok signer =>
    simp only [bind,Except.bind]
    cases ((s.reset cfg header.numberU64).expire header.numberU64).accept header.numberU64 signer with
    | error err => rfl
    | ok t =>
      simp only [Except.map,discard_stamp]
      cases authorizes header.nonce with
      | error err => rfl
      | ok authorize => simp [record_stamp,settle_stamp,pure,Except.pure]
theorem replay_stamp (crypto : Crypto) (cfg : CliqueConfig) (headers : List Header) :
    headers.foldlM (applyHeader crypto cfg) (s.stamp number hash) =
      (headers.foldlM (applyHeader crypto cfg) s).map fun t => t.stamp number hash := by
  induction headers generalizing s with
  | nil => rfl
  | cons header headers ih =>
    rw [foldlM_cons,foldlM_cons,applyHeader_stamp]
    cases s.applyHeader crypto cfg header with
    | error err => rfl
    | ok t => exact ih t
end

variable {crypto : Crypto} {cfg : CliqueConfig} {s t : Snapshot} {header : Header} {headers : List Header}
theorem applyHeader_number (applied : s.applyHeader crypto cfg header = .ok t) : t.number = s.number := by
  have same := applyHeader_stamp s s.number s.hash crypto cfg header
  rw [show s.stamp s.number s.hash = s from rfl,applied] at same
  injection same with same
  rw [same]
  rfl
theorem replay_number (ran : headers.foldlM (applyHeader crypto cfg) s = .ok t) : t.number = s.number :=
  foldlM_keeps (fun _ t => t.number = s.number) (fun _ _ _ _ same applied => (applyHeader_number applied).trans same)
    headers rfl ran

theorem advance_ok : s.advance crypto cfg header = .ok t ↔ header.numberU64 = (s.number + 1) % 2^64 ∧
      ∃ u, s.applyHeader crypto cfg header = .ok u ∧ t = u.stamp header.numberU64 (header.hash crypto.keccak) := by
  unfold advance
  by_cases next : header.numberU64 = (s.number + 1) % 2^64
  · rw [if_neg (not_not.mpr next)]
    cases s.applyHeader crypto cfg header with
    | error err => simp [Except.map]
    | ok u => simp [Except.map,next,eq_comm]
  · rw [if_pos next]
    constructor
    · intro failed
      cases failed
    · rintro ⟨same,-⟩
      exact absurd same next

theorem apply_cons : s.apply crypto cfg (header :: headers) = .ok t ↔
      consecutive (header :: headers) ∧ header.numberU64 = (s.number + 1) % 2^64 ∧
      ∃ u, (header :: headers).foldlM (applyHeader crypto cfg) s = .ok u ∧
        t = u.stamp ((s.number + (header :: headers).length) % 2^64)
          (((header :: headers).getLast (cons_ne_nil _ _)).hash crypto.keccak) := by
  simp only [apply]
  by_cases chain : consecutive (header :: headers)
  · by_cases next : header.numberU64 = (s.number + 1) % 2^64
    · rw [if_neg (not_not.mpr chain),if_neg (not_not.mpr next)]
      constructor
      · intro applied
        obtain ⟨u,ran,done⟩ := bind_ok applied
        injection done with done
        refine ⟨chain,next,u,ran,?_⟩
        rw [← done,← replay_number ran]
        rfl
      · rintro ⟨-,-,u,ran,rfl⟩
        rw [ran,← replay_number ran]
        rfl
    · rw [if_neg (not_not.mpr chain),if_pos next]
      constructor
      · intro failed
        cases failed
      · rintro ⟨-,same,-⟩
        exact absurd same next
  · simp [chain]

theorem accept_ok {number : Nat} {signer : Address} (accepted : s.accept number signer = .ok t) :
    signer ∈ s.signers ∧ signer ∉ s.recents.map (·.2) ∧ t = s.sign number signer := by
  unfold accept at accepted
  split at accepted
  · cases accepted
  · rename_i signs
    split at accepted
    · cases accepted
    · rename_i rested
      injection accepted with done
      exact ⟨not_not.mp signs,rested,done.symm⟩
/-- The snapshot of a round before the signers are settled. -/
def polled (s : Snapshot) (cfg : CliqueConfig) (header : Header) (signer : Address) (authorize : Bool) : Snapshot :=
  ((((s.reset cfg header.numberU64).expire header.numberU64).sign header.numberU64 signer).discard signer
    header.coinbase).record ⟨signer,header.numberU64,header.coinbase,authorize⟩
@[simp] theorem polled_signers (s : Snapshot) (cfg : CliqueConfig) (header : Header) (signer : Address) (authorize : Bool) :
    (s.polled cfg header signer authorize).signers = s.signers := by simp [polled,sign]
theorem applyHeader_ok (applied : s.applyHeader crypto cfg header = .ok t) :
    ∃ signer authorize, ecrecover crypto header = .ok signer ∧ authorizes header.nonce = .ok authorize ∧
      signer ∈ s.signers ∧ signer ∉ ((s.reset cfg header.numberU64).expire header.numberU64).recents.map (·.2) ∧
      t = (s.polled cfg header signer authorize).settle header.numberU64 header.coinbase := by
  obtain ⟨signer,recovered,applied⟩ := bind_ok applied
  obtain ⟨u,accepted,applied⟩ := bind_ok applied
  obtain ⟨authorize,voted,applied⟩ := bind_ok applied
  obtain ⟨signs,rested,rfl⟩ := accept_ok accepted
  injection applied with done
  refine ⟨signer,authorize,recovered,voted,?_,rested,done.symm⟩
  simpa using signs

theorem applyHeader_eq {signer : Address}
    {authorize : Bool} (recovered : ecrecover crypto header = .ok signer) (voted : authorizes header.nonce = .ok authorize)
    (signs : signer ∈ s.signers)
    (rested : signer ∉ ((s.reset cfg header.numberU64).expire header.numberU64).recents.map (·.2)) :
    s.applyHeader crypto cfg header = .ok ((s.polled cfg header signer authorize).settle header.numberU64 header.coinbase) := by
  have accepted : ((s.reset cfg header.numberU64).expire header.numberU64).accept header.numberU64 signer =
      .ok (((s.reset cfg header.numberU64).expire header.numberU64).sign header.numberU64 signer) := by
    rw [accept,if_neg (by simpa using signs),if_neg rested]
  simp only [applyHeader,recovered,accepted,voted,bind,Except.bind]
  rfl

theorem apply_one (s : Snapshot) (header : Header) : s.apply crypto cfg [header] = s.advance crypto cfg header := by
  simp only [apply,advance,consecutive,not_true_eq_false,if_false]
  split
  · rfl
  · rename_i next
    rw [foldlM_cons]
    cases applied : s.applyHeader crypto cfg header with
    | error err => rfl
    | ok t =>
      have same := applyHeader_number applied
      simp only [Except.map,bind,Except.bind,foldlM_nil,pure,Except.pure,length_singleton,getLast_singleton,
        same,← not_not.mp next]
      rfl

/-- A list of headers is applied if they can be applied one after the other. -/
theorem apply_ok : s.apply crypto cfg headers = .ok t ↔ headers.foldlM (advance crypto cfg) s = .ok t := by
  induction headers generalizing s with
  | nil => rfl
  | cons header headers ih =>
    rw [apply_cons,foldlM_cons_ok]
    cases headers with
    | nil =>
      constructor
      · rintro ⟨-,next,u,ran,rfl⟩
        obtain ⟨u₁,applied,⟨⟩⟩ := foldlM_cons_ok.mp ran
        exact ⟨_,advance_ok.mpr ⟨next,u,applied,rfl⟩,by rw [next]; rfl⟩
      · rintro ⟨s₁,advanced,done⟩
        cases done
        obtain ⟨next,u,applied,rfl⟩ := advance_ok.mp advanced
        exact ⟨rfl,next,u,foldlM_cons_ok.mpr ⟨u,applied,rfl⟩,by rw [next]; rfl⟩
    | cons second rest =>
      have counted (next : header.numberU64 = (s.number + 1) % 2^64) :
          (s.number + (header :: second :: rest).length) % 2^64 = (header.numberU64 + (second :: rest).length) % 2^64 := by
        simp only [length_cons]
        omega
      constructor
      · rintro ⟨chain,next,u,ran,rfl⟩
        obtain ⟨u₁,applied,later⟩ := foldlM_cons_ok.mp ran
        obtain ⟨number,chain⟩ := (Bool.and_eq_true _ _).mp chain
        refine ⟨_,advance_ok.mpr ⟨next,u₁,applied,rfl⟩,?_⟩
        refine ih.mp (apply_cons.mpr ⟨chain,of_decide_eq_true number,_,by rw [replay_stamp,later]; rfl,?_⟩)
        rw [counted next]
        rfl
      · rintro ⟨s₁,advanced,later⟩
        obtain ⟨next,u₁,applied,rfl⟩ := advance_ok.mp advanced
        obtain ⟨chain,number,u,ran,rfl⟩ := apply_cons.mp (ih.mpr later)
        rw [replay_stamp] at ran
        obtain ⟨u₂,looped,rfl⟩ := map_ok.mp ran
        refine ⟨?_,next,u₂,foldlM_cons_ok.mpr ⟨u₁,applied,looped⟩,by rw [counted next]; rfl⟩
        exact (Bool.and_eq_true _ _).mpr ⟨decide_eq_true number,chain⟩

end Snapshot

end Canchain.Clique
