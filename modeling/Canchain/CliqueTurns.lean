import Canchain.CliqueRecents
import Mathlib.Data.Finset.Sort
import Mathlib.Data.List.Lex

/-!
Whose turn it is. The recent signers are exactly those of the blocks that the window still
covers (`Recorded`), so a signer rests for half as many blocks as there are signers. The last
signer can vote itself out: then the division by the number of signers is one by zero.
-/
namespace Canchain.Clique
open Rlp Common Types Runs List Except Snapshot

/-- The recent signers after the headers: each signed its block, and none is missing of the
    blocks that the next header looks back to. -/
structure Recorded (crypto : Crypto) (headers : List Header) (s : Snapshot) : Prop where
  signed : ∀ number signer, (number + 1,signer) ∈ s.recents → ∃ h, headers[number]? = some h ∧ ecrecover crypto h = .ok signer
  started : ∀ signer, (0,signer) ∉ s.recents
  complete : ∀ number h signer, headers[number]? = some h → ecrecover crypto h = .ok signer →
    headers.length < number + s.limit → (number + 1,signer) ∈ s.recents

namespace Snapshot

/-- Settling forgets no block within the new limit. -/
theorem settle_kept (s : Snapshot) (number : Nat) (address : Address) :
    (∀ r ∈ (s.settle number address).recents, r ∈ s.recents) ∧
      ∀ r ∈ s.recents, number < r.1 + (s.settle number address).limit → r ∈ (s.settle number address).recents := by
  rcases (settle_recents s number address).2 with ⟨-,same⟩ | ⟨-,kept⟩
  · rw [same]
    exact ⟨fun r member => member,fun r member _ => member⟩
  · exact ⟨fun r member => ((kept r).mp member).1,fun r member within => (kept r).mpr ⟨member,by omega⟩⟩

variable {crypto : Crypto} {cfg : CliqueConfig} {headers : List Header} {s : Snapshot}
variable {t : Snapshot} {header : Header}
/-- A header adds its own signer, and what is deleted is too old for the next one. -/
theorem recorded_advance
    (recorded : Recorded crypto headers s) (next : header.numberU64 = headers.length + 1)
    (advanced : s.advance crypto cfg header = .ok t) : Recorded crypto (headers ++ [header]) t := by
  obtain ⟨-,t,applied,rfl⟩ := advance_ok.mp advanced
  obtain ⟨signer,authorize,recovered,-,-,-,rfl⟩ := applyHeader_ok applied
  have limits : (s.polled cfg header signer authorize).limit = s.limit := by simp [limit]
  have polled (r : Nat × Address) : r ∈ (s.polled cfg header signer authorize).recents ↔
      r = (headers.length + 1,signer) ∨ (r ∈ (s.expire header.numberU64).recents ∧ r.1 ≠ headers.length + 1) := by
    rw [polled_recents,sign,expire_reset_recents,next]
    simp
  have wider := (settle_recents (s.polled cfg header signer authorize) header.numberU64 header.coinbase).1
  obtain ⟨sub,kept⟩ := settle_kept (s.polled cfg header signer authorize) header.numberU64 header.coinbase
  have last : (headers ++ [header])[headers.length]? = some header := by simp
  refine ⟨?_,?_,?_⟩
  · intro number a member
    rcases (polled _).mp (sub _ member) with own | ⟨earlier,-⟩
    · obtain ⟨same,rfl⟩ := Prod.mk.inj own
      rw [Nat.add_right_cancel same]
      exact ⟨header,last,recovered⟩
    · obtain ⟨h,found,signs⟩ := recorded.signed number a ((expire_recents s _ _).mp earlier).1
      exact ⟨h,by rw [List.getElem?_append_left (List.getElem?_eq_some_iff.mp found).1,found],signs⟩
  · intro a member
    rcases (polled _).mp (sub _ member) with own | ⟨earlier,-⟩
    · cases own
    · exact recorded.started a ((expire_recents s _ _).mp earlier).1
  · intro number h a found signs within
    change (headers ++ [header]).length < number +
      ((s.polled cfg header signer authorize).settle header.numberU64 header.coinbase).limit at within
    rw [length_append,length_singleton] at within
    refine kept _ ((polled _).mpr ?_) (by simp only; omega)
    by_cases own : number = headers.length
    · subst own
      rw [last] at found
      cases found
      rw [recovered] at signs
      cases signs
      exact Or.inl rfl
    · have before : number < headers.length := by
        have inside := (List.getElem?_eq_some_iff.mp found).1
        rw [length_append,length_singleton] at inside
        omega
      rw [List.getElem?_append_left before] at found
      -- the entry that the header deletes is one block older than the ones it asks for
      have recent := recorded.complete number h a found signs (by omega)
      exact Or.inr ⟨(expire_recents s _ _).mpr ⟨recent,by simp only; omega⟩,by simp only; omega⟩
theorem recorded_apply {hash : Hash} {signers : List Address}
    (reached : (newSnapshot 0 hash signers).apply crypto cfg headers = .ok s)
    (fits : headers.length < 2^64) : Recorded crypto headers s := by
  refine (apply_history reached fits ⟨?_,?_,?_⟩ fun _ _ _ _ recorded _ next => recorded_advance recorded next).2
  · intro number signer member
    cases member
  · intro signer member
    cases member
  · intro number h signer found
    cases found

theorem apply_prefix {r : Snapshot} {count : Nat}
    (reached : r.apply crypto cfg headers = .ok s) (found : headers[count]? = some header) :
    ∃ t u, r.apply crypto cfg (headers.take count) = .ok t ∧ t.advance crypto cfg header = .ok u := by
  obtain ⟨inside,rfl⟩ := List.getElem?_eq_some_iff.mp found
  have parts : headers = headers.take count ++ headers[count] :: headers.drop (count + 1) := by simp
  rw [apply_ok,parts,foldlM_append] at reached
  obtain ⟨t,taken,rest⟩ := bind_ok reached
  obtain ⟨u,advanced,-⟩ := foldlM_cons_ok.mp rest
  exact ⟨t,u,apply_ok.mpr taken,advanced⟩

/-- What is remembered for the next block are the signers of half as many blocks as there are signers. -/
theorem rests_iff (recorded : Recorded crypto headers s)
    (window : Window headers.length s.limit s.recents) (signer : Address) :
    signer ∈ (s.expire (headers.length + 1)).recents.map (·.2) ↔ ∃ number h, headers[number]? = some h ∧
      headers.length ≤ number + s.signers.card / 2 ∧ ecrecover crypto h = .ok signer := by
  simp only [mem_map,Prod.exists,exists_eq_right]
  constructor
  · rintro ⟨seen,member⟩
    obtain ⟨recent,kept⟩ := (expire_recents s _ _).mp member
    obtain ⟨upper,lower⟩ := window _ recent
    cases seen with
    | zero => exact absurd recent (recorded.started signer)
    | succ number =>
      obtain ⟨h,found,signs⟩ := recorded.signed number signer recent
      refine ⟨number,h,found,?_,signs⟩
      simp only [limit] at lower kept
      omega
  · rintro ⟨number,h,found,within,signs⟩
    refine ⟨number + 1,(expire_recents s _ _).mpr ⟨recorded.complete number h signer found signs ?_,?_⟩⟩
    · rw [limit]
      omega
    · simp only [limit]
      omega

end Snapshot

/-- In every chain of headers from genesis `apply` accepts the signer of the next block exactly if
    it is a signer and has signed none of the last `n / 2` blocks, for `n` signers. So as long
    as the signers stay the same, `n / 2 + 1` blocks in a row have different signers. -/
theorem spacing_exact (crypto : Crypto) (cfg : CliqueConfig) (hash : Hash) (signers : List Address) (headers : List Header)
    (s : Snapshot) (reached : (newSnapshot 0 hash signers).apply crypto cfg headers = .ok s) (fits : headers.length < 2^64) :
    (∀ header signer, header.numberU64 = headers.length + 1 → ecrecover crypto header = .ok signer →
      (Admits crypto cfg s header ↔ signer ∈ s.signers ∧ ∀ number h, headers[number]? = some h →
        headers.length ≤ number + s.signers.card / 2 → ecrecover crypto h ≠ .ok signer)) ∧
    ((∀ count t, (newSnapshot 0 hash signers).apply crypto cfg (headers.take count) = .ok t → t.signers = s.signers) →
      ∀ i j h k, i < j → j ≤ i + s.signers.card / 2 → headers[i]? = some h → headers[j]? = some k →
        ∃ a b, ecrecover crypto h = .ok a ∧ ecrecover crypto k = .ok b ∧ a ≠ b) := by
  constructor
  · intro header signer next recovered
    obtain ⟨number,window⟩ := window_apply reached fits
    have recorded := Snapshot.recorded_apply reached fits
    rw [number] at window
    have wrapped : header.numberU64 = (s.number + 1) % 2^64 := by
      rw [number,← next,Nat.mod_eq_of_lt header.numberU64_lt]
    obtain ⟨unauthorized,recently⟩ := apply_verdict crypto cfg wrapped recovered
    have rests := Snapshot.rests_iff recorded window signer
    rw [Admits,ne_eq,ne_eq,unauthorized,recently,next,verdict]
    by_cases signs : signer ∈ s.signers
    · rw [if_neg (not_not.mpr signs)]
      by_cases recent : signer ∈ (s.expire (headers.length + 1)).recents.map (·.2)
      · rw [if_pos recent]
        obtain ⟨k,h,found,within,signed⟩ := rests.mp recent
        exact iff_of_false (fun free => free.2 rfl) (fun free => free.2 k h found within signed)
      · rw [if_neg recent]
        refine iff_of_true ⟨by simp,by simp⟩ ⟨signs,?_⟩
        intro k h found within signed
        exact recent (rests.mpr ⟨k,h,found,within,signed⟩)
    · rw [if_pos signs]
      exact iff_of_false (fun free => free.1 rfl) (fun free => signs free.1)
  · intro constant i j h k before within earlier later
    obtain ⟨_,_,-,advanced⟩ := Snapshot.apply_prefix reached earlier
    obtain ⟨-,_,applied,-⟩ := Snapshot.advance_ok.mp advanced
    obtain ⟨a,-,signed,-⟩ := Snapshot.applyHeader_ok applied
    obtain ⟨t,_,taken,advanced⟩ := Snapshot.apply_prefix reached later
    obtain ⟨next,_,applied,-⟩ := Snapshot.advance_ok.mp advanced
    obtain ⟨b,-,recovered,-,-,rested,-⟩ := Snapshot.applyHeader_ok applied
    have inside := (List.getElem?_eq_some_iff.mp later).1
    have length : (headers.take j).length = j := length_take_of_le inside.le
    obtain ⟨number,window⟩ := window_apply taken (by omega)
    have recorded := Snapshot.recorded_apply taken (by omega)
    rw [number] at window next
    have numbered : k.numberU64 = (headers.take j).length + 1 := by omega
    rw [expire_reset_recents,numbered,Snapshot.rests_iff recorded window] at rested
    refine ⟨a,b,signed,recovered,?_⟩
    rintro rfl
    refine rested ⟨i,h,by rw [List.getElem?_take_of_lt before,earlier],?_,signed⟩
    rw [length,constant j t taken]
    exact within

/-- Of two signers the one that has just signed rests, and the other may sign. -/
theorem spacing_exact_pair : Admits crypto sampleConfig firstSnapshot second ∧ ¬ Admits crypto sampleConfig firstSnapshot again := by
  obtain ⟨accepts,-⟩ := spacing_exact crypto sampleConfig genesisHash [bob,alice] [first] firstSnapshot first_reached (by decide)
  have half : firstSnapshot.signers.card / 2 = 1 := by decide +kernel
  constructor
  · refine (accepts second bob rfl second_signer).mpr ⟨by decide +kernel,?_⟩
    intro number h found _ signed
    obtain ⟨rfl,rfl⟩ : number = 0 ∧ h = first := by
      cases number with
      | zero => exact ⟨rfl,(Option.some.inj found).symm⟩
      | succ number => cases found
    rw [first_signer] at signed
    exact absurd (ok.inj signed) (by decide +kernel)
  · intro admitted
    exact ((accepts again alice rfl again_signer).mp admitted).2 0 first rfl (by rw [half]; decide) first_signer

/-! ### The signer in turn -/

/-- `bytes.Compare` of two addresses is not positive. -/
def Ascending (a b : Address) : Prop := a.bytes.map UInt8.toNat ≤ b.bytes.map UInt8.toNat
instance ascending_decidable : DecidableRel Ascending := fun a b =>
  inferInstanceAs (Decidable (a.bytes.map UInt8.toNat ≤ b.bytes.map UInt8.toNat))
instance ascending_trans : IsTrans Address Ascending := ⟨fun _ _ _ ab bc => le_trans ab bc⟩
instance ascending_total : Std.Total Ascending := ⟨fun _ _ => le_total _ _⟩
instance ascending_antisymm : Std.Antisymm Ascending where
  antisymm _ _ ab ba := Address.ext (List.map_injective_iff.mpr (fun _ _ => UInt8.toNat.inj) (le_antisymm ab ba))

/-- A run-time error that ends the program. -/
inductive Panic where
  | divideByZero
  deriving DecidableEq

def diffInTurn : Nat := 2
def diffNoTurn : Nat := 1

namespace Snapshot

/-- `signers()` -/
def signersAscending (s : Snapshot) : List Address := s.signers.sort Ascending
def inturn (s : Snapshot) (number : Nat) (signer : Address) : Except Panic Bool :=
  let signers := s.signersAscending
  let offset := signers.idxOf signer
  if signers.length = 0 then .error .divideByZero else .ok (number % signers.length == offset)

end Snapshot

/-- `CalcDifficulty` of a snapshot. -/
def calcDifficulty (snap : Snapshot) (signer : Address) : Except Panic Nat := do
  if ← snap.inturn ((snap.number + 1) % 2^64) signer then return diffInTurn else return diffNoTurn

/-- `verifySeal` over the snapshot of the parent. -/
def verifySeal (crypto : Crypto) (fakeDiff : Bool) (snap : Snapshot) (header : Header) : Except Panic (Except CliqueError Unit) :=
  match verifySigner crypto snap header with
  | .error err => .ok (.error err)
  | .ok signer =>
    if fakeDiff then .ok (.ok ())
    else do
      let inturn ← snap.inturn header.numberU64 signer
      if inturn ∧ header.difficulty ≠ diffInTurn then return .error .wrongDifficulty
      else if ¬ inturn ∧ header.difficulty ≠ diffNoTurn then return .error .wrongDifficulty
      else return .ok ()

theorem dropVote_size : nonceDropVote.length = 8 := rfl
def dropVote : BlockNonce := ⟨nonceDropVote,dropVote_size⟩
/-- The beneficiary and the nonce that `Prepare` puts into a header: for one of the proposals
    that are valid votes, the one that is drawn. -/
def proposalVote (snap : Snapshot) (proposals : List (Address × Bool)) (draw : Nat) : Address × BlockNonce :=
  let addresses := proposals.filter fun p => snap.validVote p.1 p.2
  match addresses[draw % addresses.length]? with
  | some (address,true) => (address,authVote)
  | some (address,false) => (address,dropVote)
  -- an empty nonce is one to drop
  | none => (.zero,dropVote)
/-- `Prepare`, once it has the snapshot of the parent. The seconds of the clock are `now`. -/
def prepare (cfg : CliqueConfig) (signer : Address) (proposals : List (Address × Bool)) (draw now : Nat) (snap : Snapshot)
    (parent : Option Header) (header : Header) : Except Panic (Except CliqueError Header) := do
  let epoch := decide (header.numberU64 % cfg.epoch = 0)
  let (coinbase,nonce) := proposalVote snap (if epoch then [] else proposals) draw
  let difficulty ← calcDifficulty snap signer
  let extra := (header.extra ++ List.replicate (extraVanity - header.extra.length) 0).take extraVanity ++
    (if epoch then snap.signersAscending.flatMap (·.bytes) else []) ++ List.replicate extraSeal 0
  match parent with
  | none => return .error .unknownAncestor
  | some parent =>
    let time := parent.time + cfg.period
    return .ok { header with
      coinbase := coinbase
      nonce := nonce
      difficulty := difficulty
      extra := extra
      mixDigest := .zero
      time := if (BitVec.ofNat 64 time).toInt < now then now else time }

/-- One signer is in turn at each number, and nothing that asks for the turn divides by zero. -/
structure Turns (crypto : Crypto) (cfg : CliqueConfig) (s : Snapshot) : Prop where
  some : s.signers.Nonempty
  one : ∀ number, ∃! signer, signer ∈ s.signers ∧ s.inturn number signer = .ok true
  difficult : ∃! signer, signer ∈ s.signers ∧ calcDifficulty s signer = .ok diffInTurn
  calculates : ∀ signer, calcDifficulty s signer ≠ .error .divideByZero
  prepares : ∀ signer proposals draw now parent header,
    prepare cfg signer proposals draw now s parent header ≠ .error .divideByZero
  verifies : ∀ fakeDiff header, verifySeal crypto fakeDiff s header ≠ .error .divideByZero
  seals : ∀ header signer, verifySeal crypto false s header = .ok (.ok ()) → ecrecover crypto header = .ok signer →
    (header.difficulty = diffInTurn ↔ s.inturn header.numberU64 signer = .ok true)

section
variable {s : Snapshot}

theorem inturn_ok (some : s.signers.Nonempty) (number : Nat) (signer : Address) :
    s.inturn number signer = .ok (number % s.signersAscending.length == s.signersAscending.idxOf signer) := by
  have positive : s.signersAscending.length ≠ 0 := by
    rw [Snapshot.signersAscending,Finset.length_sort]
    exact (Finset.card_pos.mpr some).ne'
  simp only [Snapshot.inturn]
  rw [if_neg positive]
/-- The signer at the place of the number is the one in turn. -/
theorem one_inturn (some : s.signers.Nonempty) (number : Nat) :
    ∃! signer, signer ∈ s.signers ∧ s.inturn number signer = .ok true := by
  have place : number % s.signersAscending.length < s.signersAscending.length := by
    refine Nat.mod_lt _ ?_
    rw [Snapshot.signersAscending,Finset.length_sort]
    exact Finset.card_pos.mpr some
  have distinct : s.signersAscending.Nodup := Finset.sort_nodup _ _
  refine ⟨s.signersAscending[number % s.signersAscending.length],⟨?_,?_⟩,?_⟩
  · exact (Finset.mem_sort Ascending).mp (getElem_mem place)
  · rw [inturn_ok some,distinct.idxOf_getElem _ place]
    simp
  · rintro signer ⟨signs,turn⟩
    have listed : signer ∈ s.signersAscending := (Finset.mem_sort Ascending).mpr signs
    rw [inturn_ok some] at turn
    have same : number % s.signersAscending.length = s.signersAscending.idxOf signer := by simpa using turn
    simp only [same]
    exact (getElem_idxOf (idxOf_lt_length_iff.mpr listed)).symm
theorem calcDifficulty_ok (some : s.signers.Nonempty) (signer : Address) : ∃ turn, s.inturn ((s.number + 1) % 2^64) signer = .ok turn ∧
    calcDifficulty s signer = .ok (if turn then diffInTurn else diffNoTurn) := by
  refine ⟨_,inturn_ok some _ _,?_⟩
  rw [calcDifficulty,inturn_ok some]
  generalize (((s.number + 1) % 2^64 % s.signersAscending.length == s.signersAscending.idxOf signer : Bool)) = turn
  cases turn with
  | false => rfl
  | true => rfl
theorem verifySigner_ok {crypto : Crypto} {signer : Address}
    (verified : verifySigner crypto s header = .ok signer) : ecrecover crypto header = .ok signer := by
  simp only [verifySigner] at verified
  by_cases genesis : header.numberU64 = 0
  · rw [if_pos genesis] at verified
    cases verified
  · rw [if_neg genesis] at verified
    cases recovered : ecrecover crypto header with
    | error err =>
      rw [recovered] at verified
      cases verified
    | ok a =>
      simp only [recovered] at verified
      split at verified
      · cases verified
      · split at verified
        · cases verified
        · exact verified
/-- With a signer `verifySeal` returns, and accepts a difficulty of two exactly from the signer in turn. -/
theorem verifySeal_ok (crypto : Crypto) (some : s.signers.Nonempty) (fakeDiff : Bool) (header : Header) :
    ∃ result, verifySeal crypto fakeDiff s header = .ok result ∧ (fakeDiff = false → result = .ok () →
      ∀ signer, ecrecover crypto header = .ok signer →
        (header.difficulty = diffInTurn ↔ s.inturn header.numberU64 signer = .ok true)) := by
  unfold verifySeal
  cases verified : verifySigner crypto s header with
  | error err => exact ⟨.error err,rfl,fun _ accepted => by cases accepted⟩
  | ok signer =>
    cases fakeDiff with
    | true => exact ⟨.ok (),rfl,fun normal => by cases normal⟩
    | false =>
      have asked := inturn_ok some header.numberU64 signer
      generalize (header.numberU64 % s.signersAscending.length == s.signersAscending.idxOf signer : Bool) = turn at asked
      simp only [asked,bind,Except.bind]
      have same (a : Address) (recovered : ecrecover crypto header = .ok a) : a = signer :=
        ok.inj (recovered.symm.trans (verifySigner_ok verified))
      refine ⟨if header.difficulty ≠ (if turn then diffInTurn else diffNoTurn) then .error .wrongDifficulty else .ok (),?_,?_⟩
      · cases turn <;> simp [pure,Except.pure] <;> split <;> rfl
      · intro _ accepted a recovered
        have right : header.difficulty = if turn then diffInTurn else diffNoTurn := by
          by_contra wrong
          simp [wrong] at accepted
        rw [same a recovered,asked,right]
        cases turn <;> simp [diffInTurn,diffNoTurn]

theorem turns_of_nonempty (crypto : Crypto) (cfg : CliqueConfig) (some : s.signers.Nonempty) : Turns crypto cfg s := by
  have calculated := calcDifficulty_ok some
  refine ⟨some,one_inturn some,?_,?_,?_,?_,?_⟩
  · have same (signer : Address) : calcDifficulty s signer = .ok diffInTurn ↔ s.inturn ((s.number + 1) % 2^64) signer = .ok true := by
      obtain ⟨turn,asked,answered⟩ := calculated signer
      rw [asked,answered]
      cases turn <;> simp [diffInTurn,diffNoTurn]
    simp only [same]
    exact one_inturn some _
  · intro signer failed
    obtain ⟨turn,-,answered⟩ := calculated signer
    rw [answered] at failed
    cases failed
  · intro signer proposals draw now parent header failed
    obtain ⟨turn,-,answered⟩ := calculated signer
    simp only [prepare,answered,bind,Except.bind] at failed
    cases parent with
    | none => cases failed
    | some parent => cases failed
  · intro fakeDiff header failed
    obtain ⟨result,returned,-⟩ := verifySeal_ok crypto some fakeDiff header
    rw [returned] at failed
    cases failed
  · intro header signer accepted recovered
    obtain ⟨result,returned,turn⟩ := verifySeal_ok crypto some false header
    rw [returned] at accepted
    exact turn rfl (ok.inj accepted) signer recovered
end

/-- The header is a vote of the only signer against itself. -/
def DropsLast (s : Snapshot) (header : Header) : Prop :=
  s.signers = {header.coinbase} ∧ Snapshot.authorizes header.nonce = .ok false

/-- A header leaves no signer only if the last one drops itself: nobody else has a vote. -/
theorem advance_nonempty {crypto : Crypto} {cfg : CliqueConfig} {headers : List Header} {s : Snapshot}
    (ledger : Ledger crypto cfg headers s) (some : s.signers.Nonempty) (kept : ¬ DropsLast s header)
    (advanced : s.advance crypto cfg header = .ok t) : t.signers.Nonempty := by
  by_contra none
  rw [Finset.not_nonempty_iff_eq_empty] at none
  have changes := (ledger_advance ledger advanced).2
  have leaves (a : Address) (signs : a ∈ s.signers) : a = header.coinbase ∧
      ∃ ballots, Majority crypto cfg headers s header a ballots := changes a (by simp [signs,none])
  obtain ⟨signer,signs⟩ := some
  obtain ⟨rfl,ballots,majority⟩ := leaves signer signs
  have only : s.signers = {header.coinbase} :=
    Finset.eq_singleton_iff_unique_mem.mpr ⟨signs,fun a other => (leaves a other).1⟩
  obtain ⟨vote,voted⟩ : ∃ vote, vote ∈ ballots := by
    refine exists_mem_of_length_pos ?_
    have most := majority.most
    omega
  obtain ⟨-,_,applied,-⟩ := Snapshot.advance_ok.mp advanced
  obtain ⟨sealer,_,recovered,-,authorized,-⟩ := Snapshot.applyHeader_ok applied
  have voter := majority.voters vote voted
  rw [only,Finset.mem_singleton] at voter authorized
  rcases majority.stands vote voted with ⟨-,other⟩ | own
  · exact other (by rw [recovered,authorized,voter])
  · refine kept ⟨only,?_⟩
    rw [own.authorize,(majority.agree vote voted).2]
    simp [signs]

/-- As long as the last signer does not vote itself out there is always exactly one signer in
    turn: on every snapshot that headers reach from a genesis with a signer. -/
theorem one_signer_in_turn (crypto : Crypto) (cfg : CliqueConfig) (hash : Hash) (signers : List Address) (any : signers ≠ [])
    (headers : List Header) (s : Snapshot) (reached : (newSnapshot 0 hash signers).apply crypto cfg headers = .ok s)
    (kept : ∀ count header t, headers[count]? = some header →
      (newSnapshot 0 hash signers).apply crypto cfg (headers.take count) = .ok t → ¬ DropsLast t header) :
    Turns crypto cfg s := by
  have started : (newSnapshot 0 hash signers).signers.Nonempty := by
    obtain ⟨signer,listed⟩ := exists_mem_of_ne_nil signers any
    exact ⟨signer,mem_toFinset.mpr listed⟩
  suffices whole : (newSnapshot 0 hash signers).apply crypto cfg headers = .ok s ∧ s.signers.Nonempty from
    turns_of_nonempty crypto cfg whole.2
  refine foldlM_history (fun past s => past <+: headers → (newSnapshot 0 hash signers).apply crypto cfg past = .ok s ∧
    s.signers.Nonempty) ?_ headers (fun _ => ⟨rfl,started⟩) (Snapshot.apply_ok.mp reached) (prefix_refl _)
  rintro past header s t good advanced ⟨rest,rfl⟩
  obtain ⟨before,some⟩ := good ⟨header :: rest,by simp⟩
  refine ⟨?_,advance_nonempty (ledger_apply before) some (kept past.length header s ?_ ?_) advanced⟩
  · rw [Snapshot.apply_ok,foldlM_append,Snapshot.apply_ok.mp before]
    exact foldlM_cons_ok.mpr ⟨t,advanced,rfl⟩
  · simp
  · rw [append_assoc,take_left]
    exact before
/-- Of two signers one votes for a third. -/
theorem one_signer_in_turn_pair : firstSnapshot.signers = {alice,bob} ∧ Turns crypto sampleConfig firstSnapshot := by
  refine ⟨by decide +kernel,one_signer_in_turn crypto sampleConfig genesisHash [bob,alice] (by simp) [first] firstSnapshot
    first_reached ?_⟩
  intro count header t found _ last
  cases count with
  | zero =>
    cases found
    exact absurd last.2 (by decide +kernel)
  | succ count => cases found

/-- The only signer votes against itself. -/
def resignation : Header :=
  { sampleHeader genesisHash 1 alice (vanity ++ Secp256k1.bytesOf 65
      0x0846aa29c6236c355121504f5a999b34050f004142028faa473b03fe9e5abe7847ab28466bb9c1b79da9b074ebe630500ed7828f9edf997497dfa1db9edd293a00)
      dropVote with
    uncleHash := bytesToHash (Secp256k1.bytesOf 32 0x1dcc4de8dec75d7aab85b567b6ccd41ad312451b948a7413f0a142fd40d49347)
    time := 15 }
def deserted : Snapshot :=
  (((newSnapshot 0 genesisHash [alice]).polled sampleConfig resignation alice false).settle 1 alice).stamp 1
    (resignation.hash crypto.keccak)
/-- Its header is accepted and leaves no signer, and the next one to prepare a block divides by zero. -/
theorem last_signer_resigns : verifySeal crypto false (newSnapshot 0 genesisHash [alice]) resignation = .ok (.ok ()) ∧
    (newSnapshot 0 genesisHash [alice]).apply crypto sampleConfig [resignation] = .ok deserted ∧ deserted.signers = ∅ ∧
    calcDifficulty deserted alice = .error .divideByZero ∧
    prepare sampleConfig alice [] 0 30 deserted (some resignation) (sampleHeader .zero 2 .zero [] authVote) =
      .error .divideByZero := by
  have signer : ecrecover crypto resignation = .ok alice := by
    rw [crypto,Keccak.keccak_packed]
    decide +kernel
  refine ⟨?_,?_,by decide +kernel,by decide +kernel,by decide +kernel⟩
  · have verified : verifySigner crypto (newSnapshot 0 genesisHash [alice]) resignation = .ok alice := by
      simp only [verifySigner,signer]
      decide +kernel
    rw [verifySeal,verified]
    decide +kernel
  · rw [apply_one]
    exact Snapshot.advance_ok.mpr ⟨by decide +kernel,_,
      applyHeader_eq signer (by decide +kernel) (by decide +kernel) (by decide +kernel),rfl⟩

end Canchain.Clique
