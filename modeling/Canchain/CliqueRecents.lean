import Canchain.CliqueVotes

/-!
Who may sign the next block. The recent signers are those of fewer than `limit` blocks
(`Window`), so `apply` and `Seal` turn down the same signers. So does `verifySeal`, once there
are `limit` blocks; before, its `number - limit` wraps and accepts one that has just signed.
-/
namespace Canchain.Clique
open Rlp Common Types Runs List Snapshot

/-- After the block with the number the recent signers are those of the last blocks,
    fewer than the limit. -/
def Window (number limit : Nat) (recents : List (Nat × Address)) : Prop :=
  ∀ r ∈ recents, r.1 ≤ number ∧ number < r.1 + limit

namespace Snapshot

theorem expire_recents (s : Snapshot) (number : Nat) (r : Nat × Address) :
    r ∈ (s.expire number).recents ↔ r ∈ s.recents ∧ ¬ (s.limit ≤ number ∧ r.1 = number - s.limit) := by
  unfold expire
  by_cases enough : number ≥ s.limit
  · rw [if_pos enough]
    simp [enough]
  · rw [if_neg enough]
    simp [enough]
variable {s : Snapshot} {number : Nat}
/-- The entry that falls out of the window is the one that is deleted. -/
theorem expire_window (upTo : ∀ r ∈ s.recents, r.1 ≤ number ∧ number ≤ r.1 + s.limit) :
    Window number s.limit (s.expire number).recents := by
  intro r member
  obtain ⟨recent,kept⟩ := (expire_recents s number r).mp member
  obtain ⟨upper,lower⟩ := upTo r recent
  omega
theorem sign_window {limit : Nat} {signer : Address} (some : 0 < limit)
    (window : Window number limit s.recents) : Window number limit (s.sign number signer).recents := by
  intro r member
  rcases mem_cons.mp member with rfl | earlier
  · exact ⟨le_rfl,Nat.lt_add_of_pos_right some⟩
  · exact window r (mem_of_mem_filter earlier)

theorem dropVotesOf_recents (s : Snapshot) (signer : Address) : (s.dropVotesOf signer).recents = s.recents :=
  uncasts_keep (fun s a b => (uncast_keeps s a b).2) _ _
/-- A signer more or less moves the limit by one at most, and with a signer less the block that falls out of the window is
    deleted. -/
theorem settle_recents (s : Snapshot) (number : Nat) (address : Address) :
    (s.settle number address).limit ≤ s.limit + 1 ∧
      (s.limit ≤ (s.settle number address).limit ∧ (s.settle number address).recents = s.recents ∨
        s.limit ≤ (s.settle number address).limit + 1 ∧ ∀ r, r ∈ (s.settle number address).recents ↔
          r ∈ s.recents ∧ ¬ ((s.settle number address).limit ≤ number ∧ r.1 = number - (s.settle number address).limit)) := by
  simp only [settle]
  split
  · split
    · have more : s.signers.card ≤ (insert address s.signers).card := Finset.card_le_card (Finset.subset_insert _ _)
      have one := Finset.card_insert_le address s.signers
      rw [limit,limit,show ((s.withSigners (insert address s.signers)).dropVotesOn address).signers = insert address s.signers from rfl]
      exact ⟨by omega,.inl ⟨by omega,rfl⟩⟩
    · generalize fewer : s.withSigners (s.signers.erase address) = u
      have recents : (((u.expire number).dropVotesOf address).dropVotesOn address).recents = (u.expire number).recents :=
        dropVotesOf_recents _ _
      have limits : (((u.expire number).dropVotesOf address).dropVotesOn address).limit = u.limit := by
        rw [limit,limit,show (((u.expire number).dropVotesOf address).dropVotesOn address).signers = u.signers from
          (dropVotesOf_signers _ _).trans (expire_keeps ..).1]
      have earlier : u.recents = s.recents := by rw [← fewer]; rfl
      have less := Finset.card_erase_le (s := s.signers) (a := address)
      have most := Finset.pred_card_le_card_erase (s := s.signers) (a := address)
      have narrow : u.limit = (s.signers.erase address).card / 2 + 1 := by rw [← fewer]; rfl
      rw [recents,limits]
      refine ⟨by rw [narrow,limit]; omega,.inr ⟨by rw [narrow,limit]; omega,fun r => ?_⟩⟩
      rw [expire_recents,earlier]
  · exact ⟨Nat.le_succ _,.inl ⟨le_rfl,rfl⟩⟩
theorem settle_window (window : Window number s.limit s.recents) (address : Address) :
    Window number (s.settle number address).limit (s.settle number address).recents := by
  intro r member
  rcases (settle_recents s number address).2 with ⟨wider,same⟩ | ⟨narrower,kept⟩
  · obtain ⟨upper,lower⟩ := window r (same ▸ member)
    omega
  · obtain ⟨recent,left⟩ := (kept r).mp member
    obtain ⟨upper,lower⟩ := window r recent
    omega

theorem polled_recents (s : Snapshot) (cfg : CliqueConfig) (header : Header) (signer : Address) (authorize : Bool) :
    (s.polled cfg header signer authorize).recents =
      (((s.reset cfg header.numberU64).expire header.numberU64).sign header.numberU64 signer).recents := by
  simp [polled]
theorem limit_pos (s : Snapshot) : 0 < s.limit := Nat.succ_pos _
/-- A header moves the window on by one. -/
theorem window_advance {crypto : Crypto} {cfg : CliqueConfig} {t : Snapshot} {header : Header}
    (window : Window s.number s.limit s.recents) (next : header.numberU64 = s.number + 1)
    (advanced : s.advance crypto cfg header = .ok t) : Window t.number t.limit t.recents := by
  obtain ⟨-,t,applied,rfl⟩ := advance_ok.mp advanced
  obtain ⟨signer,authorize,-,-,-,-,rfl⟩ := applyHeader_ok applied
  have limits : (s.reset cfg header.numberU64).limit = s.limit := by simp [limit]
  have expired : Window header.numberU64 s.limit ((s.reset cfg header.numberU64).expire header.numberU64).recents := by
    rw [← limits]
    refine expire_window fun r member => ?_
    rw [(reset_keeps ..).2] at member
    obtain ⟨upper,lower⟩ := window r member
    omega
  have polled : Window header.numberU64 (s.polled cfg header signer authorize).limit
      (s.polled cfg header signer authorize).recents := by
    have same : (s.polled cfg header signer authorize).limit = s.limit := by simp [limit]
    rw [same,polled_recents]
    exact sign_window s.limit_pos expired
  exact settle_window polled header.coinbase
section
variable {crypto : Crypto} {cfg : CliqueConfig} {hash : Hash} {signers : List Address} {headers : List Header}
  (reached : (newSnapshot 0 hash signers).apply crypto cfg headers = .ok s) (fits : headers.length < 2^64)
include reached fits

/-- What each header from genesis keeps, as long as their numbers fit in 64 bits. -/
theorem apply_history {P : List Header → Snapshot → Prop} (start : P [] (newSnapshot 0 hash signers))
    (step : ∀ past header s t, P past s → s.number = past.length → header.numberU64 = past.length + 1 →
      s.advance crypto cfg header = .ok t → P (past ++ [header]) t) : s.number = headers.length ∧ P headers s := by
  refine foldlM_history (fun past s => past.length < 2^64 → s.number = past.length ∧ P past s)
    ?_ headers (fun _ => ⟨rfl,start⟩) (apply_ok.mp reached) fits
  intro past header s t good advanced fits
  rw [length_append,length_singleton] at fits ⊢
  obtain ⟨number,holds⟩ := good (by omega)
  have next : header.numberU64 = past.length + 1 := by
    rw [(advance_ok.mp advanced).1,number,Nat.mod_eq_of_lt fits]
  refine ⟨?_,step past header s t holds number next advanced⟩
  obtain ⟨-,t,-,rfl⟩ := advance_ok.mp advanced
  exact next
theorem window_apply : s.number = headers.length ∧ Window s.number s.limit s.recents :=
  apply_history reached fits (P := fun _ s => Window s.number s.limit s.recents) (fun r member => by cases member)
    fun _ _ _ _ window number next => window_advance window (by rw [next,number])

end

end Snapshot

/-- What the rules say about the signer of the next block. -/
inductive Verdict where
  | unauthorized
  | recent
  | free
  deriving DecidableEq
/-- A signer may sign unless it is still remembered once the oldest entry is deleted. -/
def Snapshot.verdict (s : Snapshot) (number : Nat) (signer : Address) : Verdict :=
  if signer ∉ s.signers then .unauthorized
  else if signer ∈ (s.expire number).recents.map (·.2) then .recent
  else .free

/-- `apply` of the header alone does not turn down its signer. -/
def Admits (crypto : Crypto) (cfg : CliqueConfig) (s : Snapshot) (header : Header) : Prop :=
  s.apply crypto cfg [header] ≠ .error .unauthorizedSigner ∧ s.apply crypto cfg [header] ≠ .error .recentlySigned

section
variable {s : Snapshot} {header : Header} {signer : Address}

theorem authorizes_cases (nonce : BlockNonce) : authorizes nonce = .ok true ∨ authorizes nonce = .ok false ∨
    authorizes nonce = .error .invalidVote := by
  unfold authorizes
  split
  · exact Or.inl rfl
  · split
    · exact Or.inr (Or.inl rfl)
    · exact Or.inr (Or.inr rfl)
theorem expire_reset_recents (s : Snapshot) (cfg : CliqueConfig) (number : Nat) :
    ((s.reset cfg number).expire number).recents = (s.expire number).recents := by
  have limits : (s.reset cfg number).limit = s.limit := by simp [Snapshot.limit]
  unfold Snapshot.expire
  by_cases enough : number ≥ s.limit
  · rw [limits,if_pos enough,if_pos enough,(reset_keeps ..).2]
  · rw [limits,if_neg enough,if_neg enough,(reset_keeps ..).2]
/-- `apply` turns down a signer exactly by the verdict. -/
theorem apply_verdict (crypto : Crypto) (cfg : CliqueConfig) (next : header.numberU64 = (s.number + 1) % 2^64)
    (recovered : ecrecover crypto header = .ok signer) :
    (s.apply crypto cfg [header] = .error .unauthorizedSigner ↔ s.verdict header.numberU64 signer = .unauthorized) ∧
    (s.apply crypto cfg [header] = .error .recentlySigned ↔ s.verdict header.numberU64 signer = .recent) := by
  have round : s.apply crypto cfg [header] = (s.applyHeader crypto cfg header).map fun t =>
      t.stamp header.numberU64 (header.hash crypto.keccak) := by
    rw [apply_one,advance,if_neg (not_not.mpr next)]
  simp only [round,applyHeader,recovered,bind,Except.bind,accept,expire_reset_recents,
    expire_keeps,reset_keeps,verdict]
  by_cases signs : signer ∈ s.signers
  · by_cases recent : signer ∈ (s.expire header.numberU64).recents.map (·.2)
    · simp [signs,recent,Except.map]
    · rcases authorizes_cases header.nonce with voted | voted | failed
      · simp [signs,recent,voted,pure,Except.pure,Except.map]
      · simp [signs,recent,voted,pure,Except.pure,Except.map]
      · simp [signs,recent,failed,Except.map]
  · simp [signs,Except.map]

/-- Within the window the entries that are not deleted are those after `number - limit`. -/
theorem expire_seen (window : Window s.number s.limit s.recents) (next : header.numberU64 = s.number + 1) :
    signer ∈ (s.expire header.numberU64).recents.map (·.2) ↔
      ∃ seen, (seen,signer) ∈ s.recents ∧ header.numberU64 < seen + s.limit := by
  have kept (seen : Nat) : (seen,signer) ∈ (s.expire header.numberU64).recents ↔
      (seen,signer) ∈ s.recents ∧ header.numberU64 < seen + s.limit := by
    rw [Snapshot.expire_recents]
    refine and_congr_right fun member => ?_
    obtain ⟨upper,lower⟩ := window _ member
    simp only at upper lower ⊢
    omega
  simp [← kept]
theorem sub64_of_le {a b : Nat} (small : a < 2^64) (le : b ≤ a) : sub64 a b = a - b := by
  unfold sub64
  omega
theorem sub64_of_lt {a b : Nat} (small : b < 2^64) (lt : a < b) : sub64 a b = 2^64 - (b - a) := by
  unfold sub64
  omega

/-- The checks of `Seal` are the verdict. -/
theorem seal_verdict (window : Window s.number s.limit s.recents) (next : header.numberU64 = s.number + 1) :
    sealStep s header.numberU64 signer = match s.verdict header.numberU64 signer with
      | .unauthorized => .fails .unauthorizedSigner
      | .recent => .waits
      | .free => .signs := by
  have later : header.numberU64 ≠ 0 := by omega
  have small := header.numberU64_lt
  have recent : (s.recents.any fun r =>
      r.2 = signer ∧ (header.numberU64 < s.limit ∨ r.1 > sub64 header.numberU64 s.limit)) = true ↔
      signer ∈ (s.expire header.numberU64).recents.map (·.2) := by
    rw [expire_seen window next]
    simp only [any_eq_true,decide_eq_true_eq,Prod.exists]
    constructor
    · rintro ⟨seen,_,member,rfl,after⟩
      refine ⟨seen,member,?_⟩
      by_cases early : header.numberU64 < s.limit
      · exact Nat.lt_add_left _ early
      · rw [sub64_of_le small (not_lt.mp early)] at after
        omega
    · rintro ⟨seen,member,within⟩
      refine ⟨seen,signer,member,rfl,?_⟩
      by_cases early : header.numberU64 < s.limit
      · exact Or.inl early
      · rw [sub64_of_le small (not_lt.mp early)]
        omega
  unfold sealStep Snapshot.verdict
  rw [if_neg later]
  by_cases signs : signer ∈ s.signers
  · rw [if_neg (not_not.mpr signs),if_neg (not_not.mpr signs)]
    by_cases found : signer ∈ (s.expire header.numberU64).recents.map (·.2)
    · rw [if_pos found,if_pos (recent.mpr found)]
    · rw [if_neg found,if_neg (fun any => found (recent.mp any))]
  · rw [if_pos signs,if_pos signs]

/-- `verifySeal` follows the verdict too, but while there are fewer blocks than the limit it
    overlooks who has signed them. -/
theorem verify_verdict {crypto : Crypto} (window : Window s.number s.limit s.recents) (next : header.numberU64 = s.number + 1)
    (recovered : ecrecover crypto header = .ok signer) (int : s.signers.card < 2^63) :
    verifySigner crypto s header = .ok signer ↔ s.verdict header.numberU64 signer = .free ∨
      (s.verdict header.numberU64 signer = .recent ∧ header.numberU64 < s.limit) := by
  have later : header.numberU64 ≠ 0 := by omega
  have small := header.numberU64_lt
  have bounded : s.limit < 2^64 := by unfold Snapshot.limit; omega
  have recent : (s.recents.any fun r => r.2 = signer ∧ r.1 > sub64 header.numberU64 s.limit) = true ↔
      signer ∈ (s.expire header.numberU64).recents.map (·.2) ∧ s.limit ≤ header.numberU64 := by
    rw [expire_seen window next]
    simp only [any_eq_true,decide_eq_true_eq,Prod.exists]
    constructor
    · rintro ⟨seen,_,member,rfl,after⟩
      obtain ⟨upper,lower⟩ := window _ member
      simp only at upper lower
      by_cases early : header.numberU64 < s.limit
      · rw [sub64_of_lt bounded early] at after
        omega
      · rw [sub64_of_le small (not_lt.mp early)] at after
        exact ⟨⟨seen,member,by omega⟩,not_lt.mp early⟩
    · rintro ⟨⟨seen,member,within⟩,enough⟩
      refine ⟨seen,signer,member,rfl,?_⟩
      rw [sub64_of_le small enough]
      omega
  simp only [verifySigner,recovered,Snapshot.verdict]
  rw [if_neg later]
  by_cases signs : signer ∈ s.signers
  · rw [if_neg (not_not.mpr signs),if_neg (not_not.mpr signs)]
    by_cases found : signer ∈ (s.expire header.numberU64).recents.map (·.2)
    · rw [if_pos found]
      by_cases enough : s.limit ≤ header.numberU64
      · rw [if_pos (recent.mpr ⟨found,enough⟩)]
        simp [enough]
      · rw [if_neg (fun any => enough (recent.mp any).2)]
        simpa using enough
    · rw [if_neg found,if_neg (fun any => found (recent.mp any).1)]
      simp
  · rw [if_pos signs,if_pos signs]
    simp
end

/-- On every snapshot reached from genesis and for the next header: `Seal` signs exactly if
    `apply` would not turn down the signer, and waits exactly if `apply` would find that it
    signed recently. `verifySeal` agrees with `apply` exactly if there are as many blocks
    as the limit, or the signer has not signed any of the blocks that are remembered. -/
theorem signers_agree (crypto : Crypto) (cfg : CliqueConfig) (hash : Hash) (signers : List Address) (headers : List Header)
    (s : Snapshot) (reached : (newSnapshot 0 hash signers).apply crypto cfg headers = .ok s) (int : s.signers.card < 2^63)
    (header : Header) (next : header.numberU64 = headers.length + 1) (signer : Address)
    (recovered : ecrecover crypto header = .ok signer) :
    ((verifySigner crypto s header = .ok signer ↔ Admits crypto cfg s header) ↔
      s.limit ≤ header.numberU64 ∨ signer ∉ s.signers ∨ signer ∉ s.recents.map (·.2)) ∧
    (sealStep s header.numberU64 signer = .signs ↔ Admits crypto cfg s header) ∧
    (sealStep s header.numberU64 signer = .waits ↔ s.apply crypto cfg [header] = .error .recentlySigned) := by
  have small := header.numberU64_lt
  obtain ⟨number,window⟩ := Snapshot.window_apply reached (by omega)
  have succ : header.numberU64 = s.number + 1 := by rw [next,number]
  have wrapped : header.numberU64 = (s.number + 1) % 2^64 := by rw [← succ,Nat.mod_eq_of_lt small]
  obtain ⟨unauthorized,recently⟩ := apply_verdict crypto cfg wrapped recovered
  rw [Admits,ne_eq,ne_eq,unauthorized,recently,verify_verdict window succ recovered int,seal_verdict window succ]
  refine ⟨?_,?_,?_⟩
  · by_cases enough : s.limit ≤ header.numberU64
    · cases s.verdict header.numberU64 signer <;> simp [enough]
    · have all : (s.expire header.numberU64).recents = s.recents := by
        rw [Snapshot.expire,if_neg enough]
      rw [Snapshot.verdict,all]
      by_cases signs : signer ∈ s.signers
      · by_cases recent : signer ∈ s.recents.map (·.2)
        · rw [if_neg (not_not.mpr signs),if_pos recent]
          simpa [enough,signs] using recent
        · rw [if_neg (not_not.mpr signs),if_neg recent]
          simp [recent]
      · simp [signs]
  · cases s.verdict header.numberU64 signer <;> simp
  · cases s.verdict header.numberU64 signer <;> simp

/-- Two signers, who sign in turn. -/
theorem signers_agree_second : (verifySigner crypto firstSnapshot second = .ok bob ↔ Admits crypto sampleConfig firstSnapshot second) ∧
    sealStep firstSnapshot 2 bob = .signs := by
  obtain ⟨verified,sealed,-⟩ := signers_agree crypto sampleConfig genesisHash [bob,alice] [first] firstSnapshot first_reached
    (by decide +kernel) second rfl bob second_signer
  exact ⟨verified.mpr (Or.inl (by decide +kernel)),by decide +kernel⟩

/-- Alice signs again, right after her first block. -/
def again : Header :=
  sampleHeader firstHash 2 carol (vanity ++ Secp256k1.bytesOf 65
    0x552bfc2963f4bb910d3efaa4d819dea5e4bfc15ac8804ad79dabc11bf7b5878f1da12bed3dac90b652f97b420386c87ea74c83d9ae24461cfaacc5a1a9bf995000) authVote
theorem again_signer : ecrecover crypto again = .ok alice := by
  rw [crypto,Keccak.keccak_packed]
  decide +kernel
def fourSigners : Snapshot := newSnapshot 0 genesisHash [alice,bob,carol,dave]
def afterFirst : Snapshot :=
  ((fourSigners.polled sampleConfig first alice true).settle 1 carol).stamp 1 (first.hash crypto.keccak)
/-- Of four signers one signs the first two blocks: `verifySeal` accepts the second, `apply` does not. -/
theorem verifySeal_overlooks : fourSigners.apply crypto sampleConfig [first] = .ok afterFirst ∧ again.numberU64 = 2 ∧
    verifySigner crypto afterFirst again = .ok alice ∧
    afterFirst.apply crypto sampleConfig [again] = .error .recentlySigned := by
  have reached : fourSigners.apply crypto sampleConfig [first] = .ok afterFirst := by
    rw [apply_one]
    exact Snapshot.advance_ok.mpr ⟨by decide +kernel,_,
      applyHeader_eq first_signer (by decide +kernel) (by decide +kernel) (by decide +kernel),rfl⟩
  have verdict : afterFirst.verdict again.numberU64 alice = .recent := by decide +kernel
  refine ⟨reached,rfl,?_,?_⟩
  · obtain ⟨-,window⟩ := Snapshot.window_apply reached (by decide)
    exact (verify_verdict window rfl again_signer (by decide +kernel)).mpr (Or.inr ⟨verdict,by decide +kernel⟩)
  · exact (apply_verdict crypto sampleConfig rfl again_signer).2.mpr verdict

end Canchain.Clique
