import Canchain.StateCommit
import Canchain.StateRevert

/-!
What `Commit` persists. A state opened at the returned root shows every account as before,
except those that were deleted; the root does not depend on the order of the loops. Both need
that a change of an object is marked: an account that is created over another one is not, and
one that `Finalise` deleted stays marked.
-/
namespace Canchain.StatePersist
open Rlp Common State State.StateDB Worlds StateView Option
open StateRefines StateRuns StateStorage StateStored
open StateCommit TrieRoots Undo Runs
open Secure (SecureTrie)
open StateRevert (start observe)
variable {data : Account} {tries : Set SecureTrie} {key : Bytes} {op : Op} {x : Acct} {order' : Order}

section
variable {keccak : Bytes → Hash} {s s' s₁ : StateDB} {o o' : StateObject} {db db' : Database} {del : Bool} {order : Order}
variable {addr a : Address} {t : SecureTrie} {f : Fate}

theorem decodeInt_putint (n : Nat) (rest : Bytes) (fits : Fits (putint n)) :
    decodeInt (encodeString (putint n) ++ rest) = some (n,rest) := by
  obtain ⟨kind,notList,read⟩ := split_encodeString (putint n) rest fits
  have head : (putint n).head? ≠ some 0 := by
    cases digits : putint n with
    | nil => simp
    | cons x tail => simpa using putint_head n x tail digits
  simp [decodeInt,splitString,read,notList,head]
theorem decodeHash_bytes (h : Hash) (rest : Bytes) : decodeHash (encodeString h.bytes ++ rest) = some (h,rest) := by
  have fits : Fits h.bytes := by
    unfold Fits
    rw [h.size]
    decide
  obtain ⟨kind,notList,read⟩ := split_encodeString h.bytes rest fits
  simp [decodeHash,splitString,read,notList,h.size]
theorem decodeAccount_encodeAccount {enc : Bytes} (encoded : encodeAccount data = some enc) (fits : Fits enc) :
    decodeAccount enc = some data := by
  unfold encodeAccount at encoded
  split at encoded
  · cases encoded
  · cases encoded
    rename_i positive
    have payload : Fits (encodeString (putint data.nonce.toNat) ++ (encodeString (putint data.balance.toNat) ++
        (encodeString data.root.bytes ++ encodeString data.codeHash.bytes))) :=
      lt_trans (length_lt_encodeList _) fits
    have part {b : Bytes} {n : Nat} (le : (encodeString b).length ≤ n) (small : n < 2^64) : Fits b :=
      lt_of_le_of_lt (le_trans (length_le_encodeString b) le) small
    have read := split_encodeList _ [] payload
    rw [List.append_nil] at read
    have last := decodeHash_bytes data.codeHash []
    rw [List.append_nil] at last
    have nonce : Fits (putint data.nonce.toNat) := part (by rw [List.length_append]; exact Nat.le_add_right _ _) payload
    have balance : Fits (putint data.balance.toNat) := by
      refine part ?_ payload
      rw [List.length_append,List.length_append]
      omega
    have number := data.nonce.toNat_lt
    simp [decodeAccount,splitList,read,decodeInt_putint _ _ nonce,decodeInt_putint _ _ balance,decodeHash_bytes,last,number,Int.toNat_of_nonneg (Int.not_lt.mp positive)]

/-- The tries of a state: its own, those of its objects and those of the database. -/
def Tries (s : StateDB) : Set SecureTrie :=
  {t | t = s.trie ∨ (∃ a o, s.stateObjects a = some o ∧ o.trie = some t) ∨ ∃ root, s.db.tries root = some t}
/-- The hash keeps the slots apart that an object has read. -/
def Spread (keccak : Bytes → Hash) (s : StateDB) : Prop :=
  ∀ a o, s.stateObjects a = some o → ∀ k, o.originStorage k ≠ none → Alone keccak o k
/-- The hash keeps apart what the state has: addresses, slots and the nodes of tries. -/
structure Clear (keccak : Bytes → Hash) (s : StateDB) : Prop where
  distinct : Distinct keccak s
  spread : Spread keccak s
  roots : Roots keccak (Tries s)

/-- What a run keeps that loses nothing. -/
structure Tidy (keccak : Bytes → Hash) (s : StateDB) : Prop where
  sound : Sound keccak s
  kept : Stored keccak s
  distinct : Distinct keccak s
  spread : Spread keccak s

theorem openTrie_saved (roots : Roots keccak tries) (inside : t ∈ tries)
    (known : ∀ root u, db.tries root = some u → u ∈ tries ∧ Secure.hash keccak u = root)
    (there : t.val.isNil = true ∨ (db.tries (Secure.hash keccak t)).isSome) : db.openTrie (Secure.hash keccak t) = some t := by
  rcases t.property with empty | canonical
  · have same : t = Secure.empty := Subtype.ext empty
    subst same
    exact if_pos (.inr rfl)
  · obtain ⟨notZero,notEmpty⟩ := roots.proper inside canonical
    rw [Database.openTrie,if_neg (not_or.mpr ⟨notZero,notEmpty⟩)]
    have saved := there.resolve_left (by simp [canonical.isNil])
    obtain ⟨u,found⟩ := isSome_iff_exists.mp saved
    obtain ⟨inU,same⟩ := known _ u found
    rw [found,roots.injective inU inside same]

/-- What is kept of an account does not depend on what is added to the database. -/
theorem stored_grows (consistent : Consistent keccak db o) (grows : Grows db db') :
    stored (acctOf keccak db' o) = stored (acctOf keccak db o) := by
  have storage : stateAt keccak db' o = stateAt keccak db o := by
    funext k
    rw [(consistent.grows grows).stateAt,consistent.stateAt,consistent.trieOf_grows grows]
  simp [stored,acctOf,storage]
/-- An object that was written is stored as the account that is read back. -/
theorem flushed_stored (flushed : Flushed keccak db o t o') (opened : db'.openTrie o'.data.root = some t) (addr : Address) :
    stored (acctOf keccak db' o') = stored (acctOf keccak db' (newObject addr o'.data)) := by
  have storage : stateAt keccak db' o' = stateAt keccak db' (newObject addr o'.data) := by
    funext k
    rw [(flushed.consistent db').stateAt,shown,flushed.clean]
    simp [trieOf,flushed.trie,stateAt,committedAt,newObject,opened]
  simp only [stored,acctOf,storage]
  rfl

/-- An account is created over another one where the address is marked. -/
def Marked (s : StateDB) : Prop := ∀ prev, .resetObjectChange prev ∈ s.journal.entries → touched s prev.address = true

/-- An account that is not marked is in the trie as it is shown. -/
theorem untouched_stored (kept : Stored keccak s) (marked : Marked s) (clean : touched s a = false) :
    ((view keccak s).accounts a).map stored = (s.load keccak a).map fun o => stored (acctOf keccak s.db o) := by
  obtain ⟨flag,count⟩ : s.stateObjectsDirty a = false ∧ s.journal.dirties a = 0 := by simpa [touched] using clean
  have noEntry : ∀ e ∈ s.journal.entries, subject e ≠ some a := by
    intro e member about
    have counted := kept.counted a
    rw [count,entriesOf] at counted
    have none : s.journal.entries.countP (fun e => e.dirtied = some a) = 0 := by omega
    have other := List.countP_eq_zero.mp none e member
    cases e with
    | resetObjectChange prev =>
      obtain rfl : prev.address = a := some.inj about
      rw [marked prev member] at clean
      cases clean
    | _ => exact other (decide_eq_true about)
  rw [← kept.settled a flag,undoAll_other noEntry]

theorem stored_clear (consistent : ∀ a o, s.stateObjects a = some o → Consistent keccak s.db o)
    (settled : ∀ a o, s.stateObjects a = some o → s.stateObjectsDirty a = false →
      ((find keccak s a).map fun o => stored (acctOf keccak s.db o)) = (s.load keccak a).map fun o => stored (acctOf keccak s.db o))
    (rooted : ∀ key data, accountAt keccak s.trie key = some data → Holds keccak s.db data.root ∨
      ∃ b : Address, keccak b.bytes = keccak key ∧ s.stateObjects b ≠ none ∧ s.stateObjectsDirty b = true)
    (database : ∀ root t, s.db.tries root = some t → Secure.hash keccak t = root ∧
      ∀ key data, accountAt keccak t key = some data → Holds keccak s.db data.root) :
    Stored keccak s.clearJournalAndRefund := by
  refine ⟨consistent,trivial,fun _ => le_rfl,?_,rooted,database⟩
  intro a clean
  show ((find keccak s.clearJournalAndRefund a).map (acctOf keccak s.db)).map stored =
    (s.load keccak a).map fun o => stored (acctOf keccak s.db o)
  have same : find keccak s.clearJournalAndRefund a = find keccak s a := find_congr rfl rfl
  rw [same,map_map]
  cases there : s.stateObjects a with
  | none => rw [find_uncached there]; rfl
  | some o => exact settled a o there clean
theorem Tidy.ranged (tidy : Tidy keccak s) (ranges : Ranges s order) (a : Address) : Ranged keccak s order a :=
  ⟨tidy.sound.objects.keyed a,tidy.kept.consistent a,tidy.spread a,ranges.slots a⟩
theorem Tidy.ranged_marked (tidy : Tidy keccak s) (ranges : Ranges s order) (a : Address) : Ranged keccak (marked s) order a :=
  { tidy.ranged ranges a with }
theorem load_congr (same : Secure.tryGet keccak s'.trie a.bytes = Secure.tryGet keccak s.trie a.bytes) :
    s'.load keccak a = s.load keccak a := by simp [StateDB.load,same]
theorem finalise_stored (tidy : Tidy keccak s) (marked : Marked s) (ranges : Ranges s order)
    (done : s.finalise keccak del order = .ok s') : Stored keccak s' := by
  obtain ⟨s₁,looped,rfl⟩ := finalise_loop done
  obtain ⟨loop,db⟩ := finaliseObject_loop ranges.dirties.1 (fun a _ => tidy.ranged ranges a) (fun _ _ => rfl) looped
  have kept := tidy.kept
  have grows : Grows s.db s₁.db := by
    rw [db]
    exact .refl _
  -- An entry changes only if it belongs to an object that was marked.
  have stays {key : Bytes} (other : ∀ b ∈ order.dirties, s.stateObjects b ≠ none → keccak key ≠ keccak b.bytes) :
      Secure.tryGet keccak s₁.trie key = Secure.tryGet keccak s.trie key := by
    rw [loop.trie]
    refine tryGet_enterAll_other (fun b member hashes => ?_) _
    by_contra written
    refine other b member (fun absent => written (fateOf_none absent)) hashes
  have present {b : Address} (there : s.stateObjects b ≠ none) : s₁.stateObjects b ≠ none := by
    by_cases member : b ∈ order.dirties
    · obtain ⟨o,there⟩ := ne_none_iff_exists'.mp there
      obtain ⟨-,o',there',-⟩ := loop.left b member o there
      simp [there']
    · rw [(loop.others b (.inl member)).1]
      exact there
  have flagged {b : Address} (there : s.stateObjects b ≠ none) (flag : b ∈ order.dirties ∨ s.stateObjectsDirty b = true) :
      s₁.stateObjectsDirty b = true := by
    by_cases member : b ∈ order.dirties
    · obtain ⟨o,there⟩ := ne_none_iff_exists'.mp there
      exact (loop.left b member o there).1
    · rw [(loop.others b (.inl member)).2]
      exact flag.resolve_left member
  refine stored_clear ?_ ?_ ?_ ?_
  · intro a o' there'
    by_cases outside : a ∉ order.dirties ∨ s.stateObjects a = none
    · rw [(loop.others a outside).1] at there'
      exact (kept.consistent a o' there').grows grows
    · rw [not_or,not_not] at outside
      obtain ⟨o,there⟩ := ne_none_iff_exists'.mp outside.2
      obtain ⟨-,x,there'',left⟩ := loop.left a outside.1 o there
      rw [there'] at there''
      cases there''
      exact left.consistent (kept.consistent a o there) grows
  · intro a o there' clean
    have there : s.stateObjects a ≠ none := by
      intro absent
      rw [(loop.others a (.inr absent)).1,absent] at there'
      cases there'
    have outside : a ∉ order.dirties := by
      intro member
      rw [flagged there (.inl member)] at clean
      cases clean
    obtain ⟨objects,flags⟩ := loop.others a (.inl outside)
    have untouched : touched s a = false := by
      have counts : s.journal.dirties a = 0 := by
        by_contra dirty
        exact outside ((ranges.dirties.2 a).mpr dirty)
      simp [touched,← flags,clean,counts]
    have load : s₁.load keccak a = s.load keccak a := load_congr (stays fun b member thereB hashes =>
      outside (tidy.distinct a b there thereB hashes ▸ member))
    have found : find keccak s₁ a = find keccak s a := by
      rw [find_cached there',find_cached (objects.symm.trans there')]
    have shown := untouched_stored kept marked untouched
    rw [show (view keccak s).accounts a = (find keccak s a).map (acctOf keccak s.db) from rfl,map_map] at shown
    rw [found,load,db]
    exact shown
  · intro key data account
    by_cases written : ∃ b ∈ order.dirties, s.stateObjects b ≠ none ∧ keccak key = keccak b.bytes
    · obtain ⟨b,member,there,hashes⟩ := written
      exact .inr ⟨b,hashes.symm,present there,flagged there (.inl member)⟩
    · have before : accountAt keccak s.trie key = some data := by
        rw [accountAt,← stays fun b member there hashes => written ⟨b,member,there,hashes⟩]
        exact account
      rw [db]
      refine (kept.rooted key data before).imp_right ?_
      rintro ⟨b,hashes,there,flag⟩
      exact ⟨b,hashes,present there,flagged there (.inr flag)⟩
  · rw [db]
    exact kept.database

/-! ### Committing -/

variable (keccak) in
/-- What a commit does, with the fates of the objects. -/
structure Committed (s s' : StateDB) (slots : Address → List Hash) (F : Address → Fate) : Prop where
  opened : s'.db.openTrie (Secure.hash keccak s'.trie) = some s'.trie
  grows : Grows s.db s'.db
  known : ∀ root u, s'.db.tries root = some u → Secure.hash keccak u = root ∧
    (s.db.tries root = some u ∨ Slots keccak u ∨ u = s'.trie)
  uncached : ∀ a, s.stateObjects a = none → s'.stateObjects a = none
  left : ∀ a o, s.stateObjects a = some o → s'.stateObjectsDirty a = false ∧
    ∃ o', s'.stateObjects a = some o' ∧ Left keccak s.db (slots a) o (F a) o'
  entry : ∀ a o key, s.stateObjects a = some o → keccak key = keccak a.bytes →
    Secure.tryGet keccak s'.trie key = (F a).entry (Secure.tryGet keccak s.trie key)
  other : ∀ key, (∀ a, s.stateObjects a ≠ none → keccak key ≠ keccak a.bytes) →
    Secure.tryGet keccak s'.trie key = Secure.tryGet keccak s.trie key
  saved : ∀ a o data, s.stateObjects a = some o → F a = .written data →
    s'.db.openTrie data.root = some (o.updateTrie keccak s.db (slots a)).1

variable (keccak) in
/-- The fates of a commit. -/
abbrev commitFates (s : StateDB) (del : Bool) (order : Order) : Address → Fate :=
  fateOf keccak (marked s) (touched s) del order

variable {root : Hash}
theorem commit_committed (tidy : Tidy keccak s) (ranges : Ranges s order) (done : s.commit keccak del order = .ok (root,s'))
    (roots : Roots keccak (Tries s')) :
    root = Secure.hash keccak s'.trie ∧ s'.trie = enterAll keccak (commitFates keccak s del order) s.trie order.objects ∧
      Committed keccak s s' order.slots (commitFates keccak s del order) ∧
      ∀ a o, s.stateObjects a = some o → Writable o (commitFates keccak s del order a) := by
  obtain ⟨s₁,looped,rfl,rfl⟩ := commit_loop ranges done
  have member {a : Address} (there : s.stateObjects a ≠ none) : a ∈ order.objects := (ranges.objects.2 a).mpr there
  have present {a : Address} (member : a ∈ order.objects) : s.stateObjects a ≠ none := (ranges.objects.2 a).mp member
  have fates (a : Address) (_ : a ∈ order.objects) : commitFates keccak s del order a =
    fateOf keccak (marked s) (marked s).stateObjectsDirty del order a := rfl
  obtain ⟨loop,saves,writable⟩ := commitObject_loop ranges.objects.1 (fun a _ => tidy.ranged_marked ranges a) fates looped
  have adds := commitTrie_adds keccak s₁.db s₁.trie
  have known (root : Hash) (u : SecureTrie) (found : (s₁.db.commitTrie keccak s₁.trie).tries root = some u) :
      Secure.hash keccak u = root ∧ (s.db.tries root = some u ∨ Slots keccak u ∨ u = s₁.trie) := by
    rcases adds.only root u found with old | ⟨rfl,rfl⟩
    · rcases saves.only root u old with older | ⟨slots,rfl⟩
      · exact ⟨(tidy.kept.database root u older).1,.inl older⟩
      · exact ⟨rfl,.inr (.inl slots)⟩
    · exact ⟨rfl,.inr (.inr rfl)⟩
  have inside (root : Hash) (u : SecureTrie) (found : (s₁.db.commitTrie keccak s₁.trie).tries root = some u) :=
    And.intro (show u ∈ Tries (clearJournalAndRefund { s₁ with db := s₁.db.commitTrie keccak s₁.trie }) from
      .inr (.inr ⟨root,found⟩)) (known root u found).1
  refine ⟨rfl,loop.trie,⟨openTrie_saved roots (.inl rfl) inside adds.there,saves.grows.trans adds.grows,known,?_,?_,?_,?_,?_⟩,?_⟩
  · intro a absent
    exact (loop.others a (.inr absent)).1.trans absent
  · intro a o there
    exact loop.left a (member (by simp [there])) o there
  · intro a o key there hashes
    show Secure.tryGet keccak s₁.trie key = _
    rw [loop.trie]
    refine tryGet_enterAll ranges.objects.1 (member (by simp [there])) (fun b inB same ne => ?_) hashes _
    exact absurd (tidy.distinct a b (by simp [there]) (present inB) same).symm ne
  · intro key other
    show Secure.tryGet keccak s₁.trie key = _
    rw [loop.trie]
    exact tryGet_enterAll_other (fun b inB hashes => absurd hashes (other b (present inB))) _
  · intro a o data there written
    obtain ⟨-,o',there',left⟩ := loop.left a (member (by simp [there])) o there
    rw [written] at left
    cases left with
    | written same flushed root encoded =>
      rw [root]
      refine openTrie_saved roots (.inr (.inl ⟨a,o',there',flushed.trie⟩)) inside ?_
      refine (saves.saved a (member (by simp [there])) o there _ written).imp_right fun saved => ?_
      obtain ⟨u,found⟩ := isSome_iff_exists.mp saved
      show (Database.tries (s₁.db.commitTrie keccak s₁.trie) _).isSome
      rw [show (s₁.db.commitTrie keccak s₁.trie).tries _ = some u from adds.grows _ u found]
      rfl
  · intro a o there
    exact writable a (member (by simp [there])) o there

variable (keccak del order) in
/-- The three fates, and when each of them is met. -/
theorem commitFates_cases (there : s.stateObjects a = some o) :
    (o.suicided || (touched s a && del && o.empty keccak)) = true ∧ commitFates keccak s del order a = .dropped ∨
      (o.suicided || (touched s a && del && o.empty keccak)) = false ∧
        (touched s a = true ∧ (∃ data, commitFates keccak s del order a = .written data) ∨
          touched s a = false ∧ commitFates keccak s del order a = .stays) := by
  have fates : commitFates keccak s del order a = fate keccak del (touched s a) s.db (order.slots a) o := fateOf_some there
  rw [fates]
  cases gone : o.suicided || (touched s a && del && o.empty keccak) with
  | true => exact .inl ⟨rfl,fate_dropped gone⟩
  | false =>
    cases dirty : touched s a with
    | true => exact .inr ⟨rfl,.inl ⟨rfl,_,fate_written (dirty ▸ gone) rfl⟩⟩
    | false => exact .inr ⟨rfl,.inr ⟨rfl,fate_stays (dirty ▸ gone) rfl⟩⟩
/-- An object that was deleted is not written again. -/
theorem written_live (objects : Objects keccak s) (unrevived : Unrevived s (.commit del order))
    (there : s.stateObjects a = some o) (written : commitFates keccak s del order a = .written data) : o.deleted = false := by
  rcases commitFates_cases keccak del order there with
    ⟨-,dropped⟩ | ⟨kept,⟨dirty,-⟩ | ⟨-,stays⟩⟩
  · rw [written] at dropped
    cases dropped
  · by_contra live
    have deleted : o.deleted = true := by simpa using live
    have clean := objects.clean a o there deleted
    have flag : s.stateObjectsDirty a = true := by simpa [touched,clean] using dirty
    simp only [Bool.or_eq_false_iff,dirty,Bool.true_and] at kept
    cases del with
    | true =>
      rcases (objects.gone a o there deleted).2 with suicided | empty
      · simp [suicided] at kept
      · simp [empty] at kept
    | false =>
      rcases unrevived a o there deleted with suicided | unmarked
      · simp [suicided] at kept
      · rw [flag] at unmarked
        cases unmarked
  · rw [written] at stays
    cases stays

section
variable {F : Address → Fate} {slots : Address → List Hash}

theorem Committed.account (committed : Committed keccak s s' slots F) (roots : Roots keccak (Tries s'))
    (there : s.stateObjects a = some o) (written : F a = .written data) (hashes : keccak key = keccak a.bytes) :
    accountAt keccak s'.trie key = some data := by
  obtain ⟨-,o',-,left⟩ := committed.left a o there
  have entry := committed.entry a o key there hashes
  rw [written] at left entry
  cases left with
  | written same flushed root encoded =>
    obtain ⟨enc,encoded⟩ := ne_none_iff_exists'.mp encoded
    rw [Fate.entry,encoded] at entry
    rw [accountAt,entry]
    exact decodeAccount_encodeAccount encoded (roots.get_fits (.inl rfl) entry)
/-- The accounts in the trie have their storage in the database. -/
theorem Committed.holds (committed : Committed keccak s s' slots (commitFates keccak s del order)) (tidy : Tidy keccak s)
    (roots : Roots keccak (Tries s')) (account : accountAt keccak s'.trie key = some data) : Holds keccak s'.db data.root := by
  have old {data : Account} (before : accountAt keccak s.trie key = some data)
      (unmarked : ∀ b, keccak b.bytes = keccak key → s.stateObjects b ≠ none → s.stateObjectsDirty b = false) :
      Holds keccak s'.db data.root := by
    rcases tidy.kept.rooted key data before with ⟨t,opened,slots⟩ | ⟨b,hashes,there,flag⟩
    · exact ⟨t,committed.grows.openTrie opened,slots⟩
    · rw [unmarked b hashes there] at flag
      cases flag
  by_cases cached : ∃ a, s.stateObjects a ≠ none ∧ keccak key = keccak a.bytes
  · obtain ⟨a,there,hashes⟩ := cached
    obtain ⟨o,there⟩ := ne_none_iff_exists'.mp there
    have entry := committed.entry a o key there hashes
    rcases commitFates_cases keccak del order there with
      ⟨-,dropped⟩ | ⟨-,⟨-,data',written⟩ | ⟨clean,stays⟩⟩
    · rw [dropped,Fate.entry] at entry
      rw [accountAt,entry] at account
      cases account
    · have same := committed.account roots there written hashes
      rw [account] at same
      cases same
      obtain ⟨-,o',-,left⟩ := committed.left a o there
      refine ⟨_,committed.saved a o data there written,?_⟩
      rw [written] at left
      cases left with
      | written same flushed root encoded => exact flushed.slots
    · rw [stays,Fate.entry] at entry
      rw [accountAt,entry] at account
      refine old account fun b hashesB thereB => ?_
      rw [tidy.distinct b a thereB (by simp [there]) (hashesB.trans hashes)]
      exact (Bool.or_eq_false_iff.mp clean).1
  · have entry := committed.other key fun a there hashes => cached ⟨a,there,hashes⟩
    rw [accountAt,entry] at account
    exact old account fun b hashes there => absurd ⟨b,there,hashes.symm⟩ cached

/-- An account that the trie has without an object that is marked can be opened. -/
theorem loaded_consistent (kept : Stored keccak s) (unmarked : ∀ b, keccak b.bytes = keccak a.bytes → s.stateObjects b ≠ none →
    s.stateObjectsDirty b = false) (loaded : s.load keccak a = some o) : Consistent keccak s.db o := by
  obtain ⟨data,account,rfl⟩ := load_account loaded
  rcases kept.rooted a.bytes data account with ⟨t,opened,slots⟩ | ⟨b,hashes,there,flag⟩
  · exact consistent_newObject opened slots a
  · rw [unmarked b hashes there] at flag
    cases flag
theorem flushed_stateAt (flushed : Flushed keccak db o t o') (db' : Database) {k : Hash} (alone : Alone keccak o k) :
    stateAt keccak db' o' k = stateAt keccak db o k := by
  rw [(flushed.consistent db').stateAt,shown,flushed.clean,← flushed.shown k alone]
  simp [trieOf,flushed.trie]
/-- After a commit, an account that has an object is in the trie as it is shown. -/
theorem Committed.settled (committed : Committed keccak s s' slots (commitFates keccak s del order)) (tidy : Tidy keccak s)
    (isMarked : Marked s) (unrevived : Unrevived s (.commit del order)) (roots : Roots keccak (Tries s'))
    (there : s.stateObjects a = some o) :
    ((find keccak s' a).map fun o => stored (acctOf keccak s'.db o)) =
      (s'.load keccak a).map fun o => stored (acctOf keccak s'.db o) := by
  obtain ⟨-,o',there',left⟩ := committed.left a o there
  have entry := committed.entry a o a.bytes there rfl
  rw [find_cached there']
  rcases commitFates_cases keccak del order there with ⟨-,dropped⟩ | ⟨-,⟨-,data,written⟩ | ⟨clean,stays⟩⟩
  · rw [dropped] at left entry
    cases left
    simp [StateDB.load,entry,Fate.entry]
  · have account := committed.account roots there written rfl
    have saved := committed.saved a o data there written
    have live := written_live tidy.sound.objects unrevived there written
    rw [written] at left
    cases left with
    | written same flushed root encoded =>
      have load : s'.load keccak a = some (newObject a o'.data) := by
        show (accountAt keccak s'.trie a.bytes).map (newObject a) = _
        rw [account]
        rfl
      rw [same.deleted,live,load]
      exact congrArg some (flushed_stored flushed saved a)
  · rw [stays] at left entry
    cases left
    have load : s'.load keccak a = s.load keccak a := load_congr entry
    have untouched := untouched_stored tidy.kept isMarked clean
    rw [show (view keccak s).accounts a = (find keccak s a).map (acctOf keccak s.db) from rfl,map_map,
      find_cached there] at untouched
    have unmarked (b : Address) (hashes : keccak b.bytes = keccak a.bytes) (thereB : s.stateObjects b ≠ none) :
        s.stateObjectsDirty b = false := by
      rw [tidy.distinct b a thereB (by simp [there]) hashes]
      exact (Bool.or_eq_false_iff.mp clean).1
    rw [load]
    refine Eq.trans ?_ (untouched.trans ?_)
    · cases o.deleted with
      | true => rfl
      | false => exact congrArg some (stored_grows (tidy.kept.consistent a o there) committed.grows)
    · cases loaded : s.load keccak a with
      | none => rfl
      | some x => exact congrArg some (stored_grows (loaded_consistent tidy.kept unmarked loaded) committed.grows).symm

end
theorem commit_stored (tidy : Tidy keccak s) (isMarked : Marked s) (unrevived : Unrevived s (.commit del order)) (ranges : Ranges s order)
    (done : s.commit keccak del order = .ok (root,s')) (roots : Roots keccak (Tries s')) : Stored keccak s' := by
  obtain ⟨-,-,committed,-⟩ := commit_committed tidy ranges done roots
  obtain ⟨s₁,-,-,cleared⟩ := commit_loop ranges done
  subst cleared
  have before {a : Address} {o' : StateObject} (there' : s₁.stateObjects a = some o') : ∃ o, s.stateObjects a = some o := by
    refine ne_none_iff_exists'.mp fun absent => ?_
    rw [show s₁.stateObjects a = none from committed.uncached a absent] at there'
    cases there'
  refine stored_clear ?_ ?_ ?_ ?_
  · intro a o' there'
    obtain ⟨o,there⟩ := before there'
    obtain ⟨-,x,there'',left⟩ := committed.left a o there
    rw [show s₁.stateObjects a = some x from there''] at there'
    cases there'
    exact left.consistent (tidy.kept.consistent a o there) committed.grows
  · intro a o' there' _
    obtain ⟨o,there⟩ := before there'
    have settled := committed.settled tidy isMarked unrevived roots there
    have same : find keccak (clearJournalAndRefund { s₁ with db := s₁.db.commitTrie keccak s₁.trie }) a =
      find keccak { s₁ with db := s₁.db.commitTrie keccak s₁.trie } a := find_congr rfl rfl
    rwa [same] at settled
  · intro key data account
    exact .inl (committed.holds tidy roots account)
  · intro root u found
    obtain ⟨same,source⟩ := committed.known root u found
    refine ⟨same,?_⟩
    intro key data account
    rcases source with old | slots | rfl
    · obtain ⟨t,opened,slots⟩ := (tidy.kept.database root u old).2 key data account
      exact ⟨t,committed.grows.openTrie opened,slots⟩
    · obtain ⟨enc,found,decoded⟩ := bind_eq_some_iff.mp account
      rw [slots key enc found] at decoded
      cases decoded
    · exact committed.holds tidy roots account

/-! ### Steps -/

theorem opened_stored {trie : SecureTrie} (database : ∀ root t, db.tries root = some t → Secure.hash keccak t = root ∧
      ∀ key data, accountAt keccak t key = some data → Holds keccak db data.root)
    (rooted : ∀ key data, accountAt keccak trie key = some data → Holds keccak db data.root) :
    Stored keccak (opened db trie) := by
  have kept : Stored keccak (opened db trie).clearJournalAndRefund :=
    stored_clear nofun nofun (fun key data account => .inl (rooted key data account)) database
  exact kept
theorem reset_stored (kept : Stored keccak s) (done : s.reset root = .ok s') : Stored keccak s' := by
  unfold reset at done
  cases opens : s.db.openTrie root with
  | none => simp [opens] at done
  | some trie =>
    rw [opens] at done
    cases done
    have rooted (key : Bytes) (data : Account) (account : accountAt keccak trie key = some data) : Holds keccak s.db data.root := by
      unfold Database.openTrie at opens
      split at opens
      · cases opens
        simp [accountAt] at account
      · exact (kept.database root trie opens).2 key data account
    exact (opened_stored kept.database rooted).congr rfl rfl rfl rfl rfl (view_congr rfl rfl rfl)
theorem copy_stored (kept : Stored keccak s) (done : s.copy order = .ok s') : Stored keccak s' := by
  unfold copy at done
  split at done
  · cases done
  · cases done
    refine ⟨?_,trivial,fun _ => le_rfl,?_,?_,kept.database⟩
    · intro a o there
      cases copies : s.copied a with
      | false => simp [copies] at there
      | true =>
        simp only [copies,if_true] at there
        obtain ⟨x,here,rfl⟩ := map_eq_some_iff.mp there
        exact (kept.consistent a x here).same rfl rfl rfl rfl
    · intro a uncopied
      have uncopied : s.copied a = false := uncopied
      refine (map_map _ _ _).trans ?_
      rw [find_uncached (by simp [uncopied])]
      rfl
    · intro key data account
      refine (kept.rooted key data account).imp_right ?_
      rintro ⟨b,hashes,there,flag⟩
      have copies : s.copied b = true := by simp [copied,flag]
      exact ⟨b,hashes,by simpa [copies] using there,copies⟩
theorem prepare_stored (kept : Stored keccak s) (thash bhash : Hash) (ti : UInt64) : Stored keccak (s.prepare thash bhash ti) := by
  refine kept.congr rfl rfl rfl rfl rfl ?_
  rw [view_prepare,prepare_undoAll]

/-- Where objects are written, every account that replaced another one is marked, and a commit
    that keeps empty accounts meets none that was deleted. -/
def Unlost (s : StateDB) : Op → Prop
  | .finalise _ _ => Marked s
  | .intermediateRoot _ _ => Marked s
  | .commit del order => Marked s ∧ Unrevived s (.commit del order)
  | _ => True
/-- The hash keeps apart what the state after the operation has. -/
def ClearAfter (keccak : Bytes → Hash) (s : StateDB) (op : Op) : Prop :=
  ∀ s' answer, step keccak s op = .ok (s',answer) → Clear keccak s'

theorem Unlost.unrevived (unlost : Unlost s op) : Unrevived s op := by
  cases op with
  | commit del order => exact unlost.2
  | _ => trivial
theorem step_stored {answer : Option Hash} (tidy : Tidy keccak s) (possible : Possible keccak s op) (unlost : Unlost s op)
    (clear : Clear keccak s') (done : step keccak s op = .ok (s',answer)) : Stored keccak s' := by
  cases op with
  | cmd c =>
    obtain ⟨⟨reply,s₁⟩,ran,⟨⟩⟩ := map_ok.mp done
    exact exec_stored tidy.kept tidy.sound ran clear.distinct
  | prepare thash bhash ti =>
    cases done
    exact prepare_stored tidy.kept thash bhash ti
  | finalise del order =>
    obtain ⟨s₁,ran,⟨⟩⟩ := map_ok.mp done
    exact finalise_stored tidy unlost possible.1 ran
  | intermediateRoot del order =>
    obtain ⟨⟨root,s₁⟩,ran,⟨⟩⟩ := map_ok.mp done
    exact finalise_stored tidy unlost possible.1 (intermediateRoot_finalise ran)
  | commit del order =>
    obtain ⟨⟨root,s₁⟩,ran,⟨⟩⟩ := map_ok.mp done
    exact commit_stored tidy unlost.1 unlost.2 possible.1 ran clear.roots
  | copy order =>
    obtain ⟨s₁,ran,⟨⟩⟩ := map_ok.mp done
    exact copy_stored tidy.kept ran
  | reset root =>
    obtain ⟨s₁,ran,⟨⟩⟩ := map_ok.mp done
    exact reset_stored tidy.kept ran
/-- The states of a run that loses nothing. -/
theorem run_stored {ops : List Op} {answers : List (Option Hash)} (ran : run (step keccak) start ops = .ok (s,answers))
    (possible : ∀ v ∈ visits (step keccak) start ops, Possible keccak v.1 v.2)
    (clear : ∀ v ∈ visits (step keccak) start ops, ClearAfter keccak v.1 v.2)
    (unlost : ∀ v ∈ visits (step keccak) start ops, Unlost v.1 v.2) :
    Tidy keccak s := by
  refine run_keeps (Tidy keccak) (fun s op => Possible keccak s op ∧ ClearAfter keccak s op ∧ Unlost s op) ?_ ?_ ops
    (fun v member => ⟨possible v member,clear v member,unlost v member⟩) ran
  · rintro s op s' answer tidy ⟨possible,clear,unlost⟩ done
    have after := clear s' answer done
    exact ⟨step_sound tidy.sound possible unlost.unrevived done,step_stored tidy possible unlost after done,after.distinct,after.spread⟩
  · refine ⟨opened_sound newDatabase Secure.empty 0,opened_stored nofun ?_,?_,nofun⟩
    · intro key data account
      simp [accountAt] at account
    · intro a b there
      exact absurd rfl there

/-! ### What a new state shows -/

variable (keccak) in
/-- The hash keeps the address apart from those that have objects. -/
def Apart (s : StateDB) (a : Address) : Prop := ∀ b, s.stateObjects b ≠ none → keccak a.bytes = keccak b.bytes → a = b
variable (keccak) in
/-- A commit deletes the account: it committed suicide, or it is empty, touched, and empty
    accounts are deleted. -/
def leaves (s : StateDB) (del : Bool) (a : Address) : Bool :=
  (s.hasSuicided keccak a).1 || (del && (s.stateObjects a).isSome && touched s a && (s.isEmpty keccak a).1)
variable (keccak) in
/-- The new state shows the account as the old one did. -/
structure Persists (s fresh : StateDB) (del : Bool) (a : Address) : Prop where
  exist : (observe keccak fresh).exist a = ((observe keccak s).exist a && !leaves keccak s del a)
  account : (observe keccak fresh).exist a = true → (observe keccak fresh).balance a = (observe keccak s).balance a ∧
    (observe keccak fresh).nonce a = (observe keccak s).nonce a ∧
    (observe keccak fresh).codeHash a = (observe keccak s).codeHash a
  state : (observe keccak fresh).exist a = true → ∀ key, (∀ o, s.stateObjects a = some o → Alone keccak o key) →
    (observe keccak fresh).state a key = (observe keccak s).state a key

theorem observe_some (found : (view keccak s).accounts a = some x) : (observe keccak s).exist a = true ∧
    (observe keccak s).balance a = x.balance ∧ (observe keccak s).nonce a = x.nonce ∧
    (observe keccak s).codeHash a = x.codeHash ∧ (∀ key, (observe keccak s).state a key = x.storage key) ∧
    (s.hasSuicided keccak a).1 = x.suicided ∧ (s.isEmpty keccak a).1 = x.empty keccak := by
  have read {α : Type} (absent : α) {f : StateObject → α × StateObject} (g : Acct → α)
      (value : ∀ o, (f o).1 = g (acctOf keccak s.db o)) : (s.read keccak a absent f).1 = g x := by
    rw [read_shown a absent value,found]
    rfl
  exact ⟨read _ (fun _ => true) fun _ => rfl,read _ Acct.balance fun _ => rfl,read _ Acct.nonce fun _ => rfl,
    read _ Acct.codeHash fun _ => rfl,fun key => read _ (fun x => x.storage key) fun o => getState_value o key,
    read _ Acct.suicided fun _ => rfl,read _ (Acct.empty keccak) fun _ => rfl⟩
theorem observe_none (absent : (view keccak s).accounts a = none) : (observe keccak s).exist a = false := by
  show (s.read keccak a false _).1 = false
  rw [read_shown (g := fun _ => true) a false fun _ => rfl,absent]
  rfl

/-- Two accounts that are stored the same, but for slots that the hash does not keep apart. -/
def Agree (x y : Acct) (Slot : Hash → Prop) : Prop :=
  y.balance = x.balance ∧ y.nonce = x.nonce ∧ y.codeHash = x.codeHash ∧ ∀ key, Slot key → y.storage key = x.storage key

theorem agree_stored {y : Acct} (same : stored y = stored x) (Slot : Hash → Prop) : Agree x y Slot := by
  simp only [stored,Prod.mk.injEq] at same
  exact ⟨same.1,same.2.1,same.2.2.1,fun key _ => congrFun same.2.2.2 key⟩
theorem persists_of {fresh : StateDB} (absent : (view keccak s).accounts a = none → (view keccak fresh).accounts a = none)
    (shows_ : ∀ x, (view keccak s).accounts a = some x →
      (x.suicided || (del && (s.stateObjects a).isSome && touched s a && x.empty keccak)) = true ∧
        (view keccak fresh).accounts a = none ∨
      (x.suicided || (del && (s.stateObjects a).isSome && touched s a && x.empty keccak)) = false ∧
        ∃ y, (view keccak fresh).accounts a = some y ∧ Agree x y fun key => ∀ o, s.stateObjects a = some o → Alone keccak o key) :
    Persists keccak s fresh del a := by
  cases shown : (view keccak s).accounts a with
  | none =>
    have gone := observe_none (absent shown)
    exact ⟨by rw [gone,observe_none shown]; rfl,by simp [gone],by simp [gone]⟩
  | some x =>
    obtain ⟨there,balance,nonce,codeHash,storage,suicided,empty⟩ := observe_some shown
    rcases shows_ x shown with ⟨leaving,none⟩ | ⟨staying,y,some_,agree⟩
    · have gone := observe_none none
      refine ⟨?_,by simp [gone],by simp [gone]⟩
      rw [gone,leaves,suicided,empty,leaving]
      simp
    · obtain ⟨there',balance',nonce',codeHash',storage',-⟩ := observe_some some_
      refine ⟨?_,fun _ => ⟨?_,?_,?_⟩,fun _ key alone => ?_⟩
      · rw [there',there,leaves,suicided,empty,staying]
        rfl
      · rw [balance',balance,agree.1]
      · rw [nonce',nonce,agree.2.1]
      · rw [codeHash',codeHash,agree.2.2.1]
      · rw [storage',storage,agree.2.2.2 key alone]

theorem view_opened (db : Database) (trie : SecureTrie) (a : Address) :
    (view keccak (opened db trie)).accounts a = ((opened db trie).load keccak a).map (acctOf keccak db) := by
  show (find keccak (opened db trie) a).map _ = _
  rw [find_uncached rfl]
  rfl
/-- A state that is opened at the root of a commit shows the accounts that were shown before. -/
theorem commit_persists_at {slots : Address → List Hash}
    (committed : Committed keccak s s' slots (commitFates keccak s del order)) (tidy : Tidy keccak s) (isMarked : Marked s) (unrevived : Unrevived s (.commit del order))
    (roots : Roots keccak (Tries s')) (apart : Apart keccak s a) : Persists keccak s (opened s'.db s'.trie) del a := by
  have fresh : (view keccak (opened s'.db s'.trie)).accounts a = (s'.load keccak a).map (acctOf keccak s'.db) :=
    view_opened s'.db s'.trie a
  cases there : s.stateObjects a with
  | none =>
    have load : s'.load keccak a = s.load keccak a := load_congr (committed.other a.bytes fun b thereB hashes => by
      rw [← apart b thereB hashes] at thereB
      exact thereB there)
    have unmarked (b : Address) (hashes : keccak b.bytes = keccak a.bytes) (thereB : s.stateObjects b ≠ none) :
        s.stateObjectsDirty b = false := by
      rw [← apart b thereB hashes.symm] at thereB
      exact absurd there thereB
    have shown : (view keccak s).accounts a = (s.load keccak a).map (acctOf keccak s.db) := by
      show (find keccak s a).map _ = _
      rw [find_uncached there]
    refine persists_of (fun absent => ?_) fun x found => ?_
    · rw [shown,map_eq_none_iff] at absent
      rw [fresh,load,absent]
      rfl
    · rw [shown] at found
      obtain ⟨o,loaded,rfl⟩ := map_eq_some_iff.mp found
      refine .inr ⟨?_,_,by rw [fresh,load,loaded]; rfl,?_⟩
      · obtain ⟨data,rfl⟩ := load_fresh loaded
        simp [acctOf,newObject,there]
      · exact agree_stored (stored_grows (loaded_consistent tidy.kept unmarked loaded) committed.grows) _
  | some o =>
    have settled := committed.settled tidy isMarked unrevived roots there
    obtain ⟨-,o',there',left⟩ := committed.left a o there
    rw [find_cached there'] at settled
    have absentFresh (deleted : o'.deleted = true) : (view keccak (opened s'.db s'.trie)).accounts a = none := by
      rw [deleted] at settled
      rw [fresh,map_eq_none_iff]
      exact map_eq_none_iff.mp settled.symm
    have presentFresh (live : o'.deleted = false) : ∃ y, (view keccak (opened s'.db s'.trie)).accounts a = some y ∧
        stored y = stored (acctOf keccak s'.db o') := by
      rw [live] at settled
      obtain ⟨x,loaded,same⟩ := map_eq_some_iff.mp settled.symm
      exact ⟨_,by rw [fresh,loaded]; rfl,same⟩
    have shown : (view keccak s).accounts a = if o.deleted then none else some (acctOf keccak s.db o) := by
      show (find keccak s a).map _ = _
      rw [find_cached there]
      cases o.deleted <;> rfl
    have test : ((acctOf keccak s.db o).suicided || (del && (s.stateObjects a).isSome && touched s a &&
        (acctOf keccak s.db o).empty keccak)) = (o.suicided || (touched s a && del && o.empty keccak)) := by
      rw [there]
      show (o.suicided || (del && true && touched s a && o.empty keccak)) = _
      rw [Bool.and_true,Bool.and_comm del]
    rcases commitFates_cases keccak del order there with ⟨gone,dropped⟩ | ⟨remains,⟨-,data,written⟩ | ⟨-,stays⟩⟩
    · have none : (view keccak (opened s'.db s'.trie)).accounts a = none := by
        rw [dropped] at left
        cases left
        exact absentFresh rfl
      refine persists_of (fun _ => none) fun x found => .inl ⟨?_,none⟩
      rw [shown] at found
      split at found <;> cases found
      exact test.trans gone
    · have live := written_live tidy.sound.objects unrevived there written
      rw [written] at left
      cases left with
      | written same flushed root encoded =>
        obtain ⟨y,present,stored_⟩ := presentFresh (same.deleted.trans live)
        rw [live] at shown
        refine persists_of (fun absent => by cases shown.symm.trans absent) fun x found => ?_
        cases shown.symm.trans found
        obtain ⟨balance,nonce,codeHash,storage⟩ := agree_stored stored_ fun _ => True
        have data : o'.data.balance = o.data.balance ∧ o'.data.nonce = o.data.nonce ∧ o'.data.codeHash = o.data.codeHash := by
          rw [same.data]
          exact ⟨rfl,rfl,rfl⟩
        refine .inr ⟨test.trans remains,y,present,balance.trans data.1,nonce.trans data.2.1,codeHash.trans data.2.2,fun key alone => ?_⟩
        exact (storage key trivial).trans (flushed_stateAt flushed s'.db (alone o there))
    · rw [stays] at left
      cases left
      cases deleted : o.deleted with
      | true =>
        rw [deleted] at shown
        exact persists_of (fun _ => absentFresh deleted) fun x found => by cases shown.symm.trans found
      | false =>
        rw [deleted] at shown
        obtain ⟨y,present,stored_⟩ := presentFresh deleted
        refine persists_of (fun absent => by cases shown.symm.trans absent) fun x found => ?_
        cases shown.symm.trans found
        exact .inr ⟨test.trans remains,y,present,agree_stored (stored_.trans (stored_grows (tidy.kept.consistent a o there) committed.grows)) _⟩

theorem commit_of_loop (ranges : Ranges s order) (looped : order.objects.foldlM (commitObject keccak del order) (marked s) = .ok s₁) :
    s.commit keccak del order =
      .ok (Secure.hash keccak s₁.trie,clearJournalAndRefund { s₁ with db := s₁.db.commitTrie keccak s₁.trie }) := by
  unfold commit
  rw [markDirty_marked ranges,looped]
  rfl
/-- What `Finalise` leaves does not depend on the orders in which its loops go. -/
theorem finalise_order (tidy : Tidy keccak s) (ranges : Ranges s order) (ranges' : Ranges s order')
    (done : s.finalise keccak del order = .ok s') : s.finalise keccak del order' = .ok s' := by
  have ranged (a : Address) := tidy.ranged ranges a
  have ranged' (a : Address) := tidy.ranged ranges' a
  obtain ⟨s₁,looped,rfl⟩ := finalise_loop done
  obtain ⟨encodes,rfl⟩ := (finaliseObject_all ranges.dirties.1 (fun a _ => ranged a) (fun _ _ => rfl) rfl).mp looped
  have perm := enumerates_perm ranges.dirties ranges'.dirties
  have finals : finalOf keccak s del order' = finalOf keccak s del order := funext fun a => finalOf_order (ranged a) (ranged' a)
  have looped' := (finaliseObject_all ranges'.dirties.1 (fun a _ => ranged' a) (fun _ _ => rfl) rfl).mpr
    ⟨fun a member => finals ▸ encodes a (perm.mem_iff.mpr member),rfl⟩
  rw [finals,← perm.foldl_eq' fun a _ b _ z => entered_comm tidy.distinct z] at looped'
  rw [finalise,looped']
  rfl
/-- The root does not depend on the orders in which the loops go. -/
theorem commit_order (tidy : Tidy keccak s) (ranges : Ranges s order) (ranges' : Ranges s order')
    (done : s.commit keccak del order = .ok (root,s')) (roots : Roots keccak (Tries s')) :
    ∃ s'', s.commit keccak del order' = .ok (root,s'') := by
  obtain ⟨rfl,trie,-,writable⟩ := commit_committed tidy ranges done roots
  have ranged' := tidy.ranged_marked ranges'
  have fates (a : Address) : commitFates keccak s del order' a = commitFates keccak s del order a :=
    fateOf_order (tidy.ranged_marked ranges a) (ranged' a)
  have present {a : Address} (member : a ∈ order.objects) : s.stateObjects a ≠ none := (ranges.objects.2 a).mp member
  obtain ⟨s₁,looped⟩ : ∃ s₁, order'.objects.foldlM (commitObject keccak del order') (marked s) = .ok s₁ := by
    refine commitObject_loop_ok ranges'.objects.1 (fun a _ => ranged' a) fun a _ o there => ?_
    show Writable o (commitFates keccak s del order' a)
    rw [fates]
    exact writable a o there
  obtain ⟨loop,-,-⟩ := commitObject_loop ranges'.objects.1 (fun a _ => ranged' a) (fun a _ => (fates a).symm) looped
  have same : s₁.trie = s'.trie := by
    rw [trie,loop.trie]
    refine (enterAll_perm (enumerates_perm ranges.objects ranges'.objects) (fun a inA b inB => ?_) _).symm
    exact tidy.distinct a b (present inA) (present inB)
  exact ⟨_,by rw [commit_of_loop ranges' looped,same]⟩

/-- A commit persists what is shown, in every run in which nothing that changed is unmarked
    where it is written, and its root does not depend on the order of its loops. -/
theorem commit_persists (keccak : Bytes → Hash) (ops : List Op) {s : StateDB} {answers : List (Option Hash)}
    (ran : run (step keccak) start ops = .ok (s,answers)) (del : Bool) (order : Order) {root : Hash} {s' : StateDB}
    (done : s.commit keccak del order = .ok (root,s'))
    (possible : ∀ v ∈ visits (step keccak) start (ops ++ [.commit del order]), Possible keccak v.1 v.2)
    (clear : ∀ v ∈ visits (step keccak) start (ops ++ [.commit del order]), ClearAfter keccak v.1 v.2)
    (unlost : ∀ v ∈ visits (step keccak) start (ops ++ [.commit del order]), Unlost v.1 v.2) :
    (∃ fresh, StateDB.new root s'.db = some fresh ∧ ∀ a, Apart keccak s a → Persists keccak s fresh del a) ∧
      ∀ order', Ranges s order' → ∃ s'', s.commit keccak del order' = .ok (root,s'') := by
  rw [visits_append ran] at possible clear unlost
  have tidy := run_stored ran (fun v member => possible v (List.mem_append_left _ member))
    (fun v member => clear v (List.mem_append_left _ member)) fun v member => unlost v (List.mem_append_left _ member)
  have last : (s,Op.commit del order) ∈ visits (step keccak) start ops ++ [(s,.commit del order)] := by simp
  have ranges : Ranges s order := (possible _ last).1
  obtain ⟨isMarked,unrevived⟩ : Marked s ∧ Unrevived s (.commit del order) := unlost _ last
  have after : Clear keccak s' := clear _ last s' (some root) (by simp [step,done,Except.map])
  obtain ⟨rfl,-,committed,-⟩ := commit_committed tidy ranges done after.roots
  refine ⟨⟨opened s'.db s'.trie,?_,fun a apart => ?_⟩,fun order' ranges' => ?_⟩
  · simp [StateDB.new,committed.opened]
  · exact commit_persists_at committed tidy isMarked unrevived after.roots apart
  · exact commit_order tidy ranges ranges' done after.roots

end

/-! ### An account with a slot -/

open Keccak
open StateRevert (account enumerates_account ranges_account)

def slot : Hash := bytesToHash [1]
def value : Hash := bytesToHash [2]
def slotOrder : Order := ⟨[account],[account],[],fun _ => [slot]⟩
/-- The account and the state after the slot was set. -/
def slotObject : StateObject := { emptyObject keccak256 account with
  trie := some Secure.empty
  originStorage := Function.update (fun _ => none) slot (some Hash.zero)
  dirtyStorage := Function.update (fun _ => none) slot (some value) }
def slotSet : StateDB := ((start.append (.createObjectChange account)).append (.storageChange account slot Hash.zero)).setStateObject
  slotObject
/-- The tries that a commit makes. -/
def slotTrie : SecureTrie := (slotObject.updateTrie keccak256 newDatabase [slot]).1
def accountTrie : SecureTrie := Secure.tryUpdate keccak256 Secure.empty account.bytes
  ((encodeAccount { slotObject.data with root := Secure.hash keccak256 slotTrie }).getD [])

theorem slotSet_step : start.setState keccak256 account slot value = slotSet := by
  have absent : find keccak256 start account = none := by
    rw [find_uncached rfl]
    simp [load,start,opened]
  have other : Hash.zero ≠ value := by decide
  simp [slotSet,slotObject,setState,getOrNewStateObject,createObject,getStateObject_none absent,StateObject.getState,
    StateObject.getCommittedState,StateObject.getTrie,StateObject.decodeSlot,StateObject.putState,emptyObject,newObject,
    Database.openTrie,other,append,setStateObject]
theorem slotSet_others (a : Address) (other : a ≠ account) : slotSet.stateObjects a = none := by
  simp [slotSet,slotObject,setStateObject,append,start,opened,emptyObject,newObject,other]
theorem slotSet_only {a : Address} (there : slotSet.stateObjects a ≠ none) : a = account :=
  by_contra fun other => there (slotSet_others a other)
theorem slotSet_here : slotSet.stateObjects account = some slotObject := by
  simp [slotSet,setStateObject,slotObject,emptyObject,newObject]
theorem slotSet_ranges : Ranges slotSet slotOrder ∧ Distinct keccak256 slotSet := by
  refine ranges_account slotSet_here slotSet_others rfl (enumerates_account ?_ fun a other => ?_) ⟨List.nodup_nil,fun a => ?_⟩
    ⟨List.nodup_singleton slot,fun k => ?_⟩
  · simp [slotSet,setStateObject,append,Journal.append,Entry.dirtied,count,start,opened,newJournal]
  · simp [slotSet,setStateObject,append,Journal.append,Entry.dirtied,count,start,opened,newJournal,other]
  · simp [slotOrder,slotSet,setStateObject,append,start,opened]
  · by_cases same : k = slot <;> simp [same,slotOrder,slotObject]
/-- The nodes of the tries, and their hashes. -/
theorem slot_roots : Roots keccak256 {t | t = Secure.empty ∨ t = slotTrie ∨ t = accountTrie} := by
  have computed : ∀ a ∈ [0x80] :: (nodes keccak256 slotTrie.val ++ nodes keccak256 accountTrie.val), a.length < 2^64 ∧
      keccak256 a ≠ Hash.zero ∧
      ∀ b ∈ [0x80] :: (nodes keccak256 slotTrie.val ++ nodes keccak256 accountTrie.val), keccak256 a = keccak256 b → a = b := by
    rw [accountTrie,slotTrie,keccak_packed]
    decide +kernel
  have listed (e : Bytes) (member : e ∈ ({[0x80]} ∪ {e | ∃ t ∈ ({t | t = Secure.empty ∨ t = slotTrie ∨ t = accountTrie} :
      Set SecureTrie), e ∈ nodes keccak256 t.val} : Set Bytes)) :
      e ∈ [0x80] :: (nodes keccak256 slotTrie.val ++ nodes keccak256 accountTrie.val) := by
    rcases member with first | ⟨t,rfl | rfl | rfl,inside⟩
    · exact List.mem_cons.mpr (.inl first)
    · simp [nodes,Secure.empty] at inside
    · simp [inside]
    · simp [inside]
  exact ⟨⟨fun a inA b inB => (computed a (listed a inA)).2.2 b (listed b inB),fun e member => (computed e (listed e member)).2.1,
    fun e member => (computed e (listed e member)).1⟩,by decide +kernel⟩
theorem roots_anti {keccak : Bytes → Hash} {tries' : Set SecureTrie} (roots : Roots keccak tries) (sub : tries' ⊆ tries) :
    Roots keccak tries' := by
  have inside : {[0x80]} ∪ {e | ∃ t ∈ tries', e ∈ nodes keccak t.val} ⊆ {[0x80]} ∪ {e | ∃ t ∈ tries, e ∈ nodes keccak t.val} :=
    Set.union_subset_union_right _ fun e ⟨t,member,node⟩ => ⟨t,sub member,node⟩
  exact ⟨⟨roots.ideal.injective.mono inside,fun e member => roots.ideal.nonzero e (inside member),
    fun e member => roots.ideal.fits e (inside member)⟩,roots.empty⟩
theorem slotSet_clear : Clear keccak256 slotSet := by
  refine ⟨slotSet_ranges.2,?_,roots_anti slot_roots ?_⟩
  · intro a o there k read k' read' _
    obtain rfl : a = account := slotSet_only (by simp [there])
    have only {k : Hash} (read : o.originStorage k ≠ none) : k = slot := by
      by_contra other
      simp only [slotSet,setStateObject,slotObject,emptyObject,newObject,Function.update_self,some.injEq] at there
      exact read (by rw [← there]; simp [other])
    exact (only read).trans (only read').symm
  · rintro t (rfl | ⟨a,o,there,trie⟩ | ⟨root,found⟩)
    · exact .inl rfl
    · obtain rfl : a = account := slotSet_only (by simp [there])
      simp only [slotSet,setStateObject,slotObject,emptyObject,newObject,Function.update_self,some.injEq] at there
      rw [← there] at trie
      exact .inl (some.inj trie).symm
    · cases found
theorem slotSet_ranged : Ranged keccak256 (marked slotSet) slotOrder account := by
  have only (o : StateObject) (there : (marked slotSet).stateObjects account = some o) : o = slotObject :=
    some.inj (there.symm.trans slotSet_here)
  refine ⟨?_,?_,slotSet_clear.spread account,slotSet_ranges.1.slots account⟩
  · intro o there
    rw [only o there]
    rfl
  · intro o there
    rw [only o there]
    refine ⟨⟨?_,?_⟩,slots_empty,nofun⟩
    · intro k dirty
      by_cases same : k = slot
      · simp [slotObject,same]
      · simp [slotObject,same] at dirty
    · intro k v read
      by_cases same : k = slot
      · simpa [slotObject,same,slotOf,trieOf,StateObject.decodeSlot] using read.symm
      · simp [slotObject,same,emptyObject,newObject] at read
theorem slotSet_fate : fateOf keccak256 (marked slotSet) (marked slotSet).stateObjectsDirty false slotOrder account =
    .written { slotObject.data with root := Secure.hash keccak256 slotTrie } := by
  have there : (marked slotSet).stateObjects account = some slotObject := slotSet_here
  have dirty : (marked slotSet).stateObjectsDirty account = true := by
    simp [marked,touched,slotSet,setStateObject,append,Journal.append,Entry.dirtied,count,start,opened,newJournal]
  rw [fateOf_some there,fate_written (by simp [slotObject,emptyObject,newObject]) dirty]
  rfl
theorem slotSet_commits : ∃ root s', slotSet.commit keccak256 false slotOrder = .ok (root,s') := by
  cases done : slotSet.commit keccak256 false slotOrder with
  | error failure =>
    have computed : (slotSet.commit keccak256 false slotOrder).toBool = true := by
      rw [slotSet,keccak_packed]
      decide +kernel
    simp [done,Except.toBool] at computed
  | ok r => exact ⟨r.1,r.2,rfl⟩
variable {root : Hash}
variable {s' : StateDB}
/-- After the commit the account has the only object, which nothing marks. -/
theorem slotSet_left (done : slotSet.commit keccak256 false slotOrder = .ok (root,s')) :
    (∃ o, s'.stateObjects account = some o ∧ SameAccount slotObject o ∧ Flushed keccak256 newDatabase slotObject slotTrie o) ∧
      (∀ a, s'.stateObjects a ≠ none → a = account) ∧ (∀ a, s'.stateObjectsDirty a = false) ∧ s'.journal = newJournal ∧
      s'.trie = accountTrie ∧ ∀ root t, s'.db.tries root = some t → t = slotTrie ∨ t = accountTrie := by
  obtain ⟨s₁,looped,-,rfl⟩ := commit_loop slotSet_ranges.1 done
  obtain ⟨s₂,round,⟨⟩⟩ := foldlM_cons_ok.mp looped
  have there : (marked slotSet).stateObjects account = some slotObject := slotSet_here
  obtain ⟨round,database,-⟩ := commitObject_round slotSet_ranged there round
  rw [slotSet_fate] at round database
  have adds : Adds keccak256 newDatabase s₁.db slotTrie := database.resolve_left fun kept => kept.1 _ rfl
  obtain ⟨flag,o',there',left⟩ := round.left slotObject there
  refine ⟨⟨o',there',left.same,left.flushed⟩,?_,?_,rfl,round.trie,?_⟩
  · intro a present
    by_contra other
    have present : s₁.stateObjects a ≠ none := present
    rw [(round.others a other).1] at present
    exact other (slotSet_only present)
  · intro a
    by_cases same : a = account
    · rw [same]
      exact flag
    · refine (round.others a same).2.trans ?_
      simp [marked,touched,slotSet,setStateObject,append,Journal.append,Entry.dirtied,count,start,opened,newJournal,same]
  · intro root t found
    rcases (commitTrie_adds keccak256 s₁.db s₁.trie).only root t found with old | ⟨same,-⟩
    · rcases adds.only root t old with older | ⟨same,-⟩
      · cases older
      · exact .inl same
    · exact .inr (same.trans round.trie)
theorem slotSet_committed (done : slotSet.commit keccak256 false slotOrder = .ok (root,s')) :
    Clear keccak256 s' := by
  obtain ⟨⟨o',there',-,flushed⟩,only,-,-,isTrie,tries⟩ := slotSet_left done
  have isLeft {a : Address} {o : StateObject} (present : s'.stateObjects a = some o) : o = o' := by
    obtain rfl := only a (by simp [present])
    exact some.inj (present.symm.trans there')
  refine ⟨fun a b inA inB _ => (only a inA).trans (only b inB).symm,?_,roots_anti slot_roots ?_⟩
  · intro a o present k read k' read' _
    obtain rfl := isLeft present
    have slot_ {k : Hash} (read : o.originStorage k ≠ none) : k = slot := by
      by_contra other
      exact (flushed.origin k).mp read (by simp [slotObject,other,emptyObject,newObject])
    exact (slot_ read).trans (slot_ read').symm
  · rintro t (same | ⟨a,o,present,trie⟩ | ⟨root,found⟩)
    · exact .inr (.inr (same.trans isTrie))
    · obtain rfl := isLeft present
      exact .inr (.inl (some.inj (trie.symm.trans flushed.trie)))
    · exact .inr (tries root t found)

/-- The account and its slot are there in a new state, whichever order the commit takes. -/
theorem commit_persists_slot : ∃ s answers root s', run (step keccak256) start [.cmd (.setState account slot value)] = .ok (s,answers) ∧
    s.commit keccak256 false slotOrder = .ok (root,s') ∧
    (∃ fresh, StateDB.new root s'.db = some fresh ∧ Persists keccak256 s fresh false account) ∧
    ∀ order', Ranges s order' → ∃ s'', s.commit keccak256 false order' = .ok (root,s'') := by
  have ran : run (step keccak256) start [.cmd (.setState account slot value)] = .ok (slotSet,[none]) := by
    simp [run,step,exec,Except.map,slotSet_step]
  have each (P : StateDB × Op → Prop) (first : P (start,.cmd (.setState account slot value))) (last : P (slotSet,.commit false slotOrder)) :
      ∀ v ∈ visits (step keccak256) start ([.cmd (.setState account slot value)] ++ [.commit false slotOrder]), P v := by
    rw [visits_append ran]
    simpa [visits,step,exec,Except.map,slotSet_step] using ⟨first,last⟩
  obtain ⟨root,s',done⟩ := slotSet_commits
  obtain ⟨⟨fresh,opened_,persists⟩,orders⟩ := commit_persists keccak256 [.cmd (.setState account slot value)] ran false slotOrder
    done (each _ trivial slotSet_ranges) (each _ (by
      intro s answer stepped
      simp only [step,exec,Except.map,slotSet_step,Except.ok.injEq,Prod.mk.injEq] at stepped
      rw [← stepped.1]
      exact slotSet_clear) (by
      intro s answer stepped
      have stepped : (slotSet.commit keccak256 false slotOrder).map (fun r => (r.2,some r.1)) = .ok (s,answer) := stepped
      obtain ⟨⟨root,s₁⟩,committed,⟨⟩⟩ := map_ok.mp stepped
      exact slotSet_committed committed)) (each _ trivial ⟨(by
      intro prev member
      simp [slotSet,setStateObject,append,Journal.append,start,opened,newJournal] at member),(by
      intro a o (there : slotSet.stateObjects a = some o) deleted
      obtain rfl : a = account := slotSet_only (by simp [there])
      rw [slotSet_here] at there
      cases there
      cases deleted)⟩)
  exact ⟨slotSet,[none],root,s',ran,done,⟨fresh,opened_,persists account fun b there _ => (slotSet_only there).symm⟩,orders⟩

def recreated : List Op := [.cmd (.setState account slot value),.commit false slotOrder,.cmd (.createAccount account)]
def recreatedOrder : Order := ⟨[],[account],[],fun _ => []⟩
/-- The slot of the account before the commit and in a new state after it. -/
def slotAround : Except Failure (Option (Bool × Hash × Hash)) := do
  let (s,_) ← run (step keccak256) start recreated
  let (root,s') ← s.commit keccak256 false recreatedOrder
  return (StateDB.new root s'.db).map fun fresh =>
    ((fresh.exist keccak256 account).1,(s.getState keccak256 account slot).1,(fresh.getState keccak256 account slot).1)

theorem recreated_run : ∃ root s₁ answers, slotSet.commit keccak256 false slotOrder = .ok (root,s₁) ∧
    run (step keccak256) start recreated = .ok (s₁.createAccount keccak256 account,answers) := by
  obtain ⟨root,s₁,done⟩ := slotSet_commits
  exact ⟨root,s₁,[none,some root,none],done,by simp [recreated,run,step,exec,Except.map,slotSet_step,done]⟩
/-- The state after the account was created anew: its object is new, and nothing marks it. -/
theorem recreated_ranges {s₁ : StateDB} (done : slotSet.commit keccak256 false slotOrder = .ok (root,s₁)) :
    Ranges (s₁.createAccount keccak256 account) recreatedOrder ∧ Distinct keccak256 (s₁.createAccount keccak256 account) ∧
      ∃ balance, (s₁.createAccount keccak256 account).stateObjects account = some (replaced keccak256 account balance) := by
  obtain ⟨⟨o,there,same,-⟩,only,clean,journal,-⟩ := slotSet_left done
  have live : o.deleted = false := same.deleted
  have created : s₁.createAccount keccak256 account = ((s₁.append (.resetObjectChange o)).setStateObject
      (replaced keccak256 account o.data.balance)) := by
    simp [createAccount,createObject,getStateObject,there,live,setStateObject,append,replaced,emptyObject,newObject]
  rw [created]
  have here : ((s₁.append (.resetObjectChange o)).setStateObject
      (replaced keccak256 account o.data.balance)).stateObjects account = some (replaced keccak256 account o.data.balance) := by
    simp [setStateObject]
  refine and_assoc.mp ⟨ranges_account here (fun a other => ?_) rfl ⟨List.nodup_nil,fun a => ?_⟩ ⟨List.nodup_nil,fun a => ?_⟩
    ⟨List.nodup_nil,fun k => ?_⟩,o.data.balance,here⟩
  · simpa [setStateObject,append,other] using fun present => other (only a present)
  · simp [recreatedOrder,setStateObject,append,Journal.append,Entry.dirtied,count,journal,newJournal]
  · simp [recreatedOrder,setStateObject,append,clean]
  · simp [recreatedOrder,replaced,emptyObject,newObject]
/-- An account that is created over another one is not written: the new state shows its old slot. -/
theorem commit_loses_recreated : ∃ s answers root s' fresh, run (step keccak256) start recreated = .ok (s,answers) ∧
    (∀ v ∈ visits (step keccak256) start (recreated ++ [.commit false recreatedOrder]), Possible keccak256 v.1 v.2) ∧
    s.commit keccak256 false recreatedOrder = .ok (root,s') ∧ StateDB.new root s'.db = some fresh ∧ Apart keccak256 s account ∧
    ¬ Persists keccak256 s fresh false account := by
  obtain ⟨root₁,s₁,answers,committed,ran⟩ := recreated_run
  obtain ⟨ranges,distinct,balance,here⟩ := recreated_ranges committed
  have computed : slotAround = .ok (some (true,Hash.zero,value)) := by
    rw [slotAround,keccak_packed]
    decide +kernel
  rw [slotAround,ran] at computed
  obtain ⟨_,⟨⟩,computed⟩ := bind_ok computed
  obtain ⟨⟨root,s'⟩,done,computed⟩ := bind_ok computed
  obtain ⟨fresh,opens,shown⟩ := map_eq_some_iff.mp (Except.ok.inj computed)
  simp only [Prod.mk.injEq] at shown
  refine ⟨_,answers,root,s',fresh,ran,?_,done,opens,?_,fun persists => ?_⟩
  · have visited : visits (step keccak256) start recreated = [(start,.cmd (.setState account slot value)),
        (slotSet,.commit false slotOrder),(s₁,.cmd (.createAccount account))] := by
      simp [recreated,visits,step,exec,Except.map,slotSet_step,committed]
    rw [visits_append ran,visited]
    simp only [List.cons_append,List.nil_append,List.mem_cons,List.not_mem_nil,or_false,forall_eq_or_imp,forall_eq]
    exact ⟨trivial,slotSet_ranges,trivial,ranges,distinct⟩
  · intro b there _
    exact (List.mem_singleton.mp ((ranges.objects.2 b).mpr there)).symm
  · have same := persists.state shown.1 slot fun o there => by
      rw [here] at there
      cases there
      exact fun k read => absurd rfl read
    rw [show (observe keccak256 fresh).state account slot = value from shown.2.2,
      show (observe keccak256 (s₁.createAccount keccak256 account)).state account slot = Hash.zero from shown.2.1] at same
    revert same
    decide

end Canchain.StatePersist
