import Canchain.StateStorage

/-!
What the tries and the objects have in common. An account that is not marked dirty is in the
trie as before the entries of the journal (`Stored.settled`), the storage of every object goes
with its trie, and the roots of the accounts are those of tries in the database.
-/
namespace Canchain.StateStored
open Rlp Common State State.StateDB Worlds StateView Function Option StateDB
open StateRefines StateRuns StateStorage Undo
open Secure (SecureTrie)
variable {objs objs' : Address → Option StateObject} {f : StateObject → StateObject} {pre : List Entry} {revid : Nat}

section
variable {keccak : Bytes → Hash} {s s' : StateDB} {o o' : StateObject} {db : Database} {e : Entry} {es : List Entry}
variable {addr a : Address} {w : World}

theorem undo_other (other : subject e ≠ some a) (w : World) : (undo keccak e w).accounts a = w.accounts a := by
  have ne {b : Address} (about : subject e = some b) : a ≠ b := by
    rintro rfl
    exact other about
  cases e with
  | refundChange _ | addLogChange _ | addPreimageChange _ | touchChange _ => rfl
  | _ => exact update_of_ne (ne rfl) _ _
theorem undoAll_other (other : ∀ e ∈ es, subject e ≠ some a) (w : World) :
    (undoAll (undo keccak) es w).accounts a = w.accounts a := by
  induction es with
  | nil => rfl
  | cons e es ih =>
    show (undo keccak e (undoAll (undo keccak) es w)).accounts a = w.accounts a
    rw [undo_other (other e (by simp)),ih fun e' member => other e' (by simp [member])]
/-- No entry is about an account that does not exist. -/
theorem undoable_absent (undoable : Undoable (undo keccak) (CanRevert keccak s) es w) (absent : w.accounts a = none) :
    ∀ e ∈ es, subject e ≠ some a := by
  induction es generalizing w with
  | nil => simp
  | cons e es ih =>
    obtain ⟨fits,rest⟩ := undoable
    have other : subject e ≠ some a := by
      intro about
      have there := fits.1 a about
      rw [absent] at there
      cases there
    intro e' member
    rcases List.mem_cons.mp member with rfl | later
    · exact other
    · exact ih rest (by rw [undo_other other,absent]) e' later

/-- The objects before the entry. -/
def before (objs : Address → Option StateObject) : Entry → Address → Option StateObject
  | .createObjectChange account => Function.update objs account none
  | .resetObjectChange prev => Function.update objs prev.address (some prev)
  | _ => objs
variable (keccak) in
/-- The object that the entry changed is there, and had read the slot that it changed. -/
structure Ready (db : Database) (objs : Address → Option StateObject) (e : Entry) : Prop where
  object : ∀ a, (restored e).isSome → subject e = some a → objs a ≠ none
  slot : ∀ a o key prevalue, e = .storageChange a key prevalue → objs a = some o → o.originStorage key ≠ none
  prev : ∀ prev, e = .resetObjectChange prev → Consistent keccak db prev
variable (keccak) in
/-- From the newest entry on, each one finds what it needs. -/
def Restorable (db : Database) : (Address → Option StateObject) → List Entry → Prop
  | _, [] => True
  | objs, e :: es => Ready keccak db objs e ∧ Restorable db (before objs e) es

/-- The object of the address is still there, with more in its caches. -/
def Covers (objs objs' : Address → Option StateObject) (a : Address) : Prop :=
  ∀ o, objs a = some o → ∃ o', objs' a = some o' ∧ ∀ k, o.originStorage k ≠ none → o'.originStorage k ≠ none

theorem covers_before (covers : Covers objs objs' a) (e : Entry) :
    Covers (before objs e) (before objs' e) a := by
  cases e with
  | createObjectChange account =>
    by_cases same : a = account
    · intro o there
      simp [before,same] at there
    · intro o there
      simp only [before,ne_eq,same,not_false_eq_true,update_of_ne] at there ⊢
      exact covers o there
  | resetObjectChange prev =>
    by_cases same : a = prev.address
    · intro o there
      refine ⟨o,?_,fun _ => id⟩
      simpa [before,same] using there
    · intro o there
      simp only [before,ne_eq,same,not_false_eq_true,update_of_ne] at there ⊢
      exact covers o there
  | _ => exact covers
theorem restorable_mono (restorable : Restorable keccak db objs es)
    (covers : ∀ e ∈ es, ∀ a, subject e = some a → Covers objs objs' a) : Restorable keccak db objs' es := by
  induction es generalizing objs objs' with
  | nil => trivial
  | cons e es ih =>
    obtain ⟨ready,rest⟩ := restorable
    refine ⟨⟨?_,?_,ready.prev⟩,ih rest fun e' member a about => covers_before (covers e' (by simp [member]) a about) e⟩
    · intro a puts about
      obtain ⟨o,there⟩ := ne_none_iff_exists'.mp (ready.object a puts about)
      obtain ⟨o',there',-⟩ := covers e (by simp) a about o there
      simp [there']
    · rintro a o' key prevalue rfl there'
      obtain ⟨o,there⟩ := ne_none_iff_exists'.mp (ready.object a rfl rfl)
      obtain ⟨o'',there'',more⟩ := covers (.storageChange a key prevalue) (by simp) a rfl o there
      rw [there'] at there''
      cases there''
      exact more key (ready.slot a o key prevalue rfl there)

/-- What a commit keeps of an account. -/
def stored (x : Acct) : Int × UInt64 × Hash × (Hash → Hash) := (x.balance,x.nonce,x.codeHash,x.storage)
variable (keccak) in
/-- The root is that of a storage trie in the database. -/
def Holds (db : Database) (root : Hash) : Prop := ∃ t, db.openTrie root = some t ∧ Slots keccak t
variable (keccak) in
/-- The account at a key of the trie. -/
def accountAt (t : SecureTrie) (key : Bytes) : Option Account := (Secure.tryGet keccak t key).bind decodeAccount

/-- The number of entries that dirty an address. -/
def entriesOf (es : List Entry) (a : Address) : Int := es.countP fun e => e.dirtied = some a

variable (keccak) in
/-- The invariant, for a journal with the given entries. -/
structure StoredBy (s : StateDB) (entries : List Entry) : Prop where
  consistent : ∀ a o, s.stateObjects a = some o → Consistent keccak s.db o
  restorable : Restorable keccak s.db s.stateObjects entries.reverse
  counted : ∀ a, entriesOf entries a ≤ s.journal.dirties a
  /-- Before the entries, an account that is not marked was as in the trie. -/
  settled : ∀ a, s.stateObjectsDirty a = false → ((undoAll (undo keccak) entries (view keccak s)).accounts a).map stored =
    (s.load keccak a).map fun o => stored (acctOf keccak s.db o)
  /-- Only a marked object can have a root that is not in the database. -/
  rooted : ∀ key data, accountAt keccak s.trie key = some data → Holds keccak s.db data.root ∨
    ∃ b : Address, keccak b.bytes = keccak key ∧ s.stateObjects b ≠ none ∧ s.stateObjectsDirty b = true
  database : ∀ root t, s.db.tries root = some t → Secure.hash keccak t = root ∧
    ∀ key data, accountAt keccak t key = some data → Holds keccak s.db data.root
variable (keccak) in
abbrev Stored (s : StateDB) : Prop := StoredBy keccak s s.journal.entries

theorem load_account (loaded : s.load keccak addr = some o) : ∃ data, accountAt keccak s.trie addr.bytes = some data ∧
    o = newObject addr data := by
  obtain ⟨data,found,same⟩ := map_eq_some_iff.mp loaded
  exact ⟨data,found,same.symm⟩

/-! ### Commands -/

theorem set_cached (there : s.stateObjects a ≠ none) : (s.setStateObject o).stateObjects a ≠ none := by
  by_cases same : a = o.address
  · simp [setStateObject,same]
  · simpa [setStateObject,same] using there
theorem change_cached (change : Change keccak s es s') (there : s.stateObjects a ≠ none) : s'.stateObjects a ≠ none := by
  cases change with
  | cache found caches => exact set_cached there
  | touch found =>
    unfold StateDB.touch
    split <;> exact there
  | put | create | reset => exact set_cached (s := s.append _) there
  | _ => exact there
theorem distinct_anti (distinct : Distinct keccak s') (cached : ∀ a, s.stateObjects a ≠ none → s'.stateObjects a ≠ none) :
    Distinct keccak s := fun a b inA inB => distinct a b (cached a inA) (cached b inB)
/-- An object that is found is consistent, if the hash keeps its address apart from the others. -/
theorem StoredBy.found (stored : Stored keccak s) (distinct : Distinct keccak s')
    (cached : ∀ a, s.stateObjects a ≠ none → s'.stateObjects a ≠ none) (here : s'.stateObjects addr ≠ none)
    (found : find keccak s addr = some o) : Consistent keccak s.db o := by
  rcases find_cases found with ⟨there,-⟩ | ⟨there,loaded⟩
  · exact stored.consistent addr o there
  · obtain ⟨data,account,rfl⟩ := load_account loaded
    rcases stored.rooted addr.bytes data account with ⟨t,opened,slots⟩ | ⟨b,hashes,cachedB,-⟩
    · exact consistent_newObject opened slots addr
    · have same := distinct b addr (cached b cachedB) here hashes
      rw [same] at cachedB
      exact absurd there cachedB
theorem consistent_set (consistent : ∀ a o, s.stateObjects a = some o → Consistent keccak db o) (new : Consistent keccak db o)
    (a : Address) (x : StateObject) (there : (s.setStateObject o).stateObjects a = some x) : Consistent keccak db x := by
  by_cases same : a = o.address
  · simp only [setStateObject,same,update_self,some.injEq] at there
    rw [← there]
    exact new
  · simp only [setStateObject,ne_eq,same,not_false_eq_true,update_of_ne] at there
    exact consistent a x there
/-- The objects that replace one with fewer slots read. -/
theorem covers_set (objects : Objects keccak s) (found : find keccak s addr = some o) (address : o'.address = o.address)
    (more : ∀ k, o.originStorage k ≠ none → o'.originStorage k ≠ none) (a : Address) :
    Covers s.stateObjects (update s.stateObjects o'.address (some o')) a := by
  intro x there
  by_cases same : a = o'.address
  · refine ⟨o',by simp [same],?_⟩
    have here : a = addr := same.trans (address.trans (objects.find_address found))
    rw [here] at there
    rcases find_cases found with ⟨cached,-⟩ | ⟨absent,-⟩
    · cases there.symm.trans cached
      exact more
    · cases there.symm.trans absent
  · exact ⟨x,by simpa [same] using there,fun _ => id⟩

theorem ready_plain (inPlace : restored e = none) (notReset : ∀ prev, e ≠ .resetObjectChange prev)
    (objs : Address → Option StateObject) : Ready keccak db objs e := by
  refine ⟨?_,?_,fun prev is => absurd is (notReset prev)⟩
  · intro a puts
    rw [inPlace] at puts
    cases puts
  · rintro a o key prevalue rfl
    cases inPlace
theorem before_puts (puts : Puts keccak db o e o') (objs : Address → Option StateObject) : before objs e = objs := by
  cases puts <;> rfl
theorem ready_puts (puts : Puts keccak db o e o') (consistent : Consistent keccak db o) (objs : Address → Option StateObject) :
    Ready keccak db (update objs o'.address (some o')) e := by
  obtain ⟨address,-,about,-⟩ := puts.fields
  refine ⟨?_,?_,?_⟩
  · intro a _ same
    rw [about] at same
    cases same
    simp [address]
  · rintro a x key prevalue rfl there
    cases puts with
    | slot key value cached =>
      rw [show (o.putState key value).address = o.address from rfl,update_self] at there
      cases there
      exact cached.elim (consistent.synced.read key) id
  · rintro prev rfl
    cases puts
theorem change_restorable (sound : Sound keccak s) (stored : Stored keccak s) (change : Change keccak s es s')
    (found : ∀ a o, find keccak s a = some o → s'.stateObjects a ≠ none → Consistent keccak s.db o) :
    Restorable keccak s'.db s'.stateObjects s'.journal.entries.reverse := by
  have plain {e : Entry} (inPlace : restored e = none) (notReset : ∀ prev, e ≠ .resetObjectChange prev)
      (stays : before s.stateObjects e = s.stateObjects) :
      Restorable keccak s.db s.stateObjects (s.journal.entries ++ [e]).reverse := by
    rw [List.reverse_append]
    exact ⟨ready_plain inPlace notReset _,by rw [stays]; exact stored.restorable⟩
  cases change with
  | @cache addr o o' there caches =>
    refine restorable_mono stored.restorable fun _ _ a _ => covers_set sound.objects there caches.address ?_ a
    intro k read
    rcases caches.origin k with same | ⟨-,loaded⟩
    · rw [same]
      exact read
    · simp [loaded]
  | @put addr o o' e there puts =>
    obtain ⟨address,-,-,-⟩ := puts.fields
    have here : (setStateObject (s.append e) o').stateObjects addr ≠ none := by
      simp [setStateObject,address,sound.objects.find_address there]
    show Restorable keccak s.db (update s.stateObjects o'.address (some o')) (s.journal.entries ++ [e]).reverse
    rw [List.reverse_append]
    refine ⟨ready_puts puts (found addr o there here) _,?_⟩
    rw [before_puts puts]
    refine restorable_mono stored.restorable fun _ _ a _ => covers_set sound.objects there address ?_ a
    cases puts <;> exact fun _ => id
  | @create addr absent =>
    show Restorable keccak s.db (update s.stateObjects addr (some (emptyObject keccak addr)))
      (s.journal.entries ++ [Entry.createObjectChange addr]).reverse
    rw [List.reverse_append]
    refine ⟨ready_plain rfl (by intro _ is; cases is) _,?_⟩
    refine restorable_mono stored.restorable fun e member a about x there => ⟨x,?_,fun _ => id⟩
    have ne : a ≠ addr := by
      rintro rfl
      exact undoable_absent sound.undoable (view_absent absent) e member about
    simpa [before,ne] using there
  | @reset addr prev there =>
    have address := sound.objects.find_address there
    have here : (setStateObject (s.append (.resetObjectChange prev))
        (replaced keccak addr prev.data.balance)).stateObjects addr ≠ none := by
      simp [setStateObject]
    show Restorable keccak s.db (update s.stateObjects addr _)
      (s.journal.entries ++ [Entry.resetObjectChange prev]).reverse
    rw [List.reverse_append]
    refine ⟨⟨?_,?_,?_⟩,?_⟩
    · intro a puts
      cases puts
    · intro a o key prevalue is
      cases is
    · rintro _ ⟨⟩
      exact found addr prev there here
    · refine restorable_mono stored.restorable fun _ _ a _ => ?_
      have covers := covers_set sound.objects there rfl (fun _ => id) a
      simpa only [before,← address,update_idem] using covers
  | @touch addr o there =>
    have same : (s.touch o).stateObjects = s.stateObjects ∧ (s.touch o).db = s.db ∧
        (s.touch o).journal.entries = s.journal.entries ++ [.touchChange o.address] := by
      unfold StateDB.touch
      split <;> exact ⟨rfl,rfl,rfl⟩
    rw [same.1,same.2.1,same.2.2]
    exact plain rfl (by intro _ is; cases is) rfl
  | refund _ | log _ | preimage _ _ => exact plain rfl (by intro _ is; cases is) rfl

theorem change_consistent (stored : Stored keccak s) (change : Change keccak s es s')
    (found : ∀ a o, find keccak s a = some o → s'.stateObjects a ≠ none → Consistent keccak s.db o)
    (objects : Objects keccak s) (a : Address) (x : StateObject) (there : s'.stateObjects a = some x) :
    Consistent keccak s'.db x := by
  cases change with
  | @cache addr o o' here caches =>
    have address := caches.address.trans (objects.find_address here)
    refine consistent_set stored.consistent ((found addr o here ?_).caches caches) a x there
    simp [setStateObject,address]
  | @put addr o o' e here puts =>
    have address := puts.fields.1.trans (objects.find_address here)
    refine consistent_set stored.consistent ((found addr o here ?_).puts puts) a x there
    simp [setStateObject,address]
  | @create addr absent => exact consistent_set stored.consistent (consistent_replaced s.db addr 0) a x there
  | @reset addr prev here =>
    exact consistent_set stored.consistent (consistent_replaced s.db addr prev.data.balance) a x there
  | @touch addr o here =>
    have same : (s.touch o).stateObjects = s.stateObjects ∧ (s.touch o).db = s.db := by
      unfold StateDB.touch
      split <;> exact ⟨rfl,rfl⟩
    rw [same.1] at there
    rw [same.2]
    exact stored.consistent a x there
  | _ => exact stored.consistent a x there
theorem entriesOf_append (es fs : List Entry) (a : Address) : entriesOf (es ++ fs) a = entriesOf es a + entriesOf fs a := by
  simp [entriesOf]
theorem count_entriesOf (dirties : Address → Int) (e : Entry) (by_ : Int) (a : Address) :
    count dirties e.dirtied by_ a = dirties a + by_ * entriesOf [e] a := by
  unfold count entriesOf
  cases dirtied : e.dirtied with
  | none => simp [dirtied]
  | some b =>
    by_cases same : a = b
    · simp [dirtied,same]
    · simp [dirtied,same,Ne.symm same]
theorem change_counted (stored : Stored keccak s) (change : Change keccak s es s') (a : Address) :
    entriesOf s'.journal.entries a ≤ s'.journal.dirties a := by
  have appended (e : Entry) : entriesOf (s.append e).journal.entries a ≤ (s.append e).journal.dirties a := by
    have counted : entriesOf s.journal.entries a ≤ s.journal.dirties a := stored.counted a
    show entriesOf (s.journal.entries ++ [e]) a ≤ count s.journal.dirties e.dirtied 1 a
    rw [entriesOf_append,count_entriesOf]
    omega
  cases change with
  | cache => exact stored.counted a
  | @touch addr o there =>
    have first := appended (.touchChange o.address)
    unfold StateDB.touch
    split
    · refine le_trans first ?_
      simp only [Journal.dirty,count]
      by_cases same : a = o.address
      · simp [same]
      · simp [same]
    · exact first
  | put | create | reset | refund | log | preimage => exact appended _

theorem StoredBy.change (stored : Stored keccak s) (sound : Sound keccak s) (distinct : Distinct keccak s')
    (change : Change keccak s es s') : Stored keccak s' := by
  have cached (a : Address) : s.stateObjects a ≠ none → s'.stateObjects a ≠ none := change_cached change
  have found (a : Address) (o : StateObject) (there : find keccak s a = some o) (here : s'.stateObjects a ≠ none) :
    Consistent keccak s.db o := stored.found distinct cached here there
  obtain ⟨db,trie,flags,-,-,entries⟩ := change.frame
  have load (a : Address) : s'.load keccak a = s.load keccak a := by simp [StateDB.load,trie]
  refine ⟨change_consistent stored change found sound.objects,change_restorable sound stored change found,
    change_counted stored change,?_,?_,?_⟩
  · intro a clean
    rw [flags] at clean
    rw [entries,undoAll_append,(change.undone sound.objects).1,load,db]
    exact stored.settled a clean
  · intro key data account
    rw [trie] at account
    rw [db,flags]
    refine (stored.rooted key data account).imp_right ?_
    rintro ⟨b,hashes,there,marked⟩
    exact ⟨b,hashes,cached b there,marked⟩
  · rw [db]
    exact stored.database
theorem StoredBy.changes (stored : Stored keccak s) (sound : Sound keccak s) (changes : Changes keccak s es s')
    (distinct : Distinct keccak s') : Stored keccak s' := by
  induction changes with
  | refl => exact stored
  | tail before change ih =>
    have earlier := distinct_anti distinct fun _ => change_cached change
    exact (ih earlier).change (sound.changes before).1 distinct change

/-! ### Reverts -/

theorem restored_storage (puts : restored e = some f) (objs : Address → Option StateObject)
    (o : StateObject) : before objs e = objs ∧ (f o).originStorage = o.originStorage := by
  cases e <;> cases puts <;> exact ⟨rfl,rfl⟩
theorem restored_consistent (puts : restored e = some f) (consistent : Consistent keccak db o)
    (read : ∀ a key prevalue, e = .storageChange a key prevalue → o.originStorage key ≠ none) : Consistent keccak db (f o) := by
  cases e with
  | storageChange account key prevalue =>
    cases puts
    exact consistent.putState (read account key prevalue rfl) prevalue
  | suicideChange _ _ _ | balanceChange _ _ | nonceChange _ _ | codeChange _ _ _ =>
    cases puts
    exact consistent.same rfl rfl rfl rfl
  | _ => cases puts
/-- The parts of the invariant that are about the objects, after the revert of an entry. -/
theorem revertEntry_objects (objects : Objects keccak s) (fits : CanRevert keccak s e (view keccak s))
    (consistent : ∀ a o, s.stateObjects a = some o → Consistent keccak s.db o) (ready : Ready keccak s.db s.stateObjects e)
    (reverted : s.revertEntry keccak e = .ok s') :
    (∀ a o, s'.stateObjects a = some o → Consistent keccak s.db o) ∧
      (∀ a, Covers (before s.stateObjects e) s'.stateObjects a) ∧
      ∀ a, s'.stateObjectsDirty a = s.stateObjectsDirty a ∧ (s.stateObjects a ≠ none → s'.stateObjects a ≠ none) ∨
        s.load keccak a = none ∧ (view keccak s').accounts a = none := by
  cases puts : restored e with
  | some f =>
    obtain ⟨a,about⟩ := restored_subject puts
    obtain ⟨o,found⟩ := fits_found fits about
    obtain ⟨x,there⟩ := ne_none_iff_exists'.mp (ready.object a (by simp [puts]) about)
    have same : x = o := by
      have live := found
      rw [find_cached there] at live
      split at live
      · cases live
      · exact some.inj live
    rw [same] at there
    rw [revertEntry_put objects puts about found] at reverted
    cases reverted
    obtain ⟨stays,origin⟩ := restored_storage puts s.stateObjects o
    refine ⟨consistent_set consistent ?_,?_,fun b => .inl ⟨rfl,set_cached⟩⟩
    · refine restored_consistent puts (consistent a o there) fun b key prevalue is => ?_
      refine ready.slot b o key prevalue is ?_
      subst is
      cases about
      exact there
    · intro b
      rw [stays]
      exact covers_set objects found (restored_fields puts o).1 (by rw [origin]; exact fun _ => id) b
  | none =>
    cases e with
    | createObjectChange account =>
      obtain ⟨s₁,ran,shown,-⟩ := revertEntry_spec objects fits
      rw [reverted] at ran
      cases ran
      cases reverted
      refine ⟨?_,fun a x there => ⟨x,there,fun _ => id⟩,fun a => ?_⟩
      · intro a o there
        by_cases same : a = account
        · simp [same] at there
        · simp only [ne_eq,same,not_false_eq_true,update_of_ne] at there
          exact consistent a o there
      · by_cases same : a = account
        · rw [same]
          refine .inr ⟨fits.2,?_⟩
          rw [shown]
          simp [undo]
        · simp [same]
    | resetObjectChange prev =>
      cases reverted
      exact ⟨consistent_set consistent (ready.prev prev rfl),fun a x there => ⟨x,there,fun _ => id⟩,
        fun a => .inl ⟨rfl,set_cached⟩⟩
    | refundChange _ | addLogChange _ | addPreimageChange _ | touchChange _ =>
      cases reverted
      exact ⟨consistent,fun a x there => ⟨x,there,fun _ => id⟩,fun a => .inl ⟨rfl,id⟩⟩
    | _ => cases puts

theorem accountAt_congr (t : SecureTrie) {key key' : Bytes} (hashes : keccak key = keccak key') :
    accountAt keccak t key = accountAt keccak t key' := by
  simp [accountAt,Secure.tryGet,Secure.path,hashes]
theorem load_none : s.load keccak a = none ↔ accountAt keccak s.trie a.bytes = none := map_eq_none_iff
theorem StoredBy.revertEntry (stored : StoredBy keccak s (pre ++ [e])) (objects : Objects keccak s)
    (undoable : Undoable (undo keccak) (CanRevert keccak s) (e :: pre.reverse) (view keccak s))
    (reverted : s.revertEntry keccak e = .ok s') : StoredBy keccak (s'.uncount e) pre := by
  obtain ⟨fits,rest⟩ := undoable
  obtain ⟨ready,restorable⟩ : Restorable keccak s.db s.stateObjects (e :: pre.reverse) := by
    simpa using stored.restorable
  obtain ⟨consistent,covers,marks⟩ := revertEntry_objects objects fits stored.consistent ready reverted
  obtain ⟨s₁,ran,shown,-,db,trie,journal,-,-⟩ := revertEntry_spec objects fits
  rw [reverted] at ran
  cases ran
  have shown' : view keccak (s'.uncount e) = undo keccak e (view keccak s) := by rw [view_uncount,shown]
  have load (a : Address) : (s'.uncount e).load keccak a = s.load keccak a := by
    show ((Secure.tryGet keccak s'.trie a.bytes).bind decodeAccount).map (newObject a) = _
    rw [trie]
    rfl
  have db' : (s'.uncount e).db = s.db := db
  refine ⟨?_,?_,?_,?_,?_,?_⟩
  · rw [db']
    exact consistent
  · rw [db']
    exact restorable_mono restorable fun _ _ a _ => covers a
  · intro a
    have counted := stored.counted a
    show entriesOf pre a ≤ count s'.journal.dirties e.dirtied (-1) a
    rw [count_entriesOf,journal]
    rw [entriesOf_append] at counted
    omega
  · intro a clean
    rw [shown',load,db']
    rcases marks a with ⟨same,-⟩ | ⟨gone,absent⟩
    · have settled := stored.settled a (same ▸ clean)
      rwa [undoAll_append,undoAll_singleton] at settled
    · -- The account was created by the entry, so that no earlier one is about it.
      rw [shown] at absent
      rw [undoAll_other,absent,gone]
      · rfl
      · intro e' member
        exact undoable_absent rest absent e' (List.mem_reverse.mpr member)
  · intro key data account
    have before : accountAt keccak s.trie key = some data := by rw [← trie]; exact account
    rw [db']
    refine (stored.rooted key data before).imp_right ?_
    rintro ⟨b,hashes,there,marked⟩
    rcases marks b with ⟨same,stays⟩ | ⟨gone,-⟩
    · exact ⟨b,hashes,stays there,same.trans marked⟩
    · rw [load_none,accountAt_congr s.trie hashes,before] at gone
      cases gone
  · rw [db']
    exact stored.database
theorem StoredBy.revertEntries (stored : StoredBy keccak s (pre ++ es.reverse)) (objects : Objects keccak s)
    (undoable : Undoable (undo keccak) (CanRevert keccak s) (es ++ pre.reverse) (view keccak s))
    (ran : s.revertEntries keccak es = .ok s') : StoredBy keccak s' pre := by
  induction es generalizing s with
  | nil =>
    cases ran
    simpa using stored
  | cons e es ih =>
    obtain ⟨s₁,reverted,shown,objects₁,db,trie,journal,-,-⟩ := revertEntry_spec objects undoable.1
    have shown₁ : view keccak (s₁.uncount e) = undo keccak e (view keccak s) := by rw [view_uncount,shown]
    have trie₁ : (s₁.uncount e).trie = s.trie := trie
    have stored₁ : StoredBy keccak (s₁.uncount e) (pre ++ es.reverse) := by
      refine StoredBy.revertEntry ?_ objects ?_ reverted
      · simpa using stored
      · simpa using undoable
    refine ih stored₁ objects₁ ?_ ?_
    · rw [shown₁,fits_congr trie₁]
      exact undoable.2
    · simpa only [revertEntries,reverted] using ran
/-- Only the objects, the marks, the counts, the trie and the database matter. -/
theorem StoredBy.congr (stored : StoredBy keccak s es) (objs : s'.stateObjects = s.stateObjects) (db : s'.db = s.db)
    (trie : s'.trie = s.trie) (flags : s'.stateObjectsDirty = s.stateObjectsDirty)
    (dirties : s'.journal.dirties = s.journal.dirties)
    (undone : (undoAll (undo keccak) es (view keccak s')).accounts = (undoAll (undo keccak) es (view keccak s)).accounts) :
    StoredBy keccak s' es := by
  have load (a : Address) : s'.load keccak a = s.load keccak a := by simp [StateDB.load,trie]
  refine ⟨?_,?_,?_,?_,?_,?_⟩
  · rw [objs,db]
    exact stored.consistent
  · rw [objs,db]
    exact stored.restorable
  · rw [dirties]
    exact stored.counted
  · intro a
    rw [flags,load,db,undone]
    exact stored.settled a
  · rw [trie,db,objs,flags]
    exact stored.rooted
  · rw [db]
    exact stored.database
theorem revertToSnapshot_cases (reverted : s.revertToSnapshot keccak revid = .ok s') : ∃ r idx s₁,
    s.revertEntries keccak (s.journal.entries.drop r).reverse = .ok s₁ ∧ s' = s₁.cut r idx := by
  unfold revertToSnapshot at reverted
  simp only at reverted
  repeat' split at reverted
  all_goals cases reverted
  rename_i r _ _ _ s₁ ran
  exact ⟨r.journalIndex,_,s₁,ran,rfl⟩
theorem StoredBy.revertToSnapshot (stored : Stored keccak s) (sound : Sound keccak s)
    (reverted : s.revertToSnapshot keccak revid = .ok s') : Stored keccak s' := by
  obtain ⟨r,idx,s₁,ran,rfl⟩ := revertToSnapshot_cases reverted
  have parts : s.journal.entries.take r ++ s.journal.entries.drop r = s.journal.entries := List.take_append_drop _ _
  have undoable := sound.undoable
  rw [← parts,List.reverse_append] at undoable
  obtain ⟨s₂,ran',shown,-,-,-,entries,-,-⟩ := revertEntries_spec sound.objects (undoable_append _ _ _ _ _ |>.mp undoable).1
  rw [ran] at ran'
  cases ran'
  have stored₁ : StoredBy keccak s₁ (s.journal.entries.take r) := by
    refine StoredBy.revertEntries ?_ sound.objects undoable ran
    rw [List.reverse_reverse,parts]
    exact stored
  rw [← entries] at stored₁
  exact stored₁.congr rfl rfl rfl rfl rfl (by rw [view_cut])
/-- Every command keeps the invariant, if the hash keeps the addresses apart. -/
theorem exec_stored {c : Cmd} {reply : c.Reply} (stored : Stored keccak s) (sound : Sound keccak s)
    (done : s.exec keccak c = .ok (reply,s')) (distinct : Distinct keccak s') : Stored keccak s' := by
  rcases ((exec_follows sound c).2 reply s' done).2 with changes | _ | reverted
  · exact stored.changes sound changes distinct
  · exact stored.congr rfl rfl rfl rfl rfl (by rw [view_snapshot])
  · exact stored.revertToSnapshot sound reverted

end
end Canchain.StateStored
