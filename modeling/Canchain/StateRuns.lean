import Canchain.StateRefines

/-!
Runs of the account state. As long as an object that was deleted is not written again, every
state of a run is sound, and reverting to a snapshot restores everything that can be observed.
-/
namespace Canchain.StateRuns
open Rlp Common State State.StateDB Worlds StateView Function Option Except Bool Secure StateObject
open StateRefines Undo Runs

/-- The keys of a map, in some order. -/
def Enumerates {κ : Type} (keys : List κ) (Present : κ → Prop) : Prop := keys.Nodup ∧ ∀ k, k ∈ keys ↔ Present k
/-- The orders are orders of the keys of the maps. -/
structure Ranges (s : StateDB) (order : Order) : Prop where
  dirties : Enumerates order.dirties fun a => s.journal.dirties a ≠ 0
  objects : Enumerates order.objects fun a => s.stateObjects a ≠ none
  flagged : Enumerates order.flagged fun a => s.stateObjectsDirty a = true
  slots : ∀ a o, s.stateObjects a = some o → Enumerates (order.slots a) fun k => o.dirtyStorage k ≠ none

section
variable {keccak : Bytes → Hash} {s s' : StateDB} {addr : Address} {o o' : StateObject} {del : Bool} {order : Order}

variable (keccak) in
/-- The hash keeps the addresses of the objects apart. -/
def Distinct (s : StateDB) : Prop :=
  ∀ a b, s.stateObjects a ≠ none → s.stateObjects b ≠ none → keccak a.bytes = keccak b.bytes → a = b

variable (keccak) in
/-- The object that is written, as the trie and the map have it afterwards. -/
def Writes (s s' : StateDB) (o : StateObject) : Prop :=
  ∃ data, encodeAccount o.data = some data ∧ s'.trie = Secure.tryUpdate keccak s.trie o.address.bytes data ∧
    s'.stateObjects = Function.update s.stateObjects o.address (some o)
variable (keccak) in
/-- The object that is deleted. -/
def Deletes (s s' : StateDB) (o : StateObject) : Prop :=
  s'.trie = Secure.tryDelete keccak s.trie o.address.bytes ∧
    s'.stateObjects = Function.update s.stateObjects o.address (some { o with deleted := true })

theorem updateStateObject_writes (done : s.updateStateObject keccak o = .ok s') :
    Writes keccak s s' o ∧ s'.db = s.db ∧ s'.stateObjectsDirty = s.stateObjectsDirty := by
  unfold updateStateObject at done
  cases encoded : encodeAccount o.data with
  | none => simp [encoded] at done
  | some data =>
    simp only [encoded,ok.injEq] at done
    subst done
    exact ⟨⟨data,encoded,rfl,rfl⟩,rfl,rfl⟩
theorem deleteStateObject_deletes (s : StateDB) (o : StateObject) : Deletes keccak s (s.deleteStateObject keccak o) o := ⟨rfl,rfl⟩

theorem finaliseObject_cases (done : finaliseObject keccak del order s addr = .ok s') :
    s.stateObjects addr = none ∧ s' = s ∨ ∃ o, s.stateObjects addr = some o ∧ s'.db = s.db ∧
      s'.stateObjectsDirty = update s.stateObjectsDirty addr true ∧
      ((o.suicided || (del && o.empty keccak)) = true ∧ Deletes keccak s s' o ∨
        (o.suicided || (del && o.empty keccak)) = false ∧ Writes keccak s s' (o.updateRoot keccak s.db (order.slots addr))) := by
  unfold finaliseObject at done
  cases there : s.stateObjects addr with
  | none =>
    simp only [there,ok.injEq] at done
    exact .inl ⟨rfl,done.symm⟩
  | some o =>
    simp only [there] at done
    refine .inr ⟨o,rfl,?_⟩
    cases gone : o.suicided || (del && o.empty keccak) with
    | true =>
      simp only [gone,if_true,Except.map,ok.injEq] at done
      subst done
      exact ⟨rfl,rfl,.inl ⟨rfl,deleteStateObject_deletes s o⟩⟩
    | false =>
      simp only [gone,false_eq_true,if_false] at done
      obtain ⟨s₁,wrote,rfl⟩ := map_ok.mp done
      obtain ⟨writes,db,flags⟩ := updateStateObject_writes wrote
      exact ⟨db,by rw [← flags]; rfl,.inr ⟨rfl,writes⟩⟩
theorem commitDirty_cases {keys : List Hash} (done : s.commitDirty keccak o keys = .ok s') :
    ∃ o', (o.commitCode s.db).2.commitTrie keccak (o.commitCode s.db).1 keys = some (s'.db,o') ∧ Writes keccak s s' o' ∧
      s'.stateObjectsDirty = s.stateObjectsDirty := by
  unfold commitDirty at done
  cases committed : (o.commitCode s.db).2.commitTrie keccak (o.commitCode s.db).1 keys with
  | none => simp [committed] at done
  | some r =>
    obtain ⟨db,o'⟩ := r
    simp only [committed] at done
    obtain ⟨writes,same,flags⟩ := updateStateObject_writes done
    exact ⟨o',by rw [same],writes,flags⟩
theorem commitObject_cases (done : commitObject keccak del order s addr = .ok s') :
    s.stateObjects addr = none ∧ s' = s ∨ ∃ o s₁, s.stateObjects addr = some o ∧ s' = s₁.setDirty addr false ∧
      ((o.suicided || (s.stateObjectsDirty addr && del && o.empty keccak)) = true ∧ s₁ = s.deleteStateObject keccak o ∨
        (o.suicided || (s.stateObjectsDirty addr && del && o.empty keccak)) = false ∧
          (s.stateObjectsDirty addr = true ∧ s.commitDirty keccak o (order.slots addr) = .ok s₁ ∨
            s.stateObjectsDirty addr = false ∧ s₁ = s)) := by
  unfold commitObject at done
  cases there : s.stateObjects addr with
  | none =>
    simp only [there,ok.injEq] at done
    exact .inl ⟨rfl,done.symm⟩
  | some o =>
    simp only [there] at done
    obtain ⟨s₁,wrote,rfl⟩ := map_ok.mp done
    refine .inr ⟨o,s₁,rfl,rfl,?_⟩
    cases gone : o.suicided || (s.stateObjectsDirty addr && del && o.empty keccak) with
    | true =>
      simp only [gone,if_true,ok.injEq] at wrote
      exact .inl ⟨rfl,wrote.symm⟩
    | false =>
      simp only [gone,false_eq_true,if_false] at wrote
      refine .inr ⟨rfl,?_⟩
      cases dirty : s.stateObjectsDirty addr with
      | true => exact .inl ⟨rfl,by simpa only [dirty,if_true] using wrote⟩
      | false => exact .inr ⟨rfl,by simpa [dirty] using wrote.symm⟩

/-! The parts of an object that writing leaves. -/

/-- The objects differ in their storage, the marks of their code and their root at most. -/
structure SameAccount (o o' : StateObject) : Prop where
  address : o'.address = o.address
  deleted : o'.deleted = o.deleted
  suicided : o'.suicided = o.suicided
  data : o'.data = { o.data with root := o'.data.root }

variable (keccak) in
theorem updateSlots_object (t : Secure.SecureTrie) (o : StateObject) (keys : List Hash) :
    ∃ origin dirty, (o.updateSlots keccak t keys).2 = { o with originStorage := origin, dirtyStorage := dirty } := by
  have one (t : Secure.SecureTrie) (o : StateObject) (key : Hash) :
      ∃ origin dirty, (o.updateSlot keccak t key).2 = { o with originStorage := origin, dirtyStorage := dirty } := by
    unfold updateSlot
    split
    · exact ⟨o.originStorage,o.dirtyStorage,rfl⟩
    · split <;> exact ⟨_,_,rfl⟩
  induction keys generalizing t o with
  | nil => exact ⟨o.originStorage,o.dirtyStorage,rfl⟩
  | cons key keys ih =>
    obtain ⟨origin,dirty,first⟩ := one t o key
    obtain ⟨origin',dirty',rest⟩ := ih (o.updateSlot keccak t key).1 (o.updateSlot keccak t key).2
    refine ⟨origin',dirty',?_⟩
    rw [updateSlots,rest,first]
variable (db : Database)
variable (keccak) in
theorem updateTrie_object (o : StateObject) (keys : List Hash) : ∃ failed origin dirty,
    (o.updateTrie keccak db keys).2 = { o with
      trie := some (o.updateTrie keccak db keys).1
      dbErr := failed
      originStorage := origin
      dirtyStorage := dirty } := by
  obtain ⟨failed,opened⟩ := getTrie_object db o
  obtain ⟨origin,dirty,slots⟩ := updateSlots_object keccak (trieOf db o) (o.getTrie db).2 keys
  refine ⟨failed,origin,dirty,?_⟩
  unfold updateTrie
  simp only [getTrie_value]
  rw [slots,opened]
theorem updateRoot_same (o : StateObject) (keys : List Hash) : SameAccount o (o.updateRoot keccak db keys) := by
  obtain ⟨failed,origin,dirty,updated⟩ := updateTrie_object keccak db o keys
  unfold updateRoot
  simp only [updated]
  exact ⟨rfl,rfl,rfl,rfl⟩
theorem commitTrie_same {db db' : Database} {keys : List Hash} (done : o.commitTrie keccak db keys = some (db',o')) :
    SameAccount o o' := by
  obtain ⟨failed,origin,dirty,updated⟩ := updateTrie_object keccak db o keys
  unfold commitTrie at done
  simp only [updated] at done
  split at done
  · cases done
  · cases done
    exact ⟨rfl,rfl,rfl,rfl⟩
theorem commitCode_same (o : StateObject) : SameAccount o (o.commitCode db).2 := by
  unfold commitCode
  split <;> exact ⟨rfl,rfl,rfl,rfl⟩
theorem SameAccount.trans {o'' : StateObject} (first : SameAccount o o') (second : SameAccount o' o'') : SameAccount o o'' :=
  ⟨second.address.trans first.address,second.deleted.trans first.deleted,second.suicided.trans first.suicided,
    by rw [second.data,first.data]⟩

theorem encodeAccount_ne_nil {a : Account} {data : Bytes} (encoded : encodeAccount a = some data) : data ≠ [] := by
  unfold encodeAccount at encoded
  split at encoded
  · cases encoded
  · cases encoded
    exact encodeList_ne_nil _
variable (keccak) in
/-- Objects are under their address, and one that was deleted is gone from the trie. -/
structure Filed (s : StateDB) : Prop where
  keyed : ∀ a o, s.stateObjects a = some o → o.address = a
  gone : ∀ a o, s.stateObjects a = some o → o.deleted = true →
    s.load keccak a = none ∧ (o.suicided = true ∨ o.empty keccak = true)
  distinct : Distinct keccak s

variable (filed : Filed keccak s)
include filed
/-- An object replaces the one at its address, and the trie changes at its address only. -/
theorem Filed.write (there : s.stateObjects addr = some o) (address : o'.address = addr)
    (objects : s'.stateObjects = update s.stateObjects addr (some o'))
    (trie : ∀ a : Address, keccak a.bytes ≠ keccak addr.bytes →
      tryGet keccak s'.trie a.bytes = tryGet keccak s.trie a.bytes)
    (gone : o'.deleted = true → s'.load keccak addr = none ∧ (o'.suicided = true ∨ o'.empty keccak = true)) :
    Filed keccak s' := by
  have present (a : Address) : s'.stateObjects a ≠ none ↔ s.stateObjects a ≠ none := by
    rw [objects]
    by_cases same : a = addr
    · simp [same,there]
    · simp [same]
  refine ⟨?_,?_,fun a b inA inB => filed.distinct a b ((present a).mp inA) ((present b).mp inB)⟩
  · intro a x here
    rw [objects] at here
    by_cases same : a = addr
    · subst same
      simp only [update_self,some.injEq] at here
      rw [← here,address]
    · rw [update_of_ne same] at here
      exact filed.keyed a x here
  · intro a x here deleted
    rw [objects] at here
    by_cases same : a = addr
    · subst same
      simp only [update_self,some.injEq] at here
      subst here
      exact gone deleted
    · rw [update_of_ne same] at here
      have apart : keccak a.bytes ≠ keccak addr.bytes := fun hashes =>
        same (filed.distinct a addr (by simp [here]) (by simp [there]) hashes)
      have load : s'.load keccak a = s.load keccak a := by simp [StateDB.load,trie a apart]
      rw [load]
      exact filed.gone a x here deleted
theorem Filed.writes (there : s.stateObjects addr = some o) (live : o.deleted = false)
    (same : SameAccount o o') (writes : Writes keccak s s' o') : Filed keccak s' := by
  obtain ⟨data,encoded,trie,objects⟩ := writes
  have address : o'.address = addr := same.address.trans (filed.keyed addr o there)
  rw [address] at trie objects
  refine filed.write there address objects (fun a apart => ?_) fun deleted => ?_
  · rw [trie,tryGet_tryUpdate _ _ _ (encodeAccount_ne_nil encoded),if_neg apart]
  · rw [same.deleted,live] at deleted
    cases deleted
theorem Filed.deletes (there : s.stateObjects addr = some o)
    (why : o.suicided = true ∨ o.empty keccak = true) (deletes : Deletes keccak s s' o) : Filed keccak s' := by
  obtain ⟨trie,objects⟩ := deletes
  obtain rfl := filed.keyed addr o there
  refine filed.write there (show { o with deleted := true }.address = o.address from rfl) objects (fun a apart => ?_)
    fun _ => ⟨?_,why⟩
  · rw [trie,tryGet_tryDelete,if_neg apart]
  · simp [StateDB.load,trie,tryGet_tryDelete]

/-! ### Whole loops -/

theorem finaliseObject_other (done : finaliseObject keccak del order s addr = .ok s') {a : Address}
    (ne : a ≠ addr) : s'.stateObjects a = s.stateObjects a := by
  rcases finaliseObject_cases done with ⟨-,rfl⟩ | ⟨o,there,-,-,⟨-,-,objects⟩ | ⟨-,data,-,-,objects⟩⟩
  · rfl
  · rw [objects,filed.keyed addr o there,update_of_ne ne]
  · rw [objects,(updateRoot_same s.db o _).address,filed.keyed addr o there,update_of_ne ne]
theorem finaliseObject_filed (live : ∀ o, s.stateObjects addr = some o → o.deleted = false)
    (done : finaliseObject keccak del order s addr = .ok s') : Filed keccak s' := by
  rcases finaliseObject_cases done with ⟨-,rfl⟩ | ⟨o,there,-,-,⟨why,deletes⟩ | ⟨-,writes⟩⟩
  · exact filed
  · refine filed.deletes there ?_ deletes
    simp only [or_eq_true,and_eq_true] at why
    exact why.imp_right And.right
  · exact filed.writes there (live o there) (updateRoot_same _ o _) writes
omit filed in
theorem finalise_loop (done : s.finalise keccak del order = .ok s') :
    ∃ s₁, order.dirties.foldlM (finaliseObject keccak del order) s = .ok s₁ ∧ s₁.clearJournalAndRefund = s' := by
  unfold finalise at done
  obtain ⟨s₁,looped,cleared⟩ := bind_ok done
  exact ⟨s₁,looped,ok.inj cleared⟩
variable {root : Hash}
omit filed in
theorem intermediateRoot_finalise (done : s.intermediateRoot keccak del order = .ok (root,s')) :
    s.finalise keccak del order = .ok s' := by
  unfold intermediateRoot at done
  obtain ⟨s₁,finalised,same⟩ := bind_ok done
  obtain ⟨-,rfl⟩ := Prod.mk.inj (ok.inj same)
  exact finalised
theorem finalise_filed (live : ∀ a o, s.stateObjects a = some o → s.journal.dirties a ≠ 0 →
    o.deleted = false) (ranges : Ranges s order) (done : s.finalise keccak del order = .ok s') : Filed keccak s' := by
  obtain ⟨s₁,looped,rfl⟩ := finalise_loop done
  have loop := foldlM_keeps (fun todo s =>
    todo.Nodup ∧ Filed keccak s ∧ ∀ a ∈ todo, ∀ o, s.stateObjects a = some o → o.deleted = false) ?_ order.dirties
    ⟨ranges.dirties.1,filed,fun a member o there => live a o there ((ranges.dirties.2 a).mp member)⟩ looped
  · exact { loop.2.1 with }
  · rintro a rest s s' ⟨distinct,filed,live⟩ round
    obtain ⟨notIn,distinct⟩ := List.nodup_cons.mp distinct
    refine ⟨distinct,finaliseObject_filed filed (live a (by simp)) round,?_⟩
    intro b member o there
    have ne : b ≠ a := fun same => notIn (same ▸ member)
    rw [finaliseObject_other filed round ne] at there
    exact live b (by simp [member]) o there
theorem commitObject_other (done : commitObject keccak del order s addr = .ok s') {a : Address}
    (ne : a ≠ addr) : s'.stateObjects a = s.stateObjects a ∧ s'.stateObjectsDirty a = s.stateObjectsDirty a := by
  rcases commitObject_cases done with ⟨-,rfl⟩ | ⟨o,s₁,there,rfl,⟨-,rfl⟩ | ⟨-,⟨-,wrote⟩ | ⟨-,rfl⟩⟩⟩
  · exact ⟨rfl,rfl⟩
  · refine ⟨?_,update_of_ne ne _ _⟩
    show update s.stateObjects o.address _ a = _
    rw [filed.keyed addr o there,update_of_ne ne]
  · obtain ⟨o',committed,⟨data,-,-,objects⟩,flags⟩ := commitDirty_cases wrote
    have address := ((commitCode_same s.db o).trans (commitTrie_same committed)).address
    constructor
    · show s₁.stateObjects a = _
      rw [objects,address,filed.keyed addr o there,update_of_ne ne]
    · show update s₁.stateObjectsDirty addr false a = _
      rw [flags,update_of_ne ne]
  · exact ⟨rfl,update_of_ne ne _ _⟩
theorem commitObject_filed (done : commitObject keccak del order s addr = .ok s')
    (kept : ∀ o, s.stateObjects addr = some o → o.deleted = true → o.suicided = true ∨ s.stateObjectsDirty addr = false ∨
      del = true) : Filed keccak s' := by
  rcases commitObject_cases done with ⟨-,rfl⟩ | ⟨o,s₁,there,rfl,⟨why,rfl⟩ | ⟨stays,⟨dirty,wrote⟩ | ⟨-,rfl⟩⟩⟩
  · exact filed
  · have filed' : Filed keccak (s.deleteStateObject keccak o) := filed.deletes there ?_ (deleteStateObject_deletes s o)
    · exact { filed' with }
    · simp only [or_eq_true,and_eq_true] at why
      exact why.imp_right And.right
  · obtain ⟨o',committed,writes,-⟩ := commitDirty_cases wrote
    -- A deleted object would have been deleted again.
    have live : o.deleted = false := by
      by_contra deleted
      have deleted : o.deleted = true := by simpa using deleted
      simp only [or_eq_false_iff,dirty,Bool.true_and] at stays
      rcases kept o there deleted with suicided | clean | del
      · rw [suicided] at stays
        exact absurd stays.1 (by decide)
      · rw [dirty] at clean
        cases clean
      · rcases (filed.gone addr o there deleted).2 with suicided | empty
        · rw [suicided] at stays
          exact absurd stays.1 (by decide)
        · rw [del,empty] at stays
          exact absurd stays.2 (by decide)
    have filed' := filed.writes there live ((commitCode_same s.db o).trans (commitTrie_same committed)) writes
    exact { filed' with }
  · exact { filed with }
omit filed
/-- The address was marked by `Finalise` or is counted in the journal. -/
def touched (s : StateDB) (a : Address) : Bool := s.stateObjectsDirty a || s.journal.dirties a ≠ 0
def marked (s : StateDB) : StateDB := { s with stateObjectsDirty := touched s }
theorem markDirty_mem (s : StateDB) (dirties : List Address) :
    s.markDirty dirties = { s with stateObjectsDirty := fun a => s.stateObjectsDirty a || a ∈ dirties } := by
  induction dirties generalizing s with
  | nil => simp [markDirty]
  | cons addr rest ih =>
    rw [markDirty,List.foldl_cons,← markDirty,ih]
    congr 1
    funext a
    by_cases same : a = addr
    · simp [setDirty,same]
    · simp [setDirty,same]
theorem markDirty_marked (ranges : Ranges s order) : s.markDirty order.dirties = marked s := by
  rw [markDirty_mem]
  simp only [ranges.dirties.2]
  rfl
theorem commit_loop (ranges : Ranges s order) (done : s.commit keccak del order = .ok (root,s')) :
    ∃ s₁, order.objects.foldlM (commitObject keccak del order) (marked s) = .ok s₁ ∧ root = hash keccak s₁.trie ∧
      clearJournalAndRefund { s₁ with db := s₁.db.commitTrie keccak s₁.trie } = s' := by
  unfold commit at done
  rw [markDirty_marked ranges] at done
  obtain ⟨s₁,looped,same⟩ := bind_ok done
  obtain ⟨rfl,rfl⟩ := Prod.mk.inj (ok.inj same)
  exact ⟨s₁,looped,rfl,rfl⟩
theorem commit_filed (filed : Filed keccak s) (ranges : Ranges s order)
    (kept : ∀ a o, s.stateObjects a = some o → o.deleted = true → o.suicided = true ∨ touched s a = false ∨ del = true)
    (done : s.commit keccak del order = .ok (root,s')) : Filed keccak s' := by
  obtain ⟨s₁,looped,-,rfl⟩ := commit_loop ranges done
  have loop := foldlM_keeps (fun todo s =>
    todo.Nodup ∧ Filed keccak s ∧ ∀ a ∈ todo, ∀ o, s.stateObjects a = some o → o.deleted = true →
      o.suicided = true ∨ s.stateObjectsDirty a = false ∨ del = true) (s := marked s) ?_ order.objects
    ⟨ranges.objects.1,{ filed with },fun a _ o there => kept a o there⟩ looped
  · exact { loop.2.1 with }
  · rintro a rest s s' ⟨distinct,filed,kept⟩ round
    obtain ⟨notIn,distinct⟩ := List.nodup_cons.mp distinct
    refine ⟨distinct,commitObject_filed filed round (kept a (by simp)),?_⟩
    intro b member o there
    have ne : b ≠ a := fun same => notIn (same ▸ member)
    obtain ⟨objects,flags⟩ := commitObject_other filed round ne
    rw [objects] at there
    rw [flags]
    exact kept b (by simp [member]) o there

/-! ### Steps -/

variable (keccak) in
/-- What the operation can rely on: the maps come up in some order, and the hash
    keeps the addresses apart. -/
def Possible (s : StateDB) : Op → Prop
  | .finalise _ order => Ranges s order ∧ Distinct keccak s
  | .intermediateRoot _ order => Ranges s order ∧ Distinct keccak s
  | .commit _ order => Ranges s order ∧ Distinct keccak s
  | .copy order => Ranges s order
  | _ => True
/-- A commit that keeps empty objects meets no object that was deleted as empty and is still marked. -/
def Unrevived (s : StateDB) : Op → Prop
  | .commit false _ => ∀ a o, s.stateObjects a = some o → o.deleted = true → o.suicided = true ∨ s.stateObjectsDirty a = false
  | _ => True

/-- An empty journal can be reverted. -/
theorem sound_of_filed (filed : Filed keccak s) (clean : s.journal = newJournal) (revisions : s.validRevisions = []) :
    Sound keccak s := by
  refine ⟨⟨filed.keyed,filed.gone,?_⟩,?_,?_,?_⟩
  · intro a o _ _
    rw [clean]
    rfl
  · rw [clean]
    trivial
  · rw [revisions]
    exact ordered_nil _
  · simp [revisions]
theorem sound_filed (sound : Sound keccak s) (distinct : Distinct keccak s) : Filed keccak s :=
  ⟨sound.objects.keyed,sound.objects.gone,distinct⟩
theorem finalise_sound (sound : Sound keccak s) (ranges : Ranges s order) (distinct : Distinct keccak s)
    (done : s.finalise keccak del order = .ok s') : Sound keccak s' := by
  refine sound_of_filed (finalise_filed (sound_filed sound distinct) ?_ ranges done) ?_ ?_
  · intro a o there dirty
    by_contra deleted
    exact dirty (sound.objects.clean a o there (by simpa using deleted))
  · obtain ⟨s₁,-,rfl⟩ := finalise_loop done
    rfl
  · obtain ⟨s₁,-,rfl⟩ := finalise_loop done
    rfl
theorem commit_sound (sound : Sound keccak s) (ranges : Ranges s order) (distinct : Distinct keccak s)
    (kept : Unrevived s (.commit del order)) (done : s.commit keccak del order = .ok (root,s')) : Sound keccak s' := by
  refine sound_of_filed (commit_filed (sound_filed sound distinct) ranges ?_ done) ?_ ?_
  · intro a o there deleted
    cases del with
    | true => exact .inr (.inr rfl)
    | false =>
      refine (kept a o there deleted).imp_right fun clean => .inl ?_
      simp [touched,clean,sound.objects.clean a o there deleted]
  · obtain ⟨s₁,-,-,rfl⟩ := commit_loop ranges done
    rfl
  · obtain ⟨s₁,-,-,rfl⟩ := commit_loop ranges done
    rfl
theorem copy_sound (sound : Sound keccak s) (done : s.copy order = .ok s') : Sound keccak s' := by
  unfold copy at done
  split at done
  · cases done
  · cases done
    have original {a : Address} {o : StateObject} {kept : Bool}
        (there : (if kept then (s.stateObjects a).map deepCopy else none) = some o) :
        ∃ x, s.stateObjects a = some x ∧ o = x.deepCopy := by
      cases kept with
      | false => cases there
      | true =>
        obtain ⟨x,here,same⟩ := map_eq_some_iff.mp there
        exact ⟨x,here,same.symm⟩
    refine ⟨⟨?_,?_,?_⟩,trivial,ordered_nil _,by simp [opened]⟩
    · intro a o there
      obtain ⟨x,here,rfl⟩ := original there
      exact sound.objects.keyed a x here
    · intro a o there deleted
      obtain ⟨x,here,rfl⟩ := original there
      exact sound.objects.gone a x here deleted
    · intro a o _ _
      rfl
/-- The transaction that logs belong to has no part in reverting. -/
theorem prepare_undo (thash bhash : Hash) (ti : UInt64) (e : Entry) (w : World) :
    undo keccak e { w with thash := thash, bhash := bhash, txIndex := ti } =
      { undo keccak e w with thash := thash, bhash := bhash, txIndex := ti } := by cases e <;> rfl
theorem prepare_undoAll (thash bhash : Hash) (ti : UInt64) (es : List Entry) (w : World) :
    undoAll (undo keccak) es { w with thash := thash, bhash := bhash, txIndex := ti } =
      { undoAll (undo keccak) es w with thash := thash, bhash := bhash, txIndex := ti } := by
  induction es with
  | nil => rfl
  | cons e es ih =>
    show undo keccak e (undoAll (undo keccak) es _) = _
    rw [ih,prepare_undo]
    rfl
theorem prepare_undoable {es : List Entry} {w : World} (thash bhash : Hash) (ti : UInt64)
    (undoable : Undoable (undo keccak) (CanRevert keccak s) es w) :
    Undoable (undo keccak) (CanRevert keccak s) es { w with thash := thash, bhash := bhash, txIndex := ti } := by
  induction es generalizing w with
  | nil => trivial
  | cons e es ih =>
    refine ⟨undoable.1,?_⟩
    rw [prepare_undo]
    exact ih undoable.2
theorem view_prepare (s : StateDB) (thash bhash : Hash) (ti : UInt64) : view keccak (s.prepare thash bhash ti) =
    { view keccak s with thash := thash, bhash := bhash, txIndex := ti } :=
  view_with rfl rfl rfl
theorem prepare_sound (sound : Sound keccak s) (thash bhash : Hash) (ti : UInt64) :
    Sound keccak (s.prepare thash bhash ti) := by
  refine ⟨{ sound.objects with },?_,sound.ordered,sound.fresh⟩
  rw [view_prepare]
  exact prepare_undoable thash bhash ti sound.undoable
theorem opened_sound (trie : Secure.SecureTrie) (nextId : Nat) :
    Sound keccak { opened db trie with nextRevisionId := nextId } := by
  refine sound_of_filed ⟨?_,?_,?_⟩ rfl rfl
  · intro a o there
    cases there
  · intro a o there
    cases there
  · intro a b there
    exact absurd rfl there
theorem reset_sound (done : s.reset root = .ok s') : Sound keccak s' := by
  unfold reset at done
  split at done
  · cases done
  · cases done
    exact opened_sound _ _ _

/-- Every step that revives no object keeps the state sound. -/
theorem step_sound {op : Op} {answer : Option Hash} (sound : Sound keccak s) (possible : Possible keccak s op)
    (kept : Unrevived s op) (done : step keccak s op = .ok (s',answer)) : Sound keccak s' := by
  cases op with
  | cmd c =>
    obtain ⟨⟨reply,s₁⟩,ran,⟨⟩⟩ := map_ok.mp done
    exact ((exec_follows sound c).2 reply s₁ ran).1
  | prepare thash bhash ti =>
    cases done
    exact prepare_sound sound thash bhash ti
  | finalise del order =>
    obtain ⟨s₁,ran,⟨⟩⟩ := map_ok.mp done
    exact finalise_sound sound possible.1 possible.2 ran
  | intermediateRoot del order =>
    obtain ⟨⟨root,s₁⟩,ran,⟨⟩⟩ := map_ok.mp done
    exact finalise_sound sound possible.1 possible.2 (intermediateRoot_finalise ran)
  | commit del order =>
    obtain ⟨⟨root,s₁⟩,ran,⟨⟩⟩ := map_ok.mp done
    exact commit_sound sound possible.1 possible.2 kept ran
  | copy order =>
    obtain ⟨s₁,ran,⟨⟩⟩ := map_ok.mp done
    exact copy_sound sound ran
  | reset root =>
    obtain ⟨s₁,ran,⟨⟩⟩ := map_ok.mp done
    exact reset_sound ran

end
end Canchain.StateRuns
