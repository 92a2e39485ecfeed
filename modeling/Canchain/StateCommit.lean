import Canchain.StateStored

/-!
The loops of `Finalise` and `Commit` enter the fates of the accounts into the trie one after
the other. The hash keeps the addresses apart, so the trie does not depend on the order.
-/
namespace Canchain.StateCommit
open Rlp Common State State.StateDB List Option Function
open StateRuns StateStorage Runs
open Secure (SecureTrie)

/-- What becomes of the account of an address. -/
inductive Fate where
  | stays
  | dropped
  | written (data : Account)
variable {key : Bytes} {data : Account} {slots : Address → List Hash} {x : Address}

section
variable {keccak : Bytes → Hash} {s s' s₁ : StateDB} {o o' : StateObject} {db db' : Database} {del dirty : Bool} {order : Order}
variable {a b : Address} {t : SecureTrie} {f : Fate} {z z' : StateDB} {order' : Order}

variable (keccak) in
/-- The fate of an object: it is dropped, written if it is dirty, or left. -/
def fate (del dirty : Bool) (db : Database) (keys : List Hash) (o : StateObject) : Fate :=
  if o.suicided || (dirty && del && o.empty keccak) then .dropped
  else if dirty then .written { o.data with root := Secure.hash keccak (o.updateTrie keccak db keys).1 } else .stays
variable (keccak) in
def fateOf (s : StateDB) (dirty : Address → Bool) (del : Bool) (order : Order) (a : Address) : Fate :=
  match s.stateObjects a with
  | none => .stays
  | some o => fate keccak del (dirty a) s.db (order.slots a) o

variable {marks : Address → Bool} {keys : List Hash} {F : Address → Fate} {xs : List Address} {mark : Bool}
theorem fateOf_none (absent : s.stateObjects a = none) :
    fateOf keccak s marks del order a = .stays := by simp [fateOf,absent]
theorem fateOf_some (there : s.stateObjects a = some o) :
    fateOf keccak s marks del order a = fate keccak del (marks a) s.db (order.slots a) o := by simp [fateOf,there]
theorem fate_dropped (gone : (o.suicided || (dirty && del && o.empty keccak)) = true) :
    fate keccak del dirty db keys o = .dropped := if_pos gone
theorem fate_written (kept : (o.suicided || (dirty && del && o.empty keccak)) = false) (isDirty : dirty = true) :
    fate keccak del dirty db keys o =
      .written { o.data with root := Secure.hash keccak (o.updateTrie keccak db keys).1 } := by
  rw [fate,kept,if_neg (by simp),if_pos isDirty]
theorem fate_stays (kept : (o.suicided || (dirty && del && o.empty keccak)) = false) (clean : dirty = false) :
    fate keccak del dirty db keys o = .stays := by
  rw [fate,kept,if_neg (by simp),if_neg (by simp [clean])]

variable (keccak) in
/-- The trie with the fate of an address. -/
def Fate.enter (t : SecureTrie) (a : Address) : Fate → SecureTrie
  | .stays => t
  | .dropped => Secure.tryDelete keccak t a.bytes
  | .written data => Secure.tryUpdate keccak t a.bytes ((encodeAccount data).getD [])
/-- What is in the trie then, where `old` was. -/
def Fate.entry (old : Option Bytes) : Fate → Option Bytes
  | .stays => old
  | .dropped => none
  | .written data => encodeAccount data

theorem Fate.tryGet_enter (t : SecureTrie) (a : Address) (f : Fate) (key : Bytes) : Secure.tryGet keccak (f.enter keccak t a) key =
    if keccak key = keccak a.bytes then f.entry (Secure.tryGet keccak t key) else Secure.tryGet keccak t key := by
  cases f with
  | stays => simp [Fate.enter,Fate.entry]
  | dropped => exact Secure.tryGet_tryDelete t a.bytes key
  | written data =>
    cases encoded : encodeAccount data with
    | none => simpa [Fate.enter,Fate.entry,encoded,Secure.tryUpdate_nil] using Secure.tryGet_tryDelete t a.bytes key
    | some enc =>
      simpa [Fate.enter,Fate.entry,encoded] using Secure.tryGet_tryUpdate t a.bytes key (encodeAccount_ne_nil encoded)
theorem Fate.enter_comm (t : SecureTrie) {b : Address} (apart : keccak a.bytes = keccak b.bytes → a = b) (F : Address → Fate) :
    (F b).enter keccak ((F a).enter keccak t a) b = (F a).enter keccak ((F b).enter keccak t b) a := by
  by_cases same : a = b
  · rw [same]
  · have updates := fun v w => Secure.tryUpdate_comm t (fun hashes => same (apart hashes)) v w
    cases F a <;> cases F b <;> simp only [Fate.enter,← Secure.tryUpdate_nil] <;> exact updates _ _

variable (keccak) in
/-- The trie with the fates of the addresses. -/
def enterAll (F : Address → Fate) (t : SecureTrie) (xs : List Address) : SecureTrie :=
  xs.foldl (fun t a => (F a).enter keccak t a) t

theorem tryGet_enterAll_other
    (other : ∀ a ∈ xs, keccak key = keccak a.bytes → F a = .stays) (t : SecureTrie) :
    Secure.tryGet keccak (enterAll keccak F t xs) key = Secure.tryGet keccak t key := by
  induction xs generalizing t with
  | nil => rfl
  | cons x xs ih =>
    rw [enterAll,foldl_cons,← enterAll,ih (fun a member => other a (by simp [member])),Fate.tryGet_enter]
    split
    · rw [other x (by simp) ‹_›]
      rfl
    · rfl
theorem tryGet_enterAll (distinct : xs.Nodup) (member : a ∈ xs)
    (apart : ∀ b ∈ xs, keccak a.bytes = keccak b.bytes → b ≠ a → F b = .stays) (here : keccak key = keccak a.bytes) (t : SecureTrie) :
    Secure.tryGet keccak (enterAll keccak F t xs) key = (F a).entry (Secure.tryGet keccak t key) := by
  induction xs generalizing t with
  | nil => simp at member
  | cons x xs ih =>
    obtain ⟨notIn,distinct⟩ := nodup_cons.mp distinct
    rw [enterAll,foldl_cons,← enterAll]
    rcases mem_cons.mp member with rfl | later
    · rw [tryGet_enterAll_other,Fate.tryGet_enter,if_pos here]
      intro b inB hashes
      exact apart b (by simp [inB]) (here.symm.trans hashes) fun same => notIn (same ▸ inB)
    · rw [ih distinct later fun b inB => apart b (by simp [inB]),Fate.tryGet_enter]
      split
      · rw [apart x (by simp) (here.symm.trans ‹_›) fun same => notIn (same ▸ later)]
        rfl
      · rfl
theorem enterAll_perm {ys : List Address} (perm : xs.Perm ys)
    (apart : ∀ a ∈ xs, ∀ b ∈ xs, keccak a.bytes = keccak b.bytes → a = b) (t : SecureTrie) :
    enterAll keccak F t xs = enterAll keccak F t ys :=
  perm.foldl_eq' (fun a inA b inB t => Fate.enter_comm t (apart a inA b inB) F) t

variable (keccak) in
/-- The object that its fate leaves in the map. -/
inductive Left (db : Database) (keys : List Hash) (o : StateObject) : Fate → StateObject → Prop
  | stays : Left db keys o .stays o
  | dropped : Left db keys o .dropped { o with deleted := true }
  | written {o' : StateObject} (same : SameAccount o o') (flushed : Flushed keccak db o (o.updateTrie keccak db keys).1 o')
      (root : o'.data.root = Secure.hash keccak (o.updateTrie keccak db keys).1) (encoded : encodeAccount o'.data ≠ none) :
      Left db keys o (.written o'.data) o'

variable (keccak) in
/-- A round of a loop: the fate of an address is entered, and its object is left and marked. -/
structure Round (s s' : StateDB) (keys : List Hash) (a : Address) (f : Fate) (mark : Bool) : Prop where
  trie : s'.trie = f.enter keccak s.trie a
  others : ∀ b, b ≠ a → s'.stateObjects b = s.stateObjects b ∧ s'.stateObjectsDirty b = s.stateObjectsDirty b
  absent : s.stateObjects a = none → s' = s
  left : ∀ o, s.stateObjects a = some o → s'.stateObjectsDirty a = mark ∧
    ∃ o', s'.stateObjects a = some o' ∧ Left keccak s.db keys o f o'

variable (keccak) in
private theorem updateTrie_data (db : Database) (o : StateObject) (keys : List Hash) :
    SameAccount o (o.updateTrie keccak db keys).2 ∧ (o.updateTrie keccak db keys).2.data = o.data := by
  obtain ⟨failed,origin,dirty,updated⟩ := updateTrie_object keccak db o keys
  rw [updated]
  exact ⟨⟨rfl,rfl,rfl,rfl⟩,rfl⟩
/-- The conditions under which the loops write an object as it shows. -/
structure Ranged (keccak : Bytes → Hash) (s : StateDB) (order : Order) (a : Address) : Prop where
  keyed : ∀ o, s.stateObjects a = some o → o.address = a
  consistent : ∀ o, s.stateObjects a = some o → Consistent keccak s.db o
  apart : ∀ o, s.stateObjects a = some o → ∀ k, o.originStorage k ≠ none → Alone keccak o k
  slots : ∀ o, s.stateObjects a = some o → Enumerates (order.slots a) fun k => o.dirtyStorage k ≠ none

private theorem round_of (there : s.stateObjects a = some o) (trie : s'.trie = f.enter keccak s.trie a)
    (objects : s'.stateObjects = update s.stateObjects a (some o'))
    (flags : s'.stateObjectsDirty = update s.stateObjectsDirty a mark) (left : Left keccak s.db keys o f o') :
    Round keccak s s' keys a f mark := by
  refine ⟨trie,?_,?_,?_⟩
  · intro b ne
    rw [objects,flags]
    exact ⟨update_of_ne ne _ _,update_of_ne ne _ _⟩
  · intro absent
    rw [there] at absent
    cases absent
  · intro x same
    rw [there] at same
    cases same
    exact ⟨by rw [flags,update_self],o',by rw [objects,update_self],left⟩
private theorem round_absent (absent : s.stateObjects a = none) (mark : Bool) (keys : List Hash) :
    Round keccak s s keys a .stays mark := by
  refine ⟨rfl,fun _ _ => ⟨rfl,rfl⟩,fun _ => rfl,?_⟩
  intro o there
  rw [absent] at there
  cases there
/-- An object that was flushed to its trie is written with its new root. -/
theorem round_written {enc : Bytes} (ranged : Ranged keccak s order a) (there : s.stateObjects a = some o)
    (rooted : o' = { (o.updateTrie keccak s.db (order.slots a)).2 with
      data.root := Secure.hash keccak (o.updateTrie keccak s.db (order.slots a)).1, dirtyCode := o'.dirtyCode })
    (encoded : encodeAccount o'.data = some enc) (trie : s'.trie = Secure.tryUpdate keccak s.trie o'.address.bytes enc)
    (objects : s'.stateObjects = update s.stateObjects o'.address (some o'))
    (flags : s'.stateObjectsDirty = update s.stateObjectsDirty a mark) :
    Round keccak s s' (order.slots a) a
      (.written { o.data with root := Secure.hash keccak (o.updateTrie keccak s.db (order.slots a)).1 }) mark := by
  obtain ⟨same,data⟩ := updateTrie_data keccak s.db o (order.slots a)
  have flushed := updateTrie_flushed (ranged.consistent o there) (ranged.apart o there) (ranged.slots o there)
  have same' : SameAccount o o' := by
    rw [rooted]
    exact { same with data := by rw [← data] }
  have flushed' : Flushed keccak s.db o (o.updateTrie keccak s.db (order.slots a)).1 o' := by
    rw [rooted]
    exact { flushed with synced := { flushed.synced with } }
  have data' : o'.data = { o.data with root := Secure.hash keccak (o.updateTrie keccak s.db (order.slots a)).1 } := by
    rw [rooted,← data]
  rw [same'.address,ranged.keyed o there] at trie objects
  rw [← data']
  refine round_of there ?_ objects flags (.written same' flushed' (congrArg Account.root data') (by simp [encoded]))
  simpa [Fate.enter,encoded] using trie
private theorem finaliseObject_round (ranged : Ranged keccak s order a) (done : finaliseObject keccak del order s a = .ok s') :
    Round keccak s s' (order.slots a) a (fateOf keccak s (fun _ => true) del order a) true ∧ s'.db = s.db := by
  rcases finaliseObject_cases done with ⟨absent,rfl⟩ | ⟨o,there,db,flags,⟨gone,trie,objects⟩ | ⟨kept,enc,encoded,trie,objects⟩⟩
  · rw [fateOf_none absent]
    exact ⟨round_absent absent true _,rfl⟩
  · obtain rfl := ranged.keyed o there
    rw [fateOf_some there,fate_dropped (by simpa using gone)]
    exact ⟨round_of there trie objects flags .dropped,db⟩
  · rw [fateOf_some there,fate_written (by simpa using kept) rfl]
    exact ⟨round_written ranged there rfl encoded trie objects flags,db⟩

/-! A round of `Commit` puts the storage trie into the database. -/

variable (keccak) in
/-- The trie is in the second database, which has the tries of the first and no others. -/
structure Adds (db db' : Database) (t : SecureTrie) : Prop where
  grows : Grows db db'
  only : ∀ root u, db'.tries root = some u → db.tries root = some u ∨ u = t ∧ root = Secure.hash keccak t
  there : t.val.isNil = true ∨ (db'.tries (Secure.hash keccak t)).isSome

variable (keccak) in
theorem commitTrie_adds (db : Database) (t : SecureTrie) : Adds keccak db (db.commitTrie keccak t) t := by
  unfold Database.commitTrie
  by_cases skip : t.val.isNil ∨ (db.tries (Secure.hash keccak t)).isSome
  · rw [if_pos skip]
    exact ⟨.refl db,fun _ _ => .inl,skip⟩
  · rw [if_neg skip]
    have new : db.tries (Secure.hash keccak t) = none := by
      rw [not_or] at skip
      simpa using skip.2
    refine ⟨?_,?_,.inr (by simp)⟩
    · intro root u found
      have ne : root ≠ Secure.hash keccak t := by
        rintro rfl
        rw [new] at found
        cases found
      simpa [ne] using found
    · intro root u found
      by_cases same : root = Secure.hash keccak t
      · subst same
        simp only [update_self,some.injEq] at found
        exact .inr ⟨found.symm,rfl⟩
      · simp only [ne_eq,same,not_false_eq_true,update_of_ne] at found
        exact .inl found
private theorem insertBlob_tries (db : Database) (hash : Hash) (blob : Bytes) : (db.insertBlob hash blob).tries = db.tries := by
  unfold Database.insertBlob
  split <;> rfl
private theorem commitCode_cases (db : Database) (o : StateObject) : (o.commitCode db).1.tries = db.tries ∧
    (o.commitCode db).2 = { o with dirtyCode := (o.commitCode db).2.dirtyCode } := by
  unfold StateObject.commitCode
  split
  · exact ⟨insertBlob_tries _ _ _,rfl⟩
  · exact ⟨rfl,rfl⟩
private theorem updateTrie_grows (consistent : Consistent keccak db o) (grows : Grows db db') (keys : List Hash) :
    o.updateTrie keccak db' keys = o.updateTrie keccak db keys := by
  unfold StateObject.updateTrie
  rw [consistent.getTrie_grows grows]
variable (keccak) in
/-- The object that `Commit` leaves. -/
def committed (db : Database) (o : StateObject) (keys : List Hash) : StateObject :=
  { (o.updateTrie keccak db keys).2 with
    data.root := Secure.hash keccak (o.updateTrie keccak db keys).1, dirtyCode := (o.commitCode db).2.dirtyCode }
variable (keccak) in
private theorem committed_data (db : Database) (o : StateObject) (keys : List Hash) : (committed keccak db o keys).data =
    { o.data with root := Secure.hash keccak (o.updateTrie keccak db keys).1 } := by
  rw [← (updateTrie_data keccak db o keys).2]
  rfl
private theorem commitTrie_eq (consistent : Consistent keccak db o) (keys : List Hash) :
    (o.commitCode db).2.commitTrie keccak (o.commitCode db).1 keys = if o.dbErr then none
      else some ((o.commitCode db).1.commitTrie keccak (o.updateTrie keccak db keys).1,committed keccak db o keys) := by
  obtain ⟨tries,object⟩ := commitCode_cases db o
  have grows : Grows db (o.commitCode db).1 := by
    intro root t found
    rw [tries]
    exact found
  have updated : (o.commitCode db).2.updateTrie keccak (o.commitCode db).1 keys = ((o.updateTrie keccak db keys).1,
      { (o.updateTrie keccak db keys).2 with dirtyCode := (o.commitCode db).2.dirtyCode }) := by
    rw [object,updateTrie_code,updateTrie_grows consistent grows]
  unfold StateObject.commitTrie
  rw [updated]
  simp [committed,updateTrie_dbErr consistent keys]
private theorem commitDirty_eq (consistent : Consistent keccak s.db o) (keys : List Hash) : s.commitDirty keccak o keys =
    if o.dbErr then .error (.dbErr o.address) else updateStateObject keccak
      { s with db := (o.commitCode s.db).1.commitTrie keccak (o.updateTrie keccak s.db keys).1 } (committed keccak s.db o keys) := by
  unfold commitDirty
  rw [commitTrie_eq consistent keys]
  cases o.dbErr <;> rfl

/-- An object is written if it has no error and its account can be encoded. -/
def Writable (o : StateObject) : Fate → Prop
  | .written data => o.dbErr = false ∧ encodeAccount data ≠ none
  | _ => True

theorem commitObject_round (ranged : Ranged keccak s order a) (there : s.stateObjects a = some o)
    (done : commitObject keccak del order s a = .ok s') :
    Round keccak s s' (order.slots a) a (fateOf keccak s s.stateObjectsDirty del order a) false ∧
      ((∀ data, fateOf keccak s s.stateObjectsDirty del order a ≠ .written data) ∧ s'.db = s.db ∨
        Adds keccak s.db s'.db (o.updateTrie keccak s.db (order.slots a)).1) ∧
      Writable o (fateOf keccak s s.stateObjectsDirty del order a) := by
  have address := ranged.keyed o there
  rw [fateOf_some there]
  rcases commitObject_cases done with ⟨absent,-⟩ | ⟨x,s₁,there',rfl,rounds⟩
  · rw [there] at absent
    cases absent
  · rw [there] at there'
    cases there'
    rcases rounds with ⟨gone,rfl⟩ | ⟨kept,⟨dirty,wrote⟩ | ⟨clean,rfl⟩⟩
    · rw [fate_dropped gone]
      refine ⟨round_of there ?_ ?_ rfl .dropped,.inl ⟨(by intro _ is; cases is),rfl⟩,trivial⟩
      · simp [StateDB.setDirty,StateDB.deleteStateObject,Fate.enter,address]
      · simp [StateDB.setDirty,StateDB.deleteStateObject,StateDB.setStateObject,address]
    · rw [fate_written kept dirty]
      rw [commitDirty_eq (ranged.consistent o there)] at wrote
      cases failed : o.dbErr with
      | true => simp [failed] at wrote
      | false =>
        rw [failed,if_neg (by simp)] at wrote
        obtain ⟨⟨enc,encoded,trie,objects⟩,db,flags⟩ := updateStateObject_writes wrote
        have tries := (commitCode_cases s.db o).1
        have data := committed_data keccak s.db o (order.slots a)
        obtain ⟨grows,only,added⟩ := commitTrie_adds keccak (o.commitCode s.db).1 (o.updateTrie keccak s.db (order.slots a)).1
        refine ⟨round_written ranged there rfl encoded trie objects ?_,.inr ?_,failed,by simp [← data,encoded]⟩
        · rw [← flags]
          rfl
        · show Adds keccak s.db s₁.db _
          rw [db]
          exact ⟨fun root t found => grows root t (tries ▸ found),fun root u found => tries ▸ only root u found,added⟩
    · rw [fate_stays kept clean]
      refine ⟨round_of there rfl ?_ rfl .stays,.inl ⟨(by intro _ is; cases is),rfl⟩,trivial⟩
      rw [← there,update_eq_self]
      rfl
private theorem commitObject_ok (ranged : Ranged keccak s order a)
    (writable : ∀ o, s.stateObjects a = some o → Writable o (fateOf keccak s s.stateObjectsDirty del order a)) :
    ∃ s', commitObject keccak del order s a = .ok s' := by
  unfold commitObject
  cases there : s.stateObjects a with
  | none => exact ⟨s,rfl⟩
  | some o =>
    have writable := writable o there
    rw [fateOf_some there] at writable
    cases gone : o.suicided || (s.stateObjectsDirty a && del && o.empty keccak) with
    | true => simp [gone,Except.map]
    | false =>
      simp only [gone,Bool.false_eq_true,if_false]
      cases dirty : s.stateObjectsDirty a with
      | false => exact ⟨_,rfl⟩
      | true =>
        rw [fate_written gone dirty,← committed_data] at writable
        obtain ⟨enc,encoded⟩ := ne_none_iff_exists'.mp writable.2
        rw [if_pos rfl,commitDirty_eq (ranged.consistent o there),writable.1,if_neg (by simp),updateStateObject,encoded]
        exact ⟨_,rfl⟩

/-! ### Loops -/

theorem Left.back (consistent : Consistent keccak db o) (grows : Grows db db')
    (left : Left keccak db' keys o f o') : Left keccak db keys o f o' := by
  cases left with
  | stays => exact .stays
  | dropped => exact .dropped
  | written same flushed root encoded =>
    rw [updateTrie_grows consistent grows] at flushed root
    refine .written same { flushed with shown := ?_ } root encoded
    intro k alone
    have shown := flushed.shown k alone
    rw [(consistent.grows grows).stateAt,consistent.trieOf_grows grows] at shown
    rw [shown,consistent.stateAt]
theorem Left.same (left : Left keccak db keys o (.written data) o') : SameAccount o o' := by
  cases left with
  | written same flushed root encoded => exact same
theorem Left.flushed (left : Left keccak db keys o (.written data) o') :
    Flushed keccak db o (o.updateTrie keccak db keys).1 o' := by
  cases left with
  | written same flushed root encoded => exact flushed
theorem Left.consistent (consistent : Consistent keccak db o) (grows : Grows db db')
    (left : Left keccak db keys o f o') : Consistent keccak db' o' := by
  cases left with
  | stays => exact consistent.grows grows
  | dropped => exact (consistent.grows grows).same rfl rfl rfl rfl
  | written same flushed root encoded => exact flushed.consistent db'
theorem Ranged.congr (ranged : Ranged keccak s order a) (same : s'.stateObjects a = s.stateObjects a) (grows : Grows s.db s'.db) :
    Ranged keccak s' order a := by
  refine ⟨?_,?_,?_,?_⟩
  · rw [same]
    exact ranged.keyed
  · intro o there
    rw [same] at there
    exact (ranged.consistent o there).grows grows
  · rw [same]
    exact ranged.apart
  · rw [same]
    exact ranged.slots
private theorem fateOf_congr {marks' : Address → Bool} (ranged : Ranged keccak s order a)
    (same : s'.stateObjects a = s.stateObjects a) (grows : Grows s.db s'.db) (marked : marks' a = marks a) :
    fateOf keccak s' marks' del order a = fateOf keccak s marks del order a := by
  cases there : s.stateObjects a with
  | none => rw [fateOf_none there,fateOf_none (same.trans there)]
  | some o =>
    rw [fateOf_some there,fateOf_some (same.trans there),marked]
    simp [fate,updateTrie_grows (ranged.consistent o there) grows]

variable (keccak) in
/-- A loop over addresses: their fates are in the trie and their objects are left. -/
structure Loop (s s' : StateDB) (slots : Address → List Hash) (xs : List Address) (F : Address → Fate) (mark : Bool) : Prop where
  trie : s'.trie = enterAll keccak F s.trie xs
  others : ∀ a, a ∉ xs ∨ s.stateObjects a = none →
    s'.stateObjects a = s.stateObjects a ∧ s'.stateObjectsDirty a = s.stateObjectsDirty a
  left : ∀ a ∈ xs, ∀ o, s.stateObjects a = some o → s'.stateObjectsDirty a = mark ∧
    ∃ o', s'.stateObjects a = some o' ∧ Left keccak s.db (slots a) o (F a) o'

private theorem loop_nil (s : StateDB) (slots : Address → List Hash) (F : Address → Fate) (mark : Bool) : Loop keccak s s slots [] F mark :=
  ⟨rfl,fun _ _ => ⟨rfl,rfl⟩,nofun⟩
private theorem loop_cons
    (round : Round keccak s s₁ (slots x) x (F x) mark) (rest : Loop keccak s₁ s' slots xs F mark) (notIn : x ∉ xs)
    (consistent : ∀ a ∈ xs, ∀ o, s.stateObjects a = some o → Consistent keccak s.db o) (grows : Grows s.db s₁.db) :
    Loop keccak s s' slots (x :: xs) F mark := by
  refine ⟨?_,?_,?_⟩
  · rw [rest.trie,round.trie]
    rfl
  · intro a outside
    by_cases same : a = x
    · subst same
      have absent : s.stateObjects a = none := outside.resolve_left (by simp)
      have unchanged := round.absent absent
      rw [unchanged] at rest
      exact rest.others a (.inl notIn)
    · obtain ⟨objects,flags⟩ := round.others a same
      obtain ⟨objects',flags'⟩ := rest.others a (by simpa [same,objects] using outside)
      exact ⟨objects'.trans objects,flags'.trans flags⟩
  · intro a member o there
    rcases mem_cons.mp member with rfl | later
    · obtain ⟨flags,o',there',left⟩ := round.left o there
      obtain ⟨objects,flags'⟩ := rest.others a (.inl notIn)
      exact ⟨flags'.trans flags,o',objects.trans there',left⟩
    · have ne : a ≠ x := fun same => notIn (same ▸ later)
      obtain ⟨flags,o',there',left⟩ := rest.left a later o ((round.others a ne).1.trans there)
      exact ⟨flags,o',there',left.back (consistent a later o there) grows⟩
theorem finaliseObject_loop (distinct : xs.Nodup)
    (ranged : ∀ a ∈ xs, Ranged keccak s order a) (fates : ∀ a ∈ xs, F a = fateOf keccak s (fun _ => true) del order a)
    (done : xs.foldlM (finaliseObject keccak del order) s = .ok s') :
    Loop keccak s s' order.slots xs F true ∧ s'.db = s.db := by
  induction xs generalizing s with
  | nil =>
    cases done
    exact ⟨loop_nil s' _ F true,rfl⟩
  | cons x xs ih =>
    obtain ⟨notIn,distinct⟩ := nodup_cons.mp distinct
    obtain ⟨s₁,first,rest⟩ := foldlM_cons_ok.mp done
    obtain ⟨round,db⟩ := finaliseObject_round (ranged x (by simp)) first
    rw [← fates x (by simp)] at round
    have grows : Grows s.db s₁.db := by
      rw [db]
      exact .refl _
    have same {a : Address} (member : a ∈ xs) : s₁.stateObjects a = s.stateObjects a :=
      (round.others a fun is => notIn (is ▸ member)).1
    obtain ⟨loop,db'⟩ := ih distinct (fun a member => (ranged a (by simp [member])).congr (same member) grows)
      (fun a member => (fates a (by simp [member])).trans
        (fateOf_congr (ranged a (by simp [member])) (same member) grows rfl).symm) rest
    exact ⟨loop_cons round loop notIn (fun a member => (ranged a (by simp [member])).consistent) grows,db'.trans db⟩

/-! What `Finalise` leaves. The rounds change the state at different addresses, so they commute. -/

variable (keccak) in
/-- The object that a round leaves, and its bytes in the trie. -/
def finalised (db : Database) (del : Bool) (keys : List Hash) (o : StateObject) : StateObject × Option Bytes :=
  if o.suicided || (del && o.empty keccak) then ({ o with deleted := true },some [])
  else (o.updateRoot keccak db keys,encodeAccount (o.updateRoot keccak db keys).data)
variable (keccak) in
def finalOf (s : StateDB) (del : Bool) (order : Order) (a : Address) : Option (StateObject × Option Bytes) :=
  (s.stateObjects a).map (finalised keccak s.db del (order.slots a))
/-- The round for an address, with what it leaves there. -/
def entered (keccak : Bytes → Hash) (z : StateDB) (a : Address) : Option (StateObject × Option Bytes) → StateDB
  | none => z
  | some (o,enc) => { z with
      trie := Secure.tryUpdate keccak z.trie a.bytes (enc.getD [])
      stateObjects := update z.stateObjects a (some o)
      stateObjectsDirty := update z.stateObjectsDirty a true }

private theorem finaliseObject_iff (ranged : Ranged keccak s order a) (same : z.stateObjects a = s.stateObjects a) (db : z.db = s.db) :
    finaliseObject keccak del order z a = .ok z' ↔
      (∀ r ∈ finalOf keccak s del order a, r.2 ≠ none) ∧ entered keccak z a (finalOf keccak s del order a) = z' := by
  unfold finaliseObject finalOf
  rw [same]
  cases there : s.stateObjects a with
  | none => simp [entered]
  | some o =>
    have address := ranged.keyed o there
    have home : (o.updateRoot keccak s.db (order.slots a)).address = a := (updateRoot_same s.db o _).address.trans address
    cases gone : o.suicided || (del && o.empty keccak) with
    | true => simp [entered,finalised,gone,Except.map,deleteStateObject,setStateObject,setDirty,Secure.tryUpdate_nil,address]
    | false =>
      cases encoded : encodeAccount (o.updateRoot keccak s.db (order.slots a)).data <;>
        simp [entered,finalised,gone,Except.map,updateStateObject,setStateObject,setDirty,encoded,home,db]
variable {r : Option (StateObject × Option Bytes)}
private theorem entered_other (other : b ≠ a) : (entered keccak z a r).stateObjects b = z.stateObjects b := by
  cases r with
  | none => rfl
  | some r => exact update_of_ne other _ _
private theorem entered_db : (entered keccak z a r).db = z.db := by cases r <;> rfl
theorem finaliseObject_all (distinct : xs.Nodup) (ranged : ∀ a ∈ xs, Ranged keccak s order a)
    (same : ∀ a ∈ xs, z.stateObjects a = s.stateObjects a) (db : z.db = s.db) :
    xs.foldlM (finaliseObject keccak del order) z = .ok z' ↔ (∀ a ∈ xs, ∀ r ∈ finalOf keccak s del order a, r.2 ≠ none) ∧
      xs.foldl (fun z a => entered keccak z a (finalOf keccak s del order a)) z = z' := by
  induction xs generalizing z with
  | nil => simp [pure,Except.pure]
  | cons x xs ih =>
    obtain ⟨notIn,distinct⟩ := nodup_cons.mp distinct
    have kept (a : Address) (member : a ∈ xs) :
        (entered keccak z x (finalOf keccak s del order x)).stateObjects a = s.stateObjects a :=
      (entered_other fun is : a = x => notIn (is ▸ member)).trans (same a (by simp [member]))
    rw [foldlM_cons_ok,forall_mem_cons,foldl_cons]
    simp only [finaliseObject_iff (ranged x (by simp)) (same x (by simp)) db,and_assoc,exists_and_left,exists_eq_left']
    rw [ih distinct (fun a member => ranged a (by simp [member])) kept (entered_db.trans db)]
theorem entered_comm (distinct : Distinct keccak s) (z : StateDB) :
    entered keccak (entered keccak z a (finalOf keccak s del order a)) b (finalOf keccak s del order b) =
      entered keccak (entered keccak z b (finalOf keccak s del order b)) a (finalOf keccak s del order a) := by
  by_cases same : a = b
  · rw [same]
  unfold finalOf
  cases thereA : s.stateObjects a with
  | none => rfl
  | some o =>
    cases thereB : s.stateObjects b with
    | none => rfl
    | some x =>
      have apart (hashes : keccak a.bytes = keccak b.bytes) := same (distinct a b (by simp [thereA]) (by simp [thereB]) hashes)
      simp only [map_some,entered,Secure.tryUpdate_comm _ apart,update_comm same]
private theorem updateTrie_order (ranged : Ranged keccak s order a) (ranged' : Ranged keccak s order' a) (there : s.stateObjects a = some o) :
    o.updateTrie keccak s.db (order'.slots a) = o.updateTrie keccak s.db (order.slots a) :=
  updateTrie_same (ranged.consistent o there) (.refl _) (ranged.apart o there) (ranged.slots o there) (ranged'.slots o there)
theorem fateOf_order (ranged : Ranged keccak s order a) (ranged' : Ranged keccak s order' a) :
    fateOf keccak s marks del order' a = fateOf keccak s marks del order a := by
  cases there : s.stateObjects a with
  | none => rw [fateOf_none there,fateOf_none there]
  | some o => simp only [fateOf_some there,fate,updateTrie_order ranged ranged' there]
theorem finalOf_order (ranged : Ranged keccak s order a) (ranged' : Ranged keccak s order' a) :
    finalOf keccak s del order' a = finalOf keccak s del order a := by
  unfold finalOf
  cases there : s.stateObjects a with
  | none => rfl
  | some o => simp only [map_some,finalised,StateObject.updateRoot,updateTrie_order ranged ranged' there]

variable (keccak) in
/-- The database after the loop of `Commit`: the storage tries of the objects that were written are in it. -/
structure Saves (s s' : StateDB) (slots : Address → List Hash) (xs : List Address) (F : Address → Fate) : Prop where
  grows : Grows s.db s'.db
  only : ∀ root u, s'.db.tries root = some u → s.db.tries root = some u ∨ Slots keccak u ∧ root = Secure.hash keccak u
  saved : ∀ a ∈ xs, ∀ o, s.stateObjects a = some o → ∀ data, F a = .written data →
    (o.updateTrie keccak s.db (slots a)).1.val.isNil = true ∨
      (s'.db.tries (Secure.hash keccak (o.updateTrie keccak s.db (slots a)).1)).isSome

/-- What a round of `Commit` does, whether there is an object or not. -/
theorem commitObject_saves (ranged : Ranged keccak s order a) (done : commitObject keccak del order s a = .ok s') :
    Round keccak s s' (order.slots a) a (fateOf keccak s s.stateObjectsDirty del order a) false ∧
      Saves keccak s s' order.slots [a] (fateOf keccak s s.stateObjectsDirty del order) ∧
      ∀ o, s.stateObjects a = some o → Writable o (fateOf keccak s s.stateObjectsDirty del order a) := by
  cases there : s.stateObjects a with
  | none =>
    rcases commitObject_cases done with ⟨-,rfl⟩ | ⟨x,_,there',-⟩
    · rw [fateOf_none there]
      refine ⟨round_absent there false _,⟨.refl _,fun _ _ => .inl,?_⟩,nofun⟩
      intro b member o present
      rw [mem_singleton.mp member,there] at present
      cases present
    · rw [there] at there'
      cases there'
  | some o =>
    obtain ⟨round,database,writable⟩ := commitObject_round ranged there done
    refine ⟨round,?_,by rintro _ ⟨⟩; exact writable⟩
    have only {b : Address} {x : StateObject} (member : b ∈ [a]) (present : s.stateObjects b = some x) : b = a ∧ x = o := by
      have same := mem_singleton.mp member
      rw [same,there] at present
      exact ⟨same,(some.inj present).symm⟩
    rcases database with ⟨kept,db⟩ | adds
    · refine ⟨by rw [db]; exact .refl _,by rw [db]; exact fun _ _ => .inl,?_⟩
      intro b member x present data is
      obtain ⟨rfl,rfl⟩ := only member present
      exact absurd is (kept data)
    · refine ⟨adds.grows,?_,?_⟩
      · intro root u found
        refine (adds.only root u found).imp_right ?_
        rintro ⟨rfl,rfl⟩
        exact ⟨(updateTrie_flushed (ranged.consistent o there) (ranged.apart o there) (ranged.slots o there)).slots,rfl⟩
      · intro b member x present data _
        obtain ⟨rfl,rfl⟩ := only member present
        exact adds.there

private theorem saves_cons
    (first : Saves keccak s s₁ slots [x] F) (rest : Saves keccak s₁ s' slots xs F)
    (same : ∀ a ∈ xs, s₁.stateObjects a = s.stateObjects a)
    (consistent : ∀ a ∈ xs, ∀ o, s.stateObjects a = some o → Consistent keccak s.db o) :
    Saves keccak s s' slots (x :: xs) F := by
  refine ⟨first.grows.trans rest.grows,?_,?_⟩
  · intro root u found
    rcases rest.only root u found with old | new
    · exact first.only root u old
    · exact .inr new
  · intro a member o there data is
    rcases mem_cons.mp member with rfl | later
    · refine (first.saved a (by simp) o there data is).imp_right fun saved => ?_
      obtain ⟨u,found⟩ := isSome_iff_exists.mp saved
      rw [rest.grows _ u found]
      rfl
    · have saved := rest.saved a later o ((same a later).trans there) data is
      rwa [updateTrie_grows (consistent a later o there) first.grows] at saved
theorem commitObject_loop (distinct : xs.Nodup)
    (ranged : ∀ a ∈ xs, Ranged keccak s order a) (fates : ∀ a ∈ xs, F a = fateOf keccak s s.stateObjectsDirty del order a)
    (done : xs.foldlM (commitObject keccak del order) s = .ok s') :
    Loop keccak s s' order.slots xs F false ∧ Saves keccak s s' order.slots xs F ∧
      ∀ a ∈ xs, ∀ o, s.stateObjects a = some o → Writable o (F a) := by
  induction xs generalizing s with
  | nil =>
    cases done
    exact ⟨loop_nil s' _ F false,⟨.refl _,fun _ _ => .inl,nofun⟩,nofun⟩
  | cons x xs ih =>
    obtain ⟨notIn,distinct⟩ := nodup_cons.mp distinct
    obtain ⟨s₁,first,rest⟩ := foldlM_cons_ok.mp done
    obtain ⟨round,saves,writable⟩ := commitObject_saves (ranged x (by simp)) first
    have others {a : Address} (member : a ∈ xs) := round.others a fun is => notIn (is ▸ member)
    have consistent := fun a (member : a ∈ xs) => (ranged a (by simp [member])).consistent
    obtain ⟨loop,saves',writable'⟩ := ih distinct
      (fun a member => (ranged a (by simp [member])).congr (others member).1 saves.grows)
      (fun a member => (fates a (by simp [member])).trans
        (fateOf_congr (ranged a (by simp [member])) (others member).1 saves.grows (others member).2).symm) rest
    have here := fates x (by simp)
    rw [← here] at round writable
    have saves : Saves keccak s s₁ order.slots [x] F := by
      refine ⟨saves.grows,saves.only,fun a member o there data is => saves.saved a member o there data ?_⟩
      rw [mem_singleton.mp member] at is ⊢
      exact here.symm.trans is
    refine ⟨loop_cons round loop notIn consistent saves.grows,
      saves_cons saves saves' (fun a member => (others member).1) consistent,?_⟩
    intro a member o there
    rcases mem_cons.mp member with rfl | later
    · exact writable o there
    · exact writable' a later o ((others later).1.trans there)
theorem commitObject_loop_ok (distinct : xs.Nodup) (ranged : ∀ a ∈ xs, Ranged keccak s order a)
    (writable : ∀ a ∈ xs, ∀ o, s.stateObjects a = some o → Writable o (fateOf keccak s s.stateObjectsDirty del order a)) :
    ∃ s', xs.foldlM (commitObject keccak del order) s = .ok s' := by
  induction xs generalizing s with
  | nil => exact ⟨s,rfl⟩
  | cons x xs ih =>
    obtain ⟨notIn,distinct⟩ := nodup_cons.mp distinct
    obtain ⟨s₁,first⟩ := commitObject_ok (ranged x (by simp)) (writable x (by simp))
    obtain ⟨round,saves,-⟩ := commitObject_saves (ranged x (by simp)) first
    have others {a : Address} (member : a ∈ xs) := round.others a fun is => notIn (is ▸ member)
    obtain ⟨s',rest⟩ := ih distinct (fun a member => (ranged a (by simp [member])).congr (others member).1 saves.grows)
      fun a member o there => by
        rw [fateOf_congr (ranged a (by simp [member])) (others member).1 saves.grows (others member).2]
        exact writable a (by simp [member]) o ((others member).1.symm.trans there)
    exact ⟨s',foldlM_cons_ok.mpr ⟨s₁,first,rest⟩⟩

end
end Canchain.StateCommit
