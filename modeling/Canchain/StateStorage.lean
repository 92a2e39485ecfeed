import Mathlib.Data.List.TakeWhile
import Canchain.StateRuns
import Canchain.TrieRoots

/-!
The storage of an object: what it shows is in its trie, but for the slots that
are dirty. Writing the dirty slots to the trie changes nothing that is shown,
and what results does not depend on the order in which they are written.
-/
namespace Canchain.StateStorage
open Rlp Common State Worlds StateView StateRuns List Option Function StateObject
open Secure (SecureTrie)
variable {keys keys' : List Hash}

section
variable {keccak : Bytes → Hash} {t : SecureTrie} {o o' : StateObject} {db db' : Database} {key : Hash} {e : Entry}

theorem bytesToHash_dropWhile (h : Hash) : bytesToHash (h.bytes.dropWhile (· = 0)) = h := by
  have zeros : h.bytes.takeWhile (· = 0) = replicate (h.bytes.takeWhile (· = 0)).length 0 := by
    refine eq_replicate_iff.mpr ⟨rfl,fun b member => ?_⟩
    simpa using mem_takeWhile_imp member
  have parts := takeWhile_append_dropWhile (p := (· = 0)) (l := h.bytes)
  have sizes := congrArg length parts
  rw [length_append,h.size] at sizes
  refine Hash.ext ?_
  show replicate (32 - (h.bytes.dropWhile (· = 0)).length) 0 ++
    (h.bytes.dropWhile (· = 0)).drop ((h.bytes.dropWhile (· = 0)).length - 32) = h.bytes
  rw [show 32 - (h.bytes.dropWhile (· = 0)).length = (h.bytes.takeWhile (· = 0)).length by omega,← zeros,
    show (h.bytes.dropWhile (· = 0)).length - 32 = 0 by omega,drop_zero,parts]

/-- A slot as the trie has it; nothing for the zero value. -/
def encodeSlot (value : Hash) : Bytes :=
  if value = Hash.zero then [] else encodeString (value.bytes.dropWhile (· = 0))
theorem writeSlot_eq (t : SecureTrie) (key value : Hash) :
    writeSlot keccak t key value = Secure.tryUpdate keccak t key.bytes (encodeSlot value) := by
  unfold writeSlot encodeSlot
  split
  · rw [Secure.tryUpdate_nil]
  · rfl
theorem fits_trimmed (value : Hash) : Fits (value.bytes.dropWhile (· = 0)) := by
  have shorter := (dropWhile_sublist (· = 0) (l := value.bytes)).length_le
  have := value.size
  unfold Fits
  omega
theorem slotOf_writeSlot (t : SecureTrie) (key value k : Hash) : slotOf keccak (writeSlot keccak t key value) k =
    if keccak k.bytes = keccak key.bytes then value else slotOf keccak t k := by
  unfold writeSlot slotOf
  by_cases zero : value = Hash.zero
  · rw [if_pos zero,Secure.tryGet_tryDelete]
    by_cases same : keccak k.bytes = keccak key.bytes
    · simp [same,decodeSlot,zero]
    · simp [same]
  · rw [if_neg zero,Secure.tryGet_tryUpdate _ _ _ (encodeString_ne_nil _)]
    by_cases same : keccak k.bytes = keccak key.bytes
    · obtain ⟨kind,-,read⟩ := split_encodeString (value.bytes.dropWhile (· = 0)) [] (fits_trimmed value)
      rw [append_nil] at read
      simp only [same,if_true,decodeSlot,read]
      exact bytesToHash_dropWhile value
    · simp [same]

variable (keccak) in
/-- The values in the trie are slots: none of them reads as an account. -/
def Slots (t : SecureTrie) : Prop := ∀ key enc, Secure.tryGet keccak t key = some enc → decodeAccount enc = none
theorem slots_empty : Slots keccak Secure.empty := by
  intro key enc found
  simp at found
theorem decodeAccount_encodeString {b : Bytes} (fits : Fits b) : decodeAccount (encodeString b) = none := by
  obtain ⟨kind,notList,read⟩ := split_encodeString b [] fits
  rw [append_nil] at read
  simp [decodeAccount,splitList,read,notList]
theorem Slots.writeSlot (slots : Slots keccak t) (key value : Hash) : Slots keccak (StateObject.writeSlot keccak t key value) := by
  intro k enc found
  unfold StateObject.writeSlot at found
  split at found
  · rw [Secure.tryGet_tryDelete] at found
    split at found
    · cases found
    · exact slots k enc found
  · rw [Secure.tryGet_tryUpdate _ _ _ (encodeString_ne_nil _)] at found
    split at found
    · cases found
      exact decodeAccount_encodeString (fits_trimmed value)
    · exact slots k enc found

/-! ### Writing the dirty slots -/

variable (keccak) in
/-- The hash keeps the slot apart from those the object has read. -/
def Alone (o : StateObject) (key : Hash) : Prop :=
  ∀ k, o.originStorage k ≠ none → keccak key.bytes = keccak k.bytes → key = k
variable (keccak) in
/-- The slots that were read are as in the trie, and the dirty ones were read. -/
structure Synced (t : SecureTrie) (o : StateObject) : Prop where
  read : ∀ k, o.dirtyStorage k ≠ none → o.originStorage k ≠ none
  agrees : ∀ k v, o.originStorage k = some v → v = slotOf keccak t k
variable (keccak) in
/-- What is shown of a slot over the trie. -/
def shown (t : SecureTrie) (o : StateObject) (k : Hash) : Hash := (o.dirtyStorage k).getD (slotOf keccak t k)

variable (keccak) in
/-- What writing dirty slots does to the trie and the object. -/
structure Flushes (t : SecureTrie) (o : StateObject) (keys : List Hash) (r : SecureTrie × StateObject) : Prop where
  synced : Synced keccak r.1 r.2
  slots : Slots keccak t → Slots keccak r.1
  origin : ∀ k, r.2.originStorage k ≠ none ↔ o.originStorage k ≠ none
  dirty : ∀ k, r.2.dirtyStorage k = if k ∈ keys then none else o.dirtyStorage k
  shown : ∀ k, Alone keccak o k → shown keccak r.1 r.2 k = shown keccak t o k

theorem updateSlot_flushes (synced : Synced keccak t o) (apart : ∀ k, o.originStorage k ≠ none → Alone keccak o k) (key : Hash) :
    Flushes keccak t o [key] (o.updateSlot keccak t key) := by
  unfold updateSlot
  cases dirty : o.dirtyStorage key with
  | none =>
    refine ⟨synced,id,fun _ => Iff.rfl,?_,fun _ _ => rfl⟩
    intro k
    by_cases same : k = key
    · simp [same,dirty]
    · simp [same]
  | some value =>
    obtain ⟨orig,there⟩ := ne_none_iff_exists'.mp (synced.read key (by simp [dirty]))
    have alone := apart key (by simp [there])
    have cleared (k : Hash) : update o.dirtyStorage key none k = if k ∈ [key] then none else o.dirtyStorage k := by
      by_cases same : k = key
      · simp [same]
      · simp [same]
    have readBefore {k : Hash} (dirtyK : update o.dirtyStorage key none k ≠ none) : o.originStorage k ≠ none := by
      rw [cleared] at dirtyK
      split at dirtyK
      · exact absurd rfl dirtyK
      · exact synced.read k dirtyK
    by_cases same : value = (o.originStorage key).getD Hash.zero
    · simp only [if_pos same]
      refine ⟨⟨fun k => readBefore,synced.agrees⟩,id,fun _ => Iff.rfl,cleared,?_⟩
      intro k _
      by_cases here : k = key
      · rw [there,getD_some] at same
        simp [shown,here,dirty,same,synced.agrees key orig there]
      · simp [shown,here]
    · simp only [if_neg same]
      have origin (k : Hash) : update o.originStorage key (some value) k ≠ none ↔ o.originStorage k ≠ none := by
        by_cases here : k = key
        · simp [here,there]
        · simp [here]
      refine ⟨⟨fun k dirtyK => (origin k).mpr (readBefore dirtyK),?_⟩,fun slots => slots.writeSlot key value,origin,cleared,?_⟩
      · intro k v readK
        rw [slotOf_writeSlot]
        by_cases here : k = key
        · subst here
          simpa using readK.symm
        · simp only [ne_eq,here,not_false_eq_true,update_of_ne] at readK
          rw [if_neg fun hashes => here (alone k (by simp [readK]) hashes.symm).symm]
          exact synced.agrees k v readK
      · intro k aloneK
        by_cases here : k = key
        · simp [shown,here,dirty,slotOf_writeSlot]
        · have hashes : keccak k.bytes ≠ keccak key.bytes := fun hashes => here (aloneK key (by simp [there]) hashes)
          simp [shown,here,slotOf_writeSlot,hashes]
theorem updateSlots_flushes (synced : Synced keccak t o) (apart : ∀ k, o.originStorage k ≠ none → Alone keccak o k)
    (keys : List Hash) : Flushes keccak t o keys (o.updateSlots keccak t keys) := by
  induction keys generalizing t o with
  | nil => exact ⟨synced,id,fun _ => Iff.rfl,fun _ => rfl,fun _ _ => rfl⟩
  | cons key keys ih =>
    have first := updateSlot_flushes synced apart key
    have alone {k : Hash} (alone : Alone keccak o k) : Alone keccak (o.updateSlot keccak t key).2 k :=
      fun k' readK => alone k' ((first.origin k').mp readK)
    have rest := ih first.synced fun k readK => alone (apart k ((first.origin k).mp readK))
    refine ⟨rest.synced,fun slots => rest.slots (first.slots slots),fun k => (rest.origin k).trans (first.origin k),?_,?_⟩
    · intro k
      rw [updateSlots,rest.dirty,first.dirty]
      by_cases inside : k ∈ keys
      · simp [inside]
      · simp [inside]
    · intro k aloneK
      rw [updateSlots,rest.shown k (alone aloneK),first.shown k aloneK]

/-- Slots that the hash keeps apart can be written in either order. -/
theorem updateSlot_comm (t : SecureTrie) (o : StateObject) {x y : Hash} (apart : keccak x.bytes = keccak y.bytes → x = y) :
    (o.updateSlot keccak t x).2.updateSlot keccak (o.updateSlot keccak t x).1 y =
      (o.updateSlot keccak t y).2.updateSlot keccak (o.updateSlot keccak t y).1 x := by
  by_cases same : x = y
  · rw [same]
  · have other : y ≠ x := Ne.symm same
    have tries (v w : Hash) : writeSlot keccak (writeSlot keccak t x v) y w =
        writeSlot keccak (writeSlot keccak t y w) x v := by
      simp only [writeSlot_eq]
      exact Secure.tryUpdate_comm t (fun hashes => same (apart hashes)) _ _
    cases dirtyX : o.dirtyStorage x with
    | none =>
      cases dirtyY : o.dirtyStorage y with
      | none => simp [updateSlot,dirtyX,dirtyY]
      | some w =>
        by_cases cleanY : w = (o.originStorage y).getD Hash.zero <;>
          simp [updateSlot,dirtyX,dirtyY,cleanY,update_of_ne same]
    | some v =>
      cases dirtyY : o.dirtyStorage y with
      | none =>
        by_cases cleanX : v = (o.originStorage x).getD Hash.zero <;>
          simp [updateSlot,dirtyX,dirtyY,cleanX,update_of_ne other]
      | some w =>
        by_cases cleanX : v = (o.originStorage x).getD Hash.zero <;>
          by_cases cleanY : w = (o.originStorage y).getD Hash.zero <;>
            simp [updateSlot,dirtyX,dirtyY,cleanX,cleanY,update_of_ne same,update_of_ne other,update_comm same,tries]
theorem updateSlots_foldl (t : SecureTrie) (o : StateObject) (keys : List Hash) : o.updateSlots keccak t keys =
    keys.foldl (fun r key => r.2.updateSlot keccak r.1 key) (t,o) := by
  induction keys generalizing t o with
  | nil => rfl
  | cons key keys ih => rw [updateSlots,ih,foldl_cons]
theorem updateSlots_perm (t : SecureTrie) (o : StateObject) (perm : keys.Perm keys')
    (apart : ∀ x ∈ keys, ∀ y ∈ keys, keccak x.bytes = keccak y.bytes → x = y) :
    o.updateSlots keccak t keys = o.updateSlots keccak t keys' := by
  rw [updateSlots_foldl,updateSlots_foldl]
  exact perm.foldl_eq' (fun x inX y inY r => updateSlot_comm r.1 r.2 (apart x inX y inY)) _

/-- The second database has the tries of the first. -/
def Grows (db db' : Database) : Prop := ∀ root t, db.tries root = some t → db'.tries root = some t
theorem Grows.refl (db : Database) : Grows db db := fun _ _ => id
theorem Grows.trans {db'' : Database} (first : Grows db db') (second : Grows db' db'') : Grows db db'' :=
  fun root t found => second root t (first root t found)
theorem Grows.openTrie (grows : Grows db db') {root : Hash} (opened : db.openTrie root = some t) :
    db'.openTrie root = some t := by
  unfold Database.openTrie at opened ⊢
  by_cases fixed : root = Hash.zero ∨ root = TrieNode.emptyRoot
  · rw [if_pos fixed] at opened ⊢
    exact opened
  · rw [if_neg fixed] at opened ⊢
    exact grows root t opened

variable (keccak) in
/-- The object goes with the trie of its storage, which can be opened. -/
structure Consistent (db : Database) (o : StateObject) : Prop where
  synced : Synced keccak (trieOf db o) o
  slots : Slots keccak (trieOf db o)
  opens : o.trie = none → db.openTrie o.data.root ≠ none

section
variable (consistent : Consistent keccak db o)
include consistent
theorem Consistent.getTrie_grows (grows : Grows db db') : o.getTrie db' = o.getTrie db := by
  unfold getTrie
  cases there : o.trie with
  | some t => rfl
  | none =>
    obtain ⟨t,opened⟩ := ne_none_iff_exists'.mp (consistent.opens there)
    simp [opened,grows.openTrie opened]
theorem Consistent.trieOf_grows (grows : Grows db db') : trieOf db' o = trieOf db o := by
  rw [← getTrie_value,← getTrie_value,consistent.getTrie_grows grows]
theorem Consistent.grows (grows : Grows db db') : Consistent keccak db' o := by
  refine ⟨?_,?_,fun there => ?_⟩
  · rw [consistent.trieOf_grows grows]
    exact consistent.synced
  · rw [consistent.trieOf_grows grows]
    exact consistent.slots
  · obtain ⟨t,opened⟩ := ne_none_iff_exists'.mp (consistent.opens there)
    simp [grows.openTrie opened]
theorem Consistent.stateAt (k : Hash) : stateAt keccak db o k = shown keccak (trieOf db o) o k := by
  unfold Worlds.stateAt committedAt shown
  cases read : o.originStorage k with
  | none => rfl
  | some v => rw [← consistent.synced.agrees k v read]; rfl
theorem Consistent.caches (caches : Caches keccak db o o') : Consistent keccak db o' := by
  refine ⟨⟨fun k dirty => ?_,fun k v read => ?_⟩,?_,fun there => ?_⟩
  · rw [caches.dirtyStorage] at dirty
    rcases caches.origin k with same | ⟨-,loaded⟩
    · rw [same]
      exact consistent.synced.read k dirty
    · simp [loaded]
  · rw [caches.trie]
    rcases caches.origin k with same | ⟨-,loaded⟩
    · exact consistent.synced.agrees k v (same.symm.trans read)
    · exact some.inj (read.symm.trans loaded)
  · rw [caches.trie]
    exact consistent.slots
  · rw [caches.data]
    exact consistent.opens (caches.opened there)
/-- Only the storage matters. -/
theorem Consistent.same (trie : o'.trie = o.trie) (root : o'.data.root = o.data.root)
    (origin : o'.originStorage = o.originStorage) (dirty : o'.dirtyStorage = o.dirtyStorage) : Consistent keccak db o' := by
  have tries : trieOf db o' = trieOf db o := by simp [trieOf,trie,root]
  refine ⟨⟨?_,?_⟩,?_,?_⟩
  · rw [origin,dirty]
    exact consistent.synced.read
  · rw [origin,tries]
    exact consistent.synced.agrees
  · rw [tries]
    exact consistent.slots
  · rw [trie,root]
    exact consistent.opens
theorem Consistent.putState (read : o.originStorage key ≠ none) (value : Hash) :
    Consistent keccak db (o.putState key value) := by
  refine ⟨⟨fun k dirty => ?_,consistent.synced.agrees⟩,consistent.slots,consistent.opens⟩
  by_cases same : k = key
  · rw [same]
    exact read
  · simp only [StateObject.putState,ne_eq,same,not_false_eq_true,update_of_ne] at dirty
    exact consistent.synced.read k dirty
theorem Consistent.puts (puts : Puts keccak db o e o') : Consistent keccak db o' := by
  cases puts with
  | slot key value cached =>
    refine consistent.putState ?_ value
    exact cached.elim (consistent.synced.read key) id
  | _ => exact consistent.same rfl rfl rfl rfl
end
theorem consistent_newObject {data : Account} (opened : db.openTrie data.root = some t) (slots : Slots keccak t) (addr : Address) :
    Consistent keccak db (newObject addr data) := by
  refine ⟨⟨?_,?_⟩,?_,?_⟩
  · intro k dirty
    exact absurd rfl dirty
  · intro k v read
    cases read
  · simpa [trieOf,newObject,opened] using slots
  · simp [newObject,opened]
theorem consistent_replaced (db : Database) (addr : Address) (balance : Int) :
    Consistent keccak db (replaced keccak addr balance) := by
  have opened : db.openTrie (⟨0,balance,Hash.zero,emptyCodeHash keccak⟩ : Account).root = some Secure.empty := rfl
  exact consistent_newObject opened slots_empty addr

/-! ### Writing an object -/

variable (keccak) in
/-- The storage of the object is in the trie. -/
structure Flushed (db : Database) (o : StateObject) (t : SecureTrie) (o' : StateObject) : Prop where
  trie : o'.trie = some t
  synced : Synced keccak t o'
  slots : Slots keccak t
  clean : ∀ k, o'.dirtyStorage k = none
  origin : ∀ k, o'.originStorage k ≠ none ↔ o.originStorage k ≠ none
  shown : ∀ k, Alone keccak o k → slotOf keccak t k = stateAt keccak db o k

theorem Flushed.consistent (flushed : Flushed keccak db o t o') (db' : Database) : Consistent keccak db' o' := by
  have trie : trieOf db' o' = t := by simp [trieOf,flushed.trie]
  refine ⟨?_,?_,?_⟩
  · rw [trie]
    exact flushed.synced
  · rw [trie]
    exact flushed.slots
  · intro none
    rw [flushed.trie] at none
    cases none
theorem updateTrie_fst (db : Database) (o : StateObject) (keys : List Hash) : (o.updateTrie keccak db keys).1 =
    ((o.getTrie db).2.updateSlots keccak (trieOf db o) keys).1 := by rw [← getTrie_value]; rfl
theorem updateTrie_snd (db : Database) (o : StateObject) (keys : List Hash) : (o.updateTrie keccak db keys).2 =
    { ((o.getTrie db).2.updateSlots keccak (trieOf db o) keys).2 with trie := some (o.updateTrie keccak db keys).1 } := by
  rw [← getTrie_value]; rfl
theorem updateTrie_flushed (consistent : Consistent keccak db o)
    (apart : ∀ k, o.originStorage k ≠ none → Alone keccak o k) (enumerates : Enumerates keys fun k => o.dirtyStorage k ≠ none) :
    Flushed keccak db o (o.updateTrie keccak db keys).1 (o.updateTrie keccak db keys).2 := by
  obtain ⟨failed,got⟩ := getTrie_object db o
  have flushes : Flushes keccak (trieOf db o) (o.getTrie db).2 keys ((o.getTrie db).2.updateSlots keccak (trieOf db o) keys) := by
    rw [got]
    refine updateSlots_flushes ?_ ?_ keys
    · exact ⟨consistent.synced.read,consistent.synced.agrees⟩
    · exact apart
  have alone {k : Hash} (alone : Alone keccak o k) : Alone keccak (o.getTrie db).2 k := by
    rw [got]
    exact alone
  have clean (k : Hash) : ((o.getTrie db).2.updateSlots keccak (trieOf db o) keys).2.dirtyStorage k = none := by
    rw [flushes.dirty,got]
    by_cases dirty : o.dirtyStorage k = none
    · simp [dirty]
    · rw [if_pos ((enumerates.2 k).mpr dirty)]
  rw [updateTrie_snd,updateTrie_fst]
  refine ⟨rfl,⟨flushes.synced.read,flushes.synced.agrees⟩,flushes.slots consistent.slots,clean,fun k => ?_,fun k aloneK => ?_⟩
  · refine (flushes.origin k).trans ?_
    rw [got]
  · have same := flushes.shown k (alone aloneK)
    rw [consistent.stateAt,show shown keccak (trieOf db o) o k = shown keccak (trieOf db o) (o.getTrie db).2 k by rw [got]; rfl,← same]
    simp [shown,clean]

theorem enumerates_perm {κ : Type} {keys keys' : List κ} {Present : κ → Prop} (first : Enumerates keys Present)
    (second : Enumerates keys' Present) : keys.Perm keys' :=
  (perm_ext_iff_of_nodup first.1 second.1).mpr fun k => (first.2 k).trans (second.2 k).symm
/-- Neither the database, if it has the trie, nor the order of the slots matters. -/
theorem updateTrie_same (consistent : Consistent keccak db o) (grows : Grows db db')
    (apart : ∀ k, o.originStorage k ≠ none → Alone keccak o k) (enumerates : Enumerates keys fun k => o.dirtyStorage k ≠ none)
    (enumerates' : Enumerates keys' fun k => o.dirtyStorage k ≠ none) :
    o.updateTrie keccak db' keys' = o.updateTrie keccak db keys := by
  have slots := updateSlots_perm (trieOf db o) (o.getTrie db).2 (enumerates_perm enumerates enumerates')
    fun x inX y inY => apart x (consistent.synced.read x ((enumerates.2 x).mp inX)) y
      (consistent.synced.read y ((enumerates.2 y).mp inY))
  refine Prod.ext ?_ ?_
  · rw [updateTrie_fst,updateTrie_fst,consistent.getTrie_grows grows,consistent.trieOf_grows grows,slots]
  · rw [updateTrie_snd,updateTrie_snd,updateTrie_fst,updateTrie_fst,consistent.getTrie_grows grows,
      consistent.trieOf_grows grows,slots]
/-- The error of an object is its own if its trie can be opened. -/
theorem updateTrie_dbErr (consistent : Consistent keccak db o) (keys : List Hash) :
    (o.updateTrie keccak db keys).2.dbErr = o.dbErr := by
  have got : (o.getTrie db).2.dbErr = o.dbErr := by
    unfold getTrie
    cases there : o.trie with
    | some t => rfl
    | none =>
      obtain ⟨t,opened⟩ := ne_none_iff_exists'.mp (consistent.opens there)
      simp [opened]
  obtain ⟨origin,dirty,slots⟩ := updateSlots_object keccak (trieOf db o) (o.getTrie db).2 keys
  rw [updateTrie_snd,slots]
  exact got

theorem updateSlots_code (t : SecureTrie) (o : StateObject) (code : Bool) (keys : List Hash) :
    ({ o with dirtyCode := code } : StateObject).updateSlots keccak t keys =
      ((o.updateSlots keccak t keys).1,{ (o.updateSlots keccak t keys).2 with dirtyCode := code }) := by
  induction keys generalizing t o with
  | nil => rfl
  | cons key keys ih =>
    have one : ({ o with dirtyCode := code } : StateObject).updateSlot keccak t key =
        ((o.updateSlot keccak t key).1,{ (o.updateSlot keccak t key).2 with dirtyCode := code }) := by
      unfold updateSlot
      cases o.dirtyStorage key with
      | none => rfl
      | some value =>
        by_cases same : value = (o.originStorage key).getD Hash.zero
        · simp [if_pos same]
        · simp [if_neg same]
    rw [updateSlots,one,ih]
    rfl
theorem updateTrie_code (db : Database) (o : StateObject) (code : Bool) (keys : List Hash) :
    ({ o with dirtyCode := code } : StateObject).updateTrie keccak db keys =
      ((o.updateTrie keccak db keys).1,{ (o.updateTrie keccak db keys).2 with dirtyCode := code }) := by
  have got : ({ o with dirtyCode := code } : StateObject).getTrie db = ((o.getTrie db).1,{ (o.getTrie db).2 with dirtyCode := code }) := by
    obtain ⟨address,data,dbErr,trie,_⟩ := o
    unfold getTrie
    cases trie with
    | some t => rfl
    | none => cases db.openTrie data.root <;> rfl
  unfold updateTrie
  rw [got]
  simp [updateSlots_code]

end
end Canchain.StateStorage
