import Canchain.TrieRep

/-!
Reading back what the hasher wrote. `decodeNode` on the encoding of a collapsed
node rebuilds the node that `expandNode` makes of it (`decode_collapse`), so a
database answers alike for a node that it keeps in memory and for one that it
has on disk (`loaded_node`).
-/
namespace Canchain.TrieDecode
open Rlp Common HexKeys TrieNode TrieCollapse Sweep TrieRep List
open Patricia hiding Plain plain_append plain_cons
open Patricia.Tree (Canonical Shaped)

theorem readKind_item {e : Bytes} (item : IsItem e) (rest : Bytes) :
    ∃ k tagsize size, readKind (e ++ rest) = .ok (k,tagsize,size) ∧ (e ++ rest).drop (tagsize+size) = rest := by
  obtain ⟨k,content,read⟩ := item rest
  unfold split at read
  split at read
  · cases read
  · rename_i k' tagsize size is
    simp only [Except.ok.injEq,Prod.mk.injEq] at read
    exact ⟨k',tagsize,size,is,read.2.2⟩
theorem countValues_items {es : List Bytes} (items : ∀ e ∈ es, IsItem e) {fuel : Nat} (enough : es.flatten.length ≤ fuel) :
    countValues fuel es.flatten = .ok es.length := by
  induction es generalizing fuel with
  | nil => cases fuel <;> rfl
  | cons e es ih =>
    have item := items e mem_cons_self
    obtain ⟨k,tagsize,size,read,dropped⟩ := readKind_item item es.flatten
    have some := length_pos_iff.mpr item.ne_nil
    rw [flatten_cons,length_append] at enough
    obtain ⟨fuel,rfl⟩ : ∃ f, fuel = f+1 := ⟨fuel-1,by omega⟩
    have rest := ih (fun e member => items e (mem_cons_of_mem _ member)) (show es.flatten.length ≤ fuel by omega)
    rw [flatten_cons]
    cases whole : e ++ es.flatten with
    | nil => exact absurd (append_eq_nil_iff.mp whole).1 item.ne_nil
    | cons x tail =>
      rw [whole] at read dropped
      simp [countValues,read,dropped,rest,Except.map]

theorem split_byte {b content rest : Bytes} (read : split b = .ok (.Byte,content,rest)) : content.length = 1 := by
  unfold split at read
  split at read
  · cases read
  · rename_i k tagsize size is
    simp only [Except.ok.injEq,Prod.mk.injEq] at read
    obtain ⟨rfl,rfl,-⟩ := read
    cases b with
    | nil => cases is
    | cons x tail =>
      have front : tagsize = 0 ∧ size = 1 := by
        unfold readKind at is
        dsimp only at is
        repeat' split at is
        all_goals simp_all
      simp [front.1,front.2]
theorem split_string (b rest : Bytes) (fits : Fits b) (plural : b.length ≠ 1) :
    split (encodeString b ++ rest) = .ok (.String,b,rest) := by
  obtain ⟨k,string,read⟩ := split_encodeString b rest fits
  cases k with
  | Byte => exact absurd (split_byte read) plural
  | String => exact read
  | List => exact absurd rfl string
theorem splitString_encodeString (b rest : Bytes) (fits : Fits b) : splitString (encodeString b ++ rest) = .ok (b,rest) := by
  obtain ⟨k,string,read⟩ := split_encodeString b rest fits
  simp [splitString,read,string]
theorem splitList_encodeList (payload rest : Bytes) (fits : Fits payload) :
    splitList (encodeList payload ++ rest) = .ok (payload,rest) := by
  simp [splitList,split_encodeList payload rest fits]
variable {child : Fin 16 → Node} {t : Entries}

section
variable {keccak : Bytes → Hash} {fuel : Nat} {hash : Option Hash} {gen : UInt16}

variable {es : List Bytes} {n : Node} {decode : Bytes → Except DecodeError Node} {k : Hex} {v : Bytes} {r : Raw}
/-- A list is decoded as a short or a full node by the number of its items. -/
theorem decodeNode_items (items : ∀ e ∈ es, IsItem e) (fits : Fits es.flatten) (rest : Bytes)
    (is : es.length = 2 ∧ decodeShort (decodeNode fuel none · gen) hash es.flatten gen = .ok n ∨
      es.length = 17 ∧ decodeFull (decodeNode fuel none · gen) hash es.flatten gen = .ok n) :
    decodeNode (fuel+1) hash (encodeList es.flatten ++ rest) gen = .ok n := by
  rw [decodeNode,if_neg (by simp [encodeList_ne_nil]),splitList_encodeList _ rest fits]
  rcases is with ⟨count,is⟩ | ⟨count,is⟩
  all_goals
    simp only [countValues_items items le_rfl,count,Except.toOption,Option.getD_some,is]
    rfl

theorem decodeRef_nil (decode : Bytes → Except DecodeError Node) (rest : Bytes) :
    decodeRef decode (childItem .nil ++ rest) = .ok (.nil,rest) := by
  rw [childItem_nil,decodeRef,split_string [] rest (by simp [Fits]) (by simp)]
  simp
theorem decodeRef_hash (decode : Bytes → Except DecodeError Node) (h : Hash) (rest : Bytes) :
    decodeRef decode ((Raw.hash h).encode ++ rest) = .ok (.hash h,rest) := by
  have size := h.size
  have fits : Fits h.bytes := by simp [Fits,size]
  rw [Raw.encode,decodeRef,split_string h.bytes rest fits (by omega)]
  simp [size]
theorem decodeRef_node {payload rest : Bytes} (fits : Fits payload)
    (small : (encodeList payload).length < 32) (is : decode (encodeList payload ++ rest) = .ok n) :
    decodeRef decode (encodeList payload ++ rest) = .ok (n,rest) := by
  have size : ¬ ((encodeList payload ++ rest).length - rest.length > 32) := by
    rw [length_append]
    omega
  rw [decodeRef,split_encodeList payload rest fits]
  simp only [if_neg size,↓reduceIte,is]
  rfl

theorem decodeShort_value (decode : Bytes → Except DecodeError Node) (term : Terminated (b := 16) k)
    (fitsKey : Fits (hexToCompact k)) (fits : Fits v) :
    decodeShort decode hash [encodeString (hexToCompact k),encodeString v].flatten gen =
      .ok (.short k (.value v) ⟨hash,gen,false⟩) := by
  have ends : hasTerm k = true := by
    obtain ⟨p,-,rfl⟩ := terminated_iff.mp term
    exact hasTerm_append p
  simp only [decodeShort,flatten_cons,splitString_encodeString _ _ fitsKey,
    compactToHex_hexToCompact k (wellFormed_of_terminated term),ends,↓reduceIte,splitString_encodeString _ _ fits]
theorem decodeShort_ref {item : Bytes} {r : Node} (plain : Patricia.Plain (b := 16) k) (fitsKey : Fits (hexToCompact k))
    (read : decodeRef decode (item ++ []) = .ok (r,[])) :
    decodeShort decode hash [encodeString (hexToCompact k),item].flatten gen = .ok (.short k r ⟨hash,gen,false⟩) := by
  have goesOn : hasTerm k = false := hasTerm_plain ((plain_iff k).mp plain)
  simp only [decodeShort,flatten_cons,flatten_nil,splitString_encodeString _ _ fitsKey,
    compactToHex_hexToCompact k (wellFormed_of_plain plain),goesOn,Bool.false_eq_true,↓reduceIte,read]
/-- The sixteen children of a branch and its value are read in a row. -/
theorem decodeFull_items {item : Nibble → Bytes}
    (read : ∀ i rest, decodeRef decode (item i.castSucc ++ rest) = .ok (child i,rest)) (fits : Fits v)
    (last : item (Fin.last 16) = encodeString v) : decodeFull decode hash (((finRange 17).map item).flatten) gen =
      .ok (.full (slots child (if v.length > 0 then .value v else .nil)) ⟨hash,gen,false⟩) := by
  let left (i : Fin 17) : Bytes := (((finRange 17).drop i.val).map item).flatten
  have next (i : Fin 16) : left i.castSucc = item i.castSucc ++ left i.succ := by
    have inside : i.val < (finRange 17).length := by rw [length_finRange]; omega
    simp only [left,Fin.val_castSucc,Fin.val_succ]
    rw [drop_eq_getElem_cons inside,map_cons,flatten_cons,getElem_finRange]
    rfl
  have swept := sweep_walk (g := child) (f := fun (i : Fin 16) elems =>
    (decodeRef decode elems).mapError (wrapError ("[" ++ toString i.val ++ "]"))) left fun i => by
      rw [next i,read i]
      rfl
  have ends : left (Fin.last 16) = encodeString v ++ [] := by
    rw [← last]
    rfl
  rw [decodeFull,show ((finRange 17).map item).flatten = left 0 from rfl,swept]
  simp only [ends,splitString_encodeString v [] fits]

/-! ### The nodes that are stored -/

/-- The nodes the hasher stores or embeds: terminated keys lead to values, others to references, and a reference is a hash, or
    a node whose encoding is shorter than one. -/
def Storable : Raw → Prop
  | .short key val => ∃ k, key = hexToCompact k ∧ ((Terminated (b := 16) k ∧ ∃ v, val = .value v) ∨
      (Patricia.Plain (b := 16) k ∧ ((∃ h, val = .hash h) ∨ Storable val ∧ val.encode.length < 32)))
  | .full cs => (∀ i, i ≠ Fin.last 16 → cs i = .nil ∨ (∃ h, cs i = .hash h) ∨ Storable (cs i) ∧ (cs i).encode.length < 32) ∧
      (cs (Fin.last 16) = .nil ∨ ∃ v, v ≠ [] ∧ cs (Fin.last 16) = .value v)
  | _ => False
/-- The collapsed form of a node as it is: compact keys and no flags. -/
def compact : Node → Raw
  | .nil => .nil
  | .short key val _ => .short (hexToCompact key) (compact val)
  | .full cs _ => .full fun i => compact (cs i)
  | .hash h => .hash h
  | .value v => .value v
/-- Both ways back from a collapsed node lead to this node, and it is the same. -/
structure ReadsBack (hash : Option Hash) (gen : UInt16) (r : Raw) (n : Node) : Prop where
  same : compact n = r
  expanded : expandNode hash gen r = .ok n
  decoded : ∀ fuel rest, r.encode.length ≤ fuel → decodeNode fuel hash (r.encode ++ rest) gen = .ok n
/-- The same for what stands below a node. -/
structure RefReadsBack (gen : UInt16) (r : Raw) (n : Node) : Prop where
  same : compact n = r
  expanded : expandNode none gen r = .ok n
  decoded : ∀ fuel rest, r.encode.length ≤ fuel → decodeRef (decodeNode fuel none · gen) (r.encode ++ rest) = .ok (n,rest)

theorem simplifies_storable (stored : Storable r) : r.simplifies := by
  induction r with
  | nil | hash _ | value _ => exact stored.elim
  | short key val ih =>
    obtain ⟨k,-,⟨-,v,rfl⟩ | ⟨-,⟨h,rfl⟩ | ⟨below,-⟩⟩⟩ := stored
    · rfl
    · rfl
    · exact ih below
  | full cs ih =>
    rw [Raw.simplifies,all_eq_true]
    intro i _
    rw [Bool.or_eq_true]
    by_cases final : i = Fin.last 16
    · subst final
      rcases stored.2 with none | ⟨v,-,is⟩
      · exact .inl (by rw [none]; rfl)
      · exact .inr (by rw [is]; rfl)
    · rcases stored.1 i final with none | ⟨h,is⟩ | ⟨below,-⟩
      · exact .inl (by rw [none]; rfl)
      · exact .inr (by rw [is]; rfl)
      · exact .inr (ih i below)
theorem encode_stored (stored : Storable r) : ∃ payload, r.encode = encodeList payload := by
  cases r with
  | short key val => exact ⟨_,encode_short key val⟩
  | full cs => exact ⟨_,encode_full cs⟩
  | _ => exact stored.elim
theorem reference_readsBack (reference : (∃ h, r = .hash h) ∨ Storable r ∧ r.encode.length < 32) (fits : Fits r.encode)
    (below : Storable r → ∃ n, ReadsBack none gen r n) : ∃ n, RefReadsBack gen r n := by
  rcases reference with ⟨h,rfl⟩ | ⟨stored,small⟩
  · exact ⟨.hash h,rfl,rfl,fun fuel rest _ => decodeRef_hash _ h rest⟩
  · obtain ⟨n,back⟩ := below stored
    obtain ⟨payload,list⟩ := encode_stored stored
    refine ⟨n,back.same,back.expanded,fun fuel rest enough => ?_⟩
    have read := back.decoded fuel rest enough
    rw [list] at fits small read ⊢
    exact decodeRef_node (fits_payload fits) small read
/-- A short node, given what its value or reference is read back as. -/
theorem short_readsBack {val : Raw} (wf : WellFormed k) (some : val ≠ .nil)
    (fits : Fits (Raw.short (hexToCompact k) val).encode) (same : compact n = val) (expanded : expandNode none gen val = .ok n)
    (read : ∀ fuel, val.encode.length ≤ fuel → decodeShort (decodeNode fuel none · gen) hash
      [encodeString (hexToCompact k),val.encode].flatten gen = .ok (.short k n ⟨hash,gen,false⟩)) :
    ReadsBack hash gen (.short (hexToCompact k) val) (.short k n ⟨hash,gen,false⟩) := by
  refine ⟨by simp [compact,same],by simp [expandNode,compactToHex_hexToCompact k wf,expanded],fun fuel rest enough => ?_⟩
  rw [encode_short] at fits enough ⊢
  have items : ∀ e ∈ [encodeString (hexToCompact k),val.encode], IsItem e := by
    have each := fun e m => fits_item (e := e) fits m
    simp only [mem_cons,not_mem_nil,or_false,forall_eq_or_imp,forall_eq] at each ⊢
    exact ⟨isItem_encodeString (fits_string each.1),isItem_encode some each.2⟩
  have whole := length_lt_encodeList [encodeString (hexToCompact k),val.encode].flatten
  have part := length_mem_flatten (show val.encode ∈ [encodeString (hexToCompact k),val.encode] by simp)
  obtain ⟨fuel,rfl⟩ : ∃ f, fuel = f+1 := ⟨fuel-1,by omega⟩
  exact decodeNode_items items (fits_payload fits) rest (.inl ⟨rfl,read fuel (by omega)⟩)
/-- A branch, given what its references and its value are read back as. -/
theorem full_readsBack {cs : Nibble → Raw} (fits : Fits (Raw.full cs).encode)
    (below : ∀ i : Fin 16, cs i.castSucc = .nil ∧ child i = .nil ∨ cs i.castSucc ≠ .nil ∧ RefReadsBack gen (cs i.castSucc) (child i))
    (last : cs (Fin.last 16) = .nil ∧ v = [] ∨ v ≠ [] ∧ cs (Fin.last 16) = .value v) :
    ReadsBack hash gen (.full cs) (.full (slots child (if v.length > 0 then .value v else .nil)) ⟨hash,gen,false⟩) := by
  have final : childItem (cs (Fin.last 16)) = encodeString v ∧ compact (if v.length > 0 then .value v else .nil) = cs (Fin.last 16) ∧
      (if (cs (Fin.last 16)).isNil then .ok (.nil,()) else (expandNode none gen (cs (Fin.last 16))).map fun n => (n,())) =
        (.ok (if v.length > 0 then .value v else .nil,()) : Except Failure (Node × Unit)) := by
    rcases last with ⟨empty,rfl⟩ | ⟨some,isValue⟩
    · rw [empty]
      exact ⟨childItem_nil,rfl,rfl⟩
    · rw [isValue,if_pos (length_pos_iff.mpr some)]
      exact ⟨rfl,rfl,rfl⟩
  have fitsV : Fits v := by
    have fitsLast := fits_child fits (Fin.last 16)
    rw [final.1] at fitsLast
    exact fits_string fitsLast
  refine ⟨?_,?_,fun fuel rest enough => ?_⟩
  · simp only [compact,Raw.full.injEq]
    funext i
    induction i using Fin.lastCases with
    | last => rw [slots_last]; exact final.2.1
    | cast i =>
      rw [slots_castSucc]
      rcases below i with ⟨empty,isNil⟩ | ⟨-,back⟩
      · rw [empty,isNil]
        rfl
      · exact back.same
  · have swept := sweep_walk (g := slots child (if v.length > 0 then .value v else .nil)) (f := fun i (_ : Unit) =>
        if (cs i).isNil then .ok (.nil,()) else (expandNode none gen (cs i)).map fun n => (n,())) (fun _ => ()) fun i => by
      induction i using Fin.lastCases with
      | last => rw [slots_last]; exact final.2.2
      | cast i =>
        rw [slots_castSucc]
        rcases below i with ⟨empty,isNil⟩ | ⟨some,back⟩
        · rw [empty,isNil]
          rfl
        · rw [if_neg (by simpa [isNil_eq_false] using some),back.expanded]
          rfl
    simp only [expandNode]
    rw [swept]
  · have items := items_full fits
    rw [encode_full] at fits enough ⊢
    have whole := length_lt_encodeList (((finRange 17).map fun i => childItem (cs i)).flatten)
    obtain ⟨fuel,rfl⟩ : ∃ f, fuel = f+1 := ⟨fuel-1,by omega⟩
    refine decodeNode_items items (fits_payload fits) rest (.inr ⟨by simp,decodeFull_items (fun i rest => ?_) fitsV final.1⟩)
    have part := length_mem_flatten (show childItem (cs i.castSucc) ∈ (finRange 17).map fun i => childItem (cs i) from
      mem_map.mpr ⟨i.castSucc,mem_finRange _,rfl⟩)
    rcases below i with ⟨empty,isNil⟩ | ⟨some,back⟩
    · rw [empty,isNil]
      exact decodeRef_nil _ rest
    · rw [childItem_some some] at part ⊢
      exact back.decoded fuel rest (by omega)
/-- `decodeNode` of the encoding of a stored node is the node that `expandNode` makes of it. -/
theorem stored_readsBack (stored : Storable r) (fits : Fits r.encode) (hash : Option Hash) (gen : UInt16) :
    ∃ n, ReadsBack hash gen r n := by
  induction r generalizing hash with
  | nil | hash _ | value _ => exact stored.elim
  | short key val ih =>
    obtain ⟨k,rfl,⟨term,v,rfl⟩ | ⟨plain,reference⟩⟩ := stored
    · have fits' := fits
      rw [encode_short] at fits'
      have fitsKey := fits_string (fits_item fits' (e := encodeString (hexToCompact k)) (by simp))
      have fitsValue : Fits v := fits_string (fits_item fits' (e := encodeString v) (by simp [Raw.encode]))
      exact ⟨_,short_readsBack (n := .value v) (wellFormed_of_terminated term) (by simp) fits rfl rfl fun fuel _ =>
        decodeShort_value _ term fitsKey fitsValue⟩
    · have fits' := fits
      rw [encode_short] at fits'
      have fitsKey := fits_string (fits_item fits' (e := encodeString (hexToCompact k)) (by simp))
      have fitsRef := fits_item fits' (e := val.encode) (by simp)
      obtain ⟨n,back⟩ := reference_readsBack reference fitsRef fun stored => ih stored fitsRef none
      have some : val ≠ .nil := by
        rintro rfl
        rcases reference with ⟨h,same⟩ | ⟨stored,-⟩
        · cases same
        · exact stored
      exact ⟨_,short_readsBack (wellFormed_of_plain plain) some fits back.same back.expanded fun fuel enough =>
        decodeShort_ref plain fitsKey (back.decoded fuel [] enough)⟩
  | full cs ih =>
    have each (i : Fin 16) : ∃ n, cs i.castSucc = .nil ∧ n = .nil ∨ cs i.castSucc ≠ .nil ∧ RefReadsBack gen (cs i.castSucc) n := by
      rcases stored.1 i.castSucc (Fin.castSucc_ne_last i) with empty | reference
      · exact ⟨.nil,.inl ⟨empty,rfl⟩⟩
      · have some : cs i.castSucc ≠ .nil := by
          intro empty
          rw [empty] at reference
          rcases reference with ⟨h,same⟩ | ⟨stored,-⟩
          · cases same
          · exact stored
        have fitsRef := fits_child fits i.castSucc
        rw [childItem_some some] at fitsRef
        obtain ⟨n,back⟩ := reference_readsBack reference fitsRef fun stored => ih i.castSucc stored fitsRef none
        exact ⟨n,.inr ⟨some,back⟩⟩
    choose child below using each
    rcases stored.2 with empty | ⟨v,some,isValue⟩
    · exact ⟨_,full_readsBack (v := []) fits below (.inl ⟨empty,rfl⟩)⟩
    · exact ⟨_,full_readsBack fits below (.inr ⟨some,isValue⟩)⟩

variable (keccak hash gen) in
/-- The node is what both ways back from the tree lead to. -/
def Rebuilds (t : Entries) (n : Node) : Prop :=
  expandNode hash gen (collapse keccak t) = .ok n ∧
    ∀ fuel rest, (collapse keccak t).encode.length ≤ fuel →
      decodeNode fuel hash ((collapse keccak t).encode ++ rest) gen = .ok n
/-- The hasher stores the nodes of a trie in this form. -/
theorem stored_collapse (c : Canonical t) : Storable (collapse keccak t) := by
  have reference : ∀ {u : Entries}, Canonical u → Storable (collapse keccak u) → (∃ h, refTo keccak (collapse keccak u) = .hash h) ∨
      Storable (refTo keccak (collapse keccak u)) ∧ (refTo keccak (collapse keccak u)).encode.length < 32 := by
    intro u cu stored
    by_cases small : Embedded keccak u
    · rw [refTo_small small]
      exact .inr ⟨stored,small⟩
    · exact .inl ⟨_,refTo_large cu small⟩
  induction c with
  | @leaf k v term => exact ⟨k,rfl,.inl ⟨term,v.1,rfl⟩⟩
  | @ext k cs _ plain below ih => exact ⟨k,rfl,.inr ⟨plain,reference below ih⟩⟩
  | @branch cs inner last _ ih =>
    constructor
    · intro i final
      by_cases empty : cs i = .nil
      · exact .inl (by simp [empty])
      · exact .inr (reference (inner i final empty) (ih i final empty))
    · rcases last with none | ⟨v,is⟩
      · exact .inl (by simp only [none,refTo_nil])
      · exact .inr ⟨v.1,v.2,by simp only [is,refTo_value]⟩
theorem decode_collapse (c : Canonical t) (fits : Fits (collapse keccak t).encode) (hash : Option Hash)
    (gen : UInt16) : ∃ n, Rebuilds keccak hash gen t n := by
  obtain ⟨n,back⟩ := stored_readsBack (stored_collapse c) fits hash gen
  exact ⟨n,back.expanded,back.decoded⟩

open Classical in
variable (keccak) in
/-- The collapsed node that the disk holds under a hash. -/
noncomputable def onDisk (db : Database) (h : Hash) : Option Raw :=
  if found : ∃ t, Canonical t ∧ Fits (collapse keccak t).encode ∧ db.diskdb h = some (collapse keccak t).encode then
    some (collapse keccak found.choose)
  else none
variable (keccak) in
/-- The database with every node of the disk in memory. -/
noncomputable def loaded (db : Database) : Database :=
  { db with dirties := fun h => (db.dirties h).or (onDisk keccak db h) }

theorem onDisk_some {db : Database} {h : Hash} (found : onDisk keccak db h = some r) :
    ∃ t, Canonical t ∧ Fits (collapse keccak t).encode ∧ db.diskdb h = some (collapse keccak t).encode ∧
      r = collapse keccak t := by
  unfold onDisk at found
  split at found
  · rename_i there
    obtain ⟨c,fits,is⟩ := there.choose_spec
    exact ⟨_,c,fits,is,(Option.some.inj found).symm⟩
  · cases found
/-- A database answers for a node on disk as for one in memory. -/
theorem loaded_node (db : Database) (h : Hash) (gen : UInt16) : (loaded keccak db).node h gen = db.node h gen := by
  cases inMemory : db.dirties h with
  | some r => simp [Database.node,loaded,inMemory]
  | none =>
    have same : (loaded keccak db).dirties h = onDisk keccak db h := by simp [loaded,inMemory]
    cases stored : onDisk keccak db h with
    | some r =>
      obtain ⟨t,c,fits,there,rfl⟩ := onDisk_some stored
      obtain ⟨n,expanded,decoded⟩ := decode_collapse c fits (some h) gen
      have read := decoded ((collapse keccak t).encode.length + 1) [] (by omega)
      rw [append_nil] at read
      simp only [Database.node,same,stored,expanded,inMemory,there,read]
      rfl
    | none =>
      simp only [Database.node,same,stored,inMemory]
      rfl
theorem extends_loaded (db : Database) : Extends db (loaded keccak db) := by
  intro h r found
  simp [loaded,found]
end
end Canchain.TrieDecode
