import Canchain.DatabaseEntries
import Canchain.DatabaseFailures

/-!
The size of the node database. In runs whose entries fit the 16 bits in which an insertion
counts, `dirtiesSize` is the size of the entries, and `Cap` stops exactly where what is in use
is within its limit. A blob of 65504 bytes is counted as nothing, and when it goes the size is
negative.
-/
namespace Canchain.TrieDatabase
open Rlp Common TrieNode Tables DoublyLinked List Option Except Database TrieDatabase.System CachedNode
variable {flushed kept : List Hash} {blob : Bytes}

section
variable {rank : Hash → Nat} {list : List Hash} {db db' : Database} {hash : Hash} {n node : CachedNode}

/-- The size of the entries, with their places in the flush list. -/
def inUse (db : Database) : Int := realSize db + ((db.dirties.entries.length - 1)*64 : Nat)
/-- What the entry of this hash uses. -/
def entryUse (db : Database) (hash : Hash) : Int := 64 + ((db.dirties.lookup hash).map CachedNode.weight).getD 0
def listUse (db : Database) (hashes : List Hash) : Int := (hashes.map (entryUse db)).sum

/-- What the runs keep. -/
structure Sized (rank : Hash → Nat) (list : List Hash) (db : Database) : Prop where
  inv : Inv rank [] list db
  exact : Exact db
  room : inUse db ≤ 2^53

theorem entryUse_found (found : db.dirties.lookup hash = some n) : entryUse db hash = 64 + n.weight := by
  simp [entryUse,found]
theorem entryUse_nonneg (db : Database) (hash : Hash) : 0 ≤ entryUse db hash := by
  unfold entryUse
  cases db.dirties.lookup hash with
  | none => simp
  | some n =>
    simp only [map_some,getD_some,weight]
    positivity
theorem listUse_nonneg (db : Database) (hashes : List Hash) : 0 ≤ listUse db hashes := by
  refine sum_nonneg ?_
  intro x member
  obtain ⟨hash,-,rfl⟩ := mem_map.mp member
  exact entryUse_nonneg db hash
theorem listUse_append (db : Database) (front back : List Hash) : listUse db (front ++ back) = listUse db front + listUse db back := by
  simp [listUse]
theorem listUse_cons (db : Database) (hash : Hash) (rest : List Hash) : listUse db (hash :: rest) = entryUse db hash + listUse db rest := by
  simp [listUse]
theorem Inv.keys_perm (inv : Inv rank [] list db) : db.dirties.keys.Perm (Hash.zero :: list) := by
  refine (perm_ext_iff_of_nodup db.dirties.nodupKeys (nodup_cons.mpr ⟨inv.linked.proper,inv.linked.nodup⟩)).mpr ?_
  intro hash
  have known := inv.keys hash
  rw [AList.lookup_isSome] at known
  change hash ∈ db.dirties.keys ↔ _
  rw [← AList.mem_keys,known,mem_cons]
  simp
theorem Inv.length (inv : Inv rank [] list db) : db.dirties.entries.length = list.length + 1 := by
  have := inv.keys_perm.length_eq
  simpa [AList.keys,List.keys] using this
theorem Inv.use (inv : Inv rank [] list db) : inUse db = listUse db list := by
  obtain ⟨m,isMeta,-⟩ := inv.isMeta
  have sum := total_keys weight db.dirties
  rw [(inv.keys_perm.map _).sum_eq,map_cons,sum_cons,isMeta,total_erase _ isMeta] at sum
  simp only [map_some,getD_some] at sum
  have split : ∀ l : List Hash, (l.map (entryUse db)).sum =
      64*l.length + (l.map fun a => ((db.dirties.lookup a).map weight).getD 0).sum := by
    intro l
    induction l with
    | nil => rfl
    | cons a l ih =>
      simp only [map_cons,sum_cons,length_cons,ih,entryUse]
      push_cast
      ring
  rw [inUse,listUse,split,inv.length,Nat.add_sub_cancel,realSize]
  push_cast
  linarith
theorem Sized.capSize (sized : Sized rank list db) : db.capSize = inUse db := by
  have bound := sized.room
  have positive := listUse_nonneg db list
  rw [← sized.inv.use] at positive
  have same : db.dirtiesSize + ((db.dirties.entries.length - 1)*2*32 : Nat) = inUse db := by
    rw [sized.exact.sized,inUse]
    push_cast
    ring
  rw [Database.capSize,same,float64_small (by omega)]

/-! ### `Cap` -/

/-- What a `Cap` leaves in memory: entries were flushed as long as more than the limit was in use. -/
def CapKeeps (limit : Int) (db db' : Database) : Prop :=
  ∃ flushed : List Hash, flushed.Nodup ∧ (∀ hash ∈ flushed, hash ≠ Hash.zero ∧ (db.dirties.lookup hash).isSome) ∧
    (∀ hash, (db'.dirties.lookup hash).isSome ↔ (db.dirties.lookup hash).isSome ∧ hash ∉ flushed) ∧
    inUse db' = inUse db - listUse db flushed ∧
    (inUse db' ≤ limit ∨ ∀ hash, (db'.dirties.lookup hash).isSome → hash = Hash.zero) ∧
    ∀ front hash back, flushed = front ++ hash :: back → limit < inUse db - listUse db front

/-- Only the meta root has no encoding. -/
theorem entryPlan_ok (hash : Hash) (notNil : node.node ≠ .node .nil) : ∃ blob, entryPlan hash node = ⟨[(hash.bytes,blob)],.ok ()⟩ := by
  unfold entryPlan rlp
  split
  · rename_i e failed
    split at failed
    · exact absurd ‹_› notNil
    · cases failed
  · exact ⟨_,rfl⟩
/-- The size with which the loop of `Cap` goes on after these entries. -/
def sizeAfter (db : Database) (size : Int) (hashes : List Hash) : Int :=
  hashes.foldl (fun size hash => float64 (size - (96 + ((db.dirties.lookup hash).map fun n => n.size.toNat).getD 0 : Nat))) size
/-- The loop over the flush list, from an entry on. -/
theorem flushPlan_spec (inv : Inv rank [] list db) (limit : Int) (fuel : Nat) (size : Int) (front rest : List Hash)
    (isList : list = front ++ rest) (enough : rest.length < fuel) :
    ∃ flushed kept, rest = flushed ++ kept ∧ (flushPlan db limit fuel size (rest.headD Hash.zero)).result = .ok (kept.headD Hash.zero) ∧
      (sizeAfter db size flushed ≤ limit ∨ kept = []) ∧
      ∀ before hash after, flushed = before ++ hash :: after → limit < sizeAfter db size before := by
  induction rest generalizing fuel size front with
  | nil =>
    obtain ⟨fuel,rfl⟩ : ∃ k, fuel = k+1 := ⟨fuel-1,by simp at enough; omega⟩
    refine ⟨[],[],rfl,by simp [flushPlan],.inr rfl,?_⟩
    intro before hash after split
    simp at split
  | cons hash rest ih =>
    obtain ⟨fuel,rfl⟩ : ∃ k, fuel = k+1 := ⟨fuel-1,by simp at enough; omega⟩
    have inside : hash ∈ list := by simp [isList]
    have proper : hash ≠ Hash.zero := fun isZero => inv.linked.proper (isZero ▸ inside)
    by_cases more : limit < size
    · obtain ⟨node,found⟩ := isSome_iff_exists.mp ((inv.keys hash).mpr (.inr (.inl inside)))
      obtain ⟨blob,isBlob⟩ := entryPlan_ok hash (inv.entry hash node proper found).proper
      have next : node.flushNext = rest.headD Hash.zero := by
        rw [← nextOf_found found]
        exact inv.linked.next_at isList
      obtain ⟨flushed,kept,split,result,stops,larger⟩ := ih fuel (float64 (size - (96 + node.size.toNat : Nat))) (front ++ [hash])
        (by simp [isList]) (by simp at enough; omega)
      have step (hashes : List Hash) : sizeAfter db size (hash :: hashes) =
          sizeAfter db (float64 (size - (96 + node.size.toNat : Nat))) hashes := by simp [sizeAfter,found]
      refine ⟨hash :: flushed,kept,by simp [split],?_,step flushed ▸ stops,?_⟩
      · simp only [flushPlan,headD_cons,more,proper,ne_eq,not_false_eq_true,and_self,if_true,found,isBlob,Plan.andThen,next]
        exact result
      · intro before other after same
        cases before with
        | nil => exact more
        | cons first before =>
          obtain ⟨rfl,same'⟩ := List.cons.inj same
          rw [step]
          exact larger before other after same'
    · refine ⟨[],hash :: rest,rfl,by simp [flushPlan,more],.inl (not_lt.mp more),?_⟩
      intro before hash after split
      simp at split
/-- As long as the sizes are counted right, so is what is left. -/
theorem Sized.sizeAfter {front : List Hash} (sized : Sized rank list db) (isFront : front <+: list) :
    sizeAfter db (inUse db) front = inUse db - listUse db front := by
  induction front using reverseRecOn with
  | nil => simp [TrieDatabase.sizeAfter,listUse]
  | append_singleton front hash ih =>
    obtain ⟨rest,isList⟩ := isFront
    have inside : hash ∈ list := by simp [← isList]
    have proper : hash ≠ Hash.zero := fun isZero => sized.inv.linked.proper (isZero ▸ inside)
    obtain ⟨node,found⟩ := isSome_iff_exists.mp ((sized.inv.keys hash).mpr (.inr (.inl inside)))
    have cost : ((96 + node.size.toNat : Nat) : Int) = entryUse db hash := by
      rw [entryUse_found found,weight,sized.exact.each hash node proper found]
      push_cast
      ring
    have here : listUse db (front ++ [hash]) = listUse db front + entryUse db hash := by
      rw [listUse_append,listUse_cons]
      simp [listUse]
    have all : inUse db = listUse db (front ++ [hash]) + listUse db rest := by rw [sized.inv.use,← isList,listUse_append]
    have bound := sized.room
    have positive := listUse_nonneg db front
    have positive' := listUse_nonneg db rest
    have before := ih ((prefix_append front _).trans ⟨rest,isList⟩)
    rw [TrieDatabase.sizeAfter] at before
    rw [TrieDatabase.sizeAfter,foldl_append,before,foldl_cons,foldl_nil,found,map_some,getD_some,cost,here,float64_small (by omega)]
    ring

theorem Inv.dropFirst {rest : List Hash} (inv : Inv rank [] (hash :: rest) db) (found : db.dirties.lookup hash = some node) :
    Inv rank [] rest { db.drop hash node with oldest := node.flushNext } ∧
      (Exact db → Exact { db.drop hash node with oldest := node.flushNext }) ∧
      inUse { db.drop hash node with oldest := node.flushNext } = inUse db - entryUse db hash ∧
      ∀ other, other ≠ hash → (db.drop hash node).dirties.lookup other = db.dirties.lookup other := by
  have isFirst : hash = db.oldest := inv.linked.head.symm
  obtain ⟨rest',split,linked⟩ := inv.linked.unlink_first (prevOf db (nextOf db hash)) mem_cons_self isFirst
  obtain ⟨-,rfl⟩ := List.cons.inj split
  have relinked : Relinked db { db with oldest := node.flushNext } := ⟨fun _ => rfl,rfl,rfl,rfl⟩
  have fresh : hash ∉ rest := (nodup_cons.mp inv.linked.nodup).1
  have proper : Hash.zero ∉ [hash] := by
    intro member
    refine inv.linked.proper ?_
    rw [mem_singleton.mp member]
    exact mem_cons_self
  rw [Function.update_eq_self,nextOf_found found] at linked
  have inv₁ : Inv rank [hash] rest { db with oldest := node.flushNext } := by
    refine inv.relink relinked linked ?_ ⟨by simp,proper,by simpa using fresh⟩
    intro other
    simp only [mem_cons,not_mem_nil,or_false]
    exact or_comm
  have inv₂ := inv₁.drop (n := node)
  have notZero : hash ≠ Hash.zero := fun isZero => proper (by simp [isZero])
  have real := realSize_drop (n := node) found notZero
  refine ⟨inv₂,fun exact_ => { exact_.drop (n := node) found notZero rfl with },?_,?_⟩
  · have length := length_drop (n := node) found
    have real' : realSize { db.drop hash node with oldest := node.flushNext } + node.weight = realSize db := real
    have positive : 0 < (db.drop hash node).dirties.entries.length := by
      have := inv₂.length
      change (db.drop hash node).dirties.entries.length = _ at this
      omega
    rw [entryUse_found found,inUse,inUse]
    change realSize { db.drop hash node with oldest := node.flushNext } + (((db.drop hash node).dirties.entries.length - 1)*64 : Nat) = _
    omega
  · intro other differs
    rw [lookup_drop,if_neg differs]
theorem dropOldest_spec (fuel : Nat) (inv : Inv rank [] (flushed ++ kept) db) (enough : flushed.length < fuel) :
    ∃ db', dropOldest (kept.headD Hash.zero) fuel db = .ok db' ∧ Inv rank [] kept db' ∧ (Exact db → Exact db') ∧
      inUse db' = inUse db - listUse db flushed := by
  induction flushed generalizing db fuel with
  | nil =>
    obtain ⟨fuel,rfl⟩ : ∃ k, fuel = k+1 := ⟨fuel-1,by simp at enough; omega⟩
    refine ⟨db,?_,inv,id,by simp [listUse]⟩
    have first : db.oldest = kept.headD Hash.zero := inv.linked.head
    simp [dropOldest,first]
  | cons hash flushed ih =>
    obtain ⟨fuel,rfl⟩ : ∃ k, fuel = k+1 := ⟨fuel-1,by simp at enough; omega⟩
    obtain ⟨node,found⟩ := isSome_iff_exists.mp ((inv.keys hash).mpr (.inr (.inl (by simp))))
    have first : db.oldest = hash := inv.linked.head
    obtain ⟨fresh,-⟩ := nodup_cons.mp inv.linked.nodup
    have notStop : hash ≠ kept.headD Hash.zero := by
      cases kept with
      | nil =>
        intro isZero
        refine inv.linked.proper ?_
        rw [isZero]
        exact mem_cons_self
      | cons k kept =>
        rintro rfl
        exact fresh (by simp)
    obtain ⟨inv₁,exact₁,use,same⟩ := Inv.dropFirst inv found
    obtain ⟨db',done,inv',exact',use'⟩ := ih fuel inv₁ (by simp at enough; omega)
    refine ⟨db',?_,inv',fun exact_ => exact' (exact₁ exact_),?_⟩
    · have found' : db.dirties.lookup db.oldest = some node := by rw [first,found]
      rw [dropOldest,if_neg (first ▸ notStop),found']
      simp only [first]
      exact done
    · have rest : listUse { db.drop hash node with oldest := node.flushNext } flushed = listUse db flushed := by
        unfold listUse
        congr 1
        refine map_congr_left fun other member => ?_
        have differs : other ≠ hash := by
          rintro rfl
          exact fresh (by simp [member])
        simp [entryUse,same other differs]
      rw [use',use,rest,listUse_cons]
      ring
theorem Inv.forgetPreimages (inv : Inv rank [] list db) : Inv rank [] list { db with preimages := ∅, preimagesSize := 0 } :=
  { inv with }
theorem Exact.forgetPreimages (exact_ : Exact db) : Exact { db with preimages := ∅, preimagesSize := 0 } :=
  { exact_ with }
theorem capEnd_spec (inv : Inv rank [] (flushed ++ kept) db) (flushPreimages : Bool) :
    ∃ db', db.capEnd flushPreimages (kept.headD Hash.zero) = .ok db' ∧ Inv rank [] kept db' ∧ (Exact db → Exact db') ∧
      inUse db' = inUse db - listUse db flushed := by
  obtain ⟨db₀,start,inv₀,exact₀,same⟩ : ∃ db₀, (if flushPreimages then { db with preimages := ∅, preimagesSize := 0 } else db) = db₀ ∧
      Inv rank [] (flushed ++ kept) db₀ ∧ (Exact db → Exact db₀) ∧ inUse db₀ = inUse db ∧ listUse db₀ flushed = listUse db flushed := by
    cases flushPreimages with
    | true => exact ⟨_,rfl,inv.forgetPreimages,Exact.forgetPreimages,rfl,rfl⟩
    | false => exact ⟨db,rfl,inv,id,rfl,rfl⟩
  obtain ⟨db₁,done,inv₁,exact₁,use⟩ := dropOldest_spec (db₀.dirties.entries.length+1) inv₀ (by
    have := inv₀.length
    rw [length_append] at this
    omega)
  rw [same.1,same.2] at use
  unfold capEnd
  simp only [start,done]
  split
  · rename_i some_
    have isOldest : db₁.oldest ∈ kept := by
      cases kept with
      | nil => exact absurd inv₁.linked.head some_
      | cons k kept =>
        rw [inv₁.linked.head]
        exact mem_cons_self
    obtain ⟨first,found⟩ := isSome_iff_exists.mp ((inv₁.keys db₁.oldest).mpr (.inr (.inl isOldest)))
    obtain ⟨updated,relinked,next,prev⟩ := setPrev_spec db₁ Hash.zero found
    have inv' : Inv rank [] kept (db₁.put db₁.oldest (setPrev Hash.zero first)) := by
      refine inv₁.relink relinked (inv₁.linked.congr (fun _ _ => congrFun next _) ?_) (fun _ => Iff.rfl) inv₁.apart
      intro a behind
      rw [prev,Function.update_of_ne]
      rintro rfl
      cases kept with
      | nil => cases behind
      | cons k kept =>
        have isFirst : db₁.oldest = k := inv₁.linked.head
        rw [isFirst] at behind
        exact (nodup_cons.mp inv₁.linked.nodup).1 behind
    refine ⟨_,updated,inv',fun exact_ => relinked.shrinks.exact (exact₁ (exact₀ exact_)),?_⟩
    rw [inUse,relinked.length,relinked.real]
    exact use
  · exact ⟨db₁,rfl,inv₁,fun exact_ => exact₁ (exact₀ exact_),use⟩

theorem cap_spec (inv : Inv rank [] list db) (limit : Int) (walk : Walk) :
    ∃ db' list', change walk db (.cap limit) = .ok db' ∧ Inv rank [] list' db' ∧ (Exact db → Exact db') ∧ inUse db' ≤ inUse db ∧
      (Sized rank list db → CapKeeps limit db db') := by
  obtain ⟨flushed,kept,split,result,stops,larger⟩ := flushPlan_spec inv limit (db.dirties.entries.length+1) db.capSize [] list rfl (by
    have := inv.length
    omega)
  rw [← inv.linked.head] at result
  obtain ⟨db',done,inv',exact',use⟩ := capEnd_spec (split ▸ inv) (decide (4*1024*1024 < db.preimagesSize))
  have positive := listUse_nonneg db flushed
  refine ⟨db',kept,?_,inv',exact',by omega,fun sized => ⟨flushed,?_,?_,?_,use,?_,?_⟩⟩
  · simp only [change,capPlan,result]
    exact done
  · have nodup := sized.inv.linked.nodup
    rw [split] at nodup
    exact (nodup_append.mp nodup).1
  · intro hash member
    have inside : hash ∈ list := by simp [split,member]
    exact ⟨fun isZero => sized.inv.linked.proper (isZero ▸ inside),(sized.inv.keys hash).mpr (.inr (.inl inside))⟩
  · intro hash
    have nodup := sized.inv.linked.nodup
    have proper := sized.inv.linked.proper
    rw [split] at nodup proper
    have apart := (nodup_append.mp nodup).2.2
    rw [inv'.keys,sized.inv.keys,split]
    simp only [mem_append,not_mem_nil,or_false] at proper ⊢
    constructor
    · rintro (rfl | inKept)
      · exact ⟨.inl rfl,fun inFlushed => proper (.inl inFlushed)⟩
      · exact ⟨.inr (.inr inKept),fun inFlushed => apart hash inFlushed hash inKept rfl⟩
    · rintro ⟨isZero | inFlushed | inKept,out⟩
      · exact .inl isZero
      · exact absurd inFlushed out
      · exact .inr inKept
  · rw [sized.capSize,sized.sizeAfter ⟨kept,split.symm⟩,← use] at stops
    refine stops.imp_right ?_
    rintro rfl hash there
    simpa using (inv'.keys hash).mp there
  · intro front hash back same
    have rest := larger front hash back same
    rwa [sized.capSize,sized.sizeAfter ((prefix_append front _).trans ⟨kept,by rw [split,same]⟩)] at rest

theorem allPlans_result {plan : Hash → Plan Unit} {hashes : List Hash} (each : ∀ hash ∈ hashes, (plan hash).result = .ok ()) :
    (allPlans plan hashes).result = .ok () := by
  induction hashes with
  | nil => rfl
  | cons hash hashes ih =>
    rw [allPlans,Plan.andThen,each hash mem_cons_self]
    exact ih fun other member => each other (mem_cons_of_mem _ member)
/-- The way down is shorter than the number of entries. -/
theorem commitPlan_ok (inv : Inv rank [] list db) (walk : Walk) (fuel : Nat) (path : List Hash) (nodup : path.Nodup)
    (inside : ∀ p ∈ path, p ∈ list) (below : ∀ p ∈ path, rank hash < rank p) (proper : hash ≠ Hash.zero)
    (enough : db.dirties.entries.length + 1 ≤ fuel + path.length) : (commitPlan walk db fuel hash).result = .ok () := by
  induction fuel generalizing hash path with
  | zero =>
    have few := (nodup.subperm inside).length_le
    have := inv.length
    omega
  | succ fuel ih =>
    rw [commitPlan]
    cases found : db.dirties.lookup hash with
    | none => rfl
    | some node =>
      have entry := inv.entry hash node proper found
      have here : hash ∈ list := by
        rcases (inv.keys hash).mp (by rw [found]; rfl) with isZero | inList | onPath
        · exact absurd isZero proper
        · exact inList
        · cases onPath
      have children : (allPlans (commitPlan walk db fuel) (node.childs walk hash)).result = .ok () := by
        refine allPlans_result fun c isChild => ?_
        have member := (mem_childs walk hash c node).mp isChild
        have lower := entry.lower c member
        refine ih (hash :: path) ?_ ?_ ?_ (inv.outside hash node found c member) (by simp only [length_cons]; omega)
        · exact nodup_cons.mpr ⟨fun onPath => lt_irrefl _ (below hash onPath),nodup⟩
        · intro p onPath
          rcases mem_cons.mp onPath with rfl | onPath
          · exact here
          · exact inside p onPath
        · intro p onPath
          rcases mem_cons.mp onPath with rfl | onPath
          · exact lower
          · exact lower.trans (below p onPath)
      obtain ⟨blob,isBlob⟩ := entryPlan_ok hash entry.proper
      simp [Plan.andThen,children,isBlob]

theorem Shrinks.use (shrinks : Shrinks db db') : inUse db' ≤ inUse db := by
  have real := shrinks.real
  have length := shrinks.length
  unfold inUse
  omega
theorem commit_spec (inv : Inv rank [] list db) (walk : Walk) (proper : hash ≠ Hash.zero) :
    ∃ db' list', change walk db (.commit hash) = .ok db' ∧ Inv rank [] list' db' ∧ Shrinks db db' := by
  have planned : (commitNode walk db hash).result = .ok () :=
    commitPlan_ok inv walk _ [] nodup_nil (by simp) (by simp) proper (by simp)
  obtain ⟨db',list',done,inv',shrinks⟩ :=
    uncacheFrom_spec walk (db.dirties.entries.length+1) inv.forgetPreimages proper (by simp) (by simp)
  refine ⟨db',list',?_,inv',{ shrinks with exact := fun exact_ => shrinks.exact exact_.forgetPreimages }⟩
  simp only [change,planned]
  exact done
theorem dereference_spec (inv : Inv rank [] list db) (walk : Walk) (root : Hash) :
    ∃ db' list', change walk db (.dereference root) = .ok db' ∧ Inv rank [] list' db' ∧ Shrinks db db' := by
  simp only [change,Database.dereference]
  by_cases isZero : root = Hash.zero
  · exact ⟨db,list,if_pos isZero,inv,.refl db⟩
  · rw [if_neg isZero]
    exact dereferenceFrom_spec walk (db.dirties.entries.length+1) inv (.inl rfl) isZero (by simp) (by simp)

/-! ### Runs -/

/-- A call whose references lead to lower ranks, and not to the meta root. -/
def Ordered (rank : Hash → Nat) : System.Call → Prop
  | .insertNode hash n => ∀ c ∈ gatherChildren n, c ≠ Hash.zero ∧ rank c < rank hash
  | .reference child parent => child ≠ Hash.zero ∧ (parent = Hash.zero ∨ rank child < rank parent)
  | _ => True
/-- A call whose entry has less than 65504 bytes, so that 32 more still fit 16 bits; with it
    what is in use is a size that a float64 holds exactly. References lead to lower ranks. -/
def Countable (rank : Hash → Nat) (db : Database) : System.Call → Prop
  | .insertBlob _ blob => blob.length < 65504 ∧ inUse db + (96 + blob.length) ≤ 2^53
  | .insertNode hash n => n.encode.length < 65504 ∧ inUse db + (96 + n.encode.length) ≤ 2^53 ∧
      ∀ c ∈ gatherChildren n, c ≠ Hash.zero ∧ rank c < rank hash
  | .reference child parent => child ≠ Hash.zero ∧ (parent = Hash.zero ∨ rank child < rank parent)
  | _ => True
theorem Countable.ordered {call : System.Call} (countable : Countable rank db call) : Ordered rank call := by
  cases call with
  | insertNode hash n => exact countable.2.2
  | reference child parent => exact countable
  | _ => trivial

theorem insertNew_kept (content : Content) (inv : Inv rank [] list db) (fresh : db.dirties.lookup hash = none)
    (isBlob : content.bytes = blob) (notNil : content ≠ .node .nil) (below : ∀ c ∈ content.gathered, c ≠ Hash.zero ∧ rank c < rank hash) :
    ∃ db' list', db.insertNew hash blob content = .ok db' ∧ Inv rank [] list' db' ∧
      (Exact db → blob.length < 65504 → inUse db + (96 + blob.length) ≤ 2^53 → Exact db' ∧ inUse db' ≤ 2^53) := by
  have length := inv.length
  obtain ⟨db',done,inv',relinked⟩ := insertNew_spec blob inv fresh notNil below
  refine ⟨_,_,done,inv'.resize _,fun exact_ short room => ?_⟩
  obtain ⟨exact',real,more⟩ := insertNew_exact exact_ fresh (inv.fresh_proper fresh) isBlob short
    (by unfold inUse at room; omega) relinked
  refine ⟨exact',?_⟩
  have real' : realSize { db' with dirtiesSize := float64 (db'.dirtiesSize + (32 + UInt16.ofNat blob.length).toNat) } = realSize db' := rfl
  unfold inUse at room ⊢
  rw [real']
  change realSize db' + ((db'.dirties.entries.length - 1)*64 : Nat) ≤ _
  omega
theorem insertBlob_spec (inv : Inv rank [] list db) (walk : Walk) (hash : Hash) (blob : Bytes) :
    ∃ db' list', change walk db (.insertBlob hash blob) = .ok db' ∧ Inv rank [] list' db' ∧
      (Sized rank list db → Countable rank db (.insertBlob hash blob) → Exact db' ∧ inUse db' ≤ 2^53) := by
  simp only [change,Database.insertBlob]
  split
  · exact ⟨db,list,rfl,inv,fun sized _ => ⟨sized.exact,sized.room⟩⟩
  · rename_i fresh
    obtain ⟨db',list',done,inv',counts⟩ := insertNew_kept (.raw blob) inv (not_isSome_iff_eq_none.mp fresh) rfl (by simp)
      (by simp [Content.gathered])
    exact ⟨db',list',done,inv',fun sized countable => counts sized.exact countable.1 countable.2⟩
theorem insertNode_spec (inv : Inv rank [] list db) (walk : Walk) {n : Raw} (simplifies : n.simplifies = true)
    (ordered : Ordered rank (.insertNode hash n)) :
    ∃ db' list', change walk db (.insertNode hash n) = .ok db' ∧ Inv rank [] list' db' ∧
      (Sized rank list db → Countable rank db (.insertNode hash n) → Exact db' ∧ inUse db' ≤ 2^53) := by
  simp only [change,Database.insertNode,simplifies,if_true]
  split
  · exact ⟨db,list,rfl,inv,fun sized _ => ⟨sized.exact,sized.room⟩⟩
  · rename_i fresh
    have notNil : Content.node n ≠ .node .nil := by
      intro isNil
      obtain rfl := Content.node.inj isNil
      cases simplifies
    obtain ⟨db',list',done,inv',counts⟩ := insertNew_kept (.node n) inv (not_isSome_iff_eq_none.mp fresh) rfl notNil ordered
    exact ⟨db',list',done,inv',fun sized countable => counts sized.exact countable.1 countable.2.1⟩
theorem reference_kept {child parent : Hash} (inv : Inv rank [] list db)
    (below : child ≠ Hash.zero ∧ (parent = Hash.zero ∨ rank child < rank parent)) (done : db.reference child parent = .ok db') :
    Inv rank [] list db' ∧ Shrinks db db' := by
  unfold Database.reference at done
  split at done
  · cases done
    exact ⟨inv,.refl db⟩
  rename_i node found
  split at done
  · cases done
  split at done
  · cases done
    exact ⟨inv,.refl db⟩
  · have inv₁ := inv.touch found (n := { node with parents := node.parents + 1 }) ⟨rfl,rfl,rfl⟩ fun _ => .inl
    unfold update at done
    split at done
    · cases done
    rename_i p found'
    cases done
    refine ⟨inv₁.touch found' (n := p.refer child) ⟨rfl,rfl,rfl⟩ ?_,
      (shrinks_put (n := { node with parents := node.parents + 1 }) found ⟨rfl,rfl⟩).trans (shrinks_put (n := p.refer child) found' ⟨rfl,rfl⟩)⟩
    intro c member
    rcases refer_refs p child c member with rfl | before
    · exact .inr ⟨below.1,fun proper => below.2.resolve_left proper⟩
    · exact .inl before
/-- A call keeps the flush list and, if it is countable, the sizes right. -/
theorem change_kept {call : System.Call} {walk : Walk} (inv : Inv rank [] list db) (ordered : Ordered rank call)
    (changed : change walk db call = .ok db') : ∃ list', Inv rank [] list' db' ∧
      (Sized rank list db → Countable rank db call → Exact db' ∧ inUse db' ≤ 2^53) := by
  have shrunk (shrinks : Shrinks db db') (sized : Sized rank list db) : Exact db' ∧ inUse db' ≤ 2^53 :=
    ⟨shrinks.exact sized.exact,shrinks.use.trans sized.room⟩
  cases call with
  | insertBlob hash blob =>
    obtain ⟨db₁,list₁,done,kept⟩ := insertBlob_spec inv walk hash blob
    obtain rfl := ok.inj (done.symm.trans changed)
    exact ⟨list₁,kept⟩
  | insertNode hash n =>
    cases simplifies : n.simplifies with
    | true =>
      obtain ⟨db₁,list₁,done,kept⟩ := insertNode_spec inv walk simplifies ordered
      obtain rfl := ok.inj (done.symm.trans changed)
      exact ⟨list₁,kept⟩
    | false =>
      simp only [change,Database.insertNode,simplifies,Bool.false_eq_true,if_false] at changed
      split at changed
      · cases changed
        exact ⟨list,inv,fun sized _ => ⟨sized.exact,sized.room⟩⟩
      · cases changed
  | insertPreimage hash preimage =>
    cases changed
    unfold Database.insertPreimage
    split
    · exact ⟨list,inv,fun sized _ => ⟨sized.exact,sized.room⟩⟩
    · exact ⟨list,{ inv with },fun sized _ => ⟨{ sized.exact with },sized.room⟩⟩
  | reference child parent =>
    obtain ⟨inv',shrinks⟩ := reference_kept inv ordered changed
    exact ⟨list,inv',fun sized _ => shrunk shrinks sized⟩
  | dereference root =>
    obtain ⟨db₁,list₁,done,inv',shrinks⟩ := dereference_spec inv walk root
    obtain rfl := ok.inj (done.symm.trans changed)
    exact ⟨list₁,inv',fun sized _ => shrunk shrinks sized⟩
  | cap limit =>
    obtain ⟨db₁,list₁,done,inv',exact',less,-⟩ := cap_spec inv limit walk
    obtain rfl := ok.inj (done.symm.trans changed)
    exact ⟨list₁,inv',fun sized _ => ⟨exact' sized.exact,less.trans sized.room⟩⟩
  | commit node =>
    by_cases isZero : node = Hash.zero
    · obtain ⟨m,isMeta,empty⟩ := inv.isMeta
      subst isZero
      simp only [change,commitNode,commitPlan,isMeta] at changed
      cases ends : ((allPlans (commitPlan walk db db.dirties.entries.length) (m.childs walk Hash.zero)).andThen
          fun _ => entryPlan Hash.zero m).result with
      | error e =>
        rw [ends] at changed
        cases changed
      | ok a =>
        -- the meta root has no encoding
        obtain ⟨-,-,none,-⟩ := andThen_ok ends
        simp only [entryPlan,rlp,empty] at none
        cases none
    · obtain ⟨db₁,list₁,done,inv',shrinks⟩ := commit_spec inv walk isZero
      obtain rfl := ok.inj (done.symm.trans changed)
      exact ⟨list₁,inv',fun sized _ => shrunk shrinks sized⟩

end

/-- The states of the runs in which no node is below itself, from an empty database and any disk. -/
inductive Ran (rank : Hash → Nat) : System → Prop
  | start (disk : Bytes → Option Bytes) : Ran rank ⟨newDatabase,disk,0,0⟩
  | step {s s' : System} {r : Result} (faults : Nat → Option Nat) (walk : Walk) (call : System.Call) (before : Ran rank s)
      (ordered : Ordered rank call) (ended : System.step faults walk s call = .ok r) (left : r = .done s' ∨ r = .failed s') : Ran rank s'
/-- The states of the runs whose calls are all countable, from an empty database and any disk. -/
inductive Reached (rank : Hash → Nat) : System → Prop
  | start (disk : Bytes → Option Bytes) : Reached rank ⟨newDatabase,disk,0,0⟩
  | done {s s' : System} (faults : Nat → Option Nat) (walk : Walk) (call : System.Call) (before : Reached rank s)
      (countable : Countable rank s.db call) (ended : System.step faults walk s call = .ok (.done s')) : Reached rank s'
  | failed {s s' : System} (faults : Nat → Option Nat) (walk : Walk) (call : System.Call) (before : Reached rank s)
      (countable : Countable rank s.db call) (ended : System.step faults walk s call = .ok (.failed s')) : Reached rank s'

/-- A call that ends leaves the database as it is, or changes it. -/
theorem step_left {faults : Nat → Option Nat} {walk : Walk} {s s' : System} {call : System.Call} {r : Result}
    (ended : System.step faults walk s call = .ok r) (left : r = .done s' ∨ r = .failed s') :
    s'.db = s.db ∨ change walk s.db call = .ok s'.db := by
  rcases step_ok ended with ⟨s'',rfl,changed⟩ | ⟨s'',rfl,same⟩ | rfl
  · obtain ⟨⟨⟩⟩ | ⟨⟨⟩⟩ := left
    exact .inr changed
  · obtain ⟨⟨⟩⟩ | ⟨⟨⟩⟩ := left
    exact .inl same
  · obtain ⟨⟨⟩⟩ | ⟨⟨⟩⟩ := left
theorem Ran.inv {rank : Hash → Nat} {s : System} (ran : Ran rank s) : ∃ list, Inv rank [] list s.db := by
  induction ran with
  | start disk => exact ⟨[],inv_newDatabase⟩
  | step faults walk call before ordered ended left ih =>
    obtain ⟨list,inv⟩ := ih
    rcases step_left ended left with same | changed
    · exact ⟨list,same ▸ inv⟩
    · obtain ⟨list',inv',-⟩ := change_kept inv ordered changed
      exact ⟨list',inv'⟩
theorem sized_newDatabase (rank : Hash → Nat) : Sized rank [] newDatabase := by
  have real : realSize newDatabase = 0 := by decide
  refine ⟨inv_newDatabase,⟨?_,real.symm,by rw [real]; decide⟩,by decide⟩
  intro hash n proper found
  exact absurd (newDatabase_only found).1 proper
theorem Reached.sized {rank : Hash → Nat} {s : System} (reached : Reached rank s) : ∃ list, Sized rank list s.db := by
  have next {walk : Walk} {call : System.Call} {s s' : System} (countable : Countable rank s.db call)
      (after : s'.db = s.db ∨ change walk s.db call = .ok s'.db) (ih : ∃ list, Sized rank list s.db) : ∃ list, Sized rank list s'.db := by
    obtain ⟨list,sized⟩ := ih
    rcases after with same | changed
    · exact ⟨list,same ▸ sized⟩
    · obtain ⟨list',inv',counts⟩ := change_kept sized.inv countable.ordered changed
      exact ⟨list',inv',(counts sized countable).1,(counts sized countable).2⟩
  induction reached with
  | start disk => exact ⟨[],sized_newDatabase rank⟩
  | done faults walk call before countable ended ih => exact next countable (step_left ended (.inl rfl)) ih
  | failed faults walk call before countable ended ih => exact next countable (step_left ended (.inr rfl)) ih

/-- The calls that do not refer to the meta root or to a node without a simple form. -/
def Simple : System.Call → Prop
  | .insertNode _ n => n.simplifies = true
  | .reference _ _ => False
  | .commit hash => hash ≠ Hash.zero
  | _ => True
/-- In every state of such a run the flush list leads from the oldest entry to the newest one,
    over all entries but the meta root; the links back lead the same way, and no call misses an
    entry that it goes to over the list. -/
theorem flush_list_intact {rank : Hash → Nat} {s : System} (ran : Ran rank s) :
    (∃ list, Linked Hash.zero (nextOf s.db) (prevOf s.db) s.db.oldest s.db.newest list ∧
      ∀ hash, (s.db.dirties.lookup hash).isSome ↔ hash = Hash.zero ∨ hash ∈ list) ∧
    (s.db.oldest = Hash.zero ↔ ∀ hash, (s.db.dirties.lookup hash).isSome → hash = Hash.zero) ∧
    ∀ faults walk call, Ordered rank call → Simple call → ∃ r, System.step faults walk s call = .ok r := by
  obtain ⟨list,inv⟩ := ran.inv
  have keys (hash : Hash) : (s.db.dirties.lookup hash).isSome ↔ hash = Hash.zero ∨ hash ∈ list := by simpa using inv.keys hash
  refine ⟨⟨list,inv.linked,keys⟩,?_,fun faults walk call ordered simple => ?_⟩
  · rw [inv.linked.first_nil]
    constructor
    · rintro rfl hash there
      simpa using (keys hash).mp there
    · intro only
      refine eq_nil_iff_forall_not_mem.mpr fun hash member => inv.linked.proper ?_
      rwa [← only hash ((keys hash).mpr (.inr member))]
  · cases call with
    | insertBlob hash blob =>
      obtain ⟨db',-,done,-⟩ := insertBlob_spec inv walk hash blob
      exact step_returns faults done
    | insertNode hash n =>
      obtain ⟨db',-,done,-⟩ := insertNode_spec inv walk simple ordered
      exact step_returns faults done
    | insertPreimage hash preimage => exact step_returns faults (show change walk s.db _ = .ok _ from rfl)
    | reference child parent => exact simple.elim
    | dereference root =>
      obtain ⟨db',-,done,-⟩ := dereference_spec inv walk root
      exact step_returns faults done
    | cap limit =>
      obtain ⟨db',-,done,-⟩ := cap_spec inv limit walk
      exact step_returns faults done
    | commit node =>
      obtain ⟨db',-,done,-⟩ := commit_spec inv walk simple
      exact step_returns faults done
theorem Reached.ran {rank : Hash → Nat} {s : System} (reached : Reached rank s) : Ran rank s := by
  induction reached with
  | start disk => exact .start disk
  | done faults walk call before countable ended ih => exact .step faults walk call ih countable.ordered ended (.inl rfl)
  | failed faults walk call before countable ended ih => exact .step faults walk call ih countable.ordered ended (.inr rfl)
instance decidableCountable (rank : Hash → Nat) (db : Database) (call : System.Call) : Decidable (Countable rank db call) :=
  match call with
  | .insertBlob _ _ => inferInstanceAs (Decidable (_ ∧ _))
  | .insertNode _ _ => inferInstanceAs (Decidable (_ ∧ _ ∧ _))
  | .reference _ _ => inferInstanceAs (Decidable (_ ∧ _))
  | .insertPreimage _ _ | .dereference _ | .cap _ | .commit _ => .isTrue trivial
/-- A run of countable calls none of which fails. -/
def runDone (rank : Hash → Nat) : List System.Call → System → Option System
  | [], s => some s
  | call :: calls, s =>
    if Countable rank s.db call then
      match System.step (fun _ => none) inOrder s call with
      | .ok (.done s') => runDone rank calls s'
      | _ => none
    else none
theorem runDone_reached {rank : Hash → Nat} {calls : List System.Call} {s s' : System} (reached : Reached rank s)
    (ran : runDone rank calls s = some s') : Reached rank s' := by
  induction calls generalizing s with
  | nil =>
    cases ran
    exact reached
  | cons call calls ih =>
    rw [runDone] at ran
    split at ran
    · next countable =>
      split at ran
      · next ended => exact ih (.done _ _ call reached countable ended) ran
      · cases ran
    · cases ran
def hashOf (n : UInt8) : Hash := ⟨replicate 31 0 ++ [n],rfl⟩
def lastByte (hash : Hash) : Nat := (hash.bytes.getLastD 0).toNat
/-- Two nodes above a blob and one above them; a node in the middle of the list goes, and then the blob. -/
def sampleCalls : List System.Call :=
  [.insertBlob (hashOf 1) [1,2,3],.insertNode (hashOf 2) (.short [1] (.hash (hashOf 1))),
    .insertNode (hashOf 3) (.short [2] (.hash (hashOf 1))),.insertNode (hashOf 4) (.short [3] (.hash (hashOf 3))),
    .reference (hashOf 2) Hash.zero,.reference (hashOf 4) Hash.zero,.dereference (hashOf 2),.cap 300]
theorem sample_runs : ∃ s, runDone lastByte sampleCalls ⟨newDatabase,fun _ => none,0,0⟩ = some s ∧
    (s.db.oldest,s.db.newest,s.db.dirtiesSize) = (hashOf 3,hashOf 4,134) := by
  rw [← Option.map_eq_some_iff (f := fun s : System => (s.db.oldest,s.db.newest,s.db.dirtiesSize))]
  decide +kernel
theorem flush_list_capped : ∃ s, runDone lastByte sampleCalls ⟨newDatabase,fun _ => none,0,0⟩ = some s ∧
    ∃ list, Linked Hash.zero (nextOf s.db) (prevOf s.db) (hashOf 3) (hashOf 4) list ∧
      ∀ hash, (s.db.dirties.lookup hash).isSome ↔ hash = Hash.zero ∨ hash ∈ list := by
  obtain ⟨s,ran,data⟩ := sample_runs
  obtain ⟨intact,-⟩ := flush_list_intact (runDone_reached (.start _) ran).ran
  obtain ⟨first,last⟩ := Prod.mk.inj data
  rw [first,(Prod.mk.inj last).1] at intact
  exact ⟨s,ran,intact⟩

/-- In every state of such a run the size is that of the entries, and not negative; removals
    and flushes return, unless they wait for the lock, and `Cap` flushes exactly as long as
    more than its limit is really in use. -/
theorem size_is_exact {rank : Hash → Nat} {s : System} (reached : Reached rank s) :
    s.db.dirtiesSize = realSize s.db ∧ 0 ≤ s.db.dirtiesSize ∧
    (∀ faults walk hash, ∃ r, System.step faults walk s (.dereference hash) = .ok r) ∧
    (∀ faults walk limit, ∃ r, System.step faults walk s (.cap limit) = .ok r) ∧
    (∀ faults walk hash, hash ≠ Hash.zero → ∃ r, System.step faults walk s (.commit hash) = .ok r) ∧
    ∀ faults walk limit s', System.step faults walk s (.cap limit) = .ok (.done s') → CapKeeps limit s.db s'.db := by
  obtain ⟨list,sized⟩ := reached.sized
  refine ⟨sized.exact.sized,sized.exact.sized ▸ realSize_nonneg s.db,?_,?_,?_,?_⟩
  · intro faults walk hash
    obtain ⟨db',-,done,-⟩ := dereference_spec sized.inv walk hash
    exact step_returns faults done
  · intro faults walk limit
    obtain ⟨db',-,done,-⟩ := cap_spec sized.inv limit walk
    exact step_returns faults done
  · intro faults walk hash proper
    obtain ⟨db',-,done,-⟩ := commit_spec sized.inv walk proper
    exact step_returns faults done
  · intro faults walk limit s' ended
    obtain ⟨db',-,done,-,-,-,keeps⟩ := cap_spec sized.inv limit walk
    rcases step_ok ended with ⟨s'',isDone,changed⟩ | ⟨s'',isFailed,-⟩ | isBlocked
    · cases isDone
      obtain rfl := ok.inj (done.symm.trans changed)
      exact keeps sized
    · cases isFailed
    · cases isBlocked

theorem size_is_exact_capped : ∃ s, runDone lastByte sampleCalls ⟨newDatabase,fun _ => none,0,0⟩ = some s ∧ realSize s.db = 134 ∧
    ∀ s', System.step (fun _ => none) inOrder s (.cap 0) = .ok (.done s') → CapKeeps 0 s.db s'.db := by
  obtain ⟨s,ran,data⟩ := sample_runs
  obtain ⟨size,-,-,-,-,caps⟩ := size_is_exact (runDone_reached (.start _) ran)
  exact ⟨s,ran,size.symm.trans (congrArg (·.2.2) data),caps (fun _ => none) inOrder 0⟩

/-- The database with a blob of 65504 bytes, counted as nothing. -/
def largeBlob (blob : Bytes) : Database := ⟨AList.insert sampleHash ⟨.raw blob,65504,0,∅,Hash.zero,Hash.zero⟩
  (AList.insert Hash.zero metaRoot ∅),sampleHash,sampleHash,∅,0,0⟩
theorem insert_largeBlob (length : blob.length = 65504) :
    newDatabase.insertBlob sampleHash blob = .ok (largeBlob blob) := by
  have size : float64 (0 + ((32 + UInt16.ofNat 65504).toNat : Int)) = 0 := by decide
  change newDatabase.insertNew sampleHash blob (.raw blob) = _
  rw [insertNew,length]
  change Except.ok (⟨AList.insert sampleHash ⟨.raw blob,65504,0,∅,Hash.zero,Hash.zero⟩ (AList.insert Hash.zero metaRoot ∅),
    sampleHash,sampleHash,∅,float64 (0 + ((32 + UInt16.ofNat 65504).toNat : Int)),0⟩ : Database) = _
  rw [size]
  rfl
theorem dereference_largeBlob (blob : Bytes) : step (fun _ => none) inOrder ⟨largeBlob blob,fun _ => none,0,0⟩ (.dereference sampleHash) =
    .ok (.done ⟨⟨AList.insert Hash.zero metaRoot ∅,Hash.zero,sampleHash,∅,-65536,0⟩,fun _ => none,0,0⟩) := by
  have removed : (largeBlob blob).dereference inOrder sampleHash =
    .ok ⟨AList.insert Hash.zero metaRoot ∅,Hash.zero,sampleHash,∅,-65536,0⟩ := rfl
  simp only [step,locked,removed]
  rfl
theorem largeBlob_runs (length : blob.length = 65504) : ∃ s₁ s₂,
    step (fun _ => none) inOrder ⟨newDatabase,fun _ => none,0,0⟩ (.insertBlob sampleHash blob) = .ok (.done s₁) ∧
    s₁.db.dirtiesSize = 0 ∧ realSize s₁.db = 65536 ∧
    step (fun _ => none) inOrder s₁ (.dereference sampleHash) = .ok (.done s₂) ∧
    s₂.db.dirtiesSize = -65536 ∧ realSize s₂.db = 0 := by
  refine ⟨⟨largeBlob blob,fun _ => none,0,0⟩,_,?_,rfl,?_,dereference_largeBlob _,rfl,by decide⟩
  · simp only [step,locked,insert_largeBlob length]
    rfl
  · have real : realSize (largeBlob blob) = 32 + (blob.length : Int) := rfl
    rw [real,length]
    rfl
/-- The size of such a blob and its hash is 0 in 16 bits, but all of it is subtracted when the blob goes. -/
theorem size_is_negative : ∃ s₁ s₂,
    System.step (fun _ => none) inOrder ⟨newDatabase,fun _ => none,0,0⟩ (.insertBlob sampleHash (List.replicate 65504 0)) = .ok (.done s₁) ∧
    s₁.db.dirtiesSize = 0 ∧ realSize s₁.db = 65536 ∧
    System.step (fun _ => none) inOrder s₁ (.dereference sampleHash) = .ok (.done s₂) ∧
    s₂.db.dirtiesSize = -65536 ∧ realSize s₂.db = 0 :=
  largeBlob_runs length_replicate

end Canchain.TrieDatabase
