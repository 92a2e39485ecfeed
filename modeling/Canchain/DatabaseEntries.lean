import Canchain.TrieDatabase
import Canchain.DoublyLinked
import Mathlib.Tactic.Linarith

/-!
The entries of the node database: the flush list links all of them but the meta root, and
`dirtiesSize` is the sum of their sizes. While a trie is taken out, the entries on the way
down (`path`) are out of the list but still in memory. References lead downwards in rank, so
no removal panics or runs for ever.
-/
namespace Canchain.TrieDatabase
open Rlp Common TrieNode Tables DoublyLinked List Function UInt16 AList Database Option CachedNode
set_option linter.unusedSectionVars false

/-- Sizes are exact up to 2^53. -/
theorem float64_small {x : Int} (small : x.natAbs ≤ 2^53) : float64 x = x := if_pos small
variable {db'' : Database} {n' : CachedNode} {f : Hash → Database → Except Fault Database} {content : Content}

section
variable {db db' : Database} {hash child parent : Hash} {n node : CachedNode}

theorem lookup_put (db : Database) (hash : Hash) (n : CachedNode) (other : Hash) :
    (db.put hash n).dirties.lookup other = if other = hash then some n else db.dirties.lookup other := by
  by_cases same : other = hash
  · subst same
    simp [put,lookup_insert]
  · simp [put,lookup_insert_ne same,same]
theorem lookup_drop (db : Database) (hash : Hash) (n : CachedNode) (other : Hash) :
    (db.drop hash n).dirties.lookup other = if other = hash then none else db.dirties.lookup other := by
  by_cases same : other = hash
  · subst same
    simp [Database.drop,lookup_erase]
  · simp [Database.drop,lookup_erase_ne same,same]
theorem found_put (found : (db.put hash n).dirties.lookup child = some node) :
    child = hash ∧ node = n ∨ db.dirties.lookup child = some node := by
  rw [lookup_put] at found
  split at found
  · exact .inl ⟨‹_›,(some.inj found).symm⟩
  · exact .inr found
theorem found_drop (found : (db.drop hash n).dirties.lookup child = some node) : db.dirties.lookup child = some node := by
  rw [lookup_drop] at found
  split at found
  · cases found
  · exact found
/-- The next entry of the flush list. -/
def nextOf (db : Database) (hash : Hash) : Hash := ((db.dirties.lookup hash).map (·.flushNext)).getD Hash.zero
def prevOf (db : Database) (hash : Hash) : Hash := ((db.dirties.lookup hash).map (·.flushPrev)).getD Hash.zero
theorem nextOf_found (found : db.dirties.lookup hash = some n) : nextOf db hash = n.flushNext := by simp [nextOf,found]
theorem prevOf_found (found : db.dirties.lookup hash = some n) : prevOf db hash = n.flushPrev := by simp [prevOf,found]
theorem nextOf_put (db : Database) (hash : Hash) (n : CachedNode) :
    nextOf (db.put hash n) = update (nextOf db) hash n.flushNext := by
  funext other
  rw [update_apply,nextOf,lookup_put]
  split <;> rfl
theorem prevOf_put (db : Database) (hash : Hash) (n : CachedNode) :
    prevOf (db.put hash n) = update (prevOf db) hash n.flushPrev := by
  funext other
  rw [update_apply,prevOf,lookup_put]
  split <;> rfl
theorem nextOf_kept (found : db.dirties.lookup hash = some node) (same : n.flushNext = node.flushNext) :
    nextOf (db.put hash n) = nextOf db := by
  rw [nextOf_put,same,← nextOf_found found,update_eq_self]
theorem prevOf_kept (found : db.dirties.lookup hash = some node) (same : n.flushPrev = node.flushPrev) :
    prevOf (db.put hash n) = prevOf db := by
  rw [prevOf_put,same,← prevOf_found found,update_eq_self]

/-- What an entry takes: the hash and the bytes. -/
def CachedNode.weight (n : CachedNode) : Int := 32 + n.node.bytes.length
/-- The size of all entries but the meta root. -/
def realSize (db : Database) : Int := total CachedNode.weight (db.dirties.erase Hash.zero)

theorem insert_erase_zero (s : AList fun _ : Hash => CachedNode) (proper : hash ≠ Hash.zero) :
    (s.insert hash n).erase Hash.zero = (s.erase Hash.zero).insert hash n := by
  apply AList.ext
  change kerase Hash.zero (⟨hash,n⟩ :: kerase hash s.entries) = ⟨hash,n⟩ :: kerase hash (kerase Hash.zero _)
  rw [kerase_cons_ne (Ne.symm proper),kerase_comm]
theorem realSize_put (found : db.dirties.lookup hash = some node) (same : n.weight = node.weight) : realSize (db.put hash n) = realSize db := by
  unfold realSize put
  by_cases isZero : hash = Hash.zero
  · subst isZero
    have erased : (db.dirties.insert Hash.zero n).erase Hash.zero = db.dirties.erase Hash.zero := by
      apply AList.ext
      change kerase Hash.zero (⟨Hash.zero,n⟩ :: kerase Hash.zero db.dirties.entries) = _
      exact kerase_cons_eq (s := ⟨Hash.zero,n⟩) rfl
    rw [erased]
  · have found' : (db.dirties.erase Hash.zero).lookup hash = some node := by rw [lookup_erase_ne isZero,found]
    rw [insert_erase_zero _ isZero,total_insert,same,total_erase _ found']
theorem realSize_drop (found : db.dirties.lookup hash = some node) (proper : hash ≠ Hash.zero) :
    realSize (db.drop hash n) + node.weight = realSize db := by
  have found' : (db.dirties.erase Hash.zero).lookup hash = some node := by rw [lookup_erase_ne proper,found]
  have swap : (db.dirties.erase hash).erase Hash.zero = (db.dirties.erase Hash.zero).erase hash := erase_erase _ _ _
  rw [realSize,realSize,Database.drop,swap,total_erase _ found',add_comm]
theorem realSize_new (fresh : db.dirties.lookup hash = none) (proper : hash ≠ Hash.zero) :
    realSize (db.put hash n) = realSize db + n.weight := by
  have fresh' : (db.dirties.erase Hash.zero).lookup hash = none := by rw [lookup_erase_ne proper,fresh]
  rw [realSize,put,insert_erase_zero _ proper,total_insert,erase_fresh fresh',add_comm]
  rfl
theorem weight_pos (n : CachedNode) : 0 ≤ n.weight := by
  unfold weight
  positivity
theorem total_weight (s : AList fun _ : Hash => CachedNode) : 0 ≤ total weight s := by
  refine sum_nonneg fun x member => ?_
  obtain ⟨entry,-,rfl⟩ := mem_map.mp member
  exact weight_pos entry.2
theorem realSize_nonneg (db : Database) : 0 ≤ realSize db := total_weight _
theorem weight_le (found : db.dirties.lookup hash = some n) (proper : hash ≠ Hash.zero) : n.weight ≤ realSize db := by
  have split := realSize_drop (n := n) found proper
  have rest := realSize_nonneg (db.drop hash n)
  linarith

/-- The hashes an entry refers to. -/
def CachedNode.refs (n : CachedNode) : List Hash := n.children.keys ++ n.node.gathered
theorem mem_childs (walk : Walk) (hash c : Hash) (n : CachedNode) : c ∈ n.childs walk hash ↔ c ∈ n.refs := by
  simp [childs,refs,(walk.isChildren hash n.children).mem_iff]
theorem refer_refs (n : CachedNode) (child c : Hash) (member : c ∈ (n.refer child).refs) : c = child ∨ c ∈ n.refs := by
  simp only [refs,mem_append] at member ⊢
  rcases member with isKey | gathered
  · rcases (mem_insert _).mp (AList.mem_keys.mpr isKey) with isIt | before
    · exact .inl isIt
    · exact .inr (.inl (AList.mem_keys.mp before))
  · exact .inr (.inr gathered)

/-- An entry that is not the meta root. -/
structure Entry (rank : Hash → Nat) (hash : Hash) (n : CachedNode) : Prop where
  proper : n.node ≠ .node .nil
  lower : ∀ c ∈ n.refs, rank c < rank hash
structure Inv (rank : Hash → Nat) (path list : List Hash) (db : Database) : Prop where
  isMeta : ∃ m, db.dirties.lookup Hash.zero = some m ∧ m.node = .node .nil
  linked : Linked Hash.zero (nextOf db) (prevOf db) db.oldest db.newest list
  keys : ∀ hash, (db.dirties.lookup hash).isSome ↔ hash = Hash.zero ∨ hash ∈ list ∨ hash ∈ path
  apart : path.Nodup ∧ Hash.zero ∉ path ∧ ∀ hash ∈ path, hash ∉ list
  entry : ∀ hash n, hash ≠ Hash.zero → db.dirties.lookup hash = some n → Entry rank hash n
  outside : ∀ hash n, db.dirties.lookup hash = some n → ∀ c ∈ n.refs, c ≠ Hash.zero
/-- The sizes are counted right. -/
structure Exact (db : Database) : Prop where
  each : ∀ hash n, hash ≠ Hash.zero → db.dirties.lookup hash = some n → n.size.toNat = n.node.bytes.length
  sized : db.dirtiesSize = realSize db
  small : realSize db ≤ 2^53

variable {rank : Hash → Nat} {path list : List Hash}

/-- What the invariant says of an entry. -/
def Good (rank : Hash → Nat) (hash : Hash) (n : CachedNode) : Prop :=
  (n.node = .node .nil ↔ hash = Hash.zero) ∧ ∀ c ∈ n.refs, c ≠ Hash.zero ∧ (hash ≠ Hash.zero → rank c < rank hash)
theorem Inv.good (inv : Inv rank path list db) (found : db.dirties.lookup hash = some n) : Good rank hash n := by
  refine ⟨⟨fun empty => ?_,?_⟩,fun c member => ⟨inv.outside hash n found c member,fun proper => (inv.entry hash n proper found).lower c member⟩⟩
  · by_contra proper
    exact (inv.entry hash n proper found).proper empty
  · rintro rfl
    obtain ⟨m,isMeta,empty⟩ := inv.isMeta
    rw [some.inj (found.symm.trans isMeta)]
    exact empty
theorem inv_of (good : ∀ hash n, db.dirties.lookup hash = some n → Good rank hash n)
    (linked : Linked Hash.zero (nextOf db) (prevOf db) db.oldest db.newest list)
    (keys : ∀ hash, (db.dirties.lookup hash).isSome ↔ hash = Hash.zero ∨ hash ∈ list ∨ hash ∈ path)
    (apart : path.Nodup ∧ Hash.zero ∉ path ∧ ∀ hash ∈ path, hash ∉ list) : Inv rank path list db := by
  obtain ⟨m,isMeta⟩ := isSome_iff_exists.mp ((keys Hash.zero).mpr (.inl rfl))
  refine ⟨⟨m,isMeta,(good _ m isMeta).1.mpr rfl⟩,linked,keys,apart,?_,fun hash n found c member => ((good hash n found).2 c member).1⟩
  intro hash n proper found
  obtain ⟨empty,refs⟩ := good hash n found
  exact ⟨fun isNil => proper (empty.mp isNil),fun c member => (refs c member).2 proper⟩

/-- The entry is changed, but not its node, its size or its place in the flush list; it refers to no more than before. -/
theorem Inv.touch (inv : Inv rank path list db) (found : db.dirties.lookup hash = some node)
    (same : n.node = node.node ∧ n.flushNext = node.flushNext ∧ n.flushPrev = node.flushPrev)
    (refs : ∀ c ∈ n.refs, c ∈ node.refs ∨ c ≠ Hash.zero ∧ (hash ≠ Hash.zero → rank c < rank hash)) :
    Inv rank path list (db.put hash n) := by
  obtain ⟨sameNode,sameNext,samePrev⟩ := same
  refine inv_of (fun other n' found' => ?_) ?_ (fun other => ?_) inv.apart
  · rcases found_put found' with ⟨rfl,rfl⟩ | found'
    · obtain ⟨empty,old⟩ := inv.good found
      exact ⟨sameNode ▸ empty,fun c member => (refs c member).elim (old c) id⟩
    · exact inv.good found'
  · rw [nextOf_kept found sameNext,prevOf_kept found samePrev]
    exact inv.linked
  · rw [← inv.keys other,lookup_put]
    split
    · rename_i isIt
      rw [isIt,found]
      exact Iff.rfl
    · rfl

/-- The entries that are left hold what they held. -/
def Kept (db db' : Database) : Prop :=
  ∀ hash n', db'.dirties.lookup hash = some n' → ∃ n, db.dirties.lookup hash = some n ∧ n'.node = n.node ∧ n'.size = n.size
theorem kept_put (found : db.dirties.lookup hash = some node) (same : n.node = node.node ∧ n.size = node.size) : Kept db (db.put hash n) := by
  intro other n' found'
  rcases found_put found' with ⟨rfl,rfl⟩ | found'
  · exact ⟨node,found,same⟩
  · exact ⟨n',found',rfl,rfl⟩
theorem Exact.kept (exact_ : Exact db) (kept : Kept db db') (real : realSize db' = realSize db) (size : db'.dirtiesSize = db.dirtiesSize) :
    Exact db' := by
  refine ⟨fun hash n' proper found => ?_,by rw [real,size,exact_.sized],by rw [real]; exact exact_.small⟩
  obtain ⟨n,found',sameNode,sameSize⟩ := kept hash n' found
  rw [sameNode,sameSize]
  exact exact_.each hash n proper found'
theorem forget_same (n : CachedNode) (child : Hash) : (n.forget child).node = n.node ∧ (n.forget child).size = n.size ∧
    (n.forget child).flushNext = n.flushNext ∧ (n.forget child).flushPrev = n.flushPrev ∧ ∀ c ∈ (n.forget child).refs, c ∈ n.refs := by
  unfold forget
  split
  · exact ⟨rfl,rfl,rfl,rfl,fun _ => id⟩
  rename_i count found
  split
  · refine ⟨rfl,rfl,rfl,rfl,?_⟩
    intro c member
    simp only [refs,mem_append] at member ⊢
    refine member.imp_left fun isKey => ?_
    have known : child ∈ n.children.keys := AList.mem_keys.mpr (lookup_isSome.mp (by rw [found]; rfl))
    split at isKey
    · exact (AList.mem_keys.mp isKey |> fun m => AList.mem_keys.mpr (mem_erase.mp m).2)
    · rcases (mem_insert _).mp (AList.mem_keys.mp isKey) with rfl | before
      · exact known
      · exact AList.mem_keys.mpr before
  · exact ⟨rfl,rfl,rfl,rfl,fun _ => id⟩

/-! ### The flush list -/

/-- An entry apart from its place in the flush list. -/
def CachedNode.core (n : CachedNode) : CachedNode := { n with flushPrev := Hash.zero, flushNext := Hash.zero }
/-- Only the flush list has changed. -/
structure Relinked (db db' : Database) : Prop where
  core : ∀ hash, (db'.dirties.lookup hash).map CachedNode.core = (db.dirties.lookup hash).map CachedNode.core
  real : realSize db' = realSize db
  length : db'.dirties.entries.length = db.dirties.entries.length
  size : db'.dirtiesSize = db.dirtiesSize

theorem Relinked.trans (first : Relinked db db') (second : Relinked db' db'') : Relinked db db'' :=
  ⟨fun hash => (second.core hash).trans (first.core hash),second.real.trans first.real,second.length.trans first.length,
    second.size.trans first.size⟩
theorem Relinked.found (relinked : Relinked db db') (found : db.dirties.lookup hash = some n) :
    ∃ n', db'.dirties.lookup hash = some n' ∧ n'.core = n.core := by
  have same := relinked.core hash
  rw [found,map_some] at same
  exact map_eq_some_iff.mp same
theorem Relinked.back (relinked : Relinked db db') (found : db'.dirties.lookup hash = some n) :
    ∃ n', db.dirties.lookup hash = some n' ∧ n'.core = n.core := by
  have same := (relinked.core hash).symm
  rw [found,map_some] at same
  exact map_eq_some_iff.mp same
theorem Relinked.isSome (relinked : Relinked db db') (hash : Hash) :
    (db'.dirties.lookup hash).isSome = (db.dirties.lookup hash).isSome := by
  have same := congrArg Option.isSome (relinked.core hash)
  simpa using same
theorem core_node (same : n'.core = n.core) : n'.node = n.node ∧ n'.size = n.size ∧ n'.parents = n.parents ∧
    n'.children = n.children :=
  ⟨congrArg (fun n => n.node) same,congrArg (fun n => n.size) same,congrArg (fun n => n.parents) same,congrArg (fun n => n.children) same⟩
theorem core_refs (same : n'.core = n.core) : n'.refs = n.refs := by
  obtain ⟨sameNode,-,-,sameChildren⟩ := core_node same
  simp [refs,sameNode,sameChildren]
theorem update_relinked (db : Database) {f : CachedNode → CachedNode} (found : db.dirties.lookup hash = some n) (same : (f n).core = n.core) :
    db.update hash f = .ok (db.put hash (f n)) ∧ Relinked db (db.put hash (f n)) := by
  refine ⟨by simp [Database.update,found],?_,?_,?_,rfl⟩
  · intro other
    rw [lookup_put]
    split
    · rename_i isIt
      rw [isIt,found,map_some,map_some,same]
    · rfl
  · refine realSize_put found ?_
    unfold weight
    rw [(core_node same).1]
  · exact length_insert found _
theorem Inv.relink {path' list' : List Hash} (inv : Inv rank path list db) (relinked : Relinked db db')
    (linked : Linked Hash.zero (nextOf db') (prevOf db') db'.oldest db'.newest list')
    (members : ∀ hash, hash ∈ list' ∨ hash ∈ path' ↔ hash ∈ list ∨ hash ∈ path)
    (apart : path'.Nodup ∧ Hash.zero ∉ path' ∧ ∀ hash ∈ path', hash ∉ list') : Inv rank path' list' db' := by
  refine inv_of (fun hash n' found => ?_) linked (fun hash => by rw [relinked.isSome,inv.keys,members]) apart
  obtain ⟨n,found',same⟩ := relinked.back found
  rw [Good,← core_refs same,← (core_node same).1]
  exact inv.good found'
theorem Relinked.kept (relinked : Relinked db db') : Kept db db' := by
  intro hash n' found
  obtain ⟨n,found',same⟩ := relinked.back found
  exact ⟨n,found',(core_node same).1.symm,(core_node same).2.1.symm⟩
theorem setPrev_spec (db : Database) (link : Hash) (found : db.dirties.lookup hash = some n) :
    db.update hash (setPrev link) = .ok (db.put hash (setPrev link n)) ∧
      Relinked db (db.put hash (setPrev link n)) ∧ nextOf (db.put hash (setPrev link n)) = nextOf db ∧
      prevOf (db.put hash (setPrev link n)) = update (prevOf db) hash link := by
  obtain ⟨done,relinked⟩ := update_relinked db (f := setPrev link) found rfl
  exact ⟨done,relinked,nextOf_kept found rfl,prevOf_put _ _ _⟩
theorem setNext_spec (db : Database) (link : Hash) (found : db.dirties.lookup hash = some n) :
    db.update hash (setNext link) = .ok (db.put hash (setNext link n)) ∧
      Relinked db (db.put hash (setNext link n)) ∧
      nextOf (db.put hash (setNext link n)) = update (nextOf db) hash link ∧
      prevOf (db.put hash (setNext link n)) = prevOf db := by
  obtain ⟨done,relinked⟩ := update_relinked db (f := setNext link) found rfl
  exact ⟨done,relinked,nextOf_put _ _ _,prevOf_kept found rfl⟩

/-- The entry is on its way out: not in the flush list any more, but in memory. -/
theorem Inv.unlink (inv : Inv rank path list db) (inside : hash ∈ list) (found : db.dirties.lookup hash = some node) :
    ∃ db' list', db.unlink hash node = .ok db' ∧ Relinked db db' ∧ Inv rank (hash :: path) list' db' := by
  have isNext : nextOf db hash = node.flushNext := nextOf_found found
  have isPrev : prevOf db hash = node.flushPrev := prevOf_found found
  have onWay : ∀ {db' : Database} {list' : List Hash}, Relinked db db' → list.Perm (hash :: list') →
      Linked Hash.zero (nextOf db') (prevOf db') db'.oldest db'.newest list' → Inv rank (hash :: path) list' db' := by
    intro db' list' relinked perm linked
    obtain ⟨pathNodup,zero,apart⟩ := inv.apart
    refine inv.relink relinked linked ?_ ⟨?_,?_,?_⟩
    · intro other
      rw [perm.mem_iff,mem_cons,mem_cons]
      tauto
    · exact nodup_cons.mpr ⟨fun member => apart hash member inside,pathNodup⟩
    · rw [mem_cons,not_or]
      exact ⟨fun isZero => inv.linked.proper (isZero ▸ inside),zero⟩
    · intro other member again
      rcases mem_cons.mp member with rfl | onPath
      · exact (nodup_cons.mp (perm.nodup_iff.mp inv.linked.nodup)).1 again
      · exact apart other onPath (perm.mem_iff.mpr (mem_cons_of_mem _ again))
  have present : ∀ other, other = Hash.zero ∨ other ∈ list → ∃ n, db.dirties.lookup other = some n := by
    intro other where_
    exact isSome_iff_exists.mp ((inv.keys other).mpr (where_.imp_right .inl))
  unfold Database.unlink
  split
  · rename_i isOldest
    obtain ⟨rest,split,linked⟩ := inv.linked.unlink_first Hash.zero inside isOldest
    rw [isNext] at linked
    have after : node.flushNext = Hash.zero ∨ node.flushNext ∈ list := by
      rw [linked.head,split]
      cases rest with
      | nil => exact .inl rfl
      | cons c rest => exact .inr (by simp)
    obtain ⟨n,foundNext⟩ := present _ after
    obtain ⟨done,relinked,next,prev⟩ := setPrev_spec { db with oldest := node.flushNext } Hash.zero foundNext
    have relinked' : Relinked db _ := { relinked with }
    exact ⟨_,rest,done,relinked',onWay relinked' (by rw [split]) (by rw [next,prev]; exact linked)⟩
  rename_i notOldest
  have before : node.flushPrev ∈ list := by
    obtain ⟨front,back,split,-⟩ := inv.linked.before inside notOldest
    rw [← isPrev,split]
    simp
  obtain ⟨n,foundPrev⟩ := present _ (.inr before)
  split
  · rename_i isNewest
    obtain ⟨front,split,linked⟩ := inv.linked.unlink_last inside notOldest isNewest
    rw [isPrev] at linked
    obtain ⟨done,relinked,next,prev⟩ := setNext_spec { db with newest := node.flushPrev } Hash.zero foundPrev
    have relinked' : Relinked db _ := { relinked with }
    exact ⟨_,front,done,relinked',onWay relinked' (by rw [split]; exact perm_append_singleton hash front)
      (by rw [next,prev]; exact linked)⟩
  · rename_i notNewest
    obtain ⟨front,back,split,after,linked⟩ := inv.linked.unlink_middle inside notOldest notNewest
    rw [isNext,isPrev] at linked
    obtain ⟨done,relinked,next,prev⟩ := setNext_spec db node.flushNext foundPrev
    obtain ⟨n₂,foundNext⟩ := present _ (.inr (isNext ▸ after))
    obtain ⟨n₂',foundNext',-⟩ := relinked.found foundNext
    obtain ⟨done',relinked',next',prev'⟩ := setPrev_spec _ node.flushPrev foundNext'
    have both := relinked.trans relinked'
    refine ⟨_,front ++ back,?_,both,onWay both (by rw [split]; exact perm_middle) (by rw [next',prev',next,prev]; exact linked)⟩
    simp only [done]
    exact done'

/-! ### Removals -/

/-- The entry is deleted once nothing is left to do below it. -/
theorem Inv.drop (inv : Inv rank (hash :: path) list db) : Inv rank path list (db.drop hash n) := by
  obtain ⟨nodup,zero,apart⟩ := inv.apart
  obtain ⟨fresh,nodup⟩ := nodup_cons.mp nodup
  have away : ∀ other ∈ list, other ≠ hash := fun other member same => apart hash mem_cons_self (same ▸ member)
  refine inv_of (fun other n' found' => inv.good (found_drop found')) ?_ (fun other => ?_)
    ⟨nodup,fun member => zero (mem_cons_of_mem _ member),fun other member => apart other (mem_cons_of_mem _ member)⟩
  · refine inv.linked.congr (fun a member => ?_) (fun a member => ?_)
    · simp [nextOf,lookup_drop,if_neg (away a member)]
    · simp [prevOf,lookup_drop,if_neg (away a (mem_of_mem_tail member))]
  · have known := inv.keys other
    rw [lookup_drop]
    split
    · rename_i isIt
      subst isIt
      simp only [isSome_none,Bool.false_eq_true,false_iff,not_or]
      exact ⟨fun isZero => zero (by rw [isZero]; exact mem_cons_self),apart other mem_cons_self,fresh⟩
    · rename_i differs
      rw [known,mem_cons]
      tauto
theorem Exact.drop (exact_ : Exact db) (found : db.dirties.lookup hash = some node) (proper : hash ≠ Hash.zero) (size : n.size = node.size) :
    Exact (db.drop hash n) := by
  have real := realSize_drop (n := n) found proper
  have small := exact_.small
  have positive := weight_pos node
  refine ⟨?_,?_,by omega⟩
  · exact fun other n' proper' found' => exact_.each other n' proper' (found_drop found')
  · have weight : (32 + n.size.toNat : Nat) = node.weight := by
      rw [size,weight,exact_.each hash node proper found]
      push_cast
      ring
    have bound := weight_le found proper
    change float64 (db.dirtiesSize - (32 + n.size.toNat : Nat)) = _
    rw [weight,exact_.sized,float64_small (by omega)]
    omega
/-- The way down and the meta root are different entries. -/
theorem Inv.path_short (inv : Inv rank path list db) : path.length < db.dirties.entries.length := by
  obtain ⟨nodup,zero,-⟩ := inv.apart
  have all : (Hash.zero :: path) ⊆ db.dirties.keys := by
    intro hash member
    refine AList.mem_keys.mpr (lookup_isSome.mp ((inv.keys hash).mpr ?_))
    rcases mem_cons.mp member with rfl | onPath
    · exact .inl rfl
    · exact .inr (.inr onPath)
  have few := (nodup_cons.mpr ⟨zero,nodup⟩).subperm all |>.length_le
  simpa [AList.keys,List.keys] using few
theorem length_drop (found : db.dirties.lookup hash = some node) :
    (db.drop hash n).dirties.entries.length + 1 = db.dirties.entries.length := length_erase found

/-- No entry is new, and those that are left hold what they held. -/
structure Shrinks (db db' : Database) : Prop where
  kept : ∀ hash n', db'.dirties.lookup hash = some n' → ∃ n, db.dirties.lookup hash = some n ∧ n'.node = n.node ∧ n'.size = n.size
  length : db'.dirties.entries.length ≤ db.dirties.entries.length
  real : realSize db' ≤ realSize db
  exact : Exact db → Exact db'

theorem Shrinks.refl (db : Database) : Shrinks db db := ⟨fun _ n' found => ⟨n',found,rfl,rfl⟩,le_rfl,le_rfl,id⟩
theorem Shrinks.trans (first : Shrinks db db') (second : Shrinks db' db'') : Shrinks db db'' := by
  refine ⟨fun hash n'' found => ?_,second.length.trans first.length,second.real.trans first.real,fun exact_ => second.exact (first.exact exact_)⟩
  obtain ⟨n',found',node',size'⟩ := second.kept hash n'' found
  obtain ⟨n,found,node,size⟩ := first.kept hash n' found'
  exact ⟨n,found,node'.trans node,size'.trans size⟩
theorem Relinked.shrinks (relinked : Relinked db db') : Shrinks db db' :=
  ⟨relinked.kept,relinked.length.le,relinked.real.le,fun exact_ => exact_.kept relinked.kept relinked.real relinked.size⟩
theorem shrinks_put (found : db.dirties.lookup hash = some node) (same : n.node = node.node ∧ n.size = node.size) :
    Shrinks db (db.put hash n) := by
  have real : realSize (db.put hash n) = realSize db := by
    refine realSize_put found ?_
    unfold weight
    rw [same.1]
  exact ⟨kept_put found same,(length_insert found n).le,real.le,fun exact_ => exact_.kept (kept_put found same) real rfl⟩
theorem shrinks_drop (found : db.dirties.lookup hash = some node) (proper : hash ≠ Hash.zero) (size : n.size = node.size) :
    Shrinks db (db.drop hash n) := by
  refine ⟨fun other n' found' => ⟨n',found_drop found',rfl,rfl⟩,(Nat.le_succ _).trans (length_drop found).le,?_,
    fun exact_ => exact_.drop found proper size⟩
  have real := realSize_drop (n := n) found proper
  have positive := weight_pos node
  omega

theorem forAll_spec {hashes : List Hash} {bound : Nat}
    (recursion : ∀ {db : Database} {list : List Hash} {c : Hash}, c ∈ hashes → Inv rank path list db →
      db.dirties.entries.length ≤ bound → ∃ db' list', f c db = .ok db' ∧ Inv rank path list' db' ∧ Shrinks db db')
    (inv : Inv rank path list db) (few : db.dirties.entries.length ≤ bound) :
    ∃ db' list', forAll f hashes db = .ok db' ∧ Inv rank path list' db' ∧ Shrinks db db' := by
  induction hashes generalizing db list with
  | nil => exact ⟨db,list,rfl,inv,.refl db⟩
  | cons hash hashes ih =>
    obtain ⟨db₁,list₁,done,inv₁,less⟩ := recursion mem_cons_self inv few
    obtain ⟨db',list',all,inv',less'⟩ := ih (fun member => recursion (mem_cons_of_mem _ member)) inv₁ (less.length.trans few)
    exact ⟨db',list',by simp [forAll,done,all],inv',less.trans less'⟩
/-- An entry below the way down is not on it. -/
theorem Inv.inside (inv : Inv rank path list db) (found : db.dirties.lookup hash = some node) (proper : hash ≠ Hash.zero)
    (below : ∀ p ∈ path, rank hash < rank p) : hash ∈ list := by
  rcases (inv.keys hash).mp (by rw [found]; rfl) with isZero | inList | onPath
  · exact absurd isZero proper
  · exact inList
  · exact absurd (below hash onPath) (lt_irrefl _)
/-- An entry is taken out, with what goes with it: what is below it comes with less fuel, which
    the longer way down makes up for. -/
theorem remove_spec (walk : Walk) {fuel : Nat} (inv : Inv rank path list db) (found : db.dirties.lookup hash = some node)
    (proper : hash ≠ Hash.zero) (below : ∀ p ∈ path, rank hash < rank p) (enough : db.dirties.entries.length + 1 ≤ fuel+1 + path.length)
    (recursion : ∀ {db' : Database} {list : List Hash} {c : Hash}, Inv rank (hash :: path) list db' → c ≠ Hash.zero →
      (∀ p ∈ hash :: path, rank c < rank p) → db'.dirties.entries.length + 1 ≤ fuel + (hash :: path).length →
      ∃ db'' list', f c db' = .ok db'' ∧ Inv rank (hash :: path) list' db'' ∧ Shrinks db' db'') :
    ∃ db₁ db₂ list', db.unlink hash node = .ok db₁ ∧ forAll f (node.childs walk hash) db₁ = .ok db₂ ∧
      Inv rank path list' (db₂.drop hash node) ∧ Shrinks db (db₂.drop hash node) := by
  obtain ⟨db₁,list₁,unlinked,relinked,inv₁⟩ := inv.unlink (inv.inside found proper below) found
  have each {db' : Database} {list : List Hash} {c : Hash} (isChild : c ∈ node.childs walk hash)
      (inv' : Inv rank (hash :: path) list db') (few : db'.dirties.entries.length ≤ db.dirties.entries.length) :
      ∃ db'' list', f c db' = .ok db'' ∧ Inv rank (hash :: path) list' db'' ∧ Shrinks db' db'' := by
    obtain ⟨outside,lower⟩ := (inv.good found).2 c ((mem_childs walk hash c node).mp isChild)
    refine recursion inv' outside (forall_mem_cons.mpr ⟨lower proper,fun q onPath => (lower proper).trans (below q onPath)⟩) ?_
    rw [length_cons]
    omega
  obtain ⟨db₂,list₂,done,inv₂,less⟩ := forAll_spec each inv₁ relinked.length.le
  have shrinks := relinked.shrinks.trans less
  obtain ⟨node₂,found₂⟩ := isSome_iff_exists.mp ((inv₂.keys hash).mpr (.inr (.inr mem_cons_self)))
  obtain ⟨n,found',-,size⟩ := shrinks.kept hash node₂ found₂
  obtain rfl := some.inj (found.symm.trans found')
  exact ⟨db₁,db₂,list₂,unlinked,done,inv₂.drop,shrinks.trans (shrinks_drop found₂ proper size.symm)⟩
/-- The way down is shorter than the number of entries, so the recursion comes to its end. -/
theorem dereferenceFrom_spec (walk : Walk) (fuel : Nat) (inv : Inv rank path list db) (isParent : parent = Hash.zero ∨ parent ∈ path)
    (proper : child ≠ Hash.zero) (below : ∀ p ∈ path, rank child < rank p)
    (enough : db.dirties.entries.length + 1 ≤ fuel + path.length) :
    ∃ db' list', dereferenceFrom walk fuel parent child db = .ok db' ∧ Inv rank path list' db' ∧ Shrinks db db' := by
  induction fuel generalizing db path list parent child with
  | zero =>
    have := inv.path_short
    omega
  | succ fuel ih =>
    obtain ⟨p,foundParent⟩ := isSome_iff_exists.mp ((inv.keys parent).mpr (isParent.imp_right .inr))
    obtain ⟨sameNode,sameSize,sameNext,samePrev,fewer⟩ := forget_same p child
    have inv₁ := inv.touch foundParent ⟨sameNode,sameNext,samePrev⟩ fun c member => .inl (fewer c member)
    have shrinks₁ := shrinks_put foundParent ⟨sameNode,sameSize⟩
    simp only [dereferenceFrom,Database.update,foundParent]
    cases found : (db.put parent (p.forget child)).dirties.lookup child with
    | none => exact ⟨_,list,rfl,inv₁,shrinks₁⟩
    | some old =>
      have inv₂ := inv₁.touch found (n := old.release) ⟨rfl,rfl,rfl⟩ fun c member => .inl member
      have shrinks₂ := shrinks₁.trans (shrinks_put found (n := old.release) ⟨rfl,rfl⟩)
      have found₂ : ((db.put parent (p.forget child)).put child old.release).dirties.lookup child = some old.release := by
        rw [lookup_put,if_pos rfl]
      by_cases free : old.release.parents = 0
      · obtain ⟨db₁,db₂,list',unlinked,done,inv',shrinks⟩ := remove_spec walk inv₂ found₂ proper below
          ((Nat.add_le_add_right shrinks₂.length 1).trans enough) fun inv' => ih inv' (.inr mem_cons_self)
        exact ⟨_,list',by simp [free,unlinked,done],inv',shrinks₂.trans shrinks⟩
      · exact ⟨_,list,by simp [free],inv₂,shrinks₂⟩
theorem uncacheFrom_spec (walk : Walk) (fuel : Nat) (inv : Inv rank path list db) (proper : hash ≠ Hash.zero)
    (below : ∀ p ∈ path, rank hash < rank p) (enough : db.dirties.entries.length + 1 ≤ fuel + path.length) :
    ∃ db' list', uncacheFrom walk fuel hash db = .ok db' ∧ Inv rank path list' db' ∧ Shrinks db db' := by
  induction fuel generalizing db path list hash with
  | zero =>
    have := inv.path_short
    omega
  | succ fuel ih =>
    simp only [uncacheFrom]
    cases found : db.dirties.lookup hash with
    | none => exact ⟨db,list,rfl,inv,.refl db⟩
    | some node =>
      obtain ⟨db₁,db₂,list',unlinked,done,inv',shrinks⟩ := remove_spec walk inv found proper below enough ih
      exact ⟨_,list',by simp [unlinked,done],inv',shrinks⟩

/-! ### Insertions -/

theorem Inv.adopt (inv : Inv rank path list db) (child : Hash) : Inv rank path list (db.adopt child) := by
  unfold Database.adopt
  split
  · exact inv
  · rename_i c found
    exact inv.touch found ⟨rfl,rfl,rfl⟩ fun _ => .inl
theorem adopt_same (db : Database) (child : Hash) : (db.adopt child).newest = db.newest ∧ (db.adopt child).dirtiesSize = db.dirtiesSize ∧
    (db.adopt child).dirties.entries.length = db.dirties.entries.length ∧ Shrinks db (db.adopt child) := by
  unfold adopt
  split
  · exact ⟨rfl,rfl,rfl,.refl db⟩
  · rename_i c found
    exact ⟨rfl,rfl,length_insert found _,shrinks_put found ⟨rfl,rfl⟩⟩
theorem adoptAll_same (db : Database) (hashes : List Hash) : (hashes.foldl adopt db).newest = db.newest ∧
    (hashes.foldl adopt db).dirtiesSize = db.dirtiesSize ∧
    (hashes.foldl adopt db).dirties.entries.length = db.dirties.entries.length ∧ Shrinks db (hashes.foldl adopt db) := by
  induction hashes generalizing db with
  | nil => exact ⟨rfl,rfl,rfl,.refl db⟩
  | cons hash hashes ih =>
    obtain ⟨newest,size,length,shrinks⟩ := adopt_same db hash
    obtain ⟨newest',size',length',shrinks'⟩ := ih (db.adopt hash)
    exact ⟨newest'.trans newest,size'.trans size,length'.trans length,shrinks.trans shrinks'⟩
theorem Inv.adoptAll (inv : Inv rank path list db) (hashes : List Hash) : Inv rank path list (hashes.foldl Database.adopt db) := by
  induction hashes generalizing db with
  | nil => exact inv
  | cons hash hashes ih => exact ih (inv.adopt hash)
theorem Inv.fresh_proper (inv : Inv rank path list db) (fresh : db.dirties.lookup hash = none) : hash ≠ Hash.zero := by
  rintro rfl
  obtain ⟨m,isMeta,-⟩ := inv.isMeta
  rw [fresh] at isMeta
  cases isMeta
theorem Inv.put_new (inv : Inv rank [] list db) (fresh : db.dirties.lookup hash = none) (good : Good rank hash n) :
    Inv rank [hash] list (db.put hash n) := by
  have away : hash ∉ list := by
    intro member
    have known := (inv.keys hash).mpr (.inr (.inl member))
    rw [fresh] at known
    cases known
  refine inv_of (fun other n' found' => ?_) ?_ (fun other => ?_) ⟨by simp,by simpa using (inv.fresh_proper fresh).symm,?_⟩
  · rcases found_put found' with ⟨rfl,rfl⟩ | found'
    · exact good
    · exact inv.good found'
  · refine inv.linked.congr (fun a member => ?_) (fun a member => ?_)
    · have differs : a ≠ hash := fun same => away (same ▸ member)
      rw [nextOf_put,update_of_ne differs]
    · have differs : a ≠ hash := fun same => away (same ▸ mem_of_mem_tail member)
      rw [prevOf_put,update_of_ne differs]
  · have known := inv.keys other
    rw [lookup_put]
    split
    · rename_i isIt
      simp [isIt]
    · rename_i differs
      rw [known]
      simp [differs]
  · intro other member
    rw [mem_singleton.mp member]
    exact away
/-- The only entry on the way goes to the end of the flush list. -/
theorem Inv.link (inv : Inv rank [hash] list db) (found : db.dirties.lookup hash = some n) (ends : n.flushNext = Hash.zero)
    (joins : n.flushPrev = db.newest) : ∃ db', db.link hash = .ok db' ∧ Inv rank [] (list ++ [hash]) db' ∧ Relinked db db' := by
  have proper : hash ≠ Hash.zero := fun isZero => inv.apart.2.1 (by simp [isZero])
  have away : hash ∉ list := inv.apart.2.2 hash (by simp)
  have isNext : nextOf db hash = Hash.zero := (nextOf_found found).trans ends
  have isPrev : prevOf db hash = db.newest := (prevOf_found found).trans joins
  have members : ∀ other, other ∈ list ++ [hash] ∨ other ∈ ([] : List Hash) ↔ other ∈ list ∨ other ∈ [hash] := by simp
  unfold Database.link
  split
  · rename_i empty
    have none : list = [] := inv.linked.first_nil.mp empty
    subst none
    have relinked : Relinked db { db with oldest := hash, newest := hash } := ⟨fun _ => rfl,rfl,rfl,rfl⟩
    exact ⟨_,rfl,inv.relink relinked (linked_single proper isNext) members ⟨by simp,by simp,by simp⟩,relinked⟩
  · rename_i notEmpty
    have some : list ≠ [] := fun none => notEmpty (inv.linked.first_nil.mpr none)
    have isLast : db.newest ∈ list := by
      obtain ⟨front,z,split⟩ := (eq_nil_or_concat list).resolve_left some
      rw [concat_eq_append] at split
      rw [(inv.linked.tail z (by simp [split])).1,split]
      simp
    obtain ⟨last,foundLast⟩ := isSome_iff_exists.mp ((inv.keys db.newest).mpr (.inr (.inl isLast)))
    obtain ⟨done,relinked,next,prev⟩ := setNext_spec db hash foundLast
    have relinked' : Relinked db { db.put db.newest (setNext hash last) with newest := hash } := { relinked with }
    have linked := inv.linked.append some away proper isNext isPrev
    rw [← next,← prev] at linked
    refine ⟨_,?_,inv.relink relinked' linked members ⟨by simp,by simp,by simp⟩,relinked'⟩
    rw [done]
    rfl
theorem Inv.resize (inv : Inv rank path list db) (x : Int) : Inv rank path list { db with dirtiesSize := x } :=
  { inv with }
theorem insertNew_spec (blob : Bytes) (inv : Inv rank [] list db) (fresh : db.dirties.lookup hash = none)
    (notNil : content ≠ .node .nil) (below : ∀ c ∈ content.gathered, c ≠ Hash.zero ∧ rank c < rank hash) :
    ∃ db', db.insertNew hash blob content =
        .ok { db' with dirtiesSize := float64 (db'.dirtiesSize + (32 + ofNat blob.length).toNat) } ∧
      Inv rank [] (list ++ [hash]) db' ∧
      Relinked ((content.gathered.foldl Database.adopt db).put hash ⟨content,ofNat blob.length,0,∅,db.newest,Hash.zero⟩) db' := by
  obtain ⟨newest,-,-,-⟩ := adoptAll_same db content.gathered
  have inv₁ := inv.adoptAll content.gathered
  have fresh₁ : (content.gathered.foldl Database.adopt db).dirties.lookup hash = none := by
    rw [← not_isSome_iff_eq_none,inv₁.keys,← inv.keys,fresh]
    simp
  let n : CachedNode := ⟨content,ofNat blob.length,0,∅,db.newest,Hash.zero⟩
  have refs : n.refs = content.gathered := by simp [n,refs]
  have good : Good rank hash n := ⟨⟨fun isNil => absurd isNil notNil,fun isZero => absurd isZero (inv.fresh_proper fresh)⟩,fun c member =>
    ⟨(below c (refs ▸ member)).1,fun _ => (below c (refs ▸ member)).2⟩⟩
  have inv₂ := inv₁.put_new fresh₁ good
  obtain ⟨db',linked,inv',relinked⟩ := inv₂.link (by rw [lookup_put,if_pos rfl]) rfl newest.symm
  refine ⟨db',?_,inv',relinked⟩
  change ((((content.gathered.foldl Database.adopt db).put hash n).link hash).map _) = _
  rw [linked]
  rfl
/-- With less than 65504 bytes the size is counted right. -/
theorem insertNew_exact {blob : Bytes} (exact_ : Exact db) (fresh : db.dirties.lookup hash = none)
    (proper : hash ≠ Hash.zero) (isBlob : content.bytes = blob) (short : blob.length < 65504) (small : realSize db + (32 + blob.length) ≤ 2^53)
    (relinked : Relinked ((content.gathered.foldl adopt db).put hash ⟨content,ofNat blob.length,0,∅,db.newest,Hash.zero⟩) db') :
    Exact { db' with dirtiesSize := float64 (db'.dirtiesSize + (32 + ofNat blob.length).toNat) } ∧
      realSize db' = realSize db + (32 + blob.length) ∧ db'.dirties.entries.length = db.dirties.entries.length + 1 := by
  obtain ⟨-,size,length,shrinks⟩ := adoptAll_same db content.gathered
  have exact₁ := shrinks.exact exact_
  have real₁ : realSize (content.gathered.foldl adopt db) = realSize db := by rw [← exact₁.sized,size,exact_.sized]
  have fresh₁ : (content.gathered.foldl adopt db).dirties.lookup hash = none := by
    cases found : (content.gathered.foldl adopt db).dirties.lookup hash with
    | none => rfl
    | some n' =>
      obtain ⟨n,found',-⟩ := shrinks.kept hash n' found
      rw [fresh] at found'
      cases found'
  generalize content.gathered.foldl adopt db = db₁ at *
  let n : CachedNode := ⟨content,ofNat blob.length,0,∅,db.newest,Hash.zero⟩
  have weight : n.weight = 32 + blob.length := by simp [n,weight,isBlob]
  have counted : ((32 + ofNat blob.length).toNat : Int) = n.weight := by
    rw [weight]
    simp only [UInt16.toNat_add,toNat_ofNat']
    have : (32 : UInt16).toNat = 32 := rfl
    omega
  have real : realSize db' = realSize db + (32 + blob.length) := by
    rw [relinked.real,realSize_new fresh₁ proper,real₁,weight]
  have sum : float64 (db'.dirtiesSize + (32 + ofNat blob.length).toNat) = realSize db' := by
    have same : db'.dirtiesSize = realSize db := by
      rw [relinked.size]
      exact exact₁.sized.trans real₁
    have positive := realSize_nonneg db
    rw [counted,same,weight,real]
    exact float64_small (by omega)
  refine ⟨⟨?_,sum,?_⟩,real,?_⟩
  · intro other n' proper' found
    obtain ⟨n₂,found₂,sameNode,sameSize⟩ := relinked.kept other n' found
    rw [sameNode,sameSize]
    rw [lookup_put] at found₂
    split at found₂
    · obtain rfl := some.inj found₂
      simp only [isBlob,toNat_ofNat']
      omega
    · exact exact₁.each other n₂ proper' found₂
  · change realSize db' ≤ _
    rw [real]
    exact small
  · rw [relinked.length,← length]
    change (db₁.dirties.insert hash n).entries.length = _
    rw [entries_insert,length_cons]
    exact congrArg (fun s : AList fun _ : Hash => CachedNode => s.entries.length + 1) (erase_fresh fresh₁)

theorem newDatabase_only (found : newDatabase.dirties.lookup hash = some n) : hash = Hash.zero ∧ n = metaRoot := by
  by_cases isZero : hash = Hash.zero
  · subst isZero
    rw [newDatabase,lookup_insert] at found
    exact ⟨rfl,(some.inj found).symm⟩
  · rw [newDatabase,lookup_insert_ne isZero,lookup_empty] at found
    cases found
theorem inv_newDatabase : Inv rank [] [] newDatabase := by
  refine inv_of (fun hash n found => ?_) linked_nil (fun hash => ⟨fun there => ?_,?_⟩) ⟨nodup_nil,by simp,by simp⟩
  · obtain ⟨rfl,rfl⟩ := newDatabase_only found
    exact ⟨⟨fun _ => rfl,fun _ => rfl⟩,fun c member => by cases member⟩
  · obtain ⟨n,found⟩ := isSome_iff_exists.mp there
    exact .inl (newDatabase_only found).1
  · rintro (rfl | member | member)
    · rw [newDatabase,lookup_insert]
      rfl
    · cases member
    · cases member

end

end Canchain.TrieDatabase
