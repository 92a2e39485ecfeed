import Canchain.TrieSync

/-!
What a download keeps. `Wanted` are the nodes and entries that a root leads to, in
the role in which they are asked for; `blob` is what hashes stand for. Everything
below a request that has come in is stored or requested on its behalf, and nothing
is stored before what is below it (`Inv`). So the database is closed after every
write, and complete when nothing is pending.
-/
namespace Canchain.TrieSync
open Rlp Common TrieNode Tables List Function AList Prod Sync
set_option linter.unusedSectionVars false

variable {κ : Type}

/-- What a hash is asked for as: bytes, or a node of a trie with this callback for its values. -/
inductive Role (κ : Type) where
  | raw
  | trie (callback : Option κ)
def Request.role (req : Request κ) : Role κ := if req.raw then .raw else .trie req.callback

def Addition.items : Addition κ → List (Role κ × Hash)
  | .subTrie root _ callback => if root = emptyRoot then [] else [(.trie callback,root)]
  | .rawEntry hash _ => if hash = emptyState then [] else [(.raw,hash)]

section
variable (leaf : LeafCallback κ) (blob : Hash → Option Bytes)

def itemsOf (callback : Option κ) : Node → List (Role κ × Hash)
  | .hash hash => [(.trie callback,hash)]
  | .value v =>
    match callback with
    | none => []
    | some k => ((leaf k v).getD []).flatMap (·.items)
  | _ => []
/-- What is asked for on behalf of a hash. -/
def below : Role κ × Hash → List (Role κ × Hash)
  | (.raw,_) => []
  | (.trie callback,hash) =>
    match (blob hash).map (Sync.decoded hash) with
    | some (.ok node) => ((Sync.branches node).toOption.getD []).flatMap fun branch => itemsOf leaf callback branch.1
    | _ => []
inductive Wanted (root : Hash) (callback : Option κ) : Role κ × Hash → Prop
  | root (some : root ≠ emptyRoot) : Wanted root callback (.trie callback,root)
  | next {item item' : Role κ × Hash} (wanted : Wanted root callback item) (isBelow : item' ∈ below leaf blob item) :
      Wanted root callback item'

/-- The hashes below a hash, in the roles it is wanted in. -/
def kids (root : Hash) (callback : Option κ) (hash : Hash) : Set Hash :=
  { c | ∃ role role', Wanted leaf blob root callback (role,hash) ∧ (role',c) ∈ below leaf blob (role,hash) }

/-- Everything wanted is what its hash stands for: nodes can be decoded and their values read, and a hash that is wanted in
    two roles has the same hashes below it in both. The zero hash, which stands for no parent, is not among the nodes
    with a callback. -/
structure Served (root : Hash) (callback : Option κ) : Prop where
  node : ∀ {cb hash}, Wanted leaf blob root callback (.trie cb,hash) → ∃ d n, blob hash = some d ∧
    Sync.decoded hash d = .ok n ∧ ∀ bs branch k v, Sync.branches n = .ok bs → branch ∈ bs → cb = some k → branch.1 = .value v →
      (leaf k v).isSome = true
  entry : ∀ {hash}, Wanted leaf blob root callback (.raw,hash) → (blob hash).isSome = true
  nonzero : ∀ {k hash}, Wanted leaf blob root callback (.trie (some k),hash) → hash ≠ Hash.zero
  agree : ∀ {role role' hash}, Wanted leaf blob root callback (role,hash) → Wanted leaf blob root callback (role',hash) →
    ∀ q c, (q,c) ∈ below leaf blob (role,hash) → ∃ q', (q',c) ∈ below leaf blob (role',hash)

end

def Stored (s : Sync κ) (hash : Hash) : Prop := (s.membatch.batch hash).isSome ∨ (s.database hash).isSome
/-- The data of the request has come in. -/
def Delivered (s : Sync κ) (hash : Hash) : Prop := ∃ req, s.requests.lookup hash = some req ∧ req.data.isSome
/-- All parents of all requests. -/
def pointers (s : Sync κ) : Multiset Hash := total (fun req => (req.parents : Multiset Hash)) s.requests

section
variable (leaf : LeafCallback κ) (blob : Hash → Option Bytes) (root : Hash) (callback : Option κ)

/-- The batch and the database hold what the hashes stand for, and nothing without what is below it. -/
structure Settled (s : Sync κ) : Prop where
  listed : ∀ hash, (s.membatch.batch hash).isSome ↔ hash ∈ s.membatch.order
  once : s.membatch.order.Nodup
  asked : ∀ hash ∈ s.membatch.order, ∃ role, Wanted leaf blob root callback (role,hash)
  batch : ∀ hash d, s.membatch.batch hash = some d → blob hash = some d
  ordered : ∀ front hash back, s.membatch.order = front ++ hash :: back → ∀ c ∈ kids leaf blob root callback hash,
    (s.database c).isSome ∨ c ∈ front
  closed : ∀ hash, (s.database hash).isSome → ∀ c ∈ kids leaf blob root callback hash, (s.database c).isSome
  database : ∀ hash d, s.database hash = some d → blob hash = some d
/-- The requests. `extra` are parents that have been counted but are not pointed to yet, or no longer. The request `busy` may
    depend on nothing, and some of what is below it, `todo`, is not yet taken care of. -/
structure Inv (s : Sync κ) (extra : Multiset Hash) (busy : Option Hash) (todo : Set Hash) : Prop
    extends Settled leaf blob root callback s where
  named : ∀ {hash req}, s.requests.lookup hash = some req → req.hash = hash
  wanted : ∀ {hash req}, s.requests.lookup hash = some req → Wanted leaf blob root callback (req.role,hash)
  data : ∀ {hash req}, s.requests.lookup hash = some req → ∀ d, req.data = some d → blob hash = some d
  absent : ∀ {hash req}, s.requests.lookup hash = some req → ¬ Stored s hash
  above : ∀ {hash req}, s.requests.lookup hash = some req → ∀ p ∈ req.parents, Delivered s p
  more : ∀ p ∈ extra, Delivered s p
  deps : ∀ {hash req}, s.requests.lookup hash = some req → req.deps = ((pointers s).count hash + extra.count hash : Nat)
  waits : ∀ {hash req}, s.requests.lookup hash = some req → req.data.isSome → busy ≠ some hash → req.deps ≠ 0
  covers : ∀ {hash req}, s.requests.lookup hash = some req → req.data.isSome → ∀ c ∈ kids leaf blob root callback hash,
    Stored s c ∨ (∃ req', s.requests.lookup c = some req' ∧ hash ∈ req'.parents) ∨ busy = some hash ∧ c ∈ todo
  started : root = emptyRoot ∨ Stored s root ∨ (s.requests.lookup root).isSome

end
variable {s' s'' : Sync κ} {d : Bytes} {todo' : Set Hash} {child : Node} {database : Hash → Option Bytes} {front back : List (Hash × Bytes)}

section
variable {leaf : LeafCallback κ} {blob : Hash → Option Bytes} {root : Hash} {callback : Option κ}
variable {s : Sync κ} {extra : Multiset Hash} {busy : Option Hash} {todo : Set Hash} {hash p : Hash} {req : Request κ}

theorem lookup_put (s : Sync κ) (req : Request κ) (hash : Hash) :
    (s.put req).requests.lookup hash = if hash = req.hash then some req else s.requests.lookup hash := by
  by_cases same : hash = req.hash
  · subst same
    simp [Sync.put,lookup_insert]
  · simp [Sync.put,lookup_insert_ne same,same]
theorem put_found (named : req.hash = hash) : (s.put req).requests.lookup hash = some req := by rw [lookup_put,if_pos named.symm]
theorem pointers_erase (found : s.requests.lookup hash = some req) :
    pointers s = (req.parents : Multiset Hash) + total (fun req => (req.parents : Multiset Hash)) (s.requests.erase hash) :=
  total_erase _ found
theorem pointers_put (s : Sync κ) (req : Request κ) : pointers (s.put req) =
    (req.parents : Multiset Hash) + total (fun req => (req.parents : Multiset Hash)) (s.requests.erase req.hash) :=
  total_insert _ _ _ _
theorem mem_pointers : p ∈ pointers s ↔ ∃ hash req, s.requests.lookup hash = some req ∧ p ∈ req.parents := by
  simp [pointers,mem_total]
/-- A request that is pointed to has come in. -/
theorem Inv.pointed (inv : Inv leaf blob root callback s extra busy todo) (pointed : p ∈ pointers s) : Delivered s p := by
  obtain ⟨hash,req,found,member⟩ := mem_pointers.mp pointed
  exact inv.above found p member
theorem Inv.fresh (inv : Inv leaf blob root callback s extra busy todo) (missing : s.requests.lookup hash = none) :
    (pointers s).count hash = 0 ∧ extra.count hash = 0 := by
  constructor
  · refine Multiset.count_eq_zero.mpr fun pointed => ?_
    obtain ⟨req,found,-⟩ := inv.pointed pointed
    simp [missing] at found
  · refine Multiset.count_eq_zero.mpr fun member => ?_
    obtain ⟨req,found,-⟩ := inv.more hash member
    simp [missing] at found

/-! ### Commits -/

/-- The new state has the same database; what its batch has more was not stored before. -/
structure Progress (s s' : Sync κ) : Prop where
  database : s'.database = s.database
  order : ∀ hash ∈ s'.membatch.order, hash ∈ s.membatch.order ∨ (s.database hash) = none

theorem Progress.refl (s : Sync κ) : Progress s s := ⟨rfl,fun _ member => .inl member⟩
theorem progress_put (s : Sync κ) (req : Request κ) : Progress s (s.put req) := ⟨rfl,fun _ member => .inl member⟩
theorem Progress.trans (first : Progress s s') (second : Progress s' s'') : Progress s s'' := by
  refine ⟨second.database.trans first.database,fun hash member => ?_⟩
  rcases second.order hash member with before | missing
  · exact first.order hash before
  · exact .inr (first.database ▸ missing)

theorem lookup_settle (s : Sync κ) (req : Request κ) (hash : Hash) :
    (s.settle req).requests.lookup hash = if hash = req.hash then none else s.requests.lookup hash := by
  by_cases same : hash = req.hash
  · subst same
    simp [settle,lookup_erase]
  · simp [settle,lookup_erase_ne same,same]
theorem stored_settle (delivered : req.data.isSome) (hash : Hash) :
    Stored (s.settle req) hash ↔ hash = req.hash ∨ Stored s hash := by
  by_cases same : hash = req.hash
  · subst same
    simp [Stored,settle,delivered]
  · simp [Stored,settle,same]
theorem delivered_settle (waiting : Delivered s hash) (other : hash ≠ req.hash) : Delivered (s.settle req) hash := by
  obtain ⟨req',found,delivered⟩ := waiting
  exact ⟨req',by rw [lookup_settle,if_neg other,found],delivered⟩
/-- The batch takes what is complete. -/
theorem Settled.settle (settled : Settled leaf blob root callback s) (delivered : req.data = some d)
    (correct : blob req.hash = some d) (wanted : Wanted leaf blob root callback (req.role,req.hash)) (absent : ¬ Stored s req.hash)
    (complete : ∀ c ∈ kids leaf blob root callback req.hash, Stored s c) :
    Settled leaf blob root callback (s.settle req) := by
  have notListed : req.hash ∉ s.membatch.order := fun member => absent (.inl ((settled.listed _).mpr member))
  refine ⟨fun hash => ?_,?_,?_,fun hash e stored => ?_,fun front hash back split c below => ?_,settled.closed,settled.database⟩
  · by_cases same : hash = req.hash
    · subst same
      simp [Sync.settle,delivered]
    · simp [Sync.settle,same,settled.listed hash]
  · simp only [Sync.settle,nodup_append,settled.once,nodup_singleton,mem_singleton,true_and]
    rintro a member b rfl rfl
    exact notListed member
  · intro hash member
    simp only [Sync.settle,mem_append,mem_singleton] at member
    rcases member with member | rfl
    · exact settled.asked hash member
    · exact ⟨req.role,wanted⟩
  · by_cases same : hash = req.hash
    · subst same
      simp only [Sync.settle,update_self,delivered,Option.some.injEq] at stored
      exact stored ▸ correct
    · simp only [Sync.settle,update_of_ne same] at stored
      exact settled.batch hash e stored
  · rcases eq_nil_or_concat back with rfl | ⟨back,last,rfl⟩
    · obtain ⟨rfl,same⟩ := append_inj' split rfl
      obtain rfl : req.hash = hash := by simpa using same
      rcases complete c below with inBatch | inDatabase
      · exact .inr ((settled.listed c).mp inBatch)
      · exact .inl inDatabase
    · simp only [Sync.settle,concat_eq_append] at split
      rw [← cons_append,← append_assoc] at split
      obtain ⟨split,-⟩ := append_inj' split rfl
      exact settled.ordered front hash back split c below
/-- A request that depends on nothing: nobody points to it, and all that is below it is stored. -/
theorem Inv.settle (inv : Inv leaf blob root callback s extra (some hash) ∅) (found : s.requests.lookup hash = some req)
    (delivered : req.data.isSome) (free : req.deps = 0) :
    Inv leaf blob root callback (s.settle req) (req.parents + extra) none ∅ ∧ Progress s (s.settle req) := by
  obtain rfl := inv.named found
  have counted := inv.deps found
  rw [free] at counted
  have unpointed : req.hash ∉ pointers s := Multiset.count_eq_zero.mp (by omega)
  have notExtra : req.hash ∉ extra := Multiset.count_eq_zero.mp (by omega)
  have apart : ∀ {other : Hash} {req' : Request κ}, (s.settle req).requests.lookup other = some req' →
      other ≠ req.hash ∧ s.requests.lookup other = some req' := by
    intro other req' found'
    rw [lookup_settle] at found'
    split at found'
    · simp at found'
    · exact ⟨‹_›,found'⟩
  obtain ⟨d,isData⟩ := Option.isSome_iff_exists.mp delivered
  have complete : ∀ c ∈ kids leaf blob root callback req.hash, Stored s c := by
    intro c below
    rcases inv.covers found delivered c below with stored | ⟨req',found',points⟩ | ⟨-,left⟩
    · exact stored
    · exact absurd (mem_pointers.mpr ⟨c,req',found',points⟩) unpointed
    · exact left.elim
  have notMe : ∀ {other : Hash} {req' : Request κ}, s.requests.lookup other = some req' → ∀ p ∈ req'.parents, p ≠ req.hash :=
    fun found' p member same => unpointed (mem_pointers.mpr ⟨_,_,found',same ▸ member⟩)
  have split := pointers_erase found
  refine ⟨⟨inv.toSettled.settle isData (inv.data found d isData) (inv.wanted found) (inv.absent found) complete,
    ?_,?_,?_,?_,?_,?more,?_,?_,?_,?started⟩,?progress⟩
  case more =>
    intro p member
    rcases Multiset.mem_add.mp member with isParent | isExtra
    · exact delivered_settle (inv.above found p isParent) (notMe found p isParent)
    · exact delivered_settle (inv.more p isExtra) fun same => notExtra (same ▸ isExtra)
  case started =>
    rcases inv.started with empty | stored | waiting
    · exact .inl empty
    · exact .inr (.inl ((stored_settle delivered root).mpr (.inr stored)))
    · by_cases same : root = req.hash
      · exact .inr (.inl ((stored_settle delivered root).mpr (.inl same)))
      · exact .inr (.inr (by rwa [lookup_settle,if_neg same]))
  case progress =>
    refine ⟨rfl,fun other member => ?_⟩
    simp only [settle,mem_append,mem_singleton] at member
    rcases member with member | rfl
    · exact .inl member
    · refine .inr (Option.not_isSome_iff_eq_none.mp fun inDatabase => inv.absent found (.inr inDatabase))
  all_goals
    intro other req' found'
    obtain ⟨differs,found'⟩ := apart found'
  · exact inv.named found'
  · exact inv.wanted found'
  · exact inv.data found'
  · intro stored
    rcases (stored_settle delivered other).mp stored with same | stored
    · exact differs same
    · exact inv.absent found' stored
  · exact fun p member => delivered_settle (inv.above found' p member) (notMe found' p member)
  · rw [inv.deps found',split,Multiset.count_add,Multiset.count_add]
    simp only [pointers,settle]
    omega
  · exact fun came _ => inv.waits found' came fun same => differs (Option.some.inj same).symm
  · intro came c below
    rcases inv.covers found' came c below with stored | ⟨req'',found'',points⟩ | ⟨same,-⟩
    · exact .inl ((stored_settle delivered c).mpr (.inr stored))
    · by_cases same : c = req.hash
      · exact .inl ((stored_settle delivered c).mpr (.inl same))
      · exact .inr (.inl ⟨req'',by rw [lookup_settle,if_neg same,found''],points⟩)
    · exact absurd (Option.some.inj same).symm differs

/-- A request is changed in its data and its count. -/
theorem Inv.put {req' : Request κ} {extra' : Multiset Hash} {busy' : Option Hash}
    (inv : Inv leaf blob root callback s extra busy todo) (found : s.requests.lookup hash = some req)
    (same : req'.hash = hash ∧ req'.role = req.role ∧ req'.parents = req.parents)
    (data : ∀ d, req'.data = some d → blob hash = some d) (keeps : req.data.isSome → req'.data.isSome)
    (deps : req'.deps = ((pointers s).count hash + extra'.count hash : Nat))
    (others : ∀ q, q ≠ hash → extra'.count q = extra.count q) (more : ∀ p ∈ extra', Delivered s p)
    (waits : req'.data.isSome → busy' ≠ some hash → req'.deps ≠ 0) (idle : ∀ q, q ≠ hash → busy' ≠ some q → busy ≠ some q)
    (covers : req'.data.isSome → ∀ c ∈ TrieSync.kids leaf blob root callback hash, Stored s c ∨
      (∃ req', s.requests.lookup c = some req' ∧ hash ∈ req'.parents) ∨ busy' = some hash ∧ c ∈ todo')
    (left : ∀ q c, q ≠ hash → busy = some q → c ∈ todo → busy' = some q ∧ c ∈ todo') :
    Inv leaf blob root callback (s.put req') extra' busy' todo' := by
  obtain ⟨rfl,sameRole,sameParents⟩ := same
  have apart : ∀ {other : Hash} {req'' : Request κ}, (s.put req').requests.lookup other = some req'' →
      other = req'.hash ∧ req'' = req' ∨ other ≠ req'.hash ∧ s.requests.lookup other = some req'' := by
    intro other req'' found'
    rw [lookup_put] at found'
    split at found'
    · exact .inl ⟨‹_›,(Option.some.inj found').symm⟩
    · exact .inr ⟨‹_›,found'⟩
  have points : ∀ {c : Hash} {q : Hash}, (∃ r, s.requests.lookup c = some r ∧ q ∈ r.parents) →
      ∃ r, (s.put req').requests.lookup c = some r ∧ q ∈ r.parents := by
    rintro c q ⟨r,found',member⟩
    by_cases isMe : c = req'.hash
    · subst isMe
      rw [found] at found'
      obtain rfl := Option.some.inj found'
      exact ⟨req',by simp [lookup_put],sameParents ▸ member⟩
    · exact ⟨r,by rw [lookup_put,if_neg isMe,found'],member⟩
  have delivered : ∀ {p : Hash}, Delivered s p → Delivered (s.put req') p := by
    rintro p ⟨r,found',came⟩
    by_cases isMe : p = req'.hash
    · subst isMe
      rw [found] at found'
      obtain rfl := Option.some.inj found'
      exact ⟨req',by simp [lookup_put],keeps came⟩
    · exact ⟨r,by rw [lookup_put,if_neg isMe,found'],came⟩
  have unchanged : pointers (s.put req') = pointers s := by rw [pointers_put,pointers_erase found,sameParents]
  have started := inv.started.imp_right (Or.imp_right fun waiting => show ((s.put req').requests.lookup root).isSome by
    rw [lookup_put]
    split
    · rfl
    · exact waiting)
  refine ⟨{ inv with },?_,?_,?_,?_,?_,
    fun p member => delivered (more p member),?_,?_,?_,started⟩
  -- Each field is shown of the request itself, and then of the others.
  all_goals
    intro other r found'
    rcases apart found' with ⟨rfl,rfl⟩ | ⟨differs,found'⟩
  · rfl
  · exact inv.named found'
  · exact sameRole ▸ inv.wanted found
  · exact inv.wanted found'
  · exact data
  · exact inv.data found'
  · exact inv.absent found
  · exact inv.absent found'
  · exact fun p member => delivered (inv.above found p (sameParents ▸ member))
  · exact fun p member => delivered (inv.above found' p member)
  · rw [unchanged,deps]
  · rw [unchanged,inv.deps found',others other differs]
  · exact waits
  · exact fun came notBusy => inv.waits found' came (idle other differs notBusy)
  · exact fun came c below => (covers came c below).imp_right (Or.imp_left points)
  · refine fun came c below => (inv.covers found' came c below).imp_right (Or.imp points ?_)
    rintro ⟨isBusy,isTodo⟩
    exact left other c differs isBusy isTodo

/-- One parent less to be released. -/
theorem Inv.release (inv : Inv leaf blob root callback s (p ::ₘ extra) none ∅) {parent : Request κ}
    (found : s.requests.lookup p = some parent) (delivered : parent.data.isSome)
    (waits : busy ≠ some p → (parent.count (-1)).deps ≠ 0) :
    Inv leaf blob root callback (s.put (parent.count (-1))) extra busy ∅ := by
  have counted := inv.deps found
  rw [Multiset.count_cons_self] at counted
  have named := inv.named found
  have data := inv.data found
  refine inv.put found ⟨named,rfl,rfl⟩ data id ?_ ?_ (fun q member => inv.more q (Multiset.mem_cons_of_mem member))
    (fun _ => waits) (fun q _ _ => nofun) ?_ (fun _ _ _ => nofun)
  · simp only [Request.count]
    omega
  · intro q differs
    rw [Multiset.count_cons_of_ne differs]
  · intro _ c below
    exact (inv.covers found delivered c below).imp_right (Or.imp_right fun left => absurd left.1 nofun)

theorem releaseAll_spec {commit : Hash → Sync κ → Except Fault (Sync κ)} {bound : Nat}
    (commits : ∀ {s : Sync κ} {extra : Multiset Hash} {hash : Hash} {req : Request κ},
      Inv leaf blob root callback s extra (some hash) ∅ → s.requests.lookup hash = some req → req.data.isSome → req.deps = 0 →
      s.pending ≤ bound → ∃ s', commit hash s = .ok s' ∧ Inv leaf blob root callback s' extra none ∅ ∧ Progress s s' ∧
        s'.pending ≤ s.pending)
    (parents : List Hash) (inv : Inv leaf blob root callback s (parents + extra) none ∅) (few : s.pending ≤ bound) :
    ∃ s', releaseAll commit parents s = .ok s' ∧ Inv leaf blob root callback s' extra none ∅ ∧ Progress s s' ∧
      s'.pending ≤ s.pending := by
  induction parents generalizing s with
  | nil => exact ⟨s,rfl,by simpa using inv,.refl s,le_refl _⟩
  | cons p parents ih =>
    rw [← Multiset.cons_coe,Multiset.cons_add] at inv
    obtain ⟨parent,found,delivered⟩ := inv.more p (Multiset.mem_cons_self _ _)
    have sameSize : (s.put (parent.count (-1))).pending = s.pending := by
      simp only [pending,Sync.put,Request.count,inv.named found]
      exact length_insert found _
    have named := inv.named found
    have found' : (s.put (parent.count (-1))).requests.lookup p = some (parent.count (-1)) := put_found named
    by_cases free : (parent.count (-1)).deps = 0
    · obtain ⟨s₁,committed,inv₁,progress₁,less₁⟩ := commits (inv.release found delivered fun busy => absurd rfl busy)
        found' delivered free (sameSize ▸ few)
      obtain ⟨s',released,inv',progress',less'⟩ := ih inv₁ (by omega)
      refine ⟨s',?_,inv',?_,by omega⟩
      · simp [releaseAll,found,if_pos free,committed,released]
      · exact (progress_put s _).trans (progress₁.trans progress')
    · obtain ⟨s',released,inv',progress',less'⟩ := ih (inv.release found delivered fun _ => free) (sameSize ▸ few)
      refine ⟨s',?_,inv',?_,by omega⟩
      · simp [releaseAll,found,if_neg free,released]
      · exact (progress_put s _).trans progress'
/-- A commit goes up as far as nothing is missing any more. -/
theorem commit_spec (fuel : Nat) (inv : Inv leaf blob root callback s extra (some hash) ∅)
    (found : s.requests.lookup hash = some req) (delivered : req.data.isSome) (free : req.deps = 0) (few : s.pending ≤ fuel) :
    ∃ s', Sync.commit fuel hash s = .ok s' ∧ Inv leaf blob root callback s' extra none ∅ ∧ Progress s s' ∧
      s'.pending ≤ s.pending := by
  induction fuel generalizing s extra hash req with
  | zero =>
    have := length_erase found
    simp only [pending] at few
    omega
  | succ fuel ih =>
    obtain ⟨settled,progress⟩ := inv.settle found delivered free
    have less : (s.settle req).pending + 1 = s.pending := by
      simp only [pending,settle,inv.named found]
      exact length_erase found
    obtain ⟨s',released,inv',progress',less'⟩ := releaseAll_spec ih req.parents settled (by omega)
    exact ⟨s',by simp [Sync.commit,found,released],inv',progress.trans progress',by omega⟩

/-! ### New requests -/

/-- The request as it is after it was scheduled. -/
def merged (s : Sync κ) (req : Request κ) : Request κ :=
  match s.requests.lookup req.hash with
  | some old => old.join req.parents
  | none => req
variable (named : ∀ {hash req}, s.requests.lookup hash = some req → req.hash = hash)
include named
theorem lookup_schedule (req : Request κ)
    (hash : Hash) : (s.schedule req).requests.lookup hash =
      if hash = req.hash then some (merged s req) else s.requests.lookup hash := by
  cases found : s.requests.lookup req.hash with
  | none =>
    simp only [schedule,merged,found]
    exact lookup_put s req hash
  | some old =>
    have same := named found
    simp [schedule,merged,found,lookup_put,Request.join,same]
/-- What was requested before still is, with the same data and count. -/
theorem schedule_kept (req : Request κ) {r : Request κ}
    (found : s.requests.lookup hash = some r) : ∃ r', (s.schedule req).requests.lookup hash = some r' ∧
      r'.data = r.data ∧ r'.deps = r.deps ∧ ∀ q ∈ r.parents, q ∈ r'.parents := by
  rw [lookup_schedule named]
  split
  · rename_i same
    subst same
    refine ⟨_,rfl,?_⟩
    simp only [merged,found,Request.join,mem_append,true_and]
    exact fun q member => .inl member
  · exact ⟨r,found,rfl,rfl,fun q member => member⟩
theorem pointers_schedule (req : Request κ) :
    pointers (s.schedule req) = (req.parents : Multiset Hash) + pointers s := by
  cases found : s.requests.lookup req.hash with
  | none =>
    simp only [schedule,found,pointers]
    rw [total_insert,erase_fresh found]
  | some old =>
    simp only [schedule,found]
    rw [pointers_put,pointers_erase found,← Multiset.add_assoc]
    simp [Request.join,named found,← Multiset.coe_add,Multiset.add_comm]
omit named

theorem schedule_spec (inv : Inv leaf blob root callback s (p ::ₘ extra) (some p) todo) (parents : req.parents = [p])
    (fresh : req.data = none ∧ req.deps = 0) (wanted : Wanted leaf blob root callback (req.role,req.hash))
    (absent : ¬ Stored s req.hash) : Inv leaf blob root callback (s.schedule req) extra (some p) (todo \ {req.hash}) := by
  have look := lookup_schedule inv.named req
  have settled : Stored (s.schedule req) = Stored s ∧ Settled leaf blob root callback (s.schedule req) := by
    unfold schedule
    split
    · exact ⟨rfl,{ inv with }⟩
    · exact ⟨rfl,{ inv with }⟩
  obtain ⟨sameStored,settled⟩ := settled
  have isParent : p ∈ (merged s req).parents := by
    unfold merged
    split <;> simp [Request.join,parents]
  have kept {hash : Hash} {r : Request κ} (found : s.requests.lookup hash = some r) := schedule_kept inv.named req found
  have delivered : ∀ {q}, Delivered s q → Delivered (s.schedule req) q := by
    rintro q ⟨r,found,came⟩
    obtain ⟨r',found',sameData,-⟩ := kept found
    exact ⟨r',found',sameData ▸ came⟩
  -- What is requested now was before, or it is new.
  have back : ∀ {hash r}, (s.schedule req).requests.lookup hash = some r →
      (∃ r₀, s.requests.lookup hash = some r₀ ∧ r.hash = r₀.hash ∧ r.role = r₀.role ∧ r.data = r₀.data ∧ r.deps = r₀.deps ∧
        ∀ q ∈ r.parents, q ∈ r₀.parents ∨ q = p) ∨
      hash = req.hash ∧ r = req ∧ s.requests.lookup hash = none := by
    intro hash r found
    rw [look] at found
    split at found
    · rename_i same
      subst same
      obtain rfl := Option.some.inj found
      cases old : s.requests.lookup req.hash with
      | none => exact .inr ⟨rfl,by simp [merged,old],rfl⟩
      | some r₀ =>
        refine .inl ⟨r₀,rfl,?_⟩
        simp [merged,old,Request.join,Request.role,parents]
    · exact .inl ⟨r,found,rfl,rfl,rfl,rfl,fun q member => .inl member⟩
  have here := inv.more p (Multiset.mem_cons_self _ _)
  have pointed : pointers (s.schedule req) = p ::ₘ pointers s := by
    rw [pointers_schedule inv.named,parents,Multiset.coe_singleton,Multiset.singleton_add]
  have started : root = emptyRoot ∨ Stored s root ∨ ((s.schedule req).requests.lookup root).isSome := by
    refine inv.started.imp_right (Or.imp_right fun waiting => ?_)
    obtain ⟨r,found⟩ := Option.isSome_iff_exists.mp waiting
    obtain ⟨r',found',-⟩ := kept found
    simp [found']
  refine ⟨settled,?_,?_,?_,?_,?_,fun q member => delivered (inv.more q (Multiset.mem_cons_of_mem member)),?_,?_,?_,sameStored ▸ started⟩
  all_goals
    intro hash r found
    rcases back found with ⟨r₀,found₀,sameHash,sameRole,sameData,sameDeps,olds⟩ | ⟨rfl,rfl,none⟩
  · exact sameHash.trans (inv.named found₀)
  · rfl
  · exact sameRole ▸ inv.wanted found₀
  · exact wanted
  · exact sameData ▸ inv.data found₀
  · simp [fresh.1]
  · exact sameStored ▸ inv.absent found₀
  · exact sameStored ▸ absent
  · intro q member
    rcases olds q member with member | rfl
    · exact delivered (inv.above found₀ q member)
    · exact delivered here
  · intro q member
    rw [parents,mem_singleton] at member
    exact member ▸ delivered here
  · rw [pointed,sameDeps,inv.deps found₀]
    simp only [Multiset.count_cons]
    split <;> omega
  · obtain ⟨noPointer,noExtra⟩ := inv.fresh none
    rw [pointed,fresh.2]
    simp only [Multiset.count_cons] at noExtra ⊢
    omega
  · exact fun came notBusy => sameDeps ▸ inv.waits found₀ (sameData ▸ came) notBusy
  · simp [fresh.1]
  · intro came c below
    rw [sameStored]
    rcases inv.covers found₀ (sameData ▸ came) c below with stored | ⟨r₁,found₁,points⟩ | ⟨isBusy,isTodo⟩
    · exact .inl stored
    · obtain ⟨r₂,found₂,-,-,more⟩ := kept found₁
      exact .inr (.inl ⟨r₂,found₂,more hash points⟩)
    · by_cases same : c = req.hash
      · obtain rfl := Option.some.inj isBusy
        exact .inr (.inl ⟨merged s req,by rw [look,if_pos same],isParent⟩)
      · exact .inr (.inr ⟨isBusy,isTodo,same⟩)
  · simp [fresh.1]

theorem Inv.mono (inv : Inv leaf blob root callback s extra busy todo) (more : todo ⊆ todo') :
    Inv leaf blob root callback s extra busy todo' :=
  { inv with covers := fun found came c below => (inv.covers found came c below).imp_right (Or.imp_right (.imp_right (@more c))) }
/-- What is stored needs no request. -/
theorem Inv.skip {c : Hash} (inv : Inv leaf blob root callback s extra busy todo) (stored : Stored s c) :
    Inv leaf blob root callback s extra busy (todo \ {c}) := by
  refine { inv with covers := fun {hash req} found came c' below => ?_ }
  by_cases same : c' = c
  · exact .inl (same ▸ stored)
  · exact (inv.covers found came c' below).imp_right (Or.imp_right (.imp_right fun left => ⟨left,same⟩))

/-- Only requests have changed, and the one of `p` is still there. -/
structure Quiet (p : Hash) (s s' : Sync κ) : Prop where
  database : s'.database = s.database
  membatch : s'.membatch = s.membatch
  delivered : Delivered s p → Delivered s' p

theorem Quiet.refl (p : Hash) (s : Sync κ) : Quiet p s s := ⟨rfl,rfl,id⟩
theorem Quiet.trans (first : Quiet p s s') (second : Quiet p s' s'') : Quiet p s s'' :=
  ⟨second.database.trans first.database,second.membatch.trans first.membatch,second.delivered ∘ first.delivered⟩
theorem Quiet.stored (quiet : Quiet p s s') : Stored s' = Stored s := by
  unfold Stored
  rw [quiet.database,quiet.membatch]
theorem Quiet.progress (quiet : Quiet p s s') : Progress s s' :=
  ⟨quiet.database,fun _ member => .inl (quiet.membatch ▸ member)⟩
theorem quiet_schedule (named : ∀ {hash req}, s.requests.lookup hash = some req → req.hash = hash) (req : Request κ) :
    Quiet p s (s.schedule req) := by
  refine ⟨?_,?_,?_⟩
  · unfold schedule
    split <;> rfl
  · unfold schedule
    split <;> rfl
  · rintro ⟨r,found,came⟩
    obtain ⟨r',found',sameData,-⟩ := schedule_kept named req found
    exact ⟨r',found',sameData ▸ came⟩

/-- A request of what is wanted, as it is made: nothing has come in, and nothing depends on it. -/
structure New (leaf : LeafCallback κ) (blob : Hash → Option Bytes) (root : Hash) (callback : Option κ)
    (s : Sync κ) (req : Request κ) : Prop where
  fresh : req.data = none ∧ req.deps = 0
  wanted : Wanted leaf blob root callback (req.role,req.hash)
  absent : ¬ Stored s req.hash

section
variable (inv : Inv leaf blob root callback s extra (some p) todo) (here : Delivered s p) (nonzero : p ≠ Hash.zero)
include inv here nonzero

theorem scheduleBelow_spec (new : New leaf blob root callback s req) (orphan : req.parents = []) (lost : Fault) :
    ∃ s', s.scheduleBelow req p lost = .ok s' ∧ Inv leaf blob root callback s' extra (some p) (todo \ {req.hash}) ∧
      Quiet p s s' := by
  obtain ⟨ancestor,found,came⟩ := here
  have named := inv.named found
  have data := inv.data found
  have counted : Inv leaf blob root callback (s.put (ancestor.count 1)) (p ::ₘ extra) (some p) todo := by
    refine inv.put found ⟨named,rfl,rfl⟩ data id ?_ ?_ ?_ (fun _ busy => absurd rfl busy) (fun _ _ => id)
      (fun _ => inv.covers found came) (fun _ _ _ isBusy isTodo => ⟨isBusy,isTodo⟩)
    · rw [Multiset.count_cons_self]
      simp only [Request.count,inv.deps found]
      omega
    · intro q differs
      rw [Multiset.count_cons_of_ne differs]
    · exact Multiset.forall_mem_cons.mpr ⟨⟨ancestor,found,came⟩,inv.more⟩
  refine ⟨(s.put (ancestor.count 1)).schedule (req.join [p]),?_,?_,?_⟩
  · simp [scheduleBelow,if_pos nonzero,found]
  · exact schedule_spec counted (by simp [Request.join,orphan]) new.fresh new.wanted new.absent
  · have quiet : Quiet p s (s.put (ancestor.count 1)) := ⟨rfl,rfl,fun _ => ⟨ancestor.count 1,put_found named,came⟩⟩
    exact quiet.trans (quiet_schedule counted.named _)

/-- What is stored is not asked for again. -/
theorem addItem_spec (req : Request κ) (fresh : req.data = none ∧ req.deps = 0) (orphan : req.parents = []) (wanted : Wanted leaf blob root callback (req.role,req.hash))
    (lost : Fault) {r : Except Fault (Sync κ)} (skips : Stored s req.hash → r = .ok s)
    (adds : ¬ Stored s req.hash → r = s.scheduleBelow req p lost) :
    ∃ s', r = .ok s' ∧ Inv leaf blob root callback s' extra (some p) (todo \ {req.hash}) ∧ Quiet p s s' := by
  by_cases stored : Stored s req.hash
  · exact ⟨s,skips stored,inv.skip stored,.refl p s⟩
  · rw [adds stored]
    exact scheduleBelow_spec inv here nonzero ⟨fresh,wanted,stored⟩ orphan lost
omit inv here nonzero in
theorem decoded_nil (hash : Hash) : decoded hash [] = .error (.fault .unexpectedEOF []) := rfl
variable (served : Served leaf blob root callback)
include served
theorem add_spec {a : Addition κ} (wanted : ∀ item ∈ a.items, Wanted leaf blob root callback item) :
    ∃ s', s.add p a = .ok s' ∧ Inv leaf blob root callback s' extra (some p) (todo \ { c | ∃ q, (q,c) ∈ a.items }) ∧
      Quiet p s s' := by
  cases a with
  | subTrie top depth cb =>
    by_cases empty : top = emptyRoot
    · refine ⟨s,by simp [add,addSubTrie,empty],?_,.refl p s⟩
      simpa [Addition.items,empty] using inv
    have items : { c | ∃ q, (q,c) ∈ (Addition.subTrie top depth cb).items } = {top} := by
      ext c
      simp [Addition.items,empty]
    rw [items]
    have isWanted : Wanted leaf blob root callback (.trie cb,top) := wanted _ (by simp [Addition.items,empty])
    refine addItem_spec inv here nonzero ⟨top,none,false,[],depth,0,cb⟩ ⟨rfl,rfl⟩ rfl isWanted (.subTrieAncestor p) ?_ ?_
    · rintro (inBatch | inDatabase)
      · simp [add,addSubTrie,empty,inBatch]
      · obtain ⟨d,found⟩ := Option.isSome_iff_exists.mp inDatabase
        obtain ⟨d',n,isBlob,decodes,-⟩ := served.node isWanted
        obtain rfl : d = d' := by simpa [inv.database top d found] using isBlob
        simp [add,addSubTrie,empty,found,decodes]
    · intro absent
      simp only [Stored,not_or,Option.not_isSome_iff_eq_none] at absent
      simp [add,addSubTrie,empty,absent,decoded_nil]
  | rawEntry entry depth =>
    by_cases empty : entry = emptyState
    · refine ⟨s,by simp [add,addRawEntry,empty],?_,.refl p s⟩
      simpa [Addition.items,empty] using inv
    have items : { c | ∃ q, (q,c) ∈ (Addition.rawEntry entry depth : Addition κ).items } = {entry} := by
      ext c
      simp [Addition.items,empty]
    rw [items]
    have isWanted : Wanted leaf blob root callback (.raw,entry) := wanted _ (by simp [Addition.items,empty])
    refine addItem_spec inv here nonzero ⟨entry,none,true,[],depth,0,none⟩ ⟨rfl,rfl⟩ rfl isWanted (.rawEntryAncestor p) ?_ ?_
    · rintro (inBatch | inDatabase)
      · simp [add,addRawEntry,empty,inBatch]
      · simp [add,addRawEntry,empty,inDatabase]
    · intro absent
      simp only [Stored,not_or,Option.not_isSome_iff_eq_none] at absent
      simp [add,addRawEntry,empty,absent]
theorem addAll_spec {additions : List (Addition κ)}
    (wanted : ∀ item ∈ additions.flatMap (·.items), Wanted leaf blob root callback item) :
    ∃ s', addAll p additions s = .ok s' ∧
      Inv leaf blob root callback s' extra (some p) (todo \ { c | ∃ q, (q,c) ∈ additions.flatMap (·.items) }) ∧
      Quiet p s s' := by
  induction additions generalizing s todo with
  | nil => exact ⟨s,rfl,by simpa using inv,.refl p s⟩
  | cons a additions ih =>
    obtain ⟨s₁,added,inv₁,quiet₁⟩ := add_spec (a := a) inv here nonzero served fun item member =>
      wanted item (by simp [member])
    obtain ⟨s',addedAll,inv',quiet'⟩ := ih inv₁ (quiet₁.delivered here) fun item member => wanted item (by
      simp only [flatMap_cons,mem_append]
      exact .inr member)
    refine ⟨s',by simp [addAll,added,addedAll],inv'.mono ?_,quiet₁.trans quiet'⟩
    rintro c ⟨⟨isTodo,notFirst⟩,notLater⟩
    refine ⟨isTodo,?_⟩
    rintro ⟨q,member⟩
    simp only [flatMap_cons,mem_append] at member
    rcases member with member | member
    · exact notFirst ⟨q,member⟩
    · exact notLater ⟨q,member⟩

end

/-! ### Nodes that come in -/

theorem decoded_branches {n : Node} (decodes : decoded hash d = .ok n) : ∃ bs, Sync.branches n = .ok bs := by
  obtain ⟨elems,rest,-,short | full⟩ := decodeNode_inv decodes
  · obtain ⟨kbuf,rest,key,r,rest',-,rfl,-⟩ := decodeShort_inv short
    exact ⟨_,rfl⟩
  · obtain ⟨ctx,children,elems',val,rest,-,-,rfl⟩ := decodeFull_inv full
    exact ⟨_,rfl⟩

theorem call_skips (notValue : ∀ v, child ≠ .value v) : s.call leaf req child = .ok (true,s) := by
  unfold call
  split
  · exact absurd rfl (notValue _)
  · rfl
/-- One round of `children`: a value is handed to the callback, and what is not there is requested. -/
theorem branch_spec (served : Served leaf blob root callback) (inv : Inv leaf blob root callback s extra (some p) todo)
    (here : Delivered s p) (named : req.hash = p) (nonzero : req.callback.isSome → p ≠ Hash.zero)
    (readable : ∀ k v, req.callback = some k → child = .value v → (leaf k v).isSome)
    (wanted : ∀ item ∈ itemsOf leaf req.callback child, Wanted leaf blob root callback item) (depth : Nat) :
    ∃ s', s.call leaf req child = .ok (true,s') ∧ Quiet p s s' ∧
      Inv leaf blob root callback s' extra (some p)
        (todo \ { c | ∃ q, (q,c) ∈ itemsOf leaf req.callback child } ∪ { c | ∃ r ∈ s'.request req child depth, r.hash = c }) ∧
      ∀ r ∈ s'.request req child depth, New leaf blob root callback s' r ∧ r.parents = [p] := by
  have nothing (none : itemsOf leaf req.callback child = []) : Inv leaf blob root callback s extra (some p)
      (todo \ { c | ∃ q, (q,c) ∈ itemsOf leaf req.callback child } ∪ { c | ∃ r ∈ s.request req child depth, r.hash = c }) := by
    refine inv.mono fun c isTodo => .inl ⟨isTodo,?_⟩
    simp [none]
  cases child with
  | hash h =>
    refine ⟨s,call_skips (by simp),.refl p s,?_⟩
    by_cases stored : Stored s h
    · have none : s.request req (.hash h) depth = [] := if_pos stored
      rw [none]
      refine ⟨(inv.skip stored).mono ?_,by simp⟩
      rintro c ⟨isTodo,differs⟩
      refine .inl ⟨isTodo,?_⟩
      simpa [itemsOf] using differs
    · have one : s.request req (.hash h) depth = [⟨h,none,false,[req.hash],req.depth + depth,0,req.callback⟩] := if_neg stored
      rw [one]
      refine ⟨inv.mono fun c isTodo => ?_,?_⟩
      · by_cases same : c = h
        · exact .inr ⟨_,mem_singleton_self _,same.symm⟩
        · exact .inl ⟨isTodo,by simpa [itemsOf] using same⟩
      · simp only [mem_singleton,forall_eq,named,and_true]
        exact ⟨⟨rfl,rfl⟩,wanted _ (by simp [itemsOf,Request.role]),stored⟩
  | value v =>
    cases isCallback : req.callback with
    | none =>
      refine ⟨s,by simp [call,isCallback],.refl p s,?_,by simp [Sync.request]⟩
      have := nothing (by simp [itemsOf,isCallback])
      rwa [isCallback] at this
    | some k =>
      obtain ⟨additions,read⟩ := Option.isSome_iff_exists.mp (readable k v isCallback rfl)
      have items : itemsOf leaf req.callback (.value v) = additions.flatMap (·.items) := by simp [itemsOf,isCallback,read]
      rw [items] at wanted
      obtain ⟨s',added,inv',quiet⟩ := addAll_spec inv here (nonzero (by simp [isCallback])) served wanted
      refine ⟨s',by simp [call,isCallback,read,named,added,Except.map],quiet,?_,by simp [Sync.request]⟩
      rw [← isCallback,items]
      exact inv'.mono fun c left => .inl left
  | nil | short _ _ _ | full _ _ =>
    refine ⟨s,call_skips (by simp),.refl p s,nothing rfl,by simp [Sync.request]⟩
theorem New.quiet (new : New leaf blob root callback s req) (quiet : Quiet p s s') :
    New leaf blob root callback s' req := ⟨new.fresh,new.wanted,quiet.stored ▸ new.absent⟩
variable {requests : List (Request κ)}
theorem childrenFrom_spec (served : Served leaf blob root callback) (req : Request κ) {bs : List (Node × Nat)}
    (inv : Inv leaf blob root callback s extra (some p)
      ({ c | ∃ branch ∈ bs, ∃ q, (q,c) ∈ itemsOf leaf req.callback branch.1 } ∪ { c | ∃ r ∈ requests, r.hash = c }))
    (here : Delivered s p) (named : req.hash = p) (nonzero : req.callback.isSome → p ≠ Hash.zero)
    (readable : ∀ branch ∈ bs, ∀ k v, req.callback = some k → branch.1 = .value v → (leaf k v).isSome)
    (wanted : ∀ branch ∈ bs, ∀ item ∈ itemsOf leaf req.callback branch.1, Wanted leaf blob root callback item)
    (news : ∀ r ∈ requests, New leaf blob root callback s r ∧ r.parents = [p]) :
    ∃ requests' s', childrenFrom leaf req bs requests s = .ok (.ok requests',s') ∧ Quiet p s s' ∧
      Inv leaf blob root callback s' extra (some p) { c | ∃ r ∈ requests', r.hash = c } ∧
      ∀ r ∈ requests', New leaf blob root callback s' r ∧ r.parents = [p] := by
  induction bs generalizing s requests with
  | nil => exact ⟨requests,s,rfl,.refl p s,by simpa using inv,news⟩
  | cons branch bs ih =>
    obtain ⟨child,depth⟩ := branch
    obtain ⟨s₁,called,quiet₁,inv₁,news₁⟩ := branch_spec served inv here named nonzero
      (readable _ mem_cons_self) (wanted _ mem_cons_self) depth
    have inv₁' : Inv leaf blob root callback s₁ extra (some p)
        ({ c | ∃ branch ∈ bs, ∃ q, (q,c) ∈ itemsOf leaf req.callback branch.1 } ∪
          { c | ∃ r ∈ requests ++ s₁.request req child depth, r.hash = c }) := by
      refine inv₁.mono ?_
      rintro c (⟨⟨branch,member,q,isItem⟩ | ⟨r,member,same⟩,notHere⟩ | ⟨r,member,same⟩)
      · rcases mem_cons.mp member with rfl | member
        · exact absurd ⟨q,isItem⟩ notHere
        · exact .inl ⟨branch,member,q,isItem⟩
      · exact .inr ⟨r,by simp [member],same⟩
      · exact .inr ⟨r,by simp [member],same⟩
    obtain ⟨requests',s',looped,quiet',inv',news'⟩ := ih inv₁' (quiet₁.delivered here)
      (fun branch member => readable branch (mem_cons_of_mem _ member))
      (fun branch member => wanted branch (mem_cons_of_mem _ member)) (by
        intro r member
        rcases mem_append.mp member with member | member
        · exact ⟨(news r member).1.quiet quiet₁,(news r member).2⟩
        · exact news₁ r member)
    exact ⟨requests',s',by simp [childrenFrom,called,looped],quiet₁.trans quiet',inv',news'⟩

theorem scheduleAll_spec
    (inv : Inv leaf blob root callback s (Multiset.replicate requests.length p + extra) (some p) { c | ∃ r ∈ requests, r.hash = c })
    (news : ∀ r ∈ requests, New leaf blob root callback s r ∧ r.parents = [p]) (found : s.requests.lookup p = some req) :
    Inv leaf blob root callback (requests.foldl schedule s) extra (some p) ∅ ∧
      Quiet p s (requests.foldl schedule s) ∧
      ∃ req', (requests.foldl schedule s).requests.lookup p = some req' ∧ req'.deps = req.deps := by
  induction requests generalizing s req with
  | nil => exact ⟨by simpa using inv,.refl p s,req,found,rfl⟩
  | cons r requests ih =>
    rw [length_cons,Multiset.replicate_succ,Multiset.cons_add] at inv
    obtain ⟨new,parents⟩ := news r mem_cons_self
    have inv₁ := schedule_spec inv parents new.fresh new.wanted new.absent
    have quiet₁ : Quiet p s (s.schedule r) := quiet_schedule inv.named r
    obtain ⟨req₁,found₁,-,sameDeps,-⟩ := schedule_kept inv.named r found
    obtain ⟨inv',quiet',req',found',sameDeps'⟩ := ih (inv₁.mono (by
        rintro c ⟨⟨r',member,same⟩,differs⟩
        rcases mem_cons.mp member with rfl | member
        · exact absurd same.symm differs
        · exact ⟨r',member,same⟩))
      (fun r' member => ⟨(news r' (mem_cons_of_mem _ member)).1.quiet quiet₁,(news r' (mem_cons_of_mem _ member)).2⟩)
      found₁
    exact ⟨inv',quiet₁.trans quiet',req',found',sameDeps'.trans sameDeps⟩
/-- The request has its count, so it is not in anybody's way. -/
theorem Inv.rest (inv : Inv leaf blob root callback s extra (some p) ∅) (found : s.requests.lookup p = some req)
    (depends : req.deps ≠ 0) : Inv leaf blob root callback s extra none ∅ := by
  refine { inv with waits := fun {hash r} found' came _ => ?_, covers := fun {hash r} found' came c below => ?_ }
  · by_cases same : hash = p
    · subst same
      rw [found] at found'
      exact Option.some.inj found' ▸ depends
    · exact inv.waits found' came fun busy => same (Option.some.inj busy).symm
  · exact (inv.covers found' came c below).imp_right (Or.imp_right fun left => left.2.elim)
theorem await_spec
    (inv : Inv leaf blob root callback s 0 (some p) { c | ∃ r ∈ requests, r.hash = c }) (here : Delivered s p)
    (news : ∀ r ∈ requests, New leaf blob root callback s r ∧ r.parents = [p]) :
    ∃ done s', s.await p requests = .ok (done,s') ∧ Inv leaf blob root callback s' 0 none ∅ ∧ Progress s s' := by
  obtain ⟨req,found,came⟩ := here
  by_cases complete : requests = [] ∧ req.deps = 0
  · obtain ⟨rfl,free⟩ := complete
    obtain ⟨s',committed,inv',progress,-⟩ := commit_spec (s.pending+1) (by simpa using inv) found came free (Nat.le_succ _)
    exact ⟨true,s',by simp [await,found,free,committed,Except.map],inv',progress⟩
  · have named := inv.named found
    have data := inv.data found
    have counted := inv.deps found
    have waiting : Inv leaf blob root callback (s.put (req.count requests.length)) (Multiset.replicate requests.length p + 0)
        (some p) { c | ∃ r ∈ requests, r.hash = c } := by
      refine inv.put found ⟨named,rfl,rfl⟩ data id ?_ ?_ ?_ (fun _ busy => absurd rfl busy) (fun _ _ => id)
        (fun _ => inv.covers found came) (fun _ _ _ isBusy isTodo => ⟨isBusy,isTodo⟩)
      · rw [Multiset.add_zero,Multiset.count_replicate_self]
        simp only [Request.count,counted,Multiset.count_zero]
        push_cast
        omega
      · intro q differs
        simp [Multiset.count_replicate,differs.symm]
      · intro q member
        rw [Multiset.add_zero] at member
        obtain rfl := Multiset.eq_of_mem_replicate member
        exact ⟨_,found,came⟩
    obtain ⟨inv',quiet,req',found',sameDeps⟩ := scheduleAll_spec waiting
      (fun r member => ⟨⟨(news r member).1.fresh,(news r member).1.wanted,(news r member).1.absent⟩,(news r member).2⟩) (put_found named)
    have depends : req'.deps ≠ 0 := by
      rw [sameDeps]
      simp only [Request.count]
      by_cases none : requests = []
      · subst none
        simpa using complete
      · have := length_pos_iff.mpr none
        omega
    refine ⟨false,_,by simp [await,found,if_neg complete],inv'.rest found' depends,?_⟩
    exact (progress_put s _).trans quiet.progress

/-- Nobody waits for a request that has not come in. -/
theorem Inv.unpointed (inv : Inv leaf blob root callback s 0 busy todo) (found : s.requests.lookup hash = some req)
    (open_ : req.data = none) : (pointers s).count hash = 0 ∧ req.deps = 0 := by
  have none : (pointers s).count hash = 0 := by
    refine Multiset.count_eq_zero.mpr fun pointed => ?_
    obtain ⟨r,found',came⟩ := inv.pointed pointed
    rw [found] at found'
    simp [← Option.some.inj found',open_] at came
  refine ⟨none,?_⟩
  rw [inv.deps found,none]
  rfl
/-- The data of a request comes in, and everything below it is still to be seen to. -/
theorem Inv.fill (inv : Inv leaf blob root callback s 0 none ∅) (found : s.requests.lookup hash = some req)
    (open_ : req.data = none) (correct : blob hash = some d) :
    Inv leaf blob root callback (s.put (req.fill d)) 0 (some hash) (TrieSync.kids leaf blob root callback hash) ∧
      (s.put (req.fill d)).requests.lookup hash = some (req.fill d) := by
  have named := inv.named found
  obtain ⟨unpointed,free⟩ := inv.unpointed found open_
  refine ⟨inv.put found ⟨named,rfl,rfl⟩ ?_ (fun _ => rfl) ?_ (fun _ _ => rfl) (by simp) (fun _ busy => absurd rfl busy)
    (fun _ _ _ => nofun) (fun _ c below => .inr (.inr ⟨rfl,below⟩)) (fun _ _ _ => nofun),?_⟩
  · intro d' same
    obtain rfl := Option.some.inj same
    exact correct
  · simp [Request.fill,free,unpointed]
  · exact put_found named
theorem processItem_spec (served : Served leaf blob root callback) (inv : Inv leaf blob root callback s 0 none ∅)
    {item : SyncResult} (correct : ∀ d, blob item.hash = some d → item.data = d) :
    ∃ r s', s.processItem leaf item = .ok (r,s') ∧ Inv leaf blob root callback s' 0 none ∅ ∧ Progress s s' := by
  cases found : s.requests.lookup item.hash with
  | none => exact ⟨.error .notRequested,s,by simp [processItem,found],inv,.refl s⟩
  | some req =>
    cases isData : req.data with
    | some d =>
      exact ⟨.error .alreadyProcessed,s,by simp [processItem,found,isData],inv,.refl s⟩
    | none =>
      have wanted := inv.wanted found
      have named := inv.named found
      cases isRaw : req.raw with
      | true =>
        rw [show req.role = .raw by simp [Request.role,isRaw]] at wanted
        obtain ⟨d,isBlob⟩ := Option.isSome_iff_exists.mp (served.entry wanted)
        obtain rfl := correct d isBlob
        obtain ⟨inv₁,found₁⟩ := inv.fill found isData isBlob
        have nothing : TrieSync.kids leaf blob root callback item.hash ⊆ ∅ := by
          rintro c ⟨role,q,wanted',isBelow⟩
          obtain ⟨q',impossible⟩ := served.agree wanted' wanted q c isBelow
          simp [below] at impossible
        obtain ⟨s',committed,inv',progress,-⟩ := commit_spec (s.pending+1) (inv₁.mono nothing) found₁ rfl
          (inv.unpointed found isData).2 (by
            simp only [pending,Sync.put,Request.fill,named]
            exact (length_insert found _).le.trans (Nat.le_succ _))
        refine ⟨.ok true,s',?_,inv',(progress_put s _).trans progress⟩
        simp [processItem,found,isData,isRaw,committed,Except.map]
      | false =>
        rw [show req.role = .trie req.callback by simp [Request.role,isRaw]] at wanted
        obtain ⟨d,n,isBlob,decodes,readable⟩ := served.node wanted
        obtain rfl := correct d isBlob
        obtain ⟨inv₁,found₁⟩ := inv.fill found isData isBlob
        obtain ⟨bs,branches⟩ := decoded_branches decodes
        have isBelow : below leaf blob (.trie req.callback,item.hash) = bs.flatMap fun branch => itemsOf leaf req.callback branch.1 := by
          simp [below,isBlob,decodes,branches,Except.toOption]
        have all : TrieSync.kids leaf blob root callback item.hash ⊆
            { c | ∃ branch ∈ bs, ∃ q, (q,c) ∈ itemsOf leaf req.callback branch.1 } ∪
              { c | ∃ r ∈ ([] : List (Request κ)), r.hash = c } := by
          rintro c ⟨role,q,wanted',isKid⟩
          obtain ⟨q',member⟩ := served.agree wanted' wanted q c isKid
          rw [isBelow,mem_flatMap] at member
          obtain ⟨branch,inBranches,isItem⟩ := member
          exact .inl ⟨branch,inBranches,q',isItem⟩
        have readable' : ∀ branch ∈ bs, ∀ k v, (req.fill item.data).callback = some k → branch.1 = .value v →
            (leaf k v).isSome := fun branch member k v => readable bs branch k v branches member
        have wanted' : ∀ branch ∈ bs, ∀ i ∈ itemsOf leaf (req.fill item.data).callback branch.1,
            Wanted leaf blob root callback i := by
          intro branch member i isItem
          refine .next wanted ?_
          rw [isBelow,mem_flatMap]
          exact ⟨branch,member,isItem⟩
        have nonzero : (req.fill item.data).callback.isSome → item.hash ≠ Hash.zero := by
          intro isSome
          obtain ⟨k,isCallback⟩ := Option.isSome_iff_exists.mp isSome
          exact served.nonzero (isCallback ▸ wanted)
        obtain ⟨requests,s₂,looped,quiet,inv₂,news⟩ := childrenFrom_spec served (req.fill item.data) (inv₁.mono all)
          ⟨_,found₁,rfl⟩ named nonzero readable' wanted' (by simp)
        obtain ⟨done,s',awaited,inv',progress⟩ := await_spec inv₂ (quiet.delivered ⟨_,found₁,rfl⟩) news
        refine ⟨.ok done,s',?_,inv',(progress_put s _).trans (quiet.progress.trans progress)⟩
        simp [processItem,found,isData,isRaw,decodes,Sync.children,branches,looped,awaited,Except.map]
theorem processFrom_spec (served : Served leaf blob root callback) (inv : Inv leaf blob root callback s 0 none ∅)
    {results : List SyncResult} (correct : ∀ item ∈ results, ∀ d, blob item.hash = some d → item.data = d) (i : Nat) (committed : Bool) :
    ∃ r s', processFrom leaf i committed results s = .ok (r,s') ∧ Inv leaf blob root callback s' 0 none ∅ ∧ Progress s s' := by
  induction results generalizing s i committed with
  | nil => exact ⟨_,s,rfl,inv,.refl s⟩
  | cons item results ih =>
    obtain ⟨r,s₁,processed,inv₁,progress₁⟩ := processItem_spec served inv (correct item mem_cons_self)
    cases r with
    | error e => exact ⟨(committed,i,some e),s₁,by simp [processFrom,processed],inv₁,progress₁⟩
    | ok done =>
      obtain ⟨r,s',all,inv',progress'⟩ := ih inv₁ (fun item member => correct item (mem_cons_of_mem _ member)) (i+1)
        (committed || done)
      exact ⟨r,s',by simp [processFrom,processed,all],inv',progress₁.trans progress'⟩

def Closed (leaf : LeafCallback κ) (blob : Hash → Option Bytes) (root : Hash) (callback : Option κ)
    (database : Hash → Option Bytes) : Prop :=
  ∀ hash, (database hash).isSome → ∀ c ∈ kids leaf blob root callback hash, (database c).isSome

theorem settled_empty (empty : s.membatch = newSyncMemBatch) (closed : Closed leaf blob root callback s.database)
    (base : ∀ hash d, s.database hash = some d → blob hash = some d) : Settled leaf blob root callback s := by
  refine ⟨?_,?_,?_,?_,?_,closed,base⟩ <;> simp [empty,newSyncMemBatch]
theorem store_isSome (database : Hash → Option Bytes) (puts : List (Hash × Bytes)) (hash : Hash) :
    (store database puts hash).isSome ↔ (database hash).isSome ∨ hash ∈ puts.map fst := by
  induction puts generalizing database with
  | nil => simp [store]
  | cons put puts ih =>
    have := ih (update database put.1 (some put.2))
    simp only [store,foldl_cons] at this ⊢
    rw [this]
    by_cases same : hash = put.1
    · simp [same]
    · simp [same]
theorem store_append (database : Hash → Option Bytes) (first second : List (Hash × Bytes)) :
    store database (first ++ second) = store (store database first) second := foldl_append
theorem store_correct (base : ∀ hash d, database hash = some d → blob hash = some d)
    {puts : List (Hash × Bytes)} (correct : ∀ put ∈ puts, blob put.1 = some put.2) :
    ∀ hash d, store database puts hash = some d → blob hash = some d := by
  induction puts generalizing database with
  | nil => exact base
  | cons put puts ih =>
    refine ih ?_ fun put member => correct put (mem_cons_of_mem _ member)
    intro hash d found
    by_cases same : hash = put.1
    · subst same
      obtain rfl : put.2 = d := by simpa using found
      exact correct put mem_cons_self
    · exact base hash d (by simpa only [update_of_ne same] using found)

theorem Settled.puts (settled : Settled leaf blob root callback s) : s.puts.map fst = s.membatch.order ∧
    ∀ put ∈ s.puts, blob put.1 = some put.2 := by
  refine ⟨by simp [Sync.puts,comp_def],?_⟩
  simp only [Sync.puts,mem_map]
  rintro put ⟨key,member,rfl⟩
  obtain ⟨d,isData⟩ := Option.isSome_iff_exists.mp ((settled.listed key).mpr member)
  simpa [isData] using settled.batch key d isData
/-- Each of the writes leaves the database closed. -/
theorem Settled.closes (settled : Settled leaf blob root callback s)
    (split : s.puts = front ++ back) : Closed leaf blob root callback (store s.database front) := by
  intro hash stored c isKid
  rw [store_isSome] at stored ⊢
  rcases stored with inDatabase | inFront
  · exact .inl (settled.closed hash inDatabase c isKid)
  · obtain ⟨before,after,around⟩ := append_of_mem inFront
    have order : s.membatch.order = before ++ hash :: (after ++ back.map fst) := by
      rw [← settled.puts.1,split,map_append,around]
      simp
    rcases settled.ordered before hash _ order c isKid with inDatabase | earlier
    · exact .inl inDatabase
    · exact .inr (by rw [around]; simp [earlier])
/-- A commit puts the front of the batch into the database. The batch stays, or all of it was put and it is empty. -/
theorem commitTo_shape (s : Sync κ) (fails : Option Nat) : ∃ front back batch, s.puts = front ++ back ∧
    s.commitTo fails = (front,{ s with database := store s.database front, membatch := batch }) ∧
    (batch = s.membatch ∨ batch = newSyncMemBatch ∧ back = []) := by
  cases fails with
  | none => exact ⟨s.puts,[],_,(append_nil _).symm,rfl,.inr ⟨rfl,rfl⟩⟩
  | some i =>
    by_cases early : i < s.puts.length
    · exact ⟨s.puts.take i,s.puts.drop i,_,(take_append_drop _ _).symm,if_pos early,.inl rfl⟩
    · exact ⟨s.puts,[],_,(append_nil _).symm,if_neg early,.inr ⟨rfl,rfl⟩⟩
theorem commitTo_requests (s : Sync κ) (fails : Option Nat) : (s.commitTo fails).2.requests = s.requests := by
  obtain ⟨front,back,batch,-,same,-⟩ := commitTo_shape s fails
  rw [same]
theorem Settled.commitTo (settled : Settled leaf blob root callback s) {batch : MemBatch}
    (split : s.puts = front ++ back) (batches : batch = s.membatch ∨ batch = newSyncMemBatch ∧ back = []) :
    Settled leaf blob root callback { s with database := store s.database front, membatch := batch } ∧
      Stored { s with database := store s.database front, membatch := batch } = Stored s := by
  obtain ⟨keys,correct⟩ := settled.puts
  have closed := settled.closes split
  have written := store_correct settled.database fun put (member : put ∈ front) => correct put (by rw [split]; exact mem_append_left _ member)
  rcases batches with rfl | ⟨rfl,rfl⟩
  · refine ⟨{ settled with ordered := ?_, closed := closed, database := written },?_⟩
    · intro before hash rest order c isKid
      rw [store_isSome]
      exact (settled.ordered before hash rest order c isKid).imp_left .inl
    · funext c
      have listed : c ∈ front.map fst → (s.membatch.batch c).isSome := by
        rw [settled.listed,← keys,split,map_append]
        exact mem_append_left _
      apply propext
      simp only [Stored,store_isSome]
      tauto
  · refine ⟨settled_empty rfl closed written,?_⟩
    funext c
    rw [append_nil] at split
    simp [Stored,newSyncMemBatch,store_isSome,← split,keys,settled.listed c,or_comm]
theorem Inv.commitTo (inv : Inv leaf blob root callback s 0 none ∅) (fails : Option Nat) :
    Inv leaf blob root callback (s.commitTo fails).2 0 none ∅ := by
  obtain ⟨front,back,batch,split,same,batches⟩ := commitTo_shape s fails
  obtain ⟨settled,stored⟩ := inv.toSettled.commitTo split batches
  rw [same]
  refine { inv with toSettled := settled, absent := ?_, more := by simp, covers := ?_, started := ?_ }
  · rw [stored]
    exact inv.absent
  · rw [stored]
    exact inv.covers
  · rw [stored]
    exact inv.started

/-! ### Runs -/

/-- Data that comes in is what its hash stands for. -/
def Correct (blob : Hash → Option Bytes) : Sync.Op → Prop
  | .process results => ∀ item ∈ results, ∀ d, blob item.hash = some d → item.data = d
  | _ => True
/-- No write fails. -/
def Reliable : Sync.Op → Prop
  | .commit fails => fails = none
  | _ => True
/-- Nothing in the batch is in the database already. -/
def Unwritten (s : Sync κ) : Prop := ∀ hash ∈ s.membatch.order, s.database hash = none

/-- One call: it returns, its writes leave the database closed one by one, and they are of the right data. -/
theorem step_spec (served : Served leaf blob root callback) (inv : Inv leaf blob root callback s 0 none ∅) {op : Sync.Op}
    (correct : Correct blob op) : ∃ puts s', s.step leaf op = .ok (puts,s') ∧ Inv leaf blob root callback s' 0 none ∅ ∧
      s'.database = store s.database puts ∧
      (∀ front back, puts = front ++ back → Closed leaf blob root callback (store s.database front)) ∧
      (∀ put ∈ puts, blob put.1 = some put.2 ∧ ∃ role, Wanted leaf blob root callback (role,put.1)) ∧
      (Reliable op → Unwritten s → Unwritten s' ∧ (puts.map fst).Nodup ∧ ∀ put ∈ puts, s.database put.1 = none) := by
  have unchanged : ∀ front back, ([] : List (Hash × Bytes)) = front ++ back →
      Closed leaf blob root callback (store s.database front) := by
    intro front back none
    obtain ⟨rfl,-⟩ := append_eq_nil_iff.mp none.symm
    exact inv.closed
  cases op with
  | missing max =>
    refine ⟨[],(s.missing max).2,rfl,?_,rfl,unchanged,by simp,fun _ unwritten => ⟨unwritten,by simp,by simp⟩⟩
    exact { inv with }
  | process results =>
    obtain ⟨r,s',processed,inv',progress⟩ := processFrom_spec served inv correct 0 false
    refine ⟨[],s',?_,inv',progress.database,unchanged,by simp,fun _ unwritten => ⟨?_,by simp,by simp⟩⟩
    · simp [step,Sync.process,processed,Except.map]
    · intro hash member
      rw [progress.database]
      exact (progress.order hash member).elim (unwritten hash) id
  | commit fails =>
    obtain ⟨keys,right⟩ := inv.toSettled.puts
    obtain ⟨puts,rest,batch,split,same,-⟩ := commitTo_shape s fails
    have inv' := inv.commitTo fails
    rw [same] at inv'
    refine ⟨puts,_,congrArg Except.ok same,inv',rfl,?_,?_,?_⟩
    · intro front back split'
      exact inv.toSettled.closes (by rw [split,split',append_assoc])
    · intro put member
      have among : put ∈ s.puts := by
        rw [split]
        exact mem_append_left _ member
      exact ⟨right put among,inv.asked put.1 (keys ▸ mem_map_of_mem among)⟩
    · rintro rfl unwritten
      obtain rfl : s.puts = puts := congrArg fst same
      obtain rfl : newSyncMemBatch = batch := congrArg (fun r => r.2.membatch) same
      refine ⟨by simp [Unwritten,newSyncMemBatch],keys ▸ inv.once,?_⟩
      intro put member
      refine unwritten put.1 ?_
      rw [← keys]
      exact mem_map_of_mem member
theorem run_spec (served : Served leaf blob root callback) (inv : Inv leaf blob root callback s 0 none ∅) {ops : List Sync.Op}
    (correct : ∀ op ∈ ops, Correct blob op) : ∃ puts s', run leaf ops s = .ok (puts,s') ∧
      Inv leaf blob root callback s' 0 none ∅ ∧ s'.database = store s.database puts ∧
      (∀ front back, puts = front ++ back → Closed leaf blob root callback (store s.database front)) ∧
      (∀ put ∈ puts, blob put.1 = some put.2 ∧ ∃ role, Wanted leaf blob root callback (role,put.1)) ∧
      ((∀ op ∈ ops, Reliable op) → Unwritten s → (puts.map fst).Nodup ∧ ∀ put ∈ puts, s.database put.1 = none) := by
  induction ops generalizing s with
  | nil =>
    refine ⟨[],s,rfl,inv,rfl,?_,by simp,by simp⟩
    intro front back none
    obtain ⟨rfl,-⟩ := append_eq_nil_iff.mp none.symm
    exact inv.closed
  | cons op ops ih =>
    obtain ⟨puts₁,s₁,stepped,inv₁,database₁,closed₁,right₁,once₁⟩ := step_spec served inv (correct op mem_cons_self)
    obtain ⟨puts₂,s',ran,inv',database',closed',right',once'⟩ := ih inv₁ fun op member => correct op (mem_cons_of_mem _ member)
    refine ⟨puts₁ ++ puts₂,s',by simp [run,stepped,ran,Except.map],inv',?_,?_,?_,?_⟩
    · rw [database',database₁,store_append]
    · intro front back split
      rcases append_eq_append_iff.mp split with ⟨middle,rfl,split'⟩ | ⟨middle,split',rfl⟩
      · rw [store_append,← database₁]
        exact closed' middle back split'
      · exact closed₁ front middle split'
    · intro put member
      rcases mem_append.mp member with member | member
      · exact right₁ put member
      · exact right' put member
    · intro reliable unwritten
      obtain ⟨unwritten₁,nodup₁,fresh₁⟩ := once₁ (reliable op mem_cons_self) unwritten
      obtain ⟨nodup',fresh'⟩ := once' (fun op member => reliable op (mem_cons_of_mem _ member)) unwritten₁
      have later : ∀ put ∈ puts₂, s.database put.1 = none ∧ put.1 ∉ puts₁.map fst := by
        intro put member
        have absent := fresh' put member
        rw [database₁,← Option.not_isSome_iff_eq_none,store_isSome,not_or,Option.not_isSome_iff_eq_none] at absent
        exact absent
      constructor
      · rw [map_append,nodup_append]
        refine ⟨nodup₁,nodup',?_⟩
        rintro a first b second rfl
        obtain ⟨put,member,rfl⟩ := mem_map.mp second
        exact (later put member).2 first
      · intro put member
        rcases mem_append.mp member with member | member
        · exact fresh₁ put member
        · exact (later put member).1

theorem newSync_spec (served : Served leaf blob root callback)
    (base : ∀ hash d, database hash = some d → blob hash = some d) (closed : Closed leaf blob root callback database) :
    ∃ s, newSync root database callback = .ok s ∧ Inv leaf blob root callback s 0 none ∅ ∧ s.database = database ∧
      Unwritten s := by
  have settled : ∀ requests queue, Settled leaf blob root callback ⟨database,newSyncMemBatch,requests,queue⟩ :=
    fun requests queue => settled_empty rfl closed base
  have idle : root = emptyRoot ∨ (database root).isSome → Inv leaf blob root callback ⟨database,newSyncMemBatch,∅,[]⟩ 0 none ∅ := by
    intro done
    refine ⟨settled _ _,?_,?_,?_,?_,?_,?_,?_,?_,?_,done.imp_right fun inDatabase => .inl (.inr inDatabase)⟩ <;> simp
  by_cases empty : root = emptyRoot
  · exact ⟨_,if_pos empty,idle (.inl empty),rfl,by simp [Unwritten,newSyncMemBatch]⟩
  have wanted : Wanted leaf blob root callback (.trie callback,root) := .root empty
  by_cases inDatabase : (database root).isSome
  · obtain ⟨d,found⟩ := Option.isSome_iff_exists.mp inDatabase
    obtain ⟨d',n,isBlob,decodes,-⟩ := served.node wanted
    obtain rfl : d = d' := Option.some.inj ((base root d found).symm.trans isBlob)
    exact ⟨_,by simp [newSync,addSubTrie,empty,newSyncMemBatch,found,decodes],idle (.inr inDatabase),rfl,
      by simp [Unwritten,newSyncMemBatch]⟩
  have missing : database root = none := Option.not_isSome_iff_eq_none.mp inDatabase
  refine ⟨⟨database,newSyncMemBatch,insert root ⟨root,none,false,[],0,0,callback⟩ ∅,[(root,0)]⟩,?_,?_,rfl,
    by simp [Unwritten,newSyncMemBatch]⟩
  · simp [newSync,addSubTrie,empty,newSyncMemBatch,missing,decoded_nil,scheduleBelow,schedule]
  have only : ∀ {hash : Hash} {req : Request κ}, (insert root ⟨root,none,false,[],0,0,callback⟩ ∅ : AList fun _ : Hash => Request κ).lookup
      hash = some req → hash = root ∧ req = ⟨root,none,false,[],0,0,callback⟩ := by
    intro hash req found
    by_cases same : hash = root
    · subst same
      rw [lookup_insert] at found
      exact ⟨rfl,(Option.some.inj found).symm⟩
    · rw [lookup_insert_ne same] at found
      simp at found
  have free : pointers (⟨database,newSyncMemBatch,insert root ⟨root,none,false,[],0,0,callback⟩ ∅,[(root,0)]⟩ : Sync κ) = 0 := by
    refine Multiset.eq_zero_of_forall_notMem fun p pointed => ?_
    obtain ⟨q,req,found,member⟩ := mem_pointers.mp pointed
    obtain ⟨rfl,rfl⟩ := only found
    simp at member
  refine ⟨settled _ _,?_,?_,?_,?_,?_,by simp,?_,?_,?_,.inr (.inr (by rw [lookup_insert]; rfl))⟩
  all_goals
    intro hash req found
    obtain ⟨rfl,rfl⟩ := only found
  · rfl
  · exact wanted
  · simp
  · simp [Stored,newSyncMemBatch,missing]
  · simp
  · rw [free]
    simp
  · simp
  · simp
/-- When nothing is pending, everything that is wanted is stored, and after a commit it is in the database. -/
theorem Inv.complete (inv : Inv leaf blob root callback s 0 none ∅) (done : s.pending = 0) {role : Role κ}
    (wanted : Wanted leaf blob root callback (role,hash)) : ((s.commitTo none).2.database hash).isSome := by
  have inv' := inv.commitTo none
  have inDatabase : ∀ {c}, Stored (s.commitTo none).2 c → ((s.commitTo none).2.database c).isSome := by
    rintro c (inBatch | inDatabase)
    · simp [Sync.commitTo,newSyncMemBatch] at inBatch
    · exact inDatabase
  generalize reached : (role,hash) = item at wanted
  induction wanted generalizing role hash with
  | root some =>
    obtain ⟨-,rfl⟩ := mk.inj reached
    rcases inv'.started with empty | stored | waiting
    · exact absurd empty some
    · exact inDatabase stored
    · have none : s.requests.entries = [] := length_eq_zero_iff.mp done
      rw [commitTo_requests,AList.lookup,none] at waiting
      simp at waiting
  | next wanted isBelow ih =>
    rename_i item item'
    obtain ⟨role',hash'⟩ := item
    subst reached
    exact inv'.closed hash' (ih rfl) hash ⟨role',role,wanted,isBelow⟩

end

end Canchain.TrieSync
