import Canchain.StateSync
import Mathlib.Data.FinEnum
import Mathlib.Data.Finite.Vector
import Mathlib.Data.Set.Card
import Mathlib.Logic.Relation

/-!
What a download makes of bad items. One that is not asked for, or that cannot be decoded,
leaves everything as it was. One whose values the callback refuses does not: the request counts
as processed, and the right data is turned away. Without such items a download goes on as if
the bad ones had not been there, and it ends when all data has come in.
-/
namespace Canchain.TrieSync
open Rlp Common TrieNode List Option Function Except Prod
set_option linter.unusedSectionVars false
variable {bs : List (Node × Nat)} {committed start : Bool} {outcome : Except SyncError Bool} {i n : Nat} {results : List SyncResult} {ops : List Sync.Op}

section
variable {κ : Type} {leaf : LeafCallback κ} {blob : Hash → Option Bytes} {root : Hash} {callback : Option κ}
variable {kid : Hash → Hash → Prop} {s s' : Sync κ} {hash p : Hash} {req r : Request κ} {item : SyncResult}

/-! ### Where requests point to -/

/-- Requests stand under their hashes, and point only to what they are below. -/
def Aimed (kid : Hash → Hash → Prop) (s : Sync κ) : Prop :=
  ∀ hash req, s.requests.lookup hash = some req → req.hash = hash ∧ ∀ p ∈ req.parents, kid p hash
/-- Wherever requests point to, they stand under their hashes. -/
theorem Aimed.named (aimed : Aimed kid s) : Aimed (fun _ _ => True) s := fun hash req found => ⟨(aimed hash req found).1,fun _ _ => trivial⟩
/-- What has come in is still there, or in the batch. -/
structure Follows (s s' : Sync κ) : Prop where
  database : s'.database = s.database
  batch : ∀ hash ∈ s.membatch.order, hash ∈ s'.membatch.order
  delivered : ∀ hash, Delivered s hash → hash ∈ s'.membatch.order ∨ Delivered s' hash

theorem Follows.refl (s : Sync κ) : Follows s s := ⟨rfl,fun _ => id,fun _ => .inr⟩
theorem Follows.trans {s'' : Sync κ} (first : Follows s s') (second : Follows s' s'') : Follows s s'' := by
  refine ⟨second.database.trans first.database,fun hash member => second.batch hash (first.batch hash member),?_⟩
  intro hash came
  rcases first.delivered hash came with member | came
  · exact .inl (second.batch hash member)
  · exact second.delivered hash came
variable (kid) in
/-- Requests are aimed as before, and only requests have changed. -/
def Steady (s s' : Sync κ) : Prop := Aimed kid s → Aimed kid s' ∧ ∀ p, Quiet p s s'
variable (kid) in
/-- Requests are aimed as before, and what has come in is not lost. -/
def Onward (s s' : Sync κ) : Prop := Aimed kid s → Aimed kid s' ∧ Follows s s'

theorem Steady.of_eq (same : s = s') : Steady kid s s' := fun aimed => ⟨same ▸ aimed,fun p => same ▸ .refl p s⟩
theorem Steady.trans {s'' : Sync κ} (first : Steady kid s s') (second : Steady kid s' s'') : Steady kid s s'' := by
  intro aimed
  obtain ⟨aimed₁,quiet₁⟩ := first aimed
  obtain ⟨aimed₂,quiet₂⟩ := second aimed₁
  exact ⟨aimed₂,fun p => (quiet₁ p).trans (quiet₂ p)⟩
theorem Steady.onward (steady : Steady kid s s') : Onward kid s s' := by
  intro aimed
  obtain ⟨aimed',quiet⟩ := steady aimed
  refine ⟨aimed',(quiet Hash.zero).database,fun hash member => ?_,fun hash came => .inr ((quiet hash).delivered came)⟩
  rwa [(quiet Hash.zero).membatch]
theorem Onward.trans {s'' : Sync κ} (first : Onward kid s s') (second : Onward kid s' s'') : Onward kid s s'' := by
  intro aimed
  obtain ⟨aimed₁,follows₁⟩ := first aimed
  obtain ⟨aimed₂,follows₂⟩ := second aimed₁
  exact ⟨aimed₂,follows₁.trans follows₂⟩

private theorem steady_put (found : s.requests.lookup hash = some req) (sameHash : r.hash = req.hash) (sameParents : r.parents = req.parents)
    (keeps : req.data.isSome → r.data.isSome) : Steady kid s (s.put r) := by
  intro aimed
  obtain ⟨named,points⟩ := aimed hash req found
  have look (other : Hash) : (s.put r).requests.lookup other = if other = hash then some r else s.requests.lookup other := by
    rw [lookup_put,sameHash,named]
  refine ⟨fun other q found' => ?_,fun p => ⟨rfl,rfl,?_⟩⟩
  · rw [look] at found'
    split at found'
    · rename_i isIt
      obtain rfl := some.inj found'
      rw [isIt,sameParents]
      exact ⟨sameHash.trans named,points⟩
    · exact aimed other q found'
  · rintro ⟨old,found',came⟩
    unfold Delivered
    rw [look]
    split
    · rename_i isIt
      rw [isIt,found] at found'
      obtain rfl := some.inj found'
      exact ⟨r,rfl,keeps came⟩
    · exact ⟨old,found',came⟩
private theorem steady_schedule (points : ∀ p ∈ r.parents, kid p r.hash) : Steady kid s (s.schedule r) := by
  refine fun aimed => ⟨fun other q found => ?_,fun p => quiet_schedule (fun found => (aimed _ _ found).1) r⟩
  rw [lookup_schedule fun found => (aimed _ _ found).1] at found
  split at found
  · rename_i isIt
    obtain rfl := some.inj found
    unfold merged
    split
    · rename_i old isOld
      refine ⟨(aimed _ _ isOld).1.trans isIt.symm,fun p member => ?_⟩
      rcases mem_append.mp member with before | added
      · exact isIt ▸ (aimed _ _ isOld).2 p before
      · exact isIt ▸ points p added
    · exact ⟨isIt.symm,isIt ▸ points⟩
  · exact aimed other q found
private theorem steady_scheduleBelow {lost : Fault} (orphan : req.parents = []) (points : p ≠ Hash.zero → kid p req.hash)
    (done : s.scheduleBelow req p lost = .ok s') : Steady kid s s' := by
  unfold Sync.scheduleBelow at done
  split at done
  · rename_i nonzero
    split at done
    · cases done
    · rename_i ancestor found
      obtain rfl := ok.inj done
      refine (steady_put found (r := ancestor.count 1) rfl rfl id).trans (steady_schedule fun q member => ?_)
      rw [Request.join,orphan,nil_append,mem_singleton] at member
      exact member ▸ points nonzero
  · obtain rfl := ok.inj done
    exact steady_schedule (by simp [orphan])
/-- What a callback adds points to the node of its value. -/
theorem steady_add {a : Addition κ} (points : ∀ i ∈ a.items, p ≠ Hash.zero → kid p i.2) (done : s.add p a = .ok s') : Steady kid s s' := by
  cases a with
  | subTrie root depth callback =>
    simp only [Sync.add,Sync.addSubTrie] at done
    split at done
    · exact .of_eq (ok.inj done)
    rename_i some
    split at done
    · exact .of_eq (ok.inj done)
    split at done
    · exact .of_eq (ok.inj done)
    · cases done
    · exact steady_scheduleBelow rfl (points (.trie callback,root) (by simp [Addition.items,some])) done
  | rawEntry hash depth =>
    simp only [Sync.add,Sync.addRawEntry] at done
    split at done
    · exact .of_eq (ok.inj done)
    rename_i some
    split at done
    · exact .of_eq (ok.inj done)
    split at done
    · exact .of_eq (ok.inj done)
    · exact steady_scheduleBelow rfl (points (.raw,hash) (by simp [Addition.items,some])) done
private theorem steady_addAll {additions : List (Addition κ)} (points : ∀ a ∈ additions, ∀ i ∈ a.items, kid p i.2)
    (done : Sync.addAll p additions s = .ok s') : Steady kid s s' := by
  induction additions generalizing s with
  | nil => exact .of_eq (ok.inj done)
  | cons a additions ih =>
    simp only [Sync.addAll] at done
    split at done
    · cases done
    · rename_i added
      exact (steady_add (fun i member _ => points a mem_cons_self i member) added).trans
        (ih (fun a member => points a (mem_cons_of_mem _ member)) done)
private theorem steady_call {child : Node} {passes : Bool} (points : ∀ i ∈ itemsOf leaf req.callback child, kid req.hash i.2)
    (done : s.call leaf req child = .ok (passes,s')) : Steady kid s s' := by
  unfold Sync.call at done
  split at done
  · rename_i k v isCallback
    split at done
    · exact .of_eq (mk.inj (ok.inj done)).2
    · rename_i additions reads
      obtain ⟨s₁,added,same⟩ := Runs.map_ok.mp done
      obtain ⟨-,rfl⟩ := mk.inj same
      refine steady_addAll (fun a member i isItem => points i ?_) added
      simp only [itemsOf,isCallback,reads,getD_some,mem_flatMap]
      exact ⟨a,member,isItem⟩
  · exact .of_eq (mk.inj (ok.inj done)).2
private theorem steady_childrenFrom {requests : List (Request κ)} {outcome : Except SyncError (List (Request κ))}
    (points : ∀ branch ∈ bs, ∀ i ∈ itemsOf leaf req.callback branch.1, kid req.hash i.2)
    (ready : ∀ q ∈ requests, ∀ p ∈ q.parents, kid p q.hash) (done : Sync.childrenFrom leaf req bs requests s = .ok (outcome,s')) :
    Steady kid s s' ∧ ∀ news, outcome = .ok news → ∀ q ∈ news, ∀ p ∈ q.parents, kid p q.hash := by
  induction bs generalizing s requests with
  | nil =>
    obtain ⟨rfl,rfl⟩ := mk.inj (ok.inj done)
    refine ⟨.of_eq rfl,fun news same => ?_⟩
    obtain rfl := ok.inj same
    exact ready
  | cons branch bs ih =>
    obtain ⟨child,depth⟩ := branch
    have here := points (child,depth) mem_cons_self
    simp only [Sync.childrenFrom] at done
    split at done
    · cases done
    · rename_i s₁ called
      obtain ⟨rfl,rfl⟩ := mk.inj (ok.inj done)
      exact ⟨steady_call here called,by simp⟩
    · rename_i s₁ called
      obtain ⟨steady,news⟩ := ih (fun branch member => points branch (mem_cons_of_mem _ member)) (by
        intro q member p isParent
        rcases mem_append.mp member with before | new
        · exact ready q before p isParent
        · unfold Sync.request at new
          split at new
          · rename_i h
            split at new
            · cases new
            · obtain rfl := mem_singleton.mp new
              obtain rfl := mem_singleton.mp isParent
              exact here (.trie req.callback,h) (by simp [itemsOf])
          · cases new) done
      exact ⟨(steady_call here called).trans steady,news⟩
private theorem steady_scheduleAll {requests : List (Request κ)} (points : ∀ q ∈ requests, ∀ p ∈ q.parents, kid p q.hash) :
    Steady kid s (requests.foldl Sync.schedule s) := by
  induction requests generalizing s with
  | nil => exact .of_eq rfl
  | cons r requests ih => exact (steady_schedule (points r mem_cons_self)).trans (ih fun q member => points q (mem_cons_of_mem _ member))

private theorem onward_settle (req : Request κ) : Onward kid s (s.settle req) := by
  refine fun aimed => ⟨fun other r found => ?_,rfl,fun hash member => mem_append_left _ member,fun other came => ?_⟩
  · rw [lookup_settle] at found
    split at found
    · cases found
    · exact aimed other r found
  · by_cases same : other = req.hash
    · subst same
      exact .inl (mem_append_right _ (mem_singleton_self _))
    · exact .inr (delivered_settle came same)
private theorem onward_releaseAll {commit : Hash → Sync κ → Except Fault (Sync κ)}
    (commits : ∀ {hash : Hash} {s s' : Sync κ}, commit hash s = .ok s' → Onward kid s s')
    {parents : List Hash} (done : Sync.releaseAll commit parents s = .ok s') : Onward kid s s' := by
  induction parents generalizing s with
  | nil => exact (Steady.of_eq (ok.inj done)).onward
  | cons p parents ih =>
    simp only [Sync.releaseAll] at done
    split at done
    · cases done
    · rename_i parent found
      have counted : Onward kid s _ := (steady_put found (r := parent.count (-1)) rfl rfl id).onward
      split at done
      · split at done
        · cases done
        · rename_i committed
          exact counted.trans ((commits committed).trans (ih done))
      · exact counted.trans (ih done)
private theorem onward_commit (fuel : Nat) (done : Sync.commit fuel hash s = .ok s') : Onward kid s s' := by
  induction fuel generalizing s s' hash with
  | zero => cases done
  | succ fuel ih =>
    simp only [Sync.commit] at done
    split at done
    · cases done
    · rename_i req found
      exact (onward_settle req).trans (onward_releaseAll ih done)
private theorem onward_await {requests : List (Request κ)} (points : ∀ q ∈ requests, ∀ p ∈ q.parents, kid p q.hash)
    (done : s.await hash requests = .ok (committed,s')) : Onward kid s s' := by
  unfold Sync.await at done
  split at done
  · cases done
  · rename_i req found
    split at done
    · obtain ⟨s₁,ran,same⟩ := Runs.map_ok.mp done
      obtain ⟨-,rfl⟩ := mk.inj same
      exact onward_commit _ ran
    · obtain ⟨-,rfl⟩ := mk.inj (ok.inj done)
      exact ((steady_put found (r := req.count requests.length) rfl rfl id).trans (steady_scheduleAll points)).onward

/-! ### Items -/

/-- The item is for a request that waits for a node and can be decoded, but the callback of the request refuses a value in it. -/
def BadLeaf (leaf : LeafCallback κ) (s : Sync κ) (item : SyncResult) : Prop :=
  ∃ req node bs k v, s.requests.lookup item.hash = some req ∧ req.data = none ∧ req.raw = false ∧
    Sync.decoded item.hash item.data = .ok node ∧ Sync.branches node = .ok bs ∧ req.callback = some k ∧
    Node.value v ∈ bs.map Prod.fst ∧ leaf k v = none
/-- The item is what the request can be met with: bytes, or a node whose values its callback reads. -/
def Valid (leaf : LeafCallback κ) (req : Request κ) (item : SyncResult) : Prop :=
  req.raw = true ∨ ∃ node bs, Sync.decoded item.hash item.data = .ok node ∧ Sync.branches node = .ok bs ∧
    ∀ k v, req.callback = some k → Node.value v ∈ bs.map Prod.fst → (leaf k v).isSome

variable {e : SyncError}
private theorem childrenFrom_error {requests : List (Request κ)}
    (done : Sync.childrenFrom leaf req bs requests s = .ok (.error e,s')) :
    ∃ k v, req.callback = some k ∧ Node.value v ∈ bs.map fst ∧ leaf k v = none := by
  induction bs generalizing s requests with
  | nil => cases done
  | cons branch bs ih =>
    obtain ⟨child,depth⟩ := branch
    simp only [Sync.childrenFrom] at done
    split at done
    · cases done
    · rename_i s₁ called
      unfold Sync.call at called
      split at called
      · rename_i k v isCallback
        split at called
        · rename_i refused
          exact ⟨k,v,isCallback,mem_cons_self,refused⟩
        · obtain ⟨s₁,added,⟨⟩⟩ := Runs.map_ok.mp called
      · cases called
    · obtain ⟨k,v,isCallback,member,refused⟩ := ih done
      exact ⟨k,v,isCallback,mem_cons_of_mem _ member,refused⟩
/-- What becomes of an item: it is turned away at once, or its data is kept, and then it is committed, refused by the callback, or
    what is below it is asked for. -/
theorem processItem_inv (done : s.processItem leaf item = .ok (outcome,s')) :
    ((∃ e, outcome = .error e) ∧ s' = s ∧ ∀ req, s.requests.lookup item.hash = some req → req.data.isSome ∨
      req.raw = false ∧ ∀ node, Sync.decoded item.hash item.data ≠ .ok node) ∨
    ∃ req, s.requests.lookup item.hash = some req ∧ req.data = none ∧
      ((∃ committed, outcome = .ok committed ∧ req.raw = true ∧
        Sync.commit (s.pending+1) item.hash (s.put (req.fill item.data)) = .ok s') ∨
      ∃ node bs below s₁, req.raw = false ∧ Sync.decoded item.hash item.data = .ok node ∧ Sync.branches node = .ok bs ∧
        Sync.childrenFrom leaf (req.fill item.data) bs [] (s.put (req.fill item.data)) = .ok (below,s₁) ∧
        ((∃ e, below = .error e ∧ outcome = .error e ∧ s' = s₁) ∨
          ∃ requests committed, below = .ok requests ∧ outcome = .ok committed ∧ s₁.await item.hash requests = .ok (committed,s'))) := by
  unfold Sync.processItem at done
  split at done
  · rename_i missing
    obtain ⟨rfl,rfl⟩ := mk.inj (ok.inj done)
    exact .inl ⟨⟨_,rfl⟩,rfl,by simp [missing]⟩
  rename_i req found
  split at done
  · rename_i came
    obtain ⟨rfl,rfl⟩ := mk.inj (ok.inj done)
    refine .inl ⟨⟨_,rfl⟩,rfl,fun req' found' => ?_⟩
    obtain rfl := some.inj (found.symm.trans found')
    exact .inl came
  rename_i waits
  have isData : req.data = none := by simpa using waits
  split at done
  · rename_i isRaw
    obtain ⟨s₁,ran,same⟩ := Runs.map_ok.mp done
    obtain ⟨rfl,rfl⟩ := mk.inj same
    exact .inr ⟨req,found,isData,.inl ⟨true,rfl,isRaw,ran⟩⟩
  rename_i notRaw
  have isNode : req.raw = false := by simpa using notRaw
  split at done
  · cases done
  · rename_i fails
    obtain ⟨rfl,rfl⟩ := mk.inj (ok.inj done)
    refine .inl ⟨⟨_,rfl⟩,rfl,fun req' found' => ?_⟩
    obtain rfl := some.inj (found.symm.trans found')
    exact .inr ⟨isNode,fun node decodes => by rw [fails] at decodes; cases decodes⟩
  · rename_i node decodes
    unfold Sync.children at done
    cases branches : Sync.branches node with
    | error e => simp [branches] at done
    | ok bs =>
      cases ran : Sync.childrenFrom leaf (req.fill item.data) bs [] (s.put (req.fill item.data)) with
      | error e => simp [branches,ran] at done
      | ok result =>
        obtain ⟨below,s₁⟩ := result
        refine .inr ⟨req,found,isData,.inr ⟨node,bs,below,s₁,isNode,decodes,branches,ran,?_⟩⟩
        cases below with
        | error e =>
          simp only [branches,ran] at done
          obtain ⟨rfl,rfl⟩ := mk.inj (ok.inj done)
          exact .inl ⟨e,rfl,rfl,rfl⟩
        | ok requests =>
          simp only [branches,ran] at done
          obtain ⟨result,awaited,same⟩ := Runs.map_ok.mp done
          obtain ⟨rfl,rfl⟩ := mk.inj same
          exact .inr ⟨requests,result.1,rfl,rfl,awaited⟩
private theorem steady_fill (found : s.requests.lookup hash = some req) (d : Bytes) : Steady kid s (s.put (req.fill d)) :=
  steady_put found rfl rfl fun _ => rfl
theorem Aimed.processItem (aimed : Aimed kid s)
    (points : ∀ req node bs, s.requests.lookup item.hash = some req → req.raw = false → Sync.decoded item.hash item.data = .ok node →
      Sync.branches node = .ok bs → ∀ branch ∈ bs, ∀ i ∈ itemsOf leaf req.callback branch.1, kid item.hash i.2)
    (done : s.processItem leaf item = .ok (outcome,s')) : Aimed kid s' ∧ Follows s s' ∧
      ((∃ committed, outcome = .ok committed) → item.hash ∈ s'.membatch.order ∨ Delivered s' item.hash) := by
  rcases processItem_inv done with ⟨⟨e,rfl⟩,rfl,-⟩ | ⟨req,found,-,form⟩
  · exact ⟨aimed,.refl _,by simp⟩
  have named := (aimed _ _ found).1
  have filled : Steady kid s (s.put (req.fill item.data)) := steady_fill found item.data
  have came : Delivered (s.put (req.fill item.data)) item.hash := ⟨req.fill item.data,put_found named,rfl⟩
  rcases form with ⟨_,rfl,-,committed⟩ | ⟨node,bs,below,s₁,isNode,decodes,branches,ran,form⟩
  · obtain ⟨aimed',follows⟩ := onward_commit _ committed (filled aimed).1
    exact ⟨aimed',((filled.onward aimed).2).trans follows,fun _ => follows.delivered _ came⟩
  obtain ⟨steady,news⟩ := steady_childrenFrom (fun branch member i isItem => by
    rw [show (req.fill item.data).hash = item.hash from named]
    exact points req node bs found isNode decodes branches branch member i isItem) (by simp) ran
  obtain ⟨aimed₁,follows₁⟩ := (filled.trans steady).onward aimed
  rcases form with ⟨e,rfl,rfl,rfl⟩ | ⟨requests,committed,rfl,rfl,awaited⟩
  · exact ⟨aimed₁,follows₁,by simp⟩
  · obtain ⟨aimed',follows'⟩ := onward_await (news requests rfl) awaited aimed₁
    exact ⟨aimed',follows₁.trans follows',fun _ => follows'.delivered _ (((steady (filled aimed).1).2 _).delivered came)⟩
/-- An item that is turned away changes nothing, unless the callback refuses one of its values; then its data is kept. -/
theorem processItem_error (aimed : Aimed kid s) (done : s.processItem leaf item = .ok (.error e,s')) :
    ¬ BadLeaf leaf s item ∧ s' = s ∨ BadLeaf leaf s item ∧ Delivered s' item.hash := by
  rcases processItem_inv done with ⟨-,rfl,refused⟩ | ⟨req,found,waits,⟨committed,isOk,-⟩ |
    ⟨node,bs,below,s₁,isNode,decodes,branches,ran,⟨e',rfl,-,rfl⟩ | ⟨_,_,_,isOk,-⟩⟩⟩
  · refine .inl ⟨?_,rfl⟩
    rintro ⟨req,node,_,_,_,found,waits,isNode,decodes,-⟩
    rcases refused req found with came | ⟨-,fails⟩
    · simp [waits] at came
    · exact fails node decodes
  · cases isOk
  · obtain ⟨k,v,isCallback,member,refused⟩ := childrenFrom_error ran
    obtain ⟨filled,-⟩ := steady_fill found item.data aimed.named
    refine .inr ⟨⟨req,node,bs,k,v,found,waits,isNode,decodes,branches,isCallback,member,refused⟩,?_⟩
    exact (((steady_childrenFrom (by simp) (by simp) ran).1 filled).2 item.hash).delivered ⟨_,put_found (aimed _ _ found).1,rfl⟩
  · cases isOk
/-- Valid data for a request that waits is not turned away. -/
theorem processItem_valid (found : s.requests.lookup item.hash = some req) (waits : req.data = none)
    (valid : Valid leaf req item) : s.processItem leaf item ≠ .ok (.error e,s') := by
  intro done
  rcases processItem_inv done with ⟨-,-,refused⟩ | ⟨req',found',-,⟨committed,isOk,-⟩ |
    ⟨node,bs,below,s₁,isNode,decodes,branches,ran,⟨e',rfl,-,-⟩ | ⟨_,_,_,isOk,-⟩⟩⟩
  · rcases refused req found with came | ⟨isNode,fails⟩
    · simp [waits] at came
    · rcases valid with isRaw | ⟨node,_,decodes,-⟩
      · simp [isNode] at isRaw
      · exact fails node decodes
  · cases isOk
  · obtain rfl := some.inj (found.symm.trans found')
    obtain ⟨k,v,isCallback,member,refused⟩ := childrenFrom_error ran
    rcases valid with isRaw | ⟨node',bs',decodes',branches',reads⟩
    · simp [isNode] at isRaw
    · obtain rfl := ok.inj (decodes.symm.trans decodes')
      obtain rfl := ok.inj (branches.symm.trans branches')
      have := reads k v isCallback member
      simp [refused] at this
  · cases isOk

/-- The request of the item is as it was before, and if it waits, valid data for it is not turned away. -/
def Recovers (leaf : LeafCallback κ) (before after : Sync κ) (item : SyncResult) : Prop :=
  after.requests.lookup item.hash = before.requests.lookup item.hash ∧
    ∀ req d, before.requests.lookup item.hash = some req → req.data = none → Valid leaf req ⟨item.hash,d⟩ →
      ∀ committed i e s', after.process leaf [⟨item.hash,d⟩] ≠ .ok ((committed,i,some e),s')

private theorem process_one (done : s.process leaf [item] = .ok ((committed,i,some e),s')) :
    s.processItem leaf item = .ok (.error e,s') := by
  simp only [Sync.process,Sync.processFrom] at done
  split at done
  · cases done
  · rename_i stopped
    obtain ⟨same,rfl⟩ := mk.inj (ok.inj done)
    obtain ⟨-,rfl⟩ := mk.inj (mk.inj same).2 |>.imp_right some.inj
    exact stopped
  · simp at done
private theorem recovers_iff (aimed : Aimed kid s) (done : s.processItem leaf item = .ok (.error e,s')) :
    Recovers leaf s s' item ↔ ¬ BadLeaf leaf s item := by
  rcases processItem_error aimed done with ⟨good,rfl⟩ | ⟨bad,req',found',came⟩
  · refine ⟨fun _ => good,fun _ => ⟨rfl,?_⟩⟩
    intro req d found waits valid committed i e s'' again
    exact absurd (process_one again) (processItem_valid found waits valid)
  · constructor
    · rintro ⟨same,-⟩
      obtain ⟨req,_,_,_,_,found,waits,-⟩ := bad
      rw [found',found] at same
      obtain rfl := some.inj same
      simp [waits] at came
    · exact fun good => absurd bad good
/-- A call that stops does so at one item, and the items before it are taken. -/
theorem processFrom_stops
    (done : Sync.processFrom leaf n start results s = .ok ((committed,i,some e),s')) : ∃ j item before, i = n+j ∧
      results[j]? = some item ∧ Sync.processFrom leaf n start (results.take j) s = .ok ((committed,0,none),before) ∧
      before.processItem leaf item = .ok (.error e,s') := by
  induction results generalizing s n start with
  | nil => simp [Sync.processFrom] at done
  | cons item results ih =>
    simp only [Sync.processFrom] at done
    split at done
    · cases done
    · rename_i stopped
      simp only [ok.injEq,mk.injEq,some.injEq] at done
      obtain ⟨⟨rfl,rfl,rfl⟩,rfl⟩ := done
      exact ⟨0,item,s,rfl,rfl,rfl,stopped⟩
    · rename_i b s₁ taken
      obtain ⟨j,item',before,rfl,isItem,front,stopped⟩ := ih done
      refine ⟨j+1,item',before,by omega,isItem,?_,stopped⟩
      simp [Sync.processFrom,taken,front]
theorem Aimed.processFrom {outcome : Bool × Nat × Option SyncError}
    (aimed : Aimed (fun _ _ => True) s) (done : Sync.processFrom leaf n start results s = .ok (outcome,s')) :
    Aimed (fun _ _ => True) s' := by
  induction results generalizing s n start with
  | nil =>
    obtain ⟨-,rfl⟩ := mk.inj (ok.inj done)
    exact aimed
  | cons item results ih =>
    simp only [Sync.processFrom] at done
    split at done
    · cases done
    · rename_i stopped
      obtain ⟨-,rfl⟩ := mk.inj (ok.inj done)
      exact (aimed.processItem (by simp) stopped).1
    · rename_i taken
      exact ih (aimed.processItem (by simp) taken).1 done
theorem Aimed.commitTo (aimed : Aimed kid s) (fails : Option Nat) : Aimed kid (s.commitTo fails).2 := by
  intro hash req found
  rw [commitTo_requests] at found
  exact aimed hash req found
theorem Aimed.run {puts : List (Hash × Bytes)} (aimed : Aimed (fun _ _ => True) s)
    (done : Sync.run leaf ops s = .ok (puts,s')) : Aimed (fun _ _ => True) s' := by
  induction ops generalizing s puts with
  | nil =>
    obtain ⟨-,rfl⟩ := mk.inj (ok.inj done)
    exact aimed
  | cons op ops ih =>
    simp only [Sync.run] at done
    split at done
    · cases done
    · rename_i puts₁ s₁ stepped
      obtain ⟨result,ran,same⟩ := Runs.map_ok.mp done
      obtain ⟨-,rfl⟩ := mk.inj same
      refine ih ?_ ran
      cases op with
      | missing max =>
        obtain ⟨-,rfl⟩ := mk.inj (ok.inj stepped)
        exact aimed
      | process results =>
        obtain ⟨result,processed,same⟩ := Runs.map_ok.mp stepped
        obtain ⟨-,rfl⟩ := mk.inj same
        exact aimed.processFrom processed
      | commit fails =>
        obtain rfl := congrArg snd (ok.inj stepped)
        exact aimed.commitTo fails
private theorem newSync_aimed {database : Hash → Option Bytes} (started : Sync.newSync root database callback = .ok s) : Aimed kid s := by
  have nothing : Aimed kid (⟨database,newSyncMemBatch,∅,[]⟩ : Sync κ) := by
    intro hash req found
    simp at found
  exact (steady_add (a := .subTrie root 0 callback) (fun _ _ nonzero => absurd rfl nonzero) started nothing).1

/-! ### Downloads that end -/

/-- The hash is stored, or has come in and waits for what is below it. -/
def Come (s : Sync κ) (hash : Hash) : Prop := Stored s hash ∨ Delivered s hash
/-- Everything that is requested has come in. -/
def Arrived (s : Sync κ) : Prop := ∀ hash req, s.requests.lookup hash = some req → req.data.isSome

theorem Follows.come (follows : Follows s s') (settled : Settled leaf blob root callback s) (settled' : Settled leaf blob root callback s')
    (come : Come s hash) : Come s' hash := by
  rcases come with (inBatch | inDatabase) | came
  · exact .inl (.inl ((settled'.listed hash).mpr (follows.batch hash ((settled.listed hash).mp inBatch))))
  · exact .inl (.inr (follows.database ▸ inDatabase))
  · rcases follows.delivered hash came with member | came
    · exact .inl (.inl ((settled'.listed hash).mpr member))
    · exact .inr came
private theorem pending_zero (none : ∀ hash, s.requests.lookup hash = none) : s.pending = 0 := by
  unfold Sync.pending
  cases entries : s.requests.entries with
  | nil => rfl
  | cons entry rest =>
    obtain ⟨hash,req⟩ := entry
    have found : s.requests.lookup hash = some req := AList.mem_lookup_iff.mpr (by rw [entries]; exact mem_cons_self)
    rw [none hash] at found
    cases found
/-- A download that goes on as it should. -/
structure Going (leaf : LeafCallback κ) (blob : Hash → Option Bytes) (root : Hash) (callback : Option κ)
    (s : Sync κ) : Prop where
  inv : Inv leaf blob root callback s 0 none ∅
  aimed : Aimed (fun p c => c ∈ kids leaf blob root callback p) s

/-- The lowest request that is left would wait for a request below it. -/
theorem Going.ends (going : Going leaf blob root callback s)
    (ranked : WellFounded fun c p => c ∈ kids leaf blob root callback p) (arrived : Arrived s) : s.pending = 0 := by
  refine pending_zero fun hash => ?_
  by_contra waiting
  obtain ⟨low,isLow,lowest⟩ := ranked.has_min { hash | s.requests.lookup hash ≠ none } ⟨hash,waiting⟩
  obtain ⟨req,found⟩ := ne_none_iff_exists'.mp isLow
  have waits := going.inv.waits found (arrived low req found) (by simp)
  have pointed : low ∈ pointers s := by
    refine Multiset.count_pos.mp (Nat.pos_of_ne_zero fun zero => waits ?_)
    rw [going.inv.deps found,zero,Multiset.count_zero]
    rfl
  obtain ⟨c,req',found',member⟩ := mem_pointers.mp pointed
  exact lowest c (by simp [found']) ((going.aimed c req' found').2 low member)

/-- The item has the right data, or is turned away. -/
def Fits (leaf : LeafCallback κ) (blob : Hash → Option Bytes) (s : Sync κ) (item : SyncResult) : Prop :=
  (∀ d, blob item.hash = some d → item.data = d) ∨ ∃ e s', s.processItem leaf item = .ok (.error e,s')

variable (served : Served leaf blob root callback)
include served
/-- What is below a node with the right data are its children. -/
theorem right_points (inv : Inv leaf blob root callback s 0 none ∅)
    (right : ∀ d, blob item.hash = some d → item.data = d) (req : Request κ) (node : Node) (bs : List (Node × Nat))
    (found : s.requests.lookup item.hash = some req) (isNode : req.raw = false) (decodes : Sync.decoded item.hash item.data = .ok node)
    (branches : Sync.branches node = .ok bs) (branch : Node × Nat) (member : branch ∈ bs) (i : Role κ × Hash)
    (isItem : i ∈ itemsOf leaf req.callback branch.1) : i.2 ∈ kids leaf blob root callback item.hash := by
  have wanted := inv.wanted found
  rw [show req.role = .trie req.callback by simp [Request.role,isNode]] at wanted
  obtain ⟨d,-,isBlob,-⟩ := served.node wanted
  obtain rfl := right d isBlob
  refine ⟨.trie req.callback,i.1,wanted,?_⟩
  simp only [below,isBlob,map_some,decodes,branches,Except.toOption,getD_some,mem_flatMap]
  exact ⟨branch,member,isItem⟩
theorem Going.takes (going : Going leaf blob root callback s) (right : ∀ d, blob item.hash = some d → item.data = d) :
    ∃ r s', s.processItem leaf item = .ok (r,s') ∧ Going leaf blob root callback s' ∧ Follows s s' ∧
      ((∃ committed, r = .ok committed) → item.hash ∈ s'.membatch.order ∨ Delivered s' item.hash) := by
  obtain ⟨r,s',done,inv',-⟩ := processItem_spec served going.inv right
  obtain ⟨aimed',follows⟩ := going.aimed.processItem (right_points served going.inv right) done
  exact ⟨r,s',done,⟨inv',aimed'⟩,follows⟩
/-- An item of a download without bad leaves. -/
theorem item_spec (going : Going leaf blob root callback s) (fits : Fits leaf blob s item) (good : ¬ BadLeaf leaf s item) :
    ∃ r s', s.processItem leaf item = .ok (r,s') ∧ Going leaf blob root callback s' := by
  rcases fits with right | ⟨e,s',done⟩
  · obtain ⟨r,s',done,going',-⟩ := going.takes served right
    exact ⟨r,s',done,going'⟩
  · rcases processItem_error going.aimed done with ⟨-,rfl⟩ | ⟨bad,-⟩
    · exact ⟨_,_,done,going⟩
    · exact absurd bad good
/-- The right data for a request that waits is taken, and then it has come in. -/
theorem deliver_one (going : Going leaf blob root callback s) (found : s.requests.lookup hash = some req)
    (waits : req.data = none) : ∃ d committed s', blob hash = some d ∧ s.processItem leaf ⟨hash,d⟩ = .ok (.ok committed,s') ∧
      Going leaf blob root callback s' ∧ (∀ c, Come s c → Come s' c) ∧ Come s' hash := by
  have wanted := going.inv.wanted found
  obtain ⟨d,isBlob,valid⟩ : ∃ d, blob hash = some d ∧ Valid leaf req ⟨hash,d⟩ := by
    cases isRaw : req.raw with
    | true =>
      rw [show req.role = .raw by simp [Request.role,isRaw]] at wanted
      obtain ⟨d,isBlob⟩ := isSome_iff_exists.mp (served.entry wanted)
      exact ⟨d,isBlob,.inl isRaw⟩
    | false =>
      rw [show req.role = .trie req.callback by simp [Request.role,isRaw]] at wanted
      obtain ⟨d,node,isBlob,decodes,reads⟩ := served.node wanted
      obtain ⟨bs,branches⟩ := decoded_branches decodes
      refine ⟨d,isBlob,.inr ⟨node,bs,decodes,branches,fun k v isCallback member => ?_⟩⟩
      obtain ⟨branch,isBranch,isValue⟩ := mem_map.mp member
      exact reads bs branch k v branches isBranch isCallback isValue
  obtain ⟨r,s',done,going',follows,came⟩ := going.takes served (show ∀ d', blob (SyncResult.mk hash d).hash = some d' → d = d' from
    fun d' isBlob' => some.inj (isBlob.symm.trans isBlob'))
  cases r with
  | error e => exact absurd done (processItem_valid found waits valid)
  | ok committed =>
    refine ⟨d,committed,s',isBlob,done,going',fun c => follows.come going.inv.toSettled going'.inv.toSettled,?_⟩
    rcases came ⟨committed,rfl⟩ with member | came
    · exact .inl (.inl ((going'.inv.listed hash).mpr member))
    · exact .inr came
omit served in
private theorem finite_hash : Finite Hash := by
  let content : Hash → List.Vector UInt8 32 := fun h => ⟨h.bytes,h.size⟩
  refine Finite.of_injective content ?_
  intro first second same
  exact Hash.ext (congrArg Subtype.val same)
/-- Delivering what is asked for comes to an end: there are only so many hashes that have not come in. -/
theorem delivery_ends (ranked : WellFounded fun c p => c ∈ kids leaf blob root callback p)
    (going : Going leaf blob root callback s) (n : Nat) (start : Bool) :
    ∃ results committed s', (∀ item ∈ results, blob item.hash = some item.data) ∧
      Sync.processFrom leaf n start results s = .ok ((committed,0,none),s') ∧ Inv leaf blob root callback s' 0 none ∅ ∧ s'.pending = 0 := by
  have := finite_hash
  generalize size : { hash | ¬ Come s hash }.ncard = left
  induction left using Nat.strong_induction_on generalizing s n start with
  | h left ih =>
    by_cases arrived : Arrived s
    · exact ⟨[],start,s,by simp,rfl,going.inv,going.ends ranked arrived⟩
    · simp only [Arrived,not_forall] at arrived
      obtain ⟨hash,req,found,waits⟩ := arrived
      have isData : req.data = none := by simpa using waits
      obtain ⟨d,done,s₁,isBlob,taken,going₁,grows,came⟩ := deliver_one served going found isData
      have missing : ¬ Come s hash := by
        rintro (stored | ⟨req',found',came'⟩)
        · exact going.inv.absent found stored
        · obtain rfl := some.inj (found.symm.trans found')
          exact waits came'
      have fewer : { hash | ¬ Come s₁ hash }.ncard < left := by
        rw [← size]
        refine Set.ncard_lt_ncard ⟨fun c absent come => absent (grows c come),fun all => ?_⟩ (Set.toFinite _)
        exact all missing came
      obtain ⟨results,committed,s',right,ran,inv',empty⟩ := ih _ fewer going₁ (n+1) (start || done) rfl
      refine ⟨⟨hash,d⟩ :: results,committed,s',?_,by simp [Sync.processFrom,taken,ran],inv',empty⟩
      intro item member
      rcases mem_cons.mp member with rfl | member
      · exact isBlob
      · exact right item member
omit served

/-! ### Runs with bad items -/

/-- The items of a call, each in the state it comes to. -/
def EachItem (leaf : LeafCallback κ) (P : Sync κ → SyncResult → Prop) : List SyncResult → Sync κ → Prop
  | [], _ => True
  | item :: results, s => P s item ∧ ∀ committed s', s.processItem leaf item = .ok (.ok committed,s') → EachItem leaf P results s'
/-- The items of all calls of a run. -/
def EachRun (leaf : LeafCallback κ) (P : Sync κ → SyncResult → Prop) : List Sync.Op → Sync κ → Prop
  | [], _ => True
  | op :: ops, s => (∀ results, op = .process results → EachItem leaf P results s) ∧
    ∀ puts s', s.step leaf op = .ok (puts,s') → EachRun leaf P ops s'

private theorem items_spec (served : Served leaf blob root callback) (n : Nat) (start : Bool) (going : Going leaf blob root callback s)
    (fits : EachItem leaf (Fits leaf blob) results s) (good : EachItem leaf (fun s item => ¬ BadLeaf leaf s item) results s) :
    ∃ outcome s', Sync.processFrom leaf n start results s = .ok (outcome,s') ∧ Going leaf blob root callback s' := by
  induction results generalizing s n start with
  | nil => exact ⟨_,s,rfl,going⟩
  | cons item results ih =>
    obtain ⟨r,s₁,done,going₁⟩ := item_spec served going fits.1 good.1
    cases r with
    | error e => exact ⟨(start,n,some e),s₁,by simp [Sync.processFrom,done],going₁⟩
    | ok committed =>
      obtain ⟨outcome,s',ran,going'⟩ := ih (n+1) (start || committed) going₁ (fits.2 _ _ done) (good.2 _ _ done)
      exact ⟨outcome,s',by simp [Sync.processFrom,done,ran],going'⟩
private theorem ops_spec (served : Served leaf blob root callback) (going : Going leaf blob root callback s)
    (fits : EachRun leaf (Fits leaf blob) ops s) (good : EachRun leaf (fun s item => ¬ BadLeaf leaf s item) ops s) :
    ∃ puts s', Sync.run leaf ops s = .ok (puts,s') ∧ Going leaf blob root callback s' := by
  induction ops generalizing s with
  | nil => exact ⟨[],s,rfl,going⟩
  | cons op ops ih =>
    have stepped : ∃ puts s₁, s.step leaf op = .ok (puts,s₁) ∧ Going leaf blob root callback s₁ := by
      cases op with
      | missing max =>
        obtain ⟨puts,s₁,stepped,inv₁,-⟩ := step_spec served going.inv (show Correct blob (.missing max) from trivial)
        obtain ⟨-,rfl⟩ := mk.inj (ok.inj stepped)
        exact ⟨_,_,stepped,inv₁,going.aimed⟩
      | process results =>
        obtain ⟨outcome,s₁,ran,going₁⟩ := items_spec served 0 false going (fits.1 results rfl) (good.1 results rfl)
        exact ⟨[],s₁,by simp [Sync.step,Sync.process,ran,Except.map],going₁⟩
      | commit fails => exact ⟨_,_,rfl,going.inv.commitTo fails,going.aimed.commitTo fails⟩
    obtain ⟨puts,s₁,stepped,going₁⟩ := stepped
    obtain ⟨more,s',ran,going'⟩ := ih going₁ (fits.2 _ _ stepped) (good.2 _ _ stepped)
    exact ⟨puts ++ more,s',by simp [Sync.run,stepped,ran,Except.map],going'⟩

/-- What the hashes of the trie and all that it asks for stand for is in the database after a commit. -/
def Complete (leaf : LeafCallback κ) (blob : Hash → Option Bytes) (root : Hash) (callback : Option κ)
    (s : Sync κ) : Prop :=
  ∀ hash, (Under blob root hash ∨ ∃ role, Wanted leaf blob root callback (role,hash)) →
    ∃ d, blob hash = some d ∧ (s.commitTo none).2.database hash = some d

private theorem under_asked (under : Under blob root hash) : Wanted leaf blob root callback (.trie callback,hash) := by
  induction under with
  | root some => exact .root some
  | @child hash c _ child ih =>
    refine .next ih ?_
    simp only [Child,leavesOf,below] at child ⊢
    rcases read : (blob hash).map (Sync.decoded hash) with _ | _ | n <;> rw [read] at child
    · cases child
    · cases child
    · obtain ⟨d,-,decodes⟩ := map_eq_some_iff.mp read
      obtain ⟨bs,branches,inside,-⟩ := decoded_leaves decodes
      rcases inside _ child with ⟨v,isValue,-⟩ | ⟨branch,member,isHash⟩
      · cases isValue
      · simp only [branches,Except.toOption,getD_some,mem_flatMap]
        exact ⟨branch,member,by simp [isHash,itemsOf]⟩
theorem Inv.completes (inv : Inv leaf blob root callback s 0 none ∅) (done : s.pending = 0) : Complete leaf blob root callback s := by
  intro hash asked
  obtain ⟨role,wanted⟩ : ∃ role, Wanted leaf blob root callback (role,hash) := asked.elim (fun under => ⟨_,under_asked under⟩) id
  obtain ⟨d,found⟩ := isSome_iff_exists.mp (inv.complete done wanted)
  exact ⟨d,(inv.commitTo none).database hash d found,found⟩
private theorem kids_ranked (acyclic : ∀ hash, ¬ Relation.TransGen (fun p c => c ∈ kids leaf blob root callback p) hash hash) :
    WellFounded fun c p => c ∈ kids leaf blob root callback p := by
  have := finite_hash
  have : Std.Irrefl (swap (Relation.TransGen fun p c => c ∈ kids leaf blob root callback p)) := ⟨acyclic⟩
  have : IsTrans Hash (swap (Relation.TransGen fun p c => c ∈ kids leaf blob root callback p)) :=
    ⟨fun _ _ _ first second => second.trans first⟩
  refine Subrelation.wf ?_ (Finite.wellFounded_of_trans_of_irrefl
    (swap (Relation.TransGen fun p c => c ∈ kids leaf blob root callback p)))
  exact fun isKid => .single isKid

end

/-- A call of `Process` that stops at an item leaves its request as it was, open to valid data, exactly if it did not stop because
    the callback refused a value. In a run without such items, whatever else is turned away, the download ends when everything
    has come in, `Process` takes the right data for what waits and returns without an error, the download can always be brought
    to its end, and then the trie is complete. -/
theorem sync_recovers {κ : Type} (leaf : LeafCallback κ) (database : Hash → Option Bytes) (root : Hash)
    (callback : Option κ) (start : Sync κ) (started : Sync.newSync root database callback = .ok start) :
    (∀ ops puts s results committed i e s', Sync.run leaf ops start = .ok (puts,s) →
      s.process leaf results = .ok ((committed,i,some e),s') → ∃ item before, results[i]? = some item ∧
        s.process leaf (results.take i) = .ok ((committed,0,none),before) ∧
        (Recovers leaf before s' item ↔ ¬ BadLeaf leaf before item)) ∧ ∀ blob ops, Served leaf blob root callback →
      (∀ hash, ¬ Relation.TransGen (fun p c => c ∈ kids leaf blob root callback p) hash hash) →
      (∀ hash d, database hash = some d → blob hash = some d) → Closed leaf blob root callback database →
      EachRun leaf (Fits leaf blob) ops start → EachRun leaf (fun s item => ¬ BadLeaf leaf s item) ops start →
      ∃ puts s, Sync.run leaf ops start = .ok (puts,s) ∧ (Arrived s → s.pending = 0) ∧
        (∀ hash req, s.requests.lookup hash = some req → req.data = none → ∃ d committed s', blob hash = some d ∧
          s.process leaf [⟨hash,d⟩] = .ok ((committed,0,none),s')) ∧
        (s.pending = 0 → Complete leaf blob root callback s) ∧
        ∃ results committed s', (∀ item ∈ results, blob item.hash = some item.data) ∧
          s.process leaf results = .ok ((committed,0,none),s') ∧ s'.pending = 0 ∧ Complete leaf blob root callback s' := by
  constructor
  · intro ops puts s results committed i e s' ran stopped
    have aimed : Aimed (fun _ _ => True) s := (newSync_aimed started).run ran
    obtain ⟨j,item,before,isIndex,isItem,front,turned⟩ := processFrom_stops stopped
    obtain rfl : i = j := by omega
    exact ⟨item,before,isItem,front,recovers_iff (aimed.processFrom front) turned⟩
  · intro blob ops served acyclic base closed fits good
    obtain ⟨s₀,started₀,inv,-,-⟩ := newSync_spec served base closed
    obtain rfl := ok.inj (started.symm.trans started₀)
    obtain ⟨puts,s,ran,going⟩ := ops_spec served ⟨inv,newSync_aimed started⟩ fits good
    have ranked := kids_ranked acyclic
    obtain ⟨results,committed,s',right,delivered,inv'',empty⟩ := delivery_ends served ranked going 0 false
    refine ⟨puts,s,ran,going.ends ranked,fun hash req found waits => ?_,going.inv.completes,results,committed,s',right,delivered,
      empty,inv''.completes empty⟩
    obtain ⟨d,done,s₁,isBlob,taken,-⟩ := deliver_one served going found waits
    exact ⟨d,done,s₁,isBlob,by simp [Sync.process,Sync.processFrom,taken]⟩

/-! ### Samples -/

open StateSync

/-- The leaf of an account trie with one account, of address 1, without storage and code. -/
def onlyAccount : Bytes := leafNode 0x201468288056310c82aa4c01a7e12a10f8111a0560e72b700555479031b86c357d (accountValue 1 emptyRoot emptyState)
def onlyAccountHash : Hash := bytesToHash (putint 0x6043e1e0f2676aca460f704a399ed125a90d4e3da4a5b3534225236b12b2c2b4)
/-- A leaf whose value is no account. -/
def noAccount : Bytes := leafNode 0x2001 [1]
/-- The request for the root of a state, as it is made and with data that has come in. -/
def onlyRequest (hash : Hash) (data : Option Bytes) : Request Unit := ⟨hash,data,false,[],0,0,some ()⟩
def onlySync (hash : Hash) (data : Option Bytes) : Sync Unit :=
  ⟨fun _ => none,newSyncMemBatch,AList.insert hash (onlyRequest hash data) ∅,[(hash,0)]⟩

/-- The data is a node with this value alone. -/
def isLeaf (d v : Bytes) : Bool := ((Sync.decoded onlyAccountHash d).toOption.bind fun n => (Sync.branches n).toOption).any fun bs => match bs with
  | [(.value w,_)] => w = v
  | _ => false
private theorem isLeaf_inv {d v : Bytes} (check : isLeaf d v) :
    ∃ n depth, Sync.decoded onlyAccountHash d = .ok n ∧ Sync.branches n = .ok [(.value v,depth)] := by
  unfold isLeaf at check
  cases decodes : Sync.decoded onlyAccountHash d with
  | error e => simp [decodes,Except.toOption] at check
  | ok n =>
    cases branches : Sync.branches n with
    | error e => simp [decodes,branches,Except.toOption] at check
    | ok bs =>
      simp only [decodes,branches,Except.toOption,bind_some,any_some] at check
      split at check
      · rename_i w depth
        obtain rfl := of_decide_eq_true check
        exact ⟨n,depth,rfl,branches⟩
      · cases check

private theorem only_facts : Keccak.keccakPacked onlyAccount = onlyAccountHash ∧ onlyAccountHash ≠ emptyRoot ∧
    isLeaf noAccount [1] ∧ plainRootHash ≠ emptyRoot := by
  decide +kernel
private theorem only_started {root : Hash} (some : root ≠ emptyRoot) : newStateSync root (fun _ => none) = .ok (onlySync root none) := by
  simp [newStateSync,Sync.newSync,Sync.addSubTrie,some,newSyncMemBatch,decoded_nil,Sync.scheduleBelow,Sync.schedule,onlySync,
    onlyRequest]
private theorem only_request (root : Hash) (data : Option Bytes) : (onlySync root data).requests.lookup root = some (onlyRequest root data) :=
  AList.lookup_insert _
private theorem only_refused (root : Hash) : (onlySync root none).processItem StateSync.callback ⟨root,[]⟩ =
    .ok (.error (.decode (.fault .unexpectedEOF [])),onlySync root none) := by
  simp [Sync.processItem,only_request,onlyRequest,decoded_nil]
private theorem only_bad : (onlySync onlyAccountHash none).processItem StateSync.callback ⟨onlyAccountHash,noAccount⟩ =
    .ok (.error .callback,onlySync onlyAccountHash (some noAccount)) := by
  obtain ⟨n,depth,decodes,branches⟩ := isLeaf_inv only_facts.2.2.1
  have refused : StateSync.callback () [1] = none := by
    simp [StateSync.callback,decodeLeaf_short (show ([1] : Bytes).length ≤ 31 by decide)]
  have filled : (onlySync onlyAccountHash none).put ((onlyRequest onlyAccountHash none).fill noAccount) = onlySync onlyAccountHash (some noAccount) := by
    simp [Sync.put,onlySync,onlyRequest,Request.fill]
  have isCallback : ((onlyRequest onlyAccountHash none).fill noAccount).callback = some () := rfl
  simp only [Sync.processItem,only_request,filled,decodes,Sync.children,branches,Sync.childrenFrom,Sync.call,isCallback,refused]
  rfl
/-- Nothing gets past the data that has come in. -/
theorem only_stuck (d : Bytes) (results : List SyncResult) :
    ∃ outcome, (onlySync onlyAccountHash (some d)).process StateSync.callback results = .ok (outcome,onlySync onlyAccountHash (some d)) := by
  cases results with
  | nil => exact ⟨(false,0,none),rfl⟩
  | cons item results =>
    obtain ⟨hash,data⟩ := item
    by_cases same : hash = onlyAccountHash
    · subst same
      refine ⟨(false,0,some .alreadyProcessed),?_⟩
      simp [Sync.process,Sync.processFrom,Sync.processItem,only_request,onlyRequest]
    · refine ⟨(false,0,some .notRequested),?_⟩
      have missing : (onlySync onlyAccountHash (some d)).requests.lookup hash = none := (AList.lookup_insert_ne same).trans (AList.lookup_empty hash)
      simp [Sync.process,Sync.processFrom,Sync.processItem,missing]

/-- Nodes of the state with storage and code stand above what is below them. -/
theorem plain_sorted : ∀ node ∈ plainNodes, ∀ role ∈ [Role.raw,.trie none,.trie (some ())],
    ∀ item ∈ below StateSync.callback (blobOf plainNodes) (role,node.1),
      plainNodes.findIdx (·.1 = node.1) < plainNodes.findIdx (·.1 = item.2) := by
  decide +kernel
private theorem plain_kids {p c : Hash} (isKid : c ∈ kids StateSync.callback (blobOf plainNodes) plainRootHash (some ()) p) :
    plainNodes.findIdx (·.1 = p) < plainNodes.findIdx (·.1 = c) := by
  obtain ⟨role,role',-,isBelow⟩ := isKid
  cases isBlob : blobOf plainNodes p with
  | none => obtain _ | callback := role <;> simp [below,isBlob] at isBelow
  | some d =>
    obtain ⟨node,found,-⟩ := map_eq_some_iff.mp isBlob
    have same := find?_some found
    obtain rfl := of_decide_eq_true same
    refine plain_sorted node (mem_of_find?_eq_some found) role ?_ _ isBelow
    obtain _ | _ | _ := role <;> simp
private theorem plain_path {p c : Hash}
    (path : Relation.TransGen (fun p c => c ∈ kids StateSync.callback (blobOf plainNodes) plainRootHash (some ()) p) p c) :
    plainNodes.findIdx (·.1 = p) < plainNodes.findIdx (·.1 = c) := by
  induction path with
  | single isKid => exact plain_kids isKid
  | tail _ isKid ih => exact ih.trans (plain_kids isKid)
/-- Data that is no node is turned away, and the state comes in all the same. -/
theorem sync_recovers_plain : (∀ node ∈ plainNodes, Keccak.keccak256 node.2 = node.1) ∧
    ∃ start puts s results committed s', newStateSync plainRootHash (fun _ => none) = .ok start ∧
      Sync.run StateSync.callback [.process [⟨plainRootHash,[]⟩]] start = .ok (puts,s) ∧
      s.process StateSync.callback results = .ok ((committed,0,none),s') ∧ s'.pending = 0 ∧
      ∀ hash, Reachable (blobOf plainNodes) plainRootHash hash →
        ∃ d, blobOf plainNodes hash = some d ∧ (s'.commitTo none).2.database hash = some d := by
  have started := only_started only_facts.2.2.2
  obtain ⟨⟨⟨hashes,-⟩,-,nonzero,-⟩,-⟩ := sample_facts
  refine ⟨by rwa [Keccak.keccak_packed],?_⟩
  obtain ⟨-,runs⟩ := sync_recovers StateSync.callback (fun _ => none) plainRootHash (some ()) _ started
  obtain ⟨puts,s,ran,-,-,-,results,committed,s',-,delivered,done,complete⟩ := runs (blobOf plainNodes)
    [.process [⟨plainRootHash,[]⟩]] (served_state plain_state.1 nonzero plain_state.2)
    (fun hash cycle => lt_irrefl _ (plain_path cycle)) (by simp) (by intro hash stored; simp at stored) (by
      refine ⟨?_,fun _ _ _ => trivial⟩
      rintro results ⟨⟩
      exact ⟨.inr ⟨_,_,only_refused _⟩,fun _ _ _ => trivial⟩) (by
      refine ⟨?_,fun _ _ _ => trivial⟩
      rintro results ⟨⟩
      refine ⟨?_,fun _ _ _ => trivial⟩
      rintro ⟨_,_,_,_,_,-,-,-,decodes,-⟩
      rw [decoded_nil] at decodes
      cases decodes)
  exact ⟨_,puts,s,results,committed,s',started,ran,delivered,done,
    fun hash reachable => complete hash (.inr (reachable_wanted.mp reachable))⟩
/-- A leaf that is no account comes in for the account: the callback refuses it, its data stays, the account is turned away, and no
    call of `Process` changes anything any more. -/
theorem bad_leaf_stays : Keccak.keccak256 onlyAccount = onlyAccountHash ∧
    ∃ start s, newStateSync onlyAccountHash (fun _ => none) = .ok start ∧
      start.process StateSync.callback [⟨onlyAccountHash,noAccount⟩] = .ok ((false,0,some .callback),s) ∧
      s.process StateSync.callback [⟨onlyAccountHash,onlyAccount⟩] = .ok ((false,0,some .alreadyProcessed),s) ∧ s.pending = 1 ∧
      ∀ results, ∃ outcome, s.process StateSync.callback results = .ok (outcome,s) := by
  refine ⟨by rw [Keccak.keccak_packed]; exact only_facts.1,onlySync _ none,onlySync _ (some noAccount),only_started only_facts.2.1,?_,?_,rfl,only_stuck noAccount⟩
  · simp [Sync.process,Sync.processFrom,only_bad]
  · simp [Sync.process,Sync.processFrom,Sync.processItem,only_request,onlyRequest]

end Canchain.TrieSync
