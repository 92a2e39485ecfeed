import Canchain.TrieOps
import Canchain.TrieCollapse

/-!
What a live trie stands for. `Rep db root n t` relates a node to the entries below it: hash
nodes stand for the tree stored under the hash, and the flags agree with the tree (`FlagOk`). The
operations of `trie.go` follow those of the radix tree.
-/
namespace Canchain.TrieRep
open Rlp Common HexKeys TrieNode TrieOps TrieCollapse Sweep List Function Bool Trie
open Patricia hiding Plain plain_append plain_cons
open Patricia.Tree (Canonical Shaped)
variable {fl : NodeFlag} {k : Hex} {ts : Nibble → Entries} {cs : Nibble → Node}

section
variable {keccak : Bytes → Hash} {db : Database}

variable (keccak db) in
/-- The database holds the node at the top of the tree. -/
def Stored (t : Entries) : Prop := db.dirties (nodeHash keccak t) = some (collapse keccak t)
variable (keccak db) in
/-- The database holds the node at the top of the tree if it is referenced by
    its hash. -/
def Held (t : Entries) : Prop := Canonical t → ¬ Embedded keccak t → Stored keccak db t
variable (keccak db) in
/-- The database holds every node that is referenced by its hash from below the
    top of the tree. -/
def Kept : Entries → Prop
  | .nil => True
  | .value _ => True
  | .short _ t => Held keccak db t ∧ Kept t
  | .full cs => ∀ i, Held keccak db (cs i) ∧ Kept (cs i)

variable (keccak db) in
/-- Flags that agree with the tree below the node. A cached hash is that of the
    tree, and below the root it is cached only where the parent refers to it. A
    clean node is stored, or embedded in its parent. -/
structure FlagOk (root : Bool) (fl : NodeFlag) (t : Entries) : Prop where
  cached : ∀ h, fl.hash = some h → h = nodeHash keccak t ∧ (root = false → ¬ Embedded keccak t)
  clean : fl.dirty = false →
    (fl.hash ≠ none ∧ Stored keccak db t ∧ Kept keccak db t) ∨ (fl.hash = none ∧ root = false ∧ Embedded keccak t)

variable (keccak db) in
/-- The tree a live node stands for, at the root of a trie or below it. -/
inductive Rep : Bool → Node → Entries → Prop
  | nil {root : Bool} : Rep root .nil .nil
  | value {root : Bool} (v : Value) : Rep root (.value v.1) (.value v)
  | hash {root : Bool} {t : Entries} (canonical : Canonical t) (stored : Stored keccak db t) (kept : Kept keccak db t)
      (large : root = false → ¬ Embedded keccak t) : Rep root (.hash (nodeHash keccak t)) t
  | short {root : Bool} {k : Hex} {n : Node} {t : Entries} {fl : NodeFlag} (below : Rep false n t)
      (flags : FlagOk keccak db root fl (.short k t)) : Rep root (.short k n fl) (.short k t)
  | full {root : Bool} {cs : Nibble → Node} {ts : Nibble → Entries} {fl : NodeFlag}
      (below : ∀ i, Rep false (cs i) (ts i)) (flags : FlagOk keccak db root fl (.full ts)) :
      Rep root (.full cs fl) (.full ts)

def isHash : Node → Bool
  | .hash _ => true
  | _ => false

theorem flagOk_newFlag (T : Trie) (root : Bool) (t : Entries) : FlagOk keccak db root T.newFlag t where
  cached h some := by simp [newFlag] at some
  clean dirty := by simp [newFlag] at dirty
variable {root : Bool} {t : Entries} {n : Node}
/-- Only the generation of a flag may change at will. -/
theorem FlagOk.setGen (ok : FlagOk keccak db root fl t) (gen : UInt16) :
    FlagOk keccak db root { fl with gen := gen } t := ⟨ok.cached,ok.clean⟩
theorem Rep.short_inv (rep : Rep keccak db root n (.short k t)) (loaded : isHash n = false) :
    ∃ val fl, n = .short k val fl ∧ Rep keccak db false val t ∧ FlagOk keccak db root fl (.short k t) := by
  cases rep with
  | hash => simp [isHash] at loaded
  | short below flags => exact ⟨_,_,rfl,below,flags⟩
theorem Rep.full_inv (rep : Rep keccak db root n (.full ts)) (loaded : isHash n = false) :
    ∃ ns fl, n = .full ns fl ∧ (∀ i, Rep keccak db false (ns i) (ts i)) ∧ FlagOk keccak db root fl (.full ts) := by
  cases rep with
  | hash => simp [isHash] at loaded
  | full below flags => exact ⟨_,_,rfl,below,flags⟩

/-- Nothing that was stored is lost. -/
def Extends (db db' : Database) : Prop := ∀ h r, db.dirties h = some r → db'.dirties h = some r
theorem Extends.refl (db : Database) : Extends db db := fun _ _ h => h
theorem Extends.trans {a b c : Database} (ab : Extends a b) (bc : Extends b c) : Extends a c :=
  fun h r found => bc h r (ab h r found)

variable {db' : Database}

theorem Stored.mono (stored : Stored keccak db t) (more : Extends db db') : Stored keccak db' t :=
  more _ _ stored
theorem Held.mono (held : Held keccak db t) (more : Extends db db') : Held keccak db' t :=
  fun c large => (held c large).mono more
theorem Kept.mono (kept : Kept keccak db t) (more : Extends db db') : Kept keccak db' t := by
  induction t with
  | nil => trivial
  | value v => trivial
  | short k t ih => exact ⟨kept.1.mono more,ih kept.2⟩
  | full cs ih => exact fun i => ⟨(kept i).1.mono more,ih i (kept i).2⟩
theorem FlagOk.mono (ok : FlagOk keccak db root fl t)
    (more : Extends db db') : FlagOk keccak db' root fl t where
  cached := ok.cached
  clean dirty := (ok.clean dirty).imp_left fun h => ⟨h.1,h.2.1.mono more,h.2.2.mono more⟩
theorem Rep.mono (rep : Rep keccak db root n t) (more : Extends db db') : Rep keccak db' root n t := by
  induction rep with
  | nil => exact .nil
  | value v => exact .value v
  | hash c stored kept large => exact .hash c (stored.mono more) (kept.mono more) large
  | short _ flags ih => exact .short ih (flags.mono more)
  | full _ flags ih => exact .full ih (flags.mono more)

theorem Rep.isNil_eq (rep : Rep keccak db root n t) : n.isNil = t.isNil := by
  cases rep with
  | hash c => cases c <;> rfl
  | _ => rfl
theorem Rep.eq_nil (rep : Rep keccak db root n .nil) : n = .nil := by
  cases rep with
  | nil => rfl
  | hash c => cases c
theorem Rep.update (below : ∀ i, Rep keccak db false (cs i) (ts i))
    (rep : Rep keccak db false n t) (x : Nibble) :
    ∀ i, Rep keccak db false (update cs x n i) (update ts x t i) := by
  intro i
  by_cases same : i = x
  · subst same
    rw [update_self,update_self]
    exact rep
  · rw [update_of_ne same,update_of_ne same]
    exact below i

/-- `expandNode` rebuilds a live node for the tree that was collapsed. -/
theorem expandNode_rep (c : Canonical t) (kept : Kept keccak db t) (hash : Option Hash)
    (gen : UInt16) (flags : FlagOk keccak db root ⟨hash,gen,false⟩ t) :
    ∃ n, expandNode hash gen (collapse keccak t) = .ok n ∧ Rep keccak db root n t ∧ isHash n = false := by
  induction c generalizing root hash with
  | @leaf k v term =>
    refine ⟨.short k (.value v.1) ⟨hash,gen,false⟩,?_,.short (.value v) flags,rfl⟩
    simp only [collapse,expandNode,compactToHex_hexToCompact k (wellFormed_of_terminated term)]
    rfl
  | @ext k cs _ plain below ih =>
    -- The child is loaded only if it is embedded.
    have child : ∃ n, expandNode none gen (refTo keccak (collapse keccak (.full cs))) = .ok n ∧
        Rep keccak db false n (.full cs) := by
      by_cases small : Embedded keccak (.full cs)
      · obtain ⟨n,expanded,rep,-⟩ := ih kept.2 none ⟨by simp,fun _ => .inr ⟨rfl,rfl,small⟩⟩
        exact ⟨n,by rwa [refTo_small small],rep⟩
      · refine ⟨.hash (nodeHash keccak (.full cs)),?_,.hash below (kept.1 below small) kept.2 fun _ => small⟩
        rw [refTo_large below small]
        rfl
    obtain ⟨n,expanded,rep⟩ := child
    refine ⟨.short k n ⟨hash,gen,false⟩,?_,.short rep flags,rfl⟩
    simp only [collapse,expandNode,compactToHex_hexToCompact k (wellFormed_of_plain plain)]
    simp only [collapse] at expanded
    rw [expanded]
  | @branch cs inner last two ih =>
    have child : ∀ i, ∃ n, (if (refTo keccak (collapse keccak (cs i))).isNil then .ok (.nil,())
          else (expandNode none gen (refTo keccak (collapse keccak (cs i)))).map fun n => (n,())) =
          (.ok (n,()) : Except Failure (Node × Unit)) ∧ Rep keccak db false n (cs i) := by
      intro i
      by_cases empty : cs i = .nil
      · exact ⟨.nil,by simp [empty,Raw.isNil],by rw [empty]; exact .nil⟩
      · by_cases final : i = Fin.last 16
        · subst final
          obtain ⟨v,is⟩ := last.resolve_left empty
          exact ⟨.value v.1,by simp only [is,refTo_value]; rfl,by rw [is]; exact .value v⟩
        · have below := inner i final empty
          by_cases small : Embedded keccak (cs i)
          · obtain ⟨n,expanded,rep,-⟩ := ih i final empty (kept i).2 none ⟨by simp,fun _ => .inr ⟨rfl,rfl,small⟩⟩
            refine ⟨n,?_,rep⟩
            rw [refTo_small small,expanded,if_neg (by simpa [isNil_eq_false] using (collapse_formed below).ne_nil)]
            rfl
          · refine ⟨.hash (nodeHash keccak (cs i)),?_,.hash below ((kept i).1 below small) (kept i).2 fun _ => small⟩
            rw [refTo_large below small]
            rfl
    obtain ⟨children,_,swept,_,_,good⟩ := sweep_ok (f := fun i (_ : Unit) =>
        if (refTo keccak (collapse keccak (cs i))).isNil then .ok (.nil,())
        else (expandNode none gen (refTo keccak (collapse keccak (cs i)))).map fun n => (n,()))
      (fun _ => True) (fun _ _ => True) (fun i n _ => Rep keccak db false n (cs i)) (fun _ => trivial)
      (fun _ _ => trivial) (fun h _ => h) (fun i _ _ => by
        obtain ⟨n,is,rep⟩ := child i
        exact ⟨n,(),is,trivial,trivial,rep⟩) () trivial
    refine ⟨.full children ⟨hash,gen,false⟩,?_,.full good flags,rfl⟩
    simp only [collapse,expandNode]
    rw [swept]

/-- Resolving a hash node loads the node it stands for. -/
theorem resolveHash_rep (T : Trie) {h : Hash} (rep : Rep keccak T.db root (.hash h) t)
    (path : Hex) : ∃ n, T.resolveHash h path = .ok n ∧ Rep keccak T.db root n t ∧ isHash n = false := by
  cases rep with
  | hash c stored kept large =>
    have flags : FlagOk keccak T.db root ⟨some (nodeHash keccak t),T.cachegen,false⟩ t :=
      ⟨fun h is => ⟨(Option.some.inj is).symm,large⟩,fun _ => .inl ⟨by simp,stored,kept⟩⟩
    obtain ⟨n,expanded,loaded,notHash⟩ := expandNode_rep c kept (some (nodeHash keccak t)) T.cachegen flags
    refine ⟨n,?_,loaded,notHash⟩
    simp only [resolveHash,Database.node,show T.db.dirties (nodeHash keccak t) = _ from stored,expanded]
    rfl
theorem resolve_rep (T : Trie) (rep : Rep keccak T.db root n t) (path : Hex) :
    ∃ n', T.resolve n path = .ok n' ∧ Rep keccak T.db root n' t ∧ isHash n' = false := by
  cases n with
  | hash h => exact resolveHash_rep T rep path
  | _ => exact ⟨_,rfl,rep,rfl⟩

end
/-! ### Lookups, insertions and deletions -/

/-- What is left of a key at a subtree: a terminated key above a node, or
    nothing at a value or an empty slot. -/
def At (k : Hex) (t : Entries) : Prop :=
  (Terminated (b := 16) k ∧ Shaped t) ∨ (k = [] ∧ (t = .nil ∨ ∃ v, t = .value v))
variable {t : Entries}

theorem At.canonical (at_ : At k t) (node : t ≠ .nil) (notValue : ∀ v, t ≠ .value v) :
    Terminated (b := 16) k ∧ Canonical t := by
  rcases at_ with ⟨term,shaped⟩ | ⟨-,none | ⟨v,is⟩⟩
  · exact ⟨term,shaped.canonical node⟩
  · exact absurd none node
  · exact absurd is (notValue v)
theorem At.below_short {key rest : Hex} (at_ : At (key ++ rest) (.short key t)) : At rest t := by
  obtain ⟨term,c⟩ := at_.canonical (by simp) (by simp)
  cases c with
  | leaf termKey => exact .inr ⟨terminated_front termKey term,.inr ⟨_,rfl⟩⟩
  | ext _ plain below => exact .inl ⟨(terminated_append plain).mp term,below.shaped⟩
theorem At.below_full {x : Nibble} {cs : Nibble → Entries} (at_ : At (x :: k) (.full cs)) : At k (cs x) := by
  obtain ⟨term,c⟩ := at_.canonical (by simp) (by simp)
  by_cases final : x = Fin.last 16
  · subst final
    cases c with
    | branch _ last _ => exact .inr ⟨(terminated_last k).mp term,last⟩
  · exact .inl ⟨(terminated_cons final k).mp term,c.child final⟩
variable {v : Value}

theorem At.value_empty (at_ : At k (.value v)) : k = [] := by
  rcases at_ with ⟨-,shaped⟩ | ⟨empty,-⟩
  · exact absurd (shaped.canonical (by simp)) (Tree.not_canonical_value v)
  · exact empty

theorem prefixLen_append (p a b : Hex) : prefixLen (p ++ a) (p ++ b) = p.length + prefixLen a b := by
  induction p with
  | nil => simp
  | cons x p ih => simp [prefixLen,ih]; omega
@[simp] theorem prefixLen_nil (a : Hex) : prefixLen a [] = 0 := by cases a <;> rfl
theorem prefixLen_apart {x y : Nibble} (apart : x ≠ y) (p xs ys : Hex) :
    prefixLen (p ++ x :: xs) (p ++ y :: ys) = p.length := by
  rw [prefixLen_append]
  simp [prefixLen,apart]
theorem prefixLen_segment (key rest : Hex) : prefixLen (key ++ rest) key = key.length := by
  have := prefixLen_append key rest []
  simpa using this
variable {path : Hex}

section
variable {keccak : Bytes → Hash} (T : Trie)

variable {root : Bool} {n : Node}
/-- What holds of every loaded node, and of a hash node once it holds of the node
    it resolves to, holds of every node. Resolving takes one unit of fuel. -/
theorem by_loading {P : Nat → Node → Prop} {bound : Nat} (path : Hex)
    (loaded : ∀ n fuel, Rep keccak T.db root n t → isHash n = false → bound ≤ fuel → P (fuel+1) n)
    (resolved : ∀ h rn fuel, Rep keccak T.db root rn t → T.resolveHash h path = .ok rn → P fuel rn → P (fuel+1) (.hash h))
    (n : Node) (fuel : Nat) (rep : Rep keccak T.db root n t) (enough : bound + 1 + (isHash n).toNat ≤ fuel) :
    P fuel n := by
  obtain ⟨fuel,rfl⟩ : ∃ f, fuel = f+1 := ⟨fuel-1,by omega⟩
  cases n with
  | hash h =>
    obtain ⟨rn,is,repRn,notHash⟩ := resolveHash_rep T rep path
    simp only [isHash,toNat_true] at enough
    obtain ⟨fuel,rfl⟩ : ∃ f, fuel = f+1 := ⟨fuel-1,by omega⟩
    exact resolved h rn _ repRn is (loaded rn fuel repRn notHash (by omega))
  | _ => exact loaded _ fuel rep rfl (by simp [isHash] at enough; omega)

variable (keccak) in
/-- `tryGet` from the node returns the entry of the tree and keeps the tree. -/
def Gets (root : Bool) (t : Entries) (key : Hex) (pos fuel : Nat) (n : Node) : Prop :=
  ∃ n' did, T.tryGetFrom fuel n key pos = .ok ((t.get (key.drop pos)).map Subtype.val,n',did) ∧ Rep keccak T.db root n' t

theorem gets_hash {key : Hex} {pos : Nat} (h : Hash) (rn : Node) (fuel : Nat)
    (_ : Rep keccak T.db root rn t) (is : T.resolveHash h (key.take pos) = .ok rn)
    (gets : Gets keccak T root t key pos fuel rn) : Gets keccak T root t key pos (fuel+1) (.hash h) := by
  obtain ⟨n',did,found,rep⟩ := gets
  exact ⟨n',true,by simp [tryGetFrom,is,found],rep⟩

theorem tryGetFrom_rep (rep : Rep keccak T.db root n t) (key : Hex) (pos fuel : Nat)
    (at_ : At (key.drop pos) t) (enough : 2*(key.drop pos).length + 1 + (isHash n).toNat ≤ fuel) :
    Gets keccak T root t key pos fuel n := by
  induction t generalizing root n pos fuel with (refine by_loading T (key.take pos) ?_ (gets_hash T) n fuel rep enough; intro n fuel rep notHash enough)
  | nil =>
    cases rep with
    | nil => exact ⟨.nil,false,by simp [tryGetFrom],.nil⟩
    | hash => simp [isHash] at notHash
  | value v =>
    cases rep with
    | value => exact ⟨.value v.1,false,by simp [tryGetFrom,at_.value_empty],.value v⟩
    | hash => simp [isHash] at notHash
  | short k t ih =>
    obtain ⟨val,fl,rfl,below,flags⟩ := rep.short_inv notHash
    unfold Gets
    rw [tryGetFrom]
    by_cases front : k <+: key.drop pos
    · obtain ⟨rest,split⟩ := front
      have inside : ¬ (key.length - pos < k.length ∨ k ≠ (key.drop pos).take k.length) := by
        have := congrArg length split
        simp only [length_append,length_drop] at this
        rw [← split]
        simp
        omega
      have dropped : key.drop (pos + k.length) = rest := by
        rw [← drop_drop,← split]
        simp
      rw [← split] at at_ enough
      have shorter := length_pos_iff.mpr (at_.canonical (by simp) (by simp)).2.segment_ne
      have cost : (isHash val).toNat ≤ 1 := toNat_le _
      rw [length_append] at enough
      obtain ⟨n',did,found,rep'⟩ := ih below (pos + k.length) fuel (by rw [dropped]; exact at_.below_short)
        (by rw [dropped]; omega)
      rw [dropped] at found
      rw [if_neg inside,found,← split,Tree.get_short_append]
      cases did with
      | true => exact ⟨_,true,rfl,.short rep' (flags.setGen _)⟩
      | false => exact ⟨_,false,rfl,.short below flags⟩
    · have outside : key.length - pos < k.length ∨ k ≠ (key.drop pos).take k.length :=
        .inr fun same => front (same ▸ take_prefix _ _)
      rw [if_pos outside,Tree.get_short_none _ _ _ front]
      exact ⟨_,false,rfl,.short below flags⟩
  | full cs ih =>
    obtain ⟨ns,fl,rfl,below,flags⟩ := rep.full_inv notHash
    obtain ⟨term,-⟩ := at_.canonical (by simp) (by simp)
    cases split : key.drop pos with
    | nil => rw [split] at term; exact term.elim
    | cons x rest =>
      have dropped : key.drop (pos+1) = rest := by rw [← drop_drop,split]; rfl
      have index : key[pos]? = some x := by
        have := congrArg (·[0]?) split
        simpa using this
      rw [split] at at_ enough
      have cost : (isHash (ns x)).toNat ≤ 1 := toNat_le _
      rw [length_cons] at enough
      obtain ⟨n',did,found,rep'⟩ := ih x (below x) (pos+1) fuel (by rw [dropped]; exact at_.below_full)
        (by rw [dropped]; omega)
      rw [dropped] at found
      unfold Gets
      rw [tryGetFrom,index]
      simp only
      rw [found,split,Tree.get_full]
      cases did with
      | true =>
        refine ⟨_,true,rfl,.full ?_ (flags.setGen _)⟩
        have := Rep.update below rep' x
        rwa [update_eq_self] at this
      | false => exact ⟨_,false,rfl,.full below flags⟩

variable (keccak) in
/-- `insert` at the node follows the insertion into the tree; it reports no
    change only if there is none. -/
def Inserts (root : Bool) (t : Entries) (path k : Hex) (v : Value) (fuel : Nat) (n : Node) : Prop :=
  ∃ dirty n', T.insert fuel n path k (.value v.1) = .ok (dirty,n') ∧ Rep keccak T.db root n' (t.insert k v) ∧
    (dirty = false → t.insert k v = t)

theorem inserts_hash (some : k ≠ []) (h : Hash) (rn : Node)
    (fuel : Nat) (rep : Rep keccak T.db root rn t) (is : T.resolveHash h path = .ok rn)
    (inserts : Inserts keccak T root t path k v fuel rn) : Inserts keccak T root t path k v (fuel+1) (.hash h) := by
  obtain ⟨dirty,n',inserted,rep',same⟩ := inserts
  cases k with
  | nil => exact absurd rfl some
  | cons x k =>
    cases dirty with
    | true => exact ⟨true,n',by simp [Trie.insert,is,inserted],rep',same⟩
    | false => exact ⟨false,rn,by simp [Trie.insert,is,inserted],by rw [same rfl]; exact rep,same⟩

/-- `insert` into the empty node hangs the value below the rest of the key. -/
theorem insert_nil_rep (fuel : Nat) (path k : Hex) (rep : Rep keccak T.db false n t) :
    ∃ n', T.insert (fuel+1) .nil path k n = .ok (true,n') ∧ Rep keccak T.db false n' (Tree.attach k t) := by
  cases k with
  | nil => exact ⟨n,by simp [Trie.insert],by rwa [Tree.attach_nil]⟩
  | cons x k =>
    refine ⟨.short (x :: k) n T.newFlag,by simp [Trie.insert],?_⟩
    rw [Tree.attach_ne (by simp)]
    exact .short rep (flagOk_newFlag T _ _)

theorem insert_rep (v : Value) (rep : Rep keccak T.db root n t) (path k : Hex)
    (fuel : Nat) (at_ : At k t) (enough : 2*k.length + 1 + (isHash n).toNat ≤ fuel) :
    Inserts keccak T root t path k v fuel n := by
  induction t generalizing root n path k fuel with
  | nil =>
    obtain ⟨fuel,rfl⟩ : ∃ f, fuel = f+1 := ⟨fuel-1,by omega⟩
    cases rep with
    | hash c => cases c
    | nil =>
      cases k with
      | nil => exact ⟨true,.value v.1,by simp [Trie.insert],by simpa using .value v,by simp⟩
      | cons x k =>
        refine ⟨true,.short (x :: k) (.value v.1) T.newFlag,by simp [Trie.insert],?_,by simp⟩
        rw [Tree.insert_nil (by simp)]
        exact .short (.value v) (flagOk_newFlag T _ _)
  | value w =>
    obtain ⟨fuel,rfl⟩ : ∃ f, fuel = f+1 := ⟨fuel-1,by omega⟩
    cases rep with
    | hash c => exact absurd c (Tree.not_canonical_value w)
    | value =>
      rw [at_.value_empty]
      refine ⟨decide (w.1 ≠ v.1),.value v.1,by simp [Trie.insert],by simpa using .value v,?_⟩
      intro same
      have : w = v := Subtype.ext (by simpa using same)
      simp [this]
  | short key t ih =>
    obtain ⟨term,c⟩ := at_.canonical (by simp) (by simp)
    refine by_loading T path ?_ (inserts_hash T (terminated_ne_nil term)) n fuel rep enough
    intro n fuel rep notHash enough
    obtain ⟨val,fl,rfl,below,flags⟩ := rep.short_inv notHash
    have someKey := length_pos_iff.mpr c.segment_ne
    obtain ⟨z,zs,isK⟩ : ∃ z zs, k = z :: zs := exists_cons_of_ne_nil (terminated_ne_nil term)
    unfold Inserts
    rcases Tree.cut_cases term c.segment with ⟨rest,split⟩ | ⟨p,x,xs,y,ys,apart,splitK,splitKey⟩
    · -- The key continues below the segment.
      have len := prefixLen_segment key rest
      have cost : (isHash val).toNat ≤ 1 := toNat_le _
      have lengths : k.length = key.length + rest.length := by rw [split,length_append]
      obtain ⟨dirty,n',inserted,rep',same⟩ := ih below (path ++ key) rest fuel (by rw [split] at at_; exact at_.below_short)
        (by omega)
      have tree : (Tree.short key t).insert k v = .short key (t.insert rest v) := by
        rw [split]; exact Tree.insert_short_append key rest t v (by rw [← split]; exact terminated_ne_nil term)
      rw [tree]
      have step : T.insert (fuel+1) (.short key val fl) path k (.value v.1) =
          if dirty then .ok (true,.short key n' T.newFlag) else .ok (false,.short key val fl) := by
        rw [← split] at len
        rw [isK] at len ⊢
        simp only [Trie.insert,len,↓reduceIte]
        rw [← isK,split,take_left,drop_left,inserted]
      rw [step]
      cases dirty with
      | true => exact ⟨true,_,rfl,.short rep' (flagOk_newFlag T _ _),by simp⟩
      | false => exact ⟨false,_,rfl,by rw [same rfl]; exact .short below flags,fun _ => by rw [same rfl]⟩
    · -- The key leaves the segment after `p`, and a branch takes the two rests.
      have len : prefixLen k key = p.length := by rw [splitK,splitKey]; exact prefixLen_apart apart p xs ys
      have inside : ¬ p.length = key.length := by rw [splitKey]; simp
      have atY : key[p.length]? = some y := by rw [splitKey]; simp
      have atX : k[p.length]? = some x := by rw [splitK]; simp
      have dropY : key.drop (p.length+1) = ys := by rw [splitKey]; simp
      have dropX : k.drop (p.length+1) = xs := by rw [splitK]; simp
      have takeX : k.take p.length = p := by rw [splitK]; simp
      obtain ⟨fuel,rfl⟩ : ∃ f, fuel = f+1 := ⟨fuel-1,by rw [isK,length_cons] at enough; omega⟩
      obtain ⟨old,insertedY,repOld⟩ := insert_nil_rep T fuel (path ++ key.take (p.length+1)) ys below
      have leaf : Rep keccak T.db false (.value v.1) (.value v) := .value v
      obtain ⟨new,insertedX,repNew⟩ := insert_nil_rep T fuel (path ++ k.take (p.length+1)) xs leaf
      have branch : Rep keccak T.db false (.full (update (update (fun _ => .nil) y old) x new) T.newFlag)
          (.full (Tree.forked y (Tree.attach ys t) x (Tree.attach xs (.value v)))) :=
        .full (Rep.update (Rep.update (fun _ => .nil) repOld y) repNew x) (flagOk_newFlag T _ _)
      have tree : (Tree.short key t).insert k v =
          Tree.attach p (.full (Tree.forked y (Tree.attach ys t) x (Tree.attach xs (.value v)))) := by
        rw [splitK,splitKey]; exact Tree.insert_short_split p apart xs ys t v
      have step : T.insert (fuel+1+1) (.short key val fl) path k (.value v.1) =
          if p.length = 0 then .ok (true,.full (update (update (fun _ => .nil) y old) x new) T.newFlag)
          else .ok (true,.short p (.full (update (update (fun _ => .nil) y old) x new) T.newFlag)
            T.newFlag) := by
        rw [isK] at len atX dropX takeX insertedX ⊢
        rw [Trie.insert]
        simp only [len,if_neg inside,atY,atX,dropY,dropX,takeX,insertedY,insertedX]
      rw [tree,step]
      by_cases empty : p = []
      · subst empty
        refine ⟨true,_,rfl,?_,by simp⟩
        rw [Tree.attach_nil]
        cases branch with
        | full below _ => exact .full below (flagOk_newFlag T _ _)
      · rw [if_neg (by simpa using empty),Tree.attach_ne empty]
        exact ⟨true,_,rfl,.short branch (flagOk_newFlag T _ _),by simp⟩
  | full cs ih =>
    obtain ⟨term,c⟩ := at_.canonical (by simp) (by simp)
    refine by_loading T path ?_ (inserts_hash T (terminated_ne_nil term)) n fuel rep enough
    intro n fuel rep notHash enough
    obtain ⟨ns,fl,rfl,below,flags⟩ := rep.full_inv notHash
    cases k with
    | nil => exact term.elim
    | cons x k =>
      have cost : (isHash (ns x)).toNat ≤ 1 := toNat_le _
      rw [length_cons] at enough
      obtain ⟨dirty,n',inserted,rep',same⟩ := ih x (below x) (path ++ [x]) k fuel at_.below_full (by omega)
      have step : T.insert (fuel+1) (.full ns fl) path (x :: k) (.value v.1) =
          if dirty then .ok (true,.full (update ns x n') T.newFlag) else .ok (false,.full ns fl) := by
        rw [Trie.insert,inserted]
      unfold Inserts
      rw [Tree.insert_full,step]
      cases dirty with
      | true => exact ⟨true,_,rfl,.full (Rep.update below rep' x) (flagOk_newFlag T _ _),by simp⟩
      | false =>
        rw [same rfl,update_eq_self]
        exact ⟨false,_,rfl,.full below flags,fun _ => rfl⟩

theorem onlyChild_rep (below : ∀ i, Rep keccak T.db false (cs i) (ts i)) :
    onlyChild cs = Tree.lone ts := by
  have same : (fun i => !(cs i).isNil) = fun i => !(ts i).isNil := by
    funext i
    rw [(below i).isNil_eq]
  unfold onlyChild Tree.lone
  rw [same]

/-- The contraction of a branch follows that of the tree, whether the last child
    is loaded or not. -/
theorem contract_rep (path : Hex)
    (below : ∀ i, Rep keccak T.db false (cs i) (ts i))
    (last : ts (Fin.last 16) = .nil ∨ ∃ v, ts (Fin.last 16) = .value v) (root : Bool) :
    ∃ n, T.contract path cs = .ok (true,n) ∧ Rep keccak T.db root n (Tree.contract ts) ∧ isHash n = false := by
  unfold contract Tree.contract
  rw [onlyChild_rep T below]
  cases Tree.lone ts with
  | none => exact ⟨_,rfl,.full below (flagOk_newFlag T _ _),rfl⟩
  | some pos =>
    -- A child that is no short node stays below, as it is.
    have keep : (∀ k t, ts pos ≠ .short k t) →
        Rep keccak T.db root (.short [pos] (cs pos) T.newFlag) (Tree.join [pos] (ts pos)) := by
      intro notShort
      have joined : Tree.join [pos] (ts pos) = .short [pos] (ts pos) := by
        cases shape : ts pos with
        | short k t => exact absurd shape (notShort k t)
        | _ => rfl
      rw [joined]
      exact .short (below pos) (flagOk_newFlag T _ _)
    by_cases final : pos = 16
    · subst final
      refine ⟨_,rfl,keep ?_,rfl⟩
      intro k t is
      rw [last_eq,is] at last
      simp at last
    · obtain ⟨n,resolved,rep,notHash⟩ := resolve_rep T (below pos) path
      simp only [ne_eq,final,not_false_eq_true,↓reduceIte,resolved]
      cases n with
      | hash h => simp [isHash] at notHash
      | short k v fl =>
        generalize ts pos = t at rep
        cases rep with
        | short belowV _ => exact ⟨_,rfl,.short belowV (flagOk_newFlag T _ _),rfl⟩
      | nil | value _ | full _ _ => exact ⟨_,rfl,keep (by intro k t is; rw [is] at rep; cases rep),rfl⟩

theorem merge_rep (key : Hex) (rep : Rep keccak T.db false n t) (notHash : isHash n = false)
    (root : Bool) : Rep keccak T.db root (T.merge key n) (Tree.join key t) ∧ isHash (T.merge key n) = false := by
  cases rep with
  | hash => simp [isHash] at notHash
  | short below _ => exact ⟨.short below (flagOk_newFlag T _ _),rfl⟩
  | nil => exact ⟨.short .nil (flagOk_newFlag T _ _),rfl⟩
  | value v => exact ⟨.short (.value v) (flagOk_newFlag T _ _),rfl⟩
  | full below flags => exact ⟨.short (.full below flags) (flagOk_newFlag T _ _),rfl⟩

variable (keccak) in
/-- `delete` at the node follows the deletion from the tree; it reports no change
    only if there is none, and a changed node is loaded. -/
def Deletes (root : Bool) (t : Entries) (path k : Hex) (fuel : Nat) (n : Node) : Prop :=
  ∃ dirty n', T.delete fuel n path k = .ok (dirty,n') ∧ Rep keccak T.db root n' (t.delete k) ∧
    (dirty = false → t.delete k = t) ∧ (dirty = true → isHash n' = false)

theorem deletes_hash (h : Hash) (rn : Node) (fuel : Nat)
    (rep : Rep keccak T.db root rn t) (is : T.resolveHash h path = .ok rn)
    (deletes : Deletes keccak T root t path k fuel rn) : Deletes keccak T root t path k (fuel+1) (.hash h) := by
  obtain ⟨dirty,n',deleted,rep',same,loaded⟩ := deletes
  cases dirty with
  | true => exact ⟨true,n',by simp [delete,is,deleted],rep',same,loaded⟩
  | false => exact ⟨false,rn,by simp [delete,is,deleted],by rw [same rfl]; exact rep,same,by simp⟩

theorem delete_rep (rep : Rep keccak T.db root n t) (path k : Hex) (fuel : Nat)
    (at_ : At k t) (enough : 2*k.length + 1 + (isHash n).toNat ≤ fuel) : Deletes keccak T root t path k fuel n := by
  induction t generalizing root n path k fuel with (refine by_loading T path ?_ (deletes_hash T) n fuel rep enough; intro n fuel rep notHash enough)
  | nil =>
    cases rep with
    | nil => exact ⟨false,.nil,by simp [delete],by simpa using .nil,by simp,by simp⟩
    | hash => simp [isHash] at notHash
  | value v =>
    cases rep with
    | value => exact ⟨true,.nil,by simp [delete],by simpa using .nil,by simp,by simp [isHash]⟩
    | hash => simp [isHash] at notHash
  | short key t ih =>
    obtain ⟨term,c⟩ := at_.canonical (by simp) (by simp)
    obtain ⟨val,fl,rfl,below,flags⟩ := rep.short_inv notHash
    have someKey := length_pos_iff.mpr c.segment_ne
    unfold Deletes
    rcases Tree.cut_cases term c.segment with ⟨rest,rfl⟩ | ⟨p,x,xs,y,ys,apart,splitK,splitKey⟩
    · have len := prefixLen_segment key rest
      cases c with
      | leaf termKey =>
        have empty := terminated_front termKey term
        subst empty
        refine ⟨true,.nil,?_,by simpa using .nil,by simp,by simp [isHash]⟩
        simp only [append_nil] at len ⊢
        simp [delete,len]
      | @ext _ cs _ plain canonical =>
        have termRest := (terminated_append plain).mp term
        have more := length_pos_iff.mpr (terminated_ne_nil termRest)
        have cost : (isHash val).toNat ≤ 1 := toNat_le _
        rw [length_append] at enough
        obtain ⟨dirty,n',deleted,rep',same,loaded⟩ := ih below (path ++ key) rest fuel at_.below_short (by omega)
        rw [Tree.delete_short_append key _ (terminated_ne_nil termRest)]
        have step : T.delete (fuel+1) (.short key val fl) path (key ++ rest) =
            if dirty then .ok (true,T.merge key n') else .ok (false,.short key val fl) := by
          rw [delete]
          simp only [len,Nat.lt_irrefl,↓reduceIte,take_left,drop_left,deleted,length_append]
          rw [if_neg (by omega)]
        rw [step]
        cases dirty with
        | false =>
          rw [same rfl]
          exact ⟨false,_,rfl,.short below flags,fun _ => rfl,by simp⟩
        | true =>
          have notHash := loaded rfl
          obtain ⟨merged,short⟩ := merge_rep T key rep' notHash root
          exact ⟨true,_,rfl,merged,by simp,fun _ => short⟩
    · have len : prefixLen k key = p.length := by rw [splitK,splitKey]; exact prefixLen_apart apart p xs ys
      have inside : p.length < key.length := by rw [splitKey]; simp
      have tree : (Tree.short key t).delete k = .short key t := by
        rw [splitK,splitKey]; exact Tree.delete_short_split p apart xs ys t
      rw [tree]
      exact ⟨false,_,by rw [delete]; simp [len,inside],.short below flags,fun _ => rfl,by simp⟩
  | full cs ih =>
    obtain ⟨term,c⟩ := at_.canonical (by simp) (by simp)
    obtain ⟨ns,fl,rfl,below,flags⟩ := rep.full_inv notHash
    cases k with
    | nil => exact term.elim
    | cons x k =>
      have cost : (isHash (ns x)).toNat ≤ 1 := toNat_le _
      rw [length_cons] at enough
      obtain ⟨dirty,n',deleted,rep',same,-⟩ := ih x (below x) (path ++ [x]) k fuel at_.below_full (by omega)
      unfold Deletes
      rw [Tree.delete_full,delete,deleted]
      cases dirty with
      | false =>
        rw [same rfl,update_eq_self,Tree.contract_canonical c]
        exact ⟨false,_,rfl,.full below flags,fun _ => rfl,by simp⟩
      | true =>
        have last : update cs x ((cs x).delete k) (Fin.last 16) = .nil ∨
            ∃ v, update cs x ((cs x).delete k) (Fin.last 16) = .value v := by
          cases c with
          | branch _ last _ =>
            by_cases final : Fin.last 16 = x
            · subst final
              rw [update_self]
              rcases last with none | ⟨v,is⟩
              · exact .inl (by rw [none,Tree.delete_nil])
              · exact .inl (by rw [is,Tree.delete_value])
            · rw [update_of_ne final]
              exact last
        obtain ⟨n,contracted,repN,loaded⟩ := contract_rep T path (Rep.update below rep' x) last root
        exact ⟨true,n,contracted,repN,by simp,fun _ => loaded⟩

end
end Canchain.TrieRep
