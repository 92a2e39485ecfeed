import Canchain.TrieRoots
import Canchain.Keccak

/-!
Merkle proofs, after `lib/trie/proof.go`. `Prove` writes the hashed nodes on the way to a key
into a proof database, and `VerifyProof` follows a key through it. A proof leads to the entry of
the trie, and no database keyed by hashes leads anywhere else.
-/
namespace Canchain.TrieProof
open Rlp Common HexKeys TrieNode TrieOps TrieCollapse TrieRep List Option Function Keccak
open TrieHash TrieDecode TrieRoots TrieRuns Sweep
open Patricia hiding Plain plain_append plain_cons
open Patricia.Tree (Canonical Shaped)

/-! ### Proving -/

/-- The proof databases, by the hashes they are read with. -/
abbrev ProofDb := Hash → Option Bytes

/-- The first loop of `Prove`: the nodes on the way to the key. -/
def path (T : Trie) : Nat → Node → Hex → Except Failure (List Node)
  | _, _, [] => .ok []
  | _, .nil, _ :: _ => .ok []
  | 0, _, _ :: _ => .error .outOfFuel
  | fuel+1, .short nkey val fl, key@(_ :: _) =>
    if key.length < nkey.length ∨ nkey ≠ key.take nkey.length then .ok [.short nkey val fl]
    else (path T fuel val (key.drop nkey.length)).map (.short nkey val fl :: ·)
  | fuel+1, .full cs fl, x :: key => (path T fuel (cs x) key).map (.full cs fl :: ·)
  | fuel+1, .hash h, key@(_ :: _) =>
    match T.resolveHash h [] with
    | .error e => .error e
    | .ok n => path T fuel n key
  | _+1, .value _, _ :: _ => .error (.panicked .invalidNode)

section
variable (keccak : Bytes → Hash)

/-- `hashChildren`: the collapsed node and the node with its children cached. -/
def hashChildren (cachegen cachelimit : UInt16) (n : Node) (db : Option Database) :
    Except Failure (Raw × Node × Option Database) :=
  match n with
  | .short key val fl =>
    match hashVal val db (hash keccak cachegen cachelimit val db false) with
    | .error e => .error e
    | .ok (collapsed,cached,db) => .ok (.short (hexToCompact key) collapsed,.short key cached fl,db)
  | .full cs fl =>
    let children : Except Failure ((Fin 16 → Raw × Node) × Option Database) := sweep 16 (fun i db =>
      if (cs i.castSucc).isNil then .ok ((.nil,.nil),db)
      else (hash keccak cachegen cachelimit (cs i.castSucc) db false).map fun (hashed,cached,db) => ((hashed,cached),db)) db
    match children with
    | .error e => .error e
    | .ok (pairs,db) =>
      .ok (.full (slots (fun i => (pairs i).1) (cs 16).simplify),.full (slots (fun i => (pairs i).2) (cs 16)) fl,db)
  | n => .ok (n.simplify,n,db)

/-- The hash in the flags of a node, which its collapsed copy keeps. -/
def cacheOf : Node → Option Hash
  | .short _ _ fl => fl.hash
  | .full _ fl => fl.hash
  | _ => none

/-- One round of the second loop of `Prove`: a node known by its hash, or the
    first one, is left out while there are levels to skip and written otherwise. -/
def proveNode (first : Bool) (n : Node) (fromLevel : Nat) (proofDb : ProofDb) : Except Failure (Nat × ProofDb) :=
  match hashChildren keccak 0 0 n none with
  | .error e => .error e
  | .ok (collapsed,_,_) =>
    let put (h : Hash) : Nat × ProofDb :=
      if fromLevel > 0 then (fromLevel - 1,proofDb) else (fromLevel,Function.update proofDb h (some collapsed.encode))
    match store keccak collapsed (cacheOf n) none false with
    | .error e => .error e
    | .ok (.hash h,_) => .ok (put h)
    | .ok _ => if first then .ok (put (keccak collapsed.encode)) else .ok (fromLevel,proofDb)
/-- The second loop of `Prove`. -/
def proveNodes : Bool → List Node → Nat → ProofDb → Except Failure ProofDb
  | _, [], _, proofDb => .ok proofDb
  | first, n :: nodes, fromLevel, proofDb =>
    match proveNode keccak first n fromLevel proofDb with
    | .error e => .error e
    | .ok (fromLevel,proofDb) => proveNodes false nodes fromLevel proofDb
/-- `Prove`. -/
def prove (T : Trie) (key : Bytes) (fromLevel : Nat) (proofDb : ProofDb) : Except Failure ProofDb :=
  match path T (Trie.fuelFor (keybytesToHex key)) T.root (keybytesToHex key) with
  | .error e => .error e
  | .ok nodes => proveNodes keccak true nodes fromLevel proofDb

end

/-- How `VerifyProof` fails: at the given round a node is missing or does not
    decode. -/
inductive VerifyError where
  | missing (i : Nat) (wantHash : Hash)
  | badNode (i : Nat) (e : DecodeError)
  | panicked (p : Panic)
  | outOfFuel
  deriving DecidableEq

/-- `get`: the rest of the key and the node the key leads to within a decoded
    node. -/
def get : Node → Hex → Except Panic (Hex × Node)
  | .short nkey val _, key =>
    if key.length < nkey.length ∨ nkey ≠ key.take nkey.length then .ok ([],.nil) else get val (key.drop nkey.length)
  | .full _ _, [] => .error .indexOutOfRange
  | .full cs _, x :: key => get (cs x) key
  | .hash h, key => .ok (key,.hash h)
  | .nil, key => .ok (key,.nil)
  | .value v, _ => .ok ([],.value v)

/-- The loop of `VerifyProof`, from round `i` on. -/
def verifyFrom (proofDb : ProofDb) : Nat → Nat → Hash → Hex → Except VerifyError (Option Bytes × Nat)
  | 0, _, _, _ => .error .outOfFuel
  | fuel+1, i, wantHash, key =>
    match proofDb wantHash with
    | none => .error (.missing i wantHash)
    | some buf =>
      match decodeNode (buf.length+1) (some wantHash) buf 0 with
      | .error (.panicked p) => .error (.panicked p)
      | .error e => .error (.badNode i e)
      | .ok n =>
        match get n key with
        | .error p => .error (.panicked p)
        | .ok (_,.nil) => .ok (none,i)
        | .ok (keyrest,.hash cld) => verifyFrom proofDb fuel (i+1) cld keyrest
        | .ok (_,.value cld) => .ok (some cld,i+1)
        -- The other kinds have no case in the source, so the loop turns once more.
        | .ok _ => verifyFrom proofDb fuel (i+1) wantHash key
/-- `VerifyProof`: the value (none for nil) and the number of nodes it takes. -/
def verifyProof (fuel : Nat) (rootHash : Hash) (key : Bytes) (proofDb : ProofDb) : Except VerifyError (Option Bytes × Nat) :=
  verifyFrom proofDb fuel 0 rootHash (keybytesToHex key)

/-! ### The tree in a database of its own -/

/-- The trees whose top nodes are the nodes of a tree. -/
def subtrees : Entries → List Entries
  | .short k t => .short k t :: subtrees t
  | .full cs => .full cs :: (List.finRange 17).flatMap fun i => subtrees (cs i)
  | _ => []
/-- The subtrees on the way to a key. -/
def spine : Entries → Hex → List Entries
  | .short k t, key => .short k t :: if k <+: key then spine t (key.drop k.length) else []
  | .full cs, x :: key => .full cs :: spine (cs x) key
  | _, _ => []
variable {u : Entries}

theorem subtrees_child {cs : Nibble → Entries} {i : Nibble} (member : u ∈ subtrees (cs i)) :
    u ∈ subtrees (.full cs) :=
  mem_cons_of_mem _ (mem_flatMap.mpr ⟨i,mem_finRange i,member⟩)
variable {t : Entries}
theorem top_subtree (c : Canonical t) : t ∈ subtrees t := by
  cases c <;> simp [subtrees]
theorem canonical_subtree (c : Canonical t) (member : u ∈ subtrees t) : Canonical u := by
  induction c with
  | @leaf k v term =>
    rcases mem_cons.mp member with rfl | later
    · exact .leaf term
    · cases later
  | @ext k cs some plain below ih =>
    rcases mem_cons.mp member with rfl | later
    · exact .ext some plain below
    · exact ih later
  | @branch cs inner last two ih =>
    rcases mem_cons.mp member with rfl | later
    · exact .branch inner last two
    · obtain ⟨i,-,inside⟩ := mem_flatMap.mp later
      by_cases empty : cs i = .nil
      · rw [empty] at inside
        cases inside
      · by_cases final : i = Fin.last 16
        · subst final
          obtain ⟨v,is⟩ := last.resolve_left empty
          rw [is] at inside
          cases inside
        · exact ih i final empty inside
theorem subtrees_trans {w : Entries} (outer : u ∈ subtrees t) (inner : w ∈ subtrees u) : w ∈ subtrees t := by
  induction t with
  | nil => cases outer
  | value v => cases outer
  | short k t ih =>
    rcases mem_cons.mp outer with rfl | later
    · exact inner
    · exact mem_cons_of_mem _ (ih later)
  | full cs ih =>
    rcases mem_cons.mp outer with rfl | later
    · exact inner
    · obtain ⟨i,-,inside⟩ := mem_flatMap.mp later
      exact subtrees_child (ih i inside)
variable {key : Hex}

theorem head_spine (c : Canonical t) (some : key ≠ []) : (spine t key).head? = Option.some t := by
  cases c with
  | leaf => rfl
  | ext => rfl
  | branch =>
    cases key with
    | nil => exact absurd rfl some
    | cons x key => rfl
theorem top_spine (c : Canonical t) (some : key ≠ []) : t ∈ spine t key :=
  mem_of_head? (head_spine c some)
theorem spine_subset (t : Entries) (key : Hex) : ∀ u ∈ spine t key, u ∈ subtrees t := by
  induction t generalizing key with
  | nil | value _ => intro u member; cases member
  | short k t ih =>
    intro u member
    rcases mem_cons.mp member with rfl | later
    · exact mem_cons_self
    · split at later
      · exact mem_cons_of_mem _ (ih _ u later)
      · cases later
  | full cs ih =>
    intro u member
    cases key with
    | nil => cases member
    | cons x key =>
      rcases mem_cons.mp member with rfl | later
      · exact mem_cons_self
      · exact subtrees_child (ih x key u later)
variable {fuel i : Nat}

section
variable {keccak : Bytes → Hash}

variable {db : Database} {root : Bool} {n : Node}
theorem nodes_eq (t : Entries) : nodes keccak t = (subtrees t).map fun u => (collapse keccak u).encode := by
  induction t with
  | nil => rfl
  | value v => rfl
  | short k t ih => rw [nodes,ih]; rfl
  | full cs ih => simp [nodes,subtrees,map_flatMap,ih]
theorem subtree_node (member : u ∈ subtrees t) : (collapse keccak u).encode ∈ nodes keccak t := by
  rw [nodes_eq]
  exact mem_map_of_mem member

/-- The test of the source for a short node's key. -/
theorem mismatch_iff {nkey : Hex} : (key.length < nkey.length ∨ nkey ≠ key.take nkey.length) ↔ ¬ nkey <+: key := by
  constructor
  · rintro (short | other) front
    · have := front.length_le
      omega
    · exact other (prefix_iff_eq_take.mp front)
  · intro apart
    exact .inr fun same => apart (prefix_iff_eq_take.mpr same)

variable (keccak) in
/-- What a key leads to from the top of a tree: nothing, a value, or the hash of
    a subtree at least so many nibbles further on. -/
inductive Finds (t : Entries) (key : Hex) (least : Nat) : Hex → Node → Prop
  | absent {rest : Hex} (none : t.get key = none) : Finds t key least rest .nil
  | value {rest : Hex} {v : Value} (some : t.get key = some v) : Finds t key least rest (.value v.1)
  | onward {rest : Hex} {u : Entries} (canonical : Canonical u) (large : ¬ Embedded keccak u) (at_ : At rest u)
      (same : t.get key = u.get rest) (way : ∀ w ∈ spine u rest, w ∈ spine t key)
      (shorter : rest.length + least ≤ key.length) : Finds t key least rest (.hash (nodeHash keccak u))

/-- What a child finds, its parent finds with the longer key. -/
theorem Finds.above {inner rest : Hex} {least : Nat} {m : Node} (finds : Finds keccak u inner least rest m)
    (same : t.get key = u.get inner) (way : ∀ w ∈ spine u inner, w ∈ spine t key) (longer : inner.length + 1 ≤ key.length) :
    Finds keccak t key 1 rest m := by
  cases finds with
  | absent none => exact .absent (same.trans none)
  | value some => exact .value (same.trans some)
  | onward c large at_ same' way' shorter =>
    exact .onward c large at_ (same.trans same') (fun w member => way w (way' w member)) (by omega)
theorem get_rep (rep : Rep keccak db root n t) (at_ : At key t) (inner : root = false ∨ isHash n = false) :
    ∃ rest m, get n key = .ok (rest,m) ∧ Finds keccak t key (!isHash n).toNat rest m := by
  induction rep generalizing key with
  | nil => exact ⟨key,.nil,rfl,.absent (Tree.get_nil key)⟩
  | value v =>
    rw [at_.value_empty]
    exact ⟨[],.value v.1,rfl,.value rfl⟩
  | @hash root t c _ _ large =>
    have large := large (inner.resolve_right (by simp [isHash]))
    exact ⟨key,.hash _,rfl,.onward c large at_ rfl (fun w member => member) le_rfl⟩
  | @short root k n t fl below flags ih =>
    by_cases front : k <+: key
    · obtain ⟨inside,rfl⟩ := front
      obtain ⟨rest,m,found,finds⟩ := ih at_.below_short (.inl rfl)
      have some := length_pos_iff.mpr (at_.canonical (by simp) (by simp)).2.segment_ne
      refine ⟨rest,m,?_,finds.above (Tree.get_short_append k t inside) ?_ (by rw [length_append]; omega)⟩
      · rw [get,if_neg (mismatch_iff.not.mpr (by simp)),drop_left]
        exact found
      · intro w member
        rw [spine,if_pos (prefix_append k inside),drop_left]
        exact mem_cons_of_mem _ member
    · refine ⟨[],.nil,?_,.absent (Tree.get_short_none _ _ _ front)⟩
      rw [get,if_pos (mismatch_iff.mpr front)]
  | @full root ns ts fl below flags ih =>
    cases key with
    | nil => exact (at_.canonical (by simp) (by simp)).1.elim
    | cons x inside =>
      obtain ⟨rest,m,found,finds⟩ := ih x at_.below_full (.inl rfl)
      exact ⟨rest,m,found,finds.above (Tree.get_full ..) (fun w member => mem_cons_of_mem _ member) le_rfl⟩
theorem key_ne_nil (at_ : At key u) (c : Canonical u) : key ≠ [] := by
  refine terminated_ne_nil (b := 16) (at_.canonical c.ne_nil ?_).1
  rintro v rfl
  exact Tree.not_canonical_value v c
theorem cacheOf_rep (rep : Rep keccak db root n u) {h : Hash} (is : cacheOf n = some h) : h = nodeHash keccak u := by
  cases rep with
  | nil => cases is
  | value v => cases is
  | hash => cases is
  | short _ flags => exact (flags.cached h is).1
  | full _ flags => exact (flags.cached h is).1

variable (keccak) in
/-- A database that holds every node of a tree and nothing else. -/
def archive (t : Entries) : Database :=
  ⟨fun h => ((subtrees t).find? fun u => nodeHash keccak u = h).map (collapse keccak),fun _ => none⟩
variable (keccak t) in
/-- A loaded node and the subtree it stands for. -/
def Loaded (db : Database) (n : Node) (u : Entries) : Prop := isHash n = false ∧ ∃ root, Rep keccak db root n u
theorem dbOk_archive (c : Canonical t) : DbOk keccak {e | e ∈ nodes keccak t} (archive keccak t) := by
  intro h r found
  obtain ⟨u,is,rfl⟩ := map_eq_some_iff.mp found
  have member := mem_of_find?_eq_some is
  have same := find?_some is
  rw [decide_eq_true_eq] at same
  exact .inr ⟨collapse_formed (canonical_subtree c member),subtree_node member,same.symm⟩

theorem kept_subtrees (all : ∀ w ∈ subtrees u, Stored keccak db w) : Kept keccak db u := by
  induction u with
  | nil => trivial
  | value v => trivial
  | short k u ih =>
    have below := fun w member => all w (mem_cons_of_mem _ member)
    exact ⟨fun cu _ => below u (top_subtree cu),ih below⟩
  | full cs ih =>
    intro i
    have below := fun w member => all w (subtrees_child (i := i) member)
    exact ⟨fun cu _ => below _ (top_subtree cu),ih i below⟩

variable (ideal : Ideal keccak {e | e ∈ nodes keccak t}) (c : Canonical t)
include ideal c

/-- Nodes of a tree with the same hash are equal. -/
theorem collapse_of_nodeHash {w : Entries}
    (inU : u ∈ subtrees t) (inW : w ∈ subtrees t) (same : nodeHash keccak u = nodeHash keccak w) :
    collapse keccak u = collapse keccak w := by
  have nodeU : (collapse keccak u).encode ∈ nodes keccak t := subtree_node inU
  have nodeW : (collapse keccak w).encode ∈ nodes keccak t := subtree_node inW
  exact encode_injective (collapse_formed (canonical_subtree c inU)) (collapse_formed (canonical_subtree c inW))
    (ideal.fits _ nodeU) (ideal.fits _ nodeW) (ideal.injective nodeU nodeW same)

theorem stored_archive (member : u ∈ subtrees t) : Stored keccak (archive keccak t) u := by
  simp only [Stored,archive]
  cases found : (subtrees t).find? fun w => nodeHash keccak w = nodeHash keccak u with
  | none =>
    have := find?_eq_none.mp found u member
    simp at this
  | some w =>
    have same := find?_some found
    rw [decide_eq_true_eq] at same
    rw [map_some,collapse_of_nodeHash ideal c (mem_of_find?_eq_some found) member same]
theorem kept_archive (inside : ∀ w ∈ subtrees u, w ∈ subtrees t) : Kept keccak (archive keccak t) u :=
  kept_subtrees fun w member => stored_archive ideal c (inside w member)
/-- What represents a part of the tree over any database does so over its own. -/
theorem rep_archive (rep : Rep keccak db root n u) (inside : ∀ w ∈ subtrees u, w ∈ subtrees t) :
    Rep keccak (archive keccak t) root n u := by
  have flagged {root : Bool} {fl : NodeFlag} {u : Entries} (flags : FlagOk keccak db root fl u)
      (inside : ∀ w ∈ subtrees u, w ∈ subtrees t) (top : u ∈ subtrees u) : FlagOk keccak (archive keccak t) root fl u :=
    ⟨flags.cached,fun clean => (flags.clean clean).imp_left fun there =>
      ⟨there.1,stored_archive ideal c (inside u top),kept_archive ideal c inside⟩⟩
  induction rep with
  | nil => exact .nil
  | value v => exact .value v
  | hash cu _ _ large => exact .hash cu (stored_archive ideal c (inside _ (top_subtree cu))) (kept_archive ideal c inside) large
  | short _ flags ih =>
    exact .short (ih fun w member => inside w (mem_cons_of_mem _ member)) (flagged flags inside mem_cons_self)
  | full _ flags ih =>
    exact .full (fun i => ih i fun w member => inside w (subtrees_child member)) (flagged flags inside mem_cons_self)

variable {proofDb : ProofDb}

/-- One round of the loop at a node of the tree whose entry is there. -/
theorem verify_round (member : u ∈ subtrees t)
    (at_ : At key u) (there : proofDb (nodeHash keccak u) = some (collapse keccak u).encode) :
    ∃ rest m, Finds keccak u key 1 rest m ∧ ∀ fuel i, verifyFrom proofDb (fuel+1) i (nodeHash keccak u) key =
      match m with
      | .nil => .ok (none,i)
      | .hash cld => verifyFrom proofDb fuel (i+1) cld rest
      | .value cld => .ok (some cld,i+1)
      | _ => verifyFrom proofDb fuel (i+1) (nodeHash keccak u) key := by
  have cu := canonical_subtree c member
  have kept : Kept keccak (archive keccak t) u := kept_archive ideal c fun w inside => subtrees_trans member inside
  obtain ⟨n,expanded,decoded⟩ := decode_collapse cu (ideal.fits _ (subtree_node member)) (some (nodeHash keccak u)) 0
  have flags : FlagOk keccak (archive keccak t) true ⟨some (nodeHash keccak u),0,false⟩ u :=
    ⟨fun h is => ⟨(some.inj is).symm,nofun⟩,fun _ => .inl ⟨by simp,stored_archive ideal c member,kept⟩⟩
  obtain ⟨n',expanded',rep,notHash⟩ := expandNode_rep cu kept (some (nodeHash keccak u)) 0 flags
  have same : n' = n := Except.ok.inj (expanded'.symm.trans expanded)
  subst same
  obtain ⟨rest,m,found,finds⟩ := get_rep rep at_ (.inr notHash)
  rw [notHash] at finds
  have read := decoded ((collapse keccak u).encode.length+1) [] (by omega)
  rw [append_nil] at read
  refine ⟨rest,m,finds,fun fuel i => ?_⟩
  simp only [verifyFrom,there,read,found]
  cases m <;> rfl

/-- Over a database that has the nodes of the tree, if anything, under their
    hashes, the loop returns nothing but the entry of the tree. -/
theorem verify_sound
    (genuine : ∀ u ∈ subtrees t, ∀ e, proofDb (nodeHash keccak u) = some e → e = (collapse keccak u).encode)
    {count : Nat} {v : Option Bytes} (member : u ∈ subtrees t) (at_ : At key u)
    (verified : verifyFrom proofDb fuel i (nodeHash keccak u) key = .ok (v,count)) : v = (u.get key).map Subtype.val := by
  induction fuel generalizing i u key with
  | zero => cases verified
  | succ fuel ih =>
    cases there : proofDb (nodeHash keccak u) with
    | none =>
      rw [verifyFrom,there] at verified
      cases verified
    | some e =>
      rw [genuine u member e there] at there
      obtain ⟨rest,m,finds,round⟩ := verify_round ideal c member at_ there
      rw [round] at verified
      cases finds with
      | absent none =>
        cases verified
        rw [none]
        rfl
      | value some =>
        cases verified
        rw [some]
        rfl
      | onward cu _ at_' same way _ =>
        rw [same]
        refine ih (subtrees_trans member (spine_subset u key _ (way _ ?_))) at_' verified
        exact top_spine cu (key_ne_nil at_' cu)
/-- Over a database that has the nodes on the way to the key the loop returns the
    entry of the tree. -/
theorem verify_complete (member : u ∈ subtrees t) (at_ : At key u) (enough : key.length ≤ fuel)
    (way : ∀ w ∈ spine u key, w = u ∨ ¬ Embedded keccak w → proofDb (nodeHash keccak w) = some (collapse keccak w).encode) :
    ∃ count, verifyFrom proofDb fuel i (nodeHash keccak u) key = .ok ((u.get key).map Subtype.val,count) := by
  induction fuel generalizing i u key with
  | zero => exact absurd (eq_nil_of_length_eq_zero (Nat.le_zero.mp enough)) (key_ne_nil at_ (canonical_subtree c member))
  | succ fuel ih =>
    have cu := canonical_subtree c member
    obtain ⟨rest,m,finds,round⟩ := verify_round ideal c member at_ (way u (top_spine cu (key_ne_nil at_ cu)) (.inl rfl))
    rw [round]
    cases finds with
    | absent none => exact ⟨i,by rw [none]; rfl⟩
    | value some => exact ⟨i+1,by rw [some]; rfl⟩
    | @onward w cw large at_' same inner shorter =>
      have inside := inner w (top_spine cw (key_ne_nil at_' cw))
      rw [same]
      refine ih (subtrees_trans member (spine_subset u key w inside)) at_' (by omega) fun x here kind => ?_
      refine way x (inner x here) (.inr ?_)
      rcases kind with rfl | large'
      · exact large
      · exact large'

/-! ### The nodes that a proof writes -/

theorem hash_child (rep : Rep keccak (archive keccak t) false n u) (cu : Canonical u) (gen limit : UInt16) :
    ∃ cached, hash keccak gen limit n none false = .ok (refTo keccak (collapse keccak u),cached,none) := by
  obtain ⟨cached,db',hashed,grown,-⟩ := hash_rep ideal gen limit rep cu none
    (show Extends (archive keccak t) (current (archive keccak t) none) from Extends.refl _)
    (dbOk_archive c) nofun
  have absent : db' = none := by simpa using grown.given
  rw [absent,reference_child cu] at hashed
  exact ⟨cached,hashed⟩
/-- `hashChildren` collapses the node to that of the tree. -/
theorem hashChildren_rep
    (rep : Rep keccak (archive keccak t) root n u) (cu : Canonical u) (loaded : isHash n = false) (gen limit : UInt16) :
    ∃ cached, hashChildren keccak gen limit n none = .ok (collapse keccak u,cached,none) := by
  cases rep with
  | nil => cases cu
  | value v => exact absurd cu (Tree.not_canonical_value v)
  | hash => simp [isHash] at loaded
  | @short _ k val w fl below flags =>
    obtain ⟨cached,hashed⟩ : ∃ cached, hashVal val none (hash keccak gen limit val none false) =
        .ok (refTo keccak (collapse keccak w),cached,none) := by
      cases cu with
      | @leaf _ v term =>
        cases below with
        | hash c => exact absurd c (Tree.not_canonical_value v)
        | value => exact ⟨.value v.1,rfl⟩
      | @ext _ cs _ _ canonical =>
        obtain ⟨cached,hashed⟩ := hash_child ideal c below canonical gen limit
        refine ⟨cached,?_⟩
        rw [← hashed]
        cases below <;> rfl
    refine ⟨.short k cached fl,?_⟩
    simp only [hashChildren]
    rw [hashed]
    rfl
  | @full _ ns ts fl below flags =>
    have each (i : Fin 16) : ∃ pair, (if (ns i.castSucc).isNil then .ok ((.nil,.nil),none)
        else (hash keccak gen limit (ns i.castSucc) none false).map fun (hashed,cached,db) => ((hashed,cached),db)) =
          (.ok (pair,none) : Except Failure ((Raw × Node) × Option Database)) ∧
        pair.1 = refTo keccak (collapse keccak (ts i.castSucc)) := by
      have empties := (below i.castSucc).isNil_eq
      rcases cu.child (Fin.castSucc_lt_last i).ne with none | canonical
      · rw [none] at empties ⊢
        exact ⟨(.nil,.nil),if_pos empties,rfl⟩
      · obtain ⟨cached,hashed⟩ := hash_child ideal c (below i.castSucc) canonical gen limit
        have some : ¬ (ns i.castSucc).isNil = true := by
          rw [empties,Tree.isNil_iff]
          exact canonical.ne_nil
        exact ⟨(_,cached),by rw [if_neg some,hashed]; rfl,rfl⟩
    choose pairs swept refs using each
    have last : ts (Fin.last 16) = .nil ∨ ∃ v, ts (Fin.last 16) = .value v := by
      cases cu with | branch _ last _ => exact last
    have walked := sweep_walk (g := pairs) (f := fun (i : Fin 16) db =>
      if (ns i.castSucc).isNil then .ok ((.nil,.nil),db)
      else (hash keccak gen limit (ns i.castSucc) db false).map fun (hashed,cached,db) => ((hashed,cached),db))
      (fun _ => none) swept
    have collapsedChildren : slots (fun i => (pairs i).1) (ns 16).simplify =
        fun i => refTo keccak (collapse keccak (ts i)) := by
      funext i
      induction i using Fin.lastCases with
      | last => rw [slots_last]; exact simplify_rep (below (Fin.last 16)) last
      | cast i => rw [slots_castSucc]; exact refs i
    refine ⟨.full (slots (fun i => (pairs i).2) (ns 16)) fl,?_⟩
    simp only [hashChildren]
    rw [walked]
    simp only
    rw [collapsedChildren]
    rfl

/-- A node of the tree is written if it is the first or known by its hash. -/
theorem proveNode_rep
    (rep : Rep keccak (archive keccak t) root n u) (cu : Canonical u) (loaded : isHash n = false) (first : Bool) (db : ProofDb) :
    proveNode keccak first n 0 db = .ok (0,if first = true ∨ ¬ Embedded keccak u then
      update db (nodeHash keccak u) (some (collapse keccak u).encode) else db) := by
  obtain ⟨cached,collapsed⟩ := hashChildren_rep ideal c rep cu loaded 0 0
  obtain ⟨db',stored,-⟩ := store_rep ideal (show DbOk keccak _ (current (archive keccak t) none) from dbOk_archive c) cu false
    (fun h is => cacheOf_rep rep is) nofun
  simp only [proveNode,collapsed,stored]
  by_cases small : Embedded keccak u
  · rw [reference,if_neg (by simpa using small)]
    cases cu <;> cases first <;> simp [small,nodeHash] <;> rfl
  · rw [reference,if_pos (.inr small)]
    simp [small]

theorem proveNodes_rep {base : Database} {ns : List Node}
    {us : List Entries} (reps : List.Forall₂ (Loaded keccak base) ns us) (inside : ∀ u ∈ us, u ∈ subtrees t) (first : Bool)
    (db : ProofDb) : ∃ db', proveNodes keccak first ns 0 db = .ok db' ∧
      (∀ u ∈ us, (first = true ∧ us.head? = some u) ∨ ¬ Embedded keccak u →
        db' (nodeHash keccak u) = some (collapse keccak u).encode) ∧
      ∀ w ∈ subtrees t, db (nodeHash keccak w) = some (collapse keccak w).encode →
        db' (nodeHash keccak w) = some (collapse keccak w).encode := by
  induction reps generalizing first db with
  | nil => exact ⟨db,rfl,fun u member => (by cases member),fun w _ there => there⟩
  | @cons n u ns us rep _ ih =>
    obtain ⟨loaded,root,rep⟩ := rep
    have member := inside u mem_cons_self
    have own := rep_archive ideal c rep fun w below => subtrees_trans member below
    have step := proveNode_rep ideal c own (canonical_subtree c member) loaded first db
    obtain ⟨db',proved,written,kept⟩ := ih (fun u later => inside u (mem_cons_of_mem _ later)) false
      (if first = true ∨ ¬ Embedded keccak u then
        update db (nodeHash keccak u) (some (collapse keccak u).encode) else db)
    refine ⟨db',by rw [proveNodes,step]; exact proved,?_,?_⟩
    · intro w here kind
      rcases mem_cons.mp here with rfl | later
      · have put : first = true ∨ ¬ Embedded keccak w := kind.imp_left And.left
        exact kept w member (by rw [if_pos put,update_self])
      · by_cases large : Embedded keccak w
        · -- Only the first node is written although it is small.
          obtain ⟨-,⟨⟩⟩ := kind.resolve_right (not_not_intro large)
          have put : first = true ∨ ¬ Embedded keccak u := kind.imp_left And.left
          exact kept u member (by rw [if_pos put,update_self])
        · exact written w later (.inr large)
    · intro w here there
      refine kept w here ?_
      split
      · by_cases same : nodeHash keccak w = nodeHash keccak u
        · rw [same,update_self,collapse_of_nodeHash ideal c here member same]
        · rw [update_of_ne same]
          exact there
      · exact there
end
variable {root : Bool}

section
variable {keccak : Bytes → Hash} (T : Trie)

variable (keccak) in
/-- `Prove` collects the nodes on the way to the key. -/
def Collects (t : Entries) (key : Hex) (fuel : Nat) (n : Node) : Prop :=
  ∃ ns, path T fuel n key = .ok ns ∧ List.Forall₂ (Loaded keccak T.db) ns (spine t key)

theorem collects_hash (h : Hash) (rn : Node) (fuel : Nat)
    (_ : Rep keccak T.db root rn t) (is : T.resolveHash h [] = .ok rn) (collects : Collects keccak T t key fuel rn) :
    Collects keccak T t key (fuel+1) (.hash h) := by
  unfold Collects at *
  cases key with
  | nil => simpa only [path] using collects
  | cons x key => simpa only [path,is] using collects
theorem path_rep {n : Node} (rep : Rep keccak T.db root n t) (key : Hex) (fuel : Nat)
    (at_ : At key t) (enough : 2*key.length + 1 + (isHash n).toNat ≤ fuel) : Collects keccak T t key fuel n := by
  induction t generalizing root n key fuel with
  | nil =>
    rw [rep.eq_nil]
    cases key <;> exact ⟨[],by simp [path],.nil⟩
  | value v =>
    rw [at_.value_empty]
    exact ⟨[],by simp [path],.nil⟩
  | short k t ih =>
    refine by_loading T [] ?_ (collects_hash T) n fuel rep enough
    intro n fuel rep notHash enough
    have loaded : Loaded keccak T.db n (.short k t) := ⟨notHash,root,rep⟩
    have some := key_ne_nil at_ (at_.canonical (by simp) (by simp)).2
    obtain ⟨val,fl,rfl,below,flags⟩ := rep.short_inv notHash
    obtain ⟨x,tail,rfl⟩ := exists_cons_of_ne_nil some
    unfold Collects
    rw [path,spine]
    by_cases front : k <+: x :: tail
    · have dropped : At ((x :: tail).drop k.length) t := by
        obtain ⟨rest,split⟩ := front
        rw [← split] at at_ ⊢
        rw [drop_left]
        exact at_.below_short
      have shorter := length_pos_iff.mpr (at_.canonical (by simp) (by simp)).2.segment_ne
      have cost : (isHash val).toNat ≤ 1 := Bool.toNat_le _
      have fits := front.length_le
      obtain ⟨ns,found,reps⟩ := ih below _ fuel dropped (by rw [length_drop]; omega)
      rw [if_neg (mismatch_iff.not.mpr (not_not_intro front)),found,if_pos front]
      exact ⟨_,rfl,.cons loaded reps⟩
    · rw [if_pos (mismatch_iff.mpr front),if_neg front]
      exact ⟨_,rfl,.cons loaded .nil⟩
  | full cs ih =>
    refine by_loading T [] ?_ (collects_hash T) n fuel rep enough
    intro n fuel rep notHash enough
    have loaded : Loaded keccak T.db n (.full cs) := ⟨notHash,root,rep⟩
    obtain ⟨ns,fl,rfl,below,flags⟩ := rep.full_inv notHash
    cases key with
    | nil => exact (at_.canonical (by simp) (by simp)).1.elim
    | cons x key =>
      have cost : (isHash (ns x)).toNat ≤ 1 := Bool.toNat_le _
      rw [length_cons] at enough
      obtain ⟨found,is,reps⟩ := ih x (below x) key fuel at_.below_full (by omega)
      exact ⟨_,by rw [path,is]; rfl,.cons loaded reps⟩

/-! ### Tries over a database with a disk -/

variable (keccak) in
/-- The trie with its disk in memory. -/
noncomputable def inMemory : Trie := { T with db := loaded keccak T.db }

theorem resolveHash_inMemory (h : Hash) (p : Hex) : (inMemory keccak T).resolveHash h p = T.resolveHash h p := by
  simp [Trie.resolveHash,inMemory,loaded_node]
theorem tryGetFrom_inMemory (fuel : Nat) (n : Node) (key : Hex) (pos : Nat) :
    (inMemory keccak T).tryGetFrom fuel n key pos = T.tryGetFrom fuel n key pos := by
  induction fuel generalizing n key pos with
  | zero => rfl
  | succ fuel ih => cases n <;> simp only [Trie.tryGetFrom,ih,resolveHash_inMemory] <;> rfl
theorem path_inMemory (fuel : Nat) (n : Node) (key : Hex) : path (inMemory keccak T) fuel n key = path T fuel n key := by
  induction fuel generalizing n key with
  | zero => cases key <;> cases n <;> rfl
  | succ fuel ih => cases key <;> cases n <;> simp only [path,ih,resolveHash_inMemory]

variable (keccak) in
/-- The trie stands for the tree, with nodes in memory or on disk. -/
structure Stands (t : Entries) : Prop where
  shaped : Shaped t
  rep : Rep keccak (loaded keccak T.db) true T.root t

variable {T}

theorem Stands.canonical (stands : Stands keccak T t) (some : T.root ≠ .nil) : Canonical t := by
  refine stands.shaped.canonical ?_
  rintro rfl
  exact some stands.rep.eq_nil

/-- The tries of every run over one node database stand for the maps they refine. -/
theorem run_stands {diskdb : Hash → Option Bytes} {ops : List Op} (safe : NoCollision keccak (occurring keccak (start diskdb) ops)) :
    ∃ s, Runs.run (step keccak) (start diskdb) ops = .ok (s,(Runs.replay Maps.step Maps.start ops).2) ∧
      ∃ t, Stands keccak s.trie t ∧ Holds t (Runs.replay Maps.step Maps.start ops).1.current := by
  obtain ⟨s,ran,-,⟨t,shows_,holds⟩,-⟩ := run_refines_maps safe (fun e member => member)
  exact ⟨s,ran,t,⟨holds.shaped,Rep.mono shows_ (extends_loaded _)⟩,holds⟩
theorem stored_onDisk {db : Database} (c : Canonical t) (fits : Fits (collapse keccak t).encode)
    (fresh : db.dirties (nodeHash keccak t) = none)
    (there : db.diskdb (nodeHash keccak t) = Option.some (collapse keccak t).encode) : Stored keccak (loaded keccak db) t := by
  have found : ∃ u, Canonical u ∧ Fits (collapse keccak u).encode ∧
    db.diskdb (nodeHash keccak t) = Option.some (collapse keccak u).encode := ⟨t,c,fits,there⟩
  obtain ⟨cu,fitsU,is⟩ := found.choose_spec
  rw [Stored,loaded]
  simp only [fresh,none_or,onDisk]
  rw [dif_pos found,encode_injective (collapse_formed cu) (collapse_formed c) fitsU fits (Option.some.inj (is.symm.trans there))]
/-- A trie that is opened over a disk which has its nodes stands for its tree. -/
theorem new_stands (ideal : Ideal keccak {e | e ∈ nodes keccak t}) (c : Canonical t) (proper : nodeHash keccak t ≠ emptyRoot)
    {diskdb : Hash → Option Bytes} (there : ∀ e ∈ nodes keccak t, diskdb (keccak e) = Option.some e) :
    ∃ T, Trie.new (nodeHash keccak t) (newDatabase diskdb) = .ok T ∧ Stands keccak T t := by
  have nonzero {u : Entries} (member : u ∈ subtrees t) : nodeHash keccak u ≠ Hash.zero := ideal.nonzero _ (subtree_node member)
  have stored (u : Entries) (member : u ∈ subtrees t) : Stored keccak (loaded keccak (newDatabase diskdb)) u :=
    stored_onDisk (canonical_subtree c member) (ideal.fits _ (subtree_node member)) (if_neg (nonzero member))
      (there _ (subtree_node member))
  have node : Rep keccak (loaded keccak (newDatabase diskdb)) true (.hash (nodeHash keccak t)) t :=
    .hash c (stored t (top_subtree c)) (kept_subtrees stored) (by simp)
  obtain ⟨n,resolved,rep,-⟩ := resolveHash_rep (inMemory keccak ⟨newDatabase diskdb,.nil,0,0⟩) node []
  rw [resolveHash_inMemory] at resolved
  exact ⟨⟨newDatabase diskdb,n,0,0⟩,by simp [Trie.new,nonzero (top_subtree c),proper,resolved],c.shaped,rep⟩

theorem tryGet_stands (stands : Stands keccak T t) (key : Bytes) :
    ∃ T', T.tryGet key = .ok ((t.get (keybytesToHex key)).map Subtype.val,T') := by
  obtain ⟨n,did,found,-⟩ := tryGetFrom_rep (inMemory keccak T) stands.rep (keybytesToHex key) 0 _
    (at_root stands.shaped key) (fuel_enough _ T.root)
  rw [drop_zero,tryGetFrom_inMemory] at found
  cases did with
  | true => exact ⟨{ T with root := n },by simp [Trie.tryGet,found]⟩
  | false => exact ⟨T,by simp [Trie.tryGet,found]⟩
theorem hash_stands (ideal : Ideal keccak {e | e ∈ nodes keccak t}) (stands : Stands keccak T t) (some : T.root ≠ .nil) :
    ∃ T', T.hash keccak = .ok (nodeHash keccak t,T') := by
  have c := stands.canonical some
  -- Hashing without a database reads none, so it may as well be the tree's own.
  have rep : Rep keccak (archive keccak t) true T.root t := rep_archive ideal c stands.rep fun w member => member
  obtain ⟨n,db',hashed,-⟩ := hash_rep ideal T.cachegen T.cachelimit rep c none
    (show Extends (archive keccak t) (current (archive keccak t) none) from Extends.refl _)
    (dbOk_archive c) nofun
  rw [reference,if_pos (.inl rfl)] at hashed
  have root : T.hashRoot keccak none = .ok (.hash (nodeHash keccak t),n,db') := by
    rw [← hashed]
    unfold Trie.hashRoot
    cases is : T.root with
    | nil => exact absurd is some
    | _ => rfl
  refine ⟨{ T with root := n },?_⟩
  simp [Trie.hash,root]
/-- A proof holds the nodes on the way to the key that are known by their hash,
    and the root. -/
theorem prove_stands (ideal : Ideal keccak {e | e ∈ nodes keccak t}) (stands : Stands keccak T t) (some : T.root ≠ .nil)
    (key : Bytes) (proofDb : ProofDb) : ∃ proofDb', prove keccak T key 0 proofDb = .ok proofDb' ∧
      ∀ w ∈ spine t (keybytesToHex key), w = t ∨ ¬ Embedded keccak w →
        proofDb' (nodeHash keccak w) = Option.some (collapse keccak w).encode := by
  have c := stands.canonical some
  obtain ⟨ns,found,reps⟩ := path_rep (inMemory keccak T) stands.rep (keybytesToHex key) _ (at_root stands.shaped key)
    (fuel_enough _ T.root)
  rw [path_inMemory] at found
  obtain ⟨proofDb',proved,written,-⟩ := proveNodes_rep ideal c reps (spine_subset t (keybytesToHex key)) true proofDb
  refine ⟨proofDb',?_,fun w member kind => written w member (kind.imp_left fun top => ⟨rfl,?_⟩)⟩
  · simp only [prove]
    rw [show path T _ T.root _ = _ from found]
    exact proved
  · rw [top]
    exact head_spine c (key_ne_nil (at_root stands.shaped key) c)

/-- No proof verifies against the root of the empty trie. -/
theorem verify_empty {proofDb : ProofDb} (keyed : ∀ h e, proofDb h = Option.some e → h = keccak e)
    (empty : keccak [0x80] = emptyRoot) (apart : Set.InjOn keccak ({[0x80]} ∪ {e | ∃ h, proofDb h = Option.some e}))
    (fuel i : Nat) (key : Hex) {result : Option Bytes × Nat} : verifyFrom proofDb fuel i emptyRoot key ≠ .ok result := by
  intro verified
  cases fuel with
  | zero => cases verified
  | succ fuel =>
    cases there : proofDb emptyRoot with
    | none =>
      rw [verifyFrom,there] at verified
      cases verified
    | some e =>
      have is : [0x80] = e := apart (.inl rfl) (.inr ⟨_,there⟩) (empty.trans (keyed _ e there))
      rw [← is] at there
      rw [verifyFrom,there] at verified
      cases verified

/-- Merkle proofs are complete and sound. For every trie that is not empty and
    every key, `VerifyProof` over what `Prove` has written returns what `TryGet`
    does; and whatever it returns without an error over a database whose entries
    are kept under their hashes is what `TryGet` returns, for every trie with the
    root. -/
theorem proof_gives_entry (keccak : Bytes → Hash) (empty : keccak [0x80] = emptyRoot) (T : Trie) (t : Entries)
    (stands : Stands keccak T t) (ideal : Ideal keccak {e | e ∈ nodes keccak t}) (key : Bytes) :
    ∃ root T' v T'', T.hash keccak = .ok (root,T') ∧ T.tryGet key = .ok (v,T'') ∧
      (T.root ≠ .nil → ∀ proofDb fuel, 2*key.length + 1 ≤ fuel → ∃ proofDb' count,
        prove keccak T key 0 proofDb = .ok proofDb' ∧ verifyProof fuel root key proofDb' = .ok (v,count)) ∧
      (∀ proofDb : ProofDb, (∀ h e, proofDb h = some e → h = keccak e) →
        Set.InjOn keccak ({[0x80]} ∪ {e | e ∈ nodes keccak t} ∪ {e | ∃ h, proofDb h = some e}) →
        ∀ fuel w count, verifyProof fuel root key proofDb = .ok (w,count) → w = v) := by
  have at_ := at_root stands.shaped key
  obtain ⟨T'',got⟩ := tryGet_stands stands key
  by_cases none : T.root = .nil
  · refine ⟨emptyRoot,T,_,T'',?_,got,fun some => absurd none some,fun proofDb keyed apart fuel w count verified => ?_⟩
    · simp only [Trie.hash,Trie.hashRoot,none]
      rw [← none]
    · refine absurd verified (verify_empty keyed empty (apart.mono ?_) fuel 0 _)
      exact Set.union_subset_union_left _ Set.subset_union_left
  · have c := stands.canonical none
    obtain ⟨T',hashed⟩ := hash_stands ideal stands none
    refine ⟨nodeHash keccak t,T',_,T'',hashed,got,fun _ proofDb fuel enough => ?_,
      fun proofDb keyed apart fuel w count verified => ?_⟩
    · obtain ⟨proofDb',proved,way⟩ := prove_stands ideal stands none key proofDb
      obtain ⟨count,verified⟩ := verify_complete ideal c (i := 0) (top_subtree c) at_
        (show (keybytesToHex key).length ≤ fuel by rwa [length_keybytesToHex]) way
      exact ⟨proofDb',count,proved,verified⟩
    · refine verify_sound ideal c (fun u member e there => ?_) (top_subtree c) at_ verified
      have node : (collapse keccak u).encode ∈ nodes keccak t := subtree_node member
      exact apart (.inr ⟨_,there⟩) (.inl (.inr node)) (keyed _ e there).symm
end

/-- Two entries below a branch, one in a leaf of its own and one embedded. -/
def sampleTree : Entries :=
  (Tree.insert .nil (keybytesToHex [0x12]) ⟨sampleValue,by decide⟩).insert (keybytesToHex [0x13]) ⟨[0x01],by decide⟩

theorem sample_stands (keccak : Bytes → Hash) : ∃ T T', (start fun _ => none).trie.tryUpdate [0x12] sampleValue = .ok T ∧
    T.tryUpdate [0x13] [0x01] = .ok T' ∧ Stands keccak T' sampleTree := by
  have first : Canonical (Tree.insert .nil (keybytesToHex [0x12]) (⟨sampleValue,by decide⟩ : Value)) :=
    Tree.canonical_insert (.inl rfl) (terminated_keybytesToHex _) _
  obtain ⟨T,updated,-,shows_⟩ := tryUpdate_shows (show Shows keccak (start fun _ => none).trie .nil from .nil) (.inl rfl) [0x12]
    ⟨sampleValue,by decide⟩
  obtain ⟨T',updated',-,shows'⟩ := tryUpdate_shows shows_ first.shaped [0x13] ⟨[0x01],by decide⟩
  exact ⟨T,T',updated,updated',(Tree.canonical_insert first.shaped (terminated_keybytesToHex _) _).shaped,
    Rep.mono shows' (extends_loaded _)⟩
theorem sample_nodes : ∀ a ∈ nodes keccak256 sampleTree, a.length < 2^64 ∧ keccak256 a ≠ Hash.zero ∧
    ∀ b ∈ nodes keccak256 sampleTree, keccak256 a = keccak256 b → a = b := by
  rw [keccak_packed]
  decide +kernel
theorem sample_ideal : Ideal keccak256 {e | e ∈ nodes keccak256 sampleTree} :=
  ⟨fun a inA => (sample_nodes a inA).2.2,fun a inA => (sample_nodes a inA).2.1,fun a inA => (sample_nodes a inA).1⟩
/-- The same tree with all of its nodes on disk. -/
theorem sample_opened : ∃ T, Trie.new (nodeHash keccak256 sampleTree)
    (newDatabase fun h => (nodes keccak256 sampleTree).find? (keccak256 · = h)) = .ok T ∧ Stands keccak256 T sampleTree := by
  refine new_stands sample_ideal ?_ ?_ fun e member => ?_
  · exact Tree.canonical_insert (Tree.canonical_insert (.inl rfl) (terminated_keybytesToHex _) _).shaped (terminated_keybytesToHex _) _
  · rw [keccak_packed]
    decide +kernel
  · have some_ : ((nodes keccak256 sampleTree).find? (keccak256 · = keccak256 e)).isSome := find?_isSome.mpr ⟨e,member,by simp⟩
    obtain ⟨e',found⟩ := Option.isSome_iff_exists.mp some_
    have same := find?_some found
    rw [decide_eq_true_eq] at same
    rw [found,(sample_nodes e' (mem_of_find?_eq_some found)).2.2 e member same]

theorem proof_gives_entry_sample : ∃ T₁ T, (start fun _ => none).trie.tryUpdate [0x12] sampleValue = .ok T₁ ∧
    T₁.tryUpdate [0x13] [0x01] = .ok T ∧
    ∃ root T' v T'', T.hash Keccak.keccak256 = .ok (root,T') ∧ T.tryGet [0x12] = .ok (v,T'') ∧
      (T.root ≠ .nil → ∀ proofDb fuel, 2*[(0x12 : UInt8)].length + 1 ≤ fuel → ∃ proofDb' count,
        prove Keccak.keccak256 T [0x12] 0 proofDb = .ok proofDb' ∧ verifyProof fuel root [0x12] proofDb' = .ok (v,count)) ∧
      (∀ proofDb : ProofDb, (∀ h e, proofDb h = some e → h = Keccak.keccak256 e) →
        Set.InjOn Keccak.keccak256
          ({[0x80]} ∪ {e | e ∈ nodes Keccak.keccak256 sampleTree} ∪ {e | ∃ h, proofDb h = some e}) →
        ∀ fuel w count, verifyProof fuel root [0x12] proofDb = .ok (w,count) → w = v) := by
  obtain ⟨T₁,T,updated,updated',stands⟩ := sample_stands keccak256
  refine ⟨T₁,T,updated,updated',proof_gives_entry keccak256 ?_ T sampleTree stands sample_ideal [0x12]⟩
  rw [keccak_packed]
  decide +kernel

end Canchain.TrieProof
