import Canchain.TrieDecode

/-!
The hasher computes the references of the tree that a node stands for, whatever is cached
(`hash_rep`), and a commit leaves every node in the database. What is assumed of Keccak concerns
the encodings of nodes that are in memory when they are committed (`encodings`).
-/
namespace Canchain.TrieHash
open Rlp Common HexKeys TrieNode TrieOps TrieCollapse TrieRep Function Option Extends
open Sweep
open Patricia hiding Plain plain_append plain_cons
open Patricia.Tree (Canonical Shaped)
variable {root : Bool} {gen limit : UInt16}

section
variable (keccak : Bytes → Hash)

/-- The reference to a live node, computed without its caches. -/
def refOf : Node → Raw
  | .nil => .nil
  | .hash h => .hash h
  | .value v => .value v
  | .short k val _ => refTo keccak (.short (hexToCompact k) (refOf val))
  | .full cs _ => refTo keccak (.full fun i => refOf (cs i))
/-- The collapsed form of a live node, computed without its caches. -/
def collapsed : Node → Raw
  | .short k val _ => .short (hexToCompact k) (refOf keccak val)
  | .full cs _ => .full fun i => refOf keccak (cs i)
  | n => refOf keccak n
/-- The encodings of the nodes in memory at and below a node. -/
def encodings : Node → List Bytes
  | .short k val fl => (collapsed keccak (.short k val fl)).encode :: encodings val
  | .full cs fl => (collapsed keccak (.full cs fl)).encode :: (List.finRange 17).flatMap fun i => encodings (cs i)
  | _ => []

/-- What is assumed of Keccak on the node encodings that occur: it tells them
    apart and gives none of them the hash of the empty cached node. Encodings
    are byte slices, so their lengths are machine integers. -/
structure Ideal (S : Set Bytes) : Prop where
  injective : Set.InjOn keccak S
  nonzero : ∀ e ∈ S, keccak e ≠ Hash.zero
  fits : ∀ e ∈ S, Fits e

/-- Each cached node is well-formed and stored under the hash of its encoding,
    except for the empty node at the zero hash. -/
def DbOk (S : Set Bytes) (db : Database) : Prop :=
  ∀ h r, db.dirties h = some r → (h = Hash.zero ∧ r = .nil) ∨ (Formed r ∧ r.encode ∈ S ∧ h = keccak r.encode)

variable {keccak}

theorem dbOk_newDatabase (S : Set Bytes) (diskdb : Hash → Option Bytes) : DbOk keccak S (newDatabase diskdb) := by
  intro h r found
  simp only [newDatabase] at found
  split at found
  · rename_i zero
    exact .inl ⟨zero,(some.inj found).symm⟩
  · simp at found

variable {db base start : Database} {n : Node} {t : Entries} {S : Set Bytes} {fl : NodeFlag} {force : Bool}
theorem refOf_rep (rep : Rep keccak db root n t)
    (child : root = false) : refOf keccak n = refTo keccak (collapse keccak t) := by
  induction rep with
  | nil => rfl
  | value v => rfl
  | hash c _ _ large => rw [refTo_large c (large child)]; rfl
  | short _ _ ih => rw [refOf,ih rfl]; rfl
  | full _ _ ih => rw [refOf,collapse]; congr 2; funext i; exact ih i rfl
theorem collapsed_rep (rep : Rep keccak db root n t)
    (loaded : isHash n = false) : collapsed keccak n = collapse keccak t := by
  cases rep with
  | nil => rfl
  | value v => rfl
  | hash => simp [isHash] at loaded
  | short below _ => rw [collapsed,collapse,refOf_rep below rfl]
  | full below _ => rw [collapsed,collapse]; congr 1; funext i; exact refOf_rep (below i) rfl

/-- Inserting a node under its hash stores it: an entry already there is the
    same node. -/
theorem insert_stored (ideal : Ideal keccak S) (ok : DbOk keccak S db)
    (c : Canonical t) (occurs : (collapse keccak t).encode ∈ S) :
    ∃ db', db.insert (nodeHash keccak t) (collapse keccak t) = .ok db' ∧ DbOk keccak S db' ∧ Extends db db' ∧
      Stored keccak db' t := by
  have formed : Formed (collapse keccak t) := collapse_formed c
  cases found : db.dirties (nodeHash keccak t) with
  | some r =>
    refine ⟨db,by simp [Database.insert,found],ok,refl db,?_⟩
    rcases ok _ _ found with ⟨zero,-⟩ | ⟨formedR,occursR,same⟩
    · exact absurd zero (ideal.nonzero _ occurs)
    · have encodings := ideal.injective occurs occursR same
      have := encode_injective formed formedR (ideal.fits _ occurs) (ideal.fits _ occursR) encodings
      rw [Stored,found,this]
  | none =>
    refine ⟨{ db with dirties := update db.dirties (nodeHash keccak t) (some (collapse keccak t)) },?_,?_,?_,?_⟩
    · simp [Database.insert,found,TrieDecode.simplifies_storable (TrieDecode.stored_collapse c)]
    · intro h r there
      by_cases same : h = nodeHash keccak t
      · subst same
        simp only [update_self,some.injEq] at there
        subst there
        exact .inr ⟨formed,occurs,rfl⟩
      · simp only [update_of_ne same] at there
        exact ok h r there
    · intro h r there
      have other : h ≠ nodeHash keccak t := by
        rintro rfl
        rw [found] at there
        cases there
      simp [update_of_ne other,there]
    · simp [Stored]

variable (keccak) in
/-- The reference to a tree: its hash if that is forced or the node is not
    small enough to embed. -/
def reference (force : Bool) (t : Entries) : Raw :=
  if force = true ∨ ¬ Embedded keccak t then .hash (nodeHash keccak t) else collapse keccak t
theorem reference_child (c : Canonical t) : reference keccak false t = refTo keccak (collapse keccak t) := by
  by_cases small : Embedded keccak t
  · rw [reference,if_neg (by simpa using small),refTo_small small]
  · rw [reference,if_pos (.inr small),refTo_large c small]

/-- The database the hasher works on: the one it is given, or none to write to
    above the trie's own. -/
abbrev current (base : Database) (db : Option Database) : Database := db.getD base

variable (keccak) in
/-- What hashing does to the database: it only grows, stays well-formed and is
    written to only if it was given. -/
structure Grown (S : Set Bytes) (base : Database) (db db' : Option Database) : Prop where
  given : db'.isSome = db.isSome
  more : Extends (current base db) (current base db')
  ok : DbOk keccak S (current base db')

theorem Grown.trans {a b c : Option Database} (ab : Grown keccak S base a b)
    (bc : Grown keccak S base b c) : Grown keccak S base a c := ⟨bc.given.trans ab.given,ab.more.trans bc.more,bc.ok⟩

theorem store_rep (ideal : Ideal keccak S) {db : Option Database}
    (ok : DbOk keccak S (current base db)) (c : Canonical t) (force : Bool) {cached : Option Hash}
    (agrees : ∀ h, cached = some h → h = nodeHash keccak t)
    (occurs : db.isSome = true → (collapse keccak t).encode ∈ S) :
    ∃ db', store keccak (collapse keccak t) cached db force = .ok (reference keccak force t,db') ∧
      Grown keccak S base db db' ∧
      (db.isSome = true → force = true ∨ ¬ Embedded keccak t → Stored keccak (current base db') t) := by
  have same : cached.getD (keccak (collapse keccak t).encode) = nodeHash keccak t := by
    cases is : cached with
    | none => rfl
    | some h => rw [getD_some]; exact agrees h is
  have unfolded : store keccak (collapse keccak t) cached db force =
      if (collapse keccak t).encode.length < 32 ∧ force = false then .ok (collapse keccak t,db)
      else insertAt (nodeHash keccak t) (collapse keccak t) db := by
    rw [← same]
    cases c <;> rfl
  rw [unfolded]
  by_cases embeds : (collapse keccak t).encode.length < 32 ∧ force = false
  · have notForced : ¬ (force = true ∨ ¬ Embedded keccak t) := by
      rintro (h | h)
      · rw [embeds.2] at h; cases h
      · exact h embeds.1
    rw [if_pos embeds,reference,if_neg notForced]
    exact ⟨db,rfl,⟨rfl,refl _,ok⟩,fun _ forced => absurd forced notForced⟩
  · have forced : force = true ∨ ¬ Embedded keccak t := by
      by_contra none
      rw [not_or,not_not,Bool.not_eq_true] at none
      exact embeds ⟨none.2,none.1⟩
    rw [if_neg embeds,reference,if_pos forced]
    cases db with
    | none => exact ⟨none,rfl,⟨rfl,refl _,ok⟩,by simp⟩
    | some db =>
      obtain ⟨db',inserted,ok',more,stored⟩ := insert_stored ideal ok c (occurs rfl)
      refine ⟨some db',?_,⟨rfl,more,ok'⟩,fun _ _ => stored⟩
      rw [insertAt,show db.insert _ _ = _ from inserted]
      rfl

/-- The flags that `hash` leaves on a node it has computed the reference of. -/
theorem hashedFlags_ok {db db' : Option Database}
    (c : Canonical t) (before : FlagOk keccak start force fl t) (missed : db = none → fl.hash = none)
    (given : db'.isSome = db.isSome) (stored : db.isSome = true → Kept keccak (current base db') t ∧
      (force = true ∨ ¬ Embedded keccak t → Stored keccak (current base db') t)) :
    FlagOk keccak (current base db') force (hashedFlags fl (reference keccak force t) db') t := by
  by_cases hashed : force = true ∨ ¬ Embedded keccak t
  · have is : (hashedFlags fl (reference keccak force t) db').hash = some (nodeHash keccak t) := by
      rw [reference,if_pos hashed]; rfl
    constructor
    · intro h there
      rw [is] at there
      refine ⟨(some.inj there).symm,fun child => hashed.resolve_left (by simp [child])⟩
    · intro clean
      left
      refine ⟨by simp [is],?_⟩
      cases db with
      | some db => obtain ⟨kept,there⟩ := stored rfl; exact ⟨there hashed,kept⟩
      | none =>
        -- Without a database the node was clean before, which only an embedded node is.
        have : fl.dirty = false := by
          cases db' with
          | none => exact clean
          | some db' => simp at given
        rcases before.clean this with ⟨cachedHash,-⟩ | ⟨-,child,small⟩
        · exact absurd (missed rfl) cachedHash
        · exact absurd small (hashed.resolve_left (by simp [child]))
  · have is : (hashedFlags fl (reference keccak force t) db').hash = none := by
      rw [reference,if_neg hashed]
      cases c <;> rfl
    rw [not_or,not_not,Bool.not_eq_true] at hashed
    exact ⟨fun h there => (by rw [is] at there; cases there),fun _ => .inr ⟨is,hashed.1,hashed.2⟩⟩

variable (keccak) in
/-- The database holds what a reference to the tree leads to. -/
def Persisted (force : Bool) (db : Database) (t : Entries) : Prop :=
  Kept keccak db t ∧ (force = true ∨ ¬ Embedded keccak t → Stored keccak db t)
theorem Persisted.mono {db' : Database} (there : Persisted keccak force db t)
    (more : Extends db db') : Persisted keccak force db' t := ⟨there.1.mono more,fun h => (there.2 h).mono more⟩
theorem Persisted.held (there : Persisted keccak false db t) : Held keccak db t :=
  fun _ large => there.2 (.inr large)

/-- An answer from the cache is the reference to the tree; with a database it is
    given only for a node that is stored. -/
theorem fromCache_rep (c : Canonical t)
    (rep : Rep keccak db force n t) (flags : FlagOk keccak db force fl t) (gen limit : UInt16) (given : Option Database)
    {hashed : Raw} {cached : Node} (hit : fromCache gen limit n fl given = some (hashed,cached)) :
    hashed = reference keccak force t ∧ Rep keccak db force cached t ∧
      (given.isSome = true → Persisted keccak force db t) := by
  unfold fromCache at hit
  cases is : fl.hash with
  | none => rw [is] at hit; cases hit
  | some h =>
    obtain ⟨rfl,large⟩ := flags.cached h is
    have answer : Raw.hash (nodeHash keccak t) = reference keccak force t := by
      rw [reference,if_pos]
      cases force with
      | true => exact .inl rfl
      | false => exact .inr (large rfl)
    have stored : fl.dirty = false → Stored keccak db t ∧ Kept keccak db t := by
      intro clean
      rcases flags.clean clean with there | none
      · exact there.2
      · rw [is] at none; cases none.1
    simp only [is] at hit
    split at hit
    · rename_i absent
      simp only [some.injEq,Prod.mk.injEq] at hit
      obtain ⟨rfl,rfl⟩ := hit
      exact ⟨answer,rep,fun present => by cases given <;> simp at absent present⟩
    · split at hit
      · rename_i unload
        have clean : fl.dirty = false := by
          simp only [NodeFlag.canUnload,Bool.and_eq_true,Bool.not_eq_true'] at unload
          exact unload.1
        simp only [some.injEq,Prod.mk.injEq] at hit
        obtain ⟨rfl,rfl⟩ := hit
        obtain ⟨there,kept⟩ := stored clean
        exact ⟨answer,.hash c there kept large,fun _ => ⟨kept,fun _ => there⟩⟩
      · split at hit
        · rename_i clean
          simp only [some.injEq,Prod.mk.injEq] at hit
          obtain ⟨rfl,rfl⟩ := hit
          obtain ⟨there,kept⟩ := stored clean
          exact ⟨answer,rep,fun _ => ⟨kept,fun _ => there⟩⟩
        · cases hit
theorem hash_none_of_miss {given : Option Database}
    (miss : fromCache gen limit n fl given = none) (absent : given = none) : fl.hash = none := by
  subst absent
  unfold fromCache at miss
  cases is : fl.hash with
  | none => rfl
  | some h => simp [is] at miss

variable (keccak) in
/-- The hasher gives the reference to the tree, keeps the tree in the node it
    returns, and with a database leaves it persisted. -/
def Hashes (S : Set Bytes) (gen limit : UInt16) (base : Database) (force : Bool) (t : Entries) (n : Node)
    (db : Option Database) : Prop :=
  ∃ cached db', hash keccak gen limit n db force = .ok (reference keccak force t,cached,db') ∧
    Grown keccak S base db db' ∧ Rep keccak (current base db') force cached t ∧
    (db.isSome = true → Persisted keccak force (current base db') t)

/-- The end of `hash`, once the children are hashed. -/
theorem hashes_of_children (ideal : Ideal keccak S)
    (c : Canonical t) (before : FlagOk keccak start force fl t)
    {db mid : Option Database} (build : NodeFlag → Node) (missed : db = none → fl.hash = none)
    (grown : Grown keccak S base db mid) (occurs : db.isSome = true → (collapse keccak t).encode ∈ S)
    (kept : db.isSome = true → Kept keccak (current base mid) t)
    (rep : ∀ {db' fl'}, Extends (current base mid) db' → FlagOk keccak db' force fl' t →
      Rep keccak db' force (build fl') t) (step : hash keccak gen limit n db force =
      match store keccak (collapse keccak t) fl.hash mid force with
      | .error e => .error e
      | .ok (hashed,db) => .ok (hashed,build (hashedFlags fl hashed db),db)) :
    Hashes keccak S gen limit base force t n db := by
  obtain ⟨db',stored,grown',there⟩ := store_rep ideal grown.ok c force (fun h is => (before.cached h is).1)
    (fun given => occurs (grown.given ▸ given))
  have persisted : db.isSome = true → Persisted keccak force (current base db') t := fun given =>
    ⟨(kept given).mono grown'.more,there (grown.given.trans given)⟩
  refine ⟨build (hashedFlags fl (reference keccak force t) db'),db',by rw [step,stored],grown.trans grown',?_,persisted⟩
  exact rep grown'.more (hashedFlags_ok c before missed (grown.trans grown').given persisted)

theorem embedded_nil : Embedded keccak .nil := by simp [Embedded,collapse,Raw.encode]
theorem simplify_rep (rep : Rep keccak db false n t)
    (slot : t = .nil ∨ ∃ v, t = .value v) : n.simplify = refTo keccak (collapse keccak t) := by
  rcases slot with rfl | ⟨v,rfl⟩
  · cases rep with
    | nil => rfl
    | hash c => cases c
  · cases rep with
    | value => rfl
    | hash c => exact absurd c (Tree.not_canonical_value v)

/-- One round of the loop over the children of a branch. -/
def hashSlot (keccak : Bytes → Hash) (gen limit : UInt16) (cs : Nibble → Node) (i : Fin 16) (db : Option Database) :
    Except Failure ((Raw × Node) × Option Database) :=
  if (cs i.castSucc).isNil then .ok ((.nil,.nil),db)
  else (hash keccak gen limit (cs i.castSucc) db false).map fun (hashed,cached,db) => ((hashed,cached),db)

/-- Hashing any representation of a tree, with any caches and nodes unloaded. -/
theorem hash_rep (ideal : Ideal keccak S) (gen limit : UInt16)
    (rep : Rep keccak start force n t) (c : Canonical t) (db : Option Database)
    (more : Extends start (current base db)) (ok : DbOk keccak S (current base db))
    (occurs : db.isSome = true → ∀ e ∈ encodings keccak n, e ∈ S) : Hashes keccak S gen limit base force t n db := by
  induction rep generalizing db with
  | nil => cases c
  | value v => exact absurd c (Tree.not_canonical_value v)
  | @hash root t canonical stored kept large =>
    refine ⟨.hash (nodeHash keccak t),db,?_,⟨rfl,refl _,ok⟩,
      .hash c (stored.mono more) (kept.mono more) large,fun _ => ⟨kept.mono more,fun _ => stored.mono more⟩⟩
    have forced : root = true ∨ ¬ Embedded keccak t := by
      cases root with
      | true => exact .inl rfl
      | false => exact .inr (large rfl)
    rw [reference,if_pos forced]
    rfl
  | @short root k val t fl below flags ih =>
    have rep := Rep.short below flags
    cases hit : fromCache gen limit (.short k val fl) fl db with
    | some answer =>
      obtain ⟨hashed,cached⟩ := answer
      obtain ⟨rfl,repC,persisted⟩ := fromCache_rep c (rep.mono more) (flags.mono more) gen limit db hit
      exact ⟨cached,db,by rw [TrieOps.hash,hit],⟨rfl,refl _,ok⟩,repC,persisted⟩
    | none =>
      have own : db.isSome = true → (collapse keccak (.short k t)).encode ∈ S := by
        intro given
        rw [← collapsed_rep rep rfl]
        exact occurs given _ (by simp [encodings])
      -- The child: a value as it is, or a branch hashed in turn.
      have child : ∃ cached mid, hashVal val db (hash keccak gen limit val db false) =
            .ok (refTo keccak (collapse keccak t),cached,mid) ∧
          Grown keccak S base db mid ∧ Rep keccak (current base mid) false cached t ∧
          (db.isSome = true → Kept keccak (current base mid) (.short k t)) := by
        cases c with
        | @leaf _ v term =>
          cases below with
          | hash c => exact absurd c (Tree.not_canonical_value v)
          | value =>
            exact ⟨.value v.1,db,rfl,⟨rfl,refl _,ok⟩,.value v,
              fun _ => ⟨fun c => absurd c (Tree.not_canonical_value v),trivial⟩⟩
        | @ext _ cs _ _ canonical =>
          obtain ⟨cached,mid,hashed,grown,repC,persisted⟩ := ih canonical db more ok
            (fun given e m => occurs given e (by simp [encodings,m]))
          refine ⟨cached,mid,?_,grown,repC,fun given => ⟨(persisted given).held,(persisted given).1⟩⟩
          rw [← reference_child canonical,← hashed]
          cases below <;> rfl
      obtain ⟨cached,mid,hashed,grown,repC,kept⟩ := child
      refine hashes_of_children ideal c flags (fun fl => .short k cached fl) (hash_none_of_miss hit) grown own kept
        (fun more' flags' => .short (repC.mono more') flags') ?_
      rw [TrieOps.hash,hit]
      simp only
      rw [hashed]
      rfl
  | @full root cs ts fl below flags ih =>
    have rep := Rep.full below flags
    cases hit : fromCache gen limit (.full cs fl) fl db with
    | some answer =>
      obtain ⟨hashed,cached⟩ := answer
      obtain ⟨rfl,repC,persisted⟩ := fromCache_rep c (rep.mono more) (flags.mono more) gen limit db hit
      exact ⟨cached,db,by rw [TrieOps.hash,hit],⟨rfl,refl _,ok⟩,repC,persisted⟩
    | none =>
      have own : db.isSome = true → (collapse keccak (.full ts)).encode ∈ S := by
        intro given
        rw [← collapsed_rep rep rfl]
        exact occurs given _ (by simp [encodings])
      have shapes : ∀ i : Fin 16, Shaped (ts i.castSucc) := fun i => c.child (Fin.castSucc_lt_last i).ne
      have last : ts (Fin.last 16) = .nil ∨ ∃ v, ts (Fin.last 16) = .value v := by
        cases c with | branch _ last _ => exact last
      -- The loop over the first sixteen children.
      obtain ⟨pairs,mid,swept,grown,-,good⟩ := sweep_ok (f := hashSlot keccak gen limit cs)
        (fun mid => Grown keccak S base db mid)
        (fun a b => Extends (current base a) (current base b))
        (fun i p mid => p.1 = refTo keccak (collapse keccak (ts i.castSucc)) ∧
          Rep keccak (current base mid) false p.2 (ts i.castSucc) ∧
          (db.isSome = true → Persisted keccak false (current base mid) (ts i.castSucc)))
        (fun _ => refl _) (fun ab bc => ab.trans bc)
        (fun good up => ⟨good.1,good.2.1.mono up,fun given => (good.2.2 given).mono up⟩)
        (fun i mid grown => by
          have empties := (below i.castSucc).isNil_eq
          rcases shapes i with none | canonical
          · rw [none] at empties
            refine ⟨(.nil,.nil),mid,if_pos empties,grown,refl _,?_⟩
            simp only [none,refTo_nil,true_and]
            exact ⟨.nil,fun _ => ⟨trivial,fun h => (h.elim (by simp) (absurd embedded_nil))⟩⟩
          · obtain ⟨cached,db',hashed,grown',repC,persisted⟩ := ih i.castSucc canonical mid (more.trans grown.more) grown.ok
              (fun given e m => occurs (grown.given ▸ given) e (by
                simp only [encodings,List.mem_cons,List.mem_flatMap]
                exact .inr ⟨i.castSucc,List.mem_finRange _,m⟩))
            refine ⟨(refTo keccak (collapse keccak (ts i.castSucc)),cached),db',?_,grown.trans grown',grown'.more,rfl,repC,
              fun given => persisted (grown.given.trans given)⟩
            have some : ¬ (cs i.castSucc).isNil = true := by
              rw [empties,Tree.isNil_iff]
              exact canonical.ne_nil
            rw [hashSlot,if_neg some,hashed,reference_child canonical]
            rfl) db ⟨rfl,refl _,ok⟩
      have lastRep := (below (Fin.last 16)).mono (more.trans grown.more)
      have collapsedChildren : slots (fun i => (pairs i).1) (cs 16).simplify =
          fun i => refTo keccak (collapse keccak (ts i)) := by
        funext i
        induction i using Fin.lastCases with
        | last => rw [slots_last]; exact simplify_rep lastRep last
        | cast i => rw [slots_castSucc]; exact (good i).1
      have cachedChildren : ∀ i, Rep keccak (current base mid) false (slots (fun i => (pairs i).2) (cs 16) i) (ts i) := by
        intro i
        induction i using Fin.lastCases with
        | last => rw [slots_last]; exact lastRep
        | cast i => rw [slots_castSucc]; exact (good i).2.1
      have kept : db.isSome = true → Kept keccak (current base mid) (.full ts) := by
        intro given i
        induction i using Fin.lastCases with
        | last =>
          rcases last with none | ⟨v,is⟩
          · rw [none]; exact ⟨fun c => (by cases c),trivial⟩
          · rw [is]; exact ⟨fun c => absurd c (Tree.not_canonical_value v),trivial⟩
        | cast i => exact ⟨((good i).2.2 given).held,((good i).2.2 given).1⟩
      refine hashes_of_children ideal c flags (fun fl => .full (slots (fun i => (pairs i).2) (cs 16)) fl)
        (hash_none_of_miss hit) grown own kept
        (fun more' flags' => .full (fun i => (cachedChildren i).mono more') flags') ?_
      rw [TrieOps.hash,hit]
      simp only
      delta hashSlot at swept
      rw [swept]
      simp only [collapsedChildren]
      rfl

end
end Canchain.TrieHash
