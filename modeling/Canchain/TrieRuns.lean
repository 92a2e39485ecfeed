import Canchain.Keccak
import Canchain.TrieHash

/-!
Runs of a trie over one node database. A session updates, reads, hashes and commits a trie and
opens the last root again; it refines a pair of finite maps, the current one and the committed
one. The root hash depends on the current map alone.
-/
namespace Canchain.TrieRuns
open Rlp Common HexKeys TrieNode TrieOps TrieCollapse TrieRep List Function Trie
open TrieHash Runs
open Keccak (keccak256 keccak_packed)
open Patricia hiding Plain plain_append plain_cons
open Patricia.Tree (Canonical Shaped)

inductive Op where
  | tryUpdate (key value : Bytes)
  | tryDelete (key : Bytes)
  | tryGet (key : Bytes)
  | hash
  | commit
  | reopen
  | setCacheLimit (l : UInt16)
  deriving DecidableEq
/-- What an operation returns, apart from roots and errors. -/
inductive Answer where
  | done
  | value (v : Option Bytes)
  deriving DecidableEq

/-- A trie and the root committed last. -/
structure Session where
  trie : Trie
  committed : Hash

/-- `New` with the zero hash, over a fresh node database. -/
def start (diskdb : Hash → Option Bytes) : Session := ⟨⟨newDatabase diskdb,.nil,0,0⟩,Hash.zero⟩

/-- One operation of a session. -/
def step (keccak : Bytes → Hash) (s : Session) : Op → Except Failure (Session × Answer)
  | .tryUpdate key value => (s.trie.tryUpdate key value).map fun t => ({ s with trie := t },.done)
  | .tryDelete key => (s.trie.tryDelete key).map fun t => ({ s with trie := t },.done)
  | .tryGet key => (s.trie.tryGet key).map fun (v,t) => ({ s with trie := t },.value v)
  | .hash => (s.trie.hash keccak).map fun (_,t) => ({ s with trie := t },.done)
  | .commit => (s.trie.commit keccak).map fun (root,t) => (⟨t,root⟩,.done)
  | .reopen => (Trie.new s.committed s.trie.db).map fun t => ({ s with trie := t },.done)
  | .setCacheLimit l => .ok ({ s with trie := s.trie.setCacheLimit l },.done)

/-- The node encodings that occur in a run: those in memory at each commit. -/
def occurring (keccak : Bytes → Hash) (s : Session) (ops : List Op) : List Bytes :=
  (visits (step keccak) s ops).flatMap fun (s,op) => if op = .commit then encodings keccak s.trie.root else []

/-- Keccak tells the node encodings of a run and the empty string apart, gives
    the empty string the hash `emptyRoot` and no node the zero hash. Encodings
    are byte slices, so their lengths are machine integers. -/
structure NoCollision (keccak : Bytes → Hash) (es : List Bytes) : Prop where
  injective : ∀ a ∈ [0x80] :: es, ∀ b ∈ [0x80] :: es, keccak a = keccak b → a = b
  empty : keccak [0x80] = emptyRoot
  nonzero : ∀ e ∈ es, keccak e ≠ Hash.zero
  fits : ∀ e ∈ es, e.length < 2^64

abbrev Map := Bytes → Option Bytes
structure Maps where
  current : Map
  committed : Map

def Maps.start : Maps := ⟨fun _ => none,fun _ => none⟩
/-- The abstract session. -/
def Maps.step (m : Maps) : Op → Maps × Answer
  | .tryUpdate key value =>
    ({ m with current := Function.update m.current key (if value = [] then none else some value) },.done)
  | .tryDelete key => ({ m with current := Function.update m.current key none },.done)
  | .tryGet key => (m,.value (m.current key))
  | .hash => (m,.done)
  | .commit => ({ m with committed := m.current },.done)
  | .reopen => ({ m with current := m.committed },.done)
  | .setCacheLimit _ => (m,.done)

/-- The tree holds the entries of the map. -/
structure Holds (t : Entries) (m : Map) : Prop where
  shaped : Shaped t
  entry : ∀ key, (t.get (keybytesToHex key)).map Subtype.val = m key
  keys : ∀ k, Terminated (b := 16) k → t.get k ≠ none → ∃ key, k = keybytesToHex key

theorem holds_empty : Holds .nil fun _ => none := ⟨.inl rfl,by simp,by simp⟩
variable {t : Entries} {m : Map}
theorem Holds.unique {u : Entries} (ht : Holds t m) (hu : Holds u m) : t = u := by
  have injective : Function.Injective (Option.map (Subtype.val (p := fun v : Bytes => v ≠ []))) :=
    Option.map_injective Subtype.val_injective
  refine Tree.shaped_unique ht.shaped hu.shaped fun k term => ?_
  by_cases key : ∃ key, k = keybytesToHex key
  · obtain ⟨key,rfl⟩ := key
    exact injective ((ht.entry key).trans (hu.entry key).symm)
  · have noneT : t.get k = none := by by_contra some; exact key (ht.keys k term some)
    have noneU : u.get k = none := by by_contra some; exact key (hu.keys k term some)
    rw [noneT,noneU]
theorem Holds.change {u : Entries} (holds : Holds t m) (shaped : Shaped u) (key : Bytes) {v : Option Value}
    (get : ∀ k, Terminated (b := 16) k → u.get k = if k = keybytesToHex key then v else t.get k) :
    Holds u (update m key (v.map Subtype.val)) := by
  refine ⟨shaped,fun l => ?_,fun k termK found => ?_⟩
  · rw [get _ (terminated_keybytesToHex l)]
    by_cases same : l = key
    · subst same; simp
    · rw [if_neg fun h => same (keybytesToHex_injective h),update_of_ne same]
      exact holds.entry l
  · rw [get k termK] at found
    by_cases same : k = keybytesToHex key
    · exact ⟨key,same⟩
    · rw [if_neg same] at found
      exact holds.keys k termK found
theorem Holds.insert (holds : Holds t m) (key : Bytes) (v : Value) : Holds (t.insert (keybytesToHex key) v) (update m key (some v.1)) :=
  have term := terminated_keybytesToHex key
  holds.change (Tree.canonical_insert holds.shaped term v).shaped key fun _ => Tree.get_insert holds.shaped term v
theorem Holds.delete (holds : Holds t m) (key : Bytes) : Holds (t.delete (keybytesToHex key)) (update m key none) :=
  have term := terminated_keybytesToHex key
  holds.change (Tree.shaped_delete holds.shaped term) key fun _ => Tree.get_delete holds.shaped term

/-! ### The operations on a represented trie -/
variable {db : Database} {h : Hash}

section
variable {keccak : Bytes → Hash} {S : Set Bytes}

variable (keccak) in
/-- The trie stands for the tree. -/
def Shows (T : Trie) (t : Entries) : Prop := Rep keccak T.db true T.root t

variable {T : Trie}
theorem at_root (shaped : Shaped t) (key : Bytes) : At (keybytesToHex key) t :=
  .inl ⟨terminated_keybytesToHex key,shaped⟩
theorem fuel_enough (k : Hex) (n : Node) : 2*k.length + 1 + (isHash n).toNat ≤ fuelFor k := by
  have := Bool.toNat_le (isHash n)
  unfold fuelFor; omega

section
variable (ideal : Ideal keccak S) (shows_ : Shows keccak T t) (shaped : Shaped t)
include shows_ shaped

theorem tryGet_shows (key : Bytes) :
    ∃ T', T.tryGet key = .ok ((t.get (keybytesToHex key)).map Subtype.val,T') ∧ T'.db = T.db ∧ Shows keccak T' t := by
  obtain ⟨n,did,found,rep⟩ := tryGetFrom_rep T shows_ (keybytesToHex key) 0 _ (at_root shaped key) (fuel_enough _ T.root)
  rw [drop_zero] at found
  cases did with
  | true => exact ⟨{ T with root := n },by simp [Trie.tryGet,found],rfl,rep⟩
  | false => exact ⟨T,by simp [Trie.tryGet,found],rfl,shows_⟩
theorem tryDelete_shows (key : Bytes) :
    ∃ T', T.tryDelete key = .ok T' ∧ T'.db = T.db ∧ Shows keccak T' (t.delete (keybytesToHex key)) := by
  obtain ⟨dirty,n,deleted,rep,-⟩ := delete_rep T shows_ [] (keybytesToHex key) _ (at_root shaped key) (fuel_enough _ T.root)
  exact ⟨{ T with root := n },by simp [Trie.tryDelete,deleted],rfl,rep⟩
theorem tryUpdate_shows (key : Bytes) (v : Value) :
    ∃ T', T.tryUpdate key v.1 = .ok T' ∧ T'.db = T.db ∧ Shows keccak T' (t.insert (keybytesToHex key) v) := by
  obtain ⟨dirty,n,inserted,rep,-⟩ := insert_rep T v shows_ [] (keybytesToHex key) _ (at_root shaped key) (fuel_enough _ T.root)
  refine ⟨{ T with root := n },?_,rfl,rep⟩
  simp [Trie.tryUpdate,inserted,v.2]

include ideal
/-- The root of any representation of a tree. -/
theorem hashRoot_shows (db : Option Database) (given : db = none ∨ db = some T.db) (ok : DbOk keccak S T.db)
    (occurs : db.isSome = true → ∀ e ∈ encodings keccak T.root, e ∈ S) :
    ∃ n db', T.hashRoot keccak db = .ok (.hash (rootHash keccak t),n,db') ∧ Grown keccak S T.db db db' ∧
      Rep keccak (current T.db db') true n t ∧
      (db.isSome = true → Canonical t → Persisted keccak true (current T.db db') t) := by
  have same : current T.db db = T.db := by rcases given with rfl | rfl <;> rfl
  have ok' : DbOk keccak S (current T.db db) := by rw [same]; exact ok
  rcases shaped with rfl | c
  · have empty : T.root = .nil := Rep.eq_nil shows_
    refine ⟨.nil,db,by simp [hashRoot,empty,rootHash,Tree.isNil],⟨rfl,Extends.refl _,ok'⟩,.nil,fun _ c => by cases c⟩
  · have more : Extends T.db (current T.db db) := by rw [same]; exact Extends.refl _
    obtain ⟨n,db',hashed,grown,rep,persisted⟩ := hash_rep ideal T.cachegen T.cachelimit shows_ c db more ok' occurs
    refine ⟨n,db',?_,grown,rep,fun present _ => persisted present⟩
    rw [reference,if_pos (.inl rfl)] at hashed
    have loaded : T.root.isNil = false := by rw [Rep.isNil_eq shows_,c.isNil]
    rw [rootHash_canonical c,← hashed]
    unfold hashRoot
    cases root : T.root with
    | nil => rw [root] at loaded; cases loaded
    | _ => rfl

/-- `Hash` returns the root hash of the entries. -/
theorem hash_shows (ok : DbOk keccak S T.db) : ∃ T', T.hash keccak = .ok (rootHash keccak t,T') ∧ T'.db = T.db ∧ Shows keccak T' t := by
  obtain ⟨n,db',hashed,grown,rep,-⟩ := hashRoot_shows ideal shows_ shaped none (.inl rfl) ok (by simp)
  have absent : db' = none := by simpa using grown.given
  subst absent
  exact ⟨{ T with root := n },by simp [Trie.hash,hashed],rfl,rep⟩
/-- `Commit` returns the root hash and stores the tree under it. -/
theorem commit_shows (ok : DbOk keccak S T.db) (occurs : ∀ e ∈ encodings keccak T.root, e ∈ S) :
    ∃ T', T.commit keccak = .ok (rootHash keccak t,T') ∧ DbOk keccak S T'.db ∧ Shows keccak T' t ∧
      (Canonical t → Persisted keccak true T'.db t) := by
  obtain ⟨n,db',hashed,grown,rep,persisted⟩ := hashRoot_shows ideal shows_ shaped (some T.db) (.inr rfl) ok (fun _ => occurs)
  obtain ⟨db'',rfl⟩ : ∃ d, db' = some d := Option.isSome_iff_exists.mp (by rw [grown.given]; rfl)
  exact ⟨{ T with db := db'', root := n, cachegen := T.cachegen + 1 },by simp [Trie.commit,hashed],grown.ok,rep,persisted rfl⟩

end

variable (keccak) in
/-- Opening the hash with `New` leads to the tree. -/
def Opens (db : Database) (h : Hash) (t : Entries) : Prop :=
  (t = .nil ∧ (h = Hash.zero ∨ h = emptyRoot)) ∨
    (Canonical t ∧ h = nodeHash keccak t ∧ Persisted keccak true db t)

/-- A stored node is among the encodings that occur. -/
theorem stored_occurs (ok : DbOk keccak S db) (c : Canonical t)
    (stored : Stored keccak db t) : (collapse keccak t).encode ∈ S := by
  rcases ok _ _ stored with ⟨-,empty⟩ | ⟨-,occurs,-⟩
  · exact absurd empty (collapse_formed c).ne_nil
  · exact occurs
theorem new_shows (ideal : Ideal keccak S) (notEmpty : ∀ r, Formed r → r.encode ∈ S → keccak r.encode ≠ emptyRoot)
    (ok : DbOk keccak S db) (opens : Opens keccak db h t) :
    ∃ T, new h db = .ok T ∧ T.db = db ∧ Shows keccak T t := by
  rcases opens with ⟨rfl,special⟩ | ⟨c,rfl,kept,stored⟩
  · refine ⟨⟨db,.nil,0,0⟩,?_,rfl,.nil⟩
    rcases special with rfl | rfl <;> simp [new]
  · have there := stored (.inl rfl)
    have occurs := stored_occurs ok c there
    have nonzero : nodeHash keccak t ≠ Hash.zero := ideal.nonzero _ occurs
    have nonempty : nodeHash keccak t ≠ emptyRoot := notEmpty _ (collapse_formed c) occurs
    have node : Rep keccak db true (.hash (nodeHash keccak t)) t := .hash c there kept (by simp)
    obtain ⟨n,resolved,rep,-⟩ := resolveHash_rep (⟨db,.nil,0,0⟩ : Trie) node []
    exact ⟨⟨db,n,0,0⟩,by simp [new,nonzero,nonempty,resolved],rfl,rep⟩

variable (keccak S) in
/-- A session and the maps it refines. -/
structure Refines (s : Session) (m : Maps) : Prop where
  ok : DbOk keccak S s.trie.db
  live : ∃ t, Shows keccak s.trie t ∧ Holds t m.current
  saved : ∃ t, Opens keccak s.trie.db s.committed t ∧ Holds t m.committed

theorem refines_start (diskdb : Hash → Option Bytes) : Refines keccak S (start diskdb) Maps.start :=
  ⟨dbOk_newDatabase S diskdb,⟨.nil,.nil,holds_empty⟩,⟨.nil,.inl ⟨rfl,.inl rfl⟩,holds_empty⟩⟩

/-- Each operation succeeds, answers as the map does and keeps the refinement. -/
theorem step_refines (ideal : Ideal keccak S) (notEmpty : ∀ r, Formed r → r.encode ∈ S → keccak r.encode ≠ emptyRoot)
    (s : Session) (m : Maps) (op : Op) (refines : Refines keccak S s m)
    (occurs : op = .commit → ∀ e ∈ encodings keccak s.trie.root, e ∈ S) :
    ∃ s', step keccak s op = .ok (s',(m.step op).2) ∧ Refines keccak S s' (m.step op).1 := by
  obtain ⟨ok,⟨t,shows_,holds⟩,saved⟩ := refines
  have delete : ∀ key, ∃ T, s.trie.tryDelete key = .ok T ∧
      Refines keccak S { s with trie := T } { m with current := update m.current key none } := by
    intro key
    obtain ⟨T,done,same,shows'⟩ := tryDelete_shows shows_ holds.shaped key
    exact ⟨T,done,by rw [← same] at ok; exact ok,⟨_,shows',holds.delete key⟩,by rw [← same] at saved; exact saved⟩
  cases op with
  | tryUpdate key value =>
    by_cases empty : value = []
    · obtain ⟨T,done,refines⟩ := delete key
      refine ⟨{ s with trie := T },?_,by simpa [Maps.step,empty] using refines⟩
      have : s.trie.tryUpdate key value = .ok T := by
        rw [← done]
        simp [Trie.tryUpdate,Trie.tryDelete,empty]
      rw [step,this]
      rfl
    · obtain ⟨T,done,same,shows'⟩ := tryUpdate_shows shows_ holds.shaped key ⟨value,empty⟩
      refine ⟨{ s with trie := T },by rw [step,done]; rfl,by rw [← same] at ok; exact ok,⟨_,shows',?_⟩,
        by rw [← same] at saved; exact saved⟩
      have := holds.insert key ⟨value,empty⟩
      simpa [Maps.step,empty] using this
  | tryDelete key =>
    obtain ⟨T,done,refines⟩ := delete key
    exact ⟨{ s with trie := T },by rw [step,done]; rfl,refines⟩
  | tryGet key =>
    obtain ⟨T,done,same,shows'⟩ := tryGet_shows shows_ holds.shaped key
    rw [holds.entry] at done
    exact ⟨{ s with trie := T },by rw [step,done]; rfl,by rw [← same] at ok; exact ok,⟨t,shows',holds⟩,
      by rw [← same] at saved; exact saved⟩
  | hash =>
    obtain ⟨T,done,same,shows'⟩ := hash_shows ideal shows_ holds.shaped ok
    exact ⟨{ s with trie := T },by rw [step,done]; rfl,by rw [← same] at ok; exact ok,⟨t,shows',holds⟩,
      by rw [← same] at saved; exact saved⟩
  | commit =>
    obtain ⟨T,done,ok',shows',persisted⟩ := commit_shows ideal shows_ holds.shaped ok (occurs rfl)
    refine ⟨⟨T,rootHash keccak t⟩,by rw [step,done]; rfl,ok',⟨t,shows',holds⟩,⟨t,?_,holds⟩⟩
    rcases holds.shaped with rfl | c
    · exact .inl ⟨rfl,.inr rfl⟩
    · exact .inr ⟨c,rootHash_canonical c,persisted c⟩
  | reopen =>
    obtain ⟨u,opens,holdsU⟩ := saved
    obtain ⟨T,done,same,shows'⟩ := new_shows ideal notEmpty ok opens
    exact ⟨{ s with trie := T },by rw [step,done]; rfl,by rw [← same] at ok; exact ok,⟨u,shows',holdsU⟩,
      ⟨u,by rw [← same] at opens; exact opens,holdsU⟩⟩
  | setCacheLimit l => exact ⟨_,rfl,ok,⟨t,shows_,holds⟩,saved⟩

end

variable {keccak : Bytes → Hash} {es : List Bytes}
/-- What a run needs of Keccak, from what is assumed of the encodings in it. -/
theorem NoCollision.ideal (safe : NoCollision keccak es) : Ideal keccak {e | e ∈ es} where
  injective a memberA b memberB same :=
    safe.injective a (mem_cons_of_mem _ memberA) b (mem_cons_of_mem _ memberB) same
  nonzero := safe.nonzero
  fits := safe.fits
theorem NoCollision.notEmpty (safe : NoCollision keccak es) (r : Raw)
    (formed : Formed r) (occurs : r.encode ∈ es) : keccak r.encode ≠ emptyRoot := by
  intro same
  rw [← safe.empty] at same
  have := safe.injective _ (mem_cons_of_mem _ occurs) _ (mem_cons_self ..) same
  exact encode_ne_empty (safe.fits _ occurs) (.inl formed) this

/-- Every run succeeds and ends in a session that refines the replayed maps. -/
theorem run_refines_maps {diskdb : Hash → Option Bytes} {ops : List Op}
    (safe : NoCollision keccak es) (occurs : ∀ e ∈ occurring keccak (start diskdb) ops, e ∈ es) :
    ∃ s, run (step keccak) (start diskdb) ops = .ok (s,(replay Maps.step Maps.start ops).2) ∧
      Refines keccak {e | e ∈ es} s (replay Maps.step Maps.start ops).1 := by
  refine run_simulates (step_refines safe.ideal safe.notEmpty) (refines_start diskdb) ops ?_
  rintro ⟨s,op⟩ member commits e inside
  refine occurs e (mem_flatMap.mpr ⟨(s,op),member,?_⟩)
  simpa only [show op = .commit from commits,↓reduceIte] using inside

def sampleValue : Bytes := List.replicate 32 0x20
/-- Two entries below a branch, one with a stored leaf and one embedded; the
    second commit unloads the root. -/
def sampleOps : List Op :=
  [.tryUpdate [0x12] sampleValue,.tryUpdate [0x13] [0x01],.commit,.commit,.tryGet [0x12],.tryDelete [0x13],.hash,
    .reopen,.tryGet [0x13],.hash]

theorem sample_noCollision : NoCollision keccak256 (occurring keccak256 (start fun _ => none) sampleOps) := by
  rw [keccak_packed]
  exact ⟨by decide +kernel,by decide +kernel,by decide +kernel,by decide +kernel⟩

/-- A run over one node database refines a finite map: no operation fails, each
    `TryGet` of the run answers as the replayed map does, and so does `TryGet`
    of any key after it. -/
theorem run_refines_map (keccak : Bytes → Hash) (diskdb : Hash → Option Bytes) (ops : List Op)
    (safe : NoCollision keccak (occurring keccak (start diskdb) ops)) :
    ∃ s, run (step keccak) (start diskdb) ops = .ok (s,(replay Maps.step Maps.start ops).2) ∧
      ∀ key, ∃ T, s.trie.tryGet key = .ok ((replay Maps.step Maps.start ops).1.current key,T) := by
  obtain ⟨s,ran,-,⟨t,shows_,holds⟩,-⟩ := run_refines_maps safe (fun e member => member)
  refine ⟨s,ran,fun key => ?_⟩
  obtain ⟨T,got,-,-⟩ := tryGet_shows shows_ holds.shaped key
  exact ⟨T,by rw [got,holds.entry]⟩

theorem run_refines_map_sample : NoCollision keccak256 (occurring keccak256 (start fun _ => none) sampleOps) ∧
    ∃ s, run (step keccak256) (start fun _ => none) sampleOps =
        .ok (s,[.done,.done,.done,.done,.value (some sampleValue),.done,.done,.done,.value (some [0x01]),.done]) ∧
      ∀ key, ∃ T, s.trie.tryGet key = .ok ((replay Maps.step Maps.start sampleOps).1.current key,T) :=
  ⟨sample_noCollision,run_refines_map keccak256 (fun _ => none) sampleOps sample_noCollision⟩

/-! ### The shape of a trie and its root hash -/

/-- The node is short, or is a hash node that resolves to a short one. -/
def IsShort (db : Database) : Node → Prop
  | .short _ _ _ => True
  | .hash h => ∃ gen k v fl, db.node h gen = .ok (some (.short k v fl))
  | _ => False
/-- No short node has an empty key or a short child and every branch has two
    children, in memory and behind hash nodes. -/
inductive WellShaped (db : Database) : Node → Prop
  | nil : WellShaped db .nil
  | value (v : Bytes) : WellShaped db (.value v)
  | hash {h : Hash} {n : Node} (gen : UInt16) (loads : db.node h gen = .ok (some n)) (below : WellShaped db n) :
      WellShaped db (.hash h)
  | short {k : Hex} {val : Node} {fl : NodeFlag} (some : k ≠ []) (apart : ¬ IsShort db val) (below : WellShaped db val) :
      WellShaped db (.short k val fl)
  | full {cs : Nibble → Node} {fl : NodeFlag} (two : ∃ i j, i ≠ j ∧ (cs i).isNil = false ∧ (cs j).isNil = false)
      (below : ∀ i, WellShaped db (cs i)) : WellShaped db (.full cs fl)
/-- The second node is the first with all caches cleared and any of its hash
    nodes replaced by what they resolve to. -/
inductive Cleared (db : Database) : Node → Node → Prop
  | nil : Cleared db .nil .nil
  | value (v : Bytes) : Cleared db (.value v) (.value v)
  | keep (h : Hash) : Cleared db (.hash h) (.hash h)
  | load {h : Hash} {n n' : Node} (gen : UInt16) (loads : db.node h gen = .ok (some n)) (below : Cleared db n n') :
      Cleared db (.hash h) n'
  | short {k : Hex} {val val' : Node} {fl : NodeFlag} (gen : UInt16) (below : Cleared db val val') :
      Cleared db (.short k val fl) (.short k val' ⟨none,gen,true⟩)
  | full {cs cs' : Nibble → Node} {fl : NodeFlag} (gen : UInt16) (below : ∀ i, Cleared db (cs i) (cs' i)) :
      Cleared db (.full cs fl) (.full cs' ⟨none,gen,true⟩)

section
variable {root : Bool} {n : Node}

theorem node_rep (rep : Rep keccak db root (.hash h) t) (gen : UInt16) :
    ∃ n, db.node h gen = .ok (some n) ∧ Rep keccak db root n t ∧ isHash n = false := by
  obtain ⟨n,resolved,loaded,notHash⟩ := resolveHash_rep (⟨db,.nil,gen,0⟩ : Trie) rep []
  refine ⟨n,?_,loaded,notHash⟩
  unfold resolveHash at resolved
  split at resolved
  · cases resolved
  · cases resolved
  · rename_i node is
    cases resolved
    exact is
theorem isShort_rep (rep : Rep keccak db root n t) (short : IsShort db n) : ∃ k u, t = .short k u := by
  cases n with
  | short k v fl => cases rep; exact ⟨_,_,rfl⟩
  | hash h =>
    obtain ⟨gen,k,v,fl,loads⟩ := short
    obtain ⟨n,is,loaded,-⟩ := node_rep rep gen
    rw [is] at loads
    cases loads
    cases loaded
    exact ⟨_,_,rfl⟩
  | nil | value _ | full _ _ => exact short.elim

theorem wellShaped_rep (shape : Shaped t ∨ ∃ v, t = .value v) (rep : Rep keccak db root n t) : WellShaped db n := by
  induction t generalizing root n with
  | nil => rw [rep.eq_nil]; exact .nil
  | value v =>
    cases rep with
    | value => exact .value _
    | hash c => exact absurd c (Tree.not_canonical_value v)
  | short k t ih =>
    have c : Canonical (.short k t) := by
      rcases shape with shaped | ⟨v,is⟩
      · exact shaped.canonical (by simp)
      · cases is
    have loaded : ∀ {n}, isHash n = false → Rep keccak db root n (.short k t) → WellShaped db n := by
      intro n notHash rep
      cases rep with
      | hash => simp [isHash] at notHash
      | short below _ =>
        refine .short c.segment_ne (fun short => ?_) (ih ?_ below)
        · obtain ⟨k',u,is⟩ := isShort_rep below short
          subst is
          cases c
        · cases c with
          | leaf => exact .inr ⟨_,rfl⟩
          | ext _ _ canonical => exact .inl canonical.shaped
    cases n with
    | hash h =>
      obtain ⟨n,is,repN,notHash⟩ := node_rep rep 0
      exact .hash 0 is (loaded notHash repN)
    | _ => exact loaded rfl rep
  | full ts ih =>
    have c : Canonical (.full ts) := by
      rcases shape with shaped | ⟨v,is⟩
      · exact shaped.canonical (by simp)
      · cases is
    have loaded : ∀ {n}, isHash n = false → Rep keccak db root n (.full ts) → WellShaped db n := by
      intro n notHash rep
      cases rep with
      | hash => simp [isHash] at notHash
      | full below _ =>
        have children := fun i (inner : i ≠ Fin.last 16) => c.child inner
        cases c with
        | branch _ last two =>
          refine .full ?_ fun i => ih i ?_ (below i)
          · obtain ⟨i,j,apart,someI,someJ⟩ := two
            refine ⟨i,j,apart,?_,?_⟩
            · rw [(below i).isNil_eq,← Bool.not_eq_true,Tree.isNil_iff]; exact someI
            · rw [(below j).isNil_eq,← Bool.not_eq_true,Tree.isNil_iff]; exact someJ
          · by_cases final : i = Fin.last 16
            · subst final
              exact last.imp_left .inl
            · exact .inl (children i final)
    cases n with
    | hash h =>
      obtain ⟨n,is,repN,notHash⟩ := node_rep rep 0
      exact .hash 0 is (loaded notHash repN)
    | _ => exact loaded rfl rep

theorem cleared_rep {n' : Node} (cleared : Cleared db n n') (rep : Rep keccak db root n t) :
    Rep keccak db root n' t := by
  induction cleared generalizing root t with
  | nil => exact rep
  | value v => exact rep
  | keep h => exact rep
  | load gen loads _ ih =>
    obtain ⟨n,is,loaded,-⟩ := node_rep rep gen
    rw [is] at loads
    cases loads
    exact ih loaded
  | short gen _ ih =>
    cases rep with
    | short below _ => exact .short (ih below) ⟨fun h none => (by cases none),fun clean => (by cases clean)⟩
  | full gen _ ih =>
    cases rep with
    | full below _ => exact .full (fun i => ih i (below i)) ⟨fun h none => (by cases none),fun clean => (by cases clean)⟩
end

/-- Every run ends in a well-shaped trie whose root hash is the one computed
    with all caches cleared. Two runs that end in the same map end in tries of
    the same shape and the same root hash. -/
theorem hash_of_map (keccak : Bytes → Hash) :
    (∀ diskdb ops, NoCollision keccak (occurring keccak (start diskdb) ops) →
      ∃ s answers root T, run (step keccak) (start diskdb) ops = .ok (s,answers) ∧ WellShaped s.trie.db s.trie.root ∧
        s.trie.hash keccak = .ok (root,T) ∧
        ∀ n, Cleared s.trie.db s.trie.root n → ∃ T', { s.trie with root := n }.hash keccak = .ok (root,T')) ∧
    (∀ diskdb diskdb' ops ops', NoCollision keccak (occurring keccak (start diskdb) ops) →
      NoCollision keccak (occurring keccak (start diskdb') ops') →
      (replay Maps.step Maps.start ops).1.current = (replay Maps.step Maps.start ops').1.current →
      ∃ s answers s' answers' root T T', run (step keccak) (start diskdb) ops = .ok (s,answers) ∧
        run (step keccak) (start diskdb') ops' = .ok (s',answers') ∧
        (∃ t, Shows keccak s.trie t ∧ Shows keccak s'.trie t) ∧
        s.trie.hash keccak = .ok (root,T) ∧ s'.trie.hash keccak = .ok (root,T')) := by
  constructor
  · intro diskdb ops safe
    obtain ⟨s,ran,ok,⟨t,shows_,holds⟩,-⟩ := run_refines_maps safe (fun e member => member)
    obtain ⟨T,hashed,-,-⟩ := hash_shows safe.ideal shows_ holds.shaped ok
    refine ⟨s,_,rootHash keccak t,T,ran,wellShaped_rep (.inl holds.shaped) shows_,hashed,fun n cleared => ?_⟩
    have showsN : Shows keccak { s.trie with root := n } t := cleared_rep cleared shows_
    obtain ⟨T',hashedN,-,-⟩ := hash_shows safe.ideal showsN holds.shaped ok
    exact ⟨T',hashedN⟩
  · intro diskdb diskdb' ops ops' safe safe' same
    obtain ⟨s,ran,ok,⟨t,shows_,holds⟩,-⟩ := run_refines_maps safe (fun e member => member)
    obtain ⟨s',ran',ok',⟨t',shows',holds'⟩,-⟩ := run_refines_maps safe' (fun e member => member)
    have trees : t = t' := holds.unique (by rw [same]; exact holds')
    subst trees
    obtain ⟨T,hashed,-,-⟩ := hash_shows safe.ideal shows_ holds.shaped ok
    obtain ⟨T',hashed',-,-⟩ := hash_shows safe'.ideal shows' holds.shaped ok'
    exact ⟨s,_,s',_,rootHash keccak t,T,T',ran,ran',⟨t,shows_,shows'⟩,hashed,hashed'⟩

/-- Another way to the same entries, with an entry added and removed. -/
def sampleDetour : List Op :=
  [.tryUpdate [0x13] [0x01],.tryUpdate [0x14] [0x02],.tryUpdate [0x12] sampleValue,.tryDelete [0x14],.hash]
theorem sampleDetour_noCollision : NoCollision keccak256 (occurring keccak256 (start fun _ => none) sampleDetour) := by
  rw [keccak_packed]
  exact ⟨by decide +kernel,by decide +kernel,by decide +kernel,by decide +kernel⟩
theorem sample_same_map :
    (replay Maps.step Maps.start sampleOps).1.current = (replay Maps.step Maps.start sampleDetour).1.current := by
  funext key
  simp only [sampleOps,sampleDetour,replay,Maps.step,Maps.start,update_apply]
  by_cases a : key = [0x12]
  · subst a; decide
  · by_cases b : key = [0x13]
    · subst b; decide
    · simp [a,b]

theorem hash_of_map_sample : (∃ s answers root T,
    run (step keccak256) (start fun _ => none) sampleOps = .ok (s,answers) ∧ WellShaped s.trie.db s.trie.root ∧
    s.trie.hash keccak256 = .ok (root,T) ∧
    ∀ n, Cleared s.trie.db s.trie.root n → ∃ T', { s.trie with root := n }.hash keccak256 = .ok (root,T')) ∧
    ∃ s answers s' answers' root T T',
    run (step keccak256) (start fun _ => none) sampleOps = .ok (s,answers) ∧
    run (step keccak256) (start fun _ => none) sampleDetour = .ok (s',answers') ∧
    (∃ t, Shows keccak256 s.trie t ∧ Shows keccak256 s'.trie t) ∧
    s.trie.hash keccak256 = .ok (root,T) ∧ s'.trie.hash keccak256 = .ok (root,T') :=
  ⟨(hash_of_map keccak256).1 _ sampleOps sample_noCollision,
    (hash_of_map keccak256).2 _ _ sampleOps sampleDetour sample_noCollision sampleDetour_noCollision sample_same_map⟩

end Canchain.TrieRuns
