import Canchain.TrieRoots
import Canchain.RlpValues
import Canchain.Keccak

/-!
The root hash of a list, after `kernel/types/derive_sha.go`: a fresh trie takes the
items one by one under their RLP-encoded places. The root commits to the list in its
length, order and content.
-/
namespace Canchain.DeriveSha
open Rlp Common TrieNode TrieOps TrieCollapse TrieRep List
open TrieHash TrieRoots TrieRuns
open Patricia.Tree (Canonical)

/-- `DerivableList`, with its length as an `int`. -/
structure DerivableList where
  items : List Bytes
  len : items.length < 2^63

/-- The key of a place: `rlp.Encode` of it. -/
def keyOf (i : Nat) : Bytes := (writeUint i .empty).toBytes
/-- `Update`, which only logs an error. -/
def update (T : Trie) (key value : Bytes) : Trie := (T.tryUpdate key value).toOption.getD T
/-- The loop of `DeriveSha`, from place `i` on. -/
def insertFrom : Nat → List Bytes → Trie → Trie
  | _, [], T => T
  | i, x :: xs, T => insertFrom (i + 1) xs (update T (keyOf i) x)
/-- The trie that `DeriveSha` fills. It has no database, and none is read. -/
def trieOf (list : DerivableList) : Trie := insertFrom 0 list.items ⟨newDatabase fun _ => none,.nil,0,0⟩
def deriveSha (keccak : Bytes → Hash) (list : DerivableList) : Except Failure Hash :=
  ((trieOf list).hash keccak).map Prod.fst
variable {i j : Nat}

theorem keyOf_injective (small : i < 2^64) (small' : j < 2^64) (same : keyOf i = keyOf j) : i = j := by
  have bytes : ∀ {n}, n < 2^64 → keyOf n = encodeString (putint n) ∧ Fits (putint n) := by
    intro n small
    have short := putint_length n 8 (by omega)
    exact ⟨by rw [keyOf,writeUint_eq n _ small]; rfl,by unfold Fits; omega⟩
  rw [(bytes small).1,(bytes small').1] at same
  rw [← getint_putint i,encodeString_injective (bytes small).2 (bytes small').2 same,getint_putint]

/-- The entries of a trie after the loop. -/
def mapFrom : Nat → List Bytes → Map → Map
  | _, [], m => m
  | i, x :: xs, m => mapFrom (i + 1) xs (Function.update m (keyOf i) (some x))
variable {xs : List Bytes}

theorem mapFrom_keyOf (m : Map) (small : i + xs.length < 2^64) (inside : j < 2^64) :
    mapFrom i xs m (keyOf j) = if j < i then m (keyOf j) else xs[j - i]?.or (m (keyOf j)) := by
  induction xs generalizing i m with
  | nil => simp [mapFrom]
  | cons x xs ih =>
    rw [length_cons] at small
    rw [mapFrom,ih _ (by omega)]
    by_cases here : j = i
    · subst here
      simp
    · rw [Function.update_of_ne fun same => here (keyOf_injective inside (by omega) same)]
      by_cases before : j < i
      · rw [if_pos before,if_pos (by omega)]
      · rw [if_neg before,if_neg (by omega),show j - i = (j - (i + 1)) + 1 by omega,getElem?_cons_succ]

section
variable {keccak : Bytes → Hash}

theorem insertFrom_shows {T : Trie} {t : Entries} {m : Map} (some : ∀ x ∈ xs, x ≠ [])
    (shows_ : Shows keccak T t) (holds : Holds t m) :
    ∃ u, Shows keccak (insertFrom i xs T) u ∧ (insertFrom i xs T).db = T.db ∧ Holds u (mapFrom i xs m) := by
  induction xs generalizing i T t m with
  | nil => exact ⟨t,shows_,rfl,holds⟩
  | cons x xs ih =>
    have full := some x mem_cons_self
    obtain ⟨T',done,same,shows'⟩ := tryUpdate_shows shows_ holds.shaped (keyOf i) ⟨x,full⟩
    obtain ⟨u,shown,kept,holds'⟩ := ih (i := i + 1) (fun y later => some y (mem_cons_of_mem _ later)) shows'
      (holds.insert (keyOf i) ⟨x,full⟩)
    have step : insertFrom i (x :: xs) T = insertFrom (i + 1) xs T' := by rw [insertFrom,update,done]; rfl
    exact ⟨u,by rw [step]; exact shown,by rw [step,kept,same],holds'⟩

/-- Without a database every node is in memory. -/
theorem nodes_encodings {root : Bool} {n : Node} {t : Entries}
    (rep : Rep keccak (newDatabase fun _ => none) root n t) : nodes keccak t = encodings keccak n := by
  induction rep with
  | nil => rfl
  | value v => rfl
  | hash c stored =>
    rcases @dbOk_newDatabase keccak ∅ _ _ _ stored with ⟨-,none⟩ | ⟨-,never,-⟩
    · exact absurd none (collapse_formed c).ne_nil
    · exact never.elim
  | short below flags ih => rw [nodes,encodings,ih,collapsed_rep (.short below flags) rfl]
  | full below flags ih => simp [nodes,encodings,ih,collapsed_rep (.full below flags) rfl]

theorem deriveSha_spec {list : DerivableList} {es : List Bytes} (safe : NoCollision keccak es)
    (some : ∀ x ∈ list.items, x ≠ []) : ∃ t, deriveSha keccak list = .ok (rootHash keccak t) ∧
      Holds t (mapFrom 0 list.items fun _ => none) ∧ nodes keccak t = encodings keccak (trieOf list).root := by
  obtain ⟨t,shown,fresh,holds⟩ := insertFrom_shows (i := 0) some
    (show Shows keccak ⟨newDatabase fun _ => none,.nil,0,0⟩ .nil from .nil) holds_empty
  obtain ⟨T,hashed,-,-⟩ := hash_shows (T := trieOf list) safe.ideal shown holds.shaped
    (by rw [trieOf,fresh]; exact dbOk_newDatabase _ _)
  refine ⟨t,by rw [deriveSha,hashed]; rfl,holds,@nodes_encodings _ true _ _ ?_⟩
  have rep : Rep keccak (trieOf list).db true (trieOf list).root t := shown
  rwa [trieOf,fresh] at rep

end

/-- Lists of non-empty items with the same root hash are equal. -/
theorem deriveSha_commits (keccak : Bytes → Hash) (xs ys : DerivableList) (someX : ∀ x ∈ xs.items, x ≠ [])
    (someY : ∀ y ∈ ys.items, y ≠ [])
    (safe : NoCollision keccak (encodings keccak (trieOf xs).root ++ encodings keccak (trieOf ys).root)) :
    (∃ root, deriveSha keccak xs = .ok root) ∧
      (deriveSha keccak xs = deriveSha keccak ys → xs.items = ys.items) := by
  obtain ⟨t,derivedX,holdsX,nodesX⟩ := deriveSha_spec safe someX
  obtain ⟨u,derivedY,holdsY,nodesY⟩ := deriveSha_spec safe someY
  refine ⟨⟨_,derivedX⟩,fun same => ?_⟩
  rw [derivedX,derivedY] at same
  have trees : t = u := by
    refine rootHash_injective safe.ideal safe.notEmpty holdsX.shaped holdsY.shaped ?_ ?_ (Except.ok.inj same)
    · rw [nodesX]
      exact fun e member => mem_append_left _ member
    · rw [nodesY]
      exact fun e member => mem_append_right _ member
  subst trees
  refine ext_getElem? fun j => ?_
  have lenX := xs.len
  have lenY := ys.len
  by_cases inside : j < 2^63
  · have entry := (holdsX.entry (keyOf j)).symm.trans (holdsY.entry (keyOf j))
    rw [mapFrom_keyOf _ (by omega) (by omega),mapFrom_keyOf _ (by omega) (by omega)] at entry
    simpa using entry
  · rw [getElem?_eq_none (by omega),getElem?_eq_none (by omega)]

theorem deriveSha_commits_single : deriveSha Keccak.keccak256 ⟨[[0x01]],by decide⟩ ≠
    deriveSha Keccak.keccak256 ⟨[[0x02],[0x01]],by decide⟩ := by
  intro same
  refine absurd ((deriveSha_commits Keccak.keccak256 _ _ (by decide) (by decide) ?_).2 same) (by decide)
  rw [Keccak.keccak_packed]
  exact ⟨by decide +kernel,by decide +kernel,by decide +kernel,by decide +kernel⟩

end Canchain.DeriveSha
