import Canchain.TrieRuns

/-!
Tries whose keys are hashed first, after `lib/trie/secure_trie.go`. Above the trie library a
trie is known by its entries; the live trie below follows each operation (`tryGet_live` and the
lemmas beside it).
-/
namespace Canchain.Secure
open Rlp Common HexKeys TrieOps TrieCollapse
open Patricia.Tree (Canonical Shaped)

/-- The entries of a trie, shaped as the trie is. -/
abbrev SecureTrie := {t : Entries // Shaped t}

def empty : SecureTrie := ⟨.nil,.inl rfl⟩

section
variable (keccak : Bytes → Hash)

/-- The path of a key: its hash, in nibbles. -/
def path (key : Bytes) : Hex := keybytesToHex (keccak key).bytes
theorem terminated_path (key : Bytes) : Patricia.Terminated (b := 16) (path keccak key) := terminated_keybytesToHex _

def tryGet (t : SecureTrie) (key : Bytes) : Option Bytes := (t.val.get (path keccak key)).map Subtype.val
def tryDelete (t : SecureTrie) (key : Bytes) : SecureTrie :=
  ⟨t.val.delete (path keccak key),Patricia.Tree.shaped_delete t.property (terminated_path keccak key)⟩
/-- `TryUpdate`: an empty value deletes the key. -/
def tryUpdate (t : SecureTrie) (key value : Bytes) : SecureTrie :=
  if some : value ≠ [] then ⟨t.val.insert (path keccak key) ⟨value,some⟩,
    (Patricia.Tree.canonical_insert t.property (terminated_path keccak key) _).shaped⟩
  else tryDelete keccak t key
def hash (t : SecureTrie) : Hash := rootHash keccak t.val

variable {keccak} {t : SecureTrie}

theorem path_injective {a b : Bytes} (same : path keccak a = path keccak b) : keccak a = keccak b :=
  Hash.ext (keybytesToHex_injective same)
@[simp] theorem tryGet_empty (key : Bytes) : tryGet keccak empty key = none := by simp [tryGet,empty]
theorem tryGet_tryUpdate (t : SecureTrie) (key key' : Bytes) {value : Bytes} (some_ : value ≠ []) :
    tryGet keccak (tryUpdate keccak t key value) key' =
      if keccak key' = keccak key then some value else tryGet keccak t key' := by
  rw [tryGet,tryUpdate,dif_pos some_]
  show (Patricia.Tree.get (t.val.insert _ _) _).map _ = _
  rw [Patricia.Tree.get_insert t.property (terminated_path keccak key) _ (terminated_path keccak key')]
  by_cases same : keccak key' = keccak key
  · simp [path,same]
  · rw [if_neg same,if_neg (fun paths => same (path_injective paths))]
    rfl
theorem tryGet_tryDelete (t : SecureTrie) (key key' : Bytes) : tryGet keccak (tryDelete keccak t key) key' =
    if keccak key' = keccak key then none else tryGet keccak t key' := by
  rw [tryGet,tryDelete,Patricia.Tree.get_delete t.property (terminated_path keccak key) (terminated_path keccak key')]
  by_cases same : keccak key' = keccak key
  · simp [path,same]
  · rw [if_neg same,if_neg (fun paths => same (path_injective paths))]
    rfl

theorem tryUpdate_nil (t : SecureTrie) (key : Bytes) : tryUpdate keccak t key [] = tryDelete keccak t key := dif_neg (by simp)
theorem get_tryUpdate (t : SecureTrie) (key value : Bytes) {k : Hex} (term : Patricia.Terminated (b := 16) k) :
    ((tryUpdate keccak t key value).val.get k).map Subtype.val =
      if k = path keccak key then (if value = [] then none else some value) else (t.val.get k).map Subtype.val := by
  by_cases empty : value = []
  · rw [empty,tryUpdate_nil,tryDelete,Patricia.Tree.get_delete t.property (terminated_path keccak key) term]
    by_cases here : k = path keccak key <;> simp [here]
  · rw [tryUpdate,dif_pos empty,Patricia.Tree.get_insert t.property (terminated_path keccak key) _ term]
    by_cases here : k = path keccak key <;> simp [here,empty]
theorem ext_get {u : SecureTrie} (same : ∀ k, Patricia.Terminated (b := 16) k →
    (t.val.get k).map Subtype.val = (u.val.get k).map Subtype.val) : t = u :=
  Subtype.ext (Patricia.Tree.shaped_unique t.property u.property fun k term =>
    Option.map_injective Subtype.val_injective (same k term))
theorem tryUpdate_comm (t : SecureTrie) {a b : Bytes} (apart : keccak a ≠ keccak b) (v w : Bytes) :
    tryUpdate keccak (tryUpdate keccak t a v) b w = tryUpdate keccak (tryUpdate keccak t b w) a v := by
  refine ext_get fun k term => ?_
  simp only [get_tryUpdate _ _ _ term]
  by_cases atA : k = path keccak a
  · have atB : k ≠ path keccak b := fun same => apart (path_injective (atA.symm.trans same))
    rw [if_neg atB,if_pos atA,if_pos atA]
  · rw [if_neg atA,if_neg atA]

variable {T : Trie} (shows_ : TrieRuns.Shows keccak T t.val)
include shows_

theorem tryGet_live (key : Bytes) : ∃ T', T.tryGet (keccak key).bytes = .ok (tryGet keccak t key,T') ∧ T'.db = T.db ∧
    TrieRuns.Shows keccak T' t.val := TrieRuns.tryGet_shows shows_ t.property (keccak key).bytes
theorem tryDelete_live (key : Bytes) : ∃ T', T.tryDelete (keccak key).bytes = .ok T' ∧ T'.db = T.db ∧
    TrieRuns.Shows keccak T' (tryDelete keccak t key).val := TrieRuns.tryDelete_shows shows_ t.property (keccak key).bytes
theorem tryUpdate_live (key value : Bytes) : ∃ T', T.tryUpdate (keccak key).bytes value = .ok T' ∧ T'.db = T.db ∧
    TrieRuns.Shows keccak T' (tryUpdate keccak t key value).val := by
  by_cases empty : value = []
  · rw [empty,tryUpdate_nil]
    exact tryDelete_live shows_ key
  · rw [tryUpdate,dif_pos empty]
    exact TrieRuns.tryUpdate_shows shows_ t.property (keccak key).bytes ⟨value,empty⟩
theorem hash_live {S : Set Bytes} (ideal : TrieHash.Ideal keccak S) (ok : TrieHash.DbOk keccak S T.db) :
    ∃ T', T.hash keccak = .ok (hash keccak t,T') ∧ T'.db = T.db ∧ TrieRuns.Shows keccak T' t.val :=
  TrieRuns.hash_shows ideal shows_ t.property ok

end
end Canchain.Secure
