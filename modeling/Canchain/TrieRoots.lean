import Canchain.SecureTrie

/-!
A root stands for one trie. Where Keccak keeps the encodings of the nodes apart,
tries with the same root are equal, and a trie is found again under its root.
-/
namespace Canchain.TrieRoots
open Rlp Common HexKeys TrieNode TrieCollapse TrieHash List
open Secure
open Patricia.Tree (Canonical Shaped)

section
variable (keccak : Bytes → Hash)

/-- The encodings of the nodes at and below the top of a tree. -/
def nodes : Entries → List Bytes
  | .short k t => (collapse keccak (.short k t)).encode :: nodes t
  | .full cs => (collapse keccak (.full cs)).encode :: (List.finRange 17).flatMap fun i => nodes (cs i)
  | _ => []

variable {keccak} {S : Set Bytes} {t u : Entries}

theorem top_mem (c : Canonical t) : (collapse keccak t).encode ∈ nodes keccak t := by
  cases c <;> simp [nodes]
/-- A reference to a node is neither empty nor a value. -/
theorem refTo_other (ct : Canonical t) (cu : u = .nil ∨ ∃ v, u = .value v) :
    refTo keccak (collapse keccak t) ≠ refTo keccak (collapse keccak u) := by
  intro same
  by_cases small : Embedded keccak t
  · have node : isNode (collapse keccak t) = true := isNode_collapse ct
    rw [← refTo_small small,same] at node
    rcases cu with rfl | ⟨v,rfl⟩ <;> cases node
  · rw [refTo_large ct small] at same
    rcases cu with rfl | ⟨v,rfl⟩ <;> cases same
theorem refTo_injective (ideal : Ideal keccak S) (ct : Canonical t) (cu : Canonical u) (inT : ∀ e ∈ nodes keccak t, e ∈ S)
    (inU : ∀ e ∈ nodes keccak u, e ∈ S) (known : collapse keccak t = collapse keccak u → t = u)
    (same : refTo keccak (collapse keccak t) = refTo keccak (collapse keccak u)) : t = u := by
  have topT := inT _ (top_mem ct)
  have topU := inU _ (top_mem cu)
  by_cases smallT : Embedded keccak t
  · by_cases smallU : Embedded keccak u
    · rw [refTo_small smallT,refTo_small smallU] at same
      exact known same
    · rw [refTo_small smallT,refTo_large cu smallU] at same
      have node : isNode (collapse keccak t) = true := isNode_collapse ct
      rw [same] at node
      cases node
  · by_cases smallU : Embedded keccak u
    · rw [refTo_large ct smallT,refTo_small smallU] at same
      have node : isNode (collapse keccak u) = true := isNode_collapse cu
      rw [← same] at node
      cases node
    · rw [refTo_large ct smallT,refTo_large cu smallU,Raw.hash.injEq] at same
      exact known (encode_injective (collapse_formed ct) (collapse_formed cu) (ideal.fits _ topT) (ideal.fits _ topU)
        (ideal.injective topT topU same))
/-- What a branch has below it. -/
def Child (t : Entries) : Prop := t = .nil ∨ (∃ v, t = .value v) ∨ Canonical t

theorem child_of_branch {cs : Nibble → Entries} (inner : ∀ i, i ≠ Fin.last 16 → cs i ≠ .nil → Canonical (cs i))
    (last : cs (Fin.last 16) = .nil ∨ ∃ v, cs (Fin.last 16) = .value v) (i : Nibble) : Child (cs i) := by
  by_cases empty : cs i = .nil
  · exact .inl empty
  · by_cases final : i = Fin.last 16
    · subst final
      exact .inr (.inl (last.resolve_left empty))
    · exact .inr (.inr (inner i final empty))
theorem child_injective (ideal : Ideal keccak S) (ct : Child t) (cu : Child u) (inT : ∀ e ∈ nodes keccak t, e ∈ S)
    (inU : ∀ e ∈ nodes keccak u, e ∈ S)
    (known : Canonical t → Canonical u → collapse keccak t = collapse keccak u → t = u)
    (same : refTo keccak (collapse keccak t) = refTo keccak (collapse keccak u)) : t = u := by
  rcases ct with rfl | ⟨v,rfl⟩ | ct
  · rcases cu with rfl | ⟨v',rfl⟩ | cu
    · rfl
    · cases same
    · exact absurd same.symm (refTo_other cu (.inl rfl))
  · rcases cu with rfl | ⟨v',rfl⟩ | cu
    · cases same
    · rw [refTo_value,refTo_value,Raw.value.injEq] at same
      rw [Subtype.ext same]
    · exact absurd same.symm (refTo_other cu (.inr ⟨v,rfl⟩))
  · rcases cu with rfl | ⟨v',rfl⟩ | cu
    · exact absurd same (refTo_other ct (.inl rfl))
    · exact absurd same (refTo_other ct (.inr ⟨v',rfl⟩))
    · exact refTo_injective ideal ct cu inT inU (known ct cu) same
theorem nodes_child {cs : Nibble → Entries} {i : Nibble} {e : Bytes} (member : e ∈ nodes keccak (cs i)) :
    e ∈ nodes keccak (.full cs) :=
  mem_cons_of_mem _ (mem_flatMap.mpr ⟨i,mem_finRange i,member⟩)
theorem collapse_injective (ideal : Ideal keccak S) (ct : Canonical t) (cu : Canonical u) (inT : ∀ e ∈ nodes keccak t, e ∈ S)
    (inU : ∀ e ∈ nodes keccak u, e ∈ S) (same : collapse keccak t = collapse keccak u) : t = u := by
  induction ct generalizing u with
  | @leaf k v term =>
    cases cu with
    | @leaf k' v' term' =>
      rw [collapse,collapse,Raw.short.injEq,refTo_value,refTo_value,Raw.value.injEq] at same
      have value : v = v' := Subtype.ext same.2
      rw [hexToCompact_injective (wellFormed_of_terminated term) (wellFormed_of_terminated term') same.1,value]
    | @ext k' cs' some' plain' below' =>
      rw [collapse,collapse,Raw.short.injEq] at same
      exact absurd same.2.symm (refTo_other below' (.inr ⟨v,rfl⟩))
    | branch => cases same
  | @ext k cs some plain below ih =>
    cases cu with
    | @leaf k' v' term' =>
      rw [collapse,collapse,Raw.short.injEq] at same
      exact absurd same.2 (refTo_other below (.inr ⟨v',rfl⟩))
    | @ext k' cs' some' plain' below' =>
      rw [collapse,collapse,Raw.short.injEq] at same
      have inT' := fun e member => inT e (mem_cons_of_mem _ member)
      have inU' := fun e member => inU e (mem_cons_of_mem _ member)
      rw [hexToCompact_injective (wellFormed_of_plain plain) (wellFormed_of_plain plain') same.1,
        refTo_injective ideal below below' inT' inU' (ih below' inT' inU') same.2]
    | branch => cases same
  | @branch cs inner last two ih =>
    cases cu with
    | leaf => cases same
    | ext => cases same
    | @branch cs' inner' last' two' =>
      simp only [collapse,Raw.full.injEq] at same
      refine congrArg _ (funext fun i => ?_)
      have inT' := fun e member => inT e (nodes_child (i := i) member)
      have inU' := fun e member => inU e (nodes_child (i := i) member)
      refine child_injective ideal (child_of_branch inner last i) (child_of_branch inner' last' i) inT' inU' ?_
        (congrFun same i)
      intro ct cu collapsed
      by_cases final : i = Fin.last 16
      · subst final
        rcases last with empty | ⟨v,is⟩
        · rw [empty] at ct
          cases ct
        · rw [is] at ct
          cases ct
      · exact ih i final ct.ne_nil cu inT' inU' collapsed

/-- Where no node has the hash of the empty trie, the root determines the tree. -/
theorem rootHash_injective (ideal : Ideal keccak S) (notEmpty : ∀ r, Formed r → r.encode ∈ S → keccak r.encode ≠ emptyRoot)
    (st : Shaped t) (su : Shaped u) (inT : ∀ e ∈ nodes keccak t, e ∈ S) (inU : ∀ e ∈ nodes keccak u, e ∈ S)
    (same : rootHash keccak t = rootHash keccak u) : t = u := by
  rcases st with rfl | ct
  · rcases su with rfl | cu
    · rfl
    · rw [rootHash_canonical cu] at same
      exact absurd same.symm (notEmpty _ (collapse_formed cu) (inU _ (top_mem cu)))
  · have topT := inT _ (top_mem ct)
    rw [rootHash_canonical ct] at same
    rcases su with rfl | cu
    · exact absurd same (notEmpty _ (collapse_formed ct) topT)
    · have topU := inU _ (top_mem cu)
      rw [rootHash_canonical cu] at same
      exact collapse_injective ideal ct cu inT inU (encode_injective (collapse_formed ct) (collapse_formed cu)
        (ideal.fits _ topT) (ideal.fits _ topU) (ideal.injective topT topU same))

variable (keccak) in
/-- What is assumed of Keccak on the tries: it tells the encodings of their nodes
    and the empty string apart, gives the empty string the hash `emptyRoot` and no
    node the zero hash. -/
structure Roots (tries : Set SecureTrie) : Prop where
  ideal : Ideal keccak ({[0x80]} ∪ {e | ∃ t ∈ tries, e ∈ nodes keccak t.val})
  empty : keccak [0x80] = emptyRoot

variable {tries : Set SecureTrie} {x y : SecureTrie}

theorem Roots.mem (_ : Roots keccak tries) (inside : x ∈ tries) : ∀ e ∈ nodes keccak x.val,
    e ∈ ({[0x80]} ∪ {e | ∃ t ∈ tries, e ∈ nodes keccak t.val} : Set Bytes) := fun _ member => .inr ⟨x,inside,member⟩
theorem Roots.notEmpty (roots : Roots keccak tries) (r : Raw) (formed : Formed r)
    (occurs : r.encode ∈ ({[0x80]} ∪ {e | ∃ t ∈ tries, e ∈ nodes keccak t.val} : Set Bytes)) :
    keccak r.encode ≠ emptyRoot := by
  intro same
  rw [← roots.empty] at same
  exact encode_ne_empty (roots.ideal.fits _ occurs) (.inl formed) (roots.ideal.injective occurs (.inl rfl) same)
/-- The root of a trie that is not empty is neither the zero hash nor `emptyRoot`. -/
theorem Roots.proper (roots : Roots keccak tries) (inside : x ∈ tries) (c : Canonical x.val) :
    hash keccak x ≠ Hash.zero ∧ hash keccak x ≠ emptyRoot := by
  have top := roots.mem inside _ (top_mem c)
  rw [Secure.hash,rootHash_canonical c]
  exact ⟨roots.ideal.nonzero _ top,roots.notEmpty _ (collapse_formed c) top⟩
theorem Roots.injective (roots : Roots keccak tries) (inX : x ∈ tries) (inY : y ∈ tries)
    (same : hash keccak x = hash keccak y) : x = y :=
  Subtype.ext (rootHash_injective roots.ideal roots.notEmpty x.property y.property (roots.mem inX) (roots.mem inY) same)

/-- The values of a trie are parts of its nodes. -/
theorem get_fits (c : Canonical t) (fits : ∀ e ∈ nodes keccak t, Fits e) {k : Hex} {v : Value} (found : t.get k = some v) :
    Fits v.val := by
  have value {v' : Value} {k : Hex} (found : Patricia.Tree.get (.value v' : Entries) k = some v) : v = v' := by
    cases k with
    | nil => simpa using found.symm
    | cons x k => simp at found
  induction c generalizing k with
  | @leaf key v' term =>
    obtain ⟨rest,rfl,-⟩ := Patricia.Tree.prefix_of_get (p := key) (t := .value v') (k := k) (by simp [found])
    rw [Patricia.Tree.get_short_append] at found
    have top := fits _ (top_mem (.leaf term))
    rw [collapse,refTo_value,encode_short] at top
    rw [value found]
    exact fits_string (fits_item top (mem_cons_of_mem _ mem_cons_self))
  | @ext key cs some plain below ih =>
    obtain ⟨rest,rfl,-⟩ := Patricia.Tree.prefix_of_get (p := key) (t := .full cs) (k := k) (by simp [found])
    rw [Patricia.Tree.get_short_append] at found
    exact ih (fun e member => fits e (mem_cons_of_mem _ member)) found
  | @branch cs inner last two ih =>
    cases k with
    | nil => simp [Patricia.Tree.get] at found
    | cons x k =>
      rw [Patricia.Tree.get_full] at found
      by_cases final : x = Fin.last 16
      · subst final
        rcases last with empty | ⟨v',is⟩
        · rw [empty,Patricia.Tree.get_nil] at found
          cases found
        · rw [is] at found
          have item := fits_child (fits _ (top_mem (.branch inner (.inr ⟨v',is⟩) two))) (Fin.last 16)
          rw [is,refTo_value,childItem_some (by simp)] at item
          rw [value found]
          exact fits_string item
      · by_cases empty : cs x = .nil
        · simp [empty] at found
        · exact ih x final empty (fun e member => fits e (nodes_child member)) found
theorem Roots.get_fits (roots : Roots keccak tries) (inside : x ∈ tries) {key value : Bytes}
    (found : tryGet keccak x key = some value) : Fits value := by
  obtain ⟨v,got,rfl⟩ := Option.map_eq_some_iff.mp found
  rcases x.property with empty | c
  · rw [empty] at got
    simp at got
  · exact TrieRoots.get_fits c (fun e member => roots.ideal.fits e (roots.mem inside e member)) got

end
end Canchain.TrieRoots
