import Canchain.ChainRuns

/-!
`GetAncestor` of `kernel/headerchain.go` follows parents as long as they are not canonical,
each for one of a budget, and then takes the index of the canonical chain. With a correct index
that is the way along the parents: what is not canonical stands in front.
-/
namespace Canchain.HeaderChain
open Rlp Common Types Branches Keccak
open Chain hiding links

/-- `n - m` of `uint64`. -/
def sub64 (n m : Nat) : Nat := (n + 2^64 - m) % 2^64

/-- The loop of `GetAncestor`, with what it leaves of the budget. -/
def climb (db : Db) : Nat → Hash → Nat → Nat → (Hash × Nat) × Nat
  | 0, hash, number, maxNonCanonical => ((hash,number),maxNonCanonical)
  | ancestor + 1, hash, number, maxNonCanonical =>
    if db.readCanonicalHash number = hash then
      let number := sub64 number (ancestor + 1)
      ((db.readCanonicalHash number,number),maxNonCanonical)
    else if maxNonCanonical = 0 then ((Hash.zero,0),maxNonCanonical)
    else
      match db.headers number hash with
      | none => ((Hash.zero,0),sub64 maxNonCanonical 1)
      | some header => climb db ancestor header.parentHash (sub64 number 1) (sub64 maxNonCanonical 1)
def getAncestor (db : Db) (hash : Hash) (number ancestor maxNonCanonical : Nat) : (Hash × Nat) × Nat :=
  if ancestor > number then ((Hash.zero,0),maxNonCanonical)
  else if ancestor = 1 then
    match db.headers number hash with
    | some header => ((header.parentHash,sub64 number 1),maxNonCanonical)
    | none => ((Hash.zero,0),maxNonCanonical)
  else climb db ancestor hash number maxNonCanonical

section
variable (keccak : Bytes → Hash)

def links : Links Header Hash := ⟨Header.hash keccak,Header.parentHash,Header.numberU64⟩
/-- Headers name their parents down to genesis, and the canonical hash of a number is that of the header of this number
    on the branch of the current header. -/
structure Indexed (genesis current : Header) (stored : Set Header) (chain : List Header) (db : Db) : Prop where
  root : genesis ∈ stored
  zero : genesis.numberU64 = 0
  apart : Apart (links keccak) stored
  proper : ∀ h ∈ stored, h.hash keccak ≠ Hash.zero
  headers : ∀ h ∈ stored, db.headers h.numberU64 (h.hash keccak) = some h
  current : Branch (links keccak) genesis stored current chain
  canonical : ∀ number, db.canonical number = chain.reverse[number]?.map (Header.hash keccak)
/-- The header is not on the canonical chain. -/
def Stray (db : Db) (h : Header) : Prop := db.readCanonicalHash h.numberU64 ≠ h.hash keccak
instance stray_decidable (db : Db) (h : Header) : Decidable (Stray keccak db h) := instDecidableNot

end

section
variable {keccak : Bytes → Hash} {genesis current h : Header} {stored : Set Header} {chain branch : List Header} {db : Db}

theorem sub64_of_le {n m : Nat} (small : n < 2^64) (le : m ≤ n) : sub64 n m = n - m := by
  unfold sub64
  omega
variable (indexed : Indexed keccak genesis current stored chain db)
include indexed
/-- The header of a branch that is so many links away from its first one. -/
theorem branch_number (rooted : Branch (links keccak) genesis stored h branch) {d : Nat} (inside : d ≤ h.numberU64) :
    ∃ a, branch[d]? = some a ∧ branch.reverse[h.numberU64 - d]? = some a := by
  have length : branch.length = h.numberU64 + 1 := rooted.length indexed.zero
  refine ⟨branch[d],List.getElem?_eq_getElem (by omega),?_⟩
  rw [List.getElem?_reverse (by omega),show branch.length - 1 - (h.numberU64 - d) = d by omega]
  exact List.getElem?_eq_getElem _
/-- A canonical header has its whole branch in common with the current one. -/
theorem canonical_branch
    (rooted : Branch (links keccak) genesis stored h branch) (canonical : ¬ Stray keccak db h) : branch <:+ chain := by
  obtain ⟨rest,first⟩ := rooted.head
  have member : h ∈ stored := rooted.mem_nodes indexed.root h (by simp [first])
  rw [Stray,not_not,Db.readCanonicalHash,indexed.canonical] at canonical
  cases found : chain.reverse[h.numberU64]? with
  | none =>
    rw [found] at canonical
    exact absurd canonical.symm (indexed.proper h member)
  | some a =>
    rw [found] at canonical
    have among : a ∈ chain := List.mem_reverse.mp (List.mem_of_getElem? found)
    obtain rfl := indexed.apart a (indexed.current.mem_nodes indexed.root a among) h member canonical
    obtain ⟨above,below,split⟩ := List.append_of_mem among
    rw [rooted.unique indexed.apart indexed.root indexed.zero (indexed.current.suffix split),split]
    exact List.suffix_append _ _
theorem chain_canonical (member : h ∈ chain) : ¬ Stray keccak db h := by
  obtain ⟨above,below,split⟩ := List.append_of_mem member
  have length : (h :: below).length = h.numberU64 + 1 := (indexed.current.suffix split).length indexed.zero
  have found : chain.reverse[h.numberU64]? = some h := by
    rw [split,List.reverse_append,List.reverse_cons,List.append_assoc,← Nat.succ_injective length,← List.length_reverse]
    simp
  rw [Stray,not_not,Db.readCanonicalHash,indexed.canonical,found]
  rfl

theorem climb_spec
    (rooted : Branch (links keccak) genesis stored h branch) {d : Nat} (inside : d ≤ h.numberU64) {budget : Nat}
    (fits : budget < 2^64) : ∃ a, branch[d]? = some a ∧ climb db d (h.hash keccak) h.numberU64 budget =
      if min d (branch.countP (Stray keccak db ·)) ≤ budget then
        ((a.hash keccak,h.numberU64 - d),budget - min d (branch.countP (Stray keccak db ·)))
      else ((Hash.zero,0),0) := by
  induction d generalizing h branch budget with
  | zero =>
    obtain ⟨rest,rfl⟩ := rooted.head
    exact ⟨h,rfl,by simp [climb]⟩
  | succ d ih =>
    by_cases stray : Stray keccak db h
    · have small := h.numberU64_lt
      cases rooted with
      | root => exact absurd indexed.zero (by omega)
      | @child _ p rest member named higher below =>
        have above : h.numberU64 = p.numberU64 + 1 := higher
        have parent : p.hash keccak = h.parentHash := named
        obtain ⟨a,found,climbed⟩ := ih below (by omega) (show budget - 1 < 2^64 by omega)
        refine ⟨a,found,?_⟩
        rw [climb,if_neg stray,indexed.headers h member,List.countP_cons_of_pos (by simpa using stray),Nat.add_min_add_right]
        by_cases spent : budget = 0
        · rw [if_pos spent,if_neg (by omega),spent]
        · rw [if_neg spent,sub64_of_le (by omega) (by omega),sub64_of_le (by omega) (by omega),
            show h.numberU64 - 1 = p.numberU64 by omega]
          simp only [← parent,climbed]
          by_cases enough : min d (rest.countP (Stray keccak db ·)) ≤ budget - 1
          · rw [if_pos enough,if_pos (by omega),show p.numberU64 - d = h.numberU64 - (d + 1) by omega,Nat.sub_sub,
              Nat.add_comm 1]
          · rw [if_neg enough,if_neg (by omega)]
    · obtain ⟨a,found,here⟩ := branch_number indexed rooted inside
      obtain ⟨above,rfl⟩ := canonical_branch indexed rooted stray
      have none : branch.countP (Stray keccak db ·) = 0 := by
        refine List.countP_eq_zero.mpr fun b member => ?_
        simpa using chain_canonical indexed (List.mem_append_right above member)
      have reached : db.readCanonicalHash (h.numberU64 - (d + 1)) = a.hash keccak := by
        rw [Db.readCanonicalHash,indexed.canonical,List.reverse_append,
          List.getElem?_append_left (List.getElem?_eq_some_iff.mp here).1,here]
        rfl
      refine ⟨a,found,?_⟩
      rw [climb,if_pos (not_not.mp stray),none,Nat.min_zero,if_pos (Nat.zero_le _),sub64_of_le h.numberU64_lt inside]
      simp [reached]

end

/-- `GetAncestor` is the way along the parents: `branch` are the header and its ancestors. -/
theorem getAncestor_exact (keccak : Bytes → Hash) (genesis current : Header) (stored : Set Header) (chain : List Header) (db : Db)
    (indexed : Indexed keccak genesis current stored chain db) (h : Header) (branch : List Header)
    (rooted : Branch (links keccak) genesis stored h branch) (d budget : Nat) (fits : budget < 2^64) :
    (h.numberU64 < d → getAncestor db (h.hash keccak) h.numberU64 d budget = ((Hash.zero,0),budget)) ∧
    (d ≤ h.numberU64 → ∃ a, branch[d]? = some a ∧ getAncestor db (h.hash keccak) h.numberU64 d budget =
      if d ≤ 1 then ((a.hash keccak,h.numberU64 - d),budget)
      else if min d (branch.countP (Stray keccak db ·)) ≤ budget then
        ((a.hash keccak,h.numberU64 - d),budget - min d (branch.countP (Stray keccak db ·)))
      else ((Hash.zero,0),0)) := by
  refine ⟨fun far => if_pos far,fun inside => ?_⟩
  obtain ⟨a,found,climbed⟩ := climb_spec indexed rooted inside fits
  refine ⟨a,found,?_⟩
  rw [getAncestor,if_neg (by omega)]
  by_cases one : d = 1
  · subst one
    cases rooted with
    | root => exact absurd indexed.zero (by omega)
    | @child _ p rest member named higher below =>
      obtain ⟨more,rfl⟩ := below.head
      obtain rfl : p = a := Option.some.inj found
      rw [if_pos rfl,indexed.headers h member,if_pos le_rfl,sub64_of_le h.numberU64_lt inside]
      exact congrArg (fun hash => ((hash,h.numberU64 - 1),budget)) named.symm
  · rw [if_neg one,climbed]
    by_cases none : d = 0
    · simp [none]
    · rw [if_neg (show ¬ d ≤ 1 by omega)]

/-- Two headers on a current one. -/
def sideBranch : Db :=
  { Db.empty with
    headers := fun number _ => [origin.header,light.header,lighter.header][number]?
    canonical := fun number => [origin.header].reverse[number]?.map (Header.hash keccak256) }
theorem sideBranch_indexed : Indexed keccak256 origin.header origin.header {lighter.header,light.header,origin.header}
    [origin.header] sideBranch := by
  have blocks : ∀ h ∈ ({lighter.header,light.header,origin.header} : Set Header),
      ∃ b ∈ ({heavy,lighter,light,origin} : Set Block), b.header = h := by
    rintro h (rfl | rfl | rfl)
    · exact ⟨lighter,by simp,rfl⟩
    · exact ⟨light,by simp,rfl⟩
    · exact ⟨origin,by simp,rfl⟩
  refine ⟨by simp,rfl,?_,?_,?_,.root,fun _ => rfl⟩
  · intro a inA b inB same
    obtain ⟨x,inX,rfl⟩ := blocks a inA
    obtain ⟨y,inY,rfl⟩ := blocks b inB
    rw [sample_apart x inX y inY same]
  · intro h inside
    obtain ⟨b,inB,rfl⟩ := blocks h inside
    exact (sample_hashes.2 b (by simpa using inB)).1
  · rintro h (rfl | rfl | rfl) <;> rfl
/-- The second of them finds the current header, two links away. -/
theorem getAncestor_exact_side : (getAncestor sideBranch (lighter.hash keccak256) 2 2 5).1 = (originHash,0) := by
  have branch : Branch (links keccak256) origin.header {lighter.header,light.header,origin.header} lighter.header
      [lighter.header,light.header,origin.header] :=
    .child (by simp) light_hash rfl (.child (by simp) origin_hash rfl .root)
  obtain ⟨a,found,climbed⟩ := (getAncestor_exact keccak256 _ _ _ _ _ sideBranch_indexed lighter.header _ branch 2 5 (by decide)).2
    (by decide)
  obtain rfl : origin.header = a := Option.some.inj found
  rw [if_neg (by decide),if_pos ((Nat.min_le_left _ _).trans (by decide))] at climbed
  refine (congrArg Prod.fst climbed).trans ?_
  exact congrArg (fun hash => (hash,0)) origin_hash

end Canchain.HeaderChain
