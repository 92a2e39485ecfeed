import Mathlib.Tactic

/-!
Radix trees with path compression over digits `0, …, b`, the last of which ends a key. A
canonical tree has no path of two joined segments and no branch with a single child; two
canonical trees that hold the same entries are equal (`canonical_unique`).
-/
namespace Canchain.Patricia
open List

section Cut
variable {α : Type} [DecidableEq α]

/-- The common prefix of two lists and what follows it in each. -/
def cut : List α → List α → List α × List α × List α
  | a :: as, b :: bs => if a = b then (a :: (cut as bs).1,(cut as bs).2) else ([],a :: as,b :: bs)
  | as, bs => ([],as,bs)

theorem cut_spec (k l : List α) : k = (cut k l).1 ++ (cut k l).2.1 ∧ l = (cut k l).1 ++ (cut k l).2.2 := by
  induction k generalizing l with
  | nil => simp [cut]
  | cons a as ih =>
    cases l with
    | nil => simp [cut]
    | cons c cs =>
      by_cases same : a = c
      · subst same
        obtain ⟨left,right⟩ := ih cs
        simp only [cut,↓reduceIte,cons_append,List.cons.injEq,true_and]
        exact ⟨left,right⟩
      · simp [cut,same]
/-- After the common prefix the two lists differ or one of them ends. -/
theorem cut_apart (k l : List α) {x y : α} {xs ys : List α} (left : (cut k l).2.1 = x :: xs)
    (right : (cut k l).2.2 = y :: ys) : x ≠ y := by
  induction k generalizing l with
  | nil => simp [cut] at left
  | cons a as ih =>
    cases l with
    | nil => simp [cut] at right
    | cons c cs =>
      by_cases same : a = c
      · simp only [cut,same,↓reduceIte] at left right
        exact ih cs left right
      · simp only [cut,same,↓reduceIte,List.cons.injEq] at left right
        rw [← left.1,← right.1]
        exact same
theorem cut_append (p xs ys : List α) : cut (p ++ xs) (p ++ ys) = (p ++ (cut xs ys).1,(cut xs ys).2) := by
  induction p with
  | nil => simp
  | cons a as ih => simp [cut,ih]
@[simp] theorem cut_self (k : List α) : cut k k = (k,[],[]) := by
  induction k with
  | nil => simp [cut]
  | cons a as ih => simp [cut,ih]
end Cut

variable {b : Nat} {V : Type}

/-- Keys over the digits `0, …, b`. -/
abbrev Key (b : Nat) := List (Fin (b+1))

/-- The last digit ends a key and occurs nowhere else in it. -/
def Terminated : Key b → Prop
  | [] => False
  | x :: k => if x = Fin.last b then k = [] else Terminated k
/-- No digit of the segment ends a key. -/
def Plain (k : Key b) : Prop := ∀ x ∈ k, x ≠ Fin.last b

@[simp] theorem terminated_last (k : Key b) : Terminated (Fin.last b :: k) ↔ k = [] := by simp [Terminated]
variable {x : Fin (b+1)}

theorem terminated_cons (inner : x ≠ Fin.last b) (k : Key b) :
    Terminated (x :: k) ↔ Terminated k := by simp [Terminated,inner]
variable {k : Key b}
theorem plain_cons : Plain (x :: k) ↔ x ≠ Fin.last b ∧ Plain k := by simp [Plain]
variable {l : Key b}

theorem plain_append : Plain (k ++ l) ↔ Plain k ∧ Plain l := by
  simp only [Plain,mem_append]
  exact ⟨fun h => ⟨fun x m => h x (.inl m),fun x m => h x (.inr m)⟩,fun h x m => m.elim (h.1 x) (h.2 x)⟩
theorem terminated_ne_nil (term : Terminated k) : k ≠ [] := by
  rintro rfl; exact term
theorem terminated_append {p : Key b} (plain : Plain p) : Terminated (p ++ k) ↔ Terminated k := by
  induction p with
  | nil => simp
  | cons x p ih =>
    obtain ⟨inner,rest⟩ := plain_cons.mp plain
    rw [cons_append,terminated_cons inner,ih rest]
theorem terminated_iff : Terminated k ↔ ∃ p, Plain p ∧ k = p ++ [Fin.last b] := by
  constructor
  · intro term
    induction k with
    | nil => exact term.elim
    | cons x k ih =>
      by_cases last : x = Fin.last b
      · subst last
        rw [terminated_last] at term
        subst term
        exact ⟨[],by simp [Plain],rfl⟩
      · obtain ⟨p,plain,rfl⟩ := ih ((terminated_cons last k).mp term)
        exact ⟨x :: p,plain_cons.mpr ⟨last,plain⟩,rfl⟩
  · rintro ⟨p,plain,rfl⟩
    rw [terminated_append plain]
    simp
/-- What precedes a further digit of a terminated key is plain. -/
theorem plain_of_terminated {p : Key b} (term : Terminated (p ++ k)) (more : k ≠ []) : Plain p := by
  induction p with
  | nil => simp [Plain]
  | cons x p ih =>
    by_cases last : x = Fin.last b
    · subst last
      rw [cons_append,terminated_last] at term
      exact absurd (append_eq_nil_iff.mp term).2 more
    · rw [cons_append,terminated_cons last] at term
      exact plain_cons.mpr ⟨last,ih term⟩
/-- No terminated key is a proper prefix of another. -/
theorem terminated_front {rest : Key b} (term : Terminated k) (longer : Terminated (k ++ rest)) : rest = [] := by
  induction k with
  | nil => exact term.elim
  | cons x k ih =>
    by_cases last : x = Fin.last b
    · subst last
      rw [cons_append,terminated_last] at longer
      exact (append_eq_nil_iff.mp longer).2
    · exact ih ((terminated_cons last k).mp term) ((terminated_cons last _).mp longer)

/-- A tree: empty, a segment above a subtree, a branch, or the value at the end
    of a key. -/
inductive Tree (b : Nat) (V : Type) where
  | nil
  | short (key : Key b) (val : Tree b V)
  | full (children : Fin (b+1) → Tree b V)
  | value (v : V)

namespace Tree

def isNil : Tree b V → Bool
  | .nil => true
  | _ => false
theorem isNil_iff (t : Tree b V) : t.isNil = true ↔ t = .nil := by cases t <;> simp [isNil]

/-- The entry at a key. -/
def get : Tree b V → Key b → Option V
  | .nil, _ => none
  | .value v, k => if k = [] then some v else none
  | .short key val, k => if key.isPrefixOf k then get val (k.drop key.length) else none
  | .full _, [] => none
  | .full children, x :: k => get (children x) k

@[simp] theorem get_nil (k : Key b) : get (.nil : Tree b V) k = none := by simp [get]
@[simp] theorem get_value (v : V) : get (.value v : Tree b V) [] = some v := by simp [get]
@[simp] theorem get_value_cons (v : V) (x : Fin (b+1)) (k : Key b) : get (.value v : Tree b V) (x :: k) = none := by
  simp [get]
@[simp] theorem get_full (cs : Fin (b+1) → Tree b V) (x : Fin (b+1)) (k : Key b) :
    get (.full cs) (x :: k) = get (cs x) k := rfl
@[simp] theorem get_short_append (p : Key b) (t : Tree b V) (k : Key b) : get (.short p t) (p ++ k) = get t k := by
  have front : p.isPrefixOf (p ++ k) = true := isPrefixOf_iff_prefix.mpr (prefix_append p k)
  simp [get,front]
theorem get_short_none (p : Key b) (t : Tree b V) (k : Key b) (other : ¬ p <+: k) : get (.short p t) k = none := by
  have front : ¬ p.isPrefixOf k = true := fun h => other ( isPrefixOf_iff_prefix.mp h)
  simp [get,front,↓reduceIte]
variable {p : Key b} {t : Tree b V} {cs : Fin (b+1) → Tree b V} {i : Fin (b+1)}
/-- Every entry below a segment has the segment in front of its key. -/
theorem prefix_of_get (some : get (.short p t) k ≠ none) : ∃ rest, k = p ++ rest ∧ get t rest ≠ none := by
  by_cases front : p <+: k
  · obtain ⟨rest,rfl⟩ := front
    exact ⟨rest,rfl,by rwa [get_short_append] at some⟩
  · exact absurd (get_short_none p t k front) some

/-- The canonical trees: no empty or doubled segment, no branch with fewer than
    two children, values exactly where a key ends. -/
inductive Canonical : Tree b V → Prop
  | leaf {k : Key b} {v : V} (term : Terminated k) : Canonical (.short k (.value v))
  | ext {k : Key b} {cs : Fin (b+1) → Tree b V} (some : k ≠ []) (plain : Plain k)
      (below : Canonical (.full cs)) : Canonical (.short k (.full cs))
  | branch {cs : Fin (b+1) → Tree b V} (inner : ∀ i, i ≠ Fin.last b → cs i ≠ .nil → Canonical (cs i))
      (last : cs (Fin.last b) = .nil ∨ ∃ v, cs (Fin.last b) = .value v)
      (two : ∃ i j, i ≠ j ∧ cs i ≠ .nil ∧ cs j ≠ .nil) : Canonical (.full cs)
/-- What a root may be: empty or canonical. -/
def Shaped (t : Tree b V) : Prop := t = .nil ∨ Canonical t

theorem Canonical.ne_nil (c : Canonical t) : t ≠ .nil := by cases c <;> simp
theorem Canonical.isNil (c : Canonical t) : t.isNil = false := by cases c <;> rfl
theorem Canonical.shaped (c : Canonical t) : Shaped t := .inr c
theorem Shaped.canonical (s : Shaped t) (some : t ≠ .nil) : Canonical t := s.resolve_left some
theorem not_canonical_value (v : V) : ¬ Canonical (.value v : Tree b V) := by intro c; cases c
theorem not_shaped_value (v : V) : ¬ Shaped (.value v : Tree b V) := by rintro (h | h); cases h; exact not_canonical_value v h
theorem Canonical.child (c : Canonical (.full cs)) (inner : i ≠ Fin.last b) : Shaped (cs i) := by
  cases c with
  | branch below _ _ => by_cases empty : cs i = .nil; exacts [.inl empty,.inr (below i inner empty)]

theorem slot_entry (last : cs (Fin.last b) = .nil ∨ ∃ v, cs (Fin.last b) = .value v)
    (some : cs i ≠ .nil) (inner : i ≠ Fin.last b → ∃ k, Terminated k ∧ get (cs i) k ≠ none) :
    ∃ k, Terminated (i :: k) ∧ get (.full cs) (i :: k) ≠ none := by
  by_cases final : i = Fin.last b
  · subst final
    obtain ⟨v,is⟩ := last.resolve_left some
    exact ⟨[],by simp,by simp [is]⟩
  · obtain ⟨rest,term,found⟩ := inner final
    exact ⟨rest,(terminated_cons final rest).mpr term,by simpa using found⟩
/-- A canonical tree holds an entry. -/
theorem Canonical.entry (c : Canonical t) : ∃ k, Terminated k ∧ get t k ≠ none := by
  induction c with
  | @leaf k v term => exact ⟨k,term,by simpa using (get_short_append k (.value v) []).trans_ne (by simp)⟩
  | @ext k cs _ plain _ ih =>
    obtain ⟨rest,term,found⟩ := ih
    exact ⟨k ++ rest,(terminated_append plain).mpr term,by simpa using found⟩
  | @branch cs inner last two ih =>
    obtain ⟨i,-,-,some,-⟩ := two
    obtain ⟨rest,entry⟩ := slot_entry last some fun final => ih i final some
    exact ⟨i :: rest,entry⟩

/-- The tree has entries whose keys first differ after `p`. -/
def Forks (t : Tree b V) (p : Key b) : Prop :=
  ∃ i j k l, i ≠ j ∧ (Terminated (p ++ i :: k) ∧ get t (p ++ i :: k) ≠ none) ∧ Terminated (p ++ j :: l) ∧ get t (p ++ j :: l) ≠ none

/-- Below a branch there are entries whose keys start differently. -/
theorem Canonical.forks (c : Canonical (.full cs)) : Forks (.full cs) [] := by
  cases c with
  | branch inner last two =>
    obtain ⟨i,j,apart,someI,someJ⟩ := two
    obtain ⟨k,entryK⟩ := slot_entry last someI fun final => (inner i final someI).entry
    obtain ⟨l,entryL⟩ := slot_entry last someJ fun final => (inner j final someJ).entry
    exact ⟨i,j,k,l,apart,entryK,entryL⟩
theorem Canonical.forks_short (c : Canonical (.full cs)) (plain : Plain p) : Forks (.short p (.full cs)) p := by
  obtain ⟨i,j,k,l,apart,entryK,entryL⟩ := c.forks
  refine ⟨i,j,k,l,apart,?_,?_⟩
  · rwa [get_short_append,terminated_append plain]
  · rwa [get_short_append,terminated_append plain]
variable {u : Tree b V}

theorem Forks.same (forks : Forks t p) (same : ∀ k, Terminated k → get t k = get u k) : Forks u p := by
  obtain ⟨i,j,k,l,apart,⟨termK,foundK⟩,termL,foundL⟩ := forks
  exact ⟨i,j,k,l,apart,⟨termK,same _ termK ▸ foundK⟩,termL,same _ termL ▸ foundL⟩
theorem key_of_leaf {v : V} (found : get (.short k (.value v)) l ≠ none) : l = k := by
  obtain ⟨rest,rfl,below⟩ := prefix_of_get found
  cases rest with
  | nil => simp
  | cons x xs => simp at below

/-- A segment in front of two keys that first differ after `k` is a prefix of `k`. -/
theorem prefix_of_fork {j : Fin (b+1)} {xs ys : Key b} (apart : i ≠ j)
    (left : p <+: k ++ i :: xs) (right : p <+: k ++ j :: ys) : p <+: k := by
  induction p generalizing k with
  | nil => exact nil_prefix
  | cons x p ih =>
    cases k with
    | nil =>
      simp only [nil_append,cons_prefix_cons] at left right
      exact absurd (left.1.symm.trans right.1) apart
    | cons y k =>
      simp only [cons_append,cons_prefix_cons] at left right ⊢
      exact ⟨left.1,ih left.2 right.2⟩

theorem not_forks_leaf (k : Key b) (v : V) (p : Key b) : ¬ Forks (.short k (.value v)) p := by
  rintro ⟨i,j,x,y,apart,⟨-,foundX⟩,-,foundY⟩
  have := (key_of_leaf foundX).trans (key_of_leaf foundY).symm
  simp only [append_cancel_left_eq,List.cons.injEq] at this
  exact apart this.1
/-- The segment on top is above all forks. -/
theorem Forks.front (forks : Forks (.short l t) p) : l <+: p := by
  obtain ⟨i,j,x,y,apart,⟨-,foundX⟩,-,foundY⟩ := forks
  obtain ⟨restX,isX,-⟩ := prefix_of_get foundX
  obtain ⟨restY,isY,-⟩ := prefix_of_get foundY
  exact prefix_of_fork apart ⟨restX,isX.symm⟩ ⟨restY,isY.symm⟩

/-- Canonical trees with the same entries are equal. -/
theorem canonical_unique (ct : Canonical t) (cu : Canonical u)
    (same : ∀ k, Terminated k → get t k = get u k) : t = u := by
  induction ct generalizing u with
  | @leaf k v term =>
    have back := fun k term => (same k term).symm
    cases cu with
    | @leaf l w termL =>
      have found : get (.short l (.value w)) l = some w := by
        simpa using get_short_append l (.value w) []
      have both := (same l termL).trans found
      have keys : l = k := key_of_leaf (by rw [both]; simp)
      subst keys
      have value : get (.short l (.value v)) l = some v := by
        simpa using get_short_append l (.value v) []
      rw [value] at both
      rw [Option.some.inj both]
    | ext _ plain below => exact absurd ((below.forks_short plain).same back) (not_forks_leaf _ _ _)
    | branch inner last two => exact absurd ((Canonical.branch inner last two).forks.same back) (not_forks_leaf _ _ _)
  | @ext k cs someK plainK below ih =>
    have forks := (below.forks_short plainK).same same
    cases cu with
    | leaf => exact absurd forks (not_forks_leaf _ _ _)
    | @ext l ds someL plainL belowL =>
      -- The segment above each branch is what its two entries have in common.
      have back : k <+: l := ((belowL.forks_short plainL).same fun k term => (same k term).symm).front
      have keys : k = l := back.eq_of_length (Nat.le_antisymm back.length_le forks.front.length_le)
      subst keys
      have children : Tree.full cs = .full ds := ih belowL (by
        intro m term
        have := same (k ++ m) ((terminated_append plainK).mpr term)
        simpa using this)
      rw [children]
    | branch inner last two =>
      have front := ((Canonical.branch inner last two).forks.same fun k term => (same k term).symm).front
      exact absurd (prefix_nil.mp front) someK
  | @branch cs inner last two ih =>
    have forks := (Canonical.branch inner last two).forks.same same
    cases cu with
    | leaf => exact absurd forks (not_forks_leaf _ _ _)
    | ext someL plainL belowL => exact absurd (prefix_nil.mp forks.front) someL
    | @branch ds innerD lastD twoD =>
      congr 1
      funext i
      by_cases final : i = Fin.last b
      · subst final
        have slot := same [Fin.last b] (by simp)
        rcases last with none | ⟨v,is⟩
        · rcases lastD with noneD | ⟨w,isD⟩
          · rw [none,noneD]
          · simp [none,isD] at slot
        · rcases lastD with noneD | ⟨w,isD⟩
          · simp [is,noneD] at slot
          · simp only [get_full,is,isD,get_value,Option.some.injEq] at slot
            rw [is,isD,slot]
      · have below : ∀ k, Terminated k → get (cs i) k = get (ds i) k := by
          intro k term
          simpa using same (i :: k) ((terminated_cons final k).mpr term)
        by_cases empty : cs i = .nil
        · by_cases emptyD : ds i = .nil
          · rw [empty,emptyD]
          · obtain ⟨k,term,found⟩ := (innerD i final emptyD).entry
            rw [← below k term,empty] at found
            simp at found
        · by_cases emptyD : ds i = .nil
          · obtain ⟨k,term,found⟩ := (inner i final empty).entry
            rw [below k term,emptyD] at found
            simp at found
          · exact ih i final empty (innerD i final emptyD) below
theorem shaped_unique (st : Shaped t) (su : Shaped u)
    (same : ∀ k, Terminated k → get t k = get u k) : t = u := by
  rcases st with rfl | ct
  · rcases su with rfl | cu
    · rfl
    · obtain ⟨k,term,found⟩ := cu.entry
      rw [← same k term] at found
      simp at found
  · rcases su with rfl | cu
    · obtain ⟨k,term,found⟩ := ct.entry
      rw [same k term] at found
      simp at found
    · exact canonical_unique ct cu same

end Tree
end Canchain.Patricia
