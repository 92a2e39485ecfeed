import Canchain.Patricia
import Canchain.Sweep

/-!
Insertion and deletion in a radix tree. `attach` hangs a subtree below a segment, `join` and
`contract` restore the canonical form after a deletion. Each update changes the entry at its
key and no other (`get_insert`, `get_delete`) and keeps roots shaped.
-/
namespace Canchain.Patricia.Tree
open List Function
open Function (update)
open Sweep (only)

variable {b : Nat} {V : Type}

/-- The subtree below a segment; the empty segment adds nothing. -/
def attach (k : Key b) (t : Tree b V) : Tree b V := if k = [] then t else .short k t

variable {k key : Key b} {t : Tree b V} {x y i : Fin (b+1)} {cs : Fin (b+1) → Tree b V}
@[simp] theorem attach_nil (t : Tree b V) : attach [] t = t := by simp [attach]
theorem attach_ne (some : k ≠ []) (t : Tree b V) : attach k t = .short k t := by simp [attach,some]
variable (p : Key b)
@[simp] theorem get_attach_append (t : Tree b V) (k : Key b) : get (attach p t) (p ++ k) = get t k := by
  by_cases empty : p = []
  · simp [empty]
  · rw [attach_ne empty,get_short_append]
theorem get_attach_none (t : Tree b V) (k : Key b) (other : ¬ p <+: k) : get (attach p t) k = none := by
  have some : p ≠ [] := by rintro rfl; exact other nil_prefix
  rw [attach_ne some,get_short_none p t k other]
theorem get_attach_value (k l : Key b) (v : V) : get (attach k (.value v)) l = if l = k then some v else none := by
  by_cases same : l = k
  · subst same
    simpa using get_attach_append l (.value v) []
  · rw [if_neg same]
    by_cases front : k <+: l
    · obtain ⟨rest,rfl⟩ := front
      cases rest with
      | nil => simp at same
      | cons x xs => simp
    · exact get_attach_none _ _ _ front
theorem attach_ne_nil (some : t ≠ .nil) : attach k t ≠ .nil := by
  unfold attach; split <;> simp [some]

/-- Insertion of a value. -/
def insert : Tree b V → Key b → V → Tree b V
  | _, [], v => .value v
  | .nil, k, v => attach k (.value v)
  | .value _, _, v => .value v
  | .full cs, x :: k, v => .full (update cs x (insert (cs x) k v))
  | .short key val, k, v =>
    match cut k key with
    | (_,rest,[]) => .short key (insert val rest v)
    | (p,x :: xs,y :: ys) =>
      attach p (.full (update (update (fun _ => .nil) y (attach ys val)) x (attach xs (.value v))))
    | (_,[],_ :: _) => .value v

@[simp] theorem insert_empty (t : Tree b V) (v : V) : insert t [] v = .value v := by cases t <;> simp [insert]
theorem insert_nil (some : k ≠ []) (v : V) : insert (.nil : Tree b V) k v = .short k (.value v) := by
  cases k with
  | nil => exact absurd rfl some
  | cons x k => simp [insert,attach]
@[simp] theorem insert_full (cs : Fin (b+1) → Tree b V) (x : Fin (b+1)) (k : Key b) (v : V) :
    insert (.full cs) (x :: k) v = .full (update cs x (insert (cs x) k v)) := by simp [insert]
/-- A key that continues the segment goes below it. -/
theorem insert_short_append (key rest : Key b) (t : Tree b V) (v : V) (some : key ++ rest ≠ []) :
    insert (.short key t) (key ++ rest) v = .short key (insert t rest v) := by
  have pieces : cut (key ++ rest) key = (key,rest,[]) := by
    have := cut_append key rest []
    rw [append_nil] at this
    rw [this]
    cases rest <;> simp [cut]
  cases whole : key ++ rest with
  | nil => exact absurd whole some
  | cons x xs => rw [insert.eq_def]; simp only [← whole,pieces]
/-- The two ways below a new branch. -/
def forked (y : Fin (b+1)) (old : Tree b V) (x : Fin (b+1)) (new : Tree b V) : Fin (b+1) → Tree b V :=
  update (update (fun _ => .nil) y old) x new
/-- A key that leaves the segment splits it at the first difference. -/
theorem insert_short_split (apart : x ≠ y) (xs ys : Key b) (t : Tree b V) (v : V) :
    insert (.short (p ++ y :: ys) t) (p ++ x :: xs) v =
      attach p (.full (forked y (attach ys t) x (attach xs (.value v)))) := by
  have pieces : cut (p ++ x :: xs) (p ++ y :: ys) = (p,x :: xs,y :: ys) := by
    rw [cut_append]
    simp [cut,apart]
  cases whole : p ++ x :: xs with
  | nil => simp at whole
  | cons z zs => rw [insert.eq_def]; simp only [← whole,pieces,forked]

@[simp] theorem forked_new (y : Fin (b+1)) (old : Tree b V) (x : Fin (b+1)) (new : Tree b V) :
    forked y old x new x = new := by simp [forked]
theorem forked_old (apart : x ≠ y) (old new : Tree b V) : forked y old x new y = old := by
  simp [forked,update_of_ne apart.symm]
theorem forked_other {z : Fin (b+1)} (notX : z ≠ x) (notY : z ≠ y) (old new : Tree b V) :
    forked y old x new z = .nil := by simp [forked,update_of_ne notX,update_of_ne notY]

/-- How a terminated key meets the segment of a canonical tree. -/
theorem cut_cases (term : Terminated k) (seg : Plain key ∨ Terminated key) :
    (∃ rest, k = key ++ rest) ∨ ∃ p x xs y ys, x ≠ y ∧ k = p ++ x :: xs ∧ key = p ++ y :: ys := by
  obtain ⟨left,right⟩ := cut_spec k key
  cases restK : (cut k key).2.1 with
  | cons x xs =>
    cases restL : (cut k key).2.2 with
    | nil =>
      rw [restL,append_nil] at right
      exact .inl ⟨(cut k key).2.1,by rw [← right] at left; exact left⟩
    | cons y ys =>
      refine .inr ⟨(cut k key).1,x,xs,y,ys,cut_apart k key restK restL,?_,?_⟩
      · rw [← restK]; exact left
      · rw [← restL]; exact right
  | nil =>
    -- Then `k` is a prefix of the segment, which can only be `k` itself.
    rw [restK,append_nil] at left
    rw [← left] at right
    rcases seg with plain | termKey
    · rw [right] at plain
      obtain ⟨p,-,is⟩ := terminated_iff.mp term
      have := (plain_append.mp plain).1 (Fin.last b) (by rw [is]; simp)
      exact absurd rfl this
    · have : (cut k key).2.2 = [] := terminated_front term (by rw [← right]; exact termKey)
      rw [this,append_nil] at right
      exact .inl ⟨[],by rw [right]; simp⟩

theorem get_forked (apart : x ≠ y) (xs ys : Key b) (t : Tree b V) (v : V) (l : Key b) :
    get (attach p (.full (forked y (attach ys t) x (attach xs (.value v))))) l =
      if l = p ++ x :: xs then some v else get (.short (p ++ y :: ys) t) l := by
  by_cases front : p <+: l
  · obtain ⟨rest,rfl⟩ := front
    rw [get_attach_append]
    cases rest with
    | nil =>
      have other : ¬ p ++ y :: ys <+: p ++ [] := by
        intro h
        have := h.length_le
        simp at this
      rw [if_neg (by simp),get_short_none _ _ _ other]
      rfl
    | cons z zs =>
      rw [get_full]
      by_cases isX : z = x
      · subst isX
        have other : ¬ p ++ y :: ys <+: p ++ z :: zs := by
          rw [prefix_append_right_inj,cons_prefix_cons]
          exact fun h => apart h.1.symm
        rw [forked_new,get_attach_value,get_short_none _ _ _ other]
        simp
      · have differs : ¬ p ++ z :: zs = p ++ x :: xs := by simp [isX]
        rw [if_neg differs]
        by_cases isY : z = y
        · subst isY
          rw [forked_old apart]
          by_cases below : ys <+: zs
          · obtain ⟨rest,rfl⟩ := below
            rw [get_attach_append]
            have := get_short_append (p ++ z :: ys) t rest
            simpa using this.symm
          · have other : ¬ p ++ z :: ys <+: p ++ z :: zs := by
              rw [prefix_append_right_inj,cons_prefix_cons]
              exact fun h => below h.2
            rw [get_attach_none _ _ _ below,get_short_none _ _ _ other]
        · have other : ¬ p ++ y :: ys <+: p ++ z :: zs := by
            rw [prefix_append_right_inj,cons_prefix_cons]
            exact fun h => isY h.1.symm
          rw [forked_other isX isY,get_nil,get_short_none _ _ _ other]
  · have other : ¬ p ++ y :: ys <+: l := fun h => front ((prefix_append _ _).trans h)
    have differs : ¬ l = p ++ x :: xs := by
      rintro rfl
      exact front (prefix_append _ _)
    rw [get_attach_none _ _ _ front,if_neg differs,get_short_none _ _ _ other]

theorem Canonical.segment (c : Canonical (.short key t)) : Plain key ∨ Terminated key := by
  cases c with
  | leaf term => exact .inr term
  | ext _ plain _ => exact .inl plain
theorem Canonical.segment_ne (c : Canonical (.short key t)) : key ≠ [] := by
  cases c with
  | leaf term => exact terminated_ne_nil term
  | ext some _ _ => exact some

/-- An insertion sets the entry at its key and keeps every other entry. -/
theorem get_insert (shaped : Shaped t) (term : Terminated k) (v : V) {l : Key b}
    (termL : Terminated l) : get (insert t k v) l = if l = k then some v else get t l := by
  induction t generalizing k l with
  | nil =>
    rw [insert_nil (terminated_ne_nil term),← attach_ne (terminated_ne_nil term),get_attach_value]
    simp
  | value w => exact absurd shaped (not_shaped_value w)
  | short key t ih =>
    have c := shaped.canonical (by simp)
    rcases cut_cases term c.segment with ⟨rest,rfl⟩ | ⟨p,x,xs,y,ys,apart,rfl,rfl⟩
    · rw [insert_short_append key rest t v (terminated_ne_nil term)]
      by_cases front : key <+: l
      · obtain ⟨restL,rfl⟩ := front
        rw [get_short_append,get_short_append]
        simp only [append_cancel_left_eq]
        cases c with
        | leaf termKey =>
          rw [terminated_front termKey term,terminated_front termKey termL]
          simp
        | ext _ plain below =>
          exact ih below.shaped ((terminated_append plain).mp term) ((terminated_append plain).mp termL)
      · have differs : ¬ l = key ++ rest := by
          rintro rfl
          exact front (prefix_append _ _)
        rw [get_short_none _ _ _ front,if_neg differs,get_short_none _ _ _ front]
    · rw [insert_short_split p apart,get_forked p apart]
  | full cs ih =>
    have c := shaped.canonical (by simp)
    cases k with
    | nil => exact term.elim
    | cons x k =>
      cases l with
      | nil => exact termL.elim
      | cons y l =>
        rw [insert_full,get_full,get_full]
        by_cases same : y = x
        · subst same
          rw [update_self]
          by_cases final : y = Fin.last b
          · subst final
            rw [(terminated_last k).mp term,(terminated_last l).mp termL]
            simp
          · rw [ih y (c.child final) ((terminated_cons final k).mp term) ((terminated_cons final l).mp termL)]
            simp
        · rw [update_of_ne same,if_neg (by simp [same])]

theorem canonical_attach_value (term : Terminated (x :: k)) (inner : x ≠ Fin.last b)
    (v : V) : Canonical (attach k (.value v)) := by
  have := (terminated_cons inner k).mp term
  rw [attach_ne (terminated_ne_nil this)]
  exact .leaf this
/-- What hangs below a new branch on the side of the old segment. -/
theorem canonical_attach_rest {p : Key b} {ys : Key b} (c : Canonical (.short (p ++ y :: ys) t)) :
    (y ≠ Fin.last b → Canonical (attach ys t)) ∧ (y = Fin.last b → ∃ w, attach ys t = .value w) := by
  cases c with
  | @leaf _ w term =>
    have below : Terminated (y :: ys) := (terminated_append (plain_of_terminated term (by simp))).mp term
    constructor
    · intro inner; exact canonical_attach_value below inner w
    · rintro rfl
      rw [(terminated_last ys).mp below]
      exact ⟨w,by simp⟩
  | @ext _ cs _ plain below =>
    obtain ⟨-,plainY⟩ := plain_append.mp plain
    obtain ⟨inner,plainYs⟩ := plain_cons.mp plainY
    constructor
    · intro _
      by_cases empty : ys = []
      · rw [empty,attach_nil]; exact below
      · rw [attach_ne empty]; exact .ext empty plainYs below
    · intro final; exact absurd final inner
theorem canonical_forked {p : Key b} {xs ys : Key b} (apart : x ≠ y)
    (term : Terminated (p ++ x :: xs)) (c : Canonical (.short (p ++ y :: ys) t)) (v : V) :
    Canonical (.full (forked y (attach ys t) x (attach xs (.value v)))) := by
  have termX : Terminated (x :: xs) := (terminated_append (plain_of_terminated term (by simp))).mp term
  have some : t ≠ .nil := by cases c <;> simp
  obtain ⟨oldInner,oldLast⟩ := canonical_attach_rest c
  refine .branch ?_ ?_ ⟨x,y,apart,?_,?_⟩
  · intro i inner present
    by_cases isX : i = x
    · subst isX
      rw [forked_new]
      exact canonical_attach_value termX inner v
    · by_cases isY : i = y
      · subst isY
        rw [forked_old apart]
        exact oldInner inner
      · exact absurd (forked_other isX isY _ _) present
  · by_cases isX : Fin.last b = x
    · subst isX
      rw [forked_new,(terminated_last xs).mp termX]
      exact .inr ⟨v,by simp⟩
    · by_cases isY : Fin.last b = y
      · subst isY
        rw [forked_old apart]
        exact .inr (oldLast rfl)
      · exact .inl (forked_other isX isY _ _)
  · rw [forked_new]; exact attach_ne_nil (by simp)
  · rw [forked_old apart]; exact attach_ne_nil some

theorem insert_ne_nil (t : Tree b V) (k : Key b) (v : V) : insert t k v ≠ .nil := by
  cases k with
  | nil => simp
  | cons x k =>
    cases t with
    | nil => rw [insert_nil (by simp)]; simp
    | value w => simp [insert]
    | full cs => simp
    | short key t =>
      rw [insert.eq_def]
      simp only
      split
      · simp
      · exact attach_ne_nil (by simp)
      · simp

theorem canonical_insert (shaped : Shaped t) (term : Terminated k) (v : V) : Canonical (insert t k v) := by
  induction t generalizing k with
  | nil => rw [insert_nil (terminated_ne_nil term)]; exact .leaf term
  | value w => exact absurd shaped (not_shaped_value w)
  | short key t ih =>
    have c := shaped.canonical (by simp)
    rcases cut_cases term c.segment with ⟨rest,rfl⟩ | ⟨p,x,xs,y,ys,apart,rfl,rfl⟩
    · rw [insert_short_append key rest t v (terminated_ne_nil term)]
      cases c with
      | leaf termKey =>
        rw [terminated_front termKey term,insert_empty]
        exact .leaf termKey
      | @ext _ cs some plain below =>
        have termRest := (terminated_append plain).mp term
        have inserted := ih below.shaped termRest
        cases rest with
        | nil => exact termRest.elim
        | cons x rest =>
          rw [insert_full] at inserted ⊢
          exact .ext some plain inserted
    · rw [insert_short_split p apart]
      have branch := canonical_forked apart term c v
      by_cases empty : p = []
      · rw [empty,attach_nil]; exact branch
      · rw [attach_ne empty]
        exact .ext empty (plain_of_terminated term (by simp)) branch
  | full cs ih =>
    have c := shaped.canonical (by simp)
    cases k with
    | nil => exact term.elim
    | cons x k =>
      rw [insert_full]
      have shapes := fun i (inner : i ≠ Fin.last b) => c.child inner
      cases c with
      | branch inner last two =>
        refine .branch ?_ ?_ ?_
        · intro i innerI present
          by_cases same : i = x
          · subst same
            rw [update_self]
            exact ih i (shapes i innerI) ((terminated_cons innerI k).mp term)
          · rw [update_of_ne same] at present ⊢
            exact inner i innerI present
        · by_cases final : Fin.last b = x
          · subst final
            rw [update_self,(terminated_last k).mp term]
            exact .inr ⟨v,by simp⟩
          · rw [update_of_ne final]
            exact last
        · obtain ⟨i,j,apart,someI,someJ⟩ := two
          have kept : ∀ i, cs i ≠ .nil → update cs x (insert (cs x) k v) i ≠ .nil := by
            intro i some
            by_cases same : i = x
            · subst same; rw [update_self]; exact insert_ne_nil _ _ _
            · rw [update_of_ne same]; exact some
          exact ⟨i,j,apart,kept i someI,kept j someJ⟩

/-- A segment above a subtree; a segment at the top of the subtree is joined to it. -/
def join (key : Key b) : Tree b V → Tree b V
  | .short k t => .short (key ++ k) t
  | t => .short key t
/-- The position of the only child, if there is exactly one. -/
def lone (cs : Fin (b+1) → Tree b V) : Option (Fin (b+1)) :=
  only ((List.finRange (b+1)).filter fun i => !(cs i).isNil)
/-- A branch after a deletion below it: with one child left it becomes a segment. -/
def contract (cs : Fin (b+1) → Tree b V) : Tree b V :=
  match lone cs with
  | some i => join [i] (cs i)
  | none => .full cs

/-- Deletion of the entry at a key. -/
def delete : Tree b V → Key b → Tree b V
  | .nil, _ => .nil
  | .value _, _ => .nil
  | .full cs, x :: k => contract (update cs x (delete (cs x) k))
  | .full cs, [] => .full cs
  | .short key val, k =>
    match cut k key with
    | (_,[],[]) => .nil
    | (_,rest,[]) => join key (delete val rest)
    | (_,_,_ :: _) => .short key val

@[simp] theorem delete_nil (k : Key b) : delete (.nil : Tree b V) k = .nil := by simp [delete]
@[simp] theorem delete_value (v : V) (k : Key b) : delete (.value v : Tree b V) k = .nil := by simp [delete]
@[simp] theorem delete_full (cs : Fin (b+1) → Tree b V) (x : Fin (b+1)) (k : Key b) :
    delete (.full cs) (x :: k) = contract (update cs x (delete (cs x) k)) := by simp [delete]
@[simp] theorem delete_short_self (key : Key b) (t : Tree b V) : delete (.short key t) key = .nil := by simp [delete]
theorem delete_short_append (key : Key b) (t : Tree b V) {rest : Key b} (more : rest ≠ []) :
    delete (.short key t) (key ++ rest) = join key (delete t rest) := by
  cases rest with
  | nil => exact absurd rfl more
  | cons x xs =>
    have pieces := cut_append key (x :: xs) []
    rw [append_nil] at pieces
    simp [delete,pieces,cut]
theorem delete_short_split (apart : x ≠ y) (xs ys : Key b) (t : Tree b V) :
    delete (.short (p ++ y :: ys) t) (p ++ x :: xs) = .short (p ++ y :: ys) t := by
  simp [delete,cut_append,cut,apart]

@[simp] theorem get_join_append (key : Key b) (t : Tree b V) (k : Key b) : get (join key t) (key ++ k) = get t k := by
  cases t with
  | short seg t =>
    by_cases front : seg <+: k
    · obtain ⟨rest,rfl⟩ := front
      rw [get_short_append,join,← append_assoc,get_short_append]
    · have other : ¬ key ++ seg <+: key ++ k := by rwa [prefix_append_right_inj]
      rw [get_short_none _ _ _ front,join,get_short_none _ _ _ other]
  | _ => exact get_short_append key _ k
theorem get_join_none (key : Key b) (t : Tree b V) (k : Key b) (other : ¬ key <+: k) : get (join key t) k = none := by
  cases t with
  | short seg t => exact get_short_none _ _ _ fun h => other ((prefix_append _ _).trans h)
  | _ => exact get_short_none _ _ _ other
/-- Below a plain segment a canonical tree stays canonical. -/
theorem canonical_join (some : key ≠ []) (plain : Plain key) (c : Canonical t) : Canonical (join key t) := by
  cases c with
  | leaf term => exact .leaf ((terminated_append plain).mpr term)
  | ext _ below branch => exact .ext (by simp [some]) (plain_append.mpr ⟨plain,below⟩) branch
  | branch inner last two => exact .ext some plain (.branch inner last two)

theorem mem_present (cs : Fin (b+1) → Tree b V) (j : Fin (b+1)) :
    j ∈ (finRange (b+1)).filter (fun i => !(cs i).isNil) ↔ cs j ≠ .nil := by
  rw [mem_filter]
  simp [← isNil_iff]
theorem lone_some (only : lone cs = some i) : cs i ≠ .nil ∧ ∀ j, j ≠ i → cs j = .nil := by
  have kept := mem_present cs
  unfold lone Sweep.only at only
  split at only
  · rename_i i' one
    cases only
    simp only [one,mem_singleton] at kept
    exact ⟨(kept i).mp rfl,fun j other => by by_contra some; exact other ((kept j).mpr some)⟩
  · simp at only
theorem lone_none (many : lone cs = none) (present : cs i ≠ .nil) : ∃ j, j ≠ i ∧ cs j ≠ .nil := by
  have kept := mem_present cs
  have distinct : ((finRange (b+1)).filter (fun i => !(cs i).isNil)).Nodup :=
    (nodup_finRange _).filter _
  unfold lone Sweep.only at many
  cases all : (finRange (b+1)).filter (fun i => !(cs i).isNil) with
  | nil =>
    have := (kept i).mpr present
    simp [all] at this
  | cons x rest =>
    cases rest with
    | nil => simp [all] at many
    | cons y rest =>
      rw [all] at distinct kept
      have apart : x ≠ y := by
        rintro rfl
        simp at distinct
      by_cases same : x = i
      · exact ⟨y,fun h => apart (same.trans h.symm),(kept y).mp (by simp)⟩
      · exact ⟨x,same,(kept x).mp (by simp)⟩
/-- A branch in canonical form has nothing to contract. -/
theorem contract_canonical (c : Canonical (.full cs)) : contract cs = .full cs := by
  unfold contract
  cases only : lone cs with
  | none => rfl
  | some i =>
    obtain ⟨-,others⟩ := lone_some only
    cases c with
    | branch _ _ two =>
      obtain ⟨j,k,apart,someJ,someK⟩ := two
      by_cases same : j = i
      · exact absurd (others k fun h => apart (same.trans h.symm)) someK
      · exact absurd (others j same) someJ
theorem get_contract (cs : Fin (b+1) → Tree b V) (k : Key b) : get (contract cs) k = get (.full cs) k := by
  unfold contract
  cases only : lone cs with
  | none => rfl
  | some i =>
    obtain ⟨-,others⟩ := lone_some only
    cases k with
    | nil => exact get_join_none _ _ _ (by simp)
    | cons x k =>
      rw [get_full]
      by_cases same : x = i
      · subst same
        exact get_join_append [x] (cs x) k
      · rw [others x same,get_nil]
        exact get_join_none _ _ _ (by simp [cons_prefix_cons,Ne.symm same])
/-- A branch that keeps a child contracts to a canonical tree. -/
theorem canonical_contract (inner : ∀ i, i ≠ Fin.last b → cs i ≠ .nil → Canonical (cs i))
    (last : cs (Fin.last b) = .nil ∨ ∃ v, cs (Fin.last b) = .value v) (present : cs i ≠ .nil) :
    Canonical (contract cs) := by
  unfold contract
  cases only : lone cs with
  | none =>
    obtain ⟨j,apart,other⟩ := lone_none only present
    exact .branch inner last ⟨j,i,apart,other,present⟩
  | some j =>
    obtain ⟨left,-⟩ := lone_some only
    by_cases final : j = Fin.last b
    · subst final
      obtain ⟨v,is⟩ := last.resolve_left left
      simp only [is,join]
      exact .leaf (by simp)
    · exact canonical_join (by simp) (by simpa [Plain] using final) (inner j final left)

theorem shaped_of_full (term : Terminated (x :: k))
    (c : Canonical (.full cs)) (deleted : x ≠ Fin.last b → Shaped (delete (cs x) k)) :
    Canonical (contract (update cs x (delete (cs x) k))) := by
  cases c with
  | branch inner last two =>
    -- One of the two children the branch had is not the one deleted from.
    have present : ∃ i, update cs x (delete (cs x) k) i ≠ .nil := by
      obtain ⟨i,j,apart,someI,someJ⟩ := two
      by_cases same : i = x
      · subst same
        exact ⟨j,by rwa [update_of_ne apart.symm]⟩
      · exact ⟨i,by rwa [update_of_ne same]⟩
    obtain ⟨i,someI⟩ := present
    refine canonical_contract ?_ ?_ someI
    · intro j innerJ left
      by_cases same : j = x
      · subst same
        rw [update_self] at left ⊢
        exact (deleted innerJ).canonical left
      · rw [update_of_ne same] at left ⊢
        exact inner j innerJ left
    · by_cases final : Fin.last b = x
      · subst final
        rw [update_self]
        rcases last with none | ⟨v,is⟩
        · exact .inl (by simp [none])
        · exact .inl (by simp [is])
      · rw [update_of_ne final]
        exact last

/-- A deletion keeps roots shaped; below a branch something always remains. -/
theorem shaped_delete (shaped : Shaped t) (term : Terminated k) : Shaped (delete t k) := by
  induction t generalizing k with
  | nil => exact .inl (by simp)
  | value w => exact .inl (by simp)
  | short key t ih =>
    have c := shaped.canonical (by simp)
    rcases cut_cases term c.segment with ⟨rest,rfl⟩ | ⟨p,x,xs,y,ys,apart,rfl,rfl⟩
    · cases c with
      | leaf termKey =>
        rw [terminated_front termKey term,append_nil,delete_short_self]
        exact .inl rfl
      | @ext _ cs some plain below =>
        have termRest := (terminated_append plain).mp term
        rw [delete_short_append key _ (terminated_ne_nil termRest)]
        have shapedBelow := ih below.shaped termRest
        cases rest with
        | nil => exact termRest.elim
        | cons x rest =>
          rw [delete_full] at shapedBelow ⊢
          have remains : contract (update cs x (delete (cs x) rest)) ≠ .nil := by
            unfold contract
            split
            · cases update cs x (delete (cs x) rest) _ <;> simp [join]
            · simp
          exact .inr (canonical_join some plain (shapedBelow.canonical remains))
    · rw [delete_short_split p apart]
      exact c.shaped
  | full cs ih =>
    have c := shaped.canonical (by simp)
    cases k with
    | nil => exact term.elim
    | cons x k =>
      rw [delete_full]
      exact .inr (shaped_of_full term c fun inner => ih x (c.child inner) ((terminated_cons inner k).mp term))

/-- A deletion removes the entry at its key and keeps every other entry. -/
theorem get_delete (shaped : Shaped t) (term : Terminated k) {l : Key b}
    (termL : Terminated l) : get (delete t k) l = if l = k then none else get t l := by
  induction t generalizing k l with
  | nil => simp
  | value w => exact absurd shaped (not_shaped_value w)
  | short key t ih =>
    have c := shaped.canonical (by simp)
    rcases cut_cases term c.segment with ⟨rest,rfl⟩ | ⟨p,x,xs,y,ys,apart,rfl,rfl⟩
    · cases c with
      | @leaf _ v termKey =>
        rw [terminated_front termKey term,append_nil,delete_short_self,get_nil,
          ← attach_ne (terminated_ne_nil termKey),get_attach_value]
        split <;> rfl
      | ext _ plain below =>
        have termRest := (terminated_append plain).mp term
        rw [delete_short_append key _ (terminated_ne_nil termRest)]
        by_cases front : key <+: l
        · obtain ⟨restL,rfl⟩ := front
          rw [get_join_append,get_short_append,ih below.shaped termRest ((terminated_append plain).mp termL)]
          simp
        · rw [get_join_none _ _ _ front,get_short_none _ _ _ front]
          split <;> rfl
    · rw [delete_short_split p apart]
      by_cases same : l = p ++ x :: xs
      · subst same
        rw [if_pos rfl]
        refine get_short_none _ _ _ ?_
        rw [prefix_append_right_inj,cons_prefix_cons]
        exact fun h => apart h.1.symm
      · rw [if_neg same]
  | full cs ih =>
    have c := shaped.canonical (by simp)
    cases k with
    | nil => exact term.elim
    | cons x k =>
      cases l with
      | nil => exact termL.elim
      | cons y l =>
        rw [delete_full,get_contract,get_full,get_full]
        by_cases same : y = x
        · subst same
          rw [update_self]
          by_cases final : y = Fin.last b
          · subst final
            rw [(terminated_last k).mp term,(terminated_last l).mp termL,if_pos rfl]
            cases c with
            | branch _ last _ => rcases last with none | ⟨v,is⟩ <;> simp [*]
          · rw [ih y (c.child final) ((terminated_cons final k).mp term) ((terminated_cons final l).mp termL)]
            simp
        · rw [update_of_ne same,if_neg (by simp [same])]

end Canchain.Patricia.Tree
