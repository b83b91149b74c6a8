import Mathlib.Logic.Relation
import Mathlib.Data.Finset.Card

/-!
# Ancestry in a DAG given by parent lists

`Ancestor`, `Past`, anticones, and `ancestorB`, a bounded search that is exact once its bound
exceeds a rank growing along every parent edge.
-/

namespace Dag

variable {α : Type} (parents : α → List α)

/-- `a` is a parent of `b`. -/
def Edge (a b : α) : Prop := a ∈ parents b

/-- `a` is `b` or one of its ancestors. -/
def Ancestor (a b : α) : Prop := Relation.ReflTransGen (Edge parents) a b

/-- `a` is in the past of `b`. -/
def Past (a b : α) : Prop := Relation.TransGen (Edge parents) a b

/-- Neither block is an ancestor of the other. -/
def Anticone (a b : α) : Prop := ¬ Ancestor parents a b ∧ ¬ Ancestor parents b a

variable {parents}

theorem Ancestor.refl (a : α) : Ancestor parents a a :=
  Relation.ReflTransGen.refl

theorem Ancestor.trans {a b c : α} (hab : Ancestor parents a b) (hbc : Ancestor parents b c) :
    Ancestor parents a c :=
  Relation.ReflTransGen.trans hab hbc

theorem ancestor_of_mem {a b : α} (h : a ∈ parents b) : Ancestor parents a b :=
  Relation.ReflTransGen.single h

theorem past_of_mem {a b : α} (h : a ∈ parents b) : Past parents a b :=
  Relation.TransGen.single h

theorem Past.ancestor {a b : α} (h : Past parents a b) : Ancestor parents a b :=
  h.to_reflTransGen

theorem Past.trans_ancestor {a b c : α} (hab : Past parents a b) (hbc : Ancestor parents b c) :
    Past parents a c :=
  Relation.TransGen.trans_left hab hbc

theorem Ancestor.trans_past {a b c : α} (hab : Ancestor parents a b) (hbc : Past parents b c) :
    Past parents a c :=
  Relation.TransGen.trans_right hab hbc

theorem past_of_ancestor_of_mem {a p b : α} (hap : Ancestor parents a p) (hp : p ∈ parents b) :
    Past parents a b :=
  hap.trans_past (past_of_mem hp)

theorem past_iff {a b : α} : Past parents a b ↔ ∃ p ∈ parents b, Ancestor parents a p := by
  constructor
  · intro h
    obtain ⟨p, hap, hp⟩ := Relation.TransGen.tail'_iff.mp h
    exact ⟨p, hp, hap⟩
  · rintro ⟨p, hp, hap⟩
    exact past_of_ancestor_of_mem hap hp

theorem ancestor_iff_eq_or_past {a b : α} : Ancestor parents a b ↔ a = b ∨ Past parents a b := by
  constructor
  · intro h
    rcases Relation.ReflTransGen.cases_tail h with h | ⟨c, hac, hcb⟩
    · exact Or.inl h.symm
    · exact Or.inr (past_of_ancestor_of_mem hac hcb)
  · rintro (rfl | h)
    · exact Ancestor.refl a
    · exact h.ancestor

theorem anticone_comm {a b : α} : Anticone parents a b ↔ Anticone parents b a :=
  And.comm

theorem not_anticone_self (a : α) : ¬ Anticone parents a a :=
  fun h => h.1 (Ancestor.refl a)

theorem rank_lt_of_past (rank : α → Nat) (hrank : ∀ a b, a ∈ parents b → rank a < rank b)
    {a b : α} (h : Past parents a b) : rank a < rank b := by
  induction h with
  | single hab => exact hrank _ _ hab
  | tail _ hcb ih => exact Nat.lt_trans ih (hrank _ _ hcb)

theorem acyclic_of_rank (rank : α → Nat) (hrank : ∀ a b, a ∈ parents b → rank a < rank b)
    (a : α) : ¬ Past parents a a :=
  fun h => Nat.lt_irrefl _ (rank_lt_of_past rank hrank h)

/-! ## Counting an anticone -/

section Count

variable (parents)

open Classical in
/-- The number of blocks of `blocks` in the set `S` that are in the anticone of `b`. -/
noncomputable def anticoneCount (blocks : Finset α) (S : α → Prop) (b : α) : Nat :=
  (blocks.filter fun x => S x ∧ Anticone parents b x).card

variable {parents} {blocks : Finset α} {S S' : α → Prop} {b : α}

theorem anticoneCount_congr (h : ∀ x ∈ blocks, Anticone parents b x → (S x ↔ S' x)) :
    anticoneCount parents blocks S b = anticoneCount parents blocks S' b := by
  classical
  unfold anticoneCount
  congr 1
  refine Finset.filter_congr fun x hx => ?_
  constructor
  · rintro ⟨hs, ha⟩
    exact ⟨(h x hx ha).mp hs, ha⟩
  · rintro ⟨hs, ha⟩
    exact ⟨(h x hx ha).mpr hs, ha⟩

theorem anticoneCount_insert {c : α} (hc : c ∈ blocks) (hS : ¬ S c)
    (hbc : Anticone parents b c) (h : ∀ x, S' x ↔ S x ∨ x = c) :
    anticoneCount parents blocks S' b = anticoneCount parents blocks S b + 1 := by
  classical
  unfold anticoneCount
  have hfilter : (blocks.filter fun x => S' x ∧ Anticone parents b x) =
      insert c (blocks.filter fun x => S x ∧ Anticone parents b x) := by
    ext x
    simp only [Finset.mem_filter, Finset.mem_insert, h]
    constructor
    · rintro ⟨hx, hs | rfl, ha⟩
      · exact Or.inr ⟨hx, hs, ha⟩
      · exact Or.inl rfl
    · rintro (rfl | ⟨hx, hs, ha⟩)
      · exact ⟨hc, Or.inr rfl, hbc⟩
      · exact ⟨hx, Or.inl hs, ha⟩
  rw [hfilter]
  exact Finset.card_insert_of_notMem (by simp [hS])

theorem anticoneCount_insert_of_not_anticone {c : α} (hbc : ¬ Anticone parents b c)
    (h : ∀ x, S' x ↔ S x ∨ x = c) :
    anticoneCount parents blocks S' b = anticoneCount parents blocks S b := by
  refine anticoneCount_congr fun x _ hx => ?_
  rw [h x]
  constructor
  · rintro (hs | rfl)
    · exact hs
    · exact absurd hx hbc
  · exact Or.inl

/-- The count is the length of a list without repeats that holds exactly the blocks counted. -/
theorem anticoneCount_eq_length {l : List α} (hl : l.Nodup)
    (hmem : ∀ x, x ∈ l ↔ x ∈ blocks ∧ S x ∧ Anticone parents b x) :
    anticoneCount parents blocks S b = l.length := by
  classical
  unfold anticoneCount
  have hfilter : (blocks.filter fun x => S x ∧ Anticone parents b x) = l.toFinset := by
    ext x
    simp only [Finset.mem_filter, List.mem_toFinset, hmem]
  rw [hfilter, List.toFinset_card_of_nodup hl]

end Count

/-! ## Deciding ancestry -/

variable (parents) [DecidableEq α]

/-- Ancestry searched through at most `bound` parent edges. -/
def ancestorB : Nat → α → α → Bool
  | 0, a, b => decide (a = b)
  | bound + 1, a, b => decide (a = b) || (parents b).any fun p => ancestorB bound a p

variable {parents}

theorem ancestor_of_ancestorB {bound : Nat} {a b : α} (h : ancestorB parents bound a b = true) :
    Ancestor parents a b := by
  induction bound generalizing b with
  | zero =>
    rw [ancestorB, decide_eq_true_eq] at h
    rw [h]
    exact Ancestor.refl b
  | succ bound ih =>
    rw [ancestorB, Bool.or_eq_true, decide_eq_true_eq, List.any_eq_true] at h
    rcases h with rfl | ⟨p, hp, hap⟩
    · exact Ancestor.refl a
    · exact (ih hap).trans (ancestor_of_mem hp)

/-- The search is exact when its bound is at least the rank of the descendant. -/
theorem ancestorB_of_ancestor (rank : α → Nat) (hrank : ∀ a b, a ∈ parents b → rank a < rank b)
    {bound : Nat} {a b : α} (hbound : rank b ≤ bound) (h : Ancestor parents a b) :
    ancestorB parents bound a b = true := by
  induction bound generalizing b with
  | zero =>
    rcases ancestor_iff_eq_or_past.mp h with rfl | hpast
    · simp [ancestorB]
    · exact absurd (rank_lt_of_past rank hrank hpast) (by omega)
  | succ bound ih =>
    rw [ancestorB, Bool.or_eq_true, decide_eq_true_eq, List.any_eq_true]
    rcases ancestor_iff_eq_or_past.mp h with rfl | hpast
    · exact Or.inl rfl
    · obtain ⟨p, hp, hap⟩ := past_iff.mp hpast
      have hlt := hrank _ _ hp
      exact Or.inr ⟨p, hp, ih (by omega) hap⟩

end Dag
