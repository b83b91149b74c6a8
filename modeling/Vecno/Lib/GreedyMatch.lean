import Mathlib.Data.List.Forall2

/-!
# Greedy matching into a subsequence

`List.SublistForall₂ R as bs` is decided by one scan that gives each item the first related
candidate, and may stop once fewer candidates than items are left.
-/

namespace List

variable {α β : Type*} {R : α → β → Prop} {a : α} {as : List α} {b : β} {bs : List β}

theorem SublistForall₂.length_le (h : SublistForall₂ R as bs) : as.length ≤ bs.length := by
  induction h with
  | nil => exact Nat.zero_le _
  | cons _ _ ih => exact Nat.succ_le_succ ih
  | cons_right _ ih => exact Nat.le_succ_of_le ih

theorem SublistForall₂.of_cons_left (h : SublistForall₂ R (a :: as) bs) : SublistForall₂ R as bs := by
  induction bs with
  | nil => cases h
  | cons b bs ih =>
    cases h with
    | cons _ hrest => exact hrest.cons_right
    | cons_right hrest => exact (ih hrest).cons_right

theorem sublistForall₂_cons_cons_of_rel (hab : R a b) :
    SublistForall₂ R (a :: as) (b :: bs) ↔ SublistForall₂ R as bs := by
  constructor
  · intro h
    cases h with
    | cons _ hrest => exact hrest
    | cons_right hrest => exact hrest.of_cons_left
  · intro h
    exact h.cons hab

/-- A candidate not related to the first item is of no use to the match. -/
theorem sublistForall₂_cons_cons_of_not_rel (hab : ¬ R a b) :
    SublistForall₂ R (a :: as) (b :: bs) ↔ SublistForall₂ R (a :: as) bs := by
  constructor
  · intro h
    cases h with
    | cons hrel _ => exact absurd hrel hab
    | cons_right hrest => exact hrest
  · intro h
    exact h.cons_right

theorem not_sublistForall₂_of_length_lt (h : bs.length < as.length) : ¬ SublistForall₂ R as bs :=
  fun hm => Nat.lt_irrefl _ (Nat.lt_of_lt_of_le h hm.length_le)

end List
