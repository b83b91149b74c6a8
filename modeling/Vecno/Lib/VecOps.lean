import Mathlib

/-!
# `Vec::swap_remove` and `Itertools::position_minmax`

`swapRemove` is a permutation of `List.eraseIdx`. `position_minmax` is a parameter lawful by
`PositionMinmaxLawful`; `positionMinmax` is a lawful scan.
-/

namespace VecOps

variable {α : Type}

/-- `Vec::swap_remove`, for a position in range. -/
def swapRemove (l : List α) (i : Nat) : List α :=
  match l.getLast? with
  | none => l
  | some last => (l.set i last).dropLast

/-- The loop of `position_minmax` from position `i` on, with the positions and elements of the
minimum and the maximum so far. -/
def positionMinmaxGo (cmp : α → α → Ordering) : List α → Nat → Nat × α → Nat × α → Nat × Nat
  | [], _, mn, mx => (mn.1, mx.1)
  | a :: as, i, mn, mx =>
    positionMinmaxGo cmp as (i + 1) (if cmp a mn.2 = .lt then (i, a) else mn)
      (if cmp a mx.2 = .lt then mx else (i, a))

/-- A scan for the first minimum and the last maximum, as `Itertools::position_minmax` followed
by `into_option` documents them. -/
def positionMinmax (cmp : α → α → Ordering) : List α → Option (Nat × Nat)
  | [] => none
  | a :: as => some (positionMinmaxGo cmp as 1 (0, a) (0, a))

/-- What `Itertools::position_minmax` followed by `into_option` returns, by its documentation:
nothing for no elements, otherwise the position of a minimal element and of a maximal one under
`cmp` (the documentation names the first minimal and the last maximal; nothing here needs that). -/
structure PositionMinmaxLawful (cmp : α → α → Ordering)
    (positionMinmax : List α → Option (Nat × Nat)) : Prop where
  nil : positionMinmax [] = none
  minmax : ∀ L : List α, L ≠ [] → ∃ i j, positionMinmax L = some (i, j) ∧
    ∃ hi : i < L.length, ∃ hj : j < L.length,
      ∀ k (hk : k < L.length), cmp L[k] L[i] ≠ .lt ∧ cmp L[j] L[k] ≠ .lt

theorem swapRemove_perm {l : List α} {i : Nat} (hi : i < l.length) :
    (swapRemove l i).Perm (l.eraseIdx i) := by
  obtain ⟨init, last, rfl⟩ : ∃ init last, l = init ++ [last] :=
    ⟨l.dropLast, l.getLast (List.ne_nil_of_length_pos (by omega)), (List.dropLast_append_getLast _).symm⟩
  rw [swapRemove, List.getLast?_concat]
  dsimp only
  rw [List.length_append, List.length_singleton] at hi
  rcases Nat.lt_or_ge i init.length with hlt | hge
  · -- the last element moves into position `i`
    rw [List.set_append_left _ _ hlt, List.dropLast_concat, List.eraseIdx_append_of_lt_length hlt,
      List.set_eq_take_append_cons_drop, if_pos hlt, List.eraseIdx_eq_take_drop_succ]
    exact List.perm_middle.trans (List.perm_append_singleton _ _).symm
  · -- the last position itself
    have hi : i = init.length := by omega
    subst hi
    rw [List.set_append_right _ _ (Nat.le_refl _), Nat.sub_self, List.set_cons_zero,
      List.dropLast_concat, List.eraseIdx_append_of_length_le (Nat.le_refl _), Nat.sub_self,
      List.eraseIdx_cons_zero, List.append_nil]

section MinMax

variable {β : Type} [LinearOrder β] (cmp : α → α → Ordering) (key : α → β)

/-- The loop keeps the least and the greatest key of what it has seen, at their positions. -/
theorem positionMinmaxGo_spec (hlt : ∀ a b, cmp a b = .lt → key a ≤ key b)
    (hnlt : ∀ a b, cmp a b ≠ .lt → key b ≤ key a) (L : List α) :
    ∀ (as : List α) (i : Nat) (mn mx : Nat × α), L.drop i = as → i ≤ L.length →
      mn.1 < i → L[mn.1]? = some mn.2 → mx.1 < i → L[mx.1]? = some mx.2 →
      (∀ b ∈ L.take i, key mn.2 ≤ key b ∧ key b ≤ key mx.2) →
      (positionMinmaxGo cmp as i mn mx).1 < L.length ∧
        (positionMinmaxGo cmp as i mn mx).2 < L.length ∧
        ∃ a b, L[(positionMinmaxGo cmp as i mn mx).1]? = some a ∧
          L[(positionMinmaxGo cmp as i mn mx).2]? = some b ∧ ∀ c ∈ L, key a ≤ key c ∧ key c ≤ key b := by
  intro as
  induction as with
  | nil =>
    intro i mn mx hdrop hi hmn hmnget hmx hmxget hseen
    have hlen : L.length ≤ i := by
      have h := congrArg List.length hdrop
      rw [List.length_drop, List.length_nil] at h
      omega
    rw [List.take_of_length_le hlen] at hseen
    exact ⟨by simp only [positionMinmaxGo]; omega, by simp only [positionMinmaxGo]; omega,
      mn.2, mx.2, hmnget, hmxget, hseen⟩
  | cons a as ih =>
    intro i mn mx hdrop hi hmn hmnget hmx hmxget hseen
    have hget : L[i]? = some a := by
      rw [← List.head?_drop, hdrop, List.head?_cons]
    have hi' : i < L.length := by
      by_contra hle
      rw [List.getElem?_eq_none (by omega)] at hget
      cases hget
    have htake : L.take (i + 1) = L.take i ++ [a] := by
      rw [List.take_add_one, hget, Option.toList_some]
    apply ih (i + 1) _ _ (by rw [← List.drop_drop, hdrop, List.drop_one, List.tail_cons]) (by omega)
    · split_ifs <;> omega
    · split_ifs
      · exact hget
      · exact hmnget
    · split_ifs <;> omega
    · split_ifs
      · exact hmxget
      · exact hget
    · intro b hb
      rw [htake, List.mem_append, List.mem_singleton] at hb
      -- the new element either becomes the minimum (maximum) or is bounded by it
      rcases hb with hb | rfl
      · have hmn' := hseen b hb
        constructor
        · split_ifs with h
          · exact (hlt _ _ h).trans hmn'.1
          · exact hmn'.1
        · split_ifs with h
          · exact hmn'.2
          · exact hmn'.2.trans (hnlt _ _ h)
      · constructor
        · split_ifs with h
          · exact le_rfl
          · exact hnlt _ _ h
        · split_ifs with h
          · exact hlt _ _ h
          · exact le_rfl

/-- `position_minmax` of a non-empty list: a position of the least key and one of the greatest. -/
theorem positionMinmax_spec (hlt : ∀ a b, cmp a b = .lt → key a ≤ key b)
    (hnlt : ∀ a b, cmp a b ≠ .lt → key b ≤ key a) {L : List α} (hL : L ≠ []) :
    ∃ i j, positionMinmax cmp L = some (i, j) ∧ ∃ hi : i < L.length, ∃ hj : j < L.length,
      ∀ c ∈ L, key L[i] ≤ key c ∧ key c ≤ key L[j] := by
  obtain ⟨a, as, rfl⟩ := List.exists_cons_of_ne_nil hL
  obtain ⟨hi, hj, x, y, hx, hy, hbound⟩ := positionMinmaxGo_spec cmp key hlt hnlt (a :: as) as 1
    (0, a) (0, a) rfl (by simp) Nat.zero_lt_one rfl Nat.zero_lt_one rfl (by simp)
  refine ⟨_, _, rfl, hi, hj, ?_⟩
  rw [List.getElem?_eq_getElem hi, Option.some_inj] at hx
  rw [List.getElem?_eq_getElem hj, Option.some_inj] at hy
  rw [hx, hy]
  exact hbound

/-- A scan under a `cmp` that compares keys is a lawful `position_minmax`. -/
theorem positionMinmaxLawful_positionMinmax (hcmp : ∀ a b, cmp a b = .lt ↔ key a < key b) :
    PositionMinmaxLawful cmp (positionMinmax cmp) := by
  refine ⟨rfl, fun L hL => ?_⟩
  obtain ⟨i, j, hpm, hi, hj, hbound⟩ := positionMinmax_spec cmp key
    (fun a b h => ((hcmp a b).mp h).le) (fun a b h => not_lt.mp fun hlt => h ((hcmp a b).mpr hlt)) hL
  refine ⟨i, j, hpm, hi, hj, fun k hk => ⟨fun h => ?_, fun h => ?_⟩⟩
  · exact absurd ((hcmp _ _).mp h) (not_lt.mpr (hbound _ (List.getElem_mem hk)).1)
  · exact absurd ((hcmp _ _).mp h) (not_lt.mpr (hbound _ (List.getElem_mem hk)).2)

end MinMax

/-- What a lawful `position_minmax` of a non-empty list returns, read through a key that refines
`cmp`: a position of the least key and one of the greatest. -/
theorem PositionMinmaxLawful.spec {β : Type} [LinearOrder β] {cmp : α → α → Ordering}
    {positionMinmax : List α → Option (Nat × Nat)} (h : PositionMinmaxLawful cmp positionMinmax)
    (key : α → β) (hnlt : ∀ a b, cmp a b ≠ .lt → key b ≤ key a) {L : List α} (hL : L ≠ []) :
    ∃ i j, positionMinmax L = some (i, j) ∧ ∃ hi : i < L.length, ∃ hj : j < L.length,
      ∀ c ∈ L, key L[i] ≤ key c ∧ key c ≤ key L[j] := by
  obtain ⟨i, j, hpm, hi, hj, hminmax⟩ := h.minmax L hL
  refine ⟨i, j, hpm, hi, hj, fun c hc => ?_⟩
  obtain ⟨k, hk, rfl⟩ := List.mem_iff_getElem.mp hc
  exact ⟨hnlt _ _ (hminmax k hk).1, hnlt _ _ (hminmax k hk).2⟩

end VecOps
