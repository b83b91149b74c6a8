import Mathlib.Data.List.Sort
import Vecno.Lib.Checked

/-!
# Merging two iterators

`Itertools::merge_join_by` over two lists mapped through a fallible `f`, each output through a
fallible `u`. Code takes it as a parameter lawful by `Lawful`; `mergeJoinBy` is the one lawful walk,
and on sorted disjoint lists it is `List.merge`.
-/

namespace MergeJoin

inductive EitherOrBoth (α β : Type) where
  | left (a : α)
  | right (b : β)
  | both (a : α) (b : β)
  deriving DecidableEq, Repr

variable {α γ δ ε : Type}

/-- `xs.map(f).merge_join_by(ys.map(f), cmp).map(u)`, run to the end. -/
def mergeJoinBy (f : α → Except ε γ) (cmp : γ → γ → Ordering)
    (u : EitherOrBoth γ γ → Except ε δ) : List α → List α → Except ε (List δ)
  | [], [] => .ok []
  | x :: xs, [] => do
    let a ← f x
    let d ← u (.left a)
    let rest ← mergeJoinBy f cmp u xs []
    pure (d :: rest)
  | [], y :: ys => do
    let b ← f y
    let d ← u (.right b)
    let rest ← mergeJoinBy f cmp u [] ys
    pure (d :: rest)
  | x :: xs, y :: ys => do
    let a ← f x
    let b ← f y
    match cmp a b with
    | .lt => do
      let d ← u (.left a)
      let rest ← mergeJoinBy f cmp u xs (y :: ys)
      pure (d :: rest)
    | .gt => do
      let d ← u (.right b)
      let rest ← mergeJoinBy f cmp u (x :: xs) ys
      pure (d :: rest)
    | .eq => do
      let d ← u (.both a b)
      let rest ← mergeJoinBy f cmp u xs ys
      pure (d :: rest)
termination_by xs ys => xs.length + ys.length

/-- The type of `xs.map(f).merge_join_by(ys.map(f), cmp).map(u)` run to the end. -/
abbrev MergeJoinByFn (α γ δ ε : Type) :=
  (α → Except ε γ) → (γ → γ → Ordering) → (EitherOrBoth γ γ → Except ε δ) →
    List α → List α → Except ε (List δ)

/-- The steps `merge_join_by` takes by its documentation: with one side empty it yields the rest
of the other; else it pulls both heads, yields the smaller one and puts the other back, or yields
two equal ones together. -/
structure Lawful (mj : MergeJoinByFn α γ δ ε) : Prop where
  nil_nil : ∀ f cmp u, mj f cmp u [] [] = .ok []
  cons_nil : ∀ f cmp u x xs, mj f cmp u (x :: xs) [] = do
    let a ← f x
    let d ← u (.left a)
    let rest ← mj f cmp u xs []
    pure (d :: rest)
  nil_cons : ∀ f cmp u y ys, mj f cmp u [] (y :: ys) = do
    let b ← f y
    let d ← u (.right b)
    let rest ← mj f cmp u [] ys
    pure (d :: rest)
  cons_cons : ∀ f cmp u x xs y ys, mj f cmp u (x :: xs) (y :: ys) = do
    let a ← f x
    let b ← f y
    match cmp a b with
    | .lt => do
      let d ← u (.left a)
      let rest ← mj f cmp u xs (y :: ys)
      pure (d :: rest)
    | .gt => do
      let d ← u (.right b)
      let rest ← mj f cmp u (x :: xs) ys
      pure (d :: rest)
    | .eq => do
      let d ← u (.both a b)
      let rest ← mj f cmp u xs ys
      pure (d :: rest)

theorem lawful_mergeJoinBy : Lawful (mergeJoinBy : MergeJoinByFn α γ δ ε) where
  nil_nil _ _ _ := by rw [mergeJoinBy]
  cons_nil _ _ _ _ _ := by rw [mergeJoinBy]
  nil_cons _ _ _ _ _ := by rw [mergeJoinBy]
  cons_cons _ _ _ _ _ _ _ := by rw [mergeJoinBy]

theorem Lawful.eq_mergeJoinBy {mj : MergeJoinByFn α γ δ ε} (h : Lawful mj) : mj = mergeJoinBy := by
  funext f cmp u xs ys
  induction xs, ys using mergeJoinBy.induct with
  | case1 => rw [h.nil_nil, mergeJoinBy]
  | case2 x xs ih => rw [h.cons_nil, mergeJoinBy, ih]
  | case3 y ys ih => rw [h.nil_cons, mergeJoinBy, ih]
  | case4 x xs y ys ih1 ih2 ih3 => rw [h.cons_cons, mergeJoinBy, ih1, ih2, ih3]

theorem mapM_cons_eq_ok {f : α → Except ε γ} {x : α} {xs : List α} {cs : List γ} :
    (x :: xs).mapM f = .ok cs ↔ ∃ c cs', f x = .ok c ∧ xs.mapM f = .ok cs' ∧ cs = c :: cs' := by
  rw [List.mapM_cons]
  cases f x <;> cases xs.mapM f <;> simp [eq_comm]

theorem mapM_eq_ok_iff {f : α → Except ε γ} {xs : List α} {cs : List γ} :
    xs.mapM f = .ok cs ↔ List.Forall₂ (fun x c => f x = .ok c) xs cs := by
  induction xs generalizing cs with
  | nil => cases cs <;> simp [List.mapM_nil, pure, Except.pure]
  | cons x xs ih =>
    rw [mapM_cons_eq_ok]
    constructor
    · rintro ⟨c, cs', hx, hxs, rfl⟩
      exact .cons hx (ih.mp hxs)
    · rintro (_ | ⟨hx, hxs⟩)
      exact ⟨_, _, hx, ih.mpr hxs, rfl⟩

theorem mapM_reverse_eq_ok {f : α → Except ε γ} {xs : List α} {cs : List γ}
    (h : xs.mapM f = .ok cs) : xs.reverse.mapM f = .ok cs.reverse :=
  mapM_eq_ok_iff.mpr (List.forall₂_reverse_iff.mpr (mapM_eq_ok_iff.mp h))

theorem exists_of_mem_mapM {f : α → Except ε γ} {xs : List α} {cs : List γ}
    (h : xs.mapM f = .ok cs) {c : γ} (hc : c ∈ cs) : ∃ x ∈ xs, f x = .ok c := by
  induction mapM_eq_ok_iff.mp h with
  | nil => exact absurd hc List.not_mem_nil
  | @cons x c' xs cs' hx _ ih =>
    rcases List.mem_cons.mp hc with rfl | hc
    · exact ⟨x, .head xs, hx⟩
    · obtain ⟨y, hy, hfy⟩ := ih (mapM_eq_ok_iff.mpr ‹_›) hc
      exact ⟨y, .tail x hy, hfy⟩

theorem mapM_sublist_eq_ok {f : α → Except ε γ} {l xs : List α} {cs : List γ}
    (hl : l.Sublist xs) (h : xs.mapM f = .ok cs) :
    ∃ cs', l.mapM f = .ok cs' ∧ cs'.Sublist cs := by
  induction hl generalizing cs with
  | slnil =>
    cases h
    exact ⟨[], rfl, .slnil⟩
  | cons x _ ih =>
    obtain ⟨c, cs'', -, hxs, rfl⟩ := mapM_cons_eq_ok.mp h
    obtain ⟨cs', hl, hsub⟩ := ih hxs
    exact ⟨cs', hl, hsub.cons c⟩
  | cons_cons x _ ih =>
    obtain ⟨c, cs'', hx, hxs, rfl⟩ := mapM_cons_eq_ok.mp h
    obtain ⟨cs', hl, hsub⟩ := ih hxs
    exact ⟨c :: cs', mapM_cons_eq_ok.mpr ⟨c, cs', hx, hl, rfl⟩, hsub.cons_cons c⟩

section Merge

variable {f : α → Except ε γ} {cmp : γ → γ → Ordering} {u : EitherOrBoth γ γ → Except ε γ}

/-- When `f` succeeds on every item, no two items compare equal and `u` passes a single item
through, the walk is the merge that takes the left item unless the right one compares smaller. -/
theorem mergeJoinBy_eq_merge (hl : ∀ c, u (.left c) = .ok c) (hr : ∀ c, u (.right c) = .ok c)
    {xs ys : List α} {as bs : List γ} (hxs : xs.mapM f = .ok as) (hys : ys.mapM f = .ok bs)
    (hne : ∀ a ∈ as, ∀ b ∈ bs, cmp a b ≠ .eq) :
    mergeJoinBy f cmp u xs ys = .ok (as.merge bs fun a b => cmp a b != .gt) := by
  induction xs, ys using mergeJoinBy.induct generalizing as bs with
  | case1 =>
    cases hxs
    cases hys
    simp [mergeJoinBy]
  | case2 x xs ih =>
    cases hys
    obtain ⟨a, as', hx, hxs', rfl⟩ := mapM_cons_eq_ok.mp hxs
    rw [mergeJoinBy, hx, Except.ok_bind, hl, Except.ok_bind,
      ih hxs' rfl (fun _ _ _ h => absurd h List.not_mem_nil)]
    simp
  | case3 y ys ih =>
    cases hxs
    obtain ⟨b, bs', hy, hys', rfl⟩ := mapM_cons_eq_ok.mp hys
    rw [mergeJoinBy, hy, Except.ok_bind, hr, Except.ok_bind,
      ih rfl hys' (fun _ h => absurd h List.not_mem_nil)]
    simp
  | case4 x xs y ys ih1 ih2 ih3 =>
    obtain ⟨a, as', hx, hxs', rfl⟩ := mapM_cons_eq_ok.mp hxs
    obtain ⟨b, bs', hy, hys', rfl⟩ := mapM_cons_eq_ok.mp hys
    rw [mergeJoinBy, hx, Except.ok_bind, hy, Except.ok_bind, List.cons_merge_cons]
    -- the comparison of the two heads picks the branch; `Both` is ruled out
    cases hab : cmp a b with
    | lt =>
      have hys'' : (y :: ys).mapM f = .ok (b :: bs') := mapM_cons_eq_ok.mpr ⟨b, bs', hy, hys', rfl⟩
      rw [ih1 hxs' hys'' fun a' ha' b' hb' => hne a' (.tail a ha') b' hb']
      simp [hl]
    | gt =>
      have hxs'' : (x :: xs).mapM f = .ok (a :: as') := mapM_cons_eq_ok.mpr ⟨a, as', hx, hxs', rfl⟩
      rw [ih2 hxs'' hys' fun a' ha' b' hb' => hne a' ha' b' (.tail b hb')]
      simp [hr]
    | eq => exact absurd hab (hne a (.head as') b (.head bs'))

end Merge

/-- A merge by a boolean `le` that decides a total, transitive `r` keeps two `r`-sorted lists
sorted. -/
theorem pairwise_merge_of_iff {le : γ → γ → Bool} {r : γ → γ → Prop}
    (hle : ∀ a b, le a b = true ↔ r a b) (htrans : ∀ a b c, r a b → r b c → r a c)
    (htotal : ∀ a b, r a b ∨ r b a) {as bs : List γ} (has : as.Pairwise r)
    (hbs : bs.Pairwise r) : (as.merge bs le).Pairwise r := by
  have hsorted : (as.merge bs le).Pairwise fun a b => le a b = true := List.pairwise_merge
    (fun a b c hab hbc => (hle a c).mpr (htrans a b c ((hle a b).mp hab) ((hle b c).mp hbc)))
    (fun a b => by
      rcases htotal a b with h | h
      · simp [(hle a b).mpr h]
      · simp [(hle b a).mpr h])
    as bs (has.imp fun h => (hle _ _).mpr h) (hbs.imp fun h => (hle _ _).mpr h)
  exact hsorted.imp fun h => (hle _ _).mp h

theorem compare_bne_gt_iff [LinearOrder γ] (a b : γ) : (compare a b != .gt) = true ↔ a ≤ b := by
  rw [bne_iff_ne, ne_eq, compare_gt_iff_gt, not_lt]

end MergeJoin
