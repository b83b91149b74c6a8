import Mathlib

/-!
# Trees given by child lists

`Below children x y` is the subtree relation and `HasSize children x n` the recursive count, which
exists exactly when the subtree is finite and acyclic.
-/

namespace ChildTree

variable {α : Type} (children : α → List α)

/-- `y` lies in the subtree of `x`. -/
inductive Below : α → α → Prop
  | refl (x : α) : Below x x
  | child {x c y : α} : c ∈ children x → Below c y → Below x y

/-- The recursive count of the subtree of `x`. -/
inductive HasSize : α → Nat → Prop
  | mk {x : α} {ns : List Nat} : List.Forall₂ HasSize (children x) ns → HasSize x (ns.sum + 1)

/-- The count of the subtree of `x`, where it has one. -/
noncomputable def size (x : α) : Nat :=
  open Classical in if h : ∃ n, HasSize children x n then h.choose else 0

variable {children} {x y z c : α} {n m : Nat}

/-! ## The subtree relation -/

theorem Below.trans (hxy : Below children x y) (hyz : Below children y z) : Below children x z := by
  induction hxy with
  | refl => exact hyz
  | child hc _ ih => exact .child hc (ih hyz)

theorem Below.of_mem (hc : c ∈ children x) : Below children x c :=
  .child hc (.refl c)

theorem Below.tail (hxy : Below children x y) (hc : c ∈ children y) : Below children x c :=
  hxy.trans (.of_mem hc)

/-- A node of the subtree of `x` is `x` or in the subtree of a child of `x`. -/
theorem Below.eq_or_head (h : Below children x y) : x = y ∨ ∃ c ∈ children x, Below children c y := by
  cases h with
  | refl => exact .inl rfl
  | child hc h => exact .inr ⟨_, hc, h⟩

theorem Below.eq_or_tail (h : Below children x y) :
    x = y ∨ ∃ p, Below children x p ∧ y ∈ children p := by
  induction h with
  | refl => exact .inl rfl
  | @child x c y hc _ ih =>
    rcases ih with rfl | ⟨p, hp, hy⟩
    · exact .inr ⟨x, .refl x, hc⟩
    · exact .inr ⟨p, .child hc hp, hy⟩

/-! ## The recursive count -/

theorem forall₂_exists_of_mem {R : α → Nat → Prop} :
    ∀ {cs : List α} {ns : List Nat}, List.Forall₂ R cs ns → c ∈ cs → ∃ m ∈ ns, R c m
  | _, _, .nil, hc => absurd hc List.not_mem_nil
  | _, _, .cons hr hrest, hc => by
    rcases List.mem_cons.mp hc with rfl | hc
    · exact ⟨_, List.mem_cons_self, hr⟩
    · obtain ⟨m, hm, hrm⟩ := forall₂_exists_of_mem hrest hc
      exact ⟨m, List.mem_cons_of_mem _ hm, hrm⟩

theorem HasSize.inv (h : HasSize children x n) :
    ∃ ns, List.Forall₂ (HasSize children) (children x) ns ∧ n = ns.sum + 1 := by
  cases h with
  | mk hns => exact ⟨_, hns, rfl⟩

theorem HasSize.pos (h : HasSize children x n) : 0 < n := by
  obtain ⟨ns, -, rfl⟩ := h.inv
  exact Nat.succ_pos _

theorem HasSize.child (h : HasSize children x n) (hc : c ∈ children x) :
    ∃ m, HasSize children c m ∧ m < n := by
  obtain ⟨ns, hns, rfl⟩ := h.inv
  obtain ⟨m, hm, hcm⟩ := forall₂_exists_of_mem hns hc
  exact ⟨m, hcm, Nat.lt_succ_of_le (List.le_sum_of_mem hm)⟩

theorem HasSize.unique (h : HasSize children x n) (h' : HasSize children x m) : n = m := by
  induction n using Nat.strong_induction_on generalizing x m with
  | _ n ih =>
    obtain ⟨ns, hns, rfl⟩ := h.inv
    obtain ⟨ms, hms, rfl⟩ := h'.inv
    -- the children's counts agree one by one, each being below `n`
    have hle : ∀ k ∈ ns, k < ns.sum + 1 := fun k hk => Nat.lt_succ_of_le (List.le_sum_of_mem hk)
    suffices ∀ (cs : List α) (ks ks' : List Nat), (∀ k ∈ ks, k < ns.sum + 1) →
        List.Forall₂ (HasSize children) cs ks → List.Forall₂ (HasSize children) cs ks' → ks = ks' by
      rw [this _ ns ms hle hns hms]
    intro cs
    induction cs with
    | nil =>
      intro ks ks' _ h1 h2
      rw [List.forall₂_nil_left_iff.mp h1, List.forall₂_nil_left_iff.mp h2]
    | cons c cs ihc =>
      intro ks ks' hks h1 h2
      cases h1 with
      | cons hk h1 =>
        cases h2 with
        | cons hk' h2 =>
          rw [ih _ (hks _ List.mem_cons_self) hk hk',
            ihc _ _ (fun k hk => hks k (List.mem_cons_of_mem _ hk)) h1 h2]

theorem HasSize.subtree (h : HasSize children x n) (hb : Below children x y) :
    ∃ m, HasSize children y m ∧ m ≤ n := by
  induction hb generalizing n with
  | refl => exact ⟨n, h, Nat.le_refl n⟩
  | child hc _ ih =>
    obtain ⟨k, hk, hkn⟩ := h.child hc
    obtain ⟨m, hm, hmk⟩ := ih hk
    exact ⟨m, hm, by omega⟩

/-- A counted subtree has no cycle: a node is below none of its children. -/
theorem HasSize.not_below_child (h : HasSize children x n) (hc : c ∈ children x) :
    ¬ Below children c x := by
  intro hcx
  obtain ⟨k, hk, hkn⟩ := h.child hc
  obtain ⟨m, hm, hmk⟩ := hk.subtree hcx
  rw [hm.unique h] at hmk
  omega

/-! ## The count as a function -/

theorem size_eq (h : HasSize children x n) : size children x = n := by
  have hex : ∃ n, HasSize children x n := ⟨n, h⟩
  rw [size, dif_pos hex]
  exact hex.choose_spec.unique h

theorem HasSize.size (h : HasSize children x n) : HasSize children x (size children x) := by
  rw [size_eq h]
  exact h

theorem size_pos (h : HasSize children x n) : 0 < size children x := by
  rw [size_eq h]
  exact h.pos

theorem map_size_of_forall₂ :
    ∀ {cs : List α} {ns : List Nat}, List.Forall₂ (HasSize children) cs ns → cs.map (size children) = ns
  | _, _, .nil => rfl
  | _, _, .cons hk hrest => by rw [List.map_cons, size_eq hk, map_size_of_forall₂ hrest]

theorem size_eq_sum (h : HasSize children x n) :
    size children x = ((children x).map (size children)).sum + 1 := by
  obtain ⟨ns, hns, rfl⟩ := h.inv
  rw [size_eq h, map_size_of_forall₂ hns]

theorem size_lt_of_mem (h : HasSize children x n) (hc : c ∈ children x) :
    size children c < size children x := by
  obtain ⟨m, hm, hmn⟩ := h.child hc
  rw [size_eq hm, size_eq h]
  exact hmn

theorem size_le_of_below (h : HasSize children x n) (hb : Below children x y) :
    size children y ≤ size children x := by
  obtain ⟨m, hm, hmn⟩ := h.subtree hb
  rw [size_eq hm, size_eq h]
  exact hmn

theorem length_lt_size (h : HasSize children x n) : (children x).length < size children x := by
  have hsum : (children x).length ≤ ((children x).map (size children)).sum := by
    have := List.length_le_sum_of_one_le ((children x).map (size children)) (by
      intro k hk
      obtain ⟨c, hc, rfl⟩ := List.mem_map.mp hk
      obtain ⟨m, hm, -⟩ := h.child hc
      exact size_pos hm)
    rwa [List.length_map] at this
  rw [size_eq_sum h]
  omega

end ChildTree
