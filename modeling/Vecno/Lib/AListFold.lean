import Mathlib.Data.List.AList

/-!
# Passes over association lists

Hash maps as association lists, filtered, extended and iterated once. Over distinct keys, what a
key reads afterwards depends only on its own entry.
-/

namespace AList

variable {α β : Type*} [DecidableEq α]

/-- The step of a pass that inserts each entry into the first or the second map by `p`. -/
def partitionStep (p : α → β → Bool) (acc : AList (fun _ : α => β) × AList (fun _ : α => β))
    (k : α) (v : β) : AList (fun _ : α => β) × AList (fun _ : α => β) :=
  if p k v then (acc.1.insert k v, acc.2) else (acc.1, acc.2.insert k v)

/-- What the first output of a partition pass reads at `k`, from the input's entry `x` at `k`
and what the output read before. -/
def partitionFst (p : α → β → Bool) (k : α) (x before : Option β) : Option β :=
  match x with
  | some v => if p k v then some v else before
  | none => before

/-- What the second output of a partition pass reads at `k`. -/
def partitionSnd (p : α → β → Bool) (k : α) (x before : Option β) : Option β :=
  match x with
  | some v => if p k v then before else some v
  | none => before

theorem lookup_foldl_partitionStep (p : α → β → Bool) (l : List (Σ _ : α, β))
    (hl : l.NodupKeys) (acc : AList (fun _ : α => β) × AList (fun _ : α => β)) (k : α) :
    (l.foldl (fun acc s => partitionStep p acc s.1 s.2) acc).1.lookup k =
        partitionFst p k (l.dlookup k) (acc.1.lookup k) ∧
      (l.foldl (fun acc s => partitionStep p acc s.1 s.2) acc).2.lookup k =
        partitionSnd p k (l.dlookup k) (acc.2.lookup k) := by
  induction l generalizing acc with
  | nil => exact ⟨rfl, rfl⟩
  | cons s l ih =>
    obtain ⟨a, b⟩ := s
    obtain ⟨hs, hl'⟩ := List.nodupKeys_cons.mp hl
    rw [List.foldl_cons, (ih hl' _).1, (ih hl' _).2]
    by_cases hk : k = a
    · subst hk
      have hnone : l.dlookup k = none := List.dlookup_eq_none.mpr hs
      rw [hnone, List.dlookup_cons_eq]
      cases hp : p k b <;> simp [partitionStep, partitionFst, partitionSnd, hp]
    · rw [List.dlookup_cons_ne _ _ hk]
      have hstep : ∀ acc' : AList (fun _ : α => β) × AList (fun _ : α => β),
          (partitionStep p acc' a b).1.lookup k = acc'.1.lookup k ∧
            (partitionStep p acc' a b).2.lookup k = acc'.2.lookup k := by
        intro acc'
        cases hp : p a b <;> simp [partitionStep, hp, lookup_insert_ne hk]
      rw [(hstep acc).1, (hstep acc).2]
      exact ⟨rfl, rfl⟩

/-- The step of a pass that inserts into one map the entries that satisfy `p`. -/
def insertStep (p : α → β → Bool) (acc : AList (fun _ : α => β)) (k : α) (v : β) :
    AList (fun _ : α => β) :=
  if p k v then acc.insert k v else acc

/-- Inserting the entries that satisfy `p` is the first half of a partition pass. -/
theorem foldl_partitionStep_fst (p : α → β → Bool) (l : List (Σ _ : α, β))
    (acc rest : AList (fun _ : α => β)) :
    (l.foldl (fun acc s => partitionStep p acc s.1 s.2) (acc, rest)).1 =
      l.foldl (fun acc s => insertStep p acc s.1 s.2) acc := by
  induction l generalizing acc rest with
  | nil => rfl
  | cons s l ih =>
    have hstep : partitionStep p (acc, rest) s.1 s.2 =
        (insertStep p acc s.1 s.2, (partitionStep p (acc, rest) s.1 s.2).2) := by
      unfold partitionStep insertStep
      split <;> rfl
    rw [List.foldl_cons, List.foldl_cons, hstep]
    exact ih _ _

theorem lookup_foldl_insertStep (p : α → β → Bool) (l : List (Σ _ : α, β)) (hl : l.NodupKeys)
    (acc : AList (fun _ : α => β)) (k : α) :
    (l.foldl (fun acc s => insertStep p acc s.1 s.2) acc).lookup k =
      partitionFst p k (l.dlookup k) (acc.lookup k) := by
  rw [← foldl_partitionStep_fst p l acc ∅]
  exact (lookup_foldl_partitionStep p l hl (acc, ∅) k).1

/-- `HashMap::retain`: keeps the entries that satisfy `p`. -/
def retain (p : α → β → Bool) (s : AList (fun _ : α => β)) : AList (fun _ : α => β) :=
  ⟨s.entries.filter (fun e => p e.1 e.2), s.nodupKeys.sublist List.filter_sublist⟩

/-- `HashMap::extend`: inserts the pairs of a list in order, a later value replacing an earlier
one under the same key. -/
def insertAll (s : AList (fun _ : α => β)) (l : List (α × β)) : AList (fun _ : α => β) :=
  l.foldl (fun m e => m.insert e.1 e.2) s

/-- Erasing every key of a list: those keys read nothing, the others what they read before. -/
theorem lookup_foldl_erase (keys : List α) (m : AList (fun _ : α => β)) (k : α) :
    (keys.foldl (fun m key => m.erase key) m).lookup k = if k ∈ keys then none else m.lookup k := by
  induction keys generalizing m with
  | nil => simp
  | cons key keys ih =>
    rw [List.foldl_cons, ih]
    by_cases hk : k = key
    · subst hk
      simp [lookup_erase]
    · simp [hk, lookup_erase_ne hk]

/-- After `extend` with pairs of distinct keys, a key reads the value it is paired with, or what
it read before when no pair has it. -/
theorem lookup_insertAll {l : List (α × β)} (hl : (l.map Prod.fst).Nodup)
    (s : AList (fun _ : α => β)) (k : α) (v : β) :
    (insertAll s l).lookup k = some v ↔ (k, v) ∈ l ∨ (k ∉ l.map Prod.fst ∧ s.lookup k = some v) := by
  induction l generalizing s with
  | nil => simp [insertAll]
  | cons e l ih =>
    obtain ⟨a, b⟩ := e
    rw [List.map_cons, List.nodup_cons] at hl
    have hstep : insertAll s ((a, b) :: l) = insertAll (s.insert a b) l := rfl
    rw [hstep, ih hl.2]
    by_cases hk : k = a
    · subst hk
      have hnot : (k, v) ∉ l := fun hmem => hl.1 (List.mem_map.mpr ⟨_, hmem, rfl⟩)
      simp [lookup_insert, hnot, hl.1, eq_comm]
    · have hne : (k, v) ≠ (a, b) := fun h => hk (congrArg Prod.fst h)
      simp [lookup_insert_ne hk, hne, hk]

/-- Inserting every key of a list with one value: those keys read it, the others what they read
before. -/
theorem lookup_foldl_insert (keys : List α) (v : β) (m : AList (fun _ : α => β)) (k : α) :
    (keys.foldl (fun m key => m.insert key v) m).lookup k = if k ∈ keys then some v else m.lookup k := by
  induction keys generalizing m with
  | nil => simp
  | cons key keys ih =>
    rw [List.foldl_cons, ih]
    by_cases hk : k = key
    · subst hk
      simp [lookup_insert]
    · simp [hk, lookup_insert_ne hk]

/-- `get_mut(a)` written through: the key reads the new value when it is present, every other
key what it read before. -/
theorem lookup_replace (a : α) (b : β) (s : AList (fun _ : α => β)) (k : α) :
    (s.replace a b).lookup k = if k = a ∧ a ∈ s then some b else s.lookup k := by
  obtain ⟨l, hl⟩ := s
  simp only [replace, lookup, mem_mk]
  clear hl
  induction l with
  | nil => simp [List.kreplace]
  | cons e l ih =>
    obtain ⟨c, d⟩ := e
    by_cases hc : a = c
    · -- the first entry under the key is the one replaced
      subst hc
      by_cases hk : k = a
      · subst hk
        simp [List.kreplace, List.lookmap_cons_some]
      · simp [List.kreplace, List.lookmap_cons_some, hk, List.dlookup_cons_ne]
    · have hcons : List.kreplace a b (⟨c, d⟩ :: l) = ⟨c, d⟩ :: List.kreplace a b l := by
        simp [List.kreplace, List.lookmap_cons_none, hc]
      rw [hcons]
      by_cases hk : k = c
      · subst hk
        simp [List.dlookup_cons_eq, Ne.symm hc]
      · rw [List.dlookup_cons_ne _ _ hk, List.dlookup_cons_ne _ _ hk, ih]
        simp only [List.keys_cons, List.mem_cons, hc, false_or]

end AList
