import Vecno.Lib.AListFold

/-!
# Hash maps of hash sets

`HashMap<K, HashSet<V>>` as association lists read as a relation. `insertAt` and `eraseAt` keep
it well formed and change it by one pair.
-/

namespace SetMap

open AList

variable {α β : Type} [DecidableEq α]

/-- The relation a map holds: a key to each member of its set. -/
def Rel (m : AList fun _ : α => List β) (k : α) (v : β) : Prop :=
  v ∈ (m.lookup k).getD []

/-- Every set the map holds is nonempty and without repetition. -/
def WellFormed (m : AList fun _ : α => List β) : Prop :=
  ∀ k s, m.lookup k = some s → s ≠ [] ∧ s.Nodup

variable {m : AList fun _ : α => List β}

theorem rel_of_lookup {k : α} {s : List β} (hk : m.lookup k = some s) {v : β} :
    Rel m k v ↔ v ∈ s := by
  simp [Rel, hk]

theorem wellFormed_empty : WellFormed (∅ : AList fun _ : α => List β) := by
  intro k s hs
  simp [lookup_empty] at hs

theorem rel_erase {k a : α} {b : β} : Rel (m.erase k) a b ↔ Rel m a b ∧ a ≠ k := by
  by_cases ha : a = k
  · subst ha
    simp [Rel, lookup_erase]
  · simp [Rel, lookup_erase_ne ha, ha]

theorem WellFormed.erase (h : WellFormed m) (k : α) : WellFormed (m.erase k) := by
  intro a s hs
  by_cases ha : a = k
  · subst ha
    simp [lookup_erase] at hs
  · rw [lookup_erase_ne ha] at hs
    exact h a s hs

variable [DecidableEq β]

/-- `entry(k).or_default().insert(v)`. -/
def insertAt (m : AList fun _ : α => List β) (k : α) (v : β) : AList fun _ : α => List β :=
  m.insert k (((m.lookup k).getD []).insert v)

/-- `if let Some(set) = get_mut(k) { set.remove(v); if set.is_empty() { remove(k) } }`. -/
def eraseAt (m : AList fun _ : α => List β) (k : α) (v : β) : AList fun _ : α => List β :=
  match m.lookup k with
  | some s => if (s.erase v).isEmpty then m.erase k else m.replace k (s.erase v)
  | none => m

/-- `if let Some(v) = v { entry(k).or_default().insert(v) }`. -/
def insertAtSome (m : AList fun _ : α => List β) (k : α) : Option β → AList fun _ : α => List β
  | some v => insertAt m k v
  | none => m

theorem rel_insertAt {k a : α} {v b : β} :
    Rel (insertAt m k v) a b ↔ Rel m a b ∨ (a = k ∧ b = v) := by
  by_cases ha : a = k
  · subst ha
    simp [Rel, insertAt, lookup_insert, List.mem_insert_iff, or_comm]
  · simp [Rel, insertAt, lookup_insert_ne ha, ha]

theorem WellFormed.insertAt (h : WellFormed m) (k : α) (v : β) :
    WellFormed (insertAt m k v) := by
  intro a s hs
  by_cases ha : a = k
  · subst ha
    rw [SetMap.insertAt, lookup_insert, Option.some.injEq] at hs
    subst hs
    refine ⟨List.ne_nil_of_mem List.mem_insert_self, List.Nodup.insert ?_⟩
    cases hk : m.lookup a with
    | none => exact List.nodup_nil
    | some s => exact (h a s hk).2
  · rw [SetMap.insertAt, lookup_insert_ne ha] at hs
    exact h a s hs

/-- Removing a member from a set: the pair goes, and the key with it once its set is empty. -/
theorem rel_eraseAt (h : WellFormed m) {k a : α} {v b : β} :
    Rel (eraseAt m k v) a b ↔ Rel m a b ∧ ¬ (a = k ∧ b = v) := by
  cases hk : m.lookup k with
  | none =>
    simp only [eraseAt, hk]
    constructor
    · rintro hab
      refine ⟨hab, ?_⟩
      rintro ⟨rfl, -⟩
      simp [Rel, hk] at hab
    · exact fun hab => hab.1
  | some s =>
    have hnd := (h k s hk).2
    by_cases ha : a = k
    · subst ha
      have hmem : b ∈ s.erase v ↔ b ∈ s ∧ b ≠ v := by
        rw [hnd.mem_erase_iff]
        exact and_comm
      by_cases hempty : (s.erase v).isEmpty
      · rw [List.isEmpty_iff] at hempty
        have hnot : ¬ (b ∈ s ∧ b ≠ v) := by
          rw [← hmem, hempty]
          exact List.not_mem_nil
        simp only [eraseAt, hk, hempty, List.isEmpty_nil, if_true, rel_erase, rel_of_lookup hk]
        simp only [ne_eq, not_true_eq_false, and_false, true_and, false_iff]
        exact hnot
      · simp only [eraseAt, hk, hempty, Bool.false_eq_true, if_false]
        rw [Rel, lookup_replace, if_pos ⟨rfl, lookup_isSome.mp (by simp [hk])⟩, Option.getD_some,
          hmem, rel_of_lookup hk]
        simp
    · have hframe : Rel (eraseAt m k v) a b ↔ Rel m a b := by
        simp only [eraseAt, hk]
        split
        · rw [rel_erase]
          exact and_iff_left ha
        · simp only [Rel, lookup_replace, ha, false_and, if_false]
      rw [hframe]
      simp [ha]

theorem WellFormed.eraseAt (h : WellFormed m) (k : α) (v : β) : WellFormed (eraseAt m k v) := by
  cases hk : m.lookup k with
  | none =>
    simp only [SetMap.eraseAt, hk]
    exact h
  | some s =>
    simp only [SetMap.eraseAt, hk]
    split
    · exact h.erase k
    · rename_i hempty
      intro a s' hs'
      rw [lookup_replace] at hs'
      split at hs'
      · rw [Option.some.injEq] at hs'
        subst hs'
        exact ⟨by simpa using hempty, (h k s hk).2.erase v⟩
      · rename_i ha
        exact h a s' hs'

theorem rel_insertAtSome {k a : α} {o : Option β} {b : β} :
    Rel (insertAtSome m k o) a b ↔ Rel m a b ∨ (a = k ∧ o = some b) := by
  cases o with
  | none => simp [insertAtSome]
  | some v =>
    rw [insertAtSome, rel_insertAt, Option.some.injEq]
    constructor
    · rintro (h | ⟨rfl, rfl⟩)
      · exact .inl h
      · exact .inr ⟨rfl, rfl⟩
    · rintro (h | ⟨rfl, rfl⟩)
      · exact .inl h
      · exact .inr ⟨rfl, rfl⟩

theorem WellFormed.insertAtSome (h : WellFormed m) (k : α) (o : Option β) :
    WellFormed (insertAtSome m k o) := by
  cases o with
  | none => exact h
  | some v => exact h.insertAt k v

theorem rel_foldl_insertAt (keys : List α) (v : β) (m : AList fun _ : α => List β) {a : α}
    {b : β} : Rel (keys.foldl (fun m k => insertAt m k v) m) a b ↔ Rel m a b ∨ (a ∈ keys ∧ b = v) := by
  induction keys generalizing m with
  | nil => simp
  | cons k keys ih =>
    rw [List.foldl_cons, ih, rel_insertAt, List.mem_cons]
    constructor
    · rintro ((h | ⟨rfl, rfl⟩) | ⟨h, rfl⟩)
      · exact .inl h
      · exact .inr ⟨.inl rfl, rfl⟩
      · exact .inr ⟨.inr h, rfl⟩
    · rintro (h | ⟨h | h, rfl⟩)
      · exact .inl (.inl h)
      · exact .inl (.inr ⟨h, rfl⟩)
      · exact .inr ⟨h, rfl⟩

theorem rel_foldl_insertAtSome {γ : Type} (l : List γ) (k : α) (g : γ → Option β)
    (m : AList fun _ : α => List β) {a : α} {b : β} :
    Rel (l.foldl (fun m x => insertAtSome m k (g x)) m) a b ↔
      Rel m a b ∨ (a = k ∧ ∃ x ∈ l, g x = some b) := by
  induction l generalizing m with
  | nil => simp
  | cons x l ih =>
    rw [List.foldl_cons, ih, rel_insertAtSome]
    constructor
    · rintro ((h | ⟨rfl, hx⟩) | ⟨rfl, y, hy, hgy⟩)
      · exact .inl h
      · exact .inr ⟨rfl, x, List.mem_cons_self, hx⟩
      · exact .inr ⟨rfl, y, List.mem_cons_of_mem x hy, hgy⟩
    · rintro (h | ⟨rfl, y, hy, hgy⟩)
      · exact .inl (.inl h)
      · rcases List.mem_cons.mp hy with rfl | hy
        · exact .inl (.inr ⟨rfl, hgy⟩)
        · exact .inr ⟨rfl, y, hy, hgy⟩

theorem WellFormed.foldl_insertAtSome {γ : Type} (h : WellFormed m) (l : List γ) (k : α)
    (g : γ → Option β) : WellFormed (l.foldl (fun m x => SetMap.insertAtSome m k (g x)) m) := by
  induction l generalizing m with
  | nil => exact h
  | cons x l ih => exact ih (h.insertAtSome k (g x))

theorem WellFormed.foldl_insertAt (h : WellFormed m) (keys : List α) (v : β) :
    WellFormed (keys.foldl (fun m k => SetMap.insertAt m k v) m) := by
  induction keys generalizing m with
  | nil => exact h
  | cons k keys ih => exact ih (h.insertAt k v)

theorem rel_foldl_eraseAt (keys : List α) (v : β) (h : WellFormed m) {a : α} {b : β} :
    Rel (keys.foldl (fun m k => eraseAt m k v) m) a b ↔ Rel m a b ∧ ¬ (a ∈ keys ∧ b = v) := by
  induction keys generalizing m with
  | nil => simp
  | cons k keys ih =>
    rw [List.foldl_cons, ih (h.eraseAt k v), rel_eraseAt h, List.mem_cons]
    tauto

theorem WellFormed.foldl_eraseAt (h : WellFormed m) (keys : List α) (v : β) :
    WellFormed (keys.foldl (fun m k => SetMap.eraseAt m k v) m) := by
  induction keys generalizing m with
  | nil => exact h
  | cons k keys ih => exact ih (h.eraseAt k v)

end SetMap
