import Mathlib.Data.List.Nodup

/-!
# Insertion-ordered sets

A set iterating its elements in first-insertion order. Taken from a library, its operations are a
parameter `Ops` with the documented behaviour `Ops.Lawful`.
-/

/-- A duplicate-free list, in insertion order. -/
structure IndexSet (α : Type*) where
  toList : List α
  nodup : toList.Nodup

namespace IndexSet

variable {α : Type*} [DecidableEq α]

instance : EmptyCollection (IndexSet α) := ⟨⟨[], List.nodup_nil⟩⟩

/-- `insert`: appends `a` unless it is already there. -/
def insert (s : IndexSet α) (a : α) : IndexSet α :=
  if h : a ∈ s.toList then s
  else ⟨s.toList ++ [a], s.nodup.append (List.nodup_singleton a) (by simpa using h)⟩

/-- `extend`: inserts the elements of `l` in order. -/
def extend (s : IndexSet α) (l : List α) : IndexSet α :=
  l.foldl insert s

/-- `FromIterator`: the set of the elements of `l`, in the order of their first occurrence. -/
def ofList (l : List α) : IndexSet α :=
  (∅ : IndexSet α).extend l

def length (s : IndexSet α) : Nat :=
  s.toList.length

omit [DecidableEq α] in
@[simp] theorem mem_empty (a : α) : a ∉ (∅ : IndexSet α).toList :=
  List.not_mem_nil

@[simp] theorem mem_insert {s : IndexSet α} {a b : α} :
    b ∈ (s.insert a).toList ↔ b ∈ s.toList ∨ b = a := by
  unfold insert
  split
  · constructor
    · exact Or.inl
    · rintro (h | rfl)
      · exact h
      · assumption
  · simp

@[simp] theorem mem_extend {s : IndexSet α} {l : List α} {b : α} :
    b ∈ (s.extend l).toList ↔ b ∈ s.toList ∨ b ∈ l := by
  induction l generalizing s with
  | nil => simp [extend]
  | cons a l ih =>
    simp only [extend, List.foldl_cons] at ih ⊢
    rw [ih, mem_insert, List.mem_cons]
    tauto

@[simp] theorem mem_ofList {l : List α} {b : α} : b ∈ (ofList l).toList ↔ b ∈ l := by
  simp [ofList]

/-- The operations on an insertion-ordered set that code takes from a library: collecting a
sequence into a set, and extending a set by a sequence. -/
structure Ops (α : Type*) where
  collect : List α → IndexSet α
  extend : IndexSet α → List α → IndexSet α

/-- The documented behaviour: collecting extends the empty set, and extending inserts the elements
in turn, an element already present keeping its place and a new one going last. -/
structure Ops.Lawful (ops : Ops α) : Prop where
  collect_eq : ∀ l, ops.collect l = ops.extend ∅ l
  extend_nil : ∀ s, ops.extend s [] = s
  extend_cons : ∀ s a l, ops.extend s (a :: l) = ops.extend (s.insert a) l

/-- The operations, one insertion at a time. -/
def Ops.insertionOrdered : Ops α :=
  ⟨IndexSet.ofList, IndexSet.extend⟩

theorem Ops.lawful_insertionOrdered : (Ops.insertionOrdered : Ops α).Lawful :=
  ⟨fun _ => rfl, fun _ => rfl, fun _ _ _ => rfl⟩

theorem Ops.Lawful.eq_insertionOrdered {ops : Ops α} (h : ops.Lawful) : ops = Ops.insertionOrdered := by
  have hextend : ∀ l s, ops.extend s l = s.extend l := by
    intro l
    induction l with
    | nil => exact h.extend_nil
    | cons a l ih =>
      intro s
      rw [h.extend_cons, ih]
      rfl
  obtain ⟨collect, extend'⟩ := ops
  simp only [Ops.insertionOrdered, Ops.mk.injEq]
  exact ⟨funext fun l => (h.collect_eq l).trans (hextend l ∅),
    funext fun s => funext fun l => hextend l s⟩

end IndexSet
