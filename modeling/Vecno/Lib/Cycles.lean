import Mathlib.Data.List.Chain
import Mathlib.Data.List.Nodup
import Mathlib.Logic.Relation

/-!
# Cycles of a relation over a finite list of nodes

A relation whose edges go forward along a list of distinct nodes has no cycle; a nonempty list
where every node has a predecessor in it holds one.
-/

namespace Cycles

open Relation

variable {α : Type} {r : α → α → Prop} {l : List α}

/-- `l` orders `r` forward: no edge goes from a later node to an earlier one, and none from a
node to itself. -/
structure Forward (r : α → α → Prop) (l : List α) : Prop where
  pairwise : l.Pairwise fun a b => ¬ r b a
  irrefl : ∀ a ∈ l, ¬ r a a

theorem forward_nil : Forward r [] :=
  ⟨List.Pairwise.nil, fun _ h => absurd h List.not_mem_nil⟩

/-- A list ordering `r` forward keeps doing so with a node that has no edge to itself or to a
node already in the list. -/
theorem Forward.concat (h : Forward r l) {a : α} (hback : ∀ b ∈ l, ¬ r a b) (hself : ¬ r a a) :
    Forward r (l ++ [a]) where
  pairwise := List.pairwise_append.mpr ⟨h.pairwise, List.pairwise_singleton _ _,
    fun b hb c hc => by rw [List.mem_singleton.mp hc]; exact hback b hb⟩
  irrefl := fun b hb => by
    rcases List.mem_append.mp hb with hb | hb
    · exact h.irrefl b hb
    · rw [List.mem_singleton.mp hb]
      exact hself

/-- A list ordering the converse of `r` forward, read backwards, orders `r` forward. -/
theorem Forward.reverse (h : Forward (flip r) l) : Forward r l.reverse where
  pairwise := List.pairwise_reverse.mpr h.pairwise
  irrefl := fun a ha => h.irrefl a (List.mem_reverse.mp ha)

theorem Forward.idxOf_lt [DecidableEq α] (h : Forward r l) {a b : α} (ha : a ∈ l)
    (hb : b ∈ l) (hab : r a b) : l.idxOf a < l.idxOf b := by
  have hia := List.idxOf_lt_length_of_mem ha
  have hib := List.idxOf_lt_length_of_mem hb
  rcases Nat.lt_trichotomy (l.idxOf a) (l.idxOf b) with hlt | heq | hgt
  · exact hlt
  · -- the same position holds the same node, which has no edge to itself
    have : a = b := by rw [← List.getElem_idxOf hia, ← List.getElem_idxOf hib]; simp only [heq]
    exact absurd (this ▸ hab) (h.irrefl a ha)
  · have hback := List.pairwise_iff_getElem.mp h.pairwise _ _ hib hia hgt
    rw [List.getElem_idxOf, List.getElem_idxOf] at hback
    exact absurd hab hback

/-- A relation whose edges lie among the nodes of a forward list has no cycle. -/
theorem Forward.not_transGen [DecidableEq α] (h : Forward r l)
    (hmem : ∀ a b, r a b → a ∈ l ∧ b ∈ l) (x : α) : ¬ TransGen r x x := by
  -- positions grow along every path
  have hpath : ∀ a b, TransGen r a b → l.idxOf a < l.idxOf b := by
    intro a b hab
    induction hab with
    | single hab => exact h.idxOf_lt (hmem _ _ hab).1 (hmem _ _ hab).2 hab
    | tail _ hbc ih => exact ih.trans (h.idxOf_lt (hmem _ _ hbc).1 (hmem _ _ hbc).2 hbc)
  exact fun hx => Nat.lt_irrefl _ (hpath x x hx)

/-- Along a list in which each node has an edge to the one before it, every later node reaches
the first. -/
theorem transGen_of_isChain {o : α} {os : List α} (h : (o :: os).IsChain fun a b => r b a) :
    ∀ y ∈ os, TransGen r y o := by
  induction os generalizing o with
  | nil => exact fun y hy => absurd hy List.not_mem_nil
  | cons o1 os ih =>
    obtain ⟨ho1, hrest⟩ := List.isChain_cons_cons.mp h
    intro y hy
    rcases List.mem_cons.mp hy with rfl | hy
    · exact TransGen.single ho1
    · exact (ih hrest y hy).tail ho1

/-- Walking backwards from a node of `R` for `n` steps without leaving `R`: each node of the walk
has an edge to the one before it. -/
theorem exists_back_chain {R : List α} (hpred : ∀ x ∈ R, ∃ y ∈ R, r y x) :
    ∀ n, ∀ x ∈ R, ∃ ys : List α, ys.length = n ∧ (x :: ys).IsChain (fun a b => r b a) ∧
      ∀ y ∈ ys, y ∈ R := by
  intro n
  induction n with
  | zero => exact fun x _ => ⟨[], rfl, List.isChain_singleton x, fun _ h => absurd h List.not_mem_nil⟩
  | succ n ih =>
    intro x hx
    obtain ⟨y, hy, hyx⟩ := hpred x hx
    obtain ⟨ys, hlen, hchain, hsub⟩ := ih y hy
    refine ⟨y :: ys, by rw [List.length_cons, hlen], List.isChain_cons_cons.mpr ⟨hyx, hchain⟩, ?_⟩
    intro w hw
    rcases List.mem_cons.mp hw with rfl | hw
    · exact hy
    · exact hsub w hw

/-- In a list in which every node has a predecessor in the list, every node is reached from a
cycle. -/
theorem exists_cycle_reaching {R : List α} (hpred : ∀ x ∈ R, ∃ y ∈ R, r y x) {x : α} (hx : x ∈ R) :
    ∃ y, TransGen r y y ∧ ReflTransGen r y x := by
  obtain ⟨ys, hlen, hchain, hsub⟩ := exists_back_chain hpred R.length x hx
  have hsub' : x :: ys ⊆ R := fun y hy => by
    rcases List.mem_cons.mp hy with rfl | hy
    · exact hx
    · exact hsub y hy
  -- the walk is longer than the list it stays in, so a node repeats
  have hdup : ¬ (x :: ys).Nodup := fun hnd => by
    have := hnd.length_le_of_subset hsub'
    rw [List.length_cons, hlen] at this
    omega
  obtain ⟨y, hy⟩ : ∃ y, [y, y].Sublist (x :: ys) := by
    by_contra hnone
    exact hdup (List.nodup_iff_sublist.mpr fun y hy => hnone ⟨y, hy⟩)
  have hpair : (x :: ys).Pairwise (TransGen (flip r)) :=
    (hchain.imp fun _ _ h => TransGen.single h).pairwise
  refine ⟨y, transGen_swap.mp (List.pairwise_pair.mp (hpair.sublist hy)), ?_⟩
  rcases List.mem_cons.mp (hy.subset List.mem_cons_self) with rfl | hyys
  · exact ReflTransGen.refl
  · exact (transGen_of_isChain hchain y hyys).to_reflTransGen

/-- A nonempty list in which every node has a predecessor in the list holds a cycle. -/
theorem exists_cycle_of_forall_pred {R : List α} (hne : R ≠ []) (hpred : ∀ x ∈ R, ∃ y ∈ R, r y x) :
    ∃ x, TransGen r x x := by
  obtain ⟨x, hx⟩ := List.exists_mem_of_ne_nil R hne
  obtain ⟨y, hy, -⟩ := exists_cycle_reaching hpred hx
  exact ⟨y, hy⟩

/-- A list closed under predecessors holds every node reaching one of its nodes. -/
theorem mem_of_reflTransGen (hclosed : ∀ b ∈ l, ∀ a, r a b → a ∈ l) {a b : α}
    (hab : ReflTransGen r a b) (hb : b ∈ l) : a ∈ l := by
  induction hab using ReflTransGen.head_induction_on with
  | refl => exact hb
  | head hac _ ih => exact hclosed _ ih _ hac

/-- No node of a forward list closed under predecessors lies on a cycle, even when edges leave
the list. -/
theorem Forward.not_transGen_of_closed [DecidableEq α] (h : Forward r l)
    (hclosed : ∀ b ∈ l, ∀ a, r a b → a ∈ l) {x : α} (hx : x ∈ l) : ¬ TransGen r x x := by
  -- a path into the list stays in it, and positions grow along it
  have hpath : ∀ a b, TransGen r a b → b ∈ l → a ∈ l ∧ l.idxOf a < l.idxOf b := by
    intro a b hab
    induction hab with
    | single hab =>
      intro hb
      have ha := hclosed _ hb _ hab
      exact ⟨ha, h.idxOf_lt ha hb hab⟩
    | @tail c b _ hcb ih =>
      intro hb
      have hc := hclosed _ hb _ hcb
      obtain ⟨ha, hac⟩ := ih hc
      exact ⟨ha, hac.trans (h.idxOf_lt hc hb hcb)⟩
  exact fun hxx => Nat.lt_irrefl _ (hpath x x hxx hx).2

/-- A forward list carried by a partial map along which edges come back from the image. -/
theorem Forward.filterMap {β : Type} {s : β → β → Prop} {f : α → Option β} (h : Forward r l)
    (hrel : ∀ a ∈ l, ∀ b ∈ l, ∀ x y, f a = some x → f b = some y → s x y → r a b) :
    Forward s (l.filterMap f) where
  pairwise := List.pairwise_filterMap.mpr (h.pairwise.imp_of_mem fun ha hb hba x hx y hy hs =>
    hba (hrel _ hb _ ha y x hy hx hs))
  irrefl := fun x hx => by
    obtain ⟨a, ha, hax⟩ := List.mem_filterMap.mp hx
    exact fun hs => h.irrefl a ha (hrel a ha a ha x x hax hax hs)

end Cycles
