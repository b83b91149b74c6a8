import Mathlib.Data.List.Nodup
import Mathlib.Logic.Relation

/-!
# Breadth-first search with a visited set

A queue-driven search that records each newly reached key once. With fuel for every key it
returns, without repetition, exactly the keys reachable from the start.
-/

namespace Bfs

open Relation

variable {α β : Type} (get : α → Option β) (chains : β → List α)

/-- The state of the loop: the visited set, the keys in the order they were reached, and the
queue. -/
structure State (α β : Type) where
  visited : List α
  order : List α
  queue : List β

section Search

variable [DecidableEq α]

/-- One successor of a dequeued value: a key `get` finds and the visited set lacks is marked,
recorded and enqueued. -/
def visitOne (s : State α β) (a : α) : State α β :=
  match get a with
  | some b => if a ∈ s.visited then s else ⟨a :: s.visited, s.order ++ [a], s.queue ++ [b]⟩
  | none => s

/-- The `while let Some(b) = queue.pop_front()` loop: each dequeued value's chains are visited
in turn; `none` when the fuel runs out. -/
def loop : Nat → State α β → Option (List α)
  | 0, _ => none
  | fuel + 1, ⟨visited, order, queue⟩ =>
    match queue with
    | [] => some order
    | b :: queue => loop fuel ((chains b).foldl (visitOne get) ⟨visited, order, queue⟩)

/-- The search from `start`; a start `get` does not know reaches nothing. -/
def search (fuel : Nat) (start : α) : Option (List α) :=
  match get start with
  | some b => loop get chains fuel ⟨[], [], [b]⟩
  | none => some []

end Search

/-- One step of the search: from a key `get` knows to a key of its value's chains that `get`
knows too. -/
def Step (a a' : α) : Prop :=
  ∃ b, get a = some b ∧ a' ∈ chains b ∧ (get a').isSome

variable (start : α)

/-- The invariant of the loop of a search from `start`: the visited set is the order reversed,
which has no repetition and holds only keys reached from the start; every queued value is that
of the start or of a reached key; and every step from the start or a reached key ends at a
reached key or leaves from a key whose value is still queued. -/
structure Inv (s : State α β) : Prop where
  visited_eq : s.visited = s.order.reverse
  nodup : s.order.Nodup
  reached : ∀ a ∈ s.order, TransGen (Step get chains) start a
  queued : ∀ b ∈ s.queue, ∃ a, get a = some b ∧ (a = start ∨ a ∈ s.order)
  closed : ∀ a, (a = start ∨ a ∈ s.order) → ∀ a', Step get chains a a' →
    a' ∈ s.order ∨ ∃ b, get a = some b ∧ b ∈ s.queue

variable {get chains start}

theorem Step.isSome_right {a a' : α} (h : Step get chains a a') : (get a').isSome := by
  obtain ⟨_, _, _, hsome⟩ := h
  exact hsome

theorem transGen_isSome_right {a a' : α} (h : TransGen (Step get chains) a a') : (get a').isSome := by
  induction h with
  | single h => exact h.isSome_right
  | tail _ h _ => exact h.isSome_right

theorem not_transGen_of_get_eq_none {a : α} (h : get a = none) (a' : α) :
    ¬ TransGen (Step get chains) a a' := by
  intro hreach
  obtain ⟨c, hc, -⟩ := TransGen.head'_iff.mp hreach
  obtain ⟨b, hb, -⟩ := hc
  rw [h] at hb
  cases hb

theorem inv_init {b : β} (hb : get start = some b) : Inv get chains start ⟨[], [], [b]⟩ where
  visited_eq := rfl
  nodup := List.nodup_nil
  reached := by simp
  queued := fun b' hb' => ⟨start, by rw [List.mem_singleton.mp hb', hb], .inl rfl⟩
  closed := by
    rintro a (rfl | ha) a' ⟨b', hb', -⟩
    · exact .inr ⟨b', hb', by rw [hb] at hb'; simp [Option.some.inj hb']⟩
    · simp at ha

/-- Reached keys are known to `get`, so there are no more of them than keys in a list covering
what `get` knows. -/
theorem Inv.length_order_le {s : State α β} (h : Inv get chains start s) {U : List α}
    (hU : ∀ a, (get a).isSome → a ∈ U) : s.order.length ≤ U.length :=
  List.Nodup.length_le_of_subset h.nodup fun a ha => hU a (transGen_isSome_right (h.reached a ha))

/-- With an empty queue the reached keys are closed under steps, so they are all the keys
reachable from the start. -/
theorem Inv.mem_iff {visited order : List α} (h : Inv get chains start ⟨visited, order, []⟩)
    (x : α) : x ∈ order ↔ TransGen (Step get chains) start x := by
  have hclosed : ∀ a, (a = start ∨ a ∈ order) → ∀ a', Step get chains a a' → a' ∈ order :=
    fun a ha a' hstep => (h.closed a ha a' hstep).resolve_right (by simp)
  refine ⟨h.reached x, fun hreach => ?_⟩
  induction hreach with
  | single hstep => exact hclosed _ (.inl rfl) _ hstep
  | tail _ hstep ih => exact hclosed _ (.inr ih) _ hstep

section Loop

variable [DecidableEq α]

variable (get) in
/-- What visiting a list of keys does: the keys newly reached, `new`, in order and without
repetition, are those of the list that `get` knows and the visited set lacked; they are
prepended to the visited set, appended to the order, and their values to the queue. -/
theorem foldl_visitOne (as : List α) (s : State α β) : ∃ new : List α,
    as.foldl (visitOne get) s =
      ⟨new.reverse ++ s.visited, s.order ++ new, s.queue ++ new.filterMap get⟩ ∧
    new.Nodup ∧ (∀ a ∈ new, a ∈ as ∧ (get a).isSome ∧ a ∉ s.visited) ∧
    ∀ a ∈ as, (get a).isSome → a ∈ s.visited ∨ a ∈ new := by
  induction as generalizing s with
  | nil => exact ⟨[], by simp, List.nodup_nil, by simp, by simp⟩
  | cons a as ih =>
    rw [List.foldl_cons]
    cases hget : get a with
    | none =>
      -- a key `get` does not know is skipped
      have hs : visitOne get s a = s := by simp only [visitOne, hget]
      obtain ⟨new, heq, hnd, hnew, hcov⟩ := ih s
      refine ⟨new, by rw [hs]; exact heq, hnd, fun x hx => ?_, fun x hx hsome => ?_⟩
      · obtain ⟨hxs, hsome, hvis⟩ := hnew x hx
        exact ⟨List.mem_cons_of_mem a hxs, hsome, hvis⟩
      · rcases List.mem_cons.mp hx with rfl | hx
        · simp [hget] at hsome
        · exact hcov x hx hsome
    | some b =>
      by_cases hvis : a ∈ s.visited
      · have hs : visitOne get s a = s := by simp only [visitOne, hget, hvis, if_true]
        obtain ⟨new, heq, hnd, hnew, hcov⟩ := ih s
        refine ⟨new, by rw [hs]; exact heq, hnd, fun x hx => ?_, fun x hx hsome => ?_⟩
        · obtain ⟨hxs, hsome, hxvis⟩ := hnew x hx
          exact ⟨List.mem_cons_of_mem a hxs, hsome, hxvis⟩
        · rcases List.mem_cons.mp hx with rfl | hx
          · exact .inl hvis
          · exact hcov x hx hsome
      · -- a new key: marked, recorded and enqueued before the rest are visited
        have hs : visitOne get s a = ⟨a :: s.visited, s.order ++ [a], s.queue ++ [b]⟩ := by
          simp only [visitOne, hget, hvis, if_false]
        obtain ⟨new, heq, hnd, hnew, hcov⟩ := ih ⟨a :: s.visited, s.order ++ [a], s.queue ++ [b]⟩
        have ha_new : a ∉ new := fun ha => (hnew a ha).2.2 List.mem_cons_self
        refine ⟨a :: new, ?_, List.nodup_cons.mpr ⟨ha_new, hnd⟩, fun x hx => ?_, fun x hx hsome => ?_⟩
        · rw [hs, heq]
          simp [hget]
        · rcases List.mem_cons.mp hx with rfl | hx
          · exact ⟨List.mem_cons_self, by simp [hget], hvis⟩
          · obtain ⟨hxs, hsome, hxvis⟩ := hnew x hx
            exact ⟨List.mem_cons_of_mem a hxs, hsome, fun h => hxvis (List.mem_cons_of_mem a h)⟩
        · rcases List.mem_cons.mp hx with rfl | hx
          · exact .inr List.mem_cons_self
          · rcases hcov x hx hsome with hx | hx
            · rcases List.mem_cons.mp hx with rfl | hx
              · exact .inr List.mem_cons_self
              · exact .inl hx
            · exact .inr (List.mem_cons_of_mem a hx)

/-- One pass of the loop keeps the invariant: the dequeued value's chains are all visited. -/
theorem Inv.pass {visited order : List α} {b : β} {queue : List β}
    (h : Inv get chains start ⟨visited, order, b :: queue⟩) :
    Inv get chains start ((chains b).foldl (visitOne get) ⟨visited, order, queue⟩) := by
  obtain ⟨new, heq, hnd, hnew, hcov⟩ := foldl_visitOne get (chains b) ⟨visited, order, queue⟩
  obtain ⟨a₀, ha₀, ha₀r⟩ := h.queued b List.mem_cons_self
  have hvis : visited = order.reverse := h.visited_eq
  rw [heq]
  constructor
  · simp [hvis]
  · refine List.nodup_append.mpr ⟨h.nodup, hnd, fun x hx y hy hxy => ?_⟩
    subst hxy
    exact (hnew x hy).2.2 (by rw [hvis]; exact List.mem_reverse.mpr hx)
  · intro x hx
    rcases List.mem_append.mp hx with hx | hx
    · exact h.reached x hx
    · -- a newly reached key is one step from the key the dequeued value belongs to
      have hstep : Step get chains a₀ x := ⟨b, ha₀, (hnew x hx).1, (hnew x hx).2.1⟩
      rcases ha₀r with rfl | ha₀r
      · exact .single hstep
      · exact .tail (h.reached a₀ ha₀r) hstep
  · intro b' hb'
    rcases List.mem_append.mp hb' with hb' | hb'
    · obtain ⟨a, ha, har⟩ := h.queued b' (List.mem_cons_of_mem b hb')
      exact ⟨a, ha, har.imp_right fun ha => List.mem_append_left _ ha⟩
    · obtain ⟨x, hx, hxb⟩ := List.mem_filterMap.mp hb'
      exact ⟨x, hxb, .inr (List.mem_append_right _ hx)⟩
  · rintro a har a' hstep
    by_cases hanew : a ∈ new
    · -- a newly reached key has its value at the end of the queue
      obtain ⟨c, hc⟩ := Option.isSome_iff_exists.mp (hnew a hanew).2.1
      exact .inr ⟨c, hc, List.mem_append_right _ (List.mem_filterMap.mpr ⟨a, hanew, hc⟩)⟩
    · have hold : a = start ∨ a ∈ order :=
        har.imp_right fun ha => (List.mem_append.mp ha).resolve_right hanew
      rcases h.closed a hold a' hstep with ha' | ⟨c, hc, hcq⟩
      · exact .inl (List.mem_append_left _ ha')
      · rcases List.mem_cons.mp hcq with rfl | hcq
        · -- the dequeued value: the step's end was just visited
          obtain ⟨c', hc', ha'c, hsome⟩ := hstep
          rw [hc, Option.some.injEq] at hc'
          subst hc'
          rcases hcov a' ha'c hsome with ha' | ha'
          · exact .inl (List.mem_append_left _ (by rw [hvis] at ha'; exact List.mem_reverse.mp ha'))
          · exact .inl (List.mem_append_right _ ha')
        · exact .inr ⟨c, hc, List.mem_append_left _ hcq⟩

/-- From a state keeping the invariant, enough fuel runs the loop to its end: each pass takes
one value off the queue and enqueues one value per newly reached key. -/
theorem Inv.loop_isSome {U : List α} (hU : ∀ a, (get a).isSome → a ∈ U) :
    ∀ (fuel : Nat) (s : State α β), Inv get chains start s →
      U.length + s.queue.length < fuel + s.order.length → (loop get chains fuel s).isSome
  | 0, s, h, hlt => absurd (h.length_order_le hU) (by omega)
  | fuel + 1, ⟨visited, order, []⟩, _, _ => rfl
  | fuel + 1, ⟨visited, order, b :: queue⟩, h, hlt => by
    obtain ⟨new, heq, -, hnew, -⟩ := foldl_visitOne get (chains b) ⟨visited, order, queue⟩
    have hlen : (new.filterMap get).length = new.length :=
      List.filterMap_length_eq_length.mpr fun a ha => (hnew a ha).2.1
    have hpass := h.pass
    rw [heq] at hpass
    simp only [loop, heq]
    refine Inv.loop_isSome hU fuel _ hpass ?_
    simp only [List.length_append, hlen, List.length_cons] at hlt ⊢
    omega

/-- What the loop returns, from a state keeping the invariant: the keys reachable from the
start, each once. -/
theorem Inv.loop_eq_some : ∀ {fuel : Nat} {s : State α β} {r : List α},
    Inv get chains start s → loop get chains fuel s = some r →
      r.Nodup ∧ ∀ x, x ∈ r ↔ TransGen (Step get chains) start x
  | 0, _, _, _, hloop => absurd hloop (by simp [loop])
  | fuel + 1, ⟨visited, order, []⟩, r, h, hloop => by
    simp only [loop, Option.some.injEq] at hloop
    subst hloop
    exact ⟨h.nodup, h.mem_iff⟩
  | fuel + 1, ⟨visited, order, b :: queue⟩, _, h, hloop => by
    simp only [loop] at hloop
    exact Inv.loop_eq_some h.pass hloop

variable (get chains) in
/-- The search, given fuel for the keys of any list covering those `get` knows, returns without
repetition exactly the keys reachable from the start. -/
theorem search_eq_some {U : List α} (hU : ∀ a, (get a).isSome → a ∈ U) {fuel : Nat}
    (hfuel : U.length + 2 ≤ fuel) (start : α) : ∃ r, search get chains fuel start = some r ∧
      r.Nodup ∧ ∀ x, x ∈ r ↔ TransGen (Step get chains) start x := by
  cases hget : get start with
  | none =>
    refine ⟨[], by simp [search, hget], List.nodup_nil, fun x => ?_⟩
    simp only [List.not_mem_nil, false_iff]
    exact not_transGen_of_get_eq_none hget x
  | some b =>
    have hinv : Inv get chains start ⟨[], [], [b]⟩ := inv_init hget
    obtain ⟨r, hr⟩ := Option.isSome_iff_exists.mp
      (hinv.loop_isSome hU fuel _ (by simp only [List.length_singleton, List.length_nil]; omega))
    refine ⟨r, by simp only [search, hget, hr], hinv.loop_eq_some hr⟩

end Loop

end Bfs
