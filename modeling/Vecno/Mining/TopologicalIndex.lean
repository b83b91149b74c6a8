import Mathlib.Data.List.Perm.Subperm
import Mathlib.Data.List.Dedup
import Mathlib.Algebra.Order.BigOperators.Group.List
import Mathlib.Algebra.Order.Group.Nat
import Mathlib.Logic.Function.Basic
import Vecno.Lib.Checked
import Vecno.Lib.Cycles

/-!
# Topological indexes: the graph, the order check and Kahn's algorithm

The `TopologicalIndex` trait with `check_topological_order` and Kahn's `topological_index`, whose
`u32` in-degrees are checked and whose map iteration order is a parameter.
-/

namespace Vecno.Mining

inductive TopologicalIndexError where
  | hasCycle
  | indexHasNonUniqueKey
  | indexHasWrongKeySet
  | indexIsNotTopological
deriving DecidableEq, Repr

/-- How a computation of the trait ends early: with its error, with a panic and its message, or,
in the model only, when a loop runs out of fuel. -/
inductive TopologicalIndexAbort where
  | err (error : TopologicalIndexError)
  | panic (message : String)
  | outOfFuel
deriving DecidableEq

/-- An implementation of `TopologicalIndex`: `topology_nodes` and `topology_node_edges`. -/
structure TopologicalIndex (α : Type) where
  topologyNodes : List α
  topologyNodeEdges : α → Option (List α)

namespace TopologicalIndex

def unwrap {β : Type} (o : Option β) : Except TopologicalIndexAbort β :=
  (Checked.expect Checked.unwrapNone o).mapError .panic

/-- The message of `map[key]` on a `HashMap` without `key`. -/
def noEntryFoundForKey : String :=
  "no entry found for key"

/-- `map[key]` on a `HashMap`. -/
def index {α β : Type} (m : α → Option β) (key : α) : Except TopologicalIndexAbort β :=
  (Checked.expect noEntryFoundForKey (m key)).mapError .panic

@[simp] theorem unwrap_some {β : Type} (b : β) : unwrap (some b) = .ok b :=
  rfl

theorem index_of_eq_some {α β : Type} {m : α → Option β} {key : α} {b : β} (h : m key = some b) :
    index m key = .ok b := by
  rw [index, h]
  rfl

section Graph

variable {α : Type} (t : TopologicalIndex α)

/-- The targets of the edges from `key`: none where `topology_node_edges` gives none. -/
def edges (key : α) : List α :=
  (t.topologyNodeEdges key).getD []

/-- An edge of the graph. -/
def Edge (u v : α) : Prop :=
  u ∈ t.topologyNodes ∧ v ∈ t.edges u

/-- The node keys form a set and every edge ends at a node. -/
structure WellFormed : Prop where
  nodup : t.topologyNodes.Nodup
  edges_mem : ∀ u ∈ t.topologyNodes, ∀ v ∈ t.edges u, v ∈ t.topologyNodes

/-- The graph has no cycle. -/
def Acyclic : Prop :=
  ∀ x, ¬ Relation.TransGen t.Edge x x

end Graph

variable {α : Type} [DecidableEq α]

/-! ## Maps over the node keys -/

section OnKeys

variable {β : Type} {keys : List α} {c : α → β} {k : α}

/-- The `HashMap` holding `c k` at each key `k` of `keys`. -/
def onKeys (keys : List α) (c : α → β) : α → Option β :=
  fun k => if k ∈ keys then some (c k) else none

@[simp] theorem onKeys_of_mem (h : k ∈ keys) : onKeys keys c k = some (c k) := by
  simp [onKeys, h]

@[simp] theorem onKeys_of_not_mem (h : k ∉ keys) : onKeys keys c k = none := by
  simp [onKeys, h]

theorem update_onKeys (h : k ∈ keys) (b : β) :
    Function.update (onKeys keys c) k (some b) = onKeys keys (Function.update c k b) := by
  funext x
  by_cases hx : x = k
  · subst hx
    simp [h]
  · simp [onKeys, Function.update_of_ne hx]

theorem foldl_update_const (b : β) :
    ∀ (L N : List α), L.foldl (fun m key => Function.update m key (some b)) (onKeys N fun _ => b) =
      onKeys (N ++ L) fun _ => b := by
  intro L
  induction L with
  | nil => intro N; rw [List.foldl_nil, List.append_nil]
  | cons key L ih =>
    intro N
    have hstep : Function.update (onKeys N fun _ => b) key (some b) = onKeys (N ++ [key]) fun _ => b := by
      funext x
      by_cases hx : x = key
      · subst hx
        simp
      · simp [onKeys, hx]
    rw [List.foldl_cons, hstep, ih, List.append_assoc, List.singleton_append]

theorem onKeys_nil : (onKeys ([] : List α) c) = fun _ => none := by
  funext x
  simp

end OnKeys

variable (t : TopologicalIndex α)

/-! ## `check_topological_order` -/

/-- The first loop of `check_topological_order`: the position of each key of `sorted`, which
must be distinct node keys. -/
def indexKeys (nodes : List α) : Nat → (α → Option Nat) → List α →
    Except TopologicalIndexAbort (α → Option Nat)
  | _, keyIndex, [] => .ok keyIndex
  | i, keyIndex, key :: keys =>
    -- `insert` hands back the position the key already had
    if (keyIndex key).isSome then .error (.err .indexHasNonUniqueKey)
    else if key ∉ nodes then .error (.err .indexHasWrongKeySet)
    else indexKeys nodes (i + 1) (Function.update keyIndex key (some i)) keys

/-- The second loop of `check_topological_order`: no edge goes backwards. -/
def checkEdges (keyIndex : α → Option Nat) : Except TopologicalIndexAbort Unit :=
  t.topologyNodes.forM fun fromKey => (t.edges fromKey).forM fun toKey => do
    let i ← index keyIndex fromKey
    let j ← index keyIndex toKey
    if i > j then .error (.err .indexIsNotTopological) else .ok ()

def checkTopologicalOrder (sorted : List α) : Except TopologicalIndexAbort Unit :=
  let nodes := t.topologyNodes.dedup
  if sorted.length ≠ nodes.length then .error (.err .indexHasWrongKeySet)
  else do
    let keyIndex ← indexKeys nodes 0 (fun _ => none) sorted
    t.checkEdges keyIndex

omit [DecidableEq α] in
theorem nodup_append_singleton {l : List α} {a : α} (ha : a ∉ l) (hl : l.Nodup) : (l ++ [a]).Nodup := by
  rw [← List.concat_eq_append]
  exact (List.nodup_concat l a).mpr ⟨ha, hl⟩

/-- The positions of the keys of `p`, as the first loop records them. -/
def positions (p : List α) : α → Option Nat :=
  onKeys p p.idxOf

theorem update_positions {p : List α} {k : α} (hk : k ∉ p) :
    Function.update (positions p) k (some p.length) = positions (p ++ [k]) := by
  funext x
  by_cases hx : x = k
  · subst hx
    simp [positions, List.idxOf_append_of_notMem hk]
  · by_cases hxp : x ∈ p
    · simp [positions, Function.update_of_ne hx, hxp, List.idxOf_append_of_mem hxp]
    · simp [positions, hxp, hx]

/-- The first loop, after a prefix `p` of distinct keys, succeeds exactly when the keys are all
distinct node keys, and then holds their positions. -/
theorem indexKeys_eq_ok (nodes : List α) :
    ∀ (rest p : List α) (m : α → Option Nat), p.Nodup →
      (indexKeys nodes p.length (positions p) rest = .ok m ↔
        (p ++ rest).Nodup ∧ (∀ k ∈ rest, k ∈ nodes) ∧ m = positions (p ++ rest)) := by
  intro rest
  induction rest with
  | nil =>
    intro p m hp
    simp only [indexKeys, List.append_nil, Except.ok.injEq, List.not_mem_nil, false_implies,
      implies_true, true_and, hp]
    exact eq_comm
  | cons k rest ih =>
    intro p m hp
    by_cases hkp : k ∈ p
    · -- a repeated key
      have hdup : ¬ (p ++ k :: rest).Nodup := fun h =>
        (List.nodup_append.mp h).2.2 k hkp k List.mem_cons_self rfl
      simp [indexKeys, positions, hkp, hdup]
    · by_cases hkn : k ∈ nodes
      · have hlen : p.length + 1 = (p ++ [k]).length := by simp
        have hnone : (positions p k).isSome = false := by
          rw [positions, onKeys_of_not_mem hkp]
          rfl
        have hstep : indexKeys nodes p.length (positions p) (k :: rest) =
            indexKeys nodes (p ++ [k]).length (positions (p ++ [k])) rest := by
          rw [indexKeys, hnone, if_neg Bool.false_ne_true, if_neg (not_not.mpr hkn),
            update_positions hkp, hlen]
        rw [hstep, ih (p ++ [k]) m (nodup_append_singleton hkp hp)]
        simp [List.append_assoc, hkn]
      · -- a key that is not a node
        simp [indexKeys, positions, hkp, hkn]

theorem positions_of_mem {p : List α} {k : α} (h : k ∈ p) : positions p k = some (p.idxOf k) :=
  onKeys_of_mem h

/-- With every node recorded, the second loop succeeds exactly when no edge goes backwards. -/
theorem checkEdges_eq_ok (ht : t.WellFormed) {p : List α} (hsub : ∀ u ∈ t.topologyNodes, u ∈ p) :
    t.checkEdges (positions p) = .ok () ↔
      ∀ u ∈ t.topologyNodes, ∀ v ∈ t.edges u, p.idxOf u ≤ p.idxOf v := by
  rw [checkEdges, Except.forM_eq_ok]
  apply forall₂_congr
  intro u hu
  rw [Except.forM_eq_ok]
  apply forall₂_congr
  intro v hv
  rw [index_of_eq_some (positions_of_mem (hsub u hu)),
    index_of_eq_some (positions_of_mem (hsub v (ht.edges_mem u hu v hv)))]
  by_cases hlt : p.idxOf u > p.idxOf v
  · simp only [Except.ok_bind, hlt, if_true, reduceCtorEq, false_iff, not_le]
  · simp only [Except.ok_bind, hlt, if_false, true_iff]
    omega

/-- What `check_topological_order` accepts: a permutation of the nodes along which no edge goes
backwards. -/
theorem checkTopologicalOrder_eq_ok (ht : t.WellFormed) (sorted : List α) :
    t.checkTopologicalOrder sorted = .ok () ↔
      sorted.Perm t.topologyNodes ∧ ∀ u v, t.Edge u v → sorted.idxOf u ≤ sorted.idxOf v := by
  have hkeys := indexKeys_eq_ok t.topologyNodes sorted [] (positions sorted) List.nodup_nil
  rw [List.length_nil, positions, onKeys_nil, List.nil_append] at hkeys
  unfold checkTopologicalOrder
  rw [ht.nodup.dedup]
  by_cases hlen : sorted.length = t.topologyNodes.length
  · rw [if_neg (not_not.mpr hlen), Except.bind_eq_ok]
    constructor
    · rintro ⟨m, hm, hedges⟩
      obtain ⟨hnd, hsub, hm'⟩ := (indexKeys_eq_ok t.topologyNodes sorted [] m List.nodup_nil).mp
        (by rw [List.length_nil, positions, onKeys_nil]; exact hm)
      rw [hm', List.nil_append] at hedges
      have hperm : sorted.Perm t.topologyNodes :=
        (hnd.subperm fun k hk => hsub k hk).perm_of_length_le (le_of_eq hlen.symm)
      refine ⟨hperm, fun u v huv => ?_⟩
      exact (t.checkEdges_eq_ok ht fun u hu => hperm.mem_iff.mpr hu).mp hedges u huv.1 v huv.2
    · rintro ⟨hperm, hedges⟩
      refine ⟨positions sorted, ?_, ?_⟩
      · exact hkeys.mpr ⟨hperm.nodup_iff.mpr ht.nodup, fun k hk => hperm.mem_iff.mp hk, rfl⟩
      · exact (t.checkEdges_eq_ok ht fun u hu => hperm.mem_iff.mpr hu).mpr
          fun u hu v hv => hedges u v ⟨hu, hv⟩
  · rw [if_pos hlen]
    simp only [reduceCtorEq, false_iff, not_and]
    exact fun hperm => absurd hperm.length_eq hlen

/-! ## In-degrees -/

/-- The number of edges into `v` from the nodes of `S`. -/
def inDegreeFrom (S : List α) (v : α) : Nat :=
  (S.map fun u => (t.edges u).count v).sum

/-- The in-degree of `v` in the whole graph. -/
def inDegree (v : α) : Nat :=
  t.inDegreeFrom t.topologyNodes v

theorem inDegreeFrom_nil (v : α) : t.inDegreeFrom [] v = 0 :=
  rfl

theorem inDegreeFrom_cons (u : α) (S : List α) (v : α) :
    t.inDegreeFrom (u :: S) v = (t.edges u).count v + t.inDegreeFrom S v := by
  simp [inDegreeFrom]

theorem count_le_inDegreeFrom {S : List α} {u : α} (hu : u ∈ S) (v : α) :
    (t.edges u).count v ≤ t.inDegreeFrom S v :=
  List.le_sum_of_mem (List.mem_map_of_mem hu)

theorem not_mem_edges_of_inDegreeFrom_eq_zero {S : List α} {u v : α} (h0 : t.inDegreeFrom S v = 0)
    (hu : u ∈ S) : v ∉ t.edges u := fun hv => by
  have hle := t.count_le_inDegreeFrom hu v
  have hpos := List.count_pos_iff.mpr hv
  omega

theorem exists_edge_of_inDegreeFrom_pos {S : List α} {v : α} (h : 0 < t.inDegreeFrom S v) :
    ∃ u ∈ S, v ∈ t.edges u := by
  by_contra hnone
  have h0 : t.inDegreeFrom S v = 0 := List.sum_eq_zero fun x hx => by
    obtain ⟨u, hu, rfl⟩ := List.mem_map.mp hx
    exact List.count_eq_zero.mpr fun hv => hnone ⟨u, hu, hv⟩
  omega

/-! ## `topological_index` -/

/-- One edge in the count of in-degrees: its target's counter goes up by one. -/
def countEdge (inDegree : α → Option Nat) (node : α) : Except TopologicalIndexAbort (α → Option Nat) := do
  let degree ← unwrap (inDegree node)
  let degree ← (Checked.add 32 degree 1).mapError .panic
  pure (Function.update inDegree node (some degree))

/-- The two first passes of `topological_index`: every node at in-degree zero, then one more for
each edge into it. -/
def initInDegree : Except TopologicalIndexAbort (α → Option Nat) :=
  t.topologyNodes.foldlM (fun inDegree key => (t.edges key).foldlM countEdge inDegree)
    (t.topologyNodes.foldl (fun inDegree key => Function.update inDegree key (some 0)) fun _ => none)

/-- One edge of the node leaving the queue: its target's in-degree drops by one, and the target
joins the back of the queue when that brings it to zero. -/
def releaseEdge (state : (α → Option Nat) × List α) (node : α) :
    Except TopologicalIndexAbort ((α → Option Nat) × List α) := do
  let degree ← unwrap (state.1 node)
  let degree ← (Checked.sub degree 1).mapError .panic
  pure (Function.update state.1 node (some degree), if degree = 0 then state.2 ++ [node] else state.2)

/-- The `while` loop of `topological_index`, on the in-degrees, the queue and the sorted keys. -/
def kahnLoop : Nat → (α → Option Nat) → List α → List α → Except TopologicalIndexAbort (List α)
  | 0, _, _, _ => .error .outOfFuel
  | _ + 1, _, [], sorted => .ok sorted
  | fuel + 1, inDegree, current :: queue, sorted => do
    let (inDegree, queue) ← (t.edges current).foldlM releaseEdge (inDegree, queue)
    kahnLoop fuel inDegree queue (sorted ++ [current])

/-- `topological_index`: Kahn's algorithm. `order` is the order in which `in_degree.iter()`
visits the keys. -/
def topologicalIndex (order : List α) : Except TopologicalIndexAbort (List α) := do
  let inDegree ← t.initInDegree
  let queue := order.filter fun key => inDegree key = some 0
  let sorted ← t.kahnLoop (t.topologyNodes.length + 1) inDegree queue []
  if sorted.length ≠ t.topologyNodes.length then .error (.err .hasCycle) else .ok sorted

/-! ### Counting the in-degrees -/

/-- The count over the edges of one key succeeds when no counter passes `u32`, and adds the
number of times each target occurs. -/
theorem foldlM_countEdge {N : List α} :
    ∀ {E : List α} {c : α → Nat}, (∀ v ∈ E, v ∈ N) → (∀ v ∈ N, c v < 2 ^ 32) →
      E.foldlM countEdge (onKeys N c) =
        if ∀ v ∈ N, c v + E.count v < 2 ^ 32 then .ok (onKeys N fun v => c v + E.count v)
        else .error (.panic "attempt to add with overflow") := by
  intro E
  induction E with
  | nil =>
    intro c _ hc
    rw [if_pos (fun v hv => by simpa using hc v hv)]
    rfl
  | cons e E ih =>
    intro c hE hc
    have he : e ∈ N := hE e List.mem_cons_self
    have hcount : ∀ v, Function.update c e (c e + 1) v + E.count v = c v + (e :: E).count v := by
      intro v
      rw [List.count_cons]
      by_cases hv : v = e
      · subst hv
        simp only [Function.update_self, beq_self_eq_true, if_true]
        omega
      · simp [Function.update_of_ne hv, Ne.symm hv]
    rw [List.foldlM_cons]
    by_cases hfit : c e + 1 < 2 ^ 32
    · have hstep : countEdge (onKeys N c) e = .ok (onKeys N (Function.update c e (c e + 1))) := by
        rw [countEdge, onKeys_of_mem he, unwrap_some, Except.ok_bind, Checked.add_of_lt hfit]
        rw [← update_onKeys he]
        rfl
      have hc' : ∀ v ∈ N, Function.update c e (c e + 1) v < 2 ^ 32 := by
        intro v hv
        by_cases hve : v = e
        · subst hve
          simpa using hfit
        · rw [Function.update_of_ne hve]
          exact hc v hv
      rw [hstep, Except.ok_bind, ih (fun v hv => hE v (List.mem_cons_of_mem e hv)) hc']
      simp only [hcount]
    · have hstep : countEdge (onKeys N c) e = .error (.panic "attempt to add with overflow") := by
        rw [countEdge, onKeys_of_mem he, unwrap_some, Except.ok_bind, Checked.add, if_neg hfit]
        rfl
      rw [hstep, Except.error_bind, if_neg]
      intro hall
      have := hall e he
      rw [List.count_cons, beq_self_eq_true, if_pos rfl] at this
      omega

/-- The counting pass over the keys of `L` adds their edges to the counters, or panics when a
counter passes `u32`. -/
theorem foldlM_countEdges (ht : t.WellFormed) :
    ∀ {L : List α} {c : α → Nat}, (∀ u ∈ L, u ∈ t.topologyNodes) →
      (∀ v ∈ t.topologyNodes, c v < 2 ^ 32) →
      L.foldlM (fun inDegree key => (t.edges key).foldlM countEdge inDegree) (onKeys t.topologyNodes c) =
        if ∀ v ∈ t.topologyNodes, c v + t.inDegreeFrom L v < 2 ^ 32 then
          .ok (onKeys t.topologyNodes fun v => c v + t.inDegreeFrom L v)
        else .error (.panic "attempt to add with overflow") := by
  intro L
  induction L with
  | nil =>
    intro c _ hc
    rw [if_pos (fun v hv => by simpa [inDegreeFrom_nil] using hc v hv)]
    rfl
  | cons u L ih =>
    intro c hL hc
    have hu : u ∈ t.topologyNodes := hL u List.mem_cons_self
    rw [List.foldlM_cons, foldlM_countEdge (ht.edges_mem u hu) hc]
    by_cases hfit : ∀ v ∈ t.topologyNodes, c v + (t.edges u).count v < 2 ^ 32
    · rw [if_pos hfit, Except.ok_bind, ih (fun w hw => hL w (List.mem_cons_of_mem u hw)) hfit]
      simp only [inDegreeFrom_cons, Nat.add_assoc]
    · rw [if_neg hfit, Except.error_bind, if_neg]
      intro hall
      apply hfit
      intro v hv
      have := hall v hv
      rw [inDegreeFrom_cons] at this
      omega

/-- The first two passes: the in-degrees, unless one of them passes `u32`. -/
theorem initInDegree_eq (ht : t.WellFormed) :
    t.initInDegree =
      if ∀ v ∈ t.topologyNodes, t.inDegree v < 2 ^ 32 then .ok (onKeys t.topologyNodes t.inDegree)
      else .error (.panic "attempt to add with overflow") := by
  have hinit : (t.topologyNodes.foldl (fun inDegree key => Function.update inDegree key (some 0))
      fun _ => none) = onKeys t.topologyNodes fun _ => 0 := by
    rw [← onKeys_nil (c := fun _ : α => 0), foldl_update_const, List.nil_append]
  rw [initInDegree, hinit, foldlM_countEdges t ht (fun u hu => hu) (fun _ _ => by decide)]
  simp only [Nat.zero_add]
  rfl

/-! ### Releasing the edges of a node -/

/-- The counters after releasing `e`: one less at `e`. -/
theorem sub_count_update_pred (D : α → Nat) (e : α) (E : List α) (v : α) :
    Function.update D e (D e - 1) v - E.count v = D v - (e :: E).count v := by
  rw [List.count_cons]
  by_cases hv : v = e
  · subst hv
    simp only [Function.update_self, beq_self_eq_true, if_true]
    omega
  · simp [hv, Ne.symm hv]

theorem count_le_update_pred {D : α → Nat} {e : α} {E : List α}
    (hle : ∀ v, (e :: E).count v ≤ D v) (v : α) : E.count v ≤ Function.update D e (D e - 1) v := by
  have := hle v
  rw [List.count_cons] at this
  by_cases hv : v = e
  · subst hv
    simp only [Function.update_self]
    simp only [beq_self_eq_true, if_true] at this
    omega
  · simp only [Function.update_of_ne hv]
    omega

/-- The keys a release of `e :: E` brings to zero: `e` by its own edge, or one that the rest of
the release brings to zero from the counters after `e`. -/
theorem mem_count_eq_cons_iff {D : α → Nat} {e : α} {E : List α}
    (hle : ∀ v, (e :: E).count v ≤ D v) (v : α) :
    (v ∈ e :: E ∧ (e :: E).count v = D v) ↔
      (v = e ∧ D e = 1) ∨ (v ∈ E ∧ E.count v = Function.update D e (D e - 1) v) := by
  rw [List.count_cons, List.mem_cons]
  by_cases hv : v = e
  · subst hv
    have hcnt := count_le_update_pred hle v
    simp only [Function.update_self, beq_self_eq_true, if_true, true_or, true_and] at hcnt ⊢
    rw [← List.count_pos_iff]
    omega
  · simp [hv, Ne.symm hv]

/-- Releasing the edges `E` lowers each counter by the number of times its key occurs, and queues,
in release order and once each, the keys whose counter reaches zero. -/
theorem foldlM_releaseEdge {N : List α} :
    ∀ {E : List α} {D : α → Nat} (queue : List α), (∀ v ∈ E, v ∈ N) → (∀ v, E.count v ≤ D v) →
      ∃ added, E.foldlM releaseEdge (onKeys N D, queue) =
          .ok (onKeys N fun v => D v - E.count v, queue ++ added) ∧
        added.Nodup ∧ ∀ v, v ∈ added ↔ v ∈ E ∧ E.count v = D v := by
  intro E
  induction E with
  | nil =>
    intro D queue _ _
    refine ⟨[], ?_, List.nodup_nil, fun v => by simp⟩
    simp only [List.count_nil, Nat.sub_zero, List.append_nil]
    rfl
  | cons e E ih =>
    intro D queue hE hle
    have he : e ∈ N := hE e List.mem_cons_self
    have hpos : 1 ≤ D e := by
      have := hle e
      rw [List.count_cons, beq_self_eq_true, if_pos rfl] at this
      omega
    -- the counters after the first edge
    let D1 := Function.update D e (D e - 1)
    have hstep : releaseEdge (onKeys N D, queue) e =
        .ok (onKeys N D1, if D e - 1 = 0 then queue ++ [e] else queue) := by
      rw [releaseEdge]
      simp only [onKeys_of_mem he, unwrap_some, Except.ok_bind, Checked.sub_of_le hpos]
      rw [← update_onKeys he]
      rfl
    obtain ⟨added, hrun, hnd, hmem⟩ := ih (D := D1) (if D e - 1 = 0 then queue ++ [e] else queue)
      (fun v hv => hE v (List.mem_cons_of_mem e hv)) (count_le_update_pred hle)
    rw [List.foldlM_cons, hstep, Except.ok_bind, hrun]
    simp only [D1, sub_count_update_pred]
    by_cases hone : D e = 1
    · -- the first edge brings its target to zero
      have he' : e ∉ added := fun h => by
        obtain ⟨heE, hcnt⟩ := (hmem e).mp h
        have := List.count_pos_iff.mpr heE
        simp only [D1, Function.update_self] at hcnt
        omega
      refine ⟨e :: added, by simp [hone], List.nodup_cons.mpr ⟨he', hnd⟩, fun v => ?_⟩
      rw [mem_count_eq_cons_iff hle, List.mem_cons, hmem]
      constructor
      · rintro (rfl | h)
        · exact .inl ⟨rfl, hone⟩
        · exact .inr h
      · rintro (⟨rfl, -⟩ | h)
        · exact .inl rfl
        · exact .inr h
    · refine ⟨added, by simp [show D e - 1 ≠ 0 by omega], hnd, fun v => ?_⟩
      rw [mem_count_eq_cons_iff hle, hmem]
      simp [hone, D1]

/-! ### The invariant of the loop -/

/-- The keys not sorted yet. -/
def unsorted (sorted : List α) : List α :=
  t.topologyNodes.filter fun v => v ∉ sorted

theorem mem_unsorted {sorted : List α} {v : α} :
    v ∈ t.unsorted sorted ↔ v ∈ t.topologyNodes ∧ v ∉ sorted := by
  simp [unsorted]

theorem unsorted_nil : t.unsorted [] = t.topologyNodes := by
  simp [unsorted]

theorem unsorted_concat (hnd : t.topologyNodes.Nodup) (sorted : List α) (c : α) :
    t.unsorted (sorted ++ [c]) = (t.unsorted sorted).erase c := by
  rw [unsorted, unsorted, (hnd.filter _).erase_eq_filter, List.filter_filter]
  apply List.filter_congr
  intro x _
  by_cases hx : x = c <;> simp [hx]

theorem inDegreeFrom_unsorted_concat (hnd : t.topologyNodes.Nodup) {sorted : List α} {c : α}
    (hc : c ∈ t.unsorted sorted) (v : α) :
    t.inDegreeFrom (t.unsorted (sorted ++ [c])) v + (t.edges c).count v =
      t.inDegreeFrom (t.unsorted sorted) v := by
  rw [t.unsorted_concat hnd, inDegreeFrom, inDegreeFrom,
    ← List.sum_map_erase (fun u => (t.edges u).count v) hc]
  omega

theorem length_unsorted_concat (hnd : t.topologyNodes.Nodup) {sorted : List α} {c : α}
    (hc : c ∈ t.unsorted sorted) :
    (t.unsorted (sorted ++ [c])).length + 1 = (t.unsorted sorted).length := by
  rw [t.unsorted_concat hnd, List.length_erase_of_mem hc]
  have := List.length_pos_of_mem hc
  omega

/-- The state of Kahn's loop: the counters hold the in-degrees from the keys not sorted yet, the
queue holds those of them at zero, and the sorted keys are distinct nodes, ordered forward and
closed under predecessors. -/
structure KahnInv (inDegree : α → Option Nat) (queue sorted : List α) : Prop where
  inDegree_eq : inDegree = onKeys t.topologyNodes (t.inDegreeFrom (t.unsorted sorted))
  queue_nodup : queue.Nodup
  mem_queue : ∀ v, v ∈ queue ↔ v ∈ t.unsorted sorted ∧ t.inDegreeFrom (t.unsorted sorted) v = 0
  sorted_nodup : sorted.Nodup
  sorted_mem : ∀ v ∈ sorted, v ∈ t.topologyNodes
  forward : Cycles.Forward t.Edge sorted
  closed : ∀ v ∈ sorted, ∀ u, t.Edge u v → u ∈ sorted

/-- The queue the loop starts from: the keys at in-degree zero, in map order. -/
theorem kahnInv_init (ht : t.WellFormed) {order : List α} (horder : order.Perm t.topologyNodes) :
    t.KahnInv (onKeys t.topologyNodes t.inDegree)
      (order.filter fun key => onKeys t.topologyNodes t.inDegree key = some 0) [] where
  inDegree_eq := by rw [unsorted_nil]; rfl
  queue_nodup := (horder.nodup_iff.mpr ht.nodup).filter _
  mem_queue := by
    intro v
    rw [List.mem_filter, horder.mem_iff, unsorted_nil, decide_eq_true_eq]
    constructor
    · rintro ⟨hv, h0⟩
      rw [onKeys_of_mem hv, Option.some_inj] at h0
      exact ⟨hv, h0⟩
    · rintro ⟨hv, h0⟩
      rw [onKeys_of_mem hv]
      exact ⟨hv, congrArg some h0⟩
  sorted_nodup := List.nodup_nil
  sorted_mem := fun _ hv => absurd hv List.not_mem_nil
  forward := Cycles.forward_nil
  closed := fun _ hv => absurd hv List.not_mem_nil

/-- One pass of the loop: the front key is sorted, and its edges are released. -/
theorem KahnInv.release (ht : t.WellFormed) {inDegree : α → Option Nat} {c : α} {queue sorted : List α}
    (h : t.KahnInv inDegree (c :: queue) sorted) :
    ∃ inDegree' queue', (t.edges c).foldlM releaseEdge (inDegree, queue) = .ok (inDegree', queue') ∧
      t.KahnInv inDegree' queue' (sorted ++ [c]) := by
  obtain ⟨hcU, hc0⟩ := (h.mem_queue c).mp List.mem_cons_self
  obtain ⟨hcN, hcs⟩ := t.mem_unsorted.mp hcU
  obtain ⟨hcq, hqnd⟩ := List.nodup_cons.mp h.queue_nodup
  obtain ⟨added, hrun, hnd, hmem⟩ := foldlM_releaseEdge queue (ht.edges_mem c hcN)
    (fun v => t.count_le_inDegreeFrom hcU v)
  have hD' : ∀ v, t.inDegreeFrom (t.unsorted (sorted ++ [c])) v =
      t.inDegreeFrom (t.unsorted sorted) v - (t.edges c).count v := fun v => by
    have := t.inDegreeFrom_unsorted_concat ht.nodup hcU v
    omega
  -- a queued key has no edge from `c`, and a released one is neither sorted nor `c`
  have hq : ∀ v ∈ queue, v ∈ t.unsorted sorted ∧ t.inDegreeFrom (t.unsorted sorted) v = 0 :=
    fun v hv => (h.mem_queue v).mp (List.mem_cons_of_mem c hv)
  have hadded : ∀ v ∈ added, v ∈ t.unsorted (sorted ++ [c]) := by
    intro v hv
    obtain ⟨hvE, hcnt⟩ := (hmem v).mp hv
    have hvN := ht.edges_mem c hcN v hvE
    have hpos := List.count_pos_iff.mpr hvE
    refine t.mem_unsorted.mpr ⟨hvN, fun hvs => ?_⟩
    rcases List.mem_append.mp hvs with hvs | hvc
    · exact hcs (h.closed v hvs c ⟨hcN, hvE⟩)
    · rw [List.mem_singleton.mp hvc] at hcnt hpos
      omega
  refine ⟨_, _, h.inDegree_eq ▸ hrun, ?_⟩
  constructor
  · exact congrArg (onKeys t.topologyNodes) (funext fun v => (hD' v).symm)
  · refine List.nodup_append.mpr ⟨hqnd, hnd, fun a ha b hb hab => ?_⟩
    subst hab
    exact t.not_mem_edges_of_inDegreeFrom_eq_zero (hq a ha).2 hcU ((hmem a).mp hb).1
  · intro v
    rw [List.mem_append, hD']
    constructor
    · rintro (hv | hv)
      · obtain ⟨hvU, hv0⟩ := hq v hv
        have hvc : v ≠ c := fun hvc => hcq (hvc ▸ hv)
        refine ⟨t.mem_unsorted.mpr ⟨(t.mem_unsorted.mp hvU).1, ?_⟩, by omega⟩
        simpa [hvc] using (t.mem_unsorted.mp hvU).2
      · exact ⟨hadded v hv, by rw [((hmem v).mp hv).2]; omega⟩
    · rintro ⟨hvU, hv0⟩
      obtain ⟨hvN, hvs⟩ := t.mem_unsorted.mp hvU
      have hvsc : v ∉ sorted ∧ v ≠ c := by simpa using hvs
      by_cases hzero : t.inDegreeFrom (t.unsorted sorted) v = 0
      · exact .inl (List.mem_of_ne_of_mem hvsc.2
          ((h.mem_queue v).mpr ⟨t.mem_unsorted.mpr ⟨hvN, hvsc.1⟩, hzero⟩))
      · have hle := t.count_le_inDegreeFrom hcU v
        have hvE : v ∈ t.edges c := List.count_pos_iff.mp (by omega)
        exact .inr ((hmem v).mpr ⟨hvE, by omega⟩)
  · exact nodup_append_singleton hcs h.sorted_nodup
  · intro v hv
    rcases List.mem_append.mp hv with hv | hv
    · exact h.sorted_mem v hv
    · rw [List.mem_singleton.mp hv]
      exact hcN
  · exact h.forward.concat (fun b hb hcb => hcs (h.closed b hb c hcb))
      (fun hcc => t.not_mem_edges_of_inDegreeFrom_eq_zero hc0 hcU hcc.2)
  · intro v hv u huv
    rcases List.mem_append.mp hv with hv | hv
    · exact List.mem_append_left _ (h.closed v hv u huv)
    · rw [List.mem_singleton.mp hv] at huv
      by_contra hu
      have huU : u ∈ t.unsorted sorted := t.mem_unsorted.mpr ⟨huv.1, fun hus => hu (List.mem_append_left _ hus)⟩
      exact t.not_mem_edges_of_inDegreeFrom_eq_zero hc0 huU huv.2

theorem kahnLoop_spec (ht : t.WellFormed) :
    ∀ {fuel : Nat} {inDegree : α → Option Nat} {queue sorted : List α},
      t.KahnInv inDegree queue sorted → (t.unsorted sorted).length < fuel →
      ∃ inDegree' sorted', t.kahnLoop fuel inDegree queue sorted = .ok sorted' ∧
        t.KahnInv inDegree' [] sorted' := by
  intro fuel
  induction fuel with
  | zero => intro _ _ _ _ hlen; omega
  | succ fuel ih =>
    intro inDegree queue sorted h hlen
    cases queue with
    | nil => exact ⟨inDegree, sorted, rfl, h⟩
    | cons c queue =>
      obtain ⟨inDegree', queue', hrel, h'⟩ := h.release t ht
      have hcU := ((h.mem_queue c).mp List.mem_cons_self).1
      have hshrink := t.length_unsorted_concat ht.nodup hcU
      obtain ⟨inDegree'', sorted', hrun, hinv⟩ := ih h' (by omega)
      refine ⟨inDegree'', sorted', ?_, hinv⟩
      rw [kahnLoop, hrel, Except.ok_bind]
      exact hrun

/-- A pass of the loop that succeeds released the front key's edges and ran on. -/
theorem kahnLoop_succ_cons {fuel : Nat} {inDegree : α → Option Nat} {current : α}
    {queue sorted sorted' : List α}
    (h : t.kahnLoop (fuel + 1) inDegree (current :: queue) sorted = .ok sorted') :
    ∃ inDegree' queue', (t.edges current).foldlM releaseEdge (inDegree, queue) = .ok (inDegree', queue') ∧
      t.kahnLoop fuel inDegree' queue' (sorted ++ [current]) = .ok sorted' := by
  rw [kahnLoop] at h
  obtain ⟨⟨inDegree', queue'⟩, hrel, hrun⟩ := Except.bind_eq_ok.mp h
  exact ⟨inDegree', queue', hrel, hrun⟩

theorem kahnLoop_extends :
    ∀ {fuel : Nat} {inDegree : α → Option Nat} {queue sorted sorted' : List α},
      t.kahnLoop fuel inDegree queue sorted = .ok sorted' → sorted <+: sorted' := by
  intro fuel
  induction fuel with
  | zero => intro _ _ _ _ h; cases h
  | succ fuel ih =>
    intro inDegree queue sorted sorted' h
    cases queue with
    | nil =>
      cases h
      exact List.prefix_refl _
    | cons current queue =>
      obtain ⟨_, _, -, hrun⟩ := t.kahnLoop_succ_cons h
      exact (List.prefix_append sorted [current]).trans (ih hrun)

theorem KahnInv.perm {degrees : α → Option Nat} {sorted : List α} (h : t.KahnInv degrees [] sorted)
    (hlen : sorted.length = t.topologyNodes.length) : sorted.Perm t.topologyNodes :=
  (h.sorted_nodup.subperm fun v hv => h.sorted_mem v hv).perm_of_length_le (le_of_eq hlen.symm)

/-- Once the queue is empty, every key left unsorted has an edge from another one, or it would
have been queued. -/
theorem KahnInv.exists_pred {degrees : α → Option Nat} {sorted : List α}
    (h : t.KahnInv degrees [] sorted) {v : α} (hv : v ∈ t.unsorted sorted) :
    ∃ u ∈ t.unsorted sorted, t.Edge u v := by
  have hpos : 0 < t.inDegreeFrom (t.unsorted sorted) v := by
    by_contra h0
    exact List.not_mem_nil ((h.mem_queue v).mpr ⟨hv, by omega⟩)
  obtain ⟨u, hu, hvu⟩ := t.exists_edge_of_inDegreeFrom_pos hpos
  exact ⟨u, hu, (t.mem_unsorted.mp hu).1, hvu⟩

theorem KahnInv.exists_cycle (ht : t.WellFormed) {degrees : α → Option Nat} {sorted : List α}
    (h : t.KahnInv degrees [] sorted)
    (hlen : sorted.length ≠ t.topologyNodes.length) : ∃ x, Relation.TransGen t.Edge x x := by
  have hU : t.unsorted sorted ≠ [] := by
    intro hU
    apply hlen
    have hall : ∀ v ∈ t.topologyNodes, v ∈ sorted := fun v hv => by
      by_contra hvs
      have hvU := t.mem_unsorted.mpr ⟨hv, hvs⟩
      rw [hU] at hvU
      exact List.not_mem_nil hvU
    exact ((List.perm_ext_iff_of_nodup h.sorted_nodup ht.nodup).mpr
      fun v => ⟨h.sorted_mem v, hall v⟩).length_eq
  exact Cycles.exists_cycle_of_forall_pred hU fun v hv => h.exists_pred t hv

/-- A finished loop sorted exactly the keys that no cycle reaches: a key reached from a cycle
waits for a key of the cycle, and an unsorted key is reached from a cycle among the unsorted. -/
theorem KahnInv.mem_sorted_iff {degrees : α → Option Nat} {sorted : List α}
    (h : t.KahnInv degrees [] sorted) {v : α} (hv : v ∈ t.topologyNodes) :
    v ∈ sorted ↔ ¬ ∃ x, Relation.TransGen t.Edge x x ∧ Relation.ReflTransGen t.Edge x v := by
  constructor
  · rintro hvs ⟨x, hxx, hxv⟩
    have hxs := Cycles.mem_of_reflTransGen h.closed hxv hvs
    exact h.forward.not_transGen_of_closed h.closed hxs hxx
  · intro hnone
    by_contra hvs
    exact hnone (Cycles.exists_cycle_reaching (fun u hu => h.exists_pred t hu)
      (t.mem_unsorted.mpr ⟨hv, hvs⟩))

/-- Kahn's algorithm on a graph whose in-degrees fit in `u32`: a forward permutation of the
nodes, or the cycle error on a graph with a cycle. -/
theorem topologicalIndex_spec (ht : t.WellFormed) (hdeg : ∀ v ∈ t.topologyNodes, t.inDegree v < 2 ^ 32)
    {order : List α} (horder : order.Perm t.topologyNodes) :
    (∃ sorted, t.topologicalIndex order = .ok sorted ∧ sorted.Perm t.topologyNodes ∧
        Cycles.Forward t.Edge sorted) ∨
      (t.topologicalIndex order = .error (.err .hasCycle) ∧ ∃ x, Relation.TransGen t.Edge x x) := by
  have hfuel : (t.unsorted []).length < t.topologyNodes.length + 1 := by
    rw [unsorted_nil]
    omega
  obtain ⟨inDegree', sorted, hrun, hinv⟩ := t.kahnLoop_spec ht (t.kahnInv_init ht horder) hfuel
  rw [topologicalIndex, initInDegree_eq t ht, if_pos hdeg, Except.ok_bind]
  simp only [hrun, Except.ok_bind]
  by_cases hlen : sorted.length = t.topologyNodes.length
  · exact .inl ⟨sorted, by simp [hlen], hinv.perm t hlen, hinv.forward⟩
  · exact .inr ⟨by simp [hlen], hinv.exists_cycle t ht hlen⟩

/-! ## What both algorithms compute -/

/-- A result of a topological index computation as the trait means it: `Ok` exactly when the graph
has no cycle, the cycle error otherwise, and an `Ok` order is a permutation of the nodes along which
every edge goes forward and which `check_topological_order` accepts. -/
structure IndexesTopologically (result : Except TopologicalIndexAbort (List α)) : Prop where
  ok_iff : (∃ sorted, result = .ok sorted) ↔ t.Acyclic
  error_of_not_acyclic : ¬ t.Acyclic → result = .error (.err .hasCycle)
  ok_sorted : ∀ sorted, result = .ok sorted → sorted.Perm t.topologyNodes ∧
    (∀ u v, t.Edge u v → sorted.idxOf u < sorted.idxOf v) ∧ t.checkTopologicalOrder sorted = .ok ()

/-- A forward permutation of the nodes puts every edge forward and passes the check. -/
theorem forward_sorted (ht : t.WellFormed) {sorted : List α} (hperm : sorted.Perm t.topologyNodes)
    (hfwd : Cycles.Forward t.Edge sorted) :
    (∀ u v, t.Edge u v → sorted.idxOf u < sorted.idxOf v) ∧ t.checkTopologicalOrder sorted = .ok () := by
  have hidx : ∀ u v, t.Edge u v → sorted.idxOf u < sorted.idxOf v := fun u v huv =>
    hfwd.idxOf_lt (hperm.mem_iff.mpr huv.1) (hperm.mem_iff.mpr (ht.edges_mem u huv.1 v huv.2)) huv
  exact ⟨hidx, (t.checkTopologicalOrder_eq_ok ht sorted).mpr ⟨hperm, fun u v huv => (hidx u v huv).le⟩⟩

/-- A computation that returns a forward permutation of the nodes, or the cycle error on a graph
with a cycle, computes a topological index. -/
theorem indexesTopologically_of (ht : t.WellFormed) {result : Except TopologicalIndexAbort (List α)}
    (h : (∃ sorted, result = .ok sorted ∧ sorted.Perm t.topologyNodes ∧ Cycles.Forward t.Edge sorted) ∨
      (result = .error (.err .hasCycle) ∧ ∃ x, Relation.TransGen t.Edge x x)) :
    t.IndexesTopologically result := by
  -- a forward permutation rules out a cycle
  have hacyclic : ∀ sorted, sorted.Perm t.topologyNodes → Cycles.Forward t.Edge sorted → t.Acyclic :=
    fun sorted hperm hfwd => hfwd.not_transGen fun a b hab =>
      ⟨hperm.mem_iff.mpr hab.1, hperm.mem_iff.mpr (ht.edges_mem a hab.1 b hab.2)⟩
  rcases h with ⟨sorted, hres, hperm, hfwd⟩ | ⟨hres, x, hx⟩
  · refine ⟨⟨fun _ => hacyclic sorted hperm hfwd, fun _ => ⟨sorted, hres⟩⟩,
      fun hcyc => absurd (hacyclic sorted hperm hfwd) hcyc, ?_⟩
    intro sorted' hres'
    rw [hres, Except.ok.injEq] at hres'
    subst hres'
    exact ⟨hperm, t.forward_sorted ht hperm hfwd⟩
  · have hnot : ¬ t.Acyclic := fun hac => hac x hx
    refine ⟨⟨fun ⟨_, hok⟩ => (by rw [hres] at hok; cases hok), fun hac => absurd hac hnot⟩,
      fun _ => hres, ?_⟩
    intro sorted hok
    rw [hres] at hok
    cases hok

end TopologicalIndex

/-! ## A graph whose in-degree passes `u32` -/

/-- Nodes `1, …, n`, each with an edge to node `0`, which has none. -/
def fanIn (n : Nat) : TopologicalIndex Nat :=
  ⟨List.range (n + 1), fun k => if k = 0 then none else some [0]⟩

theorem fanIn_edges (n k : Nat) : (fanIn n).edges k = if k = 0 then [] else [0] := by
  by_cases hk : k = 0 <;> simp [fanIn, TopologicalIndex.edges, hk]

theorem fanIn_edge {n u v : Nat} (h : (fanIn n).Edge u v) : u ≠ 0 ∧ v = 0 := by
  have hv := h.2
  rw [fanIn_edges] at hv
  by_cases hu : u = 0
  · simp [hu] at hv
  · simp only [hu, if_false, List.mem_singleton] at hv
    exact ⟨hu, hv⟩

theorem fanIn_wellFormed (n : Nat) : (fanIn n).WellFormed where
  nodup := List.nodup_range
  edges_mem := fun u hu v hv => by
    have := (fanIn_edge ⟨hu, hv⟩).2
    subst this
    exact List.mem_range.mpr (Nat.succ_pos n)

theorem fanIn_acyclic (n : Nat) : (fanIn n).Acyclic := by
  intro x hx
  obtain ⟨b, hxb, -⟩ := Relation.TransGen.head'_iff.mp hx
  obtain ⟨c, -, hcx⟩ := Relation.TransGen.tail'_iff.mp hx
  exact (fanIn_edge hxb).1 (fanIn_edge hcx).2

theorem inDegreeFrom_fanIn (n : Nat) : ∀ m, (fanIn n).inDegreeFrom (List.range (m + 1)) 0 = m := by
  intro m
  induction m with
  | zero => simp [TopologicalIndex.inDegreeFrom, fanIn_edges]
  | succ m ih =>
    have ih' : ((List.range (m + 1)).map fun u => ((fanIn n).edges u).count 0).sum = m := ih
    rw [List.range_succ, TopologicalIndex.inDegreeFrom, List.map_append, List.sum_append, ih']
    simp [fanIn_edges]

theorem inDegree_fanIn_zero (n : Nat) : (fanIn n).inDegree 0 = n :=
  inDegreeFrom_fanIn n n

theorem zero_mem_fanIn (n : Nat) : 0 ∈ (fanIn n).topologyNodes :=
  List.mem_range.mpr (Nat.succ_pos n)

/-- From `2 ^ 32` nodes on, the count of node `0`'s in-degree overflows. -/
theorem topologicalIndex_fanIn {n : Nat} (hn : 2 ^ 32 ≤ n) (order : List Nat) :
    (fanIn n).topologicalIndex order = .error (.panic "attempt to add with overflow") := by
  rw [TopologicalIndex.topologicalIndex, TopologicalIndex.initInDegree_eq _ (fanIn_wellFormed n), if_neg,
    Except.error_bind]
  intro hall
  have h0 := hall 0 (zero_mem_fanIn n)
  rw [inDegree_fanIn_zero] at h0
  omega

/-- Kahn's algorithm panics on the acyclic graph of `2 ^ 32` edges into one node: the `u32`
in-degree of node `0` overflows, whatever order the keys are visited in. -/
theorem topologicalIndex_fanIn_overflows :
    (fanIn (2 ^ 32)).WellFormed ∧ (fanIn (2 ^ 32)).Acyclic ∧
      ∀ order, (fanIn (2 ^ 32)).topologicalIndex order = .error (.panic "attempt to add with overflow") :=
  ⟨fanIn_wellFormed _, fanIn_acyclic _, topologicalIndex_fanIn (le_refl _)⟩

end Vecno.Mining
