import Vecno.Consensus.Tx
import Vecno.Mining.TopologicalIndex

/-!
# Topological sort of a batch of transactions

`mining/src/model/topological_sort.rs`: Kahn's algorithm over the positions of a batch and its
two iterators. The `HashSet` iteration order is a parameter (`IteratesEdges`); the loop refines
`topological_index` on `sortGraph`, whose invariant carries over.
-/

namespace Vecno.Mining

namespace TopologicalSort

open TopologicalIndex

variable {T : Type} (asRef : T → Transaction)

/-! ## The model -/

/-- `index`: each transaction id to the position of the last transaction with that id, as the
repeated `HashMap::insert`s leave it. -/
def idIndex (txs : List T) : TransactionId → Option Nat :=
  txs.zipIdx.foldl (fun index p => Function.update index (asRef p.1).id (some p.2)) fun _ => none

/-- The edge added for one input of the transaction at `destination`: the position of the
transaction it spends from, if any, gains `destination` (`get_or_insert_with(..).insert(..)`). -/
def addEdge (index : TransactionId → Option Nat) (destination : Nat)
    (allEdges : List (Option (List Nat))) (input : TransactionInput) : List (Option (List Nat)) :=
  match index input.previousOutpoint.transactionId with
  | some origin => allEdges.modify origin fun edges => some ((edges.getD []).insert destination)
  | none => allEdges

/-- The edges added for the inputs of the transaction at `destination`. -/
def addEdges (index : TransactionId → Option Nat) (destination : Nat) (tx : Transaction)
    (allEdges : List (Option (List Nat))) : List (Option (List Nat)) :=
  tx.inputs.foldl (addEdge index destination) allEdges

/-- `all_edges`: the set of positions spending from each position. -/
def allEdges (txs : List T) : List (Option (List Nat)) :=
  txs.zipIdx.foldl (fun allEdges p => addEdges (idIndex asRef txs) p.2 (asRef p.1) allEdges)
    (List.replicate txs.length none)

/-- `in_degree[destination_idx] += 1` on the `Vec<i32>`. -/
def countDegree (inDegree : List Int) (destination : Nat) : Except String (List Int) := do
  let degree ← Checked.index inDegree destination
  Checked.set inDegree destination (← Checked.addSigned 32 degree 1)

/-- The degrees pass over the `len` positions: one more for each edge into a position. -/
def initInDegrees (len : Nat) (allEdges : List (Option (List Nat))) : Except String (List Int) :=
  (List.range len).foldlM (fun inDegree origin => do
      match ← Checked.index allEdges origin with
      | some edges => edges.foldlM countDegree inDegree
      | none => pure inDegree)
    (List.replicate len 0)

/-- The queue the loop starts from: the positions at in-degree zero, in order. -/
def initQueue (len : Nat) (inDegree : List Int) : List Nat :=
  (List.range len).filter fun destination => inDegree[destination]? = some 0

/-- One edge of the position leaving the queue: `in_degree.get_mut(..).unwrap()`, `*degree -= 1`,
and the target joins the back of the queue when that brings it to zero. -/
def releaseDegree (state : List Int × List Nat) (destination : Nat) :
    Except String (List Int × List Nat) := do
  let degree ← Checked.expect Checked.unwrapNone state.1[destination]?
  let degree ← Checked.subSigned 32 degree 1
  pure (state.1.set destination degree, if degree = 0 then state.2 ++ [destination] else state.2)

/-- The edges of the position leaving the queue, when it has a set of them. -/
def releaseEdges (allEdges : List (Option (List Nat))) (current : Nat)
    (state : List Int × List Nat) : Except String (List Int × List Nat) := do
  match ← Checked.index allEdges current with
  | some edges => edges.foldlM releaseDegree state
  | none => pure state

/-- The `while` loop of `topological_sort`, on the in-degrees, the queue and the sorted
transactions. -/
def sortLoop (txs : List T) (allEdges : List (Option (List Nat))) :
    Nat → List Int → List Nat → List T → Except TopologicalIndexAbort (List T)
  | 0, _, _, _ => .error .outOfFuel
  | _ + 1, _, [], sorted => .ok sorted
  | fuel + 1, inDegree, current :: queue, sorted => do
    let (inDegree, queue) ← (releaseEdges allEdges current (inDegree, queue)).mapError .panic
    let tx ← (Checked.index txs current).mapError .panic
    sortLoop txs allEdges fuel inDegree queue (sorted ++ [tx])

/-- The message of the assertion closing `topological_sort`. -/
def noCycleMessage : String :=
  "by definition, cryptographically no cycle can exist in a DAG of transactions"

/-- `topological_sort`, with the edge sets iterated as `allEdges` lists them. -/
def topologicalSortWith (txs : List T) (allEdges : List (Option (List Nat))) :
    Except TopologicalIndexAbort (List T) := do
  let inDegree ← (initInDegrees txs.length allEdges).mapError .panic
  let sorted ← sortLoop txs allEdges (txs.length + 1) inDegree (initQueue txs.length inDegree) []
  if sorted.length = txs.length then .ok sorted
  else .error (.panic (Checked.assertEqFailedWith noCycleMessage sorted.length txs.length))

def topologicalSort (txs : List T) : Except TopologicalIndexAbort (List T) :=
  topologicalSortWith txs (allEdges asRef txs)

/-- `size_hint` of both iterators: the number of items yielded, and the number of transactions
not yielded yet. -/
def sizeHint (len yieldsCount : Nat) : Nat × Option Nat :=
  (yieldsCount, some (len - min yieldsCount len))

/-- Running an iterator to its end, as a `for` loop or `collect` does: `next` until it yields
`None`. -/
def collect {σ : Type} (next : σ → Except String (Option T × σ)) :
    Nat → σ → List T → Except TopologicalIndexAbort (List T)
  | 0, _, _ => .error .outOfFuel
  | fuel + 1, it, yielded => do
    match ← (next it).mapError .panic with
    | (some tx, it) => collect next fuel it (yielded ++ [tx])
    | (none, _) => .ok yielded

end TopologicalSort

/-- `TopologicalIter`: the borrowed transactions, the in-degrees, the edges, the queue and the
number of items yielded. -/
structure TopologicalIter (T : Type) where
  transactions : List T
  inDegree : List Int
  edges : List (Option (List Nat))
  queue : List Nat
  yieldsCount : Nat

namespace TopologicalIter

open TopologicalSort

variable {T : Type} (asRef : T → Transaction)

/-- `TopologicalIter::new`, with the edge sets iterated as `edges` lists them. -/
def newWith (transactions : List T) (edges : List (Option (List Nat))) :
    Except String (TopologicalIter T) := do
  let inDegree ← initInDegrees transactions.length edges
  pure ⟨transactions, inDegree, edges, initQueue transactions.length inDegree, 0⟩

def new (transactions : List T) : Except String (TopologicalIter T) :=
  newWith transactions (allEdges asRef transactions)

/-- `Iterator::next` of `TopologicalIter`: the front of the queue, after releasing its edges. -/
def next (it : TopologicalIter T) : Except String (Option T × TopologicalIter T) :=
  match it.queue with
  | [] => .ok (none, it)
  | current :: queue => do
    let (inDegree, queue) ← releaseEdges it.edges current (it.inDegree, queue)
    let yieldsCount ← Checked.add 64 it.yieldsCount 1
    let tx ← Checked.index it.transactions current
    pure (some tx, { it with inDegree := inDegree, queue := queue, yieldsCount := yieldsCount })

/-- `Iterator::size_hint` of `TopologicalIter`. -/
def sizeHint (it : TopologicalIter T) : Nat × Option Nat :=
  TopologicalSort.sizeHint it.transactions.length it.yieldsCount

/-- `ExactSizeIterator::len` of `TopologicalIter`. -/
def len (it : TopologicalIter T) : Nat :=
  it.transactions.length

end TopologicalIter

/-- `TopologicalIntoIter`: the owned transactions, each taken out when it is yielded, and the
state of `TopologicalIter`. -/
structure TopologicalIntoIter (T : Type) where
  transactions : List (Option T)
  inDegree : List Int
  edges : List (Option (List Nat))
  queue : List Nat
  yieldsCount : Nat

namespace TopologicalIntoIter

open TopologicalSort

variable {T : Type} (asRef : T → Transaction)

/-- `TopologicalIntoIter::new`, with the edge sets iterated as `edges` lists them. -/
def newWith (transactions : List T) (edges : List (Option (List Nat))) :
    Except String (TopologicalIntoIter T) := do
  let inDegree ← initInDegrees transactions.length edges
  pure ⟨transactions.map some, inDegree, edges, initQueue transactions.length inDegree, 0⟩

def new (transactions : List T) : Except String (TopologicalIntoIter T) :=
  newWith transactions (allEdges asRef transactions)

/-- `Iterator::next` of `TopologicalIntoIter`: the front of the queue, after releasing its edges,
taken out of its slot (`self.transactions[current].take()`). -/
def next (it : TopologicalIntoIter T) : Except String (Option T × TopologicalIntoIter T) :=
  match it.queue with
  | [] => .ok (none, it)
  | current :: queue => do
    let (inDegree, queue) ← releaseEdges it.edges current (it.inDegree, queue)
    let yieldsCount ← Checked.add 64 it.yieldsCount 1
    let tx ← Checked.index it.transactions current
    let transactions ← Checked.set it.transactions current none
    pure (tx, ⟨transactions, inDegree, it.edges, queue, yieldsCount⟩)

/-- `Iterator::size_hint` of `TopologicalIntoIter`. -/
def sizeHint (it : TopologicalIntoIter T) : Nat × Option Nat :=
  TopologicalSort.sizeHint it.transactions.length it.yieldsCount

/-- `ExactSizeIterator::len` of `TopologicalIntoIter`. -/
def len (it : TopologicalIntoIter T) : Nat :=
  it.transactions.length

end TopologicalIntoIter


namespace TopologicalSort

open TopologicalIndex

variable {T : Type} (asRef : T → Transaction)

/-! ## The graph of positions -/

/-- `b` spends an output of `a`, both in the batch. -/
def Spends (txs : List T) (a b : T) : Prop :=
  a ∈ txs ∧ b ∈ txs ∧ ∃ input ∈ (asRef b).inputs, input.previousOutpoint.transactionId = (asRef a).id

/-- The elements of the edge set of a position, none when it has no set. -/
def edgeSet (allEdges : List (Option (List Nat))) (origin : Nat) : List Nat :=
  (allEdges[origin]?.join).getD []

/-- The graph Kahn's algorithm runs on: the positions below `len`, with their edge sets. -/
def sortGraph (len : Nat) (allEdges : List (Option (List Nat))) : TopologicalIndex Nat :=
  ⟨List.range len, fun origin => allEdges[origin]?.join⟩

@[simp] theorem sortGraph_edges (len : Nat) (allEdges : List (Option (List Nat))) (origin : Nat) :
    (sortGraph len allEdges).edges origin = edgeSet allEdges origin :=
  rfl

@[simp] theorem sortGraph_topologyNodes (len : Nat) (allEdges : List (Option (List Nat))) :
    (sortGraph len allEdges).topologyNodes = List.range len :=
  rfl

/-- `edges` iterates the sets of `allEdges`: as many entries, each listing the same elements in
some order. -/
structure IteratesEdges (allEdges edges : List (Option (List Nat))) : Prop where
  length_eq : edges.length = allEdges.length
  perm : ∀ origin, (edgeSet edges origin).Perm (edgeSet allEdges origin)

theorem iteratesEdges_refl (allEdges : List (Option (List Nat))) : IteratesEdges allEdges allEdges :=
  ⟨rfl, fun _ => List.Perm.refl _⟩

/-- The transactions at the given positions. -/
def atPositions (txs : List T) (positions : List Nat) : List T :=
  positions.filterMap (txs[·]?)

/-- The `Vec<i32>` holding the counter `c v` at each position `v` below `len`. -/
def degreesOf (len : Nat) (c : Nat → Nat) : List Int :=
  (List.range len).map fun v => (c v : Int)

/-! ### Positions and counters -/

theorem atPositions_concat (txs : List T) (positions : List Nat) {current : Nat}
    (h : current < txs.length) :
    atPositions txs (positions ++ [current]) = atPositions txs positions ++ [txs[current]] := by
  simp [atPositions, List.filterMap_append, h]

theorem length_atPositions (txs : List T) :
    ∀ {positions : List Nat}, (∀ i ∈ positions, i < txs.length) →
      (atPositions txs positions).length = positions.length := by
  intro positions
  induction positions with
  | nil => intro _; rfl
  | cons i positions ih =>
    intro h
    have hrest := ih fun j hj => h j (List.mem_cons_of_mem i hj)
    rw [atPositions] at hrest ⊢
    rw [List.filterMap_cons, List.getElem?_eq_getElem (h i List.mem_cons_self), List.length_cons,
      List.length_cons, hrest]

theorem atPositions_range (txs : List T) : atPositions txs (List.range txs.length) = txs := by
  induction txs using List.reverseRecOn with
  | nil => rfl
  | append_singleton l a ih =>
    have hprefix : (List.range l.length).filterMap (fun i => (l ++ [a])[i]?) =
        atPositions l (List.range l.length) :=
      List.filterMap_congr fun i hi => List.getElem?_append_left (List.mem_range.mp hi)
    rw [List.length_append, List.length_singleton, List.range_succ, atPositions,
      List.filterMap_append, hprefix, ih]
    simp

theorem getElem?_degreesOf (len : Nat) (c : Nat → Nat) (v : Nat) :
    (degreesOf len c)[v]? = if v < len then some (c v : Int) else none := by
  by_cases hv : v < len <;> simp [degreesOf, hv]

theorem length_degreesOf (len : Nat) (c : Nat → Nat) : (degreesOf len c).length = len := by
  simp [degreesOf]

theorem set_degreesOf {len : Nat} {c : Nat → Nat} {v : Nat} (hv : v < len) (k : Nat) :
    (degreesOf len c).set v (k : Int) = degreesOf len (Function.update c v k) := by
  apply List.ext_getElem?
  intro w
  rw [List.getElem?_set, getElem?_degreesOf, getElem?_degreesOf, length_degreesOf]
  by_cases hw : v = w
  · subst hw
    simp [hv]
  · simp [hw, Function.update_of_ne (Ne.symm hw)]

theorem replicate_eq_degreesOf (len : Nat) : List.replicate len (0 : Int) = degreesOf len fun _ => 0 := by
  simp [degreesOf, List.map_const']

/-! ### The index on ids and the edge sets -/

section Index

variable {txs : List T}

/-- With distinct ids, the index ends up sending an id to the position holding it, if any. -/
theorem foldl_update_id {P : List (T × Nat)} (hP : (P.map fun p => (asRef p.1).id).Nodup)
    (f0 : TransactionId → Option Nat) (id : TransactionId) (i : Nat) :
    P.foldl (fun index p => Function.update index (asRef p.1).id (some p.2)) f0 id = some i ↔
      (∃ p ∈ P, (asRef p.1).id = id ∧ p.2 = i) ∨ (f0 id = some i ∧ ∀ p ∈ P, (asRef p.1).id ≠ id) := by
  induction P generalizing f0 with
  | nil => simp
  | cons p P ih =>
    obtain ⟨hp, hP⟩ := List.nodup_cons.mp hP
    rw [List.foldl_cons, ih hP]
    by_cases hid : (asRef p.1).id = id
    · subst hid
      have hnot : ∀ q ∈ P, (asRef q.1).id ≠ (asRef p.1).id := fun q hq heq =>
        hp (List.mem_map.mpr ⟨q, hq, heq⟩)
      rw [Function.update_self, Option.some_inj]
      constructor
      · rintro (⟨q, hq, heq, -⟩ | ⟨rfl, -⟩)
        · exact absurd heq (hnot q hq)
        · exact .inl ⟨p, List.mem_cons_self, rfl, rfl⟩
      · rintro (⟨q, hq, heq, rfl⟩ | ⟨-, hall⟩)
        · rcases List.mem_cons.mp hq with rfl | hq
          · exact .inr ⟨rfl, hnot⟩
          · exact absurd heq (hnot q hq)
        · exact absurd rfl (hall p List.mem_cons_self)
    · simp [Function.update_of_ne (Ne.symm hid), hid]

theorem idIndex_eq_some_iff (hids : (txs.map fun tx => (asRef tx).id).Nodup)
    {id : TransactionId} {i : Nat} :
    idIndex asRef txs id = some i ↔ ∃ h : i < txs.length, (asRef txs[i]).id = id := by
  have hP : (txs.zipIdx.map fun p => (asRef p.1).id).Nodup := by
    have hmap : (txs.zipIdx.map fun p => (asRef p.1).id) = txs.map fun tx => (asRef tx).id := by
      conv_rhs => rw [← List.zipIdx_map_fst 0 txs, List.map_map]
      rfl
    rw [hmap]
    exact hids
  rw [idIndex, foldl_update_id asRef hP]
  constructor
  · rintro (⟨⟨a, j⟩, hmem, hid, rfl⟩ | ⟨hnone, _⟩)
    · obtain ⟨hj, hget⟩ := List.getElem?_eq_some_iff.mp (List.mem_zipIdx_iff_getElem?.mp hmem)
      exact ⟨hj, by rw [hget]; exact hid⟩
    · cases hnone
  · rintro ⟨hi, hid⟩
    exact .inl ⟨(txs[i], i), List.mem_zipIdx_iff_getElem?.mpr (List.getElem?_eq_getElem hi), hid, rfl⟩

/-- The position of a transaction of the batch, through the index on ids. -/
def position (txs : List T) (a : T) : Nat :=
  (idIndex asRef txs (asRef a).id).getD 0

theorem position_spec (hids : (txs.map fun tx => (asRef tx).id).Nodup) {a : T} (ha : a ∈ txs) :
    ∃ h : position asRef txs a < txs.length, txs[position asRef txs a] = a := by
  obtain ⟨i, hi, rfl⟩ := List.getElem_of_mem ha
  have hidx : idIndex asRef txs (asRef txs[i]).id = some i :=
    (idIndex_eq_some_iff asRef hids).mpr ⟨hi, rfl⟩
  have hpos : position asRef txs txs[i] = i := by
    rw [position, hidx, Option.getD_some]
  simp only [hpos]
  exact ⟨hi, trivial⟩

theorem mem_edgeSet_modify {E : List (Option (List Nat))} {o d origin j : Nat} :
    j ∈ edgeSet (E.modify o fun edges => some ((edges.getD []).insert d)) origin ↔
      j ∈ edgeSet E origin ∨ (o = origin ∧ origin < E.length ∧ j = d) := by
  rw [edgeSet, edgeSet, List.getElem?_modify]
  by_cases h : origin < E.length
  · rw [List.getElem?_eq_getElem h]
    by_cases ho : o = origin <;> simp [ho, h, List.mem_insert_iff, or_comm]
  · rw [List.getElem?_eq_none (by omega)]
    simp [h]

theorem nodup_edgeSet_modify {E : List (Option (List Nat))} {o d origin : Nat}
    (h : (edgeSet E origin).Nodup) :
    (edgeSet (E.modify o fun edges => some ((edges.getD []).insert d)) origin).Nodup := by
  rw [edgeSet, List.getElem?_modify]
  rw [edgeSet] at h
  cases he : E[origin]? with
  | none => simp
  | some e =>
    rw [he] at h
    by_cases ho : o = origin
    · simpa [ho] using h.insert
    · simpa [ho] using h

theorem length_addEdges (index : TransactionId → Option Nat) (d : Nat) (tx : Transaction) :
    ∀ E : List (Option (List Nat)), (addEdges index d tx E).length = E.length := by
  simp only [addEdges]
  induction tx.inputs with
  | nil => intro E; rfl
  | cons input inputs ih =>
    intro E
    rw [List.foldl_cons, ih, addEdge]
    split <;> simp

theorem mem_edgeSet_addEdges {index : TransactionId → Option Nat} {d : Nat} {tx : Transaction}
    {origin j : Nat} :
    ∀ {E : List (Option (List Nat))}, (∀ id o, index id = some o → o < E.length) →
      (j ∈ edgeSet (addEdges index d tx E) origin ↔ j ∈ edgeSet E origin ∨
        (j = d ∧ ∃ input ∈ tx.inputs, index input.previousOutpoint.transactionId = some origin)) := by
  simp only [addEdges]
  induction tx.inputs with
  | nil => intro E _; simp
  | cons input inputs ih =>
    intro E hidx
    have hlen : (addEdge index d E input).length = E.length := by
      rw [addEdge]
      split <;> simp
    rw [List.foldl_cons, ih (hlen ▸ hidx), addEdge]
    split
    · rename_i o ho
      rw [mem_edgeSet_modify]
      have hlt := hidx _ _ ho
      constructor
      · rintro ((hj | ⟨rfl, -, rfl⟩) | ⟨rfl, input', hin, hio⟩)
        · exact .inl hj
        · exact .inr ⟨rfl, input, List.mem_cons_self, ho⟩
        · exact .inr ⟨rfl, input', List.mem_cons_of_mem _ hin, hio⟩
      · rintro (hj | ⟨rfl, input', hin, hio⟩)
        · exact .inl (.inl hj)
        · rcases List.mem_cons.mp hin with rfl | hin
          · rw [ho, Option.some_inj] at hio
            exact .inl (.inr ⟨hio, hio ▸ hlt, rfl⟩)
          · exact .inr ⟨rfl, input', hin, hio⟩
    · rename_i hnone
      constructor
      · rintro (hj | ⟨rfl, input', hin, hio⟩)
        · exact .inl hj
        · exact .inr ⟨rfl, input', List.mem_cons_of_mem _ hin, hio⟩
      · rintro (hj | ⟨rfl, input', hin, hio⟩)
        · exact .inl hj
        · rcases List.mem_cons.mp hin with rfl | hin
          · rw [hnone] at hio
            cases hio
          · exact .inr ⟨rfl, input', hin, hio⟩

theorem nodup_edgeSet_addEdges (index : TransactionId → Option Nat) (d : Nat) (tx : Transaction) :
    ∀ {E : List (Option (List Nat))}, (∀ o, (edgeSet E o).Nodup) →
      ∀ o, (edgeSet (addEdges index d tx E) o).Nodup := by
  simp only [addEdges]
  induction tx.inputs with
  | nil => exact fun h => h
  | cons input inputs ih =>
    intro E h
    rw [List.foldl_cons]
    apply ih
    intro o
    rw [addEdge]
    split
    · exact nodup_edgeSet_modify (h o)
    · exact h o

theorem length_foldl_addEdges (index : TransactionId → Option Nat) :
    ∀ (P : List (T × Nat)) (E : List (Option (List Nat))),
      (P.foldl (fun E p => addEdges index p.2 (asRef p.1) E) E).length = E.length := by
  intro P
  induction P with
  | nil => intro E; rfl
  | cons p P ih => intro E; rw [List.foldl_cons, ih, length_addEdges]

theorem nodup_foldl_addEdges (index : TransactionId → Option Nat) :
    ∀ (P : List (T × Nat)) {E : List (Option (List Nat))}, (∀ o, (edgeSet E o).Nodup) →
      ∀ o, (edgeSet (P.foldl (fun E p => addEdges index p.2 (asRef p.1) E) E) o).Nodup := by
  intro P
  induction P with
  | nil => exact fun h => h
  | cons p P ih =>
    intro E h
    exact ih (nodup_edgeSet_addEdges index p.2 (asRef p.1) h)

/-- The pass over the transactions of the batch adds, to the edge set of `origin`, the position of
each transaction with an input the index sends to `origin`. -/
theorem mem_edgeSet_foldl_addEdges {index : TransactionId → Option Nat} (origin j : Nat) :
    ∀ (P : List (T × Nat)) {E : List (Option (List Nat))}, (∀ id o, index id = some o → o < E.length) →
      (j ∈ edgeSet (P.foldl (fun E p => addEdges index p.2 (asRef p.1) E) E) origin ↔
        j ∈ edgeSet E origin ∨ ∃ p ∈ P, p.2 = j ∧
          ∃ input ∈ (asRef p.1).inputs, index input.previousOutpoint.transactionId = some origin) := by
  intro P
  induction P with
  | nil => intro E _; simp
  | cons p P ih =>
    intro E hidx
    have hlen := length_addEdges index p.2 (asRef p.1) E
    rw [List.foldl_cons, ih (hlen ▸ hidx), mem_edgeSet_addEdges hidx]
    constructor
    · rintro ((hj | ⟨rfl, hin⟩) | ⟨q, hq, hqj⟩)
      · exact .inl hj
      · exact .inr ⟨p, List.mem_cons_self, rfl, hin⟩
      · exact .inr ⟨q, List.mem_cons_of_mem p hq, hqj⟩
    · rintro (hj | ⟨q, hq, hqj⟩)
      · exact .inl (.inl hj)
      · rcases List.mem_cons.mp hq with rfl | hq
        · exact .inl (.inr ⟨hqj.1.symm, hqj.2⟩)
        · exact .inr ⟨q, hq, hqj⟩

theorem length_allEdges : (allEdges asRef txs).length = txs.length := by
  rw [allEdges, length_foldl_addEdges, List.length_replicate]

section Batch

variable (hids : (txs.map fun tx => (asRef tx).id).Nodup)
include hids

theorem idIndex_lt {id : TransactionId} {o : Nat} (h : idIndex asRef txs id = some o) :
    o < (List.replicate txs.length (none : Option (List Nat))).length := by
  obtain ⟨ho, -⟩ := (idIndex_eq_some_iff asRef hids).mp h
  rw [List.length_replicate]
  exact ho

/-- The edge set of a position holds exactly the positions of the transactions spending from
it, each once. -/
theorem edgeSet_allEdges (origin : Nat) :
    (edgeSet (allEdges asRef txs) origin).Nodup ∧ ∀ j, j ∈ edgeSet (allEdges asRef txs) origin ↔
      ∃ (hi : origin < txs.length) (hj : j < txs.length), Spends asRef txs txs[origin] txs[j] := by
  have hempty : ∀ o, edgeSet (List.replicate txs.length (none : Option (List Nat))) o = [] := by
    intro o
    by_cases ho : o < txs.length <;> simp [edgeSet, ho]
  refine ⟨nodup_foldl_addEdges asRef _ _ (fun o => by rw [hempty]; exact List.nodup_nil) origin,
    fun j => ?_⟩
  rw [allEdges, mem_edgeSet_foldl_addEdges asRef origin j _ fun _ _ h => idIndex_lt asRef hids h,
    hempty]
  simp only [List.not_mem_nil, false_or, Spends, List.getElem_mem, true_and]
  constructor
  · rintro ⟨⟨a, k⟩, hmem, rfl, input, hin, hio⟩
    obtain ⟨hk, hget⟩ := List.getElem?_eq_some_iff.mp (List.mem_zipIdx_iff_getElem?.mp hmem)
    obtain ⟨ho, hid⟩ := (idIndex_eq_some_iff asRef hids).mp hio
    exact ⟨ho, hk, input, by rw [hget]; exact hin, hid.symm⟩
  · rintro ⟨ho, hj, input, hin, hid⟩
    exact ⟨(txs[j], j), List.mem_zipIdx_iff_getElem?.mpr (List.getElem?_eq_getElem hj), rfl, input,
      hin, (idIndex_eq_some_iff asRef hids).mpr ⟨ho, hid.symm⟩⟩

theorem position_getElem {i : Nat} (hi : i < txs.length) : position asRef txs txs[i] = i := by
  rw [position, (idIndex_eq_some_iff asRef hids).mpr ⟨hi, rfl⟩, Option.getD_some]

variable {edges : List (Option (List Nat))} (hit : IteratesEdges (allEdges asRef txs) edges)
include hit

/-- An edge of the graph of positions is a spend between the transactions at its ends. -/
theorem sortGraph_edge_iff {i j : Nat} :
    (sortGraph txs.length edges).Edge i j ↔
      ∃ (hi : i < txs.length) (hj : j < txs.length), Spends asRef txs txs[i] txs[j] := by
  change i ∈ List.range txs.length ∧ j ∈ edgeSet edges i ↔ _
  rw [List.mem_range, (hit.perm i).mem_iff, (edgeSet_allEdges asRef hids i).2 j]
  constructor
  · exact fun h => h.2
  · exact fun h => ⟨h.1, h⟩

theorem sortGraph_wellFormed : (sortGraph txs.length edges).WellFormed where
  nodup := List.nodup_range
  edges_mem := fun u hu v hv => by
    obtain ⟨-, hv, -⟩ := (sortGraph_edge_iff asRef hids hit).mp ⟨hu, hv⟩
    exact List.mem_range.mpr hv

theorem edge_position {a b : T} (hab : Spends asRef txs a b) :
    (sortGraph txs.length edges).Edge (position asRef txs a) (position asRef txs b) := by
  obtain ⟨ha, hpa⟩ := position_spec asRef hids hab.1
  obtain ⟨hb, hpb⟩ := position_spec asRef hids hab.2.1
  exact (sortGraph_edge_iff asRef hids hit).mpr ⟨ha, hb, by rw [hpa, hpb]; exact hab⟩

theorem transGen_spends {i k : Nat} (h : Relation.TransGen (sortGraph txs.length edges).Edge i k) :
    ∃ (hi : i < txs.length) (hk : k < txs.length),
      Relation.TransGen (Spends asRef txs) txs[i] txs[k] := by
  induction h with
  | single hik =>
    obtain ⟨hi, hk, hs⟩ := (sortGraph_edge_iff asRef hids hit).mp hik
    exact ⟨hi, hk, .single hs⟩
  | tail _ hjk ih =>
    obtain ⟨hi, _, hij⟩ := ih
    obtain ⟨_, hk, hs⟩ := (sortGraph_edge_iff asRef hids hit).mp hjk
    exact ⟨hi, hk, hij.tail hs⟩

theorem reflTransGen_spends {i k : Nat} (h : Relation.ReflTransGen (sortGraph txs.length edges).Edge i k)
    (hk : k < txs.length) :
    ∃ hi : i < txs.length, Relation.ReflTransGen (Spends asRef txs) txs[i] txs[k] := by
  rcases Relation.reflTransGen_iff_eq_or_transGen.mp h with rfl | h
  · exact ⟨hk, .refl⟩
  · obtain ⟨hi, _, hik⟩ := transGen_spends asRef hids hit h
    exact ⟨hi, hik.to_reflTransGen⟩

/-- The graph of positions has a cycle exactly when the spends among the batch do. -/
theorem exists_cycle_iff :
    (∃ x, Relation.TransGen (sortGraph txs.length edges).Edge x x) ↔
      ∃ a, Relation.TransGen (Spends asRef txs) a a := by
  constructor
  · rintro ⟨x, hx⟩
    obtain ⟨hi, _, hs⟩ := transGen_spends asRef hids hit hx
    exact ⟨_, hs⟩
  · rintro ⟨a, ha⟩
    exact ⟨_, Relation.TransGen.lift (position asRef txs)
      (fun _ _ hab => edge_position asRef hids hit hab) a a ha⟩

/-- A cycle of positions reaches the position of `txs[v]` exactly when a cycle of spends reaches
`txs[v]`. -/
theorem cycle_reaches_iff {v : Nat} (hv : v < txs.length) :
    (∃ x, Relation.TransGen (sortGraph txs.length edges).Edge x x ∧
        Relation.ReflTransGen (sortGraph txs.length edges).Edge x v) ↔
      ∃ a, Relation.TransGen (Spends asRef txs) a a ∧ Relation.ReflTransGen (Spends asRef txs) a txs[v] := by
  constructor
  · rintro ⟨x, hx, hxv⟩
    obtain ⟨hi, _, hs⟩ := transGen_spends asRef hids hit hx
    obtain ⟨hi', hr⟩ := reflTransGen_spends asRef hids hit hxv hv
    exact ⟨_, hs, hr⟩
  · rintro ⟨a, ha, hav⟩
    refine ⟨position asRef txs a, Relation.TransGen.lift (position asRef txs)
      (fun _ _ hab => edge_position asRef hids hit hab) a a ha, ?_⟩
    rw [← position_getElem asRef hids hv]
    exact Relation.ReflTransGen.lift (position asRef txs)
      (fun _ _ hab => edge_position asRef hids hit hab) a txs[v] hav

theorem inDegree_sortGraph_le (v : Nat) : (sortGraph txs.length edges).inDegree v ≤ txs.length := by
  have hle : ∀ x ∈ (List.range txs.length).map fun u => (edgeSet edges u).count v, x ≤ 1 := by
    intro x hx
    obtain ⟨u, -, rfl⟩ := List.mem_map.mp hx
    rw [((hit.perm u).nodup_iff.mpr (edgeSet_allEdges asRef hids u).1).count]
    split <;> omega
  have := List.sum_le_card_nsmul _ 1 hle
  simpa [inDegree, inDegreeFrom] using this

end Batch

end Index

/-! ### The in-degree pass -/

/-- Matching on the edge set of a position and folding over it is folding over its elements. -/
theorem bind_index_edges {β : Type} (g : β → Nat → Except String β) (b : β)
    {allEdges : List (Option (List Nat))} {origin : Nat} (h : origin < allEdges.length) :
    (do
      match ← Checked.index allEdges origin with
      | some edges => edges.foldlM g b
      | none => pure b) = (edgeSet allEdges origin).foldlM g b := by
  have hidx : Checked.index allEdges origin = .ok allEdges[origin] := by
    simp [Checked.index, List.getElem?_eq_getElem h]
  rw [hidx, Except.ok_bind, edgeSet, List.getElem?_eq_getElem h]
  cases allEdges[origin] <;> rfl

theorem releaseEdges_eq {allEdges : List (Option (List Nat))} {current : Nat}
    (h : current < allEdges.length) (state : List Int × List Nat) :
    releaseEdges allEdges current state = (edgeSet allEdges current).foldlM releaseDegree state := by
  rw [releaseEdges, bind_index_edges releaseDegree state h]

theorem countDegree_degreesOf {len : Nat} {c : Nat → Nat} {v : Nat} (hv : v < len)
    (hc : c v + 1 < 2 ^ 31) :
    countDegree (degreesOf len c) v = .ok (degreesOf len (Function.update c v (c v + 1))) := by
  have hget : Checked.index (degreesOf len c) v = .ok (c v : Int) := by
    simp [Checked.index, getElem?_degreesOf, hv]
  have hadd : Checked.addSigned 32 (c v : Int) 1 = .ok ((c v + 1 : Nat) : Int) := by
    have hhi : (c v : Int) + 1 < 2 ^ (32 - 1) := by norm_num; omega
    rw [Checked.addSigned_of_mem (by omega) hhi]
    push_cast
    rfl
  rw [countDegree, hget, Except.ok_bind, hadd, Except.ok_bind, ← set_degreesOf hv]
  simp [Checked.set, length_degreesOf, hv]

/-- Counting the edges `E` raises each counter by the number of times its position occurs. -/
theorem foldlM_countDegree {len : Nat} :
    ∀ {E : List Nat} {c : Nat → Nat}, (∀ v ∈ E, v < len) → (∀ v < len, c v + E.count v < 2 ^ 31) →
      E.foldlM countDegree (degreesOf len c) = .ok (degreesOf len fun v => c v + E.count v) := by
  intro E
  induction E with
  | nil => intro c _ _; simp; rfl
  | cons e E ih =>
    intro c hE hc
    have he : e < len := hE e List.mem_cons_self
    have hstep := countDegree_degreesOf (c := c) he (by have := hc e he; simp at this; omega)
    have hcount : (fun v => Function.update c e (c e + 1) v + E.count v) =
        fun v => c v + (e :: E).count v := by
      funext v
      by_cases hv : v = e
      · subst hv
        simp
        omega
      · simp [Function.update_of_ne hv, Ne.symm hv]
    rw [List.foldlM_cons, hstep, Except.ok_bind, ih (fun v hv => hE v (List.mem_cons_of_mem e hv)),
      hcount]
    intro v hv
    rw [congrFun hcount v]
    exact hc v hv

theorem inDegreeFrom_range_succ (t : TopologicalIndex Nat) (j v : Nat) :
    t.inDegreeFrom (List.range (j + 1)) v = t.inDegreeFrom (List.range j) v + (t.edges j).count v := by
  simp [inDegreeFrom, List.range_succ]

theorem inDegreeFrom_le_of_sublist (t : TopologicalIndex Nat) {S S' : List Nat} (h : S.Sublist S')
    (v : Nat) : t.inDegreeFrom S v ≤ t.inDegreeFrom S' v :=
  (h.map _).sum_le_sum fun _ _ => Nat.zero_le _

/-- With every in-degree below `2 ^ 31`, the degrees pass counts the in-degrees of the graph. -/
theorem initInDegrees_eq {len : Nat} {allEdges : List (Option (List Nat))}
    (hlen : allEdges.length = len) (hsub : ∀ u < len, ∀ v ∈ edgeSet allEdges u, v < len)
    (hdeg : ∀ v < len, (sortGraph len allEdges).inDegree v < 2 ^ 31) :
    initInDegrees len allEdges = .ok (degreesOf len (sortGraph len allEdges).inDegree) := by
  obtain ⟨L, hrun, hL⟩ := Except.foldlM_range_induction
    (fun j L => L = degreesOf len ((sortGraph len allEdges).inDegreeFrom (List.range j)))
    (f := fun inDegree origin => do
      match ← Checked.index allEdges origin with
      | some edges => edges.foldlM countDegree inDegree
      | none => pure inDegree)
    (b := List.replicate len 0) (n := len)
    (by rw [replicate_eq_degreesOf]; rfl)
    (fun j L hj hL => by
      refine ⟨_, ?_, rfl⟩
      have hbound : ∀ v < len, (sortGraph len allEdges).inDegreeFrom (List.range (j + 1)) v < 2 ^ 31 :=
        fun v hv => lt_of_le_of_lt (inDegreeFrom_le_of_sublist _ (List.range_sublist.mpr hj) v)
          (hdeg v hv)
      rw [bind_index_edges countDegree L (hlen ▸ hj), hL,
        foldlM_countDegree (hsub j hj) fun v hv => by
          rw [← sortGraph_edges, ← inDegreeFrom_range_succ]; exact hbound v hv]
      have hc : (fun v => (sortGraph len allEdges).inDegreeFrom (List.range j) v +
          (edgeSet allEdges j).count v) = (sortGraph len allEdges).inDegreeFrom (List.range (j + 1)) :=
        funext fun v => by rw [inDegreeFrom_range_succ, sortGraph_edges]
      rw [hc])
  rw [initInDegrees, hrun, hL]
  rfl

/-! ### Releasing edges, on the vector and on the map -/

/-- A release that succeeds on the map of `topological_index` found its key at a positive
counter. -/
theorem releaseEdge_onKeys_eq_ok {α : Type} [DecidableEq α] {N : List α} {c : α → Nat} {q : List α}
    {e : α} {r : (α → Option Nat) × List α} (h : releaseEdge (onKeys N c, q) e = .ok r) :
    e ∈ N ∧ 1 ≤ c e ∧
      r = (onKeys N (Function.update c e (c e - 1)), if c e - 1 = 0 then q ++ [e] else q) := by
  rw [releaseEdge] at h
  by_cases he : e ∈ N
  · by_cases hpos : 1 ≤ c e
    · simp only [onKeys_of_mem he, unwrap_some, Except.ok_bind, Checked.sub_of_le hpos] at h
      cases h
      exact ⟨he, hpos, by rw [update_onKeys he]⟩
    · simp only [onKeys_of_mem he, unwrap_some, Except.ok_bind, Checked.sub, if_neg hpos] at h
      cases h
  · simp only [onKeys_of_not_mem he] at h
    cases h

theorem releaseDegree_degreesOf {len : Nat} {c : Nat → Nat} {v : Nat} (q : List Nat) (hv : v < len)
    (hpos : 1 ≤ c v) (hc : c v ≤ 2 ^ 31) :
    releaseDegree (degreesOf len c, q) v =
      .ok (degreesOf len (Function.update c v (c v - 1)), if c v - 1 = 0 then q ++ [v] else q) := by
  have hget : (degreesOf len c)[v]? = some (c v : Int) := by rw [getElem?_degreesOf, if_pos hv]
  have hsub : Checked.subSigned 32 (c v : Int) 1 = .ok ((c v - 1 : Nat) : Int) := by
    have hhi : (c v : Int) - 1 < 2 ^ (32 - 1) := by norm_num; omega
    rw [Checked.subSigned_of_mem (by omega) hhi, Nat.cast_sub hpos, Nat.cast_one]
  have hzero : ((c v - 1 : Nat) : Int) = 0 ↔ c v - 1 = 0 := by omega
  rw [releaseDegree, hget]
  simp only [Checked.expect, Except.ok_bind, hsub, set_degreesOf hv, hzero]
  rfl

theorem degreesOf_congr {len : Nat} {c c' : Nat → Nat}
    (h : onKeys (List.range len) c = onKeys (List.range len) c') : degreesOf len c = degreesOf len c' := by
  refine List.map_congr_left fun v hv => ?_
  have hv' := congrFun h v
  rw [onKeys_of_mem hv, onKeys_of_mem hv, Option.some_inj] at hv'
  rw [hv']

/-- Releasing edges on the vector of `i32` counters does what it does on the map of `u32`
counters, as long as the counters are valid `i32`s. -/
theorem foldlM_releaseDegree {len : Nat} :
    ∀ {E : List Nat} {c : Nat → Nat} {q q' : List Nat} {D' : Nat → Option Nat},
      (∀ v < len, c v ≤ 2 ^ 31) →
      E.foldlM releaseEdge (onKeys (List.range len) c, q) = .ok (D', q') →
      ∃ c', D' = onKeys (List.range len) c' ∧
        E.foldlM releaseDegree (degreesOf len c, q) = .ok (degreesOf len c', q') := by
  intro E
  induction E with
  | nil =>
    intro c q q' D' _ h
    cases h
    exact ⟨c, rfl, rfl⟩
  | cons e E ih =>
    intro c q q' D' hc h
    rw [List.foldlM_cons] at h
    obtain ⟨r, hr, hrest⟩ := Except.bind_eq_ok.mp h
    obtain ⟨he, hpos, rfl⟩ := releaseEdge_onKeys_eq_ok hr
    have hv : e < len := List.mem_range.mp he
    have hc' : ∀ v < len, Function.update c e (c e - 1) v ≤ 2 ^ 31 := by
      intro v hv'
      by_cases hve : v = e
      · subst hve
        have := hc v hv'
        simp only [Function.update_self]
        omega
      · rw [Function.update_of_ne hve]
        exact hc v hv'
    obtain ⟨c', hD, hrun⟩ := ih hc' hrest
    refine ⟨c', hD, ?_⟩
    rw [List.foldlM_cons, releaseDegree_degreesOf q hv hpos (hc e hv), Except.ok_bind]
    exact hrun

/-- The slots of `TopologicalIntoIter` once the positions `taken` were yielded. -/
def slots (txs : List T) (taken : List Nat) : List (Option T) :=
  (List.range txs.length).map fun i => if i ∈ taken then none else txs[i]?

theorem length_slots (txs : List T) (taken : List Nat) : (slots txs taken).length = txs.length := by
  simp [slots]

theorem slots_nil (txs : List T) : slots txs [] = txs.map some := by
  apply List.ext_getElem
  · simp [slots]
  · intro i h1 h2
    simp [slots]

theorem index_slots (txs : List T) {taken : List Nat} {i : Nat} (hi : i < txs.length) (hit : i ∉ taken) :
    Checked.index (slots txs taken) i = .ok (some txs[i]) := by
  rw [Checked.index_of_lt (by rw [length_slots]; exact hi)]
  simp [slots, hit]

theorem set_slots (txs : List T) (taken : List Nat) {i : Nat} (hi : i < txs.length) :
    (slots txs taken).set i none = slots txs (taken ++ [i]) := by
  apply List.ext_getElem?
  intro j
  rw [List.getElem?_set, length_slots]
  by_cases hij : i = j
  · subst hij
    simp [slots, hi]
  · by_cases hj : j < txs.length
    · simp [slots, hij, hj, Ne.symm hij]
    · simp [slots, hij, hj]

/-- `it'` is `it` after one `next` that yielded an item. -/
def Yields {σ : Type} (next : σ → Except String (Option T × σ)) (it it' : σ) : Prop :=
  ∃ tx, next it = .ok (some tx, it')

theorem collect_append {σ : Type} (next : σ → Except String (Option T × σ)) :
    ∀ (fuel : Nat) (it : σ) (acc : List T),
      collect next fuel it acc = (fun rest => acc ++ rest) <$> collect next fuel it [] := by
  intro fuel
  induction fuel with
  | zero => intro it acc; rfl
  | succ fuel ih =>
    intro it acc
    simp only [collect]
    cases next it with
    | error e => rfl
    | ok p =>
      obtain ⟨o, it'⟩ := p
      cases o with
      | none =>
        simp only [Except.mapError, Except.ok_bind]
        exact (congrArg Except.ok (List.append_nil acc)).symm
      | some tx =>
        simp only [Except.mapError, Except.ok_bind]
        rw [ih it' (acc ++ [tx]), ih it' ([] ++ [tx])]
        cases collect next fuel it' [] <;> simp [List.append_assoc]

theorem collect_remaining {σ : Type} {next : σ → Except String (Option T × σ)} {fuel : Nat} {it : σ}
    {acc all : List T} (h : collect next fuel it acc = .ok all) :
    ∃ rest, collect next fuel it [] = .ok rest ∧ all = acc ++ rest := by
  rw [collect_append] at h
  cases hc : collect next fuel it [] with
  | error e =>
    rw [hc] at h
    cases h
  | ok rest =>
    rw [hc] at h
    cases h
    exact ⟨rest, rfl, rfl⟩

/-! ## Runs of the loop -/

/-- The `Vec<i32>` of in-degrees once `sorted` is sorted: the in-degrees from the positions left. -/
def inDegreesAfter (len : Nat) (allEdges : List (Option (List Nat))) (sorted : List Nat) : List Int :=
  degreesOf len ((sortGraph len allEdges).inDegreeFrom ((sortGraph len allEdges).unsorted sorted))

/-- `TopologicalIter` once Kahn's loop has sorted `s` and holds the queue `q`. -/
def iterAt (txs : List T) (edges : List (Option (List Nat))) (q s : List Nat) : TopologicalIter T :=
  ⟨txs, inDegreesAfter txs.length edges s, edges, q, s.length⟩

/-- `TopologicalIntoIter` there, with the sorted transactions taken out. -/
def intoIterAt (txs : List T) (edges : List (Option (List Nat))) (q s : List Nat) :
    TopologicalIntoIter T :=
  ⟨slots txs s, inDegreesAfter txs.length edges s, edges, q, s.length⟩

section Iterators

/-! What holds of both iterators: `state q s` stands for Kahn's loop at queue `q` with `s` sorted,
an empty queue yields nothing, and one `next` is one pass of the loop. -/

variable {txs : List T} {edges : List (Option (List Nat))} {σ : Type}
  (next : σ → Except String (Option T × σ)) (state : List Nat → List Nat → σ)
  (hnil : ∀ s, next (state [] s) = .ok (none, state [] s))
  (hpass : ∀ {fuel : Nat} {D : Nat → Option Nat} {current : Nat} {q s s' : List Nat},
    (sortGraph txs.length edges).KahnInv D (current :: q) s →
    (sortGraph txs.length edges).kahnLoop (fuel + 1) D (current :: q) s = .ok s' →
    s'.length ≤ txs.length →
    ∃ hc : current < txs.length, ∃ D' q',
      (sortGraph txs.length edges).KahnInv D' q' (s ++ [current]) ∧
      (sortGraph txs.length edges).kahnLoop fuel D' q' (s ++ [current]) = .ok s' ∧
      next (state (current :: q) s) = .ok (some txs[current], state q' (s ++ [current])))
include hnil hpass

theorem collect_eq_of_pass :
    ∀ {fuel : Nat} {D : Nat → Option Nat} {q s s' : List Nat},
      (sortGraph txs.length edges).KahnInv D q s →
      (sortGraph txs.length edges).kahnLoop fuel D q s = .ok s' → s'.length ≤ txs.length →
      collect next fuel (state q s) (atPositions txs s) = .ok (atPositions txs s') := by
  intro fuel
  induction fuel with
  | zero => intro _ _ _ _ _ hrun; cases hrun
  | succ fuel ih =>
    intro D q s s' hinv hrun hs'
    cases q with
    | nil =>
      cases hrun
      rw [collect, hnil]
      rfl
    | cons current q =>
      obtain ⟨hc, D', q', hinv', hrest, hnext⟩ := hpass hinv hrun hs'
      rw [collect, hnext]
      simp only [Except.mapError, Except.ok_bind]
      rw [← atPositions_concat txs s hc]
      exact ih hinv' hrest hs'

/-- The step lemma: a yield keeps the iterator at a state of a run of Kahn's loop that sorts
`s'`. -/
theorem tracks_of_yields {s' : List Nat} (hlen : s'.length ≤ txs.length) {it it' : σ}
    (h : ∃ fuel D q s, it = state q s ∧ (sortGraph txs.length edges).KahnInv D q s ∧
      (sortGraph txs.length edges).kahnLoop fuel D q s = .ok s')
    (hyield : Yields next it it') :
    ∃ fuel D q s, it' = state q s ∧ (sortGraph txs.length edges).KahnInv D q s ∧
      (sortGraph txs.length edges).kahnLoop fuel D q s = .ok s' := by
  obtain ⟨fuel, D, q, s, rfl, hinv, hrun⟩ := h
  obtain ⟨tx, hnext⟩ := hyield
  cases q with
  | nil =>
    rw [hnil] at hnext
    cases hnext
  | cons current q =>
    cases fuel with
    | zero => cases hrun
    | succ fuel =>
      obtain ⟨_, D', q', hinv', hrest, hnext'⟩ := hpass hinv hrun hlen
      rw [hnext'] at hnext
      cases hnext
      exact ⟨fuel, D', q', s ++ [current], rfl, hinv', hrest⟩

/-- The run lemma: every state the iterator reaches by yielding from the start of a run of Kahn's
loop that sorts `s'` stands for a later state of that run, and collecting from it yields the
positions the run has still to sort. -/
theorem remaining_of_pass {fuel₀ : Nat} {D₀ : Nat → Option Nat} {q₀ s' : List Nat}
    (hinv₀ : (sortGraph txs.length edges).KahnInv D₀ q₀ [])
    (hrun₀ : (sortGraph txs.length edges).kahnLoop fuel₀ D₀ q₀ [] = .ok s')
    (hlen : s'.length ≤ txs.length) (hpos : ∀ i ∈ s', i < txs.length) {it : σ}
    (hreach : Relation.ReflTransGen (Yields next) (state q₀ []) it) :
    ∃ q s, it = state q s ∧ s.length ≤ s'.length ∧
      ∃ fuel rest, collect next fuel it [] = .ok rest ∧ s.length + rest.length = s'.length := by
  have htracks : ∃ fuel D q s, it = state q s ∧ (sortGraph txs.length edges).KahnInv D q s ∧
      (sortGraph txs.length edges).kahnLoop fuel D q s = .ok s' := by
    induction hreach with
    | refl => exact ⟨fuel₀, D₀, q₀, [], rfl, hinv₀, hrun₀⟩
    | tail _ hyield ih => exact tracks_of_yields next state hnil hpass hlen ih hyield
  obtain ⟨fuel, D, q, s, rfl, hinv, hrun⟩ := htracks
  have hext := (sortGraph txs.length edges).kahnLoop_extends hrun
  have hspos : ∀ i ∈ s, i < txs.length := fun i hi => hpos i (hext.subset hi)
  obtain ⟨rest, hrest, hall⟩ :=
    collect_remaining (collect_eq_of_pass next state hnil hpass hinv hrun hlen)
  refine ⟨q, s, rfl, hext.length_le, fuel, rest, hrest, ?_⟩
  have hlens := congrArg List.length hall
  rw [List.length_append, length_atPositions txs hspos, length_atPositions txs hpos] at hlens
  exact hlens.symm

end Iterators

section Run

variable {txs : List T} {edges : List (Option (List Nat))}
  (hids : (txs.map fun tx => (asRef tx).id).Nodup) (hit : IteratesEdges (allEdges asRef txs) edges)
  (hn : txs.length < 2 ^ 31)
include hids hit hn

theorem inDegreeFrom_unsorted_le (sorted : List Nat) (v : Nat) :
    (sortGraph txs.length edges).inDegreeFrom ((sortGraph txs.length edges).unsorted sorted) v ≤ 2 ^ 31 :=
  calc (sortGraph txs.length edges).inDegreeFrom ((sortGraph txs.length edges).unsorted sorted) v
      ≤ (sortGraph txs.length edges).inDegree v := inDegreeFrom_le_of_sublist _ List.filter_sublist v
    _ ≤ txs.length := inDegree_sortGraph_le asRef hids hit v
    _ ≤ 2 ^ 31 := by omega

/-- One pass of the loop from a state of Kahn's invariant: the front position is a position not
sorted yet, and the vector of `i32` counters follows the map of `u32` counters. -/
theorem kahnLoop_pass {fuel : Nat} {D : Nat → Option Nat} {current : Nat} {q s s' : List Nat}
    (hinv : (sortGraph txs.length edges).KahnInv D (current :: q) s)
    (hrun : (sortGraph txs.length edges).kahnLoop (fuel + 1) D (current :: q) s = .ok s') :
    current < txs.length ∧ current ∉ s ∧ ∃ D' q',
      (sortGraph txs.length edges).KahnInv D' q' (s ++ [current]) ∧
      (sortGraph txs.length edges).kahnLoop fuel D' q' (s ++ [current]) = .ok s' ∧
      releaseEdges edges current (inDegreesAfter txs.length edges s, q) =
        .ok (inDegreesAfter txs.length edges (s ++ [current]), q') := by
  have ht := sortGraph_wellFormed asRef hids hit
  obtain ⟨hcU, -⟩ := (hinv.mem_queue current).mp List.mem_cons_self
  obtain ⟨hcN, hcs⟩ := (sortGraph txs.length edges).mem_unsorted.mp hcU
  have hc : current < txs.length := List.mem_range.mp hcN
  obtain ⟨D', q', hfold, hrest⟩ := (sortGraph txs.length edges).kahnLoop_succ_cons hrun
  obtain ⟨D'', q'', hfold', hinv'⟩ := hinv.release (sortGraph txs.length edges) ht
  rw [hfold] at hfold'
  cases hfold'
  refine ⟨hc, hcs, D', q', hinv', hrest, ?_⟩
  rw [hinv.inDegree_eq, sortGraph_edges] at hfold
  obtain ⟨c', hD', hsim⟩ :=
    foldlM_releaseDegree (fun v _ => inDegreeFrom_unsorted_le asRef hids hit hn s v) hfold
  rw [releaseEdges_eq (by rw [hit.length_eq, length_allEdges]; exact hc), inDegreesAfter, hsim,
    degreesOf_congr (hD'.symm.trans hinv'.inDegree_eq)]
  rfl

/-- The loop of `topological_sort` sorts the transactions at the positions Kahn's loop on the
graph of positions sorts. -/
theorem sortLoop_eq :
    ∀ {fuel : Nat} {D : Nat → Option Nat} {q s s' : List Nat},
      (sortGraph txs.length edges).KahnInv D q s →
      (sortGraph txs.length edges).kahnLoop fuel D q s = .ok s' →
      sortLoop txs edges fuel (inDegreesAfter txs.length edges s) q (atPositions txs s) =
        .ok (atPositions txs s') := by
  intro fuel
  induction fuel with
  | zero => intro _ _ _ _ _ hrun; cases hrun
  | succ fuel ih =>
    intro D q s s' hinv hrun
    cases q with
    | nil =>
      cases hrun
      rfl
    | cons current q =>
      obtain ⟨hc, -, D', q', hinv', hrest, hrel⟩ := kahnLoop_pass asRef hids hit hn hinv hrun
      rw [sortLoop, hrel]
      simp only [Except.mapError, Except.ok_bind, Checked.index_of_lt hc]
      rw [← atPositions_concat txs s hc]
      exact ih hinv' hrest

omit hids hit in
theorem length_add_one_lt {fuel : Nat} {D : Nat → Option Nat} {current : Nat} {q s s' : List Nat}
    (hrest : (sortGraph txs.length edges).kahnLoop fuel D q (s ++ [current]) = .ok s')
    (hs' : s'.length ≤ txs.length) : s.length + 1 < 2 ^ 64 := by
  have := ((sortGraph txs.length edges).kahnLoop_extends hrest).length_le
  simp only [List.length_append, List.length_singleton] at this
  omega

/-- One `next` of `TopologicalIter` is one pass of Kahn's loop on the graph of positions. -/
theorem topologicalIter_pass {fuel : Nat} {D : Nat → Option Nat} {current : Nat} {q s s' : List Nat}
    (hinv : (sortGraph txs.length edges).KahnInv D (current :: q) s)
    (hrun : (sortGraph txs.length edges).kahnLoop (fuel + 1) D (current :: q) s = .ok s')
    (hs' : s'.length ≤ txs.length) :
    ∃ hc : current < txs.length, ∃ D' q',
      (sortGraph txs.length edges).KahnInv D' q' (s ++ [current]) ∧
      (sortGraph txs.length edges).kahnLoop fuel D' q' (s ++ [current]) = .ok s' ∧
      TopologicalIter.next (iterAt txs edges (current :: q) s) =
        .ok (some txs[current], iterAt txs edges q' (s ++ [current])) := by
  obtain ⟨hc, -, D', q', hinv', hrest, hrel⟩ := kahnLoop_pass asRef hids hit hn hinv hrun
  refine ⟨hc, D', q', hinv', hrest, ?_⟩
  simp only [iterAt, TopologicalIter.next, hrel, Except.ok_bind,
    Checked.add_of_lt (length_add_one_lt hn hrest hs'), Checked.index_of_lt hc,
    List.length_append, List.length_singleton]
  rfl

/-- One `next` of `TopologicalIntoIter` is one pass of Kahn's loop on the graph of positions, and
takes the transaction out of its slot. -/
theorem topologicalIntoIter_pass {fuel : Nat} {D : Nat → Option Nat} {current : Nat}
    {q s s' : List Nat}
    (hinv : (sortGraph txs.length edges).KahnInv D (current :: q) s)
    (hrun : (sortGraph txs.length edges).kahnLoop (fuel + 1) D (current :: q) s = .ok s')
    (hs' : s'.length ≤ txs.length) :
    ∃ hc : current < txs.length, ∃ D' q',
      (sortGraph txs.length edges).KahnInv D' q' (s ++ [current]) ∧
      (sortGraph txs.length edges).kahnLoop fuel D' q' (s ++ [current]) = .ok s' ∧
      TopologicalIntoIter.next (intoIterAt txs edges (current :: q) s) =
        .ok (some txs[current], intoIterAt txs edges q' (s ++ [current])) := by
  obtain ⟨hc, hcs, D', q', hinv', hrest, hrel⟩ := kahnLoop_pass asRef hids hit hn hinv hrun
  refine ⟨hc, D', q', hinv', hrest, ?_⟩
  simp only [intoIterAt, TopologicalIntoIter.next, hrel, Except.ok_bind,
    Checked.add_of_lt (length_add_one_lt hn hrest hs'), index_slots txs hc hcs,
    Checked.set_of_lt (v := slots txs s) (by rw [length_slots]; exact hc),
    set_slots txs s hc, List.length_append, List.length_singleton]
  rfl

/-- The start of the three algorithms on a batch: the in-degree pass succeeds, and Kahn's loop
from the queue it seeds sorts a list of positions `s'` at which it stops with its invariant. -/
theorem kahn_batch :
    initInDegrees txs.length edges = .ok (inDegreesAfter txs.length edges []) ∧
      ∃ D s', (sortGraph txs.length edges).KahnInv D [] s' ∧ s'.length ≤ txs.length ∧
        (sortGraph txs.length edges).kahnLoop (txs.length + 1)
          (onKeys (List.range txs.length) (sortGraph txs.length edges).inDegree)
          (initQueue txs.length (inDegreesAfter txs.length edges [])) [] = .ok s' ∧
        (sortGraph txs.length edges).KahnInv
          (onKeys (List.range txs.length) (sortGraph txs.length edges).inDegree)
          (initQueue txs.length (inDegreesAfter txs.length edges [])) [] := by
  have ht := sortGraph_wellFormed asRef hids hit
  have hstart : inDegreesAfter txs.length edges [] = degreesOf txs.length (sortGraph txs.length edges).inDegree := by
    rw [inDegreesAfter, unsorted_nil]
    rfl
  have hqueue : initQueue txs.length (inDegreesAfter txs.length edges []) =
      (List.range txs.length).filter fun key =>
        onKeys (List.range txs.length) (sortGraph txs.length edges).inDegree key = some 0 := by
    rw [initQueue, hstart]
    refine List.filter_congr fun v hv => ?_
    rw [getElem?_degreesOf, if_pos (List.mem_range.mp hv), onKeys_of_mem hv]
    simp
  refine ⟨?_, ?_⟩
  · rw [hstart]
    refine initInDegrees_eq (by rw [hit.length_eq, length_allEdges])
      (fun u hu v hv => List.mem_range.mp (ht.edges_mem u (List.mem_range.mpr hu) v hv)) fun v _ => ?_
    have := inDegree_sortGraph_le asRef hids hit v
    omega
  · have hinit := (sortGraph txs.length edges).kahnInv_init ht (List.Perm.refl (List.range txs.length))
    rw [sortGraph_topologyNodes, ← hqueue] at hinit
    have hfuel : ((sortGraph txs.length edges).unsorted []).length < txs.length + 1 := by
      rw [unsorted_nil, sortGraph_topologyNodes, List.length_range]
      omega
    obtain ⟨D, s', hrun, hinv⟩ := (sortGraph txs.length edges).kahnLoop_spec ht hinit hfuel
    refine ⟨D, s', hinv, ?_, hrun, hinit⟩
    have := hinv.sorted_nodup.length_le_of_subset fun v hv => hinv.sorted_mem v hv
    rwa [sortGraph_topologyNodes, List.length_range] at this

end Run

/-! ## What the sort and the iterators compute -/

/-- What Kahn's algorithm puts out on a batch: each transaction once, each after the transactions
it spends from, and exactly the transactions no cycle of spends leads to. -/
structure YieldsTopologically (txs yielded : List T) : Prop where
  nodup : yielded.Nodup
  mem_iff : ∀ tx, tx ∈ yielded ↔ tx ∈ txs ∧
    ¬ ∃ a, Relation.TransGen (Spends asRef txs) a a ∧ Relation.ReflTransGen (Spends asRef txs) a tx
  forward : Cycles.Forward (Spends asRef txs) yielded

/-- Two sequences Kahn's algorithm may put out hold the same transactions, so as many. -/
theorem YieldsTopologically.length_eq {txs yielded yielded' : List T}
    (h : YieldsTopologically asRef txs yielded) (h' : YieldsTopologically asRef txs yielded') :
    yielded.length = yielded'.length :=
  ((List.perm_ext_iff_of_nodup h.nodup h'.nodup).mpr fun tx => (h.mem_iff tx).trans
    (h'.mem_iff tx).symm).length_eq

/-- What `topological_sort` promises: a result exactly when the spends among the batch have no
cycle, that result a permutation of the batch along which every spend goes forward, and
otherwise the panic of its assertion. -/
structure SortsTopologically (txs : List T) (result : Except TopologicalIndexAbort (List T)) :
    Prop where
  ok_iff : (∃ sorted, result = .ok sorted) ↔ ∀ a, ¬ Relation.TransGen (Spends asRef txs) a a
  ok_sorted : ∀ sorted, result = .ok sorted →
    sorted.Perm txs ∧ Cycles.Forward (Spends asRef txs) sorted
  panic_of_cycle : (∃ a, Relation.TransGen (Spends asRef txs) a a) →
    ∃ k < txs.length, result = .error (.panic (Checked.assertEqFailedWith noCycleMessage k txs.length))

section Contract

variable {txs : List T} {edges : List (Option (List Nat))}
  (hids : (txs.map fun tx => (asRef tx).id).Nodup) (hit : IteratesEdges (allEdges asRef txs) edges)
include hids hit

theorem yieldsTopologically_of_kahnInv {D : Nat → Option Nat} {s' : List Nat}
    (hinv : (sortGraph txs.length edges).KahnInv D [] s') :
    YieldsTopologically asRef txs (atPositions txs s') where
  nodup := by
    refine hinv.sorted_nodup.filterMap fun a a' b hb hb' => ?_
    obtain ⟨ha, rfl⟩ := List.getElem?_eq_some_iff.mp hb
    obtain ⟨ha', hget⟩ := List.getElem?_eq_some_iff.mp hb'
    rw [← position_getElem asRef hids ha, ← position_getElem asRef hids ha', hget]
  mem_iff := by
    intro tx
    constructor
    · intro htx
      obtain ⟨i, hi, hget⟩ := List.mem_filterMap.mp htx
      obtain ⟨hlt, rfl⟩ := List.getElem?_eq_some_iff.mp hget
      refine ⟨List.getElem_mem hlt, fun hcycle => ?_⟩
      exact (hinv.mem_sorted_iff (sortGraph txs.length edges) (List.mem_range.mpr hlt)).mp hi
        ((cycle_reaches_iff asRef hids hit hlt).mpr hcycle)
    · rintro ⟨htx, hnone⟩
      obtain ⟨i, hlt, rfl⟩ := List.getElem_of_mem htx
      have hi := (hinv.mem_sorted_iff (sortGraph txs.length edges) (List.mem_range.mpr hlt)).mpr fun hcycle =>
        hnone ((cycle_reaches_iff asRef hids hit hlt).mp hcycle)
      exact List.mem_filterMap.mpr ⟨i, hi, List.getElem?_eq_getElem hlt⟩
  forward := by
    refine hinv.forward.filterMap fun a _ b _ x y hx hy hs => ?_
    obtain ⟨ha, rfl⟩ := List.getElem?_eq_some_iff.mp hx
    obtain ⟨hb, rfl⟩ := List.getElem?_eq_some_iff.mp hy
    exact (sortGraph_edge_iff asRef hids hit).mpr ⟨ha, hb, hs⟩

/-- A finished Kahn loop sorted every position exactly when the spends have no cycle. -/
theorem length_eq_iff_acyclic {D : Nat → Option Nat} {s' : List Nat}
    (hinv : (sortGraph txs.length edges).KahnInv D [] s') :
    s'.length = txs.length ↔ ∀ a, ¬ Relation.TransGen (Spends asRef txs) a a := by
  have ht := sortGraph_wellFormed asRef hids hit
  rw [← not_exists, ← exists_cycle_iff asRef hids hit]
  constructor
  · rintro hlen ⟨x, hx⟩
    have hxN : x ∈ List.range txs.length := by
      obtain ⟨y, hxy, -⟩ := Relation.TransGen.head'_iff.mp hx
      exact hxy.1
    have hperm := hinv.perm (sortGraph txs.length edges) (by rw [sortGraph_topologyNodes, List.length_range]; exact hlen)
    exact (hinv.mem_sorted_iff (sortGraph txs.length edges) hxN).mp (hperm.mem_iff.mpr hxN) ⟨x, hx, .refl⟩
  · intro hnone
    by_contra hlen
    exact hnone (hinv.exists_cycle (sortGraph txs.length edges) ht
      (by rw [sortGraph_topologyNodes, List.length_range]; exact hlen))

end Contract

section Batch

variable {txs : List T} {edges : List (Option (List Nat))}
  (hids : (txs.map fun tx => (asRef tx).id).Nodup) (hit : IteratesEdges (allEdges asRef txs) edges)
  (hn : txs.length < 2 ^ 31)
include hids hit hn

/-- `topological_sort` and both iterators on a batch with distinct ids: the iterators yield the
same sequence, the one Kahn's algorithm puts out, and the sort returns it when it holds every
transaction and panics on its assertion otherwise. -/
theorem topologicalSort_run : ∃ s', (∃ D, (sortGraph txs.length edges).KahnInv D [] s') ∧
    topologicalSortWith txs edges =
      (if s'.length = txs.length then .ok (atPositions txs s')
      else .error (.panic (Checked.assertEqFailedWith noCycleMessage s'.length txs.length))) ∧
    (∃ it, TopologicalIter.newWith txs edges = .ok it ∧
      collect TopologicalIter.next (txs.length + 1) it [] = .ok (atPositions txs s')) ∧
    (∃ it, TopologicalIntoIter.newWith txs edges = .ok it ∧
      collect TopologicalIntoIter.next (txs.length + 1) it [] = .ok (atPositions txs s')) := by
  obtain ⟨hdeg, D, s', hinv, hlen, hrun, hinv0⟩ := kahn_batch asRef hids hit hn
  have hpos : ∀ i ∈ s', i < txs.length := fun i hi => List.mem_range.mp (hinv.sorted_mem i hi)
  refine ⟨s', ⟨D, hinv⟩, ?_,
    ⟨_, ?_, collect_eq_of_pass TopologicalIter.next (iterAt txs edges) (fun _ => rfl)
      (topologicalIter_pass asRef hids hit hn) hinv0 hrun hlen⟩,
    ⟨_, ?_, collect_eq_of_pass TopologicalIntoIter.next (intoIterAt txs edges) (fun _ => rfl)
      (topologicalIntoIter_pass asRef hids hit hn) hinv0 hrun hlen⟩⟩
  · have hsort : sortLoop txs edges (txs.length + 1) (inDegreesAfter txs.length edges [])
        (initQueue txs.length (inDegreesAfter txs.length edges [])) [] = .ok (atPositions txs s') :=
      sortLoop_eq asRef hids hit hn hinv0 hrun
    rw [topologicalSortWith, hdeg]
    simp only [Except.mapError, Except.ok_bind, hsort, length_atPositions txs hpos]
  · rw [TopologicalIter.newWith, hdeg]
    rfl
  · rw [TopologicalIntoIter.newWith, hdeg, ← slots_nil]
    rfl

/-- `topological_sort` keeps its promise on every batch of fewer than `2 ^ 31` transactions with
distinct ids, whatever order its hash sets iterate in. -/
theorem topologicalSort_correct : SortsTopologically asRef txs (topologicalSortWith txs edges) := by
  obtain ⟨s', ⟨D, hinv⟩, hsort, -, -⟩ := topologicalSort_run asRef hids hit hn
  have hacyclic := length_eq_iff_acyclic asRef hids hit hinv
  have hle : s'.length ≤ txs.length := by
    have := hinv.sorted_nodup.length_le_of_subset fun v hv => hinv.sorted_mem v hv
    rwa [sortGraph_topologyNodes, List.length_range] at this
  rw [hsort]
  constructor
  · by_cases hlen : s'.length = txs.length
    · simp [hlen, hacyclic.mp hlen]
    · simp only [hlen, if_false, reduceCtorEq, exists_false, false_iff]
      exact fun h => hlen (hacyclic.mpr h)
  · intro sorted hs
    by_cases hlen : s'.length = txs.length
    · rw [if_pos hlen] at hs
      cases hs
      have hperm := hinv.perm (sortGraph txs.length edges)
        (by rw [sortGraph_topologyNodes, List.length_range]; exact hlen)
      refine ⟨?_, (yieldsTopologically_of_kahnInv asRef hids hit hinv).forward⟩
      have hmap := hperm.filterMap (txs[·]?)
      rwa [sortGraph_topologyNodes, ← atPositions, ← atPositions, atPositions_range] at hmap
    · rw [if_neg hlen] at hs
      cases hs
  · rintro ⟨a, ha⟩
    have hlen : s'.length ≠ txs.length := fun h => hacyclic.mp h a ha
    exact ⟨s'.length, lt_of_le_of_ne hle hlen, if_neg hlen⟩

/-- Both iterators yield, each transaction once and each after the ones it spends from, exactly
the transactions of the batch that no cycle of spends leads to; `topological_sort` returns that
same sequence, or panics when it misses a transaction. -/
theorem topologicalIters_yield : ∃ yielded, YieldsTopologically asRef txs yielded ∧
    (∃ it, TopologicalIter.newWith txs edges = .ok it ∧
      collect TopologicalIter.next (txs.length + 1) it [] = .ok yielded) ∧
    (∃ it, TopologicalIntoIter.newWith txs edges = .ok it ∧
      collect TopologicalIntoIter.next (txs.length + 1) it [] = .ok yielded) ∧
    (topologicalSortWith txs edges = .ok yielded ∨ yielded.length < txs.length ∧
      topologicalSortWith txs edges =
        .error (.panic (Checked.assertEqFailedWith noCycleMessage yielded.length txs.length))) := by
  obtain ⟨s', ⟨D, hinv⟩, hsort, hiter, hinto⟩ := topologicalSort_run asRef hids hit hn
  have hpos : ∀ i ∈ s', i < txs.length := fun i hi => List.mem_range.mp (hinv.sorted_mem i hi)
  have hle : s'.length ≤ txs.length := by
    have := hinv.sorted_nodup.length_le_of_subset fun v hv => hinv.sorted_mem v hv
    rwa [sortGraph_topologyNodes, List.length_range] at this
  refine ⟨atPositions txs s', yieldsTopologically_of_kahnInv asRef hids hit hinv, hiter, hinto, ?_⟩
  rw [hsort, length_atPositions txs hpos]
  by_cases hlen : s'.length = txs.length
  · exact .inl (if_pos hlen)
  · exact .inr ⟨lt_of_le_of_ne hle hlen, if_neg hlen⟩

/-- The states `TopologicalIter` reaches by yielding: every one reports its whole batch as `len`
and `(k, Some (n - k))` as `size_hint` after `k` items, while `m - k` items are still to come,
`m` being the number of transactions no cycle of spends leads to. -/
theorem topologicalIter_remaining : ∃ it, TopologicalIter.newWith txs edges = .ok it ∧
    ∀ yielded, YieldsTopologically asRef txs yielded →
    ∀ it', Relation.ReflTransGen (Yields TopologicalIter.next) it it' →
      it'.len = txs.length ∧ it'.sizeHint = (it'.yieldsCount, some (txs.length - it'.yieldsCount)) ∧
      ∃ fuel rest, collect TopologicalIter.next fuel it' [] = .ok rest ∧
        it'.yieldsCount + rest.length = yielded.length := by
  obtain ⟨hdeg, D, s', hinv, hlen, hrun, hinv0⟩ := kahn_batch asRef hids hit hn
  have hpos : ∀ i ∈ s', i < txs.length := fun i hi => List.mem_range.mp (hinv.sorted_mem i hi)
  refine ⟨iterAt txs edges (initQueue txs.length (inDegreesAfter txs.length edges [])) [],
    by rw [TopologicalIter.newWith, hdeg]; rfl, fun yielded hyield it' hreach => ?_⟩
  obtain ⟨q, s, rfl, hsle, fuel, rest, hrest, hcount⟩ :=
    remaining_of_pass TopologicalIter.next (iterAt txs edges) (fun _ => rfl)
      (topologicalIter_pass asRef hids hit hn) hinv0 hrun hlen hpos hreach
  refine ⟨rfl, by simp [iterAt, TopologicalIter.sizeHint, sizeHint, Nat.min_eq_left (hsle.trans hlen)],
    fuel, rest, hrest, ?_⟩
  rw [← (yieldsTopologically_of_kahnInv asRef hids hit hinv).length_eq asRef hyield,
    length_atPositions txs hpos]
  exact hcount

/-- The states `TopologicalIntoIter` reaches by yielding report the same `len` and `size_hint` as
those of `TopologicalIter`, with as many items still to come. -/
theorem topologicalIntoIter_remaining : ∃ it, TopologicalIntoIter.newWith txs edges = .ok it ∧
    ∀ yielded, YieldsTopologically asRef txs yielded →
    ∀ it', Relation.ReflTransGen (Yields TopologicalIntoIter.next) it it' →
      it'.len = txs.length ∧ it'.sizeHint = (it'.yieldsCount, some (txs.length - it'.yieldsCount)) ∧
      ∃ fuel rest, collect TopologicalIntoIter.next fuel it' [] = .ok rest ∧
        it'.yieldsCount + rest.length = yielded.length := by
  obtain ⟨hdeg, D, s', hinv, hlen, hrun, hinv0⟩ := kahn_batch asRef hids hit hn
  have hpos : ∀ i ∈ s', i < txs.length := fun i hi => List.mem_range.mp (hinv.sorted_mem i hi)
  refine ⟨intoIterAt txs edges (initQueue txs.length (inDegreesAfter txs.length edges [])) [],
    by rw [TopologicalIntoIter.newWith, hdeg, ← slots_nil]; rfl, fun yielded hyield it' hreach => ?_⟩
  obtain ⟨q, s, rfl, hsle, fuel, rest, hrest, hcount⟩ :=
    remaining_of_pass TopologicalIntoIter.next (intoIterAt txs edges) (fun _ => rfl)
      (topologicalIntoIter_pass asRef hids hit hn) hinv0 hrun hlen hpos hreach
  refine ⟨length_slots txs s, by simp [intoIterAt, TopologicalIntoIter.sizeHint, sizeHint,
    length_slots, Nat.min_eq_left (hsle.trans hlen)], fuel, rest, hrest, ?_⟩
  rw [← (yieldsTopologically_of_kahnInv asRef hids hit hinv).length_eq asRef hyield,
    length_atPositions txs hpos]
  exact hcount

/-- Both iterators, from `new` on a batch, report `len` and `size_hint` against the items still to
come. -/
theorem topologicalIters_sizeHint :
    (∃ it, TopologicalIter.newWith txs edges = .ok it ∧
      ∀ yielded, YieldsTopologically asRef txs yielded →
      ∀ it', Relation.ReflTransGen (Yields TopologicalIter.next) it it' →
        it'.len = txs.length ∧ it'.sizeHint = (it'.yieldsCount, some (txs.length - it'.yieldsCount)) ∧
        ∃ fuel rest, collect TopologicalIter.next fuel it' [] = .ok rest ∧
          it'.yieldsCount + rest.length = yielded.length) ∧
    (∃ it, TopologicalIntoIter.newWith txs edges = .ok it ∧
      ∀ yielded, YieldsTopologically asRef txs yielded →
      ∀ it', Relation.ReflTransGen (Yields TopologicalIntoIter.next) it it' →
        it'.len = txs.length ∧ it'.sizeHint = (it'.yieldsCount, some (txs.length - it'.yieldsCount)) ∧
        ∃ fuel rest, collect TopologicalIntoIter.next fuel it' [] = .ok rest ∧
          it'.yieldsCount + rest.length = yielded.length) :=
  ⟨topologicalIter_remaining asRef hids hit hn, topologicalIntoIter_remaining asRef hids hit hn⟩

end Batch

end TopologicalSort

/-- A transaction with id `id` spending output 0 of each transaction of `spent`. -/
def chainedTransaction (id : UInt64) (spent : List UInt64) : Transaction :=
  ⟨spent.map fun word => ⟨⟨Hash.fromU64Word word, 0⟩⟩, [], subnetworkIdNative, [], Hash.fromU64Word id⟩

/-- A batch listing a transaction before the one it spends from. -/
def childFirstBatch : List Transaction :=
  [chainedTransaction 2 [1], chainedTransaction 1 []]

theorem topologicalSort_correct_childFirst :
    ((childFirstBatch.map fun tx => tx.id).Nodup ∧ childFirstBatch.length < 2 ^ 31) ∧
      TopologicalSort.SortsTopologically id childFirstBatch
        (TopologicalSort.topologicalSort id childFirstBatch) :=
  ⟨⟨by decide, by decide⟩, TopologicalSort.topologicalSort_correct id (by decide)
    (TopologicalSort.iteratesEdges_refl _) (by decide)⟩

example : TopologicalSort.topologicalSort id childFirstBatch =
    .ok [chainedTransaction 1 [], chainedTransaction 2 [1]] := by
  decide

/-- A batch of two transactions spending each other: a cycle no hash function would let happen. -/
def mutualSpendBatch : List Transaction :=
  [chainedTransaction 1 [2], chainedTransaction 2 [1]]

theorem topologicalIters_yield_mutualSpend :
    ((mutualSpendBatch.map fun tx => tx.id).Nodup ∧ mutualSpendBatch.length < 2 ^ 31) ∧
      ∃ yielded, TopologicalSort.YieldsTopologically id mutualSpendBatch yielded ∧
        (∃ it, TopologicalIter.newWith mutualSpendBatch (TopologicalSort.allEdges id mutualSpendBatch) = .ok it ∧
          TopologicalSort.collect TopologicalIter.next (mutualSpendBatch.length + 1) it [] = .ok yielded) ∧
        (∃ it, TopologicalIntoIter.newWith mutualSpendBatch
            (TopologicalSort.allEdges id mutualSpendBatch) = .ok it ∧
          TopologicalSort.collect TopologicalIntoIter.next (mutualSpendBatch.length + 1) it [] =
            .ok yielded) ∧
        (TopologicalSort.topologicalSortWith mutualSpendBatch
            (TopologicalSort.allEdges id mutualSpendBatch) = .ok yielded ∨
          yielded.length < mutualSpendBatch.length ∧
          TopologicalSort.topologicalSortWith mutualSpendBatch
              (TopologicalSort.allEdges id mutualSpendBatch) =
            .error (.panic (Checked.assertEqFailedWith TopologicalSort.noCycleMessage yielded.length
              mutualSpendBatch.length))) :=
  ⟨⟨by decide, by decide⟩, TopologicalSort.topologicalIters_yield id (by decide)
    (TopologicalSort.iteratesEdges_refl _) (by decide)⟩

example : TopologicalSort.topologicalSort id mutualSpendBatch =
    .error (.panic (Checked.assertEqFailedWith TopologicalSort.noCycleMessage 0 2)) := by
  decide

theorem topologicalIters_sizeHint_childFirst :
    ((childFirstBatch.map fun tx => tx.id).Nodup ∧ childFirstBatch.length < 2 ^ 31) ∧
    (∃ it, TopologicalIter.newWith childFirstBatch (TopologicalSort.allEdges id childFirstBatch) = .ok it ∧
      ∀ yielded, TopologicalSort.YieldsTopologically id childFirstBatch yielded →
      ∀ it', Relation.ReflTransGen (TopologicalSort.Yields TopologicalIter.next) it it' →
        it'.len = childFirstBatch.length ∧
        it'.sizeHint = (it'.yieldsCount, some (childFirstBatch.length - it'.yieldsCount)) ∧
        ∃ fuel rest, TopologicalSort.collect TopologicalIter.next fuel it' [] = .ok rest ∧
          it'.yieldsCount + rest.length = yielded.length) ∧
    (∃ it, TopologicalIntoIter.newWith childFirstBatch
        (TopologicalSort.allEdges id childFirstBatch) = .ok it ∧
      ∀ yielded, TopologicalSort.YieldsTopologically id childFirstBatch yielded →
      ∀ it', Relation.ReflTransGen (TopologicalSort.Yields TopologicalIntoIter.next) it it' →
        it'.len = childFirstBatch.length ∧
        it'.sizeHint = (it'.yieldsCount, some (childFirstBatch.length - it'.yieldsCount)) ∧
        ∃ fuel rest, TopologicalSort.collect TopologicalIntoIter.next fuel it' [] = .ok rest ∧
          it'.yieldsCount + rest.length = yielded.length) :=
  ⟨⟨by decide, by decide⟩, TopologicalSort.topologicalIters_sizeHint id (by decide)
    (TopologicalSort.iteratesEdges_refl _) (by decide)⟩

/-- Three transactions spending nothing of each other. -/
def independentBatch : List Transaction :=
  [chainedTransaction 1 [], chainedTransaction 2 [], chainedTransaction 3 []]

-- after two of three items, `size_hint` promises at least two more where one is left
example : (do
      let it ← TopologicalIter.new id independentBatch
      let (_, it) ← it.next
      let (_, it) ← it.next
      pure (it.sizeHint, it.len)) = .ok ((2, some 1), 3) := by
  decide

end Vecno.Mining
