import Vecno.Mining.TopologicalIndex

/-!
# The depth-first topological index

`topological_index_dfs`. While a search runs, its stack reads as frames (`DfsInv`), and a
potential that falls at every pass bounds the passes by the fuel.
-/

namespace Vecno.Mining

namespace TopologicalIndex

/-- The colours of `topological_index_dfs`. -/
inductive Color where
  | white
  | gray
  | black
deriving DecidableEq, Repr

section Model

variable {α : Type} [DecidableEq α] (t : TopologicalIndex α)

/-- The scan of the edges of a popped node: white targets are pushed, a gray one is a cycle. -/
def scanEdges (color : α → Option Color) : List α → List α → Except TopologicalIndexAbort (List α)
  | stack, [] => .ok stack
  | stack, node :: edges => do
    match ← unwrap (color node) with
    | .white => scanEdges color (node :: stack) edges
    | .gray => .error (.err .hasCycle)
    | .black => scanEdges color stack edges

/-- The colour change of the popped node `current`, on the colours, the stack and the sorted
nodes. -/
def advance (color : α → Option Color) (stack sorted : List α) (current : α) :
    Color → (α → Option Color) × List α × List α
  | .white => (Function.update color current (some .gray), current :: stack, sorted)
  | .gray => (Function.update color current (some .black), stack, sorted ++ [current])
  | .black => (color, stack, sorted)

/-- One pass of the `while let` loop, on the popped node `current`. -/
def dfsStep (color : α → Option Color) (stack sorted : List α) (current : α) :
    Except TopologicalIndexAbort ((α → Option Color) × List α × List α) := do
  let currentColor ← unwrap (color current)
  let (color, stack, sorted) := advance color stack sorted current currentColor
  let stack ← scanEdges color stack (t.edges current)
  pure (color, stack, sorted)

/-- The `while let` loop of one search. -/
def dfsLoop : Nat → (α → Option Color) → List α → List α →
    Except TopologicalIndexAbort ((α → Option Color) × List α)
  | 0, _, _, _ => .error .outOfFuel
  | _ + 1, color, [], sorted => .ok (color, sorted)
  | fuel + 1, color, current :: stack, sorted => do
    let (color, stack, sorted) ← t.dfsStep color stack sorted current
    dfsLoop fuel color stack sorted

/-- The `for` loop over the node keys: a search from each key still white. -/
def dfsKeys (fuel : Nat) : List α → (α → Option Color) → List α →
    Except TopologicalIndexAbort ((α → Option Color) × List α)
  | [], color, sorted => .ok (color, sorted)
  | key :: keys, color, sorted => do
    if (← index color key) ≠ .white then dfsKeys fuel keys color sorted
    else
      let (color, sorted) ← t.dfsLoop fuel color [key] sorted
      dfsKeys fuel keys color sorted

/-- The fuel of one search, more than the passes a search makes. -/
def dfsFuel : Nat :=
  (t.topologyNodes.map fun v => 2 + (t.edges v).length).sum + 2

def topologicalIndexDfs : Except TopologicalIndexAbort (List α) := do
  let color := t.topologyNodes.foldl (fun color key => Function.update color key (some .white))
    fun _ => none
  let (_, sorted) ← t.dfsKeys t.dfsFuel t.topologyNodes color []
  pure sorted.reverse

end Model

section Spec

variable {α : Type} (t : TopologicalIndex α)

/-- The stack that frames stand for, top first: each frame's pending entries, then its node. -/
def stackOf : List (α × List α) → List α
  | [] => []
  | (g, seg) :: frames => seg ++ g :: stackOf frames

/-- What a node adds to the potential of a search, by its colour. -/
def weight (v : α) : Option Color → Nat
  | some .white => 2 + (t.edges v).length
  | some .gray => 1
  | _ => 0

/-- The weights of the colours of all nodes. -/
def weights (color : α → Option Color) : Nat :=
  (t.topologyNodes.map fun v => t.weight v (color v)).sum

/-- The potential of a search: the stack length and the weights. -/
def potential (color : α → Option Color) (stack : List α) : Nat :=
  stack.length + t.weights color

/-- The conditions on the frame of `g` with pending entries `seg`, under the gray nodes `above`
of the frames above it: the entries are successors of `g`, gray only when held above, and every
successor of `g` is black, pending or held above. -/
def FrameOk (color : α → Option Color) (above : List α) (g : α) (seg : List α) : Prop :=
  (∀ x ∈ seg, x ∈ t.edges g ∧ (color x = some .gray → x ∈ above)) ∧
    ∀ s ∈ t.edges g, color s = some .black ∨ s ∈ seg ∨ s ∈ above

/-- `FrameOk` for each frame, top first. -/
def FramesOk (color : α → Option Color) : List α → List (α × List α) → Prop
  | _, [] => True
  | above, (g, seg) :: frames => t.FrameOk color above g seg ∧ FramesOk color (g :: above) frames

/-- The state of a search whose stack reads as `frames`: the gray nodes are the frames' nodes, on
a path of edges, the black ones are the sorted nodes, with their successors black, and no edge
goes from a sorted node to one sorted later. -/
structure DfsInv (color : α → Option Color) (frames : List (α × List α)) (sorted : List α) : Prop where
  none_iff : ∀ v, color v = none ↔ v ∉ t.topologyNodes
  gray_iff : ∀ v, color v = some .gray ↔ v ∈ frames.map Prod.fst
  black_iff : ∀ v, color v = some .black ↔ v ∈ sorted
  grays_nodup : (frames.map Prod.fst).Nodup
  sorted_nodup : sorted.Nodup
  chain : (frames.map Prod.fst).IsChain fun upper lower => t.Edge lower upper
  frames_ok : t.FramesOk color [] frames
  black_closed : ∀ b ∈ sorted, ∀ s ∈ t.edges b, s ∈ sorted
  forward : Cycles.Forward (flip t.Edge) sorted

/-- No node turns back to white. -/
def StaysColored (color color' : α → Option Color) : Prop :=
  ∀ v, color v ≠ some .white → color' v ≠ some .white

theorem StaysColored.trans {color color' color'' : α → Option Color} (h : StaysColored color color')
    (h' : StaysColored color' color'') : StaysColored color color'' :=
  fun v hv => h' v (h v hv)

end Spec

variable {α : Type} [DecidableEq α] (t : TopologicalIndex α)

/-! ## The scan of the edges -/

/-- The entries the scan of the edges of `x` pushes, top first. -/
def pushedBy (color : α → Option Color) (x : α) : List α :=
  ((t.edges x).filter fun v => color v = some .white).reverse

omit [DecidableEq α] in
/-- The scan over coloured targets: the cycle error if one is gray, and otherwise the white ones
pushed in order. -/
theorem scanEdges_eq {color : α → Option Color} :
    ∀ {E : List α} (stack : List α), (∀ v ∈ E, color v ≠ none) →
      scanEdges color stack E =
        if ∃ v ∈ E, color v = some .gray then .error (.err .hasCycle)
        else .ok ((E.filter fun v => color v = some .white).reverse ++ stack) := by
  intro E
  induction E with
  | nil => intro stack _; simp [scanEdges]
  | cons e E ih =>
    intro stack hE
    obtain ⟨c, hc⟩ := Option.ne_none_iff_exists'.mp (hE e List.mem_cons_self)
    have hE' : ∀ v ∈ E, color v ≠ none := fun v hv => hE v (List.mem_cons_of_mem e hv)
    cases c with
    | white =>
      have hiff : (∃ v ∈ e :: E, color v = some .gray) ↔ ∃ v ∈ E, color v = some .gray := by
        simp [hc]
      rw [scanEdges, hc]
      show scanEdges color (e :: stack) E = _
      rw [ih _ hE']
      by_cases hg : ∃ v ∈ E, color v = some .gray
      · rw [if_pos hg, if_pos (hiff.mpr hg)]
      · rw [if_neg hg, if_neg (mt hiff.mp hg)]
        simp [hc]
    | gray =>
      rw [scanEdges, hc, if_pos ⟨e, List.mem_cons_self, hc⟩]
      rfl
    | black =>
      have hiff : (∃ v ∈ e :: E, color v = some .gray) ↔ ∃ v ∈ E, color v = some .gray := by
        simp [hc]
      rw [scanEdges, hc]
      show scanEdges color stack E = _
      rw [ih _ hE']
      by_cases hg : ∃ v ∈ E, color v = some .gray
      · rw [if_pos hg, if_pos (hiff.mpr hg)]
      · rw [if_neg hg, if_neg (mt hiff.mp hg)]
        simp [hc]

omit [DecidableEq α] in
theorem scanEdges_of_black {color : α → Option Color} {E stack : List α}
    (h : ∀ v ∈ E, color v = some .black) : scanEdges color stack E = .ok stack := by
  have hnone : ∀ v ∈ E, color v ≠ none := fun v hv => by rw [h v hv]; exact Option.some_ne_none _
  have hgray : ¬ ∃ v ∈ E, color v = some .gray := fun ⟨v, hv, hg⟩ => by rw [h v hv] at hg; cases hg
  have hwhite : (E.filter fun v => color v = some .white) = [] :=
    List.filter_eq_nil_iff.mpr fun v hv => by simp [h v hv]
  rw [scanEdges_eq stack hnone, if_neg hgray, hwhite, List.reverse_nil, List.nil_append]

theorem dfsStep_white {color : α → Option Color} {stack sorted : List α} {x : α}
    (hx : color x = some .white) :
    t.dfsStep color stack sorted x =
      scanEdges (Function.update color x (some .gray)) (x :: stack) (t.edges x) >>= fun stack' =>
        .ok (Function.update color x (some .gray), stack', sorted) := by
  rw [dfsStep, hx]
  rfl

theorem dfsStep_gray {color : α → Option Color} {stack sorted : List α} {x : α}
    (hx : color x = some .gray) :
    t.dfsStep color stack sorted x =
      scanEdges (Function.update color x (some .black)) stack (t.edges x) >>= fun stack' =>
        .ok (Function.update color x (some .black), stack', sorted ++ [x]) := by
  rw [dfsStep, hx]
  rfl

theorem dfsStep_black {color : α → Option Color} {stack sorted : List α} {x : α}
    (hx : color x = some .black) :
    t.dfsStep color stack sorted x =
      scanEdges color stack (t.edges x) >>= fun stack' => .ok (color, stack', sorted) := by
  rw [dfsStep, hx]
  rfl

/-! ## Colour updates -/

theorem update_eq_some_iff {color : α → Option Color} {x v : α} {c c' : Color} :
    Function.update color x (some c) v = some c' ↔ (v = x ∧ c = c') ∨ (v ≠ x ∧ color v = some c') := by
  by_cases hv : v = x
  · subst hv
    simp
  · simp [hv]

theorem staysColored_update {color : α → Option Color} {x : α} {c : Color} (hc : c ≠ .white) :
    StaysColored color (Function.update color x (some c)) := by
  intro v hv
  by_cases hvx : v = x
  · subst hvx
    simpa using hc
  · rwa [Function.update_of_ne hvx]

theorem none_iff_update {color : α → Option Color} {x : α} {c : Color}
    (h : ∀ v, color v = none ↔ v ∉ t.topologyNodes) (hx : x ∈ t.topologyNodes) :
    ∀ v, Function.update color x (some c) v = none ↔ v ∉ t.topologyNodes := by
  intro v
  by_cases hvx : v = x
  · subst hvx
    simpa using hx
  · rw [Function.update_of_ne hvx]
    exact h v

theorem weights_update (ht : t.WellFormed) (color : α → Option Color) {x : α} (hx : x ∈ t.topologyNodes)
    (c : Color) :
    t.weights (Function.update color x (some c)) + t.weight x (color x) =
      t.weights color + t.weight x (some c) := by
  unfold weights
  rw [← List.sum_map_erase _ hx, ← List.sum_map_erase (fun v => t.weight v (color v)) hx,
    List.map_congr_left fun v hv => by
      rw [Function.update_of_ne ((ht.nodup.mem_erase_iff).mp hv).1]]
  simp only [Function.update_self]
  omega

omit [DecidableEq α] in
theorem weights_le (color : α → Option Color) :
    t.weights color ≤ (t.topologyNodes.map fun v => 2 + (t.edges v).length).sum := by
  apply List.sum_le_sum
  intro v _
  cases hv : color v with
  | none => simp [weight]
  | some c => cases c <;> simp only [weight] <;> omega

omit [DecidableEq α] in
theorem length_pushedBy_le (color : α → Option Color) (x : α) :
    (t.pushedBy color x).length ≤ (t.edges x).length := by
  rw [pushedBy, List.length_reverse]
  exact List.length_filter_le _ _

/-- A white pass lowers the potential: the node's weight drops by more than it pushes. -/
theorem potential_white (ht : t.WellFormed) {color : α → Option Color} {x : α} (rest : List α)
    (hx : color x = some .white) (hxN : x ∈ t.topologyNodes) :
    t.potential (Function.update color x (some .gray))
        (t.pushedBy (Function.update color x (some .gray)) x ++ x :: rest) <
      t.potential color (x :: rest) := by
  have hw := t.weights_update ht color hxN .gray
  have hlen := t.length_pushedBy_le (Function.update color x (some .gray)) x
  rw [hx] at hw
  simp only [weight] at hw
  simp only [potential, List.length_append, List.length_cons]
  omega

theorem potential_gray (ht : t.WellFormed) {color : α → Option Color} {x : α} (rest : List α)
    (hx : color x = some .gray) (hxN : x ∈ t.topologyNodes) :
    t.potential (Function.update color x (some .black)) rest < t.potential color (x :: rest) := by
  have hw := t.weights_update ht color hxN .black
  rw [hx] at hw
  simp only [weight] at hw
  simp only [potential, List.length_cons]
  omega

/-! ## The invariant along one search -/

omit [DecidableEq α] in
/-- The per-frame conditions survive a recolouring that makes no new gray node outside `above'`
and keeps everything held above or black held above or black. -/
theorem FramesOk.mono {color color' : α → Option Color} :
    ∀ {frames : List (α × List α)} {above above' : List α}, t.FramesOk color above frames →
      (∀ s, color' s = some .gray → color s = some .gray ∨ s ∈ above') →
      (∀ s, s ∈ above ∨ color s = some .black → s ∈ above' ∨ color' s = some .black) →
      t.FramesOk color' above' frames := by
  intro frames
  induction frames with
  | nil => intro _ _ _ _ _; trivial
  | cons f frames ih =>
    obtain ⟨g, seg⟩ := f
    intro above above' h hgray hkeep
    obtain ⟨⟨hpend, hcov⟩, hrest⟩ := h
    refine ⟨⟨fun x hx => ⟨(hpend x hx).1, fun hxg => ?_⟩, fun s hs => ?_⟩, ?_⟩
    · rcases hgray x hxg with hold | habove
      · rcases hkeep x (.inl ((hpend x hx).2 hold)) with h' | h'
        · exact h'
        · rw [hxg] at h'
          cases h'
      · exact habove
    · rcases hcov s hs with hb | hseg | habove
      · rcases hkeep s (.inr hb) with h' | h'
        · exact .inr (.inr h')
        · exact .inl h'
      · exact .inr (.inl hseg)
      · rcases hkeep s (.inl habove) with h' | h'
        · exact .inr (.inr h')
        · exact .inl h'
    · apply ih hrest
      · intro s hs
        rcases hgray s hs with h' | h'
        · exact .inl h'
        · exact .inr (List.mem_cons_of_mem g h')
      · intro s hs
        rcases hs with hs | hb
        · rcases List.mem_cons.mp hs with rfl | hs
          · exact .inl List.mem_cons_self
          · rcases hkeep s (.inl hs) with h' | h'
            · exact .inl (List.mem_cons_of_mem g h')
            · exact .inr h'
        · rcases hkeep s (.inr hb) with h' | h'
          · exact .inl (List.mem_cons_of_mem g h')
          · exact .inr h'

omit [DecidableEq α] in
/-- The frame a white pass opens: its node's white successors pending, the others black. -/
theorem frameOk_pushedBy {color : α → Option Color} {x : α}
    (hno : ∀ s ∈ t.edges x, color s ≠ some .gray) (hnone : ∀ s ∈ t.edges x, color s ≠ none) :
    t.FrameOk color [] x (t.pushedBy color x) := by
  refine ⟨fun w hw => ?_, fun s hs => ?_⟩
  · rw [pushedBy, List.mem_reverse, List.mem_filter, decide_eq_true_eq] at hw
    refine ⟨hw.1, fun hg => ?_⟩
    rw [hw.2] at hg
    cases hg
  · obtain ⟨c, hc⟩ := Option.ne_none_iff_exists'.mp (hnone s hs)
    cases c with
    | white => exact .inr (.inl (by simp [pushedBy, hs, hc]))
    | gray => exact absurd hc (hno s hs)
    | black => exact .inl hc

section Search

variable {color : α → Option Color} {frames : List (α × List α)} {sorted : List α}

theorem DfsInv.mem_of_color (h : t.DfsInv color frames sorted) {v : α} {c : Color}
    (hv : color v = some c) : v ∈ t.topologyNodes := by
  by_contra hvN
  rw [(h.none_iff v).mpr hvN] at hv
  cases hv

omit [DecidableEq α] in
theorem DfsInv.exists_color (h : t.DfsInv color frames sorted) {v : α} (hv : v ∈ t.topologyNodes) :
    ∃ c, color v = some c :=
  Option.ne_none_iff_exists'.mp fun hn => (h.none_iff v).mp hn hv

theorem DfsInv.edges_colored (ht : t.WellFormed) (h : t.DfsInv color frames sorted) {x : α}
    (hxN : x ∈ t.topologyNodes) (c : Color) :
    ∀ s ∈ t.edges x, Function.update color x (some c) s ≠ none := fun s hs hn =>
  (none_iff_update t h.none_iff hxN s).mp hn (ht.edges_mem x hxN s hs)

omit [DecidableEq α] in
theorem DfsInv.not_gray_pending {g x : α} {seg : List α}
    (h : t.DfsInv color ((g, x :: seg) :: frames) sorted) : color x ≠ some .gray := fun hx =>
  List.not_mem_nil ((h.frames_ok.1.1 x List.mem_cons_self).2 hx)

/-- A white pass that finds no gray successor opens a frame above the top one. -/
theorem DfsInv.white (ht : t.WellFormed) {g x : α} {seg : List α}
    (h : t.DfsInv color ((g, x :: seg) :: frames) sorted) (hx : color x = some .white)
    (hno : ∀ s ∈ t.edges x, Function.update color x (some .gray) s ≠ some .gray) :
    t.DfsInv (Function.update color x (some .gray))
      ((x, t.pushedBy (Function.update color x (some .gray)) x) :: (g, seg) :: frames) sorted := by
  have hxN := h.mem_of_color t hx
  have hgN : g ∈ t.topologyNodes := h.mem_of_color t ((h.gray_iff g).mpr List.mem_cons_self)
  have hxg : x ∉ ((g, x :: seg) :: frames).map Prod.fst := fun hm => by
    rw [← h.gray_iff, hx] at hm
    cases hm
  have hxs : x ∉ sorted := fun hm => by
    rw [← h.black_iff, hx] at hm
    cases hm
  obtain ⟨⟨hpend, hcov⟩, hrest⟩ := h.frames_ok
  refine ⟨none_iff_update t h.none_iff hxN, fun v => ?_, fun v => ?_, ?_, h.sorted_nodup, ?_, ?_,
    h.black_closed, h.forward⟩
  · rw [update_eq_some_iff, h.gray_iff]
    by_cases hvx : v = x
    · simp [hvx]
    · simp [hvx]
  · rw [update_eq_some_iff, h.black_iff]
    by_cases hvx : v = x
    · subst hvx
      simp [hxs]
    · simp [hvx]
  · exact List.nodup_cons.mpr ⟨hxg, h.grays_nodup⟩
  · exact List.isChain_cons_cons.mpr ⟨⟨hgN, (hpend x List.mem_cons_self).1⟩, h.chain⟩
  · refine ⟨t.frameOk_pushedBy hno (h.edges_colored t ht hxN .gray), ⟨?_, ?_⟩, ?_⟩
    · -- the old top frame, without its popped entry
      intro y hy
      refine ⟨(hpend y (List.mem_cons_of_mem x hy)).1, fun hyg => ?_⟩
      rcases update_eq_some_iff.mp hyg with ⟨rfl, -⟩ | ⟨-, hold⟩
      · exact List.mem_singleton_self _
      · exact absurd ((hpend y (List.mem_cons_of_mem x hy)).2 hold) List.not_mem_nil
    · intro s hs
      rcases hcov s hs with hb | hseg | habove
      · have hsx : s ≠ x := fun hsx => by rw [hsx, hx] at hb; cases hb
        exact .inl (by rw [Function.update_of_ne hsx]; exact hb)
      · rcases List.mem_cons.mp hseg with rfl | hseg
        · exact .inr (.inr (List.mem_singleton_self _))
        · exact .inr (.inl hseg)
      · exact absurd habove List.not_mem_nil
    · apply FramesOk.mono t hrest
      · intro s hs
        rcases update_eq_some_iff.mp hs with ⟨rfl, -⟩ | ⟨-, hold⟩
        · exact .inr (List.mem_cons_of_mem g (List.mem_singleton_self _))
        · exact .inl hold
      · intro s hs
        rcases hs with hs | hb
        · rw [List.mem_singleton.mp hs]
          exact .inl List.mem_cons_self
        · have hsx : s ≠ x := fun hsx => by rw [hsx, hx] at hb; cases hb
          exact .inr (by rw [Function.update_of_ne hsx]; exact hb)

theorem DfsInv.start (ht : t.WellFormed) {x : α} (h : t.DfsInv color [] sorted)
    (hx : color x = some .white)
    (hno : ∀ s ∈ t.edges x, Function.update color x (some .gray) s ≠ some .gray) :
    t.DfsInv (Function.update color x (some .gray))
      [(x, t.pushedBy (Function.update color x (some .gray)) x)] sorted := by
  have hxN := h.mem_of_color t hx
  have hxs : x ∉ sorted := fun hm => by
    rw [← h.black_iff, hx] at hm
    cases hm
  refine ⟨none_iff_update t h.none_iff hxN, fun v => ?_, fun v => ?_, List.nodup_singleton x,
    h.sorted_nodup, List.isChain_singleton x, ⟨t.frameOk_pushedBy hno (h.edges_colored t ht hxN .gray),
    trivial⟩, h.black_closed, h.forward⟩
  · rw [update_eq_some_iff, h.gray_iff]
    by_cases hvx : v = x
    · simp [hvx]
    · simp [hvx]
  · rw [update_eq_some_iff, h.black_iff]
    by_cases hvx : v = x
    · subst hvx
      simp [hxs]
    · simp [hvx]

/-- A gray pass closes the top frame: its node turns black and is sorted after its successors,
all black already. -/
theorem DfsInv.gray {g : α} (h : t.DfsInv color ((g, []) :: frames) sorted) :
    (∀ s ∈ t.edges g, Function.update color g (some .black) s = some .black) ∧
      t.DfsInv (Function.update color g (some .black)) frames (sorted ++ [g]) := by
  obtain ⟨⟨-, hcov⟩, hrest⟩ := h.frames_ok
  have hsucc : ∀ s ∈ t.edges g, color s = some .black := fun s hs => by
    rcases hcov s hs with hb | hseg | habove
    · exact hb
    · exact absurd hseg List.not_mem_nil
    · exact absurd habove List.not_mem_nil
  have hg : color g = some .gray := (h.gray_iff g).mpr List.mem_cons_self
  have hgN := h.mem_of_color t hg
  have hgs : g ∉ sorted := fun hm => by
    rw [← h.black_iff, hg] at hm
    cases hm
  obtain ⟨hgF, hFnd⟩ := List.nodup_cons.mp h.grays_nodup
  -- `g` has no edge to itself: its successors are black
  have hself : g ∉ t.edges g := fun hgg => by
    rw [hsucc g hgg] at hg
    cases hg
  refine ⟨fun s hs => ?_, none_iff_update t h.none_iff hgN, fun v => ?_, fun v => ?_, hFnd,
    nodup_append_singleton hgs h.sorted_nodup, h.chain.tail, ?_, ?_, ?_⟩
  · have hsg : s ≠ g := fun hsg => hself (hsg ▸ hs)
    rw [Function.update_of_ne hsg]
    exact hsucc s hs
  · rw [update_eq_some_iff, h.gray_iff]
    by_cases hvg : v = g
    · subst hvg
      simp [hgF]
    · simp [hvg]
  · rw [update_eq_some_iff, h.black_iff, List.mem_append, List.mem_singleton]
    by_cases hvg : v = g
    · simp [hvg]
    · simp [hvg]
  · apply FramesOk.mono t hrest
    · intro s hs
      rcases update_eq_some_iff.mp hs with ⟨-, hc⟩ | ⟨-, hold⟩
      · cases hc
      · exact .inl hold
    · intro s hs
      by_cases hsg : s = g
      · subst hsg
        exact .inr (by simp)
      · rw [Function.update_of_ne hsg]
        rcases hs with hs | hb
        · exact absurd (List.mem_singleton.mp hs) hsg
        · exact .inr hb
  · intro b hb s hs
    rcases List.mem_append.mp hb with hb | hb
    · exact List.mem_append_left _ (h.black_closed b hb s hs)
    · rw [List.mem_singleton.mp hb] at hs
      exact List.mem_append_left _ ((h.black_iff s).mp (hsucc s hs))
  · refine h.forward.concat (fun b hb hbg => hgs ?_) (fun hgg => hself hgg.2)
    exact h.black_closed b hb g hbg.2

omit [DecidableEq α] in
/-- A black pass pops a stale entry: its successors are black, and the frames stay. -/
theorem DfsInv.black {g x : α} {seg : List α} (h : t.DfsInv color ((g, x :: seg) :: frames) sorted)
    (hx : color x = some .black) :
    (∀ s ∈ t.edges x, color s = some .black) ∧ t.DfsInv color ((g, seg) :: frames) sorted := by
  obtain ⟨⟨hpend, hcov⟩, hrest⟩ := h.frames_ok
  have hxs := (h.black_iff x).mp hx
  refine ⟨fun s hs => (h.black_iff s).mpr (h.black_closed x hxs s hs), h.none_iff, h.gray_iff,
    h.black_iff, h.grays_nodup, h.sorted_nodup, h.chain, ⟨⟨fun y hy => hpend y
    (List.mem_cons_of_mem x hy), fun s hs => ?_⟩, hrest⟩, h.black_closed, h.forward⟩
  rcases hcov s hs with hb | hseg | habove
  · exact .inl hb
  · rcases List.mem_cons.mp hseg with rfl | hseg
    · exact .inl hx
    · exact .inr (.inl hseg)
  · exact .inr (.inr habove)

/-- A gray successor found by a white pass closes a cycle through the gray path. -/
theorem DfsInv.exists_cycle (ht : t.WellFormed) {g x s : α} {seg : List α}
    (h : t.DfsInv color ((g, x :: seg) :: frames) sorted) (hs : s ∈ t.edges x)
    (hgray : Function.update color x (some .gray) s = some .gray) :
    ∃ y, Relation.TransGen t.Edge y y := by
  have hgN : g ∈ t.topologyNodes := h.mem_of_color t ((h.gray_iff g).mpr List.mem_cons_self)
  have hxE : x ∈ t.edges g := (h.frames_ok.1.1 x List.mem_cons_self).1
  have hxN := ht.edges_mem g hgN x hxE
  have hgx : t.Edge g x := ⟨hgN, hxE⟩
  have hxs : t.Edge x s := ⟨hxN, hs⟩
  rcases update_eq_some_iff.mp hgray with ⟨rfl, -⟩ | ⟨-, hold⟩
  · exact ⟨s, .single hxs⟩
  · rcases List.mem_cons.mp ((h.gray_iff s).mp hold) with rfl | hbelow
    · exact ⟨s, .head hgx (.single hxs)⟩
    · -- `s` lies below on the gray path, which leads up to `g`
      have hpath := Cycles.transGen_of_isChain h.chain s hbelow
      exact ⟨s, (hpath.tail hgx).tail hxs⟩

/-- A gray successor found by the first pass of a search is the node itself. -/
theorem DfsInv.exists_cycle_start {x s : α} (h : t.DfsInv color [] sorted) (hxN : x ∈ t.topologyNodes)
    (hs : s ∈ t.edges x) (hgray : Function.update color x (some .gray) s = some .gray) :
    ∃ y, Relation.TransGen t.Edge y y := by
  rcases update_eq_some_iff.mp hgray with ⟨rfl, -⟩ | ⟨-, hold⟩
  · exact ⟨s, .single ⟨hxN, hs⟩⟩
  · exact absurd ((h.gray_iff s).mp hold) List.not_mem_nil

end Search

/-! ## Whole searches -/

/-- How a search ends: with no gray node left and no node turned back to white, or with the cycle
error on a graph that has a cycle. -/
def SearchEnds (color : α → Option Color)
    (result : Except TopologicalIndexAbort ((α → Option Color) × List α)) : Prop :=
  (∃ color' sorted', result = .ok (color', sorted') ∧ t.DfsInv color' [] sorted' ∧
      StaysColored color color') ∨
    (result = .error (.err .hasCycle) ∧ ∃ y, Relation.TransGen t.Edge y y)

omit [DecidableEq α] in
theorem SearchEnds.of_stays {color color' : α → Option Color}
    {result : Except TopologicalIndexAbort ((α → Option Color) × List α)}
    (h : t.SearchEnds color' result) (hs : StaysColored color color') : t.SearchEnds color result := by
  rcases h with ⟨c, s, hres, hinv, hstay⟩ | hcyc
  · exact .inl ⟨c, s, hres, hinv, hs.trans hstay⟩
  · exact .inr hcyc

/-- A search with more fuel than its potential runs to its end. The induction is on the fuel; each
pass is one of the four kinds of `DfsInv.white`, `DfsInv.gray`, `DfsInv.black` and
`DfsInv.exists_cycle`, and lowers the potential. -/
theorem dfsLoop_spec (ht : t.WellFormed) :
    ∀ (fuel : Nat) {color : α → Option Color} {frames : List (α × List α)} {sorted : List α},
      t.DfsInv color frames sorted → t.potential color (stackOf frames) < fuel →
      t.SearchEnds color (t.dfsLoop fuel color (stackOf frames) sorted) := by
  intro fuel
  induction fuel with
  | zero => intro _ _ _ _ hlt; omega
  | succ fuel ih =>
    intro color frames sorted h hlt
    match frames, h, hlt with
    | [], h, _ => exact .inl ⟨color, sorted, rfl, h, fun _ hv => hv⟩
    | (g, []) :: frames, h, hlt =>
      have hg : color g = some .gray := (h.gray_iff g).mpr List.mem_cons_self
      obtain ⟨hblack, h'⟩ := h.gray t
      have hpot := t.potential_gray ht (stackOf frames) hg (h.mem_of_color t hg)
      have hstep : t.dfsLoop (fuel + 1) color (stackOf ((g, []) :: frames)) sorted =
          t.dfsLoop fuel (Function.update color g (some .black)) (stackOf frames) (sorted ++ [g]) := by
        show t.dfsLoop (fuel + 1) color (g :: stackOf frames) sorted = _
        rw [dfsLoop, dfsStep_gray t hg, scanEdges_of_black hblack]
        rfl
      have hstack : stackOf ((g, []) :: frames) = g :: stackOf frames := rfl
      rw [hstep]
      exact (ih h' (by rw [hstack] at hlt; omega)).of_stays t (staysColored_update (by decide))
    | (g, x :: seg) :: frames, h, hlt =>
      obtain ⟨c, hx⟩ := h.exists_color t (h.mem_of_color t
        ((h.gray_iff g).mpr List.mem_cons_self) |> fun hgN =>
          ht.edges_mem g hgN x (h.frames_ok.1.1 x List.mem_cons_self).1)
      have hxN := h.mem_of_color t hx
      cases c with
      | white =>
        have hscan := scanEdges_eq (x :: stackOf ((g, seg) :: frames))
          (h.edges_colored t ht hxN .gray)
        by_cases hcyc : ∃ s ∈ t.edges x, Function.update color x (some .gray) s = some .gray
        · obtain ⟨s, hs, hsg⟩ := hcyc
          refine .inr ⟨?_, h.exists_cycle t ht hs hsg⟩
          show t.dfsLoop (fuel + 1) color (x :: stackOf ((g, seg) :: frames)) sorted = _
          rw [dfsLoop, dfsStep_white t hx, hscan, if_pos ⟨s, hs, hsg⟩]
          rfl
        · have hno : ∀ s ∈ t.edges x, Function.update color x (some .gray) s ≠ some .gray :=
            fun s hs hsg => hcyc ⟨s, hs, hsg⟩
          have h' := h.white t ht hx hno
          have hpot := t.potential_white ht (stackOf ((g, seg) :: frames)) hx hxN
          have hstep : t.dfsLoop (fuel + 1) color (stackOf ((g, x :: seg) :: frames)) sorted =
              t.dfsLoop fuel (Function.update color x (some .gray))
                (stackOf ((x, t.pushedBy (Function.update color x (some .gray)) x) :: (g, seg) :: frames))
                sorted := by
            show t.dfsLoop (fuel + 1) color (x :: stackOf ((g, seg) :: frames)) sorted = _
            rw [dfsLoop, dfsStep_white t hx, hscan, if_neg hcyc]
            rfl
          rw [hstep]
          exact (ih h' (by simp only [stackOf, List.cons_append] at hpot hlt ⊢; omega)).of_stays t
            (staysColored_update (by decide))
      | gray => exact absurd hx h.not_gray_pending
      | black =>
        obtain ⟨hblack, h'⟩ := h.black t hx
        have hstep : t.dfsLoop (fuel + 1) color (stackOf ((g, x :: seg) :: frames)) sorted =
            t.dfsLoop fuel color (stackOf ((g, seg) :: frames)) sorted := by
          show t.dfsLoop (fuel + 1) color (x :: stackOf ((g, seg) :: frames)) sorted = _
          rw [dfsLoop, dfsStep_black t hx, scanEdges_of_black hblack]
          rfl
        rw [hstep]
        exact (ih h' (by simp only [potential, stackOf, List.cons_append, List.length_cons] at hlt ⊢; omega)).of_stays t
          fun _ hv => hv

/-- One search from a white key: it ends with the key no longer white, or with the cycle error
on a graph that has a cycle. -/
theorem search_spec (ht : t.WellFormed) {color : α → Option Color} {sorted : List α} {key : α}
    (h : t.DfsInv color [] sorted) (hc : color key = some .white) :
    (∃ color' sorted', t.dfsLoop t.dfsFuel color [key] sorted = .ok (color', sorted') ∧
        t.DfsInv color' [] sorted' ∧ StaysColored color color' ∧ color' key ≠ some .white) ∨
      (t.dfsLoop t.dfsFuel color [key] sorted = .error (.err .hasCycle) ∧
        ∃ y, Relation.TransGen t.Edge y y) := by
  have hkN := h.mem_of_color t hc
  have hscan := scanEdges_eq [key] (h.edges_colored t ht hkN .gray)
  have hfuel : t.dfsFuel = (t.topologyNodes.map fun v => 2 + (t.edges v).length).sum + 1 + 1 := rfl
  by_cases hcyc : ∃ s ∈ t.edges key, Function.update color key (some .gray) s = some .gray
  · obtain ⟨s, hs, hsg⟩ := hcyc
    refine .inr ⟨?_, h.exists_cycle_start t hkN hs hsg⟩
    rw [hfuel, dfsLoop, dfsStep_white t hc, hscan, if_pos ⟨s, hs, hsg⟩]
    rfl
  · have hno : ∀ s ∈ t.edges key, Function.update color key (some .gray) s ≠ some .gray :=
      fun s hs hsg => hcyc ⟨s, hs, hsg⟩
    have h' := h.start t ht hc hno
    have hstep : t.dfsLoop t.dfsFuel color [key] sorted =
        t.dfsLoop ((t.topologyNodes.map fun v => 2 + (t.edges v).length).sum + 1)
          (Function.update color key (some .gray))
          (stackOf [(key, t.pushedBy (Function.update color key (some .gray)) key)]) sorted := by
      rw [hfuel, dfsLoop, dfsStep_white t hc, hscan, if_neg hcyc]
      rfl
    -- the first pass leaves less potential than the fuel left
    have hpot := t.potential_white ht [] hc hkN
    have hle := t.weights_le color
    have hpot' : t.potential (Function.update color key (some .gray))
        (stackOf [(key, t.pushedBy (Function.update color key (some .gray)) key)]) <
          (t.topologyNodes.map fun v => 2 + (t.edges v).length).sum + 1 := by
      simp only [potential, stackOf, List.length_cons, List.length_nil] at hpot ⊢
      omega
    rw [hstep]
    rcases t.dfsLoop_spec ht _ h' hpot' with ⟨color', sorted', hres, hinv, hstay⟩ | hend
    · refine .inl ⟨color', sorted', hres, hinv, (staysColored_update (by decide)).trans hstay, ?_⟩
      exact hstay key (by simp)
    · exact .inr hend

/-- The outer loop, from a state with no search running: every key it passes ends up not white,
or it reports the cycle error on a graph that has a cycle. -/
theorem dfsKeys_spec (ht : t.WellFormed) :
    ∀ (keys : List α) {color : α → Option Color} {sorted : List α}, t.DfsInv color [] sorted →
      (∀ k ∈ keys, k ∈ t.topologyNodes) →
      (∃ color' sorted', t.dfsKeys t.dfsFuel keys color sorted = .ok (color', sorted') ∧
          t.DfsInv color' [] sorted' ∧ (∀ k ∈ keys, color' k ≠ some .white) ∧
          StaysColored color color') ∨
        (t.dfsKeys t.dfsFuel keys color sorted = .error (.err .hasCycle) ∧
          ∃ y, Relation.TransGen t.Edge y y) := by
  intro keys
  induction keys with
  | nil =>
    intro color sorted h _
    exact .inl ⟨color, sorted, rfl, h, fun _ hk => absurd hk List.not_mem_nil, fun _ hv => hv⟩
  | cons key keys ih =>
    intro color sorted h hkeys
    have hkeys' : ∀ k ∈ keys, k ∈ t.topologyNodes := fun k hk => hkeys k (List.mem_cons_of_mem key hk)
    obtain ⟨c, hc⟩ := h.exists_color t (hkeys key List.mem_cons_self)
    by_cases hw : c = .white
    · -- a white key starts a search, and the loop goes on from where it ends
      subst hw
      rcases t.search_spec ht h hc with ⟨color1, sorted1, hres, h1, hstay1, hkey⟩ | ⟨hres, hcyc⟩
      · have hstep : t.dfsKeys t.dfsFuel (key :: keys) color sorted =
            t.dfsKeys t.dfsFuel keys color1 sorted1 := by
          rw [dfsKeys, index_of_eq_some hc, Except.ok_bind, if_neg (by decide), hres]
          rfl
        rw [hstep]
        rcases ih h1 hkeys' with ⟨color', sorted', hres', h', hall, hstay⟩ | hend
        · refine .inl ⟨color', sorted', hres', h', fun k hk => ?_, hstay1.trans hstay⟩
          rcases List.mem_cons.mp hk with rfl | hk
          · exact hstay k hkey
          · exact hall k hk
        · exact .inr hend
      · refine .inr ⟨?_, hcyc⟩
        rw [dfsKeys, index_of_eq_some hc, Except.ok_bind, if_neg (by decide), hres]
        rfl
    · -- a key already coloured is passed over
      have hstep : t.dfsKeys t.dfsFuel (key :: keys) color sorted = t.dfsKeys t.dfsFuel keys color sorted := by
        rw [dfsKeys, index_of_eq_some hc, Except.ok_bind, if_pos hw]
      rw [hstep]
      rcases ih h hkeys' with ⟨color', sorted', hres', h', hall, hstay⟩ | hend
      · refine .inl ⟨color', sorted', hres', h', fun k hk => ?_, hstay⟩
        rcases List.mem_cons.mp hk with rfl | hk
        · exact hstay k (by rw [hc]; exact fun he => hw (Option.some_inj.mp he))
        · exact hall k hk
      · exact .inr hend

theorem dfsInv_init : t.DfsInv (onKeys t.topologyNodes fun _ => Color.white) [] [] where
  none_iff := fun v => by by_cases hv : v ∈ t.topologyNodes <;> simp [hv]
  gray_iff := fun v => by by_cases hv : v ∈ t.topologyNodes <;> simp [hv]
  black_iff := fun v => by by_cases hv : v ∈ t.topologyNodes <;> simp [hv]
  grays_nodup := List.nodup_nil
  sorted_nodup := List.nodup_nil
  chain := List.IsChain.nil
  frames_ok := trivial
  black_closed := fun _ hb => absurd hb List.not_mem_nil
  forward := Cycles.forward_nil

/-- The depth-first search: a forward permutation of the nodes, or the cycle error on a graph with
a cycle. Every node ends black, so the sorted nodes are all the nodes; the sorted order has no
edge from a node to one sorted later, so its reverse has every edge forward. -/
theorem topologicalIndexDfs_spec (ht : t.WellFormed) :
    (∃ sorted, t.topologicalIndexDfs = .ok sorted ∧ sorted.Perm t.topologyNodes ∧
        Cycles.Forward t.Edge sorted) ∨
      (t.topologicalIndexDfs = .error (.err .hasCycle) ∧ ∃ x, Relation.TransGen t.Edge x x) := by
  have hinit : (t.topologyNodes.foldl (fun color key => Function.update color key (some Color.white))
      fun _ => none) = onKeys t.topologyNodes fun _ => Color.white := by
    rw [← onKeys_nil (c := fun _ : α => Color.white), foldl_update_const, List.nil_append]
  rcases t.dfsKeys_spec ht t.topologyNodes t.dfsInv_init (fun k hk => hk) with
    ⟨color, sorted, hrun, hinv, hall, -⟩ | ⟨hrun, hcyc⟩
  · have hblack : ∀ v ∈ t.topologyNodes, v ∈ sorted := fun v hv => by
      obtain ⟨c, hc⟩ := hinv.exists_color t hv
      cases c with
      | white => exact absurd hc (hall v hv)
      | gray => exact absurd ((hinv.gray_iff v).mp hc) List.not_mem_nil
      | black => exact (hinv.black_iff v).mp hc
    have hsub : ∀ v ∈ sorted, v ∈ t.topologyNodes := fun v hv =>
      hinv.mem_of_color t ((hinv.black_iff v).mpr hv)
    have hperm : sorted.Perm t.topologyNodes :=
      (List.perm_ext_iff_of_nodup hinv.sorted_nodup ht.nodup).mpr fun v => ⟨hsub v, hblack v⟩
    refine .inl ⟨sorted.reverse, ?_, (List.reverse_perm sorted).trans hperm, hinv.forward.reverse⟩
    rw [topologicalIndexDfs, hinit, hrun]
    rfl
  · refine .inr ⟨?_, hcyc⟩
    rw [topologicalIndexDfs, hinit, hrun]
    rfl

/-- Both topological indexes compute what the trait means: the depth-first one on every
well-formed graph, and Kahn's, in any visiting order of its in-degree map, on every well-formed
graph whose in-degrees fit in `u32`. -/
theorem topologicalIndexes_correct (ht : t.WellFormed) :
    t.IndexesTopologically t.topologicalIndexDfs ∧
      ((∀ v ∈ t.topologyNodes, t.inDegree v < 2 ^ 32) →
        ∀ order : List α, order.Perm t.topologyNodes →
          t.IndexesTopologically (t.topologicalIndex order)) :=
  ⟨t.indexesTopologically_of ht (t.topologicalIndexDfs_spec ht), fun hdeg _ horder =>
    t.indexesTopologically_of ht (t.topologicalIndex_spec ht hdeg horder)⟩

end TopologicalIndex

/-- The diamond `0 → 1, 0 → 2, 1 → 3, 2 → 3`. -/
def diamondTopology : TopologicalIndex Nat :=
  ⟨[0, 1, 2, 3], fun k => if k = 0 then some [1, 2] else if k = 3 then none else some [3]⟩

theorem topologicalIndexes_correct_diamond :
    diamondTopology.IndexesTopologically diamondTopology.topologicalIndexDfs ∧
      diamondTopology.IndexesTopologically (diamondTopology.topologicalIndex [0, 1, 2, 3]) :=
  have h := TopologicalIndex.topologicalIndexes_correct diamondTopology ⟨by decide, by decide⟩
  ⟨h.1, h.2 (by decide) [0, 1, 2, 3] (List.Perm.refl _)⟩

example : diamondTopology.topologicalIndexDfs = .ok [0, 1, 2, 3] := rfl

example : diamondTopology.topologicalIndex [0, 1, 2, 3] = .ok [0, 1, 2, 3] := rfl

end Vecno.Mining
