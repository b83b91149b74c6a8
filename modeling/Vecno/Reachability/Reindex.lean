import Vecno.Lib.ChildTree
import Vecno.Lib.Checked

/-!
# Counting subtrees for a reindex

`count_subtrees` with its queue, the store a parameter and the loops on fuel. From a cache of
whole subtrees (`CacheClosed`) it fills the subtree and keeps the cache closed.
-/

namespace Vecno

namespace Reindex

open ChildTree

/-- What the bounded loops of this module report when their bound runs out. -/
def outOfFuel : String := "out of fuel"

/-- What `count_subtrees` reads of the reachability store. -/
structure TreeStore (α : Type) where
  getChildren : α → Except String (List α)
  getParent : α → Except String α

/-- `ReindexOperationContext`, with the store and the cache of subtree sizes. -/
structure ReindexOperationContext (α : Type) where
  store : TreeStore α
  subtreeSizes : α → Option Nat

variable {α : Type}

/-- `ReindexOperationContext::new`: the cache starts empty. -/
def ReindexOperationContext.new (store : TreeStore α) : ReindexOperationContext α :=
  ⟨store, fun _ => none⟩

section Model

variable [DecidableEq α]

/-- `self.subtree_sizes[c]`: a missing key panics. -/
def subtreeSize (sizes : α → Option Nat) (c : α) : Except String Nat :=
  Checked.expect "no entry found for key" (sizes c)

/-- `children.iter().map(|c| self.subtree_sizes[c]).sum()`. -/
def subtreeSum (sizes : α → Option Nat) (children : List α) : Except String Nat :=
  children.foldlM (fun sum c => do Checked.add 64 sum (← subtreeSize sizes c)) 0

variable (store : TreeStore α) (block : α)

/-- The inner loop of `count_subtrees`: a finished subtree at `current` reports to its parent,
which finishes in turn once all its children have reported, up to `block`. -/
def pushUp : Nat → (α → Option Nat) → (α → Nat) → α →
    Except String ((α → Option Nat) × (α → Nat))
  | 0, _, _, _ => .error outOfFuel
  | fuel + 1, sizes, counts, current =>
    if current = block then .ok (sizes, counts) else do
      let current ← store.getParent current
      let children ← store.getChildren current
      let count ← Checked.add 64 (counts current) 1
      let counts := Function.update counts current count
      if count < children.length then return (sizes, counts)
      let subtreeSum ← subtreeSum sizes children
      let size ← Checked.add 64 subtreeSum 1
      pushUp fuel (Function.update sizes current (some size)) counts current

/-- The outer loop of `count_subtrees`, over the queue: a leaf gets size one and a block with a
known size is not descended into; both push up, any other block queues its children. -/
def countLoop : Nat → (α → Option Nat) → (α → Nat) → List α → Except String (α → Option Nat)
  | 0, _, _, _ => .error outOfFuel
  | _ + 1, sizes, _, [] => .ok sizes
  | fuel + 1, sizes, counts, current :: queue => do
    let children ← store.getChildren current
    if children.isEmpty then
      let (sizes, counts) ← pushUp store block fuel (Function.update sizes current (some 1)) counts current
      countLoop fuel sizes counts queue
    else if sizes current = none then
      countLoop fuel sizes counts (queue ++ children)
    else
      let (sizes, counts) ← pushUp store block fuel sizes counts current
      countLoop fuel sizes counts queue

def countSubtrees (fuel : Nat) (ctx : ReindexOperationContext α) (block : α) :
    Except String (ReindexOperationContext α) :=
  if (ctx.subtreeSizes block).isSome then .ok ctx else do
    let sizes ← countLoop ctx.store block fuel ctx.subtreeSizes (fun _ => 0) [block]
    return { ctx with subtreeSizes := sizes }

end Model

/-! ## The tree under `block` -/

variable (store : TreeStore α) (block : α)

/-- The reachability tree under `block` as `count_subtrees` reads it: every block of it has its
children stored, without repeats, and each child its parent; it is finite with fewer than
`2 ^ 64` blocks. -/
structure StoredTree (children : α → List α) : Prop where
  getChildren_eq : ∀ x, Below children block x → store.getChildren x = .ok (children x)
  getParent_eq : ∀ x, Below children block x → ∀ c ∈ children x, store.getParent c = .ok x
  nodup : ∀ x, Below children block x → (children x).Nodup
  finite : ∃ n, HasSize children block n ∧ n < 2 ^ 64

/-- Every size cached for a block of the tree is the count of its subtree. -/
def CacheCorrect (children : α → List α) (sizes : α → Option Nat) : Prop :=
  ∀ x n, Below children block x → sizes x = some n → HasSize children x n

/-- Every block of the tree below a cached block is cached too: `count_subtrees` caches whole
subtrees. -/
def CacheClosed (children : α → List α) (sizes : α → Option Nat) : Prop :=
  ∀ x y, Below children block x → sizes x ≠ none → Below children x y → sizes y ≠ none

/-- The blocks the queue reaches: those of the tree with no cached block strictly above them. -/
def Reached (children : α → List α) (sizes0 : α → Option Nat) (x : α) : Prop :=
  Below children block x ∧ ∀ y c, Below children block y → c ∈ children y → Below children c x →
    sizes0 y = none

/-- The reached blocks whose children get queued: not cached and not leaves. -/
def Inner (children : α → List α) (sizes0 : α → Option Nat) (x : α) : Prop :=
  Reached block children sizes0 x ∧ sizes0 x = none ∧ children x ≠ []

/-- `x` is in the subtree of a queued block, not yet visited. -/
def Pending (children : α → List α) (queue : List α) (x : α) : Prop :=
  ∃ q ∈ queue, Below children q x

section Tree

variable {store} {block} {children : α → List α} (tree : StoredTree store block children)
include tree

theorem StoredTree.hasSize {x : α} (hx : Below children block x) : HasSize children x (size children x) := by
  obtain ⟨n, hn, -⟩ := tree.finite
  obtain ⟨m, hm, -⟩ := hn.subtree hx
  exact hm.size

theorem StoredTree.size_lt {x : α} (hx : Below children block x) : size children x < 2 ^ 64 := by
  obtain ⟨n, hn, hlt⟩ := tree.finite
  have := size_le_of_below hn hx
  rw [size_eq hn] at this
  omega

theorem StoredTree.parent_unique {x p p' : α} (hp : Below children block p) (hp' : Below children block p')
    (hx : x ∈ children p) (hx' : x ∈ children p') : p = p' := by
  have h := (tree.getParent_eq p hp x hx).symm.trans (tree.getParent_eq p' hp' x hx')
  exact Except.ok.inj h

theorem StoredTree.block_not_mem {x : α} (hx : Below children block x) : block ∉ children x :=
  fun hb => (tree.hasSize hx).not_below_child hb hx

theorem StoredTree.below_parent {q x p : α} (hq : Below children block q) (hp : Below children block p)
    (hqx : Below children q x) (hne : q ≠ x) (hx : x ∈ children p) : Below children q p := by
  rcases hqx.eq_or_tail with rfl | ⟨p', hp', hx'⟩
  · exact absurd rfl hne
  · rw [tree.parent_unique (hq.trans hp') hp hx' hx] at hp'
    exact hp'

theorem StoredTree.reached_child {sizes0 : α → Option Nat} {x c : α}
    (hx : Inner block children sizes0 x) (hc : c ∈ children x) : Reached block children sizes0 c := by
  refine ⟨hx.1.1.tail hc, fun y c' hy hc' hc'c => ?_⟩
  rcases hc'c.eq_or_tail with rfl | ⟨p, hp, hcp⟩
  · -- `c` is the child of `y`, so `y` is its parent `x`
    rw [tree.parent_unique hy hx.1.1 hc' hc]
    exact hx.2.1
  · rw [tree.parent_unique ((hy.tail hc').trans hp) hx.1.1 hcp hc] at hp
    exact hx.1.2 y c' hy hc' hp

theorem StoredTree.reached_block (sizes0 : α → Option Nat) : Reached block children sizes0 block :=
  ⟨.refl block, fun _ _ hy hc hcb => absurd (hcb.trans hy) ((tree.hasSize hy).not_below_child hc)⟩

end Tree

variable {block}

/-- A reached block but `block` is the child of a reached block whose children get queued. -/
theorem Reached.parent {children : α → List α} {sizes0 : α → Option Nat} {x : α}
    (hx : Reached block children sizes0 x) (hne : x ≠ block) :
    ∃ p, x ∈ children p ∧ Inner block children sizes0 p := by
  rcases hx.1.eq_or_tail with h | ⟨p, hp, hxp⟩
  · exact absurd h.symm hne
  · exact ⟨p, hxp, ⟨hp, fun y c hy hc hcp => hx.2 y c hy hc (hcp.tail hxp)⟩,
      hx.2 p x hp hxp (.refl x), List.ne_nil_of_mem hxp⟩

theorem not_reached_of_below_cached {children : α → List α} {sizes0 : α → Option Nat} {cur x : α}
    (hcur : Reached block children sizes0 cur) (hcached : sizes0 cur ≠ none)
    (hx : Below children cur x) (hne : cur ≠ x) : ¬ Reached block children sizes0 x := by
  intro hr
  rcases hx.eq_or_head with h | ⟨c, hc, hcx⟩
  · exact hne h
  · exact hcached (hr.2 cur c hcur.1 hc hcx)

theorem pending_cons {children : α → List α} {q x : α} {queue : List α} :
    Pending children (q :: queue) x ↔ Below children q x ∨ Pending children queue x := by
  simp only [Pending, List.mem_cons, exists_eq_or_imp]

theorem pending_head {children : α → List α} {cur : α} {queue : List α} :
    Pending children (cur :: queue) cur :=
  ⟨cur, List.mem_cons_self, .refl cur⟩

theorem not_pending_cons {children : α → List α} {cur x : α} {queue : List α}
    (hx : ¬ Pending children queue x) (hcx : ¬ Below children cur x) :
    ¬ Pending children (cur :: queue) x := fun hp => (pending_cons.mp hp).elim hcx hx

theorem pending_append {children : α → List α} {x : α} {queue queue' : List α} :
    Pending children (queue ++ queue') x ↔ Pending children queue x ∨ Pending children queue' x := by
  simp only [Pending, List.mem_append, or_and_right, exists_or]

/-! ## Reports to a parent -/

theorem nodup_concat {l : List α} {c : α} (hl : l.Nodup) (hc : c ∉ l) : (l ++ [c]).Nodup :=
  List.nodup_append.mpr ⟨hl, List.nodup_cons.mpr ⟨List.not_mem_nil, List.nodup_nil⟩,
    fun _ ha _ hb hab => hc (List.mem_singleton.mp hb ▸ hab ▸ ha)⟩

section Counting

variable [DecidableEq α]

theorem countP_concat_of_not_mem {l finished : List α} {c : α} (hc : c ∉ l) :
    l.countP (· ∈ finished ++ [c]) = l.countP (· ∈ finished) := by
  refine List.countP_congr fun a ha => ?_
  have hne : a ≠ c := fun h => hc (h ▸ ha)
  simp only [List.mem_append, List.mem_singleton, hne, or_false, decide_eq_true_eq]

theorem countP_concat_of_mem {l finished : List α} {c : α} (hl : l.Nodup) (hc : c ∈ l)
    (hcf : c ∉ finished) : l.countP (· ∈ finished ++ [c]) = l.countP (· ∈ finished) + 1 := by
  induction l with
  | nil => exact absurd hc List.not_mem_nil
  | cons a l ih =>
    rw [List.nodup_cons] at hl
    rcases List.mem_cons.mp hc with rfl | hc'
    · -- the head is `c`, counted now and not before, and not in the rest
      rw [List.countP_cons, List.countP_cons, countP_concat_of_not_mem hl.1]
      simp only [List.mem_append, List.mem_singleton, or_true, decide_true, hcf, decide_false]
      rfl
    · have hne : a ≠ c := fun h => hl.1 (h ▸ hc')
      rw [List.countP_cons, List.countP_cons, ih hl.2 hc']
      simp only [List.mem_append, List.mem_singleton, hne, or_false]
      omega

/-! ## What the loops keep -/

variable (block) (children : α → List α) (sizes0 : α → Option Nat)

/-- What holds between two passes of the queue loop, and within the push up from a finished
block `cur`. `finished` lists the blocks whose size is known and has been reported to their parent
(`block` has none); a visited block not finished waits for a child, and its counter is the number
of its children finished. -/
structure CountInv (queue : List α) (sizes : α → Option Nat) (counts : α → Nat)
    (finished : List α) (cur : Option α) : Prop where
  queue_reached : ∀ q ∈ queue, Reached block children sizes0 q
  queue_apart : queue.Pairwise fun q q' => ¬ Below children q q' ∧ ¬ Below children q' q
  finished_reached : ∀ x ∈ finished, Reached block children sizes0 x ∧ ¬ Pending children queue x
  finished_nodup : finished.Nodup
  cur_reached : ∀ x, cur = some x →
    Reached block children sizes0 x ∧ ¬ Pending children queue x ∧ x ∉ finished
  fresh : ∀ x, Reached block children sizes0 x → Pending children queue x →
    counts x = 0 ∧ sizes x = sizes0 x
  visited : ∀ x, Reached block children sizes0 x → ¬ Pending children queue x →
    x ∈ finished ∨ cur = some x ∨
      (Inner block children sizes0 x ∧ (children x).countP (· ∈ finished) < (children x).length)
  counts_eq : ∀ x, Inner block children sizes0 x → ¬ Pending children queue x →
    counts x = (children x).countP (· ∈ finished)
  sizes_eq : ∀ x, x ∈ finished ∨ cur = some x → sizes x = some (size children x)
  children_finished : ∀ x, x ∈ finished ∨ cur = some x → Inner block children sizes0 x →
    ∀ c ∈ children x, c ∈ finished
  frame : ∀ x, ¬ Reached block children sizes0 x → sizes x = sizes0 x

variable {store block children sizes0}

theorem countInv_init (tree : StoredTree store block children) :
    CountInv block children sizes0 [block] sizes0 (fun _ => 0) [] none where
  queue_reached q hq := by
    rw [List.mem_singleton.mp hq]
    exact tree.reached_block sizes0
  queue_apart := List.pairwise_singleton _ _
  finished_reached _ h := absurd h List.not_mem_nil
  finished_nodup := List.nodup_nil
  cur_reached _ h := nomatch h
  fresh _ _ _ := ⟨rfl, rfl⟩
  visited x hx hnp := absurd ⟨block, List.mem_singleton_self _, hx.1⟩ hnp
  counts_eq x hx hnp := absurd ⟨block, List.mem_singleton_self _, hx.1.1⟩ hnp
  sizes_eq x h := by
    rcases h with h | h
    · exact absurd h List.not_mem_nil
    · cases h
  children_finished x h := by
    rcases h with h | h
    · exact absurd h List.not_mem_nil
    · cases h
  frame _ _ := rfl

/-- Once the queue is empty every reached block is finished: a waiting block would wait for a
waiting child, and so on down a subtree that is finite. -/
theorem CountInv.all_finished (tree : StoredTree store block children) {sizes : α → Option Nat}
    {counts : α → Nat} {finished : List α}
    (h : CountInv block children sizes0 [] sizes counts finished none) :
    ∀ x, Reached block children sizes0 x → x ∈ finished := by
  have hnp : ∀ x, ¬ Pending children [] x := fun x ⟨q, hq, _⟩ => List.not_mem_nil hq
  suffices hwait : ∀ k x, size children x = k → Inner block children sizes0 x →
      (children x).countP (· ∈ finished) < (children x).length → False by
    intro x hx
    rcases h.visited x hx (hnp x) with hf | hcur | ⟨hin, hlt⟩
    · exact hf
    · cases hcur
    · exact (hwait _ x rfl hin hlt).elim
  intro k
  induction k using Nat.strong_induction_on with
  | _ k ih =>
    intro x hk hin hlt
    -- some child is not finished, and waits in turn
    obtain ⟨c, hc, hcf⟩ : ∃ c ∈ children x, c ∉ finished := by
      by_contra hall
      have hall' : ∀ c ∈ children x, c ∈ finished := fun c hc => by_contra fun hcf => hall ⟨c, hc, hcf⟩
      rw [List.countP_eq_length.mpr (fun c hc => decide_eq_true (hall' c hc))] at hlt
      exact Nat.lt_irrefl _ hlt
    have hcr := tree.reached_child hin hc
    rcases h.visited c hcr (hnp c) with hf | hcur | ⟨hcin, hclt⟩
    · exact hcf hf
    · cases hcur
    · exact ih _ (hk ▸ size_lt_of_mem (tree.hasSize hin.1.1) hc) c rfl hcin hclt

/-! ### Popping the queue -/

section Pop

variable {cur : α} {queue : List α} {sizes : α → Option Nat} {counts : α → Nat} {finished : List α}
  (h : CountInv block children sizes0 (cur :: queue) sizes counts finished none)
include h

theorem CountInv.head_reached : Reached block children sizes0 cur :=
  h.queue_reached cur List.mem_cons_self

/-- The queue holds no block below another, so nothing left in it is above its head. -/
theorem CountInv.head_not_pending : ¬ Pending children queue cur := fun ⟨q, hq, hqc⟩ =>
  ((List.pairwise_cons.mp h.queue_apart).1 q hq).2 hqc

theorem CountInv.head_not_finished : cur ∉ finished := fun hf =>
  (h.finished_reached cur hf).2 pending_head

/-- What is left of the invariant once the head is out of the queue and reported as `cur`. -/
theorem CountInv.pop_report {sizes' : α → Option Nat}
    (hvisited : ∀ x, Reached block children sizes0 x → Below children cur x → x = cur)
    (hsizes : ∀ x, x ≠ cur → sizes' x = sizes x) (hcur : sizes' cur = some (size children cur))
    (hinner : ¬ Inner block children sizes0 cur) :
    CountInv block children sizes0 queue sizes' counts finished (some cur) where
  queue_reached q hq := h.queue_reached q (List.mem_cons_of_mem _ hq)
  queue_apart := (List.pairwise_cons.mp h.queue_apart).2
  finished_reached x hx :=
    ⟨(h.finished_reached x hx).1, fun hp => (h.finished_reached x hx).2 (pending_cons.mpr (.inr hp))⟩
  finished_nodup := h.finished_nodup
  cur_reached x hx := by
    cases hx
    exact ⟨h.head_reached, h.head_not_pending, h.head_not_finished⟩
  fresh x hx hp := by
    have hne : x ≠ cur := fun hxc => h.head_not_pending (hxc ▸ hp)
    rw [hsizes x hne]
    exact h.fresh x hx (pending_cons.mpr (.inr hp))
  visited x hx hnp := by
    by_cases hcx : Below children cur x
    · exact .inr (.inl (congrArg some (hvisited x hx hcx).symm))
    · rcases h.visited x hx (not_pending_cons hnp hcx) with hf | hc | hw
      · exact .inl hf
      · cases hc
      · exact .inr (.inr hw)
  counts_eq x hx hnp := by
    by_cases hcx : Below children cur x
    · exact absurd (hvisited x hx.1 hcx ▸ hx) hinner
    · exact h.counts_eq x hx (not_pending_cons hnp hcx)
  sizes_eq x hx := by
    rcases hx with hf | hc
    · have hne : x ≠ cur := fun hxc => h.head_not_finished (hxc ▸ hf)
      rw [hsizes x hne]
      exact h.sizes_eq x (.inl hf)
    · cases hc
      exact hcur
  children_finished x hx hin := by
    rcases hx with hf | hc
    · exact h.children_finished x (.inl hf) hin
    · cases hc
      exact absurd hin hinner
  frame x hx := by
    have hne : x ≠ cur := fun hxc => hx (hxc ▸ h.head_reached)
    rw [hsizes x hne]
    exact h.frame x hx

theorem CountInv.pop_leaf (tree : StoredTree store block children) (hleaf : children cur = []) :
    CountInv block children sizes0 queue (Function.update sizes cur (some 1)) counts finished (some cur) := by
  refine h.pop_report (fun x _ hcx => ?_) (fun x hne => Function.update_of_ne hne _ _) ?_
    (fun hin => hin.2.2 hleaf)
  · rcases hcx.eq_or_head with hxc | ⟨c, hc, -⟩
    · exact hxc.symm
    · rw [hleaf] at hc
      exact absurd hc List.not_mem_nil
  · rw [Function.update_self, size_eq_sum (tree.hasSize h.head_reached.1), hleaf]
    rfl

/-- Popping a block whose size is cached: it is not descended into, and reports. -/
theorem CountInv.pop_cached (hcache : CacheCorrect block children sizes0) {n : Nat}
    (hcached : sizes cur = some n) :
    CountInv block children sizes0 queue sizes counts finished (some cur) := by
  have hsizes0 : sizes0 cur = some n := (h.fresh cur h.head_reached pending_head).2 ▸ hcached
  refine h.pop_report (fun x hx hcx => ?_) (fun _ _ => rfl) ?_ (fun hin => by simp [hin.2.1] at hsizes0)
  · by_contra hne
    exact not_reached_of_below_cached h.head_reached (by simp [hsizes0]) hcx (Ne.symm hne) hx
  · rw [hcached, size_eq (hcache cur n h.head_reached.1 hsizes0)]

/-- Popping a block whose size is unknown and that has children: they are queued in its place,
and it waits for all of them. -/
theorem CountInv.pop_expand (tree : StoredTree store block children) (hne : children cur ≠ [])
    (hnone : sizes cur = none) :
    CountInv block children sizes0 (queue ++ children cur) sizes counts finished none := by
  have hfresh := h.fresh cur h.head_reached pending_head
  have hinner : Inner block children sizes0 cur := ⟨h.head_reached, hfresh.2 ▸ hnone, hne⟩
  have hapart := List.pairwise_cons.mp h.queue_apart
  -- what is pending now was pending before
  have hpend : ∀ x, Pending children (queue ++ children cur) x → Pending children (cur :: queue) x := by
    intro x hp
    rcases pending_append.mp hp with hp | ⟨c, hc, hcx⟩
    · exact pending_cons.mpr (.inr hp)
    · exact pending_cons.mpr (.inl (.child hc hcx))
  -- the children of `cur` are queued, so none is finished
  have hcf : ∀ c ∈ children cur, c ∉ finished := fun c hc hf =>
    (h.finished_reached c hf).2 (hpend c (pending_append.mpr (.inr ⟨c, hc, .refl c⟩)))
  have hvis : ∀ x, ¬ Pending children (queue ++ children cur) x → Below children cur x → x = cur := by
    intro x hnp hcx
    rcases hcx.eq_or_head with hxc | ⟨c, hc, hcx⟩
    · exact hxc.symm
    · exact absurd (pending_append.mpr (.inr ⟨c, hc, hcx⟩)) hnp
  have hcount : (children cur).countP (· ∈ finished) = 0 :=
    List.countP_eq_zero.mpr fun c hc => by simpa using hcf c hc
  refine
    { queue_reached := fun q hq => ?_
      queue_apart := ?_
      finished_reached := fun x hx => ⟨(h.finished_reached x hx).1,
        fun hp => (h.finished_reached x hx).2 (hpend x hp)⟩
      finished_nodup := h.finished_nodup
      cur_reached := fun _ hx => nomatch hx
      fresh := fun x hx hp => h.fresh x hx (hpend x hp)
      visited := fun x hx hnp => ?_
      counts_eq := fun x hx hnp => ?_
      sizes_eq := h.sizes_eq
      children_finished := h.children_finished
      frame := h.frame }
  · rcases List.mem_append.mp hq with hq | hq
    · exact h.queue_reached q (List.mem_cons_of_mem _ hq)
    · exact tree.reached_child hinner hq
  · refine List.pairwise_append.mpr ⟨hapart.2, ?_, fun q hq c hc => ?_⟩
    · -- siblings: one below another would put their parent below a child of its own
      refine List.Pairwise.imp_of_mem (fun {c c'} hc hc' hcc' => ?_) (tree.nodup cur h.head_reached.1)
      have hcycle : ∀ {a b : α}, a ∈ children cur → b ∈ children cur → a ≠ b → ¬ Below children a b :=
        fun ha hb hab hbelow => (tree.hasSize h.head_reached.1).not_below_child ha
          (tree.below_parent (h.head_reached.1.tail ha) h.head_reached.1 hbelow hab hb)
      exact ⟨hcycle hc hc' hcc', hcycle hc' hc (Ne.symm hcc')⟩
    · -- a queued block and a child of `cur` are apart because `cur` and the block are
      have hq' := hapart.1 q hq
      refine ⟨fun hqc => ?_, fun hcq => hq'.1 (.child hc hcq)⟩
      by_cases hqc' : q = c
      · exact hq'.1 (hqc' ▸ .of_mem hc)
      · exact hq'.2 (tree.below_parent (h.queue_reached q (List.mem_cons_of_mem _ hq)).1
          h.head_reached.1 hqc hqc' hc)
  · by_cases hcx : Below children cur x
    · rw [hvis x hnp hcx]
      exact .inr (.inr ⟨hinner, by rw [hcount]; exact List.length_pos_iff.mpr hne⟩)
    · rcases h.visited x hx (not_pending_cons (fun hp => hnp (pending_append.mpr (.inl hp))) hcx) with
        hf | hc | hw
      · exact .inl hf
      · cases hc
      · exact .inr (.inr hw)
  · by_cases hcx : Below children cur x
    · rw [hvis x hnp hcx, hcount]
      exact hfresh.1
    · exact h.counts_eq x hx (not_pending_cons (fun hp => hnp (pending_append.mpr (.inl hp))) hcx)

end Pop

/-! ### Reporting up the parent chain -/

section Report

variable {cur : α} {queue : List α} {sizes : α → Option Nat} {counts : α → Nat} {finished : List α}
  (h : CountInv block children sizes0 queue sizes counts finished (some cur))
include h

theorem CountInv.finish_block (tree : StoredTree store block children) (hb : cur = block) :
    CountInv block children sizes0 queue sizes counts (finished ++ [block]) none := by
  subst hb
  obtain ⟨hr, hnp, hnf⟩ := h.cur_reached cur rfl
  have hcount : ∀ x, Inner cur children sizes0 x →
      (children x).countP (· ∈ finished ++ [cur]) = (children x).countP (· ∈ finished) :=
    fun x hx => countP_concat_of_not_mem (tree.block_not_mem hx.1.1)
  refine
    { queue_reached := h.queue_reached
      queue_apart := h.queue_apart
      finished_reached := fun x hx => ?_
      finished_nodup := nodup_concat h.finished_nodup hnf
      cur_reached := fun _ hx => nomatch hx
      fresh := h.fresh
      visited := fun x hx hp => ?_
      counts_eq := fun x hx hp => (h.counts_eq x hx hp).trans (hcount x hx).symm
      sizes_eq := fun x hx => ?_
      children_finished := fun x hx hin c hc => ?_
      frame := h.frame }
  · rcases List.mem_append.mp hx with hx | hx
    · exact h.finished_reached x hx
    · rw [List.mem_singleton.mp hx]
      exact ⟨hr, hnp⟩
  · rcases h.visited x hx hp with hf | hc | ⟨hin, hlt⟩
    · exact .inl (List.mem_append_left _ hf)
    · cases hc
      exact .inl (List.mem_append_right _ (List.mem_singleton_self _))
    · exact .inr (.inr ⟨hin, (hcount x hin).symm ▸ hlt⟩)
  · rcases hx with hx | hx
    · rcases List.mem_append.mp hx with hx | hx
      · exact h.sizes_eq x (.inl hx)
      · rw [List.mem_singleton.mp hx]
        exact h.sizes_eq cur (.inr rfl)
    · cases hx
  · rcases hx with hx | hx
    · rcases List.mem_append.mp hx with hx | hx
      · exact List.mem_append_left _ (h.children_finished x (.inl hx) hin c hc)
      · rw [List.mem_singleton.mp hx] at hin hc
        exact List.mem_append_left _ (h.children_finished cur (.inr rfl) hin c hc)
    · cases hx

/-- `cur` reports to its parent `p`, visited and waiting: the finished children of `p` now
include `cur`, and no other block has `cur` as a child. -/
theorem CountInv.report_facts (tree : StoredTree store block children) {p : α}
    (hcur : cur ∈ children p) (hp : Inner block children sizes0 p) :
    ¬ Pending children queue p ∧ cur ∉ finished ∧
      (children p).countP (· ∈ finished ++ [cur]) = counts p + 1 ∧
      ∀ x, Inner block children sizes0 x → x ≠ p →
        (children x).countP (· ∈ finished ++ [cur]) = (children x).countP (· ∈ finished) := by
  obtain ⟨-, hcnp, hnf⟩ := h.cur_reached cur rfl
  have hnp : ¬ Pending children queue p := fun ⟨q, hq, hqp⟩ => hcnp ⟨q, hq, hqp.tail hcur⟩
  refine ⟨hnp, hnf, ?_, fun x hx hxp => countP_concat_of_not_mem fun hcx => hxp ?_⟩
  · rw [h.counts_eq p hp hnp]
    exact countP_concat_of_mem (tree.nodup p hp.1.1) hcur hnf
  · exact tree.parent_unique hx.1.1 hp.1.1 hcx hcur

theorem CountInv.report_wait (tree : StoredTree store block children) {p : α}
    (hcur : cur ∈ children p) (hp : Inner block children sizes0 p)
    (hlt : counts p + 1 < (children p).length) :
    CountInv block children sizes0 queue sizes (Function.update counts p (counts p + 1))
      (finished ++ [cur]) none := by
  obtain ⟨hnp, hnf, hcountp, hcount⟩ := h.report_facts tree hcur hp
  obtain ⟨hcr, hcnp, -⟩ := h.cur_reached cur rfl
  refine
    { queue_reached := h.queue_reached
      queue_apart := h.queue_apart
      finished_reached := fun x hx => ?_
      finished_nodup := nodup_concat h.finished_nodup hnf
      cur_reached := fun _ hx => nomatch hx
      fresh := fun x hx hpx => ?_
      visited := fun x hx hpx => ?_
      counts_eq := fun x hx hpx => ?_
      sizes_eq := fun x hx => ?_
      children_finished := fun x hx hin c hc => ?_
      frame := h.frame }
  · rcases List.mem_append.mp hx with hx | hx
    · exact h.finished_reached x hx
    · rw [List.mem_singleton.mp hx]
      exact ⟨hcr, hcnp⟩
  · rw [Function.update_of_ne (fun hxp : x = p => hnp (hxp ▸ hpx))]
    exact h.fresh x hx hpx
  · by_cases hxp : x = p
    · subst hxp
      exact .inr (.inr ⟨hp, hcountp ▸ hlt⟩)
    · rcases h.visited x hx hpx with hf | hc | ⟨hin, hlt'⟩
      · exact .inl (List.mem_append_left _ hf)
      · cases hc
        exact .inl (List.mem_append_right _ (List.mem_singleton_self _))
      · exact .inr (.inr ⟨hin, (hcount x hin hxp).symm ▸ hlt'⟩)
  · by_cases hxp : x = p
    · subst hxp
      rw [Function.update_self, hcountp]
    · rw [Function.update_of_ne hxp, hcount x hx hxp]
      exact h.counts_eq x hx hpx
  · rcases hx with hx | hx
    · rcases List.mem_append.mp hx with hx | hx
      · exact h.sizes_eq x (.inl hx)
      · rw [List.mem_singleton.mp hx]
        exact h.sizes_eq cur (.inr rfl)
    · cases hx
  · rcases hx with hx | hx
    · rcases List.mem_append.mp hx with hx | hx
      · exact List.mem_append_left _ (h.children_finished x (.inl hx) hin c hc)
      · rw [List.mem_singleton.mp hx] at hin hc
        exact List.mem_append_left _ (h.children_finished cur (.inr rfl) hin c hc)
    · cases hx

/-- The parent's last child reported: the parent gets the sum of their sizes and one, and reports
in turn. -/
theorem CountInv.report_finish (tree : StoredTree store block children) {p : α}
    (hcur : cur ∈ children p) (hp : Inner block children sizes0 p)
    (heq : counts p + 1 = (children p).length) :
    CountInv block children sizes0 queue (Function.update sizes p (some (size children p)))
      (Function.update counts p (counts p + 1)) (finished ++ [cur]) (some p) := by
  obtain ⟨hnp, hnf, hcountp, hcount⟩ := h.report_facts tree hcur hp
  obtain ⟨hcr, hcnp, -⟩ := h.cur_reached cur rfl
  have hall : ∀ c ∈ children p, c ∈ finished ++ [cur] := fun c hc =>
    of_decide_eq_true (List.countP_eq_length.mp (hcountp.trans heq) c hc)
  -- `p` was waiting, so it is neither finished nor `cur`
  have hpf : p ∉ finished ++ [cur] := by
    intro hpf
    rcases List.mem_append.mp hpf with hpf | hpf
    · exact hnf (h.children_finished p (.inl hpf) hp cur hcur)
    · rw [List.mem_singleton.mp hpf] at hcur
      exact (tree.hasSize hcr.1).not_below_child hcur (.refl _)
  refine
    { queue_reached := h.queue_reached
      queue_apart := h.queue_apart
      finished_reached := fun x hx => ?_
      finished_nodup := nodup_concat h.finished_nodup hnf
      cur_reached := fun x hx => ?_
      fresh := fun x hx hpx => ?_
      visited := fun x hx hpx => ?_
      counts_eq := fun x hx hpx => ?_
      sizes_eq := fun x hx => ?_
      children_finished := fun x hx hin c hc => ?_
      frame := fun x hx => ?_ }
  · rcases List.mem_append.mp hx with hx | hx
    · exact h.finished_reached x hx
    · rw [List.mem_singleton.mp hx]
      exact ⟨hcr, hcnp⟩
  · cases hx
    exact ⟨hp.1, hnp, hpf⟩
  · have hxp : x ≠ p := fun hxp => hnp (hxp ▸ hpx)
    rw [Function.update_of_ne hxp, Function.update_of_ne hxp]
    exact h.fresh x hx hpx
  · by_cases hxp : x = p
    · exact .inr (.inl (congrArg some hxp.symm))
    · rcases h.visited x hx hpx with hf | hc | ⟨hin, hlt'⟩
      · exact .inl (List.mem_append_left _ hf)
      · cases hc
        exact .inl (List.mem_append_right _ (List.mem_singleton_self _))
      · exact .inr (.inr ⟨hin, (hcount x hin hxp).symm ▸ hlt'⟩)
  · by_cases hxp : x = p
    · subst hxp
      rw [Function.update_self, hcountp]
    · rw [Function.update_of_ne hxp, hcount x hx hxp]
      exact h.counts_eq x hx hpx
  · rcases hx with hx | hx
    · have hxp : x ≠ p := fun hxp => hpf (hxp ▸ hx)
      rw [Function.update_of_ne hxp]
      rcases List.mem_append.mp hx with hx | hx
      · exact h.sizes_eq x (.inl hx)
      · rw [List.mem_singleton.mp hx]
        exact h.sizes_eq cur (.inr rfl)
    · cases hx
      exact Function.update_self _ _ _
  · rcases hx with hx | hx
    · rcases List.mem_append.mp hx with hx | hx
      · exact List.mem_append_left _ (h.children_finished x (.inl hx) hin c hc)
      · rw [List.mem_singleton.mp hx] at hin hc
        exact List.mem_append_left _ (h.children_finished cur (.inr rfl) hin c hc)
    · cases hx
      exact hall c hc
  · have hxp : x ≠ p := fun hxp => hx (hxp ▸ hp.1)
    rw [Function.update_of_ne hxp]
    exact h.frame x hx

end Report

/-! ### The two loops -/

omit [DecidableEq α] in
theorem foldlM_subtreeSize {sizes : α → Option Nat} {f : α → Nat} :
    ∀ {cs : List α} {acc : Nat}, (∀ c ∈ cs, sizes c = some (f c)) → acc + (cs.map f).sum < 2 ^ 64 →
      cs.foldlM (fun sum c => do Checked.add 64 sum (← subtreeSize sizes c)) acc =
        .ok (acc + (cs.map f).sum)
  | [], acc, _, _ => by rw [List.foldlM_nil, List.map_nil, List.sum_nil, Nat.add_zero]; rfl
  | c :: cs, acc, hsizes, hfit => by
    rw [List.map_cons, List.sum_cons] at hfit ⊢
    rw [List.foldlM_cons]
    simp only [subtreeSize, hsizes c List.mem_cons_self, Checked.expect, Except.ok_bind]
    rw [Checked.add_of_lt (by omega), Except.ok_bind, ← Nat.add_assoc]
    exact foldlM_subtreeSize (fun c' hc' => hsizes c' (List.mem_cons_of_mem _ hc')) (by omega)

/-- The push up from a finished block never aborts and leaves the loop's invariant, when the bound
covers the climb to `block`: the sizes strictly grow on the way up. -/
theorem pushUp_spec (tree : StoredTree store block children) {queue : List α} :
    ∀ (fuel : Nat) (sizes : α → Option Nat) (counts : α → Nat) (finished : List α) (cur : α),
      size children block - size children cur < fuel →
      CountInv block children sizes0 queue sizes counts finished (some cur) →
      ∃ sizes' counts' finished', pushUp store block fuel sizes counts cur = .ok (sizes', counts') ∧
        CountInv block children sizes0 queue sizes' counts' finished' none := by
  intro fuel
  induction fuel with
  | zero => intro _ _ _ _ hfuel; omega
  | succ fuel ih =>
    intro sizes counts finished cur hfuel h
    obtain ⟨hcr, -, -⟩ := h.cur_reached cur rfl
    unfold pushUp
    by_cases hb : cur = block
    · rw [if_pos hb]
      exact ⟨sizes, counts, finished ++ [block], rfl, h.finish_block tree hb⟩
    rw [if_neg hb]
    -- the parent `p` of `cur` waits for its children
    obtain ⟨p, hcur, hp⟩ := hcr.parent hb
    have hcountp := h.counts_eq p hp (h.report_facts tree hcur hp).1
    have hlen := length_lt_size (tree.hasSize hp.1.1)
    have hplt := tree.size_lt hp.1.1
    have hle : counts p + 1 ≤ (children p).length := by
      have := (h.report_facts tree hcur hp).2.2.1
      rw [← this]
      exact List.countP_le_length
    rw [tree.getParent_eq p hp.1.1 cur hcur, Except.ok_bind, tree.getChildren_eq p hp.1.1,
      Except.ok_bind, Checked.add_of_lt (by omega), Except.ok_bind]
    dsimp only
    by_cases hlt : counts p + 1 < (children p).length
    · rw [if_pos hlt]
      exact ⟨sizes, _, finished ++ [cur], rfl, h.report_wait tree hcur hp hlt⟩
    rw [if_neg hlt]
    -- every child of `p` has reported: its size is the sum of theirs and one
    have h' := h.report_finish tree hcur hp (by omega)
    have hsum := size_eq_sum (tree.hasSize hp.1.1)
    have hsizes : ∀ c ∈ children p, sizes c = some (size children c) := fun c hc => by
      have hcf := h'.children_finished p (.inr rfl) hp c hc
      rcases List.mem_append.mp hcf with hcf | hcf
      · exact h.sizes_eq c (.inl hcf)
      · rw [List.mem_singleton.mp hcf]
        exact h.sizes_eq cur (.inr rfl)
    have hfold := @foldlM_subtreeSize _ sizes (size children) (children p) 0 hsizes (by omega)
    rw [subtreeSum, hfold, Except.ok_bind, Nat.zero_add, Checked.add_of_lt (by omega), Except.ok_bind,
      ← hsum]
    have hup := size_lt_of_mem (tree.hasSize hp.1.1) hcur
    have hbelow := size_le_of_below (tree.hasSize (.refl block)) hp.1.1
    exact ih _ _ _ p (by omega) h'

/-- The queue loop never aborts and empties the queue, when the bound covers the sizes of the
queued subtrees and one climb: each pass takes a block off and queues only its children. -/
theorem countLoop_spec (tree : StoredTree store block children) (hcache : CacheCorrect block children sizes0) :
    ∀ (fuel : Nat) (sizes : α → Option Nat) (counts : α → Nat) (finished : List α) (queue : List α),
      (queue.map (size children)).sum + size children block ≤ fuel →
      CountInv block children sizes0 queue sizes counts finished none →
      ∃ sizes' counts' finished', countLoop store block fuel sizes counts queue = .ok sizes' ∧
        CountInv block children sizes0 [] sizes' counts' finished' none := by
  have hblock := size_pos (tree.hasSize (.refl block))
  intro fuel
  induction fuel with
  | zero => intro _ _ _ _ hfuel; omega
  | succ fuel ih =>
    intro sizes counts finished queue hfuel h
    cases queue with
    | nil => exact ⟨sizes, counts, finished, rfl, h⟩
    | cons cur queue =>
      have hcr := h.head_reached
      have hpos := size_pos (tree.hasSize hcr.1)
      rw [List.map_cons, List.sum_cons] at hfuel
      unfold countLoop
      rw [tree.getChildren_eq cur hcr.1, Except.ok_bind]
      by_cases hleaf : (children cur).isEmpty = true
      · -- a leaf
        rw [if_pos hleaf]
        obtain ⟨sizes', counts', finished', hpush, h'⟩ := pushUp_spec tree fuel _ _ _ cur (by omega)
          (h.pop_leaf tree (List.isEmpty_iff.mp hleaf))
        rw [hpush, Except.ok_bind]
        exact ih _ _ _ queue (by omega) h'
      rw [if_neg hleaf]
      by_cases hnone : sizes cur = none
      · -- a block to descend into: its children replace it in the queue
        rw [if_pos hnone]
        have hsum := size_eq_sum (tree.hasSize hcr.1)
        refine ih _ _ _ (queue ++ children cur) ?_
          (h.pop_expand tree (fun he => hleaf (List.isEmpty_iff.mpr he)) hnone)
        rw [List.map_append, List.sum_append]
        omega
      · -- a block of known size
        rw [if_neg hnone]
        obtain ⟨n, hn⟩ := Option.ne_none_iff_exists'.mp hnone
        obtain ⟨sizes', counts', finished', hpush, h'⟩ := pushUp_spec tree fuel _ _ _ cur (by omega)
          (h.pop_cached hcache hn)
        rw [hpush, Except.ok_bind]
        exact ih _ _ _ queue (by omega) h'

end Counting

/-! ## What `count_subtrees` computes -/

section Spec

variable {store} {children : α → List α} {sizes0 : α → Option Nat}

theorem cacheCorrect_new : CacheCorrect block children (ReindexOperationContext.new store).subtreeSizes :=
  fun _ _ _ h => by cases h

theorem cacheClosed_new : CacheClosed block children (ReindexOperationContext.new store).subtreeSizes :=
  fun _ _ _ h => absurd rfl h

theorem CacheCorrect.eq_size (hcache : CacheCorrect block children sizes0) {x : α} {n : Nat}
    (hx : Below children block x) (hn : sizes0 x = some n) : n = size children x :=
  (size_eq (hcache x n hx hn)).symm

/-- A block of the tree that the queue does not reach lies below a cached block, and so is cached
itself when the cache is closed. -/
theorem cached_of_not_reached (hclosed : CacheClosed block children sizes0) {x : α}
    (hx : Below children block x) (hr : ¬ Reached block children sizes0 x) : sizes0 x ≠ none := by
  intro hnone
  refine hr ⟨hx, fun y c hy hc hcx => ?_⟩
  by_contra hy'
  exact hclosed y x hy hy' ((Below.of_mem hc).trans hcx) hnone

/-- A cache that holds every block of the tree with its count, and is as before elsewhere, is
correct and closed, keeps every entry, and holds each block as one more than its children. -/
theorem counted_of_sizes (tree : StoredTree store block children)
    (hcache : CacheCorrect block children sizes0) {sizes : α → Option Nat}
    (hsize : ∀ x, Below children block x → sizes x = some (size children x))
    (hframe : ∀ x, ¬ Below children block x → sizes x = sizes0 x) :
    CacheCorrect block children sizes ∧ CacheClosed block children sizes ∧
      (∀ x n, sizes0 x = some n → sizes x = some n) ∧
      ∀ x, Below children block x →
        ∃ ns, List.Forall₂ (fun c m => sizes c = some m) (children x) ns ∧
          sizes x = some (ns.sum + 1) := by
  refine ⟨fun x n hx hn => ?_, fun x y hx _ hxy => ?_, fun x n hn => ?_, fun x hx => ?_⟩
  · rw [hsize x hx, Option.some_inj] at hn
    exact hn ▸ tree.hasSize hx
  · rw [hsize y (hx.trans hxy)]
    exact Option.some_ne_none _
  · by_cases hx : Below children block x
    · rw [hsize x hx, hcache.eq_size hx hn]
    · rw [hframe x hx, hn]
  · refine ⟨(children x).map (size children), ?_, ?_⟩
    · exact List.forall₂_map_right_iff.mpr (List.forall₂_same.mpr fun c hc => hsize c (hx.tail hc))
    · rw [hsize x hx, size_eq_sum (tree.hasSize hx)]

/-- `count_subtrees` from a correct and closed cache returns for every bound from twice the size of
the tree, every block of the tree then holds its count, and every other block is left alone. -/
theorem countSubtrees_sizes [DecidableEq α] {ctx : ReindexOperationContext α}
    (tree : StoredTree ctx.store block children) (hcache : CacheCorrect block children ctx.subtreeSizes)
    (hclosed : CacheClosed block children ctx.subtreeSizes) {fuel : Nat}
    (hfuel : 2 * size children block ≤ fuel) :
    ∃ ctx', countSubtrees fuel ctx block = .ok ctx' ∧ ctx'.store = ctx.store ∧
      (∀ x, Below children block x → ctx'.subtreeSizes x = some (size children x)) ∧
      ∀ x, ¬ Below children block x → ctx'.subtreeSizes x = ctx.subtreeSizes x := by
  by_cases hb : (ctx.subtreeSizes block).isSome
  · -- `block` is cached, and so, the cache being closed, is all of its tree
    refine ⟨ctx, by rw [countSubtrees, if_pos hb], rfl, fun x hx => ?_, fun _ _ => rfl⟩
    obtain ⟨n, hn⟩ := Option.ne_none_iff_exists'.mp
      (hclosed block x (.refl block) (Option.isSome_iff_ne_none.mp hb) hx)
    rw [hn, hcache.eq_size hx hn]
  obtain ⟨sizes', counts', finished', hloop, h⟩ := countLoop_spec tree hcache fuel
    ctx.subtreeSizes (fun _ => 0) [] [block] (by simp; omega) (countInv_init tree)
  have hall := h.all_finished tree
  refine ⟨{ ctx with subtreeSizes := sizes' }, ?_, rfl, fun x hx => ?_,
    fun x hx => h.frame x fun hr => hx hr.1⟩
  · rw [countSubtrees, if_neg hb, hloop, Except.ok_bind]
    rfl
  · -- a reached block is counted; any other lies below a cached block and keeps its cached count
    dsimp only
    by_cases hr : Reached block children ctx.subtreeSizes x
    · exact h.sizes_eq x (.inl (hall x hr))
    · obtain ⟨n, hn⟩ := Option.ne_none_iff_exists'.mp (cached_of_not_reached hclosed hx hr)
      rw [h.frame x hr, hn, hcache.eq_size hx hn]

/-- `count_subtrees` from a cache that is correct and closed (as `ReindexOperationContext::new`
and every call leave it), on a stored tree of fewer than `2 ^ 64` blocks, returns for every bound
from twice the size of the tree. The cache stays correct and closed, keeps every entry, and leaves
every block outside the tree alone; every block of the tree then holds one more than the sum of
its children's sizes. -/
theorem countSubtrees_spec [DecidableEq α] {ctx : ReindexOperationContext α}
    (tree : StoredTree ctx.store block children) (hcache : CacheCorrect block children ctx.subtreeSizes)
    (hclosed : CacheClosed block children ctx.subtreeSizes) {fuel : Nat}
    (hfuel : 2 * size children block ≤ fuel) :
    ∃ ctx', countSubtrees fuel ctx block = .ok ctx' ∧ ctx'.store = ctx.store ∧
      CacheCorrect block children ctx'.subtreeSizes ∧ CacheClosed block children ctx'.subtreeSizes ∧
      (∀ x n, ctx.subtreeSizes x = some n → ctx'.subtreeSizes x = some n) ∧
      (∀ x, ¬ Below children block x → ctx'.subtreeSizes x = ctx.subtreeSizes x) ∧
      ∀ x, Below children block x →
        ∃ ns, List.Forall₂ (fun c m => ctx'.subtreeSizes c = some m) (children x) ns ∧
          ctx'.subtreeSizes x = some (ns.sum + 1) := by
  obtain ⟨ctx', hrun, hstore, hsize, hframe⟩ := countSubtrees_sizes tree hcache hclosed hfuel
  obtain ⟨hcache', hclosed', hkeep, hsum⟩ := counted_of_sizes tree hcache hsize hframe
  exact ⟨ctx', hrun, hstore, hcache', hclosed', hkeep, hframe, hsum⟩

/-! ## Calls one after the other -/

variable {root b : α}

theorem StoredTree.sub (tree : StoredTree store root children) (hb : Below children root b) :
    StoredTree store b children where
  getChildren_eq x hx := tree.getChildren_eq x (hb.trans hx)
  getParent_eq x hx := tree.getParent_eq x (hb.trans hx)
  nodup x hx := tree.nodup x (hb.trans hx)
  finite := ⟨size children b, tree.hasSize hb, tree.size_lt hb⟩

theorem CacheCorrect.sub (h : CacheCorrect root children sizes0) (hb : Below children root b) :
    CacheCorrect b children sizes0 :=
  fun x n hx hn => h x n (hb.trans hx) hn

theorem CacheClosed.sub (h : CacheClosed root children sizes0) (hb : Below children root b) :
    CacheClosed b children sizes0 :=
  fun x y hx => h x y (hb.trans hx)

/-- Counting the tree under a block `b` of the tree under `root`, and leaving every other block
alone, keeps the cache of the whole tree correct and closed. -/
theorem cache_of_sub (tree : StoredTree store root children) (hcache : CacheCorrect root children sizes0)
    (hclosed : CacheClosed root children sizes0) {sizes : α → Option Nat}
    (hsize : ∀ x, Below children b x → sizes x = some (size children x))
    (hframe : ∀ x, ¬ Below children b x → sizes x = sizes0 x) :
    CacheCorrect root children sizes ∧ CacheClosed root children sizes := by
  refine ⟨fun x n hx hn => ?_, fun x y hx hxs hxy => ?_⟩
  · by_cases hbx : Below children b x
    · rw [hsize x hbx, Option.some_inj] at hn
      exact hn ▸ tree.hasSize hx
    · exact hcache x n hx (hframe x hbx ▸ hn)
  · by_cases hby : Below children b y
    · rw [hsize y hby]
      exact Option.some_ne_none _
    · -- `x` is not under `b` either, so both keep their entries
      have hbx : ¬ Below children b x := fun hbx => hby (hbx.trans hxy)
      rw [hframe y hby]
      exact hclosed x y hx (hframe x hbx ▸ hxs) hxy

/-- The run lemma: calls on blocks of the tree under `root`, from a correct and closed cache, all
return, keep the cache correct and closed and every entry in it, and fill the tree under each
block called. -/
theorem foldlM_countSubtrees [DecidableEq α] (tree : StoredTree store root children) {fuel : Nat}
    (hfuel : 2 * size children root ≤ fuel) :
    ∀ (blocks : List α) (ctx : ReindexOperationContext α), (∀ b ∈ blocks, Below children root b) →
      ctx.store = store → CacheCorrect root children ctx.subtreeSizes →
      CacheClosed root children ctx.subtreeSizes →
      ∃ ctx', blocks.foldlM (fun ctx b => countSubtrees fuel ctx b) ctx = .ok ctx' ∧
        ctx'.store = store ∧ CacheCorrect root children ctx'.subtreeSizes ∧
        CacheClosed root children ctx'.subtreeSizes ∧
        (∀ x n, ctx.subtreeSizes x = some n → ctx'.subtreeSizes x = some n) ∧
        ∀ b ∈ blocks, ∀ x, Below children b x → ctx'.subtreeSizes x = some (size children x)
  | [], ctx, _, hs, hcache, hclosed =>
    ⟨ctx, rfl, hs, hcache, hclosed, fun _ _ h => h, fun _ hb => absurd hb List.not_mem_nil⟩
  | b :: blocks, ctx, hblocks, hs, hcache, hclosed => by
    have hb := hblocks b List.mem_cons_self
    have hsub : StoredTree ctx.store b children := by
      rw [hs]
      exact tree.sub hb
    have hbfuel : 2 * size children b ≤ fuel := by
      have := size_le_of_below (tree.hasSize (.refl root)) hb
      omega
    obtain ⟨ctx1, h1, hs1, hsize1, hframe1⟩ :=
      countSubtrees_sizes hsub (hcache.sub hb) (hclosed.sub hb) hbfuel
    obtain ⟨hcache1, hclosed1⟩ := cache_of_sub tree hcache hclosed hsize1 hframe1
    have hkeep1 := (counted_of_sizes hsub (hcache.sub hb) hsize1 hframe1).2.2.1
    obtain ⟨ctx', h', hs', hcache', hclosed', hkeep', hfill'⟩ :=
      foldlM_countSubtrees tree hfuel blocks ctx1
        (fun b' hb' => hblocks b' (List.mem_cons_of_mem _ hb')) (hs1.trans hs) hcache1 hclosed1
    refine ⟨ctx', by rw [List.foldlM_cons, h1, Except.ok_bind, h'], hs', hcache', hclosed',
      fun x n hn => hkeep' x n (hkeep1 x n hn), fun b' hb' x hx => ?_⟩
    rcases List.mem_cons.mp hb' with rfl | hb'
    · exact hkeep' x _ (hsize1 x hx)
    · exact hfill' b' hb' x hx

/-- From the empty cache of `ReindexOperationContext::new`, `count_subtrees` called on blocks of
the tree under `root` one after the other, as `reindex_intervals` calls it up a parent chain,
returns each time for a bound from twice the size of the tree; the cache stays correct and
closed, and every block under a block it was called on holds its count. -/
theorem countSubtrees_calls [DecidableEq α] (tree : StoredTree store root children) {fuel : Nat}
    (hfuel : 2 * size children root ≤ fuel) (blocks : List α)
    (hblocks : ∀ b ∈ blocks, Below children root b) :
    ∃ ctx', blocks.foldlM (fun ctx b => countSubtrees fuel ctx b)
        (ReindexOperationContext.new store) = .ok ctx' ∧
      CacheCorrect root children ctx'.subtreeSizes ∧ CacheClosed root children ctx'.subtreeSizes ∧
      ∀ b ∈ blocks, ∀ x, Below children b x → ctx'.subtreeSizes x = some (size children x) := by
  obtain ⟨ctx', h, -, hcache, hclosed, -, hfill⟩ := foldlM_countSubtrees tree hfuel blocks
    (ReindexOperationContext.new store) hblocks rfl cacheCorrect_new cacheClosed_new
  exact ⟨ctx', h, hcache, hclosed, hfill⟩

end Spec

/-! ## A chain of three blocks -/

/-- The chain `0 → 1 → 2`. -/
def chainChildren (x : Nat) : List Nat := if x < 2 then [x + 1] else []

/-- A store holding the chain `0 → 1 → 2`. -/
def chainStore : TreeStore Nat := ⟨fun x => .ok (chainChildren x), fun x => .ok (x - 1)⟩

theorem chain_hasSize_two : HasSize chainChildren 2 1 :=
  show HasSize chainChildren 2 (([] : List Nat).sum + 1) from .mk .nil

theorem chain_hasSize_one : HasSize chainChildren 1 2 :=
  show HasSize chainChildren 1 (([1] : List Nat).sum + 1) from .mk (.cons chain_hasSize_two .nil)

theorem chain_hasSize_zero : HasSize chainChildren 0 3 :=
  show HasSize chainChildren 0 (([2] : List Nat).sum + 1) from .mk (.cons chain_hasSize_one .nil)

theorem chainStore_stored : StoredTree chainStore 0 chainChildren where
  getChildren_eq _ _ := rfl
  getParent_eq x _ c hc := by
    unfold chainChildren at hc
    split at hc
    · rw [List.mem_singleton.mp hc]
      exact congrArg Except.ok (Nat.add_sub_cancel x 1)
    · exact absurd hc List.not_mem_nil
  nodup x _ := by
    unfold chainChildren
    split
    · exact List.nodup_cons.mpr ⟨List.not_mem_nil, List.nodup_nil⟩
    · exact List.nodup_nil
  finite := ⟨3, chain_hasSize_zero, by decide⟩

theorem chain_fuel : 2 * size chainChildren 0 ≤ 6 := by
  rw [size_eq chain_hasSize_zero]

/-- From the empty cache, the chain gets its sizes. -/
theorem countSubtrees_spec_chain :
    StoredTree chainStore 0 chainChildren ∧
      CacheCorrect 0 chainChildren (ReindexOperationContext.new chainStore).subtreeSizes ∧
      CacheClosed 0 chainChildren (ReindexOperationContext.new chainStore).subtreeSizes ∧
      2 * size chainChildren 0 ≤ 6 ∧
      ∃ ctx', countSubtrees 6 (ReindexOperationContext.new chainStore) 0 = .ok ctx' ∧
        ctx'.store = chainStore ∧ CacheCorrect 0 chainChildren ctx'.subtreeSizes ∧
        CacheClosed 0 chainChildren ctx'.subtreeSizes ∧
        (∀ x n, (ReindexOperationContext.new chainStore).subtreeSizes x = some n →
          ctx'.subtreeSizes x = some n) ∧
        (∀ x, ¬ Below chainChildren 0 x →
          ctx'.subtreeSizes x = (ReindexOperationContext.new chainStore).subtreeSizes x) ∧
        ∀ x, Below chainChildren 0 x →
          ∃ ns, List.Forall₂ (fun c m => ctx'.subtreeSizes c = some m) (chainChildren x) ns ∧
            ctx'.subtreeSizes x = some (ns.sum + 1) :=
  ⟨chainStore_stored, cacheCorrect_new, cacheClosed_new, chain_fuel,
    @countSubtrees_spec Nat 0 chainChildren _ (ReindexOperationContext.new chainStore)
      chainStore_stored cacheCorrect_new cacheClosed_new 6 chain_fuel⟩

/-- `count_subtrees` up the chain from its leaf, as `reindex_intervals` climbs from a new child. -/
theorem countSubtrees_calls_chain :
    StoredTree chainStore 0 chainChildren ∧ 2 * size chainChildren 0 ≤ 6 ∧
      (∀ b ∈ [2, 1, 0], Below chainChildren 0 b) ∧
      ∃ ctx', [2, 1, 0].foldlM (fun ctx b => countSubtrees 6 ctx b)
          (ReindexOperationContext.new chainStore) = .ok ctx' ∧
        CacheCorrect 0 chainChildren ctx'.subtreeSizes ∧ CacheClosed 0 chainChildren ctx'.subtreeSizes ∧
        ∀ b ∈ [2, 1, 0], ∀ x, Below chainChildren b x → ctx'.subtreeSizes x = some (size chainChildren x) := by
  have h1 : Below chainChildren 0 1 := .child (by decide) (.refl 1)
  have h2 : Below chainChildren 0 2 := h1.trans (.child (by decide) (.refl 2))
  have hblocks : ∀ b ∈ [2, 1, 0], Below chainChildren 0 b := by
    simp only [List.mem_cons, List.not_mem_nil, or_false]
    rintro b (rfl | rfl | rfl)
    exacts [h2, h1, .refl 0]
  exact ⟨chainStore_stored, chain_fuel, hblocks,
    countSubtrees_calls chainStore_stored chain_fuel [2, 1, 0] hblocks⟩

end Reindex

end Vecno
