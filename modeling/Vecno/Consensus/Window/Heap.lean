import Vecno.Lib.TopN
import Vecno.Consensus.Ghostdag.Mergeset

/-!
# Bounded block heaps and the window caches

`BlockWindowHeap` as a min-queue list and `BoundedSizeBlockHeap` (`processes/window.rs`). Each
operation keeps `HoldsTop n S heap`: the heap holds the top `n` blocks of `S`.
-/

namespace Vecno

/-! ## The order of `SortableBlock` -/

theorem Hash.toNat_injective : Function.Injective Hash.toNat := by
  have hbytes : ∀ c : Hash, LittleEndian.toLeBytes hashSize c.toNat = c.bytes.reverse := by
    intro c
    have hc := LittleEndian.toLeBytes_fromLeBytes c.bytes.reverse
    rwa [List.length_reverse, c.length_bytes] at hc
  rintro ⟨a, ha⟩ ⟨b, hb⟩ h
  have hrev : a.reverse = b.reverse := by
    rw [← hbytes ⟨a, ha⟩, ← hbytes ⟨b, hb⟩, h]
  simp only [Hash.mk.injEq]
  exact List.reverse_inj.mp hrev

theorem SortableBlock.key_injective : Function.Injective SortableBlock.key := by
  have hwork : ∀ c : SortableBlock, c.key / 2 ^ 256 = c.blueWork := by
    intro c
    rw [SortableBlock.key, Nat.mul_comm, Nat.mul_add_div (Nat.two_pow_pos 256),
      Nat.div_eq_of_lt c.hash.toNat_lt, Nat.add_zero]
  have hhash : ∀ c : SortableBlock, c.key % 2 ^ 256 = c.hash.toNat := by
    intro c
    rw [SortableBlock.key, Nat.mul_comm, Nat.mul_add_mod, Nat.mod_eq_of_lt c.hash.toNat_lt]
  rintro ⟨ha, wa⟩ ⟨hb, wb⟩ h
  have hw : wa = wb := (hwork ⟨ha, wa⟩).symm.trans ((congrArg (· / 2 ^ 256) h).trans (hwork _))
  have hh : ha = hb := Hash.toNat_injective
    ((hhash ⟨ha, wa⟩).symm.trans ((congrArg (· % 2 ^ 256) h).trans (hhash _)))
  rw [hw, hh]

/-- `SortableBlock`'s `Ord`: blue work, then hash. -/
instance : LinearOrder SortableBlock :=
  LinearOrder.lift' SortableBlock.key SortableBlock.key_injective

/-! ## The heaps -/

inductive WindowOrigin where
  | full
  | sampled
deriving DecidableEq

structure BlockWindowHeap where
  blocks : List SortableBlock
  origin : WindowOrigin

namespace BlockWindowHeap

/-- `BlockWindowHeap::new`, and `with_capacity`, whose capacity only sizes the allocation. -/
def new (origin : WindowOrigin) : BlockWindowHeap :=
  ⟨[], origin⟩

def len (heap : BlockWindowHeap) : Nat :=
  heap.blocks.length

/-- `peek`: the greatest `Reverse`, the least block. -/
def peek (heap : BlockWindowHeap) : Option SortableBlock :=
  heap.blocks.min?

/-- `pop`, which takes the least block out. -/
def pop (heap : BlockWindowHeap) : BlockWindowHeap :=
  ⟨TopN.popMin heap.blocks, heap.origin⟩

def push (heap : BlockWindowHeap) (block : SortableBlock) : BlockWindowHeap :=
  ⟨block :: heap.blocks, heap.origin⟩

/-- `append`, which moves the blocks of `other` in. -/
def append (heap other : BlockWindowHeap) : BlockWindowHeap :=
  ⟨heap.blocks ++ other.blocks, heap.origin⟩

theorem blocks_repeat_pop (j : Nat) (heap : BlockWindowHeap) :
    (Nat.repeat pop j heap).blocks = Nat.repeat TopN.popMin j heap.blocks := by
  induction j with
  | zero => rfl
  | succ j ih =>
    change TopN.popMin (Nat.repeat pop j heap).blocks = TopN.popMin (Nat.repeat TopN.popMin j _)
    rw [ih]

end BlockWindowHeap

structure BoundedSizeBlockHeap where
  binaryHeap : BlockWindowHeap
  sizeBound : Nat

namespace BoundedSizeBlockHeap

def fromBinaryHeap (sizeBound : Nat) (binaryHeap : BlockWindowHeap) : BoundedSizeBlockHeap :=
  ⟨binaryHeap, sizeBound⟩

def new (contents : WindowOrigin) (sizeBound : Nat) : BoundedSizeBlockHeap :=
  fromBinaryHeap sizeBound (BlockWindowHeap.new contents)

def reachedSizeBound (heap : BoundedSizeBlockHeap) : Bool :=
  heap.binaryHeap.len == heap.sizeBound

/-- `can_push`; the `unwrap` of `peek` aborts on a full heap of bound zero. -/
def canPush (heap : BoundedSizeBlockHeap) (hash : Hash) (blueWork : BlueWorkType) :
    Except String Bool :=
  let block : SortableBlock := ⟨hash, blueWork⟩
  if heap.reachedSizeBound then do
    let min ← Checked.expect Checked.unwrapNone heap.binaryHeap.peek
    -- `*max >= r_sortable_block` on `Reverse`
    pure (decide (min ≤ block))
  else pure true

def tryPush (heap : BoundedSizeBlockHeap) (hash : Hash) (blueWork : BlueWorkType) :
    Bool × BoundedSizeBlockHeap :=
  let block : SortableBlock := ⟨hash, blueWork⟩
  if heap.reachedSizeBound then
    -- `*max < r_sortable_block` on `Reverse`: the least block is above the new one
    if heap.binaryHeap.peek.any fun min => decide (block < min) then (false, heap)
    else (true, ⟨heap.binaryHeap.pop.push block, heap.sizeBound⟩)
  else (true, ⟨heap.binaryHeap.push block, heap.sizeBound⟩)

/-- `merge_ancestor_heap`; `saturating_sub` is truncated subtraction. -/
def mergeAncestorHeap (heap : BoundedSizeBlockHeap) (ancestorHeap : BlockWindowHeap) :
    BoundedSizeBlockHeap :=
  let binaryHeap := heap.binaryHeap.append ancestorHeap
  ⟨Nat.repeat BlockWindowHeap.pop (binaryHeap.len - heap.sizeBound) binaryHeap, heap.sizeBound⟩

/-- The heap is full and every block it holds is above `block`. -/
def Below (heap : BoundedSizeBlockHeap) (block : SortableBlock) : Prop :=
  heap.binaryHeap.blocks.length = heap.sizeBound ∧ ∀ w ∈ heap.binaryHeap.blocks, block < w

theorem Below.of_le {heap : BoundedSizeBlockHeap} {a b : SortableBlock} (h : heap.Below b)
    (hab : a ≤ b) : heap.Below a :=
  ⟨h.1, fun w hw => lt_of_le_of_lt hab (h.2 w hw)⟩

theorem reachedSizeBound_iff {heap : BoundedSizeBlockHeap} :
    heap.reachedSizeBound = true ↔ heap.binaryHeap.blocks.length = heap.sizeBound := by
  simp [reachedSizeBound, BlockWindowHeap.len]

/-- What `try_push` can do: push below the bound, refuse a block below the least one of a full
heap, or replace the least one. -/
theorem tryPush_cases (heap : BoundedSizeBlockHeap) (hash : Hash) (blueWork : BlueWorkType) :
    (heap.binaryHeap.blocks.length ≠ heap.sizeBound ∧
      heap.tryPush hash blueWork = (true, ⟨heap.binaryHeap.push ⟨hash, blueWork⟩, heap.sizeBound⟩)) ∨
    (∃ m, heap.binaryHeap.blocks.length = heap.sizeBound ∧ heap.binaryHeap.blocks.min? = some m ∧
      ⟨hash, blueWork⟩ < m ∧ heap.tryPush hash blueWork = (false, heap)) ∨
    (heap.binaryHeap.blocks.length = heap.sizeBound ∧
      (∀ m, heap.binaryHeap.blocks.min? = some m → m ≤ ⟨hash, blueWork⟩) ∧
      heap.tryPush hash blueWork =
        (true, ⟨heap.binaryHeap.pop.push ⟨hash, blueWork⟩, heap.sizeBound⟩)) := by
  unfold tryPush
  by_cases hfull : heap.reachedSizeBound = true
  · have hlen := reachedSizeBound_iff.mp hfull
    rw [if_pos hfull]
    -- the comparison is rewritten by hand: `simp` on `decide` of the lifted order makes the
    -- kernel unfold the key's `2 ^ 256`
    cases hm : heap.binaryHeap.blocks.min? with
    | none =>
      have hany : (heap.binaryHeap.peek.any fun min =>
          decide ((⟨hash, blueWork⟩ : SortableBlock) < min)) = false := by
        rw [BlockWindowHeap.peek, hm]
        rfl
      refine .inr (.inr ⟨hlen, fun m h => absurd h.symm (Option.some_ne_none m), ?_⟩)
      rw [hany, if_neg Bool.false_ne_true]
    | some m =>
      by_cases hlt : (⟨hash, blueWork⟩ : SortableBlock) < m
      · have hany : (heap.binaryHeap.peek.any fun min =>
            decide ((⟨hash, blueWork⟩ : SortableBlock) < min)) = true := by
          rw [BlockWindowHeap.peek, hm, Option.any_some]
          exact decide_eq_true hlt
        refine .inr (.inl ⟨m, hlen, rfl, hlt, ?_⟩)
        rw [hany, if_pos rfl]
      · have hany : (heap.binaryHeap.peek.any fun min =>
            decide ((⟨hash, blueWork⟩ : SortableBlock) < min)) = false := by
          rw [BlockWindowHeap.peek, hm, Option.any_some]
          exact decide_eq_false hlt
        refine .inr (.inr ⟨hlen, fun m' h => ?_, ?_⟩)
        · rw [← Option.some.inj h]
          exact not_lt.mp hlt
        · rw [hany, if_neg Bool.false_ne_true]
  · rw [if_neg hfull]
    exact .inl ⟨fun hlen => hfull (reachedSizeBound_iff.mpr hlen), rfl⟩

/-- `try_push` refuses only a block below the least one of a full heap, and then changes
nothing. -/
theorem tryPush_eq_false {heap : BoundedSizeBlockHeap} {hash : Hash} {blueWork : BlueWorkType}
    (h : (heap.tryPush hash blueWork).1 = false) :
    (heap.tryPush hash blueWork).2 = heap ∧ heap.Below ⟨hash, blueWork⟩ := by
  rcases tryPush_cases heap hash blueWork with ⟨-, heq⟩ | ⟨m, hlen, hm, hlt, heq⟩ | ⟨-, -, heq⟩
  · rw [heq] at h
    cases h
  · refine ⟨by rw [heq], hlen, fun w hw => lt_of_lt_of_le hlt ?_⟩
    exact (List.min?_eq_some_iff.mp hm).2 w hw
  · rw [heq] at h
    cases h

@[simp] theorem tryPush_sizeBound (heap : BoundedSizeBlockHeap) (hash : Hash)
    (blueWork : BlueWorkType) : (heap.tryPush hash blueWork).2.sizeBound = heap.sizeBound := by
  rcases tryPush_cases heap hash blueWork with ⟨-, heq⟩ | ⟨m, -, -, -, heq⟩ | ⟨-, -, heq⟩ <;>
    rw [heq]

/-- The heap is bounded by `n` and holds the top `n` of `S`. -/
structure HoldsTop (n : Nat) (S : SortableBlock → Prop) (heap : BoundedSizeBlockHeap) : Prop where
  sizeBound : heap.sizeBound = n
  top : TopN.IsTop n S heap.binaryHeap.blocks

variable {n : Nat} {S T : SortableBlock → Prop} {heap : BoundedSizeBlockHeap}

theorem holdsTop_new (origin : WindowOrigin) (hS : ∀ a, ¬ S a) : HoldsTop n S (new origin n) :=
  ⟨rfl, TopN.isTop_empty n hS⟩

theorem HoldsTop.congr (h : HoldsTop n S heap) (hST : ∀ a, S a ↔ T a) : HoldsTop n T heap :=
  ⟨h.sizeBound, h.top.congr hST⟩

theorem HoldsTop.skip (h : HoldsTop n S heap) {x : SortableBlock} (hx : heap.Below x)
    {R : SortableBlock → Prop} (hR : ∀ r, R r → r ≤ x) : HoldsTop n (fun a => S a ∨ R a) heap :=
  ⟨h.sizeBound, h.top.skip (hx.1.trans h.sizeBound) fun r hr w hw => (hx.of_le (hR r hr)).2 w hw⟩

theorem HoldsTop.tryPush (h : HoldsTop n S heap) (hpos : 0 < n) {hash : Hash}
    {blueWork : BlueWorkType} (hx : ¬ S ⟨hash, blueWork⟩) :
    HoldsTop n (fun a => S a ∨ a = ⟨hash, blueWork⟩) (heap.tryPush hash blueWork).2 := by
  obtain ⟨hbound, htop⟩ := h
  rcases tryPush_cases heap hash blueWork with ⟨hlen, heq⟩ | ⟨m, hlen, hm, hlt, heq⟩ |
    ⟨hlen, hle, heq⟩
  · rw [heq]
    exact ⟨hbound, htop.push (lt_of_le_of_ne htop.length_le (hbound ▸ hlen)) hx⟩
  · -- refused: the new block is below all the heap holds
    rw [heq]
    have hbelow : heap.Below ⟨hash, blueWork⟩ := (tryPush_eq_false (by rw [heq])).2
    exact (HoldsTop.skip ⟨hbound, htop⟩ hbelow fun r hr => le_of_eq hr).congr fun a => Iff.rfl
  · rw [heq]
    have hlen' : heap.binaryHeap.blocks.length = n := hlen.trans hbound
    obtain ⟨m, hm⟩ : ∃ m, heap.binaryHeap.blocks.min? = some m := by
      cases hm : heap.binaryHeap.blocks.min? with
      | none =>
        rw [List.min?_eq_none_iff.mp hm] at hlen'
        exact absurd hlen'.symm (Nat.ne_of_gt hpos)
      | some m => exact ⟨m, rfl⟩
    have hreplace := htop.replace hlen' hm hx (hle m hm)
    refine ⟨hbound, ?_⟩
    simpa only [BlockWindowHeap.push, BlockWindowHeap.pop, TopN.popMin, hm] using hreplace

/-- `can_push` does not abort on a heap of positive bound, and says no only to a block below
all a full heap holds. -/
theorem HoldsTop.canPush (h : HoldsTop n S heap) (hpos : 0 < n) (hash : Hash)
    (blueWork : BlueWorkType) :
    ∃ b, heap.canPush hash blueWork = .ok b ∧ (b = false → heap.Below ⟨hash, blueWork⟩) := by
  unfold BoundedSizeBlockHeap.canPush
  by_cases hfull : heap.reachedSizeBound = true
  · have hlen := reachedSizeBound_iff.mp hfull
    rw [if_pos hfull]
    cases hm : heap.binaryHeap.blocks.min? with
    | none =>
      rw [List.min?_eq_none_iff.mp hm, h.sizeBound] at hlen
      exact absurd hlen.symm (Nat.ne_of_gt hpos)
    | some m =>
      refine ⟨decide (m ≤ ⟨hash, blueWork⟩), by rw [BlockWindowHeap.peek, hm]; rfl,
        fun hb => ?_⟩
      refine ⟨hlen, fun w hw => lt_of_lt_of_le (not_le.mp (of_decide_eq_false hb)) ?_⟩
      exact (List.min?_eq_some_iff.mp hm).2 w hw
  · rw [if_neg hfull]
    exact ⟨true, rfl, fun h => Bool.noConfusion h⟩

/-- Merging the top of a disjoint collection leaves the top of the union. -/
theorem HoldsTop.mergeAncestorHeap (h : HoldsTop n S heap) {ancestorHeap : BlockWindowHeap}
    (hA : TopN.IsTop n T ancestorHeap.blocks) (hST : ∀ a, S a → ¬ T a) :
    HoldsTop n (fun a => S a ∨ T a) (heap.mergeAncestorHeap ancestorHeap) := by
  refine ⟨h.sizeBound, ?_⟩
  have hmerge := h.top.merge hA hST
  simp only [BoundedSizeBlockHeap.mergeAncestorHeap, BlockWindowHeap.blocks_repeat_pop,
    BlockWindowHeap.len,
    BlockWindowHeap.append, h.sizeBound]
  exact hmerge

/-- The run lemma: pushing blocks one by one, none of them twice nor among those it holds the top
of, into a heap with a positive bound leaves the top of all of them. -/
theorem HoldsTop.foldl_tryPush (hpos : 0 < n) :
    ∀ {blocks : List SortableBlock} {S : SortableBlock → Prop} {heap : BoundedSizeBlockHeap},
      HoldsTop n S heap → blocks.Nodup → (∀ b ∈ blocks, ¬ S b) →
      HoldsTop n (fun a => S a ∨ a ∈ blocks)
        (blocks.foldl (fun heap b => (heap.tryPush b.hash b.blueWork).2) heap) := by
  intro blocks
  induction blocks with
  | nil =>
    intro S heap h _ _
    exact h.congr fun a => by simp
  | cons b blocks ih =>
    intro S heap h hnodup hfresh
    rw [List.nodup_cons] at hnodup
    -- the first push adds `b`; the rest are neither `b` nor held before
    have h1 := h.tryPush hpos (hfresh b List.mem_cons_self)
    have hrest := ih h1 hnodup.2 fun c hc hSc =>
      hSc.elim (hfresh c (List.mem_cons_of_mem _ hc)) fun hcb => hnodup.1 (by subst hcb; exact hc)
    exact hrest.congr fun a => by simp only [List.mem_cons]; tauto

/-- Pushing distinct blocks into a new heap with a positive bound leaves the top of them. -/
theorem holdsTop_foldl_tryPush (origin : WindowOrigin) (hpos : 0 < n)
    {blocks : List SortableBlock} (hnodup : blocks.Nodup) :
    HoldsTop n (· ∈ blocks)
      (blocks.foldl (fun heap b => (heap.tryPush b.hash b.blueWork).2) (new origin n)) :=
  (HoldsTop.foldl_tryPush hpos (holdsTop_new origin fun _ h => h) hnodup fun _ _ h => h).congr
    fun a => by simp

end BoundedSizeBlockHeap

/-! ## The caches -/

/-- `BlockWindowCacheStore`: the window held for each block, if any. -/
structure BlockWindowCacheStore where
  inner : Hash → Option BlockWindowHeap

/-- `BlockWindowCacheReader::get`: the entry, provided it comes from `origin`. -/
def BlockWindowCacheStore.get (cache : BlockWindowCacheStore) (hash : Hash)
    (origin : WindowOrigin) : Option BlockWindowHeap :=
  (cache.inner hash).bind fun win => if win.origin = origin then some win else none

/-- A cache that holds nothing. -/
def BlockWindowCacheStore.empty : BlockWindowCacheStore :=
  ⟨fun _ => none⟩

/-- `AffiliatedWindowCache`: an optional cache, read under one origin. -/
structure AffiliatedWindowCache where
  inner : Option BlockWindowCacheStore
  origin : WindowOrigin

def AffiliatedWindowCache.get (cache : AffiliatedWindowCache) (hash : Hash) :
    Option BlockWindowHeap :=
  cache.inner.bind fun inner => inner.get hash cache.origin

@[simp] theorem BlockWindowCacheStore.get_empty (hash : Hash) (origin : WindowOrigin) :
    BlockWindowCacheStore.empty.get hash origin = none := rfl

end Vecno
