import Vecno.Lib.MergeJoin
import Vecno.Consensus.Window.Heap

/-!
# The ordered mergeset iterators

`ascending_` and `descending_mergeset_without_selected_parent` merge the stored blues and reds with
itertools' `merge_join_by`, a parameter here; a lawful one yields the sorted mergeset.
-/

namespace Vecno

open MergeJoin

/-- `SortableBlock::new(hash, store.get_blue_work(hash).unwrap())`. -/
def SortableBlock.ofStore (store : Hash → Option GhostdagData) (hash : Hash) :
    Except String SortableBlock := do
  let data ← Checked.expect Checked.unwrapFailed (store hash)
  pure ⟨hash, data.blueWork⟩

/-- The map after `merge_join_by`: `Left(b) | Right(b) => b`, and a panic on `Both`. -/
def SortableBlock.unwrapDistinct : EitherOrBoth SortableBlock SortableBlock →
    Except String SortableBlock
  | .left b => .ok b
  | .right b => .ok b
  | .both _ _ => .error "distinct blocks are never equal"

namespace GhostdagData

/-- `ascending_mergeset_without_selected_parent`, run to the end. -/
def ascendingMergesetWithoutSelectedParent (data : GhostdagData)
    (mergeJoinBy : MergeJoinByFn Hash SortableBlock SortableBlock String)
    (store : Hash → Option GhostdagData) : Except String (List SortableBlock) :=
  mergeJoinBy (SortableBlock.ofStore store) (fun a b => compare a b) SortableBlock.unwrapDistinct
    (data.mergesetBlues.drop 1) data.mergesetReds

/-- `descending_mergeset_without_selected_parent`, run to the end. -/
def descendingMergesetWithoutSelectedParent (data : GhostdagData)
    (mergeJoinBy : MergeJoinByFn Hash SortableBlock SortableBlock String)
    (store : Hash → Option GhostdagData) : Except String (List SortableBlock) :=
  mergeJoinBy (SortableBlock.ofStore store) (fun a b => compare b a) SortableBlock.unwrapDistinct
    (data.mergesetBlues.drop 1).reverse data.mergesetReds.reverse

/-- `consensus_ordered_mergeset`, run to the end. -/
def consensusOrderedMergeset (data : GhostdagData)
    (mergeJoinBy : MergeJoinByFn Hash SortableBlock SortableBlock String)
    (store : Hash → Option GhostdagData) : Except String (List Hash) := do
  let ascending ← data.ascendingMergesetWithoutSelectedParent mergeJoinBy store
  pure (data.selectedParent :: ascending.map (·.hash))

end GhostdagData

theorem SortableBlock.ofStore_hash {store : Hash → Option GhostdagData} {hash : Hash}
    {block : SortableBlock} (h : SortableBlock.ofStore store hash = .ok block) :
    block.hash = hash := by
  obtain ⟨data, -, h⟩ := Except.bind_eq_ok.mp h
  cases h
  rfl

theorem SortableBlock.map_hash_of_mapM_ofStore {store : Hash → Option GhostdagData}
    {xs : List Hash} {blocks : List SortableBlock}
    (h : xs.mapM (SortableBlock.ofStore store) = .ok blocks) : blocks.map (·.hash) = xs := by
  induction mapM_eq_ok_iff.mp h with
  | nil => rfl
  | cons hx _ ih =>
    rw [List.map_cons, SortableBlock.ofStore_hash hx, ih (mapM_eq_ok_iff.mpr ‹_›)]

/-- Blocks looked up from two lists of hashes with no hash in common are distinct. -/
theorem SortableBlock.ne_of_mapM_ofStore {store : Hash → Option GhostdagData}
    {xs ys : List Hash} {as bs : List SortableBlock}
    (hxs : xs.mapM (SortableBlock.ofStore store) = .ok as)
    (hys : ys.mapM (SortableBlock.ofStore store) = .ok bs) (hdisj : ∀ h ∈ xs, h ∉ ys) :
    ∀ a ∈ as, ∀ b ∈ bs, a ≠ b := by
  intro a ha b hb hab
  obtain ⟨x, hx, hxa⟩ := exists_of_mem_mapM hxs ha
  obtain ⟨y, hy, hyb⟩ := exists_of_mem_mapM hys hb
  have hxy : x = y := by
    rw [← SortableBlock.ofStore_hash hxa, ← SortableBlock.ofStore_hash hyb, hab]
  exact hdisj x hx (hxy ▸ hy)

namespace GhostdagData

section Sorted

/-! A block's data whose blues after the first and reds the store knows, as the blocks `blues` and
`reds`, with no hash in common, merged by a lawful `merge_join_by`. -/

variable {mergeJoinBy : MergeJoinByFn Hash SortableBlock SortableBlock String}
  (hmj : Lawful mergeJoinBy) {data : GhostdagData} {store : Hash → Option GhostdagData}
  {blues reds : List SortableBlock}
  (hblues : (data.mergesetBlues.drop 1).mapM (SortableBlock.ofStore store) = .ok blues)
  (hreds : data.mergesetReds.mapM (SortableBlock.ofStore store) = .ok reds)
  (hdisj : ∀ h ∈ data.mergesetBlues.drop 1, h ∉ data.mergesetReds)
include hmj hblues hreds hdisj

theorem ascendingMergesetWithoutSelectedParent_eq_merge :
    data.ascendingMergesetWithoutSelectedParent mergeJoinBy store =
      .ok (blues.merge reds fun a b => compare a b != .gt) := by
  have hne := SortableBlock.ne_of_mapM_ofStore hblues hreds hdisj
  rw [ascendingMergesetWithoutSelectedParent, hmj.eq_mergeJoinBy]
  exact mergeJoinBy_eq_merge (fun _ => rfl) (fun _ => rfl) hblues hreds
    fun a ha b hb => compare_eq_iff_eq.not.mpr (hne a ha b hb)

theorem descendingMergesetWithoutSelectedParent_eq_merge :
    data.descendingMergesetWithoutSelectedParent mergeJoinBy store =
      .ok (blues.reverse.merge reds.reverse fun a b => compare b a != .gt) := by
  have hne := SortableBlock.ne_of_mapM_ofStore hblues hreds hdisj
  rw [descendingMergesetWithoutSelectedParent, hmj.eq_mergeJoinBy]
  exact mergeJoinBy_eq_merge (fun _ => rfl) (fun _ => rfl) (mapM_reverse_eq_ok hblues)
    (mapM_reverse_eq_ok hreds) fun a ha b hb =>
      compare_eq_iff_eq.not.mpr (hne a (List.mem_reverse.mp ha) b (List.mem_reverse.mp hb)).symm

end Sorted

/-- On a block's data whose blues after the first and whose reds are each sorted by
`SortableBlock` and share no block, with a lawful `merge_join_by`, the ascending iterator yields these blocks sorted and never
panics, the descending one yields them in reverse, and the consensus order is the selected parent
followed by the ascending blocks. -/
theorem mergeset_iterators_sorted {mergeJoinBy : MergeJoinByFn Hash SortableBlock SortableBlock String}
    (hmj : Lawful mergeJoinBy) {data : GhostdagData} {store : Hash → Option GhostdagData}
    {blues reds : List SortableBlock}
    (hblues : (data.mergesetBlues.drop 1).mapM (SortableBlock.ofStore store) = .ok blues)
    (hreds : data.mergesetReds.mapM (SortableBlock.ofStore store) = .ok reds)
    (hsb : blues.Pairwise (· ≤ ·)) (hsr : reds.Pairwise (· ≤ ·))
    (hdisj : ∀ h ∈ data.mergesetBlues.drop 1, h ∉ data.mergesetReds) :
    ∃ l, data.ascendingMergesetWithoutSelectedParent mergeJoinBy store = .ok l ∧
      l.Pairwise (· ≤ ·) ∧ l.Perm (blues ++ reds) ∧
      data.descendingMergesetWithoutSelectedParent mergeJoinBy store = .ok l.reverse ∧
      data.consensusOrderedMergeset mergeJoinBy store =
        .ok (data.selectedParent :: l.map (·.hash)) := by
  have hasc := ascendingMergesetWithoutSelectedParent_eq_merge hmj hblues hreds hdisj
  have hdesc := descendingMergesetWithoutSelectedParent_eq_merge hmj hblues hreds hdisj
  set l := blues.merge reds fun a b => compare a b != .gt
  have hl : l.Pairwise (· ≤ ·) :=
    pairwise_merge_of_iff compare_bne_gt_iff (fun _ _ _ => le_trans) le_total hsb hsr
  have hperm : l.Perm (blues ++ reds) := List.merge_perm_append _
  -- the descending walk yields a permutation of the same blocks sorted the other way, which can
  -- only be the reverse of the ascending one
  have hrev : (blues.reverse.merge reds.reverse fun a b => compare b a != .gt) = l.reverse := by
    have hdesc_sorted : (blues.reverse.merge reds.reverse fun a b => compare b a != .gt).Pairwise
        fun a b => b ≤ a :=
      pairwise_merge_of_iff (fun a b => compare_bne_gt_iff b a)
        (fun _ _ _ hab hbc => le_trans hbc hab)
        (fun a b => le_total b a) (List.pairwise_reverse.mpr hsb) (List.pairwise_reverse.mpr hsr)
    have hdesc_perm : (blues.reverse.merge reds.reverse fun a b => compare b a != .gt).Perm
        l.reverse :=
      ((List.merge_perm_append _).trans
        ((List.reverse_perm blues).append (List.reverse_perm reds))).trans
        (hperm.symm.trans (List.reverse_perm l).symm)
    exact hdesc_perm.eq_of_pairwise (fun a b _ _ hab hba => le_antisymm hba hab) hdesc_sorted
      (List.pairwise_reverse.mpr hl)
  refine ⟨l, hasc, hl, hperm, hrev ▸ hdesc, ?_⟩
  rw [consensusOrderedMergeset, hasc, Except.ok_bind]
  rfl

/-- A mergeset of two blues after the selected parent and one red of the second blue's blue work. -/
theorem mergeset_iterators_sorted_three :
    Lawful (MergeJoin.mergeJoinBy : MergeJoinByFn Hash SortableBlock SortableBlock String) ∧
    ((GhostdagData.mk 0 0 (Hash.fromU64Word 1)
          [Hash.fromU64Word 1, Hash.fromU64Word 2, Hash.fromU64Word 4] [Hash.fromU64Word 3]
          ∅).mergesetBlues.drop 1).mapM (SortableBlock.ofStore fun hash =>
        some (GhostdagData.mk 0 (if hash = Hash.fromU64Word 2 then 5 else 7) hash [] [] ∅)) =
        .ok [⟨Hash.fromU64Word 2, 5⟩, ⟨Hash.fromU64Word 4, 7⟩] ∧
      ∃ l, (GhostdagData.mk 0 0 (Hash.fromU64Word 1)
          [Hash.fromU64Word 1, Hash.fromU64Word 2, Hash.fromU64Word 4] [Hash.fromU64Word 3]
          ∅).ascendingMergesetWithoutSelectedParent MergeJoin.mergeJoinBy (fun hash =>
            some (GhostdagData.mk 0 (if hash = Hash.fromU64Word 2 then 5 else 7) hash [] [] ∅)) =
          .ok l ∧ l.Pairwise (· ≤ ·) ∧
        l.Perm ([⟨Hash.fromU64Word 2, 5⟩, ⟨Hash.fromU64Word 4, 7⟩] ++
          [⟨Hash.fromU64Word 3, 7⟩]) ∧
        (GhostdagData.mk 0 0 (Hash.fromU64Word 1)
          [Hash.fromU64Word 1, Hash.fromU64Word 2, Hash.fromU64Word 4] [Hash.fromU64Word 3]
          ∅).descendingMergesetWithoutSelectedParent MergeJoin.mergeJoinBy (fun hash =>
            some (GhostdagData.mk 0 (if hash = Hash.fromU64Word 2 then 5 else 7) hash [] [] ∅)) =
          .ok l.reverse ∧
        (GhostdagData.mk 0 0 (Hash.fromU64Word 1)
          [Hash.fromU64Word 1, Hash.fromU64Word 2, Hash.fromU64Word 4] [Hash.fromU64Word 3]
          ∅).consensusOrderedMergeset MergeJoin.mergeJoinBy (fun hash =>
            some (GhostdagData.mk 0 (if hash = Hash.fromU64Word 2 then 5 else 7) hash [] [] ∅)) =
          .ok (Hash.fromU64Word 1 :: l.map (·.hash)) :=
  ⟨lawful_mergeJoinBy, rfl,
    mergeset_iterators_sorted lawful_mergeJoinBy rfl rfl (by decide) (by decide) (by decide)⟩

end GhostdagData

end Vecno
