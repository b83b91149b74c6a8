import Vecno.Consensus.Ghostdag.KCluster
import Vecno.Consensus.Ghostdag.MergesetOrder

/-!
# The mergeset partition and the score

What `ghostdag` returns: the selected parent, the blues and reds splitting the ordered mergeset,
at most `k + 1` blues, the checked blue score and the wrapping blue work.
-/

namespace Vecno

namespace GhostdagManager

variable {mgr : GhostdagManager}

/-! ## The coloring splits the ordered mergeset -/

variable (mgr) in
/-- The new block's data after coloring the blocks `visited`: the selected parent leads the
blues, the other blues and the reds split `visited` in its order, and there are at most `k + 1`
blues. -/
structure ColoringSplit (selectedParent : Hash) (visited : List Hash) (data : GhostdagData) :
    Prop where
  selectedParent_eq : data.selectedParent = selectedParent
  head : data.mergesetBlues = selectedParent :: data.mergesetBlues.drop 1
  perm : (data.mergesetBlues.drop 1 ++ data.mergesetReds).Perm visited
  blues_sublist : (data.mergesetBlues.drop 1).Sublist visited
  reds_sublist : data.mergesetReds.Sublist visited
  length_le : data.mergesetBlues.length ≤ mgr.k + 1

/-- `check_blue_candidate` answers blue only below `k + 1` blues, `k + 1` being a `u16`. -/
theorem checkBlueCandidate_blue {fuel : Nat} {data : GhostdagData} {c : Hash} {size : KType}
    {sizes : HashKTypeMap} (h : mgr.checkBlueCandidate fuel data c = .ok (.blue size sizes)) :
    mgr.k + 1 < 2 ^ 16 ∧ data.mergesetBlues.length % 2 ^ 16 ≠ mgr.k + 1 := by
  obtain ⟨kPlusOne, hk, h⟩ := Except.bind_eq_ok.mp h
  obtain ⟨hlt, rfl⟩ := Checked.add_eq_ok.mp hk
  refine ⟨hlt, fun hfull => ?_⟩
  rw [if_pos hfull] at h
  cases h

/-- A colored candidate joins the reds, or joins the blues while there are fewer than `k + 1`. -/
theorem colorCandidate_cases {fuel : Nat} {data data' : GhostdagData} {c : Hash}
    (h : mgr.colorCandidate fuel data c = .ok data') :
    data' = data.addRed c ∨ (mgr.k + 1 < 2 ^ 16 ∧
      data.mergesetBlues.length % 2 ^ 16 ≠ mgr.k + 1 ∧
      ∃ size sizes, data.addBlue c size sizes = .ok data') := by
  obtain ⟨coloring, hcoloring, h⟩ := Except.bind_eq_ok.mp h
  cases coloring with
  | blue size sizes =>
    obtain ⟨hlt, hne⟩ := checkBlueCandidate_blue hcoloring
    exact .inr ⟨hlt, hne, size, sizes, h⟩
  | red =>
    cases h
    exact .inl rfl

theorem ColoringSplit.addRed {selectedParent c : Hash} {visited : List Hash}
    {data : GhostdagData} (hsplit : mgr.ColoringSplit selectedParent visited data) :
    mgr.ColoringSplit selectedParent (visited ++ [c]) (data.addRed c) := by
  refine ⟨hsplit.selectedParent_eq, hsplit.head, ?_,
    hsplit.blues_sublist.trans (List.sublist_append_left visited [c]),
    hsplit.reds_sublist.append_right [c], hsplit.length_le⟩
  rw [GhostdagData.addRed_mergesetBlues, GhostdagData.addRed_mergesetReds,
    ← List.append_assoc]
  exact hsplit.perm.append_right [c]

theorem ColoringSplit.addBlue {selectedParent c : Hash} {visited : List Hash}
    {data data' : GhostdagData} {size : KType} {sizes : HashKTypeMap}
    (hsplit : mgr.ColoringSplit selectedParent visited data) (hlt : mgr.k + 1 < 2 ^ 16)
    (hne : data.mergesetBlues.length % 2 ^ 16 ≠ mgr.k + 1)
    (h : data.addBlue c size sizes = .ok data') :
    mgr.ColoringSplit selectedParent (visited ++ [c]) data' := by
  have hblues := GhostdagData.addBlue_mergesetBlues h
  have hreds := GhostdagData.addBlue_mergesetReds h
  -- the blues after the selected parent gain the candidate at their end
  have hcons : data'.mergesetBlues = selectedParent :: (data.mergesetBlues.drop 1 ++ [c]) := by
    rw [hblues, ← List.cons_append, ← hsplit.head]
  have hdrop : data'.mergesetBlues.drop 1 = data.mergesetBlues.drop 1 ++ [c] := by
    rw [hcons]
    rfl
  refine ⟨(GhostdagData.addBlue_selectedParent h).trans hsplit.selectedParent_eq, ?_, ?_, ?_,
    ?_, ?_⟩
  · rw [hcons]
    rfl
  · rw [hdrop, hreds, List.append_assoc, List.singleton_append]
    exact List.perm_middle.trans
      ((List.perm_append_singleton c _).symm.trans (hsplit.perm.append_right [c]))
  · rw [hdrop]
    exact hsplit.blues_sublist.append_right [c]
  · rw [hreds]
    exact hsplit.reds_sublist.trans (List.sublist_append_left visited [c])
  · -- below `2 ^ 16` the count of blues is its own residue, so it is not yet `k + 1`
    have hlen : data.mergesetBlues.length < mgr.k + 1 := by
      rcases Nat.lt_or_eq_of_le hsplit.length_le with hlen | hlen
      · exact hlen
      · rw [hlen, Nat.mod_eq_of_lt hlt] at hne
        exact absurd rfl hne
    rw [hblues, List.length_append, List.length_singleton]
    exact hlen

theorem ColoringSplit.foldlM_colorCandidate {selectedParent : Hash} {fuel : Nat}
    {visited candidates : List Hash} {data data' : GhostdagData}
    (hsplit : mgr.ColoringSplit selectedParent visited data)
    (h : candidates.foldlM (mgr.colorCandidate fuel) data = .ok data') :
    mgr.ColoringSplit selectedParent (visited ++ candidates) data' := by
  induction candidates generalizing visited data with
  | nil =>
    cases h
    rw [List.append_nil]
    exact hsplit
  | cons c candidates ih =>
    rw [List.foldlM_cons] at h
    obtain ⟨data₁, h₁, h⟩ := Except.bind_eq_ok.mp h
    have hsplit₁ : mgr.ColoringSplit selectedParent (visited ++ [c]) data₁ := by
      rcases colorCandidate_cases h₁ with rfl | ⟨hlt, hne, size, sizes, hblue⟩
      · exact hsplit.addRed
      · exact hsplit.addBlue hlt hne hblue
    rw [← List.singleton_append, ← List.append_assoc]
    exact ih hsplit₁ h

theorem coloringSplit_newWithSelectedParent (selectedParent : Hash) :
    mgr.ColoringSplit selectedParent [] (GhostdagData.newWithSelectedParent selectedParent) :=
  ⟨rfl, rfl, .nil, .slnil, .slnil, by simp⟩

theorem colorMergeset_split {fuel : Nat} {selectedParent : Hash} {parents : List Hash}
    {data : GhostdagData} (h : mgr.colorMergeset fuel selectedParent parents = .ok data) :
    ∃ ordered, mgr.orderedMergesetWithoutSelectedParent fuel selectedParent parents =
      .ok ordered ∧ mgr.ColoringSplit selectedParent ordered data := by
  obtain ⟨ordered, hordered, h⟩ := colorMergeset_eq_ok h
  have hsplit := (coloringSplit_newWithSelectedParent selectedParent).foldlM_colorCandidate h
  rw [List.nil_append] at hsplit
  exact ⟨ordered, hordered, hsplit⟩

/-! ## The order of the blues and the reds -/

theorem sortable_eq_ofStore : mgr.sortable = SortableBlock.ofStore mgr.ghostdagStore := rfl

/-- Blocks each of which its hash looks up are what their hashes look up. -/
theorem mapM_ofStore_map_hash {store : Hash → Option GhostdagData} {blocks : List SortableBlock}
    (h : ∀ b ∈ blocks, SortableBlock.ofStore store b.hash = .ok b) :
    (blocks.map (·.hash)).mapM (SortableBlock.ofStore store) = .ok blocks := by
  induction blocks with
  | nil => rfl
  | cons b blocks ih =>
    rw [List.map_cons, MergeJoin.mapM_cons_eq_ok]
    exact ⟨b, blocks, h b List.mem_cons_self,
      ih fun b' hb' => h b' (List.mem_cons_of_mem b hb'), rfl⟩

/-- `sort_blocks` returns blocks that the store knows, in ascending `SortableBlock` order. -/
theorem sortBlocks_mapM_ofStore {blocks sorted : List Hash}
    (h : mgr.sortBlocks blocks = .ok sorted) :
    ∃ keyed, sorted.mapM (SortableBlock.ofStore mgr.ghostdagStore) = .ok keyed ∧
      keyed.Pairwise (· ≤ ·) := by
  obtain ⟨keyed, hkeyed, h⟩ := Except.bind_eq_ok.mp h
  cases h
  rw [sortable_eq_ofStore] at hkeyed
  have hfix : ∀ b ∈ keyed, SortableBlock.ofStore mgr.ghostdagStore b.hash = .ok b := by
    intro b hb
    obtain ⟨x, -, hx⟩ := MergeJoin.exists_of_mem_mapM hkeyed hb
    rw [SortableBlock.ofStore_hash hx]
    exact hx
  have : Std.Total fun a b : SortableBlock => a.key ≤ b.key := ⟨fun a b => Nat.le_total _ _⟩
  have : IsTrans SortableBlock fun a b => a.key ≤ b.key := ⟨fun _ _ _ => Nat.le_trans⟩
  refine ⟨_, mapM_ofStore_map_hash fun b hb => hfix b ((List.mem_insertionSort _).mp hb), ?_⟩
  exact List.pairwise_insertionSort _ keyed

/-- A duplicate-free part of a sorted mergeset, in its order, is in strictly ascending
`SortableBlock` order. -/
theorem mapM_ofStore_lt_of_sublist {l sorted : List Hash} {keyed : List SortableBlock}
    (hsorted : sorted.mapM (SortableBlock.ofStore mgr.ghostdagStore) = .ok keyed)
    (hkeyed : keyed.Pairwise (· ≤ ·)) (hl : l.Sublist sorted) (hnodup : l.Nodup) :
    ∃ blocks, l.mapM (SortableBlock.ofStore mgr.ghostdagStore) = .ok blocks ∧
      blocks.Pairwise (· < ·) := by
  obtain ⟨blocks, hblocks, hsub⟩ := MergeJoin.mapM_sublist_eq_ok hl hsorted
  have hnodup' : blocks.Nodup := by
    rw [← SortableBlock.map_hash_of_mapM_ofStore hblocks] at hnodup
    exact hnodup.of_map _
  exact ⟨blocks, hblocks, ((hkeyed.sublist hsub).and hnodup').imp fun h => lt_of_le_of_ne h.1 h.2⟩

/-! ## The blue score and the blue work -/

variable (mgr) in
/-- The work a blue block adds: `calc_work` of its bits, at least `level_work`. -/
def blueBlockWork (hash : Hash) : Except String BlueWorkType := do
  let bits ← Checked.expect Checked.unwrapFailed (mgr.headersStore hash)
  let work ← calcWork bits
  pure (max work mgr.levelWork)

theorem foldlM_addedBlueWork {blues : List Hash} {total work : BlueWorkType}
    (htotal : total < 2 ^ 192) (h : blues.foldlM (fun total hash => do
        let bits ← Checked.expect Checked.unwrapFailed (mgr.headersStore hash)
        let work ← calcWork bits
        pure ((total + max work mgr.levelWork) % 2 ^ 192)) total = .ok work) :
    ∃ works, blues.mapM mgr.blueBlockWork = .ok works ∧ work = (total + works.sum) % 2 ^ 192 := by
  induction blues generalizing total with
  | nil =>
    cases h
    exact ⟨[], rfl, by rw [List.sum_nil, Nat.add_zero, Nat.mod_eq_of_lt htotal]⟩
  | cons hash blues ih =>
    rw [List.foldlM_cons] at h
    obtain ⟨total₁, h₁, h⟩ := Except.bind_eq_ok.mp h
    obtain ⟨bits, hbits, h₁⟩ := Except.bind_eq_ok.mp h₁
    obtain ⟨w, hw, h₁⟩ := Except.bind_eq_ok.mp h₁
    cases h₁
    obtain ⟨works, hworks, rfl⟩ := ih (Nat.mod_lt _ (Nat.two_pow_pos 192)) h
    have hblock : mgr.blueBlockWork hash = .ok (max w mgr.levelWork) := by
      rw [blueBlockWork, hbits, Except.ok_bind, hw, Except.ok_bind]
      rfl
    refine ⟨max w mgr.levelWork :: works, MergeJoin.mapM_cons_eq_ok.mpr
      ⟨_, works, hblock, hworks, rfl⟩, ?_⟩
    rw [List.sum_cons, Nat.mod_add_mod, Nat.add_assoc]

/-- The blue score adds the number of blues to the selected parent's, with no overflow, and the
blue work adds their work to the selected parent's, modulo `2 ^ 192`. -/
theorem finalizeData_eq_ok {selectedParent : Hash} {newData data : GhostdagData}
    (h : mgr.finalizeData selectedParent newData = .ok data) :
    ∃ dsp works, mgr.ghostdagStore selectedParent = some dsp ∧
      newData.mergesetBlues.mapM mgr.blueBlockWork = .ok works ∧
      data.blueScore.toNat = dsp.blueScore.toNat + newData.mergesetBlues.length ∧
      data.blueWork = (dsp.blueWork + works.sum) % 2 ^ 192 ∧
      data = newData.finalizeScoreAndWork data.blueScore data.blueWork := by
  obtain ⟨dsp, hdsp, h⟩ := Except.bind_eq_ok.mp h
  obtain ⟨score, hscore, h⟩ := Except.bind_eq_ok.mp h
  obtain ⟨added, hadded, h⟩ := Except.bind_eq_ok.mp h
  cases h
  obtain ⟨hlt, rfl⟩ := Checked.add_eq_ok.mp hscore
  obtain ⟨works, hworks, rfl⟩ := foldlM_addedBlueWork (Nat.two_pow_pos 192) hadded
  refine ⟨dsp, works, Checked.expect_eq_ok.mp hdsp, hworks, ?_, ?_, rfl⟩
  · exact UInt64.toNat_ofNat_of_lt' hlt
  · change (dsp.blueWork + (0 + works.sum) % 2 ^ 192) % 2 ^ 192 = _
    rw [Nat.zero_add, Nat.add_mod_mod]

theorem ghostdag_finalizeData {fuel : Nat} {parents : List Hash} {data : GhostdagData}
    (h : mgr.ghostdag fuel parents = .ok data) {selectedParent : Hash} {newData : GhostdagData}
    (hsp : mgr.findSelectedParent parents = .ok selectedParent)
    (hnew : mgr.colorMergeset fuel selectedParent parents = .ok newData)
    (horigin : selectedParent ≠ origin) :
    mgr.finalizeData selectedParent newData = .ok data := by
  unfold ghostdag at h
  rw [if_neg (fun hempty => ?_), hsp, Except.ok_bind, hnew, Except.ok_bind,
    if_neg horigin] at h
  · exact h
  · rw [hempty] at h
    cases h

/-! ## What `ghostdag` returns -/

/-- The search of `ghostdag` keeps exactly the blocks of the new block's past outside the
selected parent's past, when the reachability service is right and no parent is an ancestor of
another. -/
theorem mem_unorderedMergeset_iff
    (hreach : ∀ a b, mgr.isDagAncestorOf a b = true ↔ Dag.Ancestor mgr.parents a b)
    {fuel : Nat} {parents : List Hash} {selectedParent : Hash} {mergeset : IndexSet Hash}
    (hincest : ∀ p ∈ parents, ∀ q ∈ parents, p ≠ q → ¬ Dag.Ancestor mgr.parents p q)
    (hsp : selectedParent ∈ parents)
    (h : mgr.unorderedMergesetWithoutSelectedParent fuel selectedParent parents = .ok mergeset)
    (x : Hash) :
    x ∈ mergeset.toList ↔ (∃ p ∈ parents, Dag.Ancestor mgr.parents x p) ∧
      ¬ Dag.Ancestor mgr.parents x selectedParent := by
  have hsound : ∀ y ∈ mergeset.toList, (∃ p ∈ parents, Dag.Ancestor mgr.parents y p) ∧
      ¬ Dag.Ancestor mgr.parents y selectedParent := by
    refine unorderedMergesetWithoutSelectedParent_sound ?_ ?_ h
    · rintro y ps ⟨⟨q, hq, hyq⟩, -⟩ hps p hp hanc
      have hpy : p ∈ mgr.parents y := by
        rw [GhostdagManager.parents, hps, Option.getD_some]
        exact hp
      refine ⟨⟨q, hq, (Dag.ancestor_of_mem hpy).trans hyq⟩, fun hp' => ?_⟩
      rw [(hreach p selectedParent).mpr hp'] at hanc
      cases hanc
    · intro p hp hne
      exact ⟨⟨p, hp, Dag.Ancestor.refl p⟩, hincest p hp selectedParent hsp hne⟩
  constructor
  · exact hsound x
  · rintro ⟨⟨p, hp, hxp⟩, hx⟩
    exact unorderedMergesetWithoutSelectedParent_complete hreach h p hp x hxp hx

/-- What `ghostdag` returns, on a DAG whose reachability service is right, from parents none of
which is an ancestor of another: the selected parent is the parent of the largest blue work and
hash and leads the blues; the blues and the reds hold, once each, the blocks of the new block's
past outside the selected parent's past; there are at most `k + 1` blues; the blues after the
selected parent and the reds are each in strictly ascending `SortableBlock` order; and below any
parent but the origin, the blue score is the selected parent's plus the number of blues, and the
blue work the selected parent's plus the blues' work, modulo `2 ^ 192`. -/
theorem ghostdag_mergeset_partition
    (hreach : ∀ a b, mgr.isDagAncestorOf a b = true ↔ Dag.Ancestor mgr.parents a b)
    (hacyclic : ∀ a, ¬ Dag.Past mgr.parents a a)
    {fuel : Nat} {parents : List Hash} {data : GhostdagData}
    (hincest : ∀ p ∈ parents, ∀ q ∈ parents, p ≠ q → ¬ Dag.Ancestor mgr.parents p q)
    (h : mgr.ghostdag fuel parents = .ok data) :
    data.selectedParent ∈ parents ∧
      (∀ p ∈ parents, ∀ dp dsp, mgr.ghostdagStore p = some dp →
        mgr.ghostdagStore data.selectedParent = some dsp →
          (⟨p, dp.blueWork⟩ : SortableBlock) ≤ ⟨data.selectedParent, dsp.blueWork⟩) ∧
      data.mergesetBlues.head? = some data.selectedParent ∧
      (data.mergesetBlues ++ data.mergesetReds).Nodup ∧
      (∀ x, x ∈ data.mergesetBlues ++ data.mergesetReds ↔
        (∃ p ∈ parents, Dag.Ancestor mgr.parents x p) ∧
          ¬ Dag.Past mgr.parents x data.selectedParent) ∧
      data.mergesetBlues.length ≤ mgr.k + 1 ∧
      (∃ blues, (data.mergesetBlues.drop 1).mapM (SortableBlock.ofStore mgr.ghostdagStore) =
        .ok blues ∧ blues.Pairwise (· < ·)) ∧
      (∃ reds, data.mergesetReds.mapM (SortableBlock.ofStore mgr.ghostdagStore) = .ok reds ∧
        reds.Pairwise (· < ·)) ∧
      (data.selectedParent ≠ origin → ∃ dsp works,
        mgr.ghostdagStore data.selectedParent = some dsp ∧
        data.mergesetBlues.mapM mgr.blueBlockWork = .ok works ∧
        data.blueScore.toNat = dsp.blueScore.toNat + data.mergesetBlues.length ∧
        data.blueWork = (dsp.blueWork + works.sum) % 2 ^ 192) := by
  obtain ⟨-, sp, newData, hsp, hnew, hdsp, hdblues, -, hdreds⟩ := ghostdag_eq_ok h
  obtain ⟨ordered, hordered, hsplit⟩ := colorMergeset_split hnew
  obtain ⟨mergeset, hmergeset, hsort⟩ := Except.bind_eq_ok.mp hordered
  have hsp' : data.selectedParent = sp := hdsp.trans hsplit.selectedParent_eq
  have hspmem := findSelectedParent_mem hsp
  have hmem := mem_unorderedMergeset_iff hreach hincest hspmem hmergeset
  have hperm : ordered.Perm mergeset.toList := (sortBlocks_eq_ok hsort).1
  have hnodup : ordered.Nodup := hperm.nodup_iff.mpr mergeset.nodup
  -- the blues and reds are the selected parent followed by a permutation of the search's blocks
  have hrest := hsplit.perm.trans hperm
  have heq : data.mergesetBlues ++ data.mergesetReds =
      sp :: (newData.mergesetBlues.drop 1 ++ newData.mergesetReds) := by
    rw [hdblues, hdreds]
    exact congrArg (· ++ newData.mergesetReds) hsplit.head
  have hspnot : sp ∉ mergeset.toList := fun hsp => ((hmem sp).mp hsp).2 (Dag.Ancestor.refl sp)
  obtain ⟨keyed, hkeyed, hsorted⟩ := sortBlocks_mapM_ofStore hsort
  refine ⟨hsp' ▸ hspmem, ?_, ?_, ?_, fun x => ?_, hdblues ▸ hsplit.length_le, ?_, ?_, ?_⟩
  · rw [hsp']
    exact findSelectedParent_max hsp
  · rw [hsp', hdblues, hsplit.head]
    rfl
  · rw [heq]
    exact List.nodup_cons.mpr ⟨fun h => hspnot (hrest.mem_iff.mp h), hrest.nodup_iff.mpr mergeset.nodup⟩
  · rw [heq, List.mem_cons, hrest.mem_iff, hmem, hsp']
    constructor
    · rintro (rfl | ⟨hx, hxsp⟩)
      · exact ⟨⟨x, hspmem, Dag.Ancestor.refl x⟩, hacyclic x⟩
      · exact ⟨hx, fun hpast => hxsp hpast.ancestor⟩
    · rintro ⟨hx, hpast⟩
      by_cases hxsp : x = sp
      · exact .inl hxsp
      · refine .inr ⟨hx, fun hanc => ?_⟩
        rcases Dag.ancestor_iff_eq_or_past.mp hanc with h | h
        · exact hxsp h
        · exact hpast h
  · rw [hdblues]
    exact mapM_ofStore_lt_of_sublist hkeyed hsorted hsplit.blues_sublist
      (hnodup.sublist hsplit.blues_sublist)
  · rw [hdreds]
    exact mapM_ofStore_lt_of_sublist hkeyed hsorted hsplit.reds_sublist
      (hnodup.sublist hsplit.reds_sublist)
  · intro horigin
    rw [hsp'] at horigin ⊢
    obtain ⟨dsp, works, hdsp, hworks, hscore, hwork, -⟩ :=
      finalizeData_eq_ok (ghostdag_finalizeData h hsp hnew horigin)
    rw [hdblues]
    exact ⟨dsp, works, hdsp, hworks, hscore, hwork⟩

/-- In the diamond, block `3`'s blues are its two parents, once each, and genesis, in the past of
its selected parent `4`, is not among them. -/
theorem ghostdag_mergeset_partition_diamond :
    (diamondData3.mergesetBlues ++ diamondData3.mergesetReds).Nodup ∧
      (Hash.fromU64Word 1 ∈ diamondData3.mergesetBlues ++ diamondData3.mergesetReds ↔
        (∃ p ∈ diamondManager.parents (Hash.fromU64Word 3),
          Dag.Ancestor diamondManager.parents (Hash.fromU64Word 1) p) ∧
          ¬ Dag.Past diamondManager.parents (Hash.fromU64Word 1) diamondData3.selectedParent) := by
  have h := @ghostdag_mergeset_partition diamondManager diamondManager_dag.reachability
    diamondManager_dag.acyclic 5 (diamondManager.parents (Hash.fromU64Word 3)) diamondData3
    (diamondManager_incest (Hash.fromU64Word 3) (by decide)) rfl
  exact ⟨h.2.2.2.1, h.2.2.2.2.1 (Hash.fromU64Word 1)⟩

/-- With a parent in the past of the other the partition fails: block `3` of the second DAG has
parents `2` and genesis, and `ghostdag` colors genesis, in the past of the selected parent `2`,
blue. -/
theorem ghostdag_mergeset_parent_in_past :
    ¬ ∀ (mgr : GhostdagManager) (fuel : Nat) (parents : List Hash) (data : GhostdagData),
      (∀ a b, mgr.isDagAncestorOf a b = true ↔ Dag.Ancestor mgr.parents a b) →
      (∀ a, ¬ Dag.Past mgr.parents a a) → mgr.ghostdag fuel parents = .ok data →
        ∀ x, x ∈ data.mergesetBlues ++ data.mergesetReds ↔
          (∃ p ∈ parents, Dag.Ancestor mgr.parents x p) ∧
            ¬ Dag.Past mgr.parents x data.selectedParent := by
  intro h
  have hgenesis := (h incestManager 5 (incestManager.parents (Hash.fromU64Word 3)) incestData3
    incestManager_dag.reachability incestManager_dag.acyclic rfl (Hash.fromU64Word 1)).mp
    (by decide)
  exact hgenesis.2 (Dag.past_of_mem (by decide))

end GhostdagManager

end Vecno
