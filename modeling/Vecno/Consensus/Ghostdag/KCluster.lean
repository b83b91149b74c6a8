import Vecno.Consensus.Ghostdag.Coloring

/-!
# The k-cluster invariant of GHOSTDAG

Over a DAG of `ghostdag` data, no blue block has more than `k` blues in its anticone, by induction
in ascending blue work. It needs `check_parents_incest` and growing blue work; the counterexample at
the end lacks the first.
-/

namespace Vecno

namespace GhostdagManager

variable {mgr : GhostdagManager} {blocks : Finset Hash}

/-! ## What `ghostdag` returns -/

theorem colorMergeset_eq_ok {fuel : Nat} {selectedParent : Hash} {parents : List Hash}
    {data : GhostdagData} (h : mgr.colorMergeset fuel selectedParent parents = .ok data) :
    ∃ ordered, mgr.orderedMergesetWithoutSelectedParent fuel selectedParent parents =
      .ok ordered ∧ ordered.foldlM (mgr.colorCandidate fuel)
        (GhostdagData.newWithSelectedParent selectedParent) = .ok data := by
  obtain ⟨_, -, h⟩ := Except.bind_eq_ok.mp h
  exact Except.bind_eq_ok.mp h

/-- `ghostdag` colors the mergeset of the selected parent it finds; the blue score and blue work
it adds afterwards leave the selected parent, the blues, the sizes and the reds alone. -/
theorem ghostdag_eq_ok {fuel : Nat} {parents : List Hash} {data : GhostdagData}
    (h : mgr.ghostdag fuel parents = .ok data) :
    parents ≠ [] ∧ ∃ selectedParent newData,
      mgr.findSelectedParent parents = .ok selectedParent ∧
      mgr.colorMergeset fuel selectedParent parents = .ok newData ∧
      data.selectedParent = newData.selectedParent ∧
      data.mergesetBlues = newData.mergesetBlues ∧
      data.bluesAnticoneSizes = newData.bluesAnticoneSizes ∧
      data.mergesetReds = newData.mergesetReds := by
  unfold ghostdag at h
  by_cases hempty : parents.isEmpty = true
  · rw [if_pos hempty] at h
    cases h
  · rw [if_neg hempty] at h
    refine ⟨fun hnil => hempty (by rw [hnil]; rfl), ?_⟩
    obtain ⟨selectedParent, hsp, h⟩ := Except.bind_eq_ok.mp h
    obtain ⟨newData, hnew, h⟩ := Except.bind_eq_ok.mp h
    refine ⟨selectedParent, newData, hsp, hnew, ?_⟩
    by_cases horigin : selectedParent = origin
    · rw [if_pos horigin] at h
      cases h
      exact ⟨rfl, rfl, rfl, rfl⟩
    · rw [if_neg horigin] at h
      obtain ⟨_, -, h⟩ := Except.bind_eq_ok.mp h
      obtain ⟨_, -, h⟩ := Except.bind_eq_ok.mp h
      obtain ⟨_, -, h⟩ := Except.bind_eq_ok.mp h
      cases h
      exact ⟨rfl, rfl, rfl, rfl⟩

/-- The data the coloring produced, once stored for the block, is the block's right data: its
blue set is the coloring's, and lies in the block's past. -/
theorem ColoringInv.coloredBlock {selectedParent block : Hash}
    (hfacts : mgr.ChainFacts blocks selectedParent)
    (hspp : selectedParent ∈ mgr.parents block) (hg : block ≠ mgr.genesisHash)
    {data newData : GhostdagData} (hstore : mgr.ghostdagStore block = some data)
    (hfinal : mgr.ColoringInv blocks selectedParent newData)
    (hpast : ∀ x ∈ newData.mergesetBlues, Dag.Past mgr.parents x block)
    (hdsp : data.selectedParent = newData.selectedParent)
    (hdblues : data.mergesetBlues = newData.mergesetBlues)
    (hdsizes : data.bluesAnticoneSizes = newData.bluesAnticoneSizes) :
    mgr.ColoredBlock blocks block data := by
  have hS : mgr.InBlueSet block = mgr.ContextBlues newData := by
    funext x
    rw [inBlueSet_iff_contextBlues hstore hg, ContextBlues, ContextBlues, hdsp, hdblues]
  have hsp : data.selectedParent = selectedParent := hdsp.trans hfinal.selectedParent_eq
  refine ⟨?_, ?_, ?_, ?_, fun b hb => ?_, fun b hb => ?_, ?_⟩
  · rw [hsp]
    exact hfacts.selectedParent_mem
  · rw [hsp]
    exact hspp
  · rw [hdblues]
    exact hfinal.nodup
  · rw [hdblues, hsp]
    exact hfinal.disjoint
  · rw [hS] at hb
    rcases hb with hb | hb
    · exact hpast b hb
    · rw [hfinal.selectedParent_eq] at hb
      exact (hfacts.past hfacts.selectedParent_mem (Dag.Ancestor.refl _) hb).trans
        (Dag.past_of_mem hspp)
  · rw [hS] at hb
    exact hfinal.mem b hb
  · rw [hS]
    intro b hb
    obtain ⟨his, hle⟩ := hfinal.sizes b hb
    exact ⟨his.of_lookup_eq (by rw [hdsizes]) (by rw [hdsp]), hle⟩

/-! ## The DAG -/

section Dag

variable (hdag : mgr.GhostdagDag blocks)
  (hwork : ∀ block ∈ blocks, block ≠ mgr.genesisHash → ∀ p ∈ mgr.parents block,
    ∀ dp db, mgr.ghostdagStore p = some dp → mgr.ghostdagStore block = some db →
      dp.blueWork < db.blueWork)

include hdag

theorem GhostdagDag.exists_data {block : Hash} (hblock : block ∈ blocks) :
    ∃ data, mgr.ghostdagStore block = some data := by
  by_cases hg : block = mgr.genesisHash
  · subst hg
    exact ⟨_, hdag.genesis_data⟩
  · obtain ⟨_, data, -, hdata⟩ := hdag.produced block hblock hg
    exact ⟨data, hdata⟩

/-- The data `newWithSelectedParent` starts the coloring from is right: the selected parent sees
no blue in its anticone, and every block of its blue set keeps the size the selected parent's
data gives. -/
theorem coloringInv_newWithSelectedParent {selectedParent : Hash}
    (hfacts : mgr.ChainFacts blocks selectedParent) :
    mgr.ColoringInv blocks selectedParent
      (GhostdagData.newWithSelectedParent selectedParent) := by
  have hsp := hfacts.selectedParent_mem
  have hpast : ∀ x, mgr.InBlueSet selectedParent x → Dag.Past mgr.parents x selectedParent :=
    fun x hx => hfacts.past hsp (Dag.Ancestor.refl _) hx
  have hT : ∀ x, mgr.ContextBlues (GhostdagData.newWithSelectedParent selectedParent) x ↔
      mgr.InBlueSet selectedParent x ∨ x = selectedParent := by
    intro x
    simp only [ContextBlues, GhostdagData.newWithSelectedParent_mergesetBlues,
      GhostdagData.newWithSelectedParent_selectedParent, List.mem_singleton]
    exact Or.comm
  refine ⟨rfl, List.nodup_singleton _, fun x hx hxsp => ?_, fun x hx => ?_, fun b hb => ?_⟩
  · rw [List.mem_singleton.mp hx] at hxsp
    exact hdag.acyclic _ (hpast _ hxsp)
  · rcases (hT x).mp hx with hx | rfl
    · exact hfacts.mem hsp (Dag.Ancestor.refl _) hx
    · exact hsp
  · rcases (hT b).mp hb with hb | rfl
    · -- a block of the selected parent's blue set: the walk goes on to the selected parent
      have hne : b ≠ selectedParent := fun he => hdag.acyclic _ (he ▸ hpast b hb)
      have hg : selectedParent ≠ mgr.genesisHash := by
        rintro rfl
        exact not_inBlueSet_genesis hdag.genesis_data b hb
      have ho : selectedParent ≠ origin := fun he => hdag.origin_not_mem (he ▸ hsp)
      obtain ⟨data, hdata⟩ := hb.exists_data
      obtain ⟨his, hle⟩ := (hfacts.colored _ hsp (Dag.Ancestor.refl _) hg data hdata).sizes b hb
      have hcount : mgr.blueAnticoneCount blocks
          (mgr.ContextBlues (GhostdagData.newWithSelectedParent selectedParent)) b =
            mgr.blueAnticoneCount blocks (mgr.InBlueSet selectedParent) b :=
        Dag.anticoneCount_insert_of_not_anticone (fun ha => ha.1 (hpast b hb).ancestor) hT
      have hlookup : (GhostdagData.newWithSelectedParent selectedParent).bluesAnticoneSizes.lookup
          b = none := by
        rw [GhostdagData.newWithSelectedParent, AList.lookup_insert_ne hne, AList.lookup_empty]
      rw [hcount]
      exact ⟨.next hlookup hg ho hdata his, hle⟩
    · -- the selected parent: its whole blue set is in its past
      have hcount : mgr.blueAnticoneCount blocks
          (mgr.ContextBlues (GhostdagData.newWithSelectedParent b)) b = 0 := by
        refine Dag.anticoneCount_eq_length List.nodup_nil fun x =>
          ⟨fun hx => absurd hx List.not_mem_nil, ?_⟩
        rintro ⟨-, hx, ha⟩
        rcases (hT x).mp hx with hx | rfl
        · exact absurd (hpast x hx).ancestor ha.2
        · exact absurd ha (Dag.not_anticone_self _)
      rw [hcount]
      exact ⟨.found (AList.lookup_insert _), Nat.zero_le _⟩

include hwork

/-- Genesis is an ancestor of every block: a block other than genesis has a parent, of lower blue
work. -/
theorem GhostdagDag.genesis_ancestor {block : Hash} (hblock : block ∈ blocks) :
    Dag.Ancestor mgr.parents mgr.genesisHash block := by
  obtain ⟨data, hdata⟩ := hdag.exists_data hblock
  suffices h : ∀ n, ∀ block ∈ blocks, ∀ data, mgr.ghostdagStore block = some data →
      data.blueWork < n → Dag.Ancestor mgr.parents mgr.genesisHash block from
    h _ block hblock data hdata (Nat.lt_succ_self _)
  intro n
  induction n with
  | zero => exact fun _ _ _ _ hlt => absurd hlt (Nat.not_lt_zero _)
  | succ n ih =>
    intro block hblock data hdata hlt
    by_cases hg : block = mgr.genesisHash
    · rw [hg]
      exact Dag.Ancestor.refl _
    · obtain ⟨_, _, hgd, -⟩ := hdag.produced block hblock hg
      obtain ⟨p, hp⟩ := List.exists_mem_of_ne_nil _ (ghostdag_eq_ok hgd).1
      have hpb := hdag.parents_mem block hblock hg p hp
      obtain ⟨dp, hdp⟩ := hdag.exists_data hpb
      have hwp := hwork block hblock hg p hp dp data hdp hdata
      exact (ih p hpb dp hdp (Nat.lt_of_lt_of_le hwp (Nat.le_of_lt_succ hlt))).trans
        (Dag.ancestor_of_mem hp)

theorem GhostdagDag.blueWork_lt_of_past {a b : Hash} (hab : Dag.Past mgr.parents a b)
    (ha : a ∈ blocks) (hb : b ∈ blocks) (hbg : b ≠ mgr.genesisHash) {da db : GhostdagData}
    (hda : mgr.ghostdagStore a = some da) (hdb : mgr.ghostdagStore b = some db) :
    da.blueWork < db.blueWork := by
  revert hb hbg db hdb
  induction hab with
  | single h =>
    intro hb hbg db hdb
    exact hwork _ hb hbg a h da db hda hdb
  | @tail y b hay hyb ih =>
    intro hb hbg db hdb
    have hy := hdag.parents_mem b hb hbg y hyb
    -- a block in the past of another is not genesis, which is an ancestor of both
    have hyg : y ≠ mgr.genesisHash := by
      rintro rfl
      exact hdag.acyclic _ ((hdag.genesis_ancestor hwork ha).trans_past hay)
    obtain ⟨dy, hdy⟩ := hdag.exists_data hy
    exact Nat.lt_trans (ih hy hyg hdy) (hwork b hb hbg y hyb dy db hdy hdb)

variable (hincest : ∀ block ∈ blocks, ∀ p ∈ mgr.parents block, ∀ q ∈ mgr.parents block,
  p ≠ q → ¬ Dag.Ancestor mgr.parents p q)

include hincest

/-- The ordered mergeset holds blocks of the block's past outside the selected parent's past,
none after one of its descendants. -/
theorem GhostdagDag.orderedMergeset_spec {block : Hash} (hblock : block ∈ blocks)
    (hg : block ≠ mgr.genesisHash) {selectedParent : Hash}
    (hspp : selectedParent ∈ mgr.parents block) {fuel : Nat} {ordered : List Hash}
    (hordered : mgr.orderedMergesetWithoutSelectedParent fuel selectedParent (mgr.parents block) =
      .ok ordered) :
    (∀ x ∈ ordered, x ∈ blocks ∧ Dag.Past mgr.parents x block ∧
      ¬ Dag.Ancestor mgr.parents x selectedParent) ∧
    ordered.Pairwise fun a b => ¬ Dag.Ancestor mgr.parents b a := by
  have hgsp := hdag.genesis_ancestor hwork (hdag.parents_mem block hblock hg _ hspp)
  obtain ⟨mergeset, hmergeset, hperm, hsorted⟩ :=
    orderedMergesetWithoutSelectedParent_eq_ok hordered
  -- the search keeps blocks of the past outside the selected parent's past
  have hsound : ∀ x ∈ mergeset.toList, x ∈ blocks ∧ Dag.Past mgr.parents x block ∧
      ¬ Dag.Ancestor mgr.parents x selectedParent := by
    refine unorderedMergesetWithoutSelectedParent_sound
      (fun x ps hx hps p hp hanc => ?_) (fun p hp hne => ?_) hmergeset
    · have hxg : x ≠ mgr.genesisHash := by
        rintro rfl
        exact hx.2.2 hgsp
      have hp' : p ∈ mgr.parents x := by
        rw [parents, hps]
        exact hp
      refine ⟨hdag.parents_mem x hx.1 hxg p hp', (Dag.past_of_mem hp').trans_ancestor
        hx.2.1.ancestor, fun hpsp => ?_⟩
      rw [(hdag.reachability p selectedParent).mpr hpsp] at hanc
      cases hanc
    · exact ⟨hdag.parents_mem block hblock hg p hp, Dag.past_of_mem hp,
        hincest block hblock p hp selectedParent hspp hne⟩
  have hmem : ∀ x ∈ ordered, x ∈ blocks ∧ Dag.Past mgr.parents x block ∧
      ¬ Dag.Ancestor mgr.parents x selectedParent := fun x hx => hsound x (hperm.subset hx)
  refine ⟨hmem, (hsorted.and (hperm.nodup_iff.mpr mergeset.nodup)).imp_of_mem ?_⟩
  -- the order puts blue work first, and blue work grows along the past
  rintro a b ha hb ⟨hkey, hne⟩ hba
  have hag : a ≠ mgr.genesisHash := by
    rintro rfl
    exact (hmem _ ha).2.2 hgsp
  obtain ⟨da, hda⟩ := hdag.exists_data (hmem a ha).1
  obtain ⟨db, hdb⟩ := hdag.exists_data (hmem b hb).1
  have hpast : Dag.Past mgr.parents b a :=
    (Dag.ancestor_iff_eq_or_past.mp hba).resolve_left (Ne.symm hne)
  have hlt := hdag.blueWork_lt_of_past hwork hpast (hmem b hb).1 (hmem a ha).1 hag hdb hda
  exact Nat.lt_irrefl _ (Nat.lt_of_lt_of_le hlt
    (SortableBlock.blueWork_le_of_key_le (hkey da db hda hdb)))

/-- A block's data is right when the data of every block in its past is. -/
theorem ghostdag_coloredBlock {block : Hash} (hblock : block ∈ blocks)
    (hg : block ≠ mgr.genesisHash) {fuel : Nat} {data : GhostdagData}
    (h : mgr.ghostdag fuel (mgr.parents block) = .ok data)
    (hstore : mgr.ghostdagStore block = some data)
    (hbelow : ∀ y ∈ blocks, y ≠ mgr.genesisHash → ∀ dy, mgr.ghostdagStore y = some dy →
      Dag.Past mgr.parents y block → mgr.ColoredBlock blocks y dy) :
    mgr.ColoredBlock blocks block data := by
  obtain ⟨-, sp, newData, hsp, hcolor, hdsp, hdblues, hdsizes, -⟩ := ghostdag_eq_ok h
  have hspp : sp ∈ mgr.parents block := findSelectedParent_mem hsp
  have hspb : sp ∈ blocks := hdag.parents_mem block hblock hg sp hspp
  have hfacts : mgr.ChainFacts blocks sp := ⟨hdag.reachability, hdag.genesis_data, hspb,
    hdag.origin_not_mem, fun y hy hanc hyg dy hdy =>
      hbelow y hy hyg dy hdy (Dag.past_of_ancestor_of_mem hanc hspp)⟩
  obtain ⟨ordered, hordered, hfold⟩ := colorMergeset_eq_ok hcolor
  obtain ⟨hmem, horder⟩ := hdag.orderedMergeset_spec hwork hincest hblock hg hspp hordered
  -- no candidate has a descendant among the selected parent and its blue set
  have hcandidates : ∀ c ∈ ordered, c ∈ blocks ∧ Dag.Ancestor mgr.parents mgr.genesisHash c ∧
      ∀ x, mgr.ContextBlues (GhostdagData.newWithSelectedParent sp) x →
        ¬ Dag.Ancestor mgr.parents c x := by
    intro c hc
    refine ⟨(hmem c hc).1, hdag.genesis_ancestor hwork (hmem c hc).1, fun x hx hcx => ?_⟩
    rcases hx with hx | hx
    · rw [GhostdagData.newWithSelectedParent_mergesetBlues, List.mem_singleton] at hx
      exact (hmem c hc).2.2 (hx ▸ hcx)
    · exact (hmem c hc).2.2 (hcx.trans (hfacts.past hspb (Dag.Ancestor.refl _) hx).ancestor)
  obtain ⟨hfinal, hblues⟩ := foldlM_colorCandidate_spec hfacts
    (coloringInv_newWithSelectedParent hdag hfacts) hcandidates horder hfold
  refine hfinal.coloredBlock hfacts hspp hg hstore (fun x hx => ?_) hdsp hdblues hdsizes
  rcases hblues x hx with hx | hx
  · rw [GhostdagData.newWithSelectedParent_mergesetBlues, List.mem_singleton] at hx
    rw [hx]
    exact Dag.past_of_mem hspp
  · exact (hmem x hx).2.1

theorem GhostdagDag.coloredBlock {block : Hash} (hblock : block ∈ blocks)
    (hg : block ≠ mgr.genesisHash) {data : GhostdagData}
    (hdata : mgr.ghostdagStore block = some data) : mgr.ColoredBlock blocks block data := by
  suffices h : ∀ n, ∀ block ∈ blocks, block ≠ mgr.genesisHash → ∀ data,
      mgr.ghostdagStore block = some data → data.blueWork < n →
        mgr.ColoredBlock blocks block data from
    h _ block hblock hg data hdata (Nat.lt_succ_self _)
  intro n
  induction n with
  | zero => exact fun _ _ _ _ _ hlt => absurd hlt (Nat.not_lt_zero _)
  | succ n ih =>
    intro block hblock hg data hdata hlt
    obtain ⟨fuel, data', hgd, hdata'⟩ := hdag.produced block hblock hg
    rw [hdata, Option.some.injEq] at hdata'
    subst hdata'
    refine ghostdag_coloredBlock hdag hwork hincest hblock hg hgd hdata
      fun y hy hyg dy hdy hpast => ih y hy hyg dy hdy ?_
    exact Nat.lt_of_lt_of_le (hdag.blueWork_lt_of_past hwork hpast hy hblock hg hdy hdata)
      (Nat.le_of_lt_succ hlt)

end Dag

/-! ## The invariant -/

/-- Over a DAG whose parents are pairwise incomparable and whose blue work grows along every
parent edge, every block of a block's blue set has at most `k` blocks of that blue set in its
anticone, and `blue_anticone_size` returns that number. -/
theorem ghostdag_k_cluster (hdag : mgr.GhostdagDag blocks)
    (hincest : ∀ block ∈ blocks, ∀ p ∈ mgr.parents block, ∀ q ∈ mgr.parents block,
      p ≠ q → ¬ Dag.Ancestor mgr.parents p q)
    (hwork : ∀ block ∈ blocks, block ≠ mgr.genesisHash → ∀ p ∈ mgr.parents block,
      ∀ dp db, mgr.ghostdagStore p = some dp → mgr.ghostdagStore block = some db →
        dp.blueWork < db.blueWork)
    {block : Hash} (hblock : block ∈ blocks) {data : GhostdagData}
    (hdata : mgr.ghostdagStore block = some data) {b : Hash} (hb : mgr.InBlueSet block b) :
    mgr.blueAnticoneCount blocks (mgr.InBlueSet block) b ≤ mgr.k ∧
      ∃ fuel, mgr.blueAnticoneSize fuel b data =
        .ok (mgr.blueAnticoneCount blocks (mgr.InBlueSet block) b) := by
  have hg : block ≠ mgr.genesisHash := by
    rintro rfl
    exact not_inBlueSet_genesis hdag.genesis_data b hb
  obtain ⟨his, hle⟩ := (hdag.coloredBlock hwork hincest hblock hg hdata).sizes b hb
  exact ⟨hle, his.exists_fuel⟩

/-! ## Two small DAGs

Blocks are named by `Hash.fromU64Word`: genesis is 1, and every block's bits give a work of 2.
-/

/-- A rank that grows along the parent edges of both DAGs below. -/
def exampleRank (hash : Hash) : Nat :=
  if hash = Hash.fromU64Word 3 then 2 else if hash = Hash.fromU64Word 1 then 0 else 1

theorem exampleRank_le (hash : Hash) : exampleRank hash ≤ 3 := by
  unfold exampleRank
  split_ifs <;> decide

/-- Genesis, its children `2` and `4`, and a block `3` with parents `2` and `4`. -/
def diamondRelations (hash : Hash) : Option (List Hash) :=
  if hash = Hash.fromU64Word 2 then some [Hash.fromU64Word 1]
  else if hash = Hash.fromU64Word 4 then some [Hash.fromU64Word 1]
  else if hash = Hash.fromU64Word 3 then some [Hash.fromU64Word 2, Hash.fromU64Word 4]
  else if hash = Hash.fromU64Word 1 then some []
  else none

/-- The data `ghostdag` computes for blocks `2` and `4`. -/
def diamondChildData : GhostdagData :=
  ⟨1, 2, Hash.fromU64Word 1, [Hash.fromU64Word 1], [],
    (∅ : HashKTypeMap).insert (Hash.fromU64Word 1) 0⟩

/-- The data `ghostdag` computes for block `3`: `4` wins the tie on blue work by its hash, and
`2` is blue, each with the other in its blue anticone. -/
def diamondData3 : GhostdagData :=
  ⟨3, 6, Hash.fromU64Word 4, [Hash.fromU64Word 4, Hash.fromU64Word 2], [],
    (((∅ : HashKTypeMap).insert (Hash.fromU64Word 4) 0).insert (Hash.fromU64Word 2) 1).insert
      (Hash.fromU64Word 4) 1⟩

def diamondManager : GhostdagManager where
  genesisHash := Hash.fromU64Word 1
  k := 1
  ghostdagStore hash :=
    if hash = Hash.fromU64Word 1 then some genesisGhostdagData
    else if hash = Hash.fromU64Word 2 then some diamondChildData
    else if hash = Hash.fromU64Word 4 then some diamondChildData
    else if hash = Hash.fromU64Word 3 then some diamondData3
    else none
  relationsStore := diamondRelations
  headersStore _ := some 0x207fffff
  isDagAncestorOf := Dag.ancestorB (fun hash => (diamondRelations hash).getD []) 3
  levelWork := 0

def diamondBlocks : Finset Hash :=
  {Hash.fromU64Word 1, Hash.fromU64Word 2, Hash.fromU64Word 4, Hash.fromU64Word 3}

theorem diamondManager_rank_lt (a b : Hash) (h : a ∈ diamondManager.parents b) :
    exampleRank a < exampleRank b := by
  change a ∈ (diamondRelations b).getD [] at h
  unfold diamondRelations at h
  split_ifs at h with h2 h4 h3 <;>
    simp only [Option.getD_some, Option.getD_none, List.mem_cons, List.not_mem_nil,
      or_false] at h
  · subst h h2
    decide
  · subst h h4
    decide
  · rcases h with rfl | rfl <;> subst h3 <;> decide

theorem diamondManager_dag : diamondManager.GhostdagDag diamondBlocks where
  genesis_mem := by decide
  genesis_data := rfl
  origin_not_mem := by decide
  parents_mem := by decide
  acyclic := Dag.acyclic_of_rank exampleRank diamondManager_rank_lt
  reachability a b := ⟨Dag.ancestor_of_ancestorB,
    Dag.ancestorB_of_ancestor exampleRank diamondManager_rank_lt (exampleRank_le b)⟩
  produced := by
    intro block hblock hg
    simp only [diamondBlocks, Finset.mem_insert, Finset.mem_singleton] at hblock
    rcases hblock with rfl | rfl | rfl | rfl
    · exact absurd rfl hg
    · exact ⟨5, diamondChildData, rfl, rfl⟩
    · exact ⟨5, diamondChildData, rfl, rfl⟩
    · exact ⟨5, diamondData3, rfl, rfl⟩

theorem diamondManager_incest : ∀ block ∈ diamondBlocks, ∀ p ∈ diamondManager.parents block,
    ∀ q ∈ diamondManager.parents block, p ≠ q → ¬ Dag.Ancestor diamondManager.parents p q := by
  have h : ∀ block ∈ diamondBlocks, ∀ p ∈ diamondManager.parents block,
      ∀ q ∈ diamondManager.parents block, p ≠ q →
        Dag.ancestorB diamondManager.parents 3 p q = false := by decide
  intro block hblock p hp q hq hpq hanc
  have hsearch := Dag.ancestorB_of_ancestor exampleRank diamondManager_rank_lt
    (exampleRank_le q) hanc
  rw [h block hblock p hp q hq hpq] at hsearch
  cases hsearch

theorem diamondManager_work : ∀ block ∈ diamondBlocks, block ≠ diamondManager.genesisHash →
    ∀ p ∈ diamondManager.parents block, ∀ dp db, diamondManager.ghostdagStore p = some dp →
      diamondManager.ghostdagStore block = some db → dp.blueWork < db.blueWork := by
  have h : ∀ block ∈ diamondBlocks, block ≠ diamondManager.genesisHash →
      ∀ p ∈ diamondManager.parents block,
        (match diamondManager.ghostdagStore p, diamondManager.ghostdagStore block with
          | some dp, some db => decide (dp.blueWork < db.blueWork)
          | _, _ => true) = true := by decide
  intro block hblock hg p hp dp db hdp hdb
  have hlt := h block hblock hg p hp
  rw [hdp, hdb] at hlt
  exact of_decide_eq_true hlt

/-- In the diamond, block `2` is blue in block `3` with block `4` in its blue anticone. -/
theorem ghostdag_k_cluster_diamond :
    diamondManager.blueAnticoneCount diamondBlocks
        (diamondManager.InBlueSet (Hash.fromU64Word 3)) (Hash.fromU64Word 2) ≤ diamondManager.k ∧
      ∃ fuel, diamondManager.blueAnticoneSize fuel (Hash.fromU64Word 2) diamondData3 =
        .ok (diamondManager.blueAnticoneCount diamondBlocks
          (diamondManager.InBlueSet (Hash.fromU64Word 3)) (Hash.fromU64Word 2)) :=
  ghostdag_k_cluster diamondManager_dag diamondManager_incest diamondManager_work (by decide) rfl
    (.here rfl (by decide))

/-- Genesis, a child `2` of genesis, and a block `3` with parents `2` and genesis: genesis is
in the past of the other parent. -/
def incestRelations (hash : Hash) : Option (List Hash) :=
  if hash = Hash.fromU64Word 2 then some [Hash.fromU64Word 1]
  else if hash = Hash.fromU64Word 3 then some [Hash.fromU64Word 2, Hash.fromU64Word 1]
  else if hash = Hash.fromU64Word 1 then some []
  else none

/-- The data `ghostdag` computes for block `2`. -/
def incestData2 : GhostdagData :=
  ⟨1, 2, Hash.fromU64Word 1, [Hash.fromU64Word 1], [],
    (∅ : HashKTypeMap).insert (Hash.fromU64Word 1) 0⟩

/-- The data `ghostdag` computes for block `3`: genesis is colored blue a second time, and block
`2` is given one blue block in its anticone. -/
def incestData3 : GhostdagData :=
  ⟨3, 6, Hash.fromU64Word 2, [Hash.fromU64Word 2, Hash.fromU64Word 1], [],
    (((∅ : HashKTypeMap).insert (Hash.fromU64Word 2) 0).insert (Hash.fromU64Word 1) 1).insert
      (Hash.fromU64Word 2) 1⟩

def incestManager : GhostdagManager where
  genesisHash := Hash.fromU64Word 1
  k := 1
  ghostdagStore hash :=
    if hash = Hash.fromU64Word 1 then some genesisGhostdagData
    else if hash = Hash.fromU64Word 2 then some incestData2
    else if hash = Hash.fromU64Word 3 then some incestData3
    else none
  relationsStore := incestRelations
  headersStore _ := some 0x207fffff
  isDagAncestorOf := Dag.ancestorB (fun hash => (incestRelations hash).getD []) 3
  levelWork := 0

def incestBlocks : Finset Hash :=
  {Hash.fromU64Word 1, Hash.fromU64Word 2, Hash.fromU64Word 3}

theorem incestManager_rank_lt (a b : Hash) (h : a ∈ incestManager.parents b) :
    exampleRank a < exampleRank b := by
  change a ∈ (incestRelations b).getD [] at h
  unfold incestRelations at h
  split_ifs at h with h2 h3 <;>
    simp only [Option.getD_some, Option.getD_none, List.mem_cons, List.not_mem_nil,
      or_false] at h
  · subst h h2
    decide
  · rcases h with rfl | rfl <;> subst h3 <;> decide

theorem incestManager_dag : incestManager.GhostdagDag incestBlocks where
  genesis_mem := by decide
  genesis_data := rfl
  origin_not_mem := by decide
  parents_mem := by decide
  acyclic := Dag.acyclic_of_rank exampleRank incestManager_rank_lt
  reachability a b := ⟨Dag.ancestor_of_ancestorB,
    Dag.ancestorB_of_ancestor exampleRank incestManager_rank_lt (exampleRank_le b)⟩
  produced := by
    intro block hblock hg
    simp only [incestBlocks, Finset.mem_insert, Finset.mem_singleton] at hblock
    rcases hblock with rfl | rfl | rfl
    · exact absurd rfl hg
    · exact ⟨5, incestData2, rfl, rfl⟩
    · exact ⟨5, incestData3, rfl, rfl⟩

/-- The blue set of block `3` is block `2` and genesis, both ancestors of block `2`. -/
theorem incestManager_count :
    incestManager.blueAnticoneCount incestBlocks (incestManager.InBlueSet (Hash.fromU64Word 3))
      (Hash.fromU64Word 2) = 0 := by
  refine Dag.anticoneCount_eq_length List.nodup_nil fun x =>
    ⟨fun hx => absurd hx List.not_mem_nil, ?_⟩
  rintro ⟨-, hx, ha⟩
  have hgenesis : Dag.Ancestor incestManager.parents (Hash.fromU64Word 1) (Hash.fromU64Word 2) :=
    Dag.ancestor_of_mem (by decide)
  rw [inBlueSet_iff rfl] at hx
  rcases hx with hx | ⟨-, hx⟩
  · rcases List.mem_cons.mp hx with rfl | hx
    · exact absurd ha (Dag.not_anticone_self _)
    · rw [List.mem_singleton.mp hx] at ha
      exact absurd hgenesis ha.2
  · rw [inBlueSet_iff rfl] at hx
    rcases hx with hx | ⟨-, hx⟩
    · rw [List.mem_singleton.mp hx] at ha
      exact absurd hgenesis ha.2
    · exact absurd hx (not_inBlueSet_genesis rfl x)

/-- Without incomparable parents the invariant fails: in block `3`'s blue set, block `2` has no
blue block in its anticone, but its recorded size is one. -/
theorem ghostdag_k_cluster_parent_in_past :
    ¬ ∀ (mgr : GhostdagManager) (blocks : Finset Hash), mgr.GhostdagDag blocks →
      ∀ block ∈ blocks, ∀ data, mgr.ghostdagStore block = some data →
        ∀ b, mgr.InBlueSet block b →
          mgr.blueAnticoneCount blocks (mgr.InBlueSet block) b ≤ mgr.k ∧
            ∃ fuel, mgr.blueAnticoneSize fuel b data =
              .ok (mgr.blueAnticoneCount blocks (mgr.InBlueSet block) b) := by
  intro h
  obtain ⟨-, fuel, hfuel⟩ := h incestManager incestBlocks incestManager_dag (Hash.fromU64Word 3)
    (by decide) incestData3 rfl (Hash.fromU64Word 2) (.here rfl (by decide))
  rw [incestManager_count] at hfuel
  cases fuel with
  | zero => cases hfuel
  | succ fuel => cases hfuel

end GhostdagManager

end Vecno
