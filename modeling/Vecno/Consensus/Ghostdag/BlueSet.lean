import Vecno.Consensus.Ghostdag.Protocol
import Vecno.Lib.Dag

/-!
# The blue set and the blue anticone sizes

What the data `ghostdag` stores means: the blue set along the selected chain, and the blue anticone
sizes `blue_anticone_size` reads from the nearest chain block that recorded one.
-/

namespace Vecno

namespace GhostdagManager

variable (mgr : GhostdagManager)

/-- A block's parents, as the relations store holds them. -/
def parents (hash : Hash) : List Hash :=
  (mgr.relationsStore hash).getD []

/-- `b` is in the blue set of `block`. -/
inductive InBlueSet : Hash → Hash → Prop
  | here {block b : Hash} {data : GhostdagData} :
      mgr.ghostdagStore block = some data → b ∈ data.mergesetBlues → InBlueSet block b
  | inherited {block b : Hash} {data : GhostdagData} :
      mgr.ghostdagStore block = some data → block ≠ mgr.genesisHash →
      InBlueSet data.selectedParent b → InBlueSet block b

/-- The blue set of a block whose data is not stored yet. -/
def ContextBlues (data : GhostdagData) (b : Hash) : Prop :=
  b ∈ data.mergesetBlues ∨ mgr.InBlueSet data.selectedParent b

/-- `blue_anticone_size(b, data)` is `size`: the first entry for `b` on the selected chain. -/
inductive BlueAnticoneSizeIs (b : Hash) : GhostdagData → KType → Prop
  | found {data : GhostdagData} {size : KType} :
      data.bluesAnticoneSizes.lookup b = some size → BlueAnticoneSizeIs b data size
  | next {data data' : GhostdagData} {size : KType} :
      data.bluesAnticoneSizes.lookup b = none → data.selectedParent ≠ mgr.genesisHash →
      data.selectedParent ≠ origin → mgr.ghostdagStore data.selectedParent = some data' →
      BlueAnticoneSizeIs b data' size → BlueAnticoneSizeIs b data size

/-- The number of blocks of the blue set `S` in the anticone of `b`. -/
noncomputable def blueAnticoneCount (blocks : Finset Hash) (S : Hash → Prop) (b : Hash) : Nat :=
  Dag.anticoneCount mgr.parents blocks S b

/-- For every block of the blue set `S`, `data` gives the count in `S`, which is within `k`. -/
def SizesExact (blocks : Finset Hash) (S : Hash → Prop) (data : GhostdagData) : Prop :=
  ∀ b, S b → mgr.BlueAnticoneSizeIs b data (mgr.blueAnticoneCount blocks S b) ∧
    mgr.blueAnticoneCount blocks S b ≤ mgr.k

/-- What holds of a block's stored data once the coloring that produced it is known to be
right: the selected parent is a parent, the blues are new and fresh, the blue set lies in the
block's past, and the sizes are exact. -/
structure ColoredBlock (blocks : Finset Hash) (block : Hash) (data : GhostdagData) : Prop where
  selectedParent_mem : data.selectedParent ∈ blocks
  selectedParent_parent : data.selectedParent ∈ mgr.parents block
  nodup : data.mergesetBlues.Nodup
  disjoint : ∀ x ∈ data.mergesetBlues, ¬ mgr.InBlueSet data.selectedParent x
  past : ∀ b, mgr.InBlueSet block b → Dag.Past mgr.parents b block
  mem : ∀ b, mgr.InBlueSet block b → b ∈ blocks
  sizes : mgr.SizesExact blocks (mgr.InBlueSet block) data

/-- A DAG of blocks whose every block other than genesis holds what `ghostdag` computes from its
parents, with a reachability service that answers ancestry. -/
structure GhostdagDag (blocks : Finset Hash) : Prop where
  genesis_mem : mgr.genesisHash ∈ blocks
  genesis_data : mgr.ghostdagStore mgr.genesisHash = some genesisGhostdagData
  origin_not_mem : origin ∉ blocks
  parents_mem : ∀ block ∈ blocks, block ≠ mgr.genesisHash → ∀ p ∈ mgr.parents block, p ∈ blocks
  acyclic : ∀ a, ¬ Dag.Past mgr.parents a a
  reachability : ∀ a b, mgr.isDagAncestorOf a b = true ↔ Dag.Ancestor mgr.parents a b
  produced : ∀ block ∈ blocks, block ≠ mgr.genesisHash →
    ∃ fuel data, mgr.ghostdag fuel (mgr.parents block) = .ok data ∧
      mgr.ghostdagStore block = some data

variable {mgr}

/-! ## The blue set -/

theorem inBlueSet_iff {block b : Hash} {data : GhostdagData}
    (h : mgr.ghostdagStore block = some data) :
    mgr.InBlueSet block b ↔
      b ∈ data.mergesetBlues ∨ (block ≠ mgr.genesisHash ∧ mgr.InBlueSet data.selectedParent b) := by
  constructor
  · rintro (⟨hd, hb⟩ | ⟨hd, hg, hb⟩)
    · rw [h, Option.some.injEq] at hd
      subst hd
      exact Or.inl hb
    · rw [h, Option.some.injEq] at hd
      subst hd
      exact Or.inr ⟨hg, hb⟩
  · rintro (hb | ⟨hg, hb⟩)
    · exact .here h hb
    · exact .inherited h hg hb

theorem InBlueSet.exists_data {block b : Hash} (h : mgr.InBlueSet block b) :
    ∃ data, mgr.ghostdagStore block = some data := by
  cases h with
  | here hd _ => exact ⟨_, hd⟩
  | inherited hd _ _ => exact ⟨_, hd⟩

theorem inBlueSet_iff_contextBlues {block b : Hash} {data : GhostdagData}
    (h : mgr.ghostdagStore block = some data) (hg : block ≠ mgr.genesisHash) :
    mgr.InBlueSet block b ↔ mgr.ContextBlues data b := by
  rw [inBlueSet_iff h, ContextBlues]
  simp only [hg, ne_eq, not_false_eq_true, true_and]

theorem not_inBlueSet_genesis
    (hg : mgr.ghostdagStore mgr.genesisHash = some genesisGhostdagData) (b : Hash) :
    ¬ mgr.InBlueSet mgr.genesisHash b := by
  rw [inBlueSet_iff hg]
  rintro (hb | ⟨hne, -⟩)
  · exact List.not_mem_nil hb
  · exact hne rfl

/-! ## The walk of `blue_anticone_size` -/

theorem BlueAnticoneSizeIs.unique {b : Hash} {data : GhostdagData} {s s' : KType}
    (h : mgr.BlueAnticoneSizeIs b data s) (h' : mgr.BlueAnticoneSizeIs b data s') : s = s' := by
  induction h with
  | found hs =>
    cases h' with
    | found hs' => exact Option.some.inj (hs.symm.trans hs')
    | next hnone => rw [hs] at hnone; cases hnone
  | next hnone _ _ hd _ ih =>
    cases h' with
    | found hs' => rw [hs'] at hnone; cases hnone
    | next _ _ _ hd' h' =>
      rw [hd, Option.some.injEq] at hd'
      subst hd'
      exact ih h'

theorem BlueAnticoneSizeIs.of_lookup_eq {b : Hash} {data data' : GhostdagData} {s : KType}
    (h : mgr.BlueAnticoneSizeIs b data s)
    (hlookup : data'.bluesAnticoneSizes.lookup b = data.bluesAnticoneSizes.lookup b)
    (hsp : data'.selectedParent = data.selectedParent) : mgr.BlueAnticoneSizeIs b data' s := by
  cases h with
  | found hs => exact .found (hlookup.trans hs)
  | next hnone hg ho hd h =>
    rw [← hsp] at hg ho hd
    exact .next (hlookup.trans hnone) hg ho hd h

theorem blueAnticoneSizeIs_of_eq_ok {fuel : Nat} {b : Hash} {data : GhostdagData} {s : KType}
    (h : mgr.blueAnticoneSize fuel b data = .ok s) : mgr.BlueAnticoneSizeIs b data s := by
  induction fuel generalizing data with
  | zero => cases h
  | succ fuel ih =>
    unfold blueAnticoneSize blueAnticoneSizeLoop at h
    cases hlookup : data.bluesAnticoneSizes.lookup b with
    | some size =>
      rw [hlookup] at h
      cases h
      exact .found hlookup
    | none =>
      rw [hlookup] at h
      by_cases hstop : data.selectedParent = mgr.genesisHash ∨ data.selectedParent = origin
      · rw [if_pos hstop] at h
        cases h
      · rw [if_neg hstop] at h
        obtain ⟨data', hdata', h⟩ := Except.bind_eq_ok.mp h
        rw [not_or] at hstop
        exact .next hlookup hstop.1 hstop.2 (Checked.expect_eq_ok.mp hdata') (ih h)

/-- Given enough fuel, `blue_anticone_size` returns the size the walk finds. -/
theorem BlueAnticoneSizeIs.exists_fuel {b : Hash} {data : GhostdagData} {s : KType}
    (h : mgr.BlueAnticoneSizeIs b data s) : ∃ fuel, mgr.blueAnticoneSize fuel b data = .ok s := by
  induction h with
  | found hs =>
    refine ⟨1, ?_⟩
    simp only [blueAnticoneSize, blueAnticoneSizeLoop, hs]
  | next hnone hg ho hd _ ih =>
    obtain ⟨fuel, hfuel⟩ := ih
    refine ⟨fuel + 1, ?_⟩
    have hstop : ¬ (_ = mgr.genesisHash ∨ _ = origin) := not_or.mpr ⟨hg, ho⟩
    simp only [blueAnticoneSize, blueAnticoneSizeLoop, hnone, if_neg hstop, getData, hd,
      Checked.expect, Except.ok_bind]
    exact hfuel

end GhostdagManager

end Vecno
