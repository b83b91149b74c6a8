import Mathlib.Data.List.AList
import Vecno.Consensus.Header
import Vecno.Lib.Checked

/-!
# GHOSTDAG data

`GhostdagData` of `model/stores/ghostdag.rs`. `KType` is `u16` with checked additions;
`BlueWorkType` is `Uint192`, whose additions wrap in the release build.
-/

namespace Vecno

/-- `KType` (`u16`). -/
abbrev KType := Nat

/-- `BlueWorkType` (`Uint192`). -/
abbrev BlueWorkType := Nat

/-- `HashKTypeMap` and `BlockHashMap<KType>`. -/
abbrev HashKTypeMap := AList (fun _ : Hash => KType)

structure GhostdagData where
  blueScore : UInt64
  blueWork : BlueWorkType
  selectedParent : Hash
  mergesetBlues : List Hash
  mergesetReds : List Hash
  bluesAnticoneSizes : HashKTypeMap

namespace GhostdagData

/-- `GhostdagData::new_with_selected_parent`: the selected parent is the first blue, with an
empty blue anticone (the code's `k` only sizes the allocations). -/
def newWithSelectedParent (selectedParent : Hash) : GhostdagData :=
  ⟨0, 0, selectedParent, [selectedParent], [], (∅ : HashKTypeMap).insert selectedParent 0⟩

/-- The size updates of `add_blue`: every block in the candidate's blue anticone gains one. -/
def insertIncremented (sizes : HashKTypeMap) :
    List (Sigma fun _ : Hash => KType) → Except String HashKTypeMap
  | [] => .ok sizes
  | entry :: rest => do
    let size ← Checked.add 16 entry.2 1
    insertIncremented (sizes.insert entry.1 size) rest

def addBlue (data : GhostdagData) (block : Hash) (blueAnticoneSize : KType)
    (blockBluesAnticoneSizes : HashKTypeMap) : Except String GhostdagData := do
  let sizes ← insertIncremented (data.bluesAnticoneSizes.insert block blueAnticoneSize)
    blockBluesAnticoneSizes.entries
  pure ⟨data.blueScore, data.blueWork, data.selectedParent, data.mergesetBlues ++ [block],
    data.mergesetReds, sizes⟩

def addRed (data : GhostdagData) (block : Hash) : GhostdagData :=
  ⟨data.blueScore, data.blueWork, data.selectedParent, data.mergesetBlues,
    data.mergesetReds ++ [block], data.bluesAnticoneSizes⟩

def finalizeScoreAndWork (data : GhostdagData) (blueScore : UInt64)
    (blueWork : BlueWorkType) : GhostdagData :=
  ⟨blueScore, blueWork, data.selectedParent, data.mergesetBlues, data.mergesetReds,
    data.bluesAnticoneSizes⟩

@[simp] theorem addRed_selectedParent (data : GhostdagData) (block : Hash) :
    (data.addRed block).selectedParent = data.selectedParent := rfl

@[simp] theorem addRed_mergesetBlues (data : GhostdagData) (block : Hash) :
    (data.addRed block).mergesetBlues = data.mergesetBlues := rfl

@[simp] theorem addRed_mergesetReds (data : GhostdagData) (block : Hash) :
    (data.addRed block).mergesetReds = data.mergesetReds ++ [block] := rfl

@[simp] theorem addRed_bluesAnticoneSizes (data : GhostdagData) (block : Hash) :
    (data.addRed block).bluesAnticoneSizes = data.bluesAnticoneSizes := rfl

@[simp] theorem finalizeScoreAndWork_selectedParent (data : GhostdagData) (s : UInt64)
    (w : BlueWorkType) : (data.finalizeScoreAndWork s w).selectedParent = data.selectedParent :=
  rfl

@[simp] theorem finalizeScoreAndWork_mergesetBlues (data : GhostdagData) (s : UInt64)
    (w : BlueWorkType) : (data.finalizeScoreAndWork s w).mergesetBlues = data.mergesetBlues :=
  rfl

@[simp] theorem finalizeScoreAndWork_bluesAnticoneSizes (data : GhostdagData) (s : UInt64)
    (w : BlueWorkType) :
    (data.finalizeScoreAndWork s w).bluesAnticoneSizes = data.bluesAnticoneSizes :=
  rfl

@[simp] theorem newWithSelectedParent_selectedParent (selectedParent : Hash) :
    (newWithSelectedParent selectedParent).selectedParent = selectedParent := rfl

@[simp] theorem newWithSelectedParent_mergesetBlues (selectedParent : Hash) :
    (newWithSelectedParent selectedParent).mergesetBlues = [selectedParent] := rfl

@[simp] theorem newWithSelectedParent_mergesetReds (selectedParent : Hash) :
    (newWithSelectedParent selectedParent).mergesetReds = [] := rfl

/-- After the increments, a block of the candidate's blue anticone reads one more than its
entry, and every other block reads what it read before. -/
theorem lookup_insertIncremented {sizes sizes' : HashKTypeMap}
    {entries : List (Sigma fun _ : Hash => KType)} (hkeys : entries.NodupKeys)
    (h : insertIncremented sizes entries = .ok sizes') (block : Hash) :
    sizes'.lookup block =
      match entries.dlookup block with
      | some s => some (s + 1)
      | none => sizes.lookup block := by
  induction entries generalizing sizes with
  | nil =>
    cases h
    rfl
  | cons entry rest ih =>
    rw [List.nodupKeys_cons] at hkeys
    obtain ⟨size, hsize, h⟩ := Except.bind_eq_ok.mp h
    obtain ⟨-, rfl⟩ := Checked.add_eq_ok.mp hsize
    rw [ih hkeys.2 h]
    by_cases hb : block = entry.1
    · subst hb
      rw [List.dlookup_cons_eq, List.dlookup_eq_none.mpr hkeys.1, AList.lookup_insert]
    · rw [List.dlookup_cons_ne _ _ hb]
      cases rest.dlookup block with
      | some s => rfl
      | none => exact AList.lookup_insert_ne hb

/-- What the blue anticone sizes read after `add_blue`: one more for the blocks of the
candidate's blue anticone, the candidate's own size for it, and the old size otherwise. -/
theorem lookup_addBlue {data data' : GhostdagData} {block : Hash} {size : KType}
    {sizes : HashKTypeMap} (h : data.addBlue block size sizes = .ok data') (b : Hash) :
    data'.bluesAnticoneSizes.lookup b =
      match sizes.lookup b with
      | some s => some (s + 1)
      | none => if b = block then some size else data.bluesAnticoneSizes.lookup b := by
  obtain ⟨sizes', hsizes, h⟩ := Except.bind_eq_ok.mp h
  cases h
  rw [lookup_insertIncremented sizes.nodupKeys hsizes b]
  change (match sizes.lookup b with
    | some s => some (s + 1)
    | none => (data.bluesAnticoneSizes.insert block size).lookup b) = _
  cases sizes.lookup b with
  | some s => rfl
  | none =>
    by_cases hb : b = block
    · subst hb
      simp [AList.lookup_insert]
    · simp [AList.lookup_insert_ne hb, hb]

theorem addBlue_selectedParent {data data' : GhostdagData} {block : Hash} {size : KType}
    {sizes : HashKTypeMap} (h : data.addBlue block size sizes = .ok data') :
    data'.selectedParent = data.selectedParent := by
  obtain ⟨sizes', -, h⟩ := Except.bind_eq_ok.mp h
  cases h
  rfl

theorem addBlue_mergesetBlues {data data' : GhostdagData} {block : Hash} {size : KType}
    {sizes : HashKTypeMap} (h : data.addBlue block size sizes = .ok data') :
    data'.mergesetBlues = data.mergesetBlues ++ [block] := by
  obtain ⟨sizes', -, h⟩ := Except.bind_eq_ok.mp h
  cases h
  rfl

theorem addBlue_mergesetReds {data data' : GhostdagData} {block : Hash} {size : KType}
    {sizes : HashKTypeMap} (h : data.addBlue block size sizes = .ok data') :
    data'.mergesetReds = data.mergesetReds := by
  obtain ⟨sizes', -, h⟩ := Except.bind_eq_ok.mp h
  cases h
  rfl

end GhostdagData

end Vecno
