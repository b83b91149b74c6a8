import Mathlib.Data.List.Sort
import Vecno.Consensus.Difficulty
import Vecno.Consensus.Ghostdag.Data
import Vecno.Lib.IndexSet
import Vecno.Lib.LittleEndian

/-!
# The GHOSTDAG protocol

`GhostdagManager::ghostdag` with the search of `mergeset.rs` and the order of `ordering.rs`. The
stores and the reachability service are parameters; the unbounded loops take `fuel`.
-/

namespace Vecno

/-- What a bounded loop reports when its bound runs out. -/
def outOfFuel : String := "out of fuel"

/-- The number a hash's bytes spell in big-endian order: `Hash`'s derived order compares the
bytes lexicographically, which on 32 bytes is the order of these numbers. -/
def Hash.toNat (hash : Hash) : Nat :=
  LittleEndian.fromLeBytes hash.bytes.reverse

structure SortableBlock where
  hash : Hash
  blueWork : BlueWorkType

/-- `SortableBlock`'s order, blue work and then hash, as one number (a hash is below 2 ^ 256). -/
def SortableBlock.key (block : SortableBlock) : Nat :=
  block.blueWork * 2 ^ 256 + block.hash.toNat

inductive ColoringOutput where
  | blue (blueAnticoneSize : KType) (bluesAnticoneSizes : HashKTypeMap)
  | red

inductive ColoringState where
  | blue
  | red
  | pending

/-- The state of the mergeset search: the queue and the two sets it fills. -/
structure MergesetSearch where
  queue : List Hash
  mergeset : IndexSet Hash
  past : IndexSet Hash

/-- The parts of `GhostdagManager` that `ghostdag` reads. -/
structure GhostdagManager where
  genesisHash : Hash
  k : KType
  ghostdagStore : Hash → Option GhostdagData
  /-- `relations_store.get_parents`. -/
  relationsStore : Hash → Option (List Hash)
  /-- `headers_store.get_bits`. -/
  headersStore : Hash → Option UInt32
  /-- `reachability_service.is_dag_ancestor_of`. -/
  isDagAncestorOf : Hash → Hash → Bool
  levelWork : BlueWorkType

namespace GhostdagManager

variable (mgr : GhostdagManager)

def genesisGhostdagData : GhostdagData :=
  ⟨0, 0, origin, [], [], ∅⟩

/-- `ghostdag_store.get_data(hash).unwrap()`. -/
def getData (hash : Hash) : Except String GhostdagData :=
  Checked.expect Checked.unwrapFailed (mgr.ghostdagStore hash)

/-- A block with its blue work, for ordering. -/
def sortable (hash : Hash) : Except String SortableBlock := do
  let data ← mgr.getData hash
  pure ⟨hash, data.blueWork⟩

/-- `find_selected_parent`: the maximum; of two equal blocks `Iterator::max` keeps the later. -/
def findSelectedParent (parents : List Hash) : Except String Hash := do
  let blocks ← parents.mapM mgr.sortable
  match blocks with
  | [] => throw "called `Option::unwrap()` on a `None` value"
  | first :: rest =>
    pure (rest.foldl (fun best block => if best.key ≤ block.key then block else best) first).hash

/-- One parent of the block the search dequeued. -/
def mergesetStep (selectedParent : Hash) (search : MergesetSearch) (parent : Hash) :
    MergesetSearch :=
  if parent ∈ search.mergeset.toList ∨ parent ∈ search.past.toList then search
  else if mgr.isDagAncestorOf parent selectedParent then
    ⟨search.queue, search.mergeset, search.past.insert parent⟩
  else ⟨search.queue ++ [parent], search.mergeset.insert parent, search.past⟩

/-- The loop of `unordered_mergeset_without_selected_parent`. -/
def mergesetLoop (selectedParent : Hash) : Nat → MergesetSearch → Except String (IndexSet Hash)
  | 0, _ => .error outOfFuel
  | fuel + 1, search =>
    match search.queue with
    | [] => .ok search.mergeset
    | current :: rest => do
      let currentParents ← Checked.expect Checked.unwrapFailed (mgr.relationsStore current)
      mergesetLoop selectedParent fuel
        (currentParents.foldl (mgr.mergesetStep selectedParent) ⟨rest, search.mergeset, search.past⟩)

/-- `unordered_mergeset_without_selected_parent`: a breadth-first search from the parents other
than the selected parent, stopping at the blocks in the selected parent's past. -/
def unorderedMergesetWithoutSelectedParent (fuel : Nat) (selectedParent : Hash)
    (parents : List Hash) : Except String (IndexSet Hash) :=
  let queue := parents.filter (· ≠ selectedParent)
  mgr.mergesetLoop selectedParent fuel ⟨queue, IndexSet.ofList queue, ∅⟩

/-- `sort_blocks`: `sort_by_cached_key`, a stable sort, by `SortableBlock`. -/
def sortBlocks (blocks : List Hash) : Except String (List Hash) := do
  let keyed ← blocks.mapM mgr.sortable
  pure ((keyed.insertionSort fun a b => a.key ≤ b.key).map (·.hash))

def orderedMergesetWithoutSelectedParent (fuel : Nat) (selectedParent : Hash)
    (parents : List Hash) : Except String (List Hash) := do
  let mergeset ← mgr.unorderedMergesetWithoutSelectedParent fuel selectedParent parents
  mgr.sortBlocks mergeset.toList

/-- The loop of `blue_anticone_size`, from a map of sizes and the selected parent of the block
that holds it. -/
def blueAnticoneSizeLoop (block : Hash) : Nat → HashKTypeMap → Hash → Except String KType
  | 0, _, _ => .error outOfFuel
  | fuel + 1, sizes, selectedParent =>
    match sizes.lookup block with
    | some size => .ok size
    | none =>
      if selectedParent = mgr.genesisHash ∨ selectedParent = origin then
        .error "block is not in blue set of the given context"
      else do
        let data ← mgr.getData selectedParent
        blueAnticoneSizeLoop block fuel data.bluesAnticoneSizes data.selectedParent

/-- `blue_anticone_size`: the size the nearest block of the selected chain recorded. -/
def blueAnticoneSize (fuel : Nat) (block : Hash) (context : GhostdagData) :
    Except String KType :=
  mgr.blueAnticoneSizeLoop block fuel context.bluesAnticoneSizes context.selectedParent

/-- The loop over a chain block's mergeset blues in `check_blue_candidate_with_chain_block`. -/
def chainBlockBluesLoop (fuel : Nat) (newBlockData : GhostdagData) (blueCandidate : Hash) :
    List Hash → HashKTypeMap → KType → Except String (ColoringState × HashKTypeMap × KType)
  | [], sizes, size => .ok (.pending, sizes, size)
  | block :: rest, sizes, size =>
    if mgr.isDagAncestorOf block blueCandidate then
      chainBlockBluesLoop fuel newBlockData blueCandidate rest sizes size
    else do
      let blockSize ← mgr.blueAnticoneSize fuel block newBlockData
      let sizes := sizes.insert block blockSize
      let size ← Checked.add 16 size 1
      if size > mgr.k then pure (.red, sizes, size)
      else if blockSize = mgr.k then pure (.red, sizes, size)
      else if blockSize ≤ mgr.k then
        chainBlockBluesLoop fuel newBlockData blueCandidate rest sizes size
      else throw "found blue anticone larger than K"

/-- `check_blue_candidate_with_chain_block`; the chain block without a hash is the new block. -/
def checkBlueCandidateWithChainBlock (fuel : Nat) (newBlockData : GhostdagData)
    (chainHash : Option Hash) (chainData : GhostdagData) (blueCandidate : Hash)
    (sizes : HashKTypeMap) (size : KType) :
    Except String (ColoringState × HashKTypeMap × KType) :=
  match chainHash with
  | some hash =>
    if mgr.isDagAncestorOf hash blueCandidate then .ok (.blue, sizes, size)
    else mgr.chainBlockBluesLoop fuel newBlockData blueCandidate chainData.mergesetBlues sizes size
  | none => mgr.chainBlockBluesLoop fuel newBlockData blueCandidate chainData.mergesetBlues sizes size

/-- The loop of `check_blue_candidate` down the selected chain. -/
def checkBlueCandidateLoop (fuel : Nat) (newBlockData : GhostdagData) (blueCandidate : Hash) :
    Nat → Option Hash → GhostdagData → HashKTypeMap → KType → Except String ColoringOutput
  | 0, _, _, _, _ => .error outOfFuel
  | steps + 1, chainHash, chainData, sizes, size => do
    let result ← mgr.checkBlueCandidateWithChainBlock fuel newBlockData chainHash chainData
      blueCandidate sizes size
    match result with
    | (.blue, sizes, size) => pure (.blue size sizes)
    | (.red, _, _) => pure .red
    | (.pending, sizes, size) => do
      let data ← mgr.getData chainData.selectedParent
      checkBlueCandidateLoop fuel newBlockData blueCandidate steps (some chainData.selectedParent)
        data sizes size

def checkBlueCandidate (fuel : Nat) (newBlockData : GhostdagData) (blueCandidate : Hash) :
    Except String ColoringOutput := do
  let kPlusOne ← Checked.add 16 mgr.k 1
  if newBlockData.mergesetBlues.length % 2 ^ 16 = kPlusOne then pure .red
  else mgr.checkBlueCandidateLoop fuel newBlockData blueCandidate fuel none newBlockData ∅ 0

/-- One turn of the coloring loop of `ghostdag`. -/
def colorCandidate (fuel : Nat) (newBlockData : GhostdagData) (blueCandidate : Hash) :
    Except String GhostdagData := do
  let coloring ← mgr.checkBlueCandidate fuel newBlockData blueCandidate
  match coloring with
  | .blue size sizes => newBlockData.addBlue blueCandidate size sizes
  | .red => pure (newBlockData.addRed blueCandidate)

/-- The coloring of the mergeset, in consensus order. -/
def colorMergeset (fuel : Nat) (selectedParent : Hash) (parents : List Hash) :
    Except String GhostdagData := do
  -- `new_with_selected_parent(selected_parent, self.k)` reserves `k + 1` blues: a checked `u16` sum
  let _ ← Checked.add 16 mgr.k 1
  let orderedMergeset ← mgr.orderedMergesetWithoutSelectedParent fuel selectedParent parents
  orderedMergeset.foldlM (mgr.colorCandidate fuel)
    (GhostdagData.newWithSelectedParent selectedParent)

/-- The work the mergeset blues add: each block's `calc_work`, at least `level_work`, summed as
`Uint192` values. -/
def addedBlueWork (blues : List Hash) : Except String BlueWorkType :=
  blues.foldlM (fun total hash => do
    let bits ← Checked.expect Checked.unwrapFailed (mgr.headersStore hash)
    let work ← calcWork bits
    pure ((total + max work mgr.levelWork) % 2 ^ 192)) 0

/-- The blue score and blue work of the new block. -/
def finalizeData (selectedParent : Hash) (newBlockData : GhostdagData) :
    Except String GhostdagData := do
  let selectedParentData ← mgr.getData selectedParent
  let blueScore ← Checked.add 64 selectedParentData.blueScore.toNat
    newBlockData.mergesetBlues.length
  let addedWork ← mgr.addedBlueWork newBlockData.mergesetBlues
  pure (newBlockData.finalizeScoreAndWork (UInt64.ofNat blueScore)
    ((selectedParentData.blueWork + addedWork) % 2 ^ 192))

def ghostdag (fuel : Nat) (parents : List Hash) : Except String GhostdagData :=
  if parents.isEmpty then .error "genesis must be added via a call to init"
  else do
    let selectedParent ← mgr.findSelectedParent parents
    let newBlockData ← mgr.colorMergeset fuel selectedParent parents
    -- the children of the origin keep a zero blue score and blue work
    if selectedParent = origin then pure newBlockData
    else mgr.finalizeData selectedParent newBlockData

end GhostdagManager

end Vecno
