import Vecno.Consensus.Header
import Vecno.Lib.AListFold
import Vecno.Lib.Checked
import Vecno.Lib.IndexSet

/-!
# The parents of a new block at every level

`ParentsManager::calc_block_parents`. The stores, the reachability service and `indexmap`'s
`IndexSet` are parameters; a store miss aborts as the code's `unwrap` does.
-/

namespace Vecno

/-- `slice::swap`, aborting on an index out of bounds. -/
def swap {α : Type} (l : List α) (i j : Nat) : Except String (List α) :=
  match l[i]?, l[j]? with
  | some a, some b => .ok ((l.set i b).set j a)
  | _, _ => .error "index out of bounds"

/-- `ParentsManager`, with the stores and services it reads in one consensus state. -/
structure ParentsManager where
  maxBlockLevel : BlockLevel
  genesisHash : Hash
  /-- `headers_store.get_header_with_block_level`, `none` where the store has no header. -/
  headersStore : Hash → Option HeaderWithBlockLevel
  /-- `reachability_service.is_dag_ancestor_of`. -/
  isDagAncestorOf : Hash → Hash → Bool
  /-- `reachability_service.has_reachability_data`. -/
  hasReachabilityData : Hash → Bool
  /-- `relations_service.get_children`, in the iteration order of the children set. -/
  getChildren : Hash → Option (List Hash)
  /-- The `indexmap` crate's `IndexSet`, which the theorems take to be lawful where they need
  its order. -/
  indexSetOps : IndexSet.Ops Hash

/-- A level's candidates, each with its reference blocks. -/
abbrev Candidates := AList (fun _ : Hash => List Hash)

namespace ParentsManager

variable (mgr : ParentsManager)

/-- `parents_at_level`: no parents for genesis, the genesis above the header's highest level. -/
def parentsAtLevel (header : Header) (level : Nat) : List Hash :=
  if header.parentsByLevel.isEmpty then []
  else if h : level < header.parentsByLevel.length then header.parentsByLevel[level]
  else [mgr.genesisHash]

/-- The headers of the origin's children, loaded when first needed. -/
def originChildrenHeaders : Except String (List Header) := do
  let children ← Checked.expect Checked.unwrapFailed (mgr.getChildren origin)
  children.mapM fun child =>
    Checked.expect Checked.unwrapFailed ((mgr.headersStore child).map (·.header))

/-- The reference blocks of a grandparent: itself when it has reachability data, else the
origin's children that have it as a parent at the level. The second component is the cache of
the origin's children's headers. -/
def referenceBlocks (blockLevel : Nat) (parent : Hash) (cache : Option (List Header)) :
    Except String (List Hash × Option (List Header)) :=
  if mgr.hasReachabilityData parent then .ok ([parent], cache)
  else do
    let headers ← match cache with
      | some headers => pure headers
      | none => mgr.originChildrenHeaders
    pure ((headers.filter fun child => (mgr.parentsAtLevel child blockLevel).contains parent).map
      (·.hash), some headers)

/-- One turn of the scan over the grandparents: the first parent's own parents (those before
`marker`) join unchecked; a grandparent with reachability data evicts the candidates in its past
and joins if it evicted one or no candidate is in its future. -/
def processGrandparent (blockLevel marker : Nat) (acc : Candidates × Option (List Header))
    (entry : Hash × Nat) : Except String (Candidates × Option (List Header)) := do
  let (parent, i) := entry
  let hasReachabilityData := mgr.hasReachabilityData parent
  let (refs, cache) ← mgr.referenceBlocks blockLevel parent acc.2
  if i < marker then
    return (acc.1.insert parent refs, cache)
  if !hasReachabilityData then
    return (acc.1, cache)
  let retained := acc.1.retain fun _ candidateRefs =>
    !candidateRefs.any fun ref => mgr.isDagAncestorOf ref parent
  let isAnyCandidateAncestorOf := retained.entries.length < acc.1.entries.length
  if isAnyCandidateAncestorOf ||
      !retained.entries.any (fun s => s.2.any fun ref => mgr.isDagAncestorOf parent ref) then
    return (retained.insert parent refs, cache)
  return (retained, cache)

/-- The grandparents to scan at a level, with the number of them that are the first parent's
own parents. When no direct parent reaches the level, the first parent's parents come first. -/
def levelGrandparents (directParentHeaders : List HeaderWithBlockLevel) (blockLevel : Nat)
    (noCandidates : Bool) : Except String (IndexSet Hash × Nat) :=
  if noCandidates then do
    let first ← Checked.expect "index out of bounds" directParentHeaders.head?
    let firstParents := mgr.indexSetOps.collect (mgr.parentsAtLevel first.header blockLevel)
    pure (mgr.indexSetOps.extend firstParents
      (directParentHeaders.tail.flatMap fun h => mgr.parentsAtLevel h.header blockLevel),
      firstParents.length)
  else
    pure (mgr.indexSetOps.collect ((directParentHeaders.filter fun h => blockLevel > h.blockLevel.toNat)
      |>.flatMap fun h => mgr.parentsAtLevel h.header blockLevel), 0)

/-- The parents at one level, and the cache of the origin's children's headers afterwards. -/
def levelParents (directParentHeaders : List HeaderWithBlockLevel) (blockLevel : Nat)
    (cache : Option (List Header)) : Except String (List Hash × Option (List Header)) := do
  let candidates := (∅ : Candidates).insertAll
    ((directParentHeaders.filter fun h => blockLevel ≤ h.blockLevel.toNat).map
      fun h => (h.header.hash, [h.header.hash]))
  let (grandparents, firstParentMarker) ←
    mgr.levelGrandparents directParentHeaders blockLevel candidates.entries.isEmpty
  -- all the grandparents are the first parent's: they already form an antichain
  if candidates.entries.isEmpty && firstParentMarker == grandparents.length then
    return (grandparents.toList, cache)
  let (candidates, cache) ← grandparents.toList.zipIdx.foldlM
    (mgr.processGrandparent blockLevel firstParentMarker) (candidates, cache)
  return (candidates.keys, cache)

/-- The loop over the block levels, stopping before a level above zero whose only parent is the
genesis. -/
def calcLevels (directParentHeaders : List HeaderWithBlockLevel) :
    List Nat → Option (List Header) → Except String (List (List Hash))
  | [], _ => .ok []
  | blockLevel :: rest, cache => do
    let (parentsAtLevel, cache) ← mgr.levelParents directParentHeaders blockLevel cache
    if blockLevel > 0 && parentsAtLevel == [mgr.genesisHash] then
      return []
    let parents ← calcLevels directParentHeaders rest cache
    return parentsAtLevel :: parents

/-- `calc_block_parents`: the parents at every level of a block with these direct parents,
the first of them moved in front of one in the pruning point's future. -/
def calcBlockParents (currentPruningPoint : Hash) (directParents : List Hash) :
    Except String (List (List Hash)) := do
  let directParentHeaders ← directParents.mapM fun parent =>
    Checked.expect Checked.unwrapFailed (mgr.headersStore parent)
  let firstParentInFutureOfPruningPoint ← Checked.expect
    "at least one of the parents is expected to be in the future of the pruning point"
    (directParents.findIdx? fun parent => mgr.isDagAncestorOf currentPruningPoint parent)
  let directParentHeaders ← swap directParentHeaders 0 firstParentInFutureOfPruningPoint
  mgr.calcLevels directParentHeaders (List.range (mgr.maxBlockLevel.toNat + 1)) none

/-- Every level's parents are distinct: either the grandparents' insertion-ordered set or the
keys of the candidates map. -/
theorem nodup_levelParents {directParentHeaders : List HeaderWithBlockLevel} {blockLevel : Nat}
    {cache cache' : Option (List Header)} {parents : List Hash}
    (h : mgr.levelParents directParentHeaders blockLevel cache = .ok (parents, cache')) :
    parents.Nodup := by
  unfold levelParents at h
  obtain ⟨⟨grandparents, marker⟩, -, h⟩ := Except.bind_eq_ok.mp h
  dsimp only at h
  split at h
  · cases h
    exact grandparents.nodup
  · obtain ⟨⟨candidates, cache''⟩, -, h⟩ := Except.bind_eq_ok.mp h
    cases h
    exact candidates.keys_nodup

theorem nodup_calcLevels {directParentHeaders : List HeaderWithBlockLevel} {levels : List Nat}
    {cache : Option (List Header)} {parents : List (List Hash)}
    (h : mgr.calcLevels directParentHeaders levels cache = .ok parents) :
    ∀ level ∈ parents, level.Nodup := by
  induction levels generalizing cache parents with
  | nil =>
    cases h
    intro _ hmem
    cases hmem
  | cons blockLevel rest ih =>
    rw [calcLevels] at h
    obtain ⟨⟨parentsAtLevel, cache'⟩, hlevel, h⟩ := Except.bind_eq_ok.mp h
    dsimp only at h
    split at h
    · cases h
      intro _ hmem
      cases hmem
    · obtain ⟨more, hmore, h⟩ := Except.bind_eq_ok.mp h
      cases h
      intro level hmem
      rcases List.mem_cons.mp hmem with rfl | hmem
      · exact mgr.nodup_levelParents hlevel
      · exact ih hmore level hmem

theorem nodup_calcBlockParents {currentPruningPoint : Hash} {directParents : List Hash}
    {parents : List (List Hash)}
    (h : mgr.calcBlockParents currentPruningPoint directParents = .ok parents) :
    ∀ level ∈ parents, level.Nodup := by
  unfold calcBlockParents at h
  obtain ⟨_, -, h⟩ := Except.bind_eq_ok.mp h
  obtain ⟨_, -, h⟩ := Except.bind_eq_ok.mp h
  obtain ⟨_, -, h⟩ := Except.bind_eq_ok.mp h
  exact mgr.nodup_calcLevels h

end ParentsManager

end Vecno
