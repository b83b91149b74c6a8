import Mathlib.Data.List.Forall2
import Mathlib.Data.List.Perm.Subperm
import Vecno.Consensus.Errors
import Vecno.Consensus.ParentsBuilder

/-!
# Validating a header's indirect parents

`check_indirect_parents` compares counts and memberships, so it accepts a level repeating one
expected parent for another; on levels without repeats it compares them up to order.
-/

namespace Vecno

/-- The comparison of `check_indirect_parents`: as many levels as expected, and at each level as
many parents as expected, each of them in the expected set. The header's levels are indexed by
the expected levels' positions, which the length check keeps in bounds. -/
def levelsMatch (expected found : List (List Hash)) : Bool :=
  found.length == expected.length &&
    (expected.zip found).all fun (expectedLevel, headerLevel) =>
      headerLevel.length == expectedLevel.length &&
        headerLevel.all fun headerParent => expectedLevel.contains headerParent

/-- `check_indirect_parents`, the outer `Except` for an abort of `calc_block_parents`. -/
def checkIndirectParents (mgr : ParentsManager) (pruningPoint : Hash) (header : Header) :
    Except String (Except RuleError Unit) := do
  let expectedBlockParents ← mgr.calcBlockParents pruningPoint header.directParents
  if !levelsMatch expectedBlockParents header.parentsByLevel then
    return .error (.unexpectedIndirectParents expectedBlockParents header.parentsByLevel)
  return .ok ()

/-- What the check asks of one level: the expected number of parents, all of them expected. -/
def LevelCovered (found expected : List Hash) : Prop :=
  found.length = expected.length ∧ ∀ p ∈ found, p ∈ expected

theorem levelsMatch_cons (expected found : List Hash) (es fs : List (List Hash)) :
    levelsMatch (expected :: es) (found :: fs) =
      ((found.length == expected.length && found.all fun p => expected.contains p) &&
        levelsMatch es fs) := by
  rw [Bool.eq_iff_iff]
  simp only [levelsMatch, List.length_cons, List.zip_cons_cons, List.all_cons, Bool.and_eq_true,
    beq_iff_eq, Nat.add_right_cancel_iff]
  tauto

theorem levelsMatch_iff {expected found : List (List Hash)} :
    levelsMatch expected found = true ↔ List.Forall₂ LevelCovered found expected := by
  induction found generalizing expected with
  | nil => cases expected <;> simp [levelsMatch]
  | cons f fs ih =>
    cases expected with
    | nil => simp [levelsMatch]
    | cons e es =>
      rw [levelsMatch_cons, List.forall₂_cons, ← ih]
      simp [LevelCovered]

/-- Against a level without repeats, a level is a reordering exactly when it has no repeats and
the check accepts it. -/
theorem perm_iff_levelCovered {found expected : List Hash} (he : expected.Nodup) :
    found.Perm expected ↔ found.Nodup ∧ LevelCovered found expected := by
  constructor
  · intro hp
    exact ⟨hp.nodup_iff.mpr he, hp.length_eq, fun p hmem => hp.subset hmem⟩
  · rintro ⟨hf, hlen, hsub⟩
    exact (hf.subperm hsub).perm_of_length_le hlen.ge

theorem forall₂_perm_iff {found expected : List (List Hash)} (he : ∀ e ∈ expected, e.Nodup) :
    List.Forall₂ List.Perm found expected ↔
      List.Forall₂ LevelCovered found expected ∧ ∀ f ∈ found, f.Nodup := by
  induction found generalizing expected with
  | nil => cases expected <;> simp
  | cons f fs ih =>
    cases expected with
    | nil => simp
    | cons e es =>
      have hes : ∀ e' ∈ es, e'.Nodup := fun e' h => he e' (List.mem_cons_of_mem e h)
      rw [List.forall₂_cons, List.forall₂_cons, ih hes,
        perm_iff_levelCovered (he e List.mem_cons_self), List.forall_mem_cons]
      tauto

theorem checkIndirectParents_eq_ok {mgr : ParentsManager} {pruningPoint : Hash} {header : Header} :
    checkIndirectParents mgr pruningPoint header = .ok (.ok ()) ↔
      ∃ expected, mgr.calcBlockParents pruningPoint header.directParents = .ok expected ∧
        levelsMatch expected header.parentsByLevel = true := by
  unfold checkIndirectParents
  rw [Except.bind_eq_ok]
  refine exists_congr fun expected => and_congr_right fun _ => ?_
  cases levelsMatch expected header.parentsByLevel <;> simp [pure, Except.pure]

/-- `check_indirect_parents` accepts a header exactly when `calc_block_parents` returns as many
levels as the header has and each header level has the expected number of parents, all of them
expected; and it accepts a header whose levels repeat no parent exactly when every level is the
expected one up to order. -/
theorem checkIndirectParents_ok_iff (mgr : ParentsManager) (pruningPoint : Hash)
    (header : Header) :
    (checkIndirectParents mgr pruningPoint header = .ok (.ok ()) ↔
      ∃ expected, mgr.calcBlockParents pruningPoint header.directParents = .ok expected ∧
        List.Forall₂ LevelCovered header.parentsByLevel expected) ∧
    ((checkIndirectParents mgr pruningPoint header = .ok (.ok ()) ∧
        ∀ level ∈ header.parentsByLevel, level.Nodup) ↔
      ∃ expected, mgr.calcBlockParents pruningPoint header.directParents = .ok expected ∧
        List.Forall₂ List.Perm header.parentsByLevel expected) := by
  have hcovered : checkIndirectParents mgr pruningPoint header = .ok (.ok ()) ↔
      ∃ expected, mgr.calcBlockParents pruningPoint header.directParents = .ok expected ∧
        List.Forall₂ LevelCovered header.parentsByLevel expected := by
    rw [checkIndirectParents_eq_ok]
    exact exists_congr fun _ => and_congr_right fun _ => levelsMatch_iff
  refine ⟨hcovered, ?_⟩
  rw [hcovered]
  constructor
  · rintro ⟨⟨expected, hcalc, hcov⟩, hnodup⟩
    exact ⟨expected, hcalc,
      (forall₂_perm_iff (mgr.nodup_calcBlockParents hcalc)).mpr ⟨hcov, hnodup⟩⟩
  · rintro ⟨expected, hcalc, hperm⟩
    obtain ⟨hcov, hnodup⟩ := (forall₂_perm_iff (mgr.nodup_calcBlockParents hcalc)).mp hperm
    exact ⟨⟨expected, hcalc, hcov⟩, hnodup⟩

/-- Two direct parents `a = 1` and `b = 2` at block level one, every block an ancestor of every
other, and `indexmap`'s operations as given. -/
def repeatedParentManager (indexSetOps : IndexSet.Ops Hash) : ParentsManager where
  maxBlockLevel := 1
  genesisHash := Hash.fromU64Word 0
  headersStore hash :=
    if hash = Hash.fromU64Word 1 then some ⟨⟨Hash.fromU64Word 1, [[Hash.fromU64Word 0]]⟩, 1⟩
    else if hash = Hash.fromU64Word 2 then some ⟨⟨Hash.fromU64Word 2, [[Hash.fromU64Word 0]]⟩, 1⟩
    else none
  isDagAncestorOf _ _ := true
  hasReachabilityData _ := true
  getChildren _ := some []
  indexSetOps := indexSetOps

/-- A header with direct parents `a` and `b`, and `a` twice at level one. -/
def repeatedParentHeader : Header :=
  ⟨Hash.fromU64Word 3, [[Hash.fromU64Word 1, Hash.fromU64Word 2],
    [Hash.fromU64Word 1, Hash.fromU64Word 1]]⟩

/-- The check is not a comparison up to order: with any lawful `IndexSet`, the expected parents
are `b, a` at levels zero and one, and the header listing `[a, a]` at level one passes. -/
theorem checkIndirectParents_accepts_repeated_parent (indexSetOps : IndexSet.Ops Hash)
    (hlawful : indexSetOps.Lawful) :
    (repeatedParentManager indexSetOps).calcBlockParents (Hash.fromU64Word 0)
        repeatedParentHeader.directParents =
      .ok [[Hash.fromU64Word 2, Hash.fromU64Word 1], [Hash.fromU64Word 2, Hash.fromU64Word 1]] ∧
    checkIndirectParents (repeatedParentManager indexSetOps) (Hash.fromU64Word 0)
      repeatedParentHeader = .ok (.ok ()) ∧
    ¬ List.Forall₂ List.Perm repeatedParentHeader.parentsByLevel
      [[Hash.fromU64Word 2, Hash.fromU64Word 1], [Hash.fromU64Word 2, Hash.fromU64Word 1]] := by
  rw [hlawful.eq_insertionOrdered]
  exact ⟨by decide, by decide, by decide⟩

theorem checkIndirectParents_accepts_repeated_parent_insertionOrdered :
    (IndexSet.Ops.insertionOrdered : IndexSet.Ops Hash).Lawful ∧
    (repeatedParentManager IndexSet.Ops.insertionOrdered).calcBlockParents (Hash.fromU64Word 0)
        repeatedParentHeader.directParents =
      .ok [[Hash.fromU64Word 2, Hash.fromU64Word 1], [Hash.fromU64Word 2, Hash.fromU64Word 1]] ∧
    checkIndirectParents (repeatedParentManager IndexSet.Ops.insertionOrdered) (Hash.fromU64Word 0)
      repeatedParentHeader = .ok (.ok ()) ∧
    ¬ List.Forall₂ List.Perm repeatedParentHeader.parentsByLevel
      [[Hash.fromU64Word 2, Hash.fromU64Word 1], [Hash.fromU64Word 2, Hash.fromU64Word 1]] :=
  ⟨IndexSet.Ops.lawful_insertionOrdered,
    checkIndirectParents_accepts_repeated_parent _ IndexSet.Ops.lawful_insertionOrdered⟩

end Vecno
