import Vecno.Utxo.Collection

/-!
# UTXO diffs and composed views

`UtxoDiff` with `with_diff_in_place` and `add_transaction`, and `ComposedUtxoView`, each also
described at a single outpoint (`withDiffAt`, `composeAt`).
-/

namespace Vecno

open UtxoCollection

inductive UtxoAlgebraError where
  | duplicateRemovePoint (outpoint : TransactionOutpoint)
  | duplicateAddPoint (outpoint : TransactionOutpoint)
  | doubleRemoveCall (outpoint : TransactionOutpoint)
  | doubleAddCall (outpoint : TransactionOutpoint)
  | diffIntersectionPoint (outpoint : TransactionOutpoint) (message : String)
  | general (message : String)
deriving DecidableEq

structure UtxoDiff where
  add : UtxoCollection
  remove : UtxoCollection

namespace UtxoDiff

/-- `with_diff_in_place`, returning its result and the state of `self` afterwards. The two
conflict checks run before anything is written; then `other.remove` is merged into `self`
(cancelling against `self.add` where the DAA scores agree), then `other.add` (cancelling against
the updated `self.remove`). -/
def withDiffInPlace (self other : UtxoDiff) : Except UtxoAlgebraError Unit × UtxoDiff :=
  match intersectsWithRule other.remove self.remove
      (fun outpoint entryToAdd _ => !containsWithDaaScore self.add outpoint entryToAdd.blockDaaScore) with
  | some outpoint => (.error (.duplicateRemovePoint outpoint), self)
  | none =>
    match intersectsWithRule other.add self.add
        (fun outpoint _ existingEntry =>
          !containsWithDaaScore other.remove outpoint existingEntry.blockDaaScore) with
    | some outpoint => (.error (.duplicateAddPoint outpoint), self)
    | none =>
      let pass1 := intersectionWithRemainderHavingDaaScoreInPlace other.remove self.add ∅ self.remove
      let add := removeCollection self.add pass1.1
      let pass2 := intersectionWithRemainderHavingDaaScoreInPlace other.add pass1.2 ∅ add
      (.ok (), ⟨pass2.2, removeCollection pass1.2 pass2.1⟩)

/-- `with_diff`: `with_diff_in_place` on a clone. -/
def withDiff (self other : UtxoDiff) : Except UtxoAlgebraError UtxoDiff :=
  match withDiffInPlace self other with
  | (.ok (), clone) => .ok clone
  | (.error e, _) => .error e

/-- `diff_from`: the diff that leads from what `self` makes of a base to what `other` makes of
it. Three conflict checks and a check on the outpoints both add with one DAA score run first;
the result removes what only `self` adds and what only `other` removes, and adds what only
`self` removes and what only `other` adds, where only the same DAA score counts as the same. -/
def diffFrom (self other : UtxoDiff) : Except UtxoAlgebraError UtxoDiff :=
  match intersectsWithRule self.remove other.add (fun outpoint thisEntry otherEntry =>
      !(otherEntry.blockDaaScore != thisEntry.blockDaaScore &&
        (containsWithDaaScore self.add outpoint otherEntry.blockDaaScore ||
          containsWithDaaScore other.remove outpoint thisEntry.blockDaaScore))) with
  | some outpoint =>
    .error (.diffIntersectionPoint outpoint "both in self.add and in other.remove")
  | none =>
    match intersectsWithRule self.add other.remove (fun outpoint thisEntry otherEntry =>
        !(otherEntry.blockDaaScore != thisEntry.blockDaaScore &&
          (containsWithDaaScore self.remove outpoint otherEntry.blockDaaScore ||
            containsWithDaaScore other.add outpoint thisEntry.blockDaaScore))) with
    | some outpoint =>
      .error (.diffIntersectionPoint outpoint "both in self.remove and in other.add")
    | none =>
      match intersectsWithRule self.remove other.remove (fun _ thisEntry otherEntry =>
          otherEntry.blockDaaScore != thisEntry.blockDaaScore) with
      | some outpoint =>
        .error (.diffIntersectionPoint outpoint ("both in self.remove and other.remove with " ++
          "different DAA scores, with no corresponding entry in self.add"))
      | none =>
        let pass := subtractionWithRemainderHavingDaaScoreInPlace self.add other.add ∅ ∅
        if intersects pass.2 self.remove != intersects pass.2 other.remove then
          .error (.general ("diff_from: outpoint both in self.add, other.add, and only one of " ++
            "self.remove and other.remove"))
        else
          let remove := subtractionHavingDaaScoreInPlace other.remove self.remove pass.1
          let add := subtractionHavingDaaScoreInPlace self.remove other.remove ∅
          .ok ⟨subtractionHavingDaaScoreInPlace other.add self.add add, remove⟩

/-- `remove_entry`: cancels an addition with the same DAA score, else records the removal, and
fails on a second removal. -/
def removeEntry (self : UtxoDiff) (outpoint : TransactionOutpoint) (entry : UtxoEntry) :
    Except UtxoAlgebraError UtxoDiff :=
  if containsWithDaaScore self.add outpoint entry.blockDaaScore then
    .ok { self with add := self.add.erase outpoint }
  else if outpoint ∉ self.remove then
    .ok { self with remove := self.remove.insert outpoint entry }
  else .error (.doubleRemoveCall outpoint)

/-- `add_entry`: cancels a removal with the same DAA score, else records the addition, and fails
on a second addition. -/
def addEntry (self : UtxoDiff) (outpoint : TransactionOutpoint) (entry : UtxoEntry) :
    Except UtxoAlgebraError UtxoDiff :=
  if containsWithDaaScore self.remove outpoint entry.blockDaaScore then
    .ok { self with remove := self.remove.erase outpoint }
  else if outpoint ∉ self.add then
    .ok { self with add := self.add.insert outpoint entry }
  else .error (.doubleAddCall outpoint)

/-- `add_transaction`: removes every entry the transaction spends, then adds its outputs with the
given DAA score, stopping at the first failure. -/
def addTransaction (self : UtxoDiff) (transaction : ValidatedTransaction)
    (blockDaaScore : UInt64) : Except UtxoAlgebraError UtxoDiff := do
  let self ← transaction.populatedInputs.foldlM
    (fun diff input => diff.removeEntry input.1.previousOutpoint input.2) self
  (transaction.tx.createdEntries blockDaaScore).foldlM
    (fun diff output => diff.addEntry output.1 output.2) self

end UtxoDiff

/-- A `UtxoView`: what `get` returns for each outpoint. -/
abbrev UtxoView := TransactionOutpoint → Option UtxoEntry

/-- `ComposedUtxoView::get`: the diff's added entry, else nothing if the diff removes the
outpoint, else the base view. -/
def compose (base : UtxoView) (diff : UtxoDiff) : UtxoView := fun outpoint =>
  match diff.add.lookup outpoint with
  | some entry => some entry
  | none => if outpoint ∈ diff.remove then none else base outpoint

/-! ## The operations at one outpoint -/

/-- `ComposedUtxoView::get` at one outpoint, from what the diff adds and removes there. -/
def composeAt (add remove base : Option UtxoEntry) : Option UtxoEntry :=
  match add with
  | some entry => some entry
  | none => if remove.isSome then none else base

/-- `with_diff_in_place` at one outpoint: from what `self` (`a1`, `r1`) and `other` (`a2`, `r2`)
add and remove there, what `self` adds and removes afterwards. -/
def withDiffAt (a1 r1 a2 r2 : Option UtxoEntry) : Option UtxoEntry × Option UtxoEntry :=
  let i1 := match r2 with
    | some e => if daaMatches a1 e.blockDaaScore then some e else none
    | none => none
  let r1' := match r2 with
    | some e => if daaMatches a1 e.blockDaaScore then r1 else some e
    | none => r1
  let a1' := if i1.isSome then none else a1
  let i2 := match a2 with
    | some e => if daaMatches r1' e.blockDaaScore then some e else none
    | none => none
  let a' := match a2 with
    | some e => if daaMatches r1' e.blockDaaScore then a1' else some e
    | none => a1'
  (a', if i2.isSome then none else r1')

/-- `diff_from` at one outpoint: what the result adds and removes there, from what `self` (`aa`,
`ar`) and `other` (`ba`, `br`) add and remove there. -/
def diffFromAt (aa ar ba br : Option UtxoEntry) : Option UtxoEntry × Option UtxoEntry :=
  (subtractionAt ba aa (subtractionAt ar br none), subtractionAt br ar (subtractionAt aa ba none))

/-- The three conflict checks of `diff_from` at one outpoint. -/
def DiffFromOkAt (aa ar ba br : Option UtxoEntry) : Prop :=
  (∀ t u, ar = some t → ba = some u → u.blockDaaScore ≠ t.blockDaaScore ∧
    (daaMatches aa u.blockDaaScore = true ∨ daaMatches br t.blockDaaScore = true)) ∧
  (∀ t u, aa = some t → br = some u → u.blockDaaScore ≠ t.blockDaaScore ∧
    (daaMatches ar u.blockDaaScore = true ∨ daaMatches ba t.blockDaaScore = true)) ∧
  ∀ t u, ar = some t → br = some u → u.blockDaaScore = t.blockDaaScore

/-- At one outpoint, an entry `self` adds and `other` adds with the same DAA score is removed by
both diffs or by neither. -/
def InBothAgreesAt (aa ar ba br : Option UtxoEntry) : Prop :=
  ∀ t, aa = some t → daaMatches ba t.blockDaaScore = true → (ar.isSome ↔ br.isSome)

/-- The conflict checks of `with_diff_in_place` at one outpoint. -/
def WithDiffOkAt (a1 r1 a2 r2 : Option UtxoEntry) : Prop :=
  (∀ v1 v2, r2 = some v1 → r1 = some v2 → daaMatches a1 v1.blockDaaScore = true) ∧
    ∀ v1 v2, a2 = some v1 → a1 = some v2 → daaMatches r2 v2.blockDaaScore = true

theorem compose_apply (base : UtxoView) (diff : UtxoDiff) (outpoint : TransactionOutpoint) :
    compose base diff outpoint =
      composeAt (diff.add.lookup outpoint) (diff.remove.lookup outpoint) (base outpoint) := by
  unfold compose composeAt
  cases diff.add.lookup outpoint with
  | some entry => rfl
  | none => simp only [← AList.lookup_isSome]

namespace UtxoDiff

theorem withDiffInPlace_of_withDiff {self other d : UtxoDiff} (h : withDiff self other = .ok d) :
    withDiffInPlace self other = (.ok (), d) := by
  unfold withDiff at h
  split at h
  · rename_i clone hclone
    cases h
    exact hclone
  · cases h

theorem withDiffInPlace_error {self other : UtxoDiff} {e : UtxoAlgebraError}
    (h : (withDiffInPlace self other).1 = .error e) : (withDiffInPlace self other).2 = self := by
  unfold withDiffInPlace at h ⊢
  split
  · rfl
  · split
    · rfl
    · simp_all

theorem removeCheck_eq_none {self other : UtxoDiff} :
    intersectsWithRule other.remove self.remove
        (fun outpoint entryToAdd _ =>
          !containsWithDaaScore self.add outpoint entryToAdd.blockDaaScore) = none ↔
      ∀ outpoint v1 v2, other.remove.lookup outpoint = some v1 →
        self.remove.lookup outpoint = some v2 →
          daaMatches (self.add.lookup outpoint) v1.blockDaaScore = true := by
  rw [intersectsWithRule_eq_none]
  simp only [containsWithDaaScore, Bool.not_eq_false']

theorem addCheck_eq_none {self other : UtxoDiff} :
    intersectsWithRule other.add self.add
        (fun outpoint _ existingEntry =>
          !containsWithDaaScore other.remove outpoint existingEntry.blockDaaScore) = none ↔
      ∀ outpoint v1 v2, other.add.lookup outpoint = some v1 →
        self.add.lookup outpoint = some v2 →
          daaMatches (other.remove.lookup outpoint) v2.blockDaaScore = true := by
  rw [intersectsWithRule_eq_none]
  simp only [containsWithDaaScore, Bool.not_eq_false']

/-- `with_diff_in_place` succeeds exactly when neither conflict check finds an outpoint: one
removed by both diffs that `self` does not add back with `other`'s DAA score, or one added by both
that `other` does not remove with `self`'s DAA score. -/
theorem withDiffInPlace_ok_iff {self other : UtxoDiff} :
    (withDiffInPlace self other).1 = .ok () ↔
      (∀ outpoint v1 v2, other.remove.lookup outpoint = some v1 →
        self.remove.lookup outpoint = some v2 →
          daaMatches (self.add.lookup outpoint) v1.blockDaaScore = true) ∧
      (∀ outpoint v1 v2, other.add.lookup outpoint = some v1 →
        self.add.lookup outpoint = some v2 →
          daaMatches (other.remove.lookup outpoint) v2.blockDaaScore = true) := by
  unfold withDiffInPlace
  split
  · rename_i o h1
    simp only [reduceCtorEq, false_iff, not_and]
    intro h
    rw [removeCheck_eq_none.mpr h] at h1
    cases h1
  · rename_i h1
    split
    · rename_i o h2
      simp only [reduceCtorEq, false_iff, not_and]
      intro _ h
      rw [addCheck_eq_none.mpr h] at h2
      cases h2
    · rename_i h2
      simp only [true_iff]
      exact ⟨removeCheck_eq_none.mp h1, addCheck_eq_none.mp h2⟩

/-- After a successful `with_diff_in_place`, every outpoint reads what `withDiffAt` computes from
what the two diffs hold there. -/
theorem lookup_withDiffInPlace {self other d : UtxoDiff}
    (h : withDiffInPlace self other = (.ok (), d)) (outpoint : TransactionOutpoint) :
    (d.add.lookup outpoint, d.remove.lookup outpoint) =
      withDiffAt (self.add.lookup outpoint) (self.remove.lookup outpoint)
        (other.add.lookup outpoint) (other.remove.lookup outpoint) := by
  unfold withDiffInPlace at h
  split at h
  · simp at h
  · split at h
    · simp at h
    · simp only [Prod.mk.injEq, true_and] at h
      subst h
      obtain ⟨h1a, h1r⟩ := lookup_intersectionWithRemainder other.remove self.add ∅ self.remove outpoint
      obtain ⟨h2a, h2r⟩ := lookup_intersectionWithRemainder other.add
        (intersectionWithRemainderHavingDaaScoreInPlace other.remove self.add ∅ self.remove).2 ∅
        (removeCollection self.add
          (intersectionWithRemainderHavingDaaScoreInPlace other.remove self.add ∅ self.remove).1)
        outpoint
      simp only [h2r, h2a, lookup_removeCollection, ← AList.lookup_isSome, h1a, h1r,
        AList.partitionFst, AList.partitionSnd, containsWithDaaScore]
      cases other.remove.lookup outpoint <;> cases other.add.lookup outpoint <;>
        simp only [withDiffAt] <;> split_ifs <;> simp_all

theorem withDiff_of_ok {self other : UtxoDiff} (h : (withDiffInPlace self other).1 = .ok ()) :
    withDiff self other = .ok (withDiffInPlace self other).2 := by
  unfold withDiff
  rcases hw : withDiffInPlace self other with ⟨_ | _, clone⟩
  · rw [hw] at h
    cases h
  · rfl

theorem withDiffInPlace_eq_of_ok {self other : UtxoDiff}
    (h : (withDiffInPlace self other).1 = .ok ()) :
    withDiffInPlace self other = (.ok (), (withDiffInPlace self other).2) :=
  Prod.ext h rfl

/-- The first two rules of `diff_from` reject an outpoint unless the DAA scores differ and one of
the two collections consulted holds the entry. -/
theorem rule_eq_false_iff {x y : UInt64} {p q : Bool} :
    (!(y != x && (p || q))) = false ↔ y ≠ x ∧ (p = true ∨ q = true) := by
  cases p <;> cases q <;> simp

/-- The three conflict checks of `diff_from` find nothing exactly when they pass at every
outpoint. -/
theorem diffFrom_checks_iff {self other : UtxoDiff} :
    (intersectsWithRule self.remove other.add (fun outpoint thisEntry otherEntry =>
        !(otherEntry.blockDaaScore != thisEntry.blockDaaScore &&
          (containsWithDaaScore self.add outpoint otherEntry.blockDaaScore ||
            containsWithDaaScore other.remove outpoint thisEntry.blockDaaScore))) = none ∧
      intersectsWithRule self.add other.remove (fun outpoint thisEntry otherEntry =>
        !(otherEntry.blockDaaScore != thisEntry.blockDaaScore &&
          (containsWithDaaScore self.remove outpoint otherEntry.blockDaaScore ||
            containsWithDaaScore other.add outpoint thisEntry.blockDaaScore))) = none ∧
      intersectsWithRule self.remove other.remove (fun _ thisEntry otherEntry =>
        otherEntry.blockDaaScore != thisEntry.blockDaaScore) = none) ↔
    ∀ outpoint, DiffFromOkAt (self.add.lookup outpoint) (self.remove.lookup outpoint)
      (other.add.lookup outpoint) (other.remove.lookup outpoint) := by
  rw [intersectsWithRule_eq_none, intersectsWithRule_eq_none, intersectsWithRule_eq_none]
  constructor
  · rintro ⟨h1, h2, h3⟩ outpoint
    refine ⟨fun t u ht hu => rule_eq_false_iff.mp (h1 outpoint t u ht hu),
      fun t u ht hu => rule_eq_false_iff.mp (h2 outpoint t u ht hu), fun t u ht hu => ?_⟩
    simpa using h3 outpoint t u ht hu
  · intro h
    refine ⟨fun outpoint t u ht hu => rule_eq_false_iff.mpr ((h outpoint).1 t u ht hu),
      fun outpoint t u ht hu => rule_eq_false_iff.mpr ((h outpoint).2.1 t u ht hu),
      fun outpoint t u ht hu => ?_⟩
    simpa using (h outpoint).2.2 t u ht hu

/-- What a successful `diff_from` returns: the checks passed at every outpoint, and every
outpoint reads what `diffFromAt` computes. -/
theorem diffFrom_eq_ok {self other d : UtxoDiff} (h : diffFrom self other = .ok d) :
    (∀ outpoint, DiffFromOkAt (self.add.lookup outpoint) (self.remove.lookup outpoint)
      (other.add.lookup outpoint) (other.remove.lookup outpoint)) ∧
    ∀ outpoint,
      d.add.lookup outpoint = (diffFromAt (self.add.lookup outpoint) (self.remove.lookup outpoint)
        (other.add.lookup outpoint) (other.remove.lookup outpoint)).1 ∧
      d.remove.lookup outpoint = (diffFromAt (self.add.lookup outpoint)
        (self.remove.lookup outpoint) (other.add.lookup outpoint)
        (other.remove.lookup outpoint)).2 := by
  unfold diffFrom at h
  split at h
  · cases h
  rename_i h1
  split at h
  · cases h
  rename_i h2
  split at h
  · cases h
  rename_i h3
  dsimp only at h
  split at h
  · cases h
  cases h
  refine ⟨diffFrom_checks_iff.mp ⟨h1, h2, h3⟩, fun outpoint => ⟨?_, ?_⟩⟩
  · rw [lookup_subtraction, lookup_subtraction]
    rfl
  · rw [lookup_subtraction, (lookup_subtractionWithRemainder _ _ _ _ outpoint).1]
    rfl

/-- `diff_from` succeeds when its checks pass at every outpoint and the outpoints both diffs
add with one DAA score agree on removal. -/
theorem diffFrom_ok_of {self other : UtxoDiff}
    (hok : ∀ outpoint, DiffFromOkAt (self.add.lookup outpoint) (self.remove.lookup outpoint)
      (other.add.lookup outpoint) (other.remove.lookup outpoint))
    (hboth : ∀ outpoint, InBothAgreesAt (self.add.lookup outpoint) (self.remove.lookup outpoint)
      (other.add.lookup outpoint) (other.remove.lookup outpoint)) :
    ∃ d, diffFrom self other = .ok d := by
  obtain ⟨h1, h2, h3⟩ := diffFrom_checks_iff.mpr hok
  have hboth' : ∀ outpoint,
      outpoint ∈ (subtractionWithRemainderHavingDaaScoreInPlace self.add other.add ∅ ∅).2 →
        (outpoint ∈ self.remove ↔ outpoint ∈ other.remove) := by
    intro outpoint hmem
    obtain ⟨t, ht, hmatch⟩ := (mem_subtractionWithRemainder_snd _ _ _ outpoint).mp hmem
    rw [← AList.lookup_isSome, ← AList.lookup_isSome]
    exact hboth outpoint t ht hmatch
  have hint : intersects (subtractionWithRemainderHavingDaaScoreInPlace self.add other.add ∅ ∅).2
        self.remove =
      intersects (subtractionWithRemainderHavingDaaScoreInPlace self.add other.add ∅ ∅).2
        other.remove := by
    apply Bool.eq_iff_iff.mpr
    rw [intersects_eq_true_iff, intersects_eq_true_iff]
    exact ⟨fun ⟨o, hm, hr⟩ => ⟨o, hm, (hboth' o hm).mp hr⟩,
      fun ⟨o, hm, hr⟩ => ⟨o, hm, (hboth' o hm).mpr hr⟩⟩
  unfold diffFrom
  rw [h1, h2, h3]
  simp only [hint, bne_self_eq_false, Bool.false_eq_true, if_false]
  exact ⟨_, rfl⟩

end UtxoDiff

end Vecno
