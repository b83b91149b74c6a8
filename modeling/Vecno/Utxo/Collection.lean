import Vecno.Consensus.Tx
import Vecno.Lib.AListFold

/-!
# UTXO collections

`UtxoCollection` as an association list with distinct keys; the "having DAA score" operations
match an outpoint together with its DAA score.
-/

namespace Vecno

abbrev UtxoCollection := AList (fun _ : TransactionOutpoint => UtxoEntry)

namespace UtxoCollection

/-- Whether an optional entry is there with the given DAA score. -/
def daaMatches : Option UtxoEntry → UInt64 → Bool
  | some entry, daaScore => entry.blockDaaScore == daaScore
  | none, _ => false

def containsWithDaaScore (c : UtxoCollection) (outpoint : TransactionOutpoint)
    (daaScore : UInt64) : Bool :=
  daaMatches (c.lookup outpoint) daaScore

/-- `remove_collection`: `self` without every key of `other`. -/
def removeCollection (self other : UtxoCollection) : UtxoCollection :=
  other.keys.foldl (fun c outpoint => c.erase outpoint) self

/-- `intersects_with_rule`: the first common outpoint, iterating the smaller collection, whose
entries (`self`'s first) satisfy `rule`. -/
def intersectsWithRule (self other : UtxoCollection)
    (rule : TransactionOutpoint → UtxoEntry → UtxoEntry → Bool) : Option TransactionOutpoint :=
  if self.entries.length ≤ other.entries.length then
    self.entries.findSome? fun s =>
      match other.lookup s.1 with
      | some v2 => if rule s.1 s.2 v2 then some s.1 else none
      | none => none
  else
    other.entries.findSome? fun s =>
      match self.lookup s.1 with
      | some v1 => if rule s.1 v1 s.2 then some s.1 else none
      | none => none

/-- `intersection_with_remainder_having_daa_score_in_place`: every entry of `this` goes to
`result` when `other` holds it with the same DAA score, else to `remainder`. -/
def intersectionWithRemainderHavingDaaScoreInPlace (this other result remainder : UtxoCollection) :
    UtxoCollection × UtxoCollection :=
  this.entries.foldl
    (fun acc s => AList.partitionStep
      (fun outpoint entry => containsWithDaaScore other outpoint entry.blockDaaScore) acc s.1 s.2)
    (result, remainder)

/-- `subtraction_having_daa_score_in_place`: inserts into `result` every entry of `this` that
`other` does not hold with the same DAA score. -/
def subtractionHavingDaaScoreInPlace (this other result : UtxoCollection) : UtxoCollection :=
  this.entries.foldl
    (fun acc s => AList.insertStep
      (fun outpoint entry => !containsWithDaaScore other outpoint entry.blockDaaScore) acc s.1 s.2)
    result

/-- `subtraction_with_remainder_having_daa_score_in_place`: every entry of `this` goes to
`result` unless `other` holds it with the same DAA score, and then to `remainder`. -/
def subtractionWithRemainderHavingDaaScoreInPlace (this other result remainder : UtxoCollection) :
    UtxoCollection × UtxoCollection :=
  this.entries.foldl
    (fun acc s => AList.partitionStep
      (fun outpoint entry => !containsWithDaaScore other outpoint entry.blockDaaScore) acc s.1 s.2)
    (result, remainder)

/-- `subtraction_having_daa_score_in_place` at one outpoint: the entry of `this` when `other`
does not hold it with the same DAA score, else what `result` held. -/
def subtractionAt (this other result : Option UtxoEntry) : Option UtxoEntry :=
  match this with
  | some entry => if daaMatches other entry.blockDaaScore then result else some entry
  | none => result

/-- `intersects`: whether the two collections share an outpoint, iterating the smaller one. -/
def intersects (self other : UtxoCollection) : Bool :=
  if self.entries.length ≤ other.entries.length then self.keys.any fun k => decide (k ∈ other)
  else other.keys.any fun k => decide (k ∈ self)

theorem lookup_removeCollection (self other : UtxoCollection) (outpoint : TransactionOutpoint) :
    (removeCollection self other).lookup outpoint =
      if outpoint ∈ other then none else self.lookup outpoint := by
  simp only [removeCollection, AList.lookup_foldl_erase, ← AList.mem_keys]

theorem intersectsWithRule_eq_none {self other : UtxoCollection}
    {rule : TransactionOutpoint → UtxoEntry → UtxoEntry → Bool} :
    intersectsWithRule self other rule = none ↔
      ∀ outpoint v1 v2, self.lookup outpoint = some v1 → other.lookup outpoint = some v2 →
        rule outpoint v1 v2 = false := by
  unfold intersectsWithRule
  split
  · rw [List.findSome?_eq_none_iff]
    constructor
    · intro h outpoint v1 v2 h1 h2
      have hs := h ⟨outpoint, v1⟩ (AList.mem_lookup_iff.mp h1)
      simp only [h2] at hs
      split at hs
      · simp at hs
      · simpa using ‹¬rule outpoint v1 v2 = true›
    · rintro h ⟨outpoint, v1⟩ hmem
      have h1 := AList.mem_lookup_iff.mpr hmem
      cases h2 : other.lookup outpoint with
      | none => rfl
      | some v2 => simp [h outpoint v1 v2 h1 h2]
  · rw [List.findSome?_eq_none_iff]
    constructor
    · intro h outpoint v1 v2 h1 h2
      have hs := h ⟨outpoint, v2⟩ (AList.mem_lookup_iff.mp h2)
      simp only [h1] at hs
      split at hs
      · simp at hs
      · simpa using ‹¬rule outpoint v1 v2 = true›
    · rintro h ⟨outpoint, v2⟩ hmem
      have h2 := AList.mem_lookup_iff.mpr hmem
      cases h1 : self.lookup outpoint with
      | none => rfl
      | some v1 => simp [h outpoint v1 v2 h1 h2]

/-- After the pass, an outpoint of `this` is in exactly one of the two outputs, with its entry
from `this`; every other outpoint reads what it read in `result` and `remainder`. -/
theorem lookup_intersectionWithRemainder (this other result remainder : UtxoCollection)
    (outpoint : TransactionOutpoint) :
    (intersectionWithRemainderHavingDaaScoreInPlace this other result remainder).1.lookup outpoint =
        AList.partitionFst (fun o e => containsWithDaaScore other o e.blockDaaScore) outpoint
          (this.lookup outpoint) (result.lookup outpoint) ∧
      (intersectionWithRemainderHavingDaaScoreInPlace this other result remainder).2.lookup outpoint =
        AList.partitionSnd (fun o e => containsWithDaaScore other o e.blockDaaScore) outpoint
          (this.lookup outpoint) (remainder.lookup outpoint) :=
  AList.lookup_foldl_partitionStep _ this.entries this.nodupKeys (result, remainder) outpoint

theorem lookup_subtraction (this other result : UtxoCollection)
    (outpoint : TransactionOutpoint) :
    (subtractionHavingDaaScoreInPlace this other result).lookup outpoint =
      subtractionAt (this.lookup outpoint) (other.lookup outpoint) (result.lookup outpoint) := by
  rw [subtractionHavingDaaScoreInPlace,
    AList.lookup_foldl_insertStep _ this.entries this.nodupKeys result outpoint]
  change AList.partitionFst _ outpoint (this.lookup outpoint) _ = _
  cases this.lookup outpoint with
  | none => rfl
  | some entry =>
    unfold AList.partitionFst subtractionAt containsWithDaaScore
    cases h : daaMatches (other.lookup outpoint) entry.blockDaaScore <;> simp [h]

theorem lookup_subtractionWithRemainder (this other result remainder : UtxoCollection)
    (outpoint : TransactionOutpoint) :
    (subtractionWithRemainderHavingDaaScoreInPlace this other result remainder).1.lookup outpoint =
        subtractionAt (this.lookup outpoint) (other.lookup outpoint) (result.lookup outpoint) ∧
      (subtractionWithRemainderHavingDaaScoreInPlace this other result remainder).2.lookup
          outpoint =
        AList.partitionSnd (fun o e => !containsWithDaaScore other o e.blockDaaScore) outpoint
          (this.lookup outpoint) (remainder.lookup outpoint) := by
  obtain ⟨h1, h2⟩ :=
    AList.lookup_foldl_partitionStep _ this.entries this.nodupKeys (result, remainder) outpoint
  refine ⟨?_, h2⟩
  rw [subtractionWithRemainderHavingDaaScoreInPlace, h1]
  change AList.partitionFst _ outpoint (this.lookup outpoint) _ = _
  cases this.lookup outpoint with
  | none => rfl
  | some entry =>
    unfold AList.partitionFst subtractionAt containsWithDaaScore
    cases h : daaMatches (other.lookup outpoint) entry.blockDaaScore <;> simp [h]

/-- The second output of the pass holds what `other` holds with the same DAA score. -/
theorem mem_subtractionWithRemainder_snd (this other result : UtxoCollection)
    (outpoint : TransactionOutpoint) :
    outpoint ∈ (subtractionWithRemainderHavingDaaScoreInPlace this other result ∅).2 ↔
      ∃ entry, this.lookup outpoint = some entry ∧
        daaMatches (other.lookup outpoint) entry.blockDaaScore = true := by
  rw [← AList.lookup_isSome, (lookup_subtractionWithRemainder this other result ∅ outpoint).2]
  cases this.lookup outpoint with
  | none => simp [AList.partitionSnd]
  | some entry =>
    unfold AList.partitionSnd containsWithDaaScore
    cases h : daaMatches (other.lookup outpoint) entry.blockDaaScore <;> simp [h]

theorem intersects_eq_true_iff {self other : UtxoCollection} :
    intersects self other = true ↔ ∃ outpoint, outpoint ∈ self ∧ outpoint ∈ other := by
  unfold intersects
  split
  · simp only [List.any_eq_true, decide_eq_true_eq, AList.mem_keys]
  · simp only [List.any_eq_true, decide_eq_true_eq, AList.mem_keys]
    exact ⟨fun ⟨o, h1, h2⟩ => ⟨o, h2, h1⟩, fun ⟨o, h1, h2⟩ => ⟨o, h2, h1⟩⟩

end UtxoCollection

end Vecno
