import Mathlib.Data.List.ReduceOption
import Vecno.Utxo.Diff

/-!
# Merging diffs composes views

Reading through `self.with_diff(other)` is reading through `self` then `other`, given consistency
and fresh additions; without the last a removed entry shows the base's old one.
-/

namespace Vecno

open UtxoCollection

namespace UtxoDiff

/-- A diff is consistent with the view it is applied to when it removes only entries the view
holds, and an outpoint it both adds and removes carries different DAA scores in the two. -/
def ConsistentWith (diff : UtxoDiff) (view : UtxoView) : Prop :=
  (∀ s ∈ diff.remove.entries, view s.1 = some s.2) ∧
    ∀ s ∈ diff.add.entries, containsWithDaaScore diff.remove s.1 s.2.blockDaaScore = false

instance (diff : UtxoDiff) (view : UtxoView) : Decidable (ConsistentWith diff view) := by
  unfold ConsistentWith
  infer_instance

/-- Every entry the diff adds at an outpoint it does not also remove is new to the view. -/
def AddsFresh (diff : UtxoDiff) (view : UtxoView) : Prop :=
  ∀ s ∈ diff.add.entries, s.1 ∉ diff.remove → view s.1 = none

instance (diff : UtxoDiff) (view : UtxoView) : Decidable (AddsFresh diff view) := by
  unfold AddsFresh
  infer_instance

/-- The entries a view and two diffs hold at one outpoint. -/
def entriesAt (view : UtxoView) (d1 d2 : UtxoDiff) (outpoint : TransactionOutpoint) :
    List UtxoEntry :=
  [view outpoint, d1.add.lookup outpoint, d1.remove.lookup outpoint, d2.add.lookup outpoint,
    d2.remove.lookup outpoint].reduceOption

/-- At every outpoint the two diffs touch, the outpoint and a DAA score determine the entry. -/
def DaaScoreDetermines (view : UtxoView) (d1 d2 : UtxoDiff) : Prop :=
  ∀ outpoint ∈ d1.add.keys ++ d1.remove.keys ++ d2.add.keys ++ d2.remove.keys,
    ∀ e ∈ entriesAt view d1 d2 outpoint, ∀ e' ∈ entriesAt view d1 d2 outpoint,
      e.blockDaaScore = e'.blockDaaScore → e = e'

instance (view : UtxoView) (d1 d2 : UtxoDiff) : Decidable (DaaScoreDetermines view d1 d2) := by
  unfold DaaScoreDetermines
  infer_instance

section Pointwise

variable {diff d1 d2 : UtxoDiff} {view : UtxoView} {outpoint : TransactionOutpoint}

theorem ConsistentWith.remove_lookup (h : ConsistentWith diff view) {e : UtxoEntry}
    (he : diff.remove.lookup outpoint = some e) : view outpoint = some e :=
  h.1 ⟨outpoint, e⟩ (AList.mem_lookup_iff.mp he)

theorem ConsistentWith.add_lookup (h : ConsistentWith diff view) {x : UtxoEntry}
    (hx : diff.add.lookup outpoint = some x) :
    daaMatches (diff.remove.lookup outpoint) x.blockDaaScore = false :=
  h.2 ⟨outpoint, x⟩ (AList.mem_lookup_iff.mp hx)

theorem AddsFresh.lookup (h : AddsFresh diff view) {x : UtxoEntry}
    (hx : diff.add.lookup outpoint = some x) (hr : diff.remove.lookup outpoint = none) :
    view outpoint = none :=
  h ⟨outpoint, x⟩ (AList.mem_lookup_iff.mp hx) (by simpa [← AList.lookup_isSome] using hr)

theorem DaaScoreDetermines.add_remove (h : DaaScoreDetermines view d1 d2) {x y : UtxoEntry}
    (hx : d2.add.lookup outpoint = some x) (hy : d1.remove.lookup outpoint = some y)
    (hxy : x.blockDaaScore = y.blockDaaScore) : x = y := by
  have hmem : outpoint ∈ d1.add.keys ++ d1.remove.keys ++ d2.add.keys ++ d2.remove.keys :=
    List.mem_append_left _ (List.mem_append_right _
      (AList.mem_keys.mpr (AList.lookup_isSome.mp (by rw [hx]; rfl))))
  exact h outpoint hmem x (by simp [entriesAt, List.reduceOption_mem_iff, hx])
    y (by simp [entriesAt, List.reduceOption_mem_iff, hy]) hxy

end Pointwise

/-- The law at one outpoint: what `self` (`a1`, `r1`) holds after merging `other` (`a2`, `r2`)
reads the base entry `v` as `self` and then `other` do. -/
theorem composeAt_withDiffAt {v a1 r1 a2 r2 : Option UtxoEntry}
    (hr1 : ∀ e, r1 = some e → v = some e)
    (hfresh : ∀ e, a1 = some e → r1 = none → v = none)
    (hr2 : ∀ e, r2 = some e → composeAt a1 r1 v = some e)
    (ha2 : ∀ x, a2 = some x → daaMatches r2 x.blockDaaScore = false)
    (hdet : ∀ x y, a2 = some x → r1 = some y → x.blockDaaScore = y.blockDaaScore → x = y)
    (hc2 : ∀ x1 x2, a2 = some x2 → a1 = some x1 → daaMatches r2 x1.blockDaaScore = true) :
    composeAt (withDiffAt a1 r1 a2 r2).1 (withDiffAt a1 r1 a2 r2).2 v =
      composeAt a2 r2 (composeAt a1 r1 v) := by
  rcases a2 with _ | x <;> rcases r2 with _ | e
  · rfl
  · -- `other` removes `e`: either it cancels an addition of `self` with that DAA score, where the
    -- base holds nothing by freshness, or it is recorded and `self` adds nothing there
    rcases a1 with _ | x1 <;> rcases r1 with _ | y <;> simp_all [withDiffAt, composeAt, daaMatches]
  · -- `other` adds `x`: the conflict check leaves `self` no addition there, and cancelling a
    -- removal of `self` with the same DAA score brings back the base's entry, which is `x`
    obtain rfl : a1 = none := by
      rcases a1 with _ | x1
      · rfl
      · exact absurd (hc2 x1 x rfl rfl) (by simp [daaMatches])
    rcases r1 with _ | y
    · rfl
    · have hv := hr1 y rfl
      by_cases hxy : y.blockDaaScore = x.blockDaaScore
      · obtain rfl := hdet x y rfl rfl hxy.symm
        simp [withDiffAt, composeAt, daaMatches, hv]
      · simp [withDiffAt, composeAt, daaMatches, hxy]
  · -- `other` replaces `e` by `x`; an addition of `self` there can only be `e` itself
    have he := hr2 e rfl
    have hxe : ¬e.blockDaaScore = x.blockDaaScore := by simpa [daaMatches] using ha2 x rfl
    rcases a1 with _ | x1
    · simp [withDiffAt, composeAt, daaMatches, hxe]
    · obtain rfl : x1 = e := by simpa [composeAt] using he
      rcases r1 with _ | y
      · simp [withDiffAt, composeAt, daaMatches]
      · have hv := hr1 y rfl
        by_cases hxy : y.blockDaaScore = x.blockDaaScore
        · obtain rfl := hdet x y rfl rfl hxy.symm
          simp [withDiffAt, composeAt, daaMatches, hv]
        · simp [withDiffAt, composeAt, daaMatches, hxy]

/-- `with_diff` composes views for diffs consistent with the views they are applied to, when an
outpoint and a DAA score determine the entry and `self` adds only entries new to the base; and a
failing `with_diff_in_place` leaves `self` as it was. -/
theorem withDiff_compose_of_addsFresh :
    (∀ (view : UtxoView) (d1 d2 d : UtxoDiff), ConsistentWith d1 view → AddsFresh d1 view →
      ConsistentWith d2 (compose view d1) → DaaScoreDetermines view d1 d2 →
      withDiff d1 d2 = .ok d →
        ∀ outpoint, compose view d outpoint = compose (compose view d1) d2 outpoint) ∧
    ∀ (self other : UtxoDiff) (e : UtxoAlgebraError), (withDiffInPlace self other).1 = .error e →
      (withDiffInPlace self other).2 = self := by
  refine ⟨?_, fun _ _ _ h => withDiffInPlace_error h⟩
  intro view d1 d2 d h1 hfresh h2 hdet hd outpoint
  have hin := withDiffInPlace_of_withDiff hd
  obtain ⟨-, hc2⟩ := withDiffInPlace_ok_iff.mp (congrArg Prod.fst hin)
  obtain ⟨ha, hr⟩ := Prod.ext_iff.mp (lookup_withDiffInPlace hin outpoint)
  dsimp only at ha hr
  rw [compose_apply, compose_apply, compose_apply, ha, hr]
  refine composeAt_withDiffAt (fun e he => h1.remove_lookup he)
    (fun x hx hr => hfresh.lookup hx hr) (fun e he => ?_) (fun x hx => h2.add_lookup hx)
    (fun x y hx hy hxy => hdet.add_remove hx hy hxy) (fun x1 x2 hx2 hx1 => hc2 outpoint x2 x1 hx2 hx1)
  rw [← compose_apply]
  exact h2.remove_lookup he

/-- Spending an output the first diff created: the two diffs cancel, as the composed views do. -/
theorem withDiff_compose_spend_created :
    ConsistentWith ⟨AList.singleton ⟨Hash.fromU64Word 1, 0⟩ ⟨20, ⟨0, []⟩, 2, false⟩, ∅⟩
        (fun _ => none) ∧
      AddsFresh ⟨AList.singleton ⟨Hash.fromU64Word 1, 0⟩ ⟨20, ⟨0, []⟩, 2, false⟩, ∅⟩
        (fun _ => none) ∧
      ConsistentWith ⟨∅, AList.singleton ⟨Hash.fromU64Word 1, 0⟩ ⟨20, ⟨0, []⟩, 2, false⟩⟩
        (compose (fun _ => none)
          ⟨AList.singleton ⟨Hash.fromU64Word 1, 0⟩ ⟨20, ⟨0, []⟩, 2, false⟩, ∅⟩) ∧
      DaaScoreDetermines (fun _ => none)
        ⟨AList.singleton ⟨Hash.fromU64Word 1, 0⟩ ⟨20, ⟨0, []⟩, 2, false⟩, ∅⟩
        ⟨∅, AList.singleton ⟨Hash.fromU64Word 1, 0⟩ ⟨20, ⟨0, []⟩, 2, false⟩⟩ ∧
      withDiff ⟨AList.singleton ⟨Hash.fromU64Word 1, 0⟩ ⟨20, ⟨0, []⟩, 2, false⟩, ∅⟩
        ⟨∅, AList.singleton ⟨Hash.fromU64Word 1, 0⟩ ⟨20, ⟨0, []⟩, 2, false⟩⟩ = .ok ⟨∅, ∅⟩ ∧
      ∀ outpoint, compose (fun _ => none) ⟨∅, ∅⟩ outpoint =
        compose (compose (fun _ => none)
            ⟨AList.singleton ⟨Hash.fromU64Word 1, 0⟩ ⟨20, ⟨0, []⟩, 2, false⟩, ∅⟩)
          ⟨∅, AList.singleton ⟨Hash.fromU64Word 1, 0⟩ ⟨20, ⟨0, []⟩, 2, false⟩⟩ outpoint :=
  ⟨by decide, by decide, by decide, by decide, rfl,
    withDiff_compose_of_addsFresh.1 _ _ _ _ (by decide) (by decide) (by decide) (by decide) rfl⟩

/-- Without freshness the law fails: over a base that still holds an entry at the outpoint, a diff
that adds another entry there and a diff that removes it again merge to the empty diff, which
shows the base's entry where the composed views show nothing. -/
theorem withDiff_compose_respent :
    ¬ ∀ (view : UtxoView) (d1 d2 d : UtxoDiff), ConsistentWith d1 view →
      ConsistentWith d2 (compose view d1) → DaaScoreDetermines view d1 d2 →
      withDiff d1 d2 = .ok d →
        ∀ outpoint, compose view d outpoint = compose (compose view d1) d2 outpoint := by
  intro h
  have hne := h (AList.singleton ⟨Hash.fromU64Word 1, 0⟩ ⟨50, ⟨0, []⟩, 1, false⟩).lookup
    ⟨AList.singleton ⟨Hash.fromU64Word 1, 0⟩ ⟨20, ⟨0, []⟩, 2, false⟩, ∅⟩
    ⟨∅, AList.singleton ⟨Hash.fromU64Word 1, 0⟩ ⟨20, ⟨0, []⟩, 2, false⟩⟩ ⟨∅, ∅⟩
    (by decide) (by decide) (by decide) rfl ⟨Hash.fromU64Word 1, 0⟩
  exact absurd hne (by decide)

end UtxoDiff

end Vecno
