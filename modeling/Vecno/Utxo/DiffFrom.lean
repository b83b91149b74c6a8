import Vecno.Utxo.Composition

/-!
# `diff_from` and `with_diff` invert each other

For two diffs of one base, merging `a.diff_from(b)` into `a` gives `b`, and back. Both laws are
checked on the four shapes of a diff at one outpoint (`DiffShape`).
-/

namespace Vecno

open UtxoCollection

namespace UtxoDiff

/-- What a diff of a base holds at one outpoint, from the base's entry there: nothing, an entry
created where the base holds none, the base's entry spent, or the base's entry replaced by one
of another DAA score. -/
inductive DiffShape : Option UtxoEntry → Option UtxoEntry → Option UtxoEntry → Prop
  | untouched {v : Option UtxoEntry} : DiffShape v none none
  | create (x : UtxoEntry) : DiffShape none (some x) none
  | spend (v : UtxoEntry) : DiffShape (some v) none (some v)
  | replace (v x : UtxoEntry) : x.blockDaaScore ≠ v.blockDaaScore →
      DiffShape (some v) (some x) (some v)

/-- `PartialEq for UtxoDiff`: the hash maps on each side hold the same entries. -/
def Equiv (d d' : UtxoDiff) : Prop :=
  ∀ outpoint, d.add.lookup outpoint = d'.add.lookup outpoint ∧
    d.remove.lookup outpoint = d'.remove.lookup outpoint

/-- Entries of one outpoint with the same DAA score are the same entry. -/
def Determined (entries : List UtxoEntry) : Prop :=
  ∀ e ∈ entries, ∀ e' ∈ entries, e.blockDaaScore = e'.blockDaaScore → e = e'

theorem diffShape_of {diff : UtxoDiff} {view : UtxoView} (hc : ConsistentWith diff view)
    (hf : AddsFresh diff view) (outpoint : TransactionOutpoint) :
    DiffShape (view outpoint) (diff.add.lookup outpoint) (diff.remove.lookup outpoint) := by
  cases hr : diff.remove.lookup outpoint with
  | none =>
    cases ha : diff.add.lookup outpoint with
    | none => exact .untouched
    | some x =>
      rw [hf.lookup ha hr]
      exact .create x
  | some v =>
    rw [hc.remove_lookup hr]
    cases ha : diff.add.lookup outpoint with
    | none => exact .spend v
    | some x =>
      have hx := hc.add_lookup ha
      rw [hr] at hx
      refine .replace v x fun hxv => ?_
      simp [daaMatches, hxv] at hx

theorem DaaScoreDetermines.determined {view : UtxoView} {a b : UtxoDiff}
    (h : DaaScoreDetermines view a b) (outpoint : TransactionOutpoint) :
    Determined (entriesAt view a b outpoint) := by
  by_cases hmem : outpoint ∈ a.add.keys ++ a.remove.keys ++ b.add.keys ++ b.remove.keys
  · exact h outpoint hmem
  · -- an outpoint neither diff touches holds only the base's entry
    simp only [List.mem_append, not_or] at hmem
    obtain ⟨⟨⟨h1, h2⟩, h3⟩, h4⟩ := hmem
    intro e he e' he' _
    simp only [entriesAt, AList.lookup_eq_none.mpr h1, AList.lookup_eq_none.mpr h2,
      AList.lookup_eq_none.mpr h3, AList.lookup_eq_none.mpr h4, List.reduceOption_mem_iff,
      List.mem_cons, List.not_mem_nil, reduceCtorEq, or_false] at he he'
    exact Option.some.inj (he.trans he'.symm)

theorem Determined.eq {l : List (Option UtxoEntry)} (h : Determined l.reduceOption)
    {e e' : UtxoEntry} (he : some e ∈ l) (he' : some e' ∈ l)
    (hd : e.blockDaaScore = e'.blockDaaScore) : e = e' :=
  h e (List.reduceOption_mem_iff.mpr he) e' (List.reduceOption_mem_iff.mpr he') hd

section Pointwise

variable {v aa ar ba br : Option UtxoEntry}

/-- `diff_from` then `with_diff` at one outpoint: merging the diff from `a` to `b` into `a` passes
both conflict checks and leaves what `b` holds. -/
theorem withDiffAt_diffFromAt (ha : DiffShape v aa ar) (hb : DiffShape v ba br)
    (hdet : Determined [v, aa, ar, ba, br].reduceOption) :
    WithDiffOkAt aa ar (diffFromAt aa ar ba br).1 (diffFromAt aa ar ba br).2 ∧
      withDiffAt aa ar (diffFromAt aa ar ba br).1 (diffFromAt aa ar ba br).2 = (ba, br) := by
  cases ha with
  | untouched =>
    cases hb with
    | replace w x hxw =>
      simp [WithDiffOkAt, diffFromAt, withDiffAt, subtractionAt, daaMatches, Ne.symm hxw]
    | _ => simp [WithDiffOkAt, diffFromAt, withDiffAt, subtractionAt, daaMatches]
  | create x =>
    cases hb with
    | untouched => simp [WithDiffOkAt, diffFromAt, withDiffAt, subtractionAt, daaMatches]
    | create y =>
      by_cases hxy : x.blockDaaScore = y.blockDaaScore
      · obtain rfl := hdet.eq (by simp) (by simp) hxy
        simp [WithDiffOkAt, diffFromAt, withDiffAt, subtractionAt, daaMatches]
      · simp [WithDiffOkAt, diffFromAt, withDiffAt, subtractionAt, daaMatches, hxy, Ne.symm hxy]
  | spend w =>
    cases hb with
    | replace w x hxw =>
      simp [WithDiffOkAt, diffFromAt, withDiffAt, subtractionAt, daaMatches, Ne.symm hxw]
    | _ => simp [WithDiffOkAt, diffFromAt, withDiffAt, subtractionAt, daaMatches]
  | replace w x hxw =>
    cases hb with
    | replace w y hyw =>
      by_cases hxy : x.blockDaaScore = y.blockDaaScore
      · obtain rfl := hdet.eq (by simp) (by simp) hxy
        simp [WithDiffOkAt, diffFromAt, withDiffAt, subtractionAt, daaMatches]
      · simp [WithDiffOkAt, diffFromAt, withDiffAt, subtractionAt, daaMatches, hxy, Ne.symm hxy,
          Ne.symm hyw]
    | _ => simp [WithDiffOkAt, diffFromAt, withDiffAt, subtractionAt, daaMatches]

/-- `with_diff` then `diff_from` at one outpoint: when the merge of `b` into `a` passes its
conflict checks, the diff from `a` to the merge passes the checks of `diff_from` and is `b`. -/
theorem diffFromAt_withDiffAt (ha : DiffShape v aa ar) (hb : DiffShape v ba br)
    (hdet : Determined [v, aa, ar, ba, br].reduceOption) (hok : WithDiffOkAt aa ar ba br) :
    DiffFromOkAt aa ar (withDiffAt aa ar ba br).1 (withDiffAt aa ar ba br).2 ∧
      InBothAgreesAt aa ar (withDiffAt aa ar ba br).1 (withDiffAt aa ar ba br).2 ∧
      diffFromAt aa ar (withDiffAt aa ar ba br).1 (withDiffAt aa ar ba br).2 = (ba, br) := by
  cases ha with
  | untouched =>
    cases hb with
    | replace w x hxw =>
      simp [DiffFromOkAt, InBothAgreesAt, diffFromAt, withDiffAt, subtractionAt, daaMatches,
        Ne.symm hxw]
    | _ => simp [DiffFromOkAt, InBothAgreesAt, diffFromAt, withDiffAt, subtractionAt, daaMatches]
  | create x =>
    cases hb with
    | untouched =>
      simp [DiffFromOkAt, InBothAgreesAt, diffFromAt, withDiffAt, subtractionAt, daaMatches]
    | create y =>
      -- both diffs add here: the merge fails its second conflict check
      have h := hok.2 y x rfl rfl
      simp [daaMatches] at h
  | spend w =>
    -- both diffs remove the base's entry and neither adds it back: the merge fails its first
    -- conflict check unless `b` leaves the outpoint alone
    cases hb with
    | untouched =>
      simp [DiffFromOkAt, InBothAgreesAt, diffFromAt, withDiffAt, subtractionAt, daaMatches]
    | spend w =>
      have h := hok.1 w w rfl rfl
      simp [daaMatches] at h
    | replace w x hxw =>
      have h := hok.1 w w rfl rfl
      simp [daaMatches] at h
  | replace w x hxw =>
    cases hb with
    | untouched =>
      simp [DiffFromOkAt, InBothAgreesAt, diffFromAt, withDiffAt, subtractionAt, daaMatches,
        hxw, Ne.symm hxw]
    | spend w =>
      have h := hok.1 w w rfl rfl
      simp [daaMatches, hxw] at h
    | replace w y hyw =>
      have h := hok.1 w w rfl rfl
      simp [daaMatches, hxw] at h

end Pointwise

section SameBase

/-! Two diffs `a` and `b` of one base `view`, where an outpoint and a DAA score determine the
entry. -/

variable {view : UtxoView} {a b : UtxoDiff}
  (hca : ConsistentWith a view) (hfa : AddsFresh a view)
  (hcb : ConsistentWith b view) (hfb : AddsFresh b view)
  (hdet : DaaScoreDetermines view a b)
include hca hfa hcb hfb hdet

theorem withDiff_of_diffFrom {d : UtxoDiff} (hd : diffFrom a b = .ok d) :
    ∃ c, withDiff a d = .ok c ∧ Equiv c b := by
  obtain ⟨-, hlook⟩ := diffFrom_eq_ok hd
  have hat : ∀ o, WithDiffOkAt (a.add.lookup o) (a.remove.lookup o) (d.add.lookup o)
        (d.remove.lookup o) ∧
      withDiffAt (a.add.lookup o) (a.remove.lookup o) (d.add.lookup o) (d.remove.lookup o) =
        (b.add.lookup o, b.remove.lookup o) := by
    intro o
    rw [(hlook o).1, (hlook o).2]
    exact withDiffAt_diffFromAt (diffShape_of hca hfa o) (diffShape_of hcb hfb o)
      (hdet.determined o)
  have hok : (withDiffInPlace a d).1 = .ok () :=
    withDiffInPlace_ok_iff.mpr ⟨fun o => (hat o).1.1, fun o => (hat o).1.2⟩
  refine ⟨_, withDiff_of_ok hok, fun o => ?_⟩
  have hc := lookup_withDiffInPlace (withDiffInPlace_eq_of_ok hok) o
  rw [(hat o).2] at hc
  exact Prod.mk.inj hc

theorem diffFrom_of_withDiff {c : UtxoDiff} (hc : withDiff a b = .ok c) :
    ∃ r, diffFrom a c = .ok r ∧ Equiv r b := by
  have hin := withDiffInPlace_of_withDiff hc
  obtain ⟨h1, h2⟩ := withDiffInPlace_ok_iff.mp (congrArg Prod.fst hin)
  have hat : ∀ o, DiffFromOkAt (a.add.lookup o) (a.remove.lookup o) (c.add.lookup o)
        (c.remove.lookup o) ∧
      InBothAgreesAt (a.add.lookup o) (a.remove.lookup o) (c.add.lookup o) (c.remove.lookup o) ∧
      diffFromAt (a.add.lookup o) (a.remove.lookup o) (c.add.lookup o) (c.remove.lookup o) =
        (b.add.lookup o, b.remove.lookup o) := by
    intro o
    obtain ⟨hadd, hremove⟩ := Prod.ext_iff.mp (lookup_withDiffInPlace hin o)
    dsimp only at hadd hremove
    rw [hadd, hremove]
    exact diffFromAt_withDiffAt (diffShape_of hca hfa o) (diffShape_of hcb hfb o)
      (hdet.determined o) ⟨h1 o, h2 o⟩
  obtain ⟨r, hr⟩ := diffFrom_ok_of (fun o => (hat o).1) (fun o => (hat o).2.1)
  refine ⟨r, hr, fun o => ?_⟩
  obtain ⟨-, hlook⟩ := diffFrom_eq_ok hr
  rw [(hlook o).1, (hlook o).2, (hat o).2.2]
  exact ⟨rfl, rfl⟩

end SameBase

/-- `diff_from` and `with_diff` invert each other on diffs of one base: merging `a.diff_from(b)`
into `a` gives `b`, and the diff from `a` to the merge of `b` into `a` is `b`. -/
theorem diffFrom_withDiff_inverse :
    (∀ (view : UtxoView) (a b d : UtxoDiff), ConsistentWith a view → AddsFresh a view →
      ConsistentWith b view → AddsFresh b view → DaaScoreDetermines view a b →
      diffFrom a b = .ok d → ∃ c, withDiff a d = .ok c ∧ Equiv c b) ∧
    ∀ (view : UtxoView) (a b c : UtxoDiff), ConsistentWith a view → AddsFresh a view →
      ConsistentWith b view → AddsFresh b view → DaaScoreDetermines view a b →
      withDiff a b = .ok c → ∃ r, diffFrom a c = .ok r ∧ Equiv r b :=
  ⟨fun _ _ _ _ hca hfa hcb hfb hdet hd => withDiff_of_diffFrom hca hfa hcb hfb hdet hd,
    fun _ _ _ _ hca hfa hcb hfb hdet hc => diffFrom_of_withDiff hca hfa hcb hfb hdet hc⟩

/-- Over a base holding `e0` at one outpoint: the diff from spending `e0` to replacing it by
`e1` adds `e1`, and merging a creation at a second outpoint into the spend is undone by
`diff_from`. -/
theorem diffFrom_withDiff_replace :
    (ConsistentWith ⟨∅, AList.singleton ⟨Hash.fromU64Word 1, 0⟩ ⟨50, ⟨0, []⟩, 1, false⟩⟩
        (AList.singleton ⟨Hash.fromU64Word 1, 0⟩ ⟨50, ⟨0, []⟩, 1, false⟩).lookup ∧
      diffFrom ⟨∅, AList.singleton ⟨Hash.fromU64Word 1, 0⟩ ⟨50, ⟨0, []⟩, 1, false⟩⟩
          ⟨AList.singleton ⟨Hash.fromU64Word 1, 0⟩ ⟨20, ⟨0, []⟩, 2, false⟩,
            AList.singleton ⟨Hash.fromU64Word 1, 0⟩ ⟨50, ⟨0, []⟩, 1, false⟩⟩ =
        .ok ⟨AList.singleton ⟨Hash.fromU64Word 1, 0⟩ ⟨20, ⟨0, []⟩, 2, false⟩, ∅⟩ ∧
      ∃ c, withDiff ⟨∅, AList.singleton ⟨Hash.fromU64Word 1, 0⟩ ⟨50, ⟨0, []⟩, 1, false⟩⟩
          ⟨AList.singleton ⟨Hash.fromU64Word 1, 0⟩ ⟨20, ⟨0, []⟩, 2, false⟩, ∅⟩ = .ok c ∧
        Equiv c ⟨AList.singleton ⟨Hash.fromU64Word 1, 0⟩ ⟨20, ⟨0, []⟩, 2, false⟩,
          AList.singleton ⟨Hash.fromU64Word 1, 0⟩ ⟨50, ⟨0, []⟩, 1, false⟩⟩) ∧
    (withDiff ⟨∅, AList.singleton ⟨Hash.fromU64Word 1, 0⟩ ⟨50, ⟨0, []⟩, 1, false⟩⟩
          ⟨AList.singleton ⟨Hash.fromU64Word 2, 0⟩ ⟨20, ⟨0, []⟩, 2, false⟩, ∅⟩ =
        .ok ⟨AList.singleton ⟨Hash.fromU64Word 2, 0⟩ ⟨20, ⟨0, []⟩, 2, false⟩,
          AList.singleton ⟨Hash.fromU64Word 1, 0⟩ ⟨50, ⟨0, []⟩, 1, false⟩⟩ ∧
      ∃ r, diffFrom ⟨∅, AList.singleton ⟨Hash.fromU64Word 1, 0⟩ ⟨50, ⟨0, []⟩, 1, false⟩⟩
          ⟨AList.singleton ⟨Hash.fromU64Word 2, 0⟩ ⟨20, ⟨0, []⟩, 2, false⟩,
            AList.singleton ⟨Hash.fromU64Word 1, 0⟩ ⟨50, ⟨0, []⟩, 1, false⟩⟩ = .ok r ∧
        Equiv r ⟨AList.singleton ⟨Hash.fromU64Word 2, 0⟩ ⟨20, ⟨0, []⟩, 2, false⟩, ∅⟩) :=
  ⟨⟨by decide, rfl, diffFrom_withDiff_inverse.1
      (AList.singleton ⟨Hash.fromU64Word 1, 0⟩ ⟨50, ⟨0, []⟩, 1, false⟩).lookup _ _ _
      (by decide) (by decide) (by decide) (by decide) (by decide) rfl⟩,
    ⟨rfl, diffFrom_withDiff_inverse.2
      (AList.singleton ⟨Hash.fromU64Word 1, 0⟩ ⟨50, ⟨0, []⟩, 1, false⟩).lookup _ _ _
      (by decide) (by decide) (by decide) (by decide) (by decide) rfl⟩⟩

end UtxoDiff

end Vecno
