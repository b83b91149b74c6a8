import Mathlib.Logic.Function.Basic
import Vecno.Utxo.Diff

/-!
# Diffs that track a view

A diff tracking a view keeps tracking it through a removal of a live entry, an addition at a
fresh outpoint, and `add_transaction`.
-/

namespace Vecno

open UtxoCollection

/-- The view with the outpoints of `spent` removed. -/
def spendAll (view : UtxoView) (spent : List TransactionOutpoint) : UtxoView := fun outpoint =>
  if outpoint ∈ spent then none else view outpoint

/-- The view with the entries of `created` added. -/
def createAll (view : UtxoView) (created : List (TransactionOutpoint × UtxoEntry)) : UtxoView :=
  fun outpoint =>
    match created.lookup outpoint with
    | some entry => some entry
    | none => view outpoint

/-- A transaction applied to a view: its inputs spent, then its outputs created with the DAA
score. -/
def applyTransaction (view : UtxoView) (blockDaaScore : UInt64) (tx : Transaction) : UtxoView :=
  createAll (spendAll view tx.spentOutpoints) (tx.createdEntries blockDaaScore)

theorem spendAll_update (view : UtxoView) (outpoint : TransactionOutpoint)
    (spent : List TransactionOutpoint) :
    spendAll (Function.update view outpoint none) spent = spendAll view (outpoint :: spent) := by
  funext o
  by_cases ho : o = outpoint
  · subst ho
    simp [spendAll]
  · simp [spendAll, ho]

theorem createAll_update (view : UtxoView) (outpoint : TransactionOutpoint) (entry : UtxoEntry)
    {created : List (TransactionOutpoint × UtxoEntry)} (hnot : outpoint ∉ created.map Prod.fst) :
    createAll (Function.update view outpoint (some entry)) created =
      createAll view ((outpoint, entry) :: created) := by
  funext o
  by_cases ho : o = outpoint
  · subst ho
    have hnot' : ∀ e, (o, e) ∉ created := by simpa using hnot
    have hnone : created.lookup o = none := by
      rw [List.lookup_eq_none_iff]
      rintro ⟨a, b⟩ hab
      simp only [bne_iff_ne, ne_eq]
      rintro rfl
      exact hnot' b hab
    simp [createAll, hnone]
  · have hbeq : (o == outpoint) = false := beq_false_of_ne ho
    simp [createAll, List.lookup_cons, hbeq, Function.update_of_ne ho]

theorem map_fst_createdEntries (tx : Transaction) (blockDaaScore : UInt64) :
    (tx.createdEntries blockDaaScore).map Prod.fst = tx.createdOutpoints := by
  have hfst : (Prod.fst ∘ fun output : TransactionOutput × Nat =>
      (tx.outpoint output.2,
        (⟨output.1.value, output.1.scriptPublicKey, blockDaaScore, tx.isCoinbase⟩ : UtxoEntry))) =
      tx.outpoint ∘ Prod.snd := rfl
  rw [Transaction.createdEntries, Transaction.createdOutpoints, List.map_map, hfst,
    ← List.map_map, List.zipIdx_eq_zip_range', List.map_snd_zip (by simp), List.range_eq_range']

theorem map_fst_populatedInputs (vtx : ValidatedTransaction) :
    vtx.populatedInputs.map (·.1.previousOutpoint) = vtx.tx.spentOutpoints := by
  have hfst : (fun p : TransactionInput × UtxoEntry => p.1.previousOutpoint) =
      (·.previousOutpoint) ∘ Prod.fst := rfl
  rw [ValidatedTransaction.populatedInputs, Transaction.spentOutpoints, hfst, ← List.map_map,
    List.map_fst_zip (le_of_eq vtx.length_entries.symm)]

theorem mem_spentOutpoints_iff {vtx : ValidatedTransaction} {outpoint : TransactionOutpoint} :
    outpoint ∈ vtx.tx.spentOutpoints ↔
      ∃ p ∈ vtx.populatedInputs, p.1.previousOutpoint = outpoint := by
  rw [← map_fst_populatedInputs, List.mem_map]

namespace UtxoDiff

/-- `diff` over `base` tracks `view`. -/
structure Tracks (base : UtxoView) (diff : UtxoDiff) (view : UtxoView) : Prop where
  compose_eq : ∀ outpoint, compose base diff outpoint = view outpoint
  remove_spec : ∀ outpoint entry, diff.remove.lookup outpoint = some entry →
    base outpoint = some entry ∧ view outpoint = none
  add_fresh : ∀ outpoint entry, diff.add.lookup outpoint = some entry → base outpoint = none

variable {base view : UtxoView} {diff : UtxoDiff} {outpoint : TransactionOutpoint}
  {entry : UtxoEntry}

theorem tracks_empty (base : UtxoView) : Tracks base ⟨∅, ∅⟩ base where
  compose_eq _ := rfl
  remove_spec _ _ h := by cases h
  add_fresh _ _ h := by cases h

theorem Tracks.remove_eq_none (h : Tracks base diff view) (hlive : view outpoint = some entry) :
    diff.remove.lookup outpoint = none := by
  cases hr : diff.remove.lookup outpoint with
  | none => rfl
  | some e =>
    have := (h.remove_spec outpoint e hr).2
    rw [hlive] at this
    cases this

/-- Spending a live entry: `remove_entry` cancels the diff's addition of it, or records it. -/
theorem Tracks.removeEntry (h : Tracks base diff view) (hlive : view outpoint = some entry) :
    ∃ diff', diff.removeEntry outpoint entry = .ok diff' ∧
      Tracks base diff' (Function.update view outpoint none) := by
  have hr := h.remove_eq_none hlive
  have hmem : outpoint ∉ diff.remove := by
    rw [← AList.lookup_isSome, hr]
    exact Bool.false_ne_true
  have hview := h.compose_eq outpoint
  rw [compose_apply, hr, hlive] at hview
  cases ha : diff.add.lookup outpoint with
  | some e =>
    -- the diff added the entry itself: cancelled, the base holds nothing there
    rw [ha] at hview
    obtain rfl : e = entry := by simpa [composeAt] using hview
    refine ⟨{ diff with add := diff.add.erase outpoint }, ?_, ?_, ?_, ?_⟩
    · simp [UtxoDiff.removeEntry, containsWithDaaScore, daaMatches, ha]
    · intro o
      by_cases ho : o = outpoint
      · subst ho
        simp [compose, AList.lookup_erase, hmem, h.add_fresh _ _ ha]
      · rw [Function.update_of_ne ho, ← h.compose_eq o]
        simp [compose, AList.lookup_erase_ne ho]
    · intro o e' he'
      have hne : o ≠ outpoint := fun ho => by rw [ho, hr] at he'; cases he'
      rw [Function.update_of_ne hne]
      exact h.remove_spec o e' he'
    · intro o e' he'
      by_cases ho : o = outpoint
      · subst ho
        simp [AList.lookup_erase] at he'
      · exact h.add_fresh o e' (by rwa [AList.lookup_erase_ne ho] at he')
  | none =>
    -- the entry comes from the base: recorded as removed
    rw [ha] at hview
    have hbase : base outpoint = some entry := by simpa [composeAt] using hview
    refine ⟨{ diff with remove := diff.remove.insert outpoint entry }, ?_, ?_, ?_, h.add_fresh⟩
    · simp [UtxoDiff.removeEntry, containsWithDaaScore, daaMatches, ha, hmem]
    · intro o
      by_cases ho : o = outpoint
      · subst ho
        simp [compose, ha]
      · rw [Function.update_of_ne ho, ← h.compose_eq o]
        simp [compose, AList.mem_insert, ho]
    · intro o e' he'
      by_cases ho : o = outpoint
      · subst ho
        simp only [AList.lookup_insert, Option.some.injEq] at he'
        subst he'
        exact ⟨hbase, by simp⟩
      · rw [Function.update_of_ne ho]
        exact h.remove_spec o e' (by rwa [AList.lookup_insert_ne ho] at he')

/-- Creating an entry at an outpoint that neither the view nor the base holds: `add_entry`
records it. -/
theorem Tracks.addEntry (h : Tracks base diff view) (hdead : view outpoint = none)
    (hfresh : base outpoint = none) :
    ∃ diff', diff.addEntry outpoint entry = .ok diff' ∧
      Tracks base diff' (Function.update view outpoint (some entry)) := by
  have hr : diff.remove.lookup outpoint = none := by
    cases hr : diff.remove.lookup outpoint with
    | none => rfl
    | some e =>
      have := (h.remove_spec outpoint e hr).1
      rw [hfresh] at this
      cases this
  have ha : diff.add.lookup outpoint = none := by
    cases ha : diff.add.lookup outpoint with
    | none => rfl
    | some e =>
      have := h.compose_eq outpoint
      rw [compose_apply, ha, hdead] at this
      cases this
  have hmem : outpoint ∉ diff.add := by
    rw [← AList.lookup_isSome, ha]
    exact Bool.false_ne_true
  refine ⟨{ diff with add := diff.add.insert outpoint entry }, ?_, ?_, ?_, ?_⟩
  · simp [UtxoDiff.addEntry, containsWithDaaScore, daaMatches, hr, hmem]
  · intro o
    by_cases ho : o = outpoint
    · subst ho
      simp [compose]
    · rw [Function.update_of_ne ho, ← h.compose_eq o]
      simp [compose, AList.lookup_insert_ne ho]
  · intro o e' he'
    have hne : o ≠ outpoint := fun ho => by rw [ho, hr] at he'; cases he'
    rw [Function.update_of_ne hne]
    exact h.remove_spec o e' he'
  · intro o e' he'
    by_cases ho : o = outpoint
    · subst ho
      exact hfresh
    · exact h.add_fresh o e' (by rwa [AList.lookup_insert_ne ho] at he')

theorem Tracks.foldlM_removeEntry (pairs : List (TransactionInput × UtxoEntry))
    (hnd : (pairs.map (·.1.previousOutpoint)).Nodup)
    (hlive : ∀ p ∈ pairs, view p.1.previousOutpoint = some p.2) (h : Tracks base diff view) :
    ∃ diff', pairs.foldlM (fun d input => d.removeEntry input.1.previousOutpoint input.2) diff =
      .ok diff' ∧ Tracks base diff' (spendAll view (pairs.map (·.1.previousOutpoint))) := by
  induction pairs generalizing diff view with
  | nil =>
    refine ⟨diff, rfl, ?_⟩
    have : spendAll view [] = view := by funext o; simp [spendAll]
    rwa [List.map_nil, this]
  | cons p rest ih =>
    obtain ⟨hp, hrest⟩ := List.nodup_cons.mp hnd
    obtain ⟨diff1, h1, htracks⟩ := h.removeEntry (hlive p List.mem_cons_self)
    have hlive' : ∀ q ∈ rest,
        Function.update view p.1.previousOutpoint none q.1.previousOutpoint = some q.2 := by
      intro q hq
      have hq' : q.1.previousOutpoint ∈ rest.map (·.1.previousOutpoint) := List.mem_map_of_mem hq
      have hp' : p.1.previousOutpoint ∉ rest.map (·.1.previousOutpoint) := hp
      have hne : q.1.previousOutpoint ≠ p.1.previousOutpoint := fun he => hp' (he ▸ hq')
      rw [Function.update_of_ne hne]
      exact hlive q (List.mem_cons_of_mem p hq)
    obtain ⟨diff', h', htracks'⟩ := ih hrest hlive' htracks
    refine ⟨diff', ?_, ?_⟩
    · rw [List.foldlM_cons, h1]
      exact h'
    · rwa [spendAll_update] at htracks'

/-- Creating entries at distinct outpoints that neither the view nor the base holds. -/
theorem Tracks.foldlM_addEntry (created : List (TransactionOutpoint × UtxoEntry))
    (hnd : (created.map Prod.fst).Nodup)
    (hdead : ∀ p ∈ created, view p.1 = none ∧ base p.1 = none) (h : Tracks base diff view) :
    ∃ diff', created.foldlM (fun d output => d.addEntry output.1 output.2) diff = .ok diff' ∧
      Tracks base diff' (createAll view created) := by
  induction created generalizing diff view with
  | nil =>
    refine ⟨diff, rfl, ?_⟩
    have : createAll view [] = view := by funext o; simp [createAll]
    rwa [this]
  | cons p rest ih =>
    obtain ⟨hp, hrest⟩ := List.nodup_cons.mp hnd
    obtain ⟨hview, hbase⟩ := hdead p List.mem_cons_self
    obtain ⟨diff1, h1, htracks⟩ : ∃ diff1, diff.addEntry p.1 p.2 = .ok diff1 ∧
        Tracks base diff1 (Function.update view p.1 (some p.2)) := h.addEntry hview hbase
    have hdead' : ∀ q ∈ rest,
        Function.update view p.1 (some p.2) q.1 = none ∧ base q.1 = none := by
      intro q hq
      have hq' : q.1 ∈ rest.map Prod.fst := List.mem_map_of_mem hq
      have hne : q.1 ≠ p.1 := fun he => hp (he ▸ hq')
      rw [Function.update_of_ne hne]
      exact hdead q (List.mem_cons_of_mem p hq)
    obtain ⟨diff', h', htracks'⟩ := ih hrest hdead' htracks
    refine ⟨diff', ?_, ?_⟩
    · rw [List.foldlM_cons, h1]
      exact h'
    · rwa [createAll_update view p.1 p.2 hp] at htracks'

/-- `add_transaction` of a transaction whose inputs are live with the entries it was populated
with, at distinct outpoints, and whose outputs are at distinct outpoints that neither the view
nor the base holds: it succeeds, and the diff then tracks the view with the transaction applied. -/
theorem Tracks.addTransaction (h : Tracks base diff view) (vtx : ValidatedTransaction)
    (blockDaaScore : UInt64) (hspent : vtx.tx.spentOutpoints.Nodup)
    (hlive : ∀ p ∈ vtx.populatedInputs, view p.1.previousOutpoint = some p.2)
    (hcreated : vtx.tx.createdOutpoints.Nodup)
    (hdead : ∀ o ∈ vtx.tx.createdOutpoints, view o = none ∧ base o = none) :
    ∃ diff', diff.addTransaction vtx blockDaaScore = .ok diff' ∧
      Tracks base diff' (applyTransaction view blockDaaScore vtx.tx) := by
  obtain ⟨diff1, h1, htracks1⟩ := h.foldlM_removeEntry vtx.populatedInputs
    (by rwa [map_fst_populatedInputs]) hlive
  rw [map_fst_populatedInputs] at htracks1
  have hdead' : ∀ p ∈ vtx.tx.createdEntries blockDaaScore,
      spendAll view vtx.tx.spentOutpoints p.1 = none ∧ base p.1 = none := by
    intro p hp
    have hmem : p.1 ∈ vtx.tx.createdOutpoints := by
      rw [← map_fst_createdEntries]
      exact List.mem_map_of_mem hp
    obtain ⟨hv, hb⟩ := hdead p.1 hmem
    exact ⟨by simp [spendAll, hv], hb⟩
  obtain ⟨diff', h', htracks'⟩ := htracks1.foldlM_addEntry (vtx.tx.createdEntries blockDaaScore)
    (by rwa [map_fst_createdEntries]) hdead'
  refine ⟨diff', ?_, htracks'⟩
  unfold UtxoDiff.addTransaction
  rw [h1]
  exact h'

end UtxoDiff

end Vecno
