import Mathlib.Data.List.AList
import Mathlib.Data.List.Nodup
import Mathlib.Algebra.Order.BigOperators.Group.List
import Mathlib.Algebra.Order.Group.Nat
import Vecno.Lib.Checked
import Vecno.Lib.AListFold
import Vecno.Consensus.Tx

/-!
# The sequence selector and the selection loop of block templates

`SequenceSelector` takes each transaction that still fits the mass limit; `build_block_template`
rejects the invalid ones and asks again. No transaction is offered twice.
-/

namespace Vecno.Mining

structure SequenceSelectorTransaction where
  tx : Transaction
  mass : UInt64

/-- `SequenceSelectorInput`: the map from priority index to transaction, in key order. -/
structure SequenceSelectorInput where
  inner : List (UInt32 × SequenceSelectorTransaction)
  sorted : inner.Pairwise fun a b => a.1 < b.1

/-- `BTreeMap::remove` on the input. -/
def SequenceSelectorInput.remove (input : SequenceSelectorInput) (key : UInt32) : SequenceSelectorInput :=
  ⟨input.inner.filter fun entry => entry.1 != key, input.sorted.sublist List.filter_sublist⟩

structure SequenceSelectorSelection where
  txId : TransactionId
  mass : UInt64
  priorityIndex : UInt32

/-- `Policy`, with the only field the selector reads. -/
structure Policy where
  maxBlockMass : UInt64

structure SequenceSelector where
  inputSequence : SequenceSelectorInput
  selectedVec : List SequenceSelectorSelection
  selectedMap : Option (AList fun _ : TransactionId => UInt64)
  totalSelectedMass : Nat
  overallCandidates : Nat
  overallRejections : Nat
  policy : Policy

namespace SequenceSelector

def new (inputSequence : SequenceSelectorInput) (policy : Policy) : SequenceSelector :=
  ⟨inputSequence, [], none, 0, inputSequence.inner.length, 0, policy⟩

/-- The selection `select_transactions` records for an entry of the input. -/
def selection (entry : UInt32 × SequenceSelectorTransaction) : SequenceSelectorSelection :=
  ⟨entry.2.tx.id, entry.2.mass, entry.1⟩

/-- One pass of the loop of `select_transactions`: an entry that would take the total past the
limit is skipped, the others are taken. -/
def selectStep (acc : SequenceSelector × List Transaction) (entry : UInt32 × SequenceSelectorTransaction) :
    Except String (SequenceSelector × List Transaction) :=
  if Checked.saturatingAdd 64 acc.1.totalSelectedMass entry.2.mass.toNat > acc.1.policy.maxBlockMass.toNat then
    .ok acc
  else do
    let total ← Checked.add 64 acc.1.totalSelectedMass entry.2.mass.toNat
    .ok ({ acc.1 with totalSelectedMass := total, selectedVec := acc.1.selectedVec ++ [selection entry] },
      acc.2 ++ [entry.2.tx])

/-- `select_transactions`: the last round's selections leave the input, then the input is tried
in order. -/
def selectTransactions (s : SequenceSelector) : Except String (SequenceSelector × List Transaction) :=
  let inputSequence := s.selectedVec.foldl (fun input selection => input.remove selection.priorityIndex)
    s.inputSequence
  let s := { s with inputSequence, selectedVec := [], selectedMap := none }
  s.inputSequence.inner.foldlM selectStep (s, [])

/-- The message of the `expect` in `reject_selection`. -/
def rejectSelectionMessage : String :=
  "only previously selected txs can be rejected (and only once)"

/-- The map from the round's selected ids to their masses, as `reject_selection` builds it. -/
def collectSelected (selectedVec : List SequenceSelectorSelection) : AList fun _ : TransactionId => UInt64 :=
  AList.insertAll ∅ (selectedVec.map fun tx => (tx.txId, tx.mass))

def rejectSelection (s : SequenceSelector) (txId : TransactionId) : Except String SequenceSelector := do
  let selectedMap := s.selectedMap.getD (collectSelected s.selectedVec)
  let mass ← Checked.expect rejectSelectionMessage (selectedMap.lookup txId)
  let totalSelectedMass ← Checked.sub s.totalSelectedMass mass.toNat
  let overallRejections ← Checked.add 64 s.overallRejections 1
  .ok { s with selectedMap := some (selectedMap.erase txId), totalSelectedMass, overallRejections }

end SequenceSelector

open SequenceSelector

/-- What the selection loop reports when its bound on rounds runs out. -/
def outOfFuel : String := "out of fuel"

/-- One pass of the validation loop of `build_block_template`: a transaction the validation refuses
is rejected, and the round notes that it had a rejection. -/
def rejectStep (invalid : Transaction → Bool) (acc : SequenceSelector × Bool) (tx : Transaction) :
    Except String (SequenceSelector × Bool) :=
  if invalid tx then do
    let s ← rejectSelection acc.1 tx.id
    .ok (s, true)
  else .ok acc

/-- The rejections of one round of `build_block_template`, in the batch's order. -/
def rejectInvalid (invalid : Transaction → Bool) (s : SequenceSelector) (batch : List Transaction) :
    Except String (SequenceSelector × Bool) :=
  batch.foldlM (rejectStep invalid) (s, false)

/-- The selection loop of `build_block_template`, with a bound on its rounds: a round selects a
batch and rejects what `invalid` refuses in it, and another round follows while a round had
rejections. The validation of round `round` is `invalid round`. The batches are returned in order. -/
def selectionLoop (invalid : Nat → Transaction → Bool) :
    Nat → Nat → SequenceSelector → List (List Transaction) →
      Except String (SequenceSelector × List (List Transaction))
  | 0, _, _, _ => .error outOfFuel
  | fuel + 1, round, s, batches => do
    let (s, batch) ← selectTransactions s
    let (s, hasRejections) ← rejectInvalid (invalid round) s batch
    if hasRejections then selectionLoop invalid fuel (round + 1) s (batches ++ [batch])
    else .ok (s, batches ++ [batch])

/-- The selection loop from a new selector, with a round for each input transaction and one more. -/
def buildBlockTemplateSelection (invalid : Nat → Transaction → Bool) (input : SequenceSelectorInput)
    (policy : Policy) : Except String (SequenceSelector × List (List Transaction)) :=
  selectionLoop invalid (input.inner.length + 1) 0 (SequenceSelector.new input policy) []

/-! ## One round of selection -/

namespace SequenceSelector

/-- The selector after it takes `chosen`: their masses join the total and their selections the
round's. -/
def take (s : SequenceSelector) (chosen : List (UInt32 × SequenceSelectorTransaction)) : SequenceSelector :=
  { s with totalSelectedMass := s.totalSelectedMass + (chosen.map fun e => e.2.mass.toNat).sum,
           selectedVec := s.selectedVec ++ chosen.map selection }

theorem take_nil (s : SequenceSelector) : s.take [] = s := by
  cases s
  simp [take]

theorem take_cons (s : SequenceSelector) (e : UInt32 × SequenceSelectorTransaction) (chosen) :
    s.take (e :: chosen) = (s.take [e]).take chosen := by
  simp [take, Nat.add_assoc]

theorem inner_remove (input : SequenceSelectorInput) (key : UInt32) :
    (input.remove key).inner = input.inner.filter fun entry => entry.1 != key :=
  rfl

/-- Removing the keys of a list of selections keeps the entries with other keys. -/
theorem inner_foldl_remove (sels : List SequenceSelectorSelection) (input : SequenceSelectorInput) :
    (sels.foldl (fun input selection => input.remove selection.priorityIndex) input).inner =
      input.inner.filter fun entry => entry.1 ∉ sels.map (·.priorityIndex) := by
  induction sels generalizing input with
  | nil => simp
  | cons sel sels ih =>
    rw [List.foldl_cons, ih, inner_remove, List.filter_filter]
    congr 1
    funext entry
    by_cases hkey : entry.1 = sel.priorityIndex <;> simp [hkey]

variable {s : SequenceSelector} {txs : List Transaction} {entry : UInt32 × SequenceSelectorTransaction}

/-- Below the largest `u64`, the saturating sum exceeds the limit exactly when the sum does. -/
theorem saturatingAdd_gt_iff {a b max : Nat} (hmax : max < 2 ^ 64 - 1) :
    Checked.saturatingAdd 64 a b > max ↔ a + b > max := by
  unfold Checked.saturatingAdd
  omega

theorem selectStep_of_gt (hmax : s.policy.maxBlockMass.toNat < 2 ^ 64 - 1)
    (h : s.policy.maxBlockMass.toNat < s.totalSelectedMass + entry.2.mass.toNat) :
    selectStep (s, txs) entry = .ok (s, txs) := by
  rw [selectStep, if_pos ((saturatingAdd_gt_iff hmax).mpr h)]

theorem selectStep_of_le (hmax : s.policy.maxBlockMass.toNat < 2 ^ 64 - 1)
    (h : s.totalSelectedMass + entry.2.mass.toNat ≤ s.policy.maxBlockMass.toNat) :
    selectStep (s, txs) entry = .ok (s.take [entry], txs ++ [entry.2.tx]) := by
  rw [selectStep]
  dsimp only
  rw [if_neg (fun hgt => by rw [saturatingAdd_gt_iff hmax] at hgt; omega), Checked.add_of_lt (by omega),
    Except.ok_bind]
  simp [take]

/-- A pass over `entries` takes a sublist of them and keeps the total under the limit. -/
theorem foldlM_selectStep :
    ∀ (entries : List (UInt32 × SequenceSelectorTransaction)) (s : SequenceSelector) (txs : List Transaction),
      s.policy.maxBlockMass.toNat < 2 ^ 64 - 1 → s.totalSelectedMass ≤ s.policy.maxBlockMass.toNat →
      ∃ chosen, chosen.Sublist entries ∧
        entries.foldlM selectStep (s, txs) = .ok (s.take chosen, txs ++ chosen.map (·.2.tx)) ∧
        (s.take chosen).totalSelectedMass ≤ s.policy.maxBlockMass.toNat := by
  intro entries
  induction entries with
  | nil =>
    intro s txs _ hle
    exact ⟨[], List.Sublist.slnil, by rw [take_nil, List.map_nil, List.append_nil]; rfl, by rwa [take_nil]⟩
  | cons e entries ih =>
    intro s txs hmax hle
    rcases Nat.lt_or_ge s.policy.maxBlockMass.toNat (s.totalSelectedMass + e.2.mass.toNat) with hgt | hfit
    · -- the entry does not fit and is skipped
      obtain ⟨chosen, hsub, hrun, hbound⟩ := ih s txs hmax hle
      refine ⟨chosen, hsub.cons e, ?_, hbound⟩
      rw [List.foldlM_cons, selectStep_of_gt hmax hgt, Except.ok_bind, hrun]
    · -- the entry fits and is taken
      have htake : (s.take [e]).totalSelectedMass = s.totalSelectedMass + e.2.mass.toNat := by
        simp [take]
      obtain ⟨chosen, hsub, hrun, hbound⟩ := ih (s.take [e]) (txs ++ [e.2.tx]) hmax (by rw [htake]; exact hfit)
      refine ⟨e :: chosen, hsub.cons_cons e, ?_, ?_⟩
      · rw [List.foldlM_cons, selectStep_of_le hmax hfit, Except.ok_bind, hrun, take_cons s e chosen,
          List.map_cons, List.append_assoc, List.singleton_append]
      · rw [take_cons s e chosen]
        exact hbound

/-- The selector at the start of a round: the last round's selections removed from the input and
forgotten. -/
def startRound (s : SequenceSelector) : SequenceSelector :=
  let inputSequence := s.selectedVec.foldl (fun input selection => input.remove selection.priorityIndex)
    s.inputSequence
  { s with inputSequence, selectedVec := [], selectedMap := none }

theorem selectTransactions_eq (s : SequenceSelector) :
    selectTransactions s = (startRound s).inputSequence.inner.foldlM selectStep (startRound s, []) :=
  rfl

/-- The entries a round can offer: those of the input that the last round did not select. -/
def remaining (s : SequenceSelector) : List (UInt32 × SequenceSelectorTransaction) :=
  s.inputSequence.inner.filter fun entry => entry.1 ∉ s.selectedVec.map (·.priorityIndex)

theorem inner_startRound (s : SequenceSelector) : (startRound s).inputSequence.inner = remaining s :=
  inner_foldl_remove _ _

/-- A round takes a sublist of the remaining entries and keeps the total under the limit. -/
theorem selectTransactions_spec (hmax : s.policy.maxBlockMass.toNat < 2 ^ 64 - 1)
    (hle : s.totalSelectedMass ≤ s.policy.maxBlockMass.toNat) :
    ∃ chosen, chosen.Sublist (remaining s) ∧
      selectTransactions s = .ok ((startRound s).take chosen, chosen.map (·.2.tx)) ∧
      s.totalSelectedMass + (chosen.map fun e => e.2.mass.toNat).sum ≤ s.policy.maxBlockMass.toNat := by
  obtain ⟨chosen, hsub, hrun, hbound⟩ :=
    foldlM_selectStep (startRound s).inputSequence.inner (startRound s) [] hmax hle
  rw [inner_startRound] at hsub
  refine ⟨chosen, hsub, ?_, hbound⟩
  rw [selectTransactions_eq, hrun, List.nil_append]

@[simp] theorem take_policy (s : SequenceSelector) (chosen) : (s.take chosen).policy = s.policy := rfl
@[simp] theorem take_inputSequence (s : SequenceSelector) (chosen) :
    (s.take chosen).inputSequence = s.inputSequence := rfl
@[simp] theorem take_selectedMap (s : SequenceSelector) (chosen) : (s.take chosen).selectedMap = s.selectedMap :=
  rfl
@[simp] theorem take_overallRejections (s : SequenceSelector) (chosen) :
    (s.take chosen).overallRejections = s.overallRejections := rfl
@[simp] theorem take_totalSelectedMass (s : SequenceSelector) (chosen) :
    (s.take chosen).totalSelectedMass = s.totalSelectedMass + (chosen.map fun e => e.2.mass.toNat).sum := rfl
@[simp] theorem take_selectedVec (s : SequenceSelector) (chosen) :
    (s.take chosen).selectedVec = s.selectedVec ++ chosen.map selection := rfl
@[simp] theorem startRound_policy (s : SequenceSelector) : (startRound s).policy = s.policy := rfl
@[simp] theorem startRound_selectedVec (s : SequenceSelector) : (startRound s).selectedVec = [] := rfl
@[simp] theorem startRound_selectedMap (s : SequenceSelector) : (startRound s).selectedMap = none := rfl
@[simp] theorem startRound_totalSelectedMass (s : SequenceSelector) :
    (startRound s).totalSelectedMass = s.totalSelectedMass := rfl
@[simp] theorem startRound_overallRejections (s : SequenceSelector) :
    (startRound s).overallRejections = s.overallRejections := rfl
@[simp] theorem selection_txId (e : UInt32 × SequenceSelectorTransaction) : (selection e).txId = e.2.tx.id := rfl
@[simp] theorem selection_mass (e : UInt32 × SequenceSelectorTransaction) : (selection e).mass = e.2.mass := rfl
@[simp] theorem selection_priorityIndex (e : UInt32 × SequenceSelectorTransaction) :
    (selection e).priorityIndex = e.1 := rfl

/-! ## Rejections -/

/-- A rejection of a transaction the round's map holds, when the total covers its mass. -/
theorem rejectSelection_of_lookup {txId : TransactionId} {mass : UInt64}
    (hlookup : (s.selectedMap.getD (collectSelected s.selectedVec)).lookup txId = some mass)
    (hmass : mass.toNat ≤ s.totalSelectedMass) (hcount : s.overallRejections + 1 < 2 ^ 64) :
    rejectSelection s txId = .ok { s with
      selectedMap := some ((s.selectedMap.getD (collectSelected s.selectedVec)).erase txId),
      totalSelectedMass := s.totalSelectedMass - mass.toNat,
      overallRejections := s.overallRejections + 1 } := by
  rw [rejectSelection]
  simp only [hlookup, Checked.expect, Except.ok_bind, Checked.sub_of_le hmass, Checked.add_of_lt hcount]

/-! ## The selection protocol

The selector is driven by rounds: a round is one `select_transactions` and then rejections of
transactions of that round, each at most once. Along any such run the selector keeps
`SelectorInv`, with the selections of each round and the ids rejected so far as ghost state. -/

/-- The priority indices of an input are distinct `u32`s, so it has at most `2 ^ 32` entries. -/
theorem length_inner_le (input : SequenceSelectorInput) : input.inner.length ≤ 2 ^ 32 := by
  have hkeys : (input.inner.map fun e => e.1.toNat).Nodup :=
    List.pairwise_map.mpr (input.sorted.imp fun h => by rw [UInt32.lt_iff_toNat_lt] at h; omega)
  have hsub : (input.inner.map fun e => e.1.toNat) ⊆ List.range (2 ^ 32) := fun x hx => by
    obtain ⟨e, -, rfl⟩ := List.mem_map.mp hx
    exact List.mem_range.mpr e.1.toNat_lt
  have := hkeys.length_le_of_subset hsub
  rwa [List.length_map, List.length_range] at this

theorem flatten_eq_dropLast_append {α : Type} (bs : List (List α)) :
    bs.flatten = bs.dropLast.flatten ++ bs.getLastD [] := by
  rcases List.eq_nil_or_concat bs with rfl | ⟨L, b, rfl⟩
  · rfl
  · simp

/-- Rejecting one more id of a list with distinct ids takes its mass off the unrejected sum. -/
theorem sum_filter_not_mem_append {rs : List TransactionId} :
    ∀ {L : List SequenceSelectorSelection}, (L.map (·.txId)).Nodup → ∀ {sel}, sel ∈ L → sel.txId ∉ rs →
      ((L.filter fun x => x.txId ∉ rs).map fun x => x.mass.toNat).sum =
        ((L.filter fun x => x.txId ∉ rs ++ [sel.txId]).map fun x => x.mass.toNat).sum + sel.mass.toNat
  | [], _, _, hsel, _ => absurd hsel List.not_mem_nil
  | x :: L, hL, sel, hsel, hnot => by
    rw [List.map_cons, List.nodup_cons] at hL
    rcases List.mem_cons.mp hsel with rfl | hsel
    · -- the rejected one: no other entry has its id
      have hsame : (L.filter fun x => x.txId ∉ rs ++ [sel.txId]) = L.filter fun x => x.txId ∉ rs := by
        apply List.filter_congr
        intro y hy
        have hne : y.txId ≠ sel.txId := fun he => hL.1 (he ▸ List.mem_map_of_mem hy)
        simp [hne]
      rw [List.filter_cons_of_pos (by simpa using hnot), List.filter_cons_of_neg (by simp), hsame,
        List.map_cons, List.sum_cons, Nat.add_comm]
    · have hne : x.txId ≠ sel.txId := fun he => hL.1 (he ▸ List.mem_map_of_mem hsel)
      have ih := sum_filter_not_mem_append hL.2 hsel hnot
      by_cases hx : x.txId ∈ rs
      · rw [List.filter_cons_of_neg (by simpa using hx), List.filter_cons_of_neg (by simp [hx]), ih]
      · rw [List.filter_cons_of_pos (by simpa using hx), List.filter_cons_of_pos (by simp [hx, hne]),
          List.map_cons, List.map_cons, List.sum_cons, List.sum_cons, ih]
        omega

section Protocol

variable (input : SequenceSelectorInput) (policy : Policy)

/-- What holds along the selection protocol. `batches` are the selections of the rounds so far,
the last one the current round's; `rejected` are the ids rejected so far. -/
structure SelectorInv (s : SequenceSelector) (batches : List (List SequenceSelectorSelection))
    (rejected : List TransactionId) : Prop where
  policy_eq : s.policy = policy
  sublist : s.inputSequence.inner.Sublist input.inner
  from_input : ∀ sel ∈ batches.flatten, ∃ e ∈ input.inner, selection e = sel
  removed : ∀ sel ∈ batches.dropLast.flatten, ∀ e ∈ s.inputSequence.inner, e.1 ≠ sel.priorityIndex
  current : s.selectedVec = batches.getLastD []
  nodup : (batches.flatten.map (·.txId)).Nodup
  rejected_nodup : rejected.Nodup
  rejected_mem : ∀ txId ∈ rejected, txId ∈ batches.flatten.map (·.txId)
  total_eq : s.totalSelectedMass =
    ((batches.flatten.filter fun sel => sel.txId ∉ rejected).map fun sel => sel.mass.toNat).sum
  total_le : s.totalSelectedMass ≤ policy.maxBlockMass.toNat
  map_matches : ∀ txId mass, (s.selectedMap.getD (collectSelected s.selectedVec)).lookup txId = some mass ↔
    ∃ sel ∈ s.selectedVec, sel.txId = txId ∧ sel.mass = mass ∧ txId ∉ rejected
  rejections_eq : s.overallRejections = rejected.length

/-- The states of the selector along the protocol, with the rounds' selections and the ids
rejected so far: a round may reject a transaction of its own batch, once. -/
inductive Reachable : SequenceSelector → List (List SequenceSelectorSelection) → List TransactionId → Prop
  | new : Reachable (SequenceSelector.new input policy) [] []
  | select {s bs rs s' batch} : Reachable s bs rs → selectTransactions s = .ok (s', batch) →
      Reachable s' (bs ++ [s'.selectedVec]) rs
  | reject {s bs rs s' txId} : Reachable s bs rs → txId ∈ s.selectedVec.map (·.txId) → txId ∉ rs →
      rejectSelection s txId = .ok s' → Reachable s' bs (rs ++ [txId])

variable {input policy} {bs : List (List SequenceSelectorSelection)} {rs : List TransactionId}

theorem selectorInv_new : SelectorInv input policy (SequenceSelector.new input policy) [] [] where
  policy_eq := rfl
  sublist := List.Sublist.refl _
  from_input := by simp
  removed := by simp
  current := rfl
  nodup := List.nodup_nil
  rejected_nodup := List.nodup_nil
  rejected_mem := by simp
  total_eq := rfl
  total_le := Nat.zero_le _
  map_matches := by simp [SequenceSelector.new, collectSelected, AList.insertAll]
  rejections_eq := rfl

/-- Entries of the input with different priority indices are different transactions. -/
theorem id_ne_of_key_ne (hids : (input.inner.map fun e => e.2.tx.id).Nodup)
    {e e' : UInt32 × SequenceSelectorTransaction} (he : e ∈ input.inner) (he' : e' ∈ input.inner)
    (hkey : e.1 ≠ e'.1) : e.2.tx.id ≠ e'.2.tx.id :=
  fun hid => hkey (congrArg Prod.fst (List.inj_on_of_nodup_map hids he he' hid))

theorem SelectorInv.remaining_fresh (hinv : SelectorInv input policy s bs rs) :
    ∀ e ∈ remaining s, ∀ sel ∈ bs.flatten, e.1 ≠ sel.priorityIndex := by
  intro e he sel hsel
  rw [remaining, List.mem_filter] at he
  rw [flatten_eq_dropLast_append, List.mem_append] at hsel
  rcases hsel with hsel | hsel
  · exact hinv.removed sel hsel e he.1
  · rw [← hinv.current] at hsel
    intro hkey
    have : e.1 ∈ s.selectedVec.map (·.priorityIndex) := hkey ▸ List.mem_map_of_mem hsel
    simp [this] at he

theorem SelectorInv.remaining_id_fresh (hids : (input.inner.map fun e => e.2.tx.id).Nodup)
    (hinv : SelectorInv input policy s bs rs) :
    ∀ e ∈ remaining s, e.2.tx.id ∉ bs.flatten.map (·.txId) := by
  intro e he hmem
  obtain ⟨sel, hsel, hid⟩ := List.mem_map.mp hmem
  obtain ⟨e', he', rfl⟩ := hinv.from_input sel hsel
  have hein : e ∈ input.inner := (hinv.sublist.subset (List.mem_filter.mp he).1)
  exact id_ne_of_key_ne hids hein he' (hinv.remaining_fresh e he _ hsel) hid.symm

/-- A round keeps the invariant: what it takes is fresh, fits, and is now the current round. -/
theorem SelectorInv.select (hids : (input.inner.map fun e => e.2.tx.id).Nodup)
    (hinv : SelectorInv input policy s bs rs) {chosen : List (UInt32 × SequenceSelectorTransaction)}
    (hsub : chosen.Sublist (remaining s))
    (hbound : s.totalSelectedMass + (chosen.map fun e => e.2.mass.toNat).sum ≤ s.policy.maxBlockMass.toNat) :
    SelectorInv input policy ((startRound s).take chosen) (bs ++ [chosen.map selection]) rs := by
  have hsubInput : chosen.Sublist input.inner := hsub.trans (List.filter_sublist.trans hinv.sublist)
  have hfresh : ∀ e ∈ chosen, e.2.tx.id ∉ bs.flatten.map (·.txId) :=
    fun e he => hinv.remaining_id_fresh hids e (hsub.subset he)
  have hchosenIds : ((chosen.map selection).map (·.txId)) = chosen.map fun e => e.2.tx.id := by
    rw [List.map_map]
    rfl
  have hnotRejected : ∀ sel ∈ chosen.map selection, sel.txId ∉ rs := by
    intro sel hsel hrej
    obtain ⟨e, he, rfl⟩ := List.mem_map.mp hsel
    exact hfresh e he (hinv.rejected_mem _ hrej)
  constructor
  · simp [hinv.policy_eq]
  · rw [take_inputSequence, inner_startRound]
    exact List.filter_sublist.trans hinv.sublist
  · intro sel hsel
    rw [List.flatten_append, List.flatten_singleton, List.mem_append] at hsel
    rcases hsel with hsel | hsel
    · exact hinv.from_input sel hsel
    · obtain ⟨e, he, rfl⟩ := List.mem_map.mp hsel
      exact ⟨e, hsubInput.subset he, rfl⟩
  · rw [List.dropLast_concat, take_inputSequence, inner_startRound]
    exact fun sel hsel e he => hinv.remaining_fresh e he sel hsel
  · simp
  · rw [List.flatten_append, List.flatten_singleton, List.map_append, List.nodup_append, hchosenIds]
    refine ⟨hinv.nodup, hids.sublist (hsubInput.map _), ?_⟩
    intro a ha b hb hab
    obtain ⟨e, he, rfl⟩ := List.mem_map.mp hb
    exact hfresh e he (hab ▸ ha)
  · exact hinv.rejected_nodup
  · intro txId hrej
    rw [List.flatten_append, List.map_append]
    exact List.mem_append_left _ (hinv.rejected_mem txId hrej)
  · have hkeep : (chosen.map selection).filter (fun sel => decide (sel.txId ∉ rs)) = chosen.map selection :=
      List.filter_eq_self.mpr (by simpa using hnotRejected)
    rw [take_totalSelectedMass, startRound_totalSelectedMass, hinv.total_eq, List.flatten_append,
      List.flatten_singleton, List.filter_append, hkeep, List.map_append, List.sum_append, List.map_map]
    rfl
  · rw [← hinv.policy_eq]
    exact hbound
  · intro txId mass
    have hkeys : (((chosen.map selection).map fun tx => (tx.txId, tx.mass)).map Prod.fst).Nodup := by
      rw [List.map_map]
      exact hchosenIds ▸ hids.sublist (hsubInput.map _)
    simp only [take_selectedMap, startRound_selectedMap, Option.getD_none, take_selectedVec,
      startRound_selectedVec, List.nil_append, collectSelected]
    rw [AList.lookup_insertAll hkeys, AList.lookup_empty]
    simp only [reduceCtorEq, and_false, or_false]
    constructor
    · intro hmem
      obtain ⟨sel, hsel, hpair⟩ := List.mem_map.mp hmem
      obtain ⟨rfl, rfl⟩ := Prod.mk.inj hpair
      exact ⟨sel, hsel, rfl, rfl, hnotRejected sel hsel⟩
    · rintro ⟨sel, hsel, rfl, rfl, -⟩
      exact List.mem_map_of_mem hsel
  · exact hinv.rejections_eq

/-- The selections so far are distinct transactions of the input, so there are no more of them
than the input has entries. -/
theorem SelectorInv.length_flatten_le (hinv : SelectorInv input policy s bs rs) :
    bs.flatten.length ≤ input.inner.length := by
  have hsub : bs.flatten.map (·.txId) ⊆ input.inner.map fun e => e.2.tx.id := by
    intro txId hmem
    obtain ⟨sel, hsel, rfl⟩ := List.mem_map.mp hmem
    obtain ⟨e, he, rfl⟩ := hinv.from_input sel hsel
    exact List.mem_map_of_mem he
  have := hinv.nodup.length_le_of_subset hsub
  rwa [List.length_map, List.length_map] at this

/-- Rejecting a transaction of the current round that was not rejected yet succeeds: the round's
map holds it, the total covers its mass, and the count of rejections cannot overflow. It keeps
the invariant. -/
theorem SelectorInv.reject (hinv : SelectorInv input policy s bs rs) {txId : TransactionId}
    (hmem : txId ∈ s.selectedVec.map (·.txId)) (hnot : txId ∉ rs) :
    ∃ s', rejectSelection s txId = .ok s' ∧ SelectorInv input policy s' bs (rs ++ [txId]) ∧
      s'.selectedVec = s.selectedVec ∧ s'.inputSequence = s.inputSequence := by
  obtain ⟨sel, hsel, rfl⟩ := List.mem_map.mp hmem
  have hlookup := (hinv.map_matches sel.txId sel.mass).mpr ⟨sel, hsel, rfl, rfl, hnot⟩
  have hselFlat : sel ∈ bs.flatten := by
    rw [flatten_eq_dropLast_append, ← hinv.current]
    exact List.mem_append_right _ hsel
  have hmass : sel.mass.toNat ≤ s.totalSelectedMass := by
    rw [hinv.total_eq]
    apply List.le_sum_of_mem
    exact List.mem_map_of_mem (List.mem_filter.mpr ⟨hselFlat, by simpa using hnot⟩)
  have hcount : s.overallRejections + 1 < 2 ^ 64 := by
    have hrej := hinv.rejected_nodup.length_le_of_subset hinv.rejected_mem
    rw [List.length_map] at hrej
    have := hinv.length_flatten_le
    have := length_inner_le input
    rw [hinv.rejections_eq]
    omega
  refine ⟨_, rejectSelection_of_lookup hlookup hmass hcount, ?_, rfl, rfl⟩
  constructor
  · exact hinv.policy_eq
  · exact hinv.sublist
  · exact hinv.from_input
  · exact hinv.removed
  · exact hinv.current
  · exact hinv.nodup
  · refine List.nodup_append.mpr ⟨hinv.rejected_nodup, List.nodup_singleton _, ?_⟩
    intro a ha b hb hab
    rw [List.mem_singleton] at hb
    exact hnot (hb ▸ hab ▸ ha)
  · intro txId hrej
    rcases List.mem_append.mp hrej with hrej | hrej
    · exact hinv.rejected_mem txId hrej
    · rw [List.mem_singleton.mp hrej]
      exact List.mem_map_of_mem hselFlat
  · dsimp only
    rw [hinv.total_eq, sum_filter_not_mem_append hinv.nodup hselFlat hnot, Nat.add_sub_cancel]
  · exact (Nat.sub_le _ _).trans hinv.total_le
  · intro txId mass
    dsimp only
    rw [Option.getD_some]
    by_cases htx : txId = sel.txId
    · subst htx
      rw [AList.lookup_erase]
      simp
    · rw [AList.lookup_erase_ne htx, hinv.map_matches]
      simp [htx]
  · dsimp only
    rw [hinv.rejections_eq, List.length_append, List.length_singleton]

theorem Reachable.inv (hids : (input.inner.map fun e => e.2.tx.id).Nodup)
    (hmax : policy.maxBlockMass.toNat < 2 ^ 64 - 1) (h : Reachable input policy s bs rs) :
    SelectorInv input policy s bs rs := by
  induction h with
  | new => exact selectorInv_new
  | select _ hsel ih =>
    have hpol := ih.policy_eq
    obtain ⟨chosen, hsub, hrun, hbound⟩ :=
      selectTransactions_spec (by rw [hpol]; exact hmax) (by rw [hpol]; exact ih.total_le)
    rw [hrun] at hsel
    obtain ⟨rfl, -⟩ := Prod.mk.inj (Except.ok.inj hsel)
    simpa using ih.select hids hsub hbound
  | reject _ hmem hnot hrej ih =>
    obtain ⟨s', hrej', hinv', -, -⟩ := ih.reject hmem hnot
    rw [hrej'] at hrej
    cases hrej
    exact hinv'

end Protocol

end SequenceSelector

/-! ## The loop of `build_block_template` -/

section Loop

open SequenceSelector

variable {input : SequenceSelectorInput} {policy : Policy}

/-- The validation of a fresh batch rejects each refused transaction once, and stays on the
protocol. -/
theorem foldlM_rejectStep (hids : (input.inner.map fun e => e.2.tx.id).Nodup)
    (hmax : policy.maxBlockMass.toNat < 2 ^ 64 - 1) (invalid : Transaction → Bool) :
    ∀ (L : List Transaction) (s : SequenceSelector) (bs : List (List SequenceSelectorSelection))
      (rs : List TransactionId) (flag : Bool), Reachable input policy s bs rs →
      (L.map Transaction.id).Nodup → (∀ tx ∈ L, tx.id ∈ s.selectedVec.map (·.txId)) → (∀ tx ∈ L, tx.id ∉ rs) →
      ∃ s' rs', L.foldlM (rejectStep invalid) (s, flag) = .ok (s', flag || L.any invalid) ∧
        Reachable input policy s' bs rs' ∧ s'.selectedVec = s.selectedVec ∧ s'.inputSequence = s.inputSequence := by
  intro L
  induction L with
  | nil =>
    intro s bs rs flag hreach _ _ _
    exact ⟨s, rs, by rw [List.any_nil, Bool.or_false]; rfl, hreach, rfl, rfl⟩
  | cons tx L ih =>
    intro s bs rs flag hreach hnodup hmem hnot
    rw [List.map_cons, List.nodup_cons] at hnodup
    by_cases hinv : invalid tx
    · -- a refused transaction is rejected, which the protocol allows once
      obtain ⟨s1, hrej, -, hsv, hin⟩ := (hreach.inv hids hmax).reject (hmem tx List.mem_cons_self)
        (hnot tx List.mem_cons_self)
      have hreach1 := hreach.reject (hmem tx List.mem_cons_self) (hnot tx List.mem_cons_self) hrej
      obtain ⟨s', rs', hrun, hreach', hsv', hin'⟩ := ih s1 bs (rs ++ [tx.id]) true hreach1 hnodup.2
        (fun tx' h => hsv ▸ hmem tx' (List.mem_cons_of_mem _ h))
        (fun tx' h hrs => by
          rcases List.mem_append.mp hrs with hrs | hrs
          · exact hnot tx' (List.mem_cons_of_mem _ h) hrs
          · rw [List.mem_singleton] at hrs
            exact hnodup.1 (hrs ▸ List.mem_map_of_mem h))
      refine ⟨s', rs', ?_, hreach', hsv'.trans hsv, hin'.trans hin⟩
      rw [List.foldlM_cons, rejectStep, if_pos hinv]
      simp only [hrej, Except.ok_bind, hrun, List.any_cons, hinv, Bool.true_or, Bool.or_true]
    · obtain ⟨s', rs', hrun, hreach', hsv', hin'⟩ := ih s bs rs flag hreach hnodup.2
        (fun tx' h => hmem tx' (List.mem_cons_of_mem _ h)) (fun tx' h => hnot tx' (List.mem_cons_of_mem _ h))
      refine ⟨s', rs', ?_, hreach', hsv', hin'⟩
      rw [List.foldlM_cons, rejectStep, if_neg hinv, Except.ok_bind, hrun]
      simp [hinv]

/-- A round that had a rejection had a batch, which leaves the input at the next round. -/
theorem length_remaining_lt {chosen : List (UInt32 × SequenceSelectorTransaction)} {R : List (UInt32 × SequenceSelectorTransaction)}
    (hsub : chosen.Sublist R) (hne : chosen ≠ []) :
    (R.filter fun entry => entry.1 ∉ (chosen.map selection).map (·.priorityIndex)).length < R.length := by
  obtain ⟨e, he⟩ := List.exists_mem_of_ne_nil chosen hne
  apply List.length_filter_lt_length_iff_exists.mpr
  refine ⟨e, hsub.subset he, ?_⟩
  simp only [decide_not, Bool.not_eq_eq_eq_not, Bool.not_true, decide_eq_false_iff_not, not_not]
  exact List.mem_map_of_mem (List.mem_map_of_mem he)

/-- The loop runs round after round on the protocol while the input shrinks: enough rounds for
what is left of the input end it. -/
theorem selectionLoop_spec (hids : (input.inner.map fun e => e.2.tx.id).Nodup)
    (hmax : policy.maxBlockMass.toNat < 2 ^ 64 - 1) (invalid : Nat → Transaction → Bool) :
    ∀ (fuel round : Nat) (s : SequenceSelector) (bs : List (List SequenceSelectorSelection))
      (rs : List TransactionId) (batches : List (List Transaction)), Reachable input policy s bs rs →
      (remaining s).length < fuel → batches.map (·.map Transaction.id) = bs.map (·.map (·.txId)) →
      ∃ s' bs' rs' batches', selectionLoop invalid fuel round s batches = .ok (s', batches') ∧
        Reachable input policy s' bs' rs' ∧ batches'.map (·.map Transaction.id) = bs'.map (·.map (·.txId)) := by
  intro fuel
  induction fuel with
  | zero => intro _ _ _ _ _ _ hlt; omega
  | succ fuel ih =>
    intro round s bs rs batches hreach hlt hbatches
    have hinv := hreach.inv hids hmax
    have hpol := hinv.policy_eq
    obtain ⟨chosen, hsub, hrun, hbound⟩ :=
      selectTransactions_spec (by rw [hpol]; exact hmax) (by rw [hpol]; exact hinv.total_le)
    have hreach1 : Reachable input policy ((startRound s).take chosen) (bs ++ [chosen.map selection]) rs := by
      simpa using hreach.select hrun
    have hinv1 := hreach1.inv hids hmax
    -- the batch is the round's selections, all fresh
    have hsubInput : chosen.Sublist input.inner := hsub.trans (List.filter_sublist.trans hinv.sublist)
    have hids1 : ((chosen.map (·.2.tx)).map Transaction.id) = (chosen.map selection).map (·.txId) := by
      simp only [List.map_map]
      rfl
    have hnodup : ((chosen.map (·.2.tx)).map Transaction.id).Nodup := by
      rw [List.map_map]
      exact hids.sublist (hsubInput.map _)
    have hmem : ∀ tx ∈ chosen.map (·.2.tx), tx.id ∈ ((startRound s).take chosen).selectedVec.map (·.txId) := by
      intro tx htx
      rw [take_selectedVec, startRound_selectedVec, List.nil_append, ← hids1]
      exact List.mem_map_of_mem htx
    have hfresh : ∀ tx ∈ chosen.map (·.2.tx), tx.id ∉ rs := by
      intro tx htx hrs
      obtain ⟨e, he, rfl⟩ := List.mem_map.mp htx
      exact hinv.remaining_id_fresh hids e (hsub.subset he) (hinv.rejected_mem _ hrs)
    obtain ⟨s2, rs2, hrej, hreach2, hsv2, hin2⟩ := foldlM_rejectStep hids hmax (invalid round) _ _ _ _ false
      hreach1 hnodup hmem hfresh
    have hbatches' : (batches ++ [chosen.map (·.2.tx)]).map (·.map Transaction.id) =
        (bs ++ [chosen.map selection]).map (·.map (·.txId)) := by
      rw [List.map_append, List.map_append, hbatches, List.map_singleton, List.map_singleton, hids1]
    rw [selectionLoop, hrun, Except.ok_bind]
    dsimp only
    rw [rejectInvalid, hrej, Except.ok_bind, Bool.false_or]
    dsimp only
    by_cases hany : (chosen.map (·.2.tx)).any (invalid round)
    · -- another round, on a smaller input
      rw [if_pos hany]
      have hne : chosen ≠ [] := by
        rintro rfl
        simp at hany
      have hrem : (remaining s2).length < fuel := by
        have hshrink := length_remaining_lt hsub hne
        rw [remaining, hsv2, hin2, take_selectedVec, startRound_selectedVec, List.nil_append, take_inputSequence,
          inner_startRound]
        omega
      exact ih (round + 1) s2 _ rs2 _ hreach2 hrem hbatches'
    · rw [if_neg hany]
      exact ⟨s2, _, rs2, _, rfl, hreach2, hbatches'⟩

/-- A transaction with no inputs or outputs, told apart by its id. -/
def emptyTransaction (id : UInt64) : Transaction :=
  ⟨[], [], subnetworkIdNative, [], Hash.fromU64Word id⟩

/-- Two transactions of masses 3 and 5, in that order. -/
def twoTransactionInput : SequenceSelectorInput :=
  ⟨[(0, ⟨emptyTransaction 1, 3⟩), (1, ⟨emptyTransaction 2, 5⟩)], by decide⟩

/-- Two transactions of mass `2 ^ 63`. -/
def heavyTransactionInput : SequenceSelectorInput :=
  ⟨[(0, ⟨emptyTransaction 1, UInt64.ofNat (2 ^ 63)⟩), (1, ⟨emptyTransaction 2, UInt64.ofNat (2 ^ 63)⟩)],
    by decide⟩

end Loop

end Vecno.Mining
