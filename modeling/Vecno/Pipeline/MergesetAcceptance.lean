import Vecno.Pipeline.UtxoValidation
import Vecno.Utxo.Tracking

/-!
# Accepting a mergeset's transactions

Under the rules in isolation and collision-free ids, `calculate_utxo_state`'s unwraps never fire
and its diff tracks the view of applying the accepted transactions in order (`AcceptanceInv`).
-/

namespace Vecno

open UtxoCollection UtxoDiff

/-- The view after applying transactions one after another. -/
def applyTransactions (view : UtxoView) (blockDaaScore : UInt64) (txs : List Transaction) :
    UtxoView :=
  txs.foldl (fun w tx => applyTransaction w blockDaaScore tx) view

theorem applyTransactions_append (view : UtxoView) (blockDaaScore : UInt64)
    (txs txs' : List Transaction) :
    applyTransactions view blockDaaScore (txs ++ txs') =
      applyTransactions (applyTransactions view blockDaaScore txs) blockDaaScore txs' := by
  simp [applyTransactions, List.foldl_append]

theorem outpoint_transactionId_of_mem_createdOutpoints {tx : Transaction}
    {outpoint : TransactionOutpoint} (h : outpoint ∈ tx.createdOutpoints) :
    outpoint.transactionId = tx.id := by
  obtain ⟨i, -, rfl⟩ := List.mem_map.mp h
  rfl

theorem lookup_createdEntries_eq_none {tx : Transaction} {blockDaaScore : UInt64}
    {outpoint : TransactionOutpoint} (h : outpoint ∉ tx.createdOutpoints) :
    (tx.createdEntries blockDaaScore).lookup outpoint = none := by
  rw [List.lookup_eq_none_iff]
  rintro ⟨o, e⟩ hmem
  have : o ∈ tx.createdOutpoints := by
    rw [← map_fst_createdEntries tx blockDaaScore]
    exact List.mem_map_of_mem hmem
  simp only [bne_iff_ne, ne_eq]
  rintro rfl
  exact h this

/-- Away from what a transaction spends and creates, applying it changes nothing. -/
theorem applyTransaction_of_not_mem {view : UtxoView} {blockDaaScore : UInt64} {tx : Transaction}
    {outpoint : TransactionOutpoint} (hspent : outpoint ∉ tx.spentOutpoints)
    (hcreated : outpoint ∉ tx.createdOutpoints) :
    applyTransaction view blockDaaScore tx outpoint = view outpoint := by
  simp [applyTransaction, createAll, spendAll, lookup_createdEntries_eq_none hcreated, hspent]

/-- An outpoint a transaction spends and does not create is empty afterwards. -/
theorem applyTransaction_of_mem_spent {view : UtxoView} {blockDaaScore : UInt64}
    {tx : Transaction} {outpoint : TransactionOutpoint} (hspent : outpoint ∈ tx.spentOutpoints)
    (hcreated : outpoint ∉ tx.createdOutpoints) :
    applyTransaction view blockDaaScore tx outpoint = none := by
  simp [applyTransaction, createAll, spendAll, lookup_createdEntries_eq_none hcreated, hspent]

theorem applyTransactions_of_not_mem {view : UtxoView} {blockDaaScore : UInt64}
    {txs : List Transaction} {outpoint : TransactionOutpoint}
    (hspent : outpoint ∉ Block.spentOutpoints txs)
    (hcreated : outpoint ∉ Block.createdOutpoints txs) :
    applyTransactions view blockDaaScore txs outpoint = view outpoint := by
  induction txs generalizing view with
  | nil => rfl
  | cons tx rest ih =>
    simp only [Block.spentOutpoints, Block.createdOutpoints, List.flatMap_cons, List.mem_append,
      not_or] at hspent hcreated
    rw [applyTransactions, List.foldl_cons, ← applyTransactions,
      ih hspent.2 hcreated.2]
    exact applyTransaction_of_not_mem hspent.1 hcreated.1

/-- Applying transactions that do not create an outpoint leaves it as it was or empties it. -/
theorem applyTransactions_eq_none_or_eq {view : UtxoView} {blockDaaScore : UInt64}
    {txs : List Transaction} {outpoint : TransactionOutpoint}
    (hcreated : outpoint ∉ Block.createdOutpoints txs) :
    applyTransactions view blockDaaScore txs outpoint = none ∨
      applyTransactions view blockDaaScore txs outpoint = view outpoint := by
  induction txs generalizing view with
  | nil => exact Or.inr rfl
  | cons tx rest ih =>
    simp only [Block.createdOutpoints, List.flatMap_cons, List.mem_append, not_or] at hcreated
    rw [applyTransactions, List.foldl_cons, ← applyTransactions]
    have hstep : applyTransaction view blockDaaScore tx outpoint = none ∨
        applyTransaction view blockDaaScore tx outpoint = view outpoint := by
      by_cases hs : outpoint ∈ tx.spentOutpoints
      · exact Or.inl (applyTransaction_of_mem_spent hs hcreated.1)
      · exact Or.inr (applyTransaction_of_not_mem hs hcreated.1)
    rcases ih hcreated.2 with h | h
    · exact Or.inl h
    · rw [h]
      exact hstep

/-- What the applied view holds comes from the base or from an applied transaction. -/
theorem applyTransactions_support {view : UtxoView} {blockDaaScore : UInt64}
    {txs : List Transaction} {outpoint : TransactionOutpoint}
    (h : applyTransactions view blockDaaScore txs outpoint ≠ none) :
    view outpoint ≠ none ∨ outpoint ∈ Block.createdOutpoints txs := by
  by_cases hcreated : outpoint ∈ Block.createdOutpoints txs
  · exact Or.inr hcreated
  · rcases applyTransactions_eq_none_or_eq hcreated with h' | h'
    · exact absurd h' h
    · exact Or.inl (h' ▸ h)

theorem applyTransactions_singleton (view : UtxoView) (blockDaaScore : UInt64)
    (tx : Transaction) :
    applyTransactions view blockDaaScore [tx] = applyTransaction view blockDaaScore tx :=
  rfl

/-- The ids of the accepted transactions the acceptance data lists, block by block. -/
def acceptedIds (data : List MergesetBlockAcceptanceData) : List TransactionId :=
  data.flatMap fun d => d.acceptedTransactions.map (·.transactionId)

/-- The transactions of the blocks of a mergeset, in order. -/
def mergesetTransactions (blocks : List Block) : List Transaction :=
  blocks.flatMap (·.transactions)

/-- A run of the UTXO computation that ends in a state with the property or panics with a
message: no `add_transaction` unwrap fails in it. -/
def PanicsOr {α : Type} (P : α → Prop) : Except Abort α → Prop
  | .ok a => P a
  | .error (.panic _) => True
  | .error (.addTransactionFailed _) => False

namespace PanicsOr

variable {α β : Type} {P Q : α → Prop}

@[simp] theorem ok_iff {a : α} : PanicsOr P (.ok a) ↔ P a :=
  Iff.rfl

@[simp] theorem pure_iff {a : α} : PanicsOr P (pure a) ↔ P a :=
  Iff.rfl

theorem imp (h : ∀ a, P a → Q a) {x : Except Abort α} (hx : PanicsOr P x) : PanicsOr Q x := by
  match x, hx with
  | .ok a, hx => exact h a hx
  | .error (.panic _), _ => trivial
  | .error (.addTransactionFailed _), hx => exact hx.elim

theorem bind {R : β → Prop} {x : Except Abort α} {f : α → Except Abort β}
    (hx : PanicsOr P x) (hf : ∀ a, P a → PanicsOr R (f a)) : PanicsOr R (x >>= f) := by
  match x, hx with
  | .ok a, hx => exact hf a hx
  | .error (.panic _), _ => trivial
  | .error (.addTransactionFailed _), hx => exact hx.elim

theorem panic_bind {R : β → Prop} (message : String) (f : α → Except Abort β) :
    PanicsOr R (throw (Abort.panic message) >>= f) :=
  trivial

theorem ne_addTransactionFailed {x : Except Abort α} (hx : PanicsOr P x)
    (e : UtxoAlgebraError) : x ≠ .error (.addTransactionFailed e) := by
  rintro rfl
  exact hx

theorem of_eq_ok {x : Except Abort α} (hx : PanicsOr P x) {a : α} (h : x = .ok a) : P a := by
  subst h
  exact hx

end PanicsOr

/-- The invariant of the run, for the transactions accepted so far: the diff tracks the view
with them applied, every outpoint they spend is empty there and was live when spent, none is
spent twice, and all are transactions of the mergeset. -/
structure AcceptanceInv (view : UtxoView) (blockDaaScore : UInt64) (allTxs : List Transaction)
    (diff : UtxoDiff) (accepted : List Transaction) : Prop where
  tracks : Tracks view diff (applyTransactions view blockDaaScore accepted)
  spent_dead : ∀ o ∈ Block.spentOutpoints accepted,
    applyTransactions view blockDaaScore accepted o = none
  spent_origin : ∀ o ∈ Block.spentOutpoints accepted,
    view o ≠ none ∨ o ∈ Block.createdOutpoints accepted
  spent_nodup : (Block.spentOutpoints accepted).Nodup
  mem_all : ∀ tx ∈ accepted, tx ∈ allTxs

section Accept

variable {view : UtxoView} {blockDaaScore : UInt64} {allTxs : List Transaction}
  {diff : UtxoDiff} {accepted : List Transaction}

theorem acceptanceInv_nil : AcceptanceInv view blockDaaScore allTxs ⟨∅, ∅⟩ [] where
  tracks := tracks_empty view
  spent_dead _ h := by cases h
  spent_origin _ h := by cases h
  spent_nodup := List.nodup_nil
  mem_all _ h := by cases h

variable (hids : ∀ t1 ∈ allTxs, ∀ t2 ∈ allTxs, t1.id = t2.id → t1 = t2)
  (hfresh : ∀ t ∈ allTxs, ∀ o ∈ t.createdOutpoints, view o = none)

include hids hfresh in
/-- The outputs of a transaction not yet accepted are new to the base and to the accepted
transactions: an accepted transaction creating one would have its id. -/
theorem created_new (hall : ∀ tx ∈ accepted, tx ∈ allTxs) {tx : Transaction} (htx : tx ∈ allTxs)
    (hnot : tx ∉ accepted) {o : TransactionOutpoint} (ho : o ∈ tx.createdOutpoints) :
    view o = none ∧ o ∉ Block.createdOutpoints accepted := by
  refine ⟨hfresh tx htx o ho, fun hmem => ?_⟩
  obtain ⟨t', ht', ho'⟩ := List.mem_flatMap.mp hmem
  have hid : t'.id = tx.id := by
    rw [← outpoint_transactionId_of_mem_createdOutpoints ho',
      outpoint_transactionId_of_mem_createdOutpoints ho]
  exact hnot (hids t' (hall t' ht') tx htx hid ▸ ht')

include hids hfresh in
/-- One accepted transaction: a transaction of the mergeset not accepted before, whose inputs
are live in the applied view with the entries it was populated with, is added to the diff
without failure and the invariant holds with it accepted. -/
theorem AcceptanceInv.accept (hinv : AcceptanceInv view blockDaaScore allTxs diff accepted)
    (vtx : ValidatedTransaction) (htx : vtx.tx ∈ allTxs) (hnot : vtx.tx ∉ accepted)
    (hlive : ∀ p ∈ vtx.populatedInputs,
      applyTransactions view blockDaaScore accepted p.1.previousOutpoint = some p.2)
    (hspent : vtx.tx.spentOutpoints.Nodup) (hcreated : vtx.tx.createdOutpoints.Nodup) :
    ∃ diff', diff.addTransaction vtx blockDaaScore = .ok diff' ∧
      AcceptanceInv view blockDaaScore allTxs diff' (accepted ++ [vtx.tx]) := by
  have hnew := fun o (ho : o ∈ vtx.tx.createdOutpoints) =>
    created_new hids hfresh hinv.mem_all htx hnot ho
  have hlive' : ∀ o ∈ vtx.tx.spentOutpoints,
      applyTransactions view blockDaaScore accepted o ≠ none := by
    intro o ho
    obtain ⟨p, hp, rfl⟩ := mem_spentOutpoints_iff.mp ho
    rw [hlive p hp]
    exact Option.some_ne_none _
  have horigin : ∀ o ∈ vtx.tx.spentOutpoints,
      view o ≠ none ∨ o ∈ Block.createdOutpoints accepted :=
    fun o ho => applyTransactions_support (hlive' o ho)
  have hdead : ∀ o ∈ vtx.tx.createdOutpoints,
      applyTransactions view blockDaaScore accepted o = none ∧ view o = none := by
    intro o ho
    refine ⟨?_, (hnew o ho).1⟩
    by_contra hlive_o
    rcases applyTransactions_support hlive_o with h | h
    · exact h (hnew o ho).1
    · exact (hnew o ho).2 h
  obtain ⟨diff', hadd, htracks⟩ :=
    hinv.tracks.addTransaction vtx blockDaaScore hspent hlive hcreated hdead
  -- nothing the accepted transactions or this one spend is created by this one
  have hnotcreated : ∀ o ∈ Block.spentOutpoints (accepted ++ [vtx.tx]),
      o ∉ vtx.tx.createdOutpoints := by
    intro o ho hc
    obtain ⟨hv, hacc⟩ := hnew o hc
    rw [Block.spentOutpoints_concat, List.mem_append] at ho
    rcases ho.elim (hinv.spent_origin o) (horigin o) with h | h
    · exact h hv
    · exact hacc h
  refine ⟨diff', hadd, ⟨?_, ?_, ?_, ?_, ?_⟩⟩
  · rw [applyTransactions_append, applyTransactions_singleton]
    exact htracks
  · intro o ho
    rw [applyTransactions_append, applyTransactions_singleton]
    by_cases hs : o ∈ vtx.tx.spentOutpoints
    · exact applyTransaction_of_mem_spent hs (hnotcreated o ho)
    · rw [applyTransaction_of_not_mem hs (hnotcreated o ho)]
      rw [Block.spentOutpoints_concat, List.mem_append] at ho
      exact hinv.spent_dead o (ho.resolve_right hs)
  · intro o ho
    rw [Block.createdOutpoints_concat, List.mem_append]
    rw [Block.spentOutpoints_concat, List.mem_append] at ho
    exact (ho.elim (hinv.spent_origin o) (horigin o)).imp_right Or.inl
  · rw [Block.spentOutpoints_concat]
    refine List.nodup_append.mpr ⟨hinv.spent_nodup, hspent, fun o ho o' ho' he => ?_⟩
    subst he
    exact hlive' o ho' (hinv.spent_dead o ho)
  · intro tx hmem
    rcases List.mem_append.mp hmem with h | h
    · exact hinv.mem_all tx h
    · rw [List.mem_singleton.mp h]
      exact htx

include hids hfresh in
/-- The loop over a block's validated transactions, all validated against the view that the
transactions accepted before the block (`before`) give: each one is added without failure and
the invariant holds with it accepted after those of the block accepted so far (`mates`). -/
theorem acceptTransactions_spec (before : List Transaction)
    (hdead : ∀ o ∈ Block.spentOutpoints before,
      applyTransactions view blockDaaScore before o = none) :
    ∀ (validated : List (ValidatedTransaction × UInt32)) (mates : List Transaction)
      (diff : UtxoDiff) (ids : List TransactionId) (blockFee : Nat),
      AcceptanceInv view blockDaaScore allTxs diff (before ++ mates) →
      Block.SpendRules (mates ++ validated.map (·.1.tx)) →
      (∀ v ∈ validated, v.1.tx ∈ allTxs) →
      (∀ v ∈ validated, ∀ p ∈ v.1.populatedInputs,
        applyTransactions view blockDaaScore before p.1.previousOutpoint = some p.2) →
      PanicsOr (fun r => r.2.1 = ids ++ validated.map (·.1.tx.id) ∧
          AcceptanceInv view blockDaaScore allTxs r.1 (before ++ mates ++ validated.map (·.1.tx)))
        (VirtualStateProcessor.acceptTransactions blockDaaScore validated (diff, ids, blockFee)) := by
  intro validated
  induction validated with
  | nil =>
    intro mates diff ids blockFee hinv _ _ _
    exact ⟨by simp, by simpa using hinv⟩
  | cons v rest ih =>
    intro mates diff ids blockFee hinv hrules hall hlive
    have hrules' : Block.SpendRules (mates ++ v.1.tx :: rest.map (·.1.tx)) := by
      simpa using hrules
    have hmem : v.1.tx ∈ mates ++ v.1.tx :: rest.map (·.1.tx) := by simp
    have hliveS := hlive v List.mem_cons_self
    have hspent : ∀ p ∈ v.1.populatedInputs, p.1.previousOutpoint ∈ v.1.tx.spentOutpoints :=
      fun p hp => mem_spentOutpoints_iff.mpr ⟨p, hp, rfl⟩
    -- the transactions of the block before this one leave its inputs as the snapshot has them
    have hliveW : ∀ p ∈ v.1.populatedInputs,
        applyTransactions view blockDaaScore (before ++ mates) p.1.previousOutpoint = some p.2 := by
      intro p hp
      obtain ⟨hs, hc⟩ := hrules'.not_mem_earlier (hspent p hp)
      rw [applyTransactions_append, applyTransactions_of_not_mem hs hc]
      exact hliveS p hp
    have hnot : v.1.tx ∉ before ++ mates := by
      obtain ⟨o, ho⟩ := List.exists_mem_of_ne_nil _ (hrules'.spent_ne_nil _ hmem)
      intro hin
      rcases List.mem_append.mp hin with hb | hm
      · -- accepted before the block, its inputs are spent in the snapshot, where they are live
        obtain ⟨p, hp, rfl⟩ := mem_spentOutpoints_iff.mp ho
        have hgone := hdead p.1.previousOutpoint (List.mem_flatMap.mpr ⟨_, hb, hspent p hp⟩)
        rw [hliveS p hp] at hgone
        cases hgone
      · exact (hrules'.not_mem_earlier ho).1 (List.mem_flatMap.mpr ⟨_, hm, ho⟩)
    obtain ⟨diff', hadd, hinv'⟩ := hinv.accept hids hfresh v.1 (hall v List.mem_cons_self) hnot
      hliveW (hrules'.spentOutpoints_nodup hmem) (hrules'.created_nodup _ hmem)
    simp only [VirtualStateProcessor.acceptTransactions, hadd, pure_bind]
    split
    · rename_i fee _
      refine (ih (mates ++ [v.1.tx]) diff' (ids ++ [v.1.tx.id]) fee (by simpa using hinv')
        (by simpa using hrules) (fun w hw => hall w (List.mem_cons_of_mem _ hw))
        (fun w hw => hlive w (List.mem_cons_of_mem _ hw))).imp ?_
      rintro r ⟨hr, hinv''⟩
      exact ⟨by simpa using hr, by simpa using hinv''⟩
    · exact PanicsOr.panic_bind _ _

include hids hfresh in
/-- One block of the mergeset, valid in isolation: its validated transactions are accepted
without an unwrap failing, and the acceptance data records them after the coinbase id when the
block is the selected parent. -/
theorem processMergesetBlock_spec (proc : VirtualStateProcessor)
    {validator : TransactionValidator} (houtputs : validator.maxTxOutputs ≤ 2 ^ 32)
    (validatedCoinbaseId : TransactionId) (isSelectedParent : Bool)
    {ctx : UtxoProcessingContext} {accepted : List Transaction}
    (hinv : AcceptanceInv view blockDaaScore allTxs ctx.mergesetDiff accepted) {block : Block}
    (hblock : Block.validateBodyInIsolation validator block = .ok ())
    (hall : ∀ tx ∈ block.transactions, tx ∈ allTxs) :
    PanicsOr (fun ctx' => ∃ new : List Transaction,
        AcceptanceInv view blockDaaScore allTxs ctx'.mergesetDiff (accepted ++ new) ∧
        ctx'.acceptedTxIds = ctx.acceptedTxIds ++ new.map (·.id) ∧
        acceptedIds ctx'.mergesetAcceptanceData = acceptedIds ctx.mergesetAcceptanceData ++
          ((if isSelectedParent then [validatedCoinbaseId] else []) ++ new.map (·.id)))
      (proc.processMergesetBlock view blockDaaScore validatedCoinbaseId isSelectedParent ctx
        block) := by
  obtain ⟨coinbase, rest, hb, -, -, -, hrules⟩ :=
    Block.validateBodyInIsolation_eq_ok hblock houtputs
  have hview : compose view ctx.mergesetDiff = applyTransactions view blockDaaScore accepted :=
    funext hinv.tracks.compose_eq
  have hsub := proc.validateTransactionsWithMuhashInParallel_sublist block.transactions
    (compose view ctx.mergesetDiff) blockDaaScore
    (if isSelectedParent then .skipScriptChecks else .full)
  have hlive := fun validated (hv : validated ∈ proc.validateTransactionsWithMuhashInParallel
      block.transactions (compose view ctx.mergesetDiff) blockDaaScore
      (if isSelectedParent then .skipScriptChecks else .full)) =>
    proc.mem_validateTransactionsWithMuhashInParallel hv
  unfold VirtualStateProcessor.processMergesetBlock
  dsimp only
  generalize proc.validateTransactionsWithMuhashInParallel block.transactions
    (compose view ctx.mergesetDiff) blockDaaScore
    (if isSelectedParent then .skipScriptChecks else .full) = validated at hsub hlive ⊢
  rw [hb, List.drop_one, List.tail_cons] at hsub
  rw [hview] at hlive
  have hrun := acceptTransactions_spec hids hfresh accepted hinv.spent_dead validated []
    ctx.mergesetDiff ctx.acceptedTxIds 0 (by simpa using hinv) (by simpa using hrules.sublist hsub)
    (fun v hv => hall _ (hb ▸ List.mem_cons_of_mem _ (hsub.subset (List.mem_map_of_mem hv))))
    hlive
  refine PanicsOr.bind hrun ?_
  rintro ⟨diff', ids', fee'⟩ ⟨hids', hinv'⟩
  simp only [hb, List.head?_cons, pure_bind]
  -- the coinbase payload that does not parse is the one panic left
  cases proc.coinbaseManager.deserializeCoinbasePayload coinbase.payload with
  | error _ => exact PanicsOr.panic_bind _ _
  | ok coinbaseData =>
    simp only [PanicsOr.pure_iff]
    refine ⟨validated.map (·.1.tx), by simpa using hinv', by rw [List.map_map]; exact hids', ?_⟩
    cases isSelectedParent <;> simp [acceptedIds]

include hids hfresh in
theorem processMergeset_spec (proc : VirtualStateProcessor) {validator : TransactionValidator}
    (houtputs : validator.maxTxOutputs ≤ 2 ^ 32) (validatedCoinbaseId : TransactionId)
    (blocks : List (Block × Nat)) (hindex : ∀ b ∈ blocks, b.2 ≠ 0)
    (hvalid : ∀ b ∈ blocks, Block.validateBodyInIsolation validator b.1 = .ok ())
    (hall : ∀ b ∈ blocks, ∀ tx ∈ b.1.transactions, tx ∈ allTxs) :
    ∀ (ctx : UtxoProcessingContext) (accepted : List Transaction),
      AcceptanceInv view blockDaaScore allTxs ctx.mergesetDiff accepted →
      PanicsOr (fun ctx' => ∃ new : List Transaction,
          AcceptanceInv view blockDaaScore allTxs ctx'.mergesetDiff (accepted ++ new) ∧
          ctx'.acceptedTxIds = ctx.acceptedTxIds ++ new.map (·.id) ∧
          acceptedIds ctx'.mergesetAcceptanceData =
            acceptedIds ctx.mergesetAcceptanceData ++ new.map (·.id))
        (proc.processMergeset view blockDaaScore validatedCoinbaseId blocks ctx) := by
  induction blocks with
  | nil =>
    intro ctx accepted hinv
    exact ⟨[], by simpa using hinv, by simp, by simp⟩
  | cons b rest ih =>
    intro ctx accepted hinv
    obtain ⟨block, i⟩ := b
    have hi : (i == 0) = false := by simpa using hindex _ List.mem_cons_self
    rw [VirtualStateProcessor.processMergeset, hi]
    refine PanicsOr.bind (processMergesetBlock_spec hids hfresh proc houtputs validatedCoinbaseId
      false hinv (hvalid _ List.mem_cons_self) (hall _ List.mem_cons_self)) ?_
    rintro ctx₁ ⟨new₁, hinv₁, hids₁, hacc₁⟩
    refine (ih (fun b hb => hindex b (List.mem_cons_of_mem _ hb))
      (fun b hb => hvalid b (List.mem_cons_of_mem _ hb))
      (fun b hb => hall b (List.mem_cons_of_mem _ hb)) ctx₁ (accepted ++ new₁) hinv₁).imp ?_
    rintro ctx₂ ⟨new₂, hinv₂, hids₂, hacc₂⟩
    refine ⟨new₁ ++ new₂, by simpa using hinv₂, by simp [hids₂, hids₁], ?_⟩
    simpa [hacc₁] using hacc₂

include hids hfresh in
/-- The whole loop, the selected parent at index zero first: the acceptance data lists the
coinbase id and then the accepted transactions, block by block. -/
theorem processMergeset_zipIdx_spec (proc : VirtualStateProcessor)
    {validator : TransactionValidator} (houtputs : validator.maxTxOutputs ≤ 2 ^ 32)
    (validatedCoinbaseId : TransactionId) (selectedParent : Block)
    (mergesetWithoutSelectedParent : List Block)
    (hvalid : ∀ b ∈ selectedParent :: mergesetWithoutSelectedParent,
      Block.validateBodyInIsolation validator b = .ok ())
    (hall : ∀ b ∈ selectedParent :: mergesetWithoutSelectedParent, ∀ tx ∈ b.transactions,
      tx ∈ allTxs)
    (ctx : UtxoProcessingContext) {accepted : List Transaction}
    (hinv : AcceptanceInv view blockDaaScore allTxs ctx.mergesetDiff accepted) :
    PanicsOr (fun ctx' => ∃ new : List Transaction,
        AcceptanceInv view blockDaaScore allTxs ctx'.mergesetDiff (accepted ++ new) ∧
        ctx'.acceptedTxIds = ctx.acceptedTxIds ++ new.map (·.id) ∧
        acceptedIds ctx'.mergesetAcceptanceData =
          acceptedIds ctx.mergesetAcceptanceData ++ validatedCoinbaseId :: new.map (·.id))
      (proc.processMergeset view blockDaaScore validatedCoinbaseId
        (selectedParent :: mergesetWithoutSelectedParent).zipIdx ctx) := by
  rw [List.zipIdx_cons, VirtualStateProcessor.processMergeset]
  refine PanicsOr.bind (processMergesetBlock_spec hids hfresh proc houtputs validatedCoinbaseId
    true hinv (hvalid _ List.mem_cons_self) (hall _ List.mem_cons_self)) ?_
  rintro ctx₁ ⟨new₁, hinv₁, hids₁, hacc₁⟩
  -- the blocks after the selected parent have indices from one on
  refine (processMergeset_spec hids hfresh proc houtputs validatedCoinbaseId
    (mergesetWithoutSelectedParent.zipIdx 1)
    (fun b hb => by have := List.le_snd_of_mem_zipIdx hb; omega)
    (fun b hb => hvalid _ (List.mem_cons_of_mem _ (List.fst_mem_of_mem_zipIdx hb)))
    (fun b hb => hall _ (List.mem_cons_of_mem _ (List.fst_mem_of_mem_zipIdx hb)))
    ctx₁ _ hinv₁).imp ?_
  rintro ctx₂ ⟨new₂, hinv₂, hids₂, hacc₂⟩
  refine ⟨new₁ ++ new₂, by simpa using hinv₂, by simp [hids₂, hids₁], ?_⟩
  rw [hacc₂, hacc₁]
  simp

end Accept

/-- What the result of the UTXO computation says of the transactions it accepted: the selected
parent's coinbase first, all from the mergeset, in the order the acceptance data lists them,
with the ids the context collects (sorted); they spend distinct outpoints, and the mergeset diff
over the selected parent's view is the view they give applied in that order. -/
structure AcceptedTransactions (selectedParentUtxoView : UtxoView) (selectedParent : Block)
    (blocks : List Block) (povDaaScore : UInt64) (ctx : UtxoProcessingContext)
    (accepted : List Transaction) : Prop where
  coinbase_first : accepted.head? = selectedParent.transactions.head?
  mem_mergeset : ∀ tx ∈ accepted, tx ∈ mergesetTransactions blocks
  ids_eq : accepted.map (·.id) = acceptedIds ctx.mergesetAcceptanceData
  acceptedTxIds_perm : ctx.acceptedTxIds.Perm (accepted.map (·.id))
  spent_nodup : (Block.spentOutpoints accepted).Nodup
  compose_eq : ∀ outpoint, compose selectedParentUtxoView ctx.mergesetDiff outpoint =
    applyTransactions selectedParentUtxoView povDaaScore accepted outpoint

/-- A transaction spending output 0 of transaction `spent` into one output, with id `id`. -/
def spendingTx (spent id : UInt64) : Transaction :=
  ⟨[⟨⟨Hash.fromU64Word spent, 0⟩⟩], [⟨5, ⟨0, []⟩⟩], subnetworkIdNative, [],
    Hash.fromU64Word id⟩

/-- A coinbase without outputs, with the shortest payload that parses. -/
def emptyCoinbaseTx (id : UInt64) : Transaction :=
  ⟨[], [], subnetworkIdCoinbase, List.replicate 19 0, Hash.fromU64Word id⟩

/-- A selected-parent view holding output 0 of transactions 21 and 99. -/
def twoOutputView : UtxoView := fun outpoint =>
  if outpoint = ⟨Hash.fromU64Word 21, 0⟩ ∨ outpoint = ⟨Hash.fromU64Word 99, 0⟩ then
    some ⟨7, ⟨0, []⟩, 1, false⟩
  else none

/-- A processor whose validator accepts every populated transaction, with no fee. -/
def zeroFeeProcessor : VirtualStateProcessor :=
  ⟨fun _ _ _ => .ok 0, ⟨150, 204⟩⟩

end Vecno
