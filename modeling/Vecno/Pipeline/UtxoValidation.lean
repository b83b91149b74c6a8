import Vecno.Consensus.Coinbase
import Vecno.Lib.Checked
import Vecno.Pipeline.BodyValidation
import Vecno.Utxo.Diff

/-!
# The UTXO state of a mergeset

`calculate_utxo_state`: each block's transactions are checked against one view, then folded into
the diff. The transaction validator is a parameter; the multiset hash is left out.
-/

namespace Vecno

inductive TxValidationFlags where
  | full
  | skipScriptChecks
  | skipMassCheck
deriving DecidableEq

/-- The entries the view holds for the inputs, failing at the first input it lacks. -/
def populateEntries (utxoView : UtxoView) :
    (inputs : List TransactionInput) →
      Except TxRuleError { entries : List UtxoEntry // entries.length = inputs.length }
  | [] => .ok ⟨[], rfl⟩
  | input :: rest =>
    match utxoView input.previousOutpoint with
    | none => .error .missingTxOutpoints
    | some entry => do
      let entries ← populateEntries utxoView rest
      pure ⟨entry :: entries.1, by simp [entries.2]⟩

/-- Every input is populated with the entry the view holds at its outpoint. -/
theorem populateEntries_eq_ok {utxoView : UtxoView} {inputs : List TransactionInput}
    {entries : { entries : List UtxoEntry // entries.length = inputs.length }}
    (h : populateEntries utxoView inputs = .ok entries) :
    ∀ p ∈ inputs.zip entries.1, utxoView p.1.previousOutpoint = some p.2 := by
  induction inputs with
  | nil => intro p hp; simp at hp
  | cons input rest ih =>
    unfold populateEntries at h
    split at h
    · cases h
    · rename_i entry hentry
      obtain ⟨es, hes, hpure⟩ := Except.bind_eq_ok.mp h
      cases hpure
      intro p hp
      rcases List.mem_cons.mp hp with rfl | hp
      · exact hentry
      · exact ih hes p hp

structure AcceptedTxEntry where
  transactionId : TransactionId
  indexWithinBlock : UInt32
deriving DecidableEq

structure MergesetBlockAcceptanceData where
  blockHash : Hash
  acceptedTransactions : List AcceptedTxEntry
deriving DecidableEq

structure BlockRewardData where
  subsidy : UInt64
  totalFees : UInt64
  scriptPublicKey : ScriptPublicKey
deriving DecidableEq

/-- The fields of `UtxoProcessingContext` that `calculate_utxo_state` writes. -/
structure UtxoProcessingContext where
  mergesetDiff : UtxoDiff
  acceptedTxIds : List TransactionId
  mergesetRewards : AList (fun _ : Hash => BlockRewardData)
  mergesetAcceptanceData : List MergesetBlockAcceptanceData

/-- How `calculate_utxo_state` can panic: the `unwrap` of a failed `add_transaction`, or a panic
with a message (an assertion, an index out of bounds, an overflow, the `unwrap` of a coinbase
payload that does not parse). -/
inductive Abort where
  | addTransactionFailed (error : UtxoAlgebraError)
  | panic (message : String)
deriving DecidableEq

/-- The parts of `VirtualStateProcessor` that `calculate_utxo_state` reads. -/
structure VirtualStateProcessor where
  /-- `transaction_validator.validate_populated_transaction_and_get_fee`. -/
  validatePopulatedTransactionAndGetFee :
    PopulatedTransaction → UInt64 → TxValidationFlags → Except TxRuleError UInt64
  coinbaseManager : CoinbaseManager

namespace VirtualStateProcessor

variable (proc : VirtualStateProcessor)

/-- `validate_transaction_in_utxo_context`: the transaction populated from the view, then
checked by the validator. -/
def validateTransactionInUtxoContext (transaction : Transaction) (utxoView : UtxoView)
    (povDaaScore : UInt64) (flags : TxValidationFlags) : Except TxRuleError ValidatedTransaction := do
  let entries ← populateEntries utxoView transaction.inputs
  let calculatedFee ←
    proc.validatePopulatedTransactionAndGetFee ⟨transaction, entries.1⟩ povDaaScore flags
  pure ⟨transaction, entries.1, calculatedFee, entries.2⟩

/-- A transaction validated against a view is the one given, populated from the view. -/
theorem validateTransactionInUtxoContext_eq_ok {transaction : Transaction} {utxoView : UtxoView}
    {povDaaScore : UInt64} {flags : TxValidationFlags} {vtx : ValidatedTransaction}
    (h : proc.validateTransactionInUtxoContext transaction utxoView povDaaScore flags = .ok vtx) :
    vtx.tx = transaction ∧
      ∀ p ∈ vtx.populatedInputs, utxoView p.1.previousOutpoint = some p.2 := by
  obtain ⟨entries, hpop, h⟩ := Except.bind_eq_ok.mp h
  obtain ⟨fee, -, h⟩ := Except.bind_eq_ok.mp h
  cases h
  exact ⟨rfl, populateEntries_eq_ok hpop⟩

/-- `validate_transactions_with_muhash_in_parallel`, without the multiset hash: every transaction
but the coinbase validated against the one view, the accepted ones with their index in the
block, in block order. -/
def validateTransactionsWithMuhashInParallel (txs : List Transaction) (utxoView : UtxoView)
    (povDaaScore : UInt64) (flags : TxValidationFlags) : List (ValidatedTransaction × UInt32) :=
  (txs.zipIdx.drop 1).filterMap fun entry =>
    (proc.validateTransactionInUtxoContext entry.1 utxoView povDaaScore flags).toOption.map
      fun vtx => (vtx, UInt32.ofNat entry.2)

theorem filterMap_map_sublist {α β γ : Type} {f : α → Option β} {g : β → γ} {k : α → γ}
    (hf : ∀ a b, f a = some b → g b = k a) (l : List α) :
    ((l.filterMap f).map g).Sublist (l.map k) := by
  induction l with
  | nil => exact List.Sublist.slnil
  | cons a rest ih =>
    rw [List.filterMap_cons]
    cases hfa : f a with
    | none => exact ih.cons (k a)
    | some b =>
      rw [List.map_cons, List.map_cons, hf a b hfa]
      exact ih.cons_cons (k a)

/-- The transactions validated in a block are among those after its coinbase, in block order. -/
theorem validateTransactionsWithMuhashInParallel_sublist (txs : List Transaction)
    (utxoView : UtxoView) (povDaaScore : UInt64) (flags : TxValidationFlags) :
    ((proc.validateTransactionsWithMuhashInParallel txs utxoView povDaaScore flags).map
      (·.1.tx)).Sublist (txs.drop 1) := by
  have hk : (txs.zipIdx.drop 1).map Prod.fst = txs.drop 1 := by
    rw [List.map_drop, List.zipIdx_map_fst]
  rw [← hk]
  refine filterMap_map_sublist ?_ _
  intro entry validated h
  obtain ⟨vtx, hvtx, rfl⟩ := Option.map_eq_some_iff.mp h
  exact (validateTransactionInUtxoContext_eq_ok proc (Except.toOption_eq_some.mp hvtx)).1

/-- A validated transaction's inputs are populated from the view it was validated against. -/
theorem mem_validateTransactionsWithMuhashInParallel {txs : List Transaction}
    {utxoView : UtxoView} {povDaaScore : UInt64} {flags : TxValidationFlags}
    {validated : ValidatedTransaction × UInt32}
    (h : validated ∈ proc.validateTransactionsWithMuhashInParallel txs utxoView povDaaScore flags) :
    ∀ p ∈ validated.1.populatedInputs, utxoView p.1.previousOutpoint = some p.2 := by
  obtain ⟨entry, -, hentry⟩ := List.mem_filterMap.mp h
  obtain ⟨vtx, hvtx, rfl⟩ := Option.map_eq_some_iff.mp hentry
  exact (validateTransactionInUtxoContext_eq_ok proc (Except.toOption_eq_some.mp hvtx)).2

/-- The inner loop over a block's accepted transactions: each is added to the diff, its id to
the accepted ids and its fee to the block's fee. -/
def acceptTransactions (povDaaScore : UInt64) :
    List (ValidatedTransaction × UInt32) → UtxoDiff × List TransactionId × Nat →
      Except Abort (UtxoDiff × List TransactionId × Nat)
  | [], acc => .ok acc
  | validated :: rest, (diff, ids, blockFee) => do
    let diff ← match diff.addTransaction validated.1 povDaaScore with
      | .ok diff => pure diff
      | .error e => throw (.addTransactionFailed e)
    let blockFee ← match Checked.add 64 blockFee validated.1.calculatedFee.toNat with
      | .ok fee => pure fee
      | .error message => throw (.panic message)
    acceptTransactions povDaaScore rest (diff, ids ++ [validated.1.tx.id], blockFee)

/-- One turn of the loop over the mergeset: the block's transactions validated against the
selected parent's view composed with the diff so far, accepted, and recorded. -/
def processMergesetBlock (selectedParentUtxoView : UtxoView) (povDaaScore : UInt64)
    (validatedCoinbaseId : TransactionId) (isSelectedParent : Bool) (ctx : UtxoProcessingContext)
    (block : Block) : Except Abort UtxoProcessingContext := do
  let composedView := compose selectedParentUtxoView ctx.mergesetDiff
  let validationFlags := if isSelectedParent then .skipScriptChecks else .full
  let validatedTransactions := proc.validateTransactionsWithMuhashInParallel block.transactions
    composedView povDaaScore validationFlags
  let (mergesetDiff, acceptedTxIds, blockFee) ← acceptTransactions povDaaScore
    validatedTransactions (ctx.mergesetDiff, ctx.acceptedTxIds, 0)
  let entries := validatedTransactions.map fun validated =>
    (⟨validated.1.tx.id, validated.2⟩ : AcceptedTxEntry)
  let acceptance : MergesetBlockAcceptanceData :=
    if isSelectedParent then ⟨block.hash, ⟨validatedCoinbaseId, 0⟩ :: entries⟩
    else ⟨block.hash, entries⟩
  let coinbase ← match block.transactions.head? with
    | some tx => pure tx
    | none => throw (.panic "index out of bounds")
  let coinbaseData ← match proc.coinbaseManager.deserializeCoinbasePayload coinbase.payload with
    | .ok data => pure data
    | .error _ => throw (.panic Checked.unwrapFailed)
  pure ⟨mergesetDiff, acceptedTxIds,
    ctx.mergesetRewards.insert block.hash
      ⟨coinbaseData.subsidy, UInt64.ofNat blockFee, coinbaseData.minerData.scriptPublicKey⟩,
    ctx.mergesetAcceptanceData ++ [acceptance]⟩

/-- The loop over the mergeset, the selected parent (index zero) first. -/
def processMergeset (selectedParentUtxoView : UtxoView) (povDaaScore : UInt64)
    (validatedCoinbaseId : TransactionId) :
    List (Block × Nat) → UtxoProcessingContext → Except Abort UtxoProcessingContext
  | [], ctx => .ok ctx
  | (block, i) :: rest, ctx => do
    let ctx ← proc.processMergesetBlock selectedParentUtxoView povDaaScore validatedCoinbaseId
      (i == 0) ctx block
    processMergeset selectedParentUtxoView povDaaScore validatedCoinbaseId rest ctx

/-- `calculate_utxo_state`, from the selected parent's UTXO view and the mergeset in consensus
order without the selected parent, each block with its transactions. -/
def calculateUtxoState (selectedParentUtxoView : UtxoView) (selectedParent : Block)
    (mergesetWithoutSelectedParent : List Block) (povDaaScore : UInt64) :
    Except Abort UtxoProcessingContext := do
  let coinbase ← match selectedParent.transactions.head? with
    | some tx => pure tx
    | none => throw (.panic "index out of bounds")
  let validatedCoinbase ← match ValidatedTransaction.newCoinbase coinbase with
    | .ok vtx => pure vtx
    | .error message => throw (.panic message)
  let mergesetDiff ← match (⟨∅, ∅⟩ : UtxoDiff).addTransaction validatedCoinbase povDaaScore with
    | .ok diff => pure diff
    | .error e => throw (.addTransactionFailed e)
  let ctx ← proc.processMergeset selectedParentUtxoView povDaaScore validatedCoinbase.tx.id
    (selectedParent :: mergesetWithoutSelectedParent).zipIdx
    ⟨mergesetDiff, [validatedCoinbase.tx.id], ∅, []⟩
  -- the accepted ids sorted, as `Hash`'s derived order compares the bytes
  pure { ctx with
    acceptedTxIds := ctx.acceptedTxIds.mergeSort fun a b => decide (a.bytes ≤ b.bytes) }

end VirtualStateProcessor

end Vecno
