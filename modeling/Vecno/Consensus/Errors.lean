import Vecno.Consensus.Tx

/-!
# Rule errors

The variants of `RuleError` (`consensus/core/src/errors/block.rs`) and `TxRuleError`
(`errors/tx.rs`) that the modelled checks return, with the data each carries.
-/

namespace Vecno

/-- `TxRuleError`. The transaction validator's own failures in a UTXO context, which the
mergeset's validation only drops, are one variant. -/
inductive TxRuleError where
  | noTxInputs
  | txDuplicateInputs
  | tooManyInputs (inputs max : Nat)
  | tooManyOutputs (reported max : Nat)
  | coinbaseHasInputs (inputs : Nat)
  | missingTxOutpoints
  | rejectedInUtxoContext
deriving DecidableEq

inductive RuleError where
  | noTransactions
  | firstTxNotCoinbase
  | multipleCoinbases (index : Nat)
  | txInIsolationValidationFailed (id : TransactionId) (error : TxRuleError)
  | doubleSpendInSameBlock (outpoint : TransactionOutpoint)
  | chainedTransaction (outpoint : TransactionOutpoint)
  | duplicateTransactions (id : TransactionId)
  | unexpectedIndirectParents (expected found : List (List Hash))
  | insufficientDaaWindowSize (size : Nat)
deriving DecidableEq

end Vecno
