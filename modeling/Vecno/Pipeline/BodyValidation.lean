import Mathlib.Data.List.Flatten
import Vecno.Consensus.Errors
import Vecno.Lib.Checked

/-!
# Validating a block body in isolation

`validate_body_in_isolation` and the transaction checks it runs, restricted to what the UTXO
validation of a mergeset relies on.
-/

namespace Vecno

/-- The first element of a list that repeats an earlier one, scanning with the elements seen so
far, as the code's `HashSet::insert` loops do. -/
def firstRepeated {α : Type} [DecidableEq α] : List α → List α → Option α
  | _, [] => none
  | seen, a :: rest => if a ∈ seen then some a else firstRepeated (a :: seen) rest

theorem firstRepeated_eq_none {α : Type} [DecidableEq α] {seen l : List α} :
    firstRepeated seen l = none ↔ (∀ a ∈ l, a ∉ seen) ∧ l.Nodup := by
  induction l generalizing seen with
  | nil => simp [firstRepeated]
  | cons a rest ih =>
    unfold firstRepeated
    split
    · rename_i ha
      simp only [reduceCtorEq, false_iff]
      exact fun h => h.1 a List.mem_cons_self ha
    · rename_i ha
      rw [ih, List.nodup_cons]
      simp only [List.mem_cons, not_or, forall_eq_or_imp]
      constructor
      · rintro ⟨hrest, hnd⟩
        exact ⟨⟨ha, fun b hb => (hrest b hb).2⟩, fun hmem => (hrest a hmem).1 rfl, hnd⟩
      · rintro ⟨⟨-, hrest⟩, hnot, hnd⟩
        exact ⟨fun b hb => ⟨fun he => hnot (he ▸ hb), hrest b hb⟩, hnd⟩

/-- The limits of `TransactionValidator` that the checks in isolation read. -/
structure TransactionValidator where
  maxTxInputs : Nat
  maxTxOutputs : Nat

namespace TransactionValidator

variable (validator : TransactionValidator)

def checkTransactionInputsCount (tx : Transaction) : Except TxRuleError Unit :=
  if !tx.isCoinbase && tx.inputs.isEmpty then .error .noTxInputs
  else if tx.inputs.length > validator.maxTxInputs then
    .error (.tooManyInputs tx.inputs.length validator.maxTxInputs)
  else .ok ()

/-- `check_transaction_outputs_count`; the error it returns carries the inputs' count and
limit, as the code has it. -/
def checkTransactionOutputsCount (tx : Transaction) : Except TxRuleError Unit :=
  if tx.outputs.length > validator.maxTxOutputs then
    .error (.tooManyOutputs tx.inputs.length validator.maxTxInputs)
  else .ok ()

/-- `check_coinbase_in_isolation`, its check that a coinbase spends nothing. -/
def checkCoinbaseInIsolation (tx : Transaction) : Except TxRuleError Unit :=
  if !tx.isCoinbase then .ok ()
  else if !tx.inputs.isEmpty then .error (.coinbaseHasInputs tx.inputs.length)
  else .ok ()

def checkDuplicateTransactionInputs (tx : Transaction) : Except TxRuleError Unit :=
  match firstRepeated [] tx.spentOutpoints with
  | some _ => .error .txDuplicateInputs
  | none => .ok ()

def validateTxInIsolation (tx : Transaction) : Except TxRuleError Unit := do
  validator.checkTransactionInputsCount tx
  validator.checkTransactionOutputsCount tx
  checkCoinbaseInIsolation tx
  checkDuplicateTransactionInputs tx

end TransactionValidator

/-- A block as the body processor sees it: its hash and its transactions. -/
structure Block where
  hash : Hash
  transactions : List Transaction

namespace Block

/-- `check_only_one_coinbase`, on the block's first transaction and the others; the index of a
second coinbase is its position among the others. -/
def checkOnlyOneCoinbase (first : Transaction) (rest : List Transaction) :
    Except RuleError Unit :=
  if !first.isCoinbase then .error .firstTxNotCoinbase
  else match rest.findIdx? (·.isCoinbase) with
    | some i => .error (.multipleCoinbases i)
    | none => .ok ()

def checkTransactionsInIsolation (validator : TransactionValidator) :
    List Transaction → Except RuleError Unit
  | [] => .ok ()
  | tx :: rest =>
    match validator.validateTxInIsolation tx with
    | .error e => .error (.txInIsolationValidationFailed tx.id e)
    | .ok () => checkTransactionsInIsolation validator rest

def checkDuplicateTransactions (transactions : List Transaction) : Except RuleError Unit :=
  match firstRepeated [] (transactions.map (·.id)) with
  | some id => .error (.duplicateTransactions id)
  | none => .ok ()

/-- The outpoints the transactions spend, in order. -/
def spentOutpoints (transactions : List Transaction) : List TransactionOutpoint :=
  transactions.flatMap Transaction.spentOutpoints

/-- The outpoints the transactions create. -/
def createdOutpoints (transactions : List Transaction) : List TransactionOutpoint :=
  transactions.flatMap Transaction.createdOutpoints

def checkBlockDoubleSpends (transactions : List Transaction) : Except RuleError Unit :=
  match firstRepeated [] (spentOutpoints transactions) with
  | some outpoint => .error (.doubleSpendInSameBlock outpoint)
  | none => .ok ()

def checkNoChainedTransactions (transactions : List Transaction) : Except RuleError Unit :=
  match (spentOutpoints transactions).find? (· ∈ createdOutpoints transactions) with
  | some outpoint => .error (.chainedTransaction outpoint)
  | none => .ok ()

/-- `validate_body_in_isolation`, with the checks this model keeps, in the code's order. -/
def validateBodyInIsolation (validator : TransactionValidator) (block : Block) :
    Except RuleError Unit := do
  match block.transactions with
  | [] => .error .noTransactions
  | first :: rest => checkOnlyOneCoinbase first rest
  checkTransactionsInIsolation validator block.transactions
  checkDuplicateTransactions block.transactions
  checkBlockDoubleSpends block.transactions
  checkNoChainedTransactions block.transactions

end Block

/-! ## What a block that passed validation in isolation guarantees -/

namespace TransactionValidator

variable {validator : TransactionValidator}

/-- A transaction valid in isolation spends something unless it is a coinbase, and then nothing;
it has at most the allowed outputs and spends no outpoint twice. -/
theorem validateTxInIsolation_eq_ok {tx : Transaction}
    (h : validator.validateTxInIsolation tx = .ok ()) :
    (tx.isCoinbase = false → tx.spentOutpoints ≠ []) ∧
      tx.outputs.length ≤ validator.maxTxOutputs ∧
      (tx.isCoinbase = true → tx.inputs = []) ∧ tx.spentOutpoints.Nodup := by
  obtain ⟨⟨⟩, hin, h⟩ := Except.bind_eq_ok.mp h
  obtain ⟨⟨⟩, hout, h⟩ := Except.bind_eq_ok.mp h
  obtain ⟨⟨⟩, hcb, hdup⟩ := Except.bind_eq_ok.mp h
  unfold checkTransactionInputsCount at hin
  unfold checkTransactionOutputsCount at hout
  unfold checkCoinbaseInIsolation at hcb
  unfold checkDuplicateTransactionInputs at hdup
  refine ⟨fun hnot hnil => ?_, ?_, fun hyes => ?_, ?_⟩
  · have hempty : tx.inputs.isEmpty = true := by
      simpa [Transaction.spentOutpoints] using hnil
    simp [hnot, hempty] at hin
  · split at hout
    · cases hout
    · omega
  · simpa [hyes] using hcb
  · split at hdup
    · cases hdup
    · rename_i hnone
      exact (firstRepeated_eq_none.mp hnone).2

end TransactionValidator

namespace Block

theorem checkOnlyOneCoinbase_eq_ok {first : Transaction} {rest : List Transaction}
    (h : checkOnlyOneCoinbase first rest = .ok ()) :
    first.isCoinbase = true ∧ ∀ tx ∈ rest, tx.isCoinbase = false := by
  unfold checkOnlyOneCoinbase at h
  split at h
  · cases h
  · rename_i hfirst
    refine ⟨by simpa using hfirst, ?_⟩
    split at h
    · cases h
    · rename_i hnone
      intro tx htx
      simpa using List.findIdx?_eq_none_iff.mp hnone tx htx

theorem checkTransactionsInIsolation_eq_ok {validator : TransactionValidator}
    {txs : List Transaction} (h : checkTransactionsInIsolation validator txs = .ok ()) :
    ∀ tx ∈ txs, validator.validateTxInIsolation tx = .ok () := by
  induction txs with
  | nil => intro tx htx; cases htx
  | cons tx rest ih =>
    unfold checkTransactionsInIsolation at h
    split at h
    · cases h
    · rename_i hok
      intro t ht
      rcases List.mem_cons.mp ht with rfl | ht
      · exact hok
      · exact ih h t ht

theorem checkBlockDoubleSpends_eq_ok {txs : List Transaction}
    (h : checkBlockDoubleSpends txs = .ok ()) : (spentOutpoints txs).Nodup := by
  unfold checkBlockDoubleSpends at h
  split at h
  · cases h
  · rename_i hnone
    exact (firstRepeated_eq_none.mp hnone).2

theorem checkNoChainedTransactions_eq_ok {txs : List Transaction}
    (h : checkNoChainedTransactions txs = .ok ()) :
    ∀ o ∈ spentOutpoints txs, o ∉ createdOutpoints txs := by
  unfold checkNoChainedTransactions at h
  split at h
  · cases h
  · rename_i hnone
    intro o ho
    simpa using List.find?_eq_none.mp hnone o ho

theorem spentOutpoints_append (txs txs' : List Transaction) :
    spentOutpoints (txs ++ txs') = spentOutpoints txs ++ spentOutpoints txs' :=
  List.flatMap_append

theorem createdOutpoints_append (txs txs' : List Transaction) :
    createdOutpoints (txs ++ txs') = createdOutpoints txs ++ createdOutpoints txs' :=
  List.flatMap_append

theorem spentOutpoints_concat (txs : List Transaction) (tx : Transaction) :
    spentOutpoints (txs ++ [tx]) = spentOutpoints txs ++ tx.spentOutpoints := by
  simp [spentOutpoints]

theorem createdOutpoints_concat (txs : List Transaction) (tx : Transaction) :
    createdOutpoints (txs ++ [tx]) = createdOutpoints txs ++ tx.createdOutpoints := by
  simp [createdOutpoints]

/-- What the UTXO validation of a mergeset needs of the transactions of a block after its
coinbase: each spends something and creates distinct outpoints, and together they spend no
outpoint twice and none that one of them creates. It holds of every sublist as well. -/
structure SpendRules (txs : List Transaction) : Prop where
  spent_ne_nil : ∀ tx ∈ txs, tx.spentOutpoints ≠ []
  created_nodup : ∀ tx ∈ txs, tx.createdOutpoints.Nodup
  spent_nodup : (spentOutpoints txs).Nodup
  not_chained : ∀ o ∈ spentOutpoints txs, o ∉ createdOutpoints txs

theorem SpendRules.sublist {txs txs' : List Transaction} (h : SpendRules txs)
    (hsub : txs'.Sublist txs) : SpendRules txs' where
  spent_ne_nil tx htx := h.spent_ne_nil tx (hsub.subset htx)
  created_nodup tx htx := h.created_nodup tx (hsub.subset htx)
  spent_nodup := h.spent_nodup.sublist (hsub.flatMap _)
  not_chained o ho hc :=
    h.not_chained o ((hsub.flatMap _).subset ho) ((hsub.flatMap _).subset hc)

theorem SpendRules.spentOutpoints_nodup {txs : List Transaction} (h : SpendRules txs)
    {tx : Transaction} (htx : tx ∈ txs) : tx.spentOutpoints.Nodup :=
  (List.nodup_flatMap.mp h.spent_nodup).1 tx htx

/-- The transactions before one leave what it spends alone: they neither spend nor create it. -/
theorem SpendRules.not_mem_earlier {before rest : List Transaction} {tx : Transaction}
    (h : SpendRules (before ++ tx :: rest)) {o : TransactionOutpoint}
    (ho : o ∈ tx.spentOutpoints) :
    o ∉ spentOutpoints before ∧ o ∉ createdOutpoints before := by
  have hmem : o ∈ spentOutpoints (tx :: rest) := List.mem_flatMap.mpr ⟨tx, List.mem_cons_self, ho⟩
  constructor
  · intro hbefore
    have hnd := h.spent_nodup
    rw [spentOutpoints_append] at hnd
    exact (List.nodup_append.mp hnd).2.2 o hbefore o hmem rfl
  · intro hcreated
    refine h.not_chained o ?_ ?_
    · rw [spentOutpoints_append]
      exact List.mem_append_right _ hmem
    · rw [createdOutpoints_append]
      exact List.mem_append_left _ hcreated

/-- A block valid in isolation is its coinbase, spending nothing and creating distinct
outpoints, followed by transactions that keep the spending rules. -/
theorem validateBodyInIsolation_eq_ok {validator : TransactionValidator} {block : Block}
    (h : validateBodyInIsolation validator block = .ok ())
    (houtputs : validator.maxTxOutputs ≤ 2 ^ 32) :
    ∃ coinbase rest, block.transactions = coinbase :: rest ∧ coinbase.isCoinbase = true ∧
      coinbase.inputs = [] ∧ coinbase.createdOutpoints.Nodup ∧ SpendRules rest := by
  cases hblock : block.transactions with
  | nil => simp [validateBodyInIsolation, hblock] at h
  | cons coinbase rest =>
    simp only [validateBodyInIsolation, hblock] at h
    obtain ⟨⟨⟩, hcb, h⟩ := Except.bind_eq_ok.mp h
    obtain ⟨⟨⟩, hiso, h⟩ := Except.bind_eq_ok.mp h
    obtain ⟨⟨⟩, -, h⟩ := Except.bind_eq_ok.mp h
    obtain ⟨⟨⟩, hdouble, hchained⟩ := Except.bind_eq_ok.mp h
    obtain ⟨hfirst, hrest⟩ := checkOnlyOneCoinbase_eq_ok hcb
    have htxs := checkTransactionsInIsolation_eq_ok hiso
    have hspent := checkBlockDoubleSpends_eq_ok hdouble
    have hchain := checkNoChainedTransactions_eq_ok hchained
    have hcreated : ∀ tx ∈ coinbase :: rest, tx.createdOutpoints.Nodup := fun tx htx =>
      Transaction.createdOutpoints_nodup
        ((TransactionValidator.validateTxInIsolation_eq_ok (htxs tx htx)).2.1.trans houtputs)
    have hsub : rest.Sublist (coinbase :: rest) := List.sublist_cons_self coinbase rest
    refine ⟨coinbase, rest, rfl, hfirst,
      (TransactionValidator.validateTxInIsolation_eq_ok (htxs coinbase List.mem_cons_self)).2.2.1
        hfirst, hcreated coinbase List.mem_cons_self, ?_⟩
    exact ⟨fun tx htx => (TransactionValidator.validateTxInIsolation_eq_ok
        (htxs tx (hsub.subset htx))).1 (hrest tx htx),
      fun tx htx => hcreated tx (hsub.subset htx), hspent.sublist (hsub.flatMap _),
      fun o ho hc => hchain o ((hsub.flatMap _).subset ho) ((hsub.flatMap _).subset hc)⟩

end Block

end Vecno
