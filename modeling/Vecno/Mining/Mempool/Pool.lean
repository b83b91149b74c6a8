import Vecno.Consensus.Tx
import Vecno.Lib.Bfs
import Vecno.Lib.Checked
import Vecno.Lib.SetMap

/-!
# Mempool transactions and the `Pool` trait

`MempoolTransaction`, the mempool maps as association lists, the `RuleError`s the orphan pool
returns, and the `Pool` defaults; `get_redeemer_ids_in_pool` is the search of `Lib.Bfs`.
-/

namespace Vecno.Mempool

open Relation

inductive Priority where
  | low
  | high
deriving DecidableEq, Repr

/-- `MutableTransaction`: a transaction, the entry each input spends where it is known, and the
compute mass once calculated. The fee is left out: nothing modelled reads it. -/
structure MutableTransaction where
  tx : Transaction
  entries : List (Option UtxoEntry)
  calculatedComputeMass : Option UInt64
deriving DecidableEq

def MutableTransaction.id (mtx : MutableTransaction) : TransactionId :=
  mtx.tx.id

structure MempoolTransaction where
  mtx : MutableTransaction
  priority : Priority
  addedAtDaaScore : UInt64
deriving DecidableEq

/-- `MempoolTransaction::new`, whose `assert_eq!` wants an entry slot for every input. -/
def MempoolTransaction.new (mtx : MutableTransaction) (priority : Priority)
    (addedAtDaaScore : UInt64) : Except String MempoolTransaction :=
  if mtx.tx.inputs.length = mtx.entries.length then .ok ⟨mtx, priority, addedAtDaaScore⟩
  else .error (Checked.assertEqFailed mtx.tx.inputs.length mtx.entries.length)

def MempoolTransaction.id (transaction : MempoolTransaction) : TransactionId :=
  transaction.mtx.id

/-- `MempoolTransactionCollection`: the transactions of a pool by id. -/
abbrev MempoolTransactionCollection := AList fun _ : TransactionId => MempoolTransaction

/-- `TransactionsEdges`: for a transaction, the set of the transactions chained to it. -/
abbrev TransactionsEdges := AList fun _ : TransactionId => List TransactionId

/-- `OutpointIndex`: the transaction that spends an outpoint. -/
abbrev OutpointIndex := AList fun _ : TransactionOutpoint => TransactionId

/-- The variants of `RuleError` (`mining/errors/src/mempool.rs`) that the orphan pool returns. -/
inductive RuleError where
  | rejectBadOrphanMass (mass max : UInt64)
  | rejectDuplicateOrphan (id : TransactionId)
  | rejectDoubleSpendOrphan (id doubleSpendId : TransactionId)
  | rejectMissingOrphanOutpoint (index : Nat) (id : TransactionId) (outpoint : TransactionOutpoint)
  | rejectMissingOrphanTransaction (id : TransactionId)
  | rejectOrphanPoolIsFull (len : Nat) (max : UInt64)
deriving DecidableEq

/-- How a mempool method ends other than with a value: the `RuleError` it returns, a panic, or
the model's fuel running out where the source loops. -/
inductive MempoolAbort where
  | err (error : RuleError)
  | panic (message : String)
  | outOfFuel
deriving DecidableEq

namespace Pool

variable (all : MempoolTransactionCollection) (chained : TransactionsEdges)

def has (transactionId : TransactionId) : Bool :=
  (all.lookup transactionId).isSome

def len : Nat :=
  all.entries.length

/-- `Pool::get_parent_transaction_ids_in_pool`: the ids of the pool's transactions that an input
spends from, as a set. -/
def getParentTransactionIdsInPool (transaction : MutableTransaction) : List TransactionId :=
  transaction.tx.inputs.foldl (fun parents input =>
    if has all input.previousOutpoint.transactionId then
      parents.insert input.previousOutpoint.transactionId
    else parents) []

/-- The set `chained()` holds for a transaction's id, empty when it holds none. -/
def chainsOf (transaction : MempoolTransaction) : List TransactionId :=
  (chained.lookup transaction.id).getD []

/-- `Pool::get_redeemer_ids_in_pool`: the breadth-first search from the transaction, with fuel
for every transaction of the pool. -/
def getRedeemerIdsInPool (transactionId : TransactionId) : List TransactionId :=
  (Bfs.search all.lookup (chainsOf chained) (len all + 2) transactionId).getD []

/-- The edge the search follows: from a transaction of the pool to one of the pool chained to it. -/
def Redeems (a b : TransactionId) : Prop :=
  ∃ transaction, all.lookup a = some transaction ∧ b ∈ chainsOf chained transaction ∧ b ∈ all

variable {all chained}

@[simp] theorem has_eq_true {transactionId : TransactionId} :
    has all transactionId = true ↔ transactionId ∈ all :=
  AList.lookup_isSome

theorem len_eq_length_keys : len all = all.keys.length := by
  simp [len, AList.keys, List.keys]

/-- The parents in the pool are the pool's transactions an input spends from, each once. -/
theorem mem_getParentTransactionIdsInPool {transaction : MutableTransaction} {p : TransactionId} :
    p ∈ getParentTransactionIdsInPool all transaction ↔
      p ∈ all ∧ ∃ input ∈ transaction.tx.inputs, input.previousOutpoint.transactionId = p := by
  have hfold : ∀ (inputs : List TransactionInput) (parents : List TransactionId),
      p ∈ inputs.foldl (fun parents input =>
        if has all input.previousOutpoint.transactionId then
          parents.insert input.previousOutpoint.transactionId
        else parents) parents ↔
      p ∈ parents ∨ (p ∈ all ∧ ∃ input ∈ inputs, input.previousOutpoint.transactionId = p) := by
    intro inputs
    induction inputs with
    | nil => simp
    | cons input inputs ih =>
      intro parents
      rw [List.foldl_cons, ih]
      split
      · rename_i hhas
        rw [has_eq_true] at hhas
        simp only [List.mem_insert_iff, List.mem_cons, exists_eq_or_imp]
        constructor
        · rintro ((rfl | h) | ⟨hp, h⟩)
          · exact .inr ⟨hhas, .inl rfl⟩
          · exact .inl h
          · exact .inr ⟨hp, .inr h⟩
        · rintro (h | ⟨hp, rfl | h⟩)
          · exact .inl (.inr h)
          · exact .inl (.inl rfl)
          · exact .inr ⟨hp, h⟩
      · rename_i hhas
        rw [has_eq_true] at hhas
        simp only [List.mem_cons, exists_eq_or_imp]
        constructor
        · rintro (h | ⟨hp, h⟩)
          · exact .inl h
          · exact .inr ⟨hp, .inr h⟩
        · rintro (h | ⟨hp, rfl | h⟩)
          · exact .inl h
          · exact absurd hp hhas
          · exact .inr ⟨hp, h⟩
  rw [getParentTransactionIdsInPool, hfold]
  simp

theorem nodup_getParentTransactionIdsInPool (transaction : MutableTransaction) :
    (getParentTransactionIdsInPool all transaction).Nodup := by
  have hfold : ∀ (inputs : List TransactionInput) (parents : List TransactionId), parents.Nodup →
      (inputs.foldl (fun parents input =>
        if has all input.previousOutpoint.transactionId then
          parents.insert input.previousOutpoint.transactionId
        else parents) parents).Nodup := by
    intro inputs
    induction inputs with
    | nil => exact fun _ h => h
    | cons input inputs ih =>
      intro parents hparents
      rw [List.foldl_cons]
      apply ih
      split
      · exact hparents.insert
      · exact hparents
  exact hfold _ [] List.nodup_nil

theorem redeems_iff_step {a b : TransactionId} :
    Redeems all chained a b ↔ Bfs.Step all.lookup (chainsOf chained) a b := by
  simp only [Redeems, Bfs.Step, AList.lookup_isSome]

/-- `get_redeemer_ids_in_pool` returns, each once, exactly the transactions reachable from the
start through edges of the pool; a start outside the pool reaches none. -/
theorem getRedeemerIdsInPool_spec (transactionId : TransactionId) :
    (getRedeemerIdsInPool all chained transactionId).Nodup ∧
      ∀ x, x ∈ getRedeemerIdsInPool all chained transactionId ↔
        TransGen (Redeems all chained) transactionId x := by
  have hU : ∀ a, (all.lookup a).isSome → a ∈ all.keys :=
    fun a ha => AList.mem_keys.mp (AList.lookup_isSome.mp ha)
  have hfuel : all.keys.length + 2 ≤ len all + 2 := by rw [len_eq_length_keys]
  obtain ⟨r, hr, hnd, hmem⟩ := Bfs.search_eq_some all.lookup (chainsOf chained) hU hfuel transactionId
  have hsteps : Redeems all chained = Bfs.Step all.lookup (chainsOf chained) := by
    funext a b
    exact propext redeems_iff_step
  rw [getRedeemerIdsInPool, hr, Option.getD_some, hsteps]
  exact ⟨hnd, hmem⟩

end Pool

end Vecno.Mempool
