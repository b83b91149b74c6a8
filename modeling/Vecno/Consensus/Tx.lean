import Mathlib.Data.List.Nodup
import Vecno.Consensus.Hash

/-!
# Transactions and UTXO entries

The records of `consensus/core/src/tx.rs` that the UTXO code reads, with only the fields it reads.
-/

namespace Vecno

abbrev TransactionId := Hash

/-- `ScriptPublicKey`: a version and the script bytes. -/
structure ScriptPublicKey where
  version : UInt16
  script : List UInt8
deriving DecidableEq

/-- `TransactionOutpoint`: the transaction and the index of the output within it. -/
structure TransactionOutpoint where
  transactionId : TransactionId
  index : UInt32
deriving DecidableEq

structure UtxoEntry where
  amount : UInt64
  scriptPublicKey : ScriptPublicKey
  blockDaaScore : UInt64
  isCoinbase : Bool
deriving DecidableEq

def subnetworkIdSize : Nat := 20

structure SubnetworkId where
  bytes : List UInt8
  length_bytes : bytes.length = subnetworkIdSize
deriving DecidableEq

/-- `SUBNETWORK_ID_COINBASE`, that is `SubnetworkId::from_byte(1)`. -/
def subnetworkIdCoinbase : SubnetworkId :=
  ⟨1 :: List.replicate 19 0, rfl⟩

def subnetworkIdNative : SubnetworkId :=
  ⟨List.replicate 20 0, rfl⟩

/-- `TransactionInput`: the outpoint it spends. -/
structure TransactionInput where
  previousOutpoint : TransactionOutpoint
deriving DecidableEq

structure TransactionOutput where
  value : UInt64
  scriptPublicKey : ScriptPublicKey
deriving DecidableEq

/-- `Transaction`, with its id as cached by `finalize`. -/
structure Transaction where
  inputs : List TransactionInput
  outputs : List TransactionOutput
  subnetworkId : SubnetworkId
  payload : List UInt8
  id : TransactionId
deriving DecidableEq

def Transaction.isCoinbase (tx : Transaction) : Bool :=
  tx.subnetworkId == subnetworkIdCoinbase

/-- The outpoint of a transaction's output at position `i` (`i as u32`). -/
def Transaction.outpoint (tx : Transaction) (i : Nat) : TransactionOutpoint :=
  ⟨tx.id, UInt32.ofNat i⟩

/-- The outpoints a transaction's inputs spend, in order. -/
def Transaction.spentOutpoints (tx : Transaction) : List TransactionOutpoint :=
  tx.inputs.map (·.previousOutpoint)

/-- The outpoints of a transaction's outputs. -/
def Transaction.createdOutpoints (tx : Transaction) : List TransactionOutpoint :=
  (List.range tx.outputs.length).map tx.outpoint

/-- The entries a transaction's outputs become, each at its outpoint, with the given DAA score
(`UtxoEntry::new` in `add_transaction`). -/
def Transaction.createdEntries (tx : Transaction) (blockDaaScore : UInt64) :
    List (TransactionOutpoint × UtxoEntry) :=
  tx.outputs.zipIdx.map fun output =>
    (tx.outpoint output.2,
      ⟨output.1.value, output.1.scriptPublicKey, blockDaaScore, tx.isCoinbase⟩)

/-- `PopulatedTransaction`: a transaction with the entry each input spends. -/
structure PopulatedTransaction where
  tx : Transaction
  entries : List UtxoEntry

/-- `ValidatedTransaction`: a populated transaction that passed validation, with its fee. The
entries line up with the inputs, as `PopulatedTransaction::new` asserts. -/
structure ValidatedTransaction where
  tx : Transaction
  entries : List UtxoEntry
  calculatedFee : UInt64
  length_entries : entries.length = tx.inputs.length

/-- `ValidatedTransaction::new_coinbase`: a coinbase, spending nothing and paying no fee. The code
builds it without entries and indexes them in `add_transaction`, which panics if the coinbase has
inputs; here the panic is raised when it is built. -/
def ValidatedTransaction.newCoinbase (tx : Transaction) : Except String ValidatedTransaction :=
  if !tx.isCoinbase then .error "assertion failed: tx.is_coinbase()"
  else if h : tx.inputs.length = 0 then .ok ⟨tx, [], 0, h.symm⟩
  else .error "index out of bounds"

def ValidatedTransaction.populatedInputs (vtx : ValidatedTransaction) :
    List (TransactionInput × UtxoEntry) :=
  vtx.tx.inputs.zip vtx.entries

/-- With at most 2^32 outputs the `u32` indices do not wrap, so the outpoints are distinct. -/
theorem Transaction.createdOutpoints_nodup {tx : Transaction} (h : tx.outputs.length ≤ 2 ^ 32) :
    tx.createdOutpoints.Nodup := by
  refine List.Nodup.map_on ?_ List.nodup_range
  intro i hi j hj hij
  have hi' : i < 2 ^ 32 := lt_of_lt_of_le (List.mem_range.mp hi) h
  have hj' : j < 2 ^ 32 := lt_of_lt_of_le (List.mem_range.mp hj) h
  have hidx := congrArg (fun o => o.index.toNat) hij
  simp [Transaction.outpoint] at hidx
  omega

theorem ValidatedTransaction.newCoinbase_eq_ok {tx : Transaction} (hcb : tx.isCoinbase = true)
    (hinputs : tx.inputs = []) :
    ∃ vtx, ValidatedTransaction.newCoinbase tx = .ok vtx ∧ vtx.tx = tx ∧ vtx.populatedInputs = [] := by
  have hlen : tx.inputs.length = 0 := by rw [hinputs]; rfl
  refine ⟨⟨tx, [], 0, hlen.symm⟩, ?_, rfl, ?_⟩
  · simp [ValidatedTransaction.newCoinbase, hcb, hlen]
  · simp [ValidatedTransaction.populatedInputs]

end Vecno
