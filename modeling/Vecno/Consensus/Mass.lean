import Mathlib.Algebra.Order.BigOperators.Group.List
import Mathlib.Algebra.Order.Group.Nat
import Mathlib.Data.List.Forall2
import Vecno.Lib.Checked
import Vecno.Consensus.Tx

/-!
# The compute mass of a transaction

`consensus/core/src/mass/mod.rs` on `u64` with overflow checks, beside the numbers it computes:
a computation succeeds exactly when every intermediate value fits.
-/

namespace Vecno.Mass

/-- `TransactionInput`, with the fields the mass reads: the signature script and the number of
signature operations it declares. -/
structure TransactionInput where
  signatureScript : List UInt8
  sigOpCount : UInt8
deriving DecidableEq

/-- `Transaction`, with the fields the mass reads. -/
structure Transaction where
  inputs : List TransactionInput
  outputs : List TransactionOutput
  subnetworkId : SubnetworkId
  payload : List UInt8
deriving DecidableEq

def Transaction.isCoinbase (tx : Transaction) : Bool :=
  tx.subnetworkId == subnetworkIdCoinbase

/-- The mass parameters of `Params`. -/
structure Params where
  massPerTxByte : UInt64
  massPerScriptPubKeyByte : UInt64
  massPerSigOp : UInt64

/-- `MassCalculator`, without the storage mass parameter, which the compute mass does not read. -/
structure MassCalculator where
  massPerTxByte : UInt64
  massPerScriptPubKeyByte : UInt64
  massPerSigOp : UInt64

def MassCalculator.newWithConsensusParams (params : Params) : MassCalculator :=
  ⟨params.massPerTxByte, params.massPerScriptPubKeyByte, params.massPerSigOp⟩

/-- `outpoint_estimated_serialized_size`, a constant the compiler evaluates. -/
def outpointEstimatedSerializedSize : Nat :=
  hashSize + 4

def transactionInputEstimatedSerializedSize (input : TransactionInput) : Except String Nat := do
  let size ← Checked.add 64 0 outpointEstimatedSerializedSize
  let size ← Checked.add 64 size 8
  let size ← Checked.add 64 size input.signatureScript.length
  Checked.add 64 size 8

def transactionOutputEstimatedSerializedSize (output : TransactionOutput) : Except String Nat := do
  let size ← Checked.add 64 0 8
  let size ← Checked.add 64 size 2
  let size ← Checked.add 64 size 8
  Checked.add 64 size output.scriptPublicKey.script.length

def transactionEstimatedSerializedSize (tx : Transaction) : Except String Nat := do
  let size ← Checked.add 64 0 2
  let size ← Checked.add 64 size 8
  let inputsSize ← Checked.sumMap 64 transactionInputEstimatedSerializedSize tx.inputs
  let size ← Checked.add 64 size inputsSize
  let size ← Checked.add 64 size 8
  let outputsSize ← Checked.sumMap 64 transactionOutputEstimatedSerializedSize tx.outputs
  let size ← Checked.add 64 size outputsSize
  let size ← Checked.add 64 size 8
  let size ← Checked.add 64 size subnetworkIdSize
  let size ← Checked.add 64 size 8
  let size ← Checked.add 64 size hashSize
  let size ← Checked.add 64 size 8
  Checked.add 64 size tx.payload.length

def MassCalculator.calcTxComputeMass (c : MassCalculator) (tx : Transaction) : Except String Nat :=
  if tx.isCoinbase then .ok 0 else do
    let size ← transactionEstimatedSerializedSize tx
    let massForSize ← Checked.mul 64 size c.massPerTxByte.toNat
    let totalScriptPublicKeySize ← Checked.sumMap 64
      (fun output => Checked.add 64 2 output.scriptPublicKey.script.length) tx.outputs
    let totalScriptPublicKeyMass ←
      Checked.mul 64 totalScriptPublicKeySize c.massPerScriptPubKeyByte.toNat
    let totalSigops ← Checked.sumMap 64 (fun input => .ok input.sigOpCount.toNat) tx.inputs
    let totalSigopsMass ← Checked.mul 64 totalSigops c.massPerSigOp.toNat
    let mass ← Checked.add 64 massForSize totalScriptPublicKeyMass
    Checked.add 64 mass totalSigopsMass

/-! ## What the computations compute -/

/-- The serialized size of an input. -/
def inputSize (input : TransactionInput) : Nat :=
  outpointEstimatedSerializedSize + 8 + input.signatureScript.length + 8

/-- The serialized size of an output. -/
def outputSize (output : TransactionOutput) : Nat :=
  8 + 2 + 8 + output.scriptPublicKey.script.length

/-- The estimated serialized size of a transaction. -/
def serializedSize (tx : Transaction) : Nat :=
  2 + 8 + (tx.inputs.map inputSize).sum + 8 + (tx.outputs.map outputSize).sum + 8 + subnetworkIdSize +
    8 + hashSize + 8 + tx.payload.length

/-- The script public keys' bytes, versions included. -/
def scriptPublicKeySize (tx : Transaction) : Nat :=
  (tx.outputs.map fun output => 2 + output.scriptPublicKey.script.length).sum

/-- The signature operations the inputs declare. -/
def sigOps (tx : Transaction) : Nat :=
  (tx.inputs.map fun input => input.sigOpCount.toNat).sum

/-- The compute mass of a transaction that is not a coinbase. -/
def MassCalculator.computeMass (c : MassCalculator) (tx : Transaction) : Nat :=
  serializedSize tx * c.massPerTxByte.toNat + scriptPublicKeySize tx * c.massPerScriptPubKeyByte.toNat +
    sigOps tx * c.massPerSigOp.toNat

/-- The compute mass of `tx` and the sums it is scaled from fit in `u64`. -/
structure MassCalculator.NoOverflow (c : MassCalculator) (tx : Transaction) : Prop where
  serializedSize_lt : serializedSize tx < 2 ^ 64
  scriptPublicKeySize_lt : scriptPublicKeySize tx < 2 ^ 64
  sigOps_lt : sigOps tx < 2 ^ 64
  computeMass_lt : c.computeMass tx < 2 ^ 64

theorem transactionInputEstimatedSerializedSize_eq_ok {input : TransactionInput} {v : Nat} :
    transactionInputEstimatedSerializedSize input = .ok v ↔ inputSize input < 2 ^ 64 ∧ v = inputSize input := by
  unfold transactionInputEstimatedSerializedSize inputSize
  simp only [Except.bind_eq_ok, Checked.add_eq_ok]
  constructor
  · rintro ⟨_, ⟨_, rfl⟩, _, ⟨_, rfl⟩, _, ⟨_, rfl⟩, hlt, rfl⟩
    omega
  · rintro ⟨hlt, rfl⟩
    exact ⟨_, ⟨by omega, rfl⟩, _, ⟨by omega, rfl⟩, _, ⟨by omega, rfl⟩, by omega, by omega⟩

theorem transactionOutputEstimatedSerializedSize_eq_ok {output : TransactionOutput} {v : Nat} :
    transactionOutputEstimatedSerializedSize output = .ok v ↔
      outputSize output < 2 ^ 64 ∧ v = outputSize output := by
  unfold transactionOutputEstimatedSerializedSize outputSize
  simp only [Except.bind_eq_ok, Checked.add_eq_ok]
  constructor
  · rintro ⟨_, ⟨_, rfl⟩, _, ⟨_, rfl⟩, _, ⟨_, rfl⟩, hlt, rfl⟩
    omega
  · rintro ⟨hlt, rfl⟩
    exact ⟨_, ⟨by omega, rfl⟩, _, ⟨by omega, rfl⟩, _, ⟨by omega, rfl⟩, by omega, by omega⟩

theorem sum_inputSize_le (tx : Transaction) : (tx.inputs.map inputSize).sum ≤ serializedSize tx := by
  unfold serializedSize
  omega

theorem sum_outputSize_le (tx : Transaction) : (tx.outputs.map outputSize).sum ≤ serializedSize tx := by
  unfold serializedSize
  omega

theorem transactionEstimatedSerializedSize_eq_ok {tx : Transaction} {v : Nat} :
    transactionEstimatedSerializedSize tx = .ok v ↔ serializedSize tx < 2 ^ 64 ∧ v = serializedSize tx := by
  constructor
  · intro h
    unfold transactionEstimatedSerializedSize at h
    simp only [Except.bind_eq_ok, Checked.add_eq_ok] at h
    obtain ⟨_, ⟨_, rfl⟩, _, ⟨_, rfl⟩, si, hsi, _, ⟨_, rfl⟩, _, ⟨_, rfl⟩, so, hso, _, ⟨_, rfl⟩,
      _, ⟨_, rfl⟩, _, ⟨_, rfl⟩, _, ⟨_, rfl⟩, _, ⟨_, rfl⟩, _, ⟨_, rfl⟩, hlt, rfl⟩ := h
    obtain ⟨rfl, -⟩ := @Checked.sumMap_eq_ok _ _ _ inputSize
      (fun _ _ h => (transactionInputEstimatedSerializedSize_eq_ok.mp h).2) _ _ hsi
    obtain ⟨rfl, -⟩ := @Checked.sumMap_eq_ok _ _ _ outputSize
      (fun _ _ h => (transactionOutputEstimatedSerializedSize_eq_ok.mp h).2) _ _ hso
    unfold serializedSize
    omega
  · rintro ⟨hlt, rfl⟩
    -- every input and output is part of the total, so each of their sizes fits
    have hin : ∀ input ∈ tx.inputs, transactionInputEstimatedSerializedSize input = .ok (inputSize input) :=
      fun input h => transactionInputEstimatedSerializedSize_eq_ok.mpr ⟨by
        have : inputSize input ∈ tx.inputs.map inputSize := List.mem_map_of_mem h
        have := List.le_sum_of_mem this
        have := sum_inputSize_le tx
        omega, rfl⟩
    have hout : ∀ output ∈ tx.outputs,
        transactionOutputEstimatedSerializedSize output = .ok (outputSize output) :=
      fun output h => transactionOutputEstimatedSerializedSize_eq_ok.mpr ⟨by
        have : outputSize output ∈ tx.outputs.map outputSize := List.mem_map_of_mem h
        have := List.le_sum_of_mem this
        have := sum_outputSize_le tx
        omega, rfl⟩
    have hsi := sum_inputSize_le tx
    have hso := sum_outputSize_le tx
    unfold transactionEstimatedSerializedSize
    unfold serializedSize at hlt hsi hso ⊢
    rw [Checked.add_of_lt (by omega), Except.ok_bind, Checked.add_of_lt (by omega), Except.ok_bind,
      Checked.sumMap_of_lt hin (by omega), Except.ok_bind, Checked.add_of_lt (by omega), Except.ok_bind,
      Checked.add_of_lt (by omega), Except.ok_bind, Checked.sumMap_of_lt hout (by omega), Except.ok_bind,
      Checked.add_of_lt (by omega), Except.ok_bind, Checked.add_of_lt (by omega), Except.ok_bind,
      Checked.add_of_lt (by omega), Except.ok_bind, Checked.add_of_lt (by omega), Except.ok_bind,
      Checked.add_of_lt (by omega), Except.ok_bind, Checked.add_of_lt (by omega), Except.ok_bind,
      Checked.add_of_lt (by omega)]

/-- The compute mass of a transaction that is not a coinbase succeeds exactly when nothing
overflows, and is then the formula. -/
theorem calcTxComputeMass_eq_ok {c : MassCalculator} {tx : Transaction} (hcb : tx.isCoinbase = false)
    {w : Nat} : c.calcTxComputeMass tx = .ok w ↔ c.NoOverflow tx ∧ w = c.computeMass tx := by
  rw [MassCalculator.calcTxComputeMass, if_neg (by rw [hcb]; decide)]
  constructor
  · intro h
    simp only [Except.bind_eq_ok, Checked.add_eq_ok, Checked.mul_eq_ok] at h
    obtain ⟨size, hsize, _, ⟨hmsize, rfl⟩, spk, hspk, _, ⟨hmspk, rfl⟩, sigops, hsigops, _,
      ⟨hmsigops, rfl⟩, _, ⟨_, rfl⟩, hlt, rfl⟩ := h
    obtain ⟨hsizeLt, rfl⟩ := transactionEstimatedSerializedSize_eq_ok.mp hsize
    obtain ⟨rfl, hspkLt⟩ := @Checked.sumMap_eq_ok _ _ _
      (fun output : TransactionOutput => 2 + output.scriptPublicKey.script.length)
      (fun _ _ h => (Checked.add_eq_ok.mp h).2) _ _ hspk
    obtain ⟨rfl, hsigopsLt⟩ := @Checked.sumMap_eq_ok _ _ _ (fun input : TransactionInput => input.sigOpCount.toNat)
      (fun _ _ h => (Except.ok.inj h).symm) _ _ hsigops
    exact ⟨⟨hsizeLt, hspkLt, hsigopsLt, hlt⟩, rfl⟩
  · rintro ⟨⟨hsize, hspk, hsigops, hlt⟩, rfl⟩
    have hout : ∀ output ∈ tx.outputs, Checked.add 64 2 output.scriptPublicKey.script.length =
        .ok (2 + output.scriptPublicKey.script.length) := by
      intro output h
      have hmem : 2 + output.scriptPublicKey.script.length ∈
          tx.outputs.map fun output => 2 + output.scriptPublicKey.script.length :=
        List.mem_map_of_mem h
      have := List.le_sum_of_mem hmem
      exact Checked.add_of_lt (by unfold scriptPublicKeySize at hspk; omega)
    unfold MassCalculator.computeMass at hlt ⊢
    rw [transactionEstimatedSerializedSize_eq_ok.mpr ⟨hsize, rfl⟩, Except.ok_bind,
      Checked.mul_of_lt (by omega), Except.ok_bind, Checked.sumMap_of_lt hout hspk, Except.ok_bind,
      Checked.mul_of_lt (by unfold scriptPublicKeySize at hlt; omega), Except.ok_bind,
      Checked.sumMap_of_lt (fun _ _ => rfl) hsigops, Except.ok_bind,
      Checked.mul_of_lt (by unfold sigOps at hlt; omega), Except.ok_bind,
      Checked.add_of_lt (by unfold scriptPublicKeySize at hlt; omega), Except.ok_bind,
      Checked.add_of_lt (by unfold scriptPublicKeySize sigOps at hlt; omega)]
    rfl

/-! ## Signature scripts that grow

Signing a transaction fills its inputs' signature scripts. A transaction whose inputs' scripts are
each `k` bytes longer has `k` more bytes of serialized size for each input, and nothing else of its
mass changes. -/

/-- `tx'` is `tx` with each input's signature script `k` bytes longer. -/
structure SignatureScriptsExtended (k : Nat) (tx tx' : Transaction) : Prop where
  inputs : List.Forall₂ (fun input input' => input'.sigOpCount = input.sigOpCount ∧
    input'.signatureScript.length = input.signatureScript.length + k) tx.inputs tx'.inputs
  outputs : tx'.outputs = tx.outputs
  subnetworkId : tx'.subnetworkId = tx.subnetworkId
  payload : tx'.payload = tx.payload

section Extended

variable {k : Nat} {tx tx' : Transaction}

theorem sum_inputSize_of_forall₂ : ∀ {ins ins' : List TransactionInput},
    List.Forall₂ (fun input input' => input'.sigOpCount = input.sigOpCount ∧
      input'.signatureScript.length = input.signatureScript.length + k) ins ins' →
    (ins'.map inputSize).sum = (ins.map inputSize).sum + ins.length * k ∧
      (ins'.map fun input => input.sigOpCount.toNat).sum = (ins.map fun input => input.sigOpCount.toNat).sum
  | _, _, .nil => ⟨by rw [List.length_nil, Nat.zero_mul, Nat.add_zero], rfl⟩
  | _, _, .cons ⟨hops, hlen⟩ hrest => by
    obtain ⟨hsize, hsigops⟩ := sum_inputSize_of_forall₂ hrest
    refine ⟨?_, ?_⟩
    · simp only [List.map_cons, List.sum_cons, List.length_cons, hsize, inputSize, hlen, Nat.succ_mul]
      omega
    · simp only [List.map_cons, List.sum_cons, hsigops, hops]

theorem SignatureScriptsExtended.serializedSize_eq (h : SignatureScriptsExtended k tx tx') :
    serializedSize tx' = serializedSize tx + tx.inputs.length * k := by
  unfold serializedSize
  rw [(sum_inputSize_of_forall₂ h.inputs).1, h.outputs, h.payload]
  omega

theorem SignatureScriptsExtended.scriptPublicKeySize_eq (h : SignatureScriptsExtended k tx tx') :
    scriptPublicKeySize tx' = scriptPublicKeySize tx := by
  rw [scriptPublicKeySize, scriptPublicKeySize, h.outputs]

theorem SignatureScriptsExtended.sigOps_eq (h : SignatureScriptsExtended k tx tx') : sigOps tx' = sigOps tx :=
  (sum_inputSize_of_forall₂ h.inputs).2

theorem SignatureScriptsExtended.isCoinbase_eq (h : SignatureScriptsExtended k tx tx') :
    tx'.isCoinbase = tx.isCoinbase := by
  rw [Transaction.isCoinbase, Transaction.isCoinbase, h.subnetworkId]

/-- The mass of the longer scripts is their bytes, at the per-byte mass. -/
theorem SignatureScriptsExtended.computeMass_eq (c : MassCalculator) (h : SignatureScriptsExtended k tx tx') :
    c.computeMass tx' = c.computeMass tx + tx.inputs.length * k * c.massPerTxByte.toNat := by
  rw [MassCalculator.computeMass, MassCalculator.computeMass, h.serializedSize_eq, h.scriptPublicKeySize_eq,
    h.sigOps_eq, Nat.add_mul]
  omega

/-- A transaction whose longer-scripted version does not overflow does not overflow itself. -/
theorem SignatureScriptsExtended.noOverflow {c : MassCalculator} (h : SignatureScriptsExtended k tx tx')
    (hfit : c.NoOverflow tx') : c.NoOverflow tx where
  serializedSize_lt := by
    have := hfit.serializedSize_lt
    rw [h.serializedSize_eq] at this
    omega
  scriptPublicKeySize_lt := h.scriptPublicKeySize_eq ▸ hfit.scriptPublicKeySize_lt
  sigOps_lt := h.sigOps_eq ▸ hfit.sigOps_lt
  computeMass_lt := by
    have := hfit.computeMass_lt
    rw [h.computeMass_eq c] at this
    omega

end Extended

end Vecno.Mass
