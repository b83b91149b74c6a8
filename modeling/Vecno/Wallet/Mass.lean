import Mathlib.Algebra.BigOperators.Ring.List
import Mathlib.Tactic.Ring
import Vecno.Consensus.Mass

/-!
# The wallet's compute mass

`wallet/core/src/tx/mass.rs` regroups the consensus formula. With overflow checks it aborts only
where consensus does, except that its signature mass may overflow with no inputs.
-/

namespace Vecno.Wallet

open Mass (inputSize outputSize serializedSize scriptPublicKeySize sigOps)

/-- `SIGNATURE_SIZE`: the data push opcode, a 64-byte signature and the sighash type. -/
def signatureSize : Nat := 1 + 64 + 1

/-- `outpoint_estimated_serialized_size` of the wallet, a constant the compiler evaluates. -/
def outpointEstimatedSerializedSize : Nat :=
  hashSize + 4

/-- `blank_transaction_serialized_byte_size`, a constant the compiler evaluates: a transaction
with no inputs, no outputs and no payload. -/
def blankTransactionSerializedByteSize : Nat :=
  2 + 8 + 8 + 8 + subnetworkIdSize + 8 + hashSize + 8

def transactionInputSerializedByteSize (input : Mass.TransactionInput) : Except String Nat := do
  let size ← Checked.add 64 0 outpointEstimatedSerializedSize
  let size ← Checked.add 64 size 8
  let size ← Checked.add 64 size input.signatureScript.length
  Checked.add 64 size 8

def transactionOutputSerializedByteSize (output : TransactionOutput) : Except String Nat := do
  let size ← Checked.add 64 0 8
  let size ← Checked.add 64 size 2
  let size ← Checked.add 64 size 8
  Checked.add 64 size output.scriptPublicKey.script.length

/-- `MassCalculator` of the wallet, without the storage mass parameter, which the compute mass
does not read. -/
structure MassCalculator where
  massPerTxByte : UInt64
  massPerScriptPubKeyByte : UInt64
  massPerSigOp : UInt64

namespace MassCalculator

def new (consensusParams : Mass.Params) : MassCalculator :=
  ⟨consensusParams.massPerTxByte, consensusParams.massPerScriptPubKeyByte, consensusParams.massPerSigOp⟩

variable (c : MassCalculator)

def blankTransactionComputeMass : Except String Nat :=
  Checked.mul 64 blankTransactionSerializedByteSize c.massPerTxByte.toNat

def calcComputeMassForPayload (payloadByteSize : Nat) : Except String Nat :=
  Checked.mul 64 payloadByteSize c.massPerTxByte.toNat

def calcComputeMassForClientTransactionOutput (output : TransactionOutput) : Except String Nat := do
  let scriptSize ← Checked.add 64 2 output.scriptPublicKey.script.length
  let scriptMass ← Checked.mul 64 c.massPerScriptPubKeyByte.toNat scriptSize
  let size ← transactionOutputSerializedByteSize output
  let sizeMass ← Checked.mul 64 size c.massPerTxByte.toNat
  Checked.add 64 scriptMass sizeMass

def calcComputeMassForClientTransactionInput (input : Mass.TransactionInput) : Except String Nat := do
  let sigOpMass ← Checked.mul 64 input.sigOpCount.toNat c.massPerSigOp.toNat
  let size ← transactionInputSerializedByteSize input
  let sizeMass ← Checked.mul 64 size c.massPerTxByte.toNat
  Checked.add 64 sigOpMass sizeMass

def calcComputeMassForClientTransactionOutputs (outputs : List TransactionOutput) : Except String Nat :=
  Checked.sumMap 64 c.calcComputeMassForClientTransactionOutput outputs

def calcComputeMassForClientTransactionInputs (inputs : List Mass.TransactionInput) : Except String Nat :=
  Checked.sumMap 64 c.calcComputeMassForClientTransactionInput inputs

def calcComputeMassForSignedConsensusTransaction (tx : Mass.Transaction) : Except String Nat := do
  let blankMass ← c.blankTransactionComputeMass
  let payloadMass ← c.calcComputeMassForPayload tx.payload.length
  let mass ← Checked.add 64 blankMass payloadMass
  let outputsMass ← c.calcComputeMassForClientTransactionOutputs tx.outputs
  let mass ← Checked.add 64 mass outputsMass
  let inputsMass ← c.calcComputeMassForClientTransactionInputs tx.inputs
  Checked.add 64 mass inputsMass

def calcSignatureComputeMassForInputs (numberOfInputs : Nat) (minimumSignatures : UInt16) :
    Except String Nat := do
  let mass ← Checked.mul 64 signatureSize c.massPerTxByte.toNat
  let mass ← Checked.mul 64 mass (max minimumSignatures.toNat 1)
  Checked.mul 64 mass numberOfInputs

def calcComputeMassForUnsignedConsensusTransaction (tx : Mass.Transaction) (minimumSignatures : UInt16) :
    Except String Nat := do
  let signedMass ← c.calcComputeMassForSignedConsensusTransaction tx
  let signatureMass ← c.calcSignatureComputeMassForInputs tx.inputs.length minimumSignatures
  Checked.add 64 signedMass signatureMass

/-! ## What the computations compute -/

/-- The mass of an output: its script public key and its serialized bytes. -/
def outputMass (output : TransactionOutput) : Nat :=
  c.massPerScriptPubKeyByte.toNat * (2 + output.scriptPublicKey.script.length) +
    outputSize output * c.massPerTxByte.toNat

/-- The mass of an input: its signature operations and its serialized bytes. -/
def inputMass (input : Mass.TransactionInput) : Nat :=
  input.sigOpCount.toNat * c.massPerSigOp.toNat + inputSize input * c.massPerTxByte.toNat

/-- The consensus calculator with the same masses. -/
def toConsensus : Mass.MassCalculator :=
  ⟨c.massPerTxByte, c.massPerScriptPubKeyByte, c.massPerSigOp⟩

@[simp] theorem toConsensus_massPerTxByte : c.toConsensus.massPerTxByte = c.massPerTxByte :=
  rfl

@[simp] theorem toConsensus_massPerScriptPubKeyByte :
    c.toConsensus.massPerScriptPubKeyByte = c.massPerScriptPubKeyByte :=
  rfl

@[simp] theorem toConsensus_massPerSigOp : c.toConsensus.massPerSigOp = c.massPerSigOp :=
  rfl

theorem sum_outputMass (outputs : List TransactionOutput) :
    (outputs.map c.outputMass).sum =
      c.massPerScriptPubKeyByte.toNat * (outputs.map fun output => 2 + output.scriptPublicKey.script.length).sum +
        (outputs.map outputSize).sum * c.massPerTxByte.toNat := by
  unfold outputMass
  rw [List.sum_map_add, List.sum_map_mul_left, List.sum_map_mul_right]

theorem sum_inputMass (inputs : List Mass.TransactionInput) :
    (inputs.map c.inputMass).sum =
      (inputs.map fun input => input.sigOpCount.toNat).sum * c.massPerSigOp.toNat +
        (inputs.map inputSize).sum * c.massPerTxByte.toNat := by
  unfold inputMass
  rw [List.sum_map_add, List.sum_map_mul_right, List.sum_map_mul_right]

/-- The wallet's sum is the consensus formula, regrouped by part: the blank transaction's bytes
are the consensus size's constant bytes. -/
theorem signedMass_eq (tx : Mass.Transaction) :
    blankTransactionSerializedByteSize * c.massPerTxByte.toNat + tx.payload.length * c.massPerTxByte.toNat +
        (tx.outputs.map c.outputMass).sum + (tx.inputs.map c.inputMass).sum =
      c.toConsensus.computeMass tx := by
  rw [sum_outputMass, sum_inputMass]
  unfold Mass.MassCalculator.computeMass toConsensus serializedSize scriptPublicKeySize sigOps
    blankTransactionSerializedByteSize
  ring

theorem transactionInputSerializedByteSize_eq :
    transactionInputSerializedByteSize = Mass.transactionInputEstimatedSerializedSize :=
  rfl

theorem transactionOutputSerializedByteSize_eq :
    transactionOutputSerializedByteSize = Mass.transactionOutputEstimatedSerializedSize :=
  rfl

theorem calcComputeMassForClientTransactionOutput_of_lt {output : TransactionOutput}
    (hscript : 2 + output.scriptPublicKey.script.length < 2 ^ 64) (hsize : outputSize output < 2 ^ 64)
    (hmass : c.outputMass output < 2 ^ 64) :
    c.calcComputeMassForClientTransactionOutput output = .ok (c.outputMass output) := by
  unfold outputMass at hmass
  rw [calcComputeMassForClientTransactionOutput, Checked.add_of_lt hscript, Except.ok_bind,
    Checked.mul_of_lt (by omega), Except.ok_bind, transactionOutputSerializedByteSize_eq,
    Mass.transactionOutputEstimatedSerializedSize_eq_ok.mpr ⟨hsize, rfl⟩, Except.ok_bind,
    Checked.mul_of_lt (by omega), Except.ok_bind, Checked.add_of_lt hmass]
  rfl

theorem calcComputeMassForClientTransactionInput_of_lt {input : Mass.TransactionInput}
    (hsize : inputSize input < 2 ^ 64) (hmass : c.inputMass input < 2 ^ 64) :
    c.calcComputeMassForClientTransactionInput input = .ok (c.inputMass input) := by
  unfold inputMass at hmass
  rw [calcComputeMassForClientTransactionInput, Checked.mul_of_lt (by omega), Except.ok_bind,
    transactionInputSerializedByteSize_eq, Mass.transactionInputEstimatedSerializedSize_eq_ok.mpr ⟨hsize, rfl⟩,
    Except.ok_bind, Checked.mul_of_lt (by omega), Except.ok_bind, Checked.add_of_lt hmass]
  rfl

theorem le_sum_map_of_mem {α : Type} {g : α → Nat} {l : List α} {a : α} (h : a ∈ l) :
    g a ≤ (l.map g).sum :=
  List.le_sum_of_mem (List.mem_map_of_mem h)

/-- Where the consensus mass does not overflow, the wallet's signed mass does not either, and is
the same number. -/
theorem calcComputeMassForSignedConsensusTransaction_of_noOverflow {tx : Mass.Transaction}
    (h : c.toConsensus.NoOverflow tx) :
    c.calcComputeMassForSignedConsensusTransaction tx = .ok (c.toConsensus.computeMass tx) := by
  have htotal := h.computeMass_lt
  rw [← signedMass_eq] at htotal
  -- each output's and input's parts are parts of the consensus sums that fit
  have hout : ∀ output ∈ tx.outputs,
      c.calcComputeMassForClientTransactionOutput output = .ok (c.outputMass output) := by
    intro output hmem
    have hscript := @le_sum_map_of_mem _ (fun output => 2 + output.scriptPublicKey.script.length) _ _ hmem
    have hsize := @le_sum_map_of_mem _ outputSize _ _ hmem
    have hmass := @le_sum_map_of_mem _ c.outputMass _ _ hmem
    have := h.scriptPublicKeySize_lt
    have := h.serializedSize_lt
    have := Mass.sum_outputSize_le tx
    unfold scriptPublicKeySize at *
    exact calcComputeMassForClientTransactionOutput_of_lt c (by omega) (by omega) (by omega)
  have hin : ∀ input ∈ tx.inputs, c.calcComputeMassForClientTransactionInput input = .ok (c.inputMass input) := by
    intro input hmem
    have hsize := @le_sum_map_of_mem _ inputSize _ _ hmem
    have hmass := @le_sum_map_of_mem _ c.inputMass _ _ hmem
    have := h.serializedSize_lt
    have := Mass.sum_inputSize_le tx
    exact calcComputeMassForClientTransactionInput_of_lt c (by omega) (by omega)
  rw [calcComputeMassForSignedConsensusTransaction, blankTransactionComputeMass, Checked.mul_of_lt (by omega),
    Except.ok_bind, calcComputeMassForPayload, Checked.mul_of_lt (by omega), Except.ok_bind,
    Checked.add_of_lt (by omega), Except.ok_bind, calcComputeMassForClientTransactionOutputs,
    Checked.sumMap_of_lt hout (by omega), Except.ok_bind, Checked.add_of_lt (by omega), Except.ok_bind,
    calcComputeMassForClientTransactionInputs, Checked.sumMap_of_lt hin (by omega), Except.ok_bind,
    Checked.add_of_lt (by omega), signedMass_eq]

/-- With at least one input, the signature mass is the signatures' bytes at the per-byte mass,
whenever that fits. -/
theorem calcSignatureComputeMassForInputs_of_lt {n : Nat} {m : UInt16} (hn : 0 < n)
    (h : n * (signatureSize * max m.toNat 1) * c.massPerTxByte.toNat < 2 ^ 64) :
    c.calcSignatureComputeMassForInputs n m =
      .ok (n * (signatureSize * max m.toNat 1) * c.massPerTxByte.toNat) := by
  have hreorder : signatureSize * c.massPerTxByte.toNat * max m.toNat 1 * n =
      n * (signatureSize * max m.toNat 1) * c.massPerTxByte.toNat := by
    ring
  -- the earlier products are factors of the last, each other factor being positive
  have hsig : signatureSize * c.massPerTxByte.toNat * max m.toNat 1 ≤
      signatureSize * c.massPerTxByte.toNat * max m.toNat 1 * n :=
    Nat.le_mul_of_pos_right _ hn
  have hmax : signatureSize * c.massPerTxByte.toNat ≤ signatureSize * c.massPerTxByte.toNat * max m.toNat 1 :=
    Nat.le_mul_of_pos_right _ (by omega)
  rw [calcSignatureComputeMassForInputs, Checked.mul_of_lt (by omega), Except.ok_bind,
    Checked.mul_of_lt (by omega), Except.ok_bind, Checked.mul_of_lt (by omega), hreorder]

/-- With no inputs the signature mass is zero, unless a product before the multiplication by
zero overflows. -/
theorem calcSignatureComputeMassForInputs_zero {m : UInt16} (h : signatureSize * c.massPerTxByte.toNat < 2 ^ 64) :
    c.calcSignatureComputeMassForInputs 0 m = .ok 0 ∨
      c.calcSignatureComputeMassForInputs 0 m = .error "attempt to multiply with overflow" := by
  rw [calcSignatureComputeMassForInputs, Checked.mul_of_lt h, Except.ok_bind]
  by_cases hfit : signatureSize * c.massPerTxByte.toNat * max m.toNat 1 < 2 ^ 64
  · left
    rw [Checked.mul_of_lt hfit, Except.ok_bind, Checked.mul_of_lt (by omega), Nat.mul_zero]
  · right
    rw [Checked.mul, if_neg hfit]
    rfl

theorem signatureSize_le_serializedSize (tx : Mass.Transaction) : signatureSize ≤ serializedSize tx := by
  unfold signatureSize serializedSize subnetworkIdSize hashSize
  omega

/-- The unsigned mass of `tx` is the consensus mass of `tx` signed, that is with each input's
signature script longer by a signature for each required one, where that mass does not overflow;
the wallet aborts instead only for a transaction without inputs. -/
theorem calcComputeMassForUnsignedConsensusTransaction_of_noOverflow {tx tx' : Mass.Transaction}
    {m : UInt16} (hext : Mass.SignatureScriptsExtended (signatureSize * max m.toNat 1) tx tx')
    (h : c.toConsensus.NoOverflow tx') :
    c.calcComputeMassForUnsignedConsensusTransaction tx m = .ok (c.toConsensus.computeMass tx') ∨
      (tx.inputs = [] ∧
        c.calcComputeMassForUnsignedConsensusTransaction tx m = .error "attempt to multiply with overflow") := by
  have hsigned := c.calcComputeMassForSignedConsensusTransaction_of_noOverflow (hext.noOverflow h)
  have hmass := hext.computeMass_eq c.toConsensus
  have htotal := h.computeMass_lt
  rw [hmass] at htotal ⊢
  rw [calcComputeMassForUnsignedConsensusTransaction, hsigned, Except.ok_bind]
  rcases Nat.eq_zero_or_pos tx.inputs.length with hn | hn
  · -- no inputs: the longer transaction is the same, and the signature mass is zero or aborts
    have hfirst : signatureSize * c.massPerTxByte.toNat < 2 ^ 64 := by
      have hle := Nat.mul_le_mul_right c.massPerTxByte.toNat (signatureSize_le_serializedSize tx)
      have := (hext.noOverflow h).computeMass_lt
      rw [Mass.MassCalculator.computeMass, toConsensus_massPerTxByte] at this
      omega
    rw [hn]
    rcases @calcSignatureComputeMassForInputs_zero c m hfirst with hzero | herror
    · left
      rw [hzero, Except.ok_bind, Checked.add_of_lt (by omega), Nat.zero_mul, Nat.zero_mul]
    · right
      exact ⟨List.length_eq_zero_iff.mp hn, by rw [herror]; rfl⟩
  · left
    rw [toConsensus_massPerTxByte] at htotal ⊢
    rw [c.calcSignatureComputeMassForInputs_of_lt hn (by omega), Except.ok_bind, Checked.add_of_lt htotal]

-- without inputs, the product of the per-byte mass and many required signatures overflows although
-- consensus, with no signature to count, has a mass
example : (Mass.MassCalculator.newWithConsensusParams ⟨2 ^ 50, 0, 0⟩).calcTxComputeMass
      ⟨[], [], subnetworkIdNative, []⟩ = .ok (94 * 2 ^ 50) ∧
    (new ⟨2 ^ 50, 0, 0⟩).calcComputeMassForUnsignedConsensusTransaction
      ⟨[], [], subnetworkIdNative, []⟩ 65535 = .error "attempt to multiply with overflow" :=
  ⟨rfl, rfl⟩

end MassCalculator

/-- The masses of mainnet: one gram a byte, ten a script public key byte, a thousand a signature
operation. -/
def exampleParams : Mass.Params :=
  ⟨1, 10, 1000⟩

/-- A transaction spending one input with an empty signature script and one signature operation
to one output with a 34-byte script. -/
def exampleTransaction : Mass.Transaction :=
  ⟨[⟨[], 1⟩], [⟨100, ⟨0, List.replicate 34 0⟩⟩], subnetworkIdNative, []⟩

/-- `exampleTransaction` with a signature in its input's script. -/
def exampleSignedTransaction : Mass.Transaction :=
  ⟨[⟨List.replicate 66 0, 1⟩], [⟨100, ⟨0, List.replicate 34 0⟩⟩], subnetworkIdNative, []⟩

/-- Masses of 2^48 grams a byte. -/
def overflowParams : Mass.Params :=
  ⟨2 ^ 48, 10, 1000⟩

/-- A transaction with no inputs and no outputs. -/
def emptyTransaction : Mass.Transaction :=
  ⟨[], [], subnetworkIdNative, []⟩

end Vecno.Wallet
