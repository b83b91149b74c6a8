import Vecno.TxScript.Opcodes
import Vecno.Lib.Checked

/-!
# Signature-operation counting

`get_sig_op_count` on the script public key, or on the redeem script of a pay-to-script-hash
key. The `u64` counter is checked and `to_small_int` may panic.
-/

namespace Vecno.TxScript

open Codes

def maxPubKeysPerMutltisig : Nat := 20

/-- `to_small_int`: `OpFalse` is zero; otherwise its assertion admits the half-open range
`OpTrue..Op16`. -/
def toSmallInt (op : Opcode) : Except String UInt8 :=
  if op.value = opFalse then .ok 0
  else if opTrue ≤ op.value ∧ op.value < op16 then .ok (op.value - (opTrue - 1))
  else .error "expected op codes between from the list of Op0 to Op16"

/-- `OpCheckSig | OpCheckSigVerify | OpCheckSigECDSA`. -/
def isSigOp (code : UInt8) : Bool :=
  code = opCheckSig || code = opCheckSigVerify || code = opCheckSigECDSA

/-- `OpCheckMultiSig | OpCheckMultiSigVerify | OpCheckMultiSigECDSA`. -/
def isMultiSigOp (code : UInt8) : Bool :=
  code = opCheckMultiSig || code = opCheckMultiSigVerify || code = opCheckMultiSigECDSA

/-- The loop of `get_sig_op_count_by_opcodes` from index `i` on: `prev` is `opcodes[i - 1]`,
absent at `i = 0`. The first parse error ends the loop with the count so far. -/
def getSigOpCountByOpcodesAux (prev : Option (Except TxScriptError Opcode)) (numSigs : Nat) :
    List (Except TxScriptError Opcode) → Except String Nat
  | [] => .ok numSigs
  | .error _ :: _ => .ok numSigs
  | .ok op :: rest =>
    if isSigOp op.value then do
      let numSigs ← Checked.add 64 numSigs 1
      getSigOpCountByOpcodesAux (some (.ok op)) numSigs rest
    else if isMultiSigOp op.value then
      match prev with
      | none => do
        let numSigs ← Checked.add 64 numSigs maxPubKeysPerMutltisig
        getSigOpCountByOpcodesAux (some (.ok op)) numSigs rest
      | some (.error _) => .error "they were checked before"
      | some (.ok prevOpcode) =>
        if opTrue ≤ prevOpcode.value ∧ prevOpcode.value ≤ op16 then do
          let n ← toSmallInt prevOpcode
          let numSigs ← Checked.add 64 numSigs n.toNat
          getSigOpCountByOpcodesAux (some (.ok op)) numSigs rest
        else do
          let numSigs ← Checked.add 64 numSigs maxPubKeysPerMutltisig
          getSigOpCountByOpcodesAux (some (.ok op)) numSigs rest
    else getSigOpCountByOpcodesAux (some (.ok op)) numSigs rest

def getSigOpCountByOpcodes (opcodes : List (Except TxScriptError Opcode)) : Except String Nat :=
  getSigOpCountByOpcodesAux none 0 opcodes

/-- `ScriptClass::is_pay_to_script_hash`: `OpBlake3 OpData32 <32 bytes> OpEqual`. -/
def isPayToScriptHash (scriptPublicKey : List UInt8) : Bool :=
  scriptPublicKey.length == 35 && scriptPublicKey[0]? == some opBlake3 &&
    scriptPublicKey[1]? == some opData32 && scriptPublicKey[34]? == some opEqual

/-- Whether a parsed signature-script item disqualifies it from carrying a redeem script. -/
def notPushOnly : Except TxScriptError Opcode → Bool
  | .error _ => true
  | .ok op => !op.isPushOpcode

/-- `get_sig_op_count`, on the bytes of the previous script public key (its version is not
read). -/
def getSigOpCount (signatureScript prevScriptPublicKey : List UInt8) : Except String Nat :=
  let isP2sh := isPayToScriptHash prevScriptPublicKey
  let scriptPubKeyOps := parseScript prevScriptPublicKey
  if !isP2sh then getSigOpCountByOpcodes scriptPubKeyOps
  else
    let signatureScriptOps := parseScript signatureScript
    if signatureScriptOps.isEmpty || signatureScriptOps.any notPushOnly then .ok 0
    else
      match signatureScriptOps.getLast? with
      | some (.ok p2shOpcode) => getSigOpCountByOpcodes (parseScript p2shOpcode.getData)
      | _ => .error "checked if empty above"

/-- A multisignature check right after `Op16` panics in `to_small_int`, although the caller
admits `Op16` as the small integer 16: the script `Op16 OpCheckMultiSig` is not counted. -/
theorem getSigOpCount_op16_multisig :
    getSigOpCount [] [op16, opCheckMultiSig] =
      .error "expected op codes between from the list of Op0 to Op16" := by
  decide

/-! ## The count the loop computes away from the `Op16` case -/

/-- What one opcode adds to the count, given the opcode before it: one per single-signature
check, and for a multisignature check the number `Op1..Op16` pushes or the maximum. -/
def sigOpWeight (prev : Option Opcode) (op : Opcode) : Nat :=
  if isSigOp op.value then 1
  else if isMultiSigOp op.value then
    match prev with
    | some p => if opTrue ≤ p.value ∧ p.value ≤ op16 then p.value.toNat - 0x50
      else maxPubKeysPerMutltisig
    | none => maxPubKeysPerMutltisig
  else 0

/-- The sum of the weights over a list of opcodes, each weighed against its predecessor. -/
def sigOpSum : Option Opcode → List Opcode → Nat
  | _, [] => 0
  | prev, op :: ops => sigOpWeight prev op + sigOpSum (some op) ops

/-- The opcodes parsed before the first parse error. -/
def okPrefix : List (Except TxScriptError Opcode) → List Opcode
  | [] => []
  | .error _ :: _ => []
  | .ok op :: rest => op :: okPrefix rest

/-- No multisignature check directly follows an `Op16` in the list. -/
def NoOp16MultiSig : Option Opcode → List Opcode → Prop
  | _, [] => True
  | prev, op :: ops =>
    (isMultiSigOp op.value = true → prev.map Opcode.value ≠ some op16) ∧ NoOp16MultiSig (some op) ops

instance instDecidableNoOp16MultiSig :
    (prev : Option Opcode) → (ops : List Opcode) → Decidable (NoOp16MultiSig prev ops)
  | _, [] => isTrue trivial
  | _, op :: ops =>
    haveI := instDecidableNoOp16MultiSig (some op) ops
    inferInstanceAs (Decidable (_ ∧ _))

theorem sigOpWeight_le (prev : Option Opcode) (op : Opcode) :
    sigOpWeight prev op ≤ maxPubKeysPerMutltisig := by
  unfold sigOpWeight maxPubKeysPerMutltisig
  split
  · omega
  · split
    · split
      · rename_i p
        split
        · rename_i h
          have : p.value.toNat ≤ 0x60 := by
            have := h.2
            simp only [op16, UInt8.le_iff_toNat_le] at this
            exact this
          omega
        · omega
      · omega
    · omega

theorem sigOpSum_le (prev : Option Opcode) (ops : List Opcode) :
    sigOpSum prev ops ≤ maxPubKeysPerMutltisig * ops.length := by
  induction ops generalizing prev with
  | nil => simp [sigOpSum]
  | cons op ops ih =>
    have h1 := sigOpWeight_le prev op
    have h2 := ih (some op)
    simp only [sigOpSum, List.length_cons, Nat.mul_succ]
    omega

theorem toSmallInt_of_range {p : Opcode} (h1 : opTrue ≤ p.value) (h2 : p.value < op16) :
    toSmallInt p = .ok (p.value - (opTrue - 1)) := by
  have hne : p.value ≠ opFalse := by
    rintro he
    rw [he] at h1
    exact absurd h1 (by decide)
  simp [toSmallInt, hne, h1, h2]

theorem smallInt_toNat {v : UInt8} (h : opTrue ≤ v) : (v - (opTrue - 1)).toNat = v.toNat - 0x50 := by
  have h50 : opTrue - 1 = (0x50 : UInt8) := by decide
  have hle : (0x50 : UInt8) ≤ v := by
    simp only [opTrue, UInt8.le_iff_toNat_le] at h ⊢
    change 81 ≤ v.toNat at h
    change 80 ≤ v.toNat
    omega
  rw [h50, UInt8.toNat_sub_of_le _ _ hle]
  rfl

/-- One opcode of the loop: it adds the opcode's weight, unless it is a multisignature check after
`Op16`. -/
theorem getSigOpCountByOpcodesAux_ok_cons {prev : Option Opcode} {numSigs : Nat} {op : Opcode}
    (rest : List (Except TxScriptError Opcode))
    (hno : isMultiSigOp op.value = true → prev.map Opcode.value ≠ some op16)
    (hfit : numSigs + sigOpWeight prev op < 2 ^ 64) :
    getSigOpCountByOpcodesAux (prev.map .ok) numSigs (.ok op :: rest) =
      getSigOpCountByOpcodesAux (some (.ok op)) (numSigs + sigOpWeight prev op) rest := by
  unfold sigOpWeight at hfit ⊢
  simp only [getSigOpCountByOpcodesAux]
  by_cases hsig : isSigOp op.value = true
  · simp only [hsig, if_true] at hfit ⊢
    rw [Checked.add_of_lt hfit, Except.ok_bind]
  · simp only [hsig, Bool.false_eq_true, if_false] at hfit ⊢
    by_cases hmulti : isMultiSigOp op.value = true
    · simp only [hmulti, if_true, forall_const] at hfit hno ⊢
      cases prev with
      | none =>
        simp only [Option.map_none] at hfit ⊢
        rw [Checked.add_of_lt hfit, Except.ok_bind]
      | some p =>
        simp only [Option.map_some, ne_eq, Option.some.injEq] at hfit hno ⊢
        by_cases hrange : opTrue ≤ p.value ∧ p.value ≤ op16
        · simp only [hrange, and_self, if_true] at hfit ⊢
          have hlt : p.value < op16 := by
            have h2 := hrange.2
            simp only [UInt8.le_iff_toNat_le, UInt8.lt_iff_toNat_lt] at h2 ⊢
            have : p.value.toNat ≠ op16.toNat := fun he => hno (UInt8.toNat_inj.mp he)
            omega
          rw [toSmallInt_of_range hrange.1 hlt, Except.ok_bind, smallInt_toNat hrange.1,
            Checked.add_of_lt hfit, Except.ok_bind]
        · simp only [hrange, if_false] at hfit ⊢
          rw [Checked.add_of_lt hfit, Except.ok_bind]
    · simp only [hmulti, Bool.false_eq_true, if_false, Nat.add_zero]

/-- Away from `Op16` before a multisignature check, the loop returns the sum of the weights of the
opcodes before the first parse error, as long as the counter stays a `u64`. The loop is run from
any index: `prev` and `numSigs` are what the earlier indices left. -/
theorem getSigOpCountByOpcodesAux_eq (prev : Option Opcode) (numSigs : Nat)
    (opcodes : List (Except TxScriptError Opcode))
    (hno : NoOp16MultiSig prev (okPrefix opcodes))
    (hfit : numSigs + sigOpSum prev (okPrefix opcodes) < 2 ^ 64) :
    getSigOpCountByOpcodesAux (prev.map .ok) numSigs opcodes =
      .ok (numSigs + sigOpSum prev (okPrefix opcodes)) := by
  induction opcodes generalizing prev numSigs with
  | nil => simp [getSigOpCountByOpcodesAux, okPrefix, sigOpSum]
  | cons item rest ih =>
    cases item with
    | error e => simp [getSigOpCountByOpcodesAux, okPrefix, sigOpSum]
    | ok op =>
      simp only [okPrefix, NoOp16MultiSig, sigOpSum] at hno hfit ⊢
      obtain ⟨hop, hrest⟩ := hno
      rw [getSigOpCountByOpcodesAux_ok_cons rest hop (by omega)]
      have hnext := ih (some op) (numSigs + sigOpWeight prev op) hrest (by omega)
      rw [Option.map_some] at hnext
      rw [hnext, Nat.add_assoc]

theorem length_okPrefix_le (items : List (Except TxScriptError Opcode)) :
    (okPrefix items).length ≤ items.length := by
  induction items with
  | nil => simp [okPrefix]
  | cons item rest ih =>
    cases item with
    | error e => simp [okPrefix]
    | ok op => simpa [okPrefix] using ih

/-- For a script public key that is not pay-to-script-hash, the count is the weight sum over the
opcodes parsed before the first error, whenever no multisignature check follows `Op16`. -/
theorem getSigOpCount_of_not_p2sh (signatureScript prevScriptPublicKey : List UInt8)
    (hp : isPayToScriptHash prevScriptPublicKey = false)
    (hno : NoOp16MultiSig none (okPrefix (parseScript prevScriptPublicKey)))
    (hlen : prevScriptPublicKey.length < 2 ^ 59) :
    getSigOpCount signatureScript prevScriptPublicKey =
      .ok (sigOpSum none (okPrefix (parseScript prevScriptPublicKey))) := by
  have hops : (okPrefix (parseScript prevScriptPublicKey)).length < 2 ^ 59 :=
    lt_of_le_of_lt ((length_okPrefix_le _).trans (length_parseScript_le _)) hlen
  have hsum := sigOpSum_le none (okPrefix (parseScript prevScriptPublicKey))
  have hfit : 0 + sigOpSum none (okPrefix (parseScript prevScriptPublicKey)) < 2 ^ 64 := by
    unfold maxPubKeysPerMutltisig at hsum
    omega
  have hcount := getSigOpCountByOpcodesAux_eq none 0 _ hno hfit
  simp only [Option.map_none, Nat.zero_add] at hcount
  simp [getSigOpCount, hp, getSigOpCountByOpcodes, hcount]

/-- The test vector "a partially parseable script public key": two checksigs, then a push cut
short. -/
theorem getSigOpCount_partially_parseable :
    isPayToScriptHash [opCheckSig, opCheckSig, opData1] = false ∧
      NoOp16MultiSig none (okPrefix (parseScript [opCheckSig, opCheckSig, opData1])) ∧
      [opCheckSig, opCheckSig, opData1].length < 2 ^ 59 ∧
      getSigOpCount [] [opCheckSig, opCheckSig, opData1] =
        .ok (sigOpSum none (okPrefix (parseScript [opCheckSig, opCheckSig, opData1]))) :=
  ⟨by decide, by decide, by decide, getSigOpCount_of_not_p2sh _ _ (by decide) (by decide) (by decide)⟩

end Vecno.TxScript
