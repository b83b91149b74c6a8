import Vecno.TxScript.Opcodes

/-!
# The script engine and its condition stack

`TxScriptEngine` runs a script opcode by opcode, keeping one `OpCond` per open conditional. The
semantics of the other opcodes is a parameter; stacks are held top first.
-/

namespace Vecno.TxScript

-- The opcode numbers the engine's own checks name.
namespace Codes

def opIf : UInt8 := 0x63
def opNotIf : UInt8 := 0x64
def opVerIf : UInt8 := 0x65
def opVerNotIf : UInt8 := 0x66
def opElse : UInt8 := 0x67
def opEndIf : UInt8 := 0x68

/-- `OpCat`, `OpSubStr`, `OpLeft`, `OpRight`, `OpInvert`, `OpAnd`, `OpOr`, `OpXor`, `Op2Mul`,
`Op2Div`, `OpMul`, `OpDiv`, `OpMod`, `OpLShift` and `OpRShift`. -/
def disabled : List UInt8 :=
  [0x7e, 0x7f, 0x80, 0x81, 0x83, 0x84, 0x85, 0x86, 0x8d, 0x8e, 0x95, 0x96, 0x97, 0x98, 0x99]

end Codes

def maxStackSize : Nat := 244
def maxScriptElementSize : Nat := 520
/-- `MAX_OPS_PER_SCRIPT`, an `i32`; the count stays far inside its range. -/
def maxOpsPerScript : Int := 201
def opSmallIntMinVal : UInt8 := 1
def opSmallIntMaxVal : UInt8 := 16
def opDataMaxVal : UInt8 := Codes.opData75
def op1NegateVal : UInt8 := 0x81

inductive OpCond where
  | false
  | true
  | skip
deriving DecidableEq, Repr

def OpCond.negate : OpCond → OpCond
  | .true => .false
  | .false => .true
  | .skip => .skip

namespace Opcode

/-- The `Debug` text of an opcode, `Opcode<{:#2x}>{ data:{:?} }`. -/
def debug (op : Opcode) : String :=
  "Opcode<0x" ++ String.ofList (Nat.toDigits 16 op.value.toNat) ++ ">\x7b data:" ++
    toString op.data ++ " \x7d"

def isConditional (op : Opcode) : Bool := 0x63 ≤ op.value && op.value ≤ 0x68

def isDisabled (op : Opcode) : Bool := Codes.disabled.contains op.value

def alwaysIllegal (op : Opcode) : Bool := op.value == Codes.opVerIf || op.value == Codes.opVerNotIf

/-- `check_minimal_data_push`: a push must use the shortest encoding of its data. -/
def checkMinimalDataPush (op : Opcode) : Except TxScriptError Unit :=
  let dataLen := op.data.length
  let opcode := op.value
  -- `self.data[0]`, read only when there is exactly one byte
  let first := op.data.headD 0
  if dataLen = 0 then
    if opcode ≠ Codes.opFalse then
      .error (.notMinimalData ("zero length data push is encoded with opcode " ++ op.debug ++
        " instead of OpFalse"))
    else .ok ()
  else if dataLen = 1 ∧ opSmallIntMinVal ≤ first ∧ first ≤ opSmallIntMaxVal then
    if opcode ≠ Codes.opTrue + first - 1 then
      .error (.notMinimalData ("zero length data push is encoded with opcode " ++ op.debug ++
        " instead of Op_" ++ toString first))
    else .ok ()
  else if dataLen = 1 ∧ first = op1NegateVal then
    if opcode ≠ Codes.op1Negate then
      .error (.notMinimalData ("data push of the value -1 encoded with opcode " ++ op.debug ++
        " instead of OP_1NEGATE"))
    else .ok ()
  else if dataLen ≤ opDataMaxVal.toNat then
    if opcode.toNat ≠ dataLen then
      .error (.notMinimalData ("data push of " ++ toString dataLen ++ " bytes encoded with opcode " ++
        op.debug ++ " instead of OP_DATA_" ++ toString dataLen))
    else .ok ()
  else if dataLen ≤ 255 then
    if opcode ≠ Codes.opPushData1 then
      .error (.notMinimalData ("data push of " ++ toString dataLen ++ " bytes encoded with opcode " ++
        op.debug ++ " instead of OP_PUSHDATA1"))
    else .ok ()
  else if dataLen < 65535 ∧ opcode ≠ Codes.opPushData2 then
    .error (.notMinimalData ("data push of " ++ toString dataLen ++ " bytes encoded with opcode " ++
      op.debug ++ " instead of OP_PUSHDATA2"))
  else .ok ()

end Opcode

/-- `is_executing` of a condition stack, top first: empty, or `True` on top. -/
def isExecuting : List OpCond → Bool
  | [] => true
  | c :: _ => c == .true

/-- The fields of `TxScriptEngine` that the opcodes other than the conditionals act on: the data
and alt stacks, top first, and the number of operations of the running script. -/
structure Stacks where
  dstack : List (List UInt8)
  astack : List (List UInt8)
  numOps : Int
deriving DecidableEq, Repr

/-- `TxScriptEngine` while a script runs, with `cond_stack` top first. The script source, the
signature cache and the KIP-10 flag are read only, by the other opcodes. -/
structure TxScriptEngine extends Stacks where
  condStack : List OpCond
deriving DecidableEq, Repr

namespace TxScriptEngine

/-- The opcodes other than the conditionals, acting on the stacks. -/
abbrev Semantics := Opcode → Stacks → Except TxScriptError Stacks

variable (other : Semantics)

/-- The condition `OpIf` and `OpNotIf` pop: an empty vector is false, `[1]` is true, anything
else is not a boolean. -/
def popCondition (vm : TxScriptEngine) : Except TxScriptError (Bool × TxScriptEngine) :=
  match vm.dstack with
  | [] => .error .emptyStack
  | buf :: rest =>
    if buf.length > 1 then .error (.invalidState "expected boolean")
    else
      match buf.getLast? with
      | some b =>
        if b = 1 then .ok (Bool.true, { vm with dstack := rest })
        else .error (.invalidState "expected boolean")
      | none => .ok (Bool.false, { vm with dstack := rest })

/-- `OpIf` and `OpNotIf`: push `whenTrue` or `whenFalse` for the popped condition when
executing, `Skip` otherwise. -/
def pushCondition (whenTrue whenFalse : OpCond) (vm : TxScriptEngine) :
    Except TxScriptError TxScriptEngine := do
  let (cond, vm') ← if isExecuting vm.condStack then do
      let (b, vm') ← vm.popCondition
      pure (if b then whenTrue else whenFalse, vm')
    else pure (OpCond.skip, vm)
  pure { vm' with condStack := cond :: vm'.condStack }

def opIf (vm : TxScriptEngine) : Except TxScriptError TxScriptEngine :=
  vm.pushCondition .true .false

def opNotIf (vm : TxScriptEngine) : Except TxScriptError TxScriptEngine :=
  vm.pushCondition .false .true

/-- `OpElse`: negate the top entry. -/
def opElse (vm : TxScriptEngine) : Except TxScriptError TxScriptEngine :=
  match vm.condStack with
  | [] => .error (.invalidState "condition stack empty")
  | c :: cs => .ok { vm with condStack := c.negate :: cs }

/-- `OpEndIf`: pop the top entry. -/
def opEndIf (vm : TxScriptEngine) : Except TxScriptError TxScriptEngine :=
  match vm.condStack with
  | [] => .error (.invalidState "condition stack empty")
  | _ :: cs => .ok { vm with condStack := cs }

/-- `execute` of an opcode: the six conditionals by their own code, `OpVerIf` and `OpVerNotIf`
reserved, every other opcode by `other` on the stacks. -/
def executeOp (vm : TxScriptEngine) (op : Opcode) : Except TxScriptError TxScriptEngine :=
  if op.value = Codes.opIf then vm.opIf
  else if op.value = Codes.opNotIf then vm.opNotIf
  else if op.value = Codes.opVerIf ∨ op.value = Codes.opVerNotIf then
    .error (.opcodeReserved op.debug)
  else if op.value = Codes.opElse then vm.opElse
  else if op.value = Codes.opEndIf then vm.opEndIf
  else do
    let s ← other op vm.toStacks
    pure { vm with toStacks := s }

/-- The limits `execute_opcode` checks first: a non-push opcode counts toward the script's
operations, a push carries at most `MAX_SCRIPT_ELEMENT_SIZE` bytes. -/
def countOpcode (vm : TxScriptEngine) (op : Opcode) : Except TxScriptError TxScriptEngine :=
  if !op.isPushOpcode then
    if vm.numOps + 1 > maxOpsPerScript then .error (.tooManyOperations maxOpsPerScript)
    else .ok { vm with numOps := vm.numOps + 1 }
  else if op.data.length > maxScriptElementSize then
    .error (.elementTooBig op.data.length maxScriptElementSize)
  else .ok vm

/-- Running an opcode in `execute_opcode`: a push is checked for its minimal encoding first. -/
def runOpcode (vm : TxScriptEngine) (op : Opcode) : Except TxScriptError TxScriptEngine := do
  if 0 < op.value && op.value ≤ 0x4e then op.checkMinimalDataPush
  vm.executeOp other op

/-- `execute_opcode`: after the limits, an opcode runs when the engine is executing or it is a
conditional. -/
def executeOpcode (vm : TxScriptEngine) (op : Opcode) : Except TxScriptError TxScriptEngine := do
  let vm ← vm.countOpcode op
  if isExecuting vm.condStack || op.isConditional then vm.runOpcode other op
  else pure vm

/-- One pass of the loop of `execute_script` over the parsed opcodes. -/
def executeStep (verifyOnlyPush : Bool) (vm : TxScriptEngine)
    (opcode : Except TxScriptError Opcode) : Except TxScriptError TxScriptEngine := do
  let opcode ← opcode
  if opcode.isDisabled then throw (.opcodeDisabled opcode.debug)
  if opcode.alwaysIllegal then throw (.opcodeReserved opcode.debug)
  if verifyOnlyPush && !opcode.isPushOpcode then throw .signatureScriptNotPushOnly
  let vm ← vm.executeOpcode other opcode
  let combinedSize := vm.astack.length + vm.dstack.length
  if combinedSize > maxStackSize then throw (.stackSizeExceeded combinedSize maxStackSize)
  pure vm

/-- `execute_script`: the opcodes one by one, then no conditional may be left open; the alt
stack and the operation count do not outlive the script. -/
def executeScript (vm : TxScriptEngine) (script : List UInt8) (verifyOnlyPush : Bool) :
    Except TxScriptError TxScriptEngine := do
  let vm ← (parseScript script).foldlM (executeStep other verifyOnlyPush) vm
  if !vm.condStack.isEmpty then throw .errUnbalancedConditional
  pure { vm with astack := [], numOps := 0 }

end TxScriptEngine

end Vecno.TxScript
