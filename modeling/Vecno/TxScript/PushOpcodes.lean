import Vecno.TxScript.Engine
import Vecno.TxScript.DataStack
import Vecno.TxScript.Codec

/-!
# The data push opcodes

The opcodes `0x00..=0x60` each push one element. A minimal push within the size limit pushes
when the engine is executing and does nothing otherwise.
-/

namespace Vecno.TxScript

namespace Codes

def opReserved : UInt8 := 0x50

end Codes

def pushData (data : List UInt8) (vm : Stacks) : Except TxScriptError Stacks :=
  .ok { vm with dstack := data :: vm.dstack }

/-- `push_number`: `push_item` writes the number as `OpcodeData::<i64>::serialize`, in at most eight
bytes. -/
def pushNumber (number : Int) (vm : Stacks) : Except TxScriptError Stacks :=
  match serializeSized 8 number with
  | .error e => .error (.serialization e)
  | .ok v => .ok { vm with dstack := v :: vm.dstack }

/-- The push opcodes of `opcode_list!`, by number. -/
def executePush (op : Opcode) (vm : Stacks) : Except TxScriptError Stacks :=
  if op.value = Codes.opFalse then .ok { vm with dstack := [] :: vm.dstack }
  else if op.value ≤ Codes.opPushData4 then pushData op.data vm
  else if op.value = Codes.op1Negate then pushNumber (-1) vm
  else if op.value = Codes.opReserved then .error (.opcodeReserved op.debug)
  -- `OpTrue` (`0x51`) to `Op16` (`0x60`) push `1` to `16`
  else pushNumber (op.value.toNat - 0x50 : Nat) vm

/-- The engine's semantics with the push opcodes as the table has them. -/
def withPushes (other : TxScriptEngine.Semantics) : TxScriptEngine.Semantics :=
  fun op vm => if op.isPushOpcode then executePush op vm else other op vm

theorem pushNumber_of_length_le {number : Int} (h : (serializeI64 number).length ≤ 8) (vm : Stacks) :
    pushNumber number vm = .ok { vm with dstack := serializeI64 number :: vm.dstack } := by
  rw [pushNumber, serializeSized, if_neg (Nat.not_lt.mpr h)]

namespace TxScriptEngine

variable (other : Semantics) (vm : TxScriptEngine) {op : Opcode}

theorem isConditional_of_isPushOpcode (hpush : op.isPushOpcode = true) : op.isConditional = false := by
  simp only [Opcode.isPushOpcode, noCostOpcode, decide_eq_true_eq, UInt8.le_iff_toNat_le,
    UInt8.reduceToNat] at hpush
  simp only [Opcode.isConditional, Bool.and_eq_false_iff, decide_eq_false_iff_not,
    UInt8.le_iff_toNat_le, UInt8.reduceToNat]
  omega

theorem countOpcode_of_isPushOpcode (hpush : op.isPushOpcode = true)
    (hlen : op.data.length ≤ maxScriptElementSize) : vm.countOpcode op = .ok vm := by
  rw [countOpcode, hpush, Bool.not_true, if_neg Bool.false_ne_true, if_neg (Nat.not_lt.mpr hlen)]

theorem executeOp_of_isPushOpcode (hpush : op.isPushOpcode = true) :
    vm.executeOp (withPushes other) op = (executePush op vm.toStacks).map
      fun s => { vm with toStacks := s } := by
  -- none of the conditionals' numbers is a push
  have hne : ∀ c : UInt8, 0x60 < c.toNat → op.value ≠ c := by
    rintro c hc rfl
    simp only [Opcode.isPushOpcode, noCostOpcode, decide_eq_true_eq, UInt8.le_iff_toNat_le,
      UInt8.reduceToNat] at hpush
    omega
  rw [executeOp, if_neg (hne _ (by decide)), if_neg (hne _ (by decide)),
    if_neg (not_or.mpr ⟨hne _ (by decide), hne _ (by decide)⟩), if_neg (hne _ (by decide)),
    if_neg (hne _ (by decide))]
  simp only [withPushes, hpush, if_true]
  cases executePush op vm.toStacks <;> rfl

/-- `execute_opcode` on a push: the limits pass, the minimality check passes where it applies,
and the push runs when the engine is executing. -/
theorem executeOpcode_push {e : List UInt8} (hpush : op.isPushOpcode = true)
    (hlen : op.data.length ≤ maxScriptElementSize)
    (hmin : 0 < op.value ∧ op.value ≤ 0x4e → op.checkMinimalDataPush = .ok ())
    (hexec : ∀ s, executePush op s = .ok { s with dstack := e :: s.dstack }) :
    vm.executeOpcode (withPushes other) op =
      .ok (if isExecuting vm.condStack then { vm with dstack := e :: vm.dstack } else vm) := by
  have hrun : vm.runOpcode (withPushes other) op = .ok { vm with dstack := e :: vm.dstack } := by
    have hop : vm.executeOp (withPushes other) op = .ok { vm with dstack := e :: vm.dstack } := by
      rw [executeOp_of_isPushOpcode other vm hpush, hexec]
      rfl
    unfold runOpcode
    split
    · rename_i hcheck
      simp only [Bool.and_eq_true, decide_eq_true_eq] at hcheck
      rw [hmin hcheck, Except.ok_bind, hop]
    · exact hop
  rw [executeOpcode, countOpcode_of_isPushOpcode vm hpush hlen, Except.ok_bind,
    isConditional_of_isPushOpcode hpush, Bool.or_false]
  cases isExecuting vm.condStack with
  | true => exact hrun
  | false => rfl

end TxScriptEngine

/-- The bytes `bytes` are one push opcode, which `execute_opcode` runs on every engine, whatever the
opcodes above the pushes do: it pushes `e` when the engine is executing and leaves the engine as it
is otherwise. -/
def PushesElement (bytes e : List UInt8) : Prop :=
  ∃ op : Opcode, parseScript bytes = [.ok op] ∧ op.isPushOpcode = true ∧
    ∀ other vm, TxScriptEngine.executeOpcode (withPushes other) vm op =
      .ok (if isExecuting vm.condStack then { vm with dstack := e :: vm.dstack } else vm)

/-- A valid push that meets the limits and the minimality rule, and pushes `e`, serializes to
bytes that push `e`. -/
theorem pushesElement_serialize {op : Opcode} {e : List UInt8} (hv : op.IsValid)
    (hpush : op.isPushOpcode = true) (hlen : op.data.length ≤ maxScriptElementSize)
    (hmin : 0 < op.value ∧ op.value ≤ 0x4e → op.checkMinimalDataPush = .ok ())
    (hexec : ∀ s, executePush op s = .ok { s with dstack := e :: s.dstack }) :
    PushesElement op.serialize e := by
  have hparse := parseScript_flatMap_serialize [op] (by simpa using hv)
  rw [List.flatMap_singleton, List.map_singleton] at hparse
  exact ⟨op, hparse, hpush, fun other vm =>
    TxScriptEngine.executeOpcode_push other vm hpush hlen hmin hexec⟩

end Vecno.TxScript
