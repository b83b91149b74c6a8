import Vecno.Lib.LittleEndian

/-!
# Script opcodes and their byte codec

The table of `opcode_list!`, the serializers of `opcodes/macros.rs` and `parse_script`. Each Rust
type `OpCode<CODE>` is one structure holding the number and the data.
-/

namespace Vecno.TxScript

open LittleEndian

inductive SerializationError where
  | numberTooLong (n : Int)
deriving DecidableEq, Repr

/-- `TxScriptError`. `InvalidSignature` carries a `secp256k1::Error`, kept as its message. -/
inductive TxScriptError where
  | malformedPushSize (bytes : List UInt8)
  | malformedPush (expected remaining : Nat)
  | invalidInputIndex (index : Int) (bound : Nat)
  | stackSizeExceeded (size max : Nat)
  | invalidOpcode (opcode : String)
  | opcodeReserved (opcode : String)
  | opcodeDisabled (opcode : String)
  | emptyStack
  | cleanStack (count : Nat)
  | evalFalse
  | earlyReturn
  | verifyError
  | invalidState (message : String)
  | invalidSignature (error : String)
  | sigcacheSignatureInvalid
  | tooManyOperations (max : Int)
  | notATransactionInput
  | elementTooBig (size max : Nat)
  | notMinimalData (message : String)
  | invalidSource (message : String)
  | unsatisfiedLockTime (message : String)
  | numberTooBig (message : String)
  | nullFail
  | invalidSignatureCount (message : String)
  | invalidPubKeyCount (message : String)
  | invalidSigHashType (hashType : UInt8)
  | pubKeyFormat
  | sigLength (length : Nat)
  | noScripts
  | signatureScriptNotPushOnly
  | errUnbalancedConditional
  | invalidStackOperation (required present : Nat)
  | scriptSize (size max : Nat)
  | invalidOutputIndex (index : Int) (bound : Nat)
  | serialization (error : SerializationError)
deriving DecidableEq, Repr

-- The opcode numbers of `codes` that the modelled functions name.
namespace Codes

def opFalse : UInt8 := 0x00
def opData1 : UInt8 := 0x01
def opData32 : UInt8 := 0x20
def opData75 : UInt8 := 0x4b
def opPushData1 : UInt8 := 0x4c
def opPushData2 : UInt8 := 0x4d
def opPushData4 : UInt8 := 0x4e
def op1Negate : UInt8 := 0x4f
def opTrue : UInt8 := 0x51
def op16 : UInt8 := 0x60
def opEqual : UInt8 := 0x87
def opCheckMultiSigECDSA : UInt8 := 0xa9
def opBlake3 : UInt8 := 0xaa
def opCheckSigECDSA : UInt8 := 0xab
def opCheckSig : UInt8 := 0xac
def opCheckSigVerify : UInt8 := 0xad
def opCheckMultiSig : UInt8 := 0xae
def opCheckMultiSigVerify : UInt8 := 0xaf

end Codes

open Codes

/-- `NO_COST_OPCODE`: the last opcode that counts as a push. -/
def noCostOpcode : UInt8 := 0x60

/-- The unsigned types whose little-endian bytes prefix the data of `OpPushData1/2/4`. -/
inductive LengthType where
  | u8
  | u16
  | u32
deriving DecidableEq, Repr

/-- `size_of::<$type>()`. -/
def LengthType.size : LengthType → Nat
  | .u8 => 1
  | .u16 => 2
  | .u32 => 4

def LengthType.max (t : LengthType) : Nat := 256 ^ t.size - 1

/-- The length column of `opcode_list!`: a literal is the fixed length of the encoding, the
opcode byte included; a type is the width of a length prefix. -/
inductive OpcodeLength where
  | fixed (length : Nat)
  | var (type : LengthType)
deriving DecidableEq, Repr

/-- The length column of the table: `OpData1..OpData75` (`0x01..0x4b`) carry as many bytes as
their number, `OpPushData1/2/4` a `u8`/`u16`/`u32` prefix, every other opcode nothing. -/
def opcodeLength (code : UInt8) : OpcodeLength :=
  if code = opPushData1 then .var .u8
  else if code = opPushData2 then .var .u16
  else if code = opPushData4 then .var .u32
  else if opData1 ≤ code ∧ code ≤ opData75 then .fixed (code.toNat + 1)
  else .fixed 1

/-- One parsed opcode: its number (`OpCode<CODE>`) and its data bytes. -/
structure Opcode where
  value : UInt8
  data : List UInt8
deriving DecidableEq, Repr

namespace Opcode

def isPushOpcode (op : Opcode) : Bool := op.value ≤ noCostOpcode

def getData (op : Opcode) : List UInt8 := op.data

/-- `serialize` of `opcode_serde!`: the opcode byte, for a prefixed opcode the data length cast
to the prefix type (`as $type` keeps it modulo the type's range) in little-endian bytes, then
the data. -/
def serialize (op : Opcode) : List UInt8 :=
  match opcodeLength op.value with
  | .fixed _ => [op.value] ++ op.data
  | .var t => [op.value] ++ toLeBytes t.size op.data.length ++ op.data

/-- `new` of `opcode_init!`: a fixed-length opcode needs exactly `length - 1` data bytes, a
prefixed one at most the prefix type's maximum. -/
def new (code : UInt8) (data : List UInt8) : Except TxScriptError Opcode :=
  match opcodeLength code with
  | .fixed length =>
    if data.length ≠ length - 1 then .error (.malformedPush (length - 1) data.length)
    else .ok ⟨code, data⟩
  | .var t =>
    if data.length > t.max then .error (.malformedPush t.max data.length)
    else .ok ⟨code, data⟩

/-- Whether `n` data bytes are what `new` admits for an opcode of this length. -/
def dataLengthFits : OpcodeLength → Nat → Bool
  | .fixed length, n => n == length - 1
  | .var t, n => n ≤ t.max

/-- The opcodes `new` builds: those whose data fits the table's length column. -/
def IsValid (op : Opcode) : Prop := dataLengthFits (opcodeLength op.value) op.data.length = true

instance (op : Opcode) : Decidable op.IsValid :=
  inferInstanceAs (Decidable (_ = true))

end Opcode

/-- `deserialize` of `opcode_serde!` for the opcode `code`, reading from the bytes after the
opcode byte; it returns the result and the bytes the iterator has not consumed. `take` consumes
at most what is left, so a short read ends the script. -/
def deserialize (code : UInt8) (it : List UInt8) : Except TxScriptError Opcode × List UInt8 :=
  match opcodeLength code with
  | .fixed length => (Opcode.new code (it.take (length - 1)), it.drop (length - 1))
  | .var t =>
    let bytes := it.take t.size
    if bytes.length = t.size then
      let length := fromLeBytes bytes
      let data := (it.drop t.size).take length
      -- the length check of the prefixed branch; the `new` check is skipped there
      if data.length ≠ length then
        (.error (.malformedPush length data.length), (it.drop t.size).drop length)
      else (.ok ⟨code, data⟩, (it.drop t.size).drop length)
    else (.error (.malformedPushSize bytes), it.drop t.size)

/-- `deserialize_next_opcode`: `None` once the bytes are exhausted, else the opcode the next
byte names, deserialized from the bytes after it. -/
def deserializeNextOpcode : List UInt8 → Option (Except TxScriptError Opcode × List UInt8)
  | [] => none
  | code :: it => some (deserialize code it)

/-- The loop of `batching`, with a bound on the number of calls. -/
def parseScriptAux : Nat → List UInt8 → List (Except TxScriptError Opcode)
  | 0, _ => []
  | fuel + 1, script =>
    match deserializeNextOpcode script with
    | none => []
    | some (op, rest) => op :: parseScriptAux fuel rest

/-- `parse_script`: `batching` calls `deserialize_next_opcode` until it returns `None`. Every
call consumes the opcode byte, so the script's length bounds the calls (`parseScript_cons`). -/
def parseScript (script : List UInt8) : List (Except TxScriptError Opcode) :=
  parseScriptAux script.length script

theorem deserialize_rest_length_le (code : UInt8) (it : List UInt8) :
    (deserialize code it).2.length ≤ it.length := by
  unfold deserialize
  split
  · simp
  · dsimp only
    split
    · split <;> simp
    · simp

theorem parseScriptAux_congr (fuel fuel' : Nat) (script : List UInt8)
    (h : script.length ≤ fuel) (h' : script.length ≤ fuel') :
    parseScriptAux fuel script = parseScriptAux fuel' script := by
  induction fuel generalizing fuel' script with
  | zero =>
    have : script = [] := List.eq_nil_of_length_eq_zero (by omega)
    subst this
    cases fuel' <;> rfl
  | succ fuel ih =>
    cases script with
    | nil => cases fuel' <;> rfl
    | cons code it =>
      obtain ⟨fuel', rfl⟩ : ∃ f, fuel' = f + 1 := ⟨fuel' - 1, by simp at h'; omega⟩
      have hrest := deserialize_rest_length_le code it
      simp only [List.length_cons] at h h'
      simp only [parseScriptAux, deserializeNextOpcode]
      rw [ih fuel' _ (by omega) (by omega)]

@[simp] theorem parseScript_nil : parseScript [] = [] := rfl

/-- The unfolding of `batching`: one opcode, then the parse of the bytes it left. -/
theorem parseScript_cons (code : UInt8) (it : List UInt8) :
    parseScript (code :: it) =
      (deserialize code it).1 :: parseScript (deserialize code it).2 := by
  have hrest := deserialize_rest_length_le code it
  simp only [parseScript, List.length_cons, parseScriptAux, deserializeNextOpcode]
  rw [parseScriptAux_congr _ _ _ hrest le_rfl]

theorem deserialize_of_fixed {code : UInt8} {length : Nat}
    (h : opcodeLength code = .fixed length) (it : List UInt8) :
    deserialize code it = (Opcode.new code (it.take (length - 1)), it.drop (length - 1)) := by
  simp [deserialize, h]

theorem deserialize_of_var {code : UInt8} {t : LengthType}
    (h : opcodeLength code = .var t) (it : List UInt8) :
    deserialize code it =
      if (it.take t.size).length = t.size then
        if ((it.drop t.size).take (fromLeBytes (it.take t.size))).length ≠
            fromLeBytes (it.take t.size) then
          (.error (.malformedPush (fromLeBytes (it.take t.size))
            ((it.drop t.size).take (fromLeBytes (it.take t.size))).length),
            (it.drop t.size).drop (fromLeBytes (it.take t.size)))
        else (.ok ⟨code, (it.drop t.size).take (fromLeBytes (it.take t.size))⟩,
            (it.drop t.size).drop (fromLeBytes (it.take t.size)))
      else (.error (.malformedPushSize (it.take t.size)), it.drop t.size) := by
  simp only [deserialize, h]

theorem opcodeLength_of_no_data {code : UInt8} (h : code.toNat = 0 ∨ 0x4e < code.toNat) :
    opcodeLength code = .fixed 1 := by
  have hne : ∀ c : UInt8, 0 < c.toNat → c.toNat ≤ 0x4e → code ≠ c := by
    rintro c hc hc' rfl
    omega
  rw [opcodeLength, if_neg (hne _ (by decide) (by decide)), if_neg (hne _ (by decide) (by decide)),
    if_neg (hne _ (by decide) (by decide)), if_neg]
  simp only [opData1, opData75, UInt8.le_iff_toNat_le, UInt8.reduceToNat]
  omega

theorem opcodeLength_of_data {code : UInt8} (h1 : 1 ≤ code.toNat) (h2 : code.toNat ≤ 0x4b) :
    opcodeLength code = .fixed (code.toNat + 1) := by
  have hne : ∀ c : UInt8, 0x4b < c.toNat → code ≠ c := by
    rintro c hc rfl
    omega
  rw [opcodeLength, if_neg (hne _ (by decide)), if_neg (hne _ (by decide)),
    if_neg (hne _ (by decide)), if_pos]
  simp only [opData1, opData75, UInt8.le_iff_toNat_le, UInt8.reduceToNat]
  omega

theorem serialize_of_fixed {op : Opcode} {length : Nat} (h : opcodeLength op.value = .fixed length) :
    op.serialize = op.value :: op.data := by
  rw [Opcode.serialize, h, List.singleton_append]

theorem new_of_fixed {code : UInt8} {length : Nat} (h : opcodeLength code = .fixed length)
    (data : List UInt8) :
    Opcode.new code data =
      if data.length ≠ length - 1 then .error (.malformedPush (length - 1) data.length)
      else .ok ⟨code, data⟩ := by
  simp only [Opcode.new, h]

theorem length_parseScript_le (script : List UInt8) : (parseScript script).length ≤ script.length := by
  induction hn : script.length using Nat.strong_induction_on generalizing script with
  | _ n ih =>
    cases script with
    | nil => simp
    | cons code it =>
      have hrest := deserialize_rest_length_le code it
      simp only [List.length_cons] at hn
      rw [parseScript_cons, List.length_cons]
      have := ih _ (by omega) (deserialize code it).2 rfl
      omega

end Vecno.TxScript
