import Vecno.TxScript.PushOpcodes

/-!
# The script builder

`ScriptBuilder` picks the shortest push for each piece of data. What `add_raw_data` appends is one
push opcode of the predicted size, which the engine parses and runs to push the data.
-/

namespace Vecno.TxScript

open LittleEndian

def maxScriptsSize : Nat := 10000

def opDataMinVal : UInt8 := Codes.opData1

inductive ScriptBuilderError where
  | opCodeRejected (opcode : UInt8)
  | opCodesRejected (count : Nat)
  | dataRejected (size : Nat)
  | elementExceedsMaxSize (size : Nat)
  | integerRejected (val : Int)
  | serialization (error : SerializationError)
deriving DecidableEq, Repr

/-- `ScriptBuilder`: the script built so far. -/
structure ScriptBuilder where
  script : List UInt8
deriving DecidableEq, Repr

namespace ScriptBuilder

def addOp (b : ScriptBuilder) (opcode : UInt8) : Except ScriptBuilderError ScriptBuilder :=
  if b.script.length ≥ maxScriptsSize then .error (.opCodeRejected opcode)
  else .ok ⟨b.script ++ [opcode]⟩

def addOps (b : ScriptBuilder) (opcodes : List UInt8) : Except ScriptBuilderError ScriptBuilder :=
  if b.script.length + opcodes.length > maxScriptsSize then .error (.opCodesRejected opcodes.length)
  else .ok ⟨b.script ++ opcodes⟩

def canonicalDataSize (data : List UInt8) : Nat :=
  let dataLen := data.length
  -- `data[0]`, read only when there is exactly one byte
  let first := data.headD 0
  if dataLen = 0 ∨ (dataLen = 1 ∧ (first ≤ opSmallIntMaxVal ∨ first = op1NegateVal)) then 1
  else
    dataLen +
      if dataLen ≤ opDataMaxVal.toNat then 1
      else if dataLen ≤ 255 then 2
      else if dataLen ≤ 65535 then 3
      else 5

/-- The bytes `add_raw_data` appends for `data`: a small number as its own opcode, otherwise the
shortest push opcode for the length, its length prefix and the data. -/
def rawDataBytes (data : List UInt8) : List UInt8 :=
  let dataLen := data.length
  let first := data.headD 0
  if dataLen = 0 ∨ (dataLen = 1 ∧ first = 0) then [Codes.opFalse]
  else if dataLen = 1 ∧ first ≤ opSmallIntMaxVal then [(Codes.opTrue - 1) + first]
  else if dataLen = 1 ∧ first = op1NegateVal then [Codes.op1Negate]
  else if dataLen ≤ opDataMaxVal.toNat then [(opDataMinVal - 1) + UInt8.ofNat dataLen] ++ data
  else if dataLen ≤ 255 then [Codes.opPushData1, UInt8.ofNat dataLen] ++ data
  else if dataLen ≤ 65535 then [Codes.opPushData2] ++ toLeBytes 2 dataLen ++ data
  else [Codes.opPushData4] ++ toLeBytes 4 dataLen ++ data

/-- `add_raw_data`: no limit is checked. -/
def addRawData (b : ScriptBuilder) (data : List UInt8) : ScriptBuilder :=
  ⟨b.script ++ rawDataBytes data⟩

def addData (b : ScriptBuilder) (data : List UInt8) : Except ScriptBuilderError ScriptBuilder :=
  let dataSize := canonicalDataSize data
  if b.script.length + dataSize > maxScriptsSize then .error (.dataRejected dataSize)
  else if data.length > maxScriptElementSize then .error (.elementExceedsMaxSize data.length)
  else .ok (b.addRawData data)

/-- `add_i64`: the small numbers by their own opcode, the others as the data of their
eight-byte encoding. -/
def addI64 (b : ScriptBuilder) (val : Int) : Except ScriptBuilderError ScriptBuilder :=
  if b.script.length + 1 > maxScriptsSize then .error (.integerRejected val)
  else if val = 0 then .ok ⟨b.script ++ [Codes.opFalse]⟩
  else if val = -1 ∨ (1 ≤ val ∧ val ≤ 16) then
    .ok ⟨b.script ++ [UInt8.ofInt ((Codes.opTrue.toNat : Int) - 1 + val)]⟩
  else
    match serializeSized 8 val with
    | .error e => .error (.serialization e)
    | .ok bytes => b.addData bytes

/-! ## The pushes `add_raw_data` writes -/

/-- The push opcode whose serialization `add_raw_data` appends for `data`. -/
def canonicalPush (data : List UInt8) : Opcode :=
  let dataLen := data.length
  let first := data.headD 0
  if dataLen = 0 ∨ (dataLen = 1 ∧ first = 0) then ⟨Codes.opFalse, []⟩
  else if dataLen = 1 ∧ first ≤ opSmallIntMaxVal then ⟨(Codes.opTrue - 1) + first, []⟩
  else if dataLen = 1 ∧ first = op1NegateVal then ⟨Codes.op1Negate, []⟩
  else if dataLen ≤ opDataMaxVal.toNat then ⟨(opDataMinVal - 1) + UInt8.ofNat dataLen, data⟩
  else if dataLen ≤ 255 then ⟨Codes.opPushData1, data⟩
  else if dataLen ≤ 65535 then ⟨Codes.opPushData2, data⟩
  else ⟨Codes.opPushData4, data⟩

theorem canonicalPush_cases (data : List UInt8) :
    ((data = [] ∨ data = [0]) ∧ canonicalPush data = ⟨Codes.opFalse, []⟩) ∨
    (∃ b : UInt8, data = [b] ∧ 1 ≤ b.toNat ∧ b.toNat ≤ 16 ∧
      canonicalPush data = ⟨(Codes.opTrue - 1) + b, []⟩) ∨
    (data = [op1NegateVal] ∧ canonicalPush data = ⟨Codes.op1Negate, []⟩) ∨
    (1 ≤ data.length ∧ data.length ≤ 75 ∧
      (data.length = 1 → 16 < (data.headD 0).toNat ∧ data.headD 0 ≠ op1NegateVal) ∧
      canonicalPush data = ⟨UInt8.ofNat data.length, data⟩) ∨
    (75 < data.length ∧ data.length ≤ 255 ∧ canonicalPush data = ⟨Codes.opPushData1, data⟩) ∨
    (255 < data.length ∧ data.length ≤ 65535 ∧ canonicalPush data = ⟨Codes.opPushData2, data⟩) ∨
    (65535 < data.length ∧ canonicalPush data = ⟨Codes.opPushData4, data⟩) := by
  generalize hc : canonicalPush data = op
  have hsmall : ∀ b : UInt8, b ≤ opSmallIntMaxVal ↔ b.toNat ≤ 16 := fun _ => UInt8.le_iff_toNat_le
  have hmax : opDataMaxVal.toNat = 75 := rfl
  unfold canonicalPush at hc
  dsimp only at hc
  split_ifs at hc with h0 h1 h2 h3 h4 h5 <;> subst hc
  · refine .inl ⟨?_, rfl⟩
    rcases h0 with hl | ⟨hl, hf⟩
    · exact .inl (List.eq_nil_of_length_eq_zero hl)
    · obtain ⟨a, rfl⟩ := List.length_eq_one_iff.mp hl
      exact .inr (by rw [← hf]; rfl)
  · obtain ⟨hl, hf⟩ := h1
    obtain ⟨a, rfl⟩ := List.length_eq_one_iff.mp hl
    have ha : a.toNat ≠ 0 := fun ha =>
      h0 (.inr ⟨rfl, UInt8.toNat_inj.mp (ha.trans UInt8.toNat_zero.symm)⟩)
    exact .inr (.inl ⟨a, rfl, by omega, (hsmall a).mp hf, rfl⟩)
  · obtain ⟨hl, hf⟩ := h2
    obtain ⟨a, rfl⟩ := List.length_eq_one_iff.mp hl
    exact .inr (.inr (.inl ⟨by rw [← hf]; rfl, rfl⟩))
  · rw [hmax] at h3
    refine .inr (.inr (.inr (.inl ⟨by omega, h3, fun hl => ⟨?_, fun hf => h2 ⟨hl, hf⟩⟩, ?_⟩)))
    · exact Nat.lt_of_not_le fun hf => h1 ⟨hl, (hsmall _).mpr hf⟩
    · rw [show opDataMinVal - 1 = 0 from rfl, UInt8.zero_add]
  · rw [hmax] at h3
    exact .inr (.inr (.inr (.inr (.inl ⟨by omega, h4, rfl⟩))))
  · exact .inr (.inr (.inr (.inr (.inr (.inl ⟨by omega, h5, rfl⟩)))))
  · exact .inr (.inr (.inr (.inr (.inr (.inr ⟨by omega, rfl⟩)))))

theorem toNat_smallIntOpcode {b : UInt8} (hb : b.toNat ≤ 16) :
    (Codes.opTrue - 1 + b).toNat = 0x50 + b.toNat := by
  rw [UInt8.toNat_add, show (Codes.opTrue - 1).toNat = 0x50 from rfl]
  exact Nat.mod_eq_of_lt (by omega)

theorem toNat_dataOpcode {n : Nat} (hn : n ≤ opDataMaxVal.toNat) :
    (opDataMinVal - 1 + UInt8.ofNat n).toNat = n := by
  rw [show opDataMinVal - 1 = 0 from rfl, UInt8.zero_add, UInt8.toNat_ofNat']
  exact Nat.mod_eq_of_lt (by change n ≤ 75 at hn; omega)

/-- The bytes are the serialization of the opcode: `OpData#` carries its length in its number,
`OpPushData1/2/4` in a prefix of one, two or four bytes. -/
theorem rawDataBytes_eq_serialize (data : List UInt8) :
    rawDataBytes data = (canonicalPush data).serialize := by
  -- the two follow the same branches
  unfold rawDataBytes canonicalPush
  dsimp only
  split_ifs with h0 h1 h2 h3 h4 h5
  · rfl
  · rw [serialize_of_fixed (opcodeLength_of_no_data (.inr _))]
    rw [toNat_smallIntOpcode (UInt8.le_iff_toNat_le.mp h1.2)]
    omega
  · rfl
  · rw [serialize_of_fixed (opcodeLength_of_data _ _), List.singleton_append] <;>
      rw [toNat_dataOpcode h3]
    · have : data.length ≠ 0 := fun h => h0 (.inl h)
      omega
    · exact h3
  · rfl
  · rfl
  · rfl

example : rawDataBytes (List.replicate 76 7) = [Codes.opPushData1, 76] ++ List.replicate 76 7 := by
  decide

theorem isPushOpcode_iff (op : Opcode) : op.isPushOpcode = true ↔ op.value.toNat ≤ 0x60 := by
  rw [Opcode.isPushOpcode, decide_eq_true_iff, UInt8.le_iff_toNat_le]
  rfl

theorem canonicalPush_isPushOpcode (data : List UInt8) : (canonicalPush data).isPushOpcode = true := by
  rw [isPushOpcode_iff]
  rcases canonicalPush_cases data with ⟨-, hc⟩ | ⟨b, -, -, hb16, hc⟩ | ⟨-, hc⟩ |
      ⟨-, hl75, -, hc⟩ | ⟨-, -, hc⟩ | ⟨-, -, hc⟩ | ⟨-, hc⟩ <;> rw [hc]
  · exact Nat.zero_le _
  · change (Codes.opTrue - 1 + b).toNat ≤ 0x60
    rw [toNat_smallIntOpcode hb16]
    omega
  · exact Nat.le_of_ble_eq_true rfl
  · change (UInt8.ofNat data.length).toNat ≤ 0x60
    rw [UInt8.toNat_ofNat_of_lt' (by change data.length < 256; omega)]
    omega
  all_goals exact Nat.le_of_ble_eq_true rfl

theorem canonicalPush_data_length_le (data : List UInt8) :
    (canonicalPush data).data.length ≤ data.length := by
  rcases canonicalPush_cases data with ⟨-, hc⟩ | ⟨b, -, -, -, hc⟩ | ⟨-, hc⟩ |
      ⟨-, -, -, hc⟩ | ⟨-, -, hc⟩ | ⟨-, -, hc⟩ | ⟨-, hc⟩ <;> rw [hc]
  · exact Nat.zero_le _
  · exact Nat.zero_le _
  · exact Nat.zero_le _

theorem canonicalPush_isValid {data : List UInt8} (h : data.length < 2 ^ 32) :
    (canonicalPush data).IsValid := by
  rcases canonicalPush_cases data with ⟨-, hc⟩ | ⟨b, -, -, hb16, hc⟩ | ⟨-, hc⟩ |
      ⟨hl1, hl75, -, hc⟩ | ⟨-, hl, hc⟩ | ⟨-, hl, hc⟩ | ⟨-, hc⟩ <;> rw [hc]
  · rfl
  · rw [Opcode.IsValid, opcodeLength_of_no_data (.inr (by rw [toNat_smallIntOpcode hb16]; omega))]
    rfl
  · rfl
  · have hval : (UInt8.ofNat data.length).toNat = data.length :=
      UInt8.toNat_ofNat_of_lt' (by change data.length < 256; omega)
    show Opcode.dataLengthFits (opcodeLength (UInt8.ofNat data.length)) data.length = true
    rw [opcodeLength_of_data (by rw [hval]; omega) (by rw [hval]; omega), hval]
    exact beq_self_eq_true _
  · exact decide_eq_true hl
  · exact decide_eq_true hl
  · exact decide_eq_true (Nat.le_sub_one_of_lt h)

theorem checkMinimalDataPush_canonicalPush (data : List UInt8) :
    0 < (canonicalPush data).value ∧ (canonicalPush data).value ≤ 0x4e →
      (canonicalPush data).checkMinimalDataPush = .ok () := by
  rcases canonicalPush_cases data with ⟨-, hc⟩ | ⟨b, -, -, hb16, hc⟩ | ⟨-, hc⟩ |
      ⟨hl1, hl75, hone, hc⟩ | ⟨hl1, hl, hc⟩ | ⟨hl1, hl, hc⟩ | ⟨hl, hc⟩ <;> rw [hc] <;>
    rintro ⟨hpos, hle⟩
  · exact absurd hpos (UInt8.lt_irrefl 0)
  · have := UInt8.le_iff_toNat_le.mp hle
    rw [toNat_smallIntOpcode hb16] at this
    exact absurd this (by change ¬ _ ≤ 78; omega)
  · exact absurd hle (by decide)
  · -- `OpData#`: the opcode's number is the length, and a single byte is not a small number
    have hval : (UInt8.ofNat data.length).toNat = data.length :=
      UInt8.toNat_ofNat_of_lt' (by change data.length < 256; omega)
    have hsmall : ¬ (data.length = 1 ∧ opSmallIntMinVal ≤ data.headD 0 ∧
        data.headD 0 ≤ opSmallIntMaxVal) := by
      rintro ⟨hl, -, hf⟩
      have := (hone hl).1
      rw [UInt8.le_iff_toNat_le] at hf
      exact absurd hf (by change ¬ _ ≤ 16; omega)
    have hneg : ¬ (data.length = 1 ∧ data.headD 0 = op1NegateVal) := fun ⟨hl, hf⟩ => (hone hl).2 hf
    unfold Opcode.checkMinimalDataPush
    dsimp only
    rw [if_neg (by omega), if_neg hsmall, if_neg hneg,
      if_pos (show data.length ≤ opDataMaxVal.toNat from hl75), if_neg (not_not.mpr hval)]
  -- `OpPushData1/2/4`: more than one byte and more than `OP_DATA_MAX_VAL`, so only the prefix
  -- width is checked
  all_goals
    have hne1 : ∀ P : Prop, ¬ (data.length = 1 ∧ P) := fun _ h => absurd h.1 (by omega)
    have hlong : ¬ data.length ≤ opDataMaxVal.toNat := by change ¬ _ ≤ 75; omega
    unfold Opcode.checkMinimalDataPush
    dsimp only
    rw [if_neg (by omega), if_neg (hne1 _), if_neg (hne1 _), if_neg hlong]
  · rw [if_pos hl, if_neg (not_not.mpr rfl)]
  · rw [if_neg (by omega), if_neg (fun h => h.2 rfl)]
  · rw [if_neg (by omega), if_neg (fun h => absurd h.1 (by omega))]

theorem executePush_of_data {op : Opcode} (h0 : 0 < op.value.toNat) (h : op.value.toNat ≤ 0x4e)
    (s : Stacks) : executePush op s = pushData op.data s := by
  have hne : op.value ≠ Codes.opFalse := fun heq => by rw [heq] at h0; exact absurd h0 (by decide)
  rw [executePush, if_neg hne, if_pos (UInt8.le_iff_toNat_le.mpr h)]

theorem executePush_of_number {op : Opcode} (h : 0x50 < op.value.toNat) (s : Stacks) :
    executePush op s = pushNumber (op.value.toNat - 0x50 : Nat) s := by
  have hne : ∀ c : UInt8, c.toNat ≤ 0x50 → op.value ≠ c := by
    rintro c hc rfl
    omega
  rw [executePush, if_neg (hne _ (by decide)), if_neg (fun hle => by
      have := UInt8.le_iff_toNat_le.mp hle
      exact absurd this (by change ¬ _ ≤ 78; omega)),
    if_neg (hne _ (by decide)), if_neg (hne _ (by decide))]

theorem executePush_canonicalPush (data : List UInt8) (s : Stacks) :
    executePush (canonicalPush data) s =
      .ok { s with dstack := (if data = [0] then [] else data) :: s.dstack } := by
  rcases canonicalPush_cases data with ⟨hd, hc⟩ | ⟨b, rfl, hb1, hb16, hc⟩ | ⟨rfl, hc⟩ |
      ⟨hl1, hl75, hone, hc⟩ | ⟨hl1, -, hc⟩ | ⟨hl1, -, hc⟩ | ⟨hl1, hc⟩ <;> rw [hc]
  · rcases hd with rfl | rfl <;> rfl
  · -- `Op1..Op16` push their number, which is the byte
    have hval := toNat_smallIntOpcode hb16
    have hnum : ((Codes.opTrue - 1 + b).toNat - 0x50 : Nat) = (b.toNat : Int) := by omega
    have hb : serializeI64 b.toNat = [b] := by
      rw [serializeI64_of_natAbs_lt (by omega) (by omega), if_neg (by omega), Int.natAbs_natCast,
        UInt8.ofNat_toNat]
    rw [executePush_of_number (by rw [hval]; omega), hnum,
      pushNumber_of_length_le (by rw [hb, List.length_singleton]; omega), hb, if_neg]
    intro h
    have := congrArg UInt8.toNat (List.singleton_inj.mp h)
    exact absurd this (by change _ ≠ 0; omega)
  · -- `Op1Negate` pushes `-1`, which is the byte `0x81`
    have hneg : serializeI64 (-1) = [op1NegateVal] := by
      rw [serializeI64_of_natAbs_lt (by decide) (by decide)]
      rfl
    rw [executePush, if_neg (by decide), if_neg (by decide), if_pos rfl,
      pushNumber_of_length_le (by rw [hneg]; decide), hneg, if_neg (by decide)]
  · -- `OpData#` pushes its data, which is no zero byte
    have hval : (UInt8.ofNat data.length).toNat = data.length :=
      UInt8.toNat_ofNat_of_lt' (by change data.length < 256; omega)
    have hne : data ≠ [0] := by
      rintro rfl
      exact absurd (hone rfl).1 (by decide)
    rw [executePush_of_data (by rw [hval]; omega) (by rw [hval]; omega), pushData, if_neg hne]
  -- `OpPushData1/2/4` push their data, longer than one byte
  all_goals
    have hne : data ≠ [0] := by
      rintro rfl
      exact absurd hl1 (by decide)
    rw [executePush_of_data (Nat.le_of_ble_eq_true rfl) (Nat.le_of_ble_eq_true rfl), pushData,
      if_neg hne]

theorem canonicalDataSize_of_not_small {data : List UInt8}
    (h : ¬ (data.length = 0 ∨ (data.length = 1 ∧
      (data.headD 0 ≤ opSmallIntMaxVal ∨ data.headD 0 = op1NegateVal)))) :
    canonicalDataSize data = data.length +
      if data.length ≤ 75 then 1 else if data.length ≤ 255 then 2
      else if data.length ≤ 65535 then 3 else 5 := by
  rw [canonicalDataSize]
  exact if_neg h

theorem length_rawDataBytes (data : List UInt8) :
    (rawDataBytes data).length = canonicalDataSize data := by
  rw [rawDataBytes_eq_serialize]
  rcases canonicalPush_cases data with ⟨hd, hc⟩ | ⟨b, rfl, hb1, hb16, hc⟩ | ⟨rfl, hc⟩ |
      ⟨hl1, hl75, hone, hc⟩ | ⟨hl1, hl, hc⟩ | ⟨hl1, hl, hc⟩ | ⟨hl1, hc⟩ <;> rw [hc]
  · rcases hd with rfl | rfl <;> rfl
  · have hsmall : b ≤ opSmallIntMaxVal := UInt8.le_iff_toNat_le.mpr hb16
    rw [serialize_of_fixed (opcodeLength_of_no_data (.inr (by rw [toNat_smallIntOpcode hb16]; omega))),
      canonicalDataSize]
    exact (if_pos (.inr ⟨rfl, .inl hsmall⟩)).symm
  · rfl
  · have hval : (UInt8.ofNat data.length).toNat = data.length :=
      UInt8.toNat_ofNat_of_lt' (by change data.length < 256; omega)
    have hns : ¬ (data.length = 0 ∨ (data.length = 1 ∧
        (data.headD 0 ≤ opSmallIntMaxVal ∨ data.headD 0 = op1NegateVal))) := by
      rintro (h0 | ⟨hl, hf | hf⟩)
      · omega
      · have := (hone hl).1
        rw [UInt8.le_iff_toNat_le] at hf
        exact absurd hf (by change ¬ _ ≤ 16; omega)
      · exact (hone hl).2 hf
    rw [canonicalDataSize_of_not_small hns, if_pos hl75,
      serialize_of_fixed (opcodeLength_of_data (by rw [hval]; omega) (by rw [hval]; omega)),
      List.length_cons]
  -- the prefixed pushes: the opcode, the prefix and the data
  all_goals
    have hns : ¬ (data.length = 0 ∨ (data.length = 1 ∧
        (data.headD 0 ≤ opSmallIntMaxVal ∨ data.headD 0 = op1NegateVal))) := by omega
    rw [canonicalDataSize_of_not_small hns, if_neg (by omega)]
  · rw [if_pos hl]
    rfl
  · rw [if_neg (by omega), if_pos hl]
    rfl
  · rw [if_neg (by omega), if_neg (by omega)]
    rfl

/-- What `add_raw_data` appends is one push opcode that the engine runs to push the data, the
empty element for a zero byte. -/
theorem rawDataBytes_pushes {data : List UInt8} (h : data.length ≤ maxScriptElementSize) :
    PushesElement (rawDataBytes data) (if data = [0] then [] else data) := by
  rw [rawDataBytes_eq_serialize]
  exact pushesElement_serialize (canonicalPush_isValid (by change data.length ≤ 520 at h; omega))
    (canonicalPush_isPushOpcode data) ((canonicalPush_data_length_le data).trans h)
    (checkMinimalDataPush_canonicalPush data) (executePush_canonicalPush data)

/-! ## The adds -/

theorem one_le_canonicalDataSize (data : List UInt8) : 1 ≤ canonicalDataSize data := by
  unfold canonicalDataSize
  dsimp only
  split <;> omega

/-- `add_data` of an element the engine admits: appended when the script has room for it. -/
theorem addData_eq (b : ScriptBuilder) {data : List UInt8} (h : data.length ≤ maxScriptElementSize) :
    b.addData data =
      if b.script.length + canonicalDataSize data ≤ maxScriptsSize then
        .ok ⟨b.script ++ rawDataBytes data⟩
      else .error (.dataRejected (canonicalDataSize data)) := by
  rw [addData]
  by_cases hroom : b.script.length + canonicalDataSize data ≤ maxScriptsSize
  · rw [if_neg (Nat.not_lt.mpr hroom), if_neg (Nat.not_lt.mpr h), if_pos hroom]
    rfl
  · rw [if_pos (Nat.lt_of_not_le hroom), if_neg hroom]

theorem toNat_ofInt {x : Int} (h0 : 0 ≤ x) (h : x < 256) : (UInt8.ofInt x).toNat = x.toNat := by
  rw [UInt8.ofInt, Int.emod_eq_of_lt h0 (by omega)]
  exact UInt8.toNat_ofNat_of_lt' (by change x.toNat < 256; omega)

/-- With room for one byte, `add_i64` of an `i64` other than `i64::MIN` is `add_data` of the
number's encoding: the opcodes of the small numbers are what `add_raw_data` writes for their
byte. -/
theorem addI64_eq_addData (b : ScriptBuilder) {val : Int} (hroom : b.script.length + 1 ≤ maxScriptsSize)
    (hlo : -2 ^ 63 < val) (hhi : val < 2 ^ 63) : b.addI64 val = b.addData (serializeI64 val) := by
  rw [addI64, if_neg (Nat.not_lt.mpr hroom)]
  by_cases h0 : val = 0
  · subst h0
    rw [if_pos rfl, serializeI64_zero, addData_eq b (Nat.zero_le _),
      show canonicalDataSize [] = 1 from rfl, if_pos hroom]
    rfl
  rw [if_neg h0]
  by_cases hsmall : val = -1 ∨ (1 ≤ val ∧ val ≤ 16)
  · rw [if_pos hsmall]
    rcases hsmall with rfl | ⟨h1, h16⟩
    · have hneg : serializeI64 (-1) = [op1NegateVal] := by
        rw [serializeI64_of_natAbs_lt (by decide) (by decide)]
        rfl
      rw [hneg, addData_eq b (by decide), show canonicalDataSize [op1NegateVal] = 1 from rfl,
        if_pos hroom]
      rfl
    · -- a positive small number is its own byte, and `Op1 - 1` plus it
      obtain ⟨n, rfl⟩ := Int.eq_ofNat_of_zero_le (show 0 ≤ val by omega)
      have hn : (UInt8.ofNat n).toNat = n := UInt8.toNat_ofNat_of_lt' (by change n < 256; omega)
      have hbyte : serializeI64 n = [UInt8.ofNat n] := by
        rw [serializeI64_of_natAbs_lt h0 (by omega), if_neg (by omega), Int.natAbs_natCast]
      have hsmall : UInt8.ofNat n ≤ opSmallIntMaxVal := by
        rw [UInt8.le_iff_toNat_le, hn]
        exact Nat.le_of_lt_succ (by change n < 17; omega)
      have hne : UInt8.ofNat n ≠ 0 := fun h => by
        have := congrArg UInt8.toNat h
        rw [hn, UInt8.toNat_zero] at this
        omega
      have hsize : canonicalDataSize [UInt8.ofNat n] = 1 := by
        rw [canonicalDataSize]
        exact if_pos (.inr ⟨rfl, .inl hsmall⟩)
      have hraw : rawDataBytes [UInt8.ofNat n] = [(Codes.opTrue - 1) + UInt8.ofNat n] := by
        rw [rawDataBytes]
        exact (if_neg (fun h => by simp at h; exact hne h)).trans (if_pos ⟨rfl, hsmall⟩)
      have hop : UInt8.ofInt ((Codes.opTrue.toNat : Int) - 1 + n) = (Codes.opTrue - 1) + UInt8.ofNat n := by
        apply UInt8.toNat_inj.mp
        rw [toNat_ofInt (by omega) (by change (81 : Int) - 1 + n < 256; omega),
          toNat_smallIntOpcode (by omega)]
        change ((81 : Int) - 1 + n).toNat = 0x50 + (UInt8.ofNat n).toNat
        omega
      rw [hbyte, addData_eq b (Nat.le_of_ble_eq_true rfl), hsize, if_pos hroom, hraw, hop]
  · rw [if_neg hsmall, serializeSized, if_neg (Nat.not_lt.mpr (serializeI64_length_le hlo hhi))]

/-- An element the engine admits, pushed by `add_data`: accepted exactly when the script has room
for its canonical size, and then appended as that many bytes forming one push of it. -/
theorem addData_pushes (b : ScriptBuilder) {data : List UInt8}
    (h : data.length ≤ maxScriptElementSize) :
    ((∃ b', b.addData data = .ok b') ↔
        b.script.length + canonicalDataSize data ≤ maxScriptsSize) ∧
      ∀ b', b.addData data = .ok b' → ∃ bytes, b'.script = b.script ++ bytes ∧
        bytes.length = canonicalDataSize data ∧ PushesElement bytes (if data = [0] then [] else data) := by
  rw [addData_eq b h]
  constructor
  · constructor
    · rintro ⟨b', hb'⟩
      by_contra hroom
      rw [if_neg hroom] at hb'
      cases hb'
    · intro hroom
      exact ⟨_, if_pos hroom⟩
  · intro b' hb'
    split at hb'
    · cases hb'
      exact ⟨rawDataBytes data, rfl, length_rawDataBytes data, rawDataBytes_pushes h⟩
    · cases hb'

/-- An `i64` other than `i64::MIN`, pushed by `add_i64`: accepted exactly when the script has room
for the canonical size of its encoding, and then appended as one push of that encoding, which
the engine's eight-byte reading decodes back to the number. -/
theorem addI64_pushes (b : ScriptBuilder) {val : Int} (hlo : -2 ^ 63 < val) (hhi : val < 2 ^ 63) :
    ((∃ b', b.addI64 val = .ok b') ↔
        b.script.length + canonicalDataSize (serializeI64 val) ≤ maxScriptsSize) ∧
      ∀ b', b.addI64 val = .ok b' → ∃ bytes, b'.script = b.script ++ bytes ∧
        bytes.length = canonicalDataSize (serializeI64 val) ∧ PushesElement bytes (serializeI64 val) ∧
        deserializeSized 8 (serializeI64 val) = .ok val := by
  have hlen := serializeI64_length_le hlo hhi
  have hdecode := deserializeSized_serializeI64 hlen hlen
  by_cases hroom : b.script.length + 1 ≤ maxScriptsSize
  · obtain ⟨hiff, hok⟩ := addData_pushes b (show (serializeI64 val).length ≤ maxScriptElementSize by
      change _ ≤ 520; omega)
    rw [if_neg (serializeI64_ne_zero_byte val)] at hok
    rw [addI64_eq_addData b hroom hlo hhi]
    refine ⟨hiff, fun b' hb' => ?_⟩
    obtain ⟨bytes, hscript, hsize, hpush⟩ := hok b' hb'
    exact ⟨bytes, hscript, hsize, hpush, hdecode⟩
  · -- no room even for one byte: rejected, and no encoding fits either
    have hrej : b.addI64 val = .error (.integerRejected val) := if_pos (Nat.lt_of_not_le hroom)
    have hsize := one_le_canonicalDataSize (serializeI64 val)
    rw [hrej]
    refine ⟨⟨?_, fun h => absurd (by omega) hroom⟩, fun b' h => ?_⟩
    · rintro ⟨_, h⟩
      cases h
    · cases h

/-- The builder emits canonical pushes the engine accepts: `add_i64` of every `i64` other than
`i64::MIN`, and `add_data` of every element within `MAX_SCRIPT_ELEMENT_SIZE`, succeed exactly when
the script has room, and then append `canonical_data_size` bytes that parse to one push opcode,
which `execute_opcode` runs without error on every engine, pushing (when executing) the number's
encoding, which reads back as the number, or the data, the empty element for a zero byte. -/
theorem addI64_addData_canonical :
    (∀ (b : ScriptBuilder) (val : Int), -2 ^ 63 < val → val < 2 ^ 63 →
      ((∃ b', b.addI64 val = .ok b') ↔
          b.script.length + canonicalDataSize (serializeI64 val) ≤ maxScriptsSize) ∧
        ∀ b', b.addI64 val = .ok b' → ∃ bytes, b'.script = b.script ++ bytes ∧
          bytes.length = canonicalDataSize (serializeI64 val) ∧
          PushesElement bytes (serializeI64 val) ∧ deserializeSized 8 (serializeI64 val) = .ok val) ∧
    (∀ (b : ScriptBuilder) (data : List UInt8), data.length ≤ maxScriptElementSize →
      ((∃ b', b.addData data = .ok b') ↔
          b.script.length + canonicalDataSize data ≤ maxScriptsSize) ∧
        ∀ b', b.addData data = .ok b' → ∃ bytes, b'.script = b.script ++ bytes ∧
          bytes.length = canonicalDataSize data ∧
          PushesElement bytes (if data = [0] then [] else data)) :=
  ⟨fun b _ hlo hhi => addI64_pushes b hlo hhi, fun b _ h => addData_pushes b h⟩

theorem addI64_addData_canonical_empty :
    (∃ b', (ScriptBuilder.mk []).addI64 0 = .ok b') ∧
      ∃ b', (ScriptBuilder.mk []).addData [1, 2, 3] = .ok b' :=
  ⟨(addI64_addData_canonical.1 ⟨[]⟩ 0 (by decide) (by decide)).1.mpr
      (by rw [serializeI64_zero]; decide),
    (addI64_addData_canonical.2 ⟨[]⟩ [1, 2, 3] (by decide)).1.mpr (by decide)⟩

end ScriptBuilder

end Vecno.TxScript
