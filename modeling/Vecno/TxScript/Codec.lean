import Vecno.TxScript.Opcodes

/-!
# The opcode codec round-trips

Parsing then serializing gives back the script, and serializing valid opcodes then parsing gives
them back, each from a lemma on one opcode.
-/

namespace Vecno.TxScript

open LittleEndian

@[simp] theorem LengthType.max_lt (t : LengthType) : t.max < 256 ^ t.size := by
  cases t <;> decide

theorem serialize_value (op : Opcode) : op.serialize = op.value :: op.serialize.tail := by
  unfold Opcode.serialize
  split <;> rfl

/-- What a successful read returns is what the consumed bytes serialize. -/
theorem deserialize_ok_serialize {code : UInt8} {it rest : List UInt8} {op : Opcode}
    (h : deserialize code it = (.ok op, rest)) : code :: it = op.serialize ++ rest := by
  cases hl : opcodeLength code with
  | fixed length =>
    rw [deserialize_of_fixed hl, new_of_fixed hl] at h
    split at h
    · simp at h
    · simp only [Prod.mk.injEq, Except.ok.injEq] at h
      obtain ⟨rfl, rfl⟩ := h
      simp [Opcode.serialize, hl]
  | var t =>
    rw [deserialize_of_var hl] at h
    split at h
    · rename_i hsize
      split at h
      · simp at h
      · rename_i hdata
        simp only [Prod.mk.injEq, Except.ok.injEq] at h
        obtain ⟨rfl, rfl⟩ := h
        -- the prefix bytes are the little-endian bytes of the length they encode
        have hprefix : toLeBytes t.size (fromLeBytes (it.take t.size)) = it.take t.size := by
          have := toLeBytes_fromLeBytes (it.take t.size)
          rwa [hsize] at this
        simp only [not_not] at hdata
        simp only [Opcode.serialize, hl, hdata, hprefix, List.append_assoc, List.cons_append,
          List.take_append_drop, List.nil_append]
    · simp at h

/-- A valid opcode reads back from its own serialization, leaving what follows untouched. -/
theorem deserializeNextOpcode_serialize {op : Opcode} (hv : op.IsValid) (rest : List UInt8) :
    deserializeNextOpcode (op.serialize ++ rest) = some (.ok op, rest) := by
  obtain ⟨code, data⟩ := op
  cases hl : opcodeLength code with
  | fixed length =>
    simp only [Opcode.IsValid, Opcode.dataLengthFits, hl, beq_iff_eq] at hv
    simp [Opcode.serialize, hl, deserializeNextOpcode, deserialize_of_fixed hl, new_of_fixed hl,
      ← hv]
  | var t =>
    simp only [Opcode.IsValid, Opcode.dataLengthFits, hl, decide_eq_true_eq] at hv
    have hlt : data.length < 256 ^ t.size := lt_of_le_of_lt hv t.max_lt
    have hread : fromLeBytes (toLeBytes t.size data.length) = data.length :=
      fromLeBytes_toLeBytes_of_lt hlt
    simp [Opcode.serialize, hl, deserializeNextOpcode, deserialize_of_var hl, hread]

theorem flatMap_serialize_of_parseScript :
    ∀ (ops : List Opcode) (s : List UInt8), parseScript s = ops.map .ok →
      ops.flatMap Opcode.serialize = s := by
  intro ops
  induction ops with
  | nil =>
    intro s h
    cases s with
    | nil => rfl
    | cons code it => simp [parseScript_cons] at h
  | cons op ops ih =>
    intro s h
    cases s with
    | nil => simp at h
    | cons code it =>
      rw [parseScript_cons, List.map_cons, List.cons.injEq] at h
      obtain ⟨hop, hrest⟩ := h
      have hread : deserialize code it = (.ok op, (deserialize code it).2) := by
        rw [← hop]
      rw [deserialize_ok_serialize hread, List.flatMap_cons, ih _ hrest]

theorem parseScript_flatMap_serialize :
    ∀ ops : List Opcode, (∀ op ∈ ops, op.IsValid) →
      parseScript (ops.flatMap Opcode.serialize) = ops.map .ok := by
  intro ops
  induction ops with
  | nil => intro _; rfl
  | cons op ops ih =>
    intro hv
    have hhead := deserializeNextOpcode_serialize (hv op (by simp)) (ops.flatMap Opcode.serialize)
    rw [serialize_value, List.cons_append] at hhead
    simp only [deserializeNextOpcode, Option.some.injEq] at hhead
    rw [List.flatMap_cons, serialize_value, List.cons_append, parseScript_cons, hhead,
      List.map_cons, ih (fun o ho => hv o (by simp [ho]))]

theorem script_codec_round_trip :
    (∀ (s : List UInt8) (ops : List Opcode), parseScript s = ops.map .ok →
      ops.flatMap Opcode.serialize = s) ∧
    (∀ ops : List Opcode, (∀ op ∈ ops, op.IsValid) →
      parseScript (ops.flatMap Opcode.serialize) = ops.map .ok) :=
  ⟨fun s ops h => flatMap_serialize_of_parseScript ops s h, parseScript_flatMap_serialize⟩

/-- The round trip on a pay-to-pubkey shape: a two-byte push, a `u16`-prefixed push and a
checksig. -/
theorem script_codec_round_trip_push_checksig :
    let ops : List Opcode :=
      [⟨0x02, [7, 9]⟩, ⟨Codes.opPushData2, [1, 2, 3]⟩, ⟨Codes.opCheckSig, []⟩]
    ops.flatMap Opcode.serialize = [0x02, 7, 9, 0x4d, 3, 0, 1, 2, 3, 0xac] ∧
      parseScript (ops.flatMap Opcode.serialize) = ops.map .ok :=
  ⟨by decide, script_codec_round_trip.2 _ (by decide)⟩

end Vecno.TxScript
