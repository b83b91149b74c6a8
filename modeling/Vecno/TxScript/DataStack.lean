import Vecno.TxScript.Opcodes
import Vecno.Lib.SignMagnitude
import Vecno.Lib.Checked

/-!
# Script numbers

`serialize_i64` and `deserialize_i64` of `data_stack.rs`, with `check_minimal_data_encoding` and
the length bounds of `SizedEncodeInt<LEN>`.
-/

namespace Vecno.TxScript

open LittleEndian

/-- `{:x?}` of a byte slice: the bytes in lower-case hexadecimal, as `[1, ff]`. -/
def debugHex (v : List UInt8) : String :=
  "[" ++ ", ".intercalate (v.map fun b => String.ofList (Nat.toDigits 16 b.toNat)) ++ "]"

/-- `check_minimal_data_encoding`: the top byte without its sign bit is zero only when the byte
below it has its high bit set, which rejects negative zero `[0x80]`. -/
def checkMinimalDataEncoding (v : List UInt8) : Except TxScriptError Unit :=
  if v.isEmpty then .ok ()
  else if v.getD (v.length - 1) 0 &&& 0x7f = 0 then
    if v.length = 1 ∨ v.getD (v.length - 2) 0 &&& 0x80 = 0 then
      let hex := debugHex v
      .error (.notMinimalData s!"numeric value encoded as {hex} is not minimally encoded")
    else .ok ()
  else .ok ()

/-- The bytes `serialize_i64`'s iterator yields from the magnitude left in `positive`: the low
byte each time, and once the magnitude is used up a zero byte if the byte before was saturated. -/
def magnitudeBytes (positive : Nat) (lastSaturated : Bool) : List UInt8 :=
  if h : positive = 0 then
    if lastSaturated then [0] else []
  else
    let value := positive % 256
    UInt8.ofNat value :: magnitudeBytes (positive / 256) (value &&& 0x80 != 0)
termination_by positive
decreasing_by omega

/-- `serialize_i64`: the magnitude's bytes, with the sign bit set on the last for a negative
number. -/
def serializeI64 (n : Int) : List UInt8 :=
  let sign := n.sign
  let numberVec := magnitudeBytes n.natAbs false
  if sign = -1 then
    match numberVec.getLast? with
    | some num => numberVec.dropLast ++ [num ||| 0x80]
    -- `unreachable!()`: a negative number has a magnitude byte (`magnitudeBytes_ne_nil`)
    | none => numberVec
  else numberVec

/-- `deserialize_i64`: at most eight bytes, minimally encoded, read from the top byte down. -/
def deserializeI64 (v : List UInt8) : Except TxScriptError Int :=
  if v.length > 8 then
    let hex := debugHex v
    .error (.notMinimalData s!"numeric value encoded as {hex} is longer than 8 bytes")
  else if v.length = 0 then .ok 0
  else do
    checkMinimalDataEncoding v
    let msb := v.getD (v.length - 1) 0
    let sign : Int := 1 - 2 * ((msb >>> 7).toNat : Int)
    let firstByte : Int := ((msb &&& 0x7f).toNat : Int)
    pure ((v.take (v.length - 1)).reverse.foldl (fun accum item => accum * 256 + (item.toNat : Int))
      firstByte * sign)

def deserializeSized (len : Nat) (v : List UInt8) : Except TxScriptError Int :=
  if v.length > len then
    let hex := debugHex v
    let size := v.length
    .error (.numberTooBig
      s!"numeric value encoded as {hex} is {size} bytes which exceeds the max allowed of {len}")
  else deserializeI64 v

def serializeSized (len : Nat) (n : Int) : Except SerializationError (List UInt8) :=
  let bytes := serializeI64 n
  if bytes.length > len then .error (.numberTooLong n) else .ok bytes

/-- `OpcodeData::<i32>::deserialize`: the four-byte reading, converted by an `expect` whose panic
is the outer error. -/
def deserializeI32 (v : List UInt8) : Except String (Except TxScriptError Int) :=
  match deserializeSized 4 v with
  | .error e => .ok (.error e)
  | .ok m =>
    if -2 ^ 31 ≤ m ∧ m < 2 ^ 31 then .ok (.ok m)
    else .error "number is within i32 range: TryFromIntError(())"

/-! ## The magnitude bytes -/

theorem magnitudeBytes_zero (lastSaturated : Bool) :
    magnitudeBytes 0 lastSaturated = if lastSaturated then [0] else [] := by
  rw [magnitudeBytes, dif_pos rfl]

theorem magnitudeBytes_of_pos {positive : Nat} (h : 0 < positive) (lastSaturated : Bool) :
    magnitudeBytes positive lastSaturated =
      UInt8.ofNat (positive % 256) :: magnitudeBytes (positive / 256) (positive % 256 &&& 0x80 != 0) := by
  rw [magnitudeBytes, dif_neg (by omega)]

theorem toNat_ofNat_mod (n : Nat) : (UInt8.ofNat (n % 256)).toNat = n % 256 := by
  rw [UInt8.toNat_ofNat', Nat.mod_mod]

theorem mod_and_0x80_ne_zero (n : Nat) : (n % 256 &&& 0x80 != 0) = decide (128 ≤ n % 256) := by
  have h := and_128_eq_zero_iff (Nat.mod_lt n (show 0 < 256 by decide))
  rw [Bool.eq_iff_iff, bne_iff_ne, decide_eq_true_iff]
  constructor
  · intro hne
    by_contra hlt
    exact hne (h.mpr (by omega))
  · intro hge h0
    have := h.mp h0
    omega

theorem magnitudeBytes_spec (positive : Nat) (hpos : 0 < positive) (lastSaturated : Bool) :
    ∃ init top, magnitudeBytes positive lastSaturated = init ++ [top] ∧ MinimalDigits init top ∧
      fromLeBytes (init ++ [top]) = positive := by
  induction positive using Nat.strongRecOn generalizing lastSaturated with
  | ind p ih =>
    have hb := toNat_ofNat_mod p
    rw [magnitudeBytes_of_pos hpos, mod_and_0x80_ne_zero]
    by_cases hq : p / 256 = 0
    · -- the last byte: a saturated one is followed by a zero byte
      rw [hq, magnitudeBytes_zero]
      by_cases hsat : 128 ≤ p % 256
      · refine ⟨[UInt8.ofNat (p % 256)], 0, by simp [hsat], ⟨by decide, ?_⟩, ?_⟩
        · intro _
          exact ⟨[], _, rfl, by omega⟩
        · simp only [fromLeBytes, List.cons_append, List.nil_append, UInt8.toNat_zero]
          omega
      · refine ⟨[], UInt8.ofNat (p % 256), by simp [hsat], ⟨by omega, ?_⟩, ?_⟩
        · intro h0
          omega
        · simp only [fromLeBytes, List.nil_append]
          omega
    · obtain ⟨init, top, heq, hmin, hval⟩ := ih (p / 256) (by omega) (by omega) _
      refine ⟨UInt8.ofNat (p % 256) :: init, top, by rw [heq, List.cons_append], ⟨hmin.top_lt, ?_⟩, ?_⟩
      · intro h0
        obtain ⟨rest, c, hrest, hc⟩ := hmin.below_of_top_eq_zero h0
        exact ⟨UInt8.ofNat (p % 256) :: rest, c, by rw [hrest, List.cons_append], hc⟩
      · rw [List.cons_append, fromLeBytes, hval]
        omega

theorem magnitudeBytes_ne_nil {positive : Nat} (hpos : 0 < positive) (lastSaturated : Bool) :
    magnitudeBytes positive lastSaturated ≠ [] := by
  rw [magnitudeBytes_of_pos hpos]
  exact List.cons_ne_nil _ _

/-! ## Reading minimal bytes -/

theorem getD_concat_length (init : List UInt8) (b : UInt8) :
    (init ++ [b]).getD init.length 0 = b := by
  simp

/-- `check_minimal_data_encoding` of `init ++ [msb]` accepts exactly minimal magnitude bytes
`init ++ [msb &&& 0x7f]`. -/
theorem checkMinimalDataEncoding_concat (init : List UInt8) (msb : UInt8) :
    checkMinimalDataEncoding (init ++ [msb]) = .ok () ↔ MinimalDigits init (msb &&& 0x7f) := by
  have htop : (msb &&& 0x7f).toNat < 128 := by rw [toNat_and_0x7f]; omega
  have hlast : (init ++ [msb]).getD ((init ++ [msb]).length - 1) 0 = msb := by
    rw [List.length_append, List.length_singleton, Nat.add_sub_cancel, getD_concat_length]
  have hzero : msb &&& 0x7f = 0 ↔ (msb &&& 0x7f).toNat = 0 := by
    rw [← UInt8.toNat_inj, UInt8.toNat_zero]
  unfold checkMinimalDataEncoding
  rw [if_neg (by simp), hlast]
  rcases List.eq_nil_or_concat init with rfl | ⟨rest, c, rfl⟩
  · -- a single byte is minimal unless it is zero without its sign bit
    rw [List.nil_append]
    by_cases h0 : msb &&& 0x7f = 0
    · rw [if_pos h0, if_pos (Or.inl List.length_singleton)]
      simp only [reduceCtorEq, false_iff]
      intro hmin
      obtain ⟨rest, c, hrc, -⟩ := hmin.below_of_top_eq_zero (hzero.mp h0)
      exact List.nil_eq_append_iff.mp hrc |>.2 |> List.cons_ne_nil c [] |>.elim
    · rw [if_neg h0]
      exact ⟨fun _ => ⟨htop, fun h => absurd (hzero.mpr h) h0⟩, fun _ => rfl⟩
  · rw [List.concat_eq_append]
    have hbelow : (rest ++ [c] ++ [msb]).getD ((rest ++ [c] ++ [msb]).length - 2) 0 = c := by
      simp
    have hlen : (rest ++ [c] ++ [msb]).length ≠ 1 := by simp
    by_cases h0 : msb &&& 0x7f = 0
    · rw [if_pos h0, hbelow]
      by_cases hc : c &&& 0x80 = 0
      · rw [if_pos (Or.inr hc)]
        simp only [reduceCtorEq, false_iff]
        intro hmin
        obtain ⟨rest', c', hrc, hc'⟩ := hmin.below_of_top_eq_zero (hzero.mp h0)
        obtain ⟨-, hcc⟩ := List.append_inj' hrc rfl
        rw [List.singleton_inj.mp hcc] at hc
        have := (and_0x80_eq_zero_iff c').mp hc
        omega
      · rw [if_neg (not_or.mpr ⟨hlen, hc⟩)]
        have hc' : 128 ≤ c.toNat := by
          have := (and_0x80_eq_zero_iff c).not.mp hc
          omega
        exact ⟨fun _ => ⟨htop, fun _ => ⟨rest, c, rfl, hc'⟩⟩, fun _ => rfl⟩
    · rw [if_neg h0]
      exact ⟨fun _ => ⟨htop, fun h => absurd (hzero.mpr h) h0⟩, fun _ => rfl⟩

/-- The value `deserialize_i64` reads from bytes `init ++ [msb]`: the magnitude with the sign bit
cleared, negated when the sign bit is set. -/
def signedValue (init : List UInt8) (msb : UInt8) : Int :=
  (fromLeBytes (init ++ [msb &&& 0x7f]) : Int) * (1 - 2 * ((msb.toNat / 128 : Nat) : Int))

theorem deserializeI64_concat {init : List UInt8} {msb : UInt8} (hlen : init.length < 8)
    (hmin : MinimalDigits init (msb &&& 0x7f)) :
    deserializeI64 (init ++ [msb]) = .ok (signedValue init msb) := by
  have hcheck := (checkMinimalDataEncoding_concat init msb).mpr hmin
  have hlast : (init ++ [msb]).getD ((init ++ [msb]).length - 1) 0 = msb := by
    rw [List.length_append, List.length_singleton, Nat.add_sub_cancel, getD_concat_length]
  have htake : (init ++ [msb]).take ((init ++ [msb]).length - 1) = init := by
    rw [List.length_append, List.length_singleton, Nat.add_sub_cancel, List.take_left' rfl]
  unfold deserializeI64
  rw [if_neg (by simp; omega), if_neg (by simp), hcheck, Except.ok_bind, hlast, htake]
  simp only [foldl_reverse_horner, toNat_shiftRight_seven, signedValue, fromLeBytes_concat]
  push_cast
  rfl

/-! ## Writing and reading back -/

theorem or_0x80_parts {b : UInt8} (h : b.toNat < 128) :
    (b ||| 0x80) &&& 0x7f = b ∧ (b ||| 0x80).toNat / 128 = 1 := by
  have hor := toNat_or_0x80 h
  refine ⟨UInt8.toNat_inj.mp ?_, by omega⟩
  rw [toNat_and_0x7f, hor]
  omega

theorem and_0x7f_of_lt {b : UInt8} (h : b.toNat < 128) : b &&& 0x7f = b := by
  apply UInt8.toNat_inj.mp
  rw [toNat_and_0x7f]
  omega

/-- `serialize_i64` of a non-zero number: the minimal magnitude bytes of `|n|`, the top one
carrying the sign. -/
theorem serializeI64_spec {n : Int} (hn : n ≠ 0) :
    ∃ init top, serializeI64 n = init ++ [if n < 0 then top ||| 0x80 else top] ∧
      MinimalDigits init top ∧ fromLeBytes (init ++ [top]) = n.natAbs := by
  obtain ⟨init, top, heq, hmin, hval⟩ := magnitudeBytes_spec n.natAbs (Int.natAbs_pos.mpr hn) false
  refine ⟨init, top, ?_, hmin, hval⟩
  unfold serializeI64
  simp only [heq]
  by_cases hneg : n < 0
  · rw [if_pos (Int.sign_eq_neg_one_iff_neg.mpr hneg), if_pos hneg, List.getLast?_concat,
      List.dropLast_concat]
  · rw [if_neg (fun h => hneg (Int.sign_eq_neg_one_iff_neg.mp h)), if_neg hneg]

theorem signedValue_serialize {n : Int} {init : List UInt8} {top : UInt8} (hmin : MinimalDigits init top)
    (hval : fromLeBytes (init ++ [top]) = n.natAbs) :
    signedValue init (if n < 0 then top ||| 0x80 else top) = n := by
  by_cases hneg : n < 0
  · obtain ⟨hlow, hhigh⟩ := or_0x80_parts hmin.top_lt
    rw [if_pos hneg, signedValue, hlow, hhigh, hval]
    omega
  · have hhigh : top.toNat / 128 = 0 := by have := hmin.top_lt; omega
    rw [if_neg hneg, signedValue, and_0x7f_of_lt hmin.top_lt, hhigh, hval]
    omega

theorem signedValue_cases (init : List UInt8) (msb : UInt8) :
    (msb.toNat < 128 ∧ signedValue init msb = fromLeBytes (init ++ [msb &&& 0x7f])) ∨
      (128 ≤ msb.toNat ∧ signedValue init msb = -(fromLeBytes (init ++ [msb &&& 0x7f]) : Int)) := by
  have hb := msb.toNat_lt
  by_cases hlt : msb.toNat < 128
  · refine .inl ⟨hlt, ?_⟩
    rw [signedValue, Nat.div_eq_of_lt hlt]
    push_cast
    ring
  · refine .inr ⟨by omega, ?_⟩
    rw [signedValue, show msb.toNat / 128 = 1 by omega]
    push_cast
    ring

/-- `serialize_i64` writes the one minimal encoding of the magnitude, signed. -/
theorem serializeI64_of_minimal {init : List UInt8} {top : UInt8} (hmin : MinimalDigits init top)
    {n : Int} (hn : n.natAbs = fromLeBytes (init ++ [top])) :
    serializeI64 n = init ++ [if n < 0 then top ||| 0x80 else top] := by
  have hne : n ≠ 0 := by
    have := hmin.value_pos
    omega
  obtain ⟨init', top', heq, hmin', hval'⟩ := serializeI64_spec hne
  obtain ⟨hinit, htop⟩ := hmin'.eq_of_value_eq hmin (by rw [hval', hn])
  rw [heq, hinit, htop]

/-- A minimal encoding is what `serialize_i64` writes for the value it reads. -/
theorem serializeI64_signedValue {init : List UInt8} {msb : UInt8}
    (hmin : MinimalDigits init (msb &&& 0x7f)) : serializeI64 (signedValue init msb) = init ++ [msb] := by
  have hpos := hmin.value_pos
  have hlow := toNat_and_0x7f msb
  rcases signedValue_cases init msb with ⟨hlt, hv⟩ | ⟨hge, hv⟩
  · rw [serializeI64_of_minimal hmin (by omega), if_neg (by omega), and_0x7f_of_lt hlt]
  · rw [serializeI64_of_minimal hmin (by omega), if_pos (by omega)]
    -- the sign bit written back is the one read
    obtain ⟨hlow', hhigh'⟩ := or_0x80_parts hmin.top_lt
    congr 2
    exact eq_of_low_high (by rw [← toNat_and_0x7f, hlow', hlow]) (by rw [hhigh']; have := msb.toNat_lt; omega)

theorem serializeI64_zero : serializeI64 0 = [] := by
  rw [serializeI64, Int.natAbs_zero, magnitudeBytes_zero]
  rfl

/-- A number of magnitude below `128` is one byte, with its sign in the high bit. -/
theorem serializeI64_of_natAbs_lt {n : Int} (hn : n ≠ 0) (h : n.natAbs < 128) :
    serializeI64 n = [if n < 0 then UInt8.ofNat n.natAbs ||| 0x80 else UInt8.ofNat n.natAbs] := by
  have htop : (UInt8.ofNat n.natAbs).toNat = n.natAbs := by
    rw [UInt8.toNat_ofNat', Nat.mod_eq_of_lt (by omega)]
  have hmin : MinimalDigits [] (UInt8.ofNat n.natAbs) :=
    ⟨by omega, fun h0 => absurd h0 (by omega)⟩
  exact serializeI64_of_minimal hmin (by rw [List.nil_append, fromLeBytes, fromLeBytes, htop]; omega)

/-- The bytes of a non-zero number: minimal magnitude bytes whose top byte carries the sign. -/
theorem serializeI64_concat {n : Int} (hn : n ≠ 0) :
    ∃ init msb, serializeI64 n = init ++ [msb] ∧ MinimalDigits init (msb &&& 0x7f) ∧
      signedValue init msb = n ∧ fromLeBytes (init ++ [msb &&& 0x7f]) = n.natAbs := by
  obtain ⟨init, top, heq, hmin, hval⟩ := serializeI64_spec hn
  have hlow : (if n < 0 then top ||| 0x80 else top) &&& 0x7f = top := by
    split
    · exact (or_0x80_parts hmin.top_lt).1
    · exact and_0x7f_of_lt hmin.top_lt
  refine ⟨init, _, heq, by rw [hlow]; exact hmin, signedValue_serialize hmin hval, by rw [hlow, hval]⟩

theorem serializeI64_ne_zero_byte (n : Int) : serializeI64 n ≠ [0] := by
  intro h
  by_cases hn : n = 0
  · rw [hn, serializeI64_zero] at h
    exact List.cons_ne_nil _ _ h.symm
  · obtain ⟨init, msb, heq, hmin, -, -⟩ := serializeI64_concat hn
    rw [heq] at h
    have hinit : init = [] := by
      have := congrArg List.length h
      rw [List.length_append, List.length_singleton, List.length_singleton] at this
      exact List.eq_nil_of_length_eq_zero (by omega)
    subst hinit
    rw [List.nil_append, List.singleton_inj] at h
    subst h
    obtain ⟨rest, c, hrc, -⟩ := hmin.below_of_top_eq_zero rfl
    exact List.append_ne_nil_of_right_ne_nil rest (List.cons_ne_nil c []) hrc.symm

/-- A number below `128 * 256 ^ len` in magnitude takes at most `len + 1` bytes. -/
theorem serializeI64_length_le_of_natAbs_lt {n : Int} (len : Nat) (h : n.natAbs < 128 * 256 ^ len) :
    (serializeI64 n).length ≤ len + 1 := by
  by_cases hn : n = 0
  · rw [hn, serializeI64_zero]
    exact Nat.zero_le _
  · obtain ⟨init, msb, heq, hmin, -, hval⟩ := serializeI64_concat hn
    have hlen := hmin.length_le len (by rw [hval]; exact h)
    rw [heq, List.length_append, List.length_singleton]
    omega

theorem serializeI64_length_le {n : Int} (hlo : -2 ^ 63 < n) (hhi : n < 2 ^ 63) :
    (serializeI64 n).length ≤ 8 :=
  serializeI64_length_le_of_natAbs_lt 7 (by omega)

theorem checkMinimalDataEncoding_serializeI64 (n : Int) :
    checkMinimalDataEncoding (serializeI64 n) = .ok () := by
  by_cases hn : n = 0
  · rw [hn, serializeI64_zero]
    rfl
  · obtain ⟨init, msb, heq, hmin, -, -⟩ := serializeI64_concat hn
    rw [heq]
    exact (checkMinimalDataEncoding_concat init msb).mpr hmin

theorem deserializeI64_serializeI64 {n : Int} (h : (serializeI64 n).length ≤ 8) :
    deserializeI64 (serializeI64 n) = .ok n := by
  by_cases hn : n = 0
  · rw [hn, serializeI64_zero]
    rfl
  · obtain ⟨init, msb, heq, hmin, hv, -⟩ := serializeI64_concat hn
    rw [heq] at h ⊢
    rw [List.length_append, List.length_singleton] at h
    rw [deserializeI64_concat (by omega) hmin, hv]

/-- What `deserialize_i64` accepts: nothing, read as zero, or at most eight minimal bytes. -/
theorem deserializeI64_eq_ok {v : List UInt8} {m : Int} (h : deserializeI64 v = .ok m) :
    (v = [] ∧ m = 0) ∨ ∃ init msb, v = init ++ [msb] ∧ init.length < 8 ∧
      MinimalDigits init (msb &&& 0x7f) ∧ m = signedValue init msb := by
  rcases List.eq_nil_or_concat v with rfl | ⟨init, msb, rfl⟩
  · have h0 : deserializeI64 [] = .ok 0 := rfl
    rw [h0] at h
    exact .inl ⟨rfl, (Except.ok.inj h).symm⟩
  · rw [List.concat_eq_append] at h ⊢
    have hlen : init.length < 8 := by
      by_contra hge
      unfold deserializeI64 at h
      rw [if_pos (by simp; omega)] at h
      cases h
    have hmin : MinimalDigits init (msb &&& 0x7f) := by
      rw [← checkMinimalDataEncoding_concat]
      cases hc : checkMinimalDataEncoding (init ++ [msb]) with
      | ok u => rfl
      | error e =>
        unfold deserializeI64 at h
        rw [if_neg (by simp; omega), if_neg (by simp), hc, Except.error_bind] at h
        cases h
    exact .inr ⟨init, msb, rfl, hlen, hmin, (Except.ok.inj ((deserializeI64_concat hlen hmin).symm.trans h)).symm⟩

example : deserializeSized 4 [0xff, 0x80] = .ok (-255) := by decide

example : deserializeSized 4 [0x80] =
    .error (.notMinimalData "numeric value encoded as [80] is not minimally encoded") := by decide

theorem serializeI64_of_deserializeI64 {v : List UInt8} {m : Int} (h : deserializeI64 v = .ok m) :
    serializeI64 m = v := by
  rcases deserializeI64_eq_ok h with ⟨rfl, rfl⟩ | ⟨init, msb, rfl, -, hmin, rfl⟩
  · exact serializeI64_zero
  · exact serializeI64_signedValue hmin

theorem deserializeSized_of_le {len : Nat} {v : List UInt8} (h : v.length ≤ len) :
    deserializeSized len v = deserializeI64 v :=
  if_neg (by omega)

theorem deserializeSized_serializeI64 {len : Nat} {n : Int} (hlen : (serializeI64 n).length ≤ len)
    (h8 : (serializeI64 n).length ≤ 8) : deserializeSized len (serializeI64 n) = .ok n := by
  rw [deserializeSized_of_le hlen, deserializeI64_serializeI64 h8]

theorem deserializeSized_eq_ok {len : Nat} {v : List UInt8} {m : Int}
    (h : deserializeSized len v = .ok m) : v.length ≤ len ∧ deserializeI64 v = .ok m := by
  unfold deserializeSized at h
  split at h
  · cases h
  · exact ⟨by omega, h⟩

/-- Four bytes hold a number of `i32` range: the magnitude keeps below `2 ^ 31`. -/
theorem deserializeSized_four_range {v : List UInt8} {m : Int} (h : deserializeSized 4 v = .ok m) :
    -2 ^ 31 < m ∧ m < 2 ^ 31 := by
  obtain ⟨hlen, hv⟩ := deserializeSized_eq_ok h
  rcases deserializeI64_eq_ok hv with ⟨-, rfl⟩ | ⟨init, msb, rfl, -, hmin, rfl⟩
  · decide
  · have hk : init.length ≤ 3 := by
      rw [List.length_append, List.length_singleton] at hlen
      omega
    have hlt := hmin.value_lt
    have hpow : 128 * 256 ^ init.length ≤ 128 * 256 ^ 3 :=
      Nat.mul_le_mul_left _ (Nat.pow_le_pow_right (by decide) hk)
    rcases signedValue_cases init msb with ⟨-, hsv⟩ | ⟨-, hsv⟩ <;> rw [hsv] <;> omega

theorem deserializeI32_eq (v : List UInt8) : deserializeI32 v = .ok (deserializeSized 4 v) := by
  unfold deserializeI32
  split
  · rename_i e he
    rw [he]
  · rename_i m hm
    obtain ⟨hlo, hhi⟩ := deserializeSized_four_range hm
    rw [if_pos ⟨by omega, hhi⟩, hm]

/-- The script-number codec: `serialize_i64` writes every `i64` but `i64::MIN` in at most eight
minimally encoded bytes that `SizedEncodeInt<8>` reads back; every byte string a
`SizedEncodeInt<LEN>` reading accepts is what `serialize_i64` writes for the value read; and a
four-byte reading is in `i32` range, so the `expect` of `OpcodeData::<i32>` holds. -/
theorem serializeI64_deserializeSized :
    (∀ n : Int, -2 ^ 63 < n → n < 2 ^ 63 →
      (serializeI64 n).length ≤ 8 ∧ checkMinimalDataEncoding (serializeI64 n) = .ok () ∧
        deserializeSized 8 (serializeI64 n) = .ok n) ∧
    (∀ len v m, deserializeSized len v = .ok m → serializeI64 m = v) ∧
    (∀ v m, deserializeSized 4 v = .ok m → -2 ^ 31 ≤ m ∧ m < 2 ^ 31) ∧
    (∀ v, deserializeI32 v = .ok (deserializeSized 4 v)) := by
  refine ⟨fun n hlo hhi => ?_, fun len v m h => ?_, fun v m h => ?_, deserializeI32_eq⟩
  · have hlen := serializeI64_length_le hlo hhi
    exact ⟨hlen, checkMinimalDataEncoding_serializeI64 n,
      by rw [deserializeSized_of_le hlen, deserializeI64_serializeI64 hlen]⟩
  · exact serializeI64_of_deserializeI64 (deserializeSized_eq_ok h).2
  · obtain ⟨hlo, hhi⟩ := deserializeSized_four_range h
    exact ⟨by omega, hhi⟩

/-- `-255`, whose magnitude saturates its byte: `[0xff, 0x80]`. -/
theorem serializeI64_deserializeSized_neg255 :
    (-2 ^ 63 < (-255 : Int) ∧ (-255 : Int) < 2 ^ 63) ∧
      deserializeSized 8 (serializeI64 (-255)) = .ok (-255) :=
  ⟨⟨by decide, by decide⟩, (serializeI64_deserializeSized.1 (-255) (by decide) (by decide)).2.2⟩

end Vecno.TxScript
