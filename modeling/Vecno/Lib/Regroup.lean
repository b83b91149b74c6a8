import Mathlib.Data.Nat.Bitwise
import Mathlib.Data.List.Induction
import Mathlib.Tactic.Ring
import Vecno.Lib.Checked

/-!
# Regrouping bits between digit widths

Digits shifted through a 16-bit buffer into a preallocated vector. Under `Inv` the loop never
writes out of range on a vector of `fromBits * n / toBits` slots.
-/

namespace Regroup

/-- The value of a list of `w`-bit digits, most significant first. -/
def value (w : Nat) (ds : List UInt8) : Nat := ds.foldl (fun acc d => acc * 2 ^ w + d.toNat) 0

@[simp] theorem value_nil (w : Nat) : value w [] = 0 := rfl

@[simp] theorem value_append_singleton (w : Nat) (ds : List UInt8) (d : UInt8) :
    value w (ds ++ [d]) = value w ds * 2 ^ w + d.toNat := by
  simp [value, List.foldl_append]

theorem value_lt {w : Nat} {ds : List UInt8} (h : ∀ d ∈ ds, d.toNat < 2 ^ w) :
    value w ds < 2 ^ (w * ds.length) := by
  induction ds using List.reverseRecOn with
  | nil => simp
  | append_singleton ds d ih =>
    have hd := h d (by simp)
    have hds := ih fun d' hd' => h d' (by simp [hd'])
    rw [value_append_singleton, List.length_append, List.length_singleton, Nat.mul_succ,
      Nat.pow_add]
    calc value w ds * 2 ^ w + d.toNat < value w ds * 2 ^ w + 2 ^ w := by omega
      _ = (value w ds + 1) * 2 ^ w := by ring
      _ ≤ 2 ^ (w * ds.length) * 2 ^ w := Nat.mul_le_mul_right _ hds

/-- Digit lists of one length below `2 ^ w` are determined by their value. -/
theorem value_inj {w : Nat} {xs ys : List UInt8} (hlen : xs.length = ys.length)
    (hxs : ∀ d ∈ xs, d.toNat < 2 ^ w) (hys : ∀ d ∈ ys, d.toNat < 2 ^ w)
    (h : value w xs = value w ys) : xs = ys := by
  induction xs using List.reverseRecOn generalizing ys with
  | nil => exact (List.length_eq_zero_iff.mp hlen.symm).symm
  | append_singleton xs x ih =>
    obtain ⟨ys, y, rfl⟩ : ∃ ys' y, ys = ys' ++ [y] := by
      rcases List.eq_nil_or_concat ys with rfl | ⟨ys', y, rfl⟩
      · simp at hlen
      · exact ⟨ys', y, List.concat_eq_append⟩
    have hx := hxs x (by simp)
    have hy := hys y (by simp)
    rw [value_append_singleton, value_append_singleton] at h
    -- the last digits are the values modulo `2 ^ w`, the rest the quotients
    have hxy : x.toNat = y.toNat := by
      have := congrArg (· % 2 ^ w) h
      simpa [Nat.mul_add_mod, Nat.mod_eq_of_lt hx, Nat.mod_eq_of_lt hy] using this
    have hrest : value w xs = value w ys := by
      have := congrArg (· / 2 ^ w) h
      rwa [Nat.mul_comm (value w xs), Nat.mul_comm (value w ys),
        Nat.mul_add_div (Nat.two_pow_pos w), Nat.mul_add_div (Nat.two_pow_pos w),
        Nat.div_eq_of_lt hx, Nat.div_eq_of_lt hy, Nat.add_zero, Nat.add_zero] at this
    rw [ih (by simpa using hlen) (fun d hd => hxs d (by simp [hd]))
      (fun d hd => hys d (by simp [hd])) hrest, UInt8.toNat_inj.mp hxy]

/-- The loop's state: the output vector, the next slot to write, the bit buffer and the number
of bits in it. -/
structure State where
  out : List UInt8
  currentIdx : Nat
  buff : UInt16
  bits : Nat
deriving DecidableEq, Repr

/-- The digits written so far. -/
def State.written (st : State) : List UInt8 := st.out.take st.currentIdx

/-- `while bits >= to_bits { bits -= to_bits; out[current_idx] = (buff >> bits) as u8;
buff &= (1 << bits) - 1; current_idx += 1 }`, with a bound on the passes: each one takes
`toBits` bits from the buffer, so `bits` passes are always enough. -/
def drain (toBits : Nat) : Nat → State → Except String State
  | 0, st => .ok st
  | fuel + 1, st =>
    if st.bits ≥ toBits then do
      let bits := st.bits - toBits
      let out ← Checked.set st.out st.currentIdx (st.buff >>> bits.toUInt16).toUInt8
      drain toBits fuel
        { out, currentIdx := st.currentIdx + 1,
          buff := st.buff &&& ((1 <<< bits.toUInt16) - 1), bits }
    else .ok st

/-- One pass of `for c in payload`: `buff = (buff << from_bits) | c as u16`, then drain. -/
def push (fromBits toBits : Nat) (st : State) (c : UInt8) : Except String State :=
  let st := { st with
    buff := (st.buff <<< fromBits.toUInt16) ||| c.toUInt16
    bits := st.bits + fromBits }
  drain toBits st.bits st

/-- The loop over `payload` into a zeroed vector of `size` slots. -/
def run (fromBits toBits size : Nat) (payload : List UInt8) : Except String State :=
  payload.foldlM (push fromBits toBits) ⟨List.replicate size 0, 0, 0, 0⟩

/-- The loop's state after reading the digits `xs` into a vector of `size` slots. -/
structure Inv (fromBits toBits size : Nat) (xs : List UInt8) (st : State) : Prop where
  idx_le : st.currentIdx ≤ size
  out_eq : st.out = st.written ++ List.replicate (size - st.currentIdx) 0
  written_length : st.written.length = st.currentIdx
  digit_lt : ∀ d ∈ st.written, d.toNat < 2 ^ toBits
  buff_lt : st.buff.toNat < 2 ^ st.bits
  value_eq : value toBits st.written * 2 ^ st.bits + st.buff.toNat = value fromBits xs
  length_eq : toBits * st.currentIdx + st.bits = fromBits * xs.length

section Loop

variable {fromBits toBits size : Nat} {xs : List UInt8} {st : State}

theorem inv_init : Inv fromBits toBits size [] ⟨List.replicate size 0, 0, 0, 0⟩ where
  idx_le := Nat.zero_le _
  out_eq := by simp [State.written]
  written_length := by simp [State.written]
  digit_lt := by simp [State.written]
  buff_lt := by simp
  value_eq := by simp [State.written]
  length_eq := by simp

theorem toNat_shiftRight_of_lt (a : UInt16) {b : Nat} (hb : b < 16) :
    (a >>> b.toUInt16).toNat = a.toNat / 2 ^ b := by
  have hb' : b.toUInt16.toNat % 16 = b := by simp; omega
  rw [UInt16.toNat_shiftRight, hb', Nat.shiftRight_eq_div_pow]

theorem toNat_mask_of_lt (a : UInt16) {b : Nat} (hb : b < 16) :
    (a &&& ((1 <<< b.toUInt16) - 1)).toNat = a.toNat % 2 ^ b := by
  have hb' : b.toUInt16.toNat % 16 = b := by simp; omega
  have hpow : 2 ^ b < 2 ^ 16 := Nat.pow_lt_pow_right (by decide) hb
  have hone : ((1 : UInt16) <<< b.toUInt16).toNat = 2 ^ b := by
    rw [UInt16.toNat_shiftLeft, hb', UInt16.toNat_one, Nat.one_shiftLeft]
    exact Nat.mod_eq_of_lt hpow
  have hmask : ((1 : UInt16) <<< b.toUInt16 - 1).toNat = 2 ^ b - 1 := by
    have hle : (1 : UInt16) ≤ 1 <<< b.toUInt16 :=
      UInt16.le_iff_toNat_le.mpr (by rw [hone]; exact Nat.one_le_two_pow)
    rw [UInt16.toNat_sub_of_le _ _ hle, hone, UInt16.toNat_one]
  rw [UInt16.toNat_and, hmask, Nat.and_two_pow_sub_one_eq_mod]

theorem toNat_shiftLeft_or_of_lt (a : UInt16) (c : UInt8) {bits f : Nat}
    (ha : a.toNat < 2 ^ bits) (hc : c.toNat < 2 ^ f) (hbits : bits + f ≤ 16) :
    ((a <<< f.toUInt16) ||| c.toUInt16).toNat = a.toNat * 2 ^ f + c.toNat := by
  have hf : f < 16 ∨ f = 16 := Nat.lt_or_eq_of_le (by omega)
  rcases hf with hf | rfl
  · have hf' : f.toUInt16.toNat % 16 = f := by simp; omega
    have hprod : a.toNat * 2 ^ f < 2 ^ 16 :=
      calc a.toNat * 2 ^ f < 2 ^ bits * 2 ^ f := Nat.mul_lt_mul_of_pos_right ha (Nat.two_pow_pos f)
        _ = 2 ^ (bits + f) := (Nat.pow_add 2 bits f).symm
        _ ≤ 2 ^ 16 := Nat.pow_le_pow_right (by decide) hbits
    rw [UInt16.toNat_or, UInt16.toNat_shiftLeft, hf', UInt8.toNat_toUInt16, Nat.shiftLeft_eq,
      Nat.mod_eq_of_lt hprod, ← Nat.shiftLeft_eq, ← Nat.shiftLeft_add_eq_or_of_lt hc,
      Nat.shiftLeft_eq]
  · -- a sixteen-bit shift leaves no room for `a`, which is then zero
    have ha0 : a.toNat = 0 := by
      have : 2 ^ bits = 1 := by rw [show bits = 0 by omega]; rfl
      omega
    have ha0' : a = 0 := UInt16.toNat_inj.mp (by simpa using ha0)
    subst ha0'
    simp

/-- Writing the next slot of the vector: the digit joins the written ones. -/
theorem Inv.set_next (hinv : Inv fromBits toBits size xs st) (hroom : st.currentIdx < size)
    (d : UInt8) :
    Checked.set st.out st.currentIdx d =
      .ok ((st.written ++ [d]) ++ List.replicate (size - (st.currentIdx + 1)) 0) := by
  have hlen : st.currentIdx < st.out.length := by
    rw [hinv.out_eq, List.length_append, List.length_replicate, hinv.written_length]
    omega
  have hk : size - st.currentIdx = (size - (st.currentIdx + 1)) + 1 := by omega
  rw [Checked.set, if_pos hlen, hinv.out_eq, hk, List.replicate_succ,
    List.set_append_right _ _ (by rw [hinv.written_length]), hinv.written_length, Nat.sub_self,
    List.set_cons_zero, List.append_assoc, List.singleton_append]

/-- The first `n + 1` slots of a vector whose first `n` slots are `ws`, then `d`. -/
theorem take_succ_append {ws : List UInt8} {n : Nat} (hws : ws.length = n) (d : UInt8)
    (rest : List UInt8) : ((ws ++ [d]) ++ rest).take (n + 1) = ws ++ [d] := by
  rw [List.take_append_of_le_length (by simp [hws])]
  exact List.take_of_length_le (by simp [hws])

theorem Inv.drainPass (hinv : Inv fromBits toBits size xs st) (hto : toBits ≤ 8)
    (hge : toBits ≤ st.bits) (hbits : st.bits < 16) (hroom : st.currentIdx < size) :
    ∃ out, Checked.set st.out st.currentIdx (st.buff >>> (st.bits - toBits).toUInt16).toUInt8 =
        .ok out ∧
      Inv fromBits toBits size xs
        { out, currentIdx := st.currentIdx + 1,
          buff := st.buff &&& ((1 <<< (st.bits - toBits).toUInt16) - 1),
          bits := st.bits - toBits } := by
  set b := st.bits - toBits with hb
  set d := (st.buff >>> b.toUInt16).toUInt8 with hd
  have hbits' : toBits + b = st.bits := by omega
  -- the digit is the top `toBits` bits of the buffer
  have hq : st.buff.toNat / 2 ^ b < 2 ^ toBits := by
    rw [Nat.div_lt_iff_lt_mul (Nat.two_pow_pos b), ← Nat.pow_add, hbits']
    exact hinv.buff_lt
  have hdnat : d.toNat = st.buff.toNat / 2 ^ b := by
    have h256 : st.buff.toNat / 2 ^ b < 256 :=
      lt_of_lt_of_le hq (Nat.pow_le_pow_right (by decide) hto)
    rw [hd, UInt16.toNat_toUInt8, toNat_shiftRight_of_lt _ (by omega), Nat.mod_eq_of_lt h256]
  set out := (st.written ++ [d]) ++ List.replicate (size - (st.currentIdx + 1)) 0 with hout
  have hw : (State.written
      { out, currentIdx := st.currentIdx + 1,
        buff := st.buff &&& ((1 <<< b.toUInt16) - 1), bits := b }) = st.written ++ [d] :=
    take_succ_append hinv.written_length d _
  have hmask : (st.buff &&& ((1 <<< b.toUInt16) - 1)).toNat = st.buff.toNat % 2 ^ b :=
    toNat_mask_of_lt _ (by omega)
  refine ⟨out, hinv.set_next hroom d, ?_⟩
  constructor
  · exact hroom
  · rw [hw]
  · rw [hw, List.length_append, hinv.written_length, List.length_singleton]
  · intro d' hd'
    rw [hw, List.mem_append, List.mem_singleton] at hd'
    rcases hd' with hd' | rfl
    · exact hinv.digit_lt d' hd'
    · rw [hdnat]
      exact hq
  · rw [hmask]
    exact Nat.mod_lt _ (Nat.two_pow_pos b)
  · -- the written digit and the remaining bits together are the buffer
    rw [hw, value_append_singleton, hmask, hdnat, ← hinv.value_eq, ← hbits', Nat.pow_add]
    change (value toBits st.written * 2 ^ toBits + st.buff.toNat / 2 ^ b) * 2 ^ b +
      st.buff.toNat % 2 ^ b = value toBits st.written * (2 ^ toBits * 2 ^ b) + st.buff.toNat
    have hsplit := Nat.div_add_mod st.buff.toNat (2 ^ b)
    calc (value toBits st.written * 2 ^ toBits + st.buff.toNat / 2 ^ b) * 2 ^ b +
          st.buff.toNat % 2 ^ b
        = value toBits st.written * (2 ^ toBits * 2 ^ b) +
          (2 ^ b * (st.buff.toNat / 2 ^ b) + st.buff.toNat % 2 ^ b) := by ring
      _ = value toBits st.written * (2 ^ toBits * 2 ^ b) + st.buff.toNat := by rw [hsplit]
  · have := hinv.length_eq
    change toBits * (st.currentIdx + 1) + b = fromBits * xs.length
    rw [Nat.mul_succ]
    omega

/-- The drain loop keeps the invariant and, given enough passes, leaves fewer than `toBits`
bits, on a vector with room for every digit the bits read make. -/
theorem Inv.drain (hinv : Inv fromBits toBits size xs st) (hpos : 0 < toBits) (hto : toBits ≤ 8)
    (hbits : st.bits < 16) (hroom : fromBits * xs.length / toBits ≤ size) (fuel : Nat) :
    ∃ st', Regroup.drain toBits fuel st = .ok st' ∧ Inv fromBits toBits size xs st' ∧
      (st.bits ≤ fuel → st'.bits < toBits) := by
  induction fuel generalizing st with
  | zero => exact ⟨st, rfl, hinv, fun h => by omega⟩
  | succ fuel ih =>
    by_cases hge : toBits ≤ st.bits
    · -- a digit is written; the bits read fill at least one more slot
      have hidx : st.currentIdx < size := by
        have hlt : st.currentIdx + 1 ≤ fromBits * xs.length / toBits := by
          rw [Nat.le_div_iff_mul_le hpos]
          have := hinv.length_eq
          rw [Nat.mul_comm] at this
          rw [Nat.add_mul, Nat.one_mul]
          omega
        omega
      obtain ⟨out, hout, hinv'⟩ := hinv.drainPass hto hge hbits hidx
      obtain ⟨st', hst', hinv'', hlt⟩ := ih hinv' (by simp only; omega)
      refine ⟨st', ?_, hinv'', fun h => hlt (by simp only; omega)⟩
      simp only [Regroup.drain, hge, if_true, hout, Except.ok_bind]
      exact hst'
    · refine ⟨st, ?_, hinv, fun _ => by omega⟩
      simp [Regroup.drain, hge]

theorem Inv.push (hinv : Inv fromBits toBits size xs st) (hpos : 0 < toBits) (hto : toBits ≤ 8)
    (hwidth : toBits + fromBits ≤ 16) (hlow : st.bits < toBits) {c : UInt8}
    (hc : c.toNat < 2 ^ fromBits) (hroom : fromBits * (xs ++ [c]).length / toBits ≤ size) :
    ∃ st', Regroup.push fromBits toBits st c = .ok st' ∧
      Inv fromBits toBits size (xs ++ [c]) st' ∧ st'.bits < toBits := by
  set st1 : State := { st with
    buff := (st.buff <<< fromBits.toUInt16) ||| c.toUInt16
    bits := st.bits + fromBits } with hst1
  have hbuff : st1.buff.toNat = st.buff.toNat * 2 ^ fromBits + c.toNat :=
    toNat_shiftLeft_or_of_lt _ _ hinv.buff_lt hc (by omega)
  -- the new digit goes below the buffer's bits
  have hinv1 : Inv fromBits toBits size (xs ++ [c]) st1 := {
    idx_le := hinv.idx_le
    out_eq := hinv.out_eq
    written_length := hinv.written_length
    digit_lt := hinv.digit_lt
    buff_lt := by
      rw [hbuff, show st1.bits = st.bits + fromBits from rfl, Nat.pow_add]
      calc st.buff.toNat * 2 ^ fromBits + c.toNat
          < st.buff.toNat * 2 ^ fromBits + 2 ^ fromBits := by omega
        _ = (st.buff.toNat + 1) * 2 ^ fromBits := by ring
        _ ≤ 2 ^ st.bits * 2 ^ fromBits := Nat.mul_le_mul_right _ hinv.buff_lt
    value_eq := by
      rw [hbuff, value_append_singleton, ← hinv.value_eq,
        show st1.bits = st.bits + fromBits from rfl, Nat.pow_add]
      change value toBits st.written * (2 ^ st.bits * 2 ^ fromBits) +
        (st.buff.toNat * 2 ^ fromBits + c.toNat) = _
      ring
    length_eq := by
      have := hinv.length_eq
      simp only [List.length_append, List.length_singleton, Nat.mul_succ]
      change toBits * st.currentIdx + (st.bits + fromBits) = _
      omega }
  obtain ⟨st', hst', hinv', hlt⟩ :=
    hinv1.drain hpos hto (show st1.bits < 16 by simp only [st1]; omega) hroom st1.bits
  exact ⟨st', hst', hinv', hlt le_rfl⟩

theorem Inv.foldlM_push (hpos : 0 < toBits) (hto : toBits ≤ 8) (hwidth : toBits + fromBits ≤ 16) :
    ∀ {ys : List UInt8} {xs : List UInt8} {st : State}, Inv fromBits toBits size xs st →
      st.bits < toBits → (∀ c ∈ ys, c.toNat < 2 ^ fromBits) →
      fromBits * (xs ++ ys).length / toBits ≤ size →
      ∃ st', ys.foldlM (Regroup.push fromBits toBits) st = .ok st' ∧
        Inv fromBits toBits size (xs ++ ys) st' ∧ st'.bits < toBits := by
  intro ys
  induction ys with
  | nil =>
    intro xs st hinv hlow _ _
    exact ⟨st, rfl, by simpa using hinv, hlow⟩
  | cons c ys ih =>
    intro xs st hinv hlow hcs hroom
    have hroom1 : fromBits * (xs ++ [c]).length / toBits ≤ size := by
      refine le_trans (Nat.div_le_div_right (Nat.mul_le_mul_left _ ?_)) hroom
      simp
    obtain ⟨st1, h1, hinv1, hlow1⟩ :=
      hinv.push hpos hto hwidth hlow (hcs c List.mem_cons_self) hroom1
    obtain ⟨st', h', hinv', hlow'⟩ := ih hinv1 hlow1 (fun c' hc' => hcs c' (.tail c hc'))
      (by simpa using hroom)
    refine ⟨st', ?_, by simpa using hinv', hlow'⟩
    rw [List.foldlM_cons, h1, Except.ok_bind]
    exact h'

/-- On a vector with a slot for every whole digit the input makes, the loop never aborts: it
writes `fromBits * n / toBits` digits that, with the fewer than `toBits` bits left in the
buffer, hold the input's bits. -/
theorem run_spec {payload : List UInt8} (hpos : 0 < toBits) (hto : toBits ≤ 8)
    (hwidth : toBits + fromBits ≤ 16) (hdigits : ∀ c ∈ payload, c.toNat < 2 ^ fromBits)
    (hroom : fromBits * payload.length / toBits ≤ size) :
    ∃ st, run fromBits toBits size payload = .ok st ∧ Inv fromBits toBits size payload st ∧
      st.bits < toBits := by
  obtain ⟨st, h, hinv, hlow⟩ :=
    Inv.foldlM_push hpos hto hwidth (inv_init : Inv fromBits toBits size [] _) hpos hdigits
      (by simpa using hroom)
  exact ⟨st, h, by simpa using hinv, hlow⟩

theorem Inv.currentIdx_eq (hinv : Inv fromBits toBits size xs st) (hpos : 0 < toBits)
    (hlow : st.bits < toBits) : st.currentIdx = fromBits * xs.length / toBits := by
  rw [← hinv.length_eq, Nat.mul_add_div hpos, Nat.div_eq_of_lt hlow, Nat.add_zero]

end Loop

end Regroup
