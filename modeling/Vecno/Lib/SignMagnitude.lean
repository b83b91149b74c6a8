import Mathlib.Tactic.Ring
import Vecno.Lib.LittleEndian

/-!
# Minimal little-endian magnitudes

Magnitudes whose top byte leaves the sign bit free. A minimal encoding's length, and so its bytes,
are fixed by its value.
-/

namespace LittleEndian

theorem toNat_and_0x7f (b : UInt8) : (b &&& 0x7f).toNat = b.toNat % 128 := by
  rw [UInt8.toNat_and]
  exact Nat.and_two_pow_sub_one_eq_mod _ 7

theorem toNat_shiftRight_seven (b : UInt8) : (b >>> 7).toNat = b.toNat / 128 := by
  simp [UInt8.toNat_shiftRight, Nat.shiftRight_eq_div_pow]

theorem toNat_or_0x80 {b : UInt8} (h : b.toNat < 128) : (b ||| 0x80).toNat = b.toNat + 128 := by
  rw [UInt8.toNat_or]
  have h80 : (0x80 : UInt8).toNat = 2 ^ 7 * 1 := rfl
  rw [h80, Nat.or_comm, ← Nat.two_pow_add_eq_or_of_lt h]
  omega

/-- The high bit of a number below `256` is clear exactly when it is below `128`. -/
theorem and_128_eq_zero_iff {m : Nat} (hm : m < 256) : m &&& 128 = 0 ↔ m < 128 := by
  rw [show (128 : Nat) = 2 ^ 7 from rfl]
  constructor
  · intro h
    have h7 := congrArg (Nat.testBit · 7) h
    simp only [Nat.testBit_and, Nat.testBit_two_pow_self, Bool.and_true, Nat.zero_testBit] at h7
    rw [Nat.testBit_eq_decide_div_mod_eq] at h7
    simp only [decide_eq_false_iff_not] at h7
    omega
  · intro h
    apply Nat.eq_of_testBit_eq
    intro i
    simp only [Nat.testBit_and, Nat.testBit_two_pow, Nat.zero_testBit]
    by_cases hi : 7 = i
    · subst hi
      simp [Nat.testBit_lt_two_pow (show m < 2 ^ 7 by omega)]
    · simp [hi]

/-- The high bit of a byte is clear exactly when the byte is below `0x80`. -/
theorem and_0x80_eq_zero_iff (b : UInt8) : b &&& 0x80 = 0 ↔ b.toNat < 128 := by
  rw [← UInt8.toNat_inj, UInt8.toNat_and]
  exact and_128_eq_zero_iff b.toNat_lt

theorem eq_of_low_high {b c : UInt8} (hlow : b.toNat % 128 = c.toNat % 128)
    (hhigh : b.toNat / 128 = c.toNat / 128) : b = c := by
  apply UInt8.toNat_inj.mp
  omega

/-- The Horner reading of a byte string from its most significant byte down, starting from `a`
above it. -/
theorem foldl_reverse_horner (l : List UInt8) (a : Int) :
    l.reverse.foldl (fun accum item => accum * 256 + (item.toNat : Int)) a =
      (fromLeBytes l : Int) + 256 ^ l.length * a := by
  induction l with
  | nil => simp [fromLeBytes]
  | cons b l ih =>
    rw [List.reverse_cons, List.foldl_append, ih, List.foldl_cons, List.foldl_nil, fromLeBytes,
      List.length_cons]
    push_cast
    ring

/-- Minimal magnitude bytes `init ++ [top]`: the top byte leaves the high bit free, and is zero
only when the byte below it has its high bit set. -/
structure MinimalDigits (init : List UInt8) (top : UInt8) : Prop where
  top_lt : top.toNat < 128
  below_of_top_eq_zero : top.toNat = 0 → ∃ rest c, init = rest ++ [c] ∧ 128 ≤ c.toNat

theorem fromLeBytes_concat (init : List UInt8) (top : UInt8) :
    fromLeBytes (init ++ [top]) = fromLeBytes init + 256 ^ init.length * top.toNat := by
  rw [fromLeBytes_append, fromLeBytes, fromLeBytes, Nat.mul_zero, Nat.add_zero]

theorem MinimalDigits.value_lt {init : List UInt8} {top : UInt8} (h : MinimalDigits init top) :
    fromLeBytes (init ++ [top]) < 128 * 256 ^ init.length := by
  have hinit := fromLeBytes_lt init
  have htop : 256 ^ init.length * top.toNat ≤ 256 ^ init.length * 127 :=
    Nat.mul_le_mul_left _ (by have := h.top_lt; omega)
  rw [fromLeBytes_concat]
  omega

theorem MinimalDigits.le_value {init : List UInt8} {top : UInt8} (h : MinimalDigits init top) :
    128 * 256 ^ init.length ≤ 256 * fromLeBytes (init ++ [top]) := by
  rw [fromLeBytes_concat]
  by_cases htop : top.toNat = 0
  · obtain ⟨rest, c, rfl, hc⟩ := h.below_of_top_eq_zero htop
    have hc' : 256 ^ rest.length * 128 ≤ 256 ^ rest.length * c.toNat := Nat.mul_le_mul_left _ hc
    rw [fromLeBytes_concat, List.length_append, List.length_singleton, Nat.pow_succ]
    omega
  · have htop' : 256 ^ init.length * 1 ≤ 256 ^ init.length * top.toNat :=
      Nat.mul_le_mul_left _ (by omega)
    omega

theorem MinimalDigits.value_pos {init : List UInt8} {top : UInt8} (hmin : MinimalDigits init top) :
    0 < fromLeBytes (init ++ [top]) := by
  have := hmin.le_value
  have : 0 < 256 ^ init.length := Nat.pow_pos (by decide)
  omega

/-- A minimal magnitude below `128 * 256 ^ len` has at most `len` bytes below its top one. -/
theorem MinimalDigits.length_le {init : List UInt8} {top : UInt8} (hmin : MinimalDigits init top)
    (len : Nat) (hlt : fromLeBytes (init ++ [top]) < 128 * 256 ^ len) : init.length ≤ len := by
  have hle := hmin.le_value
  have hpow : 256 ^ init.length < 256 ^ (len + 1) := by
    rw [Nat.pow_succ]
    omega
  exact Nat.lt_succ_iff.mp ((Nat.pow_lt_pow_iff_right (show 1 < 256 by decide)).mp hpow)

theorem MinimalDigits.length_eq {init init' : List UInt8} {top top' : UInt8}
    (h : MinimalDigits init top) (h' : MinimalDigits init' top')
    (hv : fromLeBytes (init ++ [top]) = fromLeBytes (init' ++ [top'])) :
    init.length = init'.length := by
  have hlt := h.value_lt
  have hle := h.le_value
  have hlt' := h'.value_lt
  have hle' := h'.le_value
  -- a longer encoding needs a value at least `256` times the other's bound
  have hshort : ∀ {k k' : Nat}, k < k' → 256 * (128 * 256 ^ k) ≤ 128 * 256 ^ k' := by
    intro k k' hk
    have := Nat.pow_le_pow_right (show 0 < 256 by decide) hk
    rw [Nat.pow_succ] at this
    omega
  rcases Nat.lt_trichotomy init.length init'.length with hk | hk | hk
  · have := hshort hk
    omega
  · exact hk
  · have := hshort hk
    omega

theorem MinimalDigits.eq_of_value_eq {init init' : List UInt8} {top top' : UInt8}
    (h : MinimalDigits init top) (h' : MinimalDigits init' top')
    (hv : fromLeBytes (init ++ [top]) = fromLeBytes (init' ++ [top'])) :
    init = init' ∧ top = top' := by
  have hlen : (init ++ [top]).length = (init' ++ [top']).length := by
    simp only [List.length_append, List.length_singleton, h.length_eq h' hv]
  have hbytes : init ++ [top] = init' ++ [top'] := by
    rw [← toLeBytes_fromLeBytes (init ++ [top]), ← toLeBytes_fromLeBytes (init' ++ [top']), hlen, hv]
  obtain ⟨hinit, htop⟩ := List.append_inj hbytes (h.length_eq h' hv)
  exact ⟨hinit, List.singleton_inj.mp htop⟩

end LittleEndian
