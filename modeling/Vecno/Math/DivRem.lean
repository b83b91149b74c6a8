import Vecno.Math.UintArith

/-!
# `div_rem` divides exactly

The bitwise long division of `math/src/uint.rs` keeps `DivRemInv` at every shift, so it returns
the quotient and the remainder.
-/

namespace Vecno

namespace Uint

variable {n : Nat}

/-- A set bit below the width, on a word whose bit there is clear, adds its power of two. -/
theorem or_two_pow_of_dvd {L v : Nat} (h : 2 ^ (v + 1) ∣ L) : L ||| 2 ^ v = L + 2 ^ v := by
  obtain ⟨A, rfl⟩ := h
  rw [← Nat.two_pow_add_eq_or_of_lt (Nat.pow_lt_pow_right (by decide) (Nat.lt_succ_self v))]

theorem value_set (x : Uint n) {j : Nat} (hj : j < n) (w : UInt64) :
    Limbs.value (x.limbs.set j w) + 2 ^ (64 * j) * (x.limb j).toNat =
      x.value + 2 ^ (64 * j) * w.toNat := by
  have hj' : j < x.limbs.length := by rw [x.length_limbs]; exact hj
  have hset := Limbs.value_append ((x.limbs.set j w).take (j + 1)) ((x.limbs.set j w).drop (j + 1))
  rw [List.take_append_drop, Limbs.take_succ_set hj', Limbs.drop_succ_set, List.length_append,
    List.length_take_of_le (by omega), Limbs.value_append, List.length_take_of_le (by omega)] at hset
  have hx := Limbs.value_append (x.limbs.take (j + 1)) (x.limbs.drop (j + 1))
  rw [List.take_append_drop, List.length_take_of_le (by omega), Limbs.value_take_succ hj',
    ← toNat_limb] at hx
  rw [hset, value, hx, List.length_singleton, Limbs.value_cons, Limbs.value_nil]
  ring

/-- `ret[shift / 64] |= 1 << (shift % 64)` adds `2 ^ shift` to a quotient with no bit at `shift`
or below. -/
theorem setBit_value (x : Uint n) {s : Nat} (hs : s < 64 * n) (hdvd : 2 ^ (s + 1) ∣ x.value) :
    (x.setBit (s / 64) (s % 64)).value = x.value + 2 ^ s := by
  have hj : s / 64 < n := by omega
  have hv : s % 64 < 64 := Nat.mod_lt _ (by decide)
  have hsplit := Nat.div_add_mod s 64
  -- the word at `s / 64` has no bit at `s % 64` or below
  have hword : 2 ^ (s % 64 + 1) ∣ (x.limb (s / 64)).toNat := by
    rw [toNat_limb, Limbs.digit_eq_div_mod]
    apply (Nat.dvd_mod_iff (Nat.pow_dvd_pow 2 (by omega))).mpr
    apply Nat.dvd_div_of_mul_dvd
    rw [← pow_add]
    exact Nat.dvd_trans (Nat.pow_dvd_pow 2 (by omega)) hdvd
  have hbit : ((1 : UInt64) <<< (s % 64).toUInt64).toNat = 2 ^ (s % 64) := by
    rw [UInt64.toNat_shiftLeft, toNat_toUInt64_of_lt hv, UInt64.toNat_one, Nat.one_shiftLeft,
      Nat.mod_eq_of_lt (Nat.pow_lt_pow_right (by decide) hv)]
  have h := value_set x hj (x.limb (s / 64) ||| (1 : UInt64) <<< (s % 64).toUInt64)
  rw [UInt64.toNat_or, hbit, or_two_pow_of_dvd hword, Nat.mul_add, ← pow_add, hsplit] at h
  change Limbs.value (x.limbs.set _ _) = _
  omega

/-- The invariant of the loop of `div_rem` at shift `s`, dividing `N` by `d`. -/
structure DivRemInv (N d s : Nat) (ret subCopy shiftCopy : Uint n) : Prop where
  shiftCopy_eq : shiftCopy.value = d * 2 ^ s
  split : N = ret.value * d + subCopy.value
  subCopy_lt : subCopy.value < d * 2 ^ (s + 1)
  aligned : 2 ^ (s + 1) ∣ ret.value

section Step

variable {N d s : Nat} {ret subCopy shiftCopy : Uint n}

/-- The divisor at shift `s` fits: quotient bit `s` is set and the shifted divisor subtracted. -/
theorem divRemInv_subtract (h : DivRemInv N d s ret subCopy shiftCopy) (hs : s < 64 * n)
    (hge : shiftCopy.value ≤ subCopy.value) :
    N = (ret.setBit (s / 64) (s % 64)).value * d + (subCopy.sub shiftCopy).value ∧
      (subCopy.sub shiftCopy).value < d * 2 ^ s ∧ 2 ^ s ∣ (ret.setBit (s / 64) (s % 64)).value := by
  have hpow : d * 2 ^ (s + 1) = d * 2 ^ s + d * 2 ^ s := by rw [pow_succ]; ring
  have hbound := h.subCopy_lt
  rw [setBit_value ret hs h.aligned, sub_value_of_le hge, h.shiftCopy_eq]
  rw [h.shiftCopy_eq] at hge
  refine ⟨?_, by omega, Nat.dvd_add (Nat.dvd_trans (Nat.pow_dvd_pow 2 (by omega)) h.aligned) dvd_rfl⟩
  rw [h.split, Nat.add_mul, Nat.mul_comm (2 ^ s) d]
  omega

/-- The divisor at shift `s` does not fit: nothing changes, and what is left is below it. -/
theorem divRemInv_keep (h : DivRemInv N d s ret subCopy shiftCopy)
    (hlt : subCopy.value < shiftCopy.value) :
    N = ret.value * d + subCopy.value ∧ subCopy.value < d * 2 ^ s ∧ 2 ^ s ∣ ret.value :=
  ⟨h.split, h.shiftCopy_eq ▸ hlt, Nat.dvd_trans (Nat.pow_dvd_pow 2 (by omega)) h.aligned⟩

theorem divRemInv_step (h : DivRemInv N d s ret subCopy shiftCopy) (hs : s < 64 * n) :
    let st := if subCopy.ge shiftCopy then (ret.setBit (s / 64) (s % 64), subCopy.sub shiftCopy)
      else (ret, subCopy)
    N = st.1.value * d + st.2.value ∧ st.2.value < d * 2 ^ s ∧ 2 ^ s ∣ st.1.value := by
  intro st
  by_cases hge : subCopy.ge shiftCopy = true
  · have hst : st = (ret.setBit (s / 64) (s % 64), subCopy.sub shiftCopy) := if_pos hge
    rw [hst]
    exact divRemInv_subtract h hs ((ge_iff _ _).mp hge)
  · have hst : st = (ret, subCopy) := if_neg hge
    rw [hst]
    exact divRemInv_keep h (Nat.lt_of_not_le fun hle => hge ((ge_iff _ _).mpr hle))

end Step

/-- The loop from shift `s` down to zero ends with the quotient and the remainder. -/
theorem divRemLoop_spec {N d : Nat} :
    ∀ (s : Nat) (ret subCopy shiftCopy : Uint n), s < 64 * n →
      DivRemInv N d s ret subCopy shiftCopy →
      N = (divRemLoop (s + 1) s ret subCopy shiftCopy).1.value * d +
          (divRemLoop (s + 1) s ret subCopy shiftCopy).2.value ∧
        (divRemLoop (s + 1) s ret subCopy shiftCopy).2.value < d := by
  intro s
  induction s with
  | zero =>
    intro ret subCopy shiftCopy hs h
    obtain ⟨hsplit, hlt, -⟩ := divRemInv_step h hs
    rw [Nat.pow_zero, Nat.mul_one] at hlt
    exact ⟨hsplit, hlt⟩
  | succ s ih =>
    intro ret subCopy shiftCopy hs h
    obtain ⟨hsplit, hlt, hdvd⟩ := divRemInv_step h hs
    -- the next pass runs at shift `s` with the divisor halved
    apply ih _ _ _ (by omega)
    refine ⟨?_, hsplit, hlt, hdvd⟩
    rw [shr, (overflowingShr_spec shiftCopy (s := 1) (by omega)).1, h.shiftCopy_eq, pow_succ,
      ← Nat.mul_assoc, pow_one, Nat.mul_div_cancel _ (by decide : 0 < 2)]

theorem divRem_spec (x other : Uint n) (h : other.value ≠ 0) :
    ∃ q r, x.divRem other = .ok (q, r) ∧ x.value = q.value * other.value + r.value ∧
      r.value < other.value := by
  have hd : 0 < other.value := Nat.pos_of_ne_zero h
  have hyour : 0 < other.value.size := Nat.size_pos.mpr hd
  have hmy : x.value.size ≤ 64 * n := Nat.size_le.mpr (value_lt x)
  have hdlow : 2 ^ (other.value.size - 1) ≤ other.value := Nat.lt_size.mp (by omega)
  have hdup : other.value < 2 ^ other.value.size := Nat.lt_size_self _
  have hxup : x.value < 2 ^ x.value.size := Nat.lt_size_self _
  rw [divRem, bits_eq_size, bits_eq_size, if_neg (by omega)]
  split_ifs with hlt
  · -- a divisor with more bits than the dividend: quotient zero
    refine ⟨_, _, rfl, by rw [value_zero, Nat.zero_mul, Nat.zero_add], ?_⟩
    calc x.value < 2 ^ x.value.size := hxup
      _ ≤ 2 ^ (other.value.size - 1) := Nat.pow_le_pow_right (by decide) (by omega)
      _ ≤ other.value := hdlow
  · refine ⟨_, _, rfl, divRemLoop_spec _ _ _ _ (by omega) ⟨?_, ?_, ?_, ?_⟩⟩
    · -- the divisor aligned with the dividend's top bit does not overflow
      have hfit : other.value * 2 ^ (x.value.size - other.value.size) < 2 ^ (64 * n) := by
        calc other.value * 2 ^ (x.value.size - other.value.size)
            < 2 ^ other.value.size * 2 ^ (x.value.size - other.value.size) :=
              Nat.mul_lt_mul_of_pos_right hdup (Nat.two_pow_pos _)
          _ = 2 ^ x.value.size := by rw [← pow_add]; congr 1; omega
          _ ≤ 2 ^ (64 * n) := Nat.pow_le_pow_right (by decide) hmy
      rw [shl, (overflowingShl_spec other (by omega)).1, Nat.mod_eq_of_lt hfit]
    · rw [value_zero, Nat.zero_mul, Nat.zero_add]
    · calc x.value < 2 ^ x.value.size := hxup
        _ = 2 ^ (other.value.size - 1) * 2 ^ (x.value.size - other.value.size + 1) := by
          rw [← pow_add]; congr 1; omega
        _ ≤ other.value * 2 ^ (x.value.size - other.value.size + 1) := Nat.mul_le_mul_right _ hdlow
    · rw [value_zero]
      exact Nat.dvd_zero _

/-- Both divisions of `construct_uint!` are exact: `div_rem` by a non-zero number and `div_rem_u64`
by a non-zero word return the quotient and a remainder below the divisor. -/
theorem divRem_divRemU64_exact :
    (∀ (x d : Uint n), d.value ≠ 0 → ∃ q r, x.divRem d = .ok (q, r) ∧
      x.value = q.value * d.value + r.value ∧ r.value < d.value) ∧
    (∀ (x : Uint n) (m : UInt64), m ≠ 0 → ∃ q r, x.divRemU64 m = .ok (q, r) ∧
      x.value = q.value * m.toNat + r.toNat ∧ r.toNat < m.toNat) :=
  ⟨fun x d h => divRem_spec x d h, fun x _ h => divRemU64_spec x h⟩

/-- `7` divided by `2` in one word, both ways. -/
theorem divRem_divRemU64_exact_seven :
    (∃ q r, (⟨[7], rfl⟩ : Uint 1).divRem ⟨[2], rfl⟩ = .ok (q, r) ∧
      (⟨[7], rfl⟩ : Uint 1).value = q.value * (⟨[2], rfl⟩ : Uint 1).value + r.value ∧
      r.value < (⟨[2], rfl⟩ : Uint 1).value) ∧
    (∃ q r, (⟨[7], rfl⟩ : Uint 1).divRemU64 2 = .ok (q, r) ∧
      (⟨[7], rfl⟩ : Uint 1).value = q.value * (2 : UInt64).toNat + r.toNat ∧ r.toNat < (2 : UInt64).toNat) :=
  ⟨divRem_divRemU64_exact.1 _ _ (by decide), divRem_divRemU64_exact.2 _ _ (by decide)⟩

end Uint

end Vecno
