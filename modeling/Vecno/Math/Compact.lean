import Vecno.Math.DivRem
import Vecno.Consensus.Difficulty

/-!
# The compact target encoding

`from_compact_target_bits`, `compact_target_bits` and `calc_work` on the words of `Uint 4`, tied
to the number-level definitions by `fromCompactTargetBits_value` and `calcWork_value`.
-/

namespace Vecno

namespace Uint

def fromCompactTargetBits (bits : UInt32) : Uint 4 :=
  let unshiftedExpt := bits >>> 24
  let (mant, expt) : UInt32 × UInt32 :=
    if unshiftedExpt ≤ 3 then ((bits &&& 0xFFFFFF) >>> ((8 : UInt32) * (3 - unshiftedExpt)), 0)
    else (bits &&& 0xFFFFFF, (8 : UInt32) * ((bits >>> 24) - 3))
  -- the mantissa is signed and may not be negative
  if mant > 0x7FFFFF then zero
  else (fromU64 mant.toUInt64).shl expt.toNat

def compactTargetBits (t : Uint 4) : UInt32 :=
  let size := (t.bits + 7) / 8
  let compact : UInt32 :=
    if size ≤ 3 then (t.asU64 <<< (8 * (3 - size)).toUInt64).toUInt32
    else (t.shr (8 * (size - 3))).asU64.toUInt32
  let (compact, size) :=
    if compact &&& 0x00800000 ≠ 0 then (compact >>> 8, size + 1) else (compact, size)
  compact ||| size.toUInt32 <<< 24

/-! ## The encoding on values -/

/-- The byte length of a number. -/
def compactSize (v : Nat) : Nat := (v.size + 7) / 8

/-- The top three bytes of a number, aligned as the encoder aligns them. -/
def compactMantissa (v : Nat) : Nat :=
  if compactSize v ≤ 3 then v * 2 ^ (8 * (3 - compactSize v)) else v / 2 ^ (8 * (compactSize v - 3))

/-- The mantissa and the size that `compact_target_bits` packs, after the sign bit is cleared. -/
def compactParts (v : Nat) : Nat × Nat :=
  if 2 ^ 23 ≤ compactMantissa v then (compactMantissa v / 2 ^ 8, compactSize v + 1)
  else (compactMantissa v, compactSize v)

theorem lt_two_pow_compactSize (v : Nat) : v < 2 ^ (8 * compactSize v) :=
  Nat.lt_of_lt_of_le (Nat.lt_size_self v) (Nat.pow_le_pow_right (by decide) (by
    unfold compactSize
    omega))

theorem two_pow_le_of_compactSize {v : Nat} (h : 0 < compactSize v) :
    2 ^ (8 * (compactSize v - 1)) ≤ v := by
  have hsize : 0 < v.size := by
    unfold compactSize at h
    omega
  calc 2 ^ (8 * (compactSize v - 1)) ≤ 2 ^ (v.size - 1) :=
        Nat.pow_le_pow_right (by decide) (by unfold compactSize; omega)
    _ ≤ v := Nat.lt_size.mp (by omega)

/-- Both branches of the alignment at once: one of the two exponents is zero. -/
theorem compactMantissa_eq (v : Nat) :
    compactMantissa v = v * 2 ^ (8 * (3 - compactSize v)) / 2 ^ (8 * (compactSize v - 3)) := by
  unfold compactMantissa
  split_ifs with h
  · rw [Nat.sub_eq_zero_of_le h, Nat.mul_zero, Nat.pow_zero, Nat.div_one]
  · rw [Nat.sub_eq_zero_of_le (by omega : 3 ≤ compactSize v), Nat.mul_zero, Nat.pow_zero, Nat.mul_one]

theorem compactMantissa_lt (v : Nat) : compactMantissa v < 2 ^ 24 := by
  have hv := lt_two_pow_compactSize v
  unfold compactMantissa
  split_ifs with h
  · calc v * 2 ^ (8 * (3 - compactSize v)) < 2 ^ (8 * compactSize v) * 2 ^ (8 * (3 - compactSize v)) :=
          Nat.mul_lt_mul_of_pos_right hv (Nat.two_pow_pos _)
      _ = 2 ^ 24 := by rw [← pow_add]; congr 1; omega
  · rw [Nat.div_lt_iff_lt_mul (Nat.two_pow_pos _), ← pow_add]
    exact Nat.lt_of_lt_of_le hv (Nat.pow_le_pow_right (by decide) (by omega))

theorem div_compactSize_eq (v : Nat) :
    v / 2 ^ (8 * (compactSize v - 1)) = compactMantissa v / 2 ^ 16 := by
  unfold compactMantissa
  split_ifs with h
  · rcases Nat.eq_zero_or_pos (compactSize v) with h0 | hpos
    · have hv := lt_two_pow_compactSize v
      rw [h0, Nat.mul_zero, Nat.pow_zero] at hv
      have hv0 : v = 0 := by omega
      rw [hv0, Nat.zero_div, Nat.zero_mul, Nat.zero_div]
    · -- `2 ^ 16` is the top byte's weight in the mantissa, times the alignment
      have hpow : (2 : Nat) ^ 16 = 2 ^ (8 * (compactSize v - 1)) * 2 ^ (8 * (3 - compactSize v)) := by
        rw [← pow_add]
        congr 1
        omega
      rw [hpow, Nat.mul_div_mul_right _ _ (Nat.two_pow_pos _)]
  · rw [Nat.div_div_eq_div_mul, ← pow_add]
    congr 2
    omega

theorem compactMantissa_ge {v : Nat} (h : 0 < compactSize v) : 2 ^ 16 ≤ compactMantissa v := by
  have hlow := two_pow_le_of_compactSize h
  -- the top byte is not zero
  have htop : 1 ≤ v / 2 ^ (8 * (compactSize v - 1)) :=
    (Nat.le_div_iff_mul_le (Nat.two_pow_pos _)).mpr (by rwa [Nat.one_mul])
  rw [div_compactSize_eq, Nat.le_div_iff_mul_le (Nat.two_pow_pos _), Nat.one_mul] at htop
  exact htop

theorem compactParts_fst_lt (v : Nat) : (compactParts v).1 < 2 ^ 23 := by
  have h := compactMantissa_lt v
  unfold compactParts
  split_ifs with hs
  · exact (Nat.div_lt_iff_lt_mul (Nat.two_pow_pos _)).mpr (Nat.lt_of_lt_of_le h (by norm_num))
  · exact Nat.lt_of_not_le hs

theorem compactParts_snd_le {v : Nat} (hv : v < 2 ^ 256) : (compactParts v).2 ≤ 33 := by
  have hsize : v.size ≤ 256 := Nat.size_le.mpr hv
  unfold compactParts compactSize
  split_ifs <;> dsimp only <;> omega

/-! ## The words -/

variable {n : Nat}

theorem value_fromU64 (v : UInt64) (hn : 0 < n) : (fromU64 v : Uint n).value = v.toNat := by
  have h := @Limbs.value_eq_mod_of_digit (fromU64 v : Uint n).limbs v.toNat (by
    intro i hi
    rw [(fromU64 v : Uint n).length_limbs] at hi
    rw [← toNat_limb, fromU64, limb_ofFn _ hi]
    split_ifs with h0
    · rw [h0, Nat.mul_zero, Nat.pow_zero, Nat.div_one, Nat.mod_eq_of_lt v.toNat_lt]
    · rw [UInt64.toNat_zero, Nat.div_eq_of_lt (Nat.lt_of_lt_of_le v.toNat_lt
        (Nat.pow_le_pow_right (by decide) (by omega))), Nat.zero_mod])
  rw [(fromU64 v : Uint n).length_limbs, Nat.mod_eq_of_lt (Nat.lt_of_lt_of_le v.toNat_lt
    (Nat.pow_le_pow_right (by decide) (by omega)))] at h
  exact h

theorem toNat_asU64 (x : Uint n) : x.asU64.toNat = x.value % 2 ^ 64 := by
  rw [asU64, toNat_limb, Limbs.digit_eq_div_mod, Nat.mul_zero, Nat.pow_zero, Nat.div_one]
  rfl

theorem toNat_shiftRight_24 (bits : UInt32) : (bits >>> 24).toNat = bits.toNat / 2 ^ 24 := by
  rw [UInt32.toNat_shiftRight, Nat.shiftRight_eq_div_pow]
  rfl

theorem toNat_and_mask (bits : UInt32) : (bits &&& 0xFFFFFF).toNat = bits.toNat % 2 ^ 24 := by
  rw [UInt32.toNat_and, show (0xFFFFFF : UInt32).toNat = 2 ^ 24 - 1 from rfl,
    Nat.and_two_pow_sub_one_eq_mod]

theorem fromCompactTargetBits_value (bits : UInt32) :
    (fromCompactTargetBits bits).value = Vecno.fromCompactTargetBits bits := by
  have hb := bits.toNat_lt
  have hu := toNat_shiftRight_24 bits
  have hm := toNat_and_mask bits
  unfold fromCompactTargetBits Vecno.fromCompactTargetBits
  dsimp only
  by_cases hle : bits >>> 24 ≤ 3
  · have hle' : bits.toNat / 2 ^ 24 ≤ 3 := by
      rw [← hu]
      exact UInt32.le_iff_toNat_le.mp hle
    have hsh : ((bits &&& 0xFFFFFF) >>> ((8 : UInt32) * ((3 : UInt32) - bits >>> 24))).toNat =
        bits.toNat % 2 ^ 24 / 2 ^ (8 * (3 - bits.toNat / 2 ^ 24)) := by
      rw [UInt32.toNat_shiftRight, hm, UInt32.toNat_mul, UInt32.toNat_sub_of_le _ _ hle, hu,
        Nat.shiftRight_eq_div_pow]
      congr 2
      change 8 * (3 - bits.toNat / 2 ^ 24) % 2 ^ 32 % 32 = _
      omega
    rw [if_pos hle, if_pos hle']
    split_ifs with h1 h2 h2
    · exact value_zero
    · exact absurd (UInt32.lt_iff_toNat_lt.mp h1) (by rw [hsh]; exact h2)
    · exact absurd (UInt32.lt_iff_toNat_lt.mpr (by rw [hsh]; exact h2)) h1
    · rw [shl_value _ (by decide), value_fromU64 _ (by decide), UInt32.toNat_toUInt64, hsh]
      rfl
  · have hgt : ¬ bits.toNat / 2 ^ 24 ≤ 3 := by
      rw [← hu]
      exact fun h => hle (UInt32.le_iff_toNat_le.mpr h)
    have hexp : ((8 : UInt32) * (bits >>> 24 - (3 : UInt32))).toNat = 8 * (bits.toNat / 2 ^ 24 - 3) := by
      rw [UInt32.toNat_mul, UInt32.toNat_sub_of_le _ _ (Nat.le_of_lt (UInt32.lt_iff_toNat_lt.mpr
        (by rw [hu]; change 3 < _; omega))), hu]
      change 8 * (bits.toNat / 2 ^ 24 - 3) % 2 ^ 32 = _
      omega
    rw [if_neg hle, if_neg hgt]
    split_ifs with h1 h2 h2
    · exact value_zero
    · exact absurd (UInt32.lt_iff_toNat_lt.mp h1) (by rw [hm]; exact h2)
    · exact absurd (UInt32.lt_iff_toNat_lt.mpr (by rw [hm]; exact h2)) h1
    · rw [shl_value _ (by decide), value_fromU64 _ (by decide), UInt32.toNat_toUInt64, hm, hexp]

theorem and_two_pow_ne_zero_iff {c i : Nat} (h : c < 2 ^ (i + 1)) : c &&& 2 ^ i ≠ 0 ↔ 2 ^ i ≤ c := by
  constructor
  · intro hne
    by_contra hlt
    apply hne
    apply Nat.eq_of_testBit_eq
    intro j
    rw [Nat.testBit_and, Nat.testBit_two_pow, Nat.zero_testBit]
    by_cases hij : i = j
    · rw [← hij, Nat.testBit_lt_two_pow (Nat.lt_of_not_le hlt), Bool.false_and]
    · rw [decide_eq_false hij, Bool.and_false]
  · intro hle heq
    have hbit : (c &&& 2 ^ i).testBit i = true := by
      rw [Nat.testBit_and, Nat.testBit_two_pow_self,
        Nat.testBit_of_two_pow_le_and_two_pow_add_one_gt hle h, Bool.true_and]
    rw [heq, Nat.zero_testBit] at hbit
    exact Bool.false_ne_true hbit

theorem toNat_or_shiftLeft_24 {c : UInt32} {s : Nat} (hc : c.toNat < 2 ^ 24) (hs : s < 2 ^ 8) :
    (c ||| s.toUInt32 <<< 24).toNat = c.toNat + 2 ^ 24 * s := by
  have hss : s.toUInt32.toNat = s := by
    rw [Nat.toUInt32_eq, UInt32.toNat_ofNat', Nat.mod_eq_of_lt (by omega)]
  have hsh : (s.toUInt32 <<< 24).toNat = 2 ^ 24 * s := by
    rw [UInt32.toNat_shiftLeft, hss, Nat.shiftLeft_eq, Nat.mul_comm]
    exact Nat.mod_eq_of_lt (by change (2 : Nat) ^ 24 * s < 2 ^ 32; omega)
  rw [UInt32.toNat_or, hsh, Nat.or_comm, ← Nat.two_pow_add_eq_or_of_lt hc, Nat.add_comm]

theorem compactSize_le {v : Nat} (hv : v < 2 ^ 256) : compactSize v ≤ 32 := by
  have hsize : v.size ≤ 256 := Nat.size_le.mpr hv
  unfold compactSize
  omega

/-- The mantissa as `compact_target_bits` first computes it, from either branch. -/
theorem compactWord_toNat (t : Uint 4) :
    (if (t.bits + 7) / 8 ≤ 3 then (t.asU64 <<< (8 * (3 - (t.bits + 7) / 8)).toUInt64).toUInt32
      else (t.shr (8 * ((t.bits + 7) / 8 - 3))).asU64.toUInt32).toNat = compactMantissa t.value := by
  have hsize : (t.bits + 7) / 8 = compactSize t.value := by rw [bits_eq_size]; rfl
  have hlt := compactMantissa_lt t.value
  have hs32 := compactSize_le (value_lt t)
  rw [hsize]
  unfold compactMantissa at hlt ⊢
  by_cases h : compactSize t.value ≤ 3
  · rw [if_pos h] at hlt
    rw [if_pos h, if_pos h]
    -- a target of at most three bytes sits in the low word
    have hv : t.value < 2 ^ 64 := Nat.lt_of_lt_of_le (lt_two_pow_compactSize t.value)
      (Nat.pow_le_pow_right (by decide) (by omega))
    rw [UInt64.toNat_toUInt32, UInt64.toNat_shiftLeft, toNat_toUInt64_of_lt (by omega), toNat_asU64,
      Nat.mod_eq_of_lt hv, Nat.shiftLeft_eq, Nat.mod_eq_of_lt (by omega), Nat.mod_eq_of_lt (by omega)]
  · rw [if_neg h] at hlt
    rw [if_neg h, if_neg h]
    rw [UInt64.toNat_toUInt32, toNat_asU64, shr, (overflowingShr_spec t (by omega)).1,
      Nat.mod_eq_of_lt (Nat.lt_trans hlt (by norm_num) : _ < 2 ^ 64),
      Nat.mod_eq_of_lt (Nat.lt_trans hlt (by norm_num) : _ < 2 ^ 32)]

theorem compactTargetBits_toNat (t : Uint 4) :
    (compactTargetBits t).toNat = (compactParts t.value).1 + 2 ^ 24 * (compactParts t.value).2 := by
  have hsize : (t.bits + 7) / 8 = compactSize t.value := by rw [bits_eq_size]; rfl
  have hword := compactWord_toNat t
  have hlt := compactMantissa_lt t.value
  have hs32 := compactSize_le (value_lt t)
  unfold compactTargetBits
  dsimp only
  generalize (if (t.bits + 7) / 8 ≤ 3 then (t.asU64 <<< (8 * (3 - (t.bits + 7) / 8)).toUInt64).toUInt32
      else (t.shr (8 * ((t.bits + 7) / 8 - 3))).asU64.toUInt32) = w at hword ⊢
  -- the sign bit of the mantissa
  have hflag : w &&& 0x00800000 ≠ 0 ↔ 2 ^ 23 ≤ compactMantissa t.value := by
    rw [ne_eq, ← UInt32.toNat_inj, UInt32.toNat_and, hword,
      show (0x00800000 : UInt32).toNat = 2 ^ 23 from rfl, ← ne_eq]
    exact and_two_pow_ne_zero_iff (i := 23) (hlt.trans_eq (by norm_num))
  rw [hsize]
  unfold compactParts
  split_ifs with h1 h2 h2
  · have hshift : (w >>> 8).toNat = compactMantissa t.value / 2 ^ 8 := by
      rw [UInt32.toNat_shiftRight, hword, show (8 : UInt32).toNat % 32 = 8 from rfl,
        Nat.shiftRight_eq_div_pow]
    have hlow : compactMantissa t.value / 2 ^ 8 < 2 ^ 24 :=
      (Nat.div_lt_iff_lt_mul (by decide)).mpr (Nat.lt_of_lt_of_le hlt (by norm_num))
    dsimp only
    rw [toNat_or_shiftLeft_24 (by rw [hshift]; exact hlow) (by omega), hshift]
  · exact absurd (hflag.mp h1) h2
  · exact absurd (hflag.mpr h2) h1
  · dsimp only
    rw [toNat_or_shiftLeft_24 (by omega) (by omega), hword]

/-- The value-level decoder on a packed mantissa below the sign bit and a size. -/
theorem fromCompactTargetBits_of_toNat {bits : UInt32} {c s : Nat} (hc : c < 2 ^ 23) (hs : s ≤ 33)
    (h : bits.toNat = c + 2 ^ 24 * s) :
    Vecno.fromCompactTargetBits bits =
      (if s ≤ 3 then c / 2 ^ (8 * (3 - s)) else c * 2 ^ (8 * (s - 3))) % 2 ^ 256 := by
  have hexp : bits.toNat / 2 ^ 24 = s := by
    rw [h, Nat.add_mul_div_left _ _ (Nat.two_pow_pos 24), Nat.div_eq_of_lt (by omega), Nat.zero_add]
  have hmant : bits.toNat % 2 ^ 24 = c := by
    rw [h, Nat.add_mul_mod_self_left, Nat.mod_eq_of_lt (by omega)]
  unfold Vecno.fromCompactTargetBits
  dsimp only
  rw [hexp, hmant]
  by_cases h3 : s ≤ 3
  · rw [if_pos h3, if_pos h3, if_pos h3,
      if_neg (Nat.not_lt.mpr (Nat.le_trans (Nat.div_le_self _ _) (by omega))), Nat.zero_mod,
      Nat.pow_zero, Nat.mul_one]
  · rw [if_neg h3, if_neg h3, if_neg h3, if_neg (by omega), Nat.mod_eq_of_lt (by omega : 8 * (s - 3) < 256)]

/-- The target with the bits below its top three bytes cleared, or below its top two bytes when its
top byte is from `0x80`. -/
def compactRound (v : Nat) : Nat :=
  let k := if 0x80 ≤ v / 2 ^ (8 * (compactSize v - 1)) then compactSize v - 2 else compactSize v - 3
  v / 2 ^ (8 * k) * 2 ^ (8 * k)

theorem sign_iff_top_byte (v : Nat) :
    2 ^ 23 ≤ compactMantissa v ↔ 0x80 ≤ v / 2 ^ (8 * (compactSize v - 1)) := by
  rw [div_compactSize_eq, Nat.le_div_iff_mul_le (Nat.two_pow_pos _)]
  norm_num

theorem decode_compactParts (v : Nat) :
    (if (compactParts v).2 ≤ 3 then (compactParts v).1 / 2 ^ (8 * (3 - (compactParts v).2))
      else (compactParts v).1 * 2 ^ (8 * ((compactParts v).2 - 3))) = compactRound v := by
  have hcm := compactMantissa_eq v
  unfold compactRound compactParts
  dsimp only
  by_cases hsign : 2 ^ 23 ≤ compactMantissa v
  · rw [if_pos hsign, if_pos ((sign_iff_top_byte v).mp hsign)]
    dsimp only
    by_cases h2 : compactSize v + 1 ≤ 3
    · -- at most two bytes: the low byte dropped by the sign is a zero of the alignment
      rw [if_pos h2, Nat.sub_eq_zero_of_le (by omega : compactSize v ≤ 2), Nat.mul_zero, Nat.pow_zero,
        Nat.div_one, Nat.mul_one, Nat.div_div_eq_div_mul, ← pow_add, hcm,
        Nat.sub_eq_zero_of_le (by omega : compactSize v ≤ 3), Nat.mul_zero, Nat.pow_zero, Nat.div_one,
        show 8 + 8 * (3 - (compactSize v + 1)) = 8 * (3 - compactSize v) by omega,
        Nat.mul_div_cancel _ (Nat.two_pow_pos _)]
    · -- three bytes or more: the sign drops the third byte
      rw [if_neg h2, hcm, Nat.sub_eq_zero_of_le (by omega : 3 ≤ compactSize v), Nat.mul_zero,
        Nat.pow_zero, Nat.mul_one, Nat.div_div_eq_div_mul, ← pow_add,
        show 8 * (compactSize v - 3) + 8 = 8 * (compactSize v - 2) by omega,
        show compactSize v + 1 - 3 = compactSize v - 2 by omega]
  · rw [if_neg hsign, if_neg (mt (sign_iff_top_byte v).mpr hsign)]
    dsimp only
    by_cases h3 : compactSize v ≤ 3
    · -- at most three bytes: nothing is cut
      rw [if_pos h3, hcm, Nat.sub_eq_zero_of_le h3, Nat.mul_zero, Nat.pow_zero, Nat.div_one,
        Nat.mul_div_cancel _ (Nat.two_pow_pos _), Nat.div_one, Nat.mul_one]
    · rw [if_neg h3, hcm, Nat.sub_eq_zero_of_le (by omega : 3 ≤ compactSize v), Nat.mul_zero,
        Nat.pow_zero, Nat.mul_one]

theorem compactSize_mul_pow {c : Nat} (hc : 0 < c) (j : Nat) :
    compactSize (c * 2 ^ (8 * j)) = compactSize c + j := by
  unfold compactSize
  rw [← Nat.shiftLeft_eq, Nat.size_shiftLeft (Nat.pos_iff_ne_zero.mp hc)]
  omega

theorem compactSize_eq_of_bounds {c k : Nat} (hlow : 2 ^ (8 * k) ≤ c) (hhigh : c < 2 ^ (8 * (k + 1))) :
    compactSize c = k + 1 := by
  have h1 := Nat.size_le.mpr hhigh
  have h2 := Nat.lt_size.mpr hlow
  unfold compactSize
  omega

/-- The rounded target is encoded as the target itself: the encoder reads nothing of what the
rounding clears. -/
theorem compactParts_compactRound (v : Nat) : compactParts (compactRound v) = compactParts v := by
  have hcm := compactMantissa_eq v
  have hlt := compactMantissa_lt v
  unfold compactRound
  dsimp only
  by_cases hsign : 2 ^ 23 ≤ compactMantissa v
  · rw [if_pos ((sign_iff_top_byte v).mp hsign)]
    by_cases h2 : compactSize v ≤ 2
    · rw [Nat.sub_eq_zero_of_le h2, Nat.mul_zero, Nat.pow_zero, Nat.div_one, Nat.mul_one]
    · -- the top two bytes, `cm / 2 ^ 8`, aligned at `size - 2`
      have hc : v / 2 ^ (8 * (compactSize v - 2)) = compactMantissa v / 2 ^ 8 := by
        rw [hcm, Nat.sub_eq_zero_of_le (by omega : 3 ≤ compactSize v), Nat.mul_zero, Nat.pow_zero,
          Nat.mul_one, Nat.div_div_eq_div_mul, ← pow_add]
        congr 2
        omega
      have hclow : 2 ^ 15 ≤ compactMantissa v / 2 ^ 8 :=
        (Nat.le_div_iff_mul_le (Nat.two_pow_pos _)).mpr (le_of_eq_of_le (by norm_num) hsign)
      have hchigh : compactMantissa v / 2 ^ 8 < 2 ^ 16 :=
        (Nat.div_lt_iff_lt_mul (Nat.two_pow_pos _)).mpr (hlt.trans_eq (by norm_num))
      have hsize : compactSize (compactMantissa v / 2 ^ 8 * 2 ^ (8 * (compactSize v - 2))) =
          compactSize v := by
        rw [compactSize_mul_pow (by omega), compactSize_eq_of_bounds (k := 1)
          (le_trans (by norm_num) hclow) (hchigh.trans_eq (by norm_num))]
        omega
      have hmant : compactMantissa (compactMantissa v / 2 ^ 8 * 2 ^ (8 * (compactSize v - 2))) =
          compactMantissa v / 2 ^ 8 * 2 ^ 8 := by
        rw [compactMantissa_eq, hsize, Nat.sub_eq_zero_of_le (by omega : 3 ≤ compactSize v),
          Nat.mul_zero, Nat.pow_zero, Nat.mul_one,
          show 8 * (compactSize v - 2) = 8 + 8 * (compactSize v - 3) by omega, pow_add,
          ← Nat.mul_assoc, Nat.mul_div_cancel _ (Nat.two_pow_pos _)]
      rw [hc]
      unfold compactParts
      rw [hmant, hsize, if_pos (le_of_eq_of_le (by norm_num) (Nat.mul_le_mul_right _ hclow)),
        if_pos hsign, Nat.mul_div_cancel _ (Nat.two_pow_pos _)]
  · rw [if_neg (mt (sign_iff_top_byte v).mpr hsign)]
    by_cases h3 : compactSize v ≤ 3
    · rw [Nat.sub_eq_zero_of_le h3, Nat.mul_zero, Nat.pow_zero, Nat.div_one, Nat.mul_one]
    · -- the top three bytes, `cm`, aligned at `size - 3`
      have hc : v / 2 ^ (8 * (compactSize v - 3)) = compactMantissa v := by
        rw [hcm, Nat.sub_eq_zero_of_le (by omega : 3 ≤ compactSize v), Nat.mul_zero, Nat.pow_zero,
          Nat.mul_one]
      have hclow := compactMantissa_ge (v := v) (by omega)
      have hsize : compactSize (compactMantissa v * 2 ^ (8 * (compactSize v - 3))) = compactSize v := by
        rw [compactSize_mul_pow (by omega), compactSize_eq_of_bounds (k := 2)
          (le_of_eq_of_le (by norm_num) hclow) (hlt.trans_eq (by norm_num))]
        omega
      have hmant : compactMantissa (compactMantissa v * 2 ^ (8 * (compactSize v - 3))) =
          compactMantissa v := by
        rw [compactMantissa_eq, hsize, Nat.sub_eq_zero_of_le (by omega : 3 ≤ compactSize v),
          Nat.mul_zero, Nat.pow_zero, Nat.mul_one, Nat.mul_div_cancel _ (Nat.two_pow_pos _)]
      rw [hc]
      unfold compactParts
      rw [hmant, hsize]

/-! ## The round trip -/

theorem compactRound_le (v : Nat) : compactRound v ≤ v := Nat.div_mul_le_self _ _

/-- `compact_target_bits` never sets the sign bit of the mantissa, decodes to the target with
the bits below its top three bytes cleared (below its top two bytes when its top byte is from
`0x80`), and encodes that again as itself. -/
theorem compactTargetBits_round_trip (t : Uint 4) :
    compactTargetBits t &&& 0x00800000 = 0 ∧
      (fromCompactTargetBits (compactTargetBits t)).value = compactRound t.value ∧
      compactTargetBits (fromCompactTargetBits (compactTargetBits t)) = compactTargetBits t := by
  have hc := compactParts_fst_lt t.value
  have hdecode : (fromCompactTargetBits (compactTargetBits t)).value = compactRound t.value := by
    rw [fromCompactTargetBits_value, fromCompactTargetBits_of_toNat hc
      (compactParts_snd_le (value_lt t)) (compactTargetBits_toNat t), decode_compactParts,
      Nat.mod_eq_of_lt (Nat.lt_of_le_of_lt (compactRound_le _) (value_lt t))]
  refine ⟨?_, hdecode, ?_⟩
  · -- bit 23 of the packed word is bit 23 of the mantissa
    apply UInt32.toNat_inj.mp
    rw [UInt32.toNat_and, compactTargetBits_toNat, show (0x00800000 : UInt32).toNat = 2 ^ 23 from rfl]
    apply Nat.eq_of_testBit_eq
    intro j
    rw [Nat.testBit_and, Nat.testBit_two_pow, UInt32.toNat_zero, Nat.zero_testBit]
    by_cases hj : 23 = j
    · rw [← hj, Nat.add_comm, Nat.testBit_two_pow_mul_add _ (hc.trans (by norm_num)), if_pos (by decide),
        Nat.testBit_lt_two_pow hc, Bool.false_and]
    · rw [decide_eq_false hj, Bool.and_false]
  · apply UInt32.toNat_inj.mp
    rw [compactTargetBits_toNat, compactTargetBits_toNat, hdecode, compactParts_compactRound]

/-! ## The work of a target -/

/-- `TryFrom<Uint256> for Uint192`: the top word must be zero. -/
def tryIntoUint192 (x : Uint 4) : Except String (Uint 3) :=
  if x.limb 3 ≠ 0 then .error "TryFromIntError"
  else .ok ⟨x.limbs.take 3, by simp [x.length_limbs]⟩

/-- `calc_work` on the words of `Uint256`: `!target / (target + 1) + 1`, and the `expect` into
`Uint192`. -/
def calcWork (bits : UInt32) : Except String (Uint 3) := do
  let target := fromCompactTargetBits bits
  let (quotient, _) ← target.not.divRem (target.addU64 1)
  match tryIntoUint192 (quotient.addU64 1) with
  | .ok work => pure work
  | .error e => throw ("Work should not exceed 2**192: " ++ e)

theorem value_eq_take_three (x : Uint 4) :
    x.value = Limbs.value (x.limbs.take 3) + 2 ^ 192 * (x.limb 3).toNat := by
  have h : Limbs.value (x.limbs.take 4) = Limbs.value (x.limbs.take 3) + 2 ^ (64 * 3) * Limbs.digit x.limbs 3 :=
    Limbs.value_take_succ (by rw [x.length_limbs]; decide)
  rw [List.take_of_length_le (by rw [x.length_limbs])] at h
  exact h

theorem tryIntoUint192_of_lt {x : Uint 4} (h : x.value < 2 ^ 192) :
    ∃ w, tryIntoUint192 x = .ok w ∧ w.value = x.value := by
  have hv := value_eq_take_three x
  -- a nonzero top word alone weighs `2 ^ 192`
  have htop : x.limb 3 = 0 := by
    apply UInt64.toNat_inj.mp
    rw [UInt64.toNat_zero]
    by_contra hne
    have : 2 ^ 192 ≤ 2 ^ 192 * (x.limb 3).toNat := Nat.le_mul_of_pos_right _ (Nat.pos_of_ne_zero hne)
    omega
  refine ⟨_, if_neg (not_not.mpr htop), ?_⟩
  rw [hv, htop, UInt64.toNat_zero, Nat.mul_zero, Nat.add_zero]
  rfl

theorem tryIntoUint192_of_le {x : Uint 4} (h : 2 ^ 192 ≤ x.value) :
    tryIntoUint192 x = .error "TryFromIntError" := by
  have hv := value_eq_take_three x
  have hlow := Limbs.value_lt (x.limbs.take 3)
  rw [List.length_take, x.length_limbs] at hlow
  -- the low three words stay below `2 ^ 192`, so the top word is not zero
  have htop : x.limb 3 ≠ 0 := by
    intro h0
    rw [h0, UInt64.toNat_zero, Nat.mul_zero, Nat.add_zero] at hv
    have : Limbs.value (x.limbs.take 3) < 2 ^ 192 := hlow
    omega
  exact if_pos htop

/-- The word-level `calc_work` computes the value-level one: the complement of the target is
`2 ^ 256 - 1 - target`, the divisor `target + 1` does not wrap, and `div_rem` divides exactly. -/
theorem calcWork_value (bits : UInt32) : Uint.value <$> calcWork bits = Vecno.calcWork bits := by
  have htarget := fromCompactTargetBits_value bits
  have hlt := fromCompactTargetBits_add_one_lt bits
  rw [calcWork]
  unfold Vecno.calcWork
  dsimp only
  generalize fromCompactTargetBits bits = T at htarget ⊢
  generalize Vecno.fromCompactTargetBits bits = t at htarget hlt ⊢
  have hsucc : (T.addU64 1).value = t + 1 := by
    rw [value_addU64, htarget]
    exact Nat.mod_eq_of_lt hlt
  have hnot : T.not.value = 2 ^ 256 - 1 - t := by
    rw [value_not, htarget]
  obtain ⟨q, r, hqr, heq, hr⟩ := divRem_spec T.not (T.addU64 1) (by rw [hsucc]; omega)
  rw [hnot, hsucc] at heq
  rw [hsucc] at hr
  -- the quotient `div_rem` returns is the one of the division on values
  have hq : q.value = (2 ^ 256 - 1 - t) / (t + 1) :=
    (Nat.div_eq_of_lt_le (by rw [heq]; exact Nat.le_add_right _ _)
      (by rw [heq, Nat.succ_mul]; omega)).symm
  have hres : (q.addU64 1).value = ((2 ^ 256 - 1 - t) / (t + 1) + 1) % 2 ^ 256 := by
    rw [value_addU64, hq]
    rfl
  rw [hqr, Except.ok_bind, Nat.mod_eq_of_lt hlt, ← hres]
  by_cases hfit : (q.addU64 1).value < 2 ^ 192
  · obtain ⟨w, hw, hwv⟩ := tryIntoUint192_of_lt hfit
    rw [hw, if_pos hfit, ← hwv]
    rfl
  · rw [tryIntoUint192_of_le (Nat.le_of_not_lt hfit), if_neg hfit]
    rfl

end Uint

end Vecno
