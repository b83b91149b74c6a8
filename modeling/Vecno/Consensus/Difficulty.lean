import Vecno.Lib.Checked

/-!
# The work a block's difficulty bits represent

`from_compact_target_bits` and `calc_work` on numbers, with the release build's wrapping `Uint256`
operations; `Uint.calcWork_value` (`Math/Compact`) ties them to the words.
-/

namespace Vecno

/-- `Uint256::from_compact_target_bits`: a 23-bit mantissa and a byte exponent. -/
def fromCompactTargetBits (bits : UInt32) : Nat :=
  let unshiftedExpt := bits.toNat / 2 ^ 24
  let mant :=
    if unshiftedExpt ≤ 3 then bits.toNat % 2 ^ 24 / 2 ^ (8 * (3 - unshiftedExpt))
    else bits.toNat % 2 ^ 24
  let expt := if unshiftedExpt ≤ 3 then 0 else 8 * (unshiftedExpt - 3)
  -- the mantissa is signed and may not be negative
  if mant > 0x7FFFFF then 0
  else mant * 2 ^ (expt % 256) % 2 ^ 256

/-- `calc_work`: `2 ^ 256 / (target + 1)`, computed as `!target / (target + 1) + 1`. The
divisor is never zero, since a target is never `2 ^ 256 - 1`. -/
def calcWork (bits : UInt32) : Except String Nat :=
  let target := fromCompactTargetBits bits
  let res := ((2 ^ 256 - 1 - target) / ((target + 1) % 2 ^ 256) + 1) % 2 ^ 256
  if res < 2 ^ 192 then .ok res
  else .error "Work should not exceed 2**192: TryFromIntError"

def maxWorkLevel : Nat := 128

/-- `level_work`: the work of a block at `level` when blocks go up to `max_block_level`. The
exponent is `u32` arithmetic, checked in the release build, and the shift is that of `Uint192`. -/
def levelWork (level maxBlockLevel : UInt8) : Except String Nat :=
  if level = 0 then pure 0
  else do
    let exp ← Checked.add 32 level.toNat 256
    let exp ← Checked.sub exp maxBlockLevel.toNat
    pure (2 ^ (min exp maxWorkLevel % 192) % 2 ^ 192)

/-- A shifted mantissa is never `2 ^ 256 - 1`: either it is the mantissa itself, or it is shifted by
at least one bit and so even. -/
theorem shiftedMantissa_add_one_lt {mant : Nat} (k : Nat) (h : mant ≤ 0x7FFFFF) :
    mant * 2 ^ k % 2 ^ 256 + 1 < 2 ^ 256 := by
  have hlt := Nat.mod_lt (mant * 2 ^ k) (Nat.two_pow_pos 256)
  cases k with
  | zero =>
    have hle := Nat.mod_le (mant * 2 ^ 0) (2 ^ 256)
    rw [Nat.pow_zero, Nat.mul_one] at hle
    omega
  | succ k =>
    have heven : mant * 2 ^ (k + 1) % 2 ^ 256 % 2 = 0 := by
      rw [Nat.mod_mod_of_dvd _ (Nat.dvd_of_mod_eq_zero (by decide)), Nat.pow_succ,
        ← Nat.mul_assoc, Nat.mul_mod_left]
    omega

theorem fromCompactTargetBits_add_one_lt (bits : UInt32) :
    fromCompactTargetBits bits + 1 < 2 ^ 256 := by
  simp only [fromCompactTargetBits]
  split_ifs <;> first
    | exact shiftedMantissa_add_one_lt _ (by omega)
    | decide

/-- `calc_work` of a target from `2 ^ 64` up is `2 ^ 256 / (target + 1)`, and the `expect` into
`Uint192` holds. -/
theorem calcWork_eq {bits : UInt32} (h : 2 ^ 64 ≤ fromCompactTargetBits bits) :
    calcWork bits = .ok (2 ^ 256 / (fromCompactTargetBits bits + 1)) := by
  have hT := fromCompactTargetBits_add_one_lt bits
  rw [calcWork]
  generalize fromCompactTargetBits bits = T at h hT ⊢
  -- `!target / (target + 1) + 1` is `(2 ^ 256 - (target + 1) + (target + 1)) / (target + 1)`
  have hdiv : (2 ^ 256 - 1 - T) / ((T + 1) % 2 ^ 256) + 1 = 2 ^ 256 / (T + 1) := by
    rw [Nat.mod_eq_of_lt hT, ← Nat.add_div_right _ (Nat.succ_pos T)]
    congr 1
    omega
  have hfit : 2 ^ 256 / (T + 1) < 2 ^ 192 := Nat.div_lt_of_lt_mul (by omega)
  have hwide : 2 ^ 256 / (T + 1) < 2 ^ 256 := Nat.lt_trans hfit (Nat.pow_lt_pow_right (by decide) (by decide))
  rw [hdiv, Nat.mod_eq_of_lt hwide, if_pos hfit]

/-- `level_work` fails no check: it is zero at level zero and `2 ^ (level + 256 - max_block_level)`
capped at `2 ^ MAX_WORK_LEVEL` above. -/
theorem levelWork_eq (level maxBlockLevel : UInt8) :
    levelWork level maxBlockLevel = .ok (if level = 0 then 0
      else 2 ^ min (level.toNat + 256 - maxBlockLevel.toNat) maxWorkLevel) := by
  by_cases h0 : level = 0
  · rw [levelWork, if_pos h0, if_pos h0]
    rfl
  · have hl := level.toNat_lt
    have hm := maxBlockLevel.toNat_lt
    have hcap : min (level.toNat + 256 - maxBlockLevel.toNat) maxWorkLevel < 192 := by
      simp only [maxWorkLevel]
      omega
    rw [levelWork, if_neg h0, if_neg h0, Checked.add_of_lt (by omega), Except.ok_bind,
      Checked.sub_of_le (by omega), Except.ok_bind, Nat.mod_eq_of_lt hcap,
      Nat.mod_eq_of_lt (Nat.pow_lt_pow_right (by decide) hcap)]
    rfl

/-- `calc_work` of every target from `2 ^ 64` up is `2 ^ 256 / (target + 1)`, reached through
`!target / (target + 1) + 1` with the work below `2 ^ 192`; `level_work` is zero at level zero and
`2 ^ min (level + 256 - max_block_level, MAX_WORK_LEVEL)` above, and fails no check. -/
theorem calcWork_levelWork :
    (∀ bits : UInt32, 2 ^ 64 ≤ fromCompactTargetBits bits →
      calcWork bits = .ok (2 ^ 256 / (fromCompactTargetBits bits + 1))) ∧
    (∀ level maxBlockLevel : UInt8, levelWork level maxBlockLevel =
      .ok (if level = 0 then 0 else 2 ^ min (level.toNat + 256 - maxBlockLevel.toNat) maxWorkLevel)) :=
  ⟨fun _ h => calcWork_eq h, levelWork_eq⟩

/-- The bits `0x1d00ffff`, a target of `0xffff * 2 ^ 208`. -/
theorem calcWork_levelWork_ffff : 2 ^ 64 ≤ fromCompactTargetBits 0x1d00ffff ∧
    calcWork 0x1d00ffff = .ok (2 ^ 256 / (fromCompactTargetBits 0x1d00ffff + 1)) := by
  have h : 2 ^ 64 ≤ fromCompactTargetBits 0x1d00ffff := by decide
  exact ⟨h, calcWork_levelWork.1 _ h⟩

end Vecno
