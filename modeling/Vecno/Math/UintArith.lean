import Vecno.Math.Uint

/-!
# The arithmetic of `construct_uint!` on values

What each operation of `Uint n` does to the number its words stand for. The flag of
`overflowing_mul` only sees the carries of the rows it computes.
-/

namespace Vecno

namespace Uint

variable {n : Nat}

theorem value_lt (x : Uint n) : x.value < 2 ^ (64 * n) := by
  have h := Limbs.value_lt x.limbs
  rwa [x.length_limbs] at h

theorem toNat_limb (x : Uint n) (i : Nat) : (x.limb i).toNat = Limbs.digit x.limbs i := rfl

theorem ext_value {x y : Uint n} (h : x.value = y.value) : x = y := by
  have hl : x.limbs = y.limbs := Limbs.value_inj (by rw [x.length_limbs, y.length_limbs]) h
  cases x
  cases y
  cases hl
  rfl

/-! ## Addition and subtraction -/


theorem overflowingAddU64_value (a b : UInt64) :
    (Vecno.overflowingAddU64 a b).1.toNat + 2 ^ 64 * (Vecno.overflowingAddU64 a b).2.toNat = a.toNat + b.toNat := by
  have ha := a.toNat_lt
  have hb := b.toNat_lt
  rw [Vecno.overflowingAddU64, UInt64.toNat_add]
  by_cases h : 2 ^ 64 ≤ a.toNat + b.toNat
  · rw [decide_eq_true h, Bool.toNat_true]
    omega
  · rw [decide_eq_false h, Bool.toNat_false]
    omega

theorem overflowingSubU64_value (a b : UInt64) :
    ((overflowingSubU64 a b).1.toNat : Int) - 2 ^ 64 * (overflowingSubU64 a b).2.toNat = a.toNat - b.toNat := by
  have ha := a.toNat_lt
  have hb := b.toNat_lt
  rw [overflowingSubU64, UInt64.toNat_sub]
  by_cases h : a.toNat < b.toNat
  · rw [decide_eq_true h, Bool.toNat_true]
    omega
  · rw [decide_eq_false h, Bool.toNat_false]
    omega

theorem toNat_toUInt64 (c : Bool) : c.toUInt64.toNat = c.toNat := by
  cases c <;> rfl

theorem carryingAddU64_value (a b : UInt64) (carry : Bool) :
    ((carryingAddU64 a b carry).1.toNat : Int) + 2 ^ 64 * ((carryingAddU64 a b carry).2.toNat : Int) =
      a.toNat + b.toNat + carry.toNat := by
  have ha := a.toNat_lt
  have hb := b.toNat_lt
  have hs := overflowingAddU64_value a b
  have ht := overflowingAddU64_value (Vecno.overflowingAddU64 a b).1 carry.toUInt64
  have hlt := (Vecno.overflowingAddU64 a b).1.toNat_lt
  rw [toNat_toUInt64] at ht
  change ((Vecno.overflowingAddU64 (Vecno.overflowingAddU64 a b).1 carry.toUInt64).1.toNat : Int) +
    2 ^ 64 * ((Vecno.overflowingAddU64 a b).2 != (Vecno.overflowingAddU64 (Vecno.overflowingAddU64 a b).1 carry.toUInt64).2).toNat = _
  generalize Vecno.overflowingAddU64 (Vecno.overflowingAddU64 a b).1 carry.toUInt64 = t at ht ⊢
  generalize Vecno.overflowingAddU64 a b = s at hs ht hlt ⊢
  obtain ⟨s1, s2⟩ := s
  obtain ⟨t1, t2⟩ := t
  dsimp only at hs ht hlt ⊢
  have hc := Bool.toNat_le carry
  -- the two carries are never both set: a wrapped sum is at most `2 ^ 64 - 2`
  have hcarry : (s2 != t2).toNat = s2.toNat + t2.toNat := by
    cases s2 <;> cases t2 <;> simp only [Bool.toNat_true, Bool.toNat_false] at hs ht ⊢ <;> first | rfl | omega
  rw [hcarry]
  push_cast
  omega

theorem borrowingSubU64_value (a b : UInt64) (borrow : Bool) :
    ((borrowingSubU64 a b borrow).1.toNat : Int) + 2 ^ 64 * -((borrowingSubU64 a b borrow).2.toNat : Int) =
      ((a.toNat : Int) - b.toNat) + -(borrow.toNat : Int) := by
  have hs := overflowingSubU64_value a b
  have ht := overflowingSubU64_value (overflowingSubU64 a b).1 borrow.toUInt64
  rw [toNat_toUInt64] at ht
  change ((overflowingSubU64 (overflowingSubU64 a b).1 borrow.toUInt64).1.toNat : Int) +
    2 ^ 64 * -((overflowingSubU64 a b).2 != (overflowingSubU64 (overflowingSubU64 a b).1 borrow.toUInt64).2).toNat = _
  generalize overflowingSubU64 (overflowingSubU64 a b).1 borrow.toUInt64 = t at ht ⊢
  generalize overflowingSubU64 a b = s at hs ht ⊢
  obtain ⟨s1, s2⟩ := s
  obtain ⟨t1, t2⟩ := t
  dsimp only at hs ht ⊢
  have hb := b.toNat_lt
  have ht1 := t1.toNat_lt
  have hc := Bool.toNat_le borrow
  -- the two borrows are never both set: a wrapped difference is at least `1`
  have hborrow : (s2 != t2).toNat = s2.toNat + t2.toNat := by
    cases s2 <;> cases t2 <;> simp only [Bool.toNat_true, Bool.toNat_false] at hs ht ⊢ <;> first | rfl | omega
  rw [hborrow]
  push_cast
  omega

theorem overflowingAdd_value (x y : Uint n) :
    (x.overflowingAdd y).1.value + 2 ^ (64 * n) * (x.overflowingAdd y).2.toNat = x.value + y.value := by
  have h := @Limbs.carryMap_value _ _ (fun (p : UInt64 × UInt64) (carry : Bool) => carryingAddU64 p.1 p.2 carry)
    (fun p => (p.1.toNat : Int) + p.2.toNat) (fun c => (c.toNat : Int)) (fun _ => True)
    (fun _ _ _ => trivial) (fun p c _ => carryingAddU64_value p.1 p.2 c) (x.limbs.zip y.limbs) false trivial
  rw [Limbs.weighted_zip_add (by rw [x.length_limbs, y.length_limbs]), length_zip, Bool.toNat_false,
    Nat.cast_zero, add_zero] at h
  exact_mod_cast h

theorem overflowingSub_value (x y : Uint n) :
    ((x.overflowingSub y).1.value : Int) - 2 ^ (64 * n) * (x.overflowingSub y).2.toNat =
      x.value - y.value := by
  have h := @Limbs.carryMap_value _ _ (fun (p : UInt64 × UInt64) (borrow : Bool) => borrowingSubU64 p.1 p.2 borrow)
    (fun p => (p.1.toNat : Int) - p.2.toNat) (fun c => -(c.toNat : Int)) (fun _ => True)
    (fun _ _ _ => trivial) (fun p c _ => borrowingSubU64_value p.1 p.2 c) (x.limbs.zip y.limbs) false trivial
  rw [Limbs.weighted_zip_sub (by rw [x.length_limbs, y.length_limbs]), length_zip, Bool.toNat_false,
    Nat.cast_zero, neg_zero, add_zero] at h
  change ((x.overflowingSub y).1.value : Int) + 2 ^ (64 * n) * -((x.overflowingSub y).2.toNat : Int) =
    x.value - y.value at h
  linarith

theorem value_not (x : Uint n) : x.not.value = 2 ^ (64 * n) - 1 - x.value := by
  have h := Limbs.value_map_not x.limbs
  rw [x.length_limbs] at h
  change Limbs.value (x.limbs.map (~~~ ·)) = _
  unfold value
  omega

theorem value_addU64 (x : Uint n) (c : UInt64) :
    (x.addU64 c).value = (x.value + c.toNat) % 2 ^ (64 * n) := by
  have h := @Limbs.carryMap_value _ _ (fun (w : UInt64) (c : UInt64) =>
      ((Vecno.overflowingAddU64 w c).1, (Vecno.overflowingAddU64 w c).2.toUInt64))
    (fun w => (w.toNat : Int)) (fun c => (c.toNat : Int)) (fun _ => True) (fun _ _ _ => trivial)
    (fun w c _ => by
      have hw := overflowingAddU64_value w c
      rw [toNat_toUInt64]
      exact_mod_cast hw)
    x.limbs c trivial
  have hw : Limbs.weighted (x.limbs.map fun w => (w.toNat : Int)) = x.value := by
    have := Limbs.weighted_map_mul x.limbs 1
    simp only [Nat.cast_one, mul_one] at this
    exact this
  rw [hw, x.length_limbs] at h
  have hv : (x.addU64 c).value + 2 ^ (64 * n) * (Limbs.carryMap (fun (w : UInt64) (c : UInt64) =>
      ((Vecno.overflowingAddU64 w c).1, (Vecno.overflowingAddU64 w c).2.toUInt64)) x.limbs c).2.toNat =
      x.value + c.toNat := by
    exact_mod_cast h
  rw [← hv, Nat.add_mul_mod_self_left, Nat.mod_eq_of_lt (value_lt _)]

/-- An exact result written as a value below the width and a flag weighed at the width: the value
is the result modulo the width, and the flag says whether the result reaches the width. -/
theorem wrap_of_value {r N B : Nat} {f : Bool} (hr : r < B) (h : r + B * f.toNat = N) :
    r = N % B ∧ (f = true ↔ B ≤ N) := by
  cases f with
  | false =>
    rw [Bool.toNat_false, Nat.mul_zero, Nat.add_zero] at h
    subst h
    exact ⟨(Nat.mod_eq_of_lt hr).symm, by simp [hr]⟩
  | true =>
    rw [Bool.toNat_true, Nat.mul_one] at h
    subst h
    refine ⟨?_, by simp⟩
    rw [Nat.add_mod_right, Nat.mod_eq_of_lt hr]

/-- The borrowing form: a value below the width minus a flag weighed at the width. -/
theorem wrap_of_sub_value {r : Nat} {a b B : Nat} {f : Bool} (hr : r < B)
    (h : (r : Int) - B * f.toNat = a - b) : (r : Int) = ((a : Int) - b) % B ∧ (f = true ↔ a < b) := by
  cases f with
  | false =>
    rw [Bool.toNat_false, Nat.cast_zero, mul_zero, sub_zero] at h
    refine ⟨?_, by simp; omega⟩
    rw [← h, Int.emod_eq_of_lt (by omega) (by omega)]
  | true =>
    rw [Bool.toNat_true, Nat.cast_one, mul_one] at h
    refine ⟨?_, by simp; omega⟩
    -- a borrow: the difference is negative and wraps once
    rw [← Int.add_mul_emod_self_left ((a : Int) - b) B 1, Int.emod_eq_of_lt (by omega) (by omega)]
    omega

/-- `overflowing_add` is exact modulo the width, its flag set exactly on overflow. -/
theorem overflowingAdd_spec (x y : Uint n) :
    (x.overflowingAdd y).1.value = (x.value + y.value) % 2 ^ (64 * n) ∧
      ((x.overflowingAdd y).2 = true ↔ 2 ^ (64 * n) ≤ x.value + y.value) :=
  wrap_of_value (value_lt _) (overflowingAdd_value x y)

/-- `overflowing_sub` is exact modulo the width, its flag set exactly on underflow. -/
theorem overflowingSub_spec (x y : Uint n) :
    ((x.overflowingSub y).1.value : Int) = ((x.value : Int) - y.value) % 2 ^ (64 * n) ∧
      ((x.overflowingSub y).2 = true ↔ x.value < y.value) := by
  have h := wrap_of_sub_value (value_lt _) (overflowingSub_value x y)
  rwa [Nat.cast_pow, Nat.cast_ofNat] at h

theorem sub_value_of_le {x y : Uint n} (h : y.value ≤ x.value) :
    (x.sub y).value = x.value - y.value := by
  have hs := overflowingSub_spec x y
  have hf : (x.overflowingSub y).2 = false := by
    rw [← Bool.not_eq_true, hs.2]
    omega
  have hv := overflowingSub_value x y
  rw [hf, Bool.toNat_false, Nat.cast_zero, mul_zero, sub_zero] at hv
  change ((x.overflowingSub y).1.value) = _
  omega

/-! ## Multiplication by a word -/

theorem mul_le_max (a b : UInt64) : a.toNat * b.toNat ≤ (2 ^ 64 - 1) * (2 ^ 64 - 1) :=
  Nat.mul_le_mul (by have := a.toNat_lt; omega) (by have := b.toNat_lt; omega)

theorem mulU64Step_lt (other word : UInt64) (carry : Nat) :
    (mulU64Step other word carry).2 < 2 ^ 64 := by
  rw [mulU64Step, Nat.and_two_pow_sub_one_eq_mod]
  exact Nat.mod_lt _ (by decide)

theorem mulU64Step_value (other word : UInt64) {carry : Nat} (hc : carry < 2 ^ 64) :
    ((mulU64Step other word carry).1.toNat : Int) + 2 ^ 64 * ((mulU64Step other word carry).2 : Int) =
      (word.toNat : Int) * other.toNat + carry := by
  have hp := mul_le_max other word
  -- the `u128` sum stays below `2 ^ 128`, so its high word is all of `t >> 64`
  have hhigh : (carry + other.toNat * word.toNat) >>> 64 < 2 ^ 64 := by
    rw [Nat.shiftRight_eq_div_pow, Nat.div_lt_iff_lt_mul (by decide)]
    norm_num at hp ⊢
    omega
  rw [mulU64Step, Nat.and_two_pow_sub_one_eq_mod, Nat.mod_eq_of_lt hhigh, UInt64.toNat_ofNat',
    Nat.shiftRight_eq_div_pow]
  have := Nat.mod_add_div (carry + other.toNat * word.toNat) (2 ^ 64)
  push_cast
  rw [mul_comm (word.toNat : Int)]
  omega

/-- `carrying_mul_u64`: the product by a word, the low words written and the high word carried. -/
theorem carryingMulU64_value (x : Uint n) (other : UInt64) :
    (x.carryingMulU64 other).1.value + 2 ^ (64 * n) * (x.carryingMulU64 other).2.toNat =
      x.value * other.toNat := by
  have h := @Limbs.carryMap_value _ _ (mulU64Step other) (fun word => (word.toNat : Int) * other.toNat)
    (fun c => (c : Int)) (fun c => c < 2 ^ 64) (fun word c _ => mulU64Step_lt other word c)
    (fun word _ hc => mulU64Step_value other word hc) x.limbs 0 (by decide)
  have hlt := Limbs.carryMap_inv (mulU64Step other) (fun c => c < 2 ^ 64)
    (fun word c _ => mulU64Step_lt other word c) x.limbs (c := 0) (by decide)
  rw [Limbs.weighted_map_mul, x.length_limbs, Nat.cast_zero, add_zero] at h
  change (Limbs.value (Limbs.carryMap (mulU64Step other) x.limbs 0).1) + 2 ^ (64 * n) *
    (UInt64.ofNat (Limbs.carryMap (mulU64Step other) x.limbs 0).2).toNat = _
  rw [UInt64.toNat_ofNat', Nat.mod_eq_of_lt hlt]
  exact_mod_cast h

/-- `overflowing_mul_u64` is exact modulo the width, its flag set exactly on overflow. -/
theorem overflowingMulU64_spec (x : Uint n) (other : UInt64) :
    (x.overflowingMulU64 other).1.value = x.value * other.toNat % 2 ^ (64 * n) ∧
      ((x.overflowingMulU64 other).2 = true ↔ 2 ^ (64 * n) ≤ x.value * other.toNat) := by
  have h := carryingMulU64_value x other
  have hr := value_lt (x.carryingMulU64 other).1
  have hpos := Nat.two_pow_pos (64 * n)
  change (x.carryingMulU64 other).1.value = _ ∧ (((x.carryingMulU64 other).2 != 0) = true ↔ _)
  refine ⟨?_, ?_⟩
  · rw [← h, Nat.add_mul_mod_self_left, Nat.mod_eq_of_lt hr]
  · rw [bne_iff_ne, ne_eq, ← UInt64.toNat_inj, UInt64.toNat_zero, ← h]
    constructor
    · intro hc
      exact Nat.le_add_left_of_le (Nat.le_mul_of_pos_right _ (Nat.pos_of_ne_zero hc))
    · intro hle hc
      rw [hc, Nat.mul_zero, Nat.add_zero] at hle
      omega

/-! ## The full product -/

theorem mulStep_value (yj : UInt64) (p : UInt64 × UInt64) (carry : UInt64) :
    ((mulStep yj p carry).1.toNat : Int) + 2 ^ 64 * ((mulStep yj p carry).2.toNat : Int) =
      ((p.1.toNat : Int) * yj.toNat + p.2.toNat) + carry.toNat := by
  have hp := mul_le_max p.1 yj
  have h2 := p.2.toNat_lt
  have hc := carry.toNat_lt
  -- `self[i] * other[j] + result[i + j] + carry` stays below `2 ^ 128`
  have hhigh : (p.1.toNat * yj.toNat + p.2.toNat + carry.toNat) >>> 64 < 2 ^ 64 := by
    rw [Nat.shiftRight_eq_div_pow, Nat.div_lt_iff_lt_mul (by decide)]
    norm_num at hp h2 hc ⊢
    omega
  rw [mulStep, UInt64.toNat_ofNat', UInt64.toNat_ofNat', Nat.mod_eq_of_lt hhigh,
    Nat.shiftRight_eq_div_pow]
  have := Nat.mod_add_div (p.1.toNat * yj.toNat + p.2.toNat + carry.toNat) (2 ^ 64)
  push_cast
  omega

/-- Row `j` of the product adds `self * other[j]`, cut to the words it reaches, at word `j`; the
carry out of the top is weighed at the width. -/
theorem mulRow_value (x : Uint n) (yj : UInt64) {j : Nat} (hj : j ≤ n) (result : Uint n) :
    (x.mulRow yj j result).1.value + 2 ^ (64 * n) * (x.mulRow yj j result).2.toNat =
      result.value + 2 ^ (64 * j) * (Limbs.value (x.limbs.take (n - j)) * yj.toNat) := by
  have hlen : (result.limbs.drop j).length = n - j := by rw [List.length_drop, result.length_limbs]
  have h := @Limbs.carryMap_value _ _ (mulStep yj)
    (fun p => (p.1.toNat : Int) * yj.toNat + p.2.toNat) (fun c => (c.toNat : Int)) (fun _ => True)
    (fun _ _ _ => trivial) (fun p c _ => mulStep_value yj p c) (x.limbs.zip (result.limbs.drop j)) 0
    trivial
  rw [Limbs.weighted_zip_mul_add (by rw [hlen, x.length_limbs]; omega), List.length_zip, hlen,
    x.length_limbs, Nat.min_eq_right (by omega), UInt64.toNat_zero, Nat.cast_zero, add_zero] at h
  -- the words below `j` are kept, the rest written by the row
  have hresult : result.value = Limbs.value (result.limbs.take j) +
      2 ^ (64 * j) * Limbs.value (result.limbs.drop j) := by
    have h := Limbs.value_append (result.limbs.take j) (result.limbs.drop j)
    rwa [List.take_append_drop, List.length_take_of_le (by rw [result.length_limbs]; exact hj)] at h
  have hrow : (x.mulRow yj j result).1.value = Limbs.value (result.limbs.take j) +
      2 ^ (64 * j) * Limbs.value (Limbs.carryMap (mulStep yj) (x.limbs.zip (result.limbs.drop j)) 0).1 := by
    rw [value, mulRow, Limbs.value_append, List.length_take_of_le (by rw [result.length_limbs]; exact hj)]
  have hpow : (2 : Nat) ^ (64 * n) = 2 ^ (64 * j) * 2 ^ (64 * (n - j)) := by
    rw [← pow_add, ← Nat.mul_add, Nat.add_sub_cancel' hj]
  change (x.mulRow yj j result).1.value + 2 ^ (64 * n) *
    (Limbs.carryMap (mulStep yj) (x.limbs.zip (result.limbs.drop j)) 0).2.toNat = _
  rw [hrow, hresult, hpow]
  have h' : Limbs.value (Limbs.carryMap (mulStep yj) (x.limbs.zip (result.limbs.drop j)) 0).1 +
      2 ^ (64 * (n - j)) * (Limbs.carryMap (mulStep yj) (x.limbs.zip (result.limbs.drop j)) 0).2.toNat =
      Limbs.value (x.limbs.take (n - j)) * yj.toNat + Limbs.value (result.limbs.drop j) := by
    exact_mod_cast h
  calc _ = Limbs.value (result.limbs.take j) + 2 ^ (64 * j) *
        (Limbs.value (Limbs.carryMap (mulStep yj) (x.limbs.zip (result.limbs.drop j)) 0).1 +
          2 ^ (64 * (n - j)) * (Limbs.carryMap (mulStep yj) (x.limbs.zip (result.limbs.drop j)) 0).2.toNat) := by
        ring
    _ = _ := by rw [h']; ring

theorem value_zero : (zero : Uint n).value = 0 := by
  change Limbs.value (List.replicate n 0) = 0
  induction n with
  | zero => rfl
  | succ n ih => rw [List.replicate_succ, Limbs.value_cons, ih]; rfl

/-- The words of `x` a row reaches, weighed at the row, differ from `x` weighed at the row by a
multiple of the width. -/
theorem value_take_weighted (x : Uint n) {j : Nat} (hj : j ≤ n) :
    2 ^ (64 * j) * Limbs.value (x.limbs.take (n - j)) +
      2 ^ (64 * n) * Limbs.value (x.limbs.drop (n - j)) = 2 ^ (64 * j) * x.value := by
  have h := Limbs.value_append (x.limbs.take (n - j)) (x.limbs.drop (n - j))
  rw [List.take_append_drop, List.length_take_of_le (by rw [x.length_limbs]; omega)] at h
  have hpow : (2 : Nat) ^ (64 * n) = 2 ^ (64 * j) * 2 ^ (64 * (n - j)) := by
    rw [← pow_add, ← Nat.mul_add, Nat.add_sub_cancel' hj]
  rw [value, h, hpow]
  ring

theorem mulPass_value (x y : Uint n) (st : Uint n × Bool) {j : Nat} (hj : j ≤ n) :
    (x.mulPass y st j).1.value =
      (st.1.value + 2 ^ (64 * j) * (Limbs.value (x.limbs.take (n - j)) * (y.limb j).toNat)) %
        2 ^ (64 * n) := by
  change (x.mulRow (y.limb j) j st.1).1.value = _
  rw [← mulRow_value x (y.limb j) hj st.1, Nat.add_mul_mod_self_left, Nat.mod_eq_of_lt (value_lt _)]

/-- After the rows below `k`, the result is `x` times the low `k` words of `y`, modulo the width. -/
theorem foldl_mulPass_value (x y : Uint n) :
    ∀ k ≤ n, ((List.range k).foldl (x.mulPass y) (zero, false)).1.value =
      x.value * Limbs.value (y.limbs.take k) % 2 ^ (64 * n) := by
  intro k
  induction k with
  | zero =>
    intro _
    rw [List.range_zero, List.foldl_nil, value_zero, List.take_zero, Limbs.value_nil, Nat.mul_zero,
      Nat.zero_mod]
  | succ k ih =>
    intro hk
    have hx := value_take_weighted x (j := k) (by omega)
    rw [List.range_succ, List.foldl_append, List.foldl_cons, List.foldl_nil,
      mulPass_value x y _ (by omega), ih (by omega), Nat.mod_add_mod,
      Limbs.value_take_succ (by rw [y.length_limbs]; omega), ← toNat_limb]
    -- the row's cut-off words of `x` only change the product by a multiple of the width
    rw [← Nat.add_mul_mod_self_left _ (2 ^ (64 * n))
      (Limbs.value (x.limbs.drop (n - k)) * (y.limb k).toNat)]
    congr 1
    calc _ = x.value * Limbs.value (y.limbs.take k) + (y.limb k).toNat *
          (2 ^ (64 * k) * Limbs.value (x.limbs.take (n - k)) +
            2 ^ (64 * n) * Limbs.value (x.limbs.drop (n - k))) := by ring
      _ = _ := by rw [hx]; ring

theorem overflowingMul_value (x y : Uint n) :
    (x.overflowingMul y).1.value = x.value * y.value % 2 ^ (64 * n) := by
  rw [overflowingMul, foldl_mulPass_value x y n (Nat.le_refl n),
    List.take_of_length_le (by rw [y.length_limbs])]
  rfl

/-- The flag of `overflowing_mul` is only the carries out of the rows: `2 ^ 128 * 2 ^ 128` in
`Uint256` reaches the width with no row carrying out of the top word. -/
theorem overflowingMul_flag_misses_overflow :
    ((⟨[0, 0, 1, 0], rfl⟩ : Uint 4).overflowingMul ⟨[0, 0, 1, 0], rfl⟩).2 = false ∧
      2 ^ (64 * 4) ≤ (⟨[0, 0, 1, 0], rfl⟩ : Uint 4).value * (⟨[0, 0, 1, 0], rfl⟩ : Uint 4).value := by
  decide

/-! ## Shifts -/

theorem limb_ofFn (f : Nat → UInt64) {i : Nat} (h : i < n) : (ofFn f : Uint n).limb i = f i := by
  rw [limb, ofFn, List.getD_eq_getElem _ _ (by rw [List.length_ofFn]; exact h), List.getElem_ofFn]

theorem toNat_toUInt64_of_lt {k : Nat} (hk : k < 64) : k.toUInt64.toNat % 64 = k := by
  rw [Nat.toUInt64_eq, UInt64.toNat_ofNat']
  omega

theorem testBit_shiftLeft_u64 (a : UInt64) {k c : Nat} (hk : k < 64) (hc : c < 64) :
    (a <<< k.toUInt64).toNat.testBit c = (decide (k ≤ c) && a.toNat.testBit (c - k)) := by
  rw [UInt64.toNat_shiftLeft, toNat_toUInt64_of_lt hk, Nat.testBit_mod_two_pow, decide_eq_true hc,
    Bool.true_and, Nat.testBit_shiftLeft]

theorem testBit_shiftRight_u64 (a : UInt64) {k : Nat} (hk : k < 64) (c : Nat) :
    (a >>> k.toUInt64).toNat.testBit c = a.toNat.testBit (k + c) := by
  rw [UInt64.toNat_shiftRight, toNat_toUInt64_of_lt hk, Nat.testBit_shiftRight]

theorem testBit_limb (x : Uint n) (i : Nat) {b : Nat} (hb : b < 64) :
    (x.limb i).toNat.testBit b = x.value.testBit (64 * i + b) :=
  Limbs.testBit_digit x.limbs i hb

theorem testBit_value_of_le (x : Uint n) {j : Nat} (h : 64 * n ≤ j) : x.value.testBit j = false :=
  Nat.testBit_lt_two_pow (Nat.lt_of_lt_of_le (value_lt x) (Nat.pow_le_pow_right (by decide) h))

theorem testBit_limb_of_le (x : Uint n) (i : Nat) {b : Nat} (hb : 64 ≤ b) :
    (x.limb i).toNat.testBit b = false :=
  Nat.testBit_lt_two_pow (Nat.lt_of_lt_of_le (x.limb i).toNat_lt (Nat.pow_le_pow_right (by decide) hb))

/-- A number given bit by bit within the width is the value of those bits modulo the width. -/
theorem value_eq_mod_of_testBit {x : Uint n} {N : Nat}
    (h : ∀ i < n, ∀ b < 64, (x.limb i).toNat.testBit b = N.testBit (64 * i + b)) :
    x.value = N % 2 ^ (64 * n) := by
  have hv := @Limbs.value_eq_mod_of_testBit x.limbs N (by
    rw [x.length_limbs]
    exact h)
  rwa [x.length_limbs] at hv

theorem testBit_shl_limb (x : Uint n) {s i b : Nat} (hs : s < 64 * n) (hi : i < n) (hb : b < 64) :
    ((x.overflowingShl s).1.limb i).toNat.testBit b =
      (decide (s ≤ 64 * i + b) && x.value.testBit (64 * i + b - s)) := by
  have hmod : s % (64 * n) = s := Nat.mod_eq_of_lt hs
  have hls : s % 64 < 64 := Nat.mod_lt _ (by decide)
  have hsplit := Nat.div_add_mod s 64
  simp only [overflowingShl, hmod]
  rw [limb_ofFn _ hi]
  by_cases hlw : i < s / 64
  · -- a word below the shifted words
    rw [if_pos hlw, UInt64.toNat_zero, Nat.zero_testBit, decide_eq_false (by omega), Bool.false_and]
  · rw [if_neg hlw]
    by_cases hhigh : s % 64 ≤ b
    · -- the bit comes from word `i - left_words` shifted
      have hlow : ((x.limb (i - s / 64) <<< (s % 64).toUInt64).toNat.testBit b) =
          x.value.testBit (64 * i + b - s) := by
        rw [testBit_shiftLeft_u64 _ hls hb, decide_eq_true hhigh, Bool.true_and,
          testBit_limb x _ (by omega)]
        congr 1
        omega
      rw [decide_eq_true (by omega), Bool.true_and]
      split_ifs with hor
      · rw [UInt64.toNat_or, Nat.testBit_or, hlow, testBit_shiftRight_u64 _ (by omega),
          testBit_limb_of_le _ _ (by omega), Bool.or_false]
      · exact hlow
    · have hzero : ((x.limb (i - s / 64) <<< (s % 64).toUInt64).toNat.testBit b) = false := by
        rw [testBit_shiftLeft_u64 _ hls hb, decide_eq_false hhigh, Bool.false_and]
      split_ifs with hor
      · -- the bit comes from the top of word `i - 1 - left_words`
        rw [UInt64.toNat_or, Nat.testBit_or, hzero, Bool.false_or, testBit_shiftRight_u64 _ (by omega),
          testBit_limb x _ (by omega), decide_eq_true (by omega), Bool.true_and]
        congr 1
        omega
      · -- the low bits of word `left_words`, below the shift
        rw [hzero, decide_eq_false (by omega), Bool.false_and]

/-- `<<` by less than the width multiplies modulo the width, and does not overflow. -/
theorem overflowingShl_spec (x : Uint n) {s : Nat} (hs : s < 64 * n) :
    (x.overflowingShl s).1.value = x.value * 2 ^ s % 2 ^ (64 * n) ∧ (x.overflowingShl s).2 = false := by
  refine ⟨value_eq_mod_of_testBit fun i hi b hb => ?_, decide_eq_false (by omega)⟩
  rw [testBit_shl_limb x hs hi hb, Nat.testBit_mul_two_pow]

theorem overflowingShl_mod (x : Uint n) (s : Nat) :
    (x.overflowingShl s).1 = (x.overflowingShl (s % (64 * n))).1 := by
  simp only [overflowingShl, Nat.mod_mod]

theorem shl_value (x : Uint n) (hn : 0 < n) (s : Nat) :
    (x.shl s).value = x.value * 2 ^ (s % (64 * n)) % 2 ^ (64 * n) := by
  rw [shl, overflowingShl_mod]
  exact (overflowingShl_spec x (Nat.mod_lt _ (by omega))).1

theorem testBit_shr_limb (x : Uint n) {s i b : Nat} (hs : s < 64 * n) (hi : i < n) (hb : b < 64) :
    ((x.overflowingShr s).1.limb i).toNat.testBit b = x.value.testBit (64 * i + b + s) := by
  have hmod : s % (64 * n) = s := Nat.mod_eq_of_lt hs
  have hls : s % 64 < 64 := Nat.mod_lt _ (by decide)
  have hsplit := Nat.div_add_mod s 64
  simp only [overflowingShr, hmod]
  rw [limb_ofFn _ hi]
  by_cases hlw : i + s / 64 < n
  · rw [if_pos hlw]
    by_cases hlow : s % 64 + b < 64
    · -- the bit comes from word `i + left_words` shifted
      have hbit : ((x.limb (i + s / 64) >>> (s % 64).toUInt64).toNat.testBit b) =
          x.value.testBit (64 * i + b + s) := by
        rw [testBit_shiftRight_u64 _ hls, testBit_limb x _ hlow]
        congr 1
        omega
      split_ifs with hor
      · rw [UInt64.toNat_or, Nat.testBit_or, hbit, testBit_shiftLeft_u64 _ (by omega) hb,
          decide_eq_false (by omega), Bool.false_and, Bool.or_false]
      · exact hbit
    · have hzero : ((x.limb (i + s / 64) >>> (s % 64).toUInt64).toNat.testBit b) = false := by
        rw [testBit_shiftRight_u64 _ hls, testBit_limb_of_le _ _ (by omega)]
      split_ifs with hor
      · -- the bit comes from the bottom of word `i + left_words + 1`
        rw [UInt64.toNat_or, Nat.testBit_or, hzero, Bool.false_or,
          testBit_shiftLeft_u64 _ (by omega) hb, decide_eq_true (by omega), Bool.true_and,
          testBit_limb x _ (by omega)]
        congr 1
        omega
      · -- past the top word
        rw [hzero, testBit_value_of_le x (by omega)]
  · rw [if_neg hlw, UInt64.toNat_zero, Nat.zero_testBit, testBit_value_of_le x (by omega)]

theorem overflowingShr_spec (x : Uint n) {s : Nat} (hs : s < 64 * n) :
    (x.overflowingShr s).1.value = x.value / 2 ^ s ∧ (x.overflowingShr s).2 = false := by
  refine ⟨?_, decide_eq_false (by omega)⟩
  have hle : x.value / 2 ^ s < 2 ^ (64 * n) := Nat.lt_of_le_of_lt (Nat.div_le_self _ _) (value_lt x)
  rw [value_eq_mod_of_testBit fun i hi b hb => ?_, Nat.mod_eq_of_lt hle]
  rw [testBit_shr_limb x hs hi hb, Nat.testBit_div_two_pow]

/-! ## Comparison -/

theorem compare_toNat (a b : UInt64) : compare a b = compare a.toNat b.toNat := by
  change compareOfLessAndEq a b = compareOfLessAndEq a.toNat b.toNat
  simp only [compareOfLessAndEq, UInt64.lt_iff_toNat_lt, ← UInt64.toNat_inj]

/-- The words compared from the top: the higher words decide, the lower ones break a tie. -/
theorem cmpLimbs_append {l₁ l₂ : List UInt64} (h : l₁.length = l₂.length) (a b : List UInt64) :
    cmpLimbs (l₁ ++ a) (l₂ ++ b) = (cmpLimbs l₁ l₂).then (cmpLimbs a b) := by
  induction l₁ generalizing l₂ with
  | nil =>
    cases l₂ with
    | nil => rfl
    | cons _ _ => simp at h
  | cons x l₁ ih =>
    cases l₂ with
    | nil => simp at h
    | cons y l₂ =>
      simp only [List.cons_append, cmpLimbs]
      cases compare x y with
      | lt => rfl
      | eq => exact ih (by simpa using h)
      | gt => rfl

theorem cmpLimbs_singleton (a b : UInt64) : cmpLimbs [a] [b] = compare a b := by
  simp only [cmpLimbs]
  cases compare a b <;> rfl

/-- Numbers in base `B`: the high digits decide, the low digit breaks a tie. -/
theorem compare_add_mul {a b B : Nat} (ha : a < B) (hb : b < B) (v w : Nat) :
    compare (a + B * v) (b + B * w) = (compare v w).then (compare a b) := by
  rcases Nat.lt_trichotomy v w with hlt | rfl | hgt
  · rw [Nat.compare_eq_lt.mpr hlt, Nat.compare_eq_lt.mpr]
    · rfl
    · have : B * (v + 1) ≤ B * w := Nat.mul_le_mul_left B hlt
      rw [Nat.mul_succ] at this
      omega
  · have hv : compare v v = .eq := Nat.compare_eq_eq.mpr rfl
    rw [hv]
    change compare (a + B * v) (b + B * v) = compare a b
    rcases Nat.lt_trichotomy a b with hab | rfl | hab
    · rw [Nat.compare_eq_lt.mpr hab, Nat.compare_eq_lt.mpr (by omega)]
    · rw [Nat.compare_eq_eq.mpr rfl, Nat.compare_eq_eq.mpr rfl]
    · rw [Nat.compare_eq_gt.mpr hab, Nat.compare_eq_gt.mpr (by omega)]
  · rw [Nat.compare_eq_gt.mpr hgt, Nat.compare_eq_gt.mpr]
    · rfl
    · have : B * (w + 1) ≤ B * v := Nat.mul_le_mul_left B hgt
      rw [Nat.mul_succ] at this
      omega

theorem cmpLimbs_reverse {xs ys : List UInt64} (h : xs.length = ys.length) :
    cmpLimbs xs.reverse ys.reverse = compare (Limbs.value xs) (Limbs.value ys) := by
  induction xs generalizing ys with
  | nil =>
    cases ys with
    | nil => rfl
    | cons _ _ => simp at h
  | cons x xs ih =>
    cases ys with
    | nil => simp at h
    | cons y ys =>
      have hlen : xs.length = ys.length := by simpa using h
      rw [List.reverse_cons, List.reverse_cons,
        cmpLimbs_append (by rw [List.length_reverse, List.length_reverse, hlen]), ih hlen,
        cmpLimbs_singleton, Limbs.value_cons, Limbs.value_cons,
        compare_add_mul x.toNat_lt y.toNat_lt, compare_toNat]

theorem cmp_eq_compare (x y : Uint n) : x.cmp y = compare x.value y.value :=
  cmpLimbs_reverse (by rw [x.length_limbs, y.length_limbs])

theorem ge_iff (x y : Uint n) : x.ge y = true ↔ y.value ≤ x.value := by
  rw [ge, cmp_eq_compare, bne_iff_ne, ne_eq, Nat.compare_eq_lt, Nat.not_lt]

theorem min_value (x y : Uint n) : (x.min y).value = Nat.min x.value y.value := by
  rw [min, cmp_eq_compare]
  split_ifs with h
  · rw [Nat.compare_eq_gt] at h
    exact (Nat.min_eq_right (Nat.le_of_lt h)).symm
  · rw [Nat.compare_eq_gt] at h
    exact (Nat.min_eq_left (Nat.le_of_not_lt h)).symm

/-! ## Bit length -/

theorem find?_range_reverse_some (p : Nat → Bool) :
    ∀ {m i : Nat}, (List.range m).reverse.find? p = some i →
      p i = true ∧ i < m ∧ ∀ j, i < j → j < m → p j = false := by
  intro m
  induction m with
  | zero => intro i h; simp at h
  | succ m ih =>
    intro i h
    rw [List.range_succ, List.reverse_append, List.reverse_singleton, List.singleton_append,
      List.find?_cons] at h
    cases hm : p m with
    | true =>
      rw [hm] at h
      cases h
      exact ⟨hm, by omega, fun j hj hjm => by omega⟩
    | false =>
      rw [hm] at h
      obtain ⟨hp, hi, htop⟩ := ih h
      refine ⟨hp, by omega, fun j hj hjm => ?_⟩
      rcases Nat.lt_or_ge j m with hjm' | hjm'
      · exact htop j hj hjm'
      · rwa [show j = m by omega]

theorem find?_range_reverse_none (p : Nat → Bool) {m : Nat}
    (h : (List.range m).reverse.find? p = none) : ∀ j < m, p j = false := by
  intro j hj
  rw [List.find?_eq_none] at h
  simpa using h j (by simpa using hj)

/-- A number whose words from `i + 1` up are zero and word `i` is not has `64 * i` bits and those
of word `i`. -/
theorem size_value_of_top {x : Uint n} {i : Nat} (hi : i < n) (hne : x.limb i ≠ 0)
    (htop : ∀ j, i < j → j < n → x.limb j = 0) :
    x.value.size = 64 * i + (x.limb i).toNat.size := by
  have hdrop : Limbs.value (x.limbs.drop (i + 1)) = 0 := by
    apply Limbs.value_drop_eq_zero
    intro j hj
    rcases Nat.lt_or_ge j n with hjn | hjn
    · rw [← toNat_limb, htop j (by omega) hjn, UInt64.toNat_zero]
    · exact Limbs.digit_of_le (by rw [x.length_limbs]; exact hjn)
  have hsplit := Limbs.value_append (x.limbs.take (i + 1)) (x.limbs.drop (i + 1))
  rw [List.take_append_drop, hdrop, Nat.mul_zero, Nat.add_zero,
    Limbs.value_take_succ (by rw [x.length_limbs]; exact hi), ← toNat_limb] at hsplit
  have hlow := Limbs.value_lt (x.limbs.take i)
  rw [List.length_take_of_le (by rw [x.length_limbs]; omega)] at hlow
  have hL : 0 < (x.limb i).toNat := by
    rw [Nat.pos_iff_ne_zero, ne_eq, ← UInt64.toNat_zero, UInt64.toNat_inj]
    exact hne
  have hsz : 0 < (x.limb i).toNat.size := Nat.size_pos.mpr hL
  have hup : (x.limb i).toNat < 2 ^ (x.limb i).toNat.size := Nat.lt_size_self _
  have hdown : 2 ^ ((x.limb i).toNat.size - 1) ≤ (x.limb i).toNat := Nat.lt_size.mp (by omega)
  have hupper : x.value < 2 ^ (64 * i + (x.limb i).toNat.size) := by
    calc x.value < 2 ^ (64 * i) + 2 ^ (64 * i) * (x.limb i).toNat := by
          change Limbs.value x.limbs < _
          omega
      _ = 2 ^ (64 * i) * ((x.limb i).toNat + 1) := by ring
      _ ≤ 2 ^ (64 * i) * 2 ^ (x.limb i).toNat.size := Nat.mul_le_mul_left _ hup
      _ = _ := (pow_add _ _ _).symm
  have hlower : 2 ^ (64 * i + (x.limb i).toNat.size - 1) ≤ x.value := by
    calc 2 ^ (64 * i + (x.limb i).toNat.size - 1) = 2 ^ (64 * i) * 2 ^ ((x.limb i).toNat.size - 1) := by
          rw [← pow_add]
          congr 1
          omega
      _ ≤ 2 ^ (64 * i) * (x.limb i).toNat := Nat.mul_le_mul_left _ hdown
      _ ≤ x.value := by
          change _ ≤ Limbs.value x.limbs
          omega
  have h1 := Nat.size_le.mpr hupper
  have h2 := Nat.lt_size.mpr hlower
  omega

theorem bits_eq_size (x : Uint n) : x.bits = x.value.size := by
  unfold bits
  split
  · rename_i i hfind
    obtain ⟨hp, hi, htop⟩ := find?_range_reverse_some _ hfind
    have hne : x.limb i ≠ 0 := by simpa using hp
    have hsz : (x.limb i).toNat.size ≤ 64 := Nat.size_le.mpr (x.limb i).toNat_lt
    rw [size_value_of_top hi hne fun j hij hjn => by simpa using htop j hij hjn, leadingZerosU64]
    omega
  · rename_i hfind
    have hzero := find?_range_reverse_none _ hfind
    have hv : x.value = 0 := by
      have h := @Limbs.value_drop_eq_zero x.limbs 0 fun j _ => by
        rcases Nat.lt_or_ge j n with hjn | hjn
        · rw [← toNat_limb, show x.limb j = 0 by simpa using hzero j hjn, UInt64.toNat_zero]
        · exact Limbs.digit_of_le (by rw [x.length_limbs]; exact hjn)
      rwa [List.drop_zero] at h
    rw [hv, Nat.size_zero]

/-! ## Division by a word -/

theorem divRemLimbs_cons (other d : UInt64) (ds : List UInt64) :
    divRemLimbs other (d :: ds) =
      (UInt64.ofNat (((divRemLimbs other ds).2.toNat <<< 64 ||| d.toNat) / other.toNat) ::
          (divRemLimbs other ds).1,
        UInt64.ofNat (((divRemLimbs other ds).2.toNat <<< 64 ||| d.toNat) % other.toNat)) :=
  rfl

/-- The loop of `div_rem_u64` divides exactly: each `u128` step's quotient fits a word, since the
remainder carried in is below the divisor. -/
theorem divRemLimbs_value {other : UInt64} (h : 0 < other.toNat) (ds : List UInt64) :
    Limbs.value (divRemLimbs other ds).1 * other.toNat + (divRemLimbs other ds).2.toNat =
        Limbs.value ds ∧ (divRemLimbs other ds).2.toNat < other.toNat := by
  induction ds with
  | nil => exact ⟨by simp [divRemLimbs], by simpa [divRemLimbs] using h⟩
  | cons d ds ih =>
    obtain ⟨hval, hrem⟩ := ih
    have hd := d.toNat_lt
    have hm := other.toNat_lt
    have ht : (divRemLimbs other ds).2.toNat <<< 64 ||| d.toNat =
        2 ^ 64 * (divRemLimbs other ds).2.toNat + d.toNat := by
      rw [Nat.shiftLeft_eq, Nat.mul_comm, Nat.two_pow_add_eq_or_of_lt hd]
    have htlt : 2 ^ 64 * (divRemLimbs other ds).2.toNat + d.toNat < 2 ^ 64 * other.toNat := by
      have : 2 ^ 64 * ((divRemLimbs other ds).2.toNat + 1) ≤ 2 ^ 64 * other.toNat :=
        Nat.mul_le_mul_left _ hrem
      rw [Nat.mul_succ] at this
      omega
    have hq : (2 ^ 64 * (divRemLimbs other ds).2.toNat + d.toNat) / other.toNat < 2 ^ 64 :=
      (Nat.div_lt_iff_lt_mul h).mpr htlt
    have hr : (2 ^ 64 * (divRemLimbs other ds).2.toNat + d.toNat) % other.toNat < other.toNat :=
      Nat.mod_lt _ h
    rw [divRemLimbs_cons, ht, Limbs.value_cons, Limbs.value_cons, UInt64.toNat_ofNat',
      UInt64.toNat_ofNat', Nat.mod_eq_of_lt hq, Nat.mod_eq_of_lt (by omega)]
    refine ⟨?_, hr⟩
    have hdiv := Nat.div_add_mod (2 ^ 64 * (divRemLimbs other ds).2.toNat + d.toNat) other.toNat
    rw [← hval]
    calc _ = other.toNat * ((2 ^ 64 * (divRemLimbs other ds).2.toNat + d.toNat) / other.toNat) +
          (2 ^ 64 * (divRemLimbs other ds).2.toNat + d.toNat) % other.toNat +
          2 ^ 64 * (Limbs.value (divRemLimbs other ds).1 * other.toNat) := by ring
      _ = _ := by rw [hdiv]; ring

theorem divRemU64_spec (x : Uint n) {other : UInt64} (h : other ≠ 0) :
    ∃ q r, x.divRemU64 other = .ok (q, r) ∧ x.value = q.value * other.toNat + r.toNat ∧
      r.toNat < other.toNat := by
  have hpos : 0 < other.toNat := by
    rw [Nat.pos_iff_ne_zero, ne_eq, ← UInt64.toNat_zero, UInt64.toNat_inj]
    exact h
  obtain ⟨hval, hrem⟩ := divRemLimbs_value hpos x.limbs
  rw [divRemU64, if_neg (fun hc => h hc.1)]
  exact ⟨_, _, rfl, hval.symm, hrem⟩

/-- The arithmetic of `construct_uint!` other than the full product's flag: sums, differences and
products by a word are exact modulo the width with the flag set exactly when the exact result
leaves the range, the full product keeps its value modulo the width, shifts within the width
multiply and divide by powers of two, and `cmp` is the order of the values. -/
theorem uint_ops_exact (x y : Uint n) (w : UInt64) :
    ((x.overflowingAdd y).1.value = (x.value + y.value) % 2 ^ (64 * n) ∧
      ((x.overflowingAdd y).2 = true ↔ 2 ^ (64 * n) ≤ x.value + y.value)) ∧
    (((x.overflowingSub y).1.value : Int) = ((x.value : Int) - y.value) % 2 ^ (64 * n) ∧
      ((x.overflowingSub y).2 = true ↔ x.value < y.value)) ∧
    ((x.overflowingMulU64 w).1.value = x.value * w.toNat % 2 ^ (64 * n) ∧
      ((x.overflowingMulU64 w).2 = true ↔ 2 ^ (64 * n) ≤ x.value * w.toNat)) ∧
    (x.carryingMulU64 w).1.value + 2 ^ (64 * n) * (x.carryingMulU64 w).2.toNat = x.value * w.toNat ∧
    (x.overflowingMul y).1.value = x.value * y.value % 2 ^ (64 * n) ∧
    (∀ s, s < 64 * n →
      ((x.overflowingShl s).1.value = x.value * 2 ^ s % 2 ^ (64 * n) ∧ (x.overflowingShl s).2 = false) ∧
      ((x.overflowingShr s).1.value = x.value / 2 ^ s ∧ (x.overflowingShr s).2 = false)) ∧
    x.cmp y = compare x.value y.value :=
  ⟨overflowingAdd_spec x y, overflowingSub_spec x y, overflowingMulU64_spec x w,
    carryingMulU64_value x w, overflowingMul_value x y,
    fun _ hs => ⟨overflowingShl_spec x hs, overflowingShr_spec x hs⟩, cmp_eq_compare x y⟩

/-- One word, shifted by nothing. -/
theorem uint_ops_exact_one :
    0 < 64 * 1 ∧ ((((⟨[5], rfl⟩ : Uint 1).overflowingShl 0).1.value =
        (⟨[5], rfl⟩ : Uint 1).value * 2 ^ 0 % 2 ^ (64 * 1) ∧
      ((⟨[5], rfl⟩ : Uint 1).overflowingShl 0).2 = false) ∧
      (((⟨[5], rfl⟩ : Uint 1).overflowingShr 0).1.value = (⟨[5], rfl⟩ : Uint 1).value / 2 ^ 0 ∧
        ((⟨[5], rfl⟩ : Uint 1).overflowingShr 0).2 = false)) :=
  ⟨by decide, (uint_ops_exact ⟨[5], rfl⟩ ⟨[5], rfl⟩ 0).2.2.2.2.2.1 0 (by decide)⟩

end Uint

end Vecno
