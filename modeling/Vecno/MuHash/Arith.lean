import Vecno.MuHash.U3072

/-!
# `U3072` arithmetic is arithmetic modulo the prime

The limb primitives of `mul` never overflow, so `mul` reduces modulo the prime unless its left
operand is one, and `div` returns a reduced quotient under a lawful `mod_inverse`.
-/

namespace Vecno.MuHash

open Limbs Finset

/-! ### Word primitives -/

/-- The value of a three-limb carry `[low, high, carry]`. -/
def accValue (acc : UInt64 × UInt64 × UInt64) : Nat :=
  acc.1.toNat + 2 ^ 64 * (acc.2.1.toNat + 2 ^ 64 * acc.2.2.toNat)

@[simp] theorem toNat_toUInt64 (b : Bool) : b.toUInt64.toNat = b.toNat := by
  cases b <;> rfl

theorem overflowingAdd_value (a b : UInt64) :
    (overflowingAdd a b).1.toNat + 2 ^ 64 * (overflowingAdd a b).2.toNat = a.toNat + b.toNat := by
  have ha := a.toNat_lt
  have hb := b.toNat_lt
  simp only [overflowingAdd, UInt64.toNat_add]
  by_cases h : 2 ^ 64 ≤ a.toNat + b.toNat
  · simp only [h, decide_true, Bool.toNat_true]
    omega
  · simp only [h, decide_false, Bool.toNat_false]
    omega

theorem carryStep_value (low high limb : UInt64) :
    (carryStep low high limb).1.toNat + 2 ^ 64 * ((carryStep low high limb).2.1.toNat +
      2 ^ 64 * (carryStep low high limb).2.2.toNat) =
      limb.toNat + low.toNat + 2 ^ 64 * high.toNat := by
  have h1 := overflowingAdd_value low limb
  have h2 := overflowingAdd_value high (overflowingAdd low limb).2.toUInt64
  simp only [carryStep, toNat_toUInt64] at *
  omega

theorem mulWide_value (a b : UInt64) :
    (mulWide a b).1.toNat + 2 ^ 64 * (mulWide a b).2.toNat = a.toNat * b.toNat := by
  have hlt : a.toNat * b.toNat < 2 ^ 64 * 2 ^ 64 := Nat.mul_lt_mul'' a.toNat_lt b.toNat_lt
  have hhigh : a.toNat * b.toNat / 2 ^ 64 < 2 ^ 64 := Nat.div_lt_of_lt_mul hlt
  simp only [mulWide, UInt64.toNat_ofNat', Nat.shiftRight_eq_div_pow, Nat.mod_eq_of_lt hhigh]
  exact Nat.mod_add_div _ _

/-- The high limb of a limb product is at most `2 ^ 64 - 2`, so a carry bit still fits. -/
theorem mulWide_high_le (a b : UInt64) : (mulWide a b).2.toNat ≤ 2 ^ 64 - 2 := by
  have hle : a.toNat * b.toNat ≤ (2 ^ 64 - 1) * (2 ^ 64 - 1) :=
    Nat.mul_le_mul (by have := a.toNat_lt; omega) (by have := b.toNat_lt; omega)
  have h := mulWide_value a b
  omega

theorem toNat_mul_le (a b : UInt64) : a.toNat * b.toNat ≤ (2 ^ 64 - 1) * (2 ^ 64 - 1) :=
  Nat.mul_le_mul (by have := a.toNat_lt; omega) (by have := b.toNat_lt; omega)

/-- `muladd3` adds the product exactly, and fails no check, while the sum fits three limbs. -/
theorem muladd3_value (a b : UInt64) (acc : UInt64 × UInt64 × UInt64)
    (h : accValue acc + a.toNat * b.toNat < 2 ^ 192) :
    ∃ r, muladd3 a b acc = .ok r ∧ accValue r = accValue acc + a.toNat * b.toNat := by
  obtain ⟨low, high, carry⟩ := acc
  have hw := mulWide_value a b
  have hth := mulWide_high_le a b
  simp only [muladd3]
  generalize mulWide a b = m at hw hth ⊢
  obtain ⟨tl, th⟩ := m
  dsimp only at hw hth ⊢
  have h1 := overflowingAdd_value low tl
  generalize overflowingAdd low tl = o1 at h1 ⊢
  obtain ⟨l1, b1⟩ := o1
  dsimp only at h1 ⊢
  -- the high limb of a product has room for the carry bit
  have hth1 : th.toNat + b1.toNat < 2 ^ 64 := by
    have := Bool.toNat_le b1
    omega
  rw [Checked.add_of_lt (by rwa [toNat_toUInt64]), Except.ok_bind]
  have h2 := overflowingAdd_value high (UInt64.ofNat (th.toNat + b1.toUInt64.toNat))
  generalize overflowingAdd high (UInt64.ofNat (th.toNat + b1.toUInt64.toNat)) = o2 at h2 ⊢
  obtain ⟨l2, b2⟩ := o2
  dsimp only at h2 ⊢
  simp only [UInt64.toNat_ofNat', Nat.mod_eq_of_lt hth1, toNat_toUInt64] at h1 h2 hw hth
  -- the carry limb has room for the second carry bit because the whole sum fits
  have hcarry : carry.toNat + b2.toNat < 2 ^ 64 := by
    simp only [accValue] at h
    have := l1.toNat_lt
    have := l2.toNat_lt
    omega
  rw [Checked.add_of_lt (by rwa [toNat_toUInt64]), Except.ok_bind]
  refine ⟨_, rfl, ?_⟩
  simp only [accValue, UInt64.toNat_ofNat', toNat_toUInt64, Nat.mod_eq_of_lt hcarry]
  omega

/-- `mulnadd3` is exact, and fails no check, while the sum fits three limbs. -/
theorem mulnadd3_value (c0 c1 : UInt64) (d : UInt64 × UInt64 × UInt64) (n : UInt64)
    (h : c0.toNat + 2 ^ 64 * c1.toNat + accValue d * n.toNat < 2 ^ 192) :
    ∃ r, mulnadd3 c0 c1 d n = .ok r ∧
      accValue r = c0.toNat + 2 ^ 64 * c1.toNat + accValue d * n.toNat := by
  obtain ⟨d0, d1, d2⟩ := d
  have hd : accValue (d0, d1, d2) * n.toNat =
      d0.toNat * n.toNat + 2 ^ 64 * (d1.toNat * n.toNat) + 2 ^ 128 * (d2.toNat * n.toNat) := by
    simp only [accValue]
    ring
  rw [hd] at h ⊢
  have h0 := d0.toNat_lt
  have h1 := d1.toNat_lt
  have hc0 := c0.toNat_lt
  have hc1 := c1.toNat_lt
  have hn := n.toNat_lt
  -- the two `u128` sums stay below `2 ^ 128`, so the limb above them fits a limb
  have hp0 : d0.toNat * n.toNat ≤ (2 ^ 64 - 1) * (2 ^ 64 - 1) := toNat_mul_le d0 n
  have hp1 : d1.toNat * n.toNat ≤ (2 ^ 64 - 1) * (2 ^ 64 - 1) := toNat_mul_le d1 n
  have hmul : d2.toNat * n.toNat < 2 ^ 64 := by omega
  simp only [mulnadd3, Nat.shiftRight_eq_div_pow]
  rw [Checked.mul_of_lt hmul, Except.ok_bind, Checked.add_of_lt ?hadd, Except.ok_bind]
  · refine ⟨_, rfl, ?_⟩
    simp only [accValue, UInt64.toNat_ofNat']
    omega
  · simp only [UInt64.toNat_ofNat']
    omega

theorem muln2_value (low high n : UInt64)
    (h : (low.toNat + 2 ^ 64 * high.toNat) * n.toNat < 2 ^ 128) :
    (muln2 low high n).1.toNat + 2 ^ 64 * (muln2 low high n).2.toNat =
      (low.toNat + 2 ^ 64 * high.toNat) * n.toNat := by
  rw [Nat.add_mul, Nat.mul_assoc] at h ⊢
  simp only [muln2, UInt64.toNat_ofNat', Nat.shiftRight_eq_div_pow]
  omega

/-- A run of `muladd3` over limb pairs adds their products, and no check fails while the total
fits three limbs. -/
theorem foldlM_muladd3 (f g : Nat → UInt64) :
    ∀ (n s : Nat) (acc : UInt64 × UInt64 × UInt64),
      accValue acc + n * ((2 ^ 64 - 1) * (2 ^ 64 - 1)) < 2 ^ 192 →
      ∃ r, (List.range' s n).foldlM (fun acc i => muladd3 (f i) (g i) acc) acc = .ok r ∧
        accValue r = accValue acc + ∑ k ∈ range n, (f (s + k)).toNat * (g (s + k)).toNat
  | 0, s, acc, _ => ⟨acc, rfl, by simp⟩
  | n + 1, s, acc, h => by
    have hterm := toNat_mul_le (f s) (g s)
    obtain ⟨r1, h1, hv1⟩ := muladd3_value (f s) (g s) acc (by rw [Nat.succ_mul] at h; omega)
    obtain ⟨r2, h2, hv2⟩ := foldlM_muladd3 f g n (s + 1) r1 (by rw [Nat.succ_mul] at h; omega)
    refine ⟨r2, ?_, ?_⟩
    · rw [List.range'_succ, List.foldlM_cons, h1, Except.ok_bind, h2]
    · have hshift : ∑ k ∈ range n, (f (s + (k + 1))).toNat * (g (s + (k + 1))).toNat =
          ∑ k ∈ range n, (f (s + 1 + k)).toNat * (g (s + 1 + k)).toNat :=
        sum_congr rfl fun k _ => by rw [Nat.add_comm k 1, Nat.add_assoc]
      rw [hv2, hv1, sum_range_succ', hshift]
      simp only [Nat.add_zero]
      omega

/-! ### Limbs and values -/

theorem primeDiff_toNat : primeDiff.toNat = 1103717 := rfl

theorem prime_lt : prime < 2 ^ 3072 := by
  rw [prime, primeDiff_toNat]
  exact Nat.sub_lt (Nat.two_pow_pos _) (by decide)

theorem primeDiff_lt : primeDiff.toNat < 2 ^ 3072 := by
  rw [primeDiff_toNat]
  exact Nat.lt_of_lt_of_le (by decide : 1103717 < 2 ^ 21) (Nat.pow_le_pow_right (by decide) (by decide))

theorem prime_pos : 0 < prime := Nat.sub_pos_of_lt primeDiff_lt

namespace U3072

@[simp] theorem length_limbs (x : U3072) : x.limbs.toList.length = numLimbs :=
  x.limbs.length_toList

theorem toNat_limb (x : U3072) (i : Nat) : (x.limb i).toNat = digit x.limbs.toList i := rfl

@[simp] theorem set_limbs (x : U3072) (i : Nat) (v : UInt64) :
    (x.set i v).limbs.toList = x.limbs.toList.set i v :=
  Vector.toList_setIfInBounds

theorem value_lt (x : U3072) : x.value < 2 ^ 3072 := by
  have h := Limbs.value_lt x.limbs.toList
  rwa [length_limbs] at h

/-- Two `U3072`s of one value are equal: the limbs are the digits of the value. -/
theorem ext_value {x y : U3072} (h : x.value = y.value) : x = y := by
  have hl : x.limbs.toList = y.limbs.toList := Limbs.value_inj (by simp) h
  cases x
  cases y
  exact congrArg U3072.mk (Vector.toList_inj.mp hl)

theorem value_one : one.value = 1 := by decide

theorem value_zero : zero.value = 0 := by decide

theorem isOverflow_iff (x : U3072) : x.isOverflow = true ↔ prime ≤ x.value := by
  obtain ⟨l0, rest, hx⟩ : ∃ l0 rest, x.limbs.toList = l0 :: rest :=
    List.exists_cons_of_length_pos (l := x.limbs.toList) (by rw [length_limbs]; decide)
  have hlen : rest.length = 47 := by
    have h := length_limbs x
    rw [hx, List.length_cons] at h
    exact Nat.succ.inj h
  have hrest := Limbs.value_lt rest
  have hl0 := l0.toNat_lt
  rw [hlen] at hrest
  have hval : x.value = l0.toNat + 2 ^ 64 * Limbs.value rest := by rw [U3072.value, hx, value_cons]
  -- the limbs above the lowest are all at their maximum exactly when they spell `2 ^ 3008 - 1`
  have hall : rest.all (· == limbMax) = true ↔ Limbs.value rest = 2 ^ (64 * 47) - 1 := by
    constructor
    · intro h
      have hrep : rest = List.replicate 47 limbMax :=
        List.eq_replicate_iff.mpr ⟨hlen, by simpa using h⟩
      rw [hrep]
      exact value_replicate_max 47
    · intro h
      have hrep : rest = List.replicate 47 limbMax :=
        value_inj (by simp [hlen]) (h.trans (value_replicate_max 47).symm)
      simp [hrep]
  have hmax : (limbMax - primeDiff).toNat = 2 ^ 64 - 1 - 1103717 := rfl
  simp only [isOverflow, limb, hx, List.getD_cons_zero, List.drop_one, List.tail_cons,
    UInt64.le_iff_toNat_le, hmax, hval, prime, primeDiff_toNat]
  split_ifs with hle
  · simp only [false_iff, not_le]
    omega
  · rw [hall]
    constructor
    · intro h
      omega
    · intro h
      omega

/-! ### The carry loop and `full_reduce` -/

/-- The carry loop adds the carry into `src`: what it writes and the carry left over hold the
value of `src` plus the carry. -/
theorem carryLoop_value (src dst : U3072) (low high : UInt64) :
    (carryLoop src low high dst).2.2.value + 2 ^ 3072 * ((carryLoop src low high dst).1.toNat +
      2 ^ 64 * (carryLoop src low high dst).2.1.toNat) =
      src.value + low.toNat + 2 ^ 64 * high.toNat := by
  -- after `j` passes, limbs below `j` are written and the others are those of `dst`
  let P := fun j (st : UInt64 × UInt64 × U3072) =>
    st.2.2.limbs.toList.drop j = dst.limbs.toList.drop j ∧
    Limbs.value (st.2.2.limbs.toList.take j) + 2 ^ (64 * j) * (st.1.toNat + 2 ^ 64 * st.2.1.toNat) =
      Limbs.value (src.limbs.toList.take j) + low.toNat + 2 ^ 64 * high.toNat
  have hloop : P numLimbs (carryLoop src low high dst) :=
    List.foldl_range_induction P ⟨rfl, by simp⟩ ?step
  · obtain ⟨-, hv⟩ := hloop
    rw [List.take_of_length_le (by simp), List.take_of_length_le (by simp)] at hv
    exact hv
  · intro j st hj ⟨hdrop, hv⟩
    obtain ⟨lo, hi, d⟩ := st
    have hjd : j < d.limbs.toList.length := by simpa using hj
    have hstep := carryStep_value lo hi (src.limb j)
    refine ⟨?_, ?_⟩
    · simp only [set_limbs, drop_succ_set, ← List.drop_drop, hdrop]
    · simp only [set_limbs, take_succ_set hjd, value_append, List.length_take_of_le hjd.le,
        value_cons, value_nil, Nat.mul_zero, Nat.add_zero]
      rw [value_take_succ (by simpa using hj), ← toNat_limb, Nat.mul_succ, pow_add]
      dsimp only at hv
      -- the pass adds the limb at weight `2 ^ (64 * j)`
      have hpass := congrArg (2 ^ (64 * j) * ·) hstep
      linarith

theorem value_fullReduce (x : U3072) :
    x.fullReduce.value = (x.value + primeDiff.toNat) % 2 ^ 3072 := by
  have h := carryLoop_value x x primeDiff 0
  have hlt := value_lt (carryLoop x primeDiff 0 x).2.2
  rw [UInt64.toNat_zero, Nat.mul_zero, Nat.add_zero] at h
  rw [fullReduce, ← h, Nat.add_mul_mod_self_left, Nat.mod_eq_of_lt hlt]

end U3072

/-! ### The first loop of `mul` -/

/-- Column `k` of the product of the limbs of `a` and `b`. -/
def col (a b : U3072) (k : Nat) : Nat := column a.limbs.toList b.limbs.toList k

/-- The bound on a product of two limbs. -/
def limbProductMax : Nat := (2 ^ 64 - 1) * (2 ^ 64 - 1)

/-- What the first loop of `mul` has computed after `j` passes: the limbs below `j` of `tmp` and
the two low carry limbs hold columns `0 .. j - 1` of the product, each with column `LIMBS + t`
folded in times `PRIME_DIFF`; the top carry limb is clear and `tmp` is untouched from `j` up. -/
structure MulInv (a b : U3072) (j : Nat) (st : MulState) : Prop where
  carryHighest_eq : st.carryHighest = 0
  drop_eq : st.tmp.limbs.toList.drop j = U3072.one.limbs.toList.drop j
  value_eq : Limbs.value (st.tmp.limbs.toList.take j) +
      2 ^ (64 * j) * (st.carryLow.toNat + 2 ^ 64 * st.carryHigh.toNat) =
    ∑ t ∈ range j, (col a b t + primeDiff.toNat * col a b (numLimbs + t)) * 2 ^ (64 * t)

theorem mulInv_init (a b : U3072) : MulInv a b 0 ⟨0, 0, 0, U3072.one⟩ :=
  ⟨rfl, rfl, by simp⟩

theorem accValue_mulWide (x y : UInt64) :
    accValue ((mulWide x y).1, (mulWide x y).2, 0) = x.toNat * y.toNat := by
  have h := mulWide_value x y
  simp only [accValue, UInt64.toNat_zero, Nat.mul_zero, Nat.add_zero]
  exact h

theorem mulStep_high (a b : U3072) {j : Nat} (hj : j + 1 < numLimbs) :
    ∃ acc, (List.range' (2 + j) (numLimbs - (2 + j))).foldlM
        (fun acc i => muladd3 (a.limb i) (b.limb (numLimbs + j - i)) acc)
        ((mulWide (a.limb (j + 1)) (b.limb (numLimbs + j - (1 + j)))).1,
          (mulWide (a.limb (j + 1)) (b.limb (numLimbs + j - (1 + j)))).2, 0) = .ok acc ∧
      accValue acc = col a b (numLimbs + j) := by
  have h0 := accValue_mulWide (a.limb (j + 1)) (b.limb (numLimbs + j - (1 + j)))
  have hfirst := toNat_mul_le (a.limb (j + 1)) (b.limb (numLimbs + j - (1 + j)))
  have hn : numLimbs - (2 + j) ≤ 46 := by simp only [numLimbs]; omega
  obtain ⟨acc, hacc, hv⟩ := foldlM_muladd3 (fun i => a.limb i) (fun i => b.limb (numLimbs + j - i))
    (numLimbs - (2 + j)) (2 + j)
    ((mulWide (a.limb (j + 1)) (b.limb (numLimbs + j - (1 + j)))).1,
      (mulWide (a.limb (j + 1)) (b.limb (numLimbs + j - (1 + j)))).2, 0)
    (by rw [h0]; omega)
  refine ⟨acc, hacc, ?_⟩
  -- the loop starts at index `j + 2`; the product of `mul_wide` is the term at `j + 1`
  have hshift : ∑ k ∈ range (numLimbs - (2 + j)),
      (a.limb (2 + j + k)).toNat * (b.limb (numLimbs + j - (2 + j + k))).toNat =
      ∑ k ∈ range (numLimbs - (2 + j)),
        digit a.limbs.toList (j + 1 + (k + 1)) *
          digit b.limbs.toList (numLimbs + j - (j + 1 + (k + 1))) :=
    sum_congr rfl fun k _ => by
      rw [U3072.toNat_limb, U3072.toNat_limb, show 2 + j + k = j + 1 + (k + 1) by omega]
  rw [hv, hshift, col, column_eq_high (by simp) (by simp) (by omega),
    show numLimbs - (j + 1) = numLimbs - (2 + j) + 1 by omega, sum_range_succ', h0, Nat.add_comm,
    U3072.toNat_limb, U3072.toNat_limb, Nat.add_zero,
    show numLimbs + j - (1 + j) = numLimbs + j - (j + 1) by omega]

theorem col_le (a b : U3072) (k : Nat) : col a b k ≤ (k + 1) * limbProductMax := by
  have h : ∑ i ∈ range (k + 1), digit a.limbs.toList i * digit b.limbs.toList (k - i) ≤
      ∑ _i ∈ range (k + 1), limbProductMax :=
    sum_le_sum fun i _ => toNat_mul_le (a.limb i) (b.limb (k - i))
  rwa [sum_const, card_range, smul_eq_mul] at h

theorem foldlM_muladd3_low (a b : U3072) (j : Nat) (acc : UInt64 × UInt64 × UInt64)
    (h : accValue acc + (j + 1) * limbProductMax < 2 ^ 192) :
    ∃ r, (List.range (j + 1)).foldlM (fun acc i => muladd3 (a.limb i) (b.limb (j - i)) acc) acc =
      .ok r ∧ accValue r = accValue acc + col a b j := by
  obtain ⟨r, hr, hv⟩ := foldlM_muladd3 (fun i => a.limb i) (fun i => b.limb (j - i)) (j + 1) 0 acc h
  refine ⟨r, by rw [List.range_eq_range']; exact hr, ?_⟩
  simp only [Nat.zero_add, U3072.toNat_limb] at hv
  exact hv

theorem mulStep_eq (a b : U3072) (st : MulState) (j : Nat) :
    mulStep a b st j =
      ((List.range' (2 + j) (numLimbs - (2 + j))).foldlM
        (fun acc i => muladd3 (a.limb i) (b.limb (numLimbs + j - i)) acc)
        ((mulWide (a.limb (j + 1)) (b.limb (numLimbs + j - (1 + j)))).1,
          (mulWide (a.limb (j + 1)) (b.limb (numLimbs + j - (1 + j)))).2, 0) >>= fun acc =>
      mulnadd3 st.carryLow st.carryHigh acc primeDiff >>= fun carry =>
      (List.range (j + 1)).foldlM (fun carry i => muladd3 (a.limb i) (b.limb (j - i)) carry) carry
        >>= fun carry => pure ⟨carry.2.1, carry.2.2, 0, st.tmp.set j carry.1⟩) :=
  rfl

/-- A pass of the first loop of `mul` keeps its invariant and fails no check. -/
theorem MulInv.step {a b : U3072} {j : Nat} {st : MulState} (hj : j + 1 < numLimbs)
    (h : MulInv a b j st) : ∃ st', mulStep a b st j = .ok st' ∧ MulInv a b (j + 1) st' := by
  obtain ⟨acc, hacc, hvacc⟩ := mulStep_high a b hj
  have hhi := col_le a b (numLimbs + j)
  have hlo := col_le a b j
  have hcl := st.carryLow.toNat_lt
  have hch := st.carryHigh.toNat_lt
  have hN : numLimbs + j + 1 ≤ 96 := by simp only [numLimbs] at hj ⊢; omega
  -- the carry, the folded high column and the low column stay far below three limbs
  have hhiM : col a b (numLimbs + j) * primeDiff.toNat ≤ 96 * limbProductMax * 1103717 := by
    rw [primeDiff_toNat]
    exact Nat.mul_le_mul_right _ (hhi.trans (Nat.mul_le_mul_right _ hN))
  have hloM : (j + 1) * limbProductMax ≤ 96 * limbProductMax :=
    Nat.mul_le_mul_right _ (by omega)
  obtain ⟨c1, hc1, hv1⟩ := mulnadd3_value st.carryLow st.carryHigh acc primeDiff
    (by rw [hvacc]; simp only [limbProductMax] at hhiM; omega)
  obtain ⟨c2, hc2, hv2⟩ := foldlM_muladd3_low a b j c1
    (by rw [hv1, hvacc]; simp only [limbProductMax] at hhiM hloM ⊢; omega)
  refine ⟨⟨c2.2.1, c2.2.2, 0, st.tmp.set j c2.1⟩, ?_, rfl, ?_, ?_⟩
  · rw [mulStep_eq, hacc, Except.ok_bind, hc1, Except.ok_bind, hc2, Except.ok_bind]
    rfl
  · simp only [U3072.set_limbs, drop_succ_set, ← List.drop_drop, h.drop_eq]
  · have hjt : j < st.tmp.limbs.toList.length := by simp only [U3072.length_limbs]; omega
    simp only [U3072.set_limbs, take_succ_set hjt, value_append, List.length_take_of_le hjt.le,
      value_cons, value_nil, Nat.mul_zero, Nat.add_zero, sum_range_succ, ← h.value_eq,
      Nat.mul_succ, pow_add]
    -- the pass adds columns `j` and `LIMBS + j` at weight `2 ^ (64 * j)`
    have hsum : accValue c2 = st.carryLow.toNat + 2 ^ 64 * st.carryHigh.toNat +
        col a b (numLimbs + j) * primeDiff.toNat + col a b j := by
      rw [hv2, hv1, hvacc]
    have hpass := congrArg (2 ^ (64 * j) * ·) hsum
    simp only [accValue] at hpass
    linarith

/-- The first loop of `mul` fails no check and ends with its invariant at `LIMBS - 1` passes. -/
theorem mulLoop_inv (a b : U3072) :
    ∃ st, (List.range (numLimbs - 1)).foldlM (mulStep a b) ⟨0, 0, 0, U3072.one⟩ = .ok st ∧
      MulInv a b (numLimbs - 1) st :=
  Except.foldlM_range_induction (MulInv a b) (mulInv_init a b) fun _ _ hj h => h.step (by omega)

/-! ### Folding the upper columns back -/

/-- The columns of the first loop and the last column, with every column from `LIMBS` up folded
back times `PRIME_DIFF`, are the product modulo the prime. -/
theorem foldedColumns_modEq (a b : U3072) :
    (∑ t ∈ range (numLimbs - 1),
        (col a b t + primeDiff.toNat * col a b (numLimbs + t)) * 2 ^ (64 * t)) +
      col a b (numLimbs - 1) * 2 ^ (64 * (numLimbs - 1)) ≡ a.value * b.value [MOD prime] := by
  have hsplit : ∀ f : Nat → Nat,
      ∑ t ∈ range numLimbs, f t = ∑ t ∈ range (numLimbs - 1), f t + f (numLimbs - 1) :=
    fun f => sum_range_succ f (numLimbs - 1)
  have hbits : 64 * numLimbs = 3072 := by simp only [numLimbs]
  have hprod := value_mul_split (U3072.length_limbs a) (U3072.length_limbs b)
    (by decide : 0 < numLimbs)
  have hleft : (∑ t ∈ range (numLimbs - 1),
        (col a b t + primeDiff.toNat * col a b (numLimbs + t)) * 2 ^ (64 * t)) +
      col a b (numLimbs - 1) * 2 ^ (64 * (numLimbs - 1)) =
      ∑ t ∈ range numLimbs, col a b t * 2 ^ (64 * t) +
        primeDiff.toNat * ∑ t ∈ range (numLimbs - 1), col a b (numLimbs + t) * 2 ^ (64 * t) := by
    simp only [Nat.add_mul, sum_add_distrib, mul_sum, Nat.mul_assoc, hsplit]
    omega
  -- the modulus is `2 ^ (64 * LIMBS) - PRIME_DIFF`, kept symbolic so that no check evaluates it
  have hprime : prime = 2 ^ (64 * numLimbs) - primeDiff.toNat := by rw [hbits]; rfl
  have hle : primeDiff.toNat ≤ 2 ^ (64 * numLimbs) := by rw [hbits]; exact primeDiff_lt.le
  rw [hleft, U3072.value, U3072.value, hprod, hprime]
  exact (add_mul_modEq _ _ hle).symm

/-! ### The last column and the second reduction -/

/-- Every column of the product of two `LIMBS`-limb numbers has at most `2 * LIMBS` products. -/
theorem col_le_max (a b : U3072) {k : Nat} (hk : k < 2 * numLimbs) :
    col a b k ≤ 96 * limbProductMax :=
  (col_le a b k).trans (Nat.mul_le_mul_right _ (by simp only [numLimbs] at hk; omega))

theorem lastColumn_value {a b : U3072} {st : MulState} (hinv : MulInv a b (numLimbs - 1) st) :
    ∃ c, (List.range numLimbs).foldlM
        (fun carry i => muladd3 (a.limb i) (b.limb (numLimbs - 1 - i)) carry)
        (st.carryLow, st.carryHigh, st.carryHighest) = .ok c ∧
      accValue c = st.carryLow.toNat + 2 ^ 64 * st.carryHigh.toNat + col a b (numLimbs - 1) := by
  have hcl := st.carryLow.toNat_lt
  have hch := st.carryHigh.toNat_lt
  have hacc : accValue (st.carryLow, st.carryHigh, st.carryHighest) =
      st.carryLow.toNat + 2 ^ 64 * st.carryHigh.toNat := by
    simp only [accValue, hinv.carryHighest_eq, UInt64.toNat_zero, Nat.mul_zero, Nat.add_zero]
  obtain ⟨c, hc, hv⟩ := foldlM_muladd3_low a b (numLimbs - 1)
    (st.carryLow, st.carryHigh, st.carryHighest)
    (by rw [hacc]; simp only [numLimbs, limbProductMax]; omega)
  exact ⟨c, hc, by rw [hv, hacc]⟩

theorem U3072.value_set_last (x : U3072) (v : UInt64) :
    (x.set (numLimbs - 1) v).value =
      Limbs.value (x.limbs.toList.take (numLimbs - 1)) + 2 ^ (64 * (numLimbs - 1)) * v.toNat := by
  have hlt : numLimbs - 1 < x.limbs.toList.length := by
    rw [U3072.length_limbs]
    exact Nat.sub_one_lt (by decide)
  have hfull : (x.limbs.toList.set (numLimbs - 1) v).take (numLimbs - 1 + 1) =
      x.limbs.toList.set (numLimbs - 1) v :=
    List.take_of_length_le (by rw [List.length_set, U3072.length_limbs]; omega)
  rw [U3072.value, U3072.set_limbs, ← hfull, take_succ_set hlt, value_append,
    List.length_take_of_le hlt.le, value_cons, value_nil, Nat.mul_zero, Nat.add_zero]

/-- A carry `C` above a sum of columns each below a bound is below that bound over `2 ^ 64`. -/
theorem carry_lt_of_fold {v S X C K L c : Nat} (h : v + X * (2 ^ 64 * C) = S + c * X)
    (hS : S < K * X) (hc : c ≤ L) : 2 ^ 64 * C < K + L := by
  have hcX : c * X ≤ L * X := Nat.mul_le_mul_right X hc
  have hlt : X * (2 ^ 64 * C) < X * (K + L) := by
    rw [Nat.mul_add, Nat.mul_comm X K, Nat.mul_comm X L]
    omega
  exact Nat.lt_of_mul_lt_mul_left hlt

/-- After the last column, `tmp` and the carry out of its top limb hold the folded product, and
that carry is below `2 ^ 92`. -/
theorem mulFold {a b : U3072} {st : MulState} (hinv : MulInv a b (numLimbs - 1) st)
    {c : UInt64 × UInt64 × UInt64}
    (hc : accValue c = st.carryLow.toNat + 2 ^ 64 * st.carryHigh.toNat + col a b (numLimbs - 1)) :
    (st.tmp.set (numLimbs - 1) c.1).value + 2 ^ 3072 * (c.2.1.toNat + 2 ^ 64 * c.2.2.toNat) ≡
        a.value * b.value [MOD prime] ∧
      c.2.1.toNat + 2 ^ 64 * c.2.2.toNat < 2 ^ 92 := by
  have hweight : 2 ^ (64 * (numLimbs - 1)) * 2 ^ 64 = 2 ^ 3072 := by
    rw [← pow_add, show 64 * (numLimbs - 1) + 64 = 3072 by simp only [numLimbs]]
  have hv := hinv.value_eq
  have hval := U3072.value_set_last st.tmp c.1
  have hfold := foldedColumns_modEq a b
  have hgeom := sum_two_pow_lt (numLimbs - 1)
  -- the weights stay variables, so that no rewrite or unification evaluates them
  generalize 2 ^ (64 * (numLimbs - 1)) = X at hweight hv hval hfold hgeom
  generalize (2 : Nat) ^ 3072 = B at hweight ⊢
  have hcarry : X * accValue c = X * c.1.toNat + X * (2 ^ 64 * (c.2.1.toNat + 2 ^ 64 * c.2.2.toNat)) :=
    Nat.mul_add _ _ _
  have hcols : X * accValue c = X * (st.carryLow.toNat + 2 ^ 64 * st.carryHigh.toNat) +
      col a b (numLimbs - 1) * X := by
    rw [hc, Nat.mul_add, Nat.mul_comm X (col a b _)]
  -- the folded product, read two ways: from the invariant, and as `tmp` with the carry above it
  have hT : (st.tmp.set (numLimbs - 1) c.1).value +
      X * (2 ^ 64 * (c.2.1.toNat + 2 ^ 64 * c.2.2.toNat)) =
      ∑ t ∈ range (numLimbs - 1),
        (col a b t + primeDiff.toNat * col a b (numLimbs + t)) * 2 ^ (64 * t) +
      col a b (numLimbs - 1) * X := by
    omega
  constructor
  · have heq : (st.tmp.set (numLimbs - 1) c.1).value + B * (c.2.1.toNat + 2 ^ 64 * c.2.2.toNat) =
        ∑ t ∈ range (numLimbs - 1),
          (col a b t + primeDiff.toNat * col a b (numLimbs + t)) * 2 ^ (64 * t) +
        col a b (numLimbs - 1) * X := by
      rw [← hweight, Nat.mul_assoc]
      exact hT
    rw [heq]
    exact hfold
  · -- every column is small, so the folded sum stays below `X` times a fixed bound
    have hK : ∀ t < numLimbs - 1, col a b t + primeDiff.toNat * col a b (numLimbs + t) ≤
        (1 + primeDiff.toNat) * (96 * limbProductMax) := fun t ht => by
      have h1 := col_le_max a b (k := t) (by omega)
      have h2 := col_le_max a b (k := numLimbs + t) (by omega)
      rw [Nat.add_mul, Nat.one_mul]
      exact Nat.add_le_add h1 (Nat.mul_le_mul_left _ h2)
    have hS := (sum_mul_two_pow_le (c := fun t => col a b t + primeDiff.toNat * col a b (numLimbs + t))
      _ hK).trans_lt (Nat.mul_lt_mul_of_pos_left hgeom (by simp only [limbProductMax]; omega))
    have hC := carry_lt_of_fold hT hS (col_le_max a b (by simp only [numLimbs]; omega))
    simp only [primeDiff_toNat, limbProductMax] at hC
    omega

/-- The second reduction adds the carry, times `PRIME_DIFF`, into `tmp`: for a carry below
`2 ^ 113` what is left over is at most one, and when it is one the limbs written are small. -/
theorem secondReduction (tmp dst : U3072) {low high : UInt64} {D : Nat}
    (hD : low.toNat + 2 ^ 64 * high.toNat = D) (hlt : D < 2 ^ 113) :
    (carryLoop tmp low high dst).2.1 = 0 ∧
      ((carryLoop tmp low high dst).1 = 0 ∨ (carryLoop tmp low high dst).1 = 1) ∧
      ((carryLoop tmp low high dst).1 = 1 →
        (carryLoop tmp low high dst).2.2.value + primeDiff.toNat < prime) ∧
      (carryLoop tmp low high dst).2.2.value + 2 ^ 3072 * (carryLoop tmp low high dst).1.toNat =
        tmp.value + D := by
  have h := U3072.carryLoop_value tmp dst low high
  have htmp := tmp.value_lt
  have hbig : 2 ^ 114 ≤ 2 ^ 3072 := Nat.pow_le_pow_right (by decide) (by decide)
  have hprime : prime = 2 ^ 3072 - primeDiff.toNat := rfl
  generalize carryLoop tmp low high dst = r at h ⊢
  obtain ⟨l, hh, res⟩ := r
  dsimp only at h ⊢
  rw [primeDiff_toNat] at hprime ⊢
  generalize (2 : Nat) ^ 3072 = B at h htmp hbig hprime ⊢
  -- the carry left over is below two, since `tmp` and the added carry are below `2 * B`
  have hs : B * (l.toNat + 2 ^ 64 * hh.toNat) < B * 2 := by omega
  have hs2 := Nat.lt_of_mul_lt_mul_left hs
  have hhigh : hh.toNat = 0 := by omega
  have hlow : l.toNat ≤ 1 := by omega
  rw [hhigh, Nat.mul_zero, Nat.add_zero] at h
  refine ⟨UInt64.toNat_inj.mp hhigh, ?_, ?_, by omega⟩
  · rcases Nat.le_one_iff_eq_zero_or_eq_one.mp hlow with h0 | h1
    · exact .inl (UInt64.toNat_inj.mp h0)
    · exact .inr (UInt64.toNat_inj.mp h1)
  · rintro rfl
    simp only [UInt64.toNat_one, Nat.mul_one] at h
    omega

/-- The `is_overflow` test with its `full_reduce` reduces modulo the prime. -/
theorem U3072.value_reduce (x : U3072) :
    (if x.isOverflow then x.fullReduce else x).value = x.value % prime := by
  have hlt := x.value_lt
  have hprime : prime = 2 ^ 3072 - primeDiff.toNat := rfl
  have hbig : 2 ^ 114 ≤ 2 ^ 3072 := Nat.pow_le_pow_right (by decide) (by decide)
  by_cases h : prime ≤ x.value
  · rw [if_pos (x.isOverflow_iff.mpr h), value_fullReduce]
    rw [primeDiff_toNat] at hprime ⊢
    generalize (2 : Nat) ^ 3072 = B at hlt hprime hbig ⊢
    have h1 : B ≤ x.value + 1103717 := by omega
    have h2 : x.value + 1103717 - B < B := by omega
    have h3 : x.value - prime < prime := by omega
    rw [Nat.mod_eq_sub_mod h1, Nat.mod_eq_of_lt h2, Nat.mod_eq_sub_mod h, Nat.mod_eq_of_lt h3]
    omega
  · have hx : x.value < prime := by omega
    rw [if_neg fun h' => h (x.isOverflow_iff.mp h'), Nat.mod_eq_of_lt hx]

/-- The two reductions at the end of `mul`: the result is the value with the carry left over,
reduced modulo the prime. -/
theorem finalReduce_value (res : U3072) {l : UInt64} (hl : l = 0 ∨ l = 1)
    (hsmall : l = 1 → res.value + primeDiff.toNat < prime) :
    (if l ≠ 0 then (if res.isOverflow then res.fullReduce else res).fullReduce
      else if res.isOverflow then res.fullReduce else res).value =
      (res.value + 2 ^ 3072 * l.toNat) % prime := by
  rcases hl with rfl | rfl
  · rw [if_neg (not_not.mpr rfl), U3072.value_reduce, UInt64.toNat_zero, Nat.mul_zero, Nat.add_zero]
  · have hres := hsmall rfl
    have hprime : prime = 2 ^ 3072 - primeDiff.toNat := rfl
    have hd := primeDiff_lt
    have hx : res.value < prime := by omega
    rw [if_pos (by decide), if_neg fun h' => absurd (res.isOverflow_iff.mp h') (by omega),
      U3072.value_fullReduce, UInt64.toNat_one, Nat.mul_one]
    generalize (2 : Nat) ^ 3072 = B at hprime hd ⊢
    have h1 : res.value + primeDiff.toNat < B := by omega
    have h2 : res.value + B = res.value + primeDiff.toNat + prime := by omega
    rw [Nat.mod_eq_of_lt h1, h2, Nat.add_mod_right, Nat.mod_eq_of_lt hres]

/-! ### `mul` and `div` -/

/-- `mul` with a left operand other than one, as the chain of its steps. -/
theorem mul_eq (a b : U3072) (ha : a ≠ U3072.one) :
    a.mul b = ((List.range (numLimbs - 1)).foldlM (mulStep a b) ⟨0, 0, 0, U3072.one⟩ >>= fun st =>
      if st.carryHighest ≠ 0 then throw (Checked.assertEqFailed st.carryHighest.toNat 0)
      else (List.range numLimbs).foldlM
          (fun carry i => muladd3 (a.limb i) (b.limb (numLimbs - 1 - i)) carry)
          (st.carryLow, st.carryHigh, st.carryHighest) >>= fun carry =>
        let (low, high) := muln2 carry.2.1 carry.2.2 primeDiff
        let (low, high, res) := carryLoop (st.tmp.set (numLimbs - 1) carry.1) low high a
        if high ≠ 0 then throw (Checked.assertEqFailed high.toNat 0)
        else if ¬(low = 0 ∨ low = 1) then throw "assertion failed: carry_low == 0 || carry_low == 1"
        else pure (if low ≠ 0 then (if res.isOverflow then res.fullReduce else res).fullReduce
          else if res.isOverflow then res.fullReduce else res)) := by
  rw [U3072.mul, if_neg ha]
  rfl

/-- `mul` with a left operand other than one fails no check and returns the product reduced
modulo the prime. -/
theorem mul_value (a b : U3072) (ha : a ≠ U3072.one) :
    ∃ r, a.mul b = .ok r ∧ r.value = a.value * b.value % prime := by
  obtain ⟨st, hloop, hinv⟩ := mulLoop_inv a b
  obtain ⟨c, hc, hvc⟩ := lastColumn_value hinv
  obtain ⟨hfold, hC⟩ := mulFold hinv hvc
  rw [mul_eq a b ha, hloop, Except.ok_bind, if_neg (not_not.mpr hinv.carryHighest_eq), hc,
    Except.ok_bind]
  -- the carry out of the top limb, times `PRIME_DIFF`, fits two limbs
  have hD : (c.2.1.toNat + 2 ^ 64 * c.2.2.toNat) * primeDiff.toNat < 2 ^ 113 := by
    rw [primeDiff_toNat]
    omega
  have hm := muln2_value c.2.1 c.2.2 primeDiff (hD.trans (by decide))
  generalize muln2 c.2.1 c.2.2 primeDiff = m at hm ⊢
  obtain ⟨lo, hi⟩ := m
  dsimp only at hm ⊢
  obtain ⟨hh0, hl, hsmall, hval⟩ := secondReduction (st.tmp.set (numLimbs - 1) c.1) a hm hD
  generalize carryLoop (st.tmp.set (numLimbs - 1) c.1) lo hi a = r at hh0 hl hsmall hval ⊢
  obtain ⟨l, h, res⟩ := r
  dsimp only at hh0 hl hsmall hval ⊢
  rw [if_neg (not_not.mpr hh0), if_neg (not_not.mpr hl)]
  refine ⟨_, rfl, ?_⟩
  rw [finalReduce_value res hl hsmall]
  show res.value + 2 ^ 3072 * l.toNat ≡ a.value * b.value [MOD prime]
  rw [hval]
  -- the carry, at weight `2 ^ 3072`, counts `PRIME_DIFF` times modulo the prime
  calc (st.tmp.set (numLimbs - 1) c.1).value + (c.2.1.toNat + 2 ^ 64 * c.2.2.toNat) * primeDiff.toNat
      = (st.tmp.set (numLimbs - 1) c.1).value +
          primeDiff.toNat * (c.2.1.toNat + 2 ^ 64 * c.2.2.toNat) := by
        rw [Nat.mul_comm _ primeDiff.toNat]
    _ ≡ (st.tmp.set (numLimbs - 1) c.1).value + 2 ^ 3072 * (c.2.1.toNat + 2 ^ 64 * c.2.2.toNat)
        [MOD prime] := (add_mul_modEq _ _ primeDiff_lt.le).symm
    _ ≡ a.value * b.value [MOD prime] := hfold

theorem one_lt_prime : 1 < prime := by
  have h : 2 ^ 22 ≤ 2 ^ 3072 := Nat.pow_le_pow_right (by decide) (by decide)
  rw [prime, primeDiff_toNat]
  omega

theorem prime_mod_two : prime % 2 = 1 := by
  have h : 2 ^ 21 ≤ 2 ^ 3071 := Nat.pow_le_pow_right (by decide) (by decide)
  rw [prime, primeDiff_toNat, pow_succ]
  omega

theorem U3072.value_ofNat (n : Nat) : (U3072.ofNat n).value = n % 2 ^ 3072 := by
  rw [U3072.value, U3072.ofNat, Vector.toList_ofFn, value_ofFn_div,
    show 64 * numLimbs = 3072 by simp only [numLimbs]]

theorem value_uintPrime : Limbs.value uintPrime.toList = prime := by
  have hl : uintPrime.toList = (limbMax - (primeDiff - 1)) :: List.replicate 47 limbMax := rfl
  have hlow : (limbMax - (primeDiff - 1)).toNat = 2 ^ 64 - 1103717 := rfl
  have hw : 2 ^ 64 * 2 ^ (64 * 47) = 2 ^ 3072 := by
    rw [← pow_add, show 64 + 64 * 47 = 3072 by norm_num]
  have hpos := Nat.two_pow_pos (64 * 47)
  rw [hl, value_cons, hlow, show limbMax = 0xffffffffffffffff from rfl, value_replicate_max, prime,
    primeDiff_toNat]
  generalize 2 ^ (64 * 47) = X at hw hpos ⊢
  generalize (2 : Nat) ^ 3072 = B at hw ⊢
  omega

/-- A lawful `mod_inverse`: the inverse in `ZMod m`. -/
def zmodInverse (x m : Nat) : Option Nat :=
  if Nat.Coprime x m then some ((x : ZMod m)⁻¹).val else none

theorem modInverseLawful_zmodInverse : ModInverseLawful zmodInverse where
  spec {x m} _ hxm h := by
    have : NeZero m := ⟨by omega⟩
    refine ⟨((x : ZMod m)⁻¹).val, if_pos h, ZMod.val_lt _, ?_⟩
    apply (ZMod.natCast_eq_natCast_iff _ _ _).mp
    rw [Nat.cast_mul, ZMod.natCast_zmod_val, mul_comm, ZMod.coe_mul_inv_eq_one x h, Nat.cast_one]

section Lawful

variable {modInverse : Nat → Nat → Option Nat} (hmi : ModInverseLawful modInverse)
include hmi

/-- `inverse` of a value whose residue is prime to the modulus fails no check and returns the
inverse of that residue. -/
theorem inverse_value (y : U3072) (hy : Nat.Coprime (y.value % prime) prime) :
    ∃ inv, y.inverse modInverse = .ok inv ∧ inv.value < prime ∧
      inv.value * y.value ≡ 1 [MOD prime] := by
  have hred := U3072.value_reduce y
  have hinv : y.inverse modInverse = if (if y.isOverflow then y.fullReduce else y) = U3072.zero
      then pure (if y.isOverflow then y.fullReduce else y)
      else Checked.expect "Cannot fail, 0 < a < prime"
        (modInverse (if y.isOverflow then y.fullReduce else y).value (Limbs.value uintPrime.toList))
        >>= fun inv => pure (U3072.ofNat inv) := rfl
  generalize (if y.isOverflow then y.fullReduce else y) = a at hred hinv
  have hcop : Nat.Coprime a.value (Limbs.value uintPrime.toList) := by
    rw [hred, value_uintPrime]
    exact hy
  -- the reduced value is nonzero and below the prime, as `mod_inverse` asks
  have hpos : 0 < a.value := by
    refine Nat.pos_of_ne_zero fun h0 => ?_
    rw [h0, Nat.coprime_zero_left, value_uintPrime] at hcop
    exact one_lt_prime.ne' hcop
  have hne : a ≠ U3072.zero := by
    rintro rfl
    rw [U3072.value_zero] at hpos
    exact lt_irrefl 0 hpos
  have hlt : a.value < Limbs.value uintPrime.toList := by
    rw [hred, value_uintPrime]
    exact Nat.mod_lt _ prime_pos
  obtain ⟨z, hz, hzlt, hzinv⟩ := hmi.spec hpos hlt hcop
  rw [value_uintPrime] at hzlt hzinv
  have hzval : (U3072.ofNat z).value = z := by
    rw [U3072.value_ofNat, Nat.mod_eq_of_lt (hzlt.trans prime_lt)]
  refine ⟨U3072.ofNat z, ?_, by rw [hzval]; exact hzlt, ?_⟩
  · rw [hinv, if_neg hne, hz, Checked.expect_eq_ok.mpr rfl, Except.ok_bind]
    rfl
  · rw [hzval]
    rw [hred] at hzinv
    exact ((Nat.mod_modEq y.value prime).mul_left z).symm.trans hzinv

omit hmi in
theorem div_eq (a b : U3072) :
    a.div b modInverse = ((if b.isOverflow then b.fullReduce else b).inverse modInverse >>= fun inv =>
      (if a.isOverflow then a.fullReduce else a).mul inv >>= fun r =>
        pure (if r.isOverflow then r.fullReduce else r)) := by
  -- the elaborated `do` block takes the branch on the divisor first
  by_cases h : b.isOverflow = true
  · rw [U3072.div, if_pos h, if_pos h]
  · rw [U3072.div, if_neg h, if_neg h]

/-- `div` by a value whose residue is prime to the modulus fails no check and returns a value
below the prime that times the divisor is the dividend. -/
theorem div_value (a b : U3072) (hb : Nat.Coprime (b.value % prime) prime) :
    ∃ r, a.div b modInverse = .ok r ∧ r.value < prime ∧
      r.value * b.value ≡ a.value [MOD prime] := by
  have hbred := U3072.value_reduce b
  obtain ⟨inv, hinv, hlt, hmod⟩ := inverse_value hmi (if b.isOverflow then b.fullReduce else b)
    (by rw [hbred, Nat.mod_mod]; exact hb)
  have hib : inv.value * b.value ≡ 1 [MOD prime] := by
    rw [hbred] at hmod
    exact ((Nat.mod_modEq b.value prime).mul_left inv.value).symm.trans hmod
  have hared := U3072.value_reduce a
  rw [div_eq, hinv, Except.ok_bind]
  generalize (if a.isOverflow then a.fullReduce else a) = a' at hared ⊢
  -- the dividend is congruent to its reduced value
  have ha' : a'.value ≡ a.value [MOD prime] := by
    rw [hared]
    exact Nat.mod_modEq a.value prime
  by_cases hone : a' = U3072.one
  · -- the short cut of `mul` returns the inverse, already below the prime
    have hmul : a'.mul inv = .ok inv := by rw [hone, U3072.mul, if_pos rfl]; rfl
    refine ⟨_, by rw [hmul, Except.ok_bind]; rfl, ?_, ?_⟩
    · rw [U3072.value_reduce, Nat.mod_eq_of_lt hlt]
      exact hlt
    · rw [U3072.value_reduce, Nat.mod_eq_of_lt hlt]
      have h1 : 1 = a'.value := by rw [hone, U3072.value_one]
      exact hib.trans (h1 ▸ ha')
  · obtain ⟨r, hr, hrv⟩ := mul_value a' inv hone
    have hrlt : r.value < prime := hrv ▸ Nat.mod_lt _ prime_pos
    refine ⟨_, by rw [hr, Except.ok_bind]; rfl, ?_, ?_⟩
    · rw [U3072.value_reduce, Nat.mod_eq_of_lt hrlt]
      exact hrlt
    · rw [U3072.value_reduce, Nat.mod_eq_of_lt hrlt, hrv]
      calc a'.value * inv.value % prime * b.value
          ≡ a'.value * inv.value * b.value [MOD prime] := (Nat.mod_modEq _ prime).mul_right _
        _ = a'.value * (inv.value * b.value) := Nat.mul_assoc _ _ _
        _ ≡ a'.value * 1 [MOD prime] := hib.mul_left _
        _ = a'.value := Nat.mul_one _
        _ ≡ a.value [MOD prime] := ha'

end Lawful

/-- Below the prime, a multiple of a value prime to the modulus determines the factor. -/
theorem eq_of_mul_modEq {d r s : Nat} (hd : Nat.Coprime (d % prime) prime) (hr : r < prime)
    (hs : s < prime) (h : r * d ≡ s * d [MOD prime]) : r = s := by
  have hg : Nat.gcd prime d = 1 := by
    rw [Nat.gcd_rec]
    exact hd
  exact Nat.ModEq.eq_of_lt_of_lt (Nat.ModEq.cancel_right_of_coprime hg h) hr hs

/-- `mul` never fails a check. With a left operand other than one it returns the product reduced
modulo the prime; with the left operand one it returns the right operand as it is. `div` by a
value whose residue is prime to the modulus returns the one value below the prime that times the
divisor is the dividend, for a lawful `mod_inverse`. -/
theorem mul_div_spec {modInverse : Nat → Nat → Option Nat} (hmi : ModInverseLawful modInverse)
    (a b : U3072) :
    (a ≠ U3072.one → ∃ r, a.mul b = .ok r ∧ r.value = a.value * b.value % prime) ∧
    (a = U3072.one → a.mul b = .ok b) ∧
    (Nat.Coprime (b.value % prime) prime → ∃ r, a.div b modInverse = .ok r ∧ r.value < prime ∧
      r.value * b.value ≡ a.value [MOD prime] ∧
      ∀ s < prime, s * b.value ≡ a.value [MOD prime] → s = r.value) := by
  refine ⟨mul_value a b, fun h => by rw [h, U3072.mul, if_pos rfl]; rfl, fun hb => ?_⟩
  obtain ⟨r, hr, hlt, hmod⟩ := div_value hmi a b hb
  exact ⟨r, hr, hlt, hmod, fun s hs hsb => eq_of_mul_modEq hb hs hlt (hsb.trans hmod.symm)⟩

theorem mul_div_spec_zero_one : ModInverseLawful zmodInverse ∧
    Nat.Coprime (U3072.one.value % prime) prime ∧
    ∃ r, U3072.zero.div U3072.one zmodInverse = .ok r ∧ r.value < prime ∧
      r.value * U3072.one.value ≡ U3072.zero.value [MOD prime] ∧
      ∀ s < prime, s * U3072.one.value ≡ U3072.zero.value [MOD prime] → s = r.value := by
  have hcop : Nat.Coprime (U3072.one.value % prime) prime := by
    rw [U3072.value_one, Nat.mod_eq_of_lt one_lt_prime]
    exact Nat.coprime_one_left prime
  exact ⟨modInverseLawful_zmodInverse, hcop,
    (mul_div_spec modInverseLawful_zmodInverse U3072.zero U3072.one).2.2 hcop⟩

/-- The short cut of `mul` does not reduce: one times the limbs of the prime is the prime. -/
theorem mul_one_unreduced :
    U3072.one.mul ⟨uintPrime⟩ = .ok ⟨uintPrime⟩ ∧ prime ≤ U3072.value ⟨uintPrime⟩ := by
  refine ⟨by rw [U3072.mul, if_pos rfl]; rfl, ?_⟩
  rw [U3072.value]
  exact value_uintPrime.ge

end Vecno.MuHash
