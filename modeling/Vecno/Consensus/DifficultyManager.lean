import Vecno.Math.Compact
import Vecno.Lib.VecOps
import Vecno.Lib.Checked
import Vecno.Consensus.Window.Heap
import Mathlib.Algebra.Order.BigOperators.Group.List

/-!
# Difficulty retargeting

`calculate_difficulty_bits` of both managers, which differ only in the expected duration, as one
`calculateDifficultyBitsWith`. The `u64` arithmetic is checked and the `Uint320` arithmetic wraps;
`RetargetsTo` states the result on numbers.
-/

namespace Vecno

namespace Uint

/-- `From<Uint256> for Uint320`: the four words and a zero word above them. -/
def toUint320 (u : Uint 4) : Uint 5 :=
  ⟨u.limbs ++ [0], by rw [List.length_append, u.length_limbs]; rfl⟩

/-- `TryFrom<Uint320> for Uint256`: the low four words, when the top word is zero. -/
def tryFromUint320 (v : Uint 5) : Except String (Uint 4) :=
  if v.limb 4 ≠ 0 then .error "TryFromIntError"
  else .ok ⟨v.limbs.take 4, by rw [List.length_take, v.length_limbs]; rfl⟩

/-- `Sum for $name`: the first term, then the others added one by one. -/
def sum {n : Nat} : List (Uint n) → Uint n
  | [] => zero
  | x :: xs => xs.foldl add x

end Uint

def minDifficultyWindowLen : Nat := 10

structure DifficultyBlock where
  timestamp : UInt64
  bits : UInt32
  sortableBlock : SortableBlock

/-- `Ord for DifficultyBlock`: by timestamp, then by the sortable block. -/
def DifficultyBlock.cmp (a b : DifficultyBlock) : Ordering :=
  (compare a.timestamp b.timestamp).then (compare a.sortableBlock b.sortableBlock)

def checkMinDifficultyWindowLen (difficultyWindowSize minDifficultyWindowLen' : Nat) :
    Except String Unit :=
  if Vecno.minDifficultyWindowLen ≤ minDifficultyWindowLen' ∧
      minDifficultyWindowLen' ≤ difficultyWindowSize then .ok ()
  else .error ("min_difficulty_window_len " ++ toString minDifficultyWindowLen' ++
    " is expected to fit within " ++ toString Vecno.minDifficultyWindowLen ++ "..=" ++
    toString difficultyWindowSize)

/-- The end of `calculate_difficulty_bits`: the new target, capped at the maximum and converted
back to `Uint256`, as compact bits. -/
def newTargetBits (maxDifficultyTarget averageTarget : Uint 5) (measuredDuration expectedDuration : Nat) :
    Except String UInt32 := do
  let newTarget ← (averageTarget.mulU64 (UInt64.ofNat (max measuredDuration 1))).divU64
    (UInt64.ofNat expectedDuration)
  match (newTarget.min maxDifficultyTarget).tryFromUint320 with
  | .error e => .error ("max target < Uint256::MAX: " ++ e)
  | .ok t => .ok t.compactTargetBits

/-- `calculate_difficulty_bits` of either manager, `expectedDuration` giving the expected duration
of the blocks averaged from their number, and `positionMinmax` standing for
`difficulty_blocks.iter().position_minmax().into_option()`. -/
def calculateDifficultyBitsWith (positionMinmax : List DifficultyBlock → Option (Nat × Nat))
    (genesisBits : UInt32) (maxDifficultyTarget : Uint 5)
    (minDifficultyWindowLen' : Nat) (expectedDuration : Nat → Except String Nat)
    (difficultyBlocks : List DifficultyBlock) : Except String UInt32 :=
  -- until there are enough blocks for a valid calculation the difficulty stays constant
  if difficultyBlocks.length < minDifficultyWindowLen' then .ok genesisBits
  else do
    let (minTsIndex, maxTsIndex) ← Checked.expect Checked.unwrapNone (positionMinmax difficultyBlocks)
    let minTs ← Checked.index difficultyBlocks minTsIndex
    let maxTs ← Checked.index difficultyBlocks maxTsIndex
    -- the minimal block is left out of the average
    let difficultyBlocks := VecOps.swapRemove difficultyBlocks minTsIndex
    let targetsSum :=
      Uint.sum (difficultyBlocks.map fun b => (Uint.fromCompactTargetBits b.bits).toUint320)
    let averageTarget ← targetsSum.divU64 (UInt64.ofNat difficultyBlocks.length)
    let measuredDuration ← Checked.sub maxTs.timestamp.toNat minTs.timestamp.toNat
    let expected ← expectedDuration difficultyBlocks.length
    newTargetBits maxDifficultyTarget averageTarget measuredDuration expected

/-- `FullDifficultyManager`, without its headers store. -/
structure FullDifficultyManager where
  genesisBits : UInt32
  maxDifficultyTarget : Uint 5
  difficultyWindowSize : Nat
  minDifficultyWindowLen : Nat
  targetTimePerBlock : UInt64

namespace FullDifficultyManager

def new (genesisBits : UInt32) (maxDifficultyTarget : Uint 4) (difficultyWindowSize minDifficultyWindowLen : Nat)
    (targetTimePerBlock : UInt64) : Except String FullDifficultyManager := do
  checkMinDifficultyWindowLen difficultyWindowSize minDifficultyWindowLen
  pure ⟨genesisBits, maxDifficultyTarget.toUint320, difficultyWindowSize, minDifficultyWindowLen,
    targetTimePerBlock⟩

/-- `FullDifficultyManager::calculate_difficulty_bits`: the expected duration is
`target_time_per_block * difficulty_blocks_len`. -/
def calculateDifficultyBits (m : FullDifficultyManager)
    (positionMinmax : List DifficultyBlock → Option (Nat × Nat)) (difficultyBlocks : List DifficultyBlock) :
    Except String UInt32 :=
  calculateDifficultyBitsWith positionMinmax m.genesisBits m.maxDifficultyTarget m.minDifficultyWindowLen
    (fun len => Checked.mul 64 m.targetTimePerBlock.toNat len) difficultyBlocks

end FullDifficultyManager

/-- `SampledDifficultyManager`, without its headers store. -/
structure SampledDifficultyManager where
  genesisBits : UInt32
  maxDifficultyTarget : Uint 5
  difficultyWindowSize : Nat
  minDifficultyWindowLen : Nat
  difficultySampleRate : UInt64
  targetTimePerBlock : UInt64

namespace SampledDifficultyManager

def new (genesisBits : UInt32) (maxDifficultyTarget : Uint 4) (difficultyWindowSize minDifficultyWindowLen : Nat)
    (difficultySampleRate targetTimePerBlock : UInt64) : Except String SampledDifficultyManager := do
  checkMinDifficultyWindowLen difficultyWindowSize minDifficultyWindowLen
  pure ⟨genesisBits, maxDifficultyTarget.toUint320, difficultyWindowSize, minDifficultyWindowLen,
    difficultySampleRate, targetTimePerBlock⟩

/-- `SampledDifficultyManager::calculate_difficulty_bits`: the expected duration is
`target_time_per_block * difficulty_sample_rate * difficulty_blocks_len`. -/
def calculateDifficultyBits (m : SampledDifficultyManager)
    (positionMinmax : List DifficultyBlock → Option (Nat × Nat)) (difficultyBlocks : List DifficultyBlock) :
    Except String UInt32 :=
  calculateDifficultyBitsWith positionMinmax m.genesisBits m.maxDifficultyTarget m.minDifficultyWindowLen
    (fun len => do
      let rate ← Checked.mul 64 m.targetTimePerBlock.toNat m.difficultySampleRate.toNat
      Checked.mul 64 rate len)
    difficultyBlocks

end SampledDifficultyManager

/-! ## The retarget on numbers -/

/-- The result `calculate_difficulty_bits` is meant to have on a window of at least two blocks:
with `i` a block of least and `j` one of greatest timestamp, the average target of the blocks
other than `i` times the measured duration (at least one) over the expected duration `E`, capped
at `maxTarget`, as compact bits. -/
def RetargetsTo (maxTarget E : Nat) (l : List DifficultyBlock) (r : Except String UInt32) : Prop :=
  ∃ i j, ∃ hi : i < l.length, ∃ hj : j < l.length,
    (∀ b ∈ l, l[i].timestamp ≤ b.timestamp ∧ b.timestamp ≤ l[j].timestamp) ∧
    ∃ t : Uint 4, r = .ok t.compactTargetBits ∧
      t.value = Nat.min maxTarget
        (((l.eraseIdx i).map fun b => fromCompactTargetBits b.bits).sum / (l.length - 1) *
          Nat.max (l[j].timestamp.toNat - l[i].timestamp.toNat) 1 / E)

/-! ## The conversions and the sum on values -/

namespace Uint

theorem value_toUint320 (u : Uint 4) : u.toUint320.value = u.value := by
  rw [value, toUint320, Limbs.value_append, Limbs.value_cons, Limbs.value_nil]
  rfl

theorem tryFromUint320_of_lt {v : Uint 5} (h : v.value < 2 ^ 256) :
    ∃ t, v.tryFromUint320 = .ok t ∧ t.value = v.value := by
  have hsplit := Limbs.value_append (v.limbs.take 4) (v.limbs.drop 4)
  rw [List.take_append_drop, List.length_take_of_le (by rw [v.length_limbs]; omega)] at hsplit
  have hlow := Limbs.value_lt (v.limbs.take 4)
  rw [List.length_take_of_le (by rw [v.length_limbs]; omega)] at hlow
  -- the top word is zero, so the low four hold the value
  have htop : Limbs.value (v.limbs.drop 4) = 0 := by
    by_contra hne
    have : 2 ^ (64 * 4) ≤ 2 ^ (64 * 4) * Limbs.value (v.limbs.drop 4) :=
      Nat.le_mul_of_pos_right _ (Nat.pos_of_ne_zero hne)
    change Limbs.value v.limbs < 2 ^ 256 at h
    omega
  have hlimb : v.limb 4 = 0 := by
    apply UInt64.toNat_inj.mp
    rw [toNat_limb, Limbs.digit_eq_div_mod, UInt64.toNat_zero,
      Nat.div_eq_of_lt (show Limbs.value v.limbs < 2 ^ (64 * 4) from h), Nat.zero_mod]
  rw [tryFromUint320, if_neg (not_not.mpr hlimb)]
  refine ⟨_, rfl, ?_⟩
  change Limbs.value (v.limbs.take 4) = Limbs.value v.limbs
  rw [hsplit, htop, Nat.mul_zero, Nat.add_zero]

theorem value_foldl_add {n : Nat} (xs : List (Uint n)) (x : Uint n) :
    (xs.foldl add x).value = (x.value + (xs.map value).sum) % 2 ^ (64 * n) := by
  induction xs generalizing x with
  | nil => rw [List.foldl_nil, List.map_nil, List.sum_nil, Nat.add_zero, Nat.mod_eq_of_lt (value_lt x)]
  | cons y ys ih =>
    rw [List.foldl_cons, ih, add, (overflowingAdd_spec x y).1, List.map_cons, List.sum_cons,
      Nat.mod_add_mod, Nat.add_assoc]

theorem value_sum {n : Nat} (l : List (Uint n)) : (sum l).value = (l.map value).sum % 2 ^ (64 * n) := by
  cases l with
  | nil => rw [sum, value_zero, List.map_nil, List.sum_nil, Nat.zero_mod]
  | cons x xs => rw [sum, value_foldl_add, List.map_cons, List.sum_cons]

theorem divU64_of_ne_zero {n : Nat} (x : Uint n) {m : UInt64} (hm : m ≠ 0) :
    ∃ q, x.divU64 m = .ok q ∧ q.value = x.value / m.toNat := by
  obtain ⟨q, r, hdiv, hval, hr⟩ := divRemU64_spec x hm
  refine ⟨q, by rw [divU64, hdiv]; rfl, ?_⟩
  rw [hval, Nat.mul_comm, Nat.add_comm, Nat.add_mul_div_left _ _ (by omega), Nat.div_eq_of_lt hr,
    Nat.zero_add]

theorem divU64_zero {n : Nat} (x : Uint n) (hn : 0 < n) : x.divU64 0 = .error "attempt to divide by zero" := by
  rw [divU64, divRemU64, if_pos ⟨rfl, hn⟩]
  rfl

theorem value_mulU64 {n : Nat} (x : Uint n) {w : UInt64} (h : x.value * w.toNat < 2 ^ (64 * n)) :
    (x.mulU64 w).value = x.value * w.toNat := by
  rw [mulU64, (overflowingMulU64_spec x w).1, Nat.mod_eq_of_lt h]

end Uint

/-! ## The steps of the retarget -/

theorem toNat_ofNat_of_lt {k : Nat} (h : k < 2 ^ 64) : (UInt64.ofNat k).toNat = k := by
  rw [UInt64.toNat_ofNat', Nat.mod_eq_of_lt h]

namespace DifficultyBlock

theorem timestamp_le_of_cmp_not_lt {a b : DifficultyBlock} (h : a.cmp b ≠ .lt) :
    b.timestamp ≤ a.timestamp := by
  rw [UInt64.le_iff_toNat_le]
  unfold cmp at h
  rw [Uint.compare_toNat] at h
  by_contra hlt
  rw [Nat.compare_eq_lt.mpr (Nat.lt_of_not_le hlt)] at h
  exact h rfl

/-- What `cmp` compares: the timestamp, then the sortable block. -/
def key (b : DifficultyBlock) : Lex (Nat × SortableBlock) :=
  toLex (b.timestamp.toNat, b.sortableBlock)

theorem cmp_eq_lt_iff (a b : DifficultyBlock) : a.cmp b = .lt ↔ a.key < b.key := by
  rw [cmp, Uint.compare_toNat, Ordering.then_eq_lt, Nat.compare_eq_lt, Nat.compare_eq_eq,
    compare_lt_iff_lt, key, key, Prod.Lex.toLex_lt_toLex]

/-- The scan for the first minimum and the last maximum is a lawful `position_minmax` of the
blocks' order. -/
theorem positionMinmaxLawful_cmp :
    VecOps.PositionMinmaxLawful cmp (VecOps.positionMinmax cmp) :=
  VecOps.positionMinmaxLawful_positionMinmax cmp key cmp_eq_lt_iff

end DifficultyBlock

/-- The average of the targets of a window of `len` blocks less one is below `2 ^ 256`. -/
theorem sum_targets_le (l : List DifficultyBlock) :
    (l.map fun b => fromCompactTargetBits b.bits).sum ≤ l.length * (2 ^ 256 - 1) := by
  have h := List.sum_le_card_nsmul (l.map fun b => fromCompactTargetBits b.bits) (2 ^ 256 - 1)
    (fun x hx => by
      obtain ⟨b, -, rfl⟩ := List.mem_map.mp hx
      have := fromCompactTargetBits_add_one_lt b.bits
      omega)
  rwa [List.length_map, smul_eq_mul] at h

theorem index_of_lt {l : List DifficultyBlock} {i : Nat} (hi : i < l.length) :
    Checked.index l i = .ok l[i] := by
  rw [Checked.index, List.getElem?_eq_getElem hi]

/-- `calculate_difficulty_bits` on a window of at least two blocks, up to the expected duration:
the minimum and the maximum found, the other blocks' targets summed with no wrap and averaged. -/
theorem calculateDifficultyBitsWith_eq {positionMinmax : List DifficultyBlock → Option (Nat × Nat)}
    (hpm : VecOps.PositionMinmaxLawful DifficultyBlock.cmp positionMinmax) (genesisBits : UInt32)
    (maxT : Uint 5) {minLen : Nat}
    (expectedDuration : Nat → Except String Nat) {l : List DifficultyBlock} (hlen : minLen ≤ l.length)
    (h2 : 2 ≤ l.length) (h64 : l.length ≤ 2 ^ 64) :
    ∃ i j, ∃ hi : i < l.length, ∃ hj : j < l.length,
      (∀ b ∈ l, l[i].timestamp ≤ b.timestamp ∧ b.timestamp ≤ l[j].timestamp) ∧
      ∃ averageTarget : Uint 5,
        averageTarget.value = ((l.eraseIdx i).map fun b => fromCompactTargetBits b.bits).sum / (l.length - 1) ∧
        calculateDifficultyBitsWith positionMinmax genesisBits maxT minLen expectedDuration l =
          (expectedDuration (l.length - 1) >>= fun expected =>
            newTargetBits maxT averageTarget (l[j].timestamp.toNat - l[i].timestamp.toNat) expected) := by
  obtain ⟨i, j, hpm, hi, hj, hbound⟩ := hpm.spec (fun b => b.timestamp.toNat)
    (fun _ _ h => UInt64.le_iff_toNat_le.mp (DifficultyBlock.timestamp_le_of_cmp_not_lt h))
    (List.ne_nil_of_length_pos (by omega : 0 < l.length))
  have hperm := VecOps.swapRemove_perm hi
  have hrest : (VecOps.swapRemove l i).length = l.length - 1 := by
    rw [hperm.length_eq, List.length_eraseIdx_of_lt hi]
  -- the `Uint320` sum of at most `2 ^ 64` targets below `2 ^ 256` does not wrap
  have hsum : (Uint.sum ((VecOps.swapRemove l i).map fun b =>
      (Uint.fromCompactTargetBits b.bits).toUint320)).value =
      ((l.eraseIdx i).map fun b => fromCompactTargetBits b.bits).sum := by
    have hbelow := sum_targets_le (l.eraseIdx i)
    rw [List.length_eraseIdx_of_lt hi] at hbelow
    rw [Uint.value_sum, List.map_map, List.map_congr_left fun b _ => by
        rw [Function.comp_apply, Uint.value_toUint320, Uint.fromCompactTargetBits_value],
      (hperm.map _).sum_eq, Nat.mod_eq_of_lt]
    calc _ ≤ (l.length - 1) * (2 ^ 256 - 1) := hbelow
      _ < 2 ^ 64 * 2 ^ 256 := Nat.mul_lt_mul_of_lt_of_le (by omega) (by omega) (by omega)
      _ = 2 ^ (64 * 5) := by rw [← pow_add]
  have hne : UInt64.ofNat (VecOps.swapRemove l i).length ≠ 0 := by
    intro h0
    have := congrArg UInt64.toNat h0
    rw [toNat_ofNat_of_lt (by omega), UInt64.toNat_zero] at this
    omega
  obtain ⟨averageTarget, havg, havgv⟩ := Uint.divU64_of_ne_zero _ hne
  refine ⟨i, j, hi, hj, fun b hb => ⟨UInt64.le_iff_toNat_le.mpr (hbound b hb).1,
    UInt64.le_iff_toNat_le.mpr (hbound b hb).2⟩, averageTarget, ?_, ?_⟩
  · rw [havgv, hsum, toNat_ofNat_of_lt (by omega), hrest]
  · unfold calculateDifficultyBitsWith
    rw [if_neg (by omega), hpm]
    simp only [Checked.expect, Except.ok_bind, index_of_lt hi, index_of_lt hj]
    rw [havg, Except.ok_bind, Checked.sub_of_le (hbound _ (List.getElem_mem hj)).1, Except.ok_bind,
      hrest]

/-- `newTargetBits` with a positive expected duration: no step wraps or aborts. -/
theorem newTargetBits_eq {maxT : Uint 5} (hmax : maxT.value < 2 ^ 256) (averageTarget : Uint 5)
    {measured E : Nat} (havg : averageTarget.value < 2 ^ 256) (hm : measured < 2 ^ 64) (hE : 0 < E)
    (hE64 : E < 2 ^ 64) :
    ∃ t : Uint 4, newTargetBits maxT averageTarget measured E = .ok t.compactTargetBits ∧
      t.value = Nat.min maxT.value (averageTarget.value * max measured 1 / E) := by
  have hdur : (UInt64.ofNat (max measured 1)).toNat = max measured 1 := toNat_ofNat_of_lt (by omega)
  have hprod : averageTarget.value * (UInt64.ofNat (max measured 1)).toNat < 2 ^ (64 * 5) := by
    rw [hdur]
    calc averageTarget.value * max measured 1 < 2 ^ 256 * 2 ^ 64 :=
          Nat.mul_lt_mul_of_lt_of_le havg (by omega) (by omega)
      _ = 2 ^ (64 * 5) := by rw [← pow_add]
  have hne : UInt64.ofNat E ≠ 0 := by
    intro h0
    have := congrArg UInt64.toNat h0
    rw [toNat_ofNat_of_lt hE64, UInt64.toNat_zero] at this
    omega
  obtain ⟨q, hq, hqv⟩ := (averageTarget.mulU64 (UInt64.ofNat (max measured 1))).divU64_of_ne_zero hne
  rw [Uint.value_mulU64 _ hprod, hdur, toNat_ofNat_of_lt hE64] at hqv
  have hmin : (q.min maxT).value < 2 ^ 256 := by
    rw [Uint.min_value]
    exact Nat.lt_of_le_of_lt (Nat.min_le_right _ _) hmax
  obtain ⟨t, ht, htv⟩ := Uint.tryFromUint320_of_lt hmin
  refine ⟨t, ?_, ?_⟩
  · rw [newTargetBits, hq, Except.ok_bind, ht]
  · rw [htv, Uint.min_value, hqv]
    exact Nat.min_comm _ _

theorem newTargetBits_zero (maxT averageTarget : Uint 5) (measured : Nat) :
    newTargetBits maxT averageTarget measured 0 = .error "attempt to divide by zero" := by
  rw [newTargetBits, show UInt64.ofNat 0 = 0 from rfl, Uint.divU64_zero _ (by decide)]
  rfl

/-! ## The retarget -/

section Retarget

variable {positionMinmax : List DifficultyBlock → Option (Nat × Nat)}
  (genesisBits : UInt32) {maxT : Uint 5} {minLen : Nat} {expectedDuration : Nat → Except String Nat}
  {l : List DifficultyBlock}

/-- With a positive expected duration that fits a `u64`, `calculate_difficulty_bits` neither wraps
nor aborts, and computes the retarget on numbers. -/
theorem calculateDifficultyBitsWith_retarget
    (hpm : VecOps.PositionMinmaxLawful DifficultyBlock.cmp positionMinmax) (hmax : maxT.value < 2 ^ 256) (hlen : minLen ≤ l.length)
    (h2 : 2 ≤ l.length) (h64 : l.length ≤ 2 ^ 64) {E : Nat}
    (hE : expectedDuration (l.length - 1) = .ok E) (hpos : 0 < E) (hE64 : E < 2 ^ 64) :
    RetargetsTo maxT.value E l
      (calculateDifficultyBitsWith positionMinmax genesisBits maxT minLen expectedDuration l) := by
  obtain ⟨i, j, hi, hj, hbound, averageTarget, havgv, heq⟩ :=
    calculateDifficultyBitsWith_eq hpm genesisBits maxT expectedDuration hlen h2 h64
  -- the average is at most the largest target
  have havg : averageTarget.value < 2 ^ 256 := by
    have hbelow := sum_targets_le (l.eraseIdx i)
    rw [List.length_eraseIdx_of_lt hi] at hbelow
    rw [havgv]
    have := Nat.div_le_of_le_mul hbelow
    omega
  obtain ⟨t, ht, htv⟩ := newTargetBits_eq hmax averageTarget havg
    (Nat.lt_of_le_of_lt (Nat.sub_le _ _) l[j].timestamp.toNat_lt) hpos hE64
  refine ⟨i, j, hi, hj, hbound, t, ?_, ?_⟩
  · rw [heq, hE, Except.ok_bind, ht]
  · rw [htv, havgv]

/-- With a zero expected duration, `calculate_difficulty_bits` divides by zero. -/
theorem calculateDifficultyBitsWith_zero
    (hpm : VecOps.PositionMinmaxLawful DifficultyBlock.cmp positionMinmax) (hlen : minLen ≤ l.length) (h2 : 2 ≤ l.length)
    (h64 : l.length ≤ 2 ^ 64) (hE : expectedDuration (l.length - 1) = .ok 0) :
    calculateDifficultyBitsWith positionMinmax genesisBits maxT minLen expectedDuration l =
      .error "attempt to divide by zero" := by
  obtain ⟨i, j, hi, hj, -, averageTarget, -, heq⟩ :=
    calculateDifficultyBitsWith_eq hpm genesisBits maxT expectedDuration hlen h2 h64
  rw [heq, hE, Except.ok_bind, newTargetBits_zero]

end Retarget

theorem checkMinDifficultyWindowLen_eq_ok {difficultyWindowSize minLen : Nat}
    (h : checkMinDifficultyWindowLen difficultyWindowSize minLen = .ok ()) :
    Vecno.minDifficultyWindowLen ≤ minLen ∧ minLen ≤ difficultyWindowSize := by
  unfold checkMinDifficultyWindowLen at h
  split_ifs at h with hc
  · exact hc

theorem FullDifficultyManager.new_eq_ok {genesisBits : UInt32} {maxDifficultyTarget : Uint 4}
    {difficultyWindowSize minLen : Nat} {targetTimePerBlock : UInt64} {m : FullDifficultyManager}
    (h : new genesisBits maxDifficultyTarget difficultyWindowSize minLen targetTimePerBlock = .ok m) :
    m = ⟨genesisBits, maxDifficultyTarget.toUint320, difficultyWindowSize, minLen, targetTimePerBlock⟩ ∧
      Vecno.minDifficultyWindowLen ≤ minLen := by
  unfold new at h
  cases hc : checkMinDifficultyWindowLen difficultyWindowSize minLen with
  | error e => rw [hc] at h; cases h
  | ok u =>
    rw [hc] at h
    cases h
    exact ⟨rfl, (checkMinDifficultyWindowLen_eq_ok hc).1⟩

theorem SampledDifficultyManager.new_eq_ok {genesisBits : UInt32} {maxDifficultyTarget : Uint 4}
    {difficultyWindowSize minLen : Nat} {difficultySampleRate targetTimePerBlock : UInt64}
    {m : SampledDifficultyManager}
    (h : new genesisBits maxDifficultyTarget difficultyWindowSize minLen difficultySampleRate
      targetTimePerBlock = .ok m) :
    m = ⟨genesisBits, maxDifficultyTarget.toUint320, difficultyWindowSize, minLen, difficultySampleRate,
        targetTimePerBlock⟩ ∧ Vecno.minDifficultyWindowLen ≤ minLen := by
  unfold new at h
  cases hc : checkMinDifficultyWindowLen difficultyWindowSize minLen with
  | error e => rw [hc] at h; cases h
  | ok u =>
    rw [hc] at h
    cases h
    exact ⟨rfl, (checkMinDifficultyWindowLen_eq_ok hc).1⟩

theorem value_toUint320_lt (u : Uint 4) : u.toUint320.value < 2 ^ 256 := by
  rw [Uint.value_toUint320]
  exact Uint.value_lt u

/-- Both managers retarget exactly on every window of at least `min_difficulty_window_len` blocks,
with arbitrary timestamps and bits, when the target time per block (and the sample rate) is
positive and the expected duration of the window fits a `u64`. -/
theorem calculateDifficultyBits_retarget
    (positionMinmax : List DifficultyBlock → Option (Nat × Nat))
    (hpm : VecOps.PositionMinmaxLawful DifficultyBlock.cmp positionMinmax) :
    (∀ (genesisBits : UInt32) (maxDifficultyTarget : Uint 4) (difficultyWindowSize minLen : Nat)
        (targetTimePerBlock : UInt64) (m : FullDifficultyManager) (l : List DifficultyBlock),
      FullDifficultyManager.new genesisBits maxDifficultyTarget difficultyWindowSize minLen
          targetTimePerBlock = .ok m →
      minLen ≤ l.length → 0 < targetTimePerBlock.toNat →
      targetTimePerBlock.toNat * l.length < 2 ^ 64 →
      RetargetsTo maxDifficultyTarget.value (targetTimePerBlock.toNat * (l.length - 1)) l
        (m.calculateDifficultyBits positionMinmax l)) ∧
    (∀ (genesisBits : UInt32) (maxDifficultyTarget : Uint 4) (difficultyWindowSize minLen : Nat)
        (difficultySampleRate targetTimePerBlock : UInt64) (m : SampledDifficultyManager)
        (l : List DifficultyBlock),
      SampledDifficultyManager.new genesisBits maxDifficultyTarget difficultyWindowSize minLen
          difficultySampleRate targetTimePerBlock = .ok m →
      minLen ≤ l.length → 0 < targetTimePerBlock.toNat → 0 < difficultySampleRate.toNat →
      targetTimePerBlock.toNat * difficultySampleRate.toNat * l.length < 2 ^ 64 →
      RetargetsTo maxDifficultyTarget.value
        (targetTimePerBlock.toNat * difficultySampleRate.toNat * (l.length - 1)) l
        (m.calculateDifficultyBits positionMinmax l)) := by
  constructor
  · intro genesisBits maxDifficultyTarget difficultyWindowSize minLen targetTimePerBlock m l hnew hlen
      hpos hfit
    obtain ⟨rfl, hmin⟩ := FullDifficultyManager.new_eq_ok hnew
    have hten : Vecno.minDifficultyWindowLen = 10 := rfl
    have hle : targetTimePerBlock.toNat * (l.length - 1) ≤ targetTimePerBlock.toNat * l.length :=
      Nat.mul_le_mul_left _ (Nat.sub_le _ _)
    have hl : l.length ≤ targetTimePerBlock.toNat * l.length := Nat.le_mul_of_pos_left _ hpos
    rw [← Uint.value_toUint320 maxDifficultyTarget]
    unfold FullDifficultyManager.calculateDifficultyBits
    dsimp only
    exact calculateDifficultyBitsWith_retarget genesisBits hpm (value_toUint320_lt _) hlen (by omega)
      (by omega) (Checked.mul_of_lt (by omega)) (Nat.mul_pos hpos (by omega)) (by omega)
  · intro genesisBits maxDifficultyTarget difficultyWindowSize minLen difficultySampleRate
      targetTimePerBlock m l hnew hlen hpos hrate hfit
    obtain ⟨rfl, hmin⟩ := SampledDifficultyManager.new_eq_ok hnew
    have hten : Vecno.minDifficultyWindowLen = 10 := rfl
    have hprod := Nat.mul_pos hpos hrate
    have hle : targetTimePerBlock.toNat * difficultySampleRate.toNat * (l.length - 1) ≤
        targetTimePerBlock.toNat * difficultySampleRate.toNat * l.length :=
      Nat.mul_le_mul_left _ (Nat.sub_le _ _)
    have hl : l.length ≤ targetTimePerBlock.toNat * difficultySampleRate.toNat * l.length :=
      Nat.le_mul_of_pos_left _ hprod
    have hr : targetTimePerBlock.toNat * difficultySampleRate.toNat ≤
        targetTimePerBlock.toNat * difficultySampleRate.toNat * l.length :=
      Nat.le_mul_of_pos_right _ (by omega)
    rw [← Uint.value_toUint320 maxDifficultyTarget]
    unfold SampledDifficultyManager.calculateDifficultyBits
    dsimp only
    refine calculateDifficultyBitsWith_retarget genesisBits hpm (value_toUint320_lt _) hlen (by omega)
      (by omega) ?_ (Nat.mul_pos hprod (by omega)) (by omega)
    rw [Checked.mul_of_lt (by omega), Except.ok_bind, Checked.mul_of_lt (by omega)]

/-- Ten blocks at timestamp zero, a target time of one millisecond per block, and the scan for
`position_minmax`. -/
theorem calculateDifficultyBits_retarget_ten :
    VecOps.PositionMinmaxLawful DifficultyBlock.cmp (VecOps.positionMinmax DifficultyBlock.cmp) ∧
    FullDifficultyManager.new 0 Uint.zero 10 10 1 = .ok ⟨0, Uint.zero.toUint320, 10, 10, 1⟩ ∧
      10 ≤ (List.replicate 10 (⟨0, 0, ⟨Hash.fromU64Word 0, 0⟩⟩ : DifficultyBlock)).length ∧
      0 < (1 : UInt64).toNat ∧
      (1 : UInt64).toNat * (List.replicate 10 (⟨0, 0, ⟨Hash.fromU64Word 0, 0⟩⟩ : DifficultyBlock)).length <
        2 ^ 64 ∧
      RetargetsTo (Uint.zero : Uint 4).value
        ((1 : UInt64).toNat *
          ((List.replicate 10 (⟨0, 0, ⟨Hash.fromU64Word 0, 0⟩⟩ : DifficultyBlock)).length - 1))
        (List.replicate 10 ⟨0, 0, ⟨Hash.fromU64Word 0, 0⟩⟩)
        ((⟨0, Uint.zero.toUint320, 10, 10, 1⟩ : FullDifficultyManager).calculateDifficultyBits
          (VecOps.positionMinmax DifficultyBlock.cmp) (List.replicate 10 ⟨0, 0, ⟨Hash.fromU64Word 0, 0⟩⟩)) :=
  ⟨DifficultyBlock.positionMinmaxLawful_cmp, rfl, by decide, by decide, by decide,
    (calculateDifficultyBits_retarget _ DifficultyBlock.positionMinmaxLawful_cmp).1 0 Uint.zero 10 10 1 _ _
      rfl (by decide) (by decide) (by decide)⟩

/-- A zero target time per block passes the constructor, and the retarget then divides by zero,
whichever lawful `position_minmax` it uses; the scan is one. -/
theorem calculateDifficultyBits_zero_target_time :
    VecOps.PositionMinmaxLawful DifficultyBlock.cmp (VecOps.positionMinmax DifficultyBlock.cmp) ∧
    FullDifficultyManager.new 0 Uint.zero 10 10 0 = .ok ⟨0, Uint.zero.toUint320, 10, 10, 0⟩ ∧
    ∀ positionMinmax, VecOps.PositionMinmaxLawful DifficultyBlock.cmp positionMinmax →
      (⟨0, Uint.zero.toUint320, 10, 10, 0⟩ : FullDifficultyManager).calculateDifficultyBits positionMinmax
          (List.replicate 10 ⟨0, 0, ⟨Hash.fromU64Word 0, 0⟩⟩) =
        .error "attempt to divide by zero" :=
  ⟨DifficultyBlock.positionMinmaxLawful_cmp, rfl,
    fun _ hpm => calculateDifficultyBitsWith_zero 0 hpm (by decide) (by decide) (by decide) rfl⟩

end Vecno
