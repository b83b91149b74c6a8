import Mathlib.Data.List.Forall2
import Vecno.Lib.Checked

/-!
# Reachability intervals and their splits

`Interval` with `size`, `split_exact` and `split_exponential`, with checked `u64` arithmetic; the
proofs hold whatever the floating-point shares are.
-/

namespace Vecno

/-- `Interval`, the closed range `[start, end]`; `end = start - 1` is the empty interval. -/
structure Interval where
  start : UInt64
  «end» : UInt64
deriving DecidableEq, Repr

namespace Interval

/-- `Interval::new`: its assertions are `debug_assert!`s, absent from a release build. -/
def new (start «end» : UInt64) : Interval := ⟨start, «end»⟩

/-- `Interval::size`, `(end + 1) - start`. -/
def size (I : Interval) : Except String Nat := do
  let e ← Checked.add 64 I.«end».toNat 1
  Checked.sub e I.start.toNat

/-- One element of the `map` in `split_exact`: the part `[start, start + size - 1]`, then
`start += size`. -/
def splitExactStep (st : Nat × List Interval) (size : UInt64) : Except String (Nat × List Interval) := do
  let e ← Checked.add 64 st.1 size.toNat
  let e ← Checked.sub e 1
  let interval := new st.1.toUInt64 e.toUInt64
  let start ← Checked.add 64 st.1 size.toNat
  pure (start, st.2 ++ [interval])

def splitExact (I : Interval) (sizes : List UInt64) : Except String (List Interval) := do
  let sum ← Checked.sum 64 (sizes.map UInt64.toNat)
  let size ← I.size
  if sum ≠ size then
    throw (Checked.assertEqFailedWith "sum of sizes must be equal to the interval's size" sum size)
  let (_, intervals) ← sizes.foldlM splitExactStep (I.start.toNat, [])
  return intervals

/-- `exponential_fractions`: `2 ^ sizes[i] / Σ_j 2 ^ sizes[j]`, each term divided by
`2 ^ max_size`. -/
def exponentialFractions (sizes : List UInt64) : List Float :=
  let maxSize := sizes.max?.getD 0
  -- `max_size - s` cannot wrap, `max_size` being the largest size
  let fractions := sizes.map fun s => 1 / Float.pow 2 (maxSize - s).toFloat
  let fractionsSum := fractions.foldl (· + ·) 0
  fractions.map (· / fractionsSum)

/-- One pass of the bias loop of `split_exponential`, at position `i` with its fraction: the last
part takes the remaining bias, the others their rounded share capped by it. -/
def biasStep (sizes : List UInt64) (last : Nat) (totalBias : Float) (st : Nat × List UInt64)
    (p : Float × Nat) : Except String (Nat × List UInt64) := do
  let bias :=
    if p.2 = last then st.1 else min st.1 (Float.round (totalBias * p.1)).toUInt64.toNat
  let size ← Checked.index sizes p.2
  let biased ← Checked.add 64 size.toNat bias
  let remaining ← Checked.sub st.1 bias
  pure (remaining, st.2 ++ [biased.toUInt64])

def splitExponential (I : Interval) (sizes : List UInt64) : Except String (List Interval) := do
  let intervalSize ← I.size
  let sizesSum ← Checked.sum 64 (sizes.map UInt64.toNat)
  if ¬ intervalSize ≥ sizesSum then
    throw "interval's size must be greater than or equal to sum of sizes"
  if ¬ sizesSum > 0 then
    throw "cannot split to 0 parts"
  if intervalSize = sizesSum then
    return ← I.splitExact sizes
  let remainingBias ← Checked.sub intervalSize sizesSum
  let totalBias := remainingBias.toUInt64.toFloat
  let expFractions := exponentialFractions sizes
  -- the loop runs only over a non-empty list, where `len() - 1` does not wrap
  let (_, biasedSizes) ← expFractions.zipIdx.foldlM
    (biasStep sizes (expFractions.length - 1) totalBias) (remainingBias, [])
  I.splitExact biasedSizes

/-! ## What a split is -/

/-- `parts` lie left to right from `start`, the `k`-th of size `sizes[k]` and the next starting
right after it. -/
def Tiles : Nat → List Nat → List Interval → Prop
  | _, [], [] => True
  | start, s :: sizes, p :: parts => p.start.toNat = start ∧ p.size = .ok s ∧ Tiles (start + s) sizes parts
  | _, _, _ => False

/-- `parts` split `I`: they tile it from its start with the given sizes, which add up to its
size. -/
structure Splits (I : Interval) (sizes : List Nat) (parts : List Interval) : Prop where
  tiles : Tiles I.start.toNat sizes parts
  size_eq : I.size = .ok sizes.sum

theorem Tiles.length_eq : ∀ {start : Nat} {sizes : List Nat} {parts : List Interval},
    Tiles start sizes parts → parts.length = sizes.length
  | _, [], [], _ => rfl
  | _, _ :: _, _ :: _, ⟨_, _, h⟩ => congrArg (· + 1) h.length_eq

theorem Tiles.size_getElem : ∀ {start : Nat} {sizes : List Nat} {parts : List Interval},
    Tiles start sizes parts → ∀ k (hk : k < parts.length) (hs : k < sizes.length),
      parts[k].size = .ok sizes[k]
  | _, _ :: _, _ :: _, ⟨_, hp, _⟩, 0, _, _ => hp
  | _, _ :: _, _ :: _, ⟨_, _, h⟩, k + 1, hk, hs => h.size_getElem k (by simpa using hk) (by simpa using hs)

theorem Tiles.start_getElem : ∀ {start : Nat} {sizes : List Nat} {parts : List Interval},
    Tiles start sizes parts → ∀ k (hk : k < parts.length),
      parts[k].start.toNat = start + (sizes.take k).sum
  | _, [], _ :: _, h, _, _ => False.elim h
  | _, _ :: _, _ :: _, ⟨hp, _, _⟩, 0, _ => hp
  | _, _ :: _, _ :: _, ⟨_, _, h⟩, k + 1, hk => by
    rw [List.getElem_cons_succ, h.start_getElem k (by simpa using hk), List.take_succ_cons,
      List.sum_cons, Nat.add_assoc]

theorem size_eq_ok {I : Interval} {n : Nat} :
    I.size = .ok n ↔ I.«end».toNat + 1 < 2 ^ 64 ∧ I.start.toNat ≤ I.«end».toNat + 1 ∧
      n = I.«end».toNat + 1 - I.start.toNat := by
  unfold size
  constructor
  · intro h
    obtain ⟨e, he, hsub⟩ := Except.bind_eq_ok.mp h
    obtain ⟨hlt, rfl⟩ := Checked.add_eq_ok.mp he
    obtain ⟨hle, rfl⟩ := Checked.sub_eq_ok.mp hsub
    exact ⟨hlt, hle, rfl⟩
  · rintro ⟨hlt, hle, rfl⟩
    rw [Checked.add_of_lt hlt, Except.ok_bind, Checked.sub_of_le hle]

/-! ## `split_exact` -/

/-- The part `[start, start + size - 1]` has size `size`, when `start` is positive. -/
theorem size_part {start s : Nat} (h0 : 0 < start) (h : start + s < 2 ^ 64) :
    (new start.toUInt64 (start + s - 1).toUInt64).size = .ok s := by
  rw [size_eq_ok]
  dsimp only [new]
  rw [Checked.toNat_toUInt64 (by omega), Checked.toNat_toUInt64 (by omega)]
  omega

theorem splitExactStep_eq {start : Nat} {acc : List Interval} {size : UInt64} (h0 : 0 < start)
    (h : start + size.toNat < 2 ^ 64) :
    splitExactStep (start, acc) size =
      .ok (start + size.toNat, acc ++ [new start.toUInt64 (start + size.toNat - 1).toUInt64]) := by
  unfold splitExactStep
  dsimp only
  rw [Checked.add_of_lt h, Except.ok_bind, Checked.sub_of_le (by omega), Except.ok_bind,
    Except.ok_bind]
  rfl

/-- The loop of `split_exact` from a positive start whose parts all fit: it tiles from there. -/
theorem foldlM_splitExactStep : ∀ (sizes : List UInt64) (start : Nat) (acc : List Interval),
    0 < start → start + (sizes.map UInt64.toNat).sum < 2 ^ 64 →
    ∃ parts, sizes.foldlM splitExactStep (start, acc) =
        .ok (start + (sizes.map UInt64.toNat).sum, acc ++ parts) ∧
      Tiles start (sizes.map UInt64.toNat) parts := by
  intro sizes
  induction sizes with
  | nil =>
    intro start acc _ _
    refine ⟨[], ?_, trivial⟩
    rw [List.foldlM_nil, List.map_nil, List.sum_nil, Nat.add_zero, List.append_nil]
    rfl
  | cons s sizes ih =>
    intro start acc h0 h
    rw [List.map_cons, List.sum_cons] at h
    -- the first part, then the rest from where it ends
    obtain ⟨parts, hfold, htiles⟩ := ih (start + s.toNat)
      (acc ++ [new start.toUInt64 (start + s.toNat - 1).toUInt64]) (by omega) (by omega)
    refine ⟨new start.toUInt64 (start + s.toNat - 1).toUInt64 :: parts, ?_, ?_⟩
    · rw [List.foldlM_cons, splitExactStep_eq h0 (by omega), Except.ok_bind, hfold, List.map_cons,
        List.sum_cons, Nat.add_assoc, List.append_assoc, List.singleton_append]
    · exact ⟨Checked.toNat_toUInt64 (by omega), size_part h0 (by omega), htiles⟩

/-- `split_exact` of an interval with a positive start, by sizes adding up to its size: the
parts split it. -/
theorem splitExact_spec {I : Interval} {sizes : List UInt64} {n : Nat} (h0 : 0 < I.start.toNat)
    (hI : I.size = .ok n) (hsum : (sizes.map UInt64.toNat).sum = n) :
    ∃ parts, I.splitExact sizes = .ok parts ∧ Splits I (sizes.map UInt64.toNat) parts := by
  obtain ⟨hlt, hle, hn⟩ := size_eq_ok.mp hI
  obtain ⟨parts, hfold, htiles⟩ := foldlM_splitExactStep sizes I.start.toNat [] h0 (by omega)
  refine ⟨parts, ?_, htiles, hsum ▸ hI⟩
  unfold splitExact
  rw [Checked.sum_of_lt (by omega), Except.ok_bind, hI, Except.ok_bind, if_neg (by omega), hfold]
  rfl

/-- From start zero, a leading empty part ends at `0 - 1`. -/
theorem splitExact_zero_start :
    (⟨0, 5⟩ : Interval).size = .ok 6 ∧ (([0, 6] : List UInt64).map UInt64.toNat).sum = 6 ∧
      (⟨0, 5⟩ : Interval).splitExact [0, 6] = .error "attempt to subtract with overflow" :=
  ⟨rfl, rfl, rfl⟩

/-! ## `split_exponential` -/

/-- What the bias loop keeps after `k` passes from a remaining bias `R`: one biased size per
position so far, none below its size, with the remaining bias and the biased sizes adding up to
`R` more than the sizes so far, and no bias left once every position is done. -/
structure BiasInv (sizes : List UInt64) (R k : Nat) (st : Nat × List UInt64) : Prop where
  length_eq : st.2.length = k
  balance : st.1 + (st.2.map UInt64.toNat).sum = R + ((sizes.map UInt64.toNat).take k).sum
  le_biased : List.Forall₂ (fun b s => s ≤ b) (st.2.map UInt64.toNat) ((sizes.map UInt64.toNat).take k)
  done : k = sizes.length → st.1 = 0

theorem length_exponentialFractions (sizes : List UInt64) :
    (exponentialFractions sizes).length = sizes.length := by
  simp only [exponentialFractions, List.length_map]

/-- One pass hands out a bias of at most what remains, all of it at the last position, whatever
the fraction. -/
theorem biasStep_eq {sizes : List UInt64} {last : Nat} {totalBias : Float} {st : Nat × List UInt64}
    {p : Float × Nat} (hi : p.2 < sizes.length) (hfit : sizes[p.2].toNat + st.1 < 2 ^ 64) :
    ∃ bias, bias ≤ st.1 ∧ (p.2 = last → bias = st.1) ∧
      biasStep sizes last totalBias st p =
        .ok (st.1 - bias, st.2 ++ [(sizes[p.2].toNat + bias).toUInt64]) := by
  have hbias : (if p.2 = last then st.1 else min st.1 (Float.round (totalBias * p.1)).toUInt64.toNat) ≤
      st.1 := by
    split
    · exact Nat.le_refl _
    · exact Nat.min_le_left _ _
  refine ⟨_, hbias, fun h => if_pos h, ?_⟩
  unfold biasStep
  rw [Checked.index, List.getElem?_eq_getElem hi]
  dsimp only
  rw [Except.ok_bind, Checked.add_of_lt (by omega), Except.ok_bind, Checked.sub_of_le hbias,
    Except.ok_bind]
  rfl

theorem sum_take_le (l : List Nat) (k : Nat) : (l.take k).sum ≤ l.sum := by
  have h := congrArg List.sum (List.take_append_drop k l)
  rw [List.sum_append] at h
  omega

/-- The bias loop from position `k` on keeps `BiasInv` and never aborts, when the sizes and the
bias fit together in a `u64`. -/
theorem foldlM_biasStep {sizes : List UInt64} {totalBias : Float} {R : Nat}
    (hfit : R + (sizes.map UInt64.toNat).sum < 2 ^ 64) :
    ∀ (fs : List Float) (k : Nat) (st : Nat × List UInt64), k + fs.length = sizes.length →
      BiasInv sizes R k st →
      ∃ st', (fs.zipIdx k).foldlM (biasStep sizes (sizes.length - 1) totalBias) st = .ok st' ∧
        BiasInv sizes R sizes.length st' := by
  intro fs
  induction fs with
  | nil =>
    intro k st hk hinv
    rw [List.length_nil, Nat.add_zero] at hk
    exact ⟨st, rfl, hk ▸ hinv⟩
  | cons f fs ih =>
    intro k st hk hinv
    rw [List.length_cons] at hk
    have hk' : k < sizes.length := by omega
    have hkmap : k < (sizes.map UInt64.toNat).length := by rw [List.length_map]; exact hk'
    -- the sizes up to `k` and the next one still fit
    have htake := List.take_append_getElem hkmap
    have hle := sum_take_le (sizes.map UInt64.toNat) (k + 1)
    rw [← htake, List.sum_append, List.sum_singleton, List.getElem_map] at hle
    have hbal := hinv.balance
    obtain ⟨bias, hbias, hlast, hstep⟩ :=
      @biasStep_eq sizes (sizes.length - 1) totalBias st (f, k) hk' (by dsimp only; omega)
    dsimp only at hlast hstep
    have hlt : sizes[k].toNat + bias < 2 ^ 64 := by omega
    obtain ⟨st', hfold, hinv'⟩ := ih (k + 1) (st.1 - bias, st.2 ++ [(sizes[k].toNat + bias).toUInt64])
      (by omega)
      { length_eq := by rw [List.length_append, hinv.length_eq, List.length_singleton]
        balance := by
          rw [List.map_append, List.sum_append, ← htake, List.sum_append, List.map_singleton,
            List.sum_singleton, List.sum_singleton, Checked.toNat_toUInt64 hlt, List.getElem_map]
          omega
        le_biased := by
          rw [List.map_append, ← htake, List.map_singleton, Checked.toNat_toUInt64 hlt,
            List.getElem_map]
          exact List.rel_append hinv.le_biased (List.Forall₂.cons (Nat.le_add_right _ _) .nil)
        done := by
          intro hdone
          dsimp only
          rw [hlast (by omega)]
          exact Nat.sub_self _ }
    refine ⟨st', ?_, hinv'⟩
    rw [List.zipIdx_cons, List.foldlM_cons, hstep, Except.ok_bind]
    exact hfold

/-- `split_exponential` of an interval with a positive start, by sizes with a positive sum that
fits it: the parts split it with sizes no smaller than those asked for, whatever the fractions. -/
theorem splitExponential_spec {I : Interval} {sizes : List UInt64} {n : Nat} (h0 : 0 < I.start.toNat)
    (hI : I.size = .ok n) (hpos : 0 < (sizes.map UInt64.toNat).sum)
    (hle : (sizes.map UInt64.toNat).sum ≤ n) :
    ∃ parts biased, I.splitExponential sizes = .ok parts ∧ Splits I biased parts ∧
      List.Forall₂ (fun b s => s ≤ b) biased (sizes.map UInt64.toNat) := by
  obtain ⟨hlt, -, hn⟩ := size_eq_ok.mp hI
  unfold splitExponential
  rw [hI, Except.ok_bind, Checked.sum_of_lt (by omega), Except.ok_bind, if_neg (by omega),
    if_neg (by omega)]
  by_cases heq : n = (sizes.map UInt64.toNat).sum
  · -- no spare capacity: the exact split
    obtain ⟨parts, hsplit, hsplits⟩ := splitExact_spec h0 hI heq.symm
    refine ⟨parts, _, ?_, hsplits, List.forall₂_same.mpr fun x _ => Nat.le_refl x⟩
    rw [if_pos heq, hsplit]
  · rw [if_neg heq, Checked.sub_of_le hle, Except.ok_bind]
    dsimp only
    rw [length_exponentialFractions]
    have hne : sizes ≠ [] := by
      rintro rfl
      exact absurd hpos (Nat.lt_irrefl 0)
    obtain ⟨⟨rest, biased⟩, hfold, hinv⟩ :=
      @foldlM_biasStep sizes (n - (sizes.map UInt64.toNat).sum).toUInt64.toFloat
        (n - (sizes.map UInt64.toNat).sum) (by omega)
        (exponentialFractions sizes) 0 (n - (sizes.map UInt64.toNat).sum, [])
        (by rw [Nat.zero_add, length_exponentialFractions])
        { length_eq := rfl
          balance := by simp
          le_biased := by simp
          done := fun h => absurd (List.length_eq_zero_iff.mp h.symm) hne }
    have hbal := hinv.balance
    have hrest := hinv.done rfl
    have hmap : (sizes.map UInt64.toNat).take sizes.length = sizes.map UInt64.toNat := by
      rw [List.take_of_length_le (by rw [List.length_map])]
    dsimp only at hbal hrest
    rw [hmap, hrest, Nat.zero_add] at hbal
    obtain ⟨parts, hsplit, hsplits⟩ := splitExact_spec h0 hI (by omega : (biased.map UInt64.toNat).sum = n)
    refine ⟨parts, biased.map UInt64.toNat, ?_, hsplits, ?_⟩
    · rw [hfold, Except.ok_bind]
      exact hsplit
    · have := hinv.le_biased
      rwa [hmap] at this

/-- Both splits divide an interval with a positive start: `split_exact` by sizes adding up to
its size, `split_exponential` by sizes with a positive sum that fits it, into parts no smaller
than the sizes asked for. -/
theorem split_partitions :
    (∀ (I : Interval) (sizes : List UInt64) (n : Nat), 0 < I.start.toNat → I.size = .ok n →
      (sizes.map UInt64.toNat).sum = n →
      ∃ parts, I.splitExact sizes = .ok parts ∧ Splits I (sizes.map UInt64.toNat) parts) ∧
    (∀ (I : Interval) (sizes : List UInt64) (n : Nat), 0 < I.start.toNat → I.size = .ok n →
      0 < (sizes.map UInt64.toNat).sum → (sizes.map UInt64.toNat).sum ≤ n →
      ∃ parts biased, I.splitExponential sizes = .ok parts ∧ Splits I biased parts ∧
        List.Forall₂ (fun b s => s ≤ b) biased (sizes.map UInt64.toNat)) :=
  ⟨fun _ _ _ h0 hI hsum => splitExact_spec h0 hI hsum,
    fun _ _ _ h0 hI hpos hle => splitExponential_spec h0 hI hpos hle⟩

/-- `[1, 10]` split exactly by `[3, 7]` and exponentially by `[1, 2]`. -/
theorem split_partitions_ten :
    (0 < (⟨1, 10⟩ : Interval).start.toNat ∧ (⟨1, 10⟩ : Interval).size = .ok 10 ∧
      (([3, 7] : List UInt64).map UInt64.toNat).sum = 10 ∧
      ∃ parts, (⟨1, 10⟩ : Interval).splitExact [3, 7] = .ok parts ∧
        Splits ⟨1, 10⟩ (([3, 7] : List UInt64).map UInt64.toNat) parts) ∧
    (0 < (⟨1, 10⟩ : Interval).start.toNat ∧ (⟨1, 10⟩ : Interval).size = .ok 10 ∧
      0 < (([1, 2] : List UInt64).map UInt64.toNat).sum ∧
      (([1, 2] : List UInt64).map UInt64.toNat).sum ≤ 10 ∧
      ∃ parts biased, (⟨1, 10⟩ : Interval).splitExponential [1, 2] = .ok parts ∧
        Splits ⟨1, 10⟩ biased parts ∧
        List.Forall₂ (fun b s => s ≤ b) biased (([1, 2] : List UInt64).map UInt64.toNat)) :=
  ⟨⟨by decide, rfl, rfl, split_partitions.1 ⟨1, 10⟩ [3, 7] 10 (by decide) rfl rfl⟩,
    ⟨by decide, rfl, by decide, by decide,
      split_partitions.2 ⟨1, 10⟩ [1, 2] 10 (by decide) rfl (by decide) (by decide)⟩⟩

end Interval

end Vecno
