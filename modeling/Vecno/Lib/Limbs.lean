import Mathlib.Data.Nat.Digits.Lemmas
import Mathlib.Algebra.BigOperators.Intervals
import Mathlib.Algebra.BigOperators.Ring.Finset
import Mathlib.Algebra.Order.BigOperators.Group.Finset
import Mathlib.Data.List.GetD
import Mathlib.Tactic.Ring
import Mathlib.Tactic.LinearCombination
import Vecno.Lib.LittleEndian

/-!
# Little-endian 64-bit limbs

Numbers as limb lists: value, digits, bytes and schoolbook columns. A carry loop keeps one
conservation law, `carryMap_value`.
-/

namespace Limbs

open Finset

/-- The value of little-endian 64-bit limbs. -/
def value (ls : List UInt64) : Nat := Nat.ofDigits (2 ^ 64) (ls.map UInt64.toNat)

@[simp] theorem value_nil : value [] = 0 := rfl

@[simp] theorem value_cons (l : UInt64) (ls : List UInt64) :
    value (l :: ls) = l.toNat + 2 ^ 64 * value ls := by
  simp [value, Nat.ofDigits_cons]

theorem value_map_not (ls : List UInt64) :
    value (ls.map (~~~ ·)) + value ls = 2 ^ (64 * ls.length) - 1 := by
  induction ls with
  | nil => rfl
  | cons a ls ih =>
    have ha := a.toNat_lt
    have hB : 1 ≤ 2 ^ (64 * ls.length) := Nat.one_le_two_pow
    rw [List.map_cons, value_cons, value_cons, UInt64.toNat_not,
      show UInt64.size = 2 ^ 64 from rfl, List.length_cons, Nat.mul_succ, pow_add]
    generalize 2 ^ (64 * ls.length) = B at ih hB ⊢
    omega

theorem value_append (xs ys : List UInt64) :
    value (xs ++ ys) = value xs + 2 ^ (64 * xs.length) * value ys := by
  simp [value, Nat.ofDigits_append, Nat.pow_mul]

theorem toNat_lt_of_mem_map (ls : List UInt64) : ∀ x ∈ ls.map UInt64.toNat, x < 2 ^ 64 := by
  intro x hx
  obtain ⟨l, -, rfl⟩ := List.mem_map.mp hx
  exact l.toNat_lt

theorem value_lt (ls : List UInt64) : value ls < 2 ^ (64 * ls.length) := by
  have h := Nat.ofDigits_lt_base_pow_length (b := 2 ^ 64) (l := ls.map UInt64.toNat)
    (by decide) (toNat_lt_of_mem_map ls)
  rwa [List.length_map, ← Nat.pow_mul] at h

theorem value_replicate_max (n : Nat) :
    value (List.replicate n 0xffffffffffffffff) = 2 ^ (64 * n) - 1 := by
  induction n with
  | zero => rfl
  | succ n ih =>
    have hpos := Nat.one_le_two_pow (n := 64 * n)
    rw [List.replicate_succ, value_cons, ih, Nat.mul_succ, Nat.add_comm (64 * n), pow_add]
    change 2 ^ 64 - 1 + 2 ^ 64 * (2 ^ (64 * n) - 1) = 2 ^ 64 * 2 ^ (64 * n) - 1
    rw [Nat.mul_sub, Nat.mul_one]
    have : 2 ^ 64 ≤ 2 ^ 64 * 2 ^ (64 * n) := Nat.le_mul_of_pos_right _ hpos
    omega

theorem value_inj {xs ys : List UInt64} (h : xs.length = ys.length) (hv : value xs = value ys) :
    xs = ys := by
  have hmap : xs.map UInt64.toNat = ys.map UInt64.toNat :=
    Nat.ofDigits_inj_of_len_eq (by decide) (by simp [h]) (toNat_lt_of_mem_map xs)
      (toNat_lt_of_mem_map ys) hv
  exact List.map_injective_iff.mpr (fun _ _ hab => UInt64.toNat_inj.mp hab) hmap

/-- Limb `i`, zero past the end. -/
def digit (ls : List UInt64) (i : Nat) : Nat := (ls.getD i 0).toNat

@[simp] theorem digit_nil (i : Nat) : digit [] i = 0 := rfl

@[simp] theorem digit_cons_zero (l : UInt64) (ls : List UInt64) : digit (l :: ls) 0 = l.toNat :=
  rfl

@[simp] theorem digit_cons_succ (l : UInt64) (ls : List UInt64) (i : Nat) :
    digit (l :: ls) (i + 1) = digit ls i :=
  rfl

theorem digit_lt (ls : List UInt64) (i : Nat) : digit ls i < 2 ^ 64 := UInt64.toNat_lt _

theorem digit_of_le {ls : List UInt64} {i : Nat} (h : ls.length ≤ i) : digit ls i = 0 := by
  rw [digit, List.getD_eq_default _ _ h]
  rfl

theorem value_drop_eq_zero : ∀ {ls : List UInt64} {k : Nat}, (∀ j, k ≤ j → digit ls j = 0) →
    value (ls.drop k) = 0
  | [], _, _ => by rw [List.drop_nil, value_nil]
  | l :: ls, 0, h => by
    have hl : l.toNat = 0 := h 0 (Nat.le_refl 0)
    have hrest := @value_drop_eq_zero ls 0 fun j _ => h (j + 1) (by omega)
    rw [List.drop_zero] at hrest ⊢
    rw [value_cons, hl, hrest, Nat.mul_zero]
  | _ :: ls, k + 1, h => by
    rw [List.drop_succ_cons]
    exact @value_drop_eq_zero ls _ fun j hj => h (j + 1) (by omega)

theorem value_take_succ {ls : List UInt64} {n : Nat} (h : n < ls.length) :
    value (ls.take (n + 1)) = value (ls.take n) + 2 ^ (64 * n) * digit ls n := by
  rw [List.take_add_one, List.getElem?_eq_getElem h, Option.toList_some, value_append,
    List.length_take_of_le (by omega), value_cons, value_nil, Nat.mul_zero, Nat.add_zero, digit,
    List.getD_eq_getElem _ _ h]

theorem take_succ_set {α : Type} {l : List α} {j : Nat} (h : j < l.length) (v : α) :
    (l.set j v).take (j + 1) = l.take j ++ [v] := by
  have hlen : (l.take j).length = j := List.length_take_of_le (by omega)
  rw [List.take_set, List.take_add_one, List.getElem?_eq_getElem h, Option.toList_some,
    List.set_append_right _ _ (by omega), hlen, Nat.sub_self]
  rfl

theorem drop_succ_set {α : Type} (l : List α) (j : Nat) (v : α) :
    (l.set j v).drop (j + 1) = l.drop (j + 1) := by
  rw [List.drop_set, if_pos (by omega)]

theorem value_eq_sum {ls : List UInt64} {n : Nat} (h : ls.length ≤ n) :
    value ls = ∑ i ∈ range n, digit ls i * 2 ^ (64 * i) := by
  induction ls generalizing n with
  | nil => simp
  | cons l ls ih =>
    obtain ⟨m, rfl⟩ : ∃ m, n = m + 1 := ⟨n - 1, by simp at h; omega⟩
    rw [sum_range_succ', value_cons, ih (by simp at h; omega), mul_sum, Nat.add_comm]
    simp only [digit_cons_succ, digit_cons_zero, Nat.mul_zero, pow_zero, Nat.mul_one]
    refine congrArg (· + l.toNat) (sum_congr rfl fun i _ => ?_)
    rw [Nat.mul_add, Nat.mul_one, pow_add]
    ring

/-- Column `k` of the schoolbook product: the limb products whose indices add up to `k`. -/
def column (a b : List UInt64) (k : Nat) : Nat :=
  ∑ i ∈ range (k + 1), digit a i * digit b (k - i)

theorem column_cons_zero (x : UInt64) (a b : List UInt64) :
    column (x :: a) b 0 = x.toNat * digit b 0 := by
  simp [column]

theorem column_cons_succ (x : UInt64) (a b : List UInt64) (k : Nat) :
    column (x :: a) b (k + 1) = x.toNat * digit b (k + 1) + column a b k := by
  rw [column, sum_range_succ', Nat.add_comm]
  simp only [digit_cons_succ, digit_cons_zero, Nat.sub_zero, column]
  congr 1
  refine sum_congr rfl fun i hi => ?_
  rw [Nat.add_sub_add_right]

/-- The schoolbook product: the columns, each at the weight of its index sum. -/
theorem value_mul (a b : List UInt64) :
    value a * value b = ∑ k ∈ range (a.length + b.length), column a b k * 2 ^ (64 * k) := by
  induction a with
  | nil => simp [column]
  | cons x a ih =>
    -- the first limb multiplies every limb of `b`; the others are the columns of `a`, one limb up
    have hb : x.toNat * value b = ∑ k ∈ range (a.length + b.length),
        x.toNat * digit b (k + 1) * 2 ^ (64 * (k + 1)) + x.toNat * digit b 0 * 2 ^ (64 * 0) := by
      rw [value_eq_sum (n := a.length + b.length + 1) (by omega), sum_range_succ', Nat.mul_add,
        mul_sum]
      simp only [Nat.mul_assoc]
    have ha : ∑ k ∈ range (a.length + b.length), column a b k * 2 ^ (64 * (k + 1)) =
        2 ^ 64 * (value a * value b) := by
      rw [ih, mul_sum]
      refine sum_congr rfl fun k _ => ?_
      rw [Nat.mul_add 64 k 1, pow_add]
      ring
    rw [List.length_cons, Nat.add_right_comm, sum_range_succ', column_cons_zero]
    simp only [column_cons_succ, Nat.add_mul, sum_add_distrib]
    rw [ha, value_cons, Nat.add_mul, Nat.mul_assoc, hb]
    ring

/-- Column `n + j` of the product of two `n`-limb numbers: only the indices from `j + 1` below `n`
have both limbs. -/
theorem column_eq_high {a b : List UInt64} {n j : Nat} (ha : a.length = n) (hb : b.length = n)
    (hj : j + 1 ≤ n) :
    column a b (n + j) =
      ∑ k ∈ range (n - (j + 1)), digit a (j + 1 + k) * digit b (n + j - (j + 1 + k)) := by
  have hlow : ∑ i ∈ range (j + 1), digit a i * digit b (n + j - i) = 0 :=
    sum_eq_zero fun i hi => by
      rw [@digit_of_le b _ (by simp at hi; omega), Nat.mul_zero]
  have hhigh : ∑ k ∈ range (j + 1),
      digit a (j + 1 + (n - (j + 1) + k)) * digit b (n + j - (j + 1 + (n - (j + 1) + k))) = 0 :=
    sum_eq_zero fun k _ => by rw [@digit_of_le a _ (by omega), Nat.zero_mul]
  rw [column, show n + j + 1 = (j + 1) + ((n - (j + 1)) + (j + 1)) by omega, sum_range_add,
    hlow, Nat.zero_add, sum_range_add, hhigh, Nat.add_zero]

theorem column_eq_zero {a b : List UInt64} {n k : Nat} (ha : a.length ≤ n) (hb : b.length ≤ n)
    (hk : 2 * n ≤ k + 1) : column a b k = 0 :=
  sum_eq_zero fun i hi => by
    by_cases hin : n ≤ i
    · rw [digit_of_le (by omega), Nat.zero_mul]
    · rw [@digit_of_le b _ (by simp at hi; omega), Nat.mul_zero]

/-- The `m` limbs cut from the low end of `n` hold `n` modulo `2 ^ (64 * m)`. -/
theorem value_ofFn_div (m : Nat) : ∀ n : Nat,
    value (List.ofFn fun i : Fin m => UInt64.ofNat (n / 2 ^ (64 * i.val))) = n % 2 ^ (64 * m) := by
  induction m with
  | zero => intro n; simp [Nat.mod_one]
  | succ m ih =>
    intro n
    -- limb `i + 1` of `n` is limb `i` of `n / 2 ^ 64`
    have hshift : (fun i : Fin m => UInt64.ofNat (n / 2 ^ (64 * (i.succ).val))) =
        fun i : Fin m => UInt64.ofNat (n / 2 ^ 64 / 2 ^ (64 * i.val)) := by
      funext i
      rw [Fin.val_succ, Nat.div_div_eq_div_mul, ← Nat.pow_add, Nat.mul_add, Nat.mul_one, Nat.add_comm]
    rw [List.ofFn_succ, value_cons, hshift, ih, Fin.val_zero, Nat.mul_zero, Nat.pow_zero, Nat.div_one,
      UInt64.toNat_ofNat', Nat.mul_succ, Nat.pow_add, Nat.mul_comm (2 ^ (64 * m)), Nat.mod_mul]

theorem digit_eq_div_mod (ls : List UInt64) (i : Nat) :
    digit ls i = value ls / 2 ^ (64 * i) % 2 ^ 64 := by
  induction ls generalizing i with
  | nil => simp [value]
  | cons l ls ih =>
    cases i with
    | zero =>
      rw [digit_cons_zero, value_cons, Nat.mul_zero, Nat.pow_zero, Nat.div_one, Nat.add_mul_mod_self_left,
        Nat.mod_eq_of_lt l.toNat_lt]
    | succ i =>
      rw [digit_cons_succ, ih, value_cons, Nat.mul_succ, Nat.pow_add, Nat.mul_comm (2 ^ (64 * i)),
        ← Nat.div_div_eq_div_mul, Nat.add_mul_div_left _ _ (Nat.two_pow_pos 64),
        Nat.div_eq_of_lt l.toNat_lt, Nat.zero_add]

/-- Limbs whose every digit is the digit of `N` at its place hold `N` modulo their width. -/
theorem value_eq_mod_of_digit {ls : List UInt64} {N : Nat}
    (h : ∀ i < ls.length, digit ls i = N / 2 ^ (64 * i) % 2 ^ 64) :
    value ls = N % 2 ^ (64 * ls.length) := by
  have hls : ls = List.ofFn fun i : Fin ls.length => UInt64.ofNat (N / 2 ^ (64 * i.val)) := by
    apply List.ext_getElem (by simp)
    intro i h1 h2
    have hd := h i h1
    rw [digit, List.getD_eq_getElem _ _ h1] at hd
    rw [List.getElem_ofFn]
    apply UInt64.toNat_inj.mp
    rw [hd, UInt64.toNat_ofNat']
  rw [hls, value_ofFn_div, List.length_ofFn]

theorem testBit_digit (ls : List UInt64) (k : Nat) {b : Nat} (hb : b < 64) :
    (digit ls k).testBit b = (value ls).testBit (64 * k + b) := by
  rw [digit_eq_div_mod, Nat.testBit_mod_two_pow, decide_eq_true hb, Bool.true_and,
    Nat.testBit_div_two_pow, Nat.add_comm]

/-- Limbs whose every bit is the bit of `N` at its place hold `N` modulo their width. -/
theorem value_eq_mod_of_testBit {ls : List UInt64} {N : Nat}
    (h : ∀ i < ls.length, ∀ b < 64, (digit ls i).testBit b = N.testBit (64 * i + b)) :
    value ls = N % 2 ^ (64 * ls.length) := by
  apply value_eq_mod_of_digit
  intro i hi
  apply Nat.eq_of_testBit_eq
  intro b
  rw [Nat.testBit_mod_two_pow, Nat.testBit_div_two_pow]
  by_cases hb : b < 64
  · rw [h i hi b hb, decide_eq_true hb, Bool.true_and, Nat.add_comm]
  · rw [decide_eq_false hb, Bool.false_and]
    exact Nat.testBit_lt_two_pow (Nat.lt_of_lt_of_le (digit_lt ls i) (Nat.pow_le_pow_right (by decide) (by omega)))

theorem sum_two_pow_lt (m : Nat) : ∑ t ∈ range m, 2 ^ (64 * t) < 2 ^ (64 * m) := by
  induction m with
  | zero => simp
  | succ m ih =>
    rw [sum_range_succ, Nat.mul_succ, Nat.pow_add]
    have hpos : 0 < 2 ^ (64 * m) := Nat.two_pow_pos _
    omega

/-- Digits bounded by `K`, at the limb weights, sum to at most `K` times the weights. -/
theorem sum_mul_two_pow_le {c : Nat → Nat} {K : Nat} (m : Nat) (h : ∀ t < m, c t ≤ K) :
    ∑ t ∈ range m, c t * 2 ^ (64 * t) ≤ K * ∑ t ∈ range m, 2 ^ (64 * t) := by
  rw [mul_sum]
  exact sum_le_sum fun t ht => Nat.mul_le_mul_right _ (h t (mem_range.mp ht))

/-- The product of two `n`-limb numbers: its `n` low columns, and `2 ^ (64 * n)` times the
`n - 1` columns above them (the top column is empty). -/
theorem value_mul_split {a b : List UInt64} {n : Nat} (ha : a.length = n) (hb : b.length = n)
    (hn : 0 < n) :
    value a * value b = ∑ t ∈ range n, column a b t * 2 ^ (64 * t) +
      2 ^ (64 * n) * ∑ t ∈ range (n - 1), column a b (n + t) * 2 ^ (64 * t) := by
  obtain ⟨m, rfl⟩ : ∃ m, n = m + 1 := ⟨n - 1, by omega⟩
  have htop : column a b (m + 1 + m) = 0 := column_eq_zero ha.le hb.le (by omega)
  rw [value_mul, ha, hb, sum_range_add, sum_range_succ (fun t => column a b (m + 1 + t) * _), htop,
    Nat.zero_mul, Nat.add_sub_cancel, mul_sum]
  simp only [Nat.add_zero]
  refine congrArg (_ + ·) (sum_congr rfl fun t _ => ?_)
  rw [Nat.mul_add, pow_add, Nat.mul_left_comm]

theorem add_mul_modEq {m d : Nat} (x y : Nat) (h : d ≤ m) :
    x + m * y ≡ x + d * y [MOD m - d] := by
  have hsplit : x + m * y = (x + d * y) + y * (m - d) := by
    rw [Nat.mul_sub, Nat.mul_comm y m, Nat.mul_comm y d]
    have : d * y ≤ m * y := Nat.mul_le_mul_right y h
    omega
  rw [hsplit]
  exact Nat.add_mul_mod_self_right _ _ _

/-- The little-endian bytes of the limbs, eight for each limb. -/
def toLeBytes (ls : List UInt64) : List UInt8 :=
  ls.flatMap fun l => LittleEndian.toLeBytes 8 l.toNat

@[simp] theorem length_toLeBytes (ls : List UInt64) : (toLeBytes ls).length = 8 * ls.length := by
  induction ls with
  | nil => rfl
  | cons l ls ih =>
    rw [toLeBytes, List.flatMap_cons, List.length_append, LittleEndian.length_toLeBytes,
      ← toLeBytes, ih, List.length_cons]
    ring

theorem fromLeBytes_toLeBytes (ls : List UInt64) :
    LittleEndian.fromLeBytes (toLeBytes ls) = value ls := by
  induction ls with
  | nil => rfl
  | cons l ls ih =>
    rw [toLeBytes, List.flatMap_cons, LittleEndian.fromLeBytes_append,
      LittleEndian.fromLeBytes_toLeBytes_of_lt (by simpa using l.toNat_lt),
      LittleEndian.length_toLeBytes, ← toLeBytes, ih, value_cons]
    rfl

theorem chunk_toLeBytes {ls : List UInt64} {i : Nat} (h : i < ls.length) :
    ((toLeBytes ls).drop (8 * i)).take 8 = LittleEndian.toLeBytes 8 (ls.getD i 0).toNat := by
  induction ls generalizing i with
  | nil => simp at h
  | cons l ls ih =>
    rw [toLeBytes, List.flatMap_cons, ← toLeBytes]
    cases i with
    | zero => simp
    | succ i =>
      rw [Nat.mul_succ, Nat.add_comm, ← List.drop_drop,
        List.drop_left' (LittleEndian.length_toLeBytes 8 _), ih (by simpa using h)]
      rfl

/-- Digits read at the limb weights, least significant first; the digits may be any integers. -/
def weighted (ds : List Int) : Int := ds.foldr (fun d acc => d + 2 ^ 64 * acc) 0

@[simp] theorem weighted_nil : weighted [] = 0 := rfl

@[simp] theorem weighted_cons (d : Int) (ds : List Int) :
    weighted (d :: ds) = d + 2 ^ 64 * weighted ds := rfl

/-- A loop over limbs from the lowest up: `step` reads an input and the carry, and writes a limb
and the next carry. -/
def carryMap {α C : Type} (step : α → C → UInt64 × C) : List α → C → List UInt64 × C
  | [], c => ([], c)
  | a :: as, c =>
    let r := step a c
    let rest := carryMap step as r.2
    (r.1 :: rest.1, rest.2)

section CarryMap

variable {α C : Type} (step : α → C → UInt64 × C)

@[simp] theorem length_carryMap (as : List α) (c : C) : (carryMap step as c).1.length = as.length := by
  induction as generalizing c with
  | nil => rfl
  | cons a as ih => simp [carryMap, ih]

/-- The conservation law of a carry loop: when each step, from a carry that keeps the invariant
`I`, writes its digit and carry exactly and keeps `I`, the limbs written and the carry out weigh
what the inputs and the carry in weigh. -/
theorem carryMap_value (d : α → Int) (w : C → Int) (I : C → Prop)
    (hinv : ∀ a c, I c → I (step a c).2)
    (hstep : ∀ a c, I c → ((step a c).1.toNat : Int) + 2 ^ 64 * w (step a c).2 = d a + w c)
    (as : List α) {c : C} (hc : I c) :
    (value (carryMap step as c).1 : Int) + 2 ^ (64 * as.length) * w (carryMap step as c).2 =
      weighted (as.map d) + w c := by
  induction as generalizing c with
  | nil => simp [carryMap]
  | cons a as ih =>
    have hrest := ih (hinv a c hc)
    have ha := hstep a c hc
    simp only [carryMap, value_cons, List.length_cons, List.map_cons, weighted_cons]
    rw [Nat.mul_succ, pow_add]
    push_cast
    linear_combination 2 ^ 64 * hrest + ha

theorem carryMap_inv (I : C → Prop) (hinv : ∀ a c, I c → I (step a c).2) (as : List α) {c : C}
    (hc : I c) : I (carryMap step as c).2 := by
  induction as generalizing c with
  | nil => exact hc
  | cons a as ih => exact ih (hinv a c hc)

end CarryMap

theorem weighted_zip_add {xs ys : List UInt64} (h : xs.length = ys.length) :
    weighted ((xs.zip ys).map fun p => (p.1.toNat : Int) + p.2.toNat) = value xs + value ys := by
  induction xs generalizing ys with
  | nil => cases ys <;> simp_all
  | cons x xs ih =>
    cases ys with
    | nil => simp at h
    | cons y ys =>
      simp only [List.zip_cons_cons, List.map_cons, weighted_cons, value_cons]
      rw [ih (by simpa using h)]
      push_cast
      ring

theorem weighted_zip_sub {xs ys : List UInt64} (h : xs.length = ys.length) :
    weighted ((xs.zip ys).map fun p => (p.1.toNat : Int) - p.2.toNat) = value xs - value ys := by
  induction xs generalizing ys with
  | nil => cases ys <;> simp_all
  | cons x xs ih =>
    cases ys with
    | nil => simp at h
    | cons y ys =>
      simp only [List.zip_cons_cons, List.map_cons, weighted_cons, value_cons]
      rw [ih (by simpa using h)]
      push_cast
      ring

theorem weighted_map_mul (xs : List UInt64) (m : Nat) :
    weighted (xs.map fun x => (x.toNat : Int) * m) = value xs * m := by
  induction xs with
  | nil => simp
  | cons x xs ih =>
    simp only [List.map_cons, weighted_cons, value_cons, ih]
    push_cast
    ring

/-- A row of a product: limbs of `xs` times `m`, each added to the limb of `rs` at its place, as
far as `rs` reaches. -/
theorem weighted_zip_mul_add {xs rs : List UInt64} (h : rs.length ≤ xs.length) (m : Nat) :
    weighted ((xs.zip rs).map fun p => (p.1.toNat : Int) * m + p.2.toNat) =
      value (xs.take rs.length) * m + value rs := by
  induction rs generalizing xs with
  | nil => simp
  | cons r rs ih =>
    cases xs with
    | nil => simp at h
    | cons x xs =>
      simp only [List.zip_cons_cons, List.map_cons, weighted_cons, List.length_cons,
        List.take_succ_cons, value_cons]
      rw [ih (by simpa using h)]
      push_cast
      ring

end Limbs
