import Mathlib.Data.Nat.Size
import Vecno.Lib.Limbs

/-!
# Fixed-width unsigned integers

`construct_uint!` as `Uint n`, a list of `n` little-endian 64-bit words. Its loops are the
recursions they run, its `u128` intermediates are numbers, and the operators keep the value of the
`overflowing_` functions, as in the release build.
-/

namespace Vecno

/-- `construct_uint!`'s `$name([u64; $n_words])`, least significant word first. -/
structure Uint (n : Nat) where
  limbs : List UInt64
  length_limbs : limbs.length = n
deriving DecidableEq

def overflowingAddU64 (a b : UInt64) : UInt64 × Bool :=
  (a + b, decide (2 ^ 64 ≤ a.toNat + b.toNat))

def overflowingSubU64 (a b : UInt64) : UInt64 × Bool :=
  (a - b, decide (a.toNat < b.toNat))

/-- `carrying_add_u64` of `overflowing_add`. -/
def carryingAddU64 (lhs rhs : UInt64) (carry : Bool) : UInt64 × Bool :=
  let (a, b) := overflowingAddU64 lhs rhs
  let (c, d) := overflowingAddU64 a carry.toUInt64
  (c, b != d)

/-- `borrowing_sub_u64` of `overflowing_sub`. -/
def borrowingSubU64 (lhs rhs : UInt64) (borrow : Bool) : UInt64 × Bool :=
  let (a, b) := overflowingSubU64 lhs rhs
  let (c, d) := overflowingSubU64 a borrow.toUInt64
  (c, b != d)

/-- `u64::leading_zeros`: the zero bits above the highest set bit. -/
def leadingZerosU64 (w : UInt64) : Nat := 64 - w.toNat.size

namespace Uint

variable {n : Nat}

/-- The number the words stand for. -/
def value (x : Uint n) : Nat := Limbs.value x.limbs

/-- `self.0[i]`, zero past the top. -/
def limb (x : Uint n) (i : Nat) : UInt64 := x.limbs.getD i 0

/-- The words given one by one. -/
def ofFn (f : Nat → UInt64) : Uint n := ⟨List.ofFn fun i : Fin n => f i, List.length_ofFn⟩

def zero : Uint n := ⟨List.replicate n 0, List.length_replicate⟩

def bitsWidth (_ : Uint n) : Nat := 64 * n

def fromU64 (v : UInt64) : Uint n := ofFn fun i => if i = 0 then v else 0

def asU64 (x : Uint n) : UInt64 := x.limb 0

def isZero (x : Uint n) : Bool := x.limbs.all (· == 0)

/-- `bits`: from the highest non-zero word, the bits up to its highest set bit. -/
def bits (x : Uint n) : Nat :=
  match (List.range n).reverse.find? (fun i => x.limb i != 0) with
  | some i => 64 * (i + 1) - leadingZerosU64 (x.limb i)
  | none => 0

/-- `overflowing_shl`. The first loop writes word `i` from word `i - left_words` shifted, the
second completes it with the bits shifted out of the word below. -/
def overflowingShl (x : Uint n) (s : Nat) : Uint n × Bool :=
  let overflows := decide (64 * n ≤ s)
  let s := s % (64 * n)
  let leftWords := s / 64
  let leftShifts := s % 64
  let ret := ofFn fun i =>
    if i < leftWords then 0
    else
      let shifted := x.limb (i - leftWords) <<< leftShifts.toUInt64
      if 0 < leftShifts ∧ leftWords + 1 ≤ i then
        shifted ||| x.limb (i - 1 - leftWords) >>> (64 - leftShifts).toUInt64
      else shifted
  (ret, overflows)

/-- `overflowing_shr`. The first loop writes word `i` from word `i + left_words` shifted, the
second completes it with the bits shifted out of the word above. -/
def overflowingShr (x : Uint n) (s : Nat) : Uint n × Bool :=
  let overflows := decide (64 * n ≤ s)
  let s := s % (64 * n)
  let leftWords := s / 64
  let leftShifts := s % 64
  let ret := ofFn fun i =>
    if i + leftWords < n then
      let shifted := x.limb (i + leftWords) >>> leftShifts.toUInt64
      if 0 < leftShifts ∧ i + leftWords + 1 < n then
        shifted ||| x.limb (i + leftWords + 1) <<< (64 - leftShifts).toUInt64
      else shifted
    else 0
  (ret, overflows)

def shl (x : Uint n) (s : Nat) : Uint n := (x.overflowingShl s).1

def shr (x : Uint n) (s : Nat) : Uint n := (x.overflowingShr s).1

theorem length_zip (x y : Uint n) : (x.limbs.zip y.limbs).length = n := by
  rw [List.length_zip, x.length_limbs, y.length_limbs, Nat.min_self]

/-- `overflowing_add`: word by word from the lowest, with the carry. -/
def overflowingAdd (x y : Uint n) : Uint n × Bool :=
  let r := Limbs.carryMap (fun p carry => carryingAddU64 p.1 p.2 carry) (x.limbs.zip y.limbs) false
  (⟨r.1, by rw [Limbs.length_carryMap, length_zip]⟩, r.2)

/-- `overflowing_sub`: word by word from the lowest, with the borrow. -/
def overflowingSub (x y : Uint n) : Uint n × Bool :=
  let r := Limbs.carryMap (fun p borrow => borrowingSubU64 p.1 p.2 borrow) (x.limbs.zip y.limbs) false
  (⟨r.1, by rw [Limbs.length_carryMap, length_zip]⟩, r.2)

def add (x y : Uint n) : Uint n := (x.overflowingAdd y).1

def sub (x y : Uint n) : Uint n := (x.overflowingSub y).1

/-- `Not`: every word complemented. -/
def not (x : Uint n) : Uint n :=
  ⟨x.limbs.map (~~~ ·), by rw [List.length_map, x.length_limbs]⟩

/-- `overflowing_add_u64`: `other` added to the lowest word and the carry rippled up. The source
stops at the first word with no carry in; adding that zero carry to the words above changes
nothing. -/
def overflowingAddU64 (x : Uint n) (other : UInt64) : Uint n × Bool :=
  let r := Limbs.carryMap (fun w (c : UInt64) =>
    ((Vecno.overflowingAddU64 w c).1, (Vecno.overflowingAddU64 w c).2.toUInt64)) x.limbs other
  (⟨r.1, by rw [Limbs.length_carryMap, x.length_limbs]⟩, r.2 != 0)

def addU64 (x : Uint n) (other : UInt64) : Uint n := (x.overflowingAddU64 other).1

/-- One pass of the loop of `carrying_mul_u64`: the `u128` `carry + other * word`, its low word
written and its high word carried. -/
def mulU64Step (other : UInt64) (word : UInt64) (carry : Nat) : UInt64 × Nat :=
  let t := carry + other.toNat * word.toNat
  (UInt64.ofNat t, (t >>> 64) &&& (2 ^ 64 - 1))

def carryingMulU64 (x : Uint n) (other : UInt64) : Uint n × UInt64 :=
  let r := Limbs.carryMap (mulU64Step other) x.limbs 0
  (⟨r.1, by rw [Limbs.length_carryMap, x.length_limbs]⟩, UInt64.ofNat r.2)

def overflowingMulU64 (x : Uint n) (other : UInt64) : Uint n × Bool :=
  let (this, carry) := x.carryingMulU64 other
  (this, carry != 0)

def mulU64 (x : Uint n) (other : UInt64) : Uint n := (x.overflowingMulU64 other).1

/-- One pass of the inner loop of `overflowing_mul`: the `u128`
`self[i] * other[j] + result[i + j] + carry`, its low word written and its high word carried. -/
def mulStep (yj : UInt64) (p : UInt64 × UInt64) (carry : UInt64) : UInt64 × UInt64 :=
  let t := p.1.toNat * yj.toNat + p.2.toNat + carry.toNat
  (UInt64.ofNat t, UInt64.ofNat (t >>> 64))

/-- Row `j` of `overflowing_mul`: `self * other[j]` added into `result` from word `j` up, as far as
`i + j < LIMBS`; the results are the new `result` and the carry out of its top. -/
def mulRow (x : Uint n) (yj : UInt64) (j : Nat) (result : Uint n) : Uint n × UInt64 :=
  let r := Limbs.carryMap (mulStep yj) (x.limbs.zip (result.limbs.drop j)) 0
  (⟨result.limbs.take j ++ r.1, by
    rw [List.length_append, Limbs.length_carryMap, List.length_zip, List.length_take,
      List.length_drop, x.length_limbs, result.length_limbs]
    omega⟩, r.2)

/-- Pass `j` of the outer loop of `overflowing_mul`: row `j`, its carry joining `carry_out`. -/
def mulPass (x y : Uint n) (st : Uint n × Bool) (j : Nat) : Uint n × Bool :=
  let (result, carry) := x.mulRow (y.limb j) j st.1
  (result, st.2 || carry != 0)

/-- `overflowing_mul`: the rows of the schoolbook product, each row's carry out of the top word
setting the flag. -/
def overflowingMul (x y : Uint n) : Uint n × Bool :=
  (List.range n).foldl (x.mulPass y) (zero, false)

def mul (x y : Uint n) : Uint n := (x.overflowingMul y).1

/-- `Ord::cmp`: `Iterator::cmp` of the words from the most significant down. -/
def cmpLimbs : List UInt64 → List UInt64 → Ordering
  | [], [] => .eq
  | [], _ :: _ => .lt
  | _ :: _, [] => .gt
  | a :: as, b :: bs =>
    match compare a b with
    | .eq => cmpLimbs as bs
    | o => o

def cmp (x y : Uint n) : Ordering := cmpLimbs x.limbs.reverse y.limbs.reverse

/-- `>=` of `PartialOrd`. -/
def ge (x y : Uint n) : Bool := x.cmp y != .lt

/-- `Ord::min`: the first argument unless it is greater. -/
def min (x y : Uint n) : Uint n := if x.cmp y = .gt then y else x

/-- The loop of `div_rem_u64`, from the highest word down: each word below the remainder so far,
the `u128` `(rem << 64) | word`, divided by `other`. -/
def divRemLimbs (other : UInt64) : List UInt64 → List UInt64 × UInt64
  | [] => ([], 0)
  | d :: ds =>
    let (qs, rem) := divRemLimbs other ds
    let t := rem.toNat <<< 64 ||| d.toNat
    (UInt64.ofNat (t / other.toNat) :: qs, UInt64.ofNat (t % other.toNat))

theorem length_divRemLimbs (other : UInt64) (ds : List UInt64) :
    (divRemLimbs other ds).1.length = ds.length := by
  induction ds with
  | nil => rfl
  | cons d ds ih => simp [divRemLimbs, ih]

/-- `div_rem_u64`. The first division of the loop aborts on a zero divisor. -/
def divRemU64 (x : Uint n) (other : UInt64) : Except String (Uint n × UInt64) :=
  if other = 0 ∧ 0 < n then .error "attempt to divide by zero"
  else
    let r := divRemLimbs other x.limbs
    .ok (⟨r.1, by rw [length_divRemLimbs, x.length_limbs]⟩, r.2)

def divU64 (x : Uint n) (other : UInt64) : Except String (Uint n) :=
  (x.divRemU64 other).map Prod.fst

/-- `ret[i] |= 1 << v` on the quotient's words. -/
def setBit (x : Uint n) (index : Nat) (v : Nat) : Uint n :=
  ⟨x.limbs.set index (x.limb index ||| (1 : UInt64) <<< v.toUInt64), by
    rw [List.length_set, x.length_limbs]⟩

/-- The loop of `div_rem`, run for the shifts `shift, shift - 1, …, 0`: `fuel` is the number of
passes left, one more than the shift. -/
def divRemLoop : Nat → Nat → Uint n → Uint n → Uint n → Uint n × Uint n
  | 0, _, ret, subCopy, _ => (ret, subCopy)
  | fuel + 1, shift, ret, subCopy, shiftCopy =>
    let (ret, subCopy) :=
      if subCopy.ge shiftCopy then (ret.setBit (shift / 64) (shift % 64), subCopy.sub shiftCopy)
      else (ret, subCopy)
    let shiftCopy := shiftCopy.shr 1
    -- `if shift == 0 { break; } shift -= 1;`
    divRemLoop fuel (shift - 1) ret subCopy shiftCopy

/-- `div_rem`: bitwise long division, the divisor aligned to the dividend's top bit and walked down
to shift zero. A zero divisor fails the `assert_ne!`. -/
def divRem (x other : Uint n) : Except String (Uint n × Uint n) :=
  let myBits := x.bits
  let yourBits := other.bits
  if yourBits = 0 then
    .error ("assertion `left != right` failed: attempted to divide " ++ toString x.value ++
      " by zero\n  left: 0\n right: 0")
  else if myBits < yourBits then .ok (zero, x)
  else
    let shift := myBits - yourBits
    .ok (divRemLoop (shift + 1) shift zero x (other.shl shift))

end Uint

end Vecno
