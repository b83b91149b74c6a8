import Mathlib.Data.List.Basic
import Mathlib.Algebra.Order.Group.Nat

/-!
# Little-endian byte strings

A number written into a fixed number of bytes, least significant first, modulo `256 ^ width`,
and read back.
-/

namespace LittleEndian

/-- The `width` little-endian bytes of `n`, truncated to that width. -/
def toLeBytes : Nat → Nat → List UInt8
  | 0, _ => []
  | width + 1, n => UInt8.ofNat n :: toLeBytes width (n / 256)

/-- The value of a little-endian byte string. -/
def fromLeBytes : List UInt8 → Nat
  | [] => 0
  | b :: bs => b.toNat + 256 * fromLeBytes bs

@[simp] theorem length_toLeBytes (width n : Nat) : (toLeBytes width n).length = width := by
  induction width generalizing n with
  | zero => rfl
  | succ width ih => simp [toLeBytes, ih]

theorem fromLeBytes_lt (bs : List UInt8) : fromLeBytes bs < 256 ^ bs.length := by
  induction bs with
  | nil => simp [fromLeBytes]
  | cons b bs ih =>
    have hb := b.toNat_lt
    simp only [fromLeBytes, List.length_cons, pow_succ]
    change b.toNat < 256 at hb
    omega

theorem fromLeBytes_toLeBytes (width n : Nat) :
    fromLeBytes (toLeBytes width n) = n % 256 ^ width := by
  induction width generalizing n with
  | zero => simp [toLeBytes, fromLeBytes, Nat.mod_one]
  | succ width ih =>
    rw [toLeBytes, fromLeBytes, ih, UInt8.toNat_ofNat']
    change n % 256 + 256 * (n / 256 % 256 ^ width) = n % 256 ^ (width + 1)
    rw [Nat.pow_succ', Nat.mod_mul]

theorem fromLeBytes_toLeBytes_of_lt {width n : Nat} (h : n < 256 ^ width) :
    fromLeBytes (toLeBytes width n) = n := by
  rw [fromLeBytes_toLeBytes, Nat.mod_eq_of_lt h]

theorem toLeBytes_fromLeBytes (bs : List UInt8) : toLeBytes bs.length (fromLeBytes bs) = bs := by
  induction bs with
  | nil => rfl
  | cons b bs ih =>
    have hb := b.toNat_lt
    change b.toNat < 256 at hb
    have hlow : UInt8.ofNat (b.toNat + 256 * fromLeBytes bs) = b := by
      apply UInt8.toNat_inj.mp
      simp only [UInt8.toNat_ofNat']
      change (b.toNat + 256 * fromLeBytes bs) % 256 = b.toNat
      omega
    have hhigh : (b.toNat + 256 * fromLeBytes bs) / 256 = fromLeBytes bs := by omega
    simp only [List.length_cons, toLeBytes, fromLeBytes, hlow, hhigh, ih]

theorem toLeBytes_add (a b n : Nat) :
    toLeBytes (a + b) n = toLeBytes a n ++ toLeBytes b (n / 256 ^ a) := by
  induction a generalizing n with
  | zero => simp [toLeBytes]
  | succ a ih =>
    rw [Nat.add_right_comm, toLeBytes, toLeBytes, ih, Nat.div_div_eq_div_mul, Nat.pow_succ',
      List.cons_append]

theorem toLeBytes_zero (width : Nat) : toLeBytes width 0 = List.replicate width 0 := by
  induction width with
  | zero => rfl
  | succ width ih => simp [toLeBytes, ih, List.replicate_succ]

theorem fromLeBytes_append_zeros (bs : List UInt8) (k : Nat) :
    fromLeBytes (bs ++ List.replicate k 0) = fromLeBytes bs := by
  induction bs with
  | nil =>
    induction k with
    | zero => rfl
    | succ k ih =>
      simp only [List.nil_append] at ih
      simp [List.replicate_succ, fromLeBytes, ih]
  | cons b bs ih => simp [fromLeBytes, ih]

theorem fromLeBytes_append (xs ys : List UInt8) :
    fromLeBytes (xs ++ ys) = fromLeBytes xs + 256 ^ xs.length * fromLeBytes ys := by
  induction xs with
  | nil => simp [fromLeBytes]
  | cons x xs ih =>
    rw [List.cons_append, fromLeBytes, fromLeBytes, ih, List.length_cons, Nat.pow_succ',
      Nat.mul_add, Nat.mul_assoc, Nat.add_assoc]

/-- `to_be_bytes`: the `width` bytes of `n`, most significant first. -/
def toBeBytes (width n : Nat) : List UInt8 := (toLeBytes width n).reverse

def fromBeBytes (bs : List UInt8) : Nat := fromLeBytes bs.reverse

@[simp] theorem length_toBeBytes (width n : Nat) : (toBeBytes width n).length = width := by
  simp [toBeBytes]

theorem fromBeBytes_toBeBytes_of_lt {width n : Nat} (h : n < 256 ^ width) :
    fromBeBytes (toBeBytes width n) = n := by
  rw [fromBeBytes, toBeBytes, List.reverse_reverse, fromLeBytes_toLeBytes_of_lt h]

/-- A value that fits in `width` bytes has zeros in front of them in a wider field. -/
theorem toBeBytes_add_of_lt {width n : Nat} (k : Nat) (h : n < 256 ^ width) :
    toBeBytes (width + k) n = List.replicate k 0 ++ toBeBytes width n := by
  rw [toBeBytes, toLeBytes_add, Nat.div_eq_of_lt h, toLeBytes_zero, List.reverse_append,
    List.reverse_replicate, toBeBytes]

theorem fromBeBytes_zeros_append (k : Nat) (bs : List UInt8) :
    fromBeBytes (List.replicate k 0 ++ bs) = fromBeBytes bs := by
  rw [fromBeBytes, List.reverse_append, List.reverse_replicate, fromLeBytes_append_zeros,
    fromBeBytes]

end LittleEndian
