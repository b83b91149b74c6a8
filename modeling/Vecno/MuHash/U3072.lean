import Mathlib.Data.ZMod.Basic
import Vecno.Lib.Checked
import Vecno.Lib.Limbs

/-!
# `U3072`, the field of MuHash

`crypto/muhash/src/u3072.rs` in the release build: `LIMBS` words modulo `2 ^ 3072 - PRIME_DIFF`.
`malachite`'s `mod_inverse` is a parameter of `inverse` and `div`, with contract `ModInverseLawful`.
-/

namespace Vecno.MuHash

def numLimbs : Nat := 48

def primeDiff : UInt64 := 1103717

def elementByteSize : Nat := 3072 / 8

def limbMax : UInt64 := 0xffffffffffffffff

/-- The modulus: `U3072::UINT_PRIME`. -/
def prime : Nat := 2 ^ 3072 - primeDiff.toNat

structure U3072 where
  limbs : Vector UInt64 numLimbs
deriving DecidableEq, Repr

/-- `self.limbs[i]`. -/
def U3072.limb (x : U3072) (i : Nat) : UInt64 := x.limbs.toList.getD i 0

/-- `self.limbs[i] = v`. -/
def U3072.set (x : U3072) (i : Nat) (v : UInt64) : U3072 := ⟨x.limbs.setIfInBounds i v⟩

/-- The number the limbs stand for (`Natural::from_limbs_asc`). -/
def U3072.value (x : U3072) : Nat := Limbs.value x.limbs.toList

def U3072.zero : U3072 := ⟨Vector.replicate numLimbs 0⟩

def U3072.one : U3072 := U3072.zero.set 0 1

/-- `U3072::is_overflow`: whether the value is at least the prime. -/
def U3072.isOverflow (x : U3072) : Bool :=
  if x.limb 0 ≤ limbMax - primeDiff then false
  else (x.limbs.toList.drop 1).all (· == limbMax)

/-- `U3072::from_le_bytes`: limb `i` is read from bytes `8 * i` to `8 * i + 8`. -/
def U3072.fromLeBytes (bytes : Vector UInt8 elementByteSize) : U3072 :=
  ⟨Vector.ofFn fun i =>
    UInt64.ofNat (LittleEndian.fromLeBytes ((bytes.toList.drop (8 * i.val)).take 8))⟩

def U3072.toLeBytes (x : U3072) : Vector UInt8 elementByteSize :=
  ⟨(Limbs.toLeBytes x.limbs.toList).toArray, by simp only [List.size_toArray,
    Limbs.length_toLeBytes, Vector.length_toList]; rfl⟩

def overflowingAdd (a b : UInt64) : UInt64 × Bool :=
  (a + b, decide (2 ^ 64 ≤ a.toNat + b.toNat))

/-- One pass of the loop of `full_reduce`, which the second reduction of `mul` repeats: the limb
is added to the carry `[low, high]`, the low limb of the sum is written back, and the carry moves
down a limb. The results are the limb written and the new `low` and `high`. -/
def carryStep (low high limb : UInt64) : UInt64 × UInt64 × UInt64 :=
  let (low, overflow) := overflowingAdd low limb
  let (high, overflow) := overflowingAdd high overflow.toUInt64
  (low, high, overflow.toUInt64)

/-- The loop of `full_reduce` and of the second reduction of `mul`: the carry `[low, high]` is
added into the limbs of `src`, and the sum written into `dst` limb by limb. -/
def carryLoop (src : U3072) (low high : UInt64) (dst : U3072) : UInt64 × UInt64 × U3072 :=
  (List.range numLimbs).foldl
    (fun st i =>
      let (limb, low, high) := carryStep st.1 st.2.1 (src.limb i)
      (low, high, st.2.2.set i limb))
    (low, high, dst)

/-- `U3072::full_reduce`: adds `PRIME_DIFF` and drops the carry out of the top limb. Each limb is
read before it is written, so the loop reads the limbs of the value it started from. -/
def U3072.fullReduce (x : U3072) : U3072 := (carryLoop x primeDiff 0 x).2.2

/-- `mul_wide`: the two limbs of the product of two limbs. -/
def mulWide (a b : UInt64) : UInt64 × UInt64 :=
  let t := a.toNat * b.toNat
  (UInt64.ofNat t, UInt64.ofNat (t >>> 64))

/-- `mulnadd3`: `[c0, c1] + n * [d0, d1, d2]`. The `u128` sums stay below `2 ^ 128`; the top limb's
product and sum are checked `u64` operations. -/
def mulnadd3 (c0 c1 : UInt64) (d : UInt64 × UInt64 × UInt64) (n : UInt64) :
    Except String (UInt64 × UInt64 × UInt64) := do
  let (d0, d1, d2) := d
  let t := d0.toNat * n.toNat + c0.toNat
  let c0 := UInt64.ofNat t
  let t := t >>> 64 + (d1.toNat * n.toNat + c1.toNat)
  let c1 := UInt64.ofNat t
  let d2n ← Checked.mul 64 d2.toNat n.toNat
  let c2 ← Checked.add 64 (UInt64.ofNat (t >>> 64)).toNat d2n
  pure (c0, c1, UInt64.ofNat c2)

/-- `muladd3`: `[low, high, carry] + a * b`, with the two carry increments checked. -/
def muladd3 (a b : UInt64) (acc : UInt64 × UInt64 × UInt64) :
    Except String (UInt64 × UInt64 × UInt64) := do
  let (low, high, carry) := acc
  let (tl, th) := mulWide a b
  let (low, overflow) := overflowingAdd low tl
  let th ← Checked.add 64 th.toNat overflow.toUInt64.toNat
  let (high, overflow) := overflowingAdd high (UInt64.ofNat th)
  let carry ← Checked.add 64 carry.toNat overflow.toUInt64.toNat
  pure (low, high, UInt64.ofNat carry)

/-- `muln2`: `[low, high] * n`, truncated to two limbs. -/
def muln2 (low high n : UInt64) : UInt64 × UInt64 :=
  let tmp := low.toNat * n.toNat
  let low := UInt64.ofNat tmp
  let tmp := tmp >>> 64 + high.toNat * n.toNat
  (low, UInt64.ofNat tmp)

/-- The carry limbs `carry_low`, `carry_high`, `carry_highest` and the `tmp` of `mul`. -/
structure MulState where
  carryLow : UInt64
  carryHigh : UInt64
  carryHighest : UInt64
  tmp : U3072

/-- A pass of the first loop of `mul`: column `LIMBS + j` of the product, times `PRIME_DIFF`, and
column `j` are added to the carry, whose lowest limb becomes limb `j` of `tmp`. -/
def mulStep (self other : U3072) (st : MulState) (j : Nat) : Except String MulState := do
  let (low, high) := mulWide (self.limb (j + 1)) (other.limb (numLimbs + j - (1 + j)))
  let acc ← (List.range' (2 + j) (numLimbs - (2 + j))).foldlM
    (fun acc i => muladd3 (self.limb i) (other.limb (numLimbs + j - i)) acc) (low, high, 0)
  let carry ← mulnadd3 st.carryLow st.carryHigh acc primeDiff
  let carry ← (List.range (j + 1)).foldlM
    (fun carry i => muladd3 (self.limb i) (other.limb (j - i)) carry) carry
  pure ⟨carry.2.1, carry.2.2, 0, st.tmp.set j carry.1⟩

def U3072.mul (self other : U3072) : Except String U3072 :=
  -- the short cut when the left operand is one: the result is `other`, reduced or not
  if self = U3072.one then pure other
  else do
    let st ← (List.range (numLimbs - 1)).foldlM (mulStep self other) ⟨0, 0, 0, U3072.one⟩
    if st.carryHighest ≠ 0 then throw (Checked.assertEqFailed st.carryHighest.toNat 0)
    let carry ← (List.range numLimbs).foldlM
      (fun carry i => muladd3 (self.limb i) (other.limb (numLimbs - 1 - i)) carry)
      (st.carryLow, st.carryHigh, st.carryHighest)
    let tmp := st.tmp.set (numLimbs - 1) carry.1
    -- the second reduction: the carry out of the top limb, times `PRIME_DIFF`, added back
    let (low, high) := muln2 carry.2.1 carry.2.2 primeDiff
    let (low, high, res) := carryLoop tmp low high self
    if high ≠ 0 then throw (Checked.assertEqFailed high.toNat 0)
    if ¬(low = 0 ∨ low = 1) then throw "assertion failed: carry_low == 0 || carry_low == 1"
    let res := if res.isOverflow then res.fullReduce else res
    pure (if low ≠ 0 then res.fullReduce else res)

/-- The contract of `malachite`'s `Natural::mod_inverse`, which `Uint3072::mod_inverse` calls on
a value below the modulus: for a nonzero `x` below `m` and prime to it, an inverse below `m`. -/
structure ModInverseLawful (modInverse : Nat → Nat → Option Nat) : Prop where
  spec : ∀ {x m}, 0 < x → x < m → Nat.Coprime x m →
    ∃ y, modInverse x m = some y ∧ y < m ∧ y * x ≡ 1 [MOD m]

/-- The limbs of `U3072::UINT_PRIME`: `Uint3072::MAX` with `PRIME_DIFF - 1` taken from its lowest
limb. -/
def uintPrime : Vector UInt64 numLimbs :=
  (Vector.replicate numLimbs limbMax).setIfInBounds 0 (limbMax - (primeDiff - 1))

/-- The `LIMBS` lowest limbs of `n`, least significant first: the limbs of a `Natural` copied into
a zeroed array. -/
def U3072.ofNat (n : Nat) : U3072 := ⟨Vector.ofFn fun i => UInt64.ofNat (n / 2 ^ (64 * i.val))⟩

def U3072.inverse (self : U3072) (modInverse : Nat → Nat → Option Nat) : Except String U3072 := do
  let a := if self.isOverflow then self.fullReduce else self
  -- zero has no inverse, and `0 / x` is zero
  if a = U3072.zero then pure a
  else do
    let inv ← Checked.expect "Cannot fail, 0 < a < prime"
      (modInverse a.value (Limbs.value uintPrime.toList))
    pure (U3072.ofNat inv)

/-- `U3072::div`: multiplication by the inverse. -/
def U3072.div (self other : U3072) (modInverse : Nat → Nat → Option Nat) :
    Except String U3072 := do
  let inv ← if other.isOverflow then other.fullReduce.inverse modInverse
    else other.inverse modInverse
  let self := if self.isOverflow then self.fullReduce else self
  let self ← self.mul inv
  pure (if self.isOverflow then self.fullReduce else self)

end Vecno.MuHash
