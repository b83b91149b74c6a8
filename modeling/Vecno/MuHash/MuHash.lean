import Mathlib.Data.Nat.GCD.BigOperators
import Vecno.MuHash.Arith

set_option linter.dupNamespace false

/-!
# MuHash

`crypto/muhash/src/lib.rs`: a fraction of two `U3072`s, with `data_to_element` a parameter. Runs
with the same net multiplicities serialize alike when every element is prime to the modulus.
-/

namespace Vecno.MuHash

open Limbs

/-! ### Bytes -/

theorem U3072.fromLeBytes_toLeBytes (x : U3072) : U3072.fromLeBytes x.toLeBytes = x := by
  obtain ⟨limbs⟩ := x
  refine congrArg U3072.mk (Vector.ext fun i hi => ?_)
  have hi' : i < limbs.toList.length := by rw [Vector.length_toList]; exact hi
  have hchunk := chunk_toLeBytes hi'
  simp only [U3072.toLeBytes, Vector.getElem_ofFn]
  rw [show (⟨(Limbs.toLeBytes limbs.toList).toArray, _⟩ : Vector UInt8 elementByteSize).toList =
    Limbs.toLeBytes limbs.toList from rfl, hchunk,
    LittleEndian.fromLeBytes_toLeBytes_of_lt (by simpa using (limbs.toList.getD i 0).toNat_lt),
    UInt64.ofNat_toNat, List.getD_eq_getElem _ _ hi', Vector.getElem_toList]

/-! ### The model -/

structure MuHash where
  numerator : U3072
  denominator : U3072
deriving DecidableEq, Repr

/-- `OverflowError`: the bytes hold a value from the prime up. -/
structure OverflowError where
deriving DecidableEq, Repr

namespace MuHash

variable (dataToElement : List UInt8 → U3072)

def new : MuHash := ⟨U3072.one, U3072.one⟩

def addElement (self : MuHash) (data : List UInt8) : Except String MuHash := do
  let numerator ← self.numerator.mul (dataToElement data)
  pure { self with numerator }

def removeElement (self : MuHash) (data : List UInt8) : Except String MuHash := do
  let denominator ← self.denominator.mul (dataToElement data)
  pure { self with denominator }

def combine (self other : MuHash) : Except String MuHash := do
  let numerator ← self.numerator.mul other.numerator
  let denominator ← self.denominator.mul other.denominator
  pure ⟨numerator, denominator⟩

def normalize (self : MuHash) (modInverse : Nat → Nat → Option Nat) : Except String MuHash := do
  let numerator ← self.numerator.div self.denominator modInverse
  pure ⟨numerator, U3072.one⟩

/-- `MuHash::serialize`: the bytes, with the normalized hash it leaves in place. -/
def serialize (self : MuHash) (modInverse : Nat → Nat → Option Nat) :
    Except String (Vector UInt8 elementByteSize × MuHash) := do
  let self ← self.normalize modInverse
  pure (self.numerator.toLeBytes, self)

def deserialize (data : Vector UInt8 elementByteSize) : Except OverflowError MuHash :=
  let numerator := U3072.fromLeBytes data
  if numerator.isOverflow then .error ⟨⟩ else .ok ⟨numerator, U3072.one⟩

/-- The calls a hash is built from: adding or removing data, and combining with a hash built from
`MuHash::new()` by calls of its own. -/
inductive Op where
  | addElement (data : List UInt8)
  | removeElement (data : List UInt8)
  | combine (ops : List Op)

/-- The calls, one after the other. -/
def run : MuHash → List Op → Except String MuHash
  | h, [] => pure h
  | h, .addElement data :: ops => h.addElement dataToElement data >>= fun h => run h ops
  | h, .removeElement data :: ops => h.removeElement dataToElement data >>= fun h => run h ops
  | h, .combine inner :: ops =>
    run new inner >>= fun other => h.combine other >>= fun h => run h ops

/-- The data the calls add, through every `combine`. -/
def adds : List Op → List (List UInt8)
  | [] => []
  | .addElement data :: ops => data :: adds ops
  | .removeElement _ :: ops => adds ops
  | .combine inner :: ops => adds inner ++ adds ops

/-- The data the calls remove, through every `combine`. -/
def removes : List Op → List (List UInt8)
  | [] => []
  | .addElement _ :: ops => removes ops
  | .removeElement data :: ops => data :: removes ops
  | .combine inner :: ops => removes inner ++ removes ops

/-- The net multiplicity of each piece of data: adds minus removes. -/
def net (ops : List Op) (data : List UInt8) : Int :=
  ((adds ops).count data : Int) - (removes ops).count data

/-! ### What the calls keep -/

theorem U3072.mul_modEq (a b : U3072) :
    ∃ r, a.mul b = .ok r ∧ r.value ≡ a.value * b.value [MOD prime] := by
  by_cases ha : a = U3072.one
  · refine ⟨b, by rw [ha, U3072.mul, if_pos rfl]; rfl, ?_⟩
    rw [ha, U3072.value_one, Nat.one_mul]
  · obtain ⟨r, hr, hv⟩ := mul_value a b ha
    refine ⟨r, hr, ?_⟩
    rw [hv]
    exact Nat.mod_modEq _ _

/-- The product of the elements of a list of data. -/
def elementProduct (ds : List (List UInt8)) : Nat := (ds.map fun d => (dataToElement d).value).prod

theorem elementProduct_append (ds ds' : List (List UInt8)) :
    elementProduct dataToElement (ds ++ ds') =
      elementProduct dataToElement ds * elementProduct dataToElement ds' := by
  rw [elementProduct, List.map_append, List.prod_append]
  rfl

theorem elementProduct_singleton (d : List UInt8) :
    elementProduct dataToElement [d] = (dataToElement d).value := by
  rw [elementProduct, List.map_singleton, List.prod_singleton]

/-- The hash holds the products of the elements of `added` and of `removed`, modulo the prime. -/
structure Holds (h : MuHash) (added removed : List (List UInt8)) : Prop where
  numerator_modEq : h.numerator.value ≡ elementProduct dataToElement added [MOD prime]
  denominator_modEq : h.denominator.value ≡ elementProduct dataToElement removed [MOD prime]

variable {dataToElement}

theorem holds_new : Holds dataToElement new [] [] :=
  ⟨U3072.value_one ▸ rfl, U3072.value_one ▸ rfl⟩

theorem Holds.addElement {h : MuHash} {added removed : List (List UInt8)}
    (hh : Holds dataToElement h added removed) (data : List UInt8) :
    ∃ h', h.addElement dataToElement data = .ok h' ∧
      Holds dataToElement h' (added ++ [data]) removed := by
  obtain ⟨r, hr, hv⟩ := U3072.mul_modEq h.numerator (dataToElement data)
  refine ⟨{ h with numerator := r }, by rw [MuHash.addElement, hr, Except.ok_bind]; rfl, ?_,
    hh.denominator_modEq⟩
  rw [elementProduct_append, elementProduct_singleton]
  exact hv.trans (hh.numerator_modEq.mul_right _)

theorem Holds.removeElement {h : MuHash} {added removed : List (List UInt8)}
    (hh : Holds dataToElement h added removed) (data : List UInt8) :
    ∃ h', h.removeElement dataToElement data = .ok h' ∧
      Holds dataToElement h' added (removed ++ [data]) := by
  obtain ⟨r, hr, hv⟩ := U3072.mul_modEq h.denominator (dataToElement data)
  refine ⟨{ h with denominator := r }, by rw [MuHash.removeElement, hr, Except.ok_bind]; rfl,
    hh.numerator_modEq, ?_⟩
  rw [elementProduct_append, elementProduct_singleton]
  exact hv.trans (hh.denominator_modEq.mul_right _)

theorem Holds.combine {h o : MuHash} {added removed added' removed' : List (List UInt8)}
    (hh : Holds dataToElement h added removed) (ho : Holds dataToElement o added' removed') :
    ∃ h', h.combine o = .ok h' ∧ Holds dataToElement h' (added ++ added') (removed ++ removed') := by
  obtain ⟨n, hn, hvn⟩ := U3072.mul_modEq h.numerator o.numerator
  obtain ⟨d, hd, hvd⟩ := U3072.mul_modEq h.denominator o.denominator
  refine ⟨⟨n, d⟩, by rw [MuHash.combine, hn, Except.ok_bind, hd, Except.ok_bind]; rfl, ?_, ?_⟩
  · rw [elementProduct_append]
    exact hvn.trans (hh.numerator_modEq.mul ho.numerator_modEq)
  · rw [elementProduct_append]
    exact hvd.trans (hh.denominator_modEq.mul ho.denominator_modEq)

/-- Any list of calls fails no check and adds its data to the numerator and the denominator. -/
theorem Holds.run {h : MuHash} {added removed : List (List UInt8)}
    (hh : Holds dataToElement h added removed) : ∀ ops : List Op, ∃ h',
      MuHash.run dataToElement h ops = .ok h' ∧
        Holds dataToElement h' (added ++ adds ops) (removed ++ removes ops)
  | [] => ⟨h, by rw [MuHash.run]; rfl, by simpa [adds, removes] using hh⟩
  | .addElement data :: ops => by
    obtain ⟨h₁, h₁eq, hh₁⟩ := hh.addElement data
    obtain ⟨h₂, h₂eq, hh₂⟩ := hh₁.run ops
    refine ⟨h₂, by rw [MuHash.run, h₁eq, Except.ok_bind, h₂eq], ?_⟩
    simpa [adds, removes] using hh₂
  | .removeElement data :: ops => by
    obtain ⟨h₁, h₁eq, hh₁⟩ := hh.removeElement data
    obtain ⟨h₂, h₂eq, hh₂⟩ := hh₁.run ops
    refine ⟨h₂, by rw [MuHash.run, h₁eq, Except.ok_bind, h₂eq], ?_⟩
    simpa [adds, removes] using hh₂
  | .combine inner :: ops => by
    obtain ⟨o, oeq, ho⟩ := holds_new.run inner
    obtain ⟨h₁, h₁eq, hh₁⟩ := hh.combine ho
    obtain ⟨h₂, h₂eq, hh₂⟩ := hh₁.run ops
    refine ⟨h₂, by rw [MuHash.run, oeq, Except.ok_bind, h₁eq, Except.ok_bind, h₂eq], ?_⟩
    simpa [adds, removes] using hh₂

/-! ### Serialization -/

theorem coprime_mod_prime_iff {x : Nat} : Nat.Coprime (x % prime) prime ↔ Nat.Coprime x prime := by
  rw [Nat.Coprime, Nat.Coprime, ← Nat.gcd_rec, Nat.gcd_comm]

section Lawful

/-! With a lawful `mod_inverse`. -/

variable {modInverse : Nat → Nat → Option Nat} (hmi : ModInverseLawful modInverse)
include hmi

/-- `serialize` of a hash whose denominator is prime to the modulus fails no check and writes the
one value below the prime that times the denominator is the numerator. -/
theorem serialize_spec (h : MuHash) (hd : Nat.Coprime (h.denominator.value % prime) prime) :
    ∃ r : U3072, h.serialize modInverse = .ok (r.toLeBytes, ⟨r, U3072.one⟩) ∧ r.value < prime ∧
      r.value * h.denominator.value ≡ h.numerator.value [MOD prime] := by
  obtain ⟨r, hr, hlt, hmod⟩ := div_value hmi h.numerator h.denominator hd
  exact ⟨r, by rw [serialize, normalize, hr, Except.ok_bind]; rfl, hlt, hmod⟩

omit hmi in
/-- `deserialize` accepts the bytes of every value below the prime and reads the value back. -/
theorem deserialize_toLeBytes {r : U3072} (hr : r.value < prime) :
    deserialize r.toLeBytes = .ok ⟨r, U3072.one⟩ := by
  rw [deserialize, U3072.fromLeBytes_toLeBytes,
    if_neg fun h => absurd (r.isOverflow_iff.mp h) (Nat.not_le.mpr hr)]

theorem serialize_normalized {r : U3072} (hr : r.value < prime) :
    ∃ s, (⟨r, U3072.one⟩ : MuHash).serialize modInverse = .ok (r.toLeBytes, s) := by
  have hone : Nat.Coprime (U3072.one.value % prime) prime := by
    rw [U3072.value_one, Nat.mod_eq_of_lt one_lt_prime]
    exact Nat.coprime_one_left prime
  obtain ⟨r', hser, hlt, hmod⟩ := serialize_spec hmi ⟨r, U3072.one⟩ hone
  -- dividing by one leaves the value below the prime as it is
  dsimp only at hmod
  have hmod' : r'.value * U3072.one.value ≡ r.value * U3072.one.value [MOD prime] := by
    rw [U3072.value_one, Nat.mul_one, Nat.mul_one]
    rw [U3072.value_one, Nat.mul_one] at hmod
    exact hmod
  have heq : r' = r := U3072.ext_value (eq_of_mul_modEq hone hlt hr hmod')
  exact ⟨_, heq ▸ hser⟩

variable (dataToElement)

/-- Two runs from `MuHash::new()` with the same net multiplicities serialize to the same bytes,
and fail no check, when every element is prime to the modulus; the bytes hold a value below the
prime, and `deserialize` of them succeeds and serializes back to them. -/
theorem serialize_eq_of_net_eq
    (hf : ∀ data, Nat.Coprime ((dataToElement data).value % prime) prime)
    {ops₁ ops₂ : List Op} (hnet : net ops₁ = net ops₂) :
    ∃ h₁ h₂ bytes s₁ s₂, MuHash.run dataToElement new ops₁ = .ok h₁ ∧
      MuHash.run dataToElement new ops₂ = .ok h₂ ∧
      h₁.serialize modInverse = .ok (bytes, s₁) ∧ h₂.serialize modInverse = .ok (bytes, s₂) ∧
      (U3072.fromLeBytes bytes).value < prime ∧
      ∃ h₃ s₃, deserialize bytes = .ok h₃ ∧ h₃.serialize modInverse = .ok (bytes, s₃) := by
  obtain ⟨h₁, run₁, hh₁⟩ := holds_new.run ops₁
  obtain ⟨h₂, run₂, hh₂⟩ := holds_new.run ops₂
  simp only [List.nil_append] at hh₁ hh₂
  set A₁ := elementProduct dataToElement (adds ops₁)
  set A₂ := elementProduct dataToElement (adds ops₂)
  set R₁ := elementProduct dataToElement (removes ops₁)
  set R₂ := elementProduct dataToElement (removes ops₂)
  -- every product of elements is prime to the modulus, so each denominator is
  have hcop : ∀ ds, Nat.Coprime (elementProduct dataToElement ds % prime) prime := fun ds => by
    rw [coprime_mod_prime_iff, elementProduct, Nat.coprime_list_prod_left_iff]
    intro n hn
    obtain ⟨d, -, rfl⟩ := List.mem_map.mp hn
    exact coprime_mod_prime_iff.mp (hf d)
  have hd₁ : Nat.Coprime (h₁.denominator.value % prime) prime := by
    rw [hh₁.denominator_modEq]
    exact hcop _
  have hd₂ : Nat.Coprime (h₂.denominator.value % prime) prime := by
    rw [hh₂.denominator_modEq]
    exact hcop _
  obtain ⟨r₁, ser₁, hlt₁, hmod₁⟩ := serialize_spec hmi h₁ hd₁
  obtain ⟨r₂, ser₂, hlt₂, hmod₂⟩ := serialize_spec hmi h₂ hd₂
  -- equal nets: the adds of one run and the removes of the other are the same multiset
  have hperm : (adds ops₁ ++ removes ops₂).Perm (adds ops₂ ++ removes ops₁) := by
    rw [List.perm_iff_count]
    intro d
    have h := congrFun hnet d
    simp only [net] at h
    simp only [List.count_append]
    omega
  have hprod : A₁ * R₂ = A₂ * R₁ := by
    rw [← elementProduct_append, ← elementProduct_append, elementProduct, elementProduct,
      (hperm.map _).prod_eq]
  have hkey : r₁.value * (R₁ * R₂) ≡ r₂.value * (R₁ * R₂) [MOD prime] :=
    calc r₁.value * (R₁ * R₂) = r₁.value * R₁ * R₂ := (Nat.mul_assoc _ _ _).symm
      _ ≡ r₁.value * h₁.denominator.value * R₂ [MOD prime] :=
          ((hh₁.denominator_modEq.mul_left _).symm).mul_right _
      _ ≡ h₁.numerator.value * R₂ [MOD prime] := hmod₁.mul_right _
      _ ≡ A₁ * R₂ [MOD prime] := hh₁.numerator_modEq.mul_right _
      _ = A₂ * R₁ := hprod
      _ ≡ h₂.numerator.value * R₁ [MOD prime] := (hh₂.numerator_modEq.mul_right _).symm
      _ ≡ r₂.value * h₂.denominator.value * R₁ [MOD prime] := (hmod₂.mul_right _).symm
      _ ≡ r₂.value * R₂ * R₁ [MOD prime] := (hh₂.denominator_modEq.mul_left _).mul_right _
      _ = r₂.value * (R₁ * R₂) := by rw [Nat.mul_assoc, Nat.mul_comm R₂]
  have hR : Nat.Coprime ((R₁ * R₂) % prime) prime := by
    rw [← elementProduct_append]
    exact hcop _
  have hr : r₁ = r₂ := U3072.ext_value (eq_of_mul_modEq hR hlt₁ hlt₂ hkey)
  subst hr
  obtain ⟨s₃, ser₃⟩ := serialize_normalized hmi hlt₁
  exact ⟨h₁, h₂, r₁.toLeBytes, _, _, run₁, run₂, ser₁, ser₂,
    by rw [U3072.fromLeBytes_toLeBytes]; exact hlt₁, _, s₃, deserialize_toLeBytes hlt₁, ser₃⟩

end Lawful

/-- Two to the power of the first byte: the elements of the runs below. -/
def twoPowElement (data : List UInt8) : U3072 := U3072.ofNat (2 ^ (data.headD 0).toNat)

/-- Adding `[1]`, against adding `[1]` and `[2]` in a combined hash and removing `[2]`: the
second run divides `2 * 4` by `4`. -/
theorem serialize_eq_of_net_eq_combined :
    ModInverseLawful zmodInverse ∧
    (∀ data, Nat.Coprime ((twoPowElement data).value % prime) prime) ∧
    net [.addElement [1]] = net [.combine [.addElement [1], .addElement [2]], .removeElement [2]] ∧
    ∃ h₁ h₂ bytes s₁ s₂, MuHash.run twoPowElement new [.addElement [1]] = .ok h₁ ∧
      MuHash.run twoPowElement new
        [.combine [.addElement [1], .addElement [2]], .removeElement [2]] = .ok h₂ ∧
      h₁.serialize zmodInverse = .ok (bytes, s₁) ∧ h₂.serialize zmodInverse = .ok (bytes, s₂) ∧
      (U3072.fromLeBytes bytes).value < prime ∧
      ∃ h₃ s₃, deserialize bytes = .ok h₃ ∧ h₃.serialize zmodInverse = .ok (bytes, s₃) := by
  -- a power of two is prime to the odd modulus
  have hf : ∀ data, Nat.Coprime ((twoPowElement data).value % prime) prime := fun data => by
    have hlt : 2 ^ (data.headD 0).toNat < 2 ^ 3072 :=
      Nat.pow_lt_pow_right (by decide) ((data.headD 0).toNat_lt.trans (by decide))
    rw [coprime_mod_prime_iff, twoPowElement, U3072.value_ofNat, Nat.mod_eq_of_lt hlt]
    exact Nat.Coprime.pow_left _ (Nat.coprime_two_left.mpr (Nat.odd_iff.mpr prime_mod_two))
  have hnet : net [.addElement [1]] =
      net [.combine [.addElement [1], .addElement [2]], .removeElement [2]] := by
    funext d
    simp only [net, adds, removes, List.nil_append, List.append_nil, List.count_cons,
      List.count_nil]
    split_ifs <;> omega
  exact ⟨modInverseLawful_zmodInverse, hf, hnet,
    serialize_eq_of_net_eq twoPowElement modInverseLawful_zmodInverse hf hnet⟩

end MuHash

end Vecno.MuHash
