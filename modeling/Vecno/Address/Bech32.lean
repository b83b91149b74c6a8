import Vecno.Lib.Regroup
import Vecno.Lib.LittleEndian

/-!
# The bech32 layer of addresses

`addresses/src/bech32.rs`: the charset and its reverse table, the `polymod` checksum, and the
regroupings `conv8to5` and `conv5to8`, both the loop of `Regroup`, which undo each other.
-/

namespace Vecno.Address

open Regroup LittleEndian

/-- The bytes of an ASCII string. -/
def asciiBytes (s : String) : List UInt8 := s.toList.map Char.toUInt8

def charset : List UInt8 := asciiBytes "qpzry9x8gf2tvdw0s3jn54khce6mua7l"

/-- `REV_CHARSET`: the five-bit value of each letter of the charset, `100` for every other byte
below `123`. -/
def revCharset : List UInt8 :=
  [100, 100, 100, 100, 100, 100, 100, 100, 100, 100, 100, 100, 100, 100, 100, 100, 100, 100,
    100, 100, 100, 100, 100, 100, 100, 100, 100, 100, 100, 100, 100, 100, 100, 100, 100, 100,
    100, 100, 100, 100, 100, 100, 100, 100, 100, 100, 100, 100, 15, 100, 10, 17, 21, 20, 26, 30,
    7, 5, 100, 100, 100, 100, 100, 100, 100, 100, 100, 100, 100, 100, 100, 100, 100, 100, 100,
    100, 100, 100, 100, 100, 100, 100, 100, 100, 100, 100, 100, 100, 100, 100, 100, 100, 100,
    100, 100, 100, 100, 29, 100, 24, 13, 25, 9, 8, 23, 100, 18, 22, 31, 27, 19, 100, 1, 0, 3, 16,
    11, 28, 12, 14, 6, 4, 2]

/-- The bit of the top five-bit digit and the generator `polymod` folds in when it is set. -/
def generators : List (UInt64 × UInt64) :=
  [(0x01, 0x98f2bc8e61), (0x02, 0x79b76d99e2), (0x04, 0xf33e5fb3c4), (0x08, 0xae2eabe2a8),
    (0x10, 0x1e4f43e470)]

/-- `if c0 & bit != 0 { c ^= generator; }`. -/
def xorIfSet (c0 c : UInt64) (g : UInt64 × UInt64) : UInt64 :=
  if c0 &&& g.1 ≠ 0 then c ^^^ g.2 else c

/-- One pass of the loop of `polymod`. -/
def polymodStep (c : UInt64) (d : UInt8) : UInt64 :=
  let c0 := c >>> 35
  generators.foldl (xorIfSet c0) (((c &&& 0x07ffffffff) <<< 5) ^^^ d.toUInt64)

def polymod (values : List UInt8) : UInt64 := values.foldl polymodStep 1 ^^^ 1

/-- `checksum`: the polymod of the five-bit prefix, a zero, the payload and eight zeros. -/
def checksum (payload fivebitPrefix : List UInt8) : UInt64 :=
  polymod (fivebitPrefix ++ [0] ++ payload ++ List.replicate 8 0)

/-- `conv8to5`: bytes to five-bit values, the last one padded on the right with zero bits. -/
def conv8to5 (payload : List UInt8) : Except String (List UInt8) := do
  let padding := if payload.length % 5 = 0 then 0 else 1
  let st ← Regroup.run 8 5 (payload.length * 8 / 5 + padding) payload
  if st.bits > 0 then
    Checked.set st.out st.currentIdx (st.buff <<< (5 - st.bits).toUInt16).toUInt8
  else pure st.out

/-- `conv5to8`: five-bit values to bytes, the bits that do not fill a byte ignored. -/
def conv5to8 (payload : List UInt8) : Except String (List UInt8) := do
  let st ← Regroup.run 5 8 (payload.length * 5 / 8) payload
  pure st.out

/-! ### The checksum is a 40-bit value -/

theorem xor_toNat_lt {a b : UInt64} (ha : a.toNat < 2 ^ 40) (hb : b.toNat < 2 ^ 40) :
    (a ^^^ b).toNat < 2 ^ 40 := by
  rw [UInt64.toNat_xor]
  exact Nat.xor_lt_two_pow ha hb

theorem foldl_xorIfSet_lt (c0 : UInt64) :
    ∀ {gs : List (UInt64 × UInt64)} {c : UInt64}, (∀ g ∈ gs, g.2.toNat < 2 ^ 40) →
      c.toNat < 2 ^ 40 → (gs.foldl (xorIfSet c0) c).toNat < 2 ^ 40 := by
  intro gs
  induction gs with
  | nil => exact fun _ hc => hc
  | cons g gs ih =>
    intro c hgs hc
    refine ih (fun g' hg' => hgs g' (.tail g hg')) ?_
    unfold xorIfSet
    split
    · exact xor_toNat_lt hc (hgs g List.mem_cons_self)
    · exact hc

theorem generators_lt : ∀ g ∈ generators, g.2.toNat < 2 ^ 40 := by
  simp only [generators, List.forall_mem_cons, List.not_mem_nil, IsEmpty.forall_iff, implies_true,
    and_true]
  decide

theorem polymodStep_lt (c : UInt64) (d : UInt8) : (polymodStep c d).toNat < 2 ^ 40 := by
  -- the kept 35 bits shifted by five and a byte fit in 40 bits, as does every generator
  have hmask : (c &&& 0x07ffffffff).toNat ≤ 0x07ffffffff := by
    rw [UInt64.toNat_and]
    exact Nat.and_le_right
  have hshift : ((c &&& 0x07ffffffff) <<< 5).toNat < 2 ^ 40 := by
    rw [UInt64.toNat_shiftLeft]
    have : (5 : UInt64).toNat % 64 = 5 := rfl
    rw [this, Nat.shiftLeft_eq]
    have hlt : (c &&& 0x07ffffffff).toNat * 2 ^ 5 < 2 ^ 40 := by
      have : (0x07ffffffff : Nat) = 2 ^ 35 - 1 := rfl
      omega
    exact lt_of_le_of_lt (Nat.mod_le _ _) hlt
  have hd : d.toUInt64.toNat < 2 ^ 40 := by
    rw [UInt8.toNat_toUInt64]
    exact lt_trans d.toNat_lt (by decide)
  exact foldl_xorIfSet_lt _ generators_lt (xor_toNat_lt hshift hd)

theorem polymod_lt (values : List UInt8) : (polymod values).toNat < 2 ^ 40 := by
  have hfold : ∀ (vs : List UInt8) (c : UInt64), c.toNat < 2 ^ 40 →
      (vs.foldl polymodStep c).toNat < 2 ^ 40 := by
    intro vs
    induction vs with
    | nil => exact fun _ hc => hc
    | cons v vs ih => exact fun c _ => ih _ (polymodStep_lt c v)
  exact xor_toNat_lt (hfold values 1 (by decide)) (by decide)

theorem checksum_lt (payload fivebitPrefix : List UInt8) :
    (checksum payload fivebitPrefix).toNat < 256 ^ 5 :=
  polymod_lt _

/-! ### The regroupings -/

/-- `conv8to5` never writes out of range: it returns `n * 8 / 5` values, one more when that
leaves bits over, which hold the bytes' bits followed by fewer than five zero bits. -/
theorem conv8to5_spec (payload : List UInt8) :
    ∃ out, conv8to5 payload = .ok out ∧ (∀ d ∈ out, d.toNat < 2 ^ 5) ∧
      ∃ pad < 5, 5 * out.length = 8 * payload.length + pad ∧
        value 5 out = value 8 payload * 2 ^ pad := by
  set size := payload.length * 8 / 5 + (if payload.length % 5 = 0 then 0 else 1) with hsize
  obtain ⟨st, hrun, hinv, hlow⟩ := @run_spec 8 5 size payload (by decide) (by decide)
    (by decide) (fun c _ => c.toNat_lt) (by rw [hsize]; omega)
  have hidx : st.currentIdx = payload.length * 8 / 5 := by
    rw [hinv.currentIdx_eq (by decide) hlow, Nat.mul_comm]
  have hlen := hinv.length_eq
  by_cases hbits : st.bits > 0
  · -- the bits left over go into one more value, padded with zeros
    have hroom : st.currentIdx < size := by
      have : payload.length % 5 ≠ 0 := by omega
      rw [hsize, if_neg this]
      omega
    set d := (st.buff <<< (5 - st.bits).toUInt16).toUInt8 with hd
    have h5 : 2 ^ 5 = 2 ^ st.bits * 2 ^ (5 - st.bits) := by
      rw [← Nat.pow_add, show st.bits + (5 - st.bits) = 5 by omega]
    have hprod : st.buff.toNat * 2 ^ (5 - st.bits) < 2 ^ 5 := by
      rw [h5]
      exact Nat.mul_lt_mul_of_pos_right hinv.buff_lt (Nat.two_pow_pos _)
    have hdnat : d.toNat = st.buff.toNat * 2 ^ (5 - st.bits) := by
      have hk : (5 - st.bits).toUInt16.toNat % 16 = 5 - st.bits := by simp; omega
      have h16 : st.buff.toNat * 2 ^ (5 - st.bits) < 2 ^ 16 := lt_trans hprod (by decide)
      rw [hd, UInt16.toNat_toUInt8, UInt16.toNat_shiftLeft, hk, Nat.shiftLeft_eq,
        Nat.mod_eq_of_lt h16, Nat.mod_eq_of_lt (lt_trans hprod (by decide))]
    have hzero : size - (st.currentIdx + 1) = 0 := by
      have : payload.length % 5 ≠ 0 := by omega
      rw [hsize, if_neg this]
      omega
    refine ⟨st.written ++ [d], ?_, ?_, 5 - st.bits, by omega, ?_, ?_⟩
    · rw [conv8to5, hrun, Except.ok_bind, if_pos hbits, hinv.set_next hroom, hzero,
        List.replicate_zero, List.append_nil]
    · intro d' hd'
      rcases List.mem_append.mp hd' with hd' | hd'
      · exact hinv.digit_lt d' hd'
      · rw [List.mem_singleton.mp hd', hdnat]
        exact hprod
    · rw [List.length_append, hinv.written_length, List.length_singleton]
      omega
    · rw [value_append_singleton, hdnat, ← hinv.value_eq, h5]
      ring
  · -- no bits are left over: the vector is exactly the written values
    have hb0 : st.bits = 0 := by omega
    have hfull : size - st.currentIdx = 0 := by
      have : payload.length % 5 = 0 := by omega
      rw [hsize, if_pos this]
      omega
    refine ⟨st.written, ?_, hinv.digit_lt, 0, by decide, ?_, ?_⟩
    · rw [conv8to5, hrun, Except.ok_bind, if_neg hbits]
      change Except.ok st.out = _
      rw [hinv.out_eq, hfull, List.replicate_zero, List.append_nil]
    · rw [hinv.written_length]
      omega
    · have hbuff : st.buff.toNat = 0 := by
        have := hinv.buff_lt
        rw [hb0] at this
        omega
      have := hinv.value_eq
      rw [hb0, hbuff] at this
      simpa using this

/-- `conv5to8` of five-bit values never writes out of range: it returns `m * 5 / 8` bytes that,
followed by the fewer than eight bits left over, hold the values' bits. -/
theorem conv5to8_spec {payload : List UInt8} (h : ∀ c ∈ payload, c.toNat < 2 ^ 5) :
    ∃ out bits rest, conv5to8 payload = .ok out ∧ bits < 8 ∧ rest < 2 ^ bits ∧
      8 * out.length + bits = 5 * payload.length ∧
      value 8 out * 2 ^ bits + rest = value 5 payload := by
  obtain ⟨st, hrun, hinv, hlow⟩ := @run_spec 5 8 (payload.length * 5 / 8) payload (by decide)
    (by decide) (by decide) h (by rw [Nat.mul_comm])
  have hidx := hinv.currentIdx_eq (by decide) hlow
  -- every slot of the vector is written
  have hout : st.out = st.written := by
    rw [hinv.out_eq, show payload.length * 5 / 8 - st.currentIdx = 0 by rw [hidx]; omega,
      List.replicate_zero, List.append_nil]
  refine ⟨st.written, st.bits, st.buff.toNat, ?_, hlow, hinv.buff_lt, ?_, hinv.value_eq⟩
  · rw [conv5to8, hrun, Except.ok_bind, hout]
    rfl
  · rw [hinv.written_length]
    exact hinv.length_eq

theorem conv5to8_conv8to5 (payload : List UInt8) :
    (conv8to5 payload >>= conv5to8) = .ok payload := by
  obtain ⟨out5, h5, hdigits, pad, hpad, hlen5, hval5⟩ := conv8to5_spec payload
  obtain ⟨out8, bits, rest, h8, hbits, hrest, hlen8, hval8⟩ := conv5to8_spec hdigits
  rw [h5, Except.ok_bind, h8]
  -- the padding is shorter than a byte: the bytes come back and the bits left are the padding
  have hlen : out8.length = payload.length := by omega
  obtain rfl : bits = pad := by omega
  have hval : value 8 out8 = value 8 payload := by
    have h1 : (value 8 out8 * 2 ^ bits + rest) / 2 ^ bits = value 8 out8 := by
      rw [Nat.mul_comm, Nat.mul_add_div (Nat.two_pow_pos _), Nat.div_eq_of_lt hrest,
        Nat.add_zero]
    rw [← h1, hval8, hval5, Nat.mul_div_cancel _ (Nat.two_pow_pos _)]
  rw [value_inj hlen (fun d _ => d.toNat_lt) (fun d _ => d.toNat_lt) hval]

/-- The eight values `encode_payload` writes for a checksum, read back by `decode_payload` after
three zero bytes, give the checksum. -/
theorem checksum_round_trip {cs : Nat} (h : cs < 256 ^ 5) :
    ∃ cs5, conv8to5 ((toBeBytes 8 cs).drop 3) = .ok cs5 ∧ cs5.length = 8 ∧
      (∀ d ∈ cs5, d.toNat < 2 ^ 5) ∧
      conv5to8 cs5 = .ok (toBeBytes 5 cs) ∧ fromBeBytes ([0, 0, 0] ++ toBeBytes 5 cs) = cs := by
  have hbe : toBeBytes 8 cs = List.replicate 3 0 ++ toBeBytes 5 cs := toBeBytes_add_of_lt 3 h
  have hdrop : (toBeBytes 8 cs).drop 3 = toBeBytes 5 cs := by
    rw [hbe, List.drop_left' (by simp)]
  obtain ⟨cs5, h5, hdigits, pad, hpad, hlen5, -⟩ := conv8to5_spec (toBeBytes 5 cs)
  have hround := conv5to8_conv8to5 (toBeBytes 5 cs)
  rw [h5, Except.ok_bind] at hround
  refine ⟨cs5, by rw [hdrop, h5], ?_, hdigits, hround, ?_⟩
  · rw [length_toBeBytes] at hlen5
    omega
  · rw [show ([0, 0, 0] : List UInt8) = List.replicate 3 0 from rfl, fromBeBytes_zeros_append,
      fromBeBytes_toBeBytes_of_lt h]

/-! ### The charset -/

theorem length_charset : charset.length = 32 := by decide

/-- The reverse table sends each letter of the charset back to its five-bit value. -/
theorem revCharset_charset_fin : ∀ i : Fin 32,
    revCharset.getD (charset.getD i.val 0).toNat 100 = UInt8.ofNat i.val := by
  decide

theorem revCharset_charset {c : UInt8} (hc : c.toNat < 2 ^ 5) :
    revCharset.getD (charset.getD c.toNat 0).toNat 100 = c := by
  rw [revCharset_charset_fin ⟨c.toNat, hc⟩, UInt8.ofNat_toNat]

theorem index_charset {c : UInt8} (hc : c.toNat < 2 ^ 5) :
    Checked.index charset c.toNat = .ok (charset.getD c.toNat 0) := by
  have hlt : c.toNat < charset.length := by rw [length_charset]; exact hc
  simp [Checked.index, List.getElem?_eq_getElem hlt]

theorem length_revCharset : revCharset.length = 123 := rfl

/-- Every entry of the reverse table is a five-bit value or the marker `100`. -/
theorem revCharset_lt_fin : ∀ i : Fin 123,
    revCharset.getD i.val 100 ≠ 100 → (revCharset.getD i.val 100).toNat < 2 ^ 5 := by
  decide

theorem revCharset_lt {b : Nat} (h : revCharset.getD b 100 ≠ 100) :
    (revCharset.getD b 100).toNat < 2 ^ 5 := by
  by_cases hb : b < 123
  · exact revCharset_lt_fin ⟨b, hb⟩ h
  · rw [List.getD_eq_default _ _ (by rw [length_revCharset]; omega)] at h
    exact absurd rfl h

end Vecno.Address
