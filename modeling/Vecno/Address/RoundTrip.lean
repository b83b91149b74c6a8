import Vecno.Address.Address

/-!
# The address string round trip

The string of every address `Address::new` builds parses back to that address. A string with a
valid checksum but a payload of the wrong length makes parsing abort.
-/

namespace Vecno.Address

open Regroup LittleEndian

/-- The letter of a five-bit value. -/
def letter (c : UInt8) : UInt8 := charset.getD c.toNat 0

theorem mapM_index_charset {l : List UInt8} (h : ∀ c ∈ l, c.toNat < 2 ^ 5) :
    l.mapM (fun c => Checked.index charset c.toNat) = .ok (l.map letter) := by
  induction l with
  | nil => rfl
  | cons c l ih =>
    rw [List.mapM_cons, index_charset (h c List.mem_cons_self),
      ih fun c' hc' => h c' (.tail c hc')]
    rfl

theorem decodeLetters_map_letter {l : List UInt8} (h : ∀ c ∈ l, c.toNat < 2 ^ 5) :
    decodeLetters (l.map letter) = .ok l := by
  induction l with
  | nil => rfl
  | cons c l ih =>
    have hc := h c List.mem_cons_self
    -- the reverse table gives the value back, which is below 32 and so never the marker 100
    have hrev : revCharset.getD (letter c).toNat 100 = c := revCharset_charset hc
    have hne : c ≠ 100 := by
      intro h100
      rw [h100] at hc
      exact absurd hc (by decide)
    rw [List.map_cons, decodeLetters, hrev, if_neg hne, ih fun c' hc' => h c' (.tail c hc')]
    rfl

theorem splitOnce_append {xs ys : List UInt8} (h : 0x3a ∉ xs) :
    splitOnce (xs ++ [0x3a] ++ ys) = some (xs, ys) := by
  have hidx : (xs ++ [0x3a] ++ ys).idxOf? 0x3a = some xs.length := by
    induction xs with
    | nil => simp [List.idxOf?_cons]
    | cons x xs ih =>
      have hx : x ≠ 0x3a := fun hx => h (hx ▸ List.mem_cons_self)
      rw [List.cons_append, List.cons_append, List.idxOf?_cons,
        ih fun hmem => h (.tail x hmem)]
      simp [hx]
  rw [splitOnce, hidx]
  simp

theorem colon_not_mem_asStr (p : Prefix) : (0x3a : UInt8) ∉ asciiBytes p.asStr := by
  cases p <;> decide

theorem prefix_tryFrom_asStr (p : Prefix) : Prefix.tryFrom (asciiBytes p.asStr) = .ok p := by
  cases p <;> decide

theorem version_tryFrom_toU8 (v : Version) : Version.tryFrom v.toU8 = .ok v := by
  cases v <;> decide

theorem new_of_length {p : Prefix} {version : Version} {payload : List UInt8}
    (h : payload.length = version.publicKeyLen) :
    Address.new p version payload = .ok ⟨p, version, payload⟩ := by
  simp [Address.new, h]

/-- The checks after the letters, when the checksum letters hold the checksum of the payload
letters and the payload letters hold a version byte and a payload. -/
theorem decodeFivebit_of_checksum {p : Prefix}
    {address payloadU5 checksumU5 cs8 rest : List UInt8} {version : Version}
    (hlen : address.length = payloadU5.length + 8) (hcs : checksumU5.length = 8)
    (hcs8 : conv5to8 checksumU5 = .ok cs8) (hlen8 : cs8.length = 5)
    (hsum : (checksum payloadU5 p.fivebit).toNat = fromBeBytes ([0, 0, 0] ++ cs8))
    (hpayload : conv5to8 payloadU5 = .ok (version.toU8 :: rest)) :
    decodeFivebit p address (payloadU5 ++ checksumU5) =
      (Address.new p version rest >>= fun a => pure (.ok a)) := by
  have hmid : address.length - 8 = payloadU5.length := by omega
  have hnot : ¬address.length < 8 := by omega
  have hsplit : ¬(payloadU5 ++ checksumU5).length < payloadU5.length := by
    rw [List.length_append]
    omega
  have hbytes : ([0, 0, 0] ++ cs8).length = 8 := by
    rw [List.length_append, hlen8]
    rfl
  have hindex : Checked.index (version.toU8 :: rest) 0 = .ok version.toU8 := rfl
  simp only [decodeFivebit, hnot, if_false, hmid, hsplit, List.take_left', List.drop_left',
    hcs8, hpayload, Except.ok_bind, hbytes, hsum, ne_eq, not_true_eq_false, hindex,
    version_tryFrom_toU8, List.drop_one, List.tail_cons]

/-- The string of every address `Address::new` builds parses back to that address. The bytes
go through the five-bit values and back unchanged, and the eight checksum letters read back as
the checksum that decoding recomputes. -/
theorem address_string_round_trip (p : Prefix) (version : Version) (payload : List UInt8)
    (hlen : payload.length = version.publicKeyLen) :
    (∃ a s, Address.new p version payload = .ok a ∧ a.toString = .ok s ∧
      Address.tryFrom s = .ok (.ok a)) ∧
    (∀ b : List UInt8, (conv8to5 b >>= conv5to8) = .ok b) ∧
    (∀ payloadU5 fivebitPrefix : List UInt8, ∃ cs5 cs8,
      conv8to5 ((toBeBytes 8 (checksum payloadU5 fivebitPrefix).toNat).drop 3) = .ok cs5 ∧
      conv5to8 cs5 = .ok cs8 ∧
      fromBeBytes ([0, 0, 0] ++ cs8) = (checksum payloadU5 fivebitPrefix).toNat) := by
  refine ⟨?_, conv5to8_conv8to5, fun payloadU5 fivebitPrefix => ?_⟩
  · obtain ⟨f5, h5, hdigits, -⟩ := conv8to5_spec (version.toU8 :: payload)
    set cs := checksum f5 p.fivebit with hcs
    obtain ⟨cs5, hcs5, hlen5', hdigits', hcs8, hsum⟩ :=
      checksum_round_trip (checksum_lt f5 p.fivebit)
    have hall : ∀ c ∈ f5 ++ cs5, c.toNat < 2 ^ 5 := by
      intro c hc
      rcases List.mem_append.mp hc with hc | hc
      · exact hdigits c hc
      · exact hdigits' c hc
    have henc : Address.encodePayload ⟨p, version, payload⟩ = .ok ((f5 ++ cs5).map letter) := by
      rw [Address.encodePayload, h5, Except.ok_bind]
      simp only [← hcs]
      rw [hcs5, Except.ok_bind, mapM_index_charset hall]
    refine ⟨⟨p, version, payload⟩, asciiBytes p.asStr ++ [0x3a] ++ (f5 ++ cs5).map letter,
      new_of_length hlen, by rw [Address.toString, henc]; rfl, ?_⟩
    have hround := conv5to8_conv8to5 (version.toU8 :: payload)
    rw [h5, Except.ok_bind] at hround
    rw [Address.tryFrom, splitOnce_append (colon_not_mem_asStr p)]
    simp only [prefix_tryFrom_asStr]
    rw [decodePayload, decodeLetters_map_letter hall]
    simp only
    rw [decodeFivebit_of_checksum (by simp [hlen5']) hlen5' hcs8 (length_toBeBytes 5 _)
      hsum.symm hround, new_of_length hlen]
    rfl
  · obtain ⟨cs5, hcs5, -, -, hcs8, hsum⟩ :=
      checksum_round_trip (checksum_lt payloadU5 fivebitPrefix)
    exact ⟨cs5, toBeBytes 5 _, hcs5, hcs8, hsum⟩

/-- The zero public key of the main network. -/
theorem address_string_round_trip_zero :
    (List.replicate 32 (0 : UInt8)).length = Version.pubKey.publicKeyLen ∧
    ((∃ a s, Address.new .mainnet .pubKey (List.replicate 32 0) = .ok a ∧ a.toString = .ok s ∧
      Address.tryFrom s = .ok (.ok a)) ∧
    (∀ b : List UInt8, (conv8to5 b >>= conv5to8) = .ok b) ∧
    (∀ payloadU5 fivebitPrefix : List UInt8, ∃ cs5 cs8,
      conv8to5 ((toBeBytes 8 (checksum payloadU5 fivebitPrefix).toNat).drop 3) = .ok cs5 ∧
      conv5to8 cs5 = .ok cs8 ∧
      fromBeBytes ([0, 0, 0] ++ cs8) = (checksum payloadU5 fivebitPrefix).toNat)) :=
  ⟨rfl, address_string_round_trip .mainnet .pubKey (List.replicate 32 0) rfl⟩

/-! ### What parsing aborts on and what it returns -/

theorem decodeLetters_ok {bs l : List UInt8} (h : decodeLetters bs = .ok l) :
    l.length = bs.length ∧ ∀ c ∈ l, c.toNat < 2 ^ 5 := by
  induction bs generalizing l with
  | nil =>
    cases h
    exact ⟨rfl, fun _ hc => absurd hc List.not_mem_nil⟩
  | cons b bs ih =>
    rw [decodeLetters] at h
    split at h
    · cases h
    · rename_i hne
      obtain ⟨rest, hrest, hl⟩ := Except.bind_eq_ok.mp h
      cases hl
      obtain ⟨hlen, hdigits⟩ := ih hrest
      refine ⟨by rw [List.length_cons, List.length_cons, hlen], ?_⟩
      intro c hc
      rcases List.mem_cons.mp hc with rfl | hc
      · exact revCharset_lt hne
      · exact hdigits c hc

theorem new_eq_error {p : Prefix} {v : Version} {payload : List UInt8} {msg : String}
    (h : Address.new p v payload = .error msg) :
    msg = assertEqFailed payload.length v.publicKeyLen := by
  unfold Address.new at h
  split at h
  · cases h
    rfl
  · cases h

/-- `decode_payload` after its letters aborts only at `payload_u8[0]` on an empty payload or at
the length assertion of `Address::new`: the split point is never past the end and the
regroupings of decoded letters never write out of range. -/
theorem decodeFivebit_aborts {p : Prefix} {address addressU5 : List UInt8} {msg : String}
    (hlen : addressU5.length = address.length) (hdigits : ∀ c ∈ addressU5, c.toNat < 2 ^ 5)
    (h : decodeFivebit p address addressU5 = .error msg) :
    msg = Checked.indexOutOfBounds 0 0 ∨
      ∃ (v : Version) (n : Nat), msg = assertEqFailed n v.publicKeyLen := by
  by_cases h8 : address.length < 8
  · simp only [decodeFivebit, h8, if_true] at h
    cases h
  have hsplit : ¬addressU5.length < address.length - 8 := by omega
  obtain ⟨cs8, bits, -, hcs8, hbits, -, hlen8, -⟩ :=
    @conv5to8_spec (addressU5.drop (address.length - 8))
      fun c hc => hdigits c (List.mem_of_mem_drop hc)
  obtain ⟨payloadU8, -, -, hpayload, -⟩ :=
    @conv5to8_spec (addressU5.take (address.length - 8))
      fun c hc => hdigits c (List.mem_of_mem_take hc)
  -- the five checksum bytes after three zeros are always eight
  have hsize : ¬([0, 0, 0] ++ cs8).length ≠ 8 := by
    rw [List.length_drop] at hlen8
    simp only [List.length_append, List.length_cons, List.length_nil]
    omega
  simp only [decodeFivebit, h8, hsplit, if_false, hcs8, hpayload, Except.ok_bind, hsize] at h
  by_cases hsum : (checksum (addressU5.take (address.length - 8)) p.fivebit).toNat ≠
      fromBeBytes ([0, 0, 0] ++ cs8)
  · rw [if_pos hsum] at h
    cases h
  rw [if_neg hsum] at h
  cases payloadU8 with
  | nil =>
    -- no payload byte: the version byte is read past the end
    have hindex : Checked.index ([] : List UInt8) 0 = .error (Checked.indexOutOfBounds 0 0) := rfl
    rw [hindex, Except.error_bind] at h
    cases h
    exact .inl rfl
  | cons b rest =>
    have hindex : Checked.index (b :: rest) 0 = .ok b := rfl
    rw [hindex, Except.ok_bind] at h
    split at h
    · cases h
    · rename_i version _
      cases hnew : Address.new p version (List.drop 1 (b :: rest)) with
      | error e =>
        rw [hnew, Except.error_bind] at h
        cases h
        exact .inr ⟨version, _, new_eq_error hnew⟩
      | ok a =>
        rw [hnew, Except.ok_bind] at h
        cases h

/-- `Address::try_from` aborts only at `payload_u8[0]` or at the length assertion of
`Address::new`; every other failure is an `AddressError`. -/
theorem tryFrom_aborts {value : List UInt8} {msg : String}
    (h : Address.tryFrom value = .error msg) :
    msg = Checked.indexOutOfBounds 0 0 ∨
      ∃ (v : Version) (n : Nat), msg = assertEqFailed n v.publicKeyLen := by
  unfold Address.tryFrom at h
  split at h
  · split at h
    · unfold decodePayload at h
      split at h
      · cases h
      · rename_i addressU5 hletters
        obtain ⟨hlen, hdigits⟩ := decodeLetters_ok hletters
        exact decodeFivebit_aborts hlen hdigits h
    · cases h
  · cases h

/-- The string with a valid checksum and no payload byte. -/
theorem tryFrom_aborts_empty_payload :
    Address.tryFrom (asciiBytes "vecno:prm62uar") = .error (Checked.indexOutOfBounds 0 0) ∧
    (Checked.indexOutOfBounds 0 0 = Checked.indexOutOfBounds 0 0 ∨
      ∃ (v : Version) (n : Nat),
        Checked.indexOutOfBounds 0 0 = assertEqFailed n v.publicKeyLen) := by
  have h : Address.tryFrom (asciiBytes "vecno:prm62uar") =
      .error (Checked.indexOutOfBounds 0 0) := by
    decide +kernel
  exact ⟨h, tryFrom_aborts h⟩

/-- Three strings with a valid checksum: no payload byte, so `payload_u8[0]` aborts; only the
version byte, so the length assertion of `Address::new` aborts; and the zero public key with its
last padding bit set, which parses to the address whose own string is another. -/
theorem tryFrom_short_payload_panics :
    Address.tryFrom (asciiBytes "vecno:prm62uar") = .error (Checked.indexOutOfBounds 0 0) ∧
    Address.tryFrom (asciiBytes "vecno:qqm6x3egz3") = .error (assertEqFailed 0 32) ∧
    Address.tryFrom
        (asciiBytes "vecno:qqqqqqqqqqqqqqqqqqqqqqqqqqqqqqqqqqqqqqqqqqqqqqqqqqqqpca2l0203") =
      .ok (.ok ⟨.mainnet, .pubKey, List.replicate 32 0⟩) ∧
    Address.toString ⟨.mainnet, .pubKey, List.replicate 32 0⟩ =
      .ok (asciiBytes "vecno:qqqqqqqqqqqqqqqqqqqqqqqqqqqqqqqqqqqqqqqqqqqqqqqqqqqqqt7n5kfus") := by
  refine ⟨?_, ?_, ?_, ?_⟩ <;> decide +kernel

end Vecno.Address
