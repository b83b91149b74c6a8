import Vecno.Address.Bech32

/-!
# Addresses and their strings

`addresses/src/lib.rs` and `bech32.rs`: a prefix, a version and a payload, written as the prefix,
a colon and the bech32 letters with a checksum. An abort (`payload_u8[0]`, the length assertion of
`Address::new`) is the outer `Except String`; the conversion's own errors are `AddressError`.
-/

namespace Vecno.Address

open Regroup LittleEndian

/-- The cases of `AddressError` that the modelled functions return. -/
inductive AddressError where
  | invalidPrefix (value : List UInt8)
  | missingPrefix
  | invalidVersion (value : UInt8)
  | decodingError (c : Char)
  | badChecksumSize
  | badChecksum
  | badPayload
deriving DecidableEq, Repr

inductive Prefix where
  | mainnet
  | testnet
  | simnet
  | devnet
deriving DecidableEq, Repr

def Prefix.asStr : Prefix → String
  | .mainnet => "vecno"
  | .testnet => "vecnotest"
  | .simnet => "vecnosim"
  | .devnet => "vecnodev"

/-- `TryFrom<&str> for Prefix`. -/
def Prefix.tryFrom (value : List UInt8) : Except AddressError Prefix :=
  if value = asciiBytes Prefix.mainnet.asStr then .ok .mainnet
  else if value = asciiBytes Prefix.testnet.asStr then .ok .testnet
  else if value = asciiBytes Prefix.simnet.asStr then .ok .simnet
  else if value = asciiBytes Prefix.devnet.asStr then .ok .devnet
  else .error (.invalidPrefix value)

inductive Version where
  | pubKey
  | pubKeyECDSA
  | scriptHash
deriving DecidableEq, Repr

/-- `version as u8`. -/
def Version.toU8 : Version → UInt8
  | .pubKey => 0
  | .pubKeyECDSA => 1
  | .scriptHash => 8

def Version.publicKeyLen : Version → Nat
  | .pubKey => 32
  | .pubKeyECDSA => 33
  | .scriptHash => 32

/-- `TryFrom<u8> for Version`. -/
def Version.tryFrom (value : UInt8) : Except AddressError Version :=
  if value = 0 then .ok .pubKey
  else if value = 1 then .ok .pubKeyECDSA
  else if value = 8 then .ok .scriptHash
  else .error (.invalidVersion value)

/-- `Address`. The prefix field is `prefix` in the source. -/
structure Address where
  netPrefix : Prefix
  version : Version
  payload : List UInt8
deriving DecidableEq, Repr

/-- The message of the failed `assert_eq!` of `Address::new`. -/
def assertEqFailed (left right : Nat) : String := Checked.assertEqFailed left right

/-- `Address::new`: the payload must have the version's length. -/
def Address.new (netPrefix : Prefix) (version : Version) (payload : List UInt8) :
    Except String Address :=
  if payload.length ≠ version.publicKeyLen then
    .error (assertEqFailed payload.length version.publicKeyLen)
  else .ok ⟨netPrefix, version, payload⟩

/-- The five-bit prefix of `encode_payload` and `decode_payload`: each byte's low five bits. -/
def Prefix.fivebit (p : Prefix) : List UInt8 := (asciiBytes p.asStr).map (· &&& 0x1f)

/-- `Address::encode_payload`. The charset's letters are ASCII, so `String::from_utf8` always
succeeds and the string is its bytes. -/
def Address.encodePayload (a : Address) : Except String (List UInt8) := do
  let fivebitPayload ← conv8to5 (a.version.toU8 :: a.payload)
  let checksum := checksum fivebitPayload a.netPrefix.fivebit
  let checksumU5 ← conv8to5 ((toBeBytes 8 checksum.toNat).drop 3)
  (fivebitPayload ++ checksumU5).mapM fun c => Checked.index charset c.toNat

/-- `From<&Address> for String`: `format!("{}:{}", prefix, encode_payload())`. -/
def Address.toString (a : Address) : Except String (List UInt8) := do
  let payload ← a.encodePayload
  pure (asciiBytes a.netPrefix.asStr ++ [0x3a] ++ payload)

/-- The `scan` of `decode_payload`: each letter's five-bit value, up to the first letter the
reverse table does not know. -/
def decodeLetters : List UInt8 → Except AddressError (List UInt8)
  | [] => .ok []
  | b :: bs =>
    let i := revCharset.getD b.toNat 100
    if i = 100 then .error (.decodingError (Char.ofNat b.toNat))
    else do
      let rest ← decodeLetters bs
      pure (i :: rest)

/-- The checks of `decode_payload` after the letters are decoded: the length, the checksum, then
the version byte and `Address::new`. -/
def decodeFivebit (netPrefix : Prefix) (address addressU5 : List UInt8) :
    Except String (Except AddressError Address) :=
  if address.length < 8 then pure (.error .badPayload)
  else do
    -- `split_at` aborts when the split point is past the end
    if addressU5.length < address.length - 8 then throw "mid > len"
    let payloadU5 := addressU5.take (address.length - 8)
    let checksumU5 := addressU5.drop (address.length - 8)
    let checksumU8 ← conv5to8 checksumU5
    let bytes := [0, 0, 0] ++ checksumU8
    if bytes.length ≠ 8 then pure (.error .badChecksumSize)
    else if (checksum payloadU5 netPrefix.fivebit).toNat ≠ fromBeBytes bytes then
      pure (.error .badChecksum)
    else do
      let payloadU8 ← conv5to8 payloadU5
      let versionByte ← Checked.index payloadU8 0
      match Version.tryFrom versionByte with
      | .error e => pure (.error e)
      | .ok version => do
        let a ← Address.new netPrefix version (payloadU8.drop 1)
        pure (.ok a)

def decodePayload (netPrefix : Prefix) (address : List UInt8) :
    Except String (Except AddressError Address) :=
  match decodeLetters address with
  | .error e => pure (.error e)
  | .ok addressU5 => decodeFivebit netPrefix address addressU5

/-- `str::split_once(':')` on the string's bytes; a colon byte is never inside a longer
character. -/
def splitOnce (value : List UInt8) : Option (List UInt8 × List UInt8) :=
  match value.idxOf? 0x3a with
  | some i => some (value.take i, value.drop (i + 1))
  | none => none

/-- `TryFrom<&str> for Address`. -/
def Address.tryFrom (value : List UInt8) : Except String (Except AddressError Address) :=
  match splitOnce value with
  | some (pfx, payload) =>
    match Prefix.tryFrom pfx with
    | .ok p => decodePayload p payload
    | .error e => pure (.error e)
  | none => pure (.error .missingPrefix)

end Vecno.Address
