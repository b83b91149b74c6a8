import Vecno.Consensus.Tx
import Vecno.Lib.LittleEndian

/-!
# Coinbase payloads

`CoinbaseManager::deserialize_coinbase_payload`: the blue score and subsidy as eight
little-endian bytes each, the miner's script public key with its version and length, then free data.
-/

namespace Vecno

def lengthOfBlueScore : Nat := 8

def lengthOfSubsidy : Nat := 8

def lengthOfScriptPubKeyVersion : Nat := 2

def lengthOfScriptPubKeyLength : Nat := 1

def minPayloadLength : Nat :=
  lengthOfBlueScore + lengthOfSubsidy + lengthOfScriptPubKeyVersion + lengthOfScriptPubKeyLength

inductive CoinbaseError where
  | payloadLenBelowMin (length min : Nat)
  | payloadLenAboveMax (length max : Nat)
  | payloadScriptPublicKeyLenAboveMax (length : Nat) (max : UInt8)
  | payloadCantContainScriptPublicKey (length needed : Nat)
deriving DecidableEq

structure MinerData where
  scriptPublicKey : ScriptPublicKey
  extraData : List UInt8
deriving DecidableEq

structure CoinbaseData where
  blueScore : UInt64
  subsidy : UInt64
  minerData : MinerData
deriving DecidableEq

/-- The limits of `CoinbaseManager` that the payload parser reads. -/
structure CoinbaseManager where
  coinbasePayloadScriptPublicKeyMaxLen : UInt8
  maxCoinbasePayloadLen : Nat

/-- `deserialize_coinbase_payload`. The fixed fields are read with `PayloadParser::take`, whose
splits stay in bounds once the length is at least `MIN_PAYLOAD_LENGTH`. -/
def CoinbaseManager.deserializeCoinbasePayload (manager : CoinbaseManager)
    (payload : List UInt8) : Except CoinbaseError CoinbaseData :=
  if payload.length < minPayloadLength then
    .error (.payloadLenBelowMin payload.length minPayloadLength)
  else if payload.length > manager.maxCoinbasePayloadLen then
    .error (.payloadLenAboveMax payload.length manager.maxCoinbasePayloadLen)
  else
    let blueScore := LittleEndian.fromLeBytes (payload.take lengthOfBlueScore)
    let rest := payload.drop lengthOfBlueScore
    let subsidy := LittleEndian.fromLeBytes (rest.take lengthOfSubsidy)
    let rest := rest.drop lengthOfSubsidy
    let version := LittleEndian.fromLeBytes (rest.take lengthOfScriptPubKeyVersion)
    let rest := rest.drop lengthOfScriptPubKeyVersion
    let scriptPubKeyLen := LittleEndian.fromLeBytes (rest.take lengthOfScriptPubKeyLength)
    let rest := rest.drop lengthOfScriptPubKeyLength
    if scriptPubKeyLen > manager.coinbasePayloadScriptPublicKeyMaxLen.toNat then
      .error (.payloadScriptPublicKeyLenAboveMax scriptPubKeyLen
        manager.coinbasePayloadScriptPublicKeyMaxLen)
    else if rest.length < scriptPubKeyLen then
      .error (.payloadCantContainScriptPublicKey payload.length (minPayloadLength + scriptPubKeyLen))
    else
      .ok ⟨UInt64.ofNat blueScore, UInt64.ofNat subsidy,
        ⟨⟨UInt16.ofNat version, rest.take scriptPubKeyLen⟩, rest.drop scriptPubKeyLen⟩⟩

end Vecno
