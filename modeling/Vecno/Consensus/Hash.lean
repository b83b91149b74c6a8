import Vecno.Lib.LittleEndian

/-!
# Hashes

`Hash` of `crypto/hashes`: 32 bytes naming a block or a transaction. `From<u64>` puts the
word's little-endian bytes into the last eight bytes, which is how the tests name blocks.
-/

namespace Vecno

def hashSize : Nat := 32

/-- `Hash([u8; HASH_SIZE])`. -/
structure Hash where
  bytes : List UInt8
  length_bytes : bytes.length = hashSize
deriving DecidableEq

/-- `Hash::from_u64_word`, that is `from_le_u64([0, 0, 0, word])`. -/
def Hash.fromU64Word (word : UInt64) : Hash :=
  ⟨List.replicate 24 0 ++ LittleEndian.toLeBytes 8 word.toNat, by simp [hashSize]⟩

end Vecno
