import Vecno.Consensus.Hash

/-!
# Block headers

The fields of `Header` (`consensus/core/src/header.rs`) that the parents rules read, with the
block level the headers store keeps beside each header.
-/

namespace Vecno

abbrev BlockLevel := UInt8

/-- `blockhash::ORIGIN`: the virtual genesis, whose future holds every locally known block. -/
def origin : Hash :=
  ⟨List.replicate hashSize 0xfe, by simp [hashSize]⟩

/-- `Header`: its cached hash and its parents at every block level. -/
structure Header where
  hash : Hash
  parentsByLevel : List (List Hash)
deriving DecidableEq

/-- `Header::direct_parents`: the parents at level zero. -/
def Header.directParents (header : Header) : List Hash :=
  match header.parentsByLevel with
  | [] => []
  | level0 :: _ => level0

structure HeaderWithBlockLevel where
  header : Header
  blockLevel : BlockLevel
deriving DecidableEq

end Vecno
