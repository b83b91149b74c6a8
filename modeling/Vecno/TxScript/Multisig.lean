import Vecno.TxScript.Engine
import Vecno.TxScript.SigOpCount
import Vecno.TxScript.DataStack
import Vecno.Lib.GreedyMatch

/-!
# Multisignature checks

`op_check_multisig_schnorr_or_ecdsa`: the signatures walk one pass over the keys, each key tried
being consumed. The signature checks are parameters.
-/

namespace Vecno.TxScript

structure SigHashType where
  value : UInt8
deriving DecidableEq, Repr

/-- `ALLOWED_SIG_HASH_TYPES_VALUES`: `SIG_HASH_ALL`, `SIG_HASH_NONE` and `SIG_HASH_SINGLE`, alone or
with `SIG_HASH_ANY_ONE_CAN_PAY`. -/
def allowedSigHashTypesValues : List UInt8 := [0x01, 0x02, 0x04, 0x81, 0x82, 0x84]

def SigHashType.fromU8 (val : UInt8) : Except String SigHashType :=
  if val ∉ allowedSigHashTypesValues then .error "invalid sighash type" else .ok ⟨val⟩

/-- A signature check: of a signature without its sighash byte, under that sighash type, against a
public key. -/
abbrev SignatureCheck := SigHashType → List UInt8 → List UInt8 → Except TxScriptError Bool

/-- `pop_items::<1, i32>` of a data stack, top first. -/
def popI32 : List (List UInt8) → Except TxScriptError (Int × List (List UInt8))
  | [] => .error (.invalidStackOperation 1 0)
  | item :: rest => do
    let n ← deserializeSized 4 item
    pure (n, rest)

/-- `split_off (len - n)` of a data stack, top first: its top `n` items, deepest first, and the
rest. -/
def splitOff (dstack : List (List UInt8)) (n : Nat) :
    Except TxScriptError (List (List UInt8) × List (List UInt8)) :=
  if dstack.length ≥ n then .ok ((dstack.take n).reverse, dstack.drop n)
  else .error (.invalidStackOperation n dstack.length)

/-- The inner loop for one signature, `valid` checking it against a key: each key tried is
consumed; `none` when fewer keys are left than the `needed` signatures still to check, else the
keys after the one the signature is valid for. -/
def keyLoop (valid : List UInt8 → Except TxScriptError Bool) (needed : Nat) :
    List (List UInt8) → Except TxScriptError (Option (List (List UInt8)))
  | [] => .ok none
  | pubKey :: pubKeys =>
    if (pubKey :: pubKeys).length < needed then .ok none
    else do
      if ← valid pubKey then pure (some pubKeys) else keyLoop valid needed pubKeys

/-- The outer loop over the signatures from `sig_idx` on: whether the check `failed`, at an empty
signature or when the keys run short. -/
def sigLoop (check : SignatureCheck) (numSigs : Nat) :
    Nat → List (List UInt8) → List (List UInt8) → Except TxScriptError Bool
  | _, [], _ => .ok false
  | sigIdx, signature :: signatures, pubKeys =>
    if signature.isEmpty then .ok true
    else
      let typ := signature.getLastD 0
      let signature' := signature.take (signature.length - 1)
      match SigHashType.fromU8 typ with
      | .error _ => .error (.invalidSigHashType typ)
      | .ok hashType => do
        match ← keyLoop (fun pubKey => check hashType pubKey signature') (numSigs - sigIdx) pubKeys with
        | none => pure true
        | some pubKeys => sigLoop check numSigs (sigIdx + 1) signatures pubKeys

def opCheckMultisigSchnorrOrEcdsa (checkEcdsa checkSchnorr : SignatureCheck) (ecdsa : Bool)
    (vm : Stacks) : Except TxScriptError Stacks := do
  let (numKeys, dstack) ← popI32 vm.dstack
  if numKeys < 0 then
    throw (.invalidPubKeyCount s!"number of pubkeys {numKeys} is negative")
  if numKeys > maxPubKeysPerMutltisig then
    throw (.invalidPubKeyCount s!"too many pubkeys {numKeys} > {maxPubKeysPerMutltisig}")
  let numOps := vm.numOps + numKeys
  if numOps > maxOpsPerScript then
    throw (.tooManyOperations maxOpsPerScript)
  let (pubKeys, dstack) ← splitOff dstack numKeys.toNat
  let (numSigs, dstack) ← popI32 dstack
  if numSigs < 0 then
    throw (.invalidSignatureCount s!"number of signatures {numSigs} is negative")
  if numSigs > numKeys then
    throw (.invalidSignatureCount s!"more signatures than pubkeys {numSigs} > {numKeys}")
  let (signatures, dstack) ← splitOff dstack numSigs.toNat
  let failed ← sigLoop (if ecdsa then checkEcdsa else checkSchnorr) numSigs.toNat 0 signatures pubKeys
  if failed && signatures.any (fun sig => !sig.isEmpty) then
    throw .nullFail
  pure { vm with dstack := (if !failed then [1] else []) :: dstack, numOps }

/-! ## The walk decides an order-preserving match -/

/-- Signature `sig` is valid for `pubKey` under `check`: its last byte is a sighash type, and the
signature without it checks against the key. -/
def SigValid (check : SignatureCheck) (sig pubKey : List UInt8) : Prop :=
  ∃ hashType, SigHashType.fromU8 (sig.getLastD 0) = .ok hashType ∧
    check hashType pubKey (sig.take (sig.length - 1)) = .ok true

theorem popI32_serializeI64 (n : Int) (h : n.natAbs < 128) (rest : List (List UInt8)) :
    popI32 (serializeI64 n :: rest) = .ok (n, rest) := by
  have hlen : (serializeI64 n).length ≤ 1 := serializeI64_length_le_of_natAbs_lt 0 (by simpa using h)
  rw [popI32, deserializeSized_serializeI64 (by omega) (by omega)]
  rfl

theorem splitOff_append (items rest : List (List UInt8)) :
    splitOff (items ++ rest) items.length = .ok (items.reverse, rest) := by
  rw [splitOff, if_pos (by simp), List.take_left' rfl, List.drop_left' rfl]

/-- The inner loop for the first of the signatures `a :: as` consumes the keys up to the first one
`a` is valid for, and the signatures match the keys exactly when the rest then match what is
left. -/
theorem keyLoop_spec {α : Type} {R : α → List UInt8 → Prop} {a : α} (as : List α)
    {valid : List UInt8 → Except TxScriptError Bool}
    (hvalid : ∀ pubKey, valid pubKey = .ok true ∨ valid pubKey = .ok false)
    (hR : ∀ pubKey, R a pubKey ↔ valid pubKey = .ok true) (pubKeys : List (List UInt8)) :
    ∃ r, keyLoop valid (as.length + 1) pubKeys = .ok r ∧
      (List.SublistForall₂ R (a :: as) pubKeys ↔ ∃ rest, r = some rest ∧ List.SublistForall₂ R as rest) := by
  -- too few keys left: neither side holds
  have hnone : ∀ {l : List (List UInt8)}, l.length < as.length + 1 →
      (List.SublistForall₂ R (a :: as) l ↔ ∃ rest, (none : Option (List (List UInt8))) = some rest ∧
        List.SublistForall₂ R as rest) := by
    intro l hl
    constructor
    · intro h
      exact absurd h (List.not_sublistForall₂_of_length_lt hl)
    · rintro ⟨rest, hrest, -⟩
      cases hrest
  induction pubKeys with
  | nil => exact ⟨none, rfl, hnone (Nat.succ_pos _)⟩
  | cons pubKey pubKeys ih =>
    by_cases hshort : (pubKey :: pubKeys).length < as.length + 1
    · exact ⟨none, by rw [keyLoop, if_pos hshort], hnone hshort⟩
    · rw [keyLoop, if_neg hshort]
      rcases hvalid pubKey with hk | hk
      · refine ⟨some pubKeys, by rw [hk]; rfl, ?_⟩
        rw [List.sublistForall₂_cons_cons_of_rel ((hR pubKey).mpr hk)]
        simp
      · obtain ⟨r, hr, hiff⟩ := ih
        refine ⟨r, by rw [hk]; exact hr, ?_⟩
        have hnot : ¬ R a pubKey := fun h => by
          have := (hR pubKey).mp h
          rw [hk] at this
          cases this
        rw [List.sublistForall₂_cons_cons_of_not_rel hnot]
        exact hiff

theorem sigLoop_cons {check : SignatureCheck} {numSigs sigIdx : Nat} {sig : List UInt8}
    {sigs pubKeys : List (List UInt8)} {hashType : SigHashType} (hne : sig ≠ [])
    (htype : SigHashType.fromU8 (sig.getLastD 0) = .ok hashType) :
    sigLoop check numSigs sigIdx (sig :: sigs) pubKeys =
      keyLoop (fun pubKey => check hashType pubKey (sig.take (sig.length - 1))) (numSigs - sigIdx) pubKeys >>=
        fun r => match r with
          | none => pure true
          | some pubKeys => sigLoop check numSigs (sigIdx + 1) sigs pubKeys := by
  rw [sigLoop, if_neg (by simpa using hne)]
  simp only [htype]

/-- The signature walk fails exactly when some signature is empty or the signatures do not match,
in order, keys taken in order; with checks that never err and sighash bytes that parse, it
returns. -/
theorem sigLoop_spec {check : SignatureCheck}
    (hcheck : ∀ hashType pubKey sig, check hashType pubKey sig = .ok true ∨
      check hashType pubKey sig = .ok false)
    (sigs : List (List UInt8))
    (htypes : ∀ sig ∈ sigs, sig ≠ [] → ∃ hashType, SigHashType.fromU8 (sig.getLastD 0) = .ok hashType)
    (sigIdx : Nat) (pubKeys : List (List UInt8)) :
    ∃ failed, sigLoop check (sigIdx + sigs.length) sigIdx sigs pubKeys = .ok failed ∧
      (failed = false ↔ (∀ sig ∈ sigs, sig ≠ []) ∧ List.SublistForall₂ (SigValid check) sigs pubKeys) := by
  induction sigs generalizing sigIdx pubKeys with
  | nil => exact ⟨false, rfl, by simp [List.SublistForall₂.nil]⟩
  | cons sig sigs ih =>
    by_cases hempty : sig = []
    · refine ⟨true, by rw [sigLoop, if_pos (by simp [hempty])], ?_⟩
      simp [hempty]
    · obtain ⟨hashType, htype⟩ := htypes sig List.mem_cons_self hempty
      have hR : ∀ pubKey, SigValid check sig pubKey ↔
          check hashType pubKey (sig.take (sig.length - 1)) = .ok true := by
        intro pubKey
        constructor
        · rintro ⟨hashType', htype', hvalid⟩
          rw [htype'] at htype
          cases htype
          exact hvalid
        · intro hvalid
          exact ⟨hashType, htype, hvalid⟩
      obtain ⟨r, hr, hiff⟩ := keyLoop_spec sigs (hcheck hashType · _) hR pubKeys
      have hneeded : sigIdx + (sig :: sigs).length - sigIdx = sigs.length + 1 := by simp
      rw [sigLoop_cons hempty htype, hneeded, hr, Except.ok_bind]
      cases r with
      | none =>
        refine ⟨true, rfl, ?_⟩
        simp only [Bool.true_eq_false, false_iff, not_and]
        intro _ hmatch
        obtain ⟨rest, hrest, -⟩ := hiff.mp hmatch
        cases hrest
      | some rest =>
        have hidx : sigIdx + (sig :: sigs).length = sigIdx + 1 + sigs.length := by simp; omega
        obtain ⟨failed, hfailed, hiff'⟩ := ih (fun s hs => htypes s (List.mem_cons_of_mem sig hs)) (sigIdx + 1) rest
        refine ⟨failed, by rw [hidx]; exact hfailed, ?_⟩
        rw [hiff', hiff]
        simp [hempty]

open Classical in
/-- The multisignature check is an order-preserving match: for a stack holding the signatures and
keys with their counts, at most `MAX_PUB_KEYS_PER_MUTLTISIG` keys, room for their operations,
checks that never err and non-empty signatures ending in a sighash type, it pushes true exactly
when every signature is non-empty and the signatures are valid for keys taken in order; otherwise
it fails with `NullFail` when a signature was given, and pushes false when none was. -/
theorem opCheckMultisig_matches (checkEcdsa checkSchnorr : SignatureCheck) (ecdsa : Bool)
    (hcheck : ∀ hashType pubKey sig, ∃ valid,
      (if ecdsa then checkEcdsa else checkSchnorr) hashType pubKey sig = .ok valid)
    (vm : Stacks) (sigs pubKeys rest : List (List UInt8))
    (hdstack : vm.dstack = serializeI64 pubKeys.length :: (pubKeys.reverse ++
      serializeI64 sigs.length :: (sigs.reverse ++ rest)))
    (hkeys : pubKeys.length ≤ maxPubKeysPerMutltisig) (hsigs : sigs.length ≤ pubKeys.length)
    (hops : vm.numOps + pubKeys.length ≤ maxOpsPerScript)
    (htypes : ∀ sig ∈ sigs, sig ≠ [] → ∃ hashType, SigHashType.fromU8 (sig.getLastD 0) = .ok hashType) :
    opCheckMultisigSchnorrOrEcdsa checkEcdsa checkSchnorr ecdsa vm =
      if (∀ sig ∈ sigs, sig ≠ []) ∧
          List.SublistForall₂ (SigValid (if ecdsa then checkEcdsa else checkSchnorr)) sigs pubKeys then
        .ok { vm with dstack := [1] :: rest, numOps := vm.numOps + pubKeys.length }
      else if ∃ sig ∈ sigs, sig ≠ [] then .error .nullFail
      else .ok { vm with dstack := [] :: rest, numOps := vm.numOps + pubKeys.length } := by
  have hk20 : pubKeys.length ≤ 20 := hkeys
  have hkneg : ¬ ((pubKeys.length : Int) < 0) := by omega
  have hkbig : ¬ ((pubKeys.length : Int) > (maxPubKeysPerMutltisig : Int)) := by
    simp only [maxPubKeysPerMutltisig]
    omega
  have hopsbig : ¬ (vm.numOps + (pubKeys.length : Int) > maxOpsPerScript) := by omega
  have hsneg : ¬ ((sigs.length : Int) < 0) := by omega
  have hsbig : ¬ ((sigs.length : Int) > (pubKeys.length : Int)) := by omega
  have hsplitKeys : splitOff (pubKeys.reverse ++ serializeI64 sigs.length :: (sigs.reverse ++ rest))
      pubKeys.length = .ok (pubKeys, serializeI64 sigs.length :: (sigs.reverse ++ rest)) := by
    have := splitOff_append pubKeys.reverse (serializeI64 sigs.length :: (sigs.reverse ++ rest))
    rwa [List.length_reverse, List.reverse_reverse] at this
  have hsplitSigs : splitOff (sigs.reverse ++ rest) sigs.length = .ok (sigs, rest) := by
    have := splitOff_append sigs.reverse rest
    rwa [List.length_reverse, List.reverse_reverse] at this
  have hcheck' : ∀ hashType pubKey sig,
      (if ecdsa then checkEcdsa else checkSchnorr) hashType pubKey sig = .ok true ∨
      (if ecdsa then checkEcdsa else checkSchnorr) hashType pubKey sig = .ok false := by
    intro hashType pubKey sig
    obtain ⟨valid, hvalid⟩ := hcheck hashType pubKey sig
    cases valid
    · exact .inr hvalid
    · exact .inl hvalid
  obtain ⟨failed, hloop, hiff⟩ := sigLoop_spec hcheck' sigs htypes 0 pubKeys
  rw [Nat.zero_add] at hloop
  rw [opCheckMultisigSchnorrOrEcdsa, hdstack, popI32_serializeI64 _ (by omega)]
  simp only [Except.ok_bind, hkneg, hkbig, hopsbig, if_false, Int.toNat_natCast, hsplitKeys,
    popI32_serializeI64 _ (show (sigs.length : Int).natAbs < 128 by omega), hsneg, hsbig, hsplitSigs,
    hloop]
  -- the outcome: a match pushes true, a failure with a signature given is `NullFail`
  by_cases hm : (∀ sig ∈ sigs, sig ≠ []) ∧
      List.SublistForall₂ (SigValid (if ecdsa then checkEcdsa else checkSchnorr)) sigs pubKeys
  · rw [hiff.mpr hm, if_pos hm]
    rfl
  · have hfailed : failed = true := by
      cases failed
      · exact absurd (hiff.mp rfl) hm
      · rfl
    have hany : (sigs.any fun sig => !sig.isEmpty) = true ↔ ∃ sig ∈ sigs, sig ≠ [] := by
      simp
    rw [hfailed, if_neg hm]
    by_cases hne : ∃ sig ∈ sigs, sig ≠ []
    · rw [if_pos hne, if_pos (by simpa using hany.mpr hne)]
      rfl
    · rw [if_neg hne, if_neg (by simpa using fun h => hne (hany.mp h))]
      rfl

/-- Two signatures against three keys, a signature being valid for the key it repeats: the first
and the third key are taken, and true is pushed. -/
theorem opCheckMultisig_matches_two_of_three :
    opCheckMultisigSchnorrOrEcdsa (fun _ pubKey sig => .ok (decide (pubKey = sig)))
        (fun _ pubKey sig => .ok (decide (pubKey = sig))) false
        ⟨serializeI64 (([[1], [2], [3]] : List (List UInt8)).length : Nat) ::
          (([[1], [2], [3]] : List (List UInt8)).reverse ++
            serializeI64 (([[1, 1], [3, 1]] : List (List UInt8)).length : Nat) ::
              (([[1, 1], [3, 1]] : List (List UInt8)).reverse ++ [])), [], 0⟩ =
      .ok ⟨[[1]], [], 3⟩ := by
  have htypes : ∀ sig ∈ ([[1, 1], [3, 1]] : List (List UInt8)), sig ≠ [] →
      ∃ hashType, SigHashType.fromU8 (sig.getLastD 0) = .ok hashType := by
    intro sig hsig _
    simp only [List.mem_cons, List.not_mem_nil, or_false] at hsig
    rcases hsig with rfl | rfl <;> exact ⟨⟨1⟩, rfl⟩
  have hvalid : ∀ sig : List UInt8, sig ∈ ([[1, 1], [3, 1]] : List (List UInt8)) →
      SigValid (fun _ pubKey sig => .ok (decide (pubKey = sig))) sig (sig.take 1) := by
    intro sig hsig
    simp only [List.mem_cons, List.not_mem_nil, or_false] at hsig
    rcases hsig with rfl | rfl <;> exact ⟨⟨1⟩, rfl, rfl⟩
  have hmatch : List.SublistForall₂ (SigValid (if false then (fun _ pubKey sig => .ok (decide (pubKey = sig)))
      else fun _ pubKey sig => .ok (decide (pubKey = sig)))) [[1, 1], [3, 1]] [[1], [2], [3]] :=
    .cons (hvalid [1, 1] (by simp)) (.cons_right (.cons (hvalid [3, 1] (by simp)) .nil))
  rw [opCheckMultisig_matches _ _ false (fun _ _ _ => ⟨_, rfl⟩) _ [[1, 1], [3, 1]] [[1], [2], [3]] []
    rfl (by decide) (by decide) (by decide) htypes, if_pos ⟨by decide, hmatch⟩]
  rfl

/-- A signature whose last byte is no sighash type ends the check with an error, where a pushed
boolean or `NullFail` is expected: one key, one signature `[0]`, checks that accept everything. -/
theorem opCheckMultisig_invalid_sighash_type :
    opCheckMultisigSchnorrOrEcdsa (fun _ _ _ => .ok true) (fun _ _ _ => .ok true) false
      ⟨[[1], [2], [1], [0]], [], 0⟩ = .error (.invalidSigHashType 0) := by
  decide

end Vecno.TxScript
