import Vecno.Mining.Mempool.OrphanPool

/-!
# The orphan pool's invariant

The four maps agree. Adding and removing orphans keep it, on success and error alike, and under
it `remove_orphan` removes exactly the orphan and its chained descendants.
-/

namespace Vecno.Mempool

open Relation

/-- `b` spends from `a` by id: an outpoint `b` spends names `a`'s id. This is what
`get_parent_transaction_ids_in_pool` sees. -/
def SpendsFrom (a b : MempoolTransaction) : Prop :=
  ∃ outpoint ∈ b.mtx.tx.spentOutpoints, outpoint.transactionId = a.id

/-- `b` spends one of `a`'s outputs: the outpoint of an output of `a`. This is what the outgoing
pass of `add_orphan` sees. -/
def SpendsOutput (a b : MempoolTransaction) : Prop :=
  ∃ i < a.mtx.tx.outputs.length,
    (⟨a.id, UInt32.ofNat i⟩ : TransactionOutpoint) ∈ b.mtx.tx.spentOutpoints

namespace OrphanPool

/-- The invariant of the orphan pool's maps. -/
structure Inv (pool : OrphanPool) : Prop where
  id_eq : ∀ id orphan, pool.allOrphans.lookup id = some orphan → orphan.id = id
  owner_iff : ∀ outpoint id, pool.outpointOwnerId.lookup outpoint = some id ↔
    ∃ orphan, pool.allOrphans.lookup id = some orphan ∧ outpoint ∈ orphan.mtx.tx.spentOutpoints
  wellFormed : SetMap.WellFormed pool.chainedOrphans
  chained_sound : ∀ a b, SetMap.Rel pool.chainedOrphans a b → a ≠ b ∧
    ∃ ta tb, pool.allOrphans.lookup a = some ta ∧ pool.allOrphans.lookup b = some tb ∧
      SpendsFrom ta tb
  chained_complete : ∀ a b ta tb, pool.allOrphans.lookup a = some ta →
    pool.allOrphans.lookup b = some tb → a ≠ b → SpendsOutput ta tb → SetMap.Rel pool.chainedOrphans a b
  entries_length : ∀ id orphan, pool.allOrphans.lookup id = some orphan →
    orphan.mtx.entries.length = orphan.mtx.tx.inputs.length
  spent_nodup : ∀ id orphan, pool.allOrphans.lookup id = some orphan →
    orphan.mtx.tx.spentOutpoints.Nodup

theorem inv_new : Inv new where
  id_eq := by simp [new, AList.lookup_empty]
  owner_iff := by simp [new, AList.lookup_empty]
  wellFormed := SetMap.wellFormed_empty
  chained_sound := by simp [new, SetMap.Rel, AList.lookup_empty]
  chained_complete := by simp [new, AList.lookup_empty]
  entries_length := by simp [new, AList.lookup_empty]
  spent_nodup := by simp [new, AList.lookup_empty]

variable {pool : OrphanPool}

theorem lookup_erase_eq_some {id k : TransactionId} {orphan : MempoolTransaction} :
    (pool.allOrphans.erase id).lookup k = some orphan ↔ k ≠ id ∧ pool.allOrphans.lookup k = some orphan := by
  by_cases hk : k = id
  · subst hk
    simp [AList.lookup_erase]
  · simp [AList.lookup_erase_ne hk, hk]

/-- What holds of every orphan of a pool holds of every orphan left after erasing one. -/
theorem forall_lookup_erase {P : TransactionId → MempoolTransaction → Prop} {id : TransactionId}
    (hP : ∀ k orphan, pool.allOrphans.lookup k = some orphan → P k orphan) :
    ∀ k orphan, (pool.allOrphans.erase id).lookup k = some orphan → P k orphan :=
  fun k orphan hk => hP k orphan (lookup_erase_eq_some.mp hk).2

theorem Inv.owner_of_mem (h : Inv pool) {id : TransactionId} {orphan : MempoolTransaction}
    (hid : pool.allOrphans.lookup id = some orphan) {outpoint : TransactionOutpoint}
    (ho : outpoint ∈ orphan.mtx.tx.spentOutpoints) : pool.outpointOwnerId.lookup outpoint = some id :=
  (h.owner_iff outpoint id).mpr ⟨orphan, hid, ho⟩

theorem Inv.eq_of_spend (h : Inv pool) {a b : TransactionId} {ta tb : MempoolTransaction}
    (ha : pool.allOrphans.lookup a = some ta) (hb : pool.allOrphans.lookup b = some tb)
    {outpoint : TransactionOutpoint} (hoa : outpoint ∈ ta.mtx.tx.spentOutpoints)
    (hob : outpoint ∈ tb.mtx.tx.spentOutpoints) : a = b := by
  have hla := h.owner_of_mem ha hoa
  rw [h.owner_of_mem hb hob, Option.some.injEq] at hla
  exact hla.symm

/-- The parents in the pool of an orphan that spends from another are found by
`get_parent_transaction_ids_in_pool`. -/
theorem mem_parents_of_spendsFrom {all : MempoolTransactionCollection} {a : TransactionId}
    {ta tb : MempoolTransaction} (ha : all.lookup a = some ta) (hid : ta.id = a)
    (hspends : SpendsFrom ta tb) : a ∈ Pool.getParentTransactionIdsInPool all tb.mtx := by
  obtain ⟨outpoint, ho, hoa⟩ := hspends
  obtain ⟨input, hinput, rfl⟩ := List.mem_map.mp ho
  exact Pool.mem_getParentTransactionIdsInPool.mpr
    ⟨AList.lookup_isSome.mp (by simp [ha]), input, hinput, by rw [hoa, hid]⟩

/-! ### Removing one orphan -/

theorem Inv.removeSingleOrphan (h : Inv pool) (transactionId : TransactionId) :
    Inv (removeSingleOrphan pool transactionId).2 := by
  cases ht : pool.allOrphans.lookup transactionId with
  | none =>
    rw [removeSingleOrphan_of_lookup_eq_none ht]
    exact h
  | some transaction =>
    rw [removeSingleOrphan_snd ht]
    -- the edges left are those between the orphans left
    have hrel : ∀ a b, SetMap.Rel (((Pool.getParentTransactionIdsInPool
        (pool.allOrphans.erase transactionId) transaction.mtx).foldl
          (fun chained parentId => SetMap.eraseAt chained parentId transactionId)
          pool.chainedOrphans).erase transactionId) a b ↔
        SetMap.Rel pool.chainedOrphans a b ∧ a ≠ transactionId ∧ b ≠ transactionId := by
      intro a b
      rw [SetMap.rel_erase, SetMap.rel_foldl_eraseAt _ _ h.wellFormed]
      constructor
      · rintro ⟨⟨hab, hnot⟩, ha⟩
        refine ⟨hab, ha, fun hb => hnot ⟨?_, hb⟩⟩
        -- an edge into the removed orphan comes from one of its parents
        subst hb
        obtain ⟨-, ta, tb, hta, htb, hspends⟩ := h.chained_sound a _ hab
        rw [ht, Option.some.injEq] at htb
        subst htb
        exact mem_parents_of_spendsFrom (lookup_erase_eq_some.mpr ⟨ha, hta⟩) (h.id_eq _ _ hta) hspends
      · rintro ⟨hab, ha, hb⟩
        exact ⟨⟨hab, fun hin => hb hin.2⟩, ha⟩
    refine ⟨?_, ?_, ?_, ?_, ?_, ?_, ?_⟩
    · exact forall_lookup_erase h.id_eq
    · intro outpoint k
      simp only [lookup_removeOutpoints, lookup_erase_eq_some]
      split
      · -- an outpoint of the removed orphan is spent by no other orphan
        rename_i ho
        simp only [reduceCtorEq, false_iff, not_exists, not_and]
        rintro orphan ⟨hk, hko⟩ hmem
        exact hk (h.eq_of_spend hko ht hmem ho)
      · rename_i ho
        rw [h.owner_iff]
        constructor
        · rintro ⟨orphan, hko, hmem⟩
          refine ⟨orphan, ⟨fun hk => ?_, hko⟩, hmem⟩
          subst hk
          rw [ht, Option.some.injEq] at hko
          subst hko
          exact ho hmem
        · rintro ⟨orphan, ⟨-, hko⟩, hmem⟩
          exact ⟨orphan, hko, hmem⟩
    · exact (h.wellFormed.foldl_eraseAt _ _).erase _
    · intro a b hab
      obtain ⟨hab, ha, hb⟩ := (hrel a b).mp hab
      obtain ⟨hne, ta, tb, hta, htb, hspends⟩ := h.chained_sound a b hab
      exact ⟨hne, ta, tb, lookup_erase_eq_some.mpr ⟨ha, hta⟩, lookup_erase_eq_some.mpr ⟨hb, htb⟩,
        hspends⟩
    · intro a b ta tb hta htb hne hspends
      obtain ⟨ha, hta⟩ := lookup_erase_eq_some.mp hta
      obtain ⟨hb, htb⟩ := lookup_erase_eq_some.mp htb
      exact (hrel a b).mpr ⟨h.chained_complete a b ta tb hta htb hne hspends, ha, hb⟩
    · exact forall_lookup_erase h.entries_length
    · exact forall_lookup_erase h.spent_nodup

/-- Under the invariant, `remove_single_orphan` of an orphan hands it back: each of its distinct
outpoints is in the index. -/
theorem Inv.removeSingleOrphan_fst (h : Inv pool) {transactionId : TransactionId}
    {transaction : MempoolTransaction} (ht : pool.allOrphans.lookup transactionId = some transaction) :
    (OrphanPool.removeSingleOrphan pool transactionId).1 = .ok transaction := by
  refine OrphanPool.removeSingleOrphan_fst ht (removeOutpoints_snd _ (h.spent_nodup _ _ ht) ?_)
  intro outpoint ho
  exact AList.lookup_isSome.mp (Option.isSome_of_eq_some (h.owner_of_mem ht ho))

/-! ### Adding an orphan -/

theorem lookup_insert_eq_some {id k : TransactionId} {orphan orphan' : MempoolTransaction} :
    (pool.allOrphans.insert id orphan').lookup k = some orphan ↔
      (k = id ∧ orphan = orphan') ∨ (k ≠ id ∧ pool.allOrphans.lookup k = some orphan) := by
  by_cases hk : k = id
  · subst hk
    simp [AList.lookup_insert, eq_comm]
  · simp [AList.lookup_insert_ne hk, hk]

/-- What holds of a new orphan and of every orphan of a pool holds of every orphan after the
insertion. -/
theorem forall_lookup_insert {P : TransactionId → MempoolTransaction → Prop} {id : TransactionId}
    {orphan' : MempoolTransaction} (hnew : P id orphan')
    (hP : ∀ k orphan, pool.allOrphans.lookup k = some orphan → P k orphan) :
    ∀ k orphan, (pool.allOrphans.insert id orphan').lookup k = some orphan → P k orphan := by
  intro k orphan hk
  rcases lookup_insert_eq_some.mp hk with ⟨rfl, rfl⟩ | ⟨-, hk⟩
  · exact hnew
  · exact hP k orphan hk

/-- `add_orphan` keeps the invariant for a transaction not in the pool, spending distinct outpoints
no orphan spends: what the checks of `try_add_orphan` and the caller's validation establish. -/
theorem Inv.addOrphan (h : Inv pool) {virtualDaaScore : UInt64} {transaction : MutableTransaction}
    {priority : Priority} {pool' : OrphanPool} (hnew : pool.allOrphans.lookup transaction.id = none)
    (hfree : ∀ outpoint ∈ transaction.tx.spentOutpoints, pool.outpointOwnerId.lookup outpoint = none)
    (hnodup : transaction.tx.spentOutpoints.Nodup)
    (hadd : OrphanPool.addOrphan pool virtualDaaScore transaction priority = .ok pool') : Inv pool' := by
  obtain ⟨hlen, rfl⟩ := addOrphan_eq_ok hadd
  set id := transaction.id with hid_def
  set orphan' : MempoolTransaction := ⟨transaction, priority, virtualDaaScore⟩ with horphan'
  set owners' := transaction.tx.inputs.foldl
    (fun owners input => owners.insert input.previousOutpoint id) pool.outpointOwnerId with howners'
  set parents := Pool.getParentTransactionIdsInPool pool.allOrphans transaction with hparents_def
  have hid' : orphan'.id = id := rfl
  have hnotin : ∀ k orphan, pool.allOrphans.lookup k = some orphan → k ≠ id := by
    rintro k orphan hk rfl
    rw [hnew] at hk
    cases hk
  have howner : ∀ outpoint, owners'.lookup outpoint =
      if outpoint ∈ transaction.tx.spentOutpoints then some id else pool.outpointOwnerId.lookup outpoint :=
    lookup_foldl_insert_inputs _ _ _
  -- the orphan an output of the new transaction is looked up under: an old one spending it
  have hout : ∀ i b, ((owners'.lookup ⟨id, UInt32.ofNat i⟩).bind pool.allOrphans.lookup).map (·.id) =
      some b → ∃ tb, pool.allOrphans.lookup b = some tb ∧
        (⟨id, UInt32.ofNat i⟩ : TransactionOutpoint) ∈ tb.mtx.tx.spentOutpoints := by
    intro i b hb
    obtain ⟨tb, htb, rfl⟩ := Option.map_eq_some_iff.mp hb
    obtain ⟨k, hk, hkt⟩ := Option.bind_eq_some_iff.mp htb
    rw [howner] at hk
    split at hk
    · rw [Option.some.injEq] at hk
      subst hk
      rw [hnew] at hkt
      cases hkt
    · obtain ⟨t, htk, hmem⟩ := (h.owner_iff _ k).mp hk
      rw [hkt, Option.some.injEq] at htk
      subst htk
      rw [h.id_eq k _ hkt]
      exact ⟨_, hkt, hmem⟩
  have hrel : ∀ a b, SetMap.Rel ((List.range transaction.tx.outputs.length).foldl (fun chained i =>
        SetMap.insertAtSome chained id
          (((owners'.lookup ⟨id, UInt32.ofNat i⟩).bind pool.allOrphans.lookup).map (·.id)))
        (parents.foldl (fun chained parentId => SetMap.insertAt chained parentId id)
          pool.chainedOrphans)) a b ↔
      (SetMap.Rel pool.chainedOrphans a b ∨ (a ∈ parents ∧ b = id)) ∨
        (a = id ∧ ∃ i ∈ List.range transaction.tx.outputs.length,
          ((owners'.lookup ⟨id, UInt32.ofNat i⟩).bind pool.allOrphans.lookup).map (·.id) = some b) := by
    intro a b
    rw [SetMap.rel_foldl_insertAtSome, SetMap.rel_foldl_insertAt]
  refine ⟨?_, ?_, ?_, ?_, ?_, ?_, ?_⟩
  · exact forall_lookup_insert hid' h.id_eq
  · intro outpoint k
    simp only [howner, lookup_insert_eq_some]
    split
    · rename_i ho
      -- the new orphan owns its outpoints: no old orphan spends them
      constructor
      · rintro ⟨⟩
        exact ⟨orphan', .inl ⟨rfl, rfl⟩, ho⟩
      · rintro ⟨orphan, ⟨rfl, rfl⟩ | ⟨-, hk⟩, hmem⟩
        · rfl
        · have hold := h.owner_of_mem hk hmem
          rw [hfree outpoint ho] at hold
          cases hold
    · rename_i ho
      rw [h.owner_iff]
      constructor
      · rintro ⟨orphan, hk, hmem⟩
        exact ⟨orphan, .inr ⟨hnotin k orphan hk, hk⟩, hmem⟩
      · rintro ⟨orphan, ⟨rfl, rfl⟩ | ⟨-, hk⟩, hmem⟩
        · exact absurd hmem ho
        · exact ⟨orphan, hk, hmem⟩
  · exact (h.wellFormed.foldl_insertAt _ _).foldl_insertAtSome _ _ _
  · intro a b hab
    rcases (hrel a b).mp hab with (hab | ⟨hpa, rfl⟩) | ⟨rfl, i, -, hb⟩
    · obtain ⟨hne, ta, tb, hta, htb, hspends⟩ := h.chained_sound a b hab
      exact ⟨hne, ta, tb, lookup_insert_eq_some.mpr (.inr ⟨hnotin a ta hta, hta⟩),
        lookup_insert_eq_some.mpr (.inr ⟨hnotin b tb htb, htb⟩), hspends⟩
    · -- an incoming edge: from a parent in the pool the new orphan spends from
      obtain ⟨hpa, input, hinput, hia⟩ := Pool.mem_getParentTransactionIdsInPool.mp hpa
      obtain ⟨ta, hta⟩ := Option.isSome_iff_exists.mp (AList.lookup_isSome.mpr hpa)
      refine ⟨hnotin a ta hta, ta, orphan', lookup_insert_eq_some.mpr (.inr ⟨hnotin a ta hta, hta⟩),
        lookup_insert_eq_some.mpr (.inl ⟨rfl, rfl⟩), input.previousOutpoint,
        List.mem_map.mpr ⟨input, hinput, rfl⟩, ?_⟩
      rw [hia, h.id_eq a ta hta]
    · -- an outgoing edge: to an old orphan spending one of the new transaction's outputs
      obtain ⟨tb, htb, hmem⟩ := hout i b hb
      exact ⟨(hnotin b tb htb).symm, orphan', tb, lookup_insert_eq_some.mpr (.inl ⟨rfl, rfl⟩),
        lookup_insert_eq_some.mpr (.inr ⟨hnotin b tb htb, htb⟩), _, hmem, rfl⟩
  · intro a b ta tb hta htb hne hspends
    rw [hrel]
    rcases lookup_insert_eq_some.mp hta with ⟨rfl, rfl⟩ | ⟨ha, hta⟩ <;>
      rcases lookup_insert_eq_some.mp htb with ⟨rfl, rfl⟩ | ⟨hb, htb⟩
    · exact absurd rfl hne
    · -- the new orphan's output spent by an old orphan, found by the outgoing loop
      obtain ⟨i, hi, hmem⟩ := hspends
      refine .inr ⟨rfl, i, List.mem_range.mpr hi, ?_⟩
      have hmem : (⟨id, UInt32.ofNat i⟩ : TransactionOutpoint) ∈ tb.mtx.tx.spentOutpoints := hmem
      have hnot : (⟨id, UInt32.ofNat i⟩ : TransactionOutpoint) ∉ transaction.tx.spentOutpoints := by
        intro hmine
        have hold := h.owner_of_mem htb hmem
        rw [hfree _ hmine] at hold
        cases hold
      rw [howner, if_neg hnot, h.owner_of_mem htb hmem]
      simp [htb, h.id_eq b tb htb]
    · -- an old orphan the new one spends from, found by the incoming loop
      obtain ⟨i, -, hmem⟩ := hspends
      have hpar : a ∈ Pool.getParentTransactionIdsInPool pool.allOrphans orphan'.mtx :=
        mem_parents_of_spendsFrom hta (h.id_eq a ta hta) ⟨_, hmem, rfl⟩
      exact .inl (.inr ⟨hpar, rfl⟩)
    · exact .inl (.inl (h.chained_complete a b ta tb hta htb hne hspends))
  · exact forall_lookup_insert hlen.symm h.entries_length
  · exact forall_lookup_insert hnodup h.spent_nodup

/-! ### Removing orphans -/

/-- Every orphan of `pool'` is an orphan of `pool`, under the same id. -/
def OrphansWithin (pool' pool : OrphanPool) : Prop :=
  ∀ k orphan, pool'.allOrphans.lookup k = some orphan → pool.allOrphans.lookup k = some orphan

theorem orphansWithin_refl (pool : OrphanPool) : OrphansWithin pool pool :=
  fun _ _ h => h

theorem OrphansWithin.trans {pool'' pool' : OrphanPool} (h₁ : OrphansWithin pool'' pool')
    (h₂ : OrphansWithin pool' pool) : OrphansWithin pool'' pool :=
  fun k orphan hk => h₂ k orphan (h₁ k orphan hk)

theorem OrphansWithin.mem {pool' : OrphanPool} (h : OrphansWithin pool' pool) {k : TransactionId}
    (hk : k ∈ pool'.allOrphans) : k ∈ pool.allOrphans := by
  obtain ⟨orphan, ho⟩ := Option.isSome_iff_exists.mp (AList.lookup_isSome.mpr hk)
  exact AList.lookup_isSome.mp (Option.isSome_of_eq_some (h k orphan ho))

theorem OrphansWithin.len_le {pool' : OrphanPool} (h : OrphansWithin pool' pool) :
    Pool.len pool'.allOrphans ≤ Pool.len pool.allOrphans := by
  rw [Pool.len_eq_length_keys, Pool.len_eq_length_keys]
  exact pool'.allOrphans.keys_nodup.length_le_of_subset fun k hk =>
    AList.mem_keys.mp (h.mem (AList.mem_keys.mpr hk))

/-- A pool within another that lacks one of its orphans holds fewer orphans. -/
theorem OrphansWithin.len_lt {pool' : OrphanPool} (h : OrphansWithin pool' pool) {k : TransactionId}
    (hk : k ∈ pool.allOrphans) (hk' : k ∉ pool'.allOrphans) :
    Pool.len pool'.allOrphans < Pool.len pool.allOrphans := by
  rw [Pool.len_eq_length_keys, Pool.len_eq_length_keys]
  have hkeys : k ∈ pool.allOrphans.keys := AList.mem_keys.mp hk
  -- the keys left all differ from `k`, so they fit in the keys without it
  have hsub : pool'.allOrphans.keys ⊆ pool.allOrphans.keys.erase k := by
    intro x hx
    have hne : x ≠ k := by
      rintro rfl
      exact hk' (AList.mem_keys.mpr hx)
    exact (List.mem_erase_of_ne hne).mpr (AList.mem_keys.mp (h.mem (AList.mem_keys.mpr hx)))
  calc pool'.allOrphans.keys.length
      ≤ (pool.allOrphans.keys.erase k).length := pool'.allOrphans.keys_nodup.length_le_of_subset hsub
    _ < pool.allOrphans.keys.length := by
      rw [List.length_erase_of_mem hkeys]
      have hpos := List.length_pos_of_mem hkeys
      omega

theorem orphansWithin_removeSingleOrphan (transactionId : TransactionId) :
    OrphansWithin (removeSingleOrphan pool transactionId).2 pool := by
  intro k orphan hk
  cases ht : pool.allOrphans.lookup transactionId with
  | none =>
    rwa [removeSingleOrphan_of_lookup_eq_none ht] at hk
  | some transaction =>
    rw [removeSingleOrphan_snd ht] at hk
    exact (lookup_erase_eq_some.mp hk).2

/-- Removing a list of orphans one at a time keeps the invariant and adds none, however it ends. -/
theorem Inv.collect_removeSingleOrphan (h : Inv pool) (ids : List TransactionId) :
    Inv (Mutating.collect OrphanPool.removeSingleOrphan ids pool).2 ∧
      OrphansWithin (Mutating.collect OrphanPool.removeSingleOrphan ids pool).2 pool :=
  Mutating.collect_invariant (fun s => Inv s ∧ OrphansWithin s pool)
    (fun _ a hs => ⟨hs.1.removeSingleOrphan a, (orphansWithin_removeSingleOrphan a).trans hs.2⟩)
    ids pool ⟨h, orphansWithin_refl pool⟩

/-- Under the invariant, removing distinct orphans of the pool one at a time succeeds, hands them
back in order, and takes exactly them out of the pool. -/
theorem Inv.collect_removeSingleOrphan_eq (h : Inv pool) {ids : List TransactionId} (hnodup : ids.Nodup)
    (hmem : ∀ id ∈ ids, id ∈ pool.allOrphans) : ∃ removed pool',
      Mutating.collect OrphanPool.removeSingleOrphan ids pool = (.ok removed, pool') ∧
      removed.map MempoolTransaction.id = ids ∧
      (∀ orphan ∈ removed, pool.allOrphans.lookup orphan.id = some orphan) ∧
      ∀ k, pool'.allOrphans.lookup k = if k ∈ ids then none else pool.allOrphans.lookup k := by
  induction ids generalizing pool with
  | nil => exact ⟨[], pool, rfl, rfl, by simp, by simp⟩
  | cons id ids ih =>
    rw [List.nodup_cons] at hnodup
    obtain ⟨transaction, ht⟩ := Option.isSome_iff_exists.mp
      (AList.lookup_isSome.mpr (hmem id List.mem_cons_self))
    -- the first removal takes out one orphan and leaves the others
    set pool₁ := (OrphanPool.removeSingleOrphan pool id).2 with hpool₁
    have hfirst : OrphanPool.removeSingleOrphan pool id = (.ok transaction, pool₁) :=
      Prod.ext (h.removeSingleOrphan_fst ht) rfl
    have hlookup₁ : ∀ k, pool₁.allOrphans.lookup k = if k = id then none else pool.allOrphans.lookup k := by
      intro k
      rw [hpool₁, removeSingleOrphan_snd ht]
      by_cases hk : k = id
      · subst hk
        simp [AList.lookup_erase]
      · simp [AList.lookup_erase_ne hk, hk]
    have hmem₁ : ∀ k ∈ ids, k ∈ pool₁.allOrphans := by
      intro k hk
      have hne : k ≠ id := fun hkid => hnodup.1 (hkid ▸ hk)
      rw [← AList.lookup_isSome, hlookup₁, if_neg hne, AList.lookup_isSome]
      exact hmem k (List.mem_cons_of_mem id hk)
    obtain ⟨removed, pool', hcollect, hids, hfrom, hlookup⟩ :=
      ih (h.removeSingleOrphan id) hnodup.2 hmem₁
    refine ⟨transaction :: removed, pool', ?_, ?_, ?_, ?_⟩
    · rw [Mutating.collect_cons_of_ok hfirst, hcollect]
    · rw [List.map_cons, hids, h.id_eq id transaction ht]
    · intro orphan ho
      rcases List.mem_cons.mp ho with rfl | ho
      · rw [h.id_eq id orphan ht]
        exact ht
      · have h₁ := hfrom orphan ho
        rw [hlookup₁] at h₁
        split at h₁
        · cases h₁
        · exact h₁
    · intro k
      rw [hlookup, hlookup₁]
      by_cases hk : k = id <;> by_cases hks : k ∈ ids <;> simp [hk, hks]

/-- `remove_orphan` keeps the invariant and adds no orphan, whatever it returns. -/
theorem Inv.removeOrphan (h : Inv pool) (transactionId : TransactionId) (removeRedeemers : Bool) :
    Inv (OrphanPool.removeOrphan pool transactionId removeRedeemers).2 ∧
      OrphansWithin (OrphanPool.removeOrphan pool transactionId removeRedeemers).2 pool := by
  by_cases hmem : transactionId ∈ pool.allOrphans
  · rw [removeOrphan_of_mem hmem]
    exact h.collect_removeSingleOrphan _
  · rw [removeOrphan_of_not_mem hmem]
    exact ⟨h, orphansWithin_refl pool⟩

/-- Under the invariant the search of the orphan pool follows exactly its chained edges. -/
theorem Inv.redeems_iff (h : Inv pool) {a b : TransactionId} :
    Pool.Redeems pool.allOrphans pool.chainedOrphans a b ↔ SetMap.Rel pool.chainedOrphans a b := by
  constructor
  · rintro ⟨orphan, ha, hb, -⟩
    rw [Pool.chainsOf, h.id_eq a orphan ha] at hb
    exact hb
  · intro hab
    obtain ⟨-, ta, tb, hta, htb, -⟩ := h.chained_sound a b hab
    refine ⟨ta, hta, ?_, AList.lookup_isSome.mp (Option.isSome_of_eq_some htb)⟩
    rw [Pool.chainsOf, h.id_eq a ta hta]
    exact hab

theorem Inv.redeems_eq (h : Inv pool) :
    Pool.Redeems pool.allOrphans pool.chainedOrphans = SetMap.Rel pool.chainedOrphans := by
  funext a b
  exact propext h.redeems_iff

/-- Under the invariant, `remove_orphan` without redeemers of an orphan of the pool hands back
that orphan and takes only it out. -/
theorem Inv.removeOrphan_false_eq (h : Inv pool) {transactionId : TransactionId}
    {orphan : MempoolTransaction} (ht : pool.allOrphans.lookup transactionId = some orphan) :
    ∃ pool', OrphanPool.removeOrphan pool transactionId false = (.ok [orphan], pool') ∧
      ∀ k, pool'.allOrphans.lookup k = if k = transactionId then none else pool.allOrphans.lookup k := by
  have hmem : transactionId ∈ pool.allOrphans := AList.lookup_isSome.mp (Option.isSome_of_eq_some ht)
  obtain ⟨removed, pool', hcollect, hids, hfrom, hlookup⟩ :=
    h.collect_removeSingleOrphan_eq (List.nodup_singleton transactionId)
      (by simpa using hmem)
  obtain ⟨removed₀, rfl⟩ : ∃ removed₀, removed = [removed₀] := by
    rcases removed with _ | ⟨removed₀, _ | ⟨_, _⟩⟩ <;> simp at hids
    exact ⟨removed₀, rfl⟩
  have hid : removed₀.id = transactionId := by simpa using hids
  have hsame : removed₀ = orphan := by
    have h₀ := hfrom removed₀ List.mem_cons_self
    rw [hid, ht, Option.some.injEq] at h₀
    exact h₀.symm
  subst hsame
  rw [removeOrphan_of_mem hmem]
  simp only [Bool.false_eq_true, if_false]
  rw [hcollect]
  refine ⟨pool', rfl, fun k => ?_⟩
  rw [hlookup]
  simp

/-- Under the invariant, `remove_orphan` without redeemers hands back exactly the orphan and takes
only it out of the pool, so `unorphan_transaction`'s `assert_eq!(transactions.len(), 1)` holds. -/
theorem Inv.removeOrphan_single (h : Inv pool) {transactionId : TransactionId}
    {orphan : MempoolTransaction} (ht : pool.allOrphans.lookup transactionId = some orphan) :
    ∃ pool', OrphanPool.removeOrphan pool transactionId false = (.ok [orphan], pool') ∧ Inv pool' ∧
      ∀ k, pool'.allOrphans.lookup k = if k = transactionId then none else pool.allOrphans.lookup k := by
  obtain ⟨pool', hremove, hlookup⟩ := h.removeOrphan_false_eq ht
  have hinv := (h.removeOrphan transactionId false).1
  rw [hremove] at hinv
  exact ⟨pool', hremove, hinv, hlookup⟩

/-- Under the invariant, `remove_orphan` with redeemers of an orphan on no cycle of chained edges
succeeds: it hands back the orphan and then, in the order of the search, every orphan chained to
it directly or not; exactly these leave the pool; and no orphan left spends an output of one
removed. -/
theorem Inv.removeOrphan_redeemers (h : Inv pool) {transactionId : TransactionId}
    (hmem : transactionId ∈ pool.allOrphans)
    (hacyclic : ¬ TransGen (SetMap.Rel pool.chainedOrphans) transactionId transactionId) :
    ∃ removed pool', OrphanPool.removeOrphan pool transactionId true = (.ok removed, pool') ∧
      Inv pool' ∧
      removed.map MempoolTransaction.id = transactionId ::
        Pool.getRedeemerIdsInPool pool.allOrphans pool.chainedOrphans transactionId ∧
      (∀ k, k = transactionId ∨ TransGen (SetMap.Rel pool.chainedOrphans) transactionId k →
        pool'.allOrphans.lookup k = none) ∧
      (∀ k, ¬ (k = transactionId ∨ TransGen (SetMap.Rel pool.chainedOrphans) transactionId k) →
        pool'.allOrphans.lookup k = pool.allOrphans.lookup k) ∧
      ∀ a b ta tb, pool.allOrphans.lookup a = some ta → pool'.allOrphans.lookup a = none →
        pool'.allOrphans.lookup b = some tb → ¬ SpendsOutput ta tb := by
  have hspec : (Pool.getRedeemerIdsInPool pool.allOrphans pool.chainedOrphans transactionId).Nodup ∧
      ∀ x, x ∈ Pool.getRedeemerIdsInPool pool.allOrphans pool.chainedOrphans transactionId ↔
        TransGen (Pool.Redeems pool.allOrphans pool.chainedOrphans) transactionId x :=
    Pool.getRedeemerIdsInPool_spec transactionId
  obtain ⟨hnodup, hreach⟩ := hspec
  rw [h.redeems_eq] at hreach
  set redeemers := Pool.getRedeemerIdsInPool pool.allOrphans pool.chainedOrphans transactionId
  have hids : ∀ k, k ∈ transactionId :: redeemers ↔
      k = transactionId ∨ TransGen (SetMap.Rel pool.chainedOrphans) transactionId k := by
    intro k
    rw [List.mem_cons, hreach]
  have hnodup' : (transactionId :: redeemers).Nodup :=
    List.nodup_cons.mpr ⟨fun hin => hacyclic ((hreach _).mp hin), hnodup⟩
  have hmem' : ∀ k ∈ transactionId :: redeemers, k ∈ pool.allOrphans := by
    intro k hk
    rcases (hids k).mp hk with rfl | hk
    · exact hmem
    · -- a redeemer is the end of a chained edge, so an orphan
      obtain ⟨c, -, hck⟩ := TransGen.tail'_iff.mp hk
      obtain ⟨-, -, tb, -, htb, -⟩ := h.chained_sound c k hck
      exact AList.lookup_isSome.mp (Option.isSome_of_eq_some htb)
  obtain ⟨removed, pool', hcollect, hmap, -, hlookup⟩ := h.collect_removeSingleOrphan_eq hnodup' hmem'
  have hinv := (h.removeOrphan transactionId true).1
  rw [removeOrphan_of_mem hmem] at hinv ⊢
  simp only [if_true] at hinv ⊢
  rw [hcollect] at hinv ⊢
  have hremoved : ∀ k, k = transactionId ∨ TransGen (SetMap.Rel pool.chainedOrphans) transactionId k →
      pool'.allOrphans.lookup k = none := by
    intro k hk
    rw [hlookup, if_pos ((hids k).mpr hk)]
  have hkept : ∀ k, ¬ (k = transactionId ∨ TransGen (SetMap.Rel pool.chainedOrphans) transactionId k) →
      pool'.allOrphans.lookup k = pool.allOrphans.lookup k := by
    intro k hk
    rw [hlookup, if_neg fun hin => hk ((hids k).mp hin)]
  refine ⟨removed, pool', rfl, hinv, hmap, hremoved, hkept, ?_⟩
  -- an orphan left spending an output of a removed one would be chained to it, hence removed
  intro a b ta tb hta ha htb hspends
  have ha_removed : a = transactionId ∨ TransGen (SetMap.Rel pool.chainedOrphans) transactionId a := by
    by_contra ha_kept
    rw [hkept a ha_kept, hta] at ha
    cases ha
  have hb_kept : ¬ (b = transactionId ∨ TransGen (SetMap.Rel pool.chainedOrphans) transactionId b) := by
    intro hb
    rw [hremoved b hb] at htb
    cases htb
  rw [hkept b hb_kept] at htb
  have hab : a ≠ b := by
    rintro rfl
    exact hb_kept ha_removed
  have hedge := h.chained_complete a b ta tb hta htb hab hspends
  rcases ha_removed with rfl | ha_removed
  · exact hb_kept (.inr (.single hedge))
  · exact hb_kept (.inr (.tail ha_removed hedge))

end OrphanPool

/-! ### A chain of two orphans -/

/-- An orphan of the examples: transaction `id`, spending output 0 of each transaction of `spent`,
with one output and an unknown entry per input. -/
def exampleOrphan (id : UInt64) (spent : List UInt64) : MutableTransaction :=
  ⟨⟨spent.map fun word => ⟨⟨Hash.fromU64Word word, 0⟩⟩, [⟨0, ⟨0, []⟩⟩], subnetworkIdNative, [],
    Hash.fromU64Word id⟩, spent.map fun _ => none, some 1⟩

/-- The pool holding orphan 1, which spends from transaction 9. -/
def parentPool : OrphanPool :=
  ((OrphanPool.new.addOrphan 0 (exampleOrphan 1 [9]) .low).toOption).getD OrphanPool.new

/-- The pool holding orphan 1 and orphan 2, which spends orphan 1's output. -/
def chainPool : OrphanPool :=
  ((parentPool.addOrphan 0 (exampleOrphan 2 [1]) .low).toOption).getD parentPool

theorem inv_parentPool : parentPool.Inv := by
  have hparent : OrphanPool.new.addOrphan 0 (exampleOrphan 1 [9]) .low = .ok parentPool := rfl
  exact OrphanPool.inv_new.addOrphan (by decide) (by decide) (by decide) hparent

theorem inv_chainPool : chainPool.Inv := by
  have hchain : parentPool.addOrphan 0 (exampleOrphan 2 [1]) .low = .ok chainPool := rfl
  exact inv_parentPool.addOrphan (by decide) (by decide) (by decide) hchain

/-- Orphan 1 is chained to orphan 2 only, and orphan 2 to none: no chained edges form a cycle. -/
theorem chainPool_acyclic : ¬ TransGen (SetMap.Rel chainPool.chainedOrphans)
    (Hash.fromU64Word 1) (Hash.fromU64Word 1) := by
  have hone : ∀ b, SetMap.Rel chainPool.chainedOrphans (Hash.fromU64Word 1) b → b = Hash.fromU64Word 2 := by
    intro b hb
    rw [SetMap.rel_of_lookup (by decide : chainPool.chainedOrphans.lookup (Hash.fromU64Word 1) =
      some [Hash.fromU64Word 2])] at hb
    exact List.mem_singleton.mp hb
  have htwo : ∀ b, ¬ SetMap.Rel chainPool.chainedOrphans (Hash.fromU64Word 2) b := by
    intro b hb
    have hnone : chainPool.chainedOrphans.lookup (Hash.fromU64Word 2) = none := by decide
    simp [SetMap.Rel, hnone] at hb
  intro hcycle
  obtain ⟨c, hc, hrest⟩ := TransGen.head'_iff.mp hcycle
  rw [hone c hc] at hrest
  rcases Relation.reflTransGen_iff_eq_or_transGen.mp hrest with heq | hrest
  · exact absurd heq (by decide)
  · obtain ⟨d, hd, -⟩ := TransGen.head'_iff.mp hrest
    exact htwo d hd

/-- Removing orphan 1 with its redeemers takes orphan 2 with it. -/
theorem removeOrphan_redeemers_chainPool :
    (chainPool.Inv ∧ Hash.fromU64Word 1 ∈ chainPool.allOrphans ∧
      ¬ TransGen (SetMap.Rel chainPool.chainedOrphans) (Hash.fromU64Word 1) (Hash.fromU64Word 1)) ∧
    ∃ removed pool', chainPool.removeOrphan (Hash.fromU64Word 1) true = (.ok removed, pool') ∧
      pool'.Inv ∧
      removed.map MempoolTransaction.id = Hash.fromU64Word 1 ::
        Pool.getRedeemerIdsInPool chainPool.allOrphans chainPool.chainedOrphans (Hash.fromU64Word 1) ∧
      (∀ k, k = Hash.fromU64Word 1 ∨ TransGen (SetMap.Rel chainPool.chainedOrphans)
        (Hash.fromU64Word 1) k → pool'.allOrphans.lookup k = none) ∧
      (∀ k, ¬ (k = Hash.fromU64Word 1 ∨ TransGen (SetMap.Rel chainPool.chainedOrphans)
        (Hash.fromU64Word 1) k) → pool'.allOrphans.lookup k = chainPool.allOrphans.lookup k) ∧
      ∀ a b ta tb, chainPool.allOrphans.lookup a = some ta → pool'.allOrphans.lookup a = none →
        pool'.allOrphans.lookup b = some tb → ¬ SpendsOutput ta tb :=
  ⟨⟨inv_chainPool, by decide, chainPool_acyclic⟩,
    inv_chainPool.removeOrphan_redeemers (by decide) chainPool_acyclic⟩

example : (chainPool.removeOrphan (Hash.fromU64Word 1) true).1.toOption.map (·.map (·.id)) =
    some [Hash.fromU64Word 1, Hash.fromU64Word 2] := by
  decide

/-- Removing orphan 2 alone hands back exactly it. -/
theorem removeOrphan_single_chainPool :
    (chainPool.Inv ∧ chainPool.allOrphans.lookup (Hash.fromU64Word 2) =
      some ⟨exampleOrphan 2 [1], .low, 0⟩) ∧
    ∃ pool', chainPool.removeOrphan (Hash.fromU64Word 2) false =
        (.ok [⟨exampleOrphan 2 [1], .low, 0⟩], pool') ∧ pool'.Inv ∧
      ∀ k, pool'.allOrphans.lookup k =
        if k = Hash.fromU64Word 2 then none else chainPool.allOrphans.lookup k :=
  ⟨⟨inv_chainPool, by decide⟩, inv_chainPool.removeOrphan_single (by decide)⟩

end Vecno.Mempool
