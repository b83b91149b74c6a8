import Vecno.Mining.Mempool.OrphanPoolInv

/-!
# Admission, eviction, expiry and runs of the orphan pool

The other mutating methods keep the invariant too, so over any run from `OrphanPool::new` the
maps stay consistent and the pool within its maximum count.
-/

namespace Vecno.Mempool

namespace OrphanPool

variable {pool : OrphanPool}

/-! ### Eviction and admission -/

/-- What one pass of `limit_orphan_pool_size` does under the invariant: the overflow panic of its
condition, room already, a full pool with only high priority orphans, or the eviction of one
orphan, which keeps the invariant and shrinks the pool. -/
theorem Inv.limitOrphanPoolSize_succ (h : Inv pool) (config : Config) (freeSlots fuel : Nat) :
    (2 ^ 64 ≤ Pool.len pool.allOrphans + freeSlots ∧
        OrphanPool.limitOrphanPoolSize config freeSlots (fuel + 1) pool =
          (.error (.panic "attempt to add with overflow"), pool)) ∨
      (Pool.len pool.allOrphans + freeSlots ≤ config.maximumOrphanTransactionCount.toNat ∧
        OrphanPool.limitOrphanPoolSize config freeSlots (fuel + 1) pool = (.ok (), pool)) ∨
      ((∀ k orphan, pool.allOrphans.lookup k = some orphan → orphan.priority = .high) ∧
        OrphanPool.limitOrphanPoolSize config freeSlots (fuel + 1) pool =
          (.error (.err (.rejectOrphanPoolIsFull (Pool.len pool.allOrphans)
            config.maximumOrphanTransactionCount)), pool)) ∨
      (∃ pool₁, Inv pool₁ ∧ OrphansWithin pool₁ pool ∧
        Pool.len pool₁.allOrphans < Pool.len pool.allOrphans ∧
        OrphanPool.limitOrphanPoolSize config freeSlots (fuel + 1) pool =
          OrphanPool.limitOrphanPoolSize config freeSlots fuel pool₁) := by
  by_cases hfit : Pool.len pool.allOrphans + freeSlots < 2 ^ 64
  swap
  · exact .inl ⟨Nat.not_lt.mp hfit, limitOrphanPoolSize_of_overflow (Nat.not_lt.mp hfit)⟩
  by_cases hroom : Pool.len pool.allOrphans + freeSlots ≤ config.maximumOrphanTransactionCount.toNat
  · exact .inr (.inl ⟨hroom, limitOrphanPoolSize_of_le hfit hroom⟩)
  rw [Nat.not_le] at hroom
  cases hpick : getRandomLowPriorityOrphan pool with
  | none =>
    exact .inr (.inr (.inl ⟨fun k orphan hk => getRandomLowPriorityOrphan_eq_none hpick hk,
      limitOrphanPoolSize_of_none hfit hroom hpick⟩))
  | some orphan =>
    -- the evicted orphan is one of the pool, so its removal succeeds and shrinks the pool
    obtain ⟨-, id, hid⟩ := getRandomLowPriorityOrphan_eq_some hpick
    have hlookup : pool.allOrphans.lookup orphan.id = some orphan := by
      rw [h.id_eq id orphan hid]
      exact hid
    obtain ⟨pool₁, hremove, hlookup₁⟩ := h.removeOrphan_false_eq hlookup
    have hstep := h.removeOrphan orphan.id false
    rw [hremove] at hstep
    have hmem₁ : orphan.id ∉ pool₁.allOrphans := by
      rw [← AList.lookup_isSome, hlookup₁, if_pos rfl]
      simp
    have hlt := hstep.2.len_lt (AList.lookup_isSome.mp (Option.isSome_of_eq_some hlookup)) hmem₁
    exact .inr (.inr (.inr ⟨pool₁, hstep.1, hstep.2, hlt,
      limitOrphanPoolSize_of_some hfit hroom hpick hremove⟩))

/-- Whatever `limit_orphan_pool_size` returns, it keeps the invariant and adds no orphan, and
when it succeeds it has made the room asked for. -/
theorem Inv.limitOrphanPoolSize_keeps (h : Inv pool) (config : Config) (freeSlots fuel : Nat) :
    Inv (OrphanPool.limitOrphanPoolSize config freeSlots fuel pool).2 ∧
      OrphansWithin (OrphanPool.limitOrphanPoolSize config freeSlots fuel pool).2 pool ∧
      ((OrphanPool.limitOrphanPoolSize config freeSlots fuel pool).1 = .ok () →
        Pool.len (OrphanPool.limitOrphanPoolSize config freeSlots fuel pool).2.allOrphans + freeSlots ≤
          config.maximumOrphanTransactionCount.toNat) := by
  induction fuel generalizing pool with
  | zero => exact ⟨h, orphansWithin_refl pool, fun hok => by cases hok⟩
  | succ fuel ih =>
    rcases h.limitOrphanPoolSize_succ config freeSlots fuel with
      ⟨-, hrun⟩ | ⟨hroom, hrun⟩ | ⟨-, hrun⟩ | ⟨pool₁, hinv₁, hwithin₁, -, hrun⟩
    · rw [hrun]
      exact ⟨h, orphansWithin_refl pool, fun hok => by cases hok⟩
    · rw [hrun]
      exact ⟨h, orphansWithin_refl pool, fun _ => hroom⟩
    · rw [hrun]
      exact ⟨h, orphansWithin_refl pool, fun hok => by cases hok⟩
    · rw [hrun]
      obtain ⟨hinv, hwithin, hroom⟩ := ih hinv₁
      exact ⟨hinv, hwithin.trans hwithin₁, hroom⟩

/-- Under the invariant, with fuel for every orphan and no overflow of `len + free_slots`,
`limit_orphan_pool_size` keeps the invariant, adds no orphan and never runs out of fuel: it either
leaves room for `freeSlots` more orphans or, with only high priority orphans left, reports the
pool full. -/
theorem Inv.limitOrphanPoolSize (h : Inv pool) (config : Config) (freeSlots : Nat) {fuel : Nat}
    (hfuel : Pool.len pool.allOrphans < fuel) (hfit : Pool.len pool.allOrphans + freeSlots < 2 ^ 64) :
    ∃ result pool', OrphanPool.limitOrphanPoolSize config freeSlots fuel pool = (result, pool') ∧
      Inv pool' ∧ OrphansWithin pool' pool ∧
      ((result = .ok () ∧
          Pool.len pool'.allOrphans + freeSlots ≤ config.maximumOrphanTransactionCount.toNat) ∨
        (result = .error (.err (.rejectOrphanPoolIsFull (Pool.len pool'.allOrphans)
            config.maximumOrphanTransactionCount)) ∧
          ∀ k orphan, pool'.allOrphans.lookup k = some orphan → orphan.priority = .high)) := by
  -- each pass evicts one orphan, so the fuel always exceeds the orphans left
  induction fuel generalizing pool with
  | zero => exact absurd hfuel (Nat.not_lt_zero _)
  | succ fuel ih =>
    rcases h.limitOrphanPoolSize_succ config freeSlots fuel with
      ⟨hover, -⟩ | ⟨hroom, hrun⟩ | ⟨hhigh, hrun⟩ | ⟨pool₁, hinv₁, hwithin₁, hlt, hrun⟩
    · exact absurd hfit (Nat.not_lt.mpr hover)
    · exact ⟨_, pool, hrun, h, orphansWithin_refl pool, .inl ⟨rfl, hroom⟩⟩
    · exact ⟨_, pool, hrun, h, orphansWithin_refl pool, .inr ⟨rfl, hhigh⟩⟩
    · obtain ⟨result, pool', hrun', hinv, hwithin, hend⟩ := ih hinv₁ (by omega) (by omega)
      exact ⟨result, pool', hrun.trans hrun', hinv, hwithin.trans hwithin₁, hend⟩

theorem OrphansWithin.lookup_eq_none {pool' : OrphanPool} (h : OrphansWithin pool' pool)
    {k : TransactionId} (hk : pool.allOrphans.lookup k = none) : pool'.allOrphans.lookup k = none := by
  cases hk' : pool'.allOrphans.lookup k with
  | none => rfl
  | some orphan =>
    rw [h k orphan hk'] at hk
    cases hk

theorem lookup_eq_none_of_checkOrphanDuplicate {transaction : MutableTransaction}
    (hcheck : OrphanPool.checkOrphanDuplicate pool transaction = .ok ()) :
    pool.allOrphans.lookup transaction.id = none := by
  unfold OrphanPool.checkOrphanDuplicate at hcheck
  split at hcheck
  · cases hcheck
  · rename_i hhas
    simpa [Pool.has] using hhas

/-- Past the duplicate check, the double-spend check passes under the invariant only when no
orphan spends an outpoint the transaction spends. -/
theorem Inv.owner_eq_none_of_checkOrphanDoubleSpend (h : Inv pool) {transaction : MutableTransaction}
    (hnew : pool.allOrphans.lookup transaction.id = none)
    (hcheck : OrphanPool.checkOrphanDoubleSpend pool transaction = .ok ()) :
    ∀ outpoint ∈ transaction.tx.spentOutpoints, pool.outpointOwnerId.lookup outpoint = none := by
  intro outpoint ho
  obtain ⟨input, hinput, rfl⟩ := List.mem_map.mp ho
  have hpass := Except.forM_eq_ok.mp hcheck input hinput
  cases hk : pool.outpointOwnerId.lookup input.previousOutpoint with
  | none => rfl
  | some k =>
    obtain ⟨orphan, horphan, -⟩ := (h.owner_iff _ k).mp hk
    have hspend : pool.outpointOrphan input.previousOutpoint = some orphan := by
      simp [OrphanPool.outpointOrphan, hk, horphan]
    -- the spender is filed under its own id, which the duplicate check rules out
    have hne : orphan.id ≠ transaction.id := by
      intro hid
      rw [← hid, h.id_eq k orphan horphan, horphan] at hnew
      cases hnew
    simp [hspend, hne] at hpass

/-- When the checks pass, the transaction is not an orphan yet and no orphan spends what it
spends. -/
theorem Inv.orphanChecks_eq_ok (h : Inv pool) {config : Config} {transaction : MutableTransaction}
    (hchecks : orphanChecks config pool transaction = .ok ()) :
    pool.allOrphans.lookup transaction.id = none ∧
      ∀ outpoint ∈ transaction.tx.spentOutpoints, pool.outpointOwnerId.lookup outpoint = none := by
  rw [orphanChecks] at hchecks
  obtain ⟨_, hdup, hrest⟩ := Except.bind_eq_ok.mp hchecks
  obtain ⟨_, -, hdouble⟩ := Except.bind_eq_ok.mp hrest
  have hnew := lookup_eq_none_of_checkOrphanDuplicate hdup
  exact ⟨hnew, h.owner_eq_none_of_checkOrphanDoubleSpend hnew hdouble⟩

/-- A consistent pool within another indexes no outpoint the other leaves unindexed. -/
theorem Inv.owner_eq_none_of_within {pool' : OrphanPool} (h' : Inv pool')
    (hw : OrphansWithin pool' pool) (h : Inv pool) {outpoint : TransactionOutpoint}
    (ho : pool.outpointOwnerId.lookup outpoint = none) :
    pool'.outpointOwnerId.lookup outpoint = none := by
  cases hk : pool'.outpointOwnerId.lookup outpoint with
  | none => rfl
  | some k =>
    obtain ⟨orphan, horphan, hspent⟩ := (h'.owner_iff outpoint k).mp hk
    rw [h.owner_of_mem (hw k orphan horphan) hspent] at ho
    cases ho

theorem len_insert_of_lookup_eq_none {all : MempoolTransactionCollection} {id : TransactionId}
    (hid : all.lookup id = none) (transaction : MempoolTransaction) :
    Pool.len (all.insert id transaction) = Pool.len all + 1 := by
  have hnot : id ∉ all.entries.keys := AList.lookup_eq_none.mp hid
  simp [Pool.len, List.kerase_of_notMem_keys hnot]

/-- The addition at the end of `try_add_orphan`, into the pool the eviction left: it keeps the
invariant and files the orphan under its id. -/
theorem Inv.addOrphan_of_limit (h : Inv pool) {config : Config} {virtualDaaScore : UInt64}
    {transaction : MutableTransaction} {priority : Priority} {pool₁ pool' : OrphanPool}
    (hnodup : transaction.tx.spentOutpoints.Nodup)
    (hchecks : orphanChecks config pool transaction = .ok ())
    (hlimit : OrphanPool.limitOrphanPoolSize config 1 (Pool.len pool.allOrphans + 1) pool = (.ok (), pool₁))
    (hadd : OrphanPool.addOrphan pool₁ virtualDaaScore transaction priority = .ok pool') :
    Inv pool' ∧ Pool.len pool'.allOrphans ≤ config.maximumOrphanTransactionCount.toNat ∧
      OrphansWithin pool₁ pool ∧ pool'.allOrphans = pool₁.allOrphans.insert transaction.id
        ⟨transaction, priority, virtualDaaScore⟩ := by
  have hkeep := h.limitOrphanPoolSize_keeps config 1 (Pool.len pool.allOrphans + 1)
  rw [hlimit] at hkeep
  obtain ⟨hinv₁, hwithin, hroom⟩ := hkeep
  obtain ⟨hnew, hfree⟩ := h.orphanChecks_eq_ok hchecks
  -- the orphan is still new to the pool the eviction left, and spends nothing indexed there
  have hnew₁ := hwithin.lookup_eq_none hnew
  have hfree₁ : ∀ outpoint ∈ transaction.tx.spentOutpoints,
      pool₁.outpointOwnerId.lookup outpoint = none :=
    fun outpoint ho => hinv₁.owner_eq_none_of_within hwithin h (hfree outpoint ho)
  obtain ⟨-, hpool'⟩ := addOrphan_eq_ok hadd
  refine ⟨hinv₁.addOrphan hnew₁ hfree₁ hnodup hadd, ?_, hwithin, by rw [hpool']⟩
  rw [hpool', len_insert_of_lookup_eq_none hnew₁]
  exact hroom rfl

/-- Whatever `try_add_orphan` returns, from a pool within the maximum count it keeps the invariant
and the bound. -/
theorem Inv.tryAddOrphan_keeps (h : Inv pool) (config : Config) (virtualDaaScore : UInt64)
    {transaction : MutableTransaction} (priority : Priority)
    (hbound : Pool.len pool.allOrphans ≤ config.maximumOrphanTransactionCount.toNat)
    (hnodup : transaction.tx.spentOutpoints.Nodup) :
    Inv (OrphanPool.tryAddOrphan config pool virtualDaaScore transaction priority).2 ∧
      Pool.len (OrphanPool.tryAddOrphan config pool virtualDaaScore transaction priority).2.allOrphans ≤
        config.maximumOrphanTransactionCount.toNat := by
  rcases @tryAddOrphan_cases pool config virtualDaaScore transaction priority with
    ⟨-, hrun⟩ | ⟨-, e, -, hrun⟩ | ⟨-, -, e, pool₁, hlimit, hrun⟩ |
      ⟨-, -, pool₁, hlimit, e, -, hrun⟩ | ⟨-, hchecks, pool₁, hlimit, pool', hadd, hrun⟩
  · rw [hrun]
    exact ⟨h, hbound⟩
  · rw [hrun]
    exact ⟨h, hbound⟩
  all_goals rw [hrun]
  · have hkeep := h.limitOrphanPoolSize_keeps config 1 (Pool.len pool.allOrphans + 1)
    rw [hlimit] at hkeep
    exact ⟨hkeep.1, hkeep.2.1.len_le.trans hbound⟩
  · have hkeep := h.limitOrphanPoolSize_keeps config 1 (Pool.len pool.allOrphans + 1)
    rw [hlimit] at hkeep
    exact ⟨hkeep.1, hkeep.2.1.len_le.trans hbound⟩
  · obtain ⟨hinv, hlen, -⟩ := h.addOrphan_of_limit hnodup hchecks hlimit hadd
    exact ⟨hinv, hlen⟩

/-- On success with room for orphans, `try_add_orphan` has filed the transaction under its id,
and every other orphan was one before. -/
theorem Inv.tryAddOrphan_of_ok (h : Inv pool) {config : Config} {virtualDaaScore : UInt64}
    {transaction : MutableTransaction} {priority : Priority}
    (hnodup : transaction.tx.spentOutpoints.Nodup)
    (hok : (OrphanPool.tryAddOrphan config pool virtualDaaScore transaction priority).1 = .ok ())
    (hzero : config.maximumOrphanTransactionCount ≠ 0) :
    (OrphanPool.tryAddOrphan config pool virtualDaaScore transaction priority).2.allOrphans.lookup
        transaction.id = some ⟨transaction, priority, virtualDaaScore⟩ ∧
      ∀ k orphan, k ≠ transaction.id →
        (OrphanPool.tryAddOrphan config pool virtualDaaScore transaction priority).2.allOrphans.lookup k =
          some orphan → pool.allOrphans.lookup k = some orphan := by
  rcases @tryAddOrphan_cases pool config virtualDaaScore transaction priority with
    ⟨hz, -⟩ | ⟨-, e, -, hrun⟩ | ⟨-, -, e, pool₁, -, hrun⟩ | ⟨-, -, pool₁, -, e, -, hrun⟩ |
      ⟨-, hchecks, pool₁, hlimit, pool', hadd, hrun⟩
  · exact absurd hz hzero
  · rw [hrun] at hok
    cases hok
  · rw [hrun] at hok
    cases hok
  · rw [hrun] at hok
    cases hok
  · rw [hrun]
    obtain ⟨-, -, hwithin, hall⟩ := h.addOrphan_of_limit hnodup hchecks hlimit hadd
    refine ⟨by rw [hall]; exact AList.lookup_insert _, fun k orphan hk hlk => hwithin k orphan ?_⟩
    rwa [hall, AList.lookup_insert_ne hk] at hlk

theorem tryAddOrphan_of_orphanChecks_error {config : Config} {virtualDaaScore : UInt64}
    {transaction : MutableTransaction} {priority : Priority} {e : MempoolAbort}
    (hchecks : orphanChecks config pool transaction = .error e)
    (hzero : config.maximumOrphanTransactionCount ≠ 0) :
    OrphanPool.tryAddOrphan config pool virtualDaaScore transaction priority = (.error e, pool) := by
  simp [tryAddOrphan, hzero, hchecks]

/-- Past the checks, a failure of `try_add_orphan` leaves the pool the eviction made. -/
theorem tryAddOrphan_snd_of_error {config : Config} {virtualDaaScore : UInt64}
    {transaction : MutableTransaction} {priority : Priority}
    (hchecks : orphanChecks config pool transaction = .ok ())
    (herr : (OrphanPool.tryAddOrphan config pool virtualDaaScore transaction priority).1 ≠ .ok ()) :
    (OrphanPool.tryAddOrphan config pool virtualDaaScore transaction priority).2 =
      (OrphanPool.limitOrphanPoolSize config 1 (Pool.len pool.allOrphans + 1) pool).2 := by
  rcases @tryAddOrphan_cases pool config virtualDaaScore transaction priority with
    ⟨-, hrun⟩ | ⟨-, e, hchecks', -⟩ | ⟨-, -, e, pool₁, hlimit, hrun⟩ |
      ⟨-, -, pool₁, hlimit, e, -, hrun⟩ | ⟨-, -, pool₁, -, pool', -, hrun⟩
  · rw [hrun] at herr
    exact absurd rfl herr
  · rw [hchecks] at hchecks'
    cases hchecks'
  · rw [hrun, hlimit]
  · rw [hrun, hlimit]
  · rw [hrun] at herr
    exact absurd rfl herr

/-- Under the invariant, from a pool within the maximum count, `try_add_orphan` of a transaction
that spends no outpoint twice keeps the invariant and the bound, whatever it returns. On success
with room for orphans, the transaction is filed under its id and every other orphan was one
before; a failed check leaves the pool as it was; and past the checks, a failure leaves the pool
the eviction made. -/
theorem Inv.tryAddOrphan (h : Inv pool) (config : Config) (virtualDaaScore : UInt64)
    {transaction : MutableTransaction} (priority : Priority)
    (hbound : Pool.len pool.allOrphans ≤ config.maximumOrphanTransactionCount.toNat)
    (hnodup : transaction.tx.spentOutpoints.Nodup) :
    ∃ result pool', OrphanPool.tryAddOrphan config pool virtualDaaScore transaction priority =
        (result, pool') ∧
      Inv pool' ∧ Pool.len pool'.allOrphans ≤ config.maximumOrphanTransactionCount.toNat ∧
      (result = .ok () → config.maximumOrphanTransactionCount ≠ 0 →
        pool'.allOrphans.lookup transaction.id = some ⟨transaction, priority, virtualDaaScore⟩ ∧
        ∀ k orphan, k ≠ transaction.id → pool'.allOrphans.lookup k = some orphan →
          pool.allOrphans.lookup k = some orphan) ∧
      (∀ e, orphanChecks config pool transaction = .error e →
        config.maximumOrphanTransactionCount ≠ 0 → result = .error e ∧ pool' = pool) ∧
      (orphanChecks config pool transaction = .ok () → result ≠ .ok () →
        pool' = (OrphanPool.limitOrphanPoolSize config 1 (Pool.len pool.allOrphans + 1) pool).2) := by
  obtain ⟨hinv, hlen⟩ := h.tryAddOrphan_keeps config virtualDaaScore priority hbound hnodup
  refine ⟨(OrphanPool.tryAddOrphan config pool virtualDaaScore transaction priority).1,
    (OrphanPool.tryAddOrphan config pool virtualDaaScore transaction priority).2, rfl, hinv, hlen,
    fun hok hzero => h.tryAddOrphan_of_ok hnodup hok hzero,
    fun e hchecks hzero => ?_, fun hchecks herr => tryAddOrphan_snd_of_error hchecks herr⟩
  rw [tryAddOrphan_of_orphanChecks_error hchecks hzero]
  exact ⟨rfl, rfl⟩

/-! ### Emptying entries and expiring -/

/-- What the invariant reads of an orphan: its transaction and how many entries it has. -/
def shape (orphan : MempoolTransaction) : Transaction × Nat :=
  (orphan.mtx.tx, orphan.mtx.entries.length)

/-- The orphans of `all'` are those of `all` under the same ids, up to what their entries hold. -/
def SameShapes (all' all : MempoolTransactionCollection) : Prop :=
  ∀ k, (all'.lookup k).map shape = (all.lookup k).map shape

section SameShapes

variable {all'' all' all : MempoolTransactionCollection}

theorem sameShapes_refl (all : MempoolTransactionCollection) : SameShapes all all :=
  fun _ => rfl

theorem SameShapes.trans (h₁ : SameShapes all'' all') (h₂ : SameShapes all' all) :
    SameShapes all'' all :=
  fun k => (h₁ k).trans (h₂ k)

theorem SameShapes.lookup_left (h : SameShapes all' all) {k : TransactionId}
    {orphan' : MempoolTransaction} (hk : all'.lookup k = some orphan') :
    ∃ orphan, all.lookup k = some orphan ∧ orphan'.mtx.tx = orphan.mtx.tx ∧
      orphan'.mtx.entries.length = orphan.mtx.entries.length := by
  have hmap := h k
  rw [hk] at hmap
  obtain ⟨orphan, horphan, hshape⟩ := Option.map_eq_some_iff.mp hmap.symm
  simp only [shape, Prod.mk.injEq] at hshape
  exact ⟨orphan, horphan, hshape.1.symm, hshape.2.symm⟩

theorem SameShapes.lookup_right (h : SameShapes all' all) {k : TransactionId}
    {orphan : MempoolTransaction} (hk : all.lookup k = some orphan) :
    ∃ orphan', all'.lookup k = some orphan' ∧ orphan'.mtx.tx = orphan.mtx.tx ∧
      orphan'.mtx.entries.length = orphan.mtx.entries.length := by
  have hmap := h k
  rw [hk] at hmap
  obtain ⟨orphan', horphan', hshape⟩ := Option.map_eq_some_iff.mp hmap
  simp only [shape, Prod.mk.injEq] at hshape
  exact ⟨orphan', horphan', hshape.1, hshape.2⟩

theorem SameShapes.len_le (h : SameShapes all' all) : Pool.len all' ≤ Pool.len all := by
  rw [Pool.len_eq_length_keys, Pool.len_eq_length_keys]
  refine all'.keys_nodup.length_le_of_subset fun k hk => ?_
  obtain ⟨orphan', horphan'⟩ :=
    Option.isSome_iff_exists.mp (AList.lookup_isSome.mpr (AList.mem_keys.mpr hk))
  obtain ⟨orphan, horphan, -⟩ := h.lookup_left horphan'
  exact AList.mem_keys.mp (AList.lookup_isSome.mp (Option.isSome_of_eq_some horphan))

theorem sameShapes_replace {k : TransactionId} {orphan' orphan : MempoolTransaction}
    (hk : all.lookup k = some orphan) (hshape : shape orphan' = shape orphan) :
    SameShapes (all.replace k orphan') all := by
  have hmem : k ∈ all := AList.lookup_isSome.mp (Option.isSome_of_eq_some hk)
  intro j
  rw [AList.lookup_replace]
  by_cases hj : j = k
  · subst hj
    simp [hmem, hk, hshape]
  · simp [hj]

end SameShapes

theorem id_eq_of_tx_eq {orphan' orphan : MempoolTransaction} (htx : orphan'.mtx.tx = orphan.mtx.tx) :
    orphan'.id = orphan.id := by
  simp only [MempoolTransaction.id, MutableTransaction.id, htx]

theorem Inv.of_sameShapes (h : Inv pool) {all' : MempoolTransactionCollection}
    (hsame : SameShapes all' pool.allOrphans) : Inv { pool with allOrphans := all' } where
  id_eq k orphan' hk := by
    obtain ⟨orphan, horphan, htx, -⟩ := hsame.lookup_left hk
    rw [id_eq_of_tx_eq htx]
    exact h.id_eq k orphan horphan
  owner_iff outpoint k := by
    rw [h.owner_iff]
    constructor
    · rintro ⟨orphan, horphan, hspent⟩
      obtain ⟨orphan', horphan', htx, -⟩ := hsame.lookup_right horphan
      exact ⟨orphan', horphan', by rw [htx]; exact hspent⟩
    · rintro ⟨orphan', horphan', hspent⟩
      obtain ⟨orphan, horphan, htx, -⟩ := hsame.lookup_left horphan'
      exact ⟨orphan, horphan, by rw [← htx]; exact hspent⟩
  wellFormed := h.wellFormed
  chained_sound a b hab := by
    obtain ⟨hne, ta, tb, hta, htb, outpoint, hspent, hid⟩ := h.chained_sound a b hab
    obtain ⟨ta', hta', htxa, -⟩ := hsame.lookup_right hta
    obtain ⟨tb', htb', htxb, -⟩ := hsame.lookup_right htb
    refine ⟨hne, ta', tb', hta', htb', outpoint, by rw [htxb]; exact hspent, ?_⟩
    rw [id_eq_of_tx_eq htxa]
    exact hid
  chained_complete a b ta' tb' hta' htb' hne hspends := by
    obtain ⟨ta, hta, htxa, -⟩ := hsame.lookup_left hta'
    obtain ⟨tb, htb, htxb, -⟩ := hsame.lookup_left htb'
    obtain ⟨i, hi, hspent⟩ := hspends
    refine h.chained_complete a b ta tb hta htb hne ⟨i, by rw [← htxa]; exact hi, ?_⟩
    rw [← id_eq_of_tx_eq htxa, ← htxb]
    exact hspent
  entries_length k orphan' hk := by
    obtain ⟨orphan, horphan, htx, hlen⟩ := hsame.lookup_left hk
    rw [hlen, htx]
    exact h.entries_length k orphan horphan
  spent_nodup k orphan' hk := by
    obtain ⟨orphan, horphan, htx, -⟩ := hsame.lookup_left hk
    rw [htx]
    exact h.spent_nodup k orphan horphan

theorem shape_clearEntry {removedTransactionId : TransactionId} {orphan orphan' : MempoolTransaction}
    {entry : TransactionInput × Nat} (h : clearEntry removedTransactionId orphan entry = .ok orphan') :
    shape orphan' = shape orphan := by
  unfold clearEntry at h
  split at h
  · obtain ⟨entries, hset, hpure⟩ := Except.bind_eq_ok.mp h
    simp only [pure, Except.pure, Except.ok.injEq] at hpure
    subst hpure
    unfold Checked.set at hset
    split at hset
    · simp only [Except.mapError, Except.ok.injEq] at hset
      simp [shape, ← hset]
    · simp [Except.mapError] at hset
  · simp only [pure, Except.pure, Except.ok.injEq] at h
    rw [h]

theorem shape_clearEntries {removedTransactionId : TransactionId} {orphan orphan' : MempoolTransaction}
    (h : clearEntries removedTransactionId orphan = .ok orphan') : shape orphan' = shape orphan :=
  Except.foldlM_invariant (fun o => shape o = shape orphan)
    (fun _ _ _ hb hstep => (shape_clearEntry hstep).trans hb) rfl h

theorem sameShapes_clearOutputSpender {outpointOwnerId : OutpointIndex}
    {removedTransactionId : TransactionId} {all all' : MempoolTransactionCollection} {i : Nat}
    (h : clearOutputSpender outpointOwnerId removedTransactionId all i = .ok all') :
    SameShapes all' all := by
  unfold clearOutputSpender at h
  cases hown : outpointOwnerId.lookup ⟨removedTransactionId, UInt32.ofNat i⟩ with
  | none =>
    simp only [hown, pure, Except.pure, Except.ok.injEq] at h
    rw [← h]
    exact sameShapes_refl all
  | some ownerId =>
    cases horphan : all.lookup ownerId with
    | none =>
      simp only [hown, horphan, pure, Except.pure, Except.ok.injEq] at h
      rw [← h]
      exact sameShapes_refl all
    | some orphan =>
      simp only [hown, horphan] at h
      obtain ⟨orphan', hclear, hpure⟩ := Except.bind_eq_ok.mp h
      simp only [pure, Except.pure, Except.ok.injEq] at hpure
      rw [← hpure]
      exact sameShapes_replace horphan (shape_clearEntries hclear)

/-- `update_orphans_after_transaction_removed` keeps the invariant and adds no orphan, whatever it
returns. -/
theorem Inv.updateOrphansAfterTransactionRemoved (h : Inv pool)
    (removedTransaction : MempoolTransaction) (removeRedeemers : Bool) :
    Inv (OrphanPool.updateOrphansAfterTransactionRemoved pool removedTransaction removeRedeemers).2 ∧
      Pool.len (OrphanPool.updateOrphansAfterTransactionRemoved pool removedTransaction
        removeRedeemers).2.allOrphans ≤ Pool.len pool.allOrphans := by
  cases removeRedeemers with
  | true =>
    have hcollect := h.collect_removeSingleOrphan
      (Pool.getRedeemerIdsInPool pool.allOrphans pool.chainedOrphans removedTransaction.id)
    exact ⟨hcollect.1, hcollect.2.len_le⟩
  | false =>
    simp only [OrphanPool.updateOrphansAfterTransactionRemoved, Bool.false_eq_true, if_false]
    split
    · rename_i allOrphans hfold
      have hsame : SameShapes allOrphans pool.allOrphans :=
        Except.foldlM_invariant (fun all => SameShapes all pool.allOrphans)
          (fun _ _ _ hb hstep => (sameShapes_clearOutputSpender hstep).trans hb)
          (sameShapes_refl pool.allOrphans) hfold
      exact ⟨h.of_sameShapes hsame, hsame.len_le⟩
    · exact ⟨h, le_refl _⟩

theorem Inv.with_lastExpireScan (h : Inv pool) (lastExpireScan : UInt64) :
    Inv { pool with lastExpireScan } :=
  ⟨h.id_eq, h.owner_iff, h.wellFormed, h.chained_sound, h.chained_complete, h.entries_length,
    h.spent_nodup⟩

/-- `expire_low_priority_transactions` keeps the invariant and adds no orphan, whatever it
returns. -/
theorem Inv.expireLowPriorityTransactions (h : Inv pool) (config : Config) (virtualDaaScore : UInt64) :
    Inv (OrphanPool.expireLowPriorityTransactions config pool virtualDaaScore).2 ∧
      OrphansWithin (OrphanPool.expireLowPriorityTransactions config pool virtualDaaScore).2 pool := by
  -- each removal keeps both, whether or not it succeeds
  have hcollect : ∀ expired,
      Inv (Mutating.collect (fun pool id => OrphanPool.removeOrphan pool id false) expired pool).2 ∧
      OrphansWithin (Mutating.collect (fun pool id => OrphanPool.removeOrphan pool id false)
        expired pool).2 pool := fun expired =>
    Mutating.collect_invariant (fun s => Inv s ∧ OrphansWithin s pool)
      (fun s a hs => ⟨(hs.1.removeOrphan a false).1, (hs.1.removeOrphan a false).2.trans hs.2⟩)
      expired pool ⟨h, orphansWithin_refl pool⟩
  unfold OrphanPool.expireLowPriorityTransactions
  split
  · exact ⟨h, orphansWithin_refl pool⟩
  split
  · exact ⟨h, orphansWithin_refl pool⟩
  split
  · exact ⟨h, orphansWithin_refl pool⟩
  rename_i expired _
  have hpass := hcollect expired
  split
  · rename_i pool' hrun
    rw [hrun] at hpass
    exact ⟨hpass.1.with_lastExpireScan virtualDaaScore, hpass.2⟩
  · rename_i pool' hrun
    rw [hrun] at hpass
    exact hpass

/-! ### Runs of calls -/

/-- The methods through which the mempool changes its orphan pool. -/
inductive Call where
  | tryAddOrphan (virtualDaaScore : UInt64) (transaction : MutableTransaction) (priority : Priority)
  | removeOrphan (transactionId : TransactionId) (removeRedeemers : Bool)
  | updateOrphansAfterTransactionRemoved (removedTransaction : MempoolTransaction)
      (removeRedeemers : Bool)
  | expireLowPriorityTransactions (virtualDaaScore : UInt64)

/-- The pool a call leaves, whatever it returns. -/
def Call.apply (config : Config) (pool : OrphanPool) : Call → OrphanPool
  | .tryAddOrphan virtualDaaScore transaction priority =>
    (OrphanPool.tryAddOrphan config pool virtualDaaScore transaction priority).2
  | .removeOrphan transactionId removeRedeemers =>
    (OrphanPool.removeOrphan pool transactionId removeRedeemers).2
  | .updateOrphansAfterTransactionRemoved removedTransaction removeRedeemers =>
    (OrphanPool.updateOrphansAfterTransactionRemoved pool removedTransaction removeRedeemers).2
  | .expireLowPriorityTransactions virtualDaaScore =>
    (OrphanPool.expireLowPriorityTransactions config pool virtualDaaScore).2

/-- What the mempool's earlier validation guarantees of a call: a transaction offered as an orphan
spends no outpoint twice. -/
def Call.Valid : Call → Prop
  | .tryAddOrphan _ transaction _ => transaction.tx.spentOutpoints.Nodup
  | _ => True

theorem Inv.apply (h : Inv pool) {config : Config}
    (hbound : Pool.len pool.allOrphans ≤ config.maximumOrphanTransactionCount.toNat)
    (call : Call) (hvalid : call.Valid) :
    Inv (call.apply config pool) ∧
      Pool.len (call.apply config pool).allOrphans ≤ config.maximumOrphanTransactionCount.toNat := by
  cases call with
  | tryAddOrphan virtualDaaScore transaction priority =>
    exact h.tryAddOrphan_keeps config virtualDaaScore priority hbound hvalid
  | removeOrphan transactionId removeRedeemers =>
    have hstep := h.removeOrphan transactionId removeRedeemers
    exact ⟨hstep.1, hstep.2.len_le.trans hbound⟩
  | updateOrphansAfterTransactionRemoved removedTransaction removeRedeemers =>
    have hstep := h.updateOrphansAfterTransactionRemoved removedTransaction removeRedeemers
    exact ⟨hstep.1, hstep.2.trans hbound⟩
  | expireLowPriorityTransactions virtualDaaScore =>
    have hstep := h.expireLowPriorityTransactions config virtualDaaScore
    exact ⟨hstep.1, hstep.2.len_le.trans hbound⟩

theorem Inv.foldl_apply (h : Inv pool) {config : Config}
    (hbound : Pool.len pool.allOrphans ≤ config.maximumOrphanTransactionCount.toNat)
    (calls : List Call) (hvalid : ∀ call ∈ calls, call.Valid) :
    Inv (calls.foldl (Call.apply config) pool) ∧
      Pool.len (calls.foldl (Call.apply config) pool).allOrphans ≤
        config.maximumOrphanTransactionCount.toNat := by
  -- the invariant and the bound are carried call by call
  induction calls generalizing pool with
  | nil => exact ⟨h, hbound⟩
  | cons call calls ih =>
    have hstep := h.apply hbound call (hvalid call List.mem_cons_self)
    exact ih hstep.1 hstep.2 fun c hc => hvalid c (List.mem_cons_of_mem call hc)

/-- From the empty pool, every run of calls whose orphans spend no outpoint twice leaves a pool
whose maps are consistent and that holds at most the maximum count of orphans. -/
theorem inv_foldl_apply (config : Config) (calls : List Call) (hvalid : ∀ call ∈ calls, call.Valid) :
    Inv (calls.foldl (Call.apply config) new) ∧
      Pool.len (calls.foldl (Call.apply config) new).allOrphans ≤
        config.maximumOrphanTransactionCount.toNat :=
  inv_new.foldl_apply (by simp [new, Pool.len]) calls hvalid

end OrphanPool

/-! ### Runs on the example pools -/

/-- Making room for one orphan in a pool that may hold one evicts both orphans of the chain. -/
theorem limitOrphanPoolSize_chainPool :
    (chainPool.Inv ∧ Pool.len chainPool.allOrphans < 3 ∧ Pool.len chainPool.allOrphans + 1 < 2 ^ 64) ∧
    ∃ result pool', OrphanPool.limitOrphanPoolSize ⟨10, 10, 100000, 1⟩ 1 3 chainPool = (result, pool') ∧
      pool'.Inv ∧ OrphanPool.OrphansWithin pool' chainPool ∧
      ((result = .ok () ∧ Pool.len pool'.allOrphans + 1 ≤ (1 : UInt64).toNat) ∨
        (result = .error (.err (.rejectOrphanPoolIsFull (Pool.len pool'.allOrphans) 1)) ∧
          ∀ k orphan, pool'.allOrphans.lookup k = some orphan → orphan.priority = .high)) :=
  ⟨⟨inv_chainPool, by decide, by decide⟩,
    inv_chainPool.limitOrphanPoolSize ⟨10, 10, 100000, 1⟩ 1 (by decide) (by decide)⟩

example : Pool.len (OrphanPool.limitOrphanPoolSize ⟨10, 10, 100000, 1⟩ 1 3 chainPool).2.allOrphans = 0 := by
  decide

/-- Adding orphan 2 to the pool holding orphan 1, with room for five orphans, keeps the pool
consistent and within the count. -/
theorem tryAddOrphan_parentPool :
    (parentPool.Inv ∧ Pool.len parentPool.allOrphans ≤ (5 : UInt64).toNat ∧
      (exampleOrphan 2 [1]).tx.spentOutpoints.Nodup) ∧
    ∃ result pool', OrphanPool.tryAddOrphan ⟨10, 10, 100000, 5⟩ parentPool 0 (exampleOrphan 2 [1])
        .low = (result, pool') ∧
      pool'.Inv ∧ Pool.len pool'.allOrphans ≤ (5 : UInt64).toNat ∧
      (result = .ok () → (5 : UInt64) ≠ 0 →
        pool'.allOrphans.lookup (exampleOrphan 2 [1]).id = some ⟨exampleOrphan 2 [1], .low, 0⟩ ∧
        ∀ k orphan, k ≠ (exampleOrphan 2 [1]).id → pool'.allOrphans.lookup k = some orphan →
          parentPool.allOrphans.lookup k = some orphan) ∧
      (∀ e, OrphanPool.orphanChecks ⟨10, 10, 100000, 5⟩ parentPool (exampleOrphan 2 [1]) = .error e →
        (5 : UInt64) ≠ 0 → result = .error e ∧ pool' = parentPool) ∧
      (OrphanPool.orphanChecks ⟨10, 10, 100000, 5⟩ parentPool (exampleOrphan 2 [1]) = .ok () →
        result ≠ .ok () →
        pool' = (OrphanPool.limitOrphanPoolSize ⟨10, 10, 100000, 5⟩ 1
          (Pool.len parentPool.allOrphans + 1) parentPool).2) :=
  ⟨⟨inv_parentPool, by decide, by decide⟩,
    inv_parentPool.tryAddOrphan ⟨10, 10, 100000, 5⟩ 0 .low (by decide) (by decide)⟩

/-- A run that offers orphan 1 and orphan 2, removes orphan 1 with its redeemers and expires. -/
def exampleCalls : List OrphanPool.Call :=
  [.tryAddOrphan 0 (exampleOrphan 1 [9]) .low, .tryAddOrphan 0 (exampleOrphan 2 [1]) .low,
    .removeOrphan (Hash.fromU64Word 1) true, .expireLowPriorityTransactions 100]

theorem exampleCalls_valid : ∀ call ∈ exampleCalls, call.Valid := by
  simp only [exampleCalls, List.mem_cons, List.not_mem_nil, or_false, forall_eq_or_imp, forall_eq]
  exact ⟨(by decide : (exampleOrphan 1 [9]).tx.spentOutpoints.Nodup),
    (by decide : (exampleOrphan 2 [1]).tx.spentOutpoints.Nodup), trivial, trivial⟩

/-- The run keeps the pool consistent and within a count of five. -/
theorem inv_exampleCalls :
    (∀ call ∈ exampleCalls, call.Valid) ∧
    (exampleCalls.foldl (OrphanPool.Call.apply ⟨10, 10, 100000, 5⟩) OrphanPool.new).Inv ∧
      Pool.len (exampleCalls.foldl (OrphanPool.Call.apply ⟨10, 10, 100000, 5⟩)
        OrphanPool.new).allOrphans ≤ (5 : UInt64).toNat :=
  ⟨exampleCalls_valid, OrphanPool.inv_foldl_apply ⟨10, 10, 100000, 5⟩ exampleCalls exampleCalls_valid⟩

example : Pool.len (exampleCalls.foldl (OrphanPool.Call.apply ⟨10, 10, 100000, 5⟩)
    OrphanPool.new).allOrphans = 0 := by
  decide

end Vecno.Mempool
