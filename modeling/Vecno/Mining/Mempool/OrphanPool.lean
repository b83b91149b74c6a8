import Vecno.Lib.Mutating
import Vecno.Mining.Mempool.Pool

/-!
# The orphan pool

`OrphanPool` of `mining/src/mempool/model/orphan_pool.rs`. A mutating method returns its
`RuleResult` with the pool it leaves; `limit_orphan_pool_size` takes fuel.
-/

namespace Vecno.Mempool

/-- The fields of the mempool `Config` that the orphan pool reads. -/
structure Config where
  orphanExpireIntervalDaaScore : UInt64
  orphanExpireScanIntervalDaaScore : UInt64
  maximumOrphanTransactionMass : UInt64
  maximumOrphanTransactionCount : UInt64

/-- `OrphanPool`; its `Arc<Config>` is passed to the methods that read it. -/
structure OrphanPool where
  allOrphans : MempoolTransactionCollection
  chainedOrphans : TransactionsEdges
  outpointOwnerId : OutpointIndex
  lastExpireScan : UInt64

namespace OrphanPool

def new : OrphanPool :=
  ⟨∅, ∅, ∅, 0⟩

/-- `outpoint_orphan`: the orphan spending an outpoint. -/
def outpointOrphan (pool : OrphanPool) (outpoint : TransactionOutpoint) :
    Option MempoolTransaction :=
  (pool.outpointOwnerId.lookup outpoint).bind pool.allOrphans.lookup

/-- `get_random_low_priority_orphan`: the first low priority orphan in the map's order. -/
def getRandomLowPriorityOrphan (pool : OrphanPool) : Option MempoolTransaction :=
  (pool.allOrphans.entries.map (·.2)).find? fun x => x.priority == .low

/-! ### Checks -/

/-- `check_orphan_mass`: the calculated mass is unwrapped and bounded. -/
def checkOrphanMass (config : Config) (transaction : MutableTransaction) :
    Except MempoolAbort Unit :=
  match transaction.calculatedComputeMass with
  | some mass =>
    if mass > config.maximumOrphanTransactionMass then
      .error (.err (.rejectBadOrphanMass mass config.maximumOrphanTransactionMass))
    else .ok ()
  | none => .error (.panic Checked.unwrapNone)

def checkOrphanDuplicate (pool : OrphanPool) (transaction : MutableTransaction) :
    Except MempoolAbort Unit :=
  if Pool.has pool.allOrphans transaction.id then
    .error (.err (.rejectDuplicateOrphan transaction.id))
  else .ok ()

/-- `check_orphan_double_spend`: the first input whose outpoint an orphan of another id spends. -/
def checkOrphanDoubleSpend (pool : OrphanPool) (transaction : MutableTransaction) :
    Except MempoolAbort Unit :=
  transaction.tx.inputs.forM fun input =>
    match pool.outpointOrphan input.previousOutpoint with
    | some doubleSpendOrphan =>
      if doubleSpendOrphan.id ≠ transaction.id then
        .error (.err (.rejectDoubleSpendOrphan transaction.id doubleSpendOrphan.id))
      else .ok ()
    | none => .ok ()

/-! ### Adding and removing -/

/-- `add_orphan`. The transaction becomes the owner of every outpoint it spends, is chained to each
parent in the pool, and each orphan spending one of its outputs is chained to it; then it joins
the pool. Only the assertion of `MempoolTransaction::new` can stop it, before any change. -/
def addOrphan (pool : OrphanPool) (virtualDaaScore : UInt64) (transaction : MutableTransaction)
    (priority : Priority) : Except MempoolAbort OrphanPool := do
  let id := transaction.id
  let transaction ← (MempoolTransaction.new transaction priority virtualDaaScore).mapError .panic
  let outpointOwnerId := transaction.mtx.tx.inputs.foldl
    (fun owners input => owners.insert input.previousOutpoint id) pool.outpointOwnerId
  let pool := { pool with outpointOwnerId }
  -- incoming: the parents are read before the orphan joins the pool
  let chained := (Pool.getParentTransactionIdsInPool pool.allOrphans transaction.mtx).foldl
    (fun chained parentId => SetMap.insertAt chained parentId id) pool.chainedOrphans
  -- outgoing: only the outpoints of the transaction's own outputs are looked up
  let chained := (List.range transaction.mtx.tx.outputs.length).foldl (fun chained i =>
    SetMap.insertAtSome chained id ((pool.outpointOrphan ⟨id, UInt32.ofNat i⟩).map (·.id))) chained
  pure { pool with chainedOrphans := chained, allOrphans := pool.allOrphans.insert id transaction }

/-- One pass of the loop of `remove_single_orphan` over the inputs: the input's outpoint leaves
the index, and an error is recorded when it was not there. -/
def removeOutpoint (transaction : MempoolTransaction) (acc : OutpointIndex × Option RuleError)
    (entry : TransactionInput × Nat) : OutpointIndex × Option RuleError :=
  let error := if (acc.1.lookup entry.1.previousOutpoint).isNone then
    some (.rejectMissingOrphanOutpoint entry.2 transaction.id entry.1.previousOutpoint)
  else acc.2
  (acc.1.erase entry.1.previousOutpoint, error)

/-- The loop of `remove_single_orphan` over the inputs: every input's outpoint leaves the index,
and the error names the last input whose outpoint was not there. -/
def removeOutpoints (transaction : MempoolTransaction) (outpointOwnerId : OutpointIndex) :
    OutpointIndex × Option RuleError :=
  transaction.mtx.tx.inputs.zipIdx.foldl (removeOutpoint transaction) (outpointOwnerId, none)

/-- `remove_single_orphan`. An error about a missing outpoint comes after the orphan has left
every map. -/
def removeSingleOrphan (pool : OrphanPool) (transactionId : TransactionId) :
    Except MempoolAbort MempoolTransaction × OrphanPool :=
  match pool.allOrphans.lookup transactionId with
  | some transaction =>
    let allOrphans := pool.allOrphans.erase transactionId
    -- incoming: the parents are read after the orphan left the pool
    let parents := Pool.getParentTransactionIdsInPool allOrphans transaction.mtx
    let chained := parents.foldl (fun chained parentId => SetMap.eraseAt chained parentId transactionId)
      pool.chainedOrphans
    -- outgoing
    let chained := chained.erase transactionId
    let (outpointOwnerId, error) := removeOutpoints transaction pool.outpointOwnerId
    let pool := { pool with allOrphans, chainedOrphans := chained, outpointOwnerId }
    match error with
    | none => (.ok transaction, pool)
    | some err => (.error (.err err), pool)
  | none => (.error (.err (.rejectMissingOrphanTransaction transactionId)), pool)

/-- `remove_orphan`: the orphan, then, when asked, every orphan its breadth-first search reaches,
each removed in turn until one fails. -/
def removeOrphan (pool : OrphanPool) (transactionId : TransactionId) (removeRedeemers : Bool) :
    Except MempoolAbort (List MempoolTransaction) × OrphanPool :=
  if !Pool.has pool.allOrphans transactionId then (.ok [], pool)
  else
    let transactionIdsToRemove := transactionId ::
      if removeRedeemers then
        Pool.getRedeemerIdsInPool pool.allOrphans pool.chainedOrphans transactionId
      else []
    Mutating.collect removeSingleOrphan transactionIdsToRemove pool

/-- `remove_redeemers_of`: every orphan the breadth-first search from the id reaches. -/
def removeRedeemersOf (pool : OrphanPool) (transactionId : TransactionId) :
    Except MempoolAbort (List MempoolTransaction) × OrphanPool :=
  Mutating.collect removeSingleOrphan
    (Pool.getRedeemerIdsInPool pool.allOrphans pool.chainedOrphans transactionId) pool

/-- One pass of the inner loop of `update_orphans_after_transaction_removed`: `entries[i] = None`
for an input spending from the removed transaction, which panics past the end of the entries. -/
def clearEntry (removedTransactionId : TransactionId) (orphan : MempoolTransaction)
    (entry : TransactionInput × Nat) : Except MempoolAbort MempoolTransaction :=
  if entry.1.previousOutpoint.transactionId = removedTransactionId then do
    let entries ← (Checked.set orphan.mtx.entries entry.2 none).mapError .panic
    pure { orphan with mtx := { orphan.mtx with entries } }
  else pure orphan

/-- The inner loop of `update_orphans_after_transaction_removed`. -/
def clearEntries (removedTransactionId : TransactionId) (orphan : MempoolTransaction) :
    Except MempoolAbort MempoolTransaction :=
  orphan.mtx.tx.inputs.zipIdx.foldlM (clearEntry removedTransactionId) orphan

/-- One pass of the outer loop of `update_orphans_after_transaction_removed`: the orphan owning
the removed transaction's output `i`, if any, has its entries cleared in place. -/
def clearOutputSpender (outpointOwnerId : OutpointIndex) (removedTransactionId : TransactionId)
    (allOrphans : MempoolTransactionCollection) (i : Nat) :
    Except MempoolAbort MempoolTransactionCollection :=
  match outpointOwnerId.lookup ⟨removedTransactionId, UInt32.ofNat i⟩ with
  | some ownerId =>
    match allOrphans.lookup ownerId with
    | some orphan => do
      let orphan ← clearEntries removedTransactionId orphan
      pure (allOrphans.replace ownerId orphan)
    | none => pure allOrphans
  | none => pure allOrphans

/-- `update_orphans_after_transaction_removed`. With `remove_redeemers` the search starts from the
removed transaction's id in the orphan pool; without it, every orphan spending one of the removed
transaction's outputs has the entries of its inputs spending from it emptied, in place. -/
def updateOrphansAfterTransactionRemoved (pool : OrphanPool)
    (removedTransaction : MempoolTransaction) (removeRedeemers : Bool) :
    Except MempoolAbort (List MempoolTransaction) × OrphanPool :=
  let removedTransactionId := removedTransaction.id
  if removeRedeemers then removeRedeemersOf pool removedTransactionId
  else
    match (List.range removedTransaction.mtx.tx.outputs.length).foldlM
        (clearOutputSpender pool.outpointOwnerId removedTransactionId) pool.allOrphans with
    | .ok allOrphans => (.ok [], { pool with allOrphans })
    | .error e => (.error e, pool)

/-! ### Eviction, admission and expiry -/

/-- `limit_orphan_pool_size`: while the pool lacks room for `freeSlots` more, a low priority
orphan is removed, without its redeemers; with none left, the pool is full. The loop condition's
`usize` addition is overflow-checked. -/
def limitOrphanPoolSize (config : Config) (freeSlots : Nat) :
    Nat → OrphanPool → Except MempoolAbort Unit × OrphanPool
  | 0, pool => (.error .outOfFuel, pool)
  | fuel + 1, pool =>
    match Checked.add 64 (Pool.len pool.allOrphans) freeSlots with
    | .error e => (.error (.panic e), pool)
    | .ok needed =>
      if needed > config.maximumOrphanTransactionCount.toNat then
        match getRandomLowPriorityOrphan pool with
        | some orphanToRemove =>
          match removeOrphan pool orphanToRemove.id false with
          | (.ok _, pool) => limitOrphanPoolSize config freeSlots fuel pool
          | (.error e, pool) => (.error e, pool)
        | none =>
          (.error (.err (.rejectOrphanPoolIsFull (Pool.len pool.allOrphans)
            config.maximumOrphanTransactionCount)), pool)
      else (.ok (), pool)

/-- The three checks of `try_add_orphan`, in order, each returning early with its error. -/
def orphanChecks (config : Config) (pool : OrphanPool) (transaction : MutableTransaction) :
    Except MempoolAbort Unit := do
  checkOrphanDuplicate pool transaction
  checkOrphanMass config transaction
  checkOrphanDoubleSpend pool transaction

/-- `try_add_orphan`: nothing when the pool may hold no orphan; otherwise the checks, room for
one more, and the addition. -/
def tryAddOrphan (config : Config) (pool : OrphanPool) (virtualDaaScore : UInt64)
    (transaction : MutableTransaction) (priority : Priority) : Except MempoolAbort Unit × OrphanPool :=
  if config.maximumOrphanTransactionCount = 0 then (.ok (), pool)
  else
    match orphanChecks config pool transaction with
    | .error e => (.error e, pool)
    | .ok () =>
      match limitOrphanPoolSize config 1 (Pool.len pool.allOrphans + 1) pool with
      | (.ok (), pool) =>
        match addOrphan pool virtualDaaScore transaction priority with
        | .ok pool => (.ok (), pool)
        | .error e => (.error e, pool)
      | (.error e, pool) => (.error e, pool)

/-- The closure of the `filter_map` of `expire_low_priority_transactions`: the id of a low
priority orphan added more than the expire interval before the score. The deadline's addition
is overflow-checked, and made only for low priority orphans. -/
def expiredLowPriorityId (config : Config) (virtualDaaScore : UInt64) (x : MempoolTransaction) :
    Except MempoolAbort (Option TransactionId) :=
  if x.priority = .low then do
    let deadline ← (Checked.add 64 x.addedAtDaaScore.toNat
      config.orphanExpireIntervalDaaScore.toNat).mapError .panic
    pure (if virtualDaaScore.toNat > deadline then some x.id else none)
  else pure none

/-- The `filter_map` of `expire_low_priority_transactions`, in the map's order. -/
def expiredLowPriorityTransactions (config : Config) (pool : OrphanPool) (virtualDaaScore : UInt64) :
    Except MempoolAbort (List TransactionId) :=
  (pool.allOrphans.entries.map (·.2)).filterMapM (expiredLowPriorityId config virtualDaaScore)

/-- `expire_low_priority_transactions`: at most once per scan interval, every expired low
priority orphan is removed, without its redeemers, and the scan's score recorded. -/
def expireLowPriorityTransactions (config : Config) (pool : OrphanPool) (virtualDaaScore : UInt64) :
    Except MempoolAbort Unit × OrphanPool :=
  match Checked.add 64 pool.lastExpireScan.toNat config.orphanExpireScanIntervalDaaScore.toNat with
  | .error e => (.error (.panic e), pool)
  | .ok nextScan =>
    if virtualDaaScore.toNat < nextScan then (.ok (), pool)
    else
      match expiredLowPriorityTransactions config pool virtualDaaScore with
      | .error e => (.error e, pool)
      | .ok expired =>
        match Mutating.collect (fun pool id => removeOrphan pool id false) expired pool with
        | (.ok _, pool) => (.ok (), { pool with lastExpireScan := virtualDaaScore })
        | (.error e, pool) => (.error e, pool)

/-! ### What the methods do -/

section Equations

variable {pool : OrphanPool}

/-- The low priority orphan picked for eviction is one of the pool's; none is picked only when every
orphan has high priority. -/
theorem getRandomLowPriorityOrphan_eq_some {orphan : MempoolTransaction}
    (h : getRandomLowPriorityOrphan pool = some orphan) :
    orphan.priority = .low ∧ ∃ id, pool.allOrphans.lookup id = some orphan := by
  have hlow := List.find?_some h
  obtain ⟨entry, hentry, rfl⟩ := List.mem_map.mp (List.mem_of_find?_eq_some h)
  refine ⟨by simpa using hlow, entry.1, AList.mem_lookup_iff.mpr hentry⟩

theorem getRandomLowPriorityOrphan_eq_none (h : getRandomLowPriorityOrphan pool = none)
    {id : TransactionId} {orphan : MempoolTransaction} (hid : pool.allOrphans.lookup id = some orphan) :
    orphan.priority = .high := by
  have hnone := List.find?_eq_none.mp h orphan
    (List.mem_map.mpr ⟨⟨id, orphan⟩, AList.mem_lookup_iff.mp hid, rfl⟩)
  cases hp : orphan.priority with
  | low => simp [hp] at hnone
  | high => rfl

theorem map_zipIdx_previousOutpoint (inputs : List TransactionInput) :
    inputs.zipIdx.map (·.1.previousOutpoint) = inputs.map (·.previousOutpoint) := by
  conv_rhs => rw [← List.zipIdx_map_fst 0 inputs]
  rw [List.map_map]
  rfl

/-- The index after `remove_single_orphan`'s loop: every input's outpoint is gone. -/
theorem removeOutpoints_fst (transaction : MempoolTransaction) (owners : OutpointIndex) :
    (removeOutpoints transaction owners).1 =
      transaction.mtx.tx.spentOutpoints.foldl (fun m outpoint => m.erase outpoint) owners := by
  have hfold : ∀ (l : List (TransactionInput × Nat)) (acc : OutpointIndex × Option RuleError),
      (l.foldl (removeOutpoint transaction) acc).1 =
        (l.map (·.1.previousOutpoint)).foldl (fun m outpoint => m.erase outpoint) acc.1 := by
    intro l
    induction l with
    | nil => exact fun _ => rfl
    | cons e l ih => exact fun acc => ih _
  rw [removeOutpoints, hfold, map_zipIdx_previousOutpoint]
  rfl

theorem lookup_removeOutpoints (transaction : MempoolTransaction) (owners : OutpointIndex)
    (outpoint : TransactionOutpoint) : (removeOutpoints transaction owners).1.lookup outpoint =
      if outpoint ∈ transaction.mtx.tx.spentOutpoints then none else owners.lookup outpoint := by
  rw [removeOutpoints_fst, AList.lookup_foldl_erase]

/-- No error is recorded when the inputs spend distinct outpoints, each in the index. -/
theorem removeOutpoints_snd (transaction : MempoolTransaction) {owners : OutpointIndex}
    (hnodup : transaction.mtx.tx.spentOutpoints.Nodup)
    (hmem : ∀ outpoint ∈ transaction.mtx.tx.spentOutpoints, outpoint ∈ owners) :
    (removeOutpoints transaction owners).2 = none := by
  have hfold : ∀ (l : List (TransactionInput × Nat)) (acc : OutpointIndex × Option RuleError),
      (l.map (·.1.previousOutpoint)).Nodup → (∀ e ∈ l, e.1.previousOutpoint ∈ acc.1) →
        (l.foldl (removeOutpoint transaction) acc).2 = acc.2 := by
    intro l
    induction l with
    | nil => exact fun _ _ _ => rfl
    | cons e l ih =>
      intro acc hnd hin
      rw [List.map_cons, List.nodup_cons] at hnd
      have hsome : (acc.1.lookup e.1.previousOutpoint).isSome :=
        AList.lookup_isSome.mpr (hin e List.mem_cons_self)
      rw [List.foldl_cons, ih _ hnd.2]
      · simp [removeOutpoint, Option.isSome_iff_ne_none.mp hsome]
      · -- the later outpoints differ from this one, so erasing it keeps them
        intro e' he'
        have hne : e'.1.previousOutpoint ≠ e.1.previousOutpoint :=
          fun heq => hnd.1 (heq ▸ List.mem_map.mpr ⟨e', he', rfl⟩)
        exact AList.mem_erase.mpr ⟨hne, hin e' (List.mem_cons_of_mem e he')⟩
  have hmap : transaction.mtx.tx.inputs.zipIdx.map (·.1.previousOutpoint) =
      transaction.mtx.tx.spentOutpoints :=
    map_zipIdx_previousOutpoint _
  refine hfold _ _ (hmap ▸ hnodup) fun e he => hmem _ ?_
  rw [← hmap]
  exact List.mem_map.mpr ⟨e, he, rfl⟩

theorem removeSingleOrphan_of_lookup_eq_none {transactionId : TransactionId}
    (h : pool.allOrphans.lookup transactionId = none) :
    removeSingleOrphan pool transactionId =
      (.error (.err (.rejectMissingOrphanTransaction transactionId)), pool) := by
  simp only [removeSingleOrphan, h]

/-- The pool `remove_single_orphan` leaves, whatever it returns: the orphan leaves the pool, the
sets of its parents, the edges and the index. -/
theorem removeSingleOrphan_snd {transactionId : TransactionId} {transaction : MempoolTransaction}
    (h : pool.allOrphans.lookup transactionId = some transaction) :
    (removeSingleOrphan pool transactionId).2 =
      { pool with
        allOrphans := pool.allOrphans.erase transactionId
        chainedOrphans :=
          ((Pool.getParentTransactionIdsInPool (pool.allOrphans.erase transactionId)
            transaction.mtx).foldl (fun chained parentId => SetMap.eraseAt chained parentId transactionId)
            pool.chainedOrphans).erase transactionId
        outpointOwnerId := (removeOutpoints transaction pool.outpointOwnerId).1 } := by
  rcases hr : removeOutpoints transaction pool.outpointOwnerId with ⟨owners, error⟩
  cases error <;> simp only [removeSingleOrphan, h, hr]

theorem removeSingleOrphan_fst {transactionId : TransactionId} {transaction : MempoolTransaction}
    (h : pool.allOrphans.lookup transactionId = some transaction)
    (herror : (removeOutpoints transaction pool.outpointOwnerId).2 = none) :
    (removeSingleOrphan pool transactionId).1 = .ok transaction := by
  rcases hr : removeOutpoints transaction pool.outpointOwnerId with ⟨owners, error⟩
  rw [hr] at herror
  subst herror
  simp only [removeSingleOrphan, h, hr]

/-- The index after `add_orphan`'s first loop: each outpoint an input spends names the new orphan. -/
theorem lookup_foldl_insert_inputs (inputs : List TransactionInput) (id : TransactionId)
    (owners : OutpointIndex) (outpoint : TransactionOutpoint) :
    (inputs.foldl (fun owners input => owners.insert input.previousOutpoint id) owners).lookup outpoint =
      if outpoint ∈ inputs.map (·.previousOutpoint) then some id else owners.lookup outpoint := by
  have h := AList.lookup_foldl_insert (inputs.map (·.previousOutpoint)) id owners outpoint
  rwa [List.foldl_map] at h

/-- `add_orphan` fails only on the assertion of `MempoolTransaction::new`; otherwise it gives the
pool its three loops and the insertion build. -/
theorem addOrphan_eq_ok {virtualDaaScore : UInt64} {transaction : MutableTransaction}
    {priority : Priority} {pool' : OrphanPool}
    (h : addOrphan pool virtualDaaScore transaction priority = .ok pool') :
    transaction.tx.inputs.length = transaction.entries.length ∧
    pool' = { pool with
      allOrphans := pool.allOrphans.insert transaction.id ⟨transaction, priority, virtualDaaScore⟩
      chainedOrphans := (List.range transaction.tx.outputs.length).foldl (fun chained i =>
          SetMap.insertAtSome chained transaction.id
            (((transaction.tx.inputs.foldl (fun owners input =>
                owners.insert input.previousOutpoint transaction.id) pool.outpointOwnerId).lookup
              ⟨transaction.id, UInt32.ofNat i⟩).bind pool.allOrphans.lookup |>.map (·.id)))
        ((Pool.getParentTransactionIdsInPool pool.allOrphans transaction).foldl
          (fun chained parentId => SetMap.insertAt chained parentId transaction.id) pool.chainedOrphans)
      outpointOwnerId := transaction.tx.inputs.foldl
        (fun owners input => owners.insert input.previousOutpoint transaction.id) pool.outpointOwnerId } := by
  simp only [addOrphan, MempoolTransaction.new] at h
  split at h
  · rename_i hlen
    simp only [Except.mapError, Except.ok_bind, pure, Except.pure, Except.ok.injEq] at h
    exact ⟨hlen, h.symm⟩
  · simp [Except.mapError] at h

theorem removeOrphan_of_not_mem {transactionId : TransactionId} (h : transactionId ∉ pool.allOrphans)
    (removeRedeemers : Bool) : removeOrphan pool transactionId removeRedeemers = (.ok [], pool) := by
  have hhas : Pool.has pool.allOrphans transactionId = false :=
    Bool.eq_false_iff.mpr fun hhas => h (Pool.has_eq_true.mp hhas)
  simp [removeOrphan, hhas]

theorem removeOrphan_of_mem {transactionId : TransactionId} (h : transactionId ∈ pool.allOrphans)
    (removeRedeemers : Bool) : removeOrphan pool transactionId removeRedeemers =
      Mutating.collect removeSingleOrphan (transactionId ::
        if removeRedeemers then Pool.getRedeemerIdsInPool pool.allOrphans pool.chainedOrphans transactionId
        else []) pool := by
  have hhas : Pool.has pool.allOrphans transactionId = true := Pool.has_eq_true.mpr h
  simp [removeOrphan, hhas]

section Limit

variable {config : Config} {freeSlots fuel : Nat}

theorem limitOrphanPoolSize_of_overflow (h : 2 ^ 64 ≤ Pool.len pool.allOrphans + freeSlots) :
    limitOrphanPoolSize config freeSlots (fuel + 1) pool =
      (.error (.panic "attempt to add with overflow"), pool) := by
  have hadd : Checked.add 64 (Pool.len pool.allOrphans) freeSlots =
      .error "attempt to add with overflow" := by
    rw [Checked.add, if_neg (Nat.not_lt.mpr h)]
  simp only [limitOrphanPoolSize, hadd]

theorem limitOrphanPoolSize_of_le (hfit : Pool.len pool.allOrphans + freeSlots < 2 ^ 64)
    (h : Pool.len pool.allOrphans + freeSlots ≤ config.maximumOrphanTransactionCount.toNat) :
    limitOrphanPoolSize config freeSlots (fuel + 1) pool = (.ok (), pool) := by
  simp [limitOrphanPoolSize, Checked.add_of_lt hfit, Nat.not_lt.mpr h]

theorem limitOrphanPoolSize_of_none (hfit : Pool.len pool.allOrphans + freeSlots < 2 ^ 64)
    (h : config.maximumOrphanTransactionCount.toNat < Pool.len pool.allOrphans + freeSlots)
    (hnone : getRandomLowPriorityOrphan pool = none) :
    limitOrphanPoolSize config freeSlots (fuel + 1) pool =
      (.error (.err (.rejectOrphanPoolIsFull (Pool.len pool.allOrphans)
        config.maximumOrphanTransactionCount)), pool) := by
  simp [limitOrphanPoolSize, Checked.add_of_lt hfit, h, hnone]

theorem limitOrphanPoolSize_of_some (hfit : Pool.len pool.allOrphans + freeSlots < 2 ^ 64)
    (h : config.maximumOrphanTransactionCount.toNat < Pool.len pool.allOrphans + freeSlots)
    {orphan : MempoolTransaction} (hsome : getRandomLowPriorityOrphan pool = some orphan)
    {removed : List MempoolTransaction} {pool' : OrphanPool}
    (hremove : removeOrphan pool orphan.id false = (.ok removed, pool')) :
    limitOrphanPoolSize config freeSlots (fuel + 1) pool =
      limitOrphanPoolSize config freeSlots fuel pool' := by
  simp [limitOrphanPoolSize, Checked.add_of_lt hfit, h, hsome, hremove]

end Limit

/-- Everything `try_add_orphan` can do: nothing when the pool may hold no orphan; else stop at a
failed check with the pool as it was; else stop where making room fails; else add the orphan to
the pool the eviction left, or stop there when the addition fails. -/
theorem tryAddOrphan_cases (config : Config) (virtualDaaScore : UInt64)
    (transaction : MutableTransaction) (priority : Priority) :
    (config.maximumOrphanTransactionCount = 0 ∧
        tryAddOrphan config pool virtualDaaScore transaction priority = (.ok (), pool)) ∨
      (config.maximumOrphanTransactionCount ≠ 0 ∧ ∃ e, orphanChecks config pool transaction = .error e ∧
        tryAddOrphan config pool virtualDaaScore transaction priority = (.error e, pool)) ∨
      (config.maximumOrphanTransactionCount ≠ 0 ∧ orphanChecks config pool transaction = .ok () ∧
        ∃ e pool₁, limitOrphanPoolSize config 1 (Pool.len pool.allOrphans + 1) pool = (.error e, pool₁) ∧
          tryAddOrphan config pool virtualDaaScore transaction priority = (.error e, pool₁)) ∨
      (config.maximumOrphanTransactionCount ≠ 0 ∧ orphanChecks config pool transaction = .ok () ∧
        ∃ pool₁, limitOrphanPoolSize config 1 (Pool.len pool.allOrphans + 1) pool = (.ok (), pool₁) ∧
          ∃ e, addOrphan pool₁ virtualDaaScore transaction priority = .error e ∧
            tryAddOrphan config pool virtualDaaScore transaction priority = (.error e, pool₁)) ∨
      (config.maximumOrphanTransactionCount ≠ 0 ∧ orphanChecks config pool transaction = .ok () ∧
        ∃ pool₁, limitOrphanPoolSize config 1 (Pool.len pool.allOrphans + 1) pool = (.ok (), pool₁) ∧
          ∃ pool', addOrphan pool₁ virtualDaaScore transaction priority = .ok pool' ∧
            tryAddOrphan config pool virtualDaaScore transaction priority = (.ok (), pool')) := by
  by_cases hzero : config.maximumOrphanTransactionCount = 0
  · exact .inl ⟨hzero, by simp [tryAddOrphan, hzero]⟩
  cases hchecks : orphanChecks config pool transaction with
  | error e => exact .inr (.inl ⟨hzero, e, rfl, by simp [tryAddOrphan, hzero, hchecks]⟩)
  | ok u =>
    rcases hlimited : limitOrphanPoolSize config 1 (Pool.len pool.allOrphans + 1) pool with
      ⟨e | u', pool₁⟩
    · exact .inr (.inr (.inl ⟨hzero, rfl, e, pool₁, rfl,
        by simp [tryAddOrphan, hzero, hchecks, hlimited]⟩))
    cases hadd : addOrphan pool₁ virtualDaaScore transaction priority with
    | error e =>
      exact .inr (.inr (.inr (.inl ⟨hzero, rfl, pool₁, rfl, e, hadd,
        by simp [tryAddOrphan, hzero, hchecks, hlimited, hadd]⟩)))
    | ok pool' =>
      exact .inr (.inr (.inr (.inr ⟨hzero, rfl, pool₁, rfl, pool', hadd,
        by simp [tryAddOrphan, hzero, hchecks, hlimited, hadd]⟩)))

end Equations

end OrphanPool

end Vecno.Mempool
