import Mathlib.Data.Finset.Basic
import Mathlib.Data.Finset.Dedup
import Mathlib.Data.Finset.Lattice.Lemmas
import Vecno.Consensus.Hash
import Vecno.Lib.Checked

/-!
# Staged reachability sets

`StagingSetEntry` and `commit_staging_entry`: committing writes the cached set and applies only the
recorded diff to the DB bucket.
-/

namespace Vecno

namespace Vec

variable {α : Type}

/-- `Vec::insert`, which panics past the end. -/
def insert (v : List α) (index : Nat) (element : α) : Except String (List α) :=
  if index ≤ v.length then .ok (v.insertIdx index element)
  else
    let len := v.length
    .error s!"insertion index (is {index}) should be <= len (is {len})"

/-- `Vec::splice (index..index + 1, replace_with)`, whose range must lie in the vector. -/
def spliceOne (v : List α) (index : Nat) (replaceWith : List α) : Except String (List α) :=
  if index + 1 ≤ v.length then .ok (v.take index ++ replaceWith ++ v.drop (index + 1))
  else
    let rangeEnd := index + 1
    let len := v.length
    .error s!"range end index {rangeEnd} out of range for slice of length {len}"

theorem insert_eq_ok {v : List α} {index : Nat} {element : α} (h : index ≤ v.length) :
    Vec.insert v index element = .ok (v.insertIdx index element) := if_pos h

theorem spliceOne_eq_ok {v : List α} {index : Nat} {replaceWith : List α}
    (h : index + 1 ≤ v.length) :
    spliceOne v index replaceWith = .ok (v.take index ++ replaceWith ++ v.drop (index + 1)) :=
  if_pos h

theorem insert_ok {v v' : List α} {index : Nat} {element : α}
    (h : Vec.insert v index element = .ok v') : index ≤ v.length ∧ v' = v.insertIdx index element := by
  unfold Vec.insert at h
  split at h
  · exact ⟨‹_›, (Except.ok.inj h).symm⟩
  · cases h

theorem spliceOne_ok {v v' : List α} {index : Nat} {replaceWith : List α}
    (h : spliceOne v index replaceWith = .ok v') :
    v' = v.take index ++ replaceWith ++ v.drop (index + 1) := by
  unfold spliceOne at h
  split at h
  · exact (Except.ok.inj h).symm
  · cases h

/-- The spliced vector holds the new elements and the others of the old one. -/
theorem splice_perm (v replaceWith : List α) (index : Nat) :
    (v.take index ++ replaceWith ++ v.drop (index + 1)).Perm (replaceWith ++ v.eraseIdx index) := by
  rw [List.eraseIdx_eq_take_drop_succ, ← List.append_assoc]
  exact List.perm_append_comm.append_right _

theorem mem_eraseIdx_iff [DecidableEq α] {v : List α} {index : Nat} {a y : α} (hv : v.Nodup)
    (ha : v[index]? = some a) : y ∈ v.eraseIdx index ↔ y ≠ a ∧ y ∈ v := by
  obtain ⟨hlt, rfl⟩ := List.getElem?_eq_some_iff.mp ha
  rw [← (List.erase_getElem hlt).mem_iff, hv.mem_erase_iff]

end Vec

/-- `StagingSetEntry`: the staged ordered set and its diff against the set it was read from. -/
structure StagingSetEntry where
  set : List Hash
  additions : Finset Hash
  deletions : Finset Hash
deriving DecidableEq

/-- The staged operations of `StagingReachabilityStore` on one set. -/
inductive StagingOp
  | append (element : Hash)
  | insert (element : Hash) (insertionIndex : Nat)
  | replace (replacedHash : Hash) (replacedIndex : Nat) (replaceWith : List Hash)
deriving DecidableEq

namespace StagingSetEntry

def new (cachedSet : List Hash) : StagingSetEntry := ⟨cachedSet, ∅, ∅⟩

/-- `mark_addition`: an element deleted earlier is restored, any other is recorded as added. -/
def markAddition (e : StagingSetEntry) (addition : Hash) : StagingSetEntry :=
  if addition ∈ e.deletions then { e with deletions := e.deletions.erase addition }
  else { e with additions := Insert.insert addition e.additions }

/-- `mark_deletion`: an element added earlier is forgotten, any other is recorded as deleted. -/
def markDeletion (e : StagingSetEntry) (deletion : Hash) : StagingSetEntry :=
  if deletion ∈ e.additions then { e with additions := e.additions.erase deletion }
  else { e with deletions := Insert.insert deletion e.deletions }

def append (e : StagingSetEntry) (element : Hash) : StagingSetEntry :=
  markAddition { e with set := e.set ++ [element] } element

def insert (e : StagingSetEntry) (element : Hash) (insertionIndex : Nat) :
    Except String StagingSetEntry := do
  let set ← Vec.insert e.set insertionIndex element
  pure (markAddition { e with set } element)

/-- `replace`: the element at `replaced_index` gives way to `replace_with`. The code marks
`replaced_hash` deleted whatever the splice removed. -/
def replace (e : StagingSetEntry) (replacedHash : Hash) (replacedIndex : Nat)
    (replaceWith : List Hash) : Except String StagingSetEntry := do
  let set ← Vec.spliceOne e.set replacedIndex replaceWith
  pure (replaceWith.foldl markAddition (markDeletion { e with set } replacedHash))

/-- One staged operation. -/
def apply (e : StagingSetEntry) : StagingOp → Except String StagingSetEntry
  | .append element => .ok (e.append element)
  | .insert element insertionIndex => e.insert element insertionIndex
  | .replace replacedHash replacedIndex replaceWith => e.replace replacedHash replacedIndex replaceWith

/-- A sequence of staged operations, stopping at the first panic. -/
def run (e : StagingSetEntry) : List StagingOp → Except String StagingSetEntry
  | [] => .ok e
  | op :: ops => e.apply op >>= fun e' => run e' ops

@[simp] theorem markAddition_set (e : StagingSetEntry) (x : Hash) : (e.markAddition x).set = e.set := by
  unfold markAddition
  split <;> rfl

@[simp] theorem markDeletion_set (e : StagingSetEntry) (x : Hash) : (e.markDeletion x).set = e.set := by
  unfold markDeletion
  split <;> rfl

@[simp] theorem foldl_markAddition_set (e : StagingSetEntry) (xs : List Hash) :
    (xs.foldl markAddition e).set = e.set := by
  induction xs generalizing e with
  | nil => rfl
  | cons x xs ih => rw [List.foldl_cons, ih, markAddition_set]

end StagingSetEntry

/-- `DbReachabilitySet` at one block: the cached ordered set, if any, and the bucket of elements
`DbSetAccess` holds in the DB. -/
structure DbReachabilitySet where
  cache : Option (List Hash)
  bucket : Finset Hash

/-- `DbSetAccess::delete` of one element of a bucket. -/
def deleteElement (element : Hash) (bucket : Finset Hash) : Finset Hash := bucket.erase element

/-- `DbSetAccess::write` of one element to a bucket. -/
def writeElement (element : Hash) (bucket : Finset Hash) : Finset Hash :=
  Insert.insert element bucket

instance : LeftCommutative deleteElement := ⟨fun _ _ _ => Finset.erase_right_comm⟩

instance : LeftCommutative writeElement := ⟨fun a b s => Finset.insert_comm a b s⟩

/-- `commit_staging_entry`: the cache takes the staged set, and the bucket loses every deletion
and then gains every addition, in the arbitrary order the sets iterate in. -/
def DbReachabilitySet.commitStagingEntry (db : DbReachabilitySet) (entry : StagingSetEntry) :
    DbReachabilitySet where
  cache := some entry.set
  bucket := entry.additions.val.foldr writeElement (entry.deletions.val.foldr deleteElement db.bucket)

/-! ## The diff an entry records -/

/-- What the store's callers promise of an operation on the staged `set`: it keeps the elements
distinct, and a replacement names the element at its index. -/
def StagingOp.Keeps (set : List Hash) : StagingOp → Prop
  | .append element | .insert element _ => element ∉ set
  | .replace replacedHash replacedIndex replaceWith =>
    set[replacedIndex]? = some replacedHash ∧
      (set.take replacedIndex ++ replaceWith ++ set.drop (replacedIndex + 1)).Nodup

/-- An insertion index lies in the staged `set`, so that `Vec::insert` does not panic. -/
def StagingOp.Fits (set : List Hash) : StagingOp → Prop
  | .insert _ insertionIndex => insertionIndex ≤ set.length
  | .append _ | .replace .. => True

instance (set : List Hash) : ∀ op, Decidable (StagingOp.Keeps set op)
  | .append element | .insert element _ => inferInstanceAs (Decidable (element ∉ set))
  | .replace replacedHash replacedIndex replaceWith =>
    inferInstanceAs (Decidable (set[replacedIndex]? = some replacedHash ∧
      (set.take replacedIndex ++ replaceWith ++ set.drop (replacedIndex + 1)).Nodup))

instance (set : List Hash) : ∀ op, Decidable (StagingOp.Fits set op)
  | .insert _ insertionIndex => inferInstanceAs (Decidable (insertionIndex ≤ set.length))
  | .append _ | .replace .. => isTrue trivial

namespace StagingSetEntry

/-- `P` holds of every operation of a run at the staged set the operation meets. -/
def Along (P : List Hash → StagingOp → Prop) : StagingSetEntry → List StagingOp → Prop
  | _, [] => True
  | e, op :: ops => P e.set op ∧
    match e.apply op with
    | .ok e' => Along P e' ops
    | .error _ => True

theorem along_cons {P : List Hash → StagingOp → Prop} {e e' : StagingSetEntry} {op : StagingOp}
    {ops : List StagingOp} (h : e.apply op = .ok e') :
    Along P e (op :: ops) ↔ P e.set op ∧ Along P e' ops := by
  simp only [Along, h]

instance decidableAlong (P : List Hash → StagingOp → Prop) [∀ set op, Decidable (P set op)] :
    ∀ e ops, Decidable (Along P e ops)
  | _, [] => isTrue trivial
  | e, op :: ops =>
    match he : e.apply op with
    | .ok e' =>
      have := decidableAlong P e' ops
      decidable_of_iff (P e.set op ∧ Along P e' ops) (along_cons he).symm
    | .error _ => decidable_of_iff (P e.set op) (by simp only [Along, he, and_true])

/-- The diff of an entry read from `base` whose staged elements are `staged`: additions are the
staged elements not in `base`, deletions the elements of `base` no longer staged. -/
structure Records (base staged : Finset Hash) (e : StagingSetEntry) : Prop where
  additions_eq : e.additions = staged \ base
  deletions_eq : e.deletions = base \ staged

/-- An entry read from `base`: its set has no repeats and records its diff against `base`. -/
structure Tracks (base : Finset Hash) (e : StagingSetEntry) : Prop where
  nodup : e.set.Nodup
  records : Records base e.set.toFinset e

variable {base staged : Finset Hash} {e e' : StagingSetEntry} {x : Hash}

theorem tracks_new {S : List Hash} (hS : S.Nodup) : Tracks S.toFinset (new S) :=
  ⟨hS, ⟨(Finset.sdiff_self _).symm, (Finset.sdiff_self _).symm⟩⟩

theorem Records.withSet (h : Records base staged e) (set : List Hash) :
    Records base staged { e with set } :=
  ⟨h.additions_eq, h.deletions_eq⟩

/-- Adding a new element: a deleted one comes back, another is an addition. -/
theorem Records.markAddition (h : Records base staged e) (hx : x ∉ staged) :
    Records base (Insert.insert x staged) (e.markAddition x) := by
  unfold StagingSetEntry.markAddition
  split
  · rename_i hdel
    have hbase : x ∈ base := (Finset.mem_sdiff.mp (h.deletions_eq ▸ hdel)).1
    refine ⟨?_, ?_⟩
    · rw [h.additions_eq, Finset.insert_sdiff_of_mem _ hbase]
    · rw [h.deletions_eq, Finset.sdiff_insert]
  · rename_i hdel
    have hbase : x ∉ base := fun hb => hdel (h.deletions_eq ▸ Finset.mem_sdiff.mpr ⟨hb, hx⟩)
    refine ⟨?_, ?_⟩
    · rw [h.additions_eq, Finset.insert_sdiff_of_notMem _ hbase]
    · rw [h.deletions_eq, Finset.sdiff_insert_of_notMem hbase]

/-- Removing a staged element: an added one is forgotten, another is a deletion. -/
theorem Records.markDeletion (h : Records base staged e) (hx : x ∈ staged) :
    Records base (staged.erase x) (e.markDeletion x) := by
  have hsplit : Insert.insert x (staged.erase x) = staged := Finset.insert_erase hx
  unfold StagingSetEntry.markDeletion
  split
  · rename_i hadd
    have hbase : x ∉ base := (Finset.mem_sdiff.mp (h.additions_eq ▸ hadd)).2
    refine ⟨?_, ?_⟩
    · rw [h.additions_eq, Finset.erase_sdiff_comm]
    · rw [h.deletions_eq, ← hsplit, Finset.sdiff_insert_of_notMem hbase, Finset.erase_insert_eq_erase,
        Finset.erase_idem]
  · rename_i hadd
    have hbase : x ∈ base := by
      by_contra hb
      exact hadd (h.additions_eq ▸ Finset.mem_sdiff.mpr ⟨hx, hb⟩)
    refine ⟨?_, ?_⟩
    · rw [h.additions_eq, ← hsplit, Finset.insert_sdiff_of_mem _ hbase, Finset.erase_insert_eq_erase,
        Finset.erase_idem]
    · rw [h.deletions_eq, ← Finset.sdiff_erase hbase]

theorem Records.foldlMarkAddition {xs : List Hash} (h : Records base staged e) (hxs : xs.Nodup)
    (hfresh : ∀ x ∈ xs, x ∉ staged) :
    Records base (staged ∪ xs.toFinset) (xs.foldl StagingSetEntry.markAddition e) := by
  induction xs generalizing staged e with
  | nil => simpa using h
  | cons x xs ih =>
    obtain ⟨hx, hxs⟩ := List.nodup_cons.mp hxs
    have hnext := h.markAddition (hfresh x List.mem_cons_self)
    have hrest : ∀ y ∈ xs, y ∉ Insert.insert x staged := by
      intro y hy hmem
      rcases Finset.mem_insert.mp hmem with rfl | hys
      · exact hx hy
      · exact hfresh y (List.mem_cons_of_mem x hy) hys
    rw [List.foldl_cons, List.toFinset_cons, Finset.union_insert, ← Finset.insert_union]
    exact ih hnext hxs hrest

/-- One operation the callers may stage keeps the entry's diff against `base` exact. -/
theorem Tracks.apply {op : StagingOp} (h : Tracks base e) (hk : op.Keeps e.set)
    (ha : e.apply op = .ok e') : Tracks base e' := by
  cases op with
  | append x =>
    cases ha
    have hx : x ∉ e.set.toFinset := by simpa [StagingOp.Keeps] using hk
    refine ⟨?_, ?_⟩
    · simp only [StagingSetEntry.append, markAddition_set]
      exact (@List.perm_append_comm _ e.set [x]).nodup_iff.mpr (List.nodup_cons.mpr ⟨hk, h.nodup⟩)
    simp only [StagingSetEntry.append, markAddition_set]
    rw [List.toFinset_append, List.toFinset_cons, List.toFinset_nil, Finset.union_insert,
      Finset.union_empty]
    exact (h.records.withSet _).markAddition hx
  | insert x i =>
    obtain ⟨set, hset, hpure⟩ := Except.bind_eq_ok.mp ha
    obtain ⟨hi, rfl⟩ := Vec.insert_ok hset
    cases hpure
    have hperm := List.perm_insertIdx x e.set hi
    have hx : x ∉ e.set.toFinset := by simpa [StagingOp.Keeps] using hk
    refine ⟨?_, ?_⟩
    · simp only [markAddition_set]
      exact hperm.nodup_iff.mpr (List.nodup_cons.mpr ⟨hk, h.nodup⟩)
    simp only [markAddition_set]
    rw [List.toFinset_eq_of_perm _ _ hperm, List.toFinset_cons]
    exact (h.records.withSet _).markAddition hx
  | replace a i w =>
    obtain ⟨set, hset, hpure⟩ := Except.bind_eq_ok.mp ha
    cases Vec.spliceOne_ok hset
    cases hpure
    obtain ⟨hai, hnd⟩ := hk
    have hperm := Vec.splice_perm e.set w i
    obtain ⟨hw, -, hdisj⟩ := List.nodup_append.mp (hperm.nodup_iff.mp hnd)
    have hmem : ∀ y, y ∈ e.set.eraseIdx i ↔ y ≠ a ∧ y ∈ e.set := fun y =>
      Vec.mem_eraseIdx_iff h.nodup hai
    have ha : a ∈ e.set.toFinset := List.mem_toFinset.mpr (List.mem_of_getElem? hai)
    have hfresh : ∀ y ∈ w, y ∉ e.set.toFinset.erase a := by
      intro y hy hy'
      obtain ⟨hya, hys⟩ := Finset.mem_erase.mp hy'
      exact hdisj y hy y ((hmem y).mpr ⟨hya, List.mem_toFinset.mp hys⟩) rfl
    have hstaged : (e.set.toFinset.erase a ∪ w.toFinset) =
        (e.set.take i ++ w ++ e.set.drop (i + 1)).toFinset := by
      ext y
      rw [List.toFinset_eq_of_perm _ _ hperm]
      simp only [Finset.mem_union, Finset.mem_erase, List.mem_toFinset, List.mem_append, hmem]
      exact or_comm
    refine ⟨?_, ?_⟩
    · simpa only [foldl_markAddition_set, markDeletion_set] using hnd
    simp only [foldl_markAddition_set, markDeletion_set]
    rw [← hstaged]
    exact ((h.records.withSet _).markDeletion ha).foldlMarkAddition hw hfresh

/-- A run of operations the callers may stage keeps the entry's diff against `base` exact. -/
theorem Tracks.run {ops : List StagingOp} (h : Tracks base e) (hk : Along StagingOp.Keeps e ops)
    (hr : e.run ops = .ok e') : Tracks base e' := by
  induction ops generalizing e with
  | nil =>
    cases hr
    exact h
  | cons op ops ih =>
    obtain ⟨e1, h1, hrest⟩ := Except.bind_eq_ok.mp hr
    obtain ⟨hk1, hkrest⟩ := (along_cons h1).mp hk
    exact ih (h.apply hk1 h1) hkrest hrest

theorem apply_ok {op : StagingOp} (hk : op.Keeps e.set) (hf : op.Fits e.set) :
    ∃ e', e.apply op = .ok e' := by
  cases op with
  | append x => exact ⟨_, rfl⟩
  | insert x i =>
    rw [StagingSetEntry.apply, StagingSetEntry.insert, Vec.insert_eq_ok hf]
    exact ⟨_, rfl⟩
  | replace a i w =>
    obtain ⟨hlt, -⟩ := List.getElem?_eq_some_iff.mp hk.1
    rw [StagingSetEntry.apply, StagingSetEntry.replace, Vec.spliceOne_eq_ok hlt]
    exact ⟨_, rfl⟩

/-- A run panics only at an insertion index past the end of the staged set. -/
theorem run_ok {ops : List StagingOp} (hk : Along StagingOp.Keeps e ops)
    (hf : Along StagingOp.Fits e ops) : ∃ e', e.run ops = .ok e' := by
  induction ops generalizing e with
  | nil => exact ⟨e, rfl⟩
  | cons op ops ih =>
    obtain ⟨e1, h1⟩ := apply_ok hk.1 hf.1
    obtain ⟨e2, h2⟩ := ih ((along_cons h1).mp hk).2 ((along_cons h1).mp hf).2
    refine ⟨e2, ?_⟩
    rw [StagingSetEntry.run, h1, Except.ok_bind, h2]

end StagingSetEntry

theorem foldr_deleteElement (s bucket : Finset Hash) : s.val.foldr deleteElement bucket = bucket \ s := by
  induction s using Finset.induction_on with
  | empty => rw [Finset.empty_val, Multiset.foldr_zero, Finset.sdiff_empty]
  | insert a s ha ih =>
    rw [Finset.insert_val_of_notMem ha, Multiset.foldr_cons, ih, deleteElement, Finset.sdiff_insert]

theorem foldr_writeElement (s bucket : Finset Hash) : s.val.foldr writeElement bucket = bucket ∪ s := by
  induction s using Finset.induction_on with
  | empty => rw [Finset.empty_val, Multiset.foldr_zero, Finset.union_empty]
  | insert a s ha ih =>
    rw [Finset.insert_val_of_notMem ha, Multiset.foldr_cons, ih, writeElement, Finset.union_insert]

namespace DbReachabilitySet

/-- Whatever order the sets iterate in, the bucket is the old one less the deletions, plus the
additions. -/
theorem commitStagingEntry_bucket (db : DbReachabilitySet) (entry : StagingSetEntry) :
    (db.commitStagingEntry entry).bucket = (db.bucket \ entry.deletions) ∪ entry.additions := by
  rw [commitStagingEntry, foldr_writeElement, foldr_deleteElement]

/-- Committing an entry that tracks its diff against the bucket writes the staged elements. -/
theorem commitStagingEntry_of_tracks {db : DbReachabilitySet} {entry : StagingSetEntry}
    (h : StagingSetEntry.Tracks db.bucket entry) :
    (db.commitStagingEntry entry).bucket = entry.set.toFinset := by
  rw [commitStagingEntry_bucket, h.records.deletions_eq, h.records.additions_eq,
    Finset.sdiff_sdiff_self_left, Finset.inter_comm, Finset.union_comm, Finset.sdiff_union_inter]

open StagingSetEntry in
/-- A staged set commits faithfully: after any run of operations from the set `S` read from the
store that keeps the elements distinct and replaces only the element at its index, committing
writes to the DB bucket exactly the elements of the staged set it caches, having added only
elements outside `S` and deleted only elements of `S`; and the run panics only at an insertion
index past the end. -/
theorem commitStagingEntry_faithful (S : List Hash) (hS : S.Nodup) (ops : List StagingOp)
    (hk : Along StagingOp.Keeps (new S) ops) :
    (∀ e, (new S).run ops = .ok e →
      (mk (some S) S.toFinset).commitStagingEntry e = ⟨some e.set, e.set.toFinset⟩ ∧
        Disjoint e.additions S.toFinset ∧ e.deletions ⊆ S.toFinset) ∧
    (Along StagingOp.Fits (new S) ops → ∃ e, (new S).run ops = .ok e) := by
  refine ⟨fun e hrun => ?_, run_ok hk⟩
  have ht : Tracks S.toFinset e := (tracks_new hS).run hk hrun
  refine ⟨?_, ?_, ?_⟩
  · exact congrArg (mk (some e.set)) (commitStagingEntry_of_tracks ht)
  · rw [ht.records.additions_eq]
    exact Finset.sdiff_disjoint
  · rw [ht.records.deletions_eq]
    exact Finset.sdiff_subset

open StagingSetEntry in
/-- Replacing the first of two elements and appending it back: the deletion is withdrawn, and
only the replacement is written. -/
theorem commitStagingEntry_faithful_restored :
    [Hash.fromU64Word 1, Hash.fromU64Word 2].Nodup ∧
    Along StagingOp.Keeps (new [Hash.fromU64Word 1, Hash.fromU64Word 2])
      [.replace (Hash.fromU64Word 1) 0 [Hash.fromU64Word 3], .append (Hash.fromU64Word 1)] ∧
    ((∀ e, (new [Hash.fromU64Word 1, Hash.fromU64Word 2]).run
        [.replace (Hash.fromU64Word 1) 0 [Hash.fromU64Word 3], .append (Hash.fromU64Word 1)] = .ok e →
      (mk (some [Hash.fromU64Word 1, Hash.fromU64Word 2])
          [Hash.fromU64Word 1, Hash.fromU64Word 2].toFinset).commitStagingEntry e =
        ⟨some e.set, e.set.toFinset⟩ ∧
      Disjoint e.additions [Hash.fromU64Word 1, Hash.fromU64Word 2].toFinset ∧
      e.deletions ⊆ [Hash.fromU64Word 1, Hash.fromU64Word 2].toFinset) ∧
    (Along StagingOp.Fits (new [Hash.fromU64Word 1, Hash.fromU64Word 2])
        [.replace (Hash.fromU64Word 1) 0 [Hash.fromU64Word 3], .append (Hash.fromU64Word 1)] →
      ∃ e, (new [Hash.fromU64Word 1, Hash.fromU64Word 2]).run
        [.replace (Hash.fromU64Word 1) 0 [Hash.fromU64Word 3], .append (Hash.fromU64Word 1)] = .ok e)) := by
  have hS : [Hash.fromU64Word 1, Hash.fromU64Word 2].Nodup := by decide
  have hk : Along StagingOp.Keeps (new [Hash.fromU64Word 1, Hash.fromU64Word 2])
      [.replace (Hash.fromU64Word 1) 0 [Hash.fromU64Word 3], .append (Hash.fromU64Word 1)] := by
    decide
  exact ⟨hS, hk, commitStagingEntry_faithful _ hS _ hk⟩

end DbReachabilitySet

end Vecno
