import Vecno.Consensus.Ghostdag.BlueSet

/-!
# The mergeset and its order

The mergeset search keeps only blocks outside the selected parent's past when no parent is an
ancestor of another; `sort_blocks` then puts no block after one of its descendants.
-/

namespace Vecno

theorem Hash.toNat_lt (hash : Hash) : hash.toNat < 2 ^ 256 := by
  have h := LittleEndian.fromLeBytes_lt hash.bytes.reverse
  rw [List.length_reverse, hash.length_bytes, hashSize] at h
  calc hash.toNat < 256 ^ 32 := h
    _ = 2 ^ 256 := rfl

theorem SortableBlock.blueWork_le_of_key_le {a b : SortableBlock} (h : a.key ≤ b.key) :
    a.blueWork ≤ b.blueWork := by
  by_contra hlt
  have hsucc : b.blueWork + 1 ≤ a.blueWork := Nat.lt_of_not_le hlt
  have hlt : b.key < a.key :=
    calc b.key = b.blueWork * 2 ^ 256 + b.hash.toNat := rfl
      _ < b.blueWork * 2 ^ 256 + 2 ^ 256 := Nat.add_lt_add_left b.hash.toNat_lt _
      _ = (b.blueWork + 1) * 2 ^ 256 := (Nat.succ_mul _ _).symm
      _ ≤ a.blueWork * 2 ^ 256 := Nat.mul_le_mul_right _ hsucc
      _ ≤ a.key := Nat.le_add_right _ _
  exact Nat.not_le_of_lt hlt h

namespace GhostdagManager

variable {mgr : GhostdagManager}

/-! ## The search -/

section Search

variable {selectedParent : Hash} {P : Hash → Prop}

/-- What the search keeps: every block of the mergeset satisfies `P`, and the queue is part of
the mergeset. -/
structure SearchInv (P : Hash → Prop) (search : MergesetSearch) : Prop where
  mem : ∀ x ∈ search.mergeset.toList, P x
  queue : ∀ x ∈ search.queue, x ∈ search.mergeset.toList

/-- A parent the reachability service keeps out of the selected parent's past satisfies `P`. -/
theorem SearchInv.mergesetStep {search : MergesetSearch} {parent : Hash}
    (hinv : SearchInv P search)
    (hparent : mgr.isDagAncestorOf parent selectedParent = false → P parent) :
    SearchInv P (mgr.mergesetStep selectedParent search parent) := by
  unfold GhostdagManager.mergesetStep
  split
  · exact hinv
  · split
    · exact ⟨hinv.mem, hinv.queue⟩
    · rename_i hanc
      refine ⟨?_, ?_⟩
      · intro x hx
        rcases IndexSet.mem_insert.mp hx with hx | rfl
        · exact hinv.mem x hx
        · exact hparent (Bool.eq_false_iff.mpr hanc)
      · intro x hx
        rcases List.mem_append.mp hx with hx | hx
        · exact IndexSet.mem_insert.mpr (Or.inl (hinv.queue x hx))
        · exact IndexSet.mem_insert.mpr (Or.inr (List.mem_singleton.mp hx))

theorem SearchInv.foldl_mergesetStep {search : MergesetSearch} {ps : List Hash}
    (hinv : SearchInv P search)
    (hps : ∀ p ∈ ps, mgr.isDagAncestorOf p selectedParent = false → P p) :
    SearchInv P (ps.foldl (mgr.mergesetStep selectedParent) search) := by
  induction ps generalizing search with
  | nil => exact hinv
  | cons p ps ih =>
    exact ih (hinv.mergesetStep (hps p List.mem_cons_self))
      fun q hq => hps q (List.mem_cons_of_mem p hq)

/-- Every block the search returns satisfies `P`, when `P` passes from a block to its parents
outside the selected parent's past. -/
theorem mergesetLoop_sound
    (hP : ∀ x ps, P x → mgr.relationsStore x = some ps → ∀ p ∈ ps,
      mgr.isDagAncestorOf p selectedParent = false → P p)
    {fuel : Nat} {search : MergesetSearch} {mergeset : IndexSet Hash}
    (hinv : SearchInv P search) (h : mgr.mergesetLoop selectedParent fuel search = .ok mergeset) :
    ∀ x ∈ mergeset.toList, P x := by
  induction fuel generalizing search with
  | zero => cases h
  | succ fuel ih =>
    rcases search with ⟨_ | ⟨current, rest⟩, found, past⟩
    · cases h
      exact hinv.mem
    · obtain ⟨ps, hps, h⟩ := Except.bind_eq_ok.mp h
      have hcurrent : P current := hinv.mem current (hinv.queue current List.mem_cons_self)
      have hrest : SearchInv P ⟨rest, found, past⟩ :=
        ⟨hinv.mem, fun x hx => hinv.queue x (List.mem_cons_of_mem current hx)⟩
      exact ih (hrest.foldl_mergesetStep
        (hP current ps hcurrent (Checked.expect_eq_ok.mp hps))) h

theorem unorderedMergesetWithoutSelectedParent_sound
    (hP : ∀ x ps, P x → mgr.relationsStore x = some ps → ∀ p ∈ ps,
      mgr.isDagAncestorOf p selectedParent = false → P p)
    {fuel : Nat} {parents : List Hash} {mergeset : IndexSet Hash}
    (hparents : ∀ p ∈ parents, p ≠ selectedParent → P p)
    (h : mgr.unorderedMergesetWithoutSelectedParent fuel selectedParent parents = .ok mergeset) :
    ∀ x ∈ mergeset.toList, P x := by
  refine mergesetLoop_sound hP ⟨?_, ?_⟩ h
  · intro x hx
    obtain ⟨hx, hne⟩ := List.mem_filter.mp (IndexSet.mem_ofList.mp hx)
    exact hparents x hx (of_decide_eq_true hne)
  · intro x hx
    exact IndexSet.mem_ofList.mpr hx

variable (mgr) in
/-- How the search moves on: the mergeset and the past set only grow, the queue only has blocks
appended, every new block of the mergeset is one of them, and every new block of the past set is
an ancestor of the selected parent by the reachability service. -/
structure SearchExtends (selectedParent : Hash) (search search' : MergesetSearch) : Prop where
  mergeset : ∀ x ∈ search.mergeset.toList, x ∈ search'.mergeset.toList
  past : ∀ x ∈ search.past.toList, x ∈ search'.past.toList
  queue : ∃ added, search'.queue = search.queue ++ added ∧
    ∀ x ∈ search'.mergeset.toList, x ∈ search.mergeset.toList ∨ x ∈ added
  past_sound : ∀ x ∈ search'.past.toList,
    x ∈ search.past.toList ∨ mgr.isDagAncestorOf x selectedParent = true

theorem SearchExtends.refl (search : MergesetSearch) :
    mgr.SearchExtends selectedParent search search :=
  ⟨fun _ hx => hx, fun _ hx => hx, ⟨[], (List.append_nil _).symm, fun _ hx => .inl hx⟩,
    fun _ hx => .inl hx⟩

theorem SearchExtends.trans {s₁ s₂ s₃ : MergesetSearch}
    (h₁ : mgr.SearchExtends selectedParent s₁ s₂) (h₂ : mgr.SearchExtends selectedParent s₂ s₃) :
    mgr.SearchExtends selectedParent s₁ s₃ := by
  obtain ⟨a₁, hq₁, hm₁⟩ := h₁.queue
  obtain ⟨a₂, hq₂, hm₂⟩ := h₂.queue
  refine ⟨fun x hx => h₂.mergeset x (h₁.mergeset x hx), fun x hx => h₂.past x (h₁.past x hx),
    ⟨a₁ ++ a₂, by rw [hq₂, hq₁, List.append_assoc], fun x hx => ?_⟩, fun x hx => ?_⟩
  · rcases hm₂ x hx with hx | hx
    · rcases hm₁ x hx with hx | hx
      · exact .inl hx
      · exact .inr (List.mem_append_left a₂ hx)
    · exact .inr (List.mem_append_right a₁ hx)
  · rcases h₂.past_sound x hx with hx | hx
    · exact h₁.past_sound x hx
    · exact .inr hx

/-- One step of the search places its parent in the mergeset or in the past set. -/
theorem searchExtends_mergesetStep (search : MergesetSearch) (parent : Hash) :
    mgr.SearchExtends selectedParent search (mgr.mergesetStep selectedParent search parent) ∧
      (parent ∈ (mgr.mergesetStep selectedParent search parent).mergeset.toList ∨
        parent ∈ (mgr.mergesetStep selectedParent search parent).past.toList) := by
  unfold GhostdagManager.mergesetStep
  split
  · rename_i hseen
    exact ⟨.refl search, hseen⟩
  · split
    · rename_i hanc
      refine ⟨⟨fun _ hx => hx, fun _ hx => IndexSet.mem_insert.mpr (.inl hx),
        ⟨[], (List.append_nil _).symm, fun _ hx => .inl hx⟩, fun x hx => ?_⟩,
        .inr (IndexSet.mem_insert.mpr (.inr rfl))⟩
      rcases IndexSet.mem_insert.mp hx with hx | rfl
      · exact .inl hx
      · exact .inr hanc
    · refine ⟨⟨fun _ hx => IndexSet.mem_insert.mpr (.inl hx), fun _ hx => hx,
        ⟨[parent], rfl, fun x hx => ?_⟩, fun _ hx => .inl hx⟩,
        .inl (IndexSet.mem_insert.mpr (.inr rfl))⟩
      rcases IndexSet.mem_insert.mp hx with hx | rfl
      · exact .inl hx
      · exact .inr List.mem_cons_self

theorem searchExtends_foldl_mergesetStep (search : MergesetSearch) (ps : List Hash) :
    mgr.SearchExtends selectedParent search (ps.foldl (mgr.mergesetStep selectedParent) search) ∧
      ∀ p ∈ ps, p ∈ (ps.foldl (mgr.mergesetStep selectedParent) search).mergeset.toList ∨
        p ∈ (ps.foldl (mgr.mergesetStep selectedParent) search).past.toList := by
  induction ps generalizing search with
  | nil => exact ⟨.refl search, fun _ hp => absurd hp List.not_mem_nil⟩
  | cons p ps ih =>
    obtain ⟨hstep, hp⟩ := @searchExtends_mergesetStep mgr selectedParent search p
    obtain ⟨hrest, hps⟩ := ih (mgr.mergesetStep selectedParent search p)
    refine ⟨hstep.trans hrest, fun q hq => ?_⟩
    rcases List.mem_cons.mp hq with rfl | hq
    · rcases hp with hp | hp
      · exact .inl (hrest.mergeset q hp)
      · exact .inr (hrest.past q hp)
    · exact hps q hq

variable (mgr) in
/-- What the search has finished: every block of the mergeset that is no longer queued has its
parents in the mergeset or in the past set, and the past set holds ancestors of the selected
parent by the reachability service. -/
structure SearchClosed (selectedParent : Hash) (search : MergesetSearch) : Prop where
  closed : ∀ x ∈ search.mergeset.toList, x ∉ search.queue →
    ∀ p ∈ mgr.parents x, p ∈ search.mergeset.toList ∨ p ∈ search.past.toList
  past : ∀ x ∈ search.past.toList, mgr.isDagAncestorOf x selectedParent = true

/-- The search that ends returns a mergeset that keeps what it started with and holds, with
every block, its parents outside the selected parent's past. -/
theorem mergesetLoop_closed {fuel : Nat} {search : MergesetSearch} {mergeset : IndexSet Hash}
    (hclosed : mgr.SearchClosed selectedParent search)
    (h : mgr.mergesetLoop selectedParent fuel search = .ok mergeset) :
    (∀ x ∈ search.mergeset.toList, x ∈ mergeset.toList) ∧
      ∀ x ∈ mergeset.toList, ∀ p ∈ mgr.parents x,
        p ∈ mergeset.toList ∨ mgr.isDagAncestorOf p selectedParent = true := by
  induction fuel generalizing search with
  | zero => cases h
  | succ fuel ih =>
    rcases search with ⟨_ | ⟨current, rest⟩, found, past⟩
    · -- the queue is empty: every block of the mergeset is finished
      cases h
      refine ⟨fun _ hx => hx, fun x hx p hp => ?_⟩
      rcases hclosed.closed x hx List.not_mem_nil p hp with hp | hp
      · exact .inl hp
      · exact .inr (hclosed.past p hp)
    · obtain ⟨ps, hps, h⟩ := Except.bind_eq_ok.mp h
      have hcurrent : mgr.parents current = ps := by
        rw [GhostdagManager.parents, Checked.expect_eq_ok.mp hps, Option.getD_some]
      obtain ⟨hext, hcov⟩ := @searchExtends_foldl_mergesetStep mgr selectedParent
        ⟨rest, found, past⟩ ps
      obtain ⟨added, hqueue, hnew⟩ := hext.queue
      -- the dequeued block is finished by the fold over its parents; a block the fold queues
      -- is not finished yet
      have hclosed' : mgr.SearchClosed selectedParent
          (ps.foldl (mgr.mergesetStep selectedParent) ⟨rest, found, past⟩) := by
        refine ⟨fun x hx hxq p hp => ?_, fun x hx => ?_⟩
        · rcases hnew x hx with hxf | hxa
          · by_cases hxc : x = current
            · rw [hxc, hcurrent] at hp
              exact hcov p hp
            · have hxr : x ∉ current :: rest := by
                rintro (_ | ⟨_, hxr⟩)
                · exact hxc rfl
                · exact hxq (hqueue ▸ List.mem_append_left added hxr)
              rcases hclosed.closed x hxf hxr p hp with hp | hp
              · exact .inl (hext.mergeset p hp)
              · exact .inr (hext.past p hp)
          · exact absurd (hqueue ▸ List.mem_append_right rest hxa) hxq
        · rcases hext.past_sound x hx with hx | hx
          · exact hclosed.past x hx
          · exact hx
      obtain ⟨hkeep, hparents⟩ := ih hclosed' h
      exact ⟨fun x hx => hkeep x (hext.mergeset x hx), hparents⟩

/-- Every block in the past of the new block outside the selected parent's past is found, when
the reachability service is right. -/
theorem unorderedMergesetWithoutSelectedParent_complete
    (hreach : ∀ a b, mgr.isDagAncestorOf a b = true ↔ Dag.Ancestor mgr.parents a b)
    {fuel : Nat} {parents : List Hash} {mergeset : IndexSet Hash}
    (h : mgr.unorderedMergesetWithoutSelectedParent fuel selectedParent parents = .ok mergeset) :
    ∀ p ∈ parents, ∀ y, Dag.Ancestor mgr.parents y p →
      ¬ Dag.Ancestor mgr.parents y selectedParent → y ∈ mergeset.toList := by
  have hstart : mgr.SearchClosed selectedParent
      ⟨parents.filter (· ≠ selectedParent), IndexSet.ofList (parents.filter (· ≠ selectedParent)),
        ∅⟩ :=
    ⟨fun x hx hxq => absurd (IndexSet.mem_ofList.mp hx) hxq,
      fun x hx => absurd hx (IndexSet.mem_empty x)⟩
  obtain ⟨hseeds, hparents⟩ := mergesetLoop_closed hstart h
  intro p hp y hyp
  -- along the parent edges from `p` down to `y`, every block outside the selected parent's past
  -- is in the mergeset
  induction hyp using Relation.ReflTransGen.head_induction_on with
  | refl =>
    intro hsp
    have hne : p ≠ selectedParent := fun he => hsp (he ▸ Dag.Ancestor.refl p)
    exact hseeds p (IndexSet.mem_ofList.mpr (List.mem_filter.mpr ⟨hp, decide_eq_true hne⟩))
  | @head y c hyc _ ih =>
    intro hy
    have hc : c ∈ mergeset.toList :=
      ih fun hc => hy ((Dag.ancestor_of_mem hyc).trans hc)
    rcases hparents c hc y hyc with hy' | hy'
    · exact hy'
    · exact absurd ((hreach y selectedParent).mp hy') hy

end Search

/-! ## The order -/

theorem mapM_sortable_eq_ok {blocks : List Hash} {keyed : List SortableBlock}
    (h : blocks.mapM mgr.sortable = .ok keyed) :
    keyed.map (·.hash) = blocks ∧
      ∀ s ∈ keyed, ∃ data, mgr.ghostdagStore s.hash = some data ∧ s.blueWork = data.blueWork := by
  induction blocks generalizing keyed with
  | nil =>
    cases h
    exact ⟨rfl, fun s hs => absurd hs List.not_mem_nil⟩
  | cons block blocks ih =>
    rw [List.mapM_cons] at h
    obtain ⟨s, hs, h⟩ := Except.bind_eq_ok.mp h
    obtain ⟨rest, hrest, h⟩ := Except.bind_eq_ok.mp h
    cases h
    obtain ⟨data, hdata, hs⟩ := Except.bind_eq_ok.mp hs
    cases hs
    obtain ⟨hmap, hkeys⟩ := ih hrest
    refine ⟨by rw [List.map_cons, hmap], ?_⟩
    rintro s (_ | ⟨_, hs⟩)
    · exact ⟨data, Checked.expect_eq_ok.mp hdata, rfl⟩
    · exact hkeys s hs

/-- `sort_blocks` permutes the blocks into the order of `SortableBlock`. -/
theorem sortBlocks_eq_ok {blocks sorted : List Hash} (h : mgr.sortBlocks blocks = .ok sorted) :
    sorted.Perm blocks ∧ sorted.Pairwise fun a b => ∀ da db,
      mgr.ghostdagStore a = some da → mgr.ghostdagStore b = some db →
        (⟨a, da.blueWork⟩ : SortableBlock).key ≤ (⟨b, db.blueWork⟩ : SortableBlock).key := by
  obtain ⟨keyed, hkeyed, h⟩ := Except.bind_eq_ok.mp h
  cases h
  obtain ⟨hmap, hdata⟩ := mapM_sortable_eq_ok hkeyed
  have : Std.Total fun a b : SortableBlock => a.key ≤ b.key := ⟨fun a b => Nat.le_total _ _⟩
  have : IsTrans SortableBlock fun a b => a.key ≤ b.key := ⟨fun _ _ _ => Nat.le_trans⟩
  refine ⟨?_, ?_⟩
  · rw [← hmap]
    exact (List.perm_insertionSort _ keyed).map _
  · refine List.pairwise_map.mpr ((List.pairwise_insertionSort _ keyed).imp_of_mem ?_)
    intro s t hs ht hst da db hda hdb
    obtain ⟨ds, hds, hsw⟩ := hdata s (List.mem_insertionSort _ |>.mp hs)
    obtain ⟨dt, hdt, htw⟩ := hdata t (List.mem_insertionSort _ |>.mp ht)
    rw [hda, Option.some.injEq] at hds
    rw [hdb, Option.some.injEq] at hdt
    subst hds hdt
    rw [← hsw, ← htw]
    exact hst

theorem orderedMergesetWithoutSelectedParent_eq_ok {fuel : Nat} {selectedParent : Hash}
    {parents ordered : List Hash}
    (h : mgr.orderedMergesetWithoutSelectedParent fuel selectedParent parents = .ok ordered) :
    ∃ mergeset, mgr.unorderedMergesetWithoutSelectedParent fuel selectedParent parents =
      .ok mergeset ∧ ordered.Perm mergeset.toList ∧ ordered.Pairwise fun a b => ∀ da db,
        mgr.ghostdagStore a = some da → mgr.ghostdagStore b = some db →
          (⟨a, da.blueWork⟩ : SortableBlock).key ≤ (⟨b, db.blueWork⟩ : SortableBlock).key := by
  obtain ⟨mergeset, hmergeset, h⟩ := Except.bind_eq_ok.mp h
  exact ⟨mergeset, hmergeset, sortBlocks_eq_ok h⟩

/-! ## The selected parent -/

/-- Keeping the better of two blocks at each step keeps one of the blocks. -/
theorem foldl_choose_mem {α : Type} (better : α → α → Prop) [DecidableRel better] (first : α)
    (rest : List α) :
    rest.foldl (fun best block => if better best block then block else best) first ∈
      first :: rest := by
  induction rest generalizing first with
  | nil => exact List.mem_cons_self
  | cons block rest ih =>
    rw [List.foldl_cons]
    split
    · exact List.mem_cons_of_mem first (ih block)
    · rcases List.mem_cons.mp (ih first) with h | h
      · rw [h]
        exact List.mem_cons_self
      · exact List.mem_cons_of_mem first (List.mem_cons_of_mem block h)

theorem findSelectedParent_mem {parents : List Hash} {selectedParent : Hash}
    (h : mgr.findSelectedParent parents = .ok selectedParent) : selectedParent ∈ parents := by
  obtain ⟨keyed, hkeyed, h⟩ := Except.bind_eq_ok.mp h
  obtain ⟨hmap, -⟩ := mapM_sortable_eq_ok hkeyed
  rcases keyed with _ | ⟨first, rest⟩
  · cases h
  · cases h
    rw [← hmap]
    exact List.mem_map_of_mem (foldl_choose_mem (fun a b : SortableBlock => a.key ≤ b.key) first rest)

/-- Keeping the later of two blocks unless it has the smaller key keeps a block of the largest
key. -/
theorem le_foldl_choose {α : Type} (key : α → Nat) (first : α) (rest : List α) :
    ∀ x ∈ first :: rest,
      key x ≤ key (rest.foldl (fun best block => if key best ≤ key block then block else best)
        first) := by
  induction rest generalizing first with
  | nil =>
    intro x hx
    rw [List.mem_singleton.mp hx]
    exact Nat.le_refl _
  | cons block rest ih =>
    intro x hx
    rw [List.foldl_cons]
    have hbest := ih (if key first ≤ key block then block else first)
    have hfirst : key first ≤ key (if key first ≤ key block then block else first) := by
      split <;> omega
    have hblock : key block ≤ key (if key first ≤ key block then block else first) := by
      split <;> omega
    rcases List.mem_cons.mp hx with rfl | hx
    · exact Nat.le_trans hfirst (hbest _ List.mem_cons_self)
    · rcases List.mem_cons.mp hx with rfl | hx
      · exact Nat.le_trans hblock (hbest _ List.mem_cons_self)
      · exact hbest x (List.mem_cons_of_mem _ hx)

/-- The selected parent is the parent of the largest blue work and hash. -/
theorem findSelectedParent_max {parents : List Hash} {selectedParent : Hash}
    (h : mgr.findSelectedParent parents = .ok selectedParent) :
    ∀ p ∈ parents, ∀ dp dsp, mgr.ghostdagStore p = some dp →
      mgr.ghostdagStore selectedParent = some dsp →
        (⟨p, dp.blueWork⟩ : SortableBlock).key ≤ (⟨selectedParent, dsp.blueWork⟩ : SortableBlock).key := by
  obtain ⟨keyed, hkeyed, h⟩ := Except.bind_eq_ok.mp h
  obtain ⟨hmap, hdata⟩ := mapM_sortable_eq_ok hkeyed
  -- a looked-up block is the block its hash and stored blue work make
  have hblock : ∀ s ∈ keyed, ∀ d, mgr.ghostdagStore s.hash = some d → s = ⟨s.hash, d.blueWork⟩ := by
    intro s hs d hd
    obtain ⟨d', hd', hw⟩ := hdata s hs
    rw [hd, Option.some.injEq] at hd'
    rw [hd', ← hw]
  rcases keyed with _ | ⟨first, rest⟩
  · cases h
  · cases h
    intro p hp dp dsp hdp hdsp
    obtain ⟨s, hs, rfl⟩ := List.mem_map.mp (hmap ▸ hp)
    have hr := foldl_choose_mem (fun a b : SortableBlock => a.key ≤ b.key) first rest
    rw [← hblock s hs dp hdp, ← hblock _ hr dsp hdsp]
    exact le_foldl_choose SortableBlock.key first rest s hs

end GhostdagManager

end Vecno
