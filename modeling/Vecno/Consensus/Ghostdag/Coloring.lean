import Vecno.Consensus.Ghostdag.Mergeset

/-!
# The coloring of the mergeset

`check_blue_candidate` walks down the selected chain under `ChainInv`; a blue verdict hands
`add_blue` the candidate's whole blue anticone, so `ColoringInv` keeps every size exact.
-/

namespace Vecno

namespace GhostdagManager

variable {mgr : GhostdagManager} {blocks : Finset Hash}

variable (mgr) in
/-- What the coloring of a new block relies on below its selected parent: the reachability
service is right, genesis holds its data, and every stored block of the selected chain's past is
already colored right. -/
structure ChainFacts (blocks : Finset Hash) (selectedParent : Hash) : Prop where
  reachability : ∀ a b, mgr.isDagAncestorOf a b = true ↔ Dag.Ancestor mgr.parents a b
  genesis_data : mgr.ghostdagStore mgr.genesisHash = some genesisGhostdagData
  selectedParent_mem : selectedParent ∈ blocks
  origin_not_mem : origin ∉ blocks
  colored : ∀ block ∈ blocks, Dag.Ancestor mgr.parents block selectedParent →
    block ≠ mgr.genesisHash → ∀ data, mgr.ghostdagStore block = some data →
      mgr.ColoredBlock blocks block data

variable (mgr) in
/-- The data of the new block during the coloring: its blues are fresh, and every size it gives
for its blue set is exact. -/
structure ColoringInv (blocks : Finset Hash) (selectedParent : Hash) (data : GhostdagData) :
    Prop where
  selectedParent_eq : data.selectedParent = selectedParent
  nodup : data.mergesetBlues.Nodup
  disjoint : ∀ x ∈ data.mergesetBlues, ¬ mgr.InBlueSet selectedParent x
  mem : ∀ x, mgr.ContextBlues data x → x ∈ blocks
  sizes : mgr.SizesExact blocks (mgr.ContextBlues data) data

variable (mgr) in
/-- The state of the walk of `check_blue_candidate` for the candidate `c`: `sizes` holds the blocks
of the blue set in the candidate's anticone that are not in `rest`, with their exact sizes below
`k`, and `size` counts them. -/
structure ChainInv (blocks : Finset Hash) (newData : GhostdagData) (c : Hash)
    (rest : Hash → Prop) (sizes : HashKTypeMap) (size : KType) : Prop where
  mem_iff : ∀ b, b ∈ sizes ↔
    mgr.ContextBlues newData b ∧ ¬ rest b ∧ Dag.Anticone mgr.parents b c
  length : sizes.keys.length = size
  lookup : ∀ b s, sizes.lookup b = some s →
    s = mgr.blueAnticoneCount blocks (mgr.ContextBlues newData) b ∧ s < mgr.k
  le_k : size ≤ mgr.k

/-! ## The chain facts -/

section Facts

variable {selectedParent : Hash} (hfacts : mgr.ChainFacts blocks selectedParent)
include hfacts

theorem ChainFacts.past {block b : Hash} (hblock : block ∈ blocks)
    (hanc : Dag.Ancestor mgr.parents block selectedParent) (hb : mgr.InBlueSet block b) :
    Dag.Past mgr.parents b block := by
  by_cases hg : block = mgr.genesisHash
  · subst hg
    exact absurd hb (not_inBlueSet_genesis hfacts.genesis_data b)
  · obtain ⟨data, hd⟩ := hb.exists_data
    exact (hfacts.colored block hblock hanc hg data hd).past b hb

theorem ChainFacts.mem {block b : Hash} (hblock : block ∈ blocks)
    (hanc : Dag.Ancestor mgr.parents block selectedParent) (hb : mgr.InBlueSet block b) :
    b ∈ blocks := by
  by_cases hg : block = mgr.genesisHash
  · subst hg
    exact absurd hb (not_inBlueSet_genesis hfacts.genesis_data b)
  · obtain ⟨data, hd⟩ := hb.exists_data
    exact (hfacts.colored block hblock hanc hg data hd).mem b hb

end Facts

/-! ## The walk of `check_blue_candidate` -/

theorem ChainInv.congr {newData : GhostdagData} {c : Hash} {rest rest' : Hash → Prop}
    {sizes : HashKTypeMap} {size : KType} (hinv : mgr.ChainInv blocks newData c rest sizes size)
    (h : ∀ x, Dag.Anticone mgr.parents x c → (rest x ↔ rest' x)) :
    mgr.ChainInv blocks newData c rest' sizes size := by
  refine ⟨fun b => ?_, hinv.length, hinv.lookup, hinv.le_k⟩
  rw [hinv.mem_iff b]
  constructor
  · rintro ⟨hT, hr, ha⟩
    exact ⟨hT, fun hr' => hr ((h b ha).mpr hr'), ha⟩
  · rintro ⟨hT, hr, ha⟩
    exact ⟨hT, fun hr' => hr ((h b ha).mp hr'), ha⟩

/-! ## Adding a candidate -/

section Add

variable {selectedParent c : Hash} {newData : GhostdagData}
  (hdata : mgr.ColoringInv blocks selectedParent newData)
include hdata

theorem ColoringInv.addRed (c : Hash) :
    mgr.ColoringInv blocks selectedParent (newData.addRed c) :=
  ⟨hdata.selectedParent_eq, hdata.nodup, hdata.disjoint, hdata.mem,
    fun b hb => ⟨(hdata.sizes b hb).1.of_lookup_eq rfl rfl, (hdata.sizes b hb).2⟩⟩

/-- `add_blue`, given the candidate's whole blue anticone with exact sizes below `k`, keeps every
size exact: the candidate gets the number of blocks it was given, each of them gains one, and
every other block keeps its size. -/
theorem ColoringInv.addBlue (hc : c ∈ blocks) (hcT : ¬ mgr.ContextBlues newData c)
    {s : KType} {m : HashKTypeMap} {newData' : GhostdagData}
    (hm : mgr.ChainInv blocks newData c (fun _ => False) m s)
    (h : newData.addBlue c s m = .ok newData') :
    mgr.ColoringInv blocks selectedParent newData' := by
  have hblues := GhostdagData.addBlue_mergesetBlues h
  have hsp := GhostdagData.addBlue_selectedParent h
  have hT : ∀ x, mgr.ContextBlues newData' x ↔ mgr.ContextBlues newData x ∨ x = c := by
    intro x
    simp only [ContextBlues, hblues, hsp, List.mem_append, List.mem_singleton]
    tauto
  -- the candidate's size is the number of blocks the walk returned
  have hscount : mgr.blueAnticoneCount blocks (mgr.ContextBlues newData) c = s := by
    rw [← hm.length]
    refine Dag.anticoneCount_eq_length m.keys_nodup fun x => ?_
    rw [← AList.mem_keys, hm.mem_iff x, Dag.anticone_comm]
    constructor
    · rintro ⟨hx, -, ha⟩
      exact ⟨hdata.mem x hx, hx, ha⟩
    · rintro ⟨-, hx, ha⟩
      exact ⟨hx, not_false, ha⟩
  refine ⟨hsp.trans hdata.selectedParent_eq, ?_, ?_, fun x hx => ?_, fun b hb => ?_⟩
  · rw [hblues]
    exact hdata.nodup.append (List.nodup_singleton c)
      (List.disjoint_singleton.mpr fun hc' => hcT (Or.inl hc'))
  · intro x hx
    rw [hblues, List.mem_append, List.mem_singleton] at hx
    rcases hx with hx | rfl
    · exact hdata.disjoint x hx
    · exact fun hx => hcT (Or.inr (hdata.selectedParent_eq ▸ hx))
  · rcases (hT x).mp hx with hx | rfl
    · exact hdata.mem x hx
    · exact hc
  · cases hmb : m.lookup b with
    | some s' =>
      -- a block of the candidate's blue anticone gains the candidate
      have hbm : b ∈ m := AList.lookup_isSome.mp (by rw [hmb]; rfl)
      obtain ⟨hTb, -, hanti⟩ := (hm.mem_iff b).mp hbm
      obtain ⟨rfl, hlt⟩ := hm.lookup b s' hmb
      have hcount : mgr.blueAnticoneCount blocks (mgr.ContextBlues newData') b =
          mgr.blueAnticoneCount blocks (mgr.ContextBlues newData) b + 1 :=
        Dag.anticoneCount_insert hc hcT hanti hT
      rw [hcount]
      exact ⟨.found (by rw [GhostdagData.lookup_addBlue h b, hmb]), hlt⟩
    | none =>
      by_cases hbc : b = c
      · -- the candidate itself
        subst hbc
        have hcount : mgr.blueAnticoneCount blocks (mgr.ContextBlues newData') b = s :=
          (Dag.anticoneCount_insert_of_not_anticone (Dag.not_anticone_self b) hT).trans hscount
        rw [hcount]
        exact ⟨.found (by rw [GhostdagData.lookup_addBlue h b, hmb, if_pos rfl]), hm.le_k⟩
      · -- a block outside the candidate's anticone keeps its size
        have hTb : mgr.ContextBlues newData b := ((hT b).mp hb).resolve_right hbc
        have hanti : ¬ Dag.Anticone mgr.parents b c := fun hanti =>
          AList.lookup_eq_none.mp hmb ((hm.mem_iff b).mpr ⟨hTb, not_false, hanti⟩)
        have hcount : mgr.blueAnticoneCount blocks (mgr.ContextBlues newData') b =
            mgr.blueAnticoneCount blocks (mgr.ContextBlues newData) b :=
          Dag.anticoneCount_insert_of_not_anticone hanti hT
        rw [hcount]
        exact ⟨(hdata.sizes b hTb).1.of_lookup_eq
          (by rw [GhostdagData.lookup_addBlue h b, hmb, if_neg hbc]) hsp, (hdata.sizes b hTb).2⟩

end Add

section Candidate

variable {selectedParent c : Hash} {newData : GhostdagData}
  (hfacts : mgr.ChainFacts blocks selectedParent)
  (hdata : mgr.ColoringInv blocks selectedParent newData)
  (hdesc : ∀ x, mgr.ContextBlues newData x → ¬ Dag.Ancestor mgr.parents c x)

include hfacts hdata hdesc

/-- One chain block's mergeset blues: the walk counts those in the candidate's anticone and stops
red when the candidate or one of them would see more than `k` blues. -/
theorem chainBlockBluesLoop_spec {fuel : Nat} {l : List Hash} {Q : Hash → Prop}
    {sizes sizes' : HashKTypeMap} {size size' : KType} {state : ColoringState}
    (hl : l.Nodup) (hlQ : ∀ x ∈ l, ¬ Q x) (hlT : ∀ x ∈ l, mgr.ContextBlues newData x)
    (hinv : mgr.ChainInv blocks newData c (fun x => x ∈ l ∨ Q x) sizes size)
    (h : mgr.chainBlockBluesLoop fuel newData c l sizes size = .ok (state, sizes', size')) :
    state = .red ∨ (state = .pending ∧ mgr.ChainInv blocks newData c Q sizes' size') := by
  induction l generalizing sizes size with
  | nil =>
    cases h
    exact Or.inr ⟨rfl, hinv.congr fun x _ => by simp⟩
  | cons b l ih =>
    rw [List.nodup_cons] at hl
    have hbT := hlT b List.mem_cons_self
    have hbQ := hlQ b List.mem_cons_self
    have hrest : ∀ x, x ≠ b → ((x ∈ b :: l ∨ Q x) ↔ (x ∈ l ∨ Q x)) := by
      intro x hx
      simp [hx]
    have hb_not_mem : b ∉ sizes := fun hb =>
      ((hinv.mem_iff b).mp hb).2.1 (Or.inl List.mem_cons_self)
    have hl' : ∀ x ∈ l, x ∈ b :: l := fun x hx => List.mem_cons_of_mem b hx
    unfold chainBlockBluesLoop at h
    by_cases hanc : mgr.isDagAncestorOf b c = true
    · -- a blue block in the candidate's past is skipped
      rw [if_pos hanc] at h
      refine ih hl.2 (fun x hx => hlQ x (hl' x hx)) (fun x hx => hlT x (hl' x hx)) ?_ h
      refine ⟨fun x => ?_, hinv.length, hinv.lookup, hinv.le_k⟩
      by_cases hx : x = b
      · subst hx
        have hpast := (hfacts.reachability _ _).mp hanc
        simp only [hb_not_mem, false_iff, not_and]
        exact fun _ _ hanti => hanti.1 hpast
      · rw [hinv.mem_iff x, hrest x hx]
    · rw [if_neg hanc] at h
      obtain ⟨blockSize, hsize, h⟩ := Except.bind_eq_ok.mp h
      obtain ⟨size₁, hsize₁, h⟩ := Except.bind_eq_ok.mp h
      obtain ⟨-, rfl⟩ := Checked.add_eq_ok.mp hsize₁
      have hexact := hdata.sizes b hbT
      have hcount : blockSize = mgr.blueAnticoneCount blocks (mgr.ContextBlues newData) b :=
        (blueAnticoneSizeIs_of_eq_ok hsize).unique hexact.1
      have hanti : Dag.Anticone mgr.parents b c :=
        ⟨fun hbc => hanc ((hfacts.reachability _ _).mpr hbc), hdesc b hbT⟩
      by_cases hk : size + 1 > mgr.k
      · rw [if_pos hk] at h
        cases h
        exact Or.inl rfl
      · rw [if_neg hk] at h
        by_cases hkb : blockSize = mgr.k
        · rw [if_pos hkb] at h
          cases h
          exact Or.inl rfl
        · rw [if_neg hkb] at h
          have hle : blockSize ≤ mgr.k := hcount ▸ hexact.2
          rw [if_pos hle] at h
          refine ih hl.2 (fun x hx => hlQ x (hl' x hx)) (fun x hx => hlT x (hl' x hx)) ?_ h
          -- a blue block in the candidate's anticone is counted with its exact size
          refine ⟨fun x => ?_, ?_, fun x s hx => ?_, Nat.le_of_not_lt hk⟩
          · rw [AList.mem_insert]
            by_cases hx : x = b
            · subst hx
              simp only [true_or, true_iff]
              exact ⟨hbT, by simp [hl.1, hbQ], hanti⟩
            · rw [hinv.mem_iff x, hrest x hx]
              simp [hx]
          · rw [AList.keys_insert, List.erase_of_not_mem (fun hb => hb_not_mem
              (AList.mem_keys.mpr hb)), List.length_cons, hinv.length]
          · by_cases hxb : x = b
            · subst hxb
              rw [AList.lookup_insert, Option.some.injEq] at hx
              subst hx
              exact ⟨hcount, Nat.lt_of_le_of_ne hle hkb⟩
            · rw [AList.lookup_insert_ne hxb] at hx
              exact hinv.lookup x s hx

/-- The walk from a stored chain block in the selected parent's past: it ends red, or blue with
the candidate's whole blue anticone. -/
theorem checkBlueCandidateLoop_spec (hgc : Dag.Ancestor mgr.parents mgr.genesisHash c)
    {fuel steps : Nat} {block : Hash} {data : GhostdagData} {sizes : HashKTypeMap}
    {size : KType} {out : ColoringOutput} (hblock : block ∈ blocks)
    (hstore : mgr.ghostdagStore block = some data)
    (hanc : Dag.Ancestor mgr.parents block selectedParent)
    (hrest : ∀ x, mgr.InBlueSet block x → mgr.ContextBlues newData x)
    (hinv : mgr.ChainInv blocks newData c (mgr.InBlueSet block) sizes size)
    (h : mgr.checkBlueCandidateLoop fuel newData c steps (some block) data sizes size = .ok out) :
    out = .red ∨ ∃ size' sizes', out = .blue size' sizes' ∧
      mgr.ChainInv blocks newData c (fun _ => False) sizes' size' := by
  induction steps generalizing block data sizes size with
  | zero => cases h
  | succ steps ih =>
    obtain ⟨result, hresult, h⟩ := Except.bind_eq_ok.mp h
    unfold checkBlueCandidateWithChainBlock at hresult
    dsimp only at hresult
    by_cases hbc : mgr.isDagAncestorOf block c = true
    · -- the chain block is in the candidate's past, and so is the blue set below it
      rw [if_pos hbc] at hresult
      cases hresult
      cases h
      refine Or.inr ⟨size, sizes, rfl, hinv.congr fun x hx => ⟨fun hb => ?_, False.elim⟩⟩
      exact hx.1 ((hfacts.past hblock hanc hb).ancestor.trans ((hfacts.reachability _ _).mp hbc))
    · rw [if_neg hbc] at hresult
      have hg : block ≠ mgr.genesisHash := by
        rintro rfl
        exact hbc ((hfacts.reachability _ _).mpr hgc)
      have hcolored := hfacts.colored block hblock hanc hg data hstore
      obtain ⟨state, sizes', size'⟩ := result
      have hinv' : mgr.ChainInv blocks newData c
          (fun x => x ∈ data.mergesetBlues ∨ mgr.InBlueSet data.selectedParent x) sizes size :=
        hinv.congr fun x _ => by rw [inBlueSet_iff hstore]; simp [hg]
      rcases chainBlockBluesLoop_spec hfacts hdata hdesc hcolored.nodup hcolored.disjoint
        (fun x hx => hrest x (.here hstore hx)) hinv' hresult with rfl | ⟨rfl, hnext⟩
      · cases h
        exact Or.inl rfl
      · -- on to the selected parent of the chain block
        obtain ⟨data', hdata', h⟩ := Except.bind_eq_ok.mp h
        exact ih hcolored.selectedParent_mem (Checked.expect_eq_ok.mp hdata')
          ((Dag.ancestor_of_mem hcolored.selectedParent_parent).trans hanc)
          (fun x hx => hrest x (.inherited hstore hg hx)) hnext h

/-- `check_blue_candidate` ends red, or blue with the candidate's whole blue anticone in the new
block's blue set, each block of it with its exact size below `k`. -/
theorem checkBlueCandidate_spec (hgc : Dag.Ancestor mgr.parents mgr.genesisHash c) {fuel : Nat}
    {out : ColoringOutput} (h : mgr.checkBlueCandidate fuel newData c = .ok out) :
    out = .red ∨ ∃ size sizes, out = .blue size sizes ∧
      mgr.ChainInv blocks newData c (fun _ => False) sizes size := by
  obtain ⟨kPlusOne, -, h⟩ := Except.bind_eq_ok.mp h
  by_cases hfull : newData.mergesetBlues.length % 2 ^ 16 = kPlusOne
  · rw [if_pos hfull] at h
    cases h
    exact Or.inl rfl
  · rw [if_neg hfull] at h
    cases fuel with
    | zero => cases h
    | succ fuel =>
      -- the first chain block is the new block itself, which has no hash
      obtain ⟨⟨state, sizes, size⟩, hresult, h⟩ := Except.bind_eq_ok.mp h
      unfold checkBlueCandidateWithChainBlock at hresult
      dsimp only at hresult
      have hsp := hdata.selectedParent_eq
      have hinv : mgr.ChainInv blocks newData c
          (fun x => x ∈ newData.mergesetBlues ∨ mgr.InBlueSet newData.selectedParent x) ∅ 0 := by
        refine ⟨fun b => ⟨fun hb => absurd hb (AList.lookup_eq_none.mp (AList.lookup_empty b)),
          fun ⟨hT, hR, _⟩ => absurd hT hR⟩, rfl, fun b s hb => ?_, Nat.zero_le _⟩
        rw [AList.lookup_empty] at hb
        cases hb
      have hdisjoint : ∀ x ∈ newData.mergesetBlues, ¬ mgr.InBlueSet newData.selectedParent x := by
        rw [hsp]
        exact hdata.disjoint
      rcases chainBlockBluesLoop_spec hfacts hdata hdesc hdata.nodup hdisjoint
        (fun x hx => Or.inl hx) hinv hresult with rfl | ⟨rfl, hnext⟩
      · cases h
        exact Or.inl rfl
      · obtain ⟨data, hstore, h⟩ := Except.bind_eq_ok.mp h
        exact checkBlueCandidateLoop_spec hfacts hdata hdesc hgc
          (hsp ▸ hfacts.selectedParent_mem) (Checked.expect_eq_ok.mp hstore)
          (by rw [hsp]; exact Dag.Ancestor.refl selectedParent) (fun x hx => Or.inr hx) hnext h

/-- One turn of the coloring keeps the new block's data right, and adds the candidate to the
blues or leaves them as they were. -/
theorem colorCandidate_spec (hgc : Dag.Ancestor mgr.parents mgr.genesisHash c) (hc : c ∈ blocks)
    {fuel : Nat} {newData' : GhostdagData} (h : mgr.colorCandidate fuel newData c = .ok newData') :
    mgr.ColoringInv blocks selectedParent newData' ∧
      ∀ x ∈ newData'.mergesetBlues, x ∈ newData.mergesetBlues ∨ x = c := by
  obtain ⟨coloring, hcoloring, h⟩ := Except.bind_eq_ok.mp h
  rcases checkBlueCandidate_spec hfacts hdata hdesc hgc hcoloring with rfl | ⟨s, m, rfl, hm⟩
  · cases h
    exact ⟨hdata.addRed c, fun x hx => Or.inl hx⟩
  · refine ⟨hdata.addBlue hc (fun hcT => hdesc c hcT (Dag.Ancestor.refl c)) hm h, fun x hx => ?_⟩
    rw [GhostdagData.addBlue_mergesetBlues h, List.mem_append, List.mem_singleton] at hx
    exact hx

end Candidate

/-- The coloring loop of `ghostdag`: when no candidate has a descendant among the blues before
it, the new block's data stays right, and its blues are the first ones and candidates. -/
theorem foldlM_colorCandidate_spec {selectedParent : Hash}
    (hfacts : mgr.ChainFacts blocks selectedParent) {fuel : Nat} {candidates : List Hash}
    {data data' : GhostdagData} (hdata : mgr.ColoringInv blocks selectedParent data)
    (hcandidates : ∀ c ∈ candidates, c ∈ blocks ∧
      Dag.Ancestor mgr.parents mgr.genesisHash c ∧
      ∀ x, mgr.ContextBlues data x → ¬ Dag.Ancestor mgr.parents c x)
    (horder : candidates.Pairwise fun a b => ¬ Dag.Ancestor mgr.parents b a)
    (h : candidates.foldlM (mgr.colorCandidate fuel) data = .ok data') :
    mgr.ColoringInv blocks selectedParent data' ∧
      ∀ x ∈ data'.mergesetBlues, x ∈ data.mergesetBlues ∨ x ∈ candidates := by
  induction candidates generalizing data with
  | nil =>
    cases h
    exact ⟨hdata, fun x hx => Or.inl hx⟩
  | cons c candidates ih =>
    rw [List.foldlM_cons] at h
    obtain ⟨data₁, h₁, h⟩ := Except.bind_eq_ok.mp h
    obtain ⟨hc, hgc, hdesc⟩ := hcandidates c List.mem_cons_self
    obtain ⟨hdata₁, hblues₁⟩ := colorCandidate_spec hfacts hdata hdesc hgc hc h₁
    rw [List.pairwise_cons] at horder
    have hsp : data₁.selectedParent = data.selectedParent :=
      hdata₁.selectedParent_eq.trans hdata.selectedParent_eq.symm
    have hcontext : ∀ x, mgr.ContextBlues data₁ x → mgr.ContextBlues data x ∨ x = c := by
      rintro x (hx | hx)
      · rcases hblues₁ x hx with hx | rfl
        · exact Or.inl (Or.inl hx)
        · exact Or.inr rfl
      · exact Or.inl (Or.inr (hsp ▸ hx))
    have hcandidates₁ : ∀ c' ∈ candidates, c' ∈ blocks ∧
        Dag.Ancestor mgr.parents mgr.genesisHash c' ∧
        ∀ x, mgr.ContextBlues data₁ x → ¬ Dag.Ancestor mgr.parents c' x := by
      intro c' hc'
      obtain ⟨hc'b, hgc', hdesc'⟩ := hcandidates c' (List.mem_cons_of_mem c hc')
      refine ⟨hc'b, hgc', fun x hx => ?_⟩
      rcases hcontext x hx with hx | rfl
      · exact hdesc' x hx
      · exact horder.1 c' hc'
    obtain ⟨hdata', hblues'⟩ := ih hdata₁ hcandidates₁ horder.2 h
    refine ⟨hdata', fun x hx => ?_⟩
    rcases hblues' x hx with hx | hx
    · rcases hblues₁ x hx with hx | rfl
      · exact Or.inl hx
      · exact Or.inr List.mem_cons_self
    · exact Or.inr (List.mem_cons_of_mem c hx)

end GhostdagManager

end Vecno
