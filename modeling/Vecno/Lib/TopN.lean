import Mathlib.Data.List.MinMax
import Mathlib.Data.List.Perm.Subperm

/-!
# The largest elements, kept in a bounded min-queue

`IsTop n S W`: `W` holds the largest elements of `S`, as many as `n` allows. It follows a queue
through `push`, `replace`, `skip`, `pop` and `merge`.
-/

namespace TopN

variable {α : Type} [LinearOrder α]

/-- Take out the least element. -/
def popMin (l : List α) : List α :=
  match l.min? with
  | some m => l.erase m
  | none => l

theorem length_popMin (l : List α) : (popMin l).length = l.length - 1 := by
  cases hm : l.min? with
  | none =>
    rw [List.min?_eq_none_iff.mp hm]
    rfl
  | some m =>
    simp only [popMin, hm]
    exact List.length_erase_of_mem (List.min?_mem hm)

theorem length_repeat_popMin (j : Nat) (l : List α) :
    (Nat.repeat popMin j l).length = l.length - j := by
  induction j with
  | zero => rfl
  | succ j ih =>
    change (popMin (Nat.repeat popMin j l)).length = _
    rw [length_popMin, ih, Nat.sub_sub]

theorem mem_of_mem_repeat_popMin {j : Nat} {l : List α} {a : α}
    (h : a ∈ Nat.repeat popMin j l) : a ∈ l := by
  induction j with
  | zero => exact h
  | succ j ih =>
    apply ih
    change a ∈ popMin (Nat.repeat popMin j l) at h
    unfold popMin at h
    split at h
    · exact List.mem_of_mem_erase h
    · exact h

/-- `W` holds, once each, the largest elements of `S`: `n` of them, or all of `S`. -/
structure IsTop (n : Nat) (S : α → Prop) (W : List α) : Prop where
  mem : ∀ w ∈ W, S w
  nodup : W.Nodup
  length_le : W.length ≤ n
  full_or_all : W.length = n ∨ ∀ s, S s → s ∈ W
  above : ∀ w ∈ W, ∀ s, S s → s ∉ W → s < w

variable {n : Nat} {S T : α → Prop} {W V : List α} {x m : α}

theorem isTop_empty (n : Nat) (hS : ∀ a, ¬ S a) : IsTop n S [] where
  mem _ hw := absurd hw List.not_mem_nil
  nodup := List.nodup_nil
  length_le := Nat.zero_le n
  full_or_all := .inr fun s hs => absurd hs (hS s)
  above _ hw := absurd hw List.not_mem_nil

/-- A list without repeats is the top of its own elements, at its own length. -/
theorem isTop_self {L : List α} (hL : L.Nodup) : IsTop L.length (· ∈ L) L where
  mem _ hw := hw
  nodup := hL
  length_le := Nat.le_refl _
  full_or_all := .inl rfl
  above _ _ _ hs hsL := absurd hs hsL

theorem IsTop.congr (h : IsTop n S W) (hST : ∀ a, S a ↔ T a) : IsTop n T W where
  mem w hw := (hST w).mp (h.mem w hw)
  nodup := h.nodup
  length_le := h.length_le
  full_or_all := h.full_or_all.imp_right fun hall s hs => hall s ((hST s).mpr hs)
  above w hw s hs := h.above w hw s ((hST s).mpr hs)

theorem IsTop.all_mem (h : IsTop n S W) (hlen : W.length < n) : ∀ s, S s → s ∈ W :=
  h.full_or_all.resolve_left (Nat.ne_of_lt hlen)

theorem IsTop.push (h : IsTop n S W) (hlen : W.length < n) (hx : ¬ S x) :
    IsTop n (fun a => S a ∨ a = x) (x :: W) where
  mem w hw := by
    rcases List.mem_cons.mp hw with rfl | hw
    · exact .inr rfl
    · exact .inl (h.mem w hw)
  nodup := List.nodup_cons.mpr ⟨fun hxW => hx (h.mem x hxW), h.nodup⟩
  length_le := hlen
  full_or_all := by
    refine .inr fun s hs => ?_
    rcases hs with hs | rfl
    · exact List.mem_cons_of_mem x (h.all_mem hlen s hs)
    · exact List.mem_cons_self
  above _ _ s hs hsW := by
    rcases hs with hs | rfl
    · exact absurd (List.mem_cons_of_mem x (h.all_mem hlen s hs)) hsW
    · exact absurd List.mem_cons_self hsW

/-- A full queue whose minimum `m` is not above `x` lets `m` go and takes `x` in. -/
theorem IsTop.replace (h : IsTop n S W) (hlen : W.length = n) (hm : W.min? = some m)
    (hx : ¬ S x) (hmx : m ≤ x) : IsTop n (fun a => S a ∨ a = x) (x :: W.erase m) := by
  have hmW : m ∈ W := List.min?_mem hm
  have hmin : ∀ w ∈ W, m ≤ w := (List.min?_eq_some_iff.mp hm).2
  have hlen' : (x :: W.erase m).length = n := by
    have hpos : 0 < W.length := List.length_pos_of_mem hmW
    rw [List.length_cons, List.length_erase_of_mem hmW]
    omega
  refine ⟨?_, ?_, Nat.le_of_eq hlen', .inl hlen', ?_⟩
  · intro w hw
    rcases List.mem_cons.mp hw with rfl | hw
    · exact .inr rfl
    · exact .inl (h.mem w (List.mem_of_mem_erase hw))
  · exact List.nodup_cons.mpr ⟨fun hxW => hx (h.mem x (List.mem_of_mem_erase hxW)), h.nodup.erase m⟩
  · intro w hw s hs hsW
    rcases hs with hs | rfl
    · -- what is left out of the new queue is `m` or was already left out
      have hsx : s ≠ x := fun hsx => hx (hsx ▸ hs)
      have hsm : s ≤ m := by
        by_cases hsm : s = m
        · exact le_of_eq hsm
        · have hsW' : s ∉ W := fun hsW' =>
            hsW (List.mem_cons_of_mem x ((h.nodup.mem_erase_iff).mpr ⟨hsm, hsW'⟩))
          exact le_of_lt (h.above m hmW s hs hsW')
      rcases List.mem_cons.mp hw with rfl | hw
      · exact lt_of_le_of_ne (le_trans hsm hmx) hsx
      · obtain ⟨hwm, hwW⟩ := (h.nodup.mem_erase_iff).mp hw
        exact lt_of_le_of_lt hsm (lt_of_le_of_ne (hmin w hwW) (Ne.symm hwm))
    · exact absurd List.mem_cons_self hsW

theorem IsTop.skip (h : IsTop n S W) (hlen : W.length = n) {R : α → Prop}
    (hR : ∀ r, R r → ∀ w ∈ W, r < w) : IsTop n (fun a => S a ∨ R a) W where
  mem w hw := .inl (h.mem w hw)
  nodup := h.nodup
  length_le := Nat.le_of_eq hlen
  full_or_all := .inl hlen
  above w hw s hs hsW := hs.elim (fun hs => h.above w hw s hs hsW) (fun hr => hR s hr w hw)

theorem IsTop.pop (h : IsTop n S W) (hlen : W.length = n) : IsTop (n - 1) S (popMin W) := by
  have hlen' : (popMin W).length = n - 1 := by rw [length_popMin, hlen]
  refine ⟨?_, ?_, Nat.le_of_eq hlen', .inl hlen', ?_⟩
  · intro w hw
    unfold popMin at hw
    split at hw
    · exact h.mem w (List.mem_of_mem_erase hw)
    · exact h.mem w hw
  · unfold popMin
    split
    · exact h.nodup.erase _
    · exact h.nodup
  · intro w hw s hs hsW
    cases hm : W.min? with
    | none =>
      rw [List.min?_eq_none_iff.mp hm] at hw
      exact absurd hw List.not_mem_nil
    | some m =>
      simp only [popMin, hm] at hw hsW
      obtain ⟨hwm, hwW⟩ := (h.nodup.mem_erase_iff).mp hw
      by_cases hsm : s = m
      · rw [hsm]
        exact lt_of_le_of_ne ((List.min?_eq_some_iff.mp hm).2 w hwW) (Ne.symm hwm)
      · exact h.above w hwW s hs fun hsW' => hsW ((h.nodup.mem_erase_iff).mpr ⟨hsm, hsW'⟩)

/-- Popping `j` minima from a list without repeats leaves its top `L.length - j`. -/
theorem isTop_repeat_popMin {L : List α} (hL : L.Nodup) (j : Nat) :
    IsTop (L.length - j) (· ∈ L) (Nat.repeat popMin j L) := by
  induction j with
  | zero => exact isTop_self hL
  | succ j ih =>
    rw [← Nat.sub_sub]
    exact ih.pop (length_repeat_popMin j L)

/-- What a full top of `S` leaves out is below every element of any top, no longer than `n`, of
a collection that contains the first top. -/
theorem IsTop.lt_of_not_mem {k : Nat} {P : α → Prop} {R : List α} (hW : IsTop n S W)
    (hR : IsTop k P R) (hWP : ∀ w ∈ W, P w) (hk : k ≤ n) {s : α} (hs : S s) (hsW : s ∉ W) :
    ∀ r ∈ R, s < r := by
  have hfull : W.length = n := hW.full_or_all.resolve_right fun hall => hsW (hall s hs)
  intro r hr
  by_contra hle
  have hrs : r ≤ s := not_lt.mp hle
  -- `r` is below all of `W`, so `R` holds all of `W` and `r` besides: more than `n` elements
  have hWR : ∀ w ∈ W, w ∈ R := fun w hw => by
    by_contra hwR
    exact absurd (hR.above r hr w (hWP w hw) hwR) (not_lt.mpr (le_of_lt
      (lt_of_le_of_lt hrs (hW.above w hw s hs hsW))))
  have hrW : r ∉ W := fun hrW => absurd (hW.above r hrW s hs hsW) (not_lt.mpr hrs)
  have hsub : (r :: W).Subperm R :=
    List.subperm_of_subset (List.nodup_cons.mpr ⟨hrW, hW.nodup⟩)
      (List.cons_subset.mpr ⟨hr, hWR⟩)
  have hlen := hsub.length_le
  rw [List.length_cons, hfull] at hlen
  exact absurd (Nat.le_trans hlen (Nat.le_trans hR.length_le hk)) (Nat.not_succ_le_self n)

/-- Joining two tops of disjoint collections and popping the overflow leaves the top of their
union. -/
theorem IsTop.merge (hW : IsTop n S W) (hV : IsTop n T V) (hST : ∀ a, S a → ¬ T a) :
    IsTop n (fun a => S a ∨ T a) (Nat.repeat popMin ((W ++ V).length - n) (W ++ V)) := by
  have hL : (W ++ V).Nodup := List.nodup_append.mpr ⟨hW.nodup, hV.nodup,
    fun a ha b hb hab => hST a (hW.mem a ha) (hab ▸ hV.mem b hb)⟩
  have hR := isTop_repeat_popMin hL ((W ++ V).length - n)
  have hk : (W ++ V).length - ((W ++ V).length - n) ≤ n := by omega
  have hlenR := length_repeat_popMin ((W ++ V).length - n) (W ++ V)
  refine ⟨?_, hR.nodup, Nat.le_trans hR.length_le hk, ?_, ?_⟩
  · intro r hr
    rcases List.mem_append.mp (mem_of_mem_repeat_popMin hr) with hr | hr
    · exact .inl (hW.mem r hr)
    · exact .inr (hV.mem r hr)
  · by_cases hn : n ≤ (W ++ V).length
    · exact .inl (by omega)
    · -- nothing overflows, and each queue holds all it was given
      have hzero : (W ++ V).length - n = 0 := by omega
      have hWn : W.length < n := by rw [List.length_append] at hn; omega
      have hVn : V.length < n := by rw [List.length_append] at hn; omega
      refine .inr fun s hs => ?_
      rw [hzero]
      rcases hs with hs | hs
      · exact List.mem_append_left V (hW.all_mem hWn s hs)
      · exact List.mem_append_right W (hV.all_mem hVn s hs)
  · intro w hw s hs hsR
    by_cases hsL : s ∈ W ++ V
    · exact hR.above w hw s hsL hsR
    · rcases hs with hs | hs
      · exact hW.lt_of_not_mem hR (fun a ha => List.mem_append_left V ha) hk hs
          (fun h => hsL (List.mem_append_left V h)) w hw
      · exact hV.lt_of_not_mem hR (fun a ha => List.mem_append_right W ha) hk hs
          (fun h => hsL (List.mem_append_right W h)) w hw

theorem IsTop.mem_of_mem {W' : List α} (h : IsTop n S W) (h' : IsTop n S W') {w : α}
    (hw : w ∈ W) : w ∈ W' := by
  by_contra hw'
  exact lt_irrefl w (h'.lt_of_not_mem h h'.mem (Nat.le_refl n) (h.mem w hw) hw' w hw)

theorem IsTop.perm {W' : List α} (h : IsTop n S W) (h' : IsTop n S W') : W.Perm W' :=
  (List.perm_ext_iff_of_nodup h.nodup h'.nodup).mpr fun _ => ⟨h.mem_of_mem h', h'.mem_of_mem h⟩

end TopN
