import Mathlib

/-!
# Checked unsigned arithmetic and unwrapping

Machine arithmetic with overflow checks: a result out of range, or an absent value unwrapped,
aborts with the runtime's message as an `Except.error`.
-/

namespace Checked

/-- `a + b` on `bits`-bit unsigned integers. -/
def add (bits a b : Nat) : Except String Nat :=
  if a + b < 2 ^ bits then .ok (a + b) else .error "attempt to add with overflow"

/-- `a - b` on unsigned integers. -/
def sub (a b : Nat) : Except String Nat :=
  if b ≤ a then .ok (a - b) else .error "attempt to subtract with overflow"

/-- `a + b` on `bits`-bit signed integers, whose range is `[-2 ^ (bits - 1), 2 ^ (bits - 1))`. -/
def addSigned (bits : Nat) (a b : Int) : Except String Int :=
  if -2 ^ (bits - 1) ≤ a + b ∧ a + b < 2 ^ (bits - 1) then .ok (a + b)
  else .error "attempt to add with overflow"

/-- `a - b` on `bits`-bit signed integers. -/
def subSigned (bits : Nat) (a b : Int) : Except String Int :=
  if -2 ^ (bits - 1) ≤ a - b ∧ a - b < 2 ^ (bits - 1) then .ok (a - b)
  else .error "attempt to subtract with overflow"

/-- `a.saturating_add(b)` on `bits`-bit unsigned integers: the sum, or the largest value. -/
def saturatingAdd (bits a b : Nat) : Nat :=
  min (a + b) (2 ^ bits - 1)

/-- `a * b` on `bits`-bit unsigned integers. -/
def mul (bits a b : Nat) : Except String Nat :=
  if a * b < 2 ^ bits then .ok (a * b) else .error "attempt to multiply with overflow"

/-- `a % b` on unsigned integers: a zero divisor aborts. -/
def rem (a b : Nat) : Except String Nat :=
  if b = 0 then .error "attempt to calculate the remainder with a divisor of zero" else .ok (a % b)

/-- The message of `Result::unwrap` on an error. -/
def unwrapFailed : String :=
  "called `Result::unwrap()` on an `Err` value"

/-- The message of `Option::unwrap` on `None`. -/
def unwrapNone : String :=
  "called `Option::unwrap()` on a `None` value"

/-- The message of a failed `assert_eq!` on two numbers. -/
def assertEqFailed (left right : Nat) : String :=
  "assertion `left == right` failed\n  left: " ++ toString left ++ "\n right: " ++ toString right

/-- The message of a failed `assert_eq!` on two numbers with a message of its own. -/
def assertEqFailedWith (message : String) (left right : Nat) : String :=
  "assertion `left == right` failed: " ++ message ++ "\n  left: " ++ toString left ++ "\n right: " ++
    toString right

/-- `iter().sum()` on `bits`-bit unsigned integers: each partial sum is checked. -/
def sum (bits : Nat) (l : List Nat) : Except String Nat :=
  l.foldlM (add bits) 0

/-- `iter().map(f).sum()` on `bits`-bit unsigned integers, where computing `f` may abort: each
item is computed and added before the next. -/
def sumMap {α : Type} (bits : Nat) (f : α → Except String Nat) (l : List α) : Except String Nat :=
  l.foldlM (fun acc a => do add bits acc (← f a)) 0

/-- `expect`: the value, or an abort with `message` when there is none. -/
def expect {α : Type} (message : String) : Option α → Except String α
  | some a => .ok a
  | none => .error message

/-- The message of an index outside a slice. -/
def indexOutOfBounds (len index : Nat) : String :=
  "index out of bounds: the len is " ++ toString len ++ " but the index is " ++ toString index

/-- `v[i]` on a slice. -/
def index {α : Type} (v : List α) (i : Nat) : Except String α :=
  match v[i]? with
  | some a => .ok a
  | none => .error (indexOutOfBounds v.length i)

/-- `v[i] = a` on a slice. -/
def set {α : Type} (v : List α) (i : Nat) (a : α) : Except String (List α) :=
  if i < v.length then .ok (v.set i a) else .error (indexOutOfBounds v.length i)

@[simp] theorem expect_eq_ok {α : Type} {message : String} {o : Option α} {a : α} :
    expect message o = .ok a ↔ o = some a := by
  cases o <;> simp [expect]

theorem add_of_lt {bits a b : Nat} (h : a + b < 2 ^ bits) : add bits a b = .ok (a + b) := by
  simp [add, h]

theorem sub_of_le {a b : Nat} (h : b ≤ a) : sub a b = .ok (a - b) := by
  simp [sub, h]

theorem addSigned_of_mem {bits : Nat} {a b : Int} (hlo : -2 ^ (bits - 1) ≤ a + b)
    (hhi : a + b < 2 ^ (bits - 1)) : addSigned bits a b = .ok (a + b) := by
  simp [addSigned, hlo, hhi]

theorem subSigned_of_mem {bits : Nat} {a b : Int} (hlo : -2 ^ (bits - 1) ≤ a - b)
    (hhi : a - b < 2 ^ (bits - 1)) : subSigned bits a b = .ok (a - b) := by
  simp [subSigned, hlo, hhi]

theorem index_of_lt {α : Type} {v : List α} {i : Nat} (h : i < v.length) : index v i = .ok v[i] := by
  simp [index, List.getElem?_eq_getElem h]

theorem set_of_lt {α : Type} {v : List α} {i : Nat} (h : i < v.length) (a : α) :
    set v i a = .ok (v.set i a) := by
  simp [set, h]

theorem mul_of_lt {bits a b : Nat} (h : a * b < 2 ^ bits) : mul bits a b = .ok (a * b) := by
  simp [mul, h]

theorem add_eq_ok {bits a b c : Nat} : add bits a b = .ok c ↔ a + b < 2 ^ bits ∧ c = a + b := by
  unfold add
  split
  · simp_all [eq_comm]
  · rename_i h
    simp only [reduceCtorEq, false_iff, not_and]
    omega

theorem sub_eq_ok {a b c : Nat} : sub a b = .ok c ↔ b ≤ a ∧ c = a - b := by
  unfold sub
  split
  · simp_all [eq_comm]
  · rename_i h
    simp only [reduceCtorEq, false_iff, not_and]
    omega

theorem mul_eq_ok {bits a b c : Nat} : mul bits a b = .ok c ↔ a * b < 2 ^ bits ∧ c = a * b := by
  unfold mul
  split
  · simp_all [eq_comm]
  · rename_i h
    simp only [reduceCtorEq, false_iff, not_and]
    omega

theorem foldlM_add_of_lt {bits : Nat} :
    ∀ {l : List Nat} {acc : Nat}, acc + l.sum < 2 ^ bits → l.foldlM (add bits) acc = .ok (acc + l.sum) := by
  intro l
  induction l with
  | nil => intro acc _; rfl
  | cons a l ih =>
    intro acc h
    rw [List.sum_cons] at h
    rw [List.foldlM_cons, add_of_lt (by omega), List.sum_cons, ← Nat.add_assoc]
    exact ih (by omega)

theorem sum_of_lt {bits : Nat} {l : List Nat} (h : l.sum < 2 ^ bits) : sum bits l = .ok l.sum := by
  rw [sum, foldlM_add_of_lt (by omega), Nat.zero_add]

theorem toNat_toUInt64 {a : Nat} (h : a < 2 ^ 64) : a.toUInt64.toNat = a := by
  rw [Nat.toUInt64_eq, UInt64.toNat_ofNat', Nat.mod_eq_of_lt h]

end Checked

namespace Except

@[simp] theorem ok_bind {ε α β : Type} (a : α) (f : α → Except ε β) : (Except.ok a >>= f) = f a :=
  rfl

@[simp] theorem error_bind {ε α β : Type} (e : ε) (f : α → Except ε β) :
    (Except.error e >>= f : Except ε β) = .error e :=
  rfl

theorem bind_eq_ok {ε α β : Type} {x : Except ε α} {f : α → Except ε β} {b : β} :
    (x >>= f) = .ok b ↔ ∃ a, x = .ok a ∧ f a = .ok b := by
  cases x <;> simp

/-- A loop over a list succeeds exactly when the pass over each element does. -/
theorem forM_eq_ok {ε α : Type} {f : α → Except ε PUnit} :
    ∀ {l : List α}, l.forM f = .ok () ↔ ∀ a ∈ l, f a = .ok () := by
  intro l
  induction l with
  | nil => simp only [List.forM, List.not_mem_nil, false_implies, implies_true, iff_true]; rfl
  | cons a l ih =>
    change (f a >>= fun _ => l.forM f) = _ ↔ _
    rw [bind_eq_ok, List.forall_mem_cons, ← ih]
    constructor
    · rintro ⟨⟨⟩, ha, hl⟩
      exact ⟨ha, hl⟩
    · rintro ⟨ha, hl⟩
      exact ⟨_, ha, hl⟩

theorem toOption_eq_some {ε α : Type} {x : Except ε α} {a : α} :
    x.toOption = some a ↔ x = .ok a := by
  cases x <;> simp [Except.toOption]

/-- An invariant that every successful step keeps holds after a successful fold. -/
theorem foldlM_invariant {ε α β : Type} {f : β → α → Except ε β} (P : β → Prop)
    (hstep : ∀ b a b', P b → f b a = .ok b' → P b') :
    ∀ {l : List α} {b b' : β}, P b → l.foldlM f b = .ok b' → P b' := by
  intro l
  induction l with
  | nil =>
    intro b b' hb h
    cases h
    exact hb
  | cons a l ih =>
    intro b b' hb h
    rw [List.foldlM_cons] at h
    obtain ⟨b1, h1, hrest⟩ := bind_eq_ok.mp h
    exact ih (hstep b a b1 hb h1) hrest

/-- A fold that carries a ghost component alongside: where the plain fold succeeds, and every step
the plain fold takes is matched by a step of the ghosted fold that keeps a relation `R`, the
ghosted fold succeeds on the same states. -/
theorem foldlM_simulation {ε α β γ : Type} {f : β → α → Except ε β}
    {g : β × γ → α → Except ε (β × γ)} (R : β → γ → Prop)
    (hstep : ∀ b c a b', R b c → f b a = .ok b' → ∃ c', g (b, c) a = .ok (b', c') ∧ R b' c') :
    ∀ {l : List α} {b b' : β} {c : γ}, R b c → l.foldlM f b = .ok b' →
      ∃ c', l.foldlM g (b, c) = .ok (b', c') ∧ R b' c' := by
  intro l
  induction l with
  | nil =>
    intro b b' c hbc h
    cases h
    exact ⟨c, rfl, hbc⟩
  | cons a l ih =>
    intro b b' c hbc h
    rw [List.foldlM_cons] at h
    obtain ⟨b1, h1, hrest⟩ := bind_eq_ok.mp h
    obtain ⟨c1, hg1, hR1⟩ := hstep b c a b1 hbc h1
    obtain ⟨c', hg, hR⟩ := ih hR1 hrest
    exact ⟨c', by rw [List.foldlM_cons, hg1, ok_bind, hg], hR⟩

/-- A counted loop keeps an invariant indexed by the passes done, and never fails, when each pass
succeeds and keeps it. -/
theorem foldlM_range_induction {ε β : Type} {f : β → Nat → Except ε β} (P : Nat → β → Prop)
    {n : Nat} {b : β} (h0 : P 0 b)
    (hstep : ∀ j b, j < n → P j b → ∃ b', f b j = .ok b' ∧ P (j + 1) b') :
    ∃ b', (List.range n).foldlM f b = .ok b' ∧ P n b' := by
  induction n with
  | zero => exact ⟨b, rfl, h0⟩
  | succ n ih =>
    obtain ⟨b1, h1, hP1⟩ := ih fun j b hj hP => hstep j b (by omega) hP
    obtain ⟨b2, h2, hP2⟩ := hstep n b1 (by omega) hP1
    refine ⟨b2, ?_, hP2⟩
    rw [List.range_succ, List.foldlM_append, h1, ok_bind, List.foldlM_cons, h2, ok_bind]
    rfl

end Except

/-- A counted pure loop keeps an invariant indexed by the passes done when each pass keeps it. -/
theorem List.foldl_range_induction {β : Type} {f : β → Nat → β} (P : Nat → β → Prop) {n : Nat}
    {b : β} (h0 : P 0 b) (hstep : ∀ j b, j < n → P j b → P (j + 1) (f b j)) :
    P n ((List.range n).foldl f b) := by
  induction n with
  | zero => exact h0
  | succ n ih =>
    rw [List.range_succ, List.foldl_append, List.foldl_cons, List.foldl_nil]
    exact hstep n _ (by omega) (ih fun j b hj hP => hstep j b (by omega) hP)

namespace Checked

section SumMap

variable {α : Type} {bits : Nat} {f : α → Except String Nat} {g : α → Nat}

/-- A mapped sum that succeeds is the sum of the items' values, and fits. -/
theorem foldlM_sumMap_eq_ok (hf : ∀ a v, f a = .ok v → v = g a) :
    ∀ {l : List α} {acc s : Nat}, acc < 2 ^ bits →
      l.foldlM (fun acc a => do add bits acc (← f a)) acc = .ok s →
      s = acc + (l.map g).sum ∧ s < 2 ^ bits := by
  intro l
  induction l with
  | nil =>
    intro acc s hacc h
    cases h
    exact ⟨rfl, hacc⟩
  | cons a l ih =>
    intro acc s hacc h
    rw [List.foldlM_cons] at h
    obtain ⟨acc', hstep, hrest⟩ := Except.bind_eq_ok.mp h
    obtain ⟨v, hv, hadd⟩ := Except.bind_eq_ok.mp hstep
    obtain rfl := hf a v hv
    obtain ⟨hlt, rfl⟩ := add_eq_ok.mp hadd
    obtain ⟨rfl, hs⟩ := ih hlt hrest
    rw [List.map_cons, List.sum_cons, ← Nat.add_assoc]
    exact ⟨rfl, hs⟩

theorem sumMap_eq_ok (hf : ∀ a v, f a = .ok v → v = g a) {l : List α} {s : Nat}
    (h : sumMap bits f l = .ok s) : s = (l.map g).sum ∧ s < 2 ^ bits := by
  obtain ⟨rfl, hs⟩ := foldlM_sumMap_eq_ok hf (Nat.two_pow_pos bits) h
  exact ⟨Nat.zero_add _, hs⟩

theorem foldlM_sumMap_of_lt :
    ∀ {l : List α} {acc : Nat}, (∀ a ∈ l, f a = .ok (g a)) → acc + (l.map g).sum < 2 ^ bits →
      l.foldlM (fun acc a => do add bits acc (← f a)) acc = .ok (acc + (l.map g).sum) := by
  intro l
  induction l with
  | nil => intro acc _ _; rfl
  | cons a l ih =>
    intro acc hf h
    rw [List.map_cons, List.sum_cons] at h
    rw [List.foldlM_cons, hf a List.mem_cons_self, Except.ok_bind, add_of_lt (by omega), Except.ok_bind,
      List.map_cons, List.sum_cons, ← Nat.add_assoc]
    exact ih (fun b hb => hf b (List.mem_cons_of_mem a hb)) (by omega)

/-- A mapped sum whose items succeed and whose total fits does not abort. -/
theorem sumMap_of_lt {l : List α} (hf : ∀ a ∈ l, f a = .ok (g a)) (h : (l.map g).sum < 2 ^ bits) :
    sumMap bits f l = .ok (l.map g).sum := by
  rw [sumMap, foldlM_sumMap_of_lt hf (by omega), Nat.zero_add]

end SumMap

end Checked
