import Mathlib.Logic.Basic

/-!
# Methods of `&mut self` that return a `Result`

A method is a function to the result and the state it leaves, which on an error keeps the changes
made before it. `collect` runs such calls in order until the first error.
-/

namespace Mutating

variable {σ α β ε : Type}

/-- `iter().map(|a| self.f(a)).collect::<Result<Vec<_>, _>>()`. -/
def collect (f : σ → α → Except ε β × σ) : List α → σ → Except ε (List β) × σ
  | [], s => (.ok [], s)
  | a :: as, s =>
    match f s a with
    | (.ok b, s) =>
      match collect f as s with
      | (.ok bs, s) => (.ok (b :: bs), s)
      | (.error e, s) => (.error e, s)
    | (.error e, s) => (.error e, s)

variable {f : σ → α → Except ε β × σ}

@[simp] theorem collect_nil (s : σ) : collect f [] s = (.ok [], s) :=
  rfl

theorem collect_cons_of_ok {a : α} {as : List α} {s s' : σ} {b : β}
    (h : f s a = (.ok b, s')) :
    collect f (a :: as) s = match collect f as s' with
      | (.ok bs, s) => (.ok (b :: bs), s)
      | (.error e, s) => (.error e, s) := by
  simp only [collect, h]

theorem collect_cons_of_error {a : α} {as : List α} {s s' : σ} {e : ε}
    (h : f s a = (.error e, s')) : collect f (a :: as) s = (.error e, s') := by
  simp only [collect, h]

/-- A property of the state that every call keeps, whatever it returns, holds of the state the
whole collection leaves. -/
theorem collect_invariant (P : σ → Prop) (hf : ∀ s a, P s → P (f s a).2) :
    ∀ (as : List α) (s : σ), P s → P (collect f as s).2
  | [], _, hs => hs
  | a :: as, s, hs => by
    have ha := hf s a hs
    rcases hfa : f s a with ⟨e | b, s'⟩
    · rw [collect_cons_of_error hfa]
      rwa [hfa] at ha
    · rw [collect_cons_of_ok hfa]
      rw [hfa] at ha
      have hrest := collect_invariant P hf as s' ha
      rcases hc : collect f as s' with ⟨e | bs, s''⟩ <;> rw [hc] at hrest <;> exact hrest

end Mutating
