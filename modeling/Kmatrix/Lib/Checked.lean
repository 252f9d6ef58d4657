import Mathlib.Data.Int.Order.Basic
import Mathlib.Tactic.Common
import Mathlib.Tactic.NormNum

/-! # Arithmetic in machine integers, without overflow

Operations on signed integers of `w` bits, as a build with overflow checks makes them: the result is the
exact one, or there is none. A computation is a chain of `exact` results, and `exact_bind_eq_ok` takes it
apart: it comes to a value if and only if every intermediate result fits. -/

namespace Kmatrix.Lib.Checked

/-- `x` can be held in `w` bits, one of which is the sign. -/
def Fits (w : ℕ) (x : ℤ) : Prop := -2 ^ (w - 1) ≤ x ∧ x < 2 ^ (w - 1)

instance (w : ℕ) : DecidablePred (Fits w) := fun x =>
  inferInstanceAs (Decidable (-2 ^ (w - 1) ≤ x ∧ x < 2 ^ (w - 1)))

theorem fits_64 {x : ℤ} : Fits 64 x ↔ -9223372036854775808 ≤ x ∧ x < 9223372036854775808 := by
  norm_num [Fits]

inductive Overflow where
  | overflow
  deriving DecidableEq, Repr

/-- **A computation that may overflow.** -/
abbrev Result := Except Overflow

/-- The exact result of an operation, if it fits. -/
def exact (w : ℕ) (x : ℤ) : Result ℤ := if Fits w x then .ok x else .error .overflow

variable {w : ℕ} {x r : ℤ} {α : Type}

theorem exact_of_fits (h : Fits w x) : exact w x = .ok x := if_pos h

theorem exact_eq_ok : exact w x = .ok r ↔ Fits w x ∧ x = r := by
  unfold exact
  split_ifs with h <;> simp [h]

theorem ok_bind {β : Type} (b : β) (f : β → Result α) : (Except.ok b >>= f) = f b := rfl

theorem bind_eq_ok {c : Result ℤ} {f : ℤ → Result α} {a : α} :
    (c >>= f) = .ok a ↔ ∃ x, c = .ok x ∧ f x = .ok a := by
  rcases c with e | x
  · exact ⟨fun h => (by cases h), fun ⟨x, hx, _⟩ => (by cases hx)⟩
  · exact ⟨fun h => ⟨x, rfl, h⟩, fun ⟨y, hy, h⟩ => (by cases hy; exact h)⟩

/-- **A chain**: what is computed first fits, and the rest goes on with it. -/
theorem exact_bind_eq_ok {f : ℤ → Result α} {a : α} :
    (exact w x >>= f) = .ok a ↔ Fits w x ∧ f x = .ok a := by
  unfold exact
  split_ifs with h
  · exact ⟨fun hf => ⟨h, hf⟩, fun hf => hf.2⟩
  · exact ⟨fun hf => (by cases hf), fun hf => absurd hf.1 h⟩

end Kmatrix.Lib.Checked
