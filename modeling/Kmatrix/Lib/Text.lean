import Mathlib.Data.List.DropRight
import Mathlib.Data.List.Infix
import Mathlib.Tactic.Common

/-! # Taking texts apart

What is done to a text before it is read.

* `splitOnce`: what stands before and after the first place a separator is at.
* `trim`: the text without what satisfies `p` at its ends; `rdropWhile_append`, what goes at the end only.
* `padded` and `signed`: decimal numerals of at least so many digits, which `natValue` and `intValue` read
  back. -/

namespace Kmatrix.Lib.Text

section Cutting
variable {α : Type}

section SplitOnce
variable [DecidableEq α]

/-- The text before and after the first `sep`. -/
def splitOnce (sep l : List α) : Option (List α × List α) :=
  if sep.isPrefixOf l then some ([], l.drop sep.length)
  else match l with
    | [] => none
    | a :: l => (splitOnce sep l).map fun (before, after) => (a :: before, after)

theorem splitOnce_append {c : α} {sep before after : List α} (h : c ∉ before) :
    splitOnce (c :: sep) (before ++ (c :: sep ++ after)) = some (before, after) := by
  induction before with
  | nil =>
    unfold splitOnce
    rw [List.nil_append, if_pos (List.isPrefixOf_iff_prefix.mpr (List.prefix_append _ _)),
      List.drop_left]
  | cons a before ih =>
    obtain ⟨hne, hbefore⟩ := List.ne_and_not_mem_of_not_mem_cons h
    have hno : ¬ (c :: sep).isPrefixOf (a :: before ++ (c :: sep ++ after)) = true := fun hpre =>
      hne (List.cons_prefix_cons.mp (List.isPrefixOf_iff_prefix.mp hpre)).1
    unfold splitOnce
    rw [if_neg hno]
    show (splitOnce (c :: sep) (before ++ (c :: sep ++ after))).map _ = _
    rw [ih hbefore]
    rfl

theorem eq_of_splitOnce {sep l before after : List α} (h : splitOnce sep l = some (before, after)) :
    l = before ++ (sep ++ after) := by
  induction l generalizing before with
  | nil =>
    unfold splitOnce at h
    split_ifs at h with hpre
    cases h
    rw [List.prefix_nil.mp (List.isPrefixOf_iff_prefix.mp hpre)]
    rfl
  | cons a l ih =>
    unfold splitOnce at h
    split_ifs at h with hpre
    · obtain ⟨rest, hrest⟩ := List.isPrefixOf_iff_prefix.mp hpre
      cases h
      rw [← hrest, List.drop_left]
      rfl
    · obtain ⟨⟨before', after'⟩, hl, heq⟩ := Option.map_eq_some_iff.mp h
      cases heq
      rw [ih hl]
      rfl

end SplitOnce

variable (p : α → Bool)

/-- The text without what satisfies `p` at its ends. -/
def trim (l : List α) : List α := (l.dropWhile p).rdropWhile p

variable {p}

/-- A text that begins with something else is trimmed at its end only. -/
theorem trim_cons {a : α} {l : List α} (h : p a = false) : trim p (a :: l) = (a :: l).rdropWhile p := by
  unfold trim
  rw [List.dropWhile_cons_of_neg (by simp [h])]

/-- What is dropped at the end of a text is dropped at the end of what it ends in, if something stays. -/
theorem rdropWhile_append (l r : List α) :
    (l ++ r).rdropWhile p = if r.rdropWhile p = [] then l.rdropWhile p else l ++ r.rdropWhile p := by
  unfold List.rdropWhile
  rw [List.reverse_append, List.dropWhile_append]
  by_cases h : r.reverse.dropWhile p = []
  · simp [h]
  · simp [h]

/-- Nothing is dropped from a text that ends in something else. -/
theorem rdropWhile_of_getLast? {l : List α} (h : ∀ a ∈ l.getLast?, p a = false) : l.rdropWhile p = l := by
  rw [List.rdropWhile_eq_self_iff]
  intro hl
  rw [h (l.getLast hl) (List.getLast?_eq_some_getLast hl)]
  exact Bool.false_ne_true

theorem getLast?_rdropWhile {l : List α} {a : α} (h : a ∈ (l.rdropWhile p).getLast?) : p a = false := by
  obtain ⟨hne, rfl⟩ := List.mem_getLast?_eq_getLast h
  exact Bool.eq_false_iff.mpr (List.rdropWhile_last_not p l hne)

/-- A trimmed text ends in something else. -/
theorem getLast?_trim {l : List α} {a : α} (h : a ∈ (trim p l).getLast?) : p a = false := getLast?_rdropWhile h

end Cutting

/-! ### Numerals -/

/-- The number `n` in decimal, with zeros in front to make it `width` digits. -/
def padded (width n : ℕ) : List Char := (Nat.toDigits 10 n).leftpad width '0'

/-- The same with a sign where the number is negative. -/
def signed (width : ℕ) (n : ℤ) : List Char :=
  if n < 0 then '-' :: padded width n.natAbs else padded width n.natAbs

/-- The number a text of digits says. -/
def natValue (l : List Char) : Option ℕ :=
  if !l.isEmpty && l.all Char.isDigit then some (Nat.ofDigitChars 10 l 0) else none

/-- The same with a sign in front, or none. -/
def intValue : List Char → Option ℤ
  | '+' :: l => (natValue l).map fun n => (n : ℤ)
  | '-' :: l => (natValue l).map fun n => -(n : ℤ)
  | l => (natValue l).map fun n => (n : ℤ)

theorem isDigit_of_mem_padded {width n : ℕ} {c : Char} (h : c ∈ padded width n) : c.isDigit = true := by
  unfold padded List.leftpad at h
  rcases List.mem_append.mp h with h | h
  · rw [List.eq_of_mem_replicate h]
    rfl
  · exact Nat.isDigit_of_mem_toDigits (by omega) (by omega) h

theorem padded_ne_nil (width n : ℕ) : padded width n ≠ [] := by
  unfold padded List.leftpad
  exact List.append_ne_nil_of_right_ne_nil _ Nat.toDigits_ne_nil

theorem natValue_padded (width n : ℕ) : natValue (padded width n) = some n := by
  have hdigits : (!(padded width n).isEmpty && (padded width n).all Char.isDigit) = true := by
    simp only [Bool.and_eq_true, Bool.not_eq_true', List.isEmpty_eq_false_iff, List.all_eq_true]
    exact ⟨padded_ne_nil width n, fun c hc => isDigit_of_mem_padded hc⟩
  unfold natValue
  rw [if_pos hdigits]
  unfold padded List.leftpad
  rw [Nat.ofDigitChars_append, Nat.ofDigitChars_replicate_zero, Nat.mul_zero, Nat.ofDigitChars_ten_toDigits]

/-- A text that begins with a digit has no sign. -/
theorem intValue_of_digits {l : List Char} (h : ∀ c ∈ l, c.isDigit = true) :
    intValue l = (natValue l).map fun n => (n : ℤ) := by
  unfold intValue
  split
  · next l => exact absurd (h '+' List.mem_cons_self) (by decide)
  · next l => exact absurd (h '-' List.mem_cons_self) (by decide)
  · rfl

theorem intValue_minus (l : List Char) : intValue ('-' :: l) = (natValue l).map fun n => -(n : ℤ) := rfl

theorem intValue_padded (width n : ℕ) : intValue (padded width n) = some (n : ℤ) := by
  rw [intValue_of_digits fun c hc => isDigit_of_mem_padded hc, natValue_padded]
  rfl

/-- **A numeral is read back.** -/
theorem intValue_signed (width : ℕ) (n : ℤ) : intValue (signed width n) = some n := by
  unfold signed
  split_ifs with h
  · have habs : -(n.natAbs : ℤ) = n := by omega
    rw [intValue_minus, natValue_padded]
    exact congrArg some habs
  · rw [intValue_padded]
    exact congrArg some (by omega)

theorem mem_signed {width : ℕ} {n : ℤ} {c : Char} (h : c ∈ signed width n) : c = '-' ∨ c.isDigit = true := by
  unfold signed at h
  split_ifs at h
  · exact (List.mem_cons.mp h).imp_right isDigit_of_mem_padded
  · exact .inr (isDigit_of_mem_padded h)

end Kmatrix.Lib.Text
