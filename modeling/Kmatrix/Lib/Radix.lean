import Mathlib.Data.Nat.Digits.Lemmas

/-! # Numerals in two bases

A digit string stands for a number, most significant digit first, and its leading zeros stand for themselves.
`convert` rewrites the number in another base and keeps the zeros, so that it loses nothing: converting back
gives the string (`convert_convert`). `mulAdd` is the step of the usual converter: one digit of the old base
more, on the digits of the new one held lowest first. -/

namespace Kmatrix.Lib.Radix

/-- How many zeros a digit string starts with. -/
def leading (l : List ℕ) : ℕ := (l.takeWhile fun d => d = 0).length

/-- The number a digit string stands for. -/
def value (a : ℕ) (l : List ℕ) : ℕ := Nat.ofDigits a l.reverse

/-- A number's digits, without leading zeros. -/
def numeral (b n : ℕ) : List ℕ := (Nat.digits b n).reverse

def convert (a b : ℕ) (l : List ℕ) : List ℕ :=
  List.replicate (leading l) 0 ++ numeral b (value a l)

variable {a b : ℕ}

/-! ## Zeros in front -/

theorem leading_replicate_append (k : ℕ) (l : List ℕ) :
    leading (List.replicate k 0 ++ l) = k + leading l := by
  induction k with
  | zero => simp
  | succ k ih =>
    have h : leading (0 :: (List.replicate k 0 ++ l)) = leading (List.replicate k 0 ++ l) + 1 := by
      simp [leading]
    rw [List.replicate_succ, List.cons_append, h, ih]
    omega

theorem value_replicate_append (k : ℕ) (l : List ℕ) :
    value a (List.replicate k 0 ++ l) = value a l := by
  rw [value, List.reverse_append, List.reverse_replicate, Nat.ofDigits_append_replicate_zero, value]

/-- A string is its leading zeros and a rest that does not start with one. -/
theorem exists_rest (l : List ℕ) :
    ∃ rest, l = List.replicate (leading l) 0 ++ rest ∧ ∀ h : rest ≠ [], rest.head h ≠ 0 := by
  refine ⟨l.dropWhile fun d => d = 0, ?_, fun h => ?_⟩
  · have hzero : l.takeWhile (fun d => d = 0) = List.replicate (leading l) 0 :=
      List.eq_replicate_of_mem fun d hd => by simpa using List.all_eq_true.1 List.all_takeWhile d hd
    rw [← hzero, List.takeWhile_append_dropWhile]
  · simpa using List.head_dropWhile_not (fun d => decide (d = 0)) h

theorem leading_numeral (b n : ℕ) : leading (numeral b n) = 0 := by
  rcases Nat.eq_zero_or_pos n with rfl | hn
  · simp [numeral, leading]
  · have hne : Nat.digits b n ≠ [] := Nat.digits_ne_nil_iff_ne_zero.2 hn.ne'
    have hlast := Nat.getLast_digit_ne_zero b hn.ne'
    rw [← List.head_reverse (List.reverse_ne_nil_iff.2 hne)] at hlast
    obtain ⟨d, l, hl⟩ := List.exists_cons_of_ne_nil (List.reverse_ne_nil_iff.2 hne)
    simp only [hl, List.head_cons] at hlast
    simp [numeral, leading, hl, hlast]

/-! ## There and back -/

theorem numeral_lt (hb : 1 < b) {n d : ℕ} (hd : d ∈ numeral b n) : d < b :=
  Nat.digits_lt_base hb (List.mem_reverse.1 hd)

theorem convert_lt (hb : 1 < b) {l : List ℕ} {d : ℕ} (hd : d ∈ convert a b l) : d < b := by
  rcases List.mem_append.1 hd with h | h
  · rw [List.eq_of_mem_replicate h]
    omega
  · exact numeral_lt hb h

theorem value_numeral (b n : ℕ) : value b (numeral b n) = n := by
  rw [value, numeral, List.reverse_reverse, Nat.ofDigits_digits]

/-- The leading zeros and the number make up the string. -/
theorem replicate_numeral_value (ha : 1 < a) {l : List ℕ} (hl : ∀ d ∈ l, d < a) :
    List.replicate (leading l) 0 ++ numeral a (value a l) = l := by
  obtain ⟨rest, hrest, hhead⟩ := exists_rest l
  have hlt : ∀ d ∈ rest.reverse, d < a := fun d hd =>
    hl d (by rw [hrest]; exact List.mem_append_right _ (List.mem_reverse.1 hd))
  have hlast : ∀ h : rest.reverse ≠ [], rest.reverse.getLast h ≠ 0 := by
    intro h
    rw [List.getLast_reverse]
    exact hhead _
  have hvalue : value a l = value a rest := by
    rw [hrest, value_replicate_append]
  calc List.replicate (leading l) 0 ++ numeral a (value a l)
      = List.replicate (leading l) 0 ++ rest := by
        rw [hvalue, numeral, value, Nat.digits_ofDigits a ha _ hlt hlast, List.reverse_reverse]
    _ = l := hrest.symm

theorem leading_convert (a b : ℕ) (l : List ℕ) : leading (convert a b l) = leading l := by
  rw [convert, leading_replicate_append, leading_numeral, Nat.add_zero]

theorem value_convert (a b : ℕ) (l : List ℕ) : value b (convert a b l) = value a l := by
  rw [convert, value_replicate_append, value_numeral]

/-- **A conversion can be undone.** -/
theorem convert_convert (ha : 1 < a) {l : List ℕ} (hl : ∀ d ∈ l, d < a) :
    convert b a (convert a b l) = l := by
  rw [convert, leading_convert, value_convert, replicate_numeral_value ha hl]

/-! ## Digit by digit -/

/-- One digit more, to digits held lowest first: each times `a` plus the carry. -/
def mulAdd (a b : ℕ) : ℕ → List ℕ → List ℕ
  | carry, [] => Nat.digits b carry
  | carry, d :: l => (d * a + carry) % b :: mulAdd a b ((d * a + carry) / b) l

theorem mulAdd_digits (ha : 0 < a) (hb : 1 < b) (n carry : ℕ) :
    mulAdd a b carry (Nat.digits b n) = Nat.digits b (n * a + carry) := by
  induction n using Nat.strong_induction_on generalizing carry with
  | _ n ih =>
    rcases Nat.eq_zero_or_pos n with rfl | hn
    · simp [mulAdd]
    · have hpos : 0 < n * a + carry := Nat.add_pos_left (Nat.mul_pos hn ha) _
      have hsplit : n * a + carry = n % b * a + carry + b * (n / b * a) := by
        have h := congrArg (· * a) (Nat.mod_add_div n b)
        simp only [Nat.add_mul, Nat.mul_assoc] at h
        omega
      have hmod : (n * a + carry) % b = (n % b * a + carry) % b := by
        rw [hsplit, Nat.add_mul_mod_self_left]
      have hdiv : (n * a + carry) / b = n / b * a + (n % b * a + carry) / b := by
        rw [hsplit, Nat.add_mul_div_left _ _ (by omega), Nat.add_comm]
      rw [Nat.digits_def' hb hn, mulAdd, ih (n / b) (Nat.div_lt_self hn hb), Nat.digits_def' hb hpos, hmod,
        hdiv]

theorem foldl_mulAdd (ha : 0 < a) (hb : 1 < b) (l : List ℕ) :
    l.foldl (fun out d => mulAdd a b d out) [] = Nat.digits b (value a l) := by
  induction l using List.reverseRecOn with
  | nil => simp [value]
  | append_singleton l d ih =>
    have hvalue : value a (l ++ [d]) = value a l * a + d := by
      rw [value, List.reverse_append, List.reverse_singleton, List.singleton_append, Nat.ofDigits_cons, value,
        Nat.mul_comm, Nat.add_comm]
    rw [List.foldl_append, List.foldl_cons, List.foldl_nil, ih, mulAdd_digits ha hb, hvalue]

/-- The converter's result, turned around and with the zeros put back. -/
theorem reverse_foldl_mulAdd (ha : 0 < a) (hb : 1 < b) (l : List ℕ) :
    (l.foldl (fun out d => mulAdd a b d out) [] ++ List.replicate (leading l) 0).reverse = convert a b l := by
  rw [foldl_mulAdd ha hb, List.reverse_append, List.reverse_replicate, convert, numeral]

end Kmatrix.Lib.Radix
