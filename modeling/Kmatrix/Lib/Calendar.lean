import Mathlib.Algebra.BigOperators.Intervals
import Mathlib.Algebra.Order.BigOperators.Group.Finset
import Mathlib.Data.Prod.Lex
import Mathlib.Tactic.IntervalCases
import Mathlib.Tactic.Linarith
import Mathlib.Tactic.Ring

/-! # The proleptic Gregorian calendar

Years are integers, and the one before year 1 is year 0. Days are counted from the first of January 1970,
by adding up the lengths of the years and months that lie between (`daysTo`); nothing is assumed but the
leap-year rule and the lengths of the twelve months.

* `daysToYear_eq`: the count of the years in closed form, by induction in both directions.
* `daysTo_eq_marchBased`: the count from eras of 400 years that begin in March, whose months need no
  table.
* `DateTime`: a date and a time of day that exist, ordered by year, month, day, hour, minute and second.
  `epochSeconds_lt`: the seconds since 1970 are ordered in the same way. -/

namespace Kmatrix.Lib.Calendar

/-! ### Lengths -/

def IsLeap (y : ℤ) : Prop := 4 ∣ y ∧ (¬ 100 ∣ y ∨ 400 ∣ y)

instance : DecidablePred IsLeap := fun y => inferInstanceAs (Decidable (4 ∣ y ∧ (¬ 100 ∣ y ∨ 400 ∣ y)))

def yearLength (y : ℤ) : ℕ := if IsLeap y then 366 else 365

def monthLength (y : ℤ) : ℕ → ℕ
  | 2 => if IsLeap y then 29 else 28
  | 4 | 6 | 9 | 11 => 30
  | _ => 31

theorem yearLength_le (y : ℤ) : yearLength y ≤ 366 := by
  unfold yearLength
  split_ifs <;> omega

theorem monthLength_le (y : ℤ) (m : ℕ) : monthLength y m ≤ 31 := by
  unfold monthLength
  split
  · split_ifs <;> omega
  all_goals omega

/-! ### Counting days -/

/-- The days from the beginning of 1970 to that of `y`. -/
def daysToYear (y : ℤ) : ℤ :=
  ∑ i ∈ Finset.range (y - 1970).toNat, (yearLength (1970 + i) : ℤ) -
    ∑ i ∈ Finset.range (1970 - y).toNat, (yearLength (y + i) : ℤ)

/-- The days from the beginning of the year to that of the month. -/
def daysToMonth (y : ℤ) (m : ℕ) : ℕ := ∑ i ∈ Finset.range (m - 1), monthLength y (i + 1)

/-- **The number of a day**, of which the first of January 1970 has number 0. -/
def daysTo (y : ℤ) (m : ℕ) (d : ℤ) : ℤ := daysToYear y + daysToMonth y m + (d - 1)

theorem daysToYear_1970 : daysToYear 1970 = 0 := by simp [daysToYear]

theorem daysToYear_succ (y : ℤ) : daysToYear (y + 1) = daysToYear y + yearLength y := by
  unfold daysToYear
  rcases le_or_gt 1970 y with h | h
  · have hup : (y + 1 - 1970).toNat = (y - 1970).toNat + 1 := by omega
    have hlast : (1970 + ((y - 1970).toNat : ℤ)) = y := by omega
    have hdown : (1970 - y).toNat = 0 := by omega
    have hdown' : (1970 - (y + 1)).toNat = 0 := by omega
    rw [hup, Finset.sum_range_succ, hlast, hdown, hdown']
    simp
  · have hdown : (1970 - y).toNat = (1970 - (y + 1)).toNat + 1 := by omega
    have hup : (y - 1970).toNat = 0 := by omega
    have hup' : (y + 1 - 1970).toNat = 0 := by omega
    have hnext : ∀ i : ℕ, y + ((i + 1 : ℕ) : ℤ) = y + 1 + i := fun i => by omega
    rw [hup, hup', hdown, Finset.sum_range_succ']
    simp only [hnext, Nat.cast_zero, add_zero]
    ring

/-- The leap days before the end of `y`, counted from year 1. -/
def leapsTo (y : ℤ) : ℤ := y / 4 - y / 100 + y / 400

theorem yearLength_eq (y : ℤ) : (yearLength y : ℤ) = 365 + (leapsTo y - leapsTo (y - 1)) := by
  unfold yearLength leapsTo
  by_cases h : IsLeap y
  · rw [if_pos h]
    unfold IsLeap at h
    omega
  · rw [if_neg h]
    unfold IsLeap at h
    omega

/-- **The years in closed form.** -/
theorem daysToYear_eq (y : ℤ) : daysToYear y = 365 * (y - 1970) + leapsTo (y - 1) - 477 := by
  induction y using Int.inductionOn' (b := 1970) with
  | zero => rw [daysToYear_1970]; decide
  | succ k _ ih =>
    rw [daysToYear_succ, yearLength_eq, ih, add_sub_cancel_right]
    ring
  | pred k _ ih =>
    have hstep := daysToYear_succ (k - 1)
    rw [sub_add_cancel, yearLength_eq, ih] at hstep
    linarith

theorem daysToMonth_succ (y : ℤ) {m : ℕ} (h : 1 ≤ m) :
    daysToMonth y (m + 1) = daysToMonth y m + monthLength y m := by
  obtain ⟨k, rfl⟩ := Nat.exists_eq_add_of_le' h
  exact Finset.sum_range_succ _ _

/-! ### Years that begin in March -/

/-- The days from the first of March to the first of a month, of which March is number 0. -/
def daysFromMarch (mp : ℕ) : ℕ := (153 * mp + 2) / 5

/-- **The number of a day, counted from eras of 400 years that begin in March.** -/
def marchBased (y : ℤ) (m : ℕ) (d : ℤ) : ℤ :=
  let y := if m ≤ 2 then y - 1 else y
  let yoe := y % 400
  y / 400 * 146097 + (yoe * 365 + yoe / 4 - yoe / 100 + (daysFromMarch ((m + 9) % 12) + d - 1)) - 719468

/-- The days of whole eras and of the years of the last one. -/
theorem era_eq (y : ℤ) :
    y / 400 * 146097 + (y % 400 * 365 + y % 400 / 4 - y % 400 / 100) = 365 * y + leapsTo y := by
  unfold leapsTo
  omega

/-- January and February are the end of a year that begins in March. -/
theorem daysToMonth_of_le (y : ℤ) {m : ℕ} (hm : 1 ≤ m) (hm' : m ≤ 2) :
    daysToMonth y m + 306 = daysFromMarch ((m + 9) % 12) := by
  obtain rfl | rfl : m = 1 ∨ m = 2 := by omega
  · rfl
  · rfl

/-- From March on the lengths repeat every five months, which is what the fifths count. -/
theorem daysFromMarch_succ (y : ℤ) {m : ℕ} (hm : 3 ≤ m) (hm' : m < 12) :
    daysFromMarch ((m + 1 + 9) % 12) = daysFromMarch ((m + 9) % 12) + monthLength y m := by
  interval_cases m <;> rfl

theorem daysToMonth_of_gt (y : ℤ) {m : ℕ} (hm : 3 ≤ m) (hm' : m ≤ 12) :
    daysToMonth y m + 365 = daysFromMarch ((m + 9) % 12) + 59 + yearLength y := by
  induction m, hm using Nat.le_induction with
  | base =>
    rw [daysToMonth_succ y (by decide : 1 ≤ 2), daysToMonth_succ y le_rfl]
    simp only [daysToMonth, monthLength, yearLength, Nat.sub_self, Finset.range_zero, Finset.sum_empty]
    split_ifs <;> rfl
  | succ m hm ih =>
    have hprev := ih (by omega)
    rw [daysToMonth_succ y (by omega), daysFromMarch_succ y hm (by omega)]
    omega

/-- **Both counts give the same number.** -/
theorem daysTo_eq_marchBased (y : ℤ) {m : ℕ} (hm : 1 ≤ m) (hm' : m ≤ 12) (d : ℤ) :
    daysTo y m d = marchBased y m d := by
  unfold daysTo marchBased
  rw [daysToYear_eq]
  dsimp only
  by_cases h : m ≤ 2
  · have hera := era_eq (y - 1)
    have hmonth := daysToMonth_of_le y hm h
    rw [if_pos h]
    omega
  · have hera := era_eq y
    have hmonth := daysToMonth_of_gt y (by omega) hm'
    have hyear := yearLength_eq y
    rw [if_neg h]
    omega

/-! ### Dates and times of day -/

/-- **A date and a time of day that exist.** -/
@[ext] structure DateTime where
  year : ℤ
  month : ℕ
  day : ℕ
  hour : ℕ
  min : ℕ
  sec : ℕ
  month_mem : 1 ≤ month ∧ month ≤ 12
  day_mem : 1 ≤ day ∧ day ≤ monthLength year month
  hour_lt : hour < 24
  min_lt : min < 60
  sec_lt : sec < 60

namespace DateTime

/-- The days since 1970 and what has passed of the last one, in seconds. -/
def epochSeconds (t : DateTime) : ℤ :=
  86400 * daysTo t.year t.month t.day + 3600 * t.hour + 60 * t.min + t.sec

/-- By year, month, day, hour, minute and second. -/
def key (t : DateTime) : ℤ ×ₗ ℕ ×ₗ ℕ ×ₗ ℕ ×ₗ ℕ ×ₗ ℕ :=
  toLex (t.year, toLex (t.month, toLex (t.day, toLex (t.hour, toLex (t.min, t.sec)))))

instance : LT DateTime := ⟨fun a b => a.key < b.key⟩

theorem lt_iff {a b : DateTime} : a < b ↔ a.year < b.year ∨ a.year = b.year ∧ (a.month < b.month ∨
    a.month = b.month ∧ (a.day < b.day ∨ a.day = b.day ∧ (a.hour < b.hour ∨ a.hour = b.hour ∧
      (a.min < b.min ∨ a.min = b.min ∧ a.sec < b.sec)))) := by
  show a.key < b.key ↔ _
  simp only [key, Prod.Lex.toLex_lt_toLex]

end DateTime

/-- A year is over before a later one begins. -/
theorem daysToYear_le {y y' : ℤ} (h : y < y') : daysToYear y + yearLength y ≤ daysToYear y' := by
  rw [← daysToYear_succ]
  induction y', h using Int.leInduction with
  | base => exact le_rfl
  | succ k _ ih =>
    rw [daysToYear_succ k]
    omega

/-- A month is over before a later one begins. -/
theorem daysToMonth_le (y : ℤ) {m m' : ℕ} (hm : 1 ≤ m) (h : m < m') :
    daysToMonth y m + monthLength y m ≤ daysToMonth y m' := by
  rw [← daysToMonth_succ y hm]
  exact Finset.sum_le_sum_of_subset (Finset.range_mono (by omega))

/-- The twelve months are the year. -/
theorem daysToMonth_thirteen (y : ℤ) : daysToMonth y 13 = yearLength y := by
  have hlast : daysToMonth y 13 = daysToMonth y 12 + monthLength y 12 := daysToMonth_succ y (by decide)
  have hmonth := daysToMonth_of_gt y (m := 12) (by decide) le_rfl
  simp only [monthLength, daysFromMarch] at hlast hmonth
  omega

/-- A day lies in its year. -/
theorem day_lt_year {y : ℤ} {m d : ℕ} (hm : 1 ≤ m) (hm' : m ≤ 12) (hd : d ≤ monthLength y m) :
    daysToMonth y m + d ≤ yearLength y := by
  have hle := daysToMonth_le y hm (by omega : m < 13)
  rw [daysToMonth_thirteen] at hle
  omega

namespace DateTime

/-- **A later day has a greater number.** -/
theorem daysTo_lt {a b : DateTime} (h : a.year < b.year ∨ a.year = b.year ∧ (a.month < b.month ∨
    a.month = b.month ∧ a.day < b.day)) :
    daysTo a.year a.month a.day < daysTo b.year b.month b.day := by
  have hday := a.day_mem
  have hday' := b.day_mem
  unfold daysTo
  rcases h with hyear | ⟨hyear, hmonth | ⟨hmonth, hlt⟩⟩
  · have hover := daysToYear_le hyear
    have hin := day_lt_year a.month_mem.1 a.month_mem.2 hday.2
    omega
  · have hover := daysToMonth_le a.year a.month_mem.1 hmonth
    rw [← hyear]
    omega
  · rw [← hyear, ← hmonth]
    omega

/-- A time lies in its year. -/
theorem epochSeconds_mem (t : DateTime) : 86400 * daysToYear t.year ≤ t.epochSeconds ∧
    t.epochSeconds < 86400 * (daysToYear t.year + yearLength t.year) := by
  have hday := t.day_mem
  have hin := day_lt_year t.month_mem.1 t.month_mem.2 hday.2
  have hhour := t.hour_lt
  have hmin := t.min_lt
  have hsec := t.sec_lt
  unfold epochSeconds daysTo
  omega

/-- **The seconds are ordered as the dates are.** -/
theorem epochSeconds_lt {a b : DateTime} (h : a < b) : a.epochSeconds < b.epochSeconds := by
  have hhour := a.hour_lt
  have hmin := a.min_lt
  have hmin' := b.min_lt
  have hsec := a.sec_lt
  have hlater := @daysTo_lt a b
  unfold epochSeconds
  rcases lt_iff.mp h with hyear | ⟨hyear, hmonth | ⟨hmonth, hday | ⟨hday, htime⟩⟩⟩
  · have := hlater (.inl hyear)
    omega
  · have := hlater (.inr ⟨hyear, .inl hmonth⟩)
    omega
  · have := hlater (.inr ⟨hyear, .inr ⟨hmonth, hday⟩⟩)
    omega
  · rw [hyear, hmonth, hday]
    omega

end DateTime

end Kmatrix.Lib.Calendar
