import Kmatrix.Lib.Calendar
import Kmatrix.Lib.Checked
import Kmatrix.Lib.Text
import Kmatrix.Storage.Schema

/-! # The Date header

The skew of the clock is measured against the `Date` header of a response. `parse_http_date_ms` cuts the text
into six numbers (`dateFields`) and counts the days in eras that begin in March (`civilMs`), all in `i64` and
without a look at the numbers; `Result` has an overflow wherever an operation of the code has one.

* `date_value`: the text of a date and time that exist, in any year of at most eight digits, comes to the
  milliseconds since 1970, and a later one to more of them.
* `Sound` is what should hold of whatever a server sends. `sound_iff`: it holds of the headers that name a
  date and time that exist, whose value fits and whose distance to the clock does, and of those that are not
  read as numbers at all. Neither a day that does not exist nor a year that is too large is turned down. -/

namespace Kmatrix.Api.Date

open Kmatrix.Lib Kmatrix.Lib.Calendar Kmatrix.Lib.Checked Kmatrix.Lib.Text
open Kmatrix.Storage.Schema (asI64)

/-! ### The code -/

def months : List String :=
  ["Jan", "Feb", "Mar", "Apr", "May", "Jun", "Jul", "Aug", "Sep", "Oct", "Nov", "Dec"]

/-- `str::parse::<i64>`. -/
def parseI64 (l : List Char) : Option ℤ := (intValue l).filter fun n => Fits 64 n

/-- The numbers a header is read as. -/
structure Fields where
  day : ℤ
  month : ℤ
  year : ℤ
  hour : ℤ
  min : ℤ
  sec : ℤ
  deriving DecidableEq

/-- `parse_http_date_ms` up to the numbers. -/
def dateFields (s : String) : Option Fields := do
  let rest := (← splitOnce ", ".toList s.toList).2
  let parts := rest.splitOn ' '
  let day ← parseI64 (← parts[0]?)
  let monthName ← parts[1]?
  let year ← parseI64 (← parts[2]?)
  let time ← parts[3]?
  let month := ((← months.findIdx? fun m => m.toList = monthName) : ℤ) + 1
  let hms := time.splitOn ':'
  let hour ← parseI64 (← hms[0]?)
  let min ← parseI64 (← hms[1]?)
  let sec ← parseI64 (← hms[2]?)
  return { day, month, year, hour, min, sec }

/-- An operation on `i64`. -/
def i64 (x : ℤ) : Result ℤ := exact 64 x

/-- The year that begins in March. -/
def marchYear (f : Fields) : Result ℤ := if f.month ≤ 2 then i64 (f.year - 1) else pure f.year

def eraOf (y : ℤ) : Result ℤ := do
  let shifted ← if 0 ≤ y then pure y else i64 (y - 399)
  return shifted.tdiv 400

/-- `parse_http_date_ms` from the numbers on. -/
def civilMs (f : Fields) : Result ℤ := do
  let y ← marchYear f
  let era ← eraOf y
  let yoe ← i64 (y - (← i64 (era * 400)))
  let mp := (← i64 (f.month + 9)).tmod 12
  let doy ← i64 ((← i64 ((← i64 ((← i64 (153 * mp)) + 2)).tdiv 5 + f.day)) - 1)
  let doe ← i64 ((← i64 ((← i64 ((← i64 (yoe * 365)) + yoe.tdiv 4)) - yoe.tdiv 100)) + doy)
  let days ← i64 ((← i64 ((← i64 (era * 146097)) + doe)) - 719468)
  let seconds ← i64 ((← i64 ((← i64 ((← i64 (days * 86400)) + (← i64 (f.hour * 3600)))) +
    (← i64 (f.min * 60)))) + f.sec)
  i64 (seconds * 1000)

def parseHttpDateMs (s : String) : Result (Option ℤ) :=
  match dateFields s with
  | none => .ok none
  | some f => some <$> civilMs f

/-- The skew that `note_server_time` leaves: the clock `nowMs` less what the header says, where there is one
that can be read. -/
def noteServerTime (nowMs : ℕ) (date : Option String) (clockSkewMs : ℤ) : Result ℤ :=
  match date with
  | none => .ok clockSkewMs
  | some date => do
    match ← parseHttpDateMs date with
    | none => return clockSkewMs
    | some serverMs => i64 (asI64 nowMs - serverMs)

/-! ### The text of a date -/

def monthName : ℕ → String
  | 1 => "Jan"
  | 2 => "Feb"
  | 3 => "Mar"
  | 4 => "Apr"
  | 5 => "May"
  | 6 => "Jun"
  | 7 => "Jul"
  | 8 => "Aug"
  | 9 => "Sep"
  | 10 => "Oct"
  | 11 => "Nov"
  | _ => "Dec"

def clock (t : DateTime) : List Char := [':'].intercalate [padded 2 t.hour, padded 2 t.min, padded 2 t.sec]

/-- Day, month, year, time of day and time zone; at least four digits for the year, and a sign for one before
year 0. -/
def dateParts (t : DateTime) : List (List Char) :=
  [padded 2 t.day, (monthName t.month).toList, signed 4 t.year, clock t, "GMT".toList]

/-- **IMF-fixdate**, `Sun, 06 Nov 1994 08:49:37 GMT`. -/
def fixdate (weekday : String) (t : DateTime) : String :=
  String.ofList (weekday.toList ++ (", ".toList ++ [' '].intercalate (dateParts t)))

/-- The numbers of a date and time. -/
def fieldsOf (t : DateTime) : Fields where
  day := t.day
  month := t.month
  year := t.year
  hour := t.hour
  min := t.min
  sec := t.sec

/-! ### Reading the text -/

theorem parseI64_of {l : List Char} {n : ℤ} (h : intValue l = some n) (hfits : Fits 64 n) :
    parseI64 l = some n := by
  unfold parseI64
  rw [h, Option.filter_some, if_pos (decide_eq_true hfits)]

theorem parseI64_padded {width n : ℕ} (h : n < 100) : parseI64 (padded width n) = some (n : ℤ) :=
  parseI64_of (intValue_padded width n) (fits_64.mpr (by omega))

theorem findIdx_monthName {m : ℕ} (hm : 1 ≤ m) (hm' : m ≤ 12) :
    months.findIdx? (fun name => name.toList = (monthName m).toList) = some (m - 1) := by
  interval_cases m <;> decide +kernel

theorem not_mem_padded {width n : ℕ} {c : Char} (h : c.isDigit = false) : c ∉ padded width n := fun hc => by
  rw [isDigit_of_mem_padded hc] at h
  cases h

theorem not_mem_clock {t : DateTime} {c : Char} (hdigit : c.isDigit = false) (hcolon : c ≠ ':') :
    c ∉ clock t := by
  intro h
  simp [clock, List.intercalate, not_mem_padded hdigit, hcolon] at h

/-- What stands between the blanks has none. -/
theorem blank_not_mem {t : DateTime} {part : List Char} (h : part ∈ dateParts t) : ' ' ∉ part := by
  have hname : ' ' ∉ (monthName t.month).toList := by
    unfold monthName
    split <;> decide
  have hyear : ' ' ∉ signed 4 t.year := fun h => by
    rcases mem_signed h with h | h <;> exact absurd h (by decide)
  simp only [dateParts, List.mem_cons, List.not_mem_nil, or_false] at h
  rcases h with rfl | rfl | rfl | rfl | rfl
  · exact not_mem_padded rfl
  · exact hname
  · exact hyear
  · exact not_mem_clock rfl (by decide)
  · decide

/-- **A date is read as its numbers.** -/
theorem dateFields_fixdate {weekday : String} {t : DateTime} (hweekday : ',' ∉ weekday.toList)
    (hyear : Fits 64 t.year) : dateFields (fixdate weekday t) = some (fieldsOf t) := by
  have hday := t.day_mem
  have hlength := monthLength_le t.year t.month
  have hhour := t.hour_lt
  have hmin := t.min_lt
  have hsec := t.sec_lt
  have hcut : splitOnce ", ".toList (fixdate weekday t).toList =
      some (weekday.toList, [' '].intercalate (dateParts t)) := by
    have htext : (fixdate weekday t).toList =
        weekday.toList ++ (", ".toList ++ [' '].intercalate (dateParts t)) := String.toList_ofList
    rw [htext]
    exact splitOnce_append hweekday
  have hparts : ([' '].intercalate (dateParts t)).splitOn ' ' = dateParts t :=
    List.splitOn_intercalate ' ' (fun _ h => blank_not_mem h) (List.cons_ne_nil _ _)
  have hcolon : ∀ l ∈ [padded 2 t.hour, padded 2 t.min, padded 2 t.sec], ':' ∉ l := by
    simp only [List.forall_mem_cons, List.not_mem_nil, false_implies, implies_true, and_true]
    exact ⟨not_mem_padded rfl, not_mem_padded rfl, not_mem_padded rfl⟩
  have hclock : (clock t).splitOn ':' = [padded 2 t.hour, padded 2 t.min, padded 2 t.sec] :=
    List.splitOn_intercalate ':' hcolon (List.cons_ne_nil _ _)
  have hmonth : ((t.month - 1 : ℕ) : ℤ) + 1 = t.month := by
    have := t.month_mem
    omega
  refine Option.bind_eq_some_iff.mpr ⟨_, hcut, ?_⟩
  dsimp only
  rw [hparts]
  refine Option.bind_eq_some_iff.mpr ⟨padded 2 t.day, rfl, ?_⟩
  refine Option.bind_eq_some_iff.mpr ⟨t.day, parseI64_padded (by omega), ?_⟩
  refine Option.bind_eq_some_iff.mpr ⟨(monthName t.month).toList, rfl, ?_⟩
  refine Option.bind_eq_some_iff.mpr ⟨signed 4 t.year, rfl, ?_⟩
  refine Option.bind_eq_some_iff.mpr ⟨t.year, parseI64_of (intValue_signed 4 t.year) hyear, ?_⟩
  refine Option.bind_eq_some_iff.mpr ⟨clock t, rfl, ?_⟩
  refine Option.bind_eq_some_iff.mpr ⟨t.month - 1, findIdx_monthName t.month_mem.1 t.month_mem.2, ?_⟩
  rw [hclock, hmonth]
  refine Option.bind_eq_some_iff.mpr ⟨padded 2 t.hour, rfl, ?_⟩
  refine Option.bind_eq_some_iff.mpr ⟨t.hour, parseI64_padded (by omega), ?_⟩
  refine Option.bind_eq_some_iff.mpr ⟨padded 2 t.min, rfl, ?_⟩
  refine Option.bind_eq_some_iff.mpr ⟨t.min, parseI64_padded (by omega), ?_⟩
  refine Option.bind_eq_some_iff.mpr ⟨padded 2 t.sec, rfl, ?_⟩
  exact Option.bind_eq_some_iff.mpr ⟨t.sec, parseI64_padded (by omega), rfl⟩

/-! ### The arithmetic -/

theorem marchYear_eq_ok {f : Fields} {y : ℤ} : marchYear f = .ok y ↔
    (f.month ≤ 2 → Fits 64 (f.year - 1)) ∧ y = if f.month ≤ 2 then f.year - 1 else f.year := by
  unfold marchYear
  split_ifs with h
  · exact exact_eq_ok.trans ⟨fun hy => ⟨fun _ => hy.1, hy.2.symm⟩, fun hy => ⟨hy.1 h, hy.2.symm⟩⟩
  · exact ⟨fun hy => ⟨fun hle => absurd hle h, (Except.ok.inj hy).symm⟩, fun hy => by rw [hy.2]; rfl⟩

/-- Division that truncates comes to the floor, below 0 because of what is taken off before. -/
theorem tdiv_era (y : ℤ) : (if 0 ≤ y then y else y - 399).tdiv 400 = y / 400 := by
  split_ifs with h
  · exact Int.tdiv_eq_ediv_of_nonneg h
  · have hneg : (y - 399).tdiv 400 = -((399 - y) / 400) := by
      rw [← Int.tdiv_eq_ediv_of_nonneg (by omega : 0 ≤ 399 - y), ← Int.neg_tdiv, neg_sub]
    omega

theorem eraOf_eq_ok {y e : ℤ} : eraOf y = .ok e ↔ (y < 0 → Fits 64 (y - 399)) ∧ e = y / 400 := by
  have hera := tdiv_era y
  unfold eraOf i64
  rw [← hera]
  split_ifs with h
  · exact ⟨fun he => ⟨fun hlt => absurd hlt (by omega), (Except.ok.inj he).symm⟩, fun he => by rw [he.2]; rfl⟩
  · refine exact_bind_eq_ok.trans ⟨fun he => ⟨fun _ => he.1, (Except.ok.inj he.2).symm⟩, fun he => ?_⟩
    exact ⟨he.1 (by omega), by rw [he.2]; rfl⟩

/-- A time that fits lies in a year not too far from 1970. -/
theorem year_bounds {t : DateTime} (h : Fits 64 (1000 * t.epochSeconds)) :
    -300000000 ≤ t.year ∧ t.year ≤ 300000000 := by
  obtain ⟨hlow, hhigh⟩ := t.epochSeconds_mem
  have hyear := yearLength_le t.year
  rw [fits_64] at h
  rw [daysToYear_eq] at hlow hhigh
  unfold leapsTo at hlow hhigh
  omega

/-- A year of at most eight digits fits. -/
theorem fits_of_year {t : DateTime} (h : t.year.natAbs ≤ 10 ^ 8) : Fits 64 (1000 * t.epochSeconds) := by
  obtain ⟨hlow, hhigh⟩ := t.epochSeconds_mem
  have hyear := yearLength_le t.year
  rw [fits_64]
  rw [daysToYear_eq] at hlow hhigh
  unfold leapsTo at hlow hhigh
  omega

/-- What the code divides from here on is never negative, so its division is the floor. -/
theorem tmod_month (m : ℕ) : ((m : ℤ) + 9).tmod 12 = (m + 9) % 12 := Int.tmod_eq_emod_of_nonneg (by omega)

theorem tdiv_fifths (m : ℕ) :
    (153 * (((m : ℤ) + 9) % 12) + 2).tdiv 5 = (153 * ((m + 9) % 12) + 2) / 5 :=
  Int.tdiv_eq_ediv_of_nonneg (by omega)

theorem tdiv_yoe {y e : ℤ} (he : e = y / 400) (k : ℤ) : (y - e * 400).tdiv k = (y - e * 400) / k :=
  Int.tdiv_eq_ediv_of_nonneg (by omega)

/-- What the chain comes to, with the era at hand. -/
theorem marchBased_eq {y e : ℤ} {t : DateTime} (hy : y = if (t.month : ℤ) ≤ 2 then t.year - 1 else t.year)
    (he : e = y / 400) : daysTo t.year t.month t.day =
      e * 146097 + ((y - e * 400) * 365 + (y - e * 400) / 4 - (y - e * 400) / 100 +
        ((153 * ((t.month + 9) % 12) + 2) / 5 + t.day - 1)) - 719468 := by
  have hyoe : y % 400 = y - e * 400 := by omega
  rw [daysTo_eq_marchBased t.year t.month_mem.1 t.month_mem.2]
  unfold marchBased daysFromMarch
  rw [← hyoe, he, hy]
  push_cast
  norm_cast

/-- Where nothing overflows, the arithmetic of a date that exists comes to its value. -/
theorem value_of_civilMs {t : DateTime} {v : ℤ} (h : civilMs (fieldsOf t) = .ok v) :
    Fits 64 v ∧ v = 1000 * t.epochSeconds := by
  obtain ⟨y, hy, h⟩ := bind_eq_ok.mp h
  obtain ⟨e, he, h⟩ := bind_eq_ok.mp h
  obtain ⟨-, hy⟩ := marchYear_eq_ok.mp hy
  obtain ⟨-, he⟩ := eraOf_eq_ok.mp he
  have hdays := marchBased_eq hy he
  simp only [i64, exact_bind_eq_ok, exact_eq_ok, fieldsOf, tmod_month, tdiv_fifths, tdiv_yoe he,
    ← hdays] at h
  obtain ⟨-, -, -, -, -, -, -, -, -, -, -, -, -, -, -, -, -, -, -, -, hfits, hv⟩ := h
  refine ⟨hv ▸ hfits, ?_⟩
  rw [← hv]
  unfold DateTime.epochSeconds
  ring

/-- And nothing overflows if the value fits: all that comes before is smaller. -/
theorem civilMs_of_fits {t : DateTime} (hfits : Fits 64 (1000 * t.epochSeconds)) :
    civilMs (fieldsOf t) = .ok (1000 * t.epochSeconds) := by
  obtain ⟨hlow, hhigh⟩ := year_bounds hfits
  obtain ⟨y, hy⟩ : ∃ y, y = if (t.month : ℤ) ≤ 2 then t.year - 1 else t.year := ⟨_, rfl⟩
  obtain ⟨e, he⟩ : ∃ e, e = y / 400 := ⟨_, rfl⟩
  have hybounds : -300000001 ≤ y ∧ y ≤ 300000000 := by
    rw [hy]
    split_ifs <;> omega
  have hdays := marchBased_eq hy he
  have hmonth := t.month_mem
  have hday := t.day_mem
  have hlength := monthLength_le t.year t.month
  have hhour := t.hour_lt
  have hmin := t.min_lt
  have hsec := t.sec_lt
  have hseconds : t.epochSeconds =
      86400 * daysTo t.year t.month t.day + 3600 * t.hour + 60 * t.min + t.sec := rfl
  refine bind_eq_ok.mpr ⟨y, marchYear_eq_ok.mpr ⟨fun _ => fits_64.mpr ?_, hy⟩, ?_⟩
  · show _ ≤ t.year - 1 ∧ t.year - 1 < _
    omega
  refine bind_eq_ok.mpr ⟨e, eraOf_eq_ok.mpr ⟨fun _ => fits_64.mpr (by omega), he⟩, ?_⟩
  simp only [i64, exact_bind_eq_ok, exact_eq_ok, fieldsOf, tmod_month, tdiv_fifths, tdiv_yoe he, ← hdays,
    fits_64] at hfits ⊢
  generalize daysTo t.year t.month t.day = D at *
  generalize t.epochSeconds = E at *
  and_intros <;> omega

/-- **The arithmetic of a date that exists** comes to its value, if that fits. -/
theorem civilMs_fields {t : DateTime} {v : ℤ} : civilMs (fieldsOf t) = .ok v ↔
    Fits 64 (1000 * t.epochSeconds) ∧ v = 1000 * t.epochSeconds := by
  constructor
  · intro h
    obtain ⟨hfits, rfl⟩ := value_of_civilMs h
    exact ⟨hfits, rfl⟩
  · rintro ⟨hfits, rfl⟩
    exact civilMs_of_fits hfits

theorem parse_fixdate {weekday : String} {t : DateTime} (hweekday : ',' ∉ weekday.toList)
    (hyear : t.year.natAbs ≤ 10 ^ 8) :
    parseHttpDateMs (fixdate weekday t) = .ok (some (1000 * t.epochSeconds)) := by
  have hfits : Fits 64 t.year := fits_64.mpr (by omega)
  have hvalue := civilMs_fields.mpr ⟨fits_of_year hyear, rfl⟩
  unfold parseHttpDateMs
  rw [dateFields_fixdate hweekday hfits]
  dsimp only
  rw [hvalue]
  rfl

/-- **The value of a date**, and the order of values. -/
theorem date_value {weekday weekday' : String} {t t' : DateTime} (hweekday : ',' ∉ weekday.toList)
    (hweekday' : ',' ∉ weekday'.toList) (hyear : t.year.natAbs ≤ 10 ^ 8) (hyear' : t'.year.natAbs ≤ 10 ^ 8) :
    parseHttpDateMs (fixdate weekday t) = .ok (some
      (1000 * (86400 * daysTo t.year t.month t.day + 3600 * t.hour + 60 * t.min + t.sec))) ∧
    (t < t' → ∀ v v', parseHttpDateMs (fixdate weekday t) = .ok (some v) →
      parseHttpDateMs (fixdate weekday' t') = .ok (some v') → v < v') := by
  have hvalue := parse_fixdate hweekday hyear
  have hvalue' := parse_fixdate hweekday' hyear'
  refine ⟨hvalue, fun hlt v v' hv hv' => ?_⟩
  have hlater := DateTime.epochSeconds_lt hlt
  rw [hvalue] at hv
  rw [hvalue'] at hv'
  cases hv
  cases hv'
  omega

/-- The last second of year 0, a leap year, and the first one after. -/
theorem date_value_yearZero :
    let t : DateTime := ⟨0, 12, 31, 23, 59, 59, by decide, by decide, by decide, by decide, by decide⟩
    let t' : DateTime := ⟨1, 1, 1, 0, 0, 0, by decide, by decide, by decide, by decide, by decide⟩
    parseHttpDateMs (fixdate "Sun" t) = .ok (some (1000 * (86400 * daysTo 0 12 31 + 3600 * 23 + 60 * 59 + 59))) ∧
    (t < t' → ∀ v v', parseHttpDateMs (fixdate "Sun" t) = .ok (some v) →
      parseHttpDateMs (fixdate "Mon" t') = .ok (some v') → v < v') :=
  date_value (by decide) (by decide) (by decide) (by decide)

example : parseHttpDateMs "Sun, 06 Nov 1994 08:49:37 GMT" = .ok (some 784111777000) := by decide +kernel

/-! ### Whatever a server sends -/

/-- **A header is dealt with**: no operation overflows, not even that on the clock, and what is returned is
the value of a date and time that the header names. -/
structure Sound (s : String) (nowMs : ℕ) : Prop where
  noOverflow : ∃ r, parseHttpDateMs s = .ok r
  exact : ∀ ms, parseHttpDateMs s = .ok (some ms) →
    ∃ t, dateFields s = some (fieldsOf t) ∧ ms = 1000 * t.epochSeconds
  skew : ∀ clockSkewMs, ∃ skew, noteServerTime nowMs (some s) clockSkewMs = .ok skew

theorem parse_of_none {s : String} (h : dateFields s = none) : parseHttpDateMs s = .ok none := by
  unfold parseHttpDateMs
  rw [h]

theorem parse_of_some {s : String} {f : Fields} (h : dateFields s = some f) :
    parseHttpDateMs s = some <$> civilMs f := by
  unfold parseHttpDateMs
  rw [h]

section Note
variable {s : String} {nowMs : ℕ} {clockSkewMs : ℤ}

theorem noteServerTime_some : noteServerTime nowMs (some s) clockSkewMs = (parseHttpDateMs s >>= fun
    | none => pure clockSkewMs
    | some serverMs => i64 (asI64 nowMs - serverMs)) := rfl

theorem noteServerTime_of_none (h : parseHttpDateMs s = .ok none) :
    noteServerTime nowMs (some s) clockSkewMs = .ok clockSkewMs := by
  rw [noteServerTime_some, h, ok_bind]
  rfl

theorem noteServerTime_of_some {ms : ℤ} (h : parseHttpDateMs s = .ok (some ms)) :
    noteServerTime nowMs (some s) clockSkewMs = i64 (asI64 nowMs - ms) := by
  rw [noteServerTime_some, h, ok_bind]

end Note

/-- **When a header is dealt with**: where it reads as numbers at all, they are those of a date and time that
exist, whose value fits, and so does its distance to the clock. -/
theorem sound_iff (s : String) (nowMs : ℕ) : Sound s nowMs ↔ ∀ f, dateFields s = some f → ∃ t : DateTime,
    f = fieldsOf t ∧ Fits 64 (1000 * t.epochSeconds) ∧ Fits 64 (asI64 nowMs - 1000 * t.epochSeconds) := by
  constructor
  · rintro ⟨⟨r, hr⟩, hexact, hskew⟩ f hf
    have hparse := parse_of_some hf
    rcases hms : civilMs f with e | ms
    · rw [hparse, hms] at hr
      cases hr
    · rw [hms] at hparse
      obtain ⟨t, ht, hvalue⟩ := hexact ms hparse
      obtain rfl : f = fieldsOf t := Option.some.inj (hf.symm.trans ht)
      obtain ⟨skew, hok⟩ := hskew 0
      rw [noteServerTime_of_some hparse, hvalue, i64] at hok
      exact ⟨t, rfl, (civilMs_fields.mp hms).1, (exact_eq_ok.mp hok).1⟩
  · intro h
    rcases hf : dateFields s with _ | f
    · have hparse := parse_of_none hf
      refine ⟨⟨none, hparse⟩, fun ms hms => ?_, fun clockSkewMs => ⟨_, noteServerTime_of_none hparse⟩⟩
      rw [hparse] at hms
      cases hms
    · obtain ⟨t, rfl, hfits, hskew⟩ := h f hf
      have hparse : parseHttpDateMs s = .ok (some (1000 * t.epochSeconds)) := by
        rw [parse_of_some hf, civilMs_fields.mpr ⟨hfits, rfl⟩]
        rfl
      refine ⟨⟨_, hparse⟩, fun ms hms => ⟨t, hf, ?_⟩, fun clockSkewMs =>
        ⟨_, (noteServerTime_of_some hparse).trans (exact_of_fits hskew)⟩⟩
      rw [hparse] at hms
      cases hms
      rfl

/-- A year that does not fit, and a day that does not exist. -/
theorem not_sound_header : ¬ Sound "Thu, 01 Jan 300000000 00:00:00 GMT" 0 ∧
    ¬ Sound "Sun, 32 Jan 1970 00:00:00 GMT" 0 := by
  constructor
  · rintro ⟨⟨r, hr⟩, -, -⟩
    have herror : parseHttpDateMs "Thu, 01 Jan 300000000 00:00:00 GMT" = .error .overflow := by decide +kernel
    rw [herror] at hr
    cases hr
  · rintro ⟨-, hexact, -⟩
    obtain ⟨t, ht, -⟩ := hexact 2678400000 (by decide +kernel)
    have hfields : dateFields "Sun, 32 Jan 1970 00:00:00 GMT" = some ⟨32, 1, 1970, 0, 0, 0⟩ := by decide +kernel
    have hday := t.day_mem
    have hlength := monthLength_le t.year t.month
    rw [hfields] at ht
    have hthirtyTwo : (32 : ℤ) = t.day := congrArg Fields.day (Option.some.inj ht)
    omega

end Kmatrix.Api.Date
