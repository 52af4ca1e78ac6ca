import Mathlib.Algebra.Group.Int.Defs
import Mathlib.Algebra.Group.Nat.Defs
import Moagan.Discovery.Numbering
import Moagan.Lib.Calendar
import Moagan.Lib.Decimal

/-!
# The dates of the archive (`src/telemetry/retention.rs`)

* `civilDate`, `formatDate`   the date of a time in Unix seconds, and its text
* `civilDate_within`          no step overflows, and the date is the one of the day in its year
* `archive_dates`             the dates are those of the calendar, one a day
-/

namespace Moagan.Retention
open Calendar

/-! ## the date of a time -/

/-- a result of `i64` arithmetic, nothing when it overflows -/
def i64 (x : ℤ) : Option ℤ := if -2 ^ 63 ≤ x ∧ x < 2 ^ 63 then some x else none

/-- a result of `u64` arithmetic -/
def u64 (x : ℤ) : Option ℕ := if 0 ≤ x ∧ x < 2 ^ 64 then some x.toNat else none

/-- the date of a day in a year from March on -/
def yearDate (y : ℤ) (doy : ℕ) : Option Date := do
  let five ← u64 (5 * doy : ℕ)
  let fivePlus ← u64 (five + 2 : ℕ)
  let mp := fivePlus / 153
  let months ← u64 (153 * mp : ℕ)
  let monthsPlus ← u64 (months + 2 : ℕ)
  let d ← u64 ((doy : ℤ) - (monthsPlus / 5 : ℕ))
  let d ← u64 (d + 1 : ℕ)
  let m ← (if mp < 10 then u64 (mp + 3 : ℕ) else u64 ((mp : ℤ) - (9 : ℕ)))
  let y ← (if m ≤ 2 then i64 (y + 1) else some y)
  some ⟨y, m, d⟩

/-- the date of the day `doe` of an era of 400 years -/
def eraDate (era : ℤ) (doe : ℕ) : Option Date := do
  let lessFour ← u64 ((doe : ℤ) - (doe / 1460 : ℕ))
  let plusHundred ← u64 (lessFour + doe / 36524 : ℕ)
  let lessEra ← u64 ((plusHundred : ℤ) - (doe / 146096 : ℕ))
  let yoe := lessEra / 365
  let eraYears ← i64 (era * 400)
  let y ← i64 (yoe + eraYears)
  let days ← u64 (365 * yoe : ℕ)
  let days ← u64 (days + yoe / 4 : ℕ)
  let days ← u64 ((days : ℤ) - (yoe / 100 : ℕ))
  let doy ← u64 ((doe : ℤ) - days)
  yearDate y doy

def civilDate (unixSecs : Int64) : Option Date := do
  let days ← i64 (unixSecs.toInt / 86400)
  let z ← i64 (days + 719468)
  let shifted ← (if z ≥ 0 then some z else i64 (z - 146096))
  let era := shifted.tdiv 146097
  let eraStart ← i64 (era * 146097)
  let rest ← i64 (z - eraStart)
  eraDate era (rest % 2 ^ 64).toNat

/-- `{:04}` of a number with a sign, which is part of the width -/
def yearText (y : ℤ) : String :=
  if y < 0 then "-" ++ Discovery.zeroPad 3 y.natAbs else Discovery.zeroPad 4 y.natAbs

def dateText (d : Date) : String :=
  yearText d.year ++ "-" ++ Discovery.zeroPad 2 d.month ++ "-" ++ Discovery.zeroPad 2 d.day

def formatDate (unixSecs : Int64) : Option String := (civilDate unixSecs).map dateText

example : formatDate 0 = some "1970-01-01" := by decide
example : formatDate (-1) = some "1969-12-31" := by decide

/-! ## the year of an era -/

theorem i64_of {x : ℤ} (hlow : -2 ^ 63 ≤ x) (hhigh : x < 2 ^ 63) : i64 x = some x :=
  if_pos ⟨hlow, hhigh⟩

theorem u64_cast {n : ℕ} (h : n < 2 ^ 64) : u64 (n : ℤ) = some n := by
  unfold u64
  rw [if_pos (by omega), Int.toNat_natCast]

theorem u64_sub {m n : ℕ} (hle : n ≤ m) (h : m < 2 ^ 64) : u64 ((m : ℤ) - (n : ℤ)) = some (m - n) := by
  rw [← Int.natCast_sub hle]
  exact u64_cast (by omega)

/-- a day of an era as centuries, blocks of four years, years and days -/
theorem era_split {doe : ℕ} (h : doe < 146096) : ∃ c k j r : ℕ,
    doe = 36524 * c + 1461 * k + 365 * j + r ∧ c ≤ 3 ∧ k ≤ 24 ∧ j ≤ 3 ∧
      (r ≤ 364 ∨ j = 3 ∧ r = 365 ∧ k ≤ 23) := by
  have hc : doe / 36524 ≤ 3 := by omega
  obtain ⟨s, hs⟩ : ∃ s, doe % 36524 = s := ⟨_, rfl⟩
  obtain ⟨u, hu⟩ : ∃ u, s % 1461 = u := ⟨_, rfl⟩
  refine ⟨doe / 36524, s / 1461, min (u / 365) 3, u - 365 * min (u / 365) 3, ?_⟩
  omega

def yearOfEra (doe : ℕ) : ℕ := (doe - doe / 1460 + doe / 36524 - doe / 146096) / 365

def dayOfYear (doe : ℕ) : ℕ :=
  doe - (365 * yearOfEra doe + yearOfEra doe / 4 - yearOfEra doe / 100)

/-- the year of a day -/
theorem yearOfEra_split {c k j r : ℕ} (hc : c ≤ 3) (hk : k ≤ 24) (hj : j ≤ 3)
    (hr : r ≤ 364 ∨ j = 3 ∧ r = 365 ∧ k ≤ 23) :
    yearOfEra (36524 * c + 1461 * k + 365 * j + r) = 100 * c + 4 * k + j := by
  obtain ⟨doe, hdoe⟩ : ∃ doe, 36524 * c + 1461 * k + 365 * j + r = doe := ⟨_, rfl⟩
  have hcentury : doe / 36524 = c := by omega
  have hera : doe / 146096 = 0 := by omega
  have hfour : doe / 1460 = 25 * c + k + (24 * c + k + 365 * j + r) / 1460 := by omega
  rw [hdoe, yearOfEra, hcentury, hera, hfour]
  omega

/-- **The day is in the year that has been found for it.** -/
theorem within_era {doe : ℕ} (h : doe < 146097) :
    yearOfEra doe ≤ 399 ∧ Within (yearOfEra doe) (dayOfYear doe) doe := by
  obtain rfl | hlt : doe = 146096 ∨ doe < 146096 := by omega
  · exact ⟨by decide, by decide, by decide, by decide⟩
  obtain ⟨c, k, j, r, rfl, hc, hk, hj, hr⟩ := era_split hlt
  have hy := yearOfEra_split hc hk hj hr
  have hstart : yearStart (100 * c + 4 * k + j : ℕ)
      = 36524 * c + 1461 * k + 365 * j := by
    unfold yearStart
    omega
  have hday : dayOfYear (36524 * c + 1461 * k + 365 * j + r) = r := by
    have hfour : (100 * c + 4 * k + j) / 4 = 25 * c + k := by omega
    have hcentury : (100 * c + 4 * k + j) / 100 = c := by omega
    rw [dayOfYear, hy, hfour, hcentury]
    omega
  rw [hy, hday]
  refine ⟨by omega, ?_, by omega, ?_⟩
  · rw [hstart]
    omega
  · obtain hr | ⟨rfl, rfl, hk⟩ := hr
    · have hle := (yearLength_le (100 * c + 4 * k + j : ℕ)).1
      omega
    · -- the last of four years, which is no century
      have hleap : isLeap ((100 * c + 4 * k + 3 : ℕ) + 1 : ℤ) = true := by
        rw [isLeap_iff]
        omega
      unfold yearLength
      rw [if_pos hleap]
      decide

/-- a step that does not overflow -/
theorem step {α β : Type} {x : Option α} {a : α} (h : x = some a) (f : α → Option β) :
    (x >>= f) = f a := by
  rw [h]
  rfl

theorem yearDate_eq {y : ℤ} (hlow : -2 ^ 62 ≤ y) (hhigh : y < 2 ^ 62) {doy : ℕ} (h : doy < 366) :
    yearDate y doy = some (ofDay y doy) := by
  have hmonth := inMonth h
  have hmp : (5 * doy + 2) / 153 = monthOf doy := rfl
  rw [hmonth.date]
  obtain ⟨mp, hm⟩ : ∃ mp, monthOf doy = mp := ⟨_, rfl⟩
  rw [hm] at hmonth hmp ⊢
  have hlower : (153 * mp + 2) / 5 ≤ doy := hmonth.lower
  have hlast := hmonth.last
  unfold yearDate
  rw [step (u64_cast (by omega)), step (u64_cast (by omega)), hmp, step (u64_cast (by omega)),
    step (u64_cast (by omega)), step (u64_sub hlower (by omega)), step (u64_cast (by omega))]
  by_cases hten : mp < 10
  · rw [if_pos hten, step (u64_cast (by omega)), if_neg (by omega), step rfl, if_pos hten,
      if_pos hten]
    rfl
  · rw [if_neg hten, step (u64_sub (by omega) (by omega)), if_pos (by omega),
      step (i64_of (by omega) (by omega)), if_neg hten, if_neg hten]
    rfl

/-- **No step overflows within an era.** -/
theorem eraDate_eq {era : ℤ} (hlow : -2 ^ 50 ≤ era) (hhigh : era ≤ 2 ^ 50) {doe : ℕ}
    (h : doe < 146097) : eraDate era doe
      = some (ofDay (yearOfEra doe + era * 400) (dayOfYear doe)) := by
  obtain ⟨hyoe, hwithin⟩ := within_era h
  have hlen := (yearLength_le (yearOfEra doe)).2
  have hupper := hwithin.upper
  have hstart := hwithin.eq
  have hyear : (doe - doe / 1460 + doe / 36524 - doe / 146096) / 365 = yearOfEra doe := rfl
  have hday : dayOfYear doe
      = doe - (365 * yearOfEra doe + yearOfEra doe / 4 - yearOfEra doe / 100) := rfl
  have hdoy : dayOfYear doe < 366 := by omega
  unfold yearStart at hstart
  unfold eraDate
  rw [step (u64_sub (by omega) (by omega)), step (u64_cast (by omega)),
    step (u64_sub (by omega) (by omega)), hyear]
  obtain ⟨yoe, hy⟩ : ∃ yoe, yearOfEra doe = yoe := ⟨_, rfl⟩
  rw [hy] at hyoe hstart hday ⊢
  rw [step (i64_of (by omega) (by omega)), step (i64_of (by omega) (by omega)),
    step (u64_cast (by omega)), step (u64_cast (by omega)), step (u64_sub (by omega) (by omega)),
    step (u64_sub (by omega) (by omega)), ← hday]
  exact yearDate_eq (by omega) (by omega) hdoy

/-- **No step overflows, and the date is the one of the day in its year.** -/
theorem civilDate_within (unixSecs : Int64) : ∃ (y : ℤ) (doy : ℕ),
    Within y doy (unixSecs.toInt / 86400 + 719468) ∧ civilDate unixSecs = some (ofDay y doy) := by
  have hlow := unixSecs.le_toInt
  have hhigh := unixSecs.toInt_lt
  obtain ⟨z, hz⟩ : ∃ z, unixSecs.toInt / 86400 + 719468 = z := ⟨_, rfl⟩
  have hera : ∃ shifted, (if z ≥ 0 then some z else i64 (z - 146096)) = some shifted ∧
      shifted.tdiv 146097 = z / 146097 := by
    by_cases hpos : z ≥ 0
    · exact ⟨z, if_pos hpos, Int.tdiv_eq_ediv_of_nonneg hpos⟩
    · refine ⟨z - 146096, ?_, ?_⟩
      · rw [if_neg hpos, i64_of (by omega) (by omega)]
      · -- division towards zero of what has been shifted down
        have hneg : (z - 146096).tdiv 146097 = -((146096 - z) / 146097) := by
          rw [← Int.neg_sub 146096 z, Int.neg_tdiv, Int.tdiv_eq_ediv_of_nonneg (by omega)]
        rw [hneg]
        omega
  obtain ⟨shifted, hshift, hera⟩ := hera
  have hdoe : ((z - z / 146097 * 146097) % 2 ^ 64).toNat < 146097 := by omega
  have hwithin := (within_era hdoe).2.era (z / 146097)
  refine ⟨yearOfEra ((z - z / 146097 * 146097) % 2 ^ 64).toNat + z / 146097 * 400,
    dayOfYear ((z - z / 146097 * 146097) % 2 ^ 64).toNat, ?_, ?_⟩
  · convert hwithin using 1
    omega
  · unfold civilDate
    rw [step (i64_of (by omega) (by omega)), hz, step (i64_of (by omega) (by omega)), step hshift,
      hera, step (i64_of (by omega) (by omega)), step (i64_of (by omega) (by omega))]
    exact eraDate_eq (by omega) (by omega) hdoe

/-! ## the text of a date -/

theorem zeroPad_chars (width n : ℕ) :
    (Discovery.zeroPad width n).toList = Decimal.padded width n := String.toList_ofList

theorem zeroPad_length {n : ℕ} (h : n < 100) : (Discovery.zeroPad 2 n).toList.length = 2 := by
  rw [zeroPad_chars]
  exact Decimal.padded_length h

theorem zeroPad_no_sign (width n : ℕ) : '-' ∉ (Discovery.zeroPad width n).toList := by
  rw [zeroPad_chars, Decimal.padded, List.mem_append]
  rintro (hzero | hdigit)
  · have heq := List.eq_of_mem_replicate hzero
    revert heq
    decide
  · have hisDigit := Nat.isDigit_of_mem_toDigits (by decide) (by decide) hdigit
    revert hisDigit
    decide

theorem yearText_inj {y y' : ℤ} (h : yearText y = yearText y') : y = y' := by
  have hsign : ∀ (n : ℕ) (z : ℤ), 0 ≤ z → "-" ++ Discovery.zeroPad 3 n ≠ yearText z := by
    intro n z hz heq
    rw [yearText, if_neg (by omega)] at heq
    refine zeroPad_no_sign 4 z.natAbs ?_
    rw [← heq, String.toList_append]
    exact List.mem_append_left _ (by decide)
  by_cases hneg : y < 0
  · by_cases hneg' : y' < 0
    · rw [yearText, yearText, if_pos hneg, if_pos hneg'] at h
      have habs := Discovery.zeroPad_inj ((String.append_right_inj "-").mp h)
      omega
    · rw [yearText, if_pos hneg] at h
      exact absurd h (hsign _ _ (by omega))
  · by_cases hneg' : y' < 0
    · rw [yearText.eq_1 y', if_pos hneg'] at h
      exact absurd h.symm (hsign _ _ (by omega))
    · rw [yearText, yearText, if_neg hneg, if_neg hneg'] at h
      have habs := Discovery.zeroPad_inj h
      omega

theorem dateText_inj {d d' : Date} (hd : d.Valid) (hd' : d'.Valid) (h : dateText d = dateText d') :
    d = d' := by
  have hday : ∀ {d : Date}, d.Valid → d.day < 100 := by
    intro d hd
    have hle : daysInMonth d.year d.month ≤ 31 := by
      unfold daysInMonth
      split_ifs
      all_goals decide
    have := hd.day.2
    omega
  have hmonth : ∀ {d : Date}, d.Valid → d.month < 100 := by
    intro d hd
    have := hd.month.2
    omega
  have hchars := congrArg String.toList h
  simp only [dateText, String.toList_append] at hchars
  obtain ⟨hchars, hdays⟩ := List.append_inj' hchars (by
    rw [zeroPad_length (hday hd), zeroPad_length (hday hd')])
  obtain ⟨hchars, _⟩ := List.append_inj' hchars rfl
  obtain ⟨hchars, hmonths⟩ := List.append_inj' hchars (by
    rw [zeroPad_length (hmonth hd), zeroPad_length (hmonth hd')])
  obtain ⟨hyears, _⟩ := List.append_inj' hchars rfl
  obtain ⟨y, m, day⟩ := d
  obtain ⟨y', m', day'⟩ := d'
  obtain rfl := yearText_inj (String.ext hyears)
  obtain rfl := Discovery.zeroPad_inj (String.ext hmonths)
  obtain rfl := Discovery.zeroPad_inj (String.ext hdays)
  rfl

/-! ## the calendar -/

theorem civilDate_next {t t' : Int64} (h : t'.toInt / 86400 = t.toInt / 86400 + 1) :
    civilDate t' = (civilDate t).map Date.next := by
  obtain ⟨y, doy, hwithin, hdate⟩ := civilDate_within t
  obtain ⟨y', doy', hwithin', hdate'⟩ := civilDate_within t'
  rw [h, show t.toInt / 86400 + 1 + 719468 = t.toInt / 86400 + 719468 + 1 by omega] at hwithin'
  rw [hdate, hdate', Option.map_some]
  by_cases hlast : (doy : ℤ) + 1 < yearLength y
  · obtain ⟨rfl, hdoy⟩ := within_unique hwithin' (hwithin.next hlast)
    obtain rfl : doy' = doy + 1 := by omega
    rw [next_ofDay hlast]
  · obtain ⟨rfl, hdoy⟩ := within_unique hwithin' (hwithin.nextYear hlast)
    obtain rfl : doy' = 0 := by omega
    have hupper := hwithin.upper
    rw [next_ofDay_last (by omega)]

theorem civilDate_inj {t t' : Int64} :
    civilDate t = civilDate t' ↔ t.toInt / 86400 = t'.toInt / 86400 := by
  obtain ⟨y, doy, hwithin, hdate⟩ := civilDate_within t
  obtain ⟨y', doy', hwithin', hdate'⟩ := civilDate_within t'
  rw [hdate, hdate', Option.some.injEq]
  constructor
  · intro heq
    obtain ⟨rfl, rfl⟩ := ofDay_inj hwithin.upper hwithin'.upper heq
    have := hwithin.eq
    have := hwithin'.eq
    omega
  · intro hday
    rw [← hday] at hwithin'
    obtain ⟨rfl, hdoy⟩ := within_unique hwithin hwithin'
    obtain rfl : doy = doy' := by omega
    rfl

/-- **The dates of the archive are those of the calendar.**  No step overflows, the day of the epoch
is the first of January 1970, the next day is the next date, and two times have one date iff they
are in one day. -/
theorem archive_dates :
    (∀ t : Int64, ∃ d : Date, civilDate t = some d ∧ formatDate t = some (dateText d) ∧ d.Valid) ∧
    (∀ t : Int64, t.toInt / 86400 = 0 → civilDate t = some ⟨1970, 1, 1⟩) ∧
    (∀ t t' : Int64, t'.toInt / 86400 = t.toInt / 86400 + 1 →
      civilDate t' = (civilDate t).map Date.next) ∧
    ∀ t t' : Int64, (civilDate t = civilDate t' ↔ t.toInt / 86400 = t'.toInt / 86400) ∧
      (formatDate t = formatDate t' ↔ t.toInt / 86400 = t'.toInt / 86400) := by
  refine ⟨fun t => ?_, fun t hday => ?_, fun t t' => civilDate_next, fun t t' => ⟨civilDate_inj, ?_⟩⟩
  · obtain ⟨y, doy, hwithin, hdate⟩ := civilDate_within t
    refine ⟨ofDay y doy, hdate, ?_, ofDay_valid hwithin.upper⟩
    rw [formatDate, hdate]
    rfl
  · have hzero : (0 : Int64).toInt / 86400 = 0 := by decide
    rw [civilDate_inj.mpr (hday.trans hzero.symm)]
    decide
  · rw [← civilDate_inj]
    obtain ⟨y, doy, hwithin, hdate⟩ := civilDate_within t
    obtain ⟨y', doy', hwithin', hdate'⟩ := civilDate_within t'
    rw [formatDate, formatDate, hdate, hdate', Option.map_some, Option.map_some, Option.some.injEq,
      Option.some.injEq]
    exact ⟨dateText_inj (ofDay_valid hwithin.upper) (ofDay_valid hwithin'.upper), congrArg dateText⟩

end Moagan.Retention
