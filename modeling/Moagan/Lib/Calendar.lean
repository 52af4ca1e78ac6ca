import Mathlib.Data.Int.Order.Basic
import Mathlib.Data.Nat.Notation

/-!
# The proleptic Gregorian calendar

* `Date`, `Date.Valid`, `Date.next`   a date, and the one behind it
* `yearStart`, `yearLength`           years from March on, so that the leap day is the last one
* `ofDay`                             the date of a day in such a year
* `next_ofDay`, `next_ofDay_last`     the next day is the next date
* `ofDay_inj`                         a date has one day
* `Within`, `within_unique`           a day is in one year
-/

namespace Calendar

structure Date where
  year : ℤ
  month : ℕ
  day : ℕ
deriving DecidableEq, Repr

def isLeap (year : ℤ) : Bool := year % 4 == 0 && (year % 100 != 0 || year % 400 == 0)

def daysInMonth (year : ℤ) (month : ℕ) : ℕ :=
  if month = 2 then if isLeap year then 29 else 28
  else if month = 4 ∨ month = 6 ∨ month = 9 ∨ month = 11 then 30 else 31

structure Date.Valid (d : Date) : Prop where
  month : 1 ≤ d.month ∧ d.month ≤ 12
  day : 1 ≤ d.day ∧ d.day ≤ daysInMonth d.year d.month

def Date.next (d : Date) : Date :=
  if d.day < daysInMonth d.year d.month then ⟨d.year, d.month, d.day + 1⟩
  else if d.month < 12 then ⟨d.year, d.month + 1, 1⟩
  else ⟨d.year + 1, 1, 1⟩

/-! ## years from March on -/

/-- the days before the first of March of a year -/
def yearStart (y : ℤ) : ℤ := 365 * y + y / 4 - y / 100 + y / 400

def yearLength (y : ℤ) : ℤ := if isLeap (y + 1) then 366 else 365

theorem isLeap_iff (y : ℤ) : isLeap y = true ↔ y % 4 = 0 ∧ (y % 100 ≠ 0 ∨ y % 400 = 0) := by
  simp [isLeap]

theorem yearStart_succ (y : ℤ) : yearStart (y + 1) = yearStart y + yearLength y := by
  unfold yearStart yearLength
  by_cases h : isLeap (y + 1) = true
  · rw [if_pos h]
    rw [isLeap_iff] at h
    omega
  · rw [if_neg h]
    rw [isLeap_iff] at h
    omega

theorem yearLength_le (y : ℤ) : 365 ≤ yearLength y ∧ yearLength y ≤ 366 := by
  unfold yearLength
  split
  all_goals omega

theorem yearStart_mono {y y' : ℤ} (h : y ≤ y') : yearStart y ≤ yearStart y' := by
  unfold yearStart
  omega

/-- an era of 400 years -/
theorem yearStart_era (y era : ℤ) : yearStart (y + era * 400) = yearStart y + era * 146097 := by
  unfold yearStart
  omega

theorem yearLength_era (y era : ℤ) : yearLength (y + era * 400) = yearLength y := by
  have hleap : isLeap (y + era * 400 + 1) = isLeap (y + 1) := by
    rw [Bool.eq_iff_iff, isLeap_iff, isLeap_iff]
    omega
  unfold yearLength
  rw [hleap]

/-- a day in a year -/
structure Within (y doy day : ℤ) : Prop where
  eq : day = yearStart y + doy
  lower : 0 ≤ doy
  upper : doy < yearLength y

/-- **A day is in one year.** -/
theorem within_unique {y y' doy doy' day : ℤ} (h : Within y doy day) (h' : Within y' doy' day) :
    y = y' ∧ doy = doy' := by
  have hnot : ∀ {y y' doy doy' : ℤ}, Within y doy day → Within y' doy' day → ¬ y < y' := by
    intro y y' doy doy' h h' hlt
    have hstart := yearStart_mono (show y + 1 ≤ y' from hlt)
    rw [yearStart_succ] at hstart
    have := h.eq
    have := h.upper
    have := h'.eq
    have := h'.lower
    omega
  have hy : y = y' := by
    have := hnot h h'
    have := hnot h' h
    omega
  subst hy
  have := h.eq
  have := h'.eq
  exact ⟨rfl, by omega⟩

theorem Within.era {y doy day : ℤ} (h : Within y doy day) (era : ℤ) :
    Within (y + era * 400) doy (day + era * 146097) := by
  obtain ⟨heq, hlower, hupper⟩ := h
  refine ⟨?_, hlower, ?_⟩
  · rw [yearStart_era]
    omega
  · rwa [yearLength_era]

theorem Within.next {y doy day : ℤ} (h : Within y doy day) (hlast : doy + 1 < yearLength y) :
    Within y (doy + 1) (day + 1) := by
  obtain ⟨heq, hlower, _⟩ := h
  exact ⟨by omega, by omega, hlast⟩

theorem Within.nextYear {y doy day : ℤ} (h : Within y doy day) (hlast : ¬ doy + 1 < yearLength y) :
    Within (y + 1) 0 (day + 1) := by
  obtain ⟨heq, _, hupper⟩ := h
  have hlen := yearLength_le (y + 1)
  refine ⟨?_, Int.le_refl 0, by omega⟩
  rw [yearStart_succ]
  omega

/-! ## the date of a day -/

/-- the month of a day, counted from March on -/
def monthOf (doy : ℕ) : ℕ := (5 * doy + 2) / 153

/-- the days before it -/
def monthStart (mp : ℕ) : ℕ := (153 * mp + 2) / 5

def ofDay (y : ℤ) (doy : ℕ) : Date :=
  let mp := monthOf doy
  let month := if mp < 10 then mp + 3 else mp - 9
  ⟨if month ≤ 2 then y + 1 else y, month, doy - monthStart mp + 1⟩

/-- a day of the month `mp` -/
structure InMonth (doy mp : ℕ) : Prop where
  last : mp ≤ 11
  lower : monthStart mp ≤ doy
  upper : doy < monthStart (mp + 1)

theorem inMonth {doy : ℕ} (h : doy < 366) : InMonth doy (monthOf doy) := by
  unfold monthOf
  refine ⟨by omega, ?_, ?_⟩
  all_goals
    unfold monthStart
    omega

theorem InMonth.eq {doy mp : ℕ} (h : InMonth doy mp) : monthOf doy = mp := by
  obtain ⟨hlast, hlower, hupper⟩ := h
  unfold monthStart at hlower hupper
  unfold monthOf
  omega

/-- the months have their lengths -/
theorem month_length (y : ℤ) {mp : ℕ} (h : mp < 11) :
    daysInMonth (if mp < 10 then y else y + 1) (if mp < 10 then mp + 3 else mp - 9)
      = monthStart (mp + 1) - monthStart mp := by
  have hcases : mp = 0 ∨ mp = 1 ∨ mp = 2 ∨ mp = 3 ∨ mp = 4 ∨ mp = 5 ∨ mp = 6 ∨ mp = 7 ∨ mp = 8 ∨
      mp = 9 ∨ mp = 10 := by omega
  obtain rfl | rfl | rfl | rfl | rfl | rfl | rfl | rfl | rfl | rfl | rfl := hcases
  all_goals rfl

/-- the last one has what is left of the year -/
theorem last_length (y : ℤ) : (daysInMonth (y + 1) 2 : ℤ) = yearLength y - monthStart 11 := by
  have hstart : monthStart 11 = 337 := rfl
  unfold daysInMonth yearLength
  rw [if_pos rfl, hstart]
  split
  all_goals rfl

section
variable {doy mp : ℕ} {y : ℤ}

theorem InMonth.date (h : InMonth doy mp) (y : ℤ) : ofDay y doy = ⟨if mp < 10 then y else y + 1,
    if mp < 10 then mp + 3 else mp - 9, doy - monthStart mp + 1⟩ := by
  have hlast := h.last
  unfold ofDay
  rw [h.eq]
  by_cases hmp : mp < 10
  · simp only [if_pos hmp, if_neg (show ¬ mp + 3 ≤ 2 by omega)]
  · simp only [if_neg hmp, if_pos (show mp - 9 ≤ 2 by omega)]

/-- the month ends with the days that are left of it -/
theorem InMonth.length (h : InMonth doy mp) (y : ℤ) : ∃ dim,
    daysInMonth (ofDay y doy).year (ofDay y doy).month = dim ∧
      (mp < 11 → monthStart mp + dim = monthStart (mp + 1)) ∧
      (mp = 11 → (monthStart mp + dim : ℤ) = yearLength y) := by
  rw [h.date y]
  refine ⟨_, rfl, fun hmp => ?_, ?_⟩
  · have hlower := h.lower
    have hupper := h.upper
    rw [month_length y hmp]
    omega
  · rintro rfl
    have hlen := last_length y
    show (monthStart 11 + daysInMonth (y + 1) 2 : ℤ) = yearLength y
    omega

theorem ofDay_valid (hy : (doy : ℤ) < yearLength y) : (ofDay y doy).Valid := by
  have hle := (yearLength_le y).2
  have h := inMonth (show doy < 366 by omega)
  obtain ⟨dim, hdim, hmonth, hend⟩ := h.length y
  obtain ⟨hlast, hlower, hupper⟩ := h
  refine ⟨?_, ?_⟩
  · rw [(inMonth (show doy < 366 by omega)).date y]
    dsimp only
    split
    all_goals omega
  · rw [hdim]
    show 1 ≤ doy - monthStart (monthOf doy) + 1 ∧ doy - monthStart (monthOf doy) + 1 ≤ dim
    omega

/-- **The next day is the next date,** -/
theorem next_ofDay (hy : (doy : ℤ) + 1 < yearLength y) : (ofDay y doy).next = ofDay y (doy + 1) := by
  have hle := (yearLength_le y).2
  have h := inMonth (show doy < 366 by omega)
  obtain ⟨dim, hdim, hmonth, hend⟩ := h.length y
  have hlast := h.last
  have hlower := h.lower
  have hupper := h.upper
  unfold Date.next
  rw [hdim]
  rw [h.date y] at hdim ⊢
  dsimp only
  have hstart : monthOf doy = 11 → monthStart (monthOf doy + 1) = 367 := fun heq => by rw [heq]; rfl
  by_cases hin : doy - monthStart (monthOf doy) + 1 < dim
  · -- in the same month
    have hsame : InMonth (doy + 1) (monthOf doy) := ⟨hlast, by omega, by omega⟩
    rw [if_pos hin, hsame.date y, show doy + 1 - monthStart (monthOf doy)
      = doy - monthStart (monthOf doy) + 1 by omega]
  · have hmp : monthOf doy < 11 := by omega
    have hsecond : monthStart (monthOf doy + 1) < monthStart (monthOf doy + 1 + 1) := by
      unfold monthStart
      omega
    have hafter : InMonth (doy + 1) (monthOf doy + 1) := ⟨by omega, by omega, by omega⟩
    rw [if_neg hin, hafter.date y, show doy + 1 - monthStart (monthOf doy + 1) = 0 by omega]
    -- the year ends with the month ten
    obtain hmp | hmp | hmp : monthOf doy < 9 ∨ monthOf doy = 9 ∨ monthOf doy = 10 := by omega
    · rw [if_pos (show monthOf doy < 10 by omega), if_pos (show monthOf doy < 10 by omega),
        if_pos (show monthOf doy + 3 < 12 by omega), if_pos (show monthOf doy + 1 < 10 by omega),
        if_pos (show monthOf doy + 1 < 10 by omega)]
    · rw [hmp]
      rfl
    · rw [hmp]
      rfl

/-- and the last day of the year is before the first of March. -/
theorem next_ofDay_last (hy : (doy : ℤ) + 1 = yearLength y) :
    (ofDay y doy).next = ofDay (y + 1) 0 := by
  have hle := yearLength_le y
  have h := inMonth (show doy < 366 by omega)
  obtain ⟨dim, hdim, hmonth, hend⟩ := h.length y
  have hlast := h.last
  have hlower := h.lower
  have hmp : monthOf doy = 11 := by
    by_contra hne
    have hstart : monthStart (monthOf doy + 1) ≤ 337 := by
      unfold monthStart
      omega
    have hupper := h.upper
    omega
  have hend := hend hmp
  rw [hmp] at h hlower hend
  unfold Date.next
  rw [hdim]
  rw [h.date y]
  have hin : ¬ doy - monthStart 11 + 1 < dim := by omega
  rw [if_neg hin]
  rfl

/-- **A date has one day.** -/
theorem ofDay_inj {y' : ℤ} {doy' : ℕ} (hy : (doy : ℤ) < yearLength y)
    (hy' : (doy' : ℤ) < yearLength y') (heq : ofDay y doy = ofDay y' doy') :
    y = y' ∧ doy = doy' := by
  have hle := (yearLength_le y).2
  have hle' := (yearLength_le y').2
  have h := inMonth (show doy < 366 by omega)
  have h' := inMonth (show doy' < 366 by omega)
  rw [h.date y, h'.date y', Date.mk.injEq] at heq
  obtain ⟨hyear, hmonth, hday⟩ := heq
  have hlast := h.last
  have hlast' := h'.last
  have hmp : monthOf doy = monthOf doy' := by
    split at hmonth
    all_goals
      split at hmonth
      all_goals omega
  have hlower := h.lower
  have hlower' := h'.lower
  rw [hmp] at hyear hday hlower
  refine ⟨?_, by omega⟩
  split at hyear
  all_goals omega

end

end Calendar
