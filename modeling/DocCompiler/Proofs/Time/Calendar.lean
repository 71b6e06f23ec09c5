import DocCompiler.Time.Calendar
import Mathlib.Order.SuccPred.Archimedean
import Mathlib.Order.Interval.Set.Basic
import Mathlib.Algebra.Order.Ring.Int

/-! A day number and its date determine each other. The year of an era is read off a day by a
quotient that never decreases; that it is right at the first and the last day of each of the 400
years makes it right on the days between. -/

namespace DocCompiler.Time

/-- The first day of a year in its era. -/
def firstDay (year : Int) : Int := 365 * year + year / 4 - year / 100

def yearOfEra (day : Int) : Int := (day - day / 1460 + day / 36524 - day / 146096) / 365

theorem yearOfEra_mono {day day' : Int} (h : day ≤ day') : yearOfEra day ≤ yearOfEra day' := by
  refine monotone_int_of_le_succ (fun day => ?_) h
  unfold yearOfEra
  have hera : ∀ d : Int, d / 146096 = d / 36524 / 4 := by intro d; omega
  rw [hera, hera]
  omega

/-- The quotient is right at both ends of every year. -/
theorem yearOfEra_ends : ∀ year : Fin 400,
    yearOfEra (firstDay year.val) = year.val ∧ yearOfEra (firstDay (year.val + 1) - 1) = year.val := by
  decide +kernel

theorem yearOfEra_last : yearOfEra 146096 = 399 := by decide

theorem yearOfEra_bounds {day : Int} (hlow : 0 ≤ day) (hhigh : day < 146097) :
    0 ≤ yearOfEra day ∧ yearOfEra day < 400 := by
  have hfirst : yearOfEra 0 ≤ yearOfEra day := yearOfEra_mono hlow
  have hlast : yearOfEra day ≤ yearOfEra 146096 := yearOfEra_mono (by omega)
  have hzero : yearOfEra 0 = 0 := by decide
  rw [yearOfEra_last] at hlast
  omega

/-- A day lies in its year, which has 366 days only if it ends with a leap day. -/
theorem day_in_year {day : Int} (hlow : 0 ≤ day) (hhigh : day < 146097) :
    0 ≤ day - firstDay (yearOfEra day) ∧ day - firstDay (yearOfEra day) ≤ 365 ∧
      (day - firstDay (yearOfEra day) = 365 → isLeapYear (yearOfEra day + 1) = true) := by
  obtain ⟨hnonneg, hlt⟩ := yearOfEra_bounds hlow hhigh
  obtain ⟨year, hyear⟩ := Int.eq_ofNat_of_zero_le hnonneg
  have hends : ∀ y : Nat, y < 400 →
      yearOfEra (firstDay y) = y ∧ yearOfEra (firstDay ((y : Int) + 1) - 1) = y :=
    fun y hy => yearOfEra_ends ⟨y, hy⟩
  rw [hyear] at hlt ⊢
  have hbegin : firstDay year ≤ day := by
    by_contra hbefore
    rcases Nat.eq_zero_or_pos year with rfl | hpos
    · exact hbefore (by simpa [firstDay] using hlow)
    · have hprev := (hends (year - 1) (by omega)).2
      have hle : yearOfEra day ≤ yearOfEra (firstDay ((year - 1 : Nat) + 1) - 1) := by
        apply yearOfEra_mono
        have hcast : (((year - 1 : Nat) : Int) + 1) = year := by omega
        rw [hcast]
        omega
      omega
  by_cases hlastYear : year = 399
  · subst hlastYear
    have hstart : firstDay (399 : Nat) = 145731 := by decide
    rw [hstart] at hbegin ⊢
    refine ⟨by omega, by omega, fun _ => by decide⟩
  · have hend : day < firstDay (year + 1) := by
      by_contra hafter
      have hnext := (hends (year + 1) (by omega)).1
      have hle : yearOfEra (firstDay ((year + 1 : Nat) : Int)) ≤ yearOfEra day := by
        apply yearOfEra_mono
        have hcast : ((year + 1 : Nat) : Int) = year + 1 := by omega
        rw [hcast]
        omega
      omega
    have hcenturies : ∀ y : Int, y / 100 = y / 4 / 25 := by intro y; omega
    have hstep : ((year : Int) + 1) / 4 = year / 4 ∨ ((year : Int) + 1) / 4 = year / 4 + 1 := by omega
    simp only [firstDay, hcenturies] at hbegin hend ⊢
    refine ⟨by omega, by rcases hstep with h | h <;> omega, ?_⟩
    intro hlong
    have hfour : ((year : Int) + 1) % 4 = 0 := by rcases hstep with h | h <;> omega
    have hcentury : ((year : Int) + 1) % 100 ≠ 0 := by rcases hstep with h | h <;> omega
    simp [isLeapYear, hfour, hcentury]

namespace Date

def ofParts (era year dayOfYear : Int) : Date :=
  let monthFromMarch := (5 * dayOfYear + 2) / 153
  let month := (monthFromMarch + 2) % 12 + 1
  ⟨if month ≤ 2 then year + era * 400 + 1 else year + era * 400, month.toNat,
    (dayOfYear - (153 * monthFromMarch + 2) / 5 + 1).toNat⟩

theorem ofDayNumber_eq (n : Int) :
    ofDayNumber n = ofParts ((n + 719468) / 146097) (yearOfEra ((n + 719468) % 146097))
      ((n + 719468) % 146097 - firstDay (yearOfEra ((n + 719468) % 146097))) := rfl

theorem isLeapYear_era (year era : Int) : isLeapYear (year + era * 400) = isLeapYear year := by
  have h4 : (year + era * 400) % 4 = year % 4 := by omega
  have h100 : (year + era * 400) % 100 = year % 100 := by omega
  have h400 : (year + era * 400) % 400 = year % 400 := by omega
  rw [isLeapYear, isLeapYear, h4, h100, h400]

/-- The lengths of the months from March to January come from their first days. -/
theorem daysInMonth_fromMarch (year : Int) : ∀ m : Fin 11,
    daysInMonth year ((m.val + 2) % 12 + 1) = (153 * (m.val + 1) + 2) / 5 - (153 * m.val + 2) / 5
  | 0 | 1 | 2 | 3 | 4 | 5 | 6 | 7 | 8 | 9 | 10 => rfl

theorem ofParts_exists {era year dayOfYear : Int} (hlow : 0 ≤ dayOfYear) (hhigh : dayOfYear ≤ 365)
    (hleap : dayOfYear = 365 → isLeapYear (year + 1) = true) :
    (ofParts era year dayOfYear).exists = true := by
  obtain ⟨m, hm⟩ := Int.eq_ofNat_of_zero_le (show 0 ≤ (5 * dayOfYear + 2) / 153 by omega)
  have hmonth : (((m : Int) + 2) % 12 + 1).toNat = (m + 2) % 12 + 1 := by omega
  simp only [Date.exists, ofParts, hm, hmonth, Bool.and_eq_true, decide_eq_true_eq]
  refine ⟨⟨by omega, by omega⟩, ?_⟩
  by_cases hfebruary : m = 11
  · subst hfebruary
    have hshift : year + era * 400 + 1 = year + 1 + era * 400 := by omega
    have hlength : daysInMonth (year + era * 400 + 1) ((11 + 2) % 12 + 1) =
        if isLeapYear (year + 1) then 29 else 28 := by
      rw [hshift]
      simp [daysInMonth, isLeapYear_era]
    rw [if_pos (by omega), hlength]
    by_cases hlast : dayOfYear = 365
    · rw [if_pos (hleap hlast)]
      omega
    · split <;> omega
  · have hlength : ∀ y : Int,
        daysInMonth y ((m + 2) % 12 + 1) = (153 * (m + 1) + 2) / 5 - (153 * m + 2) / 5 :=
      fun y => daysInMonth_fromMarch y ⟨m, by omega⟩
    have hstart : (((153 * m + 2) / 5 : Nat) : Int) = (153 * (m : Int) + 2) / 5 := by
      push_cast
      rfl
    rw [hlength]
    omega

theorem dayNumber_ofParts {era year dayOfYear : Int} (hyear : 0 ≤ year ∧ year < 400)
    (hlow : 0 ≤ dayOfYear) (hhigh : dayOfYear ≤ 365) :
    (ofParts era year dayOfYear).dayNumber = era * 146097 + (firstDay year + dayOfYear) - 719468 := by
  obtain ⟨m, hm⟩ := Int.eq_ofNat_of_zero_le (show 0 ≤ (5 * dayOfYear + 2) / 153 by omega)
  have hmonth : (((m : Int) + 2) % 12 + 1).toNat = (m + 2) % 12 + 1 := by omega
  have hfull : (if (m + 2) % 12 + 1 ≤ 2 then
      (if ((m : Int) + 2) % 12 + 1 ≤ 2 then year + era * 400 + 1 else year + era * 400) - 1
      else (if ((m : Int) + 2) % 12 + 1 ≤ 2 then year + era * 400 + 1 else year + era * 400)) =
      year + era * 400 := by
    split <;> split <;> omega
  have hera : (year + era * 400) / 400 = era := by omega
  have hrest : (year + era * 400) % 400 = year := by omega
  have hfromMarch : ((((m + 2) % 12 + 1 : Nat) : Int) + 9) % 12 = m := by omega
  simp only [dayNumber, ofParts, hm, hmonth, hfull, hera, hrest, hfromMarch, firstDay]
  omega

theorem exists_ofDayNumber (n : Int) : (ofDayNumber n).exists = true := by
  obtain ⟨hlow, hhigh, hleap⟩ := day_in_year (show 0 ≤ (n + 719468) % 146097 by omega) (by omega)
  rw [ofDayNumber_eq]
  exact ofParts_exists hlow hhigh hleap

theorem dayNumber_ofDayNumber (n : Int) : (ofDayNumber n).dayNumber = n := by
  have hday : 0 ≤ (n + 719468) % 146097 ∧ (n + 719468) % 146097 < 146097 := by omega
  obtain ⟨hlow, hhigh, -⟩ := day_in_year hday.1 hday.2
  rw [ofDayNumber_eq, dayNumber_ofParts (yearOfEra_bounds hday.1 hday.2) hlow hhigh]
  omega

end Date

end DocCompiler.Time
