/-
  OpenBsd.Lib.Calendar

  Dates of the Gregorian calendar from the start of some year on, and their numbers:
  the days since then.  Every number is that of one date.
-/

import OpenBsd.Lib.Spans

namespace OpenBsd.Lib

/-- Every fourth year, but of the full hundreds only every fourth. -/
def IsLeap (year : Nat) : Prop := year % 4 = 0 ∧ (year % 100 ≠ 0 ∨ year % 400 = 0)

instance (year : Nat) : Decidable (IsLeap year) := inferInstanceAs (Decidable (_ ∧ _))

def yearLen (year : Nat) : Nat := if IsLeap year then 366 else 365

/-- The length of month `i + 1`. -/
def monthLen (year i : Nat) : Nat :=
  if i = 1 then if IsLeap year then 29 else 28
  else if i = 3 ∨ i = 5 ∨ i = 8 ∨ i = 10 then 30
  else 31

theorem yearLen_pos (year : Nat) : 0 < yearLen year := by
  unfold yearLen
  split <;> decide

theorem upTo_monthLen (year : Nat) : upTo (monthLen year) 12 = yearLen year := by
  by_cases h : IsLeap year <;>
    simp [upTo, monthLen, yearLen, Finset.sum_range_succ, h]

/-- A date not before the year `base`, with its months and days from 1 on. -/
structure CalDate (base : Nat) where
  year : Nat
  month : Nat
  day : Nat
  base_le : base ≤ year
  one_le_month : 1 ≤ month
  month_le : month ≤ 12
  one_le_day : 1 ≤ day
  day_le : day ≤ monthLen year (month - 1)

namespace CalDate

variable {base : Nat}

@[ext] theorem ext {d e : CalDate base} (hyear : d.year = e.year) (hmonth : d.month = e.month)
    (hday : d.day = e.day) : d = e := by
  cases d
  cases e
  subst hyear hmonth hday
  rfl

/-- The days of the year in front of the date. -/
def yearDay (d : CalDate base) : Nat := upTo (monthLen d.year) (d.month - 1) + (d.day - 1)

/-- The days since the start of the year `base`. -/
def number (d : CalDate base) : Nat :=
  upTo (fun i => yearLen (base + i)) (d.year - base) + d.yearDay

theorem yearDay_lt (d : CalDate base) : d.yearDay < yearLen d.year := by
  have hone := d.one_le_month
  have hone' := d.one_le_day
  have hday := d.day_le
  have hmonth := d.month_le
  have hend : upTo (monthLen d.year) (d.month - 1 + 1) ≤ upTo (monthLen d.year) 12 :=
    upTo_mono (by omega)
  rw [upTo_succ, upTo_monthLen] at hend
  unfold yearDay
  omega

/-- Every number is that of a date. -/
theorem exists_number (base n : Nat) : ∃ d : CalDate base, d.number = n := by
  -- a year is not empty, so the years reach any number
  have hreach : ∀ k, k ≤ upTo (fun i => yearLen (base + i)) k := by
    intro k
    induction k with
    | zero => exact Nat.le_refl 0
    | succ k ih =>
      rw [upTo_succ]
      have := yearLen_pos (base + k)
      omega
  obtain ⟨y, -, r, hr, hn⟩ := exists_upTo (Nat.lt_of_lt_of_le (Nat.lt_succ_self n) (hreach (n + 1)))
  have hr' : r < upTo (monthLen (base + y)) (11 + 1) := by
    rw [upTo_monthLen]
    exact hr
  obtain ⟨m, hm, s, hs, hday⟩ := exists_upTo hr'
  refine ⟨⟨base + y, m + 1, s + 1, Nat.le_add_right .., Nat.succ_pos m, by omega, Nat.succ_pos s,
    hs⟩, ?_⟩
  rw [number, yearDay, hn, hday]
  simp only [Nat.add_sub_cancel_left, Nat.add_sub_cancel]

end CalDate

end OpenBsd.Lib
