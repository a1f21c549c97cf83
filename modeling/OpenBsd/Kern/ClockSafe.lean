/-
  OpenBsd.Kern.ClockSafe

  The two conversions of `kern/clock_subr.c` against the calendar.  The loops count off
  whole years and whole months; `clock_ymdhms_to_secs` goes wrong where the minutes since
  1970, which it computes in an `int`, need more than 31 bits.
-/

import Mathlib.Tactic.IntervalCases
import OpenBsd.Lib.Calendar
import OpenBsd.Kern.ClockSubr

namespace OpenBsd.Kern

open OpenBsd.Lib

/-! ## Years and months -/

/-- The days in front of the `n`th year from 1970 on. -/
abbrev yearsBefore (n : Nat) : Nat := upTo (fun i => yearLen (1970 + i)) n

theorem leapyear_iff (year : Nat) : leapyear year = true ↔ IsLeap year := by
  have hand : year &&& 3 = year % 4 := Nat.and_two_pow_sub_one_eq_mod year 2
  unfold leapyear IsLeap
  rw [hand]
  split
  · rename_i h4
    rw [beq_iff_eq] at h4
    split
    · rename_i h100
      rw [beq_iff_eq] at h100
      rw [beq_iff_eq]
      omega
    · rename_i h100
      rw [beq_iff_eq] at h100
      exact iff_of_true rfl ⟨h4, Or.inl h100⟩
  · rename_i h4
    rw [beq_iff_eq] at h4
    exact iff_of_false Bool.false_ne_true fun h => h4 h.1

theorem daysInYear_eq (year : Nat) : daysInYear year = yearLen year := by
  unfold daysInYear yearLen
  by_cases h : IsLeap year
  · rw [if_pos ((leapyear_iff year).2 h), if_pos h]
    rfl
  · rw [if_neg (fun hl => h ((leapyear_iff year).1 hl)), if_neg h]
    rfl

theorem years_foldl (a n : Nat) (days : Int) :
    (List.range' a n).foldl (fun days i => days + daysInYear i) days
      = days + upTo (fun i => yearLen (a + i)) n := by
  induction n with
  | zero => exact (Int.add_zero days).symm
  | succ n ih =>
    rw [List.range'_1_concat, List.foldl_append, ih, upTo_succ, List.foldl_cons,
      List.foldl_nil, daysInYear_eq]
    push_cast
    omega

theorem months_foldlM {n : Nat} (hn : n < 12) (days : Int) :
    (List.range' 1 n).foldlM (fun days i => (monthDays[i - 1]?).map fun k => days + k) days
      = some (days + upTo (monthLen 1970) n) := by
  interval_cases n <;>
    simp [List.range', monthDays, upTo, Finset.sum_range_succ, monthLen, IsLeap] <;> omega

theorem upTo_monthLen_leap {year n : Nat} (hn : n < 12) :
    upTo (monthLen year) n
      = upTo (monthLen 1970) n + if IsLeap year ∧ 2 ≤ n then 1 else 0 := by
  by_cases h : IsLeap year <;> interval_cases n <;>
    simp [upTo, Finset.sum_range_succ, monthLen, h, show ¬ IsLeap 1970 by decide]

theorem yearLoop_upTo {n r a : Nat} (hr : r < yearLen (a + n)) :
    yearLoop a ((upTo (fun i => yearLen (a + i)) n + r : Nat) : Int) = (a + n, (r : Int)) := by
  induction n generalizing a with
  | zero =>
    rw [upTo_zero, Nat.zero_add, yearLoop, if_neg, Nat.add_zero]
    rw [daysInYear_eq]
    have : r < yearLen a := hr
    omega
  | succ n ih =>
    have hshift : a + 1 + n = a + (n + 1) := by omega
    have hrest := ih (a := a + 1) (by rwa [hshift])
    have hlens : (fun i => yearLen (a + (i + 1))) = fun i => yearLen (a + 1 + i) := by
      funext i
      rw [Nat.add_assoc, Nat.add_comm 1]
    rw [upTo_shift, Nat.add_zero, hlens, yearLoop, if_pos, daysInYear_eq]
    · have hsub : ((yearLen a + upTo (fun i => yearLen (a + 1 + i)) n + r : Nat) : Int)
          - yearLen a = ((upTo (fun i => yearLen (a + 1 + i)) n + r : Nat) : Int) := by
        push_cast
        omega
      rw [hsub, hrest, hshift]
    · rw [daysInYear_eq]
      push_cast
      omega

theorem yearLoop_of_nonpos {days : Int} (h : days ≤ 0) (a : Nat) : yearLoop a days = (a, days) := by
  have := yearLen_pos a
  rw [yearLoop, if_neg]
  rw [daysInYear_eq]
  omega

theorem monthLoop_upTo {len : Nat → Nat} {n m r a : Nat} (hm : m < n) (hr : r < len (a + m))
    (i : Nat) :
    monthLoop ((List.range' a n).map fun j => (len j : Int)) i
        ((upTo (fun j => len (a + j)) m + r : Nat) : Int) = some (i + m, (r : Int)) := by
  induction n generalizing a i m with
  | zero => exact absurd hm (Nat.not_lt_zero m)
  | succ n ih =>
    rw [List.range'_succ, List.map_cons, monthLoop]
    cases m with
    | zero =>
      rw [upTo_zero, Nat.zero_add, if_neg, Nat.add_zero]
      have : r < len a := hr
      omega
    | succ m =>
      have hshift : a + 1 + m = a + (m + 1) := by omega
      have hlens : (fun j => len (a + (j + 1))) = fun j => len (a + 1 + j) := by
        funext j
        rw [Nat.add_assoc, Nat.add_comm 1]
      rw [upTo_shift, Nat.add_zero, hlens, if_pos]
      · have hsub : ((len a + upTo (fun j => len (a + 1 + j)) m + r : Nat) : Int) - len a
            = ((upTo (fun j => len (a + 1 + j)) m + r : Nat) : Int) := by
          push_cast
          omega
        rw [hsub, ih (Nat.lt_of_succ_lt_succ hm) (by rwa [hshift])]
        rw [Nat.add_assoc, Nat.add_comm 1]
      · push_cast
        omega

theorem mthdays_eq (year : Nat) :
    (if leapyear year then monthDays.set (february - 1) 29 else monthDays)
      = (List.range' 0 12).map fun j => (monthLen year j : Int) := by
  by_cases h : IsLeap year
  · rw [if_pos ((leapyear_iff year).2 h)]
    simp [List.range', monthDays, february, monthLen, h]
  · rw [if_neg (fun hl => h ((leapyear_iff year).1 hl))]
    simp [List.range', monthDays, monthLen, h]

/-! ## Dates -/

/-- The fields of a date and of the second `t` of the day. -/
def ofDate (d : CalDate 1970) (t : Nat) : ClockYmdhms where
  dtYear := UInt16.ofNat d.year
  dtMon := UInt8.ofNat d.month
  dtDay := UInt8.ofNat d.day
  dtWday := UInt8.ofNat ((d.number + 4) % 7)
  dtHour := UInt8.ofNat (t / 3600)
  dtMin := UInt8.ofNat (t % 3600 / 60)
  dtSec := UInt8.ofNat (t % 3600 % 60)

/-- The fields are those of a time from 1970 on. -/
structure ClockYmdhms.Valid (dt : ClockYmdhms) : Prop where
  year : 1970 ≤ dt.dtYear.toNat
  one_le_mon : 1 ≤ dt.dtMon.toNat
  mon_le : dt.dtMon.toNat ≤ 12
  one_le_day : 1 ≤ dt.dtDay.toNat
  day_le : dt.dtDay.toNat ≤ monthLen dt.dtYear.toNat (dt.dtMon.toNat - 1)
  hour : dt.dtHour.toNat < 24
  min : dt.dtMin.toNat < 60
  sec : dt.dtSec.toNat < 60

section

variable {dt : ClockYmdhms}

def ClockYmdhms.Valid.date (h : dt.Valid) : CalDate 1970 :=
  ⟨dt.dtYear.toNat, dt.dtMon.toNat, dt.dtDay.toNat, h.year, h.one_le_mon, h.mon_le, h.one_le_day,
    h.day_le⟩

theorem ClockYmdhms.Valid.number_eq (h : dt.Valid) :
    h.date.number = yearsBefore (dt.dtYear.toNat - 1970)
      + (upTo (monthLen dt.dtYear.toNat) (dt.dtMon.toNat - 1) + (dt.dtDay.toNat - 1)) := rfl

/-- The minutes since 1970. -/
def ClockYmdhms.Valid.minutes (h : dt.Valid) : Nat :=
  (h.date.number * 24 + dt.dtHour.toNat) * 60 + dt.dtMin.toNat

def ClockYmdhms.daySecond (dt : ClockYmdhms) : Nat :=
  (dt.dtHour.toNat * 60 + dt.dtMin.toNat) * 60 + dt.dtSec.toNat

theorem ClockYmdhms.Valid.daySecond_lt (h : dt.Valid) : dt.daySecond < 86400 := by
  have := h.hour
  have := h.min
  have := h.sec
  unfold ClockYmdhms.daySecond
  omega

theorem ClockYmdhms.Valid.eq_ofDate (h : dt.Valid) :
    ofDate h.date dt.daySecond
      = { dt with dtWday := UInt8.ofNat ((h.date.number + 4) % 7) } := by
  have hmin := h.min
  have hsec := h.sec
  have hh : dt.daySecond / 3600 = dt.dtHour.toNat := by
    unfold ClockYmdhms.daySecond
    omega
  have hm : dt.daySecond % 3600 / 60 = dt.dtMin.toNat := by
    unfold ClockYmdhms.daySecond
    omega
  have hs : dt.daySecond % 3600 % 60 = dt.dtSec.toNat := by
    unfold ClockYmdhms.daySecond
    omega
  unfold ofDate
  rw [hh, hm, hs]
  simp only [ClockYmdhms.Valid.date, UInt16.ofNat_toNat, UInt8.ofNat_toNat]

theorem yearsBefore_le (n : Nat) : yearsBefore n ≤ n * 366 := by
  induction n with
  | zero => exact Nat.le_refl 0
  | succ n ih =>
    have hlen : yearLen (1970 + n) ≤ 366 := by
      unfold yearLen
      split <;> decide
    have hsucc : yearsBefore (n + 1) = yearsBefore n + yearLen (1970 + n) := upTo_succ n
    omega

theorem yearsBefore_add_400 (n k : Nat) :
    yearsBefore (n + 400 * k) = yearsBefore n + k * 146097 := by
  have hperiod : ∀ n, yearsBefore (n + 400) = yearsBefore n + 146097 := by
    intro n
    induction n with
    | zero => decide +kernel
    | succ n ih =>
      have hlen : yearLen (1970 + (n + 400)) = yearLen (1970 + n) := by
        unfold yearLen IsLeap
        congr 1
        apply propext
        omega
      have hsucc : yearsBefore (n + 400 + 1)
          = yearsBefore (n + 400) + yearLen (1970 + (n + 400)) := upTo_succ _
      have hsucc' : yearsBefore (n + 1) = yearsBefore n + yearLen (1970 + n) := upTo_succ _
      rw [Nat.add_right_comm, hsucc, hsucc', ih, hlen]
      omega
  induction k with
  | zero => simp only [Nat.mul_zero, Nat.zero_mul, Nat.add_zero]
  | succ k ih =>
    rw [Nat.mul_succ, ← Nat.add_assoc, hperiod, ih]
    omega

variable {d : CalDate 1970}

theorem number_lt (hyear : d.year < 65536) : d.number < 2 ^ 25 := by
  have hlt := d.yearDay_lt
  have hlen : yearLen d.year ≤ 366 := by
    unfold yearLen
    split <;> decide
  have hyears := yearsBefore_le (d.year - 1970)
  have hnumber : d.number = yearsBefore (d.year - 1970) + d.yearDay := rfl
  omega

theorem year_lt_iff {year : Nat} (hyear : 1970 ≤ year) :
    d.year < year ↔ d.number < yearsBefore (year - 1970) := by
  have hbase := d.base_le
  have hnumber : d.number = yearsBefore (d.year - 1970) + d.yearDay := rfl
  constructor
  · intro hlt
    have hday := d.yearDay_lt
    have hsucc : yearsBefore (d.year - 1970 + 1)
        = yearsBefore (d.year - 1970) + yearLen (1970 + (d.year - 1970)) := upTo_succ _
    have hmono : yearsBefore (d.year - 1970 + 1) ≤ yearsBefore (year - 1970) :=
      upTo_mono (by omega)
    rw [Nat.add_sub_cancel' hbase] at hsucc
    omega
  · intro hlt
    by_contra hge
    have hmono : yearsBefore (year - 1970) ≤ yearsBefore (d.year - 1970) :=
      upTo_mono (by omega)
    omega

theorem yearsBefore_6053 : yearsBefore (6053 - 1970) = 1491286 := by
  rw [show 6053 - 1970 = 83 + 400 * 10 from rfl, yearsBefore_add_400]
  decide

theorem ClockYmdhms.Valid.minutes_lt (h : dt.Valid) (hyear : dt.dtYear.toNat < 6053) :
    h.minutes < 2 ^ 31 := by
  have hnumber : h.date.number < yearsBefore (6053 - 1970) :=
    (year_lt_iff (by decide)).1 (show h.date.year < 6053 from hyear)
  rw [yearsBefore_6053] at hnumber
  have := h.hour
  have := h.min
  unfold ClockYmdhms.Valid.minutes
  omega

theorem asInt_of_lt {n : Nat} (h : n < 2 ^ 31) : asInt n = n := by
  unfold asInt
  apply Int.bmod_eq_of_le_mul_two <;> omega

theorem toNat_ofNat_u8 {n : Nat} (h : n < 256) : (UInt8.ofNat n).toNat = n :=
  UInt8.toNat_ofNat_of_lt' h

theorem ofInt_u8 (n : Nat) : UInt8.ofInt n = UInt8.ofNat n := by
  apply UInt8.toNat_inj.1
  rw [UInt8.ofInt, UInt8.toNat_ofNat', UInt8.toNat_ofNat']
  omega

theorem ofDate_valid (hyear : d.year < 65536) {t : Nat} (ht : t < 86400) :
    ∃ h : (ofDate d t).Valid, h.date = d ∧ (ofDate d t).daySecond = t := by
  have hbase := d.base_le
  have hm1 := d.one_le_month
  have hm12 := d.month_le
  have hd1 := d.one_le_day
  have hday := d.day_le
  have hlen : monthLen d.year (d.month - 1) ≤ 31 := by
    unfold monthLen
    split
    · split <;> decide
    · split <;> decide
  have hy : (ofDate d t).dtYear.toNat = d.year := UInt16.toNat_ofNat_of_lt' hyear
  have hm : (ofDate d t).dtMon.toNat = d.month := toNat_ofNat_u8 (by omega)
  have hd : (ofDate d t).dtDay.toNat = d.day := toNat_ofNat_u8 (by omega)
  have hh : (ofDate d t).dtHour.toNat = t / 3600 := toNat_ofNat_u8 (by omega)
  have hmin : (ofDate d t).dtMin.toNat = t % 3600 / 60 := toNat_ofNat_u8 (by omega)
  have hs : (ofDate d t).dtSec.toNat = t % 3600 % 60 := toNat_ofNat_u8 (by omega)
  refine ⟨⟨by omega, by omega, by omega, by omega, ?_, by omega, by omega, by omega⟩, ?_, ?_⟩
  · rw [hy, hm, hd]
    exact hday
  · exact CalDate.ext hy hm hd
  · unfold ClockYmdhms.daySecond
    rw [hh, hmin, hs]
    omega

theorem ofDate_injective {e : CalDate 1970} {t u : Nat} (hd : d.year < 65536)
    (he : e.year < 65536) (ht : t < 86400) (hu : u < 86400) (h : ofDate d t = ofDate e u) :
    d = e ∧ t = u := by
  obtain ⟨hv, hdate, hsecond⟩ := ofDate_valid hd ht
  obtain ⟨hv', hdate', hsecond'⟩ := ofDate_valid he hu
  have heq : hv.date = hv'.date :=
    CalDate.ext (congrArg (fun dt => dt.dtYear.toNat) h) (congrArg (fun dt => dt.dtMon.toNat) h)
      (congrArg (fun dt => dt.dtDay.toNat) h)
  refine ⟨?_, ?_⟩
  · rw [← hdate, ← hdate', heq]
  · rw [← hsecond, ← hsecond', h]

/-! ## The conversions -/

/-- What `clock_secs_to_ymdhms` makes of the days and the second of a day. -/
theorem clockSecsToYmdhms_of {t : Nat} {secs : Int}
    (hdays : asInt (secs.tdiv secday) = d.number) (hrsec : asInt (secs.tmod secday) = t) :
    clockSecsToYmdhms secs = some (ofDate d t) := by
  have hbase := d.base_le
  have hdiv : ∀ n k : Nat, (n : Int).tdiv (k : Int) = ((n / k : Nat) : Int) :=
    fun n k => (Int.ofNat_tdiv n k).symm
  have hmod : ∀ n k : Nat, (n : Int).tmod (k : Int) = ((n % k : Nat) : Int) :=
    fun n k => (Int.ofNat_tmod n k).symm
  have hwday : ((d.number : Int) + 4).tmod 7 = ((d.number + 4) % 7 : Nat) := hmod _ 7
  -- the two loops find the year and the month
  have hbase' : 1970 + (d.year - 1970) = d.year := Nat.add_sub_cancel' hbase
  have hyd : d.yearDay < yearLen (1970 + (d.year - 1970)) := by
    rw [hbase']
    exact d.yearDay_lt
  have hyears : yearLoop posixBaseYear (d.number : Int) = (d.year, (d.yearDay : Int)) := by
    have h := yearLoop_upTo hyd
    rw [hbase'] at h
    exact h
  have hm1 := d.one_le_month
  have hm12 := d.month_le
  have hd1 := d.one_le_day
  have hdl := d.day_le
  have hmonths := @monthLoop_upTo (monthLen d.year) 12 (d.month - 1) (d.day - 1) 0 (by omega)
    (by rw [Nat.zero_add]; omega) 1
  simp only [Nat.zero_add] at hmonths
  have hmonth : 1 + (d.month - 1) = d.month := Nat.add_sub_cancel' hm1
  have hmth : monthLoop
      (if leapyear d.year then monthDays.set (february - 1) 29 else monthDays) 1 (d.yearDay : Int)
      = some (d.month, ((d.day - 1 : Nat) : Int)) := by
    rw [mthdays_eq, CalDate.yearDay, hmonths, hmonth]
  have hday : ((d.day - 1 : Nat) : Int) + 1 = (d.day : Nat) := by omega
  -- the second of the day
  have hhour : (t : Int).tdiv 3600 = ((t / 3600 : Nat) : Int) := by
    have h := hdiv t 3600
    rwa [Int.cast_ofNat_Int] at h
  have hrest : (t : Int).tmod 3600 = ((t % 3600 : Nat) : Int) := by
    have h := hmod t 3600
    rwa [Int.cast_ofNat_Int] at h
  have hmin : ((t % 3600 : Nat) : Int).tdiv 60 = ((t % 3600 / 60 : Nat) : Int) := hdiv _ 60
  have hsec : ((t % 3600 : Nat) : Int).tmod 60 = ((t % 3600 % 60 : Nat) : Int) := hmod _ 60
  simp only [clockSecsToYmdhms, hdays, hrsec, hyears, hwday, hhour, hrest, hmin, hsec, hmth, hday,
    Option.bind_eq_bind, Option.bind_some, ofInt_u8, ofDate, Option.pure_def]

theorem clockSecsToYmdhms_eq {d : CalDate 1970} (hyear : d.year < 65536) {t : Nat}
    (ht : t < 86400) {secs : Int} (hsecs : secs = ((d.number * 86400 + t : Nat) : Int)) :
    clockSecsToYmdhms secs = some (ofDate d t) := by
  have hnumber := number_lt hyear
  apply clockSecsToYmdhms_of
  · have hdiv : secs.tdiv secday = (d.number : Nat) := by
      rw [hsecs, secday, Int.tdiv_eq_ediv_of_nonneg (Int.natCast_nonneg _)]
      omega
    rw [hdiv, asInt_of_lt (by omega)]
  · have hmod : secs.tmod secday = (t : Nat) := by
      rw [hsecs, secday, Int.tmod_eq_emod_of_nonneg (Int.natCast_nonneg _)]
      omega
    rw [hmod, asInt_of_lt (by omega)]

theorem clockYmdhmsToSecs_eq (h : dt.Valid) :
    clockYmdhmsToSecs dt = some (asInt h.minutes * 60 + dt.dtSec.toNat) := by
  have hbase := h.year
  have hm1 := h.one_le_mon
  have hm12 := h.mon_le
  have hd1 := h.one_le_day
  unfold clockYmdhmsToSecs
  dsimp only
  rw [years_foldl, Int.zero_add, months_foldlM (by omega)]
  show some _ = some _
  have hdays : (if (leapyear dt.dtYear.toNat && decide (dt.dtMon.toNat > february)) = true then
        (upTo (fun i => yearLen (posixBaseYear + i)) (dt.dtYear.toNat - posixBaseYear) : Int) + 1
        else upTo (fun i => yearLen (posixBaseYear + i)) (dt.dtYear.toNat - posixBaseYear))
        + upTo (monthLen 1970) (dt.dtMon.toNat - 1) + ((dt.dtDay.toNat : Int) - 1)
      = h.date.number := by
    have hmonths := @upTo_monthLen_leap dt.dtYear.toNat (dt.dtMon.toNat - 1) (by omega)
    have hnumber : h.date.number
        = upTo (fun i => yearLen (1970 + i)) (dt.dtYear.toNat - 1970)
        + (upTo (monthLen dt.dtYear.toNat) (dt.dtMon.toNat - 1) + (dt.dtDay.toNat - 1)) := rfl
    have hleap := leapyear_iff dt.dtYear.toNat
    rw [hnumber, hmonths]
    simp only [february, posixBaseYear, Bool.and_eq_true, decide_eq_true_iff, hleap, gt_iff_lt]
    by_cases hl : IsLeap dt.dtYear.toNat ∧ 2 < dt.dtMon.toNat
    · rw [if_pos hl, if_pos ⟨hl.1, by omega⟩]
      omega
    · rw [if_neg hl, if_neg fun h => hl ⟨h.1, by omega⟩]
      omega
  rw [hdays]
  rfl

theorem asInt_eq_iff (n : Nat) : asInt n = n ↔ n < 2 ^ 31 := by
  constructor
  · intro h
    have : (n : Int).bmod (2 ^ 32) < (2 ^ 32 + 1) / 2 := Int.bmod_lt (by decide)
    unfold asInt at h
    omega
  · exact asInt_of_lt

theorem le_asInt (x : Int) : -2 ^ 31 ≤ asInt x := by
  have : -((2 ^ 32 : Nat) / 2 : Int) ≤ x.bmod (2 ^ 32) := Int.le_bmod (by decide)
  unfold asInt
  omega

theorem asInt_lt (x : Int) : asInt x < 2 ^ 31 := by
  have : x.bmod (2 ^ 32) < (2 ^ 32 + 1) / 2 := Int.bmod_lt (by decide)
  unfold asInt
  omega

theorem clockYmdhmsToSecs_eq_some_iff (h : dt.Valid) :
    clockYmdhmsToSecs dt = some ((h.date.number * 86400 + dt.daySecond : Nat) : Int)
      ↔ h.minutes < 2 ^ 31 := by
  have hsecs : h.date.number * 86400 + dt.daySecond = h.minutes * 60 + dt.dtSec.toNat := by
    unfold ClockYmdhms.Valid.minutes ClockYmdhms.daySecond
    omega
  rw [clockYmdhmsToSecs_eq h, Option.some_inj, hsecs, ← asInt_eq_iff]
  push_cast
  constructor <;> intro heq <;> omega

theorem clockSecsToYmdhms_year {secs : Int} (hneg : secs < 0) (hmin : -2 ^ 37 ≤ secs)
    {dt : ClockYmdhms} (h : clockSecsToYmdhms secs = some dt) : dt.dtYear.toNat = 1970 := by
  have hquot : secs.tdiv secday = -((-secs).tdiv secday) := by
    rw [Int.neg_tdiv, Int.neg_neg]
  have hpos : (-secs).tdiv secday = -secs / 86400 := by
    rw [secday, Int.tdiv_eq_ediv_of_nonneg (by omega)]
  have hdays : asInt (secs.tdiv secday) = -(-secs / 86400) := by
    rw [hquot, hpos, asInt]
    apply Int.bmod_eq_of_le_mul_two <;> omega
  have hnonpos : -(-secs / 86400) ≤ 0 := by omega
  have hyears := yearLoop_of_nonpos hnonpos posixBaseYear
  simp only [clockSecsToYmdhms, hdays, hyears, Option.bind_eq_bind, Option.bind_eq_some_iff] at h
  obtain ⟨⟨mon, days⟩, -, hdt⟩ := h
  have hdt' := Option.some_inj.1 hdt
  rw [← hdt']
  rfl

end

theorem secs_roundTrip_iff {secs : Nat} (hlt : secs < yearsBefore (65536 - 1970) * 86400) :
    ∃ dt, clockSecsToYmdhms secs = some dt ∧
      ∃ h : dt.Valid, dt.dtWday.toNat = (h.date.number + 4) % 7 ∧
        (clockYmdhmsToSecs dt = some (secs : Int) ↔ secs / 60 < 2 ^ 31) := by
  obtain ⟨d, hd⟩ := CalDate.exists_number 1970 (secs / 86400)
  have hyear : d.year < 65536 := (year_lt_iff (by decide)).2 (by omega)
  have ht : secs % 86400 < 86400 := Nat.mod_lt _ (by decide)
  have hsecs : d.number * 86400 + secs % 86400 = secs := by omega
  obtain ⟨hvalid, hdate, hsecond⟩ := ofDate_valid hyear ht
  refine ⟨ofDate d (secs % 86400), clockSecsToYmdhms_eq hyear ht (congrArg Int.ofNat hsecs.symm),
    hvalid, ?_, ?_⟩
  · rw [hdate]
    exact toNat_ofNat_u8 (by omega)
  · have hiff := clockYmdhmsToSecs_eq_some_iff hvalid
    have hm : hvalid.minutes = secs / 60 := by
      have hmin : hvalid.minutes * 60 + (ofDate d (secs % 86400)).dtSec.toNat
          = hvalid.date.number * 86400 + (ofDate d (secs % 86400)).daySecond := by
        unfold ClockYmdhms.Valid.minutes ClockYmdhms.daySecond
        omega
      have := hvalid.sec
      rw [hdate, hsecond, hsecs] at hmin
      omega
    rwa [hdate, hsecond, hsecs, hm] at hiff

/-- A date comes back from its time while its minutes fit in an `int`. -/
theorem date_roundTrip_iff {dt : ClockYmdhms} (h : dt.Valid) :
    (∃ secs, clockYmdhmsToSecs dt = some secs ∧
      clockSecsToYmdhms secs
        = some { dt with dtWday := UInt8.ofNat ((h.date.number + 4) % 7) })
      ↔ h.minutes < 2 ^ 31 := by
  have hyear : h.date.year < 65536 := dt.dtYear.toNat_lt
  have hback : clockSecsToYmdhms ((h.date.number * 86400 + dt.daySecond : Nat) : Int)
      = some { dt with dtWday := UInt8.ofNat ((h.date.number + 4) % 7) } := by
    rw [← h.eq_ofDate]
    exact clockSecsToYmdhms_eq hyear h.daySecond_lt rfl
  constructor
  · rintro ⟨secs, hsecs, hdt⟩
    by_contra hge
    rw [clockYmdhmsToSecs_eq h, Option.some_inj] at hsecs
    have hlow := le_asInt h.minutes
    have hhigh := asInt_lt h.minutes
    have hsec := h.sec
    by_cases hneg : asInt h.minutes < 0
    · -- the minutes have become negative, and the year 1970
      have h1970 := clockSecsToYmdhms_year (by omega) (by omega) hdt
      have hone : h.date.year = 1970 := h1970
      have hnumber : h.date.number < 366 := by
        have hlt := h.date.yearDay_lt
        have hlen : yearLen 1970 = 365 := by decide
        have hdef : h.date.number = yearsBefore (h.date.year - 1970) + h.date.yearDay := rfl
        rw [hone] at hdef hlt
        have hzero : yearsBefore (1970 - 1970) = 0 := rfl
        omega
      have hhour := h.hour
      have hmin := h.min
      unfold ClockYmdhms.Valid.minutes at hge
      omega
    · -- they have become those of an earlier date
      obtain ⟨m, hm⟩ := Int.eq_ofNat_of_zero_le (Int.not_lt.1 hneg)
      obtain ⟨d, hd⟩ := CalDate.exists_number 1970 ((m * 60 + dt.dtSec.toNat) / 86400)
      have hsame : m * 60 + dt.dtSec.toNat
          = (m * 60 + dt.dtSec.toNat) / 86400 * 86400 + (m * 60 + dt.dtSec.toNat) % 86400 := by
        omega
      have hle : (m * 60 + dt.dtSec.toNat) / 86400 ≤ h.date.number := by
        have := h.hour
        have := h.min
        unfold ClockYmdhms.Valid.minutes at hge
        omega
      have hdyear : d.year < 65536 := by
        have := (year_lt_iff (by decide)).1 hyear
        exact (year_lt_iff (by decide)).2 (by omega)
      have hd' := @clockSecsToYmdhms_eq d hdyear ((m * 60 + dt.dtSec.toNat) % 86400)
        (Nat.mod_lt _ (by decide)) secs (by rw [← hsecs, hm, hd]; omega)
      rw [hdt, ← h.eq_ofDate, Option.some_inj] at hd'
      obtain ⟨hdate, hsecond⟩ := ofDate_injective hyear hdyear h.daySecond_lt
        (Nat.mod_lt _ (by decide)) hd'
      have hminutes : h.minutes * 60 + dt.dtSec.toNat = h.date.number * 86400 + dt.daySecond := by
        unfold ClockYmdhms.Valid.minutes ClockYmdhms.daySecond
        omega
      rw [← hdate] at hd
      omega
  · intro hlt
    exact ⟨_, (clockYmdhmsToSecs_eq_some_iff h).2 hlt, hback⟩

/-- A time comes back from its fields, and a date from its time, exactly while the minutes
    since 1970 fit in an `int`: up to the 23rd of January 6053.  Day 0 was a Thursday. -/
theorem clock_roundTrip_iff (secs : Nat) (hsecs : secs < yearsBefore (65536 - 1970) * 86400)
    (dt : ClockYmdhms) (h : dt.Valid) :
    (∃ dt', clockSecsToYmdhms secs = some dt' ∧
      ∃ h' : dt'.Valid, dt'.dtWday.toNat = (h'.date.number + 4) % 7 ∧
        (clockYmdhmsToSecs dt' = some (secs : Int) ↔ secs / 60 < 2 ^ 31)) ∧
      ((∃ secs', clockYmdhmsToSecs dt = some secs' ∧
        clockSecsToYmdhms secs'
          = some { dt with dtWday := UInt8.ofNat ((h.date.number + 4) % 7) })
        ↔ h.minutes < 2 ^ 31) :=
  ⟨secs_roundTrip_iff hsecs, date_roundTrip_iff h⟩

/-- Leap day 2000, both ways. -/
theorem clock_roundTrip_iff_leap_day :
    (∃ dt, clockSecsToYmdhms 951782400 = some dt ∧ clockYmdhmsToSecs dt = some 951782400) ∧
      ∃ secs, clockYmdhmsToSecs ⟨2000, 2, 29, 2, 0, 0, 0⟩ = some secs ∧
        clockSecsToYmdhms secs = some ⟨2000, 2, 29, 2, 0, 0, 0⟩ := by
  have hfits : 951782400 < yearsBefore (65536 - 1970) * 86400 := by
    have hmono : yearsBefore 31 ≤ yearsBefore (65536 - 1970) := upTo_mono (by decide)
    have hyears : yearsBefore 31 = 11323 := by decide
    omega
  have hvalid : ClockYmdhms.Valid ⟨2000, 2, 29, 2, 0, 0, 0⟩ := by constructor <;> decide
  obtain ⟨⟨dt, hdt, -, -, htime⟩, hdate⟩ := clock_roundTrip_iff 951782400 hfits _ hvalid
  refine ⟨⟨dt, hdt, htime.2 (by decide)⟩, ?_⟩
  have hnumber : hvalid.date.number = 11016 := by
    rw [hvalid.number_eq, show (2000 : UInt16).toNat = 2000 from rfl]
    decide
  obtain ⟨secs, hsecs, hback⟩ := hdate.2 (hvalid.minutes_lt (by decide))
  rw [hnumber] at hback
  exact ⟨secs, hsecs, hback⟩

/-- The first time whose minutes do not fit comes back negative. -/
theorem not_clock_roundTrip :
    clockSecsToYmdhms 128849018880 = some ⟨6053, 1, 23, 4, 2, 8, 0⟩ ∧
      clockYmdhmsToSecs ⟨6053, 1, 23, 4, 2, 8, 0⟩ = some (-128849018880) := by
  have hvalid : ClockYmdhms.Valid ⟨6053, 1, 23, 4, 2, 8, 0⟩ := by constructor <;> decide
  have hnumber : hvalid.date.number = 1491308 := by
    have hyear : (6053 : UInt16).toNat = 6053 := rfl
    have hday : upTo (monthLen 6053) 0 + 22 = 22 := rfl
    rw [hvalid.number_eq, hyear, yearsBefore_6053]
    exact congrArg (1491286 + ·) hday
  have hminutes : hvalid.minutes = 2 ^ 31 := by
    unfold ClockYmdhms.Valid.minutes
    rw [hnumber]
    rfl
  have hof := hvalid.eq_ofDate
  rw [hnumber] at hof
  constructor
  · have hyear : hvalid.date.year < 65536 := (6053 : UInt16).toNat_lt
    have htime : (128849018880 : Int) = ((hvalid.date.number * 86400 + 7680 : Nat) : Int) := by
      rw [hnumber]
      norm_cast
    have hsecond : ClockYmdhms.daySecond ⟨6053, 1, 23, 4, 2, 8, 0⟩ = 7680 := rfl
    rw [hsecond] at hof
    rw [clockSecsToYmdhms_eq hyear (by decide : 7680 < 86400) htime, hof]
    rfl
  · rw [clockYmdhmsToSecs_eq hvalid, hminutes]
    rfl

end OpenBsd.Kern
