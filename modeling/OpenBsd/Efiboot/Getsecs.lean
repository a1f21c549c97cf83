/-
  OpenBsd.Efiboot.Getsecs

  `getsecs` of `sys/arch/amd64/stand/efiboot/efiboot.c`, the clock of the boot loader, and
  when it agrees with the clock of the kernel: `clock_ymdhms_to_secs` of the same fields.
-/

import OpenBsd.Kern.ClockSafe

namespace OpenBsd.Efiboot

open OpenBsd.Lib OpenBsd.Kern

/-- `EFI_TIME`, as far as it is read. -/
structure EfiTime where
  year : UInt16
  month : UInt8
  day : UInt8
  hour : UInt8
  minute : UInt8
  second : UInt8
  timeZone : Int16
  deriving DecidableEq

def efiUnspecifiedTimezone : Int16 := 0x07FF

def isleap (y : Nat) : Bool := y % 4 == 0 && (y % 100 != 0 || y % 400 == 0)

/-- The last day of the year in front of each month, counted from 0 on. -/
def daytab : List (List Int) :=
  [[0, -1, 30, 58, 89, 119, 150, 180, 211, 242, 272, 303, 333, 364],
   [0, -1, 30, 59, 90, 120, 151, 181, 212, 243, 273, 304, 334, 365]]

/-- `getsecs` of the time the firmware returns; there is no result when a month behind the
    table is read. -/
def getsecs (t : EfiTime) : Option Int := do
  let row ← daytab[if isleap t.year.toNat then 1 else 0]?
  let days ← row[t.month.toNat]?
  -- days from the epoch
  let r : Int := ((t.year.toNat : Int) - 1970) * 365
  let r := (List.range' 1970 (t.year.toNat - 1970)).foldl
    (fun r y => if isleap y then r + 1 else r) r
  let r := r + (days + t.day.toNat)
  -- seconds
  let r := r * (60 * 60 * 24)
  let r := r + ((((t.hour.toNat : Int) * 60) + t.minute.toNat) * 60 + t.second.toNat)
  return if -24 * 60 < t.timeZone.toInt && t.timeZone.toInt < 24 * 60 then
    r + t.timeZone.toInt * 60
  else r

/-- The fields of the time for the kernel. -/
def EfiTime.ymdhms (t : EfiTime) : ClockYmdhms where
  dtYear := t.year
  dtMon := t.month
  dtDay := t.day
  dtWday := 0
  dtHour := t.hour
  dtMin := t.minute
  dtSec := t.second

/-- The minutes of the time zone, none for an unspecified one. -/
def EfiTime.zone (t : EfiTime) : Int :=
  if t.timeZone = efiUnspecifiedTimezone then 0 else t.timeZone.toInt

def EfiTime.ZoneOk (t : EfiTime) : Prop :=
  t.timeZone = efiUnspecifiedTimezone ∨ -1440 ≤ t.timeZone.toInt ∧ t.timeZone.toInt ≤ 1440

theorem isleap_iff (y : Nat) : isleap y = true ↔ IsLeap y := by
  simp [isleap, IsLeap]

theorem leaps_foldl (n : Nat) (r : Int) :
    (List.range' 1970 n).foldl (fun r y => if isleap y then r + 1 else r) (n * 365 + r)
      = yearsBefore n + r := by
  induction n generalizing r with
  | zero => rfl
  | succ n ih =>
    have hsucc : yearsBefore (n + 1) = yearsBefore n + yearLen (1970 + n) := upTo_succ n
    have hstart : ((n + 1 : Nat) : Int) * 365 + r = n * 365 + (365 + r) := by omega
    rw [List.range'_1_concat, List.foldl_append, hstart, ih, List.foldl_cons, List.foldl_nil,
      hsucc, yearLen]
    by_cases hl : IsLeap (1970 + n)
    · rw [if_pos ((isleap_iff _).2 hl), if_pos hl]
      push_cast
      omega
    · rw [if_neg (fun h => hl ((isleap_iff _).1 h)), if_neg hl]
      push_cast
      omega

theorem daytab_eq {year m : Nat} (h1 : 1 ≤ m) (h12 : m ≤ 12) :
    (daytab[if isleap year then 1 else 0]?).bind (fun row => row[m]?)
      = some ((upTo (monthLen year) (m - 1) : Int) - 1) := by
  by_cases hl : IsLeap year
  · rw [if_pos ((isleap_iff year).2 hl)]
    interval_cases m <;> simp [daytab, upTo, Finset.sum_range_succ, monthLen, hl]
  · rw [if_neg (fun h => hl ((isleap_iff year).1 h))]
    interval_cases m <;> simp [daytab, upTo, Finset.sum_range_succ, monthLen, hl]

theorem getsecs_eq {t : EfiTime} (h : t.ymdhms.Valid) :
    getsecs t = some ((h.minutes : Int) * 60 + t.second.toNat
      + if -1440 < t.timeZone.toInt ∧ t.timeZone.toInt < 1440 then t.timeZone.toInt * 60
        else 0) := by
  have hbase : 1970 ≤ t.year.toNat := h.year
  have hd1 : 1 ≤ t.day.toNat := h.one_le_day
  have htab := @daytab_eq t.year.toNat t.month.toNat h.one_le_mon h.mon_le
  have hstart : ((t.year.toNat : Int) - 1970) * 365
      = ((t.year.toNat - 1970 : Nat) : Int) * 365 + 0 := by omega
  have hnumber : h.date.number = yearsBefore (t.year.toNat - 1970)
      + (upTo (monthLen t.year.toNat) (t.month.toNat - 1) + (t.day.toNat - 1)) := rfl
  have hminutes : h.minutes = (h.date.number * 24 + t.hour.toNat) * 60 + t.minute.toNat := rfl
  simp only [getsecs, Option.bind_eq_bind, ← Option.bind_assoc, htab, Option.bind_some, hstart,
    leaps_foldl, Option.pure_def, Option.some_inj, Bool.and_eq_true, decide_eq_true_iff]
  rw [hminutes, hnumber]
  split
  · rename_i hz
    rw [if_pos (by omega)]
    push_cast
    omega
  · rename_i hz
    rw [if_neg (by omega)]
    push_cast
    omega

/-- The loader and the kernel have the same time exactly while the minutes since 1970 fit in
    an `int` and the time zone is not one of the two outermost, a day away. -/
theorem getsecs_eq_clockYmdhmsToSecs_iff {t : EfiTime} (h : t.ymdhms.Valid) (hz : t.ZoneOk) :
    getsecs t = (clockYmdhmsToSecs t.ymdhms).map (· + 60 * t.zone)
      ↔ h.minutes < 2 ^ 31 ∧ t.timeZone.toInt ≠ -1440 ∧ t.timeZone.toInt ≠ 1440 := by
  have hsec : t.ymdhms.dtSec = t.second := rfl
  -- an int goes wrong by a multiple of 2^32, more than any time zone
  have hmod : asInt h.minutes % (2 ^ 32 : Nat) = h.minutes % (2 ^ 32 : Nat) := Int.bmod_emod
  have hint := asInt_eq_iff h.minutes
  have hunspec : efiUnspecifiedTimezone.toInt = 2047 := by decide
  rw [getsecs_eq h, clockYmdhmsToSecs_eq h, Option.map_some, Option.some_inj, hsec, ← hint,
    EfiTime.zone]
  rcases hz with hz | hz
  · rw [if_pos hz, hz, hunspec, if_neg (by decide)]
    constructor
    · intro heq
      exact ⟨by omega, by decide, by decide⟩
    · rintro ⟨hm, -⟩
      omega
  · have hne : t.timeZone ≠ efiUnspecifiedTimezone := by
      intro heq
      rw [heq, hunspec] at hz
      omega
    rw [if_neg hne]
    split
    · constructor
      · intro heq
        exact ⟨by omega, by omega, by omega⟩
      · rintro ⟨hm, -⟩
        omega
    · constructor
      · intro heq
        exact ⟨by omega, by omega, by omega⟩
      · rintro ⟨hm, hlo, hhi⟩
        omega

/-- A time in summer, two hours east of Greenwich. -/
theorem getsecs_eq_clockYmdhmsToSecs_iff_summer :
    getsecs ⟨2026, 7, 1, 12, 0, 0, -120⟩
      = (clockYmdhmsToSecs (EfiTime.ymdhms ⟨2026, 7, 1, 12, 0, 0, -120⟩)).map (· + 60 * (-120)) := by
  have hvalid : (EfiTime.ymdhms ⟨2026, 7, 1, 12, 0, 0, -120⟩).Valid := by constructor <;> decide
  have hzone : EfiTime.ZoneOk ⟨2026, 7, 1, 12, 0, 0, -120⟩ := Or.inr (by decide)
  exact (getsecs_eq_clockYmdhmsToSecs_iff hvalid hzone).2
    ⟨hvalid.minutes_lt (by decide), by decide, by decide⟩

/-- In a time zone a day away the loader is a day early. -/
theorem not_getsecs_eq_clockYmdhmsToSecs :
    getsecs ⟨1970, 1, 2, 0, 0, 0, 1440⟩ = some 86400 ∧
      (clockYmdhmsToSecs (EfiTime.ymdhms ⟨1970, 1, 2, 0, 0, 0, 1440⟩)).map (· + 60 * 1440)
        = some 172800 := by
  decide

end OpenBsd.Efiboot
