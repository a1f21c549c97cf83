/-
  OpenBsd.Kern.ClockSubr

  POSIX times and calendar dates: `clock_ymdhms_to_secs` and `clock_secs_to_ymdhms` of
  `kern/clock_subr.c`.

  A `time_t` is an integer.  An `int` that does not fit is undefined in C; here it is
  reduced modulo 2^32.
-/

import Mathlib.Algebra.Group.Nat.Defs
import Mathlib.Data.List.Basic

namespace OpenBsd.Kern

/-- `struct clock_ymdhms` -/
structure ClockYmdhms where
  dtYear : UInt16
  dtMon : UInt8
  dtDay : UInt8
  dtWday : UInt8
  dtHour : UInt8
  dtMin : UInt8
  dtSec : UInt8
  deriving DecidableEq, Repr

def posixBaseYear : Nat := 1970

def secday : Int := 86400

def february : Nat := 2

def monthDays : List Int := [31, 28, 31, 30, 31, 30, 31, 31, 30, 31, 30, 31]

/-- What an `int` holds. -/
def asInt (x : Int) : Int := x.bmod (2 ^ 32)

def leapyear (year : Nat) : Bool :=
  if year &&& 3 == 0 then
    if year % 100 == 0 then year % 400 == 0 else true
  else false

def daysInYear (year : Nat) : Int := if leapyear year then 366 else 365

/-- `clock_ymdhms_to_secs`; there is no result when a month behind the table is read. -/
def clockYmdhmsToSecs (dt : ClockYmdhms) : Option Int := do
  let year := dt.dtYear.toNat
  let days := (List.range' posixBaseYear (year - posixBaseYear)).foldl
    (fun days i => days + daysInYear i) 0
  let days := if leapyear year && dt.dtMon.toNat > february then days + 1 else days
  let days ← (List.range' 1 (dt.dtMon.toNat - 1)).foldlM
    (fun days i => (monthDays[i - 1]?).map fun n => days + n) days
  let days := days + ((dt.dtDay.toNat : Int) - 1)
  -- the cast to time_t stands in front of the minutes, which are an int
  return asInt ((days * 24 + dt.dtHour.toNat) * 60 + dt.dtMin.toNat) * 60 + dt.dtSec.toNat

/-- Subtracting out whole years. -/
def yearLoop (i : Nat) (days : Int) : Nat × Int :=
  if daysInYear i ≤ days then yearLoop (i + 1) (days - daysInYear i) else (i, days)
termination_by days.toNat
decreasing_by
  have : 365 ≤ daysInYear i := by
    unfold daysInYear
    split <;> decide
  omega

/-- Subtracting out whole months. -/
def monthLoop : List Int → Nat → Int → Option (Nat × Int)
  | [], _, _ => none
  | n :: rest, i, days => if n ≤ days then monthLoop rest (i + 1) (days - n) else some (i, days)

def clockSecsToYmdhms (secs : Int) : Option ClockYmdhms := do
  let days := asInt (secs.tdiv secday)
  let rsec := asInt (secs.tmod secday)
  let wday := (days + 4).tmod 7
  let (year, days) := yearLoop posixBaseYear days
  let mthdays := if leapyear year then monthDays.set (february - 1) 29 else monthDays
  let (mon, days) ← monthLoop mthdays 1 days
  return {
    dtYear := UInt16.ofNat year
    dtMon := UInt8.ofNat mon
    dtDay := UInt8.ofInt (days + 1)
    dtWday := UInt8.ofInt wday
    dtHour := UInt8.ofInt (rsec.tdiv 3600)
    dtMin := UInt8.ofInt ((rsec.tmod 3600).tdiv 60)
    dtSec := UInt8.ofInt ((rsec.tmod 3600).tmod 60) }

end OpenBsd.Kern
