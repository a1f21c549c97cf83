/-
  OpenBsd.Msdosfs.MsdosfsTime

  The time stamps of `sys/msdosfs/msdosfs_conv.c`: `unix2dostime`, `dos2unixtime` and the
  results of the last conversion that the two keep in globals.

  A `time_t` is an integer; a `u_short` or `uint32_t` is a natural number, reduced where it
  is stored.
-/

import Mathlib.Tactic.Ring

namespace OpenBsd.Msdosfs

structure Timespec where
  tvSec : Int
  tvNsec : Int
  deriving DecidableEq

/-- The globals, which start as zeros. -/
structure ConvCache where
  lasttime : Int := 0
  lastday : Nat := 0
  lastddate : Nat := 0
  lastdtime : Nat := 0
  lastdosdate : Nat := 0
  lastseconds : Nat := 0
  deriving DecidableEq

def regyear : List Nat := [31, 28, 31, 30, 31, 30, 31, 31, 30, 31, 30, 31]

def leapyear : List Nat := [31, 29, 31, 30, 31, 30, 31, 31, 30, 31, 30, 31]

/-- `year & 0x03 ? 365 : 366` -/
def yearInc (year : Nat) : Nat := if year &&& 3 ≠ 0 then 365 else 366

/-- `year & 0x03 ? regyear : leapyear` -/
def yearMonths (year : Nat) : List Nat := if year &&& 3 ≠ 0 then regyear else leapyear

def dosepoch : Int := 315532800

def dosendtime : Int := 4354775999

def secondsto1980 : Nat := (8 * 365 + 2 * 366) * (24 * 60 * 60)

/-- `tz.tz_minuteswest * 60`, an `int`. -/
def tzSeconds (tz : Int) : Int := (tz * 60).bmod (2 ^ 32)

theorem and_three (year : Nat) : year &&& 3 = year % 4 := Nat.and_two_pow_sub_one_eq_mod year 2

theorem yearInc_cases (year : Nat) :
    year % 4 ≠ 0 ∧ yearInc year = 365 ∨ year % 4 = 0 ∧ yearInc year = 366 := by
  unfold yearInc
  split <;> rw [and_three] at * <;> omega

/-- The loop over the years, with the days that are left. -/
def yearLoop (days year : Nat) : Nat × Nat :=
  if days < yearInc year then (days, year) else yearLoop (days - yearInc year) (year + 1)
termination_by days
decreasing_by
  have := yearInc_cases year
  omega

/-- The loop over the months. -/
def monthLoop : List Nat → Nat → Nat → Nat × Nat
  | [], days, month => (days, month)
  | n :: months, days, month =>
    if days < n then (days, month) else monthLoop months (days - n) (month + 1)

/-- `lastddate` for a day. -/
def dosDate (days : Nat) : Nat :=
  let (days, year) := yearLoop days 1970
  let (days, month) := monthLoop (yearMonths year) days 0
  let ddate := (days + 1 + (month + 1) <<< 5) % 2 ^ 16
  if year > 1980 then (ddate + (year - 1980) <<< 9) % 2 ^ 16 else ddate

/-- `lastdtime` for a time. -/
def dosTime (t : Int) : Nat :=
  (t / 2 % 30 + t / 60 % 60 * 2 ^ 5 + t / 3600 % 24 * 2 ^ 11).toNat % 2 ^ 16

/-- The day of a time. -/
def dosDay (t : Int) : Nat := (t / (24 * 60 * 60)).toNat % 2 ^ 32

/-- The time that is converted: in the zone, even, and within what DOS knows. -/
def dosClamp (tz tvSec : Int) : Int :=
  let t := tvSec - tzSeconds tz
  let t := t - t % 2
  if t < dosepoch ∨ dosendtime < t then dosepoch else t

/-- `unix2dostime` with the fields it stores. -/
def unix2dostime (tz : Int) (c : ConvCache) (tsp : Timespec) : (Nat × Nat × Nat) × ConvCache :=
  let t := dosClamp tz tsp.tvSec
  let c :=
    if c.lasttime ≠ t then
      let c := { c with lasttime := t, lastdtime := dosTime t }
      let days := dosDay t
      if days ≠ c.lastday then { c with lastday := days, lastddate := dosDate days } else c
    else c
  let dh := ((tsp.tvSec % 2 * 100 + tsp.tvNsec.tdiv 10000000) % 2 ^ 8).toNat
  ((c.lastddate, c.lastdtime, dh), c)

/-- `lastseconds` for a date; `past` is what lies behind the months in memory. -/
def dosSeconds (past : List Nat → Nat → Nat) (dd : Nat) : Nat :=
  let year := (dd &&& 0xfe00) >>> 9
  let days := (List.range year).foldl (fun days y => days + yearInc y) 0
  let months := yearMonths year
  let month := (dd &&& 0x1e0) >>> 5
  let month := if month = 0 then 1 else month
  let days := (List.range (month - 1)).foldl
    (fun days m => days + months.getD m (past months m)) days
  -- the day 0 wraps around
  let days := (days + ((dd &&& 0x1f) + (2 ^ 32 - 1))) % 2 ^ 32
  (days * 24 * 60 * 60 + secondsto1980) % 2 ^ 32

def dos2unixtime (tz : Int) (past : List Nat → Nat → Nat) (c : ConvCache) (dd dt dh : Nat) :
    Timespec × ConvCache :=
  if dd = 0 then (⟨0, 0⟩, c)
  else
    let seconds := (dt &&& 0x1f) * 2 + (dt &&& 0x7e0) >>> 5 * 60 +
      (dt &&& 0xf800) >>> 11 * 3600 + dh / 100
    let c :=
      if c.lastdosdate ≠ dd then
        { c with lastdosdate := dd % 2 ^ 16, lastseconds := dosSeconds past dd }
      else c
    (⟨(seconds + c.lastseconds + tzSeconds tz) % 2 ^ 32, dh % 100 * 10000000⟩, c)

/-- A conversion that has come before. -/
inductive ConvCall where
  | unix2dos (tsp : Timespec)
  | dos2unix (dd dt dh : Nat)

/-- What the conversions `calls` leave in the globals. -/
def convCalls (tz : Int) (past : List Nat → Nat → Nat) (c : ConvCache) (calls : List ConvCall) :
    ConvCache :=
  calls.foldl (fun c call => match call with
    | .unix2dos tsp => (unix2dostime tz c tsp).2
    | .dos2unix dd dt dh => (dos2unixtime tz past c dd dt dh).2) c

variable {tz : Int} {past : List Nat → Nat → Nat} {c : ConvCache} {tsp : Timespec} {t : Int}

/-! ## The days of a year and of a month -/

theorem yearLoop_spec {days year d y : Nat} (h : yearLoop days year = (d, y)) :
    year ≤ y ∧ d < yearInc y ∧ days + (365 * year + (year + 3) / 4) =
      365 * y + (y + 3) / 4 + d := by
  induction days, year using yearLoop.induct with
  | case1 days year hlt =>
    rw [yearLoop, if_pos hlt] at h
    cases h
    exact ⟨Nat.le_refl _, hlt, Nat.add_comm _ _⟩
  | case2 days year hle ih =>
    rw [yearLoop, if_neg hle] at h
    obtain ⟨hy, hd, hsum⟩ := ih h
    have := yearInc_cases year
    exact ⟨by omega, hd, by omega⟩

theorem yearInc_sum (n : Nat) :
    (List.range n).foldl (fun days y => days + yearInc y) 0 = 365 * n + (n + 3) / 4 := by
  induction n with
  | zero => rfl
  | succ n ih =>
    rw [List.range_succ, List.foldl_append, ih, List.foldl_cons, List.foldl_nil]
    have := yearInc_cases n
    omega

theorem monthLoop_spec {months : List Nat} {days month d m : Nat} (p : Nat → Nat)
    (hlt : days < months.sum) (h : monthLoop months days month = (d, m)) :
    ∃ k, m = month + k ∧ k < months.length ∧ d < months.getD k 0 ∧
      ∀ n, (List.range k).foldl (fun days i => days + months.getD i (p i)) n + d = n + days := by
  induction months generalizing days month p with
  | nil => exact absurd hlt (Nat.not_lt_zero _)
  | cons a months ih =>
    rw [monthLoop] at h
    split at h
    · rename_i hd
      cases h
      exact ⟨0, rfl, Nat.succ_pos _, hd, fun n => rfl⟩
    · rename_i hd
      rw [List.sum_cons] at hlt
      obtain ⟨k, hm, hk, hlast, hsum⟩ := ih (p ∘ Nat.succ) (by omega) h
      refine ⟨k + 1, by omega, Nat.succ_lt_succ hk, hlast, fun n => ?_⟩
      rw [List.range_succ_eq_map, List.foldl_cons, List.foldl_map]
      have := hsum (n + a)
      simp only [Function.comp] at this
      simp only [List.getD_cons_succ, List.getD_cons_zero]
      omega

theorem yearMonths_sum (year : Nat) : (yearMonths year).sum = yearInc year := by
  unfold yearMonths yearInc
  split <;> rfl

theorem yearMonths_length (year : Nat) : (yearMonths year).length = 12 := by
  unfold yearMonths
  split <;> rfl

theorem yearMonths_le (year k : Nat) : (yearMonths year).getD k 0 ≤ 31 := by
  have hall : ∀ n ∈ yearMonths year, n ≤ 31 := by
    unfold yearMonths
    split <;> decide
  rw [List.getD_eq_getElem?_getD]
  cases h : (yearMonths year)[k]? with
  | none => exact Nat.zero_le _
  | some n => exact hall n (List.mem_of_getElem? h)

/-! ## The fields -/

theorem and_mask_shiftRight (x n s : Nat) :
    (x &&& (2 ^ n - 1) <<< s) >>> s = x / 2 ^ s % 2 ^ n := by
  rw [Nat.shiftRight_and_distrib, Nat.shiftLeft_shiftRight, Nat.and_two_pow_sub_one_eq_mod,
    Nat.shiftRight_eq_div_pow]

theorem low_field (x : Nat) : x &&& 0x1f = x % 32 := Nat.and_two_pow_sub_one_eq_mod x 5
theorem year_field (x : Nat) : (x &&& 0xfe00) >>> 9 = x / 512 % 128 := and_mask_shiftRight x 7 9
theorem month_field (x : Nat) : (x &&& 0x1e0) >>> 5 = x / 32 % 16 := and_mask_shiftRight x 4 5
theorem hours_field (x : Nat) : (x &&& 0xf800) >>> 11 = x / 2048 % 32 :=
  and_mask_shiftRight x 5 11
theorem minutes_field (x : Nat) : (x &&& 0x7e0) >>> 5 = x / 32 % 64 := and_mask_shiftRight x 6 5

theorem dosSeconds_mod (dd : Nat) : dosSeconds past (dd % 2 ^ 16) = dosSeconds past dd := by
  simp only [dosSeconds, low_field, year_field, month_field,
    show dd % 2 ^ 16 / 512 % 128 = dd / 512 % 128 by omega,
    show dd % 2 ^ 16 / 32 % 16 = dd / 32 % 16 by omega,
    show dd % 2 ^ 16 % 32 = dd % 32 by omega]

theorem dosTime_fields (t : Int) (heven : t % 2 = 0) :
    ((dosTime t % 32 * 2 + dosTime t / 32 % 64 * 60 + dosTime t / 2048 % 32 * 3600 : Nat) : Int) =
      t % 86400 := by
  have htime : (dosTime t : Int) = t / 2 % 30 + t / 60 % 60 * 32 + t / 3600 % 24 * 2048 := by
    unfold dosTime
    omega
  have hsec : dosTime t % 32 = (t / 2 % 30).toNat := by omega
  have hmin : dosTime t / 32 % 64 = (t / 60 % 60).toNat := by omega
  have hhour : dosTime t / 2048 % 32 = (t / 3600 % 24).toNat := by omega
  rw [hsec, hmin, hhour]
  omega

/-- A day from 1980 on is found again. -/
theorem dosSeconds_dosDate (past : List Nat → Nat → Nat) {days : Nat} (hmin : 3652 ≤ days)
    (hmax : days ≤ 50402) : dosDate days ≠ 0 ∧ dosSeconds past (dosDate days) = days * 86400 % 2 ^ 32 := by
  cases hyear : yearLoop days 1970 with | mk d y
  obtain ⟨hy, hd, hdays⟩ := yearLoop_spec hyear
  cases hmonth : monthLoop (yearMonths y) d 0 with | mk e m
  obtain ⟨k, hm, hk, he, hsum⟩ :=
    monthLoop_spec (past (yearMonths y)) (by rwa [yearMonths_sum]) hmonth
  have he31 := yearMonths_le y k
  rw [yearMonths_length] at hk
  have hinc := yearInc_cases y
  have hdate : dosDate days = e + 1 + (k + 1) * 32 + (y - 1980) * 512 := by
    simp only [dosDate, hyear, hmonth, hm, Nat.shiftLeft_eq]
    split <;> omega
  have hyears : (e + 1 + (k + 1) * 32 + (y - 1980) * 512) / 512 % 128 = y - 1980 := by omega
  have hmonths : (e + 1 + (k + 1) * 32 + (y - 1980) * 512) / 32 % 16 = k + 1 := by omega
  have hleap : yearMonths (y - 1980) = yearMonths y := by
    rw [yearMonths, yearMonths, and_three, and_three, show (y - 1980) % 4 = y % 4 by omega]
  have hday : (e + 1 + (k + 1) * 32 + (y - 1980) * 512) % 32 = e + 1 := by omega
  rw [hdate]
  refine ⟨by omega, ?_⟩
  have hleft := hsum (365 * (y - 1980) + (y - 1980 + 3) / 4)
  rw [show 365 * (y - 1980) + (y - 1980 + 3) / 4 + d = days - 3652 by omega] at hleft
  have hwrap (n : Nat) (hn : n + e = days - 3652) :
      (n + (e + 1 + (2 ^ 32 - 1))) % 2 ^ 32 = days - 3652 := by omega
  simp only [dosSeconds, low_field, year_field, month_field, hyears, hmonths, hday, hleap,
    yearInc_sum, if_neg (Nat.succ_ne_zero k), Nat.add_sub_cancel, secondsto1980, hwrap _ hleft]
  omega

/-! ## The globals -/

/-- What is kept belongs to the time, the day and the date it is kept with. -/
structure ConvCache.Ok (past : List Nat → Nat → Nat) (c : ConvCache) : Prop where
  dos : c.lasttime = 0 ∧ c.lastday = 0 ∨ c.lastdtime = dosTime c.lasttime ∧
    c.lastday = dosDay c.lasttime ∧ c.lastddate = dosDate c.lastday
  unix : c.lastdosdate = 0 ∨ c.lastseconds = dosSeconds past c.lastdosdate

theorem dosClamp_range (tz tvSec : Int) :
    315532800 ≤ dosClamp tz tvSec ∧ dosClamp tz tvSec ≤ 4354775999 := by
  unfold dosClamp
  dsimp only
  split <;> simp only [dosepoch, dosendtime] at * <;> omega

theorem dosDay_range (h : 315532800 ≤ t ∧ t ≤ 4354775999) :
    dosDay t = (t / 86400).toNat ∧ 3652 ≤ dosDay t ∧ dosDay t ≤ 50402 := by
  unfold dosDay
  omega

/-- The fields do not depend on what is kept. -/
theorem unix2dostime_spec (hc : c.Ok past) (tz : Int) (tsp : Timespec) :
    (unix2dostime tz c tsp).2.Ok past ∧
      (unix2dostime tz c tsp).1 = (dosDate (dosDay (dosClamp tz tsp.tvSec)),
        dosTime (dosClamp tz tsp.tvSec),
        ((tsp.tvSec % 2 * 100 + tsp.tvNsec.tdiv 10000000) % 2 ^ 8).toNat) := by
  have hrange := dosClamp_range tz tsp.tvSec
  have hday := dosDay_range hrange
  obtain ⟨hdos, hunix⟩ := hc
  unfold unix2dostime
  generalize dosClamp tz tsp.tvSec = t at *
  dsimp only
  split
  · split
    · exact ⟨⟨.inr ⟨rfl, rfl, rfl⟩, hunix⟩, rfl⟩
    · rename_i hsame
      obtain ⟨-, hzero⟩ | ⟨-, -, hdate⟩ := hdos
      · omega
      · have hsame := not_not.mp hsame
        rw [← hsame] at hdate
        exact ⟨⟨.inr ⟨rfl, hsame.symm, hsame ▸ hdate⟩, hunix⟩, by rw [hdate]⟩
  · rename_i hsame
    have hsame := not_not.mp hsame
    obtain ⟨hzero, -⟩ | ⟨htime, hlast, hdate⟩ := hdos
    · omega
    · refine ⟨⟨.inr ⟨htime, hlast, hdate⟩, hunix⟩, ?_⟩
      rw [hdate, hlast, htime, hsame]

theorem dos2unixtime_spec (hc : c.Ok past) (dd dt dh : Nat) :
    (dos2unixtime tz past c dd dt dh).2.Ok past ∧
      (dos2unixtime tz past c dd dt dh).1 = if dd = 0 then ⟨0, 0⟩ else
        ⟨(((dt % 32 * 2 + dt / 32 % 64 * 60 + dt / 2048 % 32 * 3600 + dh / 100 : Nat) : Int) +
          dosSeconds past dd + tzSeconds tz) % 2 ^ 32, dh % 100 * 10000000⟩ := by
  unfold dos2unixtime
  split
  · exact ⟨hc, rfl⟩
  · rename_i hdd
    rw [low_field, minutes_field, hours_field]
    dsimp only
    split
    · exact ⟨⟨hc.dos, .inr (dosSeconds_mod dd).symm⟩, rfl⟩
    · rename_i hsame
      have hsame := not_not.mp hsame
      refine ⟨hc, ?_⟩
      obtain hzero | hlast := hc.unix
      · exact absurd (hsame ▸ hzero) hdd
      · rw [hlast, hsame]

theorem convCalls_ok (hc : c.Ok past) (tz : Int) (calls : List ConvCall) :
    (convCalls tz past c calls).Ok past := by
  induction calls generalizing c with
  | nil => exact hc
  | cons call calls ih =>
    cases call with
    | unix2dos tsp => exact ih (unix2dostime_spec hc tz tsp).1
    | dos2unix dd dt dh => exact ih (dos2unixtime_spec hc dd dt dh).1

theorem initial_ok (past : List Nat → Nat → Nat) : ConvCache.Ok past {} :=
  ⟨.inl ⟨rfl, rfl⟩, .inl rfl⟩

/-- The seconds come back modulo 2^32. -/
theorem dos2unixtime_unix2dostime {c' : ConvCache} (hc : c.Ok past) (hc' : c'.Ok past)
    (hmin : dosepoch ≤ tsp.tvSec - tzSeconds tz) (hmax : tsp.tvSec - tzSeconds tz ≤ dosendtime)
    (h0 : 0 ≤ tsp.tvNsec) (hns : tsp.tvNsec < 1000000000) :
    let r := (unix2dostime tz c tsp).1
    (dos2unixtime tz past c' r.1 r.2.1 r.2.2).1 =
      ⟨tsp.tvSec % 2 ^ 32, tsp.tvNsec / 10000000 * 10000000⟩ := by
  have htz : tzSeconds tz % 2 = 0 := by
    rw [tzSeconds, Int.bmod_def]
    split <;> omega
  have ht : dosClamp tz tsp.tvSec = tsp.tvSec - tzSeconds tz - tsp.tvSec % 2 := by
    unfold dosClamp
    dsimp only
    split <;> simp only [dosepoch, dosendtime] at * <;> omega
  have hrange := dosClamp_range tz tsp.tvSec
  obtain ⟨hday, hday0, hday1⟩ := dosDay_range hrange
  obtain ⟨hdd, hseconds⟩ := dosSeconds_dosDate past hday0 hday1
  have hdh : ((tsp.tvSec % 2 * 100 + tsp.tvNsec.tdiv 10000000) % 2 ^ 8).toNat =
      (tsp.tvSec % 2).toNat * 100 + (tsp.tvNsec / 10000000).toNat := by
    have hmin : 0 ≤ tsp.tvNsec / 10000000 := by omega
    have hmax : tsp.tvNsec / 10000000 < 100 := by omega
    rw [Int.tdiv_eq_ediv_of_nonneg h0]
    omega
  have htime := dosTime_fields (dosClamp tz tsp.tvSec) (by omega)
  rw [(unix2dostime_spec hc tz tsp).2]
  dsimp only
  rw [(dos2unixtime_spec hc' _ _ _).2, if_neg hdd, hseconds, hday, hdh, Int.natCast_add, htime,
    Timespec.mk.injEq]
  constructor <;> omega

/-- For every zone, every history of conversions before and between the two, and every time
    within what DOS knows: both results are those of cleared globals, and the time comes back
    but for the part below 10 ms, exactly when its seconds fit into the `uint32_t` they are added
    up in. -/
theorem dos_time_round_trip (tz : Int) (past : List Nat → Nat → Nat) (before between :
    List ConvCall) (tsp : Timespec) (hmin : dosepoch ≤ tsp.tvSec - tzSeconds tz)
    (hmax : tsp.tvSec - tzSeconds tz ≤ dosendtime) (h0 : 0 ≤ tsp.tvNsec)
    (hns : tsp.tvNsec < 1000000000) :
    let r := unix2dostime tz (convCalls tz past {} before) tsp
    let res := dos2unixtime tz past (convCalls tz past r.2 between) r.1.1 r.1.2.1 r.1.2.2
    res.1 = ⟨tsp.tvSec, tsp.tvNsec / 10000000 * 10000000⟩ ∧
        r.1 = (unix2dostime tz {} tsp).1 ∧
        res.1 = (dos2unixtime tz past {} r.1.1 r.1.2.1 r.1.2.2).1 ↔
      0 ≤ tsp.tvSec ∧ tsp.tvSec < 2 ^ 32 := by
  have hbefore := convCalls_ok (initial_ok past) tz before
  have hr := unix2dostime_spec hbefore tz tsp
  have hbetween := convCalls_ok hr.1 tz between
  dsimp only
  rw [(dos2unixtime_spec hbetween _ _ _).2, (dos2unixtime_spec (initial_ok past) _ _ _).2,
    ← (dos2unixtime_spec hbetween _ _ _).2,
    dos2unixtime_unix2dostime hbefore hbetween hmin hmax h0 hns, hr.2,
    (unix2dostime_spec (initial_ok past) tz tsp).2]
  simp only [Timespec.mk.injEq, and_true]
  omega

/-- Seven seconds before noon on a summer day, west of Greenwich. -/
theorem dos_time_round_trip_noon :
    let r := unix2dostime 300 (convCalls 300 (fun _ _ => 0) {} [.dos2unix 33 0 0])
      ⟨962970593, 125000000⟩
    let res := dos2unixtime 300 (fun _ _ => 0)
      (convCalls 300 (fun _ _ => 0) r.2 [.unix2dos ⟨0, 0⟩]) r.1.1 r.1.2.1 r.1.2.2
    res.1 = ⟨962970593, 125000000 / 10000000 * 10000000⟩ ∧
        r.1 = (unix2dostime 300 {} ⟨962970593, 125000000⟩).1 ∧
        res.1 = (dos2unixtime 300 (fun _ _ => 0) {} r.1.1 r.1.2.1 r.1.2.2).1 ↔
      (0 : Int) ≤ 962970593 ∧ (962970593 : Int) < 2 ^ 32 :=
  dos_time_round_trip 300 (fun _ _ => 0) [.dos2unix 33 0 0] [.unix2dos ⟨0, 0⟩]
    ⟨962970593, 125000000⟩ (by decide) (by decide) (by decide) (by decide)

/-- The first second that does not fit, in February 2106, comes back as 0. -/
theorem dos_time_lost :
    dosepoch ≤ 4294967296 - tzSeconds 0 ∧ 4294967296 - tzSeconds 0 ≤ dosendtime ∧
      let r := unix2dostime 0 {} ⟨4294967296, 0⟩
      (dos2unixtime 0 (fun _ _ => 0) r.2 r.1.1 r.1.2.1 r.1.2.2).1 ≠ ⟨4294967296, 0⟩ := by
  have h0 := initial_ok fun _ _ => 0
  have hr := unix2dostime_spec h0 0 ⟨4294967296, 0⟩
  refine ⟨by decide, by decide, fun h => ?_⟩
  have hlost := h.symm.trans (dos2unixtime_unix2dostime h0 hr.1 (by decide) (by decide) (by decide)
    (by decide))
  exact absurd hlost (by decide)

end OpenBsd.Msdosfs
