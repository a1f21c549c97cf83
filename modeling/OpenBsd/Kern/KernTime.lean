/-
  OpenBsd.Kern.KernTime

  The interval timers of `kern/kern_time.c` that the clock interrupt counts down.
-/

import Mathlib.Logic.Function.Basic
import Mathlib.Algebra.Order.Ring.Int
import Mathlib.Tactic.SplitIfs
import Mathlib.Tactic.MkIffOfInductiveProp

namespace OpenBsd.Kern

/-- `struct timeval` -/
structure Timeval where
  tvSec : Int
  tvUsec : Int
  deriving DecidableEq

/-- `struct itimerval` -/
structure Itimerval where
  itInterval : Timeval
  itValue : Timeval
  deriving DecidableEq

def itimerReal : Int := 0
def itimerVirtual : Int := 1
def itimerProf : Int := 2
def timeEinval : Nat := 22

/-- `timerisset` -/
def Timeval.isset (tv : Timeval) : Prop := tv.tvSec ≠ 0 ∨ tv.tvUsec ≠ 0

instance (tv : Timeval) : Decidable tv.isset := inferInstanceAs (Decidable (_ ∨ _))

def timeradd (tv uv : Timeval) : Timeval :=
  if 1000000 ≤ tv.tvUsec + uv.tvUsec then
    ⟨tv.tvSec + uv.tvSec + 1, tv.tvUsec + uv.tvUsec - 1000000⟩
  else ⟨tv.tvSec + uv.tvSec, tv.tvUsec + uv.tvUsec⟩

def itimerround (tick : Int) (tv : Timeval) : Timeval :=
  if tv.tvSec = 0 ∧ tv.tvUsec ≠ 0 ∧ tv.tvUsec < tick then { tv with tvUsec := tick } else tv

def itimerfix (tick : Int) (tv : Timeval) : Except Nat Timeval :=
  if tv.tvSec < 0 ∨ 100000000 < tv.tvSec ∨ tv.tvUsec < 0 ∨ 1000000 ≤ tv.tvUsec then
    .error timeEinval
  else .ok (itimerround tick tv)

/-- `sys_setitimer`; `itv` is what `copyin` gives, `oitv` what `sys_getitimer` gives if it is
    called, and `ctv` the time of day. -/
def sysSetitimer (tick : Int) (ctv : Timeval) (timers : Int → Itimerval) (which : Int)
    (itv : Option (Except Nat Itimerval)) (oitv : Except Nat Unit) :
    Except Nat (Int → Itimerval) := do
  if which < itimerReal ∨ itimerProf < which then throw timeEinval
  match itv with
  | none =>
    oitv
    return timers
  | some copyin =>
    let aitv ← copyin
    oitv
    let value ← itimerfix tick aitv.itValue
    let interval ← itimerfix tick aitv.itInterval
    if which = itimerReal then
      return Function.update timers which
        ⟨interval, if value.isset then timeradd value ctv else value⟩
    else return Function.update timers which ⟨itimerround tick interval, value⟩

/-- From the label `expire` of `itimerdecr` on, with the `usec` that are left. -/
def itimerExpire (itp : Itimerval) (usec : Int) : Itimerval :=
  if itp.itInterval.isset then
    let value := { itp.itInterval with tvUsec := itp.itInterval.tvUsec - usec }
    { itp with
      itValue := if value.tvUsec < 0 then ⟨value.tvSec - 1, value.tvUsec + 1000000⟩ else value }
  else { itp with itValue := { itp.itValue with tvUsec := 0 } }

def itimerdecr (itp : Itimerval) (usec : Int) : Itimerval × Int :=
  if itp.itValue.tvUsec < usec ∧ itp.itValue.tvSec = 0 then
    (itimerExpire itp (usec - itp.itValue.tvUsec), 0)
  else
    let value := if itp.itValue.tvUsec < usec then
      ⟨itp.itValue.tvSec - 1, itp.itValue.tvUsec + 1000000⟩ else itp.itValue
    let itp := { itp with itValue := { value with tvUsec := value.tvUsec - usec } }
    if itp.itValue.isset then (itp, 1) else (itimerExpire itp 0, 0)

/-- The timer after `n` interrupts, and how often `itimerdecr` has returned 0: `hardclock`
    calls it while `it_value` is set. -/
def hardclockItimer (tick : Int) (itp : Itimerval) : Nat → Itimerval × Nat
  | 0 => (itp, 0)
  | n + 1 =>
    let r := hardclockItimer tick itp n
    if r.1.itValue.isset then
      let d := itimerdecr r.1 tick
      (d.1, if d.2 = 0 then r.2 + 1 else r.2)
    else r

/-! ## Microseconds -/

def Timeval.usecs (tv : Timeval) : Int := tv.tvSec * 1000000 + tv.tvUsec

/-- The fields are in range; `top` is 999999 for a normalised time. -/
@[mk_iff]
structure Timeval.Within (top : Int) (tv : Timeval) : Prop where
  sec : 0 ≤ tv.tvSec
  usec : 0 ≤ tv.tvUsec
  le_top : tv.tvUsec ≤ top

variable {top tick : Int} {tv : Timeval} {itp : Itimerval}

theorem Timeval.Within.isset_iff (h : tv.Within top) : tv.isset ↔ 0 < tv.usecs := by
  obtain ⟨hsec, husec, -⟩ := h
  simp only [Timeval.isset, Timeval.usecs]
  omega

theorem Timeval.Within.usecs_nonneg (h : tv.Within top) : 0 ≤ tv.usecs := by
  obtain ⟨hsec, husec, -⟩ := h
  simp only [Timeval.usecs]
  omega

/-- What one call finds and leaves: the interval is not shorter than a tick. -/
structure Itimerval.Ok (top tick : Int) (itp : Itimerval) : Prop where
  value : itp.itValue.Within top
  interval : itp.itInterval.Within top
  resolution : itp.itInterval.isset → tick ≤ itp.itInterval.usecs

theorem itimerExpire_spec (usec : Int) (hv : itp.itValue.tvSec = 0)
    (hi : itp.itInterval.Within top) (htop : 999999 ≤ top) (h0 : 0 ≤ usec)
    (husec : usec ≤ 1000000) (hle : itp.itInterval.isset → usec < itp.itInterval.usecs) :
    (itimerExpire itp usec).itInterval = itp.itInterval ∧
      (itimerExpire itp usec).itValue.Within top ∧
      (itimerExpire itp usec).itValue.usecs =
        if itp.itInterval.isset then itp.itInterval.usecs - usec else 0 := by
  obtain ⟨hsec, hmin, hmax⟩ := hi
  by_cases hset : itp.itInterval.isset
  · have hlt := hle hset
    simp only [itimerExpire, if_pos hset, true_and]
    simp only [Timeval.usecs] at hlt ⊢
    split <;> simp only [Timeval.within_iff] <;> omega
  · simp only [itimerExpire, if_neg hset, Timeval.within_iff, Timeval.usecs, hv, true_and]
    exact ⟨⟨le_rfl, le_rfl, by omega⟩, rfl⟩

/-- One call takes a tick off, and adds the interval when it returns 0. -/
theorem itimerdecr_spec (h : itp.Ok top tick) (htop : 999999 ≤ top) (h0 : 0 ≤ tick)
    (hmax : tick ≤ 1000000) (hset : itp.itValue.isset) :
    (itimerdecr itp tick).1.itInterval = itp.itInterval ∧
      (itimerdecr itp tick).1.itValue.Within top ∧
      if (itimerdecr itp tick).2 = 0 then
        itp.itValue.usecs ≤ tick ∧ (itimerdecr itp tick).1.itValue.usecs =
          if itp.itInterval.isset then itp.itValue.usecs + itp.itInterval.usecs - tick else 0
      else 0 < itp.itValue.usecs - tick ∧
        (itimerdecr itp tick).1.itValue.usecs = itp.itValue.usecs - tick := by
  have hpos := h.value.isset_iff.1 hset
  obtain ⟨hsec, husec, hval⟩ := h.value
  have hres := h.resolution
  by_cases hexp : itp.itValue.tvUsec < tick ∧ itp.itValue.tvSec = 0
  · -- expired, and already in the next interval
    have hv : itp.itValue.usecs = itp.itValue.tvUsec := by simp [Timeval.usecs, hexp.2]
    obtain ⟨hint, hin, hus⟩ := itimerExpire_spec (tick - itp.itValue.tvUsec) hexp.2
      h.interval htop (by omega) (by omega) (fun hi => by have := hres hi; omega)
    simp only [itimerdecr, if_pos hexp, if_true]
    refine ⟨hint, hin, by omega, ?_⟩
    rw [hus]
    split <;> omega
  · simp only [itimerdecr, if_neg hexp]
    generalize hvalue : (⟨_, _⟩ : Timeval) = value
    have hleft : value.Within top ∧ value.usecs = itp.itValue.usecs - tick := by
      subst hvalue
      simp only [Timeval.usecs, Timeval.within_iff]
      split
      · simp only
        omega
      · omega
    obtain ⟨hin, hus⟩ := hleft
    by_cases hrest : value.isset
    · simp only [if_pos hrest, one_ne_zero, if_false]
      exact ⟨trivial, hin, hus ▸ hin.isset_iff.1 hrest, hus⟩
    · -- expired, exactly at the end of the interval
      have hzero := mt hin.isset_iff.2 hrest
      have hnn := hin.usecs_nonneg
      have hv0 : value.tvSec = 0 := by
        by_contra hne
        exact hrest (.inl hne)
      obtain ⟨hint, hin', hus'⟩ :=
        @itimerExpire_spec top ⟨itp.itInterval, value⟩ 0 hv0 h.interval htop le_rfl (by decide)
          (fun hi => h.interval.isset_iff.1 hi)
      simp only [if_neg hrest, if_true]
      refine ⟨hint, hin', by omega, ?_⟩
      rw [hus']
      simp only
      split <;> omega

/-- The timer after any number of ticks. -/
theorem hardclockItimer_spec (h : itp.Ok top tick) (htop : 999999 ≤ top) (h0 : 0 ≤ tick)
    (hmax : tick ≤ 1000000) (hset : itp.itValue.isset) (n : Nat) :
    (hardclockItimer tick itp n).1.Ok top tick ∧
      (hardclockItimer tick itp n).1.itInterval = itp.itInterval ∧
      if itp.itInterval.isset then
        (hardclockItimer tick itp n).1.itValue.isset ∧
          itp.itValue.usecs + (hardclockItimer tick itp n).2 * itp.itInterval.usecs - n * tick =
            (hardclockItimer tick itp n).1.itValue.usecs
      else
        (hardclockItimer tick itp n).2 = (if itp.itValue.usecs ≤ n * tick then 1 else 0) ∧
          (hardclockItimer tick itp n).1.itValue.usecs =
            if itp.itValue.usecs ≤ n * tick then 0 else itp.itValue.usecs - n * tick := by
  have hpos := h.value.isset_iff.1 hset
  induction n with
  | zero =>
    refine ⟨h, rfl, ?_⟩
    simp only [hardclockItimer, Nat.cast_zero, Int.zero_mul, Int.sub_zero, Int.add_zero,
      if_neg (not_le.2 hpos), and_self, hset, ite_self]
  | succ n ih =>
    obtain ⟨hok, hint, hlaw⟩ := ih
    have hmul : ((n + 1 : Nat) : Int) * tick = n * tick + tick := by
      rw [Nat.cast_succ, Int.add_mul, Int.one_mul]
    rw [hardclockItimer]
    generalize hardclockItimer tick itp n = r at hok hint hlaw ⊢
    by_cases hr : r.1.itValue.isset
    · obtain ⟨hint', hin', hstep⟩ := itimerdecr_spec hok htop h0 hmax hr
      have hrpos := hok.value.isset_iff.1 hr
      have hok' : (itimerdecr r.1 tick).1.Ok top tick :=
        ⟨hin', hint' ▸ hok.interval, hint' ▸ hok.resolution⟩
      simp only [if_pos hr]
      refine ⟨hok', hint'.trans hint, ?_⟩
      rw [hint] at hstep
      rw [hmul]
      by_cases hi : itp.itInterval.isset
      · have hres : tick ≤ itp.itInterval.usecs := h.resolution hi
        simp only [if_pos hi] at hlaw hstep ⊢
        rw [hok'.value.isset_iff]
        by_cases hz : (itimerdecr r.1 tick).2 = 0
        · simp only [if_pos hz] at hstep ⊢
          rw [Nat.cast_succ, Int.add_mul, Int.one_mul]
          omega
        · simp only [if_neg hz] at hstep ⊢
          omega
      · simp only [if_neg hi] at hlaw hstep ⊢
        by_cases hle : itp.itValue.usecs ≤ n * tick
        · rw [if_pos hle] at hlaw
          omega
        · simp only [if_neg hle] at hlaw
          by_cases hz : (itimerdecr r.1 tick).2 = 0
          · simp only [if_pos hz] at hstep ⊢
            have hnow : itp.itValue.usecs ≤ n * tick + tick := by omega
            simp only [if_pos hnow, hlaw.1, true_and]
            exact hstep.2
          · simp only [if_neg hz] at hstep ⊢
            have hnot : ¬ itp.itValue.usecs ≤ n * tick + tick := by omega
            simp only [if_neg hnot, hlaw.1, true_and]
            omega
    · -- the timer is off: it has expired, and has no interval
      have hoff : r.1.itValue.usecs ≤ 0 := not_lt.1 (mt hok.value.isset_iff.2 hr)
      simp only [if_neg hr]
      refine ⟨hok, hint, ?_⟩
      rw [hmul]
      by_cases hi : itp.itInterval.isset
      · rw [if_pos hi] at hlaw
        exact absurd hlaw.1 hr
      · rw [if_neg hi] at hlaw ⊢
        by_cases hle : itp.itValue.usecs ≤ n * tick
        · have hlater : itp.itValue.usecs ≤ n * tick + tick := by omega
          rw [if_pos hle, if_pos hle] at hlaw
          rwa [if_pos hlater, if_pos hlater]
        · rw [if_neg hle, if_neg hle] at hlaw
          omega

/-! ## sys_setitimer -/

/-- `tick`, in microseconds. -/
def tickOfHz (hz : Nat) : Int := (1000000 / hz : Nat)

/-- A time between zero and one second. -/
def Timeval.Fraction (tv : Timeval) : Prop := tv.tvSec = 0 ∧ tv.tvUsec ≠ 0

theorem itimerfix_spec {tv' : Timeval} (h : itimerfix tick tv = .ok tv') (h0 : 0 ≤ tick)
    (hmax : tick ≤ 1000000) :
    tv'.Within 1000000 ∧ (tv'.isset → tick ≤ tv'.usecs) ∧ (tv'.isset ↔ tv.isset) ∧
      (tick ≤ 999999 ∨ ¬ tv.Fraction → tv'.Within 999999) := by
  rw [itimerfix] at h
  split at h
  · cases h
  · cases h
    simp only [itimerround, Timeval.isset, Timeval.usecs, Timeval.within_iff, Timeval.Fraction]
    split
    · simp only
      omega
    · omega

/-- A second rounding changes nothing. -/
theorem itimerround_of_le (h : tv.isset → tick ≤ tv.usecs) : itimerround tick tv = tv := by
  rw [itimerround, if_neg]
  rintro ⟨hsec, husec, hlt⟩
  have hle := h (.inr husec)
  rw [Timeval.usecs, hsec] at hle
  omega

/-- The timer that `sys_setitimer` sets. -/
theorem sysSetitimer_ok {ctv : Timeval} {timers timers' : Int → Itimerval} {which : Int}
    {aitv : Itimerval} {oitv : Except Nat Unit} (h0 : 0 ≤ tick) (hmax : tick ≤ 1000000)
    (hwhich : which = itimerVirtual ∨ which = itimerProf)
    (hset : sysSetitimer tick ctv timers which (some (.ok aitv)) oitv = .ok timers')
    (htop : top = 1000000 ∨ top = 999999 ∧
      (tick ≤ 999999 ∨ ¬ aitv.itValue.Fraction ∧ ¬ aitv.itInterval.Fraction)) :
    (timers' which).Ok top tick ∧ ((timers' which).itValue.isset ↔ aitv.itValue.isset) ∧
      ((timers' which).itInterval.isset ↔ aitv.itInterval.isset) := by
  have hrange : ¬ (which < itimerReal ∨ itimerProf < which) := by
    rcases hwhich with rfl | rfl <;> decide
  have hreal : which ≠ itimerReal := by
    rcases hwhich with rfl | rfl <;> decide
  simp only [sysSetitimer, if_neg hrange, if_neg hreal, bind, Except.bind] at hset
  cases oitv with
  | error e => cases hset
  | ok u =>
  cases hv : itimerfix tick aitv.itValue with
  | error e =>
    rw [hv] at hset
    cases hset
  | ok value =>
    cases hi : itimerfix tick aitv.itInterval with
    | error e =>
      rw [hv, hi] at hset
      cases hset
    | ok interval =>
      rw [hv, hi] at hset
      obtain ⟨hv1, -, hv3, hv4⟩ := itimerfix_spec hv h0 hmax
      obtain ⟨hi1, hi2, hi3, hi4⟩ := itimerfix_spec hi h0 hmax
      cases hset
      rw [Function.update_self, itimerround_of_le hi2]
      refine ⟨⟨?_, ?_, hi2⟩, hv3, hi3⟩
      · rcases htop with rfl | ⟨rfl, h⟩
        · exact hv1
        · exact hv4 (h.imp_right And.left)
      · rcases htop with rfl | ⟨rfl, h⟩
        · exact hi1
        · exact hi4 (h.imp_right And.right)

/-- An interval timer neither drifts nor dies: after every number of ticks. -/
theorem itimer_keeps_time (hz : Nat) {ctv : Timeval} {timers timers' : Int → Itimerval}
    {which : Int} {aitv : Itimerval} {oitv : Except Nat Unit}
    (hwhich : which = itimerVirtual ∨ which = itimerProf)
    (hset : sysSetitimer (tickOfHz hz) ctv timers which (some (.ok aitv)) oitv = .ok timers')
    (hvalue : aitv.itValue.isset) (n : Nat) :
    let itp := timers' which
    let r := hardclockItimer (tickOfHz hz) itp n
    (0 ≤ r.1.itValue.tvSec ∧ 0 ≤ r.1.itValue.tvUsec ∧
      (2 ≤ hz ∨ ¬ aitv.itValue.Fraction ∧ ¬ aitv.itInterval.Fraction →
        r.1.itValue.tvUsec < 1000000)) ∧
    (aitv.itInterval.isset → r.1.itValue.isset ∧
      itp.itValue.usecs + r.2 * itp.itInterval.usecs - n * tickOfHz hz = r.1.itValue.usecs) ∧
    (¬ aitv.itInterval.isset →
      r.2 = if itp.itValue.usecs ≤ n * tickOfHz hz then 1 else 0) := by
  intro itp r
  have h0 : 0 ≤ tickOfHz hz := Int.natCast_nonneg _
  have hmax : tickOfHz hz ≤ 1000000 := by
    have := Nat.div_le_self 1000000 hz
    simp only [tickOfHz]
    omega
  obtain ⟨hok, hv, hi⟩ := sysSetitimer_ok h0 hmax hwhich hset (.inl rfl)
  obtain ⟨hok', -, hlaw⟩ := hardclockItimer_spec hok (by decide) h0 hmax (hv.2 hvalue) n
  refine ⟨⟨hok'.value.sec, hok'.value.usec, fun hnorm => ?_⟩, fun hint => ?_, fun hint => ?_⟩
  · have hfine : tickOfHz hz ≤ 999999 ∨ ¬ aitv.itValue.Fraction ∧ ¬ aitv.itInterval.Fraction := by
      refine hnorm.imp_left fun h2 => ?_
      have : 1000000 / hz ≤ 1000000 / 2 := Nat.div_le_div_left h2 Nat.two_pos
      simp only [tickOfHz]
      omega
    obtain ⟨hok₁, -, -⟩ := sysSetitimer_ok h0 hmax hwhich hset (.inr ⟨rfl, hfine⟩)
    have hle := (hardclockItimer_spec hok₁ le_rfl h0 hmax (hv.2 hvalue) n).1.value.le_top
    exact Int.lt_of_le_of_lt hle (by decide)
  · rwa [if_pos (hi.2 hint)] at hlaw
  · rw [if_neg (mt hi.1 hint)] at hlaw
    exact hlaw.1

theorem itimer_keeps_time_hundred :
    (hardclockItimer 10000 ⟨⟨0, 15000⟩, ⟨0, 25000⟩⟩ 3).1.itValue.isset ∧
      (25000 : Int) + (hardclockItimer 10000 ⟨⟨0, 15000⟩, ⟨0, 25000⟩⟩ 3).2 * 15000 -
        (3 : Nat) * 10000 =
        (hardclockItimer 10000 ⟨⟨0, 15000⟩, ⟨0, 25000⟩⟩ 3).1.itValue.usecs :=
  (@itimer_keeps_time 100 ⟨0, 0⟩ (fun _ => ⟨⟨0, 0⟩, ⟨0, 0⟩⟩) _ itimerVirtual
    ⟨⟨0, 15000⟩, ⟨0, 25000⟩⟩ (.ok ()) (.inl rfl) rfl (by decide) 3).2.1 (by decide)

/-- At one tick a second an interval of half a second is rounded up to a `tv_usec` of
    1000000, and reloaded so. -/
theorem itimer_not_normalised : ∃ timers',
    sysSetitimer (tickOfHz 1) ⟨0, 0⟩ (fun _ => ⟨⟨0, 0⟩, ⟨0, 0⟩⟩) itimerVirtual
      (some (.ok ⟨⟨0, 500000⟩, ⟨1, 0⟩⟩)) (.ok ()) = .ok timers' ∧
    ¬ (hardclockItimer (tickOfHz 1) (timers' itimerVirtual) 1).1.itValue.tvUsec < 1000000 :=
  ⟨_, rfl, by decide⟩

end OpenBsd.Kern
