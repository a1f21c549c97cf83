/-
  OpenBsd.Kern.KernDescripRun

  What holds of a descriptor table of `sys/kern/kern_descrip.c` after any calls: the high
  map follows the low map.  A table of 25600 descriptors fills up to the last bit of both.
-/

import OpenBsd.Kern.KernDescripSearch

namespace OpenBsd.Kern

open OpenBsd.Lib OpenBsd.Lib.Bitmap

section

variable {fdp fdp' : Filedesc} {fd k : Nat}

/-! ## One call -/

theorem full_set {m : Bitmap 32} (hfull : m k = BitVec.allOnes 32) :
    m.set fd k = BitVec.allOnes 32 := by
  rw [eq_allOnes_iff_test] at hfull ⊢
  intro n hlo hhi
  rw [test_set (by decide), hfull n hlo hhi, Bool.or_true]

theorem not_full_clear (m : Bitmap 32) (fd : Nat) : m.clear fd (fd / 32) ≠ BitVec.allOnes 32 := by
  rw [ne_eq, eq_allOnes_iff_test]
  intro hall
  have hbit := hall fd (by omega) (by omega)
  rw [test_clear (by decide), decide_eq_true rfl] at hbit
  cases hbit

theorem MapsOk.used (h : MapsOk fdp) (fd : Nat) : MapsOk (fdUsed fdp fd) := by
  refine ⟨fun k hk => ?_, h.size⟩
  have hk' := h.full k hk
  show (if fdp.lomap.set fd (fd / 32) = BitVec.allOnes 32 then fdp.himap.set (fd / 32)
    else fdp.himap).test k = true ↔ fdp.lomap.set fd k = BitVec.allOnes 32
  by_cases hoff : k = fd / 32
  · subst hoff
    split
    · next hfull =>
      rw [test_set (by decide), decide_eq_true rfl]
      exact iff_of_true rfl hfull
    · next hnot =>
      rw [hk']
      exact iff_of_false (fun hfull => hnot (full_set hfull)) hnot
  · have hsame : fdp.lomap.set fd k = fdp.lomap k := if_neg hoff
    rw [hsame, ← hk']
    split
    · rw [test_set (by decide), decide_eq_false hoff, Bool.false_or]
    · rfl

theorem MapsOk.unused (h : MapsOk fdp) (hrun : fdUnused fdp fd = some fdp') : MapsOk fdp' := by
  unfold fdUnused at hrun
  by_cases hlast : fd ≤ fdp.lastfile
  · simp only [guard, if_pos hlast, Option.bind_eq_bind, Option.bind_some, Option.pure_def,
      Option.some.injEq] at hrun
    subst hrun
    refine ⟨fun k hk => ?_, h.size⟩
    have hk' := h.full k hk
    show (if fdp.lomap (fd / 32) = BitVec.allOnes 32 then fdp.himap.clear (fd / 32)
      else fdp.himap).test k = true ↔ fdp.lomap.clear fd k = BitVec.allOnes 32
    by_cases hoff : k = fd / 32
    · subst hoff
      refine iff_of_false (fun hset => ?_) (not_full_clear _ _)
      split at hset
      · rw [test_clear (by decide), decide_eq_true rfl] at hset
        cases hset
      · next hnot => exact hnot (hk'.1 hset)
    · have hsame : fdp.lomap.clear fd k = fdp.lomap k := if_neg hoff
      rw [hsame, ← hk']
      split
      · rw [test_clear (by decide), decide_eq_false hoff, Bool.not_false, Bool.true_and]
      · rfl
  · simp only [guard, if_neg hlast, Option.bind_eq_bind] at hrun
    cases hrun

variable {n : Nat}

theorem ndhislots_mono {n' : Nat} (h : n ≤ n') : ndhislots n ≤ ndhislots n' := by
  unfold ndhislots ndreduce
  omega

theorem MapsOk.expand (h : MapsOk fdp) : MapsOk (fdexpand fdp) := by
  have hsize := h.size
  have hgrow : fdp.nfiles ≤ (fdexpand fdp).nfiles := by
    show fdp.nfiles ≤ if fdp.nfiles < ndextent then ndextent else 2 * fdp.nfiles
    split <;> omega
  refine ⟨fun k hk => ?_, Nat.le_trans hsize hgrow⟩
  by_cases hslots : ndhislots fdp.nfiles < ndhislots (fdexpand fdp).nfiles
  · have hhi : (fdexpand fdp).himap =
        fun k => if k < ndhislots fdp.nfiles then fdp.himap k else 0 := if_pos hslots
    have hlo : (fdexpand fdp).lomap =
        fun k => if k < ndloslots fdp.nfiles then fdp.lomap k else 0 := if_pos hslots
    rw [hhi, hlo, test]
    have hiff : k / 32 < ndhislots fdp.nfiles ↔ k < ndloslots fdp.nfiles := by
      unfold ndloslots
      omega
    by_cases hold : k < ndloslots fdp.nfiles
    · simp only [if_pos hold, if_pos (hiff.2 hold)]
      exact h.full k hold
    · -- the new words are zero
      simp only [if_neg hold, if_neg (mt hiff.1 hold)]
      have hword : (0 : BitVec 32) ≠ BitVec.allOnes 32 := by decide
      rw [BitVec.ofNat_eq_ofNat, BitVec.getLsbD_zero]
      exact iff_of_false Bool.false_ne_true hword
  · have hhi : (fdexpand fdp).himap = fdp.himap := if_neg hslots
    have hlo : (fdexpand fdp).lomap = fdp.lomap := if_neg hslots
    rw [hhi, hlo]
    refine h.full k (Nat.lt_of_lt_of_le hk ?_)
    unfold ndloslots
    omega

theorem fdShrink_bounds {last fuel i : Nat} (hi : ndfile ≤ i) :
    ndfile ≤ fdShrink last fuel i ∧ fdShrink last fuel i ≤ i := by
  induction fuel generalizing i with
  | zero => exact ⟨hi, Nat.le_refl i⟩
  | succ fuel ih =>
    rw [fdShrink]
    split
    · next hbig =>
      have hhalf := ih (i := i / 2) (by unfold ndextent at hbig; unfold ndfile; omega)
      omega
    · exact ⟨hi, Nat.le_refl i⟩

theorem MapsOk.copy (h : MapsOk fdp) : MapsOk (fdcopy fdp) := by
  have hsize := h.size
  have hbounds : ndfile ≤ (fdcopy fdp).nfiles ∧ (fdcopy fdp).nfiles ≤ fdp.nfiles := by
    show ndfile ≤ (if fdp.lastfile < ndfile then ndfile else _) ∧
      (if fdp.lastfile < ndfile then ndfile else _) ≤ fdp.nfiles
    split
    · exact ⟨Nat.le_refl _, hsize⟩
    · exact fdShrink_bounds hsize
  refine ⟨fun k hk => h.full k (Nat.lt_of_lt_of_le hk ?_), hbounds.1⟩
  have hmono := ndhislots_mono hbounds.2
  unfold ndloslots
  omega

theorem MapsOk.allocLoop (h : MapsOk fdp) {lim fuel want : Nat} {r : FdallocResult}
    (hrun : fdallocLoop fdp lim fuel want = some (r, fdp')) : MapsOk fdp' := by
  induction fuel generalizing want with
  | zero => cases hrun
  | succ fuel ih =>
    simp only [fdallocLoop, Option.bind_eq_bind, Option.bind_eq_some_iff] at hrun
    obtain ⟨high, -, hrun⟩ := hrun
    cases high with
    | none =>
      obtain ⟨-, rfl⟩ := Prod.mk.inj (Option.some.inj hrun)
      exact h
    | some new =>
      simp only [Option.bind_eq_some_iff] at hrun
      obtain ⟨low, -, hrun⟩ := hrun
      cases low with
      | none => exact ih hrun
      | some j =>
        dsimp only at hrun
        split at hrun
        · obtain ⟨-, rfl⟩ := Prod.mk.inj (Option.some.inj hrun)
          have hused := h.used (j + new * 32)
          exact ⟨hused.full, hused.size⟩
        · obtain ⟨-, rfl⟩ := Prod.mk.inj (Option.some.inj hrun)
          exact h

theorem MapsOk.step (h : MapsOk fdp) {e : FdCall} (hstep : fdStep fdp e = some fdp') :
    MapsOk fdp' := by
  cases e with
  | alloc want lim =>
    obtain ⟨⟨r, fdp''⟩, hrun, rfl⟩ := Option.map_eq_some_iff.1 hstep
    exact h.allocLoop hrun
  | install fd =>
    obtain ⟨-, hinstall⟩ := guard_bind_eq_some hstep
    exact Option.some.inj hinstall ▸ ⟨h.full, h.size⟩
  | used fd =>
    obtain ⟨-, hused⟩ := guard_bind_eq_some hstep
    exact Option.some.inj hused ▸ h.used fd
  | unused fd => exact h.unused (guard_bind_eq_some hstep).2
  | remove fd =>
    have hcleared : MapsOk { fdp with ofiles := Function.update fdp.ofiles fd false } :=
      ⟨h.full, h.size⟩
    exact hcleared.unused (guard_bind_eq_some hstep).2
  | expand => exact Option.some.inj hstep ▸ h.expand
  | copy => exact Option.some.inj hstep ▸ h.copy

theorem mapsOk_fdinit : MapsOk fdinit := by
  have hword : (0 : BitVec 32) ≠ BitVec.allOnes 32 := by decide
  refine ⟨fun k _ => iff_of_false ?_ hword, Nat.le_refl _⟩
  show ¬ (0 : BitVec 32).getLsbD (k % 32) = true
  rw [BitVec.ofNat_eq_ofNat, BitVec.getLsbD_zero]
  exact Bool.false_ne_true

/-! ## A table that fills up -/

/-- A free descriptor that is asked for, not below `fd_freefile`, is what `fdalloc` returns. -/
theorem MapsOk.fdalloc_free (h : MapsOk fdp) {want lim : Nat} (hfree : fdp.freefile ≤ want)
    (hlast : want < min fdp.nfiles lim) (hclear : fdp.lomap.test want = false) :
    fdalloc fdp want lim = some (.ok want, { fdUsed fdp want with
      freefile := if want ≤ fdp.freefile then want else fdp.freefile }) := by
  have hstart : fdStart fdp want = want := if_neg (Nat.not_lt_of_le hfree)
  have hbits : want / 32 < ndreduce (min fdp.nfiles lim) := by
    unfold ndreduce
    omega
  have hlong := le_ndloslots (ndreduce (min fdp.nfiles lim))
  have hslots : want < ndloslots fdp.nfiles * 32 := by
    have := le_ndloslots fdp.nfiles
    have := Nat.min_le_left fdp.nfiles lim
    unfold ndloslots ndhislots ndreduce
    omega
  have hword : fdp.himap.test (want / 32) = false := by
    rw [Bool.eq_false_iff, ne_eq, h.full _ (by omega), eq_allOnes_iff_test]
    intro hall
    rw [hall want (by omega) (by omega)] at hclear
    cases hclear
  have hhigh : highSearch fdp lim want = some (some (want / 32)) := by
    have hres := findNextZero_spec fdp.himap (ndhislots fdp.nfiles) (Nat.le_of_lt hbits)
    rw [highSearch, hstart]
    generalize findNextZero _ _ _ _ = r at hres ⊢
    cases hres with
    | outside _ _ hall =>
      have hin : want / 32 < ndhislots fdp.nfiles * 32 := by
        unfold ndloslots at hslots
        omega
      rw [hall _ (Nat.le_refl _) hin] at hword
      cases hword
    | notFound hall _ =>
      rw [hall _ (Nat.le_refl _) (by omega)] at hword
      cases hword
    | found z hz _ _ _ hall =>
      rcases Nat.lt_or_eq_of_le hz with hlt | rfl
      · rw [hall _ (Nat.le_refl _) hlt] at hword
        cases hword
      · rfl
  have hlow : lowSearch fdp want (want / 32) = some (some (want % 32)) := by
    have hbit : Bitmap.test (fun k => fdp.lomap (want / 32 + k)) (want % 32) = false := by
      rw [test_shift, show want / 32 * 32 + want % 32 = want by omega]
      exact hclear
    have hres := lowSearch_spec fdp (want / 32) (Nat.le_of_lt (Nat.mod_lt want (by decide)))
    rw [lowSearch, hstart, if_neg (Nat.lt_irrefl _)]
    generalize findNextZero _ _ _ _ = r at hres ⊢
    cases hres with
    | outside _ _ hall =>
      rw [hall _ (Nat.le_refl _) (by omega)] at hbit
      cases hbit
    | notFound hall _ =>
      rw [hall _ (Nat.le_refl _) (by omega)] at hbit
      cases hbit
    | found z hz _ _ _ hall =>
      rcases Nat.lt_or_eq_of_le hz with hlt | rfl
      · rw [hall _ (Nat.le_refl _) hlt] at hbit
        cases hbit
      · rfl
  rw [highSearch, fdStart] at hhigh
  rw [lowSearch, fdStart] at hlow
  have hsum : want % 32 + want / 32 * 32 = want := by omega
  simp only [fdalloc, fdallocLoop, hhigh, hlow, hsum, if_pos hlast, Option.bind_eq_bind,
    Option.bind_some, Option.pure_def]

/-- The descriptors below `n` are in use, and `fd_freefile` was never moved up. -/
structure Filled (n : Nat) (fdp : Filedesc) : Prop where
  maps : MapsOk fdp
  used : ∀ fd < ndloslots fdp.nfiles * 32, (fdp.lomap.test fd = true ↔ fd < n)
  free : fdp.freefile = 0

theorem lt_slots (h : fd < n) : fd < ndloslots n * 32 := by
  unfold ndloslots ndhislots ndreduce
  omega

theorem Filled.alloc {lim : Nat} (h : Filled n fdp) (hn : n < min fdp.nfiles lim) :
    ∃ fdp', fdStep fdp (.alloc n lim) = some fdp' ∧ Filled (n + 1) fdp' ∧
      fdp'.nfiles = fdp.nfiles := by
  have hslot : n < ndloslots fdp.nfiles * 32 := lt_slots (by omega)
  have hclear : fdp.lomap.test n = false := by
    rw [Bool.eq_false_iff, ne_eq, h.used n hslot]
    exact Nat.lt_irrefl n
  have hrun := h.maps.fdalloc_free (by rw [h.free]; exact Nat.zero_le n) hn hclear
  refine ⟨_, congrArg (Option.map Prod.snd) hrun, ⟨?_, fun fd hfd => ?_, ?_⟩, rfl⟩
  · have hused := h.maps.used n
    exact ⟨hused.full, hused.size⟩
  · show (fdp.lomap.set n).test fd = true ↔ fd < n + 1
    have hold := h.used fd hfd
    rw [test_set (by decide), Bool.or_eq_true, decide_eq_true_iff, hold]
    omega
  · show (if n ≤ fdp.freefile then n else fdp.freefile) = 0
    rw [h.free]
    split <;> omega

theorem Filled.fill (h : Filled n fdp) (lim m : Nat) (hm : n + m ≤ min fdp.nfiles lim) :
    ∃ es fdp', Run fdStep (fun _ _ => True) fdp es fdp' ∧ Filled (n + m) fdp' ∧
      fdp'.nfiles = fdp.nfiles := by
  induction m generalizing n fdp with
  | zero => exact ⟨[], fdp, .nil fdp, h, rfl⟩
  | succ m ih =>
    obtain ⟨fdp₁, hstep, h₁, hsize₁⟩ := h.alloc (show n < min fdp.nfiles lim by omega)
    obtain ⟨es, fdp₂, hrun, h₂, hsize₂⟩ := ih h₁ (by rw [hsize₁]; omega)
    rw [show n + 1 + m = n + (m + 1) by omega] at h₂
    exact ⟨_, fdp₂, .cons trivial hstep hrun, h₂, hsize₂.trans hsize₁⟩

theorem Filled.expand (h : Filled n fdp) (hn : n ≤ fdp.nfiles) :
    Filled n (fdexpand fdp) := by
  refine ⟨h.maps.expand, fun fd hfd => ?_, h.free⟩
  by_cases hslots : ndhislots fdp.nfiles < ndhislots (fdexpand fdp).nfiles
  · have hlo : (fdexpand fdp).lomap =
        fun k => if k < ndloslots fdp.nfiles then fdp.lomap k else 0 := if_pos hslots
    rw [hlo, test]
    by_cases hold : fd / 32 < ndloslots fdp.nfiles
    · simp only [if_pos hold]
      exact h.used fd (by omega)
    · have hle := le_ndloslots fdp.nfiles
      simp only [if_neg hold]
      rw [BitVec.ofNat_eq_ofNat, BitVec.getLsbD_zero]
      exact iff_of_false Bool.false_ne_true (by omega)
  · have hlo : (fdexpand fdp).lomap = fdp.lomap := if_neg hslots
    rw [hlo]
    refine h.used fd (Nat.lt_of_lt_of_le hfd ?_)
    unfold ndloslots
    omega

theorem filled_fdinit : Filled 0 fdinit := by
  refine ⟨mapsOk_fdinit, fun fd _ => iff_of_false ?_ (Nat.not_lt_zero fd), rfl⟩
  show ¬ (0 : BitVec 32).getLsbD (fd % 32) = true
  rw [BitVec.ofNat_eq_ofNat, BitVec.getLsbD_zero]
  exact Bool.false_ne_true

theorem exists_filled (j : Nat) :
    ∃ es fdp, Run fdStep (fun _ _ => True) fdinit es fdp ∧ fdp.nfiles = 50 * 2 ^ j ∧
      Filled (50 * 2 ^ j) fdp := by
  induction j with
  | zero =>
    obtain ⟨es, fdp₁, hrun, h₁, hsize₁⟩ := filled_fdinit.fill 20 20 (by decide)
    have hgrown : (fdexpand fdp₁).nfiles = 50 := by
      show (if fdp₁.nfiles < ndextent then ndextent else 2 * fdp₁.nfiles) = 50
      rw [hsize₁]
      rfl
    have hgrow : Run fdStep (fun _ _ => True) fdp₁ [.expand] (fdexpand fdp₁) :=
      .cons trivial rfl (.nil _)
    obtain ⟨es', fdp₂, hrun', h₂, hsize₂⟩ := (h₁.expand (Nat.le_of_eq hsize₁.symm)).fill
      50 30 (by rw [hgrown]; decide)
    exact ⟨_, fdp₂, hrun.trans (hgrow.trans hrun'), hsize₂.trans hgrown, h₂⟩
  | succ j ih =>
    obtain ⟨es, fdp₁, hrun, hsize₁, h₁⟩ := ih
    have hpow : 50 * 2 ^ (j + 1) = 50 * 2 ^ j + 50 * 2 ^ j := by rw [Nat.pow_succ]; omega
    have hpos : 0 < 2 ^ j := Nat.two_pow_pos j
    have hgrown : (fdexpand fdp₁).nfiles = 50 * 2 ^ (j + 1) := by
      show (if fdp₁.nfiles < ndextent then ndextent else 2 * fdp₁.nfiles) = _
      rw [if_neg (by unfold ndextent; omega)]
      omega
    have hgrow : Run fdStep (fun _ _ => True) fdp₁ [.expand] (fdexpand fdp₁) :=
      .cons trivial rfl (.nil _)
    obtain ⟨es', fdp₂, hrun', h₂, hsize₂⟩ := (h₁.expand (Nat.le_of_eq hsize₁.symm)).fill
      (50 * 2 ^ (j + 1)) (50 * 2 ^ j) (by omega)
    rw [← hpow] at h₂
    exact ⟨_, fdp₂, hrun.trans (hgrow.trans hrun'), hsize₂.trans hgrown, h₂⟩

/-! ## Runs -/

/-- After any calls a search of `fdalloc` reads only words of the maps, but for the tables that
    `Overruns` names. -/
theorem fdalloc_in_bounds_iff {es : List FdCall}
    (hrun : Run fdStep (fun _ _ => True) fdinit es fdp) (want lim : Nat) :
    (fdalloc fdp want lim).isSome ↔ ¬ Overruns fdp want lim := by
  have hok : MapsOk fdp := hrun.invariant (fun _ _ _ h _ hstep => h.step hstep) mapsOk_fdinit
  exact hok.fdalloc_isSome_iff want lim

end

/-- The first table, for a process with the default limit of descriptors. -/
theorem fdalloc_in_bounds_fdinit : (fdalloc fdinit 0 128).isSome ↔ ¬ Overruns fdinit 0 128 :=
  fdalloc_in_bounds_iff (.nil fdinit) 0 128

/-- A full table of 25600 descriptors: the high map has 25 words, all ones, and the search goes
    on for 32. -/
theorem fdalloc_full_outside :
    ∃ es fdp, Run fdStep (fun _ _ => True) fdinit es fdp ∧ fdp.nfiles = 25600 ∧
      fdalloc fdp 0 30000 = none := by
  obtain ⟨es, fdp, hrun, hsize, h⟩ := exists_filled 9
  have hsize' : fdp.nfiles = 25600 := hsize
  refine ⟨es, fdp, hrun, hsize', ?_⟩
  have hstart : fdStart fdp 0 = 0 := by
    rw [fdStart, h.free]
    rfl
  have hall : AllUsed fdp 0 := by
    intro fd _ hfd
    rw [h.used fd hfd]
    rw [hsize'] at hfd
    exact hfd
  have hover : Overruns fdp 0 30000 := by
    unfold Overruns
    rw [hstart, hsize']
    exact ⟨hall, by decide, .inl ⟨hall, by decide⟩⟩
  rw [← Option.not_isSome_iff_eq_none, h.maps.fdalloc_isSome_iff]
  exact not_not.2 hover

end OpenBsd.Kern
