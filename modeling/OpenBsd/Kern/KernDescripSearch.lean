/-
  OpenBsd.Kern.KernDescripSearch

  The searches for a free descriptor in `sys/kern/kern_descrip.c`, and when they read behind
  the end of a map.
-/

import OpenBsd.Kern.KernDescrip

namespace OpenBsd.Kern

open OpenBsd.Lib OpenBsd.Lib.Bitmap

/-! ## find_next_zero -/

/-- What a search of the bits from `lo` to `hi` comes to, in a map of `size` words. -/
inductive FindResult (m : Bitmap 32) (size lo hi : Nat) : Option (Option Nat) → Prop
  | outside : lo < hi → size * 32 < hi →
      (∀ y, lo ≤ y → y < size * 32 → m.test y = true) → FindResult m size lo hi none
  | notFound : (∀ y, lo ≤ y → y < hi → m.test y = true) → (hi ≤ size * 32 ∨ hi ≤ lo) →
      FindResult m size lo hi (some none)
  | found (z : Nat) : lo ≤ z → z < hi → z < size * 32 → m.test z = false →
      (∀ y, lo ≤ y → y < z → m.test y = true) → FindResult m size lo hi (some (some z))

section

variable {m : Bitmap 32} {size lo lo' hi n off want bits : Nat} {r : Option (Option Nat)}

theorem FindResult.extend (h : FindResult m size lo' hi r) (hle : lo ≤ lo')
    (hlt : lo < hi) (hin : lo' ≤ size * 32)
    (hset : ∀ y, lo ≤ y → y < lo' → m.test y = true) : FindResult m size lo hi r := by
  cases h with
  | outside _ hsize hall =>
    refine .outside hlt hsize fun y hy hy' => ?_
    by_cases hlow : y < lo'
    · exact hset y hy hlow
    · exact hall y (Nat.le_of_not_lt hlow) hy'
  | notFound hall hend =>
    refine .notFound (fun y hy hy' => ?_) ?_
    · by_cases hlow : y < lo'
      · exact hset y hy hlow
      · exact hall y (Nat.le_of_not_lt hlow) hy'
    · rcases hend with hend | hend
      · exact .inl hend
      · exact .inl (Nat.le_trans hend hin)
  | found z hz hz' hz'' hclear hall =>
    refine .found z (Nat.le_trans hle hz) hz' hz'' hclear fun y hy hy' => ?_
    by_cases hlow : y < lo'
    · exact hset y hy hlow
    · exact hall y (Nat.le_of_not_lt hlow) hy'

theorem test_ffs_not (m : Bitmap 32) (off : Nat) {sub : BitVec 32}
    (hsub : sub ≠ BitVec.allOnes 32)
    (hle : ∀ i, sub.getLsbD i = false → (m off).getLsbD i = false) :
    ∃ j < 32, off * 32 + ffs (~~~sub) - 1 = off * 32 + j ∧ m.test (off * 32 + j) = false ∧
      sub.getLsbD j = false ∧ ∀ i < j, sub.getLsbD i = true := by
  obtain ⟨hpos, hlt, hclear, hlow⟩ := ffs_not_spec hsub
  refine ⟨ffs (~~~sub) - 1, hlt, by omega, ?_, hclear, hlow⟩
  rw [test_mul_add hlt]
  exact hle _ hclear

theorem findZeroWord_spec (m : Bitmap 32) (size n off : Nat) :
    FindResult m size (off * 32) ((off + n) * 32) (findZeroWord m size n off) := by
  induction n generalizing off with
  | zero => exact .notFound (fun y hy hy' => absurd hy' (Nat.not_lt_of_le hy)) (.inr (Nat.le_refl _))
  | succ n ih =>
    rw [findZeroWord]
    by_cases hin : off < size
    · simp only [guard, if_pos hin, Option.bind_eq_bind, Option.pure_def, Option.bind_some]
      by_cases hfull : m off = BitVec.allOnes 32
      · rw [if_neg (not_not.2 hfull)]
        have hrest := ih (off + 1)
        rw [show off + 1 + n = off + (n + 1) by omega] at hrest
        exact hrest.extend (by omega) (by omega) (by omega) (eq_allOnes_iff_test.1 hfull)
      · obtain ⟨j, hj, hz, hclear, -, hlow⟩ := test_ffs_not m off hfull fun i hi => hi
        rw [if_pos hfull, hz]
        refine .found _ (by omega) (by omega) (by omega) hclear fun y hy hy' => ?_
        obtain ⟨i, rfl⟩ := Nat.exists_eq_add_of_le hy
        rw [test_mul_add (by omega)]
        exact hlow i (by omega)
    · simp only [guard, if_neg hin, Option.bind_eq_bind]
      exact .outside (by omega) (by omega) fun y hy hy' => by omega

theorem getLsbD_below {i j : Nat} (hi : i < 32) :
    (BitVec.allOnes 32 >>> (32 - i)).getLsbD j = decide (j < i) := by
  rw [BitVec.getLsbD_ushiftRight, BitVec.getLsbD_allOnes, decide_eq_decide]
  omega

theorem le_ndloslots (bits : Nat) : bits ≤ ndloslots bits * 32 := by
  unfold ndloslots ndhislots ndreduce
  omega

/-- `find_next_zero` searches as many words as a low map for `bits` descriptors has. -/
theorem findNextZero_spec (m : Bitmap 32) (size : Nat) (hwant : want ≤ bits) :
    FindResult m size want (ndloslots bits * 32) (findNextZero m size want bits) := by
  have hbits := le_ndloslots bits
  have hsplit : want / 32 * 32 + want % 32 = want := by omega
  have hmod : want % 32 < 32 := Nat.mod_lt _ (by decide)
  rw [findNextZero, if_neg (Nat.not_lt_of_le hwant)]
  dsimp only
  by_cases hzero : want % 32 = 0
  · rw [if_neg (not_not.2 hzero)]
    have hloop := findZeroWord_spec m size (ndloslots bits - want / 32) (want / 32)
    rwa [show want / 32 + (ndloslots bits - want / 32) = ndloslots bits by omega,
      show want / 32 * 32 = want by omega] at hloop
  · rw [if_pos hzero]
    by_cases hin : want / 32 < size
    · simp only [guard, if_pos hin, Option.bind_eq_bind, Option.pure_def, Option.bind_some]
      by_cases hfull : m (want / 32) ||| (BitVec.allOnes 32 >>> (32 - want % 32))
          = BitVec.allOnes 32
      · -- nothing free in the word of `want`
        rw [if_neg (not_not.2 hfull)]
        have hloop := findZeroWord_spec m size (ndloslots bits - (want / 32 + 1)) (want / 32 + 1)
        rw [show want / 32 + 1 + (ndloslots bits - (want / 32 + 1)) = ndloslots bits by omega]
          at hloop
        refine hloop.extend (by omega) (by omega) (by omega) fun y hy hy' => ?_
        obtain ⟨i, rfl⟩ := Nat.exists_eq_add_of_le (show want / 32 * 32 ≤ y by omega)
        rw [test_mul_add (by omega)]
        have hbit := eq_allOnes_iff_getLsbD.1 hfull i (by omega)
        rwa [BitVec.getLsbD_or, getLsbD_below hmod, decide_eq_false (by omega), Bool.or_false]
          at hbit
      · obtain ⟨j, hj, hz, hclear, hsub, hlow⟩ := test_ffs_not m (want / 32) hfull fun i hi => by
            rw [BitVec.getLsbD_or, Bool.or_eq_false_iff] at hi
            exact hi.1
        rw [BitVec.getLsbD_or, getLsbD_below hmod, Bool.or_eq_false_iff, decide_eq_false_iff_not]
          at hsub
        rw [if_pos hfull, hz]
        refine .found _ (by omega) (by omega) (by omega) hclear fun y hy hy' => ?_
        obtain ⟨i, rfl⟩ := Nat.exists_eq_add_of_le (show want / 32 * 32 ≤ y by omega)
        rw [test_mul_add (by omega)]
        have hbit := hlow i (by omega)
        rwa [BitVec.getLsbD_or, getLsbD_below hmod, decide_eq_false (by omega), Bool.or_false]
          at hbit
    · simp only [guard, if_neg hin, Option.bind_eq_bind]
      exact .outside (by omega) (by omega) fun y hy hy' => by omega

end

/-! ## Maps of a table -/

/-- A bit of the high map is set if the word of the low map is all ones. -/
structure MapsOk (fdp : Filedesc) : Prop where
  full : ∀ k < ndloslots fdp.nfiles, (fdp.himap.test k = true ↔ fdp.lomap k = BitVec.allOnes 32)
  size : ndfile ≤ fdp.nfiles

/-- The descriptors from `x` on are used, up to the end of the low map. -/
def AllUsed (fdp : Filedesc) (x : Nat) : Prop :=
  ∀ fd, x ≤ fd → fd < ndloslots fdp.nfiles * 32 → fdp.lomap.test fd = true

/-- Where `fdalloc` starts: at the higher one of `want` and `fd_freefile`. -/
def fdStart (fdp : Filedesc) (want : Nat) : Nat :=
  if want < fdp.freefile then fdp.freefile else want

/-- `fdalloc` reads behind a map: no descriptor is free from the start on, and
    `find_next_zero` would search more words than the map has. -/
def Overruns (fdp : Filedesc) (want lim : Nat) : Prop :=
  let off := fdStart fdp want / 32
  let bits := ndreduce (min fdp.nfiles lim)
  let long := ndhislots fdp.nfiles < ndloslots bits
  AllUsed fdp (fdStart fdp want) ∧ off ≤ bits ∧
    (AllUsed fdp (off * 32) ∧ long ∨
      ¬ AllUsed fdp (off * 32) ∧ off < ndloslots bits * 32 ∧
        (ndloslots fdp.nfiles < off + 32 ∨ off + 1 ≤ bits ∧ long))

section

variable {fdp : Filedesc} {want lim k new off x w j : Nat}

theorem ndreduce_min_le (n lim : Nat) : ndreduce (min n lim) ≤ ndhislots n * 32 := by
  unfold ndhislots ndreduce
  omega

theorem AllUsed.mono (h : AllUsed fdp x) {y : Nat} (hxy : x ≤ y) : AllUsed fdp y :=
  fun fd hfd => h fd (Nat.le_trans hxy hfd)

theorem AllUsed.word (h : AllUsed fdp x) (hk : k < ndloslots fdp.nfiles) (hx : x ≤ k * 32) :
    fdp.lomap k = BitVec.allOnes 32 :=
  eq_allOnes_iff_test.2 fun fd hfd hfd' => h fd (Nat.le_trans hx hfd) (by omega)

theorem MapsOk.allUsed_iff (h : MapsOk fdp) :
    AllUsed fdp (off * 32) ↔
      ∀ k, off ≤ k → k < ndloslots fdp.nfiles → fdp.himap.test k = true := by
  constructor
  · intro hused k hk hk'
    exact (h.full k hk').2 (hused.word hk' (by omega))
  · intro hall fd hfd hfd'
    have hword := (h.full (fd / 32) (by omega)).1 (hall (fd / 32) (by omega) (by omega))
    exact eq_allOnes_iff_test.1 hword fd (by omega) (by omega)

theorem test_shift (m : Bitmap 32) (new y : Nat) :
    Bitmap.test (fun k => m (new + k)) y = m.test (new * 32 + y) := by
  rw [test, test, show (new * 32 + y) / 32 = new + y / 32 by omega,
    show (new * 32 + y) % 32 = y % 32 by omega]

theorem lowSearch_spec (fdp : Filedesc) (new : Nat) (hw : w ≤ 32) :
    FindResult (fun k => fdp.lomap (new + k)) (ndloslots fdp.nfiles - new) w 1024
      (findNextZero (fun k => fdp.lomap (new + k)) (ndloslots fdp.nfiles - new) w 32) :=
  findNextZero_spec _ _ hw

theorem lowSearch_found (hnew : new < ndloslots fdp.nfiles)
    (hfree : fdp.lomap new ≠ BitVec.allOnes 32) :
    ∃ j, findNextZero (fun k => fdp.lomap (new + k)) (ndloslots fdp.nfiles - new) 0 32
      = some (some j) := by
  have hres := lowSearch_spec fdp new (Nat.zero_le 32)
  have hword : ¬ ∀ y, 0 ≤ y → y < 32 → Bitmap.test (fun k => fdp.lomap (new + k)) y = true := by
    intro hall
    refine hfree (eq_allOnes_iff_test.2 fun fd hfd hfd' => ?_)
    obtain ⟨y, rfl⟩ := Nat.exists_eq_add_of_le hfd
    rw [← test_shift]
    exact hall y (Nat.zero_le y) (by omega)
  generalize findNextZero _ _ _ _ = r at hres ⊢
  cases hres with
  | outside _ _ hall => exact absurd (fun y hy hy' => hall y hy (by omega)) hword
  | notFound hall _ => exact absurd (fun y hy hy' => hall y hy (by omega)) hword
  | found j => exact ⟨j, rfl⟩

/-! ## fdalloc -/

/-- The first search of `fdalloc`. -/
def highSearch (fdp : Filedesc) (lim want : Nat) : Option (Option Nat) :=
  findNextZero fdp.himap (ndhislots fdp.nfiles) (fdStart fdp want / 32)
    (ndreduce (min fdp.nfiles lim))

/-- The second search of `fdalloc`, from the word `new` on. -/
def lowSearch (fdp : Filedesc) (want new : Nat) : Option (Option Nat) :=
  findNextZero (fun k => fdp.lomap (new + k)) (ndloslots fdp.nfiles - new)
    (if fdStart fdp want / 32 < new then 0 else fdStart fdp want % 32) 32

variable {fuel : Nat}

theorem fdallocLoop_outside (hhigh : highSearch fdp lim want = none) :
    fdallocLoop fdp lim (fuel + 1) want = none := by
  rw [highSearch, fdStart] at hhigh
  simp only [fdallocLoop, hhigh, Option.bind_eq_bind, Option.bind_none]

theorem fdallocLoop_notFound (hhigh : highSearch fdp lim want = some none) :
    (fdallocLoop fdp lim (fuel + 1) want).isSome := by
  rw [highSearch, fdStart] at hhigh
  simp only [fdallocLoop, hhigh, Option.bind_eq_bind, Option.bind_some, Option.pure_def,
    Option.isSome_some]

section

variable (hhigh : highSearch fdp lim want = some (some new))
include hhigh

theorem fdallocLoop_low_outside (hlow : lowSearch fdp want new = none) :
    fdallocLoop fdp lim (fuel + 1) want = none := by
  rw [highSearch, fdStart] at hhigh
  rw [lowSearch, fdStart] at hlow
  simp only [fdallocLoop, hhigh, hlow, Option.bind_eq_bind, Option.bind_some, Option.bind_none]

theorem fdallocLoop_restart (hlow : lowSearch fdp want new = some none) :
    fdallocLoop fdp lim (fuel + 1) want = fdallocLoop fdp lim fuel ((new + 1) * 32) := by
  rw [highSearch, fdStart] at hhigh
  rw [lowSearch, fdStart] at hlow
  simp only [fdallocLoop, hhigh, hlow, Option.bind_eq_bind, Option.bind_some]

theorem fdallocLoop_found (hlow : lowSearch fdp want new = some (some j)) :
    (fdallocLoop fdp lim (fuel + 1) want).isSome := by
  rw [highSearch, fdStart] at hhigh
  rw [lowSearch, fdStart] at hlow
  simp only [fdallocLoop, hhigh, hlow, Option.bind_eq_bind, Option.bind_some, Option.pure_def]
  split <;> rfl

end

theorem MapsOk.high_outside (h : MapsOk fdp) (lim want : Nat)
    (hle : fdStart fdp want / 32 ≤ ndreduce (min fdp.nfiles lim)) :
    highSearch fdp lim want = none ↔
      AllUsed fdp (fdStart fdp want / 32 * 32) ∧
        ndhislots fdp.nfiles < ndloslots (ndreduce (min fdp.nfiles lim)) := by
  have hres := findNextZero_spec fdp.himap (ndhislots fdp.nfiles) hle
  have hbits := le_ndloslots (ndreduce (min fdp.nfiles lim))
  have hmin := ndreduce_min_le fdp.nfiles lim
  rw [h.allUsed_iff, highSearch]
  generalize findNextZero _ _ _ _ = r at hres ⊢
  cases hres with
  | outside _ hsize hall => exact ⟨fun _ => ⟨hall, by omega⟩, fun _ => rfl⟩
  | notFound _ hend =>
    refine ⟨fun hno => absurd hno (Option.some_ne_none _), fun ⟨_, hlong⟩ => ?_⟩
    omega
  | found z hz _ hin hclear _ =>
    refine ⟨fun hno => absurd hno (Option.some_ne_none _), fun ⟨hall, _⟩ => ?_⟩
    rw [hall z hz hin] at hclear
    cases hclear

theorem MapsOk.high_found (h : MapsOk fdp)
    (hle : fdStart fdp want / 32 ≤ ndreduce (min fdp.nfiles lim))
    (hhigh : highSearch fdp lim want = some (some new)) :
    fdStart fdp want / 32 ≤ new ∧ new < ndloslots fdp.nfiles ∧
      new < ndloslots (ndreduce (min fdp.nfiles lim)) * 32 ∧
      fdp.lomap new ≠ BitVec.allOnes 32 := by
  have hres := findNextZero_spec fdp.himap (ndhislots fdp.nfiles) hle
  rw [highSearch] at hhigh
  rw [hhigh] at hres
  cases hres with
  | found _ hlo hhi hin hclear _ =>
    refine ⟨hlo, hin, hhi, fun hfull => ?_⟩
    rw [(h.full new hin).2 hfull] at hclear
    cases hclear

theorem MapsOk.high_notFound (h : MapsOk fdp)
    (hle : fdStart fdp want / 32 ≤ ndreduce (min fdp.nfiles lim))
    (hhigh : highSearch fdp lim want = some none)
    (hlt : fdStart fdp want / 32 < ndloslots (ndreduce (min fdp.nfiles lim)) * 32)
    (hused : AllUsed fdp (fdStart fdp want)) : AllUsed fdp (fdStart fdp want / 32 * 32) := by
  have hres := findNextZero_spec fdp.himap (ndhislots fdp.nfiles) hle
  rw [highSearch] at hhigh
  rw [hhigh] at hres
  cases hres with
  | notFound hall _ =>
    intro fd hfd hfd'
    by_cases hword : fd < (fdStart fdp want / 32 + 1) * 32
    · have hfirst := (h.full (fdStart fdp want / 32) (by omega)).1 (hall _ (Nat.le_refl _) hlt)
      exact eq_allOnes_iff_test.1 hfirst fd hfd hword
    · exact hused fd (by omega) hfd'

theorem MapsOk.isSome_of_aligned (h : MapsOk fdp) (haligned : fdStart fdp want % 32 = 0)
    (hin : highSearch fdp lim want ≠ none) : (fdallocLoop fdp lim (fuel + 1) want).isSome := by
  cases hhigh : highSearch fdp lim want with
  | none => exact absurd hhigh hin
  | some r =>
    cases r with
    | none => exact fdallocLoop_notFound hhigh
    | some new =>
      have hle : fdStart fdp want / 32 ≤ ndreduce (min fdp.nfiles lim) := by
        by_contra hlt
        rw [highSearch, findNextZero, if_pos (Nat.lt_of_not_le hlt)] at hhigh
        cases hhigh
      obtain ⟨-, hnew, -, hfree⟩ := h.high_found hle hhigh
      obtain ⟨j, hj⟩ := lowSearch_found hnew hfree
      refine fdallocLoop_found hhigh (j := j) ?_
      rw [lowSearch, haligned, ite_self]
      exact hj

/-- `fdalloc` from a start in a word that has a free descriptor. -/
theorem MapsOk.isSome_of_found (h : MapsOk fdp)
    (hle : fdStart fdp want / 32 ≤ ndreduce (min fdp.nfiles lim))
    (hhigh : highSearch fdp lim want = some (some new)) :
    (fdallocLoop fdp lim (fuel + 2) want).isSome ↔
      ¬ (AllUsed fdp (fdStart fdp want) ∧
        (ndloslots fdp.nfiles < fdStart fdp want / 32 + 32 ∨
          fdStart fdp want / 32 + 1 ≤ ndreduce (min fdp.nfiles lim) ∧
            ndhislots fdp.nfiles < ndloslots (ndreduce (min fdp.nfiles lim)))) := by
  obtain ⟨hlo, hnew, -, hfree⟩ := h.high_found hle hhigh
  rcases Nat.lt_or_eq_of_le hlo with hlt | heq
  · -- a word further up has a free descriptor
    obtain ⟨j, hj⟩ := lowSearch_found hnew hfree
    have hlow : lowSearch fdp want new = some (some j) := by
      rw [lowSearch, if_pos hlt]
      exact hj
    refine iff_of_true (fdallocLoop_found hhigh hlow) fun ⟨hused, _⟩ => ?_
    exact hfree (hused.word hnew (by omega))
  · obtain ⟨w, hw⟩ : ∃ w, w = fdStart fdp want % 32 := ⟨_, rfl⟩
    have hwlt : w < 32 := hw ▸ Nat.mod_lt _ (by decide)
    have hstart : fdStart fdp want = new * 32 + w := by omega
    have hres := lowSearch_spec fdp new (Nat.le_of_lt hwlt)
    have hsearch : lowSearch fdp want new
        = findNextZero (fun k => fdp.lomap (new + k)) (ndloslots fdp.nfiles - new) w 32 := by
      rw [lowSearch, heq, if_neg (Nat.lt_irrefl new), hw]
    generalize hr : findNextZero _ _ w 32 = r at hres hsearch
    cases hres with
    | outside _ hsize hall =>
      rw [fdallocLoop_low_outside hhigh hsearch]
      refine iff_of_false Bool.false_ne_true (not_not.2 ⟨fun fd hfd hfd' => ?_, .inl (by omega)⟩)
      obtain ⟨y, rfl⟩ := Nat.exists_eq_add_of_le (show new * 32 ≤ fd by omega)
      rw [← test_shift]
      exact hall y (by omega) (by omega)
    | found j hj hj' hj'' hclear _ =>
      refine iff_of_true (fdallocLoop_found hhigh hsearch) fun ⟨hused, _⟩ => ?_
      rw [test_shift, hused _ (by omega) (by omega)] at hclear
      cases hclear
    | notFound hall hend =>
      -- the free descriptor in the word is below the start: once more from the next word on
      rw [fdallocLoop_restart hhigh hsearch]
      have hnext : fdStart fdp ((new + 1) * 32) = (new + 1) * 32 := by
        have hfree' : fdp.freefile ≤ fdStart fdp want := by
          rw [fdStart]
          split <;> omega
        rw [fdStart, if_neg (by omega)]
      have hdiv : fdStart fdp ((new + 1) * 32) / 32 = new + 1 := by omega
      have hblock : ∀ fd, new * 32 + w ≤ fd → fd < (new + 1) * 32 → fdp.lomap.test fd = true := by
        intro fd hfd hfd'
        obtain ⟨y, rfl⟩ := Nat.exists_eq_add_of_le (show new * 32 ≤ fd by omega)
        rw [← test_shift]
        exact hall y (by omega) (by omega)
      have hused : AllUsed fdp (fdStart fdp want) ↔ AllUsed fdp ((new + 1) * 32) := by
        refine ⟨fun hu => hu.mono (by omega), fun hu fd hfd hfd' => ?_⟩
        by_cases hlow : fd < (new + 1) * 32
        · exact hblock fd (by omega) hlow
        · exact hu fd (by omega) hfd'
      rw [hused, heq]
      by_cases hbits : new + 1 ≤ ndreduce (min fdp.nfiles lim)
      · have hout := h.high_outside lim ((new + 1) * 32) (by rwa [hdiv])
        rw [hdiv] at hout
        by_cases hnone : highSearch fdp lim ((new + 1) * 32) = none
        · obtain ⟨hu, hlong⟩ := hout.1 hnone
          rw [fdallocLoop_outside hnone]
          exact iff_of_false Bool.false_ne_true (not_not.2 ⟨hu, .inr ⟨hbits, hlong⟩⟩)
        · refine iff_of_true (h.isSome_of_aligned (by omega) hnone) fun ⟨hu, hcase⟩ => ?_
          rcases hcase with hsize | ⟨-, hlong⟩
          · omega
          · exact hnone (hout.2 ⟨hu, hlong⟩)
      · have hnone : highSearch fdp lim ((new + 1) * 32) = some none := by
          rw [highSearch, hdiv, findNextZero, if_pos (Nat.lt_of_not_le hbits)]
        refine iff_of_true (fdallocLoop_notFound hnone) fun ⟨_, hcase⟩ => ?_
        rcases hcase with hsize | ⟨hle', -⟩
        · omega
        · exact hbits hle'

/-- `fdalloc` reads only words of the maps, but for the tables that `Overruns` names. -/
theorem MapsOk.fdalloc_isSome_iff (h : MapsOk fdp) (want lim : Nat) :
    (fdalloc fdp want lim).isSome ↔ ¬ Overruns fdp want lim := by
  unfold Overruns
  dsimp only
  rw [fdalloc]
  by_cases hle : fdStart fdp want / 32 ≤ ndreduce (min fdp.nfiles lim)
  · have hout := h.high_outside lim want hle
    cases hhigh : highSearch fdp lim want with
    | none =>
      obtain ⟨hused, hlong⟩ := hout.1 hhigh
      rw [fdallocLoop_outside hhigh]
      exact iff_of_false Bool.false_ne_true
        (not_not.2 ⟨hused.mono (by omega), hle, .inl ⟨hused, hlong⟩⟩)
    | some r =>
      have hfirst : ¬ (AllUsed fdp (fdStart fdp want / 32 * 32) ∧
          ndhislots fdp.nfiles < ndloslots (ndreduce (min fdp.nfiles lim))) := by
        intro hboth
        exact Option.some_ne_none r (hhigh.symm.trans (hout.2 hboth))
      cases r with
      | none =>
        refine iff_of_true (fdallocLoop_notFound hhigh) fun ⟨hused, _, hcase⟩ => ?_
        rcases hcase with hboth | ⟨hnot, hlt, -⟩
        · exact hfirst hboth
        · exact hnot (h.high_notFound hle hhigh hlt hused)
      | some new =>
        rw [h.isSome_of_found hle hhigh, not_iff_not]
        obtain ⟨hlo, hnew, hhi, hfree⟩ := h.high_found hle hhigh
        have hnot : ¬ AllUsed fdp (fdStart fdp want / 32 * 32) :=
          fun hu => hfree (hu.word hnew (by omega))
        constructor
        · rintro ⟨hused, hcase⟩
          exact ⟨hused, hle, .inr ⟨hnot, by omega, hcase⟩⟩
        · rintro ⟨hused, -, hboth | ⟨-, -, hcase⟩⟩
          · exact absurd hboth hfirst
          · exact ⟨hused, hcase⟩
  · have hnone : highSearch fdp lim want = some none := by
      rw [highSearch, findNextZero, if_pos (Nat.lt_of_not_le hle)]
    exact iff_of_true (fdallocLoop_notFound hnone) fun ⟨_, hle', _⟩ => hle hle'

end

end OpenBsd.Kern
