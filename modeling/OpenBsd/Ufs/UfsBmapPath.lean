/-
  OpenBsd.Ufs.UfsBmapPath

  What `ufs_getlbns` computes.  The blocks of a file behind the direct ones come in three
  groups, one for each address of indirect blocks in the inode.  The offsets of a path are
  the digits of the place in the group, and an indirect block has minus the number of its
  first data block, less its level.
-/

import OpenBsd.Lib.Radix
import OpenBsd.Lib.Spans
import OpenBsd.Ufs.UfsBmap

namespace OpenBsd.Ufs

open OpenBsd.Lib List

/-! ## The path -/

/-- The first block that needs `level + 1` levels of indirection. -/
def groupStart (n level : Nat) : Nat := ndaddr + upTo (fun i => n ^ (i + 1)) level

/-- The number of the indirect block `m` levels in front of the data for place `r`. -/
def metaLbn (n level r m : Nat) : Int := 1 - (groupStart n level + r / n ^ m * n ^ m + m : Nat)

/-- The last `m` steps of the path to place `r`. -/
@[simp] def downPath (n level r : Nat) : Nat → List Indir
  | 0 => []
  | m + 1 => ⟨metaLbn n level r (m + 1), r / n ^ m % n⟩ :: downPath n level r m

/-- The path to place `r` of the group with `level + 1` levels. -/
def fullPath (n level r : Nat) : List Indir :=
  ⟨metaLbn n level r (level + 1), level⟩ :: downPath n level r (level + 1)

section

variable {n level r m : Nat}

@[simp] theorem length_downPath (n level r m : Nat) : (downPath n level r m).length = m := by
  induction m with
  | zero => rfl
  | succ m ih => rw [downPath, length_cons, ih]

theorem map_inOff_downPath (n level r m : Nat) :
    (downPath n level r m).map Indir.inOff = digitsDown n r m := by
  induction m with
  | zero => rfl
  | succ m ih => rw [downPath, digitsDown, map_cons, ih]

theorem getElem?_downPath {i : Nat} (h : i < m) :
    ((downPath n level r m)[i]?).map Indir.inLbn = some (metaLbn n level r (m - i)) := by
  induction m generalizing i with
  | zero => exact absurd h (Nat.not_lt_zero i)
  | succ m ih =>
    cases i with
    | zero => rfl
    | succ i =>
      rw [downPath, getElem?_cons_succ, ih (Nat.lt_of_succ_lt_succ h), Nat.succ_sub_succ]

@[simp] theorem length_fullPath (n level r : Nat) : (fullPath n level r).length = level + 2 := by
  rw [fullPath, length_cons, length_downPath]

theorem getElem?_fullPath {i : Nat} (hi : 1 ≤ i) (h : i < level + 2) :
    ((fullPath n level r)[i]?).map Indir.inLbn = some (metaLbn n level r (level + 2 - i)) := by
  cases i with
  | zero => exact absurd hi (Nat.not_succ_le_zero 0)
  | succ i =>
    rw [fullPath, getElem?_cons_succ, getElem?_downPath (Nat.lt_of_succ_lt_succ h),
      Nat.succ_sub_succ]

/-! ## The loops -/

theorem metaLbn_succ :
    metaLbn n level r (m + 1) - (-1 + ((r / n ^ m % n : Nat) : Int) * (n ^ m : Nat))
      = metaLbn n level r m := by
  have hdigit : r / n ^ (m + 1) * n ^ (m + 1) + r / n ^ m % n * n ^ m = r / n ^ m * n ^ m := by
    rw [Nat.pow_succ, ← Nat.div_div_eq_div_mul, ← Nat.mul_assoc, Nat.mul_right_comm,
      ← Nat.add_mul, Nat.div_add_mod']
  unfold metaLbn
  rw [← hdigit]
  push_cast
  omega

theorem pathLoop_succ (hn : 0 < n) {realbn : Int} (h : metaLbn n level r (m + 1) ≠ realbn) :
    pathLoop n realbn r (m + 1) (n ^ (m + 1)) (metaLbn n level r (m + 1))
      = (⟨metaLbn n level r (m + 1), r / n ^ m % n⟩
          :: (pathLoop n realbn r m (n ^ m) (metaLbn n level r m)).1,
         (pathLoop n realbn r m (n ^ m) (metaLbn n level r m)).2) := by
  have hcnt : n ^ (m + 1) / n = n ^ m := Nat.mul_div_cancel _ hn
  rw [pathLoop, if_neg h]
  simp only [hcnt, metaLbn_succ]

theorem pathLoop_search (hn : 0 < n) {l : Nat} {realbn : Int} (hl : 1 ≤ l)
    (hreal : metaLbn n level r l = realbn) (hlm : l ≤ m) :
    ∃ d, l + d ≤ m ∧ metaLbn n level r (m - d) = realbn ∧
      pathLoop n realbn r m (n ^ m) (metaLbn n level r m)
        = ((downPath n level r m).take d, realbn) := by
  induction m with
  | zero => exact absurd (Nat.le_trans hl hlm) (Nat.not_succ_le_zero 0)
  | succ m ih =>
    by_cases hstop : metaLbn n level r (m + 1) = realbn
    · refine ⟨0, hlm, hstop, ?_⟩
      rw [pathLoop, if_pos hstop, hstop, take_zero]
    · -- the block looked for is further down
      have hlm' : l ≤ m := by
        by_contra hlt
        exact hstop (by rwa [show m + 1 = l by omega])
      obtain ⟨d, hd, hdreal, hpath⟩ := ih hlm'
      refine ⟨d + 1, by omega, by rwa [Nat.succ_sub_succ], ?_⟩
      rw [pathLoop_succ hn hstop, hpath, downPath, take_succ_cons]

theorem metaLbn_neg (n level r m : Nat) : metaLbn n level r m < 0 := by
  have hstart : groupStart n level = 12 + upTo (fun i => n ^ (i + 1)) level := rfl
  unfold metaLbn
  omega

theorem pathLoop_data (hn : 0 < n) {realbn : Int} (hreal : 0 ≤ realbn) (m : Nat) :
    (pathLoop n realbn r m (n ^ m) (metaLbn n level r m)).1 = downPath n level r m := by
  induction m with
  | zero => rfl
  | succ m ih =>
    have hne : metaLbn n level r (m + 1) ≠ realbn :=
      fun h => absurd (metaLbn_neg n level r (m + 1)) (by omega)
    rw [pathLoop_succ hn hne, ih, downPath]

theorem levelLoop_upTo {i j : Nat} (hi : level < i) (hr : r < n ^ (j + level + 1)) :
    levelLoop n i (n ^ j) (upTo (fun t => n ^ (j + t + 1)) level + r)
      = some (i - level, n ^ (j + level + 1), r) := by
  induction level generalizing i j with
  | zero =>
    obtain ⟨i, rfl⟩ : ∃ i', i = i' + 1 := ⟨i - 1, by omega⟩
    rw [levelLoop, upTo_zero, Nat.zero_add]
    exact if_pos hr
  | succ level ih =>
    obtain ⟨i, rfl⟩ : ∃ i', i = i' + 1 := ⟨i - 1, by omega⟩
    have hcnt : n ^ j * n = n ^ (j + 1) := rfl
    have hidx : ∀ t, j + (t + 1) + 1 = j + 1 + t + 1 := fun t => by omega
    rw [upTo_shift, levelLoop, hcnt]
    simp only [Nat.add_zero, hidx]
    rw [if_neg (by omega), show n ^ (j + 1) + upTo (fun t => n ^ (j + 1 + t + 1)) level + r
      - n ^ (j + 1) = upTo (fun t => n ^ (j + 1 + t + 1)) level + r by omega,
      ih (by omega) (by rwa [← hidx]), Nat.succ_sub_succ]

theorem levelLoop_eq_none {i j bn : Nat} (h : upTo (fun t => n ^ (j + t + 1)) i ≤ bn) :
    levelLoop n i (n ^ j) bn = none := by
  induction i generalizing j bn with
  | zero => rfl
  | succ i ih =>
    have hcnt : n ^ j * n = n ^ (j + 1) := rfl
    have hidx : ∀ t, j + (t + 1) + 1 = j + 1 + t + 1 := fun t => by omega
    rw [upTo_shift] at h
    simp only [Nat.add_zero, hidx] at h
    rw [levelLoop, hcnt, if_neg (by omega), ih (by omega)]

/-! ## Blocks and indirect blocks -/

theorem ufsGetlbns_eq {realbn : Int} (hlevel : level < niaddr) (hr : r < n ^ (level + 1))
    (habs : realbn.natAbs = groupStart n level + r) :
    ufsGetlbns n realbn
      = if realbn < 0 ∧ (pathLoop n realbn r (level + 1) (n ^ (level + 1))
            (metaLbn n level r (level + 1))).2 ≠ realbn then .error .notFound
        else .ok (⟨metaLbn n level r (level + 1), level⟩ ::
          (pathLoop n realbn r (level + 1) (n ^ (level + 1))
            (metaLbn n level r (level + 1))).1) := by
  have hloop := @levelLoop_upTo n level r niaddr 0 hlevel (by rwa [Nat.zero_add])
  simp only [Nat.zero_add, Nat.pow_zero] at hloop
  have hstart : groupStart n level = ndaddr + upTo (fun i => n ^ (i + 1)) level := rfl
  have hbn : realbn.natAbs - ndaddr = upTo (fun i => n ^ (i + 1)) level + r := by omega
  have htop : (if realbn ≥ 0 then -(realbn - r + niaddr - (niaddr - level : Nat))
      else -(-realbn - r + niaddr - (niaddr - level : Nat)) : Int)
      = metaLbn n level r (level + 1) := by
    rw [metaLbn, Nat.div_eq_of_lt hr]
    split <;> omega
  have hfuel : niaddr + 1 - (niaddr - level) = level + 1 := by omega
  have hoff : niaddr - (niaddr - level) = level := by omega
  rw [ufsGetlbns]
  simp only []
  rw [if_neg (by omega), if_neg (by omega), hbn, hloop]
  simp only [htop, hfuel, hoff]

theorem ufsGetlbns_block (hn : 0 < n) (hlevel : level < niaddr) (hr : r < n ^ (level + 1)) :
    ufsGetlbns n (groupStart n level + r : Nat) = .ok (fullPath n level r) := by
  rw [ufsGetlbns_eq hlevel hr (Int.natAbs_natCast _), if_neg (by omega),
    pathLoop_data hn (by omega), fullPath]

/-- The place that the number of an indirect block stands for. -/
def metaPlace (n r m : Nat) : Nat := r / n ^ m * n ^ m + (m - 1)

theorem natAbs_metaLbn (hm : 1 ≤ m) :
    (metaLbn n level r m).natAbs = groupStart n level + metaPlace n r m := by
  unfold metaLbn metaPlace
  omega

theorem lt_pow_self (hn : 2 ≤ n) (m : Nat) : m < n ^ m := Nat.lt_pow_self hn

theorem metaPlace_div (hn : 2 ≤ n) {j : Nat} (hj : m ≤ j) :
    metaPlace n r m / n ^ j = r / n ^ j := by
  have hlt : m - 1 < n ^ m := Nat.lt_of_le_of_lt (Nat.sub_le m 1) (lt_pow_self hn m)
  have hm : metaPlace n r m / n ^ m = r / n ^ m := by
    unfold metaPlace
    rw [Nat.add_comm, Nat.add_mul_div_right _ _ (Nat.pow_pos (by omega)), Nat.div_eq_of_lt hlt,
      Nat.zero_add]
  obtain ⟨i, rfl⟩ := Nat.exists_eq_add_of_le hj
  rw [Nat.pow_add, ← Nat.div_div_eq_div_mul, hm, Nat.div_div_eq_div_mul]

theorem metaPlace_lt (hn : 2 ≤ n) (hr : r < n ^ (level + 1)) (hml : m ≤ level + 1) :
    metaPlace n r m < n ^ (level + 1) := by
  have hdiv := @metaPlace_div n r m hn _ hml
  rw [Nat.div_eq_of_lt hr] at hdiv
  exact (Nat.div_eq_zero_iff_lt (Nat.pow_pos (by omega))).1 hdiv

theorem metaLbn_metaPlace (hn : 2 ≤ n) {j : Nat} (hj : m ≤ j) :
    metaLbn n level (metaPlace n r m) j = metaLbn n level r j := by
  unfold metaLbn
  rw [metaPlace_div hn hj]

theorem take_downPath_metaPlace (hn : 2 ≤ n) {d j : Nat} (h : m + d ≤ j) :
    (downPath n level (metaPlace n r m) j).take d = (downPath n level r j).take d := by
  induction d generalizing j with
  | zero => rw [take_zero, take_zero]
  | succ d ih =>
    obtain ⟨j, rfl⟩ : ∃ j', j = j' + 1 := ⟨j - 1, by omega⟩
    rw [downPath, downPath, take_succ_cons, take_succ_cons, ih (by omega),
      metaLbn_metaPlace hn (by omega), metaPlace_div hn (by omega)]

/-- The search for the indirect block `m` levels in front of place `r` ends at a block of the
    path with its number. -/
theorem ufsGetlbns_meta (hn : 2 ≤ n) (hlevel : level < niaddr) (hr : r < n ^ (level + 1))
    (hm : 1 ≤ m) (hml : m ≤ level + 1) :
    ∃ d, m + d ≤ level + 1 ∧ metaLbn n level r (level + 1 - d) = metaLbn n level r m ∧
      ufsGetlbns n (metaLbn n level r m) = .ok ((fullPath n level r).take (d + 1)) := by
  have hn0 : 0 < n := by omega
  obtain ⟨d, hd, hreal, hpath⟩ := pathLoop_search hn0 hm
    (@metaLbn_metaPlace n level r m (by omega) m (Nat.le_refl m)) hml
  rw [metaLbn_metaPlace hn (by omega)] at hreal
  refine ⟨d, hd, hreal, ?_⟩
  rw [ufsGetlbns_eq hlevel (metaPlace_lt hn hr hml) (natAbs_metaLbn hm), hpath,
    if_neg fun h => h.2 rfl, take_downPath_metaPlace hn hd, metaLbn_metaPlace hn hml, fullPath,
    take_succ_cons]

/-! ## Names -/

theorem metaLbn_inj {level' r' m' : Nat} (hn : 2 ≤ n) (hr : r < n ^ (level + 1))
    (hr' : r' < n ^ (level' + 1)) (hm : 1 ≤ m) (hml : m ≤ level + 1) (hm' : 1 ≤ m')
    (hml' : m' ≤ level' + 1) (h : metaLbn n level r m = metaLbn n level' r' m') :
    level = level' ∧ metaPlace n r m = metaPlace n r' m' := by
  have habs := congrArg Int.natAbs h
  rw [natAbs_metaLbn hm, natAbs_metaLbn hm'] at habs
  unfold groupStart at habs
  exact @upTo_unique (fun i => n ^ (i + 1)) level level' _ _ (metaPlace_lt hn hr hml)
    (metaPlace_lt hn hr' hml') (by omega)

theorem metaLbn_path_inj {d : Nat} (hn : 3 ≤ n) (hm : 1 ≤ m) (hml : m + d ≤ niaddr)
    (h : metaLbn n level r (m + d) = metaLbn n level r m) : d = 0 := by
  unfold metaLbn at h
  have hsum : r / n ^ m * n ^ m = r / n ^ (m + d) * n ^ (m + d) + d := by omega
  have hdvd : n ^ m ∣ d := by
    have hup : n ^ m ∣ r / n ^ (m + d) * n ^ (m + d) :=
      Dvd.dvd.mul_left (Nat.pow_dvd_pow n (Nat.le_add_right m d)) _
    exact (Nat.dvd_add_right hup).1 (hsum ▸ Nat.dvd_mul_left (n ^ m) _)
  by_contra hd
  have hle := Nat.le_of_dvd (Nat.pos_of_ne_zero hd) hdvd
  have hpow : n ^ 1 ≤ n ^ m := Nat.pow_le_pow_right (by omega) hm
  have hthree : niaddr = 3 := rfl
  rw [Nat.pow_one] at hpow
  omega

theorem map_inOff_take_fullPath (n level r d : Nat) :
    ((fullPath n level r).take (d + 1)).map Indir.inOff
      = level :: (digitsDown n r (level + 1)).take d := by
  rw [fullPath, take_succ_cons, map_cons, map_take, map_inOff_downPath]

/-- Indirect blocks of one level, counted from the inode or from the data, have the same
    name exactly when the offsets above agree. -/
theorem metaLbn_eq_iff {level' r' d d' : Nat} (hn : 2 ≤ n) (hr : r < n ^ (level + 1))
    (hr' : r' < n ^ (level' + 1)) (hd : d ≤ level) (hd' : d' ≤ level')
    (hsame : d = d' ∨ level - d = level' - d') :
    metaLbn n level r (level + 1 - d) = metaLbn n level' r' (level' + 1 - d')
      ↔ ((fullPath n level r).take (d + 1)).map Indir.inOff
        = ((fullPath n level' r').take (d' + 1)).map Indir.inOff := by
  rw [map_inOff_take_fullPath, map_inOff_take_fullPath, List.cons.injEq]
  -- the first offset is the group
  by_cases hlevel : level = level'
  · subst hlevel
    have hdd : d = d' := by omega
    subst hdd
    obtain ⟨m, rfl⟩ : ∃ m, level = m + d := ⟨level - d, by omega⟩
    have hm : m + d + 1 - d = m + 1 := by omega
    have hdigits := @take_digitsDown_eq_iff n r r' (by omega) (m + 1) d
    have hlt : ∀ x, x < n ^ (m + d + 1) → x / n ^ (m + 1) < n ^ d := fun x hx =>
      Nat.div_lt_of_lt_mul (by rwa [← Nat.pow_add, Nat.add_right_comm])
    rw [Nat.mod_eq_of_lt (hlt r hr), Nat.mod_eq_of_lt (hlt r' hr'), Nat.add_right_comm] at hdigits
    rw [hm, hdigits]
    constructor
    · intro h
      have hplace := (metaLbn_inj hn hr hr' (by omega) (by omega) (by omega) (by omega) h).2
      rw [← metaPlace_div hn (Nat.le_refl (m + 1)), hplace, metaPlace_div hn (Nat.le_refl _)]
      exact ⟨rfl, rfl⟩
    · rintro ⟨-, h⟩
      unfold metaLbn
      rw [h]
  · constructor
    · intro h
      exact absurd (metaLbn_inj hn hr hr' (by omega) (by omega) (by omega) (by omega) h).1 hlevel
    · intro h
      exact absurd h.1 hlevel

theorem exists_groupStart {bn : Nat} (hlow : ndaddr ≤ bn) (hhigh : bn < groupStart n niaddr) :
    ∃ level < niaddr, ∃ r < n ^ (level + 1), bn = groupStart n level + r := by
  have hhigh' : bn < ndaddr + upTo (fun i => n ^ (i + 1)) (2 + 1) := hhigh
  have hthree : niaddr = 3 := rfl
  obtain ⟨level, hlevel, r, hr, hbn⟩ :=
    @exists_upTo (fun i => n ^ (i + 1)) 2 (bn - ndaddr) (by omega)
  exact ⟨level, by omega, r, hr, by unfold groupStart; omega⟩

theorem ufsGetlbns_behind {bn : Nat} (hhigh : groupStart n niaddr ≤ bn) :
    ufsGetlbns n bn = .error .efbig := by
  have hstart : groupStart n niaddr = ndaddr + upTo (fun i => n ^ (i + 1)) niaddr := rfl
  have hloop := @levelLoop_eq_none n niaddr 0 (bn - ndaddr) (by simp only [Nat.zero_add]; omega)
  rw [Nat.pow_zero] at hloop
  rw [ufsGetlbns]
  simp only [Int.natAbs_natCast]
  rw [if_neg (by omega), if_neg (by omega), hloop]

end

theorem map_inOff_fullPath {n level r : Nat} (hn : 0 < n) (hr : r < n ^ (level + 1)) :
    ∃ offs, (fullPath n level r).map Indir.inOff = level :: offs ∧ offs.length = level + 1 ∧
      (∀ off ∈ offs, off < n) ∧ Nat.ofDigits n offs.reverse = r := by
  refine ⟨digitsDown n r (level + 1), ?_, length_digitsDown .., fun off => digitsDown_lt hn, ?_⟩
  · rw [fullPath, map_cons, map_inOff_downPath]
  · rw [ofDigits_digitsDown, Nat.mod_eq_of_lt hr]

theorem inLbn_fullPath {n level r i : Nat} {e : Indir} (hi : 1 ≤ i)
    (h : (fullPath n level r)[i]? = some e) :
    i ≤ level + 1 ∧ e.inLbn = metaLbn n level r (level + 1 - (i - 1)) := by
  have hlt : i < level + 2 := by
    have := (List.getElem?_eq_some_iff.1 h).1
    rwa [length_fullPath] at this
  have hlbn := getElem?_fullPath (n := n) (r := r) hi hlt
  rw [h, Option.map_some, Option.some_inj] at hlbn
  exact ⟨by omega, by rw [hlbn, show level + 1 - (i - 1) = level + 2 - i by omega]⟩

/-- The path to a data block spells out the number of the block; different blocks have
    different paths, and indirect blocks are named after the offsets above them.  A search for
    an indirect block ends at a block with its number, and at the block itself when a block
    has three or more pointers. -/
theorem ufsGetlbns_paths {n : Nat} (hn : 2 ≤ n) :
    (∀ bn : Nat, ndaddr ≤ bn → bn < ndaddr + n + n ^ 2 + n ^ 3 →
      ∃ path, ufsGetlbns n bn = .ok path ∧
        (∃ level offs, path.map Indir.inOff = level :: offs ∧ level < niaddr ∧
          offs.length = level + 1 ∧ (∀ off ∈ offs, off < n) ∧
          bn = ndaddr + ∑ i ∈ Finset.range level, n ^ (i + 1)
            + Nat.ofDigits n offs.reverse) ∧
        (path[0]?).map Indir.inLbn = (path[1]?).map Indir.inLbn ∧
        ∀ i, 1 ≤ i → ∀ e, path[i]? = some e →
          ∃ j ≤ i, 1 ≤ j ∧ (path[j]?).map Indir.inLbn = some e.inLbn ∧
            ufsGetlbns n e.inLbn = .ok (path.take j) ∧ (3 ≤ n → j = i)) ∧
    ∀ bn bn' : Nat, ndaddr ≤ bn → ndaddr ≤ bn' → ∀ path path', ufsGetlbns n bn = .ok path →
      ufsGetlbns n bn' = .ok path' →
        (path.map Indir.inOff = path'.map Indir.inOff → bn = bn') ∧
        ∀ i j, 1 ≤ i → 1 ≤ j → (i = j ∨ path.length - i = path'.length - j) →
          ∀ e e', path[i]? = some e → path'[j]? = some e' →
            (e.inLbn = e'.inLbn
              ↔ (path.take i).map Indir.inOff = (path'.take j).map Indir.inOff) := by
  have hn0 : 0 < n := by omega
  have hend : groupStart n niaddr = ndaddr + n + n ^ 2 + n ^ 3 := by
    simp only [groupStart, niaddr, upTo, Finset.sum_range_succ, Finset.sum_range_zero]
    ring
  constructor
  · intro bn hlow hhigh
    obtain ⟨level, hlevel, r, hr, rfl⟩ := exists_groupStart hlow (hend ▸ hhigh)
    obtain ⟨offs, hoffs, hlen, hlt, hsum⟩ := map_inOff_fullPath hn0 hr
    refine ⟨fullPath n level r, ufsGetlbns_block hn0 hlevel hr,
      ⟨level, offs, hoffs, hlevel, hlen, hlt, ?_⟩, rfl, ?_⟩
    · rw [hsum]
      rfl
    · intro i hi e he
      obtain ⟨hil, hlbn⟩ := inLbn_fullPath hi he
      obtain ⟨d, hd, hreal, hpath⟩ :=
        ufsGetlbns_meta hn hlevel hr (m := level + 1 - (i - 1)) (by omega) (by omega)
      refine ⟨d + 1, by omega, by omega, ?_, by rwa [hlbn], ?_⟩
      · rw [getElem?_fullPath (by omega) (by omega), hlbn, ← hreal,
          show level + 2 - (d + 1) = level + 1 - d by omega]
      · intro hthree
        have hsame := @metaLbn_path_inj n level r (level + 1 - (i - 1)) (i - 1 - d) hthree
          (by omega) (by omega)
          (by rw [show level + 1 - (i - 1) + (i - 1 - d) = level + 1 - d by omega, hreal])
        omega
  · intro bn bn' hlow hlow' path path' hpath hpath'
    have hrange : ∀ {b : Nat} {p}, ufsGetlbns n b = .ok p → b < groupStart n niaddr := by
      intro b p hp
      by_contra hge
      rw [ufsGetlbns_behind (Nat.not_lt.1 hge)] at hp
      cases hp
    obtain ⟨level, hlevel, r, hr, rfl⟩ := exists_groupStart hlow (hrange hpath)
    obtain ⟨level', hlevel', r', hr', rfl⟩ := exists_groupStart hlow' (hrange hpath')
    rw [ufsGetlbns_block hn0 hlevel hr, Except.ok.injEq] at hpath
    rw [ufsGetlbns_block hn0 hlevel' hr', Except.ok.injEq] at hpath'
    subst hpath hpath'
    constructor
    · intro h
      obtain ⟨offs, hoffs, -, -, hsum⟩ := map_inOff_fullPath hn0 hr
      obtain ⟨offs', hoffs', -, -, hsum'⟩ := map_inOff_fullPath hn0 hr'
      rw [hoffs, hoffs', List.cons.injEq] at h
      rw [h.1, ← hsum, ← hsum', h.2]
    · intro i j hi hj hsame e e' he he'
      obtain ⟨hil, hlbn⟩ := inLbn_fullPath hi he
      obtain ⟨hjl, hlbn'⟩ := inLbn_fullPath hj he'
      rw [length_fullPath, length_fullPath] at hsame
      have hiff := @metaLbn_eq_iff n level r level' r' (i - 1) (j - 1) hn hr hr' (by omega)
        (by omega) (by omega)
      rw [Nat.sub_add_cancel hi, Nat.sub_add_cancel hj] at hiff
      rw [hlbn, hlbn', hiff]

/-- Blocks of 2048 pointers: the second block that a double indirect block points to. -/
theorem ufsGetlbns_paths_2048 : ufsGetlbns 2048 (-4108) = .ok [⟨-2061, 1⟩, ⟨-2061, 1⟩] := by
  obtain ⟨path, hpath, -, -, hsearch⟩ :=
    (@ufsGetlbns_paths 2048 (by decide)).1 5000 (by decide) (by decide)
  have hblock : ufsGetlbns 2048 (5000 : Nat)
      = .ok [⟨-2061, 1⟩, ⟨-2061, 1⟩, ⟨-4108, 892⟩] := by decide
  rw [hblock, Except.ok.injEq] at hpath
  subst hpath
  obtain ⟨j, -, -, -, hfound, hj⟩ := hsearch 2 (by decide) ⟨-4108, 892⟩ rfl
  rw [hj (by decide)] at hfound
  exact hfound

end OpenBsd.Ufs
