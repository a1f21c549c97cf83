/-
  OpenBsd.Msdosfs.MsdosfsConvSafe

  A long name goes through the entries of a directory and back: `win2unixfn` rebuilds the name
  that `unix2winfn` has cut into slots, and `winChkName` knows each slot again.

  Each of the three loops over a part is taken on its own; the rest of the name that one loop
  leaves is what the next one starts with.
-/

import OpenBsd.Msdosfs.MsdosfsConv

namespace OpenBsd.Msdosfs

open List

/-! ## The trailing blanks and dots -/

theorem slotLen_le (un : List UInt8) (n : Nat) : slotLen un n ≤ n := by
  induction n with
  | zero => exact Nat.le_refl 0
  | succ n ih =>
    rw [slotLen]
    split
    · omega
    · exact Nat.le_refl _

theorem lt_slotLen {un : List UInt8} {n k : Nat} (hk : k < n)
    (hc : blankOrDot (un.getD k 0) = false) : k < slotLen un n := by
  induction n with
  | zero => omega
  | succ n ih =>
    rw [slotLen]
    split
    · next htrail =>
      have hne : k ≠ n := by
        rintro rfl
        rw [hc] at htrail
        exact Bool.noConfusion htrail
      exact ih (by omega)
    · exact hk

variable {un : List UInt8} {n : Nat}

/-- The writer's loop ends where the one of `winSlotCnt` does, on a name that has more than
    blanks and dots. -/
theorem dropTrailing_eq (h : 0 < slotLen un n) :
    dropTrailing un n = some (slotLen un n) := by
  induction n with
  | zero => exact absurd h (Nat.lt_irrefl 0)
  | succ n ih =>
    rw [slotLen] at h
    rw [dropTrailing, slotLen]
    split
    · next htrail =>
      rw [if_pos htrail] at h
      exact ih h
    · rfl

/-! ## The writer's loops -/

theorem fillPart_snd (i : Nat) (un : List UInt8) :
    (fillPart i (some un)).2 = if i ≤ un.length then some (un.drop i) else none := by
  induction i generalizing un with
  | zero => rfl
  | succ i ih =>
    cases un with
    | nil => rfl
    | cons c un =>
      show (fillPart i (some un)).2 = _
      rw [ih un]
      simp only [length_cons, Nat.add_le_add_iff_right, drop_succ_cons]

@[simp] theorem fillPart_none_snd (i : Nat) : (fillPart i none).2 = none := by
  cases i <;> rfl

theorem fillParts_snd (un : List UInt8) :
    (fillPart 2 (fillPart 6 (fillPart 5 (some un)).2).2).2 =
      if winChars ≤ un.length then some (un.drop winChars) else none := by
  have hchars : winChars = 13 := rfl
  rw [fillPart_snd 5]
  split
  · rw [fillPart_snd 6, length_drop]
    split
    · rw [fillPart_snd 2, length_drop, length_drop, List.drop_drop, List.drop_drop]
      split
      · rw [if_pos (by omega)]
        rfl
      · rw [if_neg (by omega)]
    · rw [fillPart_none_snd, if_neg (by omega)]
  · rw [fillPart_none_snd, fillPart_none_snd, if_neg (by omega)]

/-! ## The number of an entry -/

theorem weCnt_bits : ∀ k < 20, ((UInt8.ofNat (k + 1)) &&& winCnt).toNat = k + 1 ∧
    ((UInt8.ofNat (k + 1) ||| winLast) &&& winCnt).toNat = k + 1 ∧
    (UInt8.ofNat (k + 1)) &&& winLast = 0 ∧
    (UInt8.ofNat (k + 1) ||| winLast) &&& winLast ≠ 0 := by
  decide

variable {l : List UInt8} {k : Nat} {chksum : UInt8}

theorem fillWinentry_rest (hk : k * winChars < l.length) :
    (((fillPart 2 (fillPart 6 (fillPart 5 (some (l.drop (k * winChars)))).2).2).2.getD []).isEmpty =
      true) ↔ l.length ≤ (k + 1) * winChars := by
  have hchars : winChars = 13 := rfl
  have hnext : (k + 1) * winChars = k * winChars + winChars := Nat.succ_mul k winChars
  rw [fillParts_snd, length_drop]
  split
  · rw [Option.getD_some, List.isEmpty_iff, List.drop_drop, drop_eq_nil_iff]
    omega
  · simp only [Option.getD_none, isEmpty_nil, true_iff]
    omega

theorem fillWinentry_cnt (hk : k < 20) :
    ((fillWinentry l (k + 1) chksum).1.weCnt &&& winCnt).toNat = k + 1 := by
  obtain ⟨hplain, hflag, _⟩ := weCnt_bits k hk
  simp only [fillWinentry]
  split
  · exact hflag
  · exact hplain

theorem fillWinentry_last (hk : k < 20) (hl : k * winChars < l.length) :
    (fillWinentry l (k + 1) chksum).1.weCnt &&& winLast ≠ 0 ↔ l.length ≤ (k + 1) * winChars := by
  obtain ⟨_, _, hplain, hflag⟩ := weCnt_bits k hk
  have hrest := fillWinentry_rest hl
  simp only [fillWinentry, Nat.add_sub_cancel]
  split
  · next hempty => exact ⟨fun _ => hrest.mp hempty, fun _ => hflag⟩
  · next hmore => exact ⟨fun h => absurd hplain h, fun h => absurd (hrest.mpr h) hmore⟩

theorem fillWinentry_offset (hk : k < 20) :
    winOffset (fillWinentry l (k + 1) chksum).1 = (k * winChars : Nat) := by
  rw [winOffset, fillWinentry_cnt hk]
  show ((k : Int) + 1 - 1) * (winChars : Int) = (k : Int) * (winChars : Int)
  rw [Int.add_sub_cancel]

variable {c : Int}

/-- The readers go on with the checksum of the entry, which starts a name or agrees with the
    entries before. -/
theorem winChksumOf_fill (hk : k < 20) (hl : k * winChars < l.length)
    (hc : (k + 1) * winChars < l.length → c = chksum.toNat) :
    winChksumOf (fillWinentry l (k + 1) chksum).1 c = chksum.toNat := by
  have hsum : (fillWinentry l (k + 1) chksum).1.weChksum = chksum := rfl
  rw [winChksumOf, hsum]
  split
  · rfl
  · next hplain =>
    have hmore : (k + 1) * winChars < l.length :=
      Nat.lt_of_not_le fun h => hplain ((fillWinentry_last hk hl).mpr h)
    rw [hc hmore, if_neg (not_not_intro rfl)]

/-! ## The matcher -/

theorem winChkPart_fill (i : Nat) (un : List UInt8) :
    winChkPart i (fillPart i (some un)).1 un =
      if i ≤ un.length then .next (un.drop i) else .hit := by
  induction i generalizing un with
  | zero => rfl
  | succ i ih =>
    cases un with
    | nil => rfl
    | cons c un =>
      show (if u2l c ≠ u2l c ∨ (0 : UInt8) ≠ 0 then ChkStep.miss
        else winChkPart i (fillPart i (some un)).1 un) = _
      rw [if_neg (by simp only [ne_eq, not_true_eq_false, or_self, not_false_eq_true]), ih un]
      simp only [length_cons, Nat.add_le_add_iff_right, drop_succ_cons]

theorem winChkName_fill (hk : k < 20) (hl : k * winChars < l.length)
    (hc : (k + 1) * winChars < l.length → c = chksum.toNat) :
    winChkName l (fillWinentry l (k + 1) chksum).1 c = some (chksum.toNat : Int) := by
  have hsum : ¬ (chksum.toNat : Int) = -1 := by omega
  have hlong : ¬ ((fillWinentry l (k + 1) chksum).1.weCnt &&& winLast ≠ 0 ∧
      (l.length : Int) - (k * winChars : Nat) > winChars) := by
    rintro ⟨hlast, hlong⟩
    have hend := (fillWinentry_last hk hl).mp hlast
    rw [Nat.succ_mul] at hend
    omega
  simp only [winChkName, winChksumOf_fill hk hl hc, fillWinentry_offset hk, if_neg hsum,
    if_neg hlong]
  rw [if_neg (by omega), if_neg (by omega), Int.toNat_natCast]
  simp only [fillWinentry, Nat.add_sub_cancel]
  -- each loop accepts, or hands on what the next part was filled from
  congr 1
  rw [winChkPart_fill, fillPart_snd 5]
  split
  · rw [ChkStep.andThen, winChkPart_fill, fillPart_snd 6]
    split
    · rw [ChkStep.andThen, winChkPart_fill]
      split <;> rfl
    · rfl
  · rfl

theorem winChkNames_fill {m : Nat} (hm : m ≤ 20) (hl : (m - 1) * winChars < l.length)
    (hc : m * winChars < l.length → c = chksum.toNat) :
    winChkNames l ((List.range m).map fun k => (fillWinentry l (k + 1) chksum).1).reverse c =
      some (List.replicate m (chksum.toNat : Int)) := by
  have hchars : winChars = 13 := rfl
  induction m generalizing c with
  | zero => rfl
  | succ m ih =>
    have hlm : m * winChars < l.length := hl
    have hprev : (m - 1) * winChars ≤ m * winChars := Nat.mul_le_mul_right _ (Nat.sub_le m 1)
    rw [range_succ, map_append, map_singleton, reverse_append,
      reverse_singleton, singleton_append, winChkNames,
      winChkName_fill (by omega) hlm hc, Option.bind_some,
      ih (by omega) (by omega) (fun _ => rfl), Option.map_some, replicate_succ]

/-! ## The reader -/

/-- The bytes of a list from `np` on in `d_name`. -/
def Dirent.puts (dp : Dirent) (np : Nat) : List UInt8 → Dirent
  | [] => dp
  | c :: cs => (dp.put np c).puts (np + 1) cs

@[simp] theorem Dirent.puts_namlen (dp : Dirent) (np : Nat) (cs : List UInt8) :
    (dp.puts np cs).dNamlen = dp.dNamlen := by
  induction cs generalizing dp np with
  | nil => rfl
  | cons c cs ih => exact ih _ _

theorem Dirent.puts_name (dp : Dirent) (np : Nat) (cs : List UInt8) (j : Nat) :
    (dp.puts np cs).dName j =
      if np ≤ j ∧ j < np + cs.length then cs.getD (j - np) 0 else dp.dName j := by
  induction cs generalizing dp np with
  | nil =>
    rw [if_neg (by rw [length_nil]; omega)]
    rfl
  | cons c cs ih =>
    show ((dp.put np c).puts (np + 1) cs).dName j = _
    rw [ih, length_cons]
    by_cases hj : j = np
    · subst hj
      rw [if_neg (by omega), if_pos (by omega), Nat.sub_self, getD_cons_zero]
      exact if_pos rfl
    · have hput : (dp.put np c).dName j = dp.dName j := if_neg hj
      rw [hput]
      by_cases hin : np + 1 ≤ j ∧ j < np + 1 + cs.length
      · have hidx : j - np = j - (np + 1) + 1 := by omega
        rw [if_pos hin, if_pos (by omega), hidx, getD_cons_succ]
      · rw [if_neg hin, if_neg (by omega)]

theorem Dirent.puts_append (dp : Dirent) (np : Nat) (cs ds : List UInt8) :
    dp.puts np (cs ++ ds) = (dp.puts np cs).puts (np + cs.length) ds := by
  induction cs generalizing dp np with
  | nil => rfl
  | cons c cs ih =>
    show (dp.put np c).puts (np + 1) (cs ++ ds) = _
    rw [ih, length_cons, Nat.add_assoc, Nat.add_comm 1]
    rfl

/-- A loop of the reader over a part that the writer has filled: it goes through it, or it finds
    the terminator and takes the characters left in the entry off the length. -/
theorem win2unixPart_fill {rest : Nat} {testEp : Bool} (i : Nat) (un : List UInt8) (np : Nat)
    (dp : Dirent) (hun : ∀ c ∈ un, c ≠ 0 ∧ c ≠ 0x2f) (hnp : np + un.length ≤ winMaxlen) :
    win2unixPart rest testEp i (fillPart i (some un)).1 np dp =
      if i ≤ un.length then .next (np + i) (dp.puts np (un.take i))
      else .done { dp.puts np (un ++ [0]) with
        dNamlen := dp.dNamlen - UInt8.ofNat (rest + i - un.length) } := by
  induction i generalizing un np dp with
  | zero => rfl
  | succ i ih =>
    cases un with
    | nil => rfl
    | cons c un =>
      obtain ⟨hzero, hslash⟩ := hun c mem_cons_self
      rw [length_cons] at hnp
      have hep : ¬ (testEp = true ∧ winMaxlen < np + 1) := by omega
      have hstep : win2unixPart rest testEp (i + 1) (fillPart (i + 1) (some (c :: un))).1 np dp =
          win2unixPart rest testEp i (fillPart i (some un)).1 (np + 1) (dp.put np c) := by
        simp only [fillPart, win2unixPart, if_neg hzero, if_neg hslash, if_neg hep, ne_eq,
          not_true_eq_false, if_false]
      rw [hstep, ih un (np + 1) _ (fun d hd => hun d (mem_cons_of_mem c hd)) (by omega)]
      have hlen : rest + (i + 1) - (un.length + 1) = rest + i - un.length := by omega
      simp only [length_cons, Nat.add_le_add_iff_right, take_succ_cons, hlen,
        cons_append, Dirent.puts, Nat.add_assoc, Nat.add_comm 1 i]
      rfl

theorem Dirent.puts_take (dp : Dirent) (np : Nat) (un ds : List UInt8) {i : Nat}
    (hi : i ≤ un.length) :
    (dp.puts np (un.take i)).puts (np + i) ds = dp.puts np (un.take i ++ ds) := by
  rw [Dirent.puts_append, length_take_of_le hi]

/-- The three loops of the reader over what the three loops of the writer make of a name: the
    characters and a terminator that fits are in `d_name`, and the characters left in the entry
    are off the length. -/
theorem win2unixParts_fill (un : List UInt8) (np : Nat) (dp : Dirent) (c : Int) {b5 b6 b2 : Bool}
    (hun : ∀ c ∈ un, c ≠ 0 ∧ c ≠ 0x2f) (hnp : np + un.length ≤ winMaxlen) :
    ((win2unixPart (6 + 2) b5 5 (fillPart 5 (some un)).1 np dp).andThen c fun np dp =>
      (win2unixPart 2 b6 6 (fillPart 6 (fillPart 5 (some un)).2).1 np dp).andThen c fun np dp =>
        (win2unixPart 0 b2 2 (fillPart 2 (fillPart 6 (fillPart 5 (some un)).2).2).1 np dp).andThen c
          fun _ dp => (c, dp)) =
      (c, { dp.puts np ((un ++ [0]).take winChars) with
        dNamlen := dp.dNamlen - UInt8.ofNat (winChars - un.length) }) := by
  have hchars : winChars = 13 := rfl
  have hdrop : ∀ {i : Nat}, ∀ c ∈ un.drop i, c ≠ 0 ∧ c ≠ 0x2f :=
    fun c hc => hun c (mem_of_mem_drop hc)
  -- a name that ends in this entry is written with its terminator
  have hshort : un.length < 13 → (un ++ [0]).take winChars = un ++ [0] := by
    intro hlt
    apply take_of_length_le
    rw [length_append, length_singleton]
    omega
  rw [win2unixPart_fill 5 un np dp hun hnp, fillPart_snd 5]
  by_cases h5 : 5 ≤ un.length
  · rw [if_pos h5, if_pos h5, FnStep.andThen]
    rw [win2unixPart_fill 6 _ _ _ hdrop (by rw [length_drop]; omega), fillPart_snd 6, length_drop]
    by_cases h11 : 6 ≤ un.length - 5
    · rw [if_pos h11, if_pos h11, FnStep.andThen, Dirent.puts_take dp np un _ h5, ← take_add,
        List.drop_drop]
      rw [win2unixPart_fill 2 _ _ _ hdrop (by rw [length_drop]; omega), length_drop]
      by_cases h13 : 2 ≤ un.length - (5 + 6)
      · have hleft : winChars - un.length = 0 := by omega
        have hsame : dp.dNamlen - UInt8.ofNat 0 = (dp.puts np (un.take winChars)).dNamlen := by
          rw [Dirent.puts_namlen]
          exact UInt8.sub_zero _
        rw [if_pos h13, FnStep.andThen, Nat.add_assoc np 5 6,
          Dirent.puts_take dp np un _ (by omega : 5 + 6 ≤ un.length), ← take_add,
          take_append_of_le_length (by omega : winChars ≤ un.length), hleft, hsame]
        rfl
      · have hleft : 0 + 2 - (un.length - (5 + 6)) = winChars - un.length := by omega
        rw [if_neg h13, FnStep.andThen, Nat.add_assoc np 5 6,
          Dirent.puts_take dp np un _ (by omega : 5 + 6 ≤ un.length), ← append_assoc,
          take_append_drop, hshort (by omega), hleft, Dirent.puts_namlen]
    · have hleft : 2 + 6 - (un.length - 5) = winChars - un.length := by omega
      rw [if_neg h11, FnStep.andThen, Dirent.puts_take dp np un _ h5, ← append_assoc,
        take_append_drop, hshort (by omega), hleft, Dirent.puts_namlen]
  · have hleft : 6 + 2 + 5 - un.length = winChars - un.length := by omega
    rw [if_neg h5, FnStep.andThen, hshort (by omega), hleft]

theorem Dirent.puts_withNamlen (dp : Dirent) (np : Nat) (cs : List UInt8) (len : UInt8) :
    ({ dp with dNamlen := len } : Dirent).puts np cs = { dp.puts np cs with dNamlen := len } := by
  induction cs generalizing dp np with
  | nil => rfl
  | cons c cs ih => exact ih (dp.put np c) (np + 1)

/-- The reader puts the characters of an entry back, and the entry with the end of the name says
    how long it is. -/
theorem win2unixfn_fill {c : Int} (dp : Dirent) (hk : k < 20) (hl : k * winChars < l.length)
    (hlen : l.length ≤ winMaxlen) (hun : ∀ c ∈ l, c ≠ 0 ∧ c ≠ 0x2f)
    (hc : (k + 1) * winChars < l.length → c = chksum.toNat) :
    win2unixfn (fillWinentry l (k + 1) chksum).1 dp c =
      ((chksum.toNat : Int),
        { dp.puts (k * winChars) ((l.drop (k * winChars) ++ [0]).take winChars) with
          dNamlen := if l.length ≤ (k + 1) * winChars then UInt8.ofNat l.length
            else dp.dNamlen }) := by
  have hchars : winChars = 13 := rfl
  have hnext : (k + 1) * winChars = k * winChars + winChars := Nat.succ_mul k winChars
  have hsum : ¬ (chksum.toNat : Int) = -1 := by omega
  have hcnt : ¬ (k + 1 > howmanyChars winMaxlen ∨ k + 1 = 0) := by
    show ¬ (k + 1 > 20 ∨ k + 1 = 0)
    omega
  have hdrop : ∀ c ∈ l.drop (k * winChars), c ≠ 0 ∧ c ≠ 0x2f :=
    fun c hc => hun c (mem_of_mem_drop hc)
  have hlast := @fillWinentry_last _ _ chksum hk hl
  simp only [win2unixfn, fillWinentry_cnt hk, if_neg hcnt, winChksumOf_fill hk hl hc, if_neg hsum,
    fillWinentry_offset hk, Int.toNat_natCast]
  have hparts := fun d : Dirent => @win2unixParts_fill (l.drop (k * winChars)) (k * winChars) d
    (chksum.toNat : Int) (decide (winMaxlen % winChars < 5))
    (decide (winMaxlen % winChars ≥ 5 ∧ winMaxlen % winChars < 5 + 6))
    (decide (winMaxlen % winChars ≥ 5 + 6)) hdrop (by rw [length_drop]; omega)
  refine (hparts _).trans ?_
  rw [length_drop]
  by_cases hend : l.length ≤ (k + 1) * winChars
  · -- the count of slots, less what the name leaves of the last one
    have hsub : UInt8.ofNat ((k + 1) * winChars) -
        UInt8.ofNat (winChars - (l.length - k * winChars)) = UInt8.ofNat l.length := by
      rw [← UInt8.ofNat_sub (by omega)]
      congr 1
      omega
    rw [if_pos (hlast.mpr hend), if_pos hend, Dirent.puts_withNamlen, hsub]
  · have hleft : winChars - (l.length - k * winChars) = 0 := by omega
    have hsame : dp.dNamlen - UInt8.ofNat 0 = dp.dNamlen := UInt8.sub_zero _
    rw [if_neg (fun h => hend (hlast.mp h)), if_neg hend, hleft, hsame]

theorem getD_slot (l : List UInt8) (a : Nat) {i : Nat} (hi : i < winChars) :
    ((l.drop a ++ [0]).take winChars).getD i 0 = l.getD (a + i) 0 := by
  rw [getD_eq_getElem?_getD, getD_eq_getElem?_getD, getElem?_take, if_pos hi,
    getElem?_append, length_drop]
  split
  · rw [getElem?_drop]
  · next hout =>
    rw [getElem?_eq_none (by omega : l.length ≤ a + i)]
    cases i - (l.length - a) <;> rfl

/-- The entries with the numbers up to `m`, from the last one on. -/
theorem win2unixfns_fill {m : Nat} {c : Int} (dp : Dirent) (hm : m ≤ 20)
    (hl : (m - 1) * winChars < l.length) (hlen : l.length ≤ winMaxlen)
    (hun : ∀ c ∈ l, c ≠ 0 ∧ c ≠ 0x2f) (hc : m * winChars < l.length → c = chksum.toNat) :
    ∃ dp', win2unixfns
        ((List.range m).map fun k => (fillWinentry l (k + 1) chksum).1).reverse dp c =
          (List.replicate m (chksum.toNat : Int), dp') ∧
      dp'.dNamlen = (if 0 < m ∧ l.length ≤ m * winChars then UInt8.ofNat l.length
        else dp.dNamlen) ∧
      ∀ j, dp'.dName j = if j < m * winChars ∧ j ≤ l.length then l.getD j 0 else dp.dName j := by
  have hchars : winChars = 13 := rfl
  induction m generalizing c dp with
  | zero =>
    refine ⟨dp, rfl, (if_neg (by omega)).symm, ?_⟩
    intro j
    rw [if_neg (by omega)]
  | succ m ih =>
    have hlm : m * winChars < l.length := hl
    have hprev : (m - 1) * winChars ≤ m * winChars := Nat.mul_le_mul_right _ (Nat.sub_le m 1)
    have hnext : (m + 1) * winChars = m * winChars + winChars := Nat.succ_mul m winChars
    have hone := @win2unixfn_fill _ _ chksum _ dp (by omega : m < 20) hlm hlen hun hc
    generalize hdp : ({ dp.puts (m * winChars) ((l.drop (m * winChars) ++ [0]).take winChars) with
      dNamlen := if l.length ≤ (m + 1) * winChars then UInt8.ofNat l.length else dp.dNamlen } :
        Dirent) = dp₁ at hone
    obtain ⟨dp', hres, hnamlen, hname⟩ := ih dp₁ (c := chksum.toNat) (by omega) (by omega)
      (fun _ => rfl)
    refine ⟨dp', ?_, ?_, ?_⟩
    · rw [range_succ, map_append, map_singleton, reverse_append,
        reverse_singleton, singleton_append, win2unixfns, hone]
      simp only [hres, replicate_succ]
    · rw [hnamlen, if_neg (by omega), ← hdp]
      by_cases hend : l.length ≤ (m + 1) * winChars
      · rw [if_pos hend, if_pos ⟨Nat.succ_pos m, hend⟩]
      · rw [if_neg hend, if_neg (fun h => hend h.2)]
    · intro j
      have hslot : dp₁.dName j = if m * winChars ≤ j ∧ j < m * winChars +
          ((l.drop (m * winChars) ++ [0]).take winChars).length then
          ((l.drop (m * winChars) ++ [0]).take winChars).getD (j - m * winChars) 0
          else dp.dName j := by
        rw [← hdp]
        exact Dirent.puts_name _ _ _ _
      rw [length_take, length_append, length_drop, length_singleton] at hslot
      rw [hname]
      by_cases hlow : j < m * winChars ∧ j ≤ l.length
      · rw [if_pos hlow, if_pos (by omega)]
      · rw [if_neg hlow, hslot]
        by_cases hin : m * winChars ≤ j ∧ j < m * winChars +
            min winChars (l.length - m * winChars + 1)
        · rw [if_pos hin, if_pos (by omega), getD_slot l _ (by omega)]
          congr 1
          omega
        · rw [if_neg hin, if_neg (by omega)]

/-! ## Whole names -/

theorem howmanyChars_spec (hpos : 0 < n) (hlen : n ≤ winMaxlen) :
    0 < howmanyChars n ∧ howmanyChars n ≤ 20 ∧ (howmanyChars n - 1) * winChars < n ∧
      n ≤ howmanyChars n * winChars := by
  simp only [howmanyChars, winChars, winMaxlen] at *
  omega

theorem winEntries_eq {un : List UInt8} {n : Nat} (h : 0 < slotLen un n) (chksum : UInt8) :
    winEntries un n chksum = some ((List.range (winSlotCnt un n)).map fun k =>
      (fillWinentry (un.take (slotLen un n)) (k + 1) chksum).1) := by
  have hone : ∀ k, (unix2winfn un n (k + 1) chksum).map Prod.fst =
      some (fillWinentry (un.take (slotLen un n)) (k + 1) chksum).1 := by
    intro k
    rw [unix2winfn, dropTrailing_eq h]
    rfl
  simp only [winEntries, hone]
  exact mapM_pure

theorem winSlotCnt_eq (h : slotLen un n ≤ winMaxlen) :
    winSlotCnt un n = howmanyChars (slotLen un n) :=
  if_neg (Nat.not_lt.mpr h)

/-- A name without NUL, slash and trailing blanks and dots comes back from its entries, the last
    one first: each call returns the checksum, and `d_name` and `d_namlen` hold the name. -/
theorem winfn_roundTrip (un : List UInt8) (chksum : UInt8) (dp : Dirent) (c : Int)
    (hpos : 1 ≤ un.length) (hlen : un.length ≤ 255) (hnul : (0 : UInt8) ∉ un)
    (hslash : (0x2f : UInt8) ∉ un) (htrail : blankOrDot (un.getD (un.length - 1) 0) = false) :
    ∃ es dp', winEntries un un.length chksum = some es ∧
      es.length = winSlotCnt un un.length ∧
      (∀ k wep, es[k]? = some wep → (wep.weCnt &&& winLast ≠ 0 ↔ k + 1 = es.length)) ∧
      win2unixfns es.reverse dp c = (List.replicate es.length (chksum.toNat : Int), dp') ∧
      dp'.dNamlen.toNat = un.length ∧ (∀ j (h : j < un.length), dp'.dName j = un[j]) ∧
      ∀ j, un.length < j → dp'.dName j = dp.dName j := by
  have hslot : slotLen un un.length = un.length := by
    have hge := @lt_slotLen un un.length (un.length - 1) (by omega) htrail
    have hle := slotLen_le un un.length
    omega
  have hcnt : winSlotCnt un un.length = howmanyChars un.length := by
    rw [winSlotCnt_eq (by rw [hslot]; exact hlen), hslot]
  obtain ⟨hpos', hle20, hlast, hend⟩ := howmanyChars_spec hpos hlen
  have hes := @winEntries_eq un un.length (by omega) chksum
  rw [hslot, take_length, hcnt] at hes
  have hun : ∀ c ∈ un, c ≠ 0 ∧ c ≠ 0x2f :=
    fun c hc => ⟨fun h => hnul (h ▸ hc), fun h => hslash (h ▸ hc)⟩
  obtain ⟨dp', hres, hnamlen, hname⟩ := @win2unixfns_fill _ chksum _ c dp hle20 hlast
    hlen hun (fun h => absurd h (Nat.not_lt.mpr hend))
  refine ⟨_, dp', hes, ?_, ?_, ?_, ?_, ?_, ?_⟩
  · rw [length_map, length_range, hcnt]
  · intro k wep hk
    rw [getElem?_map] at hk
    obtain ⟨k', hk', rfl⟩ := Option.map_eq_some_iff.mp hk
    obtain ⟨hlt, hk''⟩ := List.getElem?_eq_some_iff.mp hk'
    rw [length_range] at hlt
    rw [getElem_range] at hk''
    subst hk''
    rw [fillWinentry_last (by omega) (by
      have hmul : k * winChars ≤ (howmanyChars un.length - 1) * winChars :=
        Nat.mul_le_mul_right _ (by omega)
      omega), length_map, length_range]
    constructor
    · intro hin
      have hmul : (howmanyChars un.length - 1) * winChars < (k + 1) * winChars := by omega
      have hlt' := Nat.lt_of_mul_lt_mul_right hmul
      omega
    · intro heq
      rw [heq]
      exact hend
  · rw [hres, length_map, length_range]
  · rw [hnamlen, if_pos ⟨hpos', hend⟩, UInt8.toNat_ofNat']
    exact Nat.mod_eq_of_lt (by omega)
  · intro j hj
    rw [hname, if_pos (by omega), getD_eq_getElem?_getD, getElem?_eq_getElem hj]
    rfl
  · intro j hj
    rw [hname, if_neg (by omega)]

/-- A name of thirteen characters fills its entry, and one of fourteen needs two. -/
theorem winfn_roundTrip_fourteen :
    ∃ es dp', winEntries (List.replicate 14 0x61) 14 0x5a = some es ∧
      es.length = winSlotCnt (List.replicate 14 0x61) 14 ∧
      (∀ k wep, es[k]? = some wep → (wep.weCnt &&& winLast ≠ 0 ↔ k + 1 = es.length)) ∧
      win2unixfns es.reverse { dNamlen := 0, dName := fun _ => 0 } (-1) =
        (List.replicate es.length ((0x5a : UInt8).toNat : Int), dp') ∧
      dp'.dNamlen.toNat = 14 ∧
      (∀ j (h : j < (List.replicate 14 (0x61 : UInt8)).length),
        dp'.dName j = (List.replicate 14 (0x61 : UInt8))[j]) ∧
      ∀ j, 14 < j → dp'.dName j = 0 :=
  winfn_roundTrip (List.replicate 14 0x61) 0x5a { dNamlen := 0, dName := fun _ => 0 } (-1)
    (by decide) (by decide) (by decide) (by decide) (by decide)

/-- The entries written for a name are accepted, the last one first, for the name with the length
    that `msdosfs_lookup` makes of it. -/
theorem winChkNames_accept (un : List UInt8) (chksum : UInt8) (c : Int) (hlen : un.length ≤ 255)
    (hname : ∃ b ∈ un, blankOrDot b = false) :
    ∃ es, winEntries un un.length chksum = some es ∧
      winChkNames (un.take (adjlen un un.length)) es.reverse c =
        some (List.replicate es.length (chksum.toNat : Int)) := by
  obtain ⟨b, hb, hbd⟩ := hname
  obtain ⟨k, hk, rfl⟩ := mem_iff_getElem.mp hb
  have hlt : k < slotLen un un.length := by
    apply lt_slotLen hk
    rw [getD_eq_getElem?_getD, getElem?_eq_getElem hk]
    exact hbd
  have hle := slotLen_le un un.length
  have hmax : slotLen un un.length ≤ winMaxlen := Nat.le_trans hle hlen
  have htake : (un.take (adjlen un un.length)).length = slotLen un un.length :=
    length_take_of_le hle
  obtain ⟨_, hle20, hlast, hend⟩ := howmanyChars_spec (by omega : 0 < slotLen un un.length) hmax
  refine ⟨_, winEntries_eq (by omega) chksum, ?_⟩
  rw [winSlotCnt_eq hmax, length_map, length_range]
  apply winChkNames_fill hle20
  · rw [htake]
    exact hlast
  · rw [htake]
    exact fun h => absurd h (Nat.not_lt.mpr hend)

theorem winChkNames_accept_dot :
    ∃ es, winEntries [0x61, 0x2e] 2 0x5a = some es ∧
      winChkNames (List.take (adjlen [0x61, 0x2e] 2) [0x61, 0x2e]) es.reverse (-1) =
        some (List.replicate es.length ((0x5a : UInt8).toNat : Int)) :=
  winChkNames_accept [0x61, 0x2e] 0x5a (-1) (by decide) (by decide)

/-- The matcher does not drop a trailing dot by itself. -/
theorem winChkName_keeps_dot :
    ¬ ∀ (un : List UInt8) (chksum : UInt8) (c : Int), un.length ≤ 255 →
      (∃ b ∈ un, blankOrDot b = false) →
      ∃ es, winEntries un un.length chksum = some es ∧
        winChkNames un es.reverse c = some (List.replicate es.length (chksum.toNat : Int)) := by
  intro h
  obtain ⟨es, hes, hres⟩ := h [0x61, 0x2e] 0x5a (-1) (by decide) (by decide)
  have hrun : (winEntries [0x61, 0x2e] 2 0x5a).bind (fun es =>
      winChkNames [0x61, 0x2e] es.reverse (-1)) = some [-1] := by
    decide
  have hone : es.length = 1 := by
    have hcount : (winEntries [0x61, 0x2e] 2 0x5a).map List.length = some 1 := by decide
    rw [show winEntries [0x61, 0x2e] 2 0x5a = some es from hes] at hcount
    exact Option.some.inj hcount
  rw [show winEntries [0x61, 0x2e] 2 0x5a = some es from hes, Option.bind_some, hres, hone] at hrun
  exact absurd hrun (by decide)

end OpenBsd.Msdosfs
