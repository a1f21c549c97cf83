/-
  OpenBsd.Kern.TtySubrNdqb

  When `ndqb` counts the characters that are not quoted and have no bit of its flag set.

  The index goes on to the next character between the test of the character and the test of
  its quote bit, so that each character is counted by the quote bit of the one behind it.
-/

import OpenBsd.Kern.TtySubrQueue

namespace OpenBsd.Kern

open OpenBsd.Lib

/-! ## The loop -/

section

variable {cs : Nat → BitVec 8} {m : Bitmap 8} {cn : Nat} {mask : BitVec 32}

/-- The character at an index has a bit of the mask set. -/
def HasBit (cs : Nat → BitVec 8) (mask : BitVec 32) (i : Nat) : Prop :=
  (cs i).setWidth 32 &&& mask ≠ 0

instance (i : Nat) : Decidable (HasBit cs mask i) := inferInstanceAs (Decidable (_ ≠ _))

def Counts (cs : Nat → BitVec 8) (m : Bitmap 8) (mask : BitVec 32) (i : Nat) : Prop :=
  m.test i = false ∧ ¬ HasBit cs mask i

instance (i : Nat) : Decidable (Counts cs m mask i) := inferInstanceAs (Decidable (_ ∧ _))

/-- The characters that count, of the `n` from an index on up to the first that does not. -/
def countRun (cs : Nat → BitVec 8) (m : Bitmap 8) (mask : BitVec 32) (i n : Nat) : Nat :=
  ((List.range' i n).takeWhile fun j => Counts cs m mask j).length

/-- The quote bits of the ring. -/
def issetIn (m : Bitmap 8) (cn i : Nat) : Option Bool := if i < cn then some (m.test i) else none

variable {i : Nat}

theorem countRun_succ_of_counts (h : Counts cs m mask i) (n : Nat) :
    countRun cs m mask i (n + 1) = countRun cs m mask (i + 1) n + 1 := by
  rw [countRun, List.range'_succ, List.takeWhile_cons_of_pos (by simpa using h)]
  rfl

theorem countRun_succ_of_not (h : ¬ Counts cs m mask i) (n : Nat) :
    countRun cs m mask i (n + 1) = 0 := by
  rw [countRun, List.range'_succ, List.takeWhile_cons_of_neg (by simpa using h)]
  rfl

variable {isset : Nat → Option Bool}

theorem ndqbQuote_ge {cc count r : Nat}
    (h : ndqbQuote cs isset cn mask cc i count = some r) : count ≤ r := by
  induction cc generalizing i count with
  | zero => exact Nat.le_of_eq (Option.some.inj h)
  | succ cc ih =>
    rw [ndqbQuote] at h
    split at h
    · exact Nat.le_of_eq (Option.some.inj h)
    · cases hbit : isset (i + 1) with
      | none =>
        rw [hbit] at h
        cases h
      | some quoted =>
        rw [hbit] at h
        simp only [Option.bind_eq_bind, Option.bind_some] at h
        split at h
        · exact Nat.le_of_eq (Option.some.inj h)
        · split at h
          · exact Nat.le_trans (Nat.le_succ _) (Nat.le_of_eq (Option.some.inj h))
          · exact Nat.le_trans (Nat.le_succ _) (ih h)

/-- Of the `n` characters from an index on one has a bit set and no quote bit in front of it
    or of its own is set; or none has a bit or its quote bit set, and they do not come to the
    end of the ring, and the quote bit behind them is not set either. -/
def RunSafe (cs : Nat → BitVec 8) (m : Bitmap 8) (cn : Nat) (mask : BitVec 32) (i n : Nat) : Prop :=
  (∃ b, i ≤ b ∧ b < i + n ∧ HasBit cs mask b ∧ ∀ k, i ≤ k → k ≤ b → m.test k = false) ∨
    (∀ k, i ≤ k → k < i + n → Counts cs m mask k) ∧ i + n < cn ∧ m.test (i + n) = false

variable {n : Nat}

theorem runSafe_of_hasBit (hbit : HasBit cs mask i) (hplain : m.test i = false) :
    RunSafe cs m cn mask i (n + 1) := by
  refine .inl ⟨i, Nat.le_refl _, by omega, hbit, ?_⟩
  intro k hlo hhi
  rwa [Nat.le_antisymm hhi hlo]

theorem runSafe_succ (h : Counts cs m mask i) :
    RunSafe cs m cn mask i (n + 1) ↔ RunSafe cs m cn mask (i + 1) n := by
  constructor
  · rintro (⟨b, hlo, hhi, hbit, hplain⟩ | ⟨hall, hend, hlast⟩)
    · have hne : b ≠ i := fun e => h.2 (e ▸ hbit)
      exact .inl ⟨b, by omega, by omega, hbit, fun k hk => hplain k (by omega)⟩
    · refine .inr ⟨fun k hlo hhi => hall k (by omega) (by omega), by omega, ?_⟩
      rwa [Nat.add_right_comm, Nat.add_assoc]
  · rintro (⟨b, hlo, hhi, hbit, hplain⟩ | ⟨hall, hend, hlast⟩)
    · refine .inl ⟨b, by omega, by omega, hbit, ?_⟩
      intro k hk hkb
      by_cases hki : k = i
      · rw [hki]
        exact h.1
      · exact hplain k (by omega) hkb
    · refine .inr ⟨?_, by omega, ?_⟩
      · intro k hlo hhi
        by_cases hki : k = i
        · rw [hki]
          exact h
        · exact hall k (by omega) (by omega)
      · rwa [Nat.add_right_comm, Nat.add_assoc] at hlast

theorem not_runSafe_of_quoted (h : m.test i = true) : ¬ RunSafe cs m cn mask i n := by
  rintro (⟨b, hlo, -, -, hplain⟩ | ⟨hall, -, hlast⟩)
  · exact absurd (hplain i (Nat.le_refl _) hlo) (by rw [h]; exact Bool.noConfusion)
  · rcases Nat.eq_zero_or_pos n with rfl | hpos
    · exact absurd (h.symm.trans hlast) Bool.noConfusion
    · exact absurd (h.symm.trans (hall i (Nat.le_refl _) (by omega)).1) Bool.noConfusion

/-! One round of the loop, for each of its ends. -/

theorem ndqbQuote_hasBit (h : HasBit cs mask i)
    (cc count : Nat) : ndqbQuote cs isset cn mask (cc + 1) i count = some count := if_pos h

theorem ndqbQuote_noBit (h : ¬ HasBit cs mask i) (cc count : Nat) :
    ndqbQuote cs (issetIn m cn) cn mask (cc + 1) i count =
      if i + 1 < cn then
        if m.test (i + 1) then some count
        else ndqbQuote cs (issetIn m cn) cn mask cc (i + 1) (count + 1)
      else none := by
  rw [ndqbQuote, issetIn]
  refine (if_neg h).trans ?_
  split
  · rename_i hend
    simp only [Option.bind_eq_bind, Option.bind_some, if_neg (Nat.ne_of_lt hend)]
  · rfl

theorem ndqbQuote_iff {cc i : Nat} (hi : i < cn) (hplain : m.test i = false) (count : Nat) :
    ndqbQuote cs (issetIn m cn) cn mask cc i count =
        some (count + countRun cs m mask i (min cc (cn - i))) ↔
      RunSafe cs m cn mask i (min cc (cn - i)) := by
  induction cc generalizing i count with
  | zero =>
    rw [Nat.zero_min]
    refine iff_of_true rfl (.inr ⟨fun k hlo hhi => absurd hhi (by omega), hi, hplain⟩)
  | succ cc ih =>
    have hn : min (cc + 1) (cn - i) = min cc (cn - (i + 1)) + 1 := by omega
    rw [hn]
    by_cases hbit : HasBit cs mask i
    · rw [ndqbQuote_hasBit hbit, countRun_succ_of_not (fun h => h.2 hbit)]
      exact iff_of_true rfl (runSafe_of_hasBit hbit hplain)
    · have hcounts : Counts cs m mask i := ⟨hplain, hbit⟩
      rw [ndqbQuote_noBit hbit, countRun_succ_of_counts hcounts, runSafe_succ hcounts]
      by_cases hend : i + 1 < cn
      · rw [if_pos hend]
        by_cases hnext : m.test (i + 1) = true
        · -- the character counts, but the bit behind it is set
          rw [if_pos hnext]
          refine iff_of_false ?_ (not_runSafe_of_quoted hnext)
          intro h
          have := Option.some.inj h
          omega
        · rw [if_neg hnext, ← ih hend (Bool.not_eq_true _ ▸ hnext) (count + 1), Nat.add_assoc,
            Nat.add_comm 1]
      · -- the bit behind the last cell is looked at
        rw [if_neg hend]
        refine iff_of_false nofun ?_
        rintro (⟨b, hlo, hhi, -, -⟩ | ⟨-, hlt, -⟩) <;> omega

theorem ndqbQuote_quoted_iff {cc i : Nat} (hi : i < cn) (hquoted : m.test i = true) (hcc : 0 < cc) :
    ndqbQuote cs (issetIn m cn) cn mask cc i 0 =
        some (countRun cs m mask i (min cc (cn - i))) ↔
      HasBit cs mask i ∨ i + 1 < cn ∧ m.test (i + 1) = true := by
  obtain ⟨k, rfl⟩ : ∃ k, cc = k + 1 := ⟨cc - 1, by omega⟩
  have hn : min (k + 1) (cn - i) = min k (cn - (i + 1)) + 1 := by omega
  have hnot : ¬ Counts cs m mask i := fun h => absurd (h.1.symm.trans hquoted) Bool.noConfusion
  rw [hn, countRun_succ_of_not hnot]
  by_cases hbit : HasBit cs mask i
  · exact iff_of_true (ndqbQuote_hasBit hbit _ _) (.inl hbit)
  · rw [ndqbQuote_noBit hbit]
    by_cases hend : i + 1 < cn
    · rw [if_pos hend]
      by_cases hnext : m.test (i + 1) = true
      · rw [if_pos hnext]
        exact iff_of_true rfl (.inr ⟨hend, hnext⟩)
      · rw [if_neg hnext]
        refine iff_of_false ?_ (fun h => h.elim hbit fun h => hnext h.2)
        intro h
        exact absurd (ndqbQuote_ge h) (by omega)
    · rw [if_neg hend]
      exact iff_of_false nofun (fun h => h.elim hbit fun h => hend h.1)

end

/-! ## The count -/

/-- The length of the longest run that `ndqb` is to count: from the first character on, not
    around the end of the buffer. -/
def ndqbRun (clp : Clist) (m : Bitmap 8) (flag : BitVec 32) : Nat :=
  let f := clp.cCf.getD 0
  countRun clp.bytes m (flag &&& ~~~ttyQuote) f (min clp.cCc (clp.cCn - f))

/-- The list is empty; or the first character is quoted, and has a bit of the flag set or a
    quoted cell behind it; or it is not, and the bits and the quote bits are such that the
    quote bit of the next cell is as good as that of the character itself. -/
def NdqbSafe (clp : Clist) (m : Bitmap 8) (flag : BitVec 32) : Prop :=
  let f := clp.cCf.getD 0
  let mask := flag &&& ~~~ttyQuote
  clp.cCc = 0 ∨
    (m.test f = true ∧ (HasBit clp.bytes mask f ∨ f + 1 < clp.cCn ∧ m.test (f + 1) = true)) ∨
    (m.test f = false ∧ RunSafe clp.bytes m clp.cCn mask f (min clp.cCc (clp.cCn - f)))

/-- `ndqb` counts the right characters, and looks at no quote bit outside of the ring, exactly
    when the quote bit of the cell behind each character is as good as its own. -/
theorem ndqb_iff {clp : Clist} {q : TtyQueue} (h : clp.Rep q) {m : Bitmap 8}
    (hcq : clp.cCq = some m) {flag : BitVec 32} (hflag : flag &&& ttyQuote ≠ 0) :
    ndqb clp flag = some (ndqbRun clp m flag) ↔ NdqbSafe clp m flag := by
  have hflag' : flag ≠ 0 := by
    rintro rfl
    exact hflag BitVec.zero_and
  rw [ndqbRun, NdqbSafe]
  rcases h.ptrs with ⟨hzero, hcf, -⟩ | ⟨hpos, f, hring⟩
  · rw [ndqb, if_pos hzero, hzero, Nat.zero_min]
    exact iff_of_true rfl (.inl rfl)
  · have hloop : ndqb clp flag =
        ndqbQuote clp.bytes (issetIn m clp.cCn) clp.cCn (flag &&& ~~~ttyQuote) clp.cCc f 0 := by
      rw [ndqb, if_neg (Nat.pos_iff_ne_zero.1 hpos)]
      simp only [hring.cs, hring.cf, hring.cl, hcq, Option.bind_eq_bind, Option.bind_some,
        if_neg hflag', if_pos hflag]
      rfl
    have hne : clp.cCc ≠ 0 := Nat.pos_iff_ne_zero.1 hpos
    rw [hloop, hring.cf, Option.getD_some]
    cases hquoted : m.test f with
    | true =>
      have hiff := @ndqbQuote_quoted_iff clp.bytes m clp.cCn (flag &&& ~~~ttyQuote) _ _ hring.lt
        hquoted hpos
      simp only [hiff, hne, false_or, true_and, Bool.true_eq_false, false_and, or_false]
    | false =>
      have hiff := @ndqbQuote_iff clp.bytes m clp.cCn (flag &&& ~~~ttyQuote) clp.cCc _ hring.lt
        hquoted 0
      rw [Nat.zero_add] at hiff
      simp only [hiff, hne, false_or, true_and, Bool.false_eq_true, false_and]

/-- The quote bits of the first eight cells. -/
def firstQuotes (quotes : BitVec 8) : Bitmap 8 := fun k => if k = 0 then quotes else 0

/-- A list of four cells with two characters. -/
def twoChars (quotes : BitVec 8) : Clist where
  cCc := 2
  cCn := 4
  cCf := some 0
  cCl := some 2
  cCs := some fun i => if i < 2 then 0x61 else 0
  cCq := some (firstQuotes quotes)

theorem length_twoChars (quotes : BitVec 8) : (twoChars quotes).chars.length ≤ 4 := by
  rw [Clist.length_chars]
  exact (by decide : 2 ≤ 4)

def twoCharsQueue (quotes : BitVec 8) : TtyQueue :=
  ⟨true, ⟨4, (twoChars quotes).chars, length_twoChars quotes⟩⟩

theorem twoChars_rep (quotes : BitVec 8) : (twoChars quotes).Rep (twoCharsQueue quotes) where
  cs := rfl
  cap := rfl
  quot := rfl
  chars := rfl
  ptrs := .inr ⟨Nat.two_pos, 0, rfl, rfl, rfl, (by decide : 0 < 4), (by decide : 2 ≤ 4)⟩

/-- Two characters that are not quoted, and a free cell behind them. -/
theorem ndqb_two_plain : (twoChars 0).Rep (twoCharsQueue 0) ∧
    ndqb (twoChars 0) ttyQuote = some (ndqbRun (twoChars 0) (firstQuotes 0) ttyQuote) := by
  refine ⟨twoChars_rep 0, (ndqb_iff (twoChars_rep 0) rfl (by decide)).2 ?_⟩
  refine .inr (.inr ⟨by decide, .inr ⟨?_, by decide, by decide⟩⟩)
  intro k _ hk
  have hk' : k = 0 ∨ k = 1 := by
    have hlt : k < 2 := hk
    omega
  rcases hk' with rfl | rfl <;> decide

/-- The second character is quoted: the first one counts, and is not counted. -/
theorem ndqb_loses_first : (twoChars 2).Rep (twoCharsQueue 2) ∧
    ndqb (twoChars 2) ttyQuote = some 0 ∧
    ndqbRun (twoChars 2) (firstQuotes 2) ttyQuote = 1 :=
  ⟨twoChars_rep 2, by decide, by decide⟩

end OpenBsd.Kern
