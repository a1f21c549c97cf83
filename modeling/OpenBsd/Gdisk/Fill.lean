/-
  OpenBsd.Gdisk.Fill

  `GPT_fillremaining` of `sbin/gdisk/gpt.c`, which gives a new entry the room
  that the others leave.

  One pass over the table moves the ends of a first guess past the entries that it meets, in
  64-bit arithmetic on LBAs that nobody has checked.
-/

import OpenBsd.Gdisk.Cmd

namespace OpenBsd.Gdisk

open OpenBsd.Lib

variable {i bound : UInt64} {fuel : Nat} {part q : GptPartition} {ps : List GptPartition}
  {h : GptHeader}

/-- How a command on the table ends that does not return. -/
inductive EditFault where
  /-- An entry is read or written that the table does not have. -/
  | outside
  /-- A loop has used up its fuel. -/
  | fuel
deriving DecidableEq

/-- `while (i < bound) i *= 2` -/
def fillStart (bound : UInt64) : (fuel : Nat) → UInt64 → Option UInt64
  | 0, _ => none
  | fuel + 1, i => if i < bound then fillStart bound fuel (i * 2) else some i

/-- The body of the second loop of `GPT_fillremaining`. -/
def shrink (part p : GptPartition) : GptPartition :=
  if prtOverlap part p then
    if p.startLba > part.startLba then { part with endLba := p.startLba - 1 }
    else { part with startLba := p.endLba + 1 }
  else part

/-- The second loop, from entry `i` on. -/
def shrinkLoop (pn : Nat) : (i : Nat) → List GptPartition → GptPartition → GptPartition
  | _, [], part => part
  | i, p :: ps, part => shrinkLoop pn (i + 1) ps (if i ≠ pn then shrink part p else part)

def sectoblk (d : Disk) (n : UInt64) : UInt64 := n * UInt64.ofNat (d.secsize / devBsize)

/-- What entry `pn` is set to before the second loop. -/
def fillGuess (h : GptHeader) (i : UInt64) (part : GptPartition) : GptPartition :=
  { part with startLba := i, endLba := h.endLba }

def gptFillremaining (d : Disk) (fuel : Nat) (g : Gpt) (pn : Nat) : Except EditFault Gpt :=
  match fillStart (sectoblk d g.header.startLba) fuel 1 with
  | none => .error .fuel
  | some i =>
    match g.part[pn]? with
    | none => .error .outside
    | some part =>
      .ok
        { header := g.header
          part := g.part.set pn (shrinkLoop pn 0 g.part (fillGuess g.header i part))
          length_part := by rw [List.length_set, g.length_part] }

/-! ## The first loop -/

theorem toNat_two_mul (h : i.toNat < 2 ^ 63) : (i * 2).toNat = i.toNat * 2 := by
  rw [UInt64.toNat_mul]
  have h2 : (2 : UInt64).toNat = 2 := rfl
  rw [h2]
  omega

/-- From a power of two, with enough fuel, the loop ends at the first one that
    is not below the bound. -/
theorem fillStart_eq {k : Nat} (hk : k ≤ 63) (hge : bound.toNat ≤ 2 ^ k)
    (hlt : ∀ j < k, 2 ^ j < bound.toNat) {j : Nat} (hj : j ≤ k) (hi : i.toNat = 2 ^ j) :
    ∃ fuel s, fillStart bound fuel i = some s ∧ s.toNat = 2 ^ k := by
  obtain ⟨n, rfl⟩ := Nat.exists_eq_add_of_le hj
  clear hj
  induction n generalizing j i with
  | zero =>
    refine ⟨1, i, ?_, hi⟩
    have hstop : ¬ i < bound := by
      rw [UInt64.lt_iff_toNat_lt, hi]
      exact Nat.not_lt.mpr hge
    rw [fillStart, if_neg hstop]
  | succ n ih =>
    have hgo : i < bound := by
      rw [UInt64.lt_iff_toNat_lt, hi]
      exact hlt j (by omega)
    have hsmall : 2 ^ j < 2 ^ 63 := Nat.pow_lt_pow_right (by decide) (by omega)
    have hsum : j + (n + 1) = (j + 1) + n := by omega
    have hdouble : (i * 2).toNat = 2 ^ (j + 1) := by
      rw [toNat_two_mul (by omega), hi, Nat.pow_succ]
    rw [hsum] at hk hge hlt ⊢
    obtain ⟨fuel, s, hrun, hs⟩ := ih hdouble hk hge hlt
    exact ⟨fuel + 1, s, by rw [fillStart, if_pos hgo, hrun], hs⟩

/-- The values that the loop goes through: powers of two, then zero. -/
def FillValue (i : UInt64) : Prop := i = 0 ∨ ∃ j ≤ 63, i.toNat = 2 ^ j

theorem FillValue.double (h : FillValue i) : FillValue (i * 2) := by
  rcases h with rfl | ⟨j, hj, hi⟩
  · exact Or.inl rfl
  · by_cases hlast : j = 63
    · subst hlast
      left
      apply UInt64.toNat_inj.mp
      rw [UInt64.toNat_mul, hi]
      rfl
    · right
      have hsmall : 2 ^ j < 2 ^ 63 := Nat.pow_lt_pow_right (by decide) (by omega)
      exact ⟨j + 1, by omega, by rw [toNat_two_mul (by omega), hi, Nat.pow_succ]⟩

theorem fillStart_none (h : 2 ^ 63 < bound.toNat) (hi : FillValue i) (fuel : Nat) :
    fillStart bound fuel i = none := by
  induction fuel generalizing i with
  | zero => rfl
  | succ fuel ih =>
    have hgo : i < bound := by
      rw [UInt64.lt_iff_toNat_lt]
      rcases hi with rfl | ⟨j, hj, hi⟩
      · exact Nat.lt_trans (by decide) h
      · have hle : 2 ^ j ≤ 2 ^ 63 := Nat.pow_le_pow_right (by decide) hj
        omega
    rw [fillStart, if_pos hgo, ih hi.double]

theorem fillStart_succ {s : UInt64} (h : fillStart bound fuel i = some s) :
    fillStart bound (fuel + 1) i = some s := by
  induction fuel generalizing i with
  | zero => cases h
  | succ fuel ih =>
    rw [fillStart] at h ⊢
    by_cases hgo : i < bound
    · rw [if_pos hgo] at h ⊢
      exact ih h
    · rw [if_neg hgo] at h ⊢
      exact h

theorem fillStart_unique {s s' : UInt64} {fuel' : Nat} (h : fillStart bound fuel i = some s)
    (h' : fillStart bound fuel' i = some s') : s = s' := by
  have hmore : ∀ {f : Nat} {r : UInt64}, fillStart bound f i = some r →
      ∀ n, fillStart bound (f + n) i = some r := by
    intro f r hr n
    induction n with
    | zero => exact hr
    | succ n ih => exact fillStart_succ ih
  have h1 := hmore h fuel'
  have h2 := hmore h' fuel
  rw [Nat.add_comm, h1] at h2
  exact Option.some.inj h2

theorem exists_first_pow {n : Nat} (h : n ≤ 2 ^ 63) : ∃ k ≤ 63, n ≤ 2 ^ k ∧ ∀ j < k, 2 ^ j < n := by
  classical
  have hex : ∃ k, n ≤ 2 ^ k := ⟨63, h⟩
  refine ⟨Nat.find hex, Nat.find_min' hex h, Nat.find_spec hex, ?_⟩
  intro j hj
  exact Nat.not_le.mp (Nat.find_min hex hj)

/-! ## The second loop -/

/-- Two entries without a common LBA. -/
def Apart (p q : GptPartition) : Prop := ∀ lba, ¬ (p.Covers lba ∧ q.Covers lba)

def lastLba : UInt64 := 0xffffffffffffffff

/-- An entry that covers the start of what is left, up to the last LBA there
    can be. -/
def SwallowsStart (part p : GptPartition) : Prop :=
  prtOverlap part p = true ∧ p.startLba ≤ part.startLba ∧ p.endLba = lastLba

/-- No entry of the pass swallows the start of what is left when it is met. -/
def NeverSwallowed (pn : Nat) : (i : Nat) → List GptPartition → GptPartition → Prop
  | _, [], _ => True
  | i, p :: ps, part =>
    (i ≠ pn → ¬ SwallowsStart part p) ∧
      NeverSwallowed pn (i + 1) ps (if i ≠ pn then shrink part p else part)

theorem prtOverlap_iff (p q : GptPartition) :
    prtOverlap p q = true ↔
      q.startLba.toNat ≤ p.endLba.toNat ∧ p.startLba.toNat ≤ q.endLba.toNat := by
  simp only [prtOverlap, Bool.and_eq_true, decide_eq_true_eq, ge_iff_le, UInt64.le_iff_toNat_le]

theorem shrink_cases (part p : GptPartition) :
    (¬ prtOverlap part p = true ∧ shrink part p = part) ∨
      (prtOverlap part p = true ∧ part.startLba.toNat < p.startLba.toNat ∧
        (shrink part p).startLba = part.startLba ∧
        (shrink part p).endLba.toNat = p.startLba.toNat - 1) ∨
      (prtOverlap part p = true ∧ p.startLba.toNat ≤ part.startLba.toNat ∧
        (shrink part p).startLba = p.endLba + 1 ∧ (shrink part p).endLba = part.endLba) := by
  unfold shrink
  by_cases hover : prtOverlap part p = true
  · rw [if_pos hover]
    by_cases hgt : p.startLba > part.startLba
    · right
      left
      have hlt : part.startLba.toNat < p.startLba.toNat := UInt64.lt_iff_toNat_lt.mp hgt
      rw [if_pos hgt]
      refine ⟨hover, hlt, rfl, ?_⟩
      have hone : (1 : UInt64) ≤ p.startLba := by
        rw [UInt64.le_iff_toNat_le]
        exact Nat.lt_of_le_of_lt (Nat.zero_le _) hlt
      exact UInt64.toNat_sub_of_le _ _ hone
    · right
      right
      rw [if_neg hgt]
      exact ⟨hover, Nat.not_lt.mp fun h => hgt (UInt64.lt_iff_toNat_lt.mpr h), rfl, rfl⟩
  · rw [if_neg hover]
    exact Or.inl ⟨hover, rfl⟩

theorem toNat_succ_lba {v : UInt64} (h : v ≠ lastLba) : (v + 1).toNat = v.toNat + 1 := by
  have hlt := v.toNat_lt
  have hne : v.toNat ≠ lastLba.toNat := fun heq => h (UInt64.toNat_inj.mp heq)
  have hlast : lastLba.toNat = 2 ^ 64 - 1 := rfl
  have hone : (1 : UInt64).toNat = 1 := rfl
  rw [UInt64.toNat_add, hone]
  omega

/-- What is left after a round lies in what was left before, and apart from the
    entry. -/
theorem shrink_spec {p : GptPartition} (h : ¬ SwallowsStart part p) :
    part.startLba.toNat ≤ (shrink part p).startLba.toNat ∧
      (shrink part p).endLba.toNat ≤ part.endLba.toNat ∧ Apart (shrink part p) p := by
  rcases shrink_cases part p with ⟨hno, heq⟩ | ⟨hover, hlt, hstart, hend⟩ | ⟨hover, hle, hstart, hend⟩
  · rw [heq]
    refine ⟨Nat.le_refl _, Nat.le_refl _, ?_⟩
    intro lba hlba
    exact hno (prtOverlap_of_covers hlba.1 hlba.2)
  · have hov := (prtOverlap_iff part p).mp hover
    refine ⟨Nat.le_of_eq (by rw [hstart]), by omega, ?_⟩
    rintro lba ⟨⟨-, hhi⟩, hlo, -⟩
    omega
  · have hov := (prtOverlap_iff part p).mp hover
    have hlast : p.endLba ≠ lastLba := fun heq =>
      h ⟨hover, UInt64.le_iff_toNat_le.mpr hle, heq⟩
    have hnext := toNat_succ_lba hlast
    refine ⟨by rw [hstart]; omega, Nat.le_of_eq (by rw [hend]), ?_⟩
    rintro lba ⟨⟨hlo, -⟩, -, hhi⟩
    rw [hstart] at hlo
    omega

theorem Apart.shrunk {part' : GptPartition} (h : Apart part q)
    (hlo : part.startLba.toNat ≤ part'.startLba.toNat)
    (hhi : part'.endLba.toNat ≤ part.endLba.toNat) : Apart part' q := by
  rintro lba ⟨⟨h1, h2⟩, hq⟩
  exact h lba ⟨⟨Nat.le_trans hlo h1, Nat.le_trans h2 hhi⟩, hq⟩

/-- What the whole pass leaves when nothing swallows the start. -/
theorem shrinkLoop_spec {pn : Nat} {i : Nat} (h : NeverSwallowed pn i ps part) :
    part.startLba.toNat ≤ (shrinkLoop pn i ps part).startLba.toNat ∧
      (shrinkLoop pn i ps part).endLba.toNat ≤ part.endLba.toNat ∧
      ∀ k q, i + k ≠ pn → ps[k]? = some q → Apart (shrinkLoop pn i ps part) q := by
  induction ps generalizing i part with
  | nil =>
    refine ⟨Nat.le_refl _, Nat.le_refl _, ?_⟩
    intro k q _ hq
    rw [List.getElem?_nil] at hq
    cases hq
  | cons p ps ih =>
    obtain ⟨hstep, hrest⟩ := h
    obtain ⟨hlo, hhi, hapart⟩ := ih hrest
    have hone : part.startLba.toNat ≤ (if i ≠ pn then shrink part p else part).startLba.toNat ∧
        (if i ≠ pn then shrink part p else part).endLba.toNat ≤ part.endLba.toNat := by
      by_cases hi : i ≠ pn
      · rw [if_pos hi]
        exact ⟨(shrink_spec (hstep hi)).1, (shrink_spec (hstep hi)).2.1⟩
      · rw [if_neg hi]
        exact ⟨Nat.le_refl _, Nat.le_refl _⟩
    refine ⟨Nat.le_trans hone.1 hlo, Nat.le_trans hhi hone.2, ?_⟩
    intro k q hk hq
    cases k with
    | zero =>
      -- what came out of this round apart from p only shrinks later
      cases hq
      have hi : i ≠ pn := hk
      have hnow := (shrink_spec (hstep hi)).2.2
      rw [if_pos hi] at hlo hhi
      rw [shrinkLoop, if_pos hi]
      rw [if_pos hi] at hapart
      exact hnow.shrunk hlo hhi
    | succ k =>
      rw [List.getElem?_cons_succ] at hq
      exact hapart k q (by omega) hq

/-! ## What is left below the usable range stays there -/

/-- The room that is left starts below the usable range and is not empty. -/
structure TooLow (h : GptHeader) (part : GptPartition) : Prop where
  low : part.startLba.toNat < h.startLba.toNat
  nonempty : part.startLba.toNat ≤ part.endLba.toNat
  pos : 1 ≤ part.endLba.toNat

/-- An entry as tables have them: in the usable range, or not in use. -/
def RegularEntry (h : GptHeader) (q : GptPartition) : Prop :=
  h.startLba.toNat ≤ q.startLba.toNat ∨ (q.startLba = 0 ∧ q.endLba = 0)

theorem tooLow_shrink (hlow : TooLow h part) (hstart : 2 ≤ h.startLba.toNat)
    (hq : RegularEntry h q) : TooLow h (shrink part q) := by
  have hl := hlow.low
  have hn := hlow.nonempty
  have hp := hlow.pos
  rcases shrink_cases part q with ⟨-, heq⟩ | ⟨-, hlt, hs, he⟩ | ⟨hover, hle, hs, he⟩
  · rw [heq]
    exact hlow
  · -- an entry that starts higher up takes the end; it starts at 2 at least
    have hhigh : h.startLba.toNat ≤ q.startLba.toNat := by
      rcases hq with hq | ⟨hq, -⟩
      · exact hq
      · rw [hq] at hlt
        exact absurd hlt (Nat.not_lt_zero _)
    exact ⟨by rw [hs]; exact hl, by rw [hs, he]; omega, by rw [he]; omega⟩
  · -- only an unused entry starts as low, and it moves the start from 0 to 1
    rcases hq with hq | ⟨-, hqe⟩
    · omega
    · have hone : (shrink part q).startLba.toNat = 1 := by
        rw [hs, hqe]
        rfl
      exact ⟨by omega, by rw [hone, he]; exact hp, by rw [he]; exact hp⟩

theorem tooLow_shrinkLoop {pn : Nat} (hstart : 2 ≤ h.startLba.toNat) {i : Nat}
    (hlow : TooLow h part) (hps : ∀ k q, i + k ≠ pn → ps[k]? = some q → RegularEntry h q) :
    TooLow h (shrinkLoop pn i ps part) := by
  induction ps generalizing i part with
  | nil => exact hlow
  | cons p ps ih =>
    rw [shrinkLoop]
    apply ih
    · by_cases hi : i ≠ pn
      · rw [if_pos hi]
        exact tooLow_shrink hlow hstart (hps 0 p hi rfl)
      · rw [if_neg hi]
        exact hlow
    · intro k q hk hq
      exact hps (k + 1) q (by omega) (by rw [List.getElem?_cons_succ]; exact hq)

theorem tooLow_of_swallowsStart (hstart : 2 ≤ h.startLba.toNat) (hq : RegularEntry h q)
    (hsw : SwallowsStart part q) : TooLow h (shrink part q) := by
  obtain ⟨hover, hle, hlast⟩ := hsw
  have hle := UInt64.le_iff_toNat_le.mp hle
  have hov := (prtOverlap_iff part q).mp hover
  have hhigh : h.startLba.toNat ≤ q.startLba.toNat := by
    rcases hq with hq | ⟨-, hqe⟩
    · exact hq
    · rw [hqe] at hlast
      exact absurd hlast (by decide)
  rcases shrink_cases part q with ⟨hno, -⟩ | ⟨-, hlt, -, -⟩ | ⟨-, -, hs, he⟩
  · exact absurd hover hno
  · omega
  · have hzero : (shrink part q).startLba.toNat = 0 := by
      rw [hs, hlast]
      rfl
    exact ⟨by omega, by omega, by rw [he]; omega⟩

theorem tooLow_of_swallowed {pn : Nat} (hstart : 2 ≤ h.startLba.toNat) {i : Nat}
    (hps : ∀ k q, i + k ≠ pn → ps[k]? = some q → RegularEntry h q)
    (hsw : ¬ NeverSwallowed pn i ps part) : TooLow h (shrinkLoop pn i ps part) := by
  induction ps generalizing i part with
  | nil => exact absurd trivial hsw
  | cons p ps ih =>
    have hrest : ∀ k q, i + 1 + k ≠ pn → ps[k]? = some q → RegularEntry h q := by
      intro k q hk hq
      exact hps (k + 1) q (by omega) (by rw [List.getElem?_cons_succ]; exact hq)
    rw [shrinkLoop]
    by_cases hnow : i ≠ pn ∧ SwallowsStart part p
    · rw [if_pos hnow.1]
      have hlow := tooLow_of_swallowsStart hstart (hps 0 p hnow.1 rfl) hnow.2
      exact tooLow_shrinkLoop hstart hlow hrest
    · apply ih hrest
      intro hnever
      exact hsw ⟨fun hi hs => hnow ⟨hi, hs⟩, hnever⟩

/-! ## The entry that is filled -/

/-- Entry `pn` is empty, or lies in the usable range and apart from all others. -/
def LegalHole (h : GptHeader) (part : List GptPartition) (pn : Nat) : Prop :=
  ∀ e, part[pn]? = some e → e.endLba.toNat < e.startLba.toNat ∨
    (h.startLba.toNat ≤ e.startLba.toNat ∧ e.endLba.toNat ≤ h.endLba.toNat ∧
      ∀ i q, i ≠ pn → part[i]? = some q → Apart e q)

/-- `GPT_fillremaining` returns and leaves a legal hole. -/
def FillsLegally (d : Disk) (g : Gpt) (pn : Nat) : Prop :=
  ∃ fuel g', gptFillremaining d fuel g pn = .ok g' ∧ LegalHole g'.header g'.part pn

/-- The start of the usable range in blocks is at most 2^63; the first power of
    two not below it is in the usable range or behind its end; and from there
    on no entry swallows the start of what is left. -/
def RoomToFill (d : Disk) (g : Gpt) (pn : Nat) : Prop :=
  ∃ k ≤ 63, (sectoblk d g.header.startLba).toNat ≤ 2 ^ k ∧
    (∀ j < k, 2 ^ j < (sectoblk d g.header.startLba).toNat) ∧
    (g.header.startLba.toNat ≤ 2 ^ k ∨ g.header.endLba.toNat < 2 ^ k) ∧
    ∀ i e, i.toNat = 2 ^ k → g.part[pn]? = some e →
      NeverSwallowed pn 0 g.part (fillGuess g.header i e)

variable {d : Disk} {g : Gpt} {pn : Nat}

theorem gptFillremaining_eq_ok {g' : Gpt} :
    gptFillremaining d fuel g pn = .ok g' ↔
      ∃ i e, fillStart (sectoblk d g.header.startLba) fuel 1 = some i ∧ g.part[pn]? = some e ∧
        g'.header = g.header ∧
        g'.part = g.part.set pn (shrinkLoop pn 0 g.part (fillGuess g.header i e)) := by
  unfold gptFillremaining
  cases hfill : fillStart (sectoblk d g.header.startLba) fuel 1 with
  | none => simp
  | some i =>
    cases hpart : g.part[pn]? with
    | none => simp
    | some e =>
      dsimp only
      constructor
      · intro h
        cases h
        exact ⟨i, e, rfl, rfl, rfl, rfl⟩
      · rintro ⟨i', e', hi, he, hheader, hset⟩
        cases hi
        cases he
        cases g'
        simp only at hheader hset
        subst hheader hset
        rfl

theorem legalHole_set {part : List GptPartition} {e : GptPartition} (hpn : pn < part.length) :
    LegalHole h (part.set pn e) pn ↔ e.endLba.toNat < e.startLba.toNat ∨
      (h.startLba.toNat ≤ e.startLba.toNat ∧ e.endLba.toNat ≤ h.endLba.toNat ∧
        ∀ i q, i ≠ pn → part[i]? = some q → Apart e q) := by
  have hself : (part.set pn e)[pn]? = some e := List.getElem?_set_self hpn
  have hother : ∀ i, i ≠ pn → (part.set pn e)[i]? = part[i]? := fun i hi =>
    List.getElem?_set_ne (Ne.symm hi)
  unfold LegalHole
  constructor
  · intro hall
    rcases hall e hself with hempty | ⟨hlo, hhi, hapart⟩
    · exact Or.inl hempty
    · exact Or.inr ⟨hlo, hhi, fun i q hi hq => hapart i q hi (by rw [hother i hi]; exact hq)⟩
  · intro hall e' he'
    rw [hself] at he'
    cases he'
    rcases hall with hempty | ⟨hlo, hhi, hapart⟩
    · exact Or.inl hempty
    · exact Or.inr ⟨hlo, hhi, fun i q hi hq => hapart i q hi (by rw [← hother i hi]; exact hq)⟩

theorem fillsLegally_of_roomToFill (hpn : pn < g.part.length) (h : RoomToFill d g pn) :
    FillsLegally d g pn := by
  obtain ⟨k, hk, hge, hlt, hrange, hnever⟩ := h
  obtain ⟨fuel, i, hrun, hi⟩ :=
    fillStart_eq hk hge hlt (Nat.zero_le k) (i := 1) rfl
  have hpart : g.part[pn]? = some g.part[pn] := List.getElem?_eq_getElem hpn
  obtain ⟨hlo, hhi, hapart⟩ := shrinkLoop_spec (hnever i _ hi hpart)
  have hlo : i.toNat ≤ _ := hlo
  have hhi : _ ≤ g.header.endLba.toNat := hhi
  refine ⟨fuel, ⟨g.header, g.part.set pn (shrinkLoop pn 0 g.part (fillGuess g.header i g.part[pn])),
    by rw [List.length_set, g.length_part]⟩,
    gptFillremaining_eq_ok.mpr ⟨i, _, hrun, hpart, rfl, rfl⟩, ?_⟩
  apply (legalHole_set hpn).mpr
  rcases hrange with hin | hout
  · right
    refine ⟨?_, hhi, ?_⟩
    · show g.header.startLba.toNat ≤ _
      omega
    · intro j q hj hq
      exact hapart j q (by omega) hq
  · left
    omega

/-- Without, it is not, where the other entries are regular. -/
theorem roomToFill_of_fillsLegally (hstart : 2 ≤ g.header.startLba.toNat)
    (hreg : ∀ i q, i ≠ pn → g.part[i]? = some q → RegularEntry g.header q)
    (h : FillsLegally d g pn) : RoomToFill d g pn := by
  obtain ⟨fuel, g', hrun, hlegal⟩ := h
  obtain ⟨s, e, hfill, hpart, hheader, hset⟩ := gptFillremaining_eq_ok.mp hrun
  have hpn : pn < g.part.length := (List.getElem?_eq_some_iff.mp hpart).1
  rw [hheader, hset, legalHole_set hpn] at hlegal
  have hlow : ¬ TooLow g.header (shrinkLoop pn 0 g.part (fillGuess g.header s e)) := by
    intro hlow
    have hl := hlow.low
    have hn := hlow.nonempty
    rcases hlegal with hempty | ⟨hlo, -⟩
    · omega
    · omega
  have hregular : ∀ k q, 0 + k ≠ pn → g.part[k]? = some q → RegularEntry g.header q := by
    intro k q hk hq
    exact hreg k q (by omega) hq
  -- the first loop has come to its end
  have hbound : (sectoblk d g.header.startLba).toNat ≤ 2 ^ 63 := by
    by_contra hbig
    rw [fillStart_none (Nat.not_le.mp hbig) (Or.inr ⟨0, by decide, rfl⟩)] at hfill
    cases hfill
  obtain ⟨k, hk, hge, hlt⟩ := exists_first_pow hbound
  obtain ⟨fuel', s', hrun', hs'⟩ := fillStart_eq hk hge hlt (Nat.zero_le k) (i := 1) rfl
  have hs : s.toNat = 2 ^ k := by
    rw [fillStart_unique hfill hrun']
    exact hs'
  refine ⟨k, hk, hge, hlt, ?_, ?_⟩
  · by_contra hrange
    push Not at hrange
    have hpos : 1 ≤ 2 ^ k := Nat.one_le_two_pow
    have hguess : TooLow g.header (fillGuess g.header s e) :=
      { low := by show s.toNat < _; omega
        nonempty := by show s.toNat ≤ g.header.endLba.toNat; omega
        pos := by show 1 ≤ g.header.endLba.toNat; omega }
    exact hlow (tooLow_shrinkLoop hstart hguess hregular)
  · intro i e' hi he'
    have hsame : i = s := UInt64.toNat_inj.mp (hi.trans hs.symm)
    rw [hpart] at he'
    cases he'
    subst hsame
    by_contra hsw
    exact hlow (tooLow_of_swallowed hstart hregular hsw)

/-- `GPT_fillremaining` finds a legal hole when there is room to fill; where the
    other entries start in the usable range or are not in use, it does so only
    then. -/
theorem gptFillremaining_legal (hpn : pn < g.part.length) :
    (RoomToFill d g pn → FillsLegally d g pn) ∧
      (2 ≤ g.header.startLba.toNat →
        (∀ i q, i ≠ pn → g.part[i]? = some q → RegularEntry g.header q) →
        (FillsLegally d g pn ↔ RoomToFill d g pn)) :=
  ⟨fillsLegally_of_roomToFill hpn, fun hstart hreg =>
    ⟨roomToFill_of_fillsLegally hstart hreg, fillsLegally_of_roomToFill hpn⟩⟩

/-! ## An entry that ends at the last LBA -/

/-- A table of two entries that are not in use, the second with LBAs up to the
    last there can be. -/
def topGpt : Gpt where
  header := ⟨gptSignature, gptRevision, 92, 0, 0, 1, 0, 3, 90, Uuid.nil, 2, 2, 128, 0⟩
  part := [unusedEntry, { unusedEntry with startLba := 4, endLba := lastLba }]
  length_part := rfl

theorem topGpt_storeOk (h : 5 ≤ d.size) : StoreOk d topGpt := by
  have hlbas : partLbas topGpt = 1 := rfl
  have hnil : ∀ p ∈ topGpt.part, uuidIsNil p.type = true := by decide
  refine ⟨Or.inl rfl, by decide, by rw [hlbas]; omega, ?_⟩
  intro p hp hused
  exact absurd (hnil p hp) hused

/-- The two entries without the LBAs of the second. -/
def roomyGpt : Gpt where
  header := topGpt.header
  part := [unusedEntry, unusedEntry]
  length_part := rfl

theorem sectoblk_devBsize (h : d.secsize = devBsize) (n : UInt64) : sectoblk d n = n := by
  have hone : UInt64.ofNat (devBsize / devBsize) = 1 := by decide
  rw [sectoblk, h, hone, UInt64.mul_one]

theorem roomToFill_roomyGpt : RoomToFill (blankDisk 100 (by decide)) roomyGpt 0 := by
  refine ⟨2, by decide, ?_, ?_, Or.inl (by decide), ?_⟩
  · rw [sectoblk_devBsize rfl]
    decide
  · rw [sectoblk_devBsize rfl]
    decide
  · intro i e hi he
    refine ⟨fun h => absurd rfl h, ?_, trivial⟩
    intro _ hsw
    exact absurd hsw.2.2 (by decide)

theorem gptFillremaining_legal_roomy : FillsLegally (blankDisk 100 (by decide)) roomyGpt 0 :=
  (gptFillremaining_legal (by decide)).1 roomToFill_roomyGpt

/-- The new entry gets the LBAs from 0 on: the entry behind it ends at the last
    LBA, which has no successor. -/
theorem fillremaining_from_zero :
    ¬ ∃ crc32 : List UInt8 → UInt32, ∀ (d : Disk) (alt : Bool) (g : Gpt) (pn : Nat),
        gptLoad crc32 d alt = .ok g → pn < g.part.length → FillsLegally d g pn := by
  rintro ⟨crc32, h⟩
  have ok : StoreOk (blankDisk 100 (by decide)) topGpt := topGpt_storeOk (by decide)
  have hload := @load_stored_primary crc32 _ _ ok
  have hfill := h _ _ _ 0 hload (Nat.zero_lt_succ 1)
  have hstart : (primaryGpt crc32 (blankDisk 100 (by decide)) topGpt).header.startLba = 3 := rfl
  have hend : (primaryGpt crc32 (blankDisk 100 (by decide)) topGpt).header.endLba = 97 := rfl
  have hregular : ∀ i q, i ≠ 0 → topGpt.part[i]? = some q →
      RegularEntry (primaryGpt crc32 (blankDisk 100 (by decide)) topGpt).header q := by
    intro i q hi hq
    rw [RegularEntry, hstart]
    match i, hi, hq with
    | 1, _, hq =>
      cases hq
      decide
  obtain ⟨k, hk, hge, hlt, -, hnever⟩ :=
    @roomToFill_of_fillsLegally _ (primaryGpt crc32 (blankDisk 100 (by decide)) topGpt) 0
      (by rw [hstart]; decide) hregular hfill
  rw [hstart, sectoblk_devBsize (by rw [Disk.writeAll_secsize]; rfl)] at hge hlt
  -- the first power of two from LBA 3 on is 4
  have hk2 : k = 2 := by
    have hle : k ≤ 2 := by
      by_contra hbig
      exact absurd (hlt 2 (by omega)) (by decide)
    have hge2 : 2 ≤ k := by
      by_contra hsmall
      have hpow : 2 ^ k ≤ 2 ^ 1 := Nat.pow_le_pow_right (by decide) (by omega)
      exact absurd (Nat.le_trans hge hpow) (by decide)
    omega
  subst hk2
  -- and there the other entry starts too
  have hstep := (hnever 4 unusedEntry rfl rfl).2.1 Nat.one_ne_zero
  apply hstep
  show SwallowsStart (fillGuess (primaryGpt crc32 (blankDisk 100 (by decide)) topGpt).header 4
    unusedEntry) { unusedEntry with startLba := 4, endLba := lastLba }
  rw [SwallowsStart, prtOverlap, fillGuess, hend]
  decide

end OpenBsd.Gdisk
