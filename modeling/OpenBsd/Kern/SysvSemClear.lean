/-
  OpenBsd.Kern.SysvSemClear

  What `semundo_clear` of `kern/sysv_sem.c` takes out of the undo structures.

  The test that ends the scan of a structure early stands behind the first entry
  of the set, whatever its number is.  With a number other than -1 an entry is
  only found when no other entry of its set stands in front of it.
-/

import OpenBsd.Kern.SysvSemUndo

namespace OpenBsd.Kern

open List

/-- The entries that `semundo_clear` is asked to remove. -/
def Undo.named (semid : Nat) : Option Nat → Undo → Bool
  | none, u => u.unId = semid
  | some semnum, u => u.isFor semid semnum

/-! ## One structure -/

/-- An entry for the semaphore is the first of its set. -/
def NamedFirst (semid semnum : Nat) (ent : List Undo) : Prop :=
  ∀ pre u post, ent = pre ++ u :: post → u.isFor semid semnum = true → ∀ v ∈ pre, v.unId ≠ semid

variable {post : List Undo} {u : Undo}

theorem NamedFirst.tail {semid semnum : Nat}
    (h : NamedFirst semid semnum (u :: post)) : NamedFirst semid semnum post := by
  intro pre v post' hsplit hv w hw
  exact h (u :: pre) v post' (by rw [hsplit, cons_append]) hv w (mem_cons_of_mem _ hw)

theorem NamedFirst.noneFor {semid semnum : Nat}
    (h : NamedFirst semid semnum (u :: post)) (hid : u.unId = semid) :
    NoneFor semid semnum post := by
  intro v hv
  by_contra hfor
  rw [Bool.not_eq_false] at hfor
  obtain ⟨pre, post', rfl⟩ := append_of_mem hv
  exact h (u :: pre) v post' rfl hfor u mem_cons_self hid

variable {ent : List Undo}

theorem filter_noneFor {semid semnum : Nat} (h : NoneFor semid semnum ent) :
    ent.filter (! ·.isFor semid semnum) = ent := by
  rw [filter_eq_self]
  intro u hu
  rw [h u hu]
  rfl

theorem clearEnt_none_perm (semid : Nat) (ent : List Undo) :
    (clearEnt semid none ent).Perm (ent.filter (! ·.named semid none)) := by
  generalize hnone : (none : Option Nat) = semnum
  induction semnum, ent using clearEnt.induct semid with
  | case1 semnum =>
    rw [clearEnt]
    exact List.Perm.refl _
  | case2 u post hid ih =>
    -- the last entry comes in the place of this one, and is looked at next
    rw [clearEnt, if_pos hid, filter_cons_of_neg (by simp [Undo.named, hid])]
    exact (ih rfl).trans ((fillFromEnd_perm post).filter _)
  | case3 u post hid n hnum => cases hnone
  | case4 u post hid n hnum => cases hnone
  | case5 semnum u post hid ih =>
    subst hnone
    rw [clearEnt, if_neg hid, filter_cons_of_pos (by simp [Undo.named, hid])]
    exact (ih rfl).cons u

theorem clearEnt_some_perm {semid semnum : Nat} (h : NamedFirst semid semnum ent) :
    (clearEnt semid (some semnum) ent).Perm (ent.filter (! ·.isFor semid semnum)) := by
  induction ent with
  | nil =>
    rw [clearEnt]
    exact List.Perm.refl _
  | cons u post ih =>
    by_cases hid : u.unId = semid
    · have hpost := h.noneFor hid
      by_cases hnum : u.unNum.toInt = (semnum : Int)
      · rw [clearEnt, if_pos hid, filter_cons_of_neg (by simp [Undo.isFor, hid, hnum]),
          filter_noneFor hpost]
        simp only [if_pos hnum]
        exact fillFromEnd_perm post
      · -- the scan ends here, and rightly so
        rw [clearEnt, if_pos hid, filter_cons_of_pos (by simp [Undo.isFor, hnum]),
          filter_noneFor hpost]
        simp only [if_neg hnum]
        exact List.Perm.refl _
    · rw [clearEnt, if_neg hid, filter_cons_of_pos (by simp [Undo.isFor, hid])]
      exact (ih h.tail).cons u

/-- Where no entry for the semaphore is left, each one was the first of its set. -/
theorem namedFirst_of_clearEnt {semid semnum : Nat}
    (h : NoneFor semid semnum (clearEnt semid (some semnum) ent)) :
    NamedFirst semid semnum ent := by
  induction ent with
  | nil =>
    intro pre u post hsplit
    simp at hsplit
  | cons u post ih =>
    -- entries of the set in front of the named one make the scan end before it
    have hbehind : NoneFor semid semnum post → NamedFirst semid semnum (u :: post) := by
      intro hnone pre v post' hsplit hv w hw
      cases pre with
      | nil => cases hw
      | cons p pre =>
        obtain ⟨-, rfl⟩ := List.cons.inj hsplit
        rw [hnone v (by simp)] at hv
        cases hv
    by_cases hid : u.unId = semid
    · apply hbehind
      by_cases hnum : u.unNum.toInt = (semnum : Int)
      · rw [clearEnt, if_pos hid] at h
        simp only [if_pos hnum] at h
        exact NoneFor.perm h (fillFromEnd_perm post).symm
      · rw [clearEnt, if_pos hid] at h
        simp only [if_neg hnum] at h
        intro v hv
        exact h v (mem_cons_of_mem _ hv)
    · rw [clearEnt, if_neg hid] at h
      have htail := ih fun v hv => h v (mem_cons_of_mem _ hv)
      intro pre v post' hsplit hv w hw
      cases pre with
      | nil => cases hw
      | cons p pre =>
        obtain ⟨rfl, hpost⟩ := List.cons.inj hsplit
        rcases mem_cons.1 hw with rfl | hw
        · exact hid
        · exact htail pre v post' hpost hv w hw

/-! ## The list of structures -/

section

variable {π : Type} {semid : Nat} {semnum : Option Nat}

/-- A structure with an entry that is not named. -/
def SemUndo.keeps (semid : Nat) (semnum : Option Nat) (u : SemUndo π) : Bool :=
  u.unEnt.any (! ·.named semid semnum)

/-- The structures `us'` have exactly the entries of `us` that are not named: the
    structures that have such an entry stay, in their order, each with these entries
    and no others, and all other structures are gone. -/
def ClearedExactly (semid : Nat) (semnum : Option Nat) (us us' : List (SemUndo π)) : Prop :=
  List.Forall₂
    (fun u u' => u'.unProc = u.unProc ∧
      u'.unEnt.Perm (u.unEnt.filter (! ·.named semid semnum)))
    (us.filter (·.keeps semid semnum)) us'

theorem ClearedExactly.noneNamed {us us' : List (SemUndo π)}
    (h : ClearedExactly semid semnum us us') {u' : SemUndo π} (hu' : u' ∈ us') {v : Undo}
    (hv : v ∈ u'.unEnt) : v.named semid semnum = false := by
  obtain ⟨i, hi, rfl⟩ := getElem_of_mem hu'
  have hperm := (h.get (by rw [h.length_eq]; exact hi) hi).2
  have hmem := hperm.mem_iff.1 hv
  simpa using (mem_filter.1 hmem).2

theorem clearedExactly_of_perm {us : List (SemUndo π)}
    (h : ∀ u ∈ us, (clearEnt semid semnum u.unEnt).Perm
      (u.unEnt.filter (! ·.named semid semnum))) :
    ClearedExactly semid semnum us
      ((us.map fun u => { u with unEnt := clearEnt semid semnum u.unEnt }).filter
        (·.unEnt ≠ [])) := by
  induction us with
  | nil => exact List.Forall₂.nil
  | cons u us ih =>
    have hu := h u mem_cons_self
    have hus := ih fun v hv => h v (mem_cons_of_mem _ hv)
    rw [ClearedExactly, map_cons]
    by_cases hany : u.keeps semid semnum = true
    · obtain ⟨v, hv, hkept⟩ := any_eq_true.1 hany
      have hne : clearEnt semid semnum u.unEnt ≠ [] :=
        ne_nil_of_mem (hu.mem_iff.2 (mem_filter.2 ⟨hv, hkept⟩))
      rw [filter_cons_of_pos hany, filter_cons_of_pos (by simpa using hne)]
      exact List.Forall₂.cons ⟨rfl, hu⟩ hus
    · have hnil : u.unEnt.filter (! ·.named semid semnum) = [] := by
        rw [filter_eq_nil_iff]
        intro v hv hkept
        exact hany (any_eq_true.2 ⟨v, hv, hkept⟩)
      rw [hnil] at hu
      rw [filter_cons_of_neg hany, filter_cons_of_neg (by simp [hu.eq_nil])]
      exact hus

/-- `semundo_clear` removes exactly the named entries where it is given no number, or
    where the entry for the semaphore is the first of its set in every structure. -/
theorem semundoClear_exact_iff (s : SemState π) (semid : Nat) (semnum : Option Nat) :
    ClearedExactly semid semnum s.semuList (semundoClear s semid semnum).semuList ↔
      ∀ n, semnum = some n → ∀ u ∈ s.semuList, NamedFirst semid n u.unEnt := by
  constructor
  · rintro h n rfl u hu
    apply namedFirst_of_clearEnt
    intro v hv
    have hmem : { u with unEnt := clearEnt semid (some n) u.unEnt } ∈
        (semundoClear s semid (some n)).semuList := by
      rw [semundoClear]
      refine mem_filter.2 ⟨mem_map_of_mem hu, ?_⟩
      simpa using ne_nil_of_mem hv
    exact h.noneNamed hmem hv
  · intro h
    apply clearedExactly_of_perm
    intro u hu
    cases semnum with
    | none => exact clearEnt_none_perm semid u.unEnt
    | some n => exact clearEnt_some_perm (h n rfl u hu)

end

/-- A process with an adjustment for semaphore 1 of a set, and behind it one for
    semaphore 0. -/
def twoUndos : SemState Unit where
  sema _ := some ⟨0, [⟨1, 0, 0⟩, ⟨1, 0, 0⟩]⟩
  semseqs _ := 0
  semtot := 2
  semuList := [⟨(), [⟨1, 1, 0⟩, ⟨1, 0, 0⟩]⟩]
  semutot := 1

/-- Clearing semaphore 0 finds the entry of semaphore 1 and stops. -/
theorem semundoClear_stops_early :
    ¬ ClearedExactly 0 (some 0) twoUndos.semuList (semundoClear twoUndos 0 (some 0)).semuList := by
  intro h
  have hsame : (semundoClear twoUndos 0 (some 0)).semuList = [⟨(), [⟨1, 1, 0⟩, ⟨1, 0, 0⟩]⟩] := by
    simp [semundoClear, twoUndos, clearEnt]
  rw [hsame] at h
  have hgone := h.noneNamed mem_cons_self (v := ⟨1, 0, 0⟩) (by simp)
  exact absurd hgone (by decide)

end OpenBsd.Kern
