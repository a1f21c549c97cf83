/-
  OpenBsd.Dev.Softraid

  The pending and the deferred work units of `dev/softraid.c`: `sr_schedule_wu` of a new work unit,
  `sr_raid_startwu`, and `sr_wu_done_callback` of one whose I/Os have all succeeded.

  A work unit is its number, as a pointer.  A new one may come with a collider of its own, the way
  `sr_raid5_rw` puts a write behind its reads.
-/

import Mathlib.Data.List.Nodup
import OpenBsd.Lib.Linked
import OpenBsd.Lib.Run

namespace OpenBsd.Dev

open OpenBsd.Lib List Function

/-- `swu_blk_start` and `swu_blk_end`, of type `daddr_t`. -/
structure SrBlocks where
  blkStart : Int
  blkEnd : Int
  le : blkStart ≤ blkEnd

/-- The block is one of a work unit. -/
def SrBlocks.Has (b : SrBlocks) (x : Int) : Prop := b.blkStart ≤ x ∧ x ≤ b.blkEnd

/-- The test of `sr_schedule_wu` on a pending work unit. -/
def SrBlocks.collides (wu wup : SrBlocks) : Bool :=
  ! (wu.blkEnd < wup.blkStart || wup.blkEnd < wu.blkStart)

/-- The values of `swu_state` on the two queues. -/
inductive SrWuState where
  | inprogress
  | deferred
  deriving DecidableEq

/-- The queues of `struct sr_discipline`, and the work units. -/
structure SrDiscipline where
  pendq : List Nat
  defq : List Nat
  blocks : Nat → SrBlocks
  state : Nat → SrWuState
  collider : Nat → Option Nat

def srRaidStartwu (sd : SrDiscipline) (wu : Nat) : SrDiscipline :=
  let sd :=
    if sd.state wu = .deferred then
      { sd with defq := sd.defq.erase wu, state := Function.update sd.state wu .inprogress }
    else sd
  { sd with pendq := sd.pendq ++ [wu] }

/-- `while (wup->swu_collider) wup = wup->swu_collider`, for so many rounds. -/
def lastCollider (collider : Nat → Option Nat) : Nat → Nat → Option Nat
  | 0, _ => none
  | n + 1, wup =>
    match collider wup with
    | none => some wup
    | some wup => lastCollider collider n wup

/-- The last pending work unit that collides. -/
def SrDiscipline.colliding (sd : SrDiscipline) (wu : Nat) : Option Nat :=
  sd.pendq.reverse.find? fun wup => (sd.blocks wu).collides (sd.blocks wup)

/-- `sr_schedule_wu` of a work unit in progress.  A chain of colliders that does not end is `none`. -/
def srScheduleWu (sd : SrDiscipline) (wu : Nat) : Option SrDiscipline :=
  match sd.colliding wu with
  | some wup =>
    (lastCollider sd.collider (sd.defq.length + 1) wup).map fun last =>
      { sd with
        state := Function.update sd.state wu .deferred
        collider := Function.update sd.collider last (some wu)
        defq := sd.defq ++ [wu] }
  | none => some (srRaidStartwu sd wu)

/-- `sr_wu_done_callback`.  The work unit is on the pending queue. -/
def srWuDoneCallback (sd : SrDiscipline) (wu : Nat) : SrDiscipline :=
  let sd := { sd with pendq := sd.pendq.erase wu }
  match sd.collider wu with
  | some wuC => srRaidStartwu sd wuC
  | none => sd

/-- A work unit from `sr_scsi_wu_get`, made for some blocks. -/
def srNewWu (sd : SrDiscipline) (wu : Nat) (b : SrBlocks) : SrDiscipline :=
  { sd with
    blocks := Function.update sd.blocks wu b
    state := Function.update sd.state wu .inprogress
    collider := Function.update sd.collider wu none }

/-- The work unit is deferred behind one that is yet to be scheduled. -/
def srCarry (sd : SrDiscipline) (wu wuC : Nat) : SrDiscipline :=
  { sd with
    state := Function.update sd.state wuC .deferred
    collider := Function.update sd.collider wu (some wuC)
    defq := sd.defq ++ [wuC] }

inductive SrStep where
  | schedule (wu : Nat) (b : SrBlocks)
  | scheduleCarrying (wu wuC : Nat) (b : SrBlocks)
  | done (wu : Nat)

/-- The work unit is on neither queue. -/
def SrDiscipline.Unused (sd : SrDiscipline) (wu : Nat) : Prop := wu ∉ sd.pendq ∧ wu ∉ sd.defq

instance (sd : SrDiscipline) (wu : Nat) : Decidable (sd.Unused wu) := by
  unfold SrDiscipline.Unused
  infer_instance

def srStep (sd : SrDiscipline) : SrStep → Option SrDiscipline
  | .schedule wu b => if sd.Unused wu then srScheduleWu (srNewWu sd wu b) wu else none
  | .scheduleCarrying wu wuC b =>
    if sd.Unused wu ∧ sd.Unused wuC ∧ wu ≠ wuC then
      srScheduleWu (srCarry (srNewWu (srNewWu sd wuC b) wu b) wu wuC) wu
    else none
  | .done wu => if wu ∈ sd.pendq then some (srWuDoneCallback sd wu) else none

def srInit : SrDiscipline :=
  { pendq := []
    defq := []
    blocks := fun _ => ⟨0, 0, Int.le_refl 0⟩
    state := fun _ => .inprogress
    collider := fun _ => none }

/-! ## Chains of colliders -/

/-- The chain of colliders of every pending work unit.  Together they are the deferred ones. -/
structure Chained (sd : SrDiscipline) (chain : Nat → List Nat) : Prop where
  linked : ∀ p ∈ sd.pendq, LinkedList sd.collider (sd.collider p) (chain p)
  perm : (sd.pendq.flatMap chain).Perm sd.defq
  nodup : (sd.pendq ++ sd.defq).Nodup
  deferred : ∀ w ∈ sd.defq, sd.state w = .deferred

/-- The same, with one work unit and the chain behind it on no pending one. -/
structure Floating (sd : SrDiscipline) (chain : Nat → List Nat) (wu : Nat) (tail : List Nat) : Prop where
  linked : ∀ p ∈ sd.pendq, LinkedList sd.collider (sd.collider p) (chain p)
  tailed : LinkedList sd.collider (sd.collider wu) tail
  perm : (sd.pendq.flatMap chain ++ tail).Perm sd.defq
  nodup : (sd.pendq ++ sd.defq).Nodup
  unused : sd.Unused wu
  deferred : ∀ w ∈ sd.defq, sd.state w = .deferred
  inprogress : sd.state wu = .inprogress

theorem notMem_of_flatMap_nodup {f : Nat → List Nat} {l : List Nat} (h : (l.flatMap f).Nodup) {p q : Nat}
    (hp : p ∈ l) (hq : q ∈ l) (hne : q ≠ p) {x : Nat} (hx : x ∈ f p) : x ∉ f q := by
  intro hxq
  have hpair := (nodup_flatMap.1 h).2
  -- one of the two comes first
  obtain ⟨pre, post, hl⟩ := append_of_mem hp
  rw [hl] at hpair hq
  obtain ⟨-, hpost, hpre⟩ := pairwise_append.1 hpair
  rcases mem_append.1 hq with hq | hq
  · exact hpre q hq p mem_cons_self hxq hx
  · rcases mem_cons.1 hq with hq | hq
    · exact hne hq
    · exact (pairwise_cons.1 hpost).1 q hq hx hxq

theorem flatMap_update_of_notMem {chain : Nat → List Nat} {x : Nat} {l : List Nat} (l' : List Nat)
    (h : x ∉ l) : l.flatMap (update chain x l') = l.flatMap chain := by
  induction l with
  | nil => rfl
  | cons a l ih =>
    have hne : a ≠ x := fun heq => h (heq ▸ mem_cons_self)
    rw [flatMap_cons, flatMap_cons, update_of_ne hne, ih fun hin => h (mem_cons_of_mem a hin)]

variable {tail : List Nat}

theorem Floating.started {sd : SrDiscipline} {chain : Nat → List Nat} {wu : Nat}
    (h : Floating sd chain wu tail) :
    Chained { sd with pendq := sd.pendq ++ [wu] } (update chain wu tail) := by
  have hnew := h.unused.1
  refine ⟨?_, ?_, ?_, h.deferred⟩
  · intro p hp
    rcases mem_append.1 hp with hp | hp
    · have hne : p ≠ wu := fun heq => hnew (heq ▸ hp)
      rw [update_of_ne hne]
      exact h.linked p hp
    · rw [mem_singleton.1 hp, update_self]
      exact h.tailed
  · show ((sd.pendq ++ [wu]).flatMap (update chain wu tail)).Perm sd.defq
    rw [flatMap_append, flatMap_singleton, update_self, flatMap_update_of_notMem tail hnew]
    exact h.perm
  · have hperm : (wu :: (sd.pendq ++ sd.defq)).Perm (sd.pendq ++ [wu] ++ sd.defq) := by
      rw [append_assoc, singleton_append]
      exact perm_middle.symm
    refine hperm.nodup (nodup_cons.2 ⟨?_, h.nodup⟩)
    intro hin
    rcases mem_append.1 hin with hin | hin
    · exact hnew hin
    · exact h.unused.2 hin

theorem lastCollider_chain {collider : Nat → Option Nat} (chain : List Nat) {wup n : Nat}
    (h : LinkedList collider (collider wup) chain) (hn : chain.length < n) :
    ∃ l last, wup :: chain = l ++ [last] ∧ lastCollider collider n wup = some last := by
  induction chain generalizing wup n with
  | nil =>
    obtain ⟨m, rfl⟩ : ∃ m, n = m + 1 := ⟨n - 1, by omega⟩
    have hnone : collider wup = none := h
    exact ⟨[], wup, rfl, by rw [lastCollider, hnone]⟩
  | cons w chain ih =>
    obtain ⟨m, rfl⟩ : ∃ m, n = m + 1 := ⟨n - 1, by omega⟩
    obtain ⟨hsome, hrest⟩ := h
    obtain ⟨l, last, hsplit, hlast⟩ := @ih w m hrest (by rw [length_cons] at hn; omega)
    refine ⟨wup :: l, last, by rw [hsplit, cons_append], ?_⟩
    rw [lastCollider, hsome]
    exact hlast

theorem Floating.apart {sd : SrDiscipline} {chain : Nat → List Nat} {wu : Nat}
    (h : Floating sd chain wu tail) {p : Nat} (hp : p ∈ sd.pendq) {x : Nat} (hx : x ∈ chain p) :
    (∀ q ∈ sd.pendq, q ≠ p → x ∉ chain q) ∧ x ∉ tail ∧ x ∈ sd.defq := by
  have hnodup : (sd.pendq.flatMap chain ++ tail).Nodup :=
    h.perm.symm.nodup (nodup_append.1 h.nodup).2.1
  obtain ⟨hchains, -, hdisjoint⟩ := nodup_append.1 hnodup
  have hin : x ∈ sd.pendq.flatMap chain := mem_flatMap.2 ⟨p, hp, hx⟩
  refine ⟨?_, fun htail => hdisjoint x hin x htail rfl, h.perm.subset (mem_append_left _ hin)⟩
  exact fun q hq hne => notMem_of_flatMap_nodup hchains hp hq hne hx

/-- The work unit and its chain are put at the end of another chain. -/
theorem Floating.deferred_behind {sd : SrDiscipline} {chain : Nat → List Nat} {wu : Nat}
    (h : Floating sd chain wu tail) {wup : Nat} (hwup : wup ∈ sd.pendq) {l : List Nat} {last : Nat}
    (hsplit : wup :: chain wup = l ++ [last]) :
    Chained
      { sd with
        state := update sd.state wu .deferred
        collider := update sd.collider last (some wu)
        defq := sd.defq ++ [wu] }
      (update chain wup (chain wup ++ wu :: tail)) := by
  have hdisjoint := (nodup_append.1 h.nodup).2.2
  have hlast : last = wup ∨ last ∈ chain wup := by
    have hin : last ∈ wup :: chain wup := by
      rw [hsplit]
      exact mem_append_right l (mem_singleton_self last)
    exact mem_cons.1 hin
  have htaildef : ∀ x ∈ tail, x ∈ sd.defq := fun x hx => h.perm.subset (mem_append_right _ hx)
  have hself : update sd.collider last (some wu) last = some wu := update_self ..
  have hother : ∀ x, x ≠ last → update sd.collider last (some wu) x = sd.collider x :=
    fun x hx => update_of_ne hx ..
  -- the last work unit of the chain is not the new one, nor on another chain
  have hwu : wu ≠ last := by
    rintro rfl
    rcases hlast with rfl | hin
    · exact h.unused.1 hwup
    · exact h.unused.2 (h.apart hwup hin).2.2
  have htail : ∀ x ∈ tail, x ≠ last := by
    rintro x hx rfl
    rcases hlast with rfl | hin
    · exact hdisjoint x hwup x (htaildef x hx) rfl
    · exact (h.apart hwup hin).2.1 hx
  have hchain : ∀ p ∈ sd.pendq, p ≠ wup → p ≠ last ∧ ∀ x ∈ chain p, x ≠ last := by
    intro p hp hne
    constructor
    · rintro rfl
      rcases hlast with heq | hin
      · exact hne heq
      · exact hdisjoint p hp p (h.apart hwup hin).2.2 rfl
    · rintro x hx rfl
      rcases hlast with rfl | hin
      · exact hdisjoint x hwup x (h.apart hp hx).2.2 rfl
      · exact (h.apart hwup hin).1 p hp hne hx
  refine ⟨?_, ?_, ?_, ?_⟩
  · intro p hp
    show LinkedList (update sd.collider last (some wu)) (update sd.collider last (some wu) p) _
    by_cases hpwup : p = wup
    · subst hpwup
      rw [update_self]
      have hlinked : LinkedList sd.collider (some p) (l ++ last :: []) := by
        rw [← hsplit]
        exact ⟨rfl, h.linked p hp⟩
      have hnodup : (l ++ [last]).Nodup := by
        rw [← hsplit]
        refine nodup_cons.2 ⟨fun hin => hdisjoint p hp p (h.apart hp hin).2.2 rfl, ?_⟩
        have hall : (sd.pendq.flatMap chain).Nodup :=
          (nodup_append.1 (h.perm.symm.nodup (nodup_append.1 h.nodup).2.1)).1
        exact (nodup_flatMap.1 hall).1 p hp
      have hbefore : ∀ x ∈ l, x ≠ last := fun x hx =>
        (nodup_append.1 hnodup).2.2 x hx last (mem_singleton_self last)
      have hnew : LinkedList (update sd.collider last (some wu))
          (update sd.collider last (some wu) last) (wu :: tail) := by
        refine ⟨hself, ?_⟩
        rw [hother wu hwu]
        exact h.tailed.congr fun x hx => hother x (htail x hx)
      have hrelinked := hlinked.relink (fun x hx => hother x (hbefore x hx)) hnew
      have hwhole : l ++ last :: wu :: tail = p :: (chain p ++ wu :: tail) := by
        rw [← cons_append, hsplit, append_assoc, singleton_append]
      rw [hwhole] at hrelinked
      exact hrelinked.2
    · obtain ⟨hne, hnechain⟩ := hchain p hp hpwup
      rw [update_of_ne hpwup, hother p hne]
      exact (h.linked p hp).congr fun x hx => hother x (hnechain x hx)
  · show (sd.pendq.flatMap (update chain wup (chain wup ++ wu :: tail))).Perm (sd.defq ++ [wu])
    obtain ⟨pre, post, hpend⟩ := append_of_mem hwup
    have hnodup : sd.pendq.Nodup := (nodup_append.1 h.nodup).1
    rw [hpend] at hnodup
    have hpre : wup ∉ pre := fun hin =>
      (nodup_append.1 hnodup).2.2 wup hin wup mem_cons_self rfl
    have hpost : wup ∉ post := (nodup_cons.1 (nodup_append.1 hnodup).2.1).1
    have hperm := h.perm
    rw [hpend, flatMap_append, flatMap_cons] at hperm
    rw [hpend, flatMap_append, flatMap_cons, update_self, flatMap_update_of_notMem _ hpre,
      flatMap_update_of_notMem _ hpost]
    apply List.Perm.trans ?_ (hperm.append_right [wu])
    simp only [append_assoc, cons_append]
    apply List.Perm.append_left
    apply List.Perm.append_left
    apply (perm_append_singleton wu _).symm.trans
    rw [← append_assoc]
    exact perm_append_comm.append_right [wu]
  · have hperm : (wu :: (sd.pendq ++ sd.defq)).Perm (sd.pendq ++ (sd.defq ++ [wu])) := by
      rw [← append_assoc]
      exact (perm_append_singleton wu _).symm
    refine hperm.nodup (nodup_cons.2 ⟨?_, h.nodup⟩)
    intro hin
    rcases mem_append.1 hin with hin | hin
    · exact h.unused.1 hin
    · exact h.unused.2 hin
  · intro w hw
    show update sd.state wu .deferred w = .deferred
    by_cases hwwu : w = wu
    · rw [hwwu, update_self]
    · rw [update_of_ne hwwu]
      rcases mem_append.1 hw with hin | hin
      · exact h.deferred w hin
      · exact absurd (mem_singleton.1 hin) hwwu

/-! ## Steps -/

variable {sd : SrDiscipline} {chain : Nat → List Nat} {wu : Nat}

theorem Chained.newWu (h : Chained sd chain) (hwu : sd.Unused wu) (b : SrBlocks) :
    Floating (srNewWu sd wu b) chain wu [] := by
  have hlists := (nodup_append.1 h.nodup).2.2
  have hother : ∀ x, x ≠ wu → update sd.collider wu none x = sd.collider x :=
    fun x hx => update_of_ne hx ..
  refine ⟨?_, update_self .., ?_, h.nodup, hwu, ?_, update_self ..⟩
  · intro p hp
    have hne : p ≠ wu := fun heq => hwu.1 (heq ▸ hp)
    show LinkedList (update sd.collider wu none) (update sd.collider wu none p) (chain p)
    rw [hother p hne]
    refine (h.linked p hp).congr fun x hx => hother x ?_
    rintro rfl
    exact hwu.2 (h.perm.subset (mem_flatMap.2 ⟨p, hp, hx⟩))
  · rw [append_nil]
    exact h.perm
  · intro w hw
    have hne : w ≠ wu := fun heq => hwu.2 (heq ▸ hw)
    show update sd.state wu .inprogress w = .deferred
    rw [update_of_ne hne]
    exact h.deferred w hw

/-- The same for a work unit with a collider of its own. -/
theorem Chained.carrying (h : Chained sd chain) {wuC : Nat} (hwu : sd.Unused wu) (hwuC : sd.Unused wuC)
    (hne : wu ≠ wuC) (b : SrBlocks) :
    Floating (srCarry (srNewWu (srNewWu sd wuC b) wu b) wu wuC) chain wu [wuC] := by
  have hmem : ∀ p ∈ sd.pendq, p ≠ wu ∧ p ≠ wuC := fun p hp =>
    ⟨fun heq => hwu.1 (heq ▸ hp), fun heq => hwuC.1 (heq ▸ hp)⟩
  have hmem' : ∀ w ∈ sd.defq, w ≠ wu ∧ w ≠ wuC := fun w hw =>
    ⟨fun heq => hwu.2 (heq ▸ hw), fun heq => hwuC.2 (heq ▸ hw)⟩
  have hother : ∀ x, x ≠ wu ∧ x ≠ wuC →
      (srCarry (srNewWu (srNewWu sd wuC b) wu b) wu wuC).collider x = sd.collider x := by
    intro x hx
    simp only [srCarry, srNewWu, update_of_ne hx.1, update_of_ne hx.2]
  have hself : (srCarry (srNewWu (srNewWu sd wuC b) wu b) wu wuC).collider wu = some wuC :=
    update_self ..
  have hcarried : (srCarry (srNewWu (srNewWu sd wuC b) wu b) wu wuC).collider wuC = none := by
    simp only [srCarry, srNewWu, update_of_ne hne.symm, update_self]
  refine ⟨?_, ?_, h.perm.append_right [wuC], ?_, ?_, ?_, ?_⟩
  · intro p hp
    rw [hother p (hmem p hp)]
    refine (h.linked p hp).congr fun x hx => hother x (hmem' x ?_)
    exact h.perm.subset (mem_flatMap.2 ⟨p, hp, hx⟩)
  · rw [hself]
    exact ⟨rfl, hcarried⟩
  · show (sd.pendq ++ (sd.defq ++ [wuC])).Nodup
    have hperm : (wuC :: (sd.pendq ++ sd.defq)).Perm (sd.pendq ++ (sd.defq ++ [wuC])) := by
      rw [← append_assoc]
      exact (perm_append_singleton wuC _).symm
    refine hperm.nodup (nodup_cons.2 ⟨?_, h.nodup⟩)
    intro hin
    rcases mem_append.1 hin with hin | hin
    · exact hwuC.1 hin
    · exact hwuC.2 hin
  · refine ⟨hwu.1, fun hin => ?_⟩
    rcases mem_append.1 hin with hin | hin
    · exact hwu.2 hin
    · exact hne (mem_singleton.1 hin)
  · intro w hw
    rcases mem_append.1 hw with hin | hin
    · have hw' := hmem' w hin
      simp only [srCarry, srNewWu, update_of_ne hw'.1, update_of_ne hw'.2]
      exact h.deferred w hin
    · rw [mem_singleton.1 hin]
      exact update_self ..
  · simp only [srCarry, srNewWu, update_of_ne hne, update_self]

theorem srScheduleWu_chained (h : Floating sd chain wu tail) :
    ∃ sd' chain', srScheduleWu sd wu = some sd' ∧ Chained sd' chain' ∧ sd'.blocks = sd.blocks ∧
      (sd'.pendq = sd.pendq ∨ sd.colliding wu = none ∧ sd'.pendq = sd.pendq ++ [wu]) := by
  unfold srScheduleWu
  cases hcolliding : sd.colliding wu with
  | none =>
    have hstart : srRaidStartwu sd wu = { sd with pendq := sd.pendq ++ [wu] } := by
      have hnot : ¬ sd.state wu = .deferred := by
        rw [h.inprogress]
        exact SrWuState.noConfusion
      simp only [srRaidStartwu, if_neg hnot]
    refine ⟨_, update chain wu tail, rfl, ?_, ?_, .inr ⟨rfl, ?_⟩⟩
    · rw [hstart]
      exact h.started
    · rw [hstart]
    · rw [hstart]
  | some wup =>
    have hwup : wup ∈ sd.pendq := by
      unfold SrDiscipline.colliding at hcolliding
      exact mem_reverse.1 (mem_of_find?_eq_some hcolliding)
    have hlength : (chain wup).length < sd.defq.length + 1 := by
      have hsub : (chain wup).length ≤ (sd.pendq.flatMap chain ++ tail).length := by
        obtain ⟨pre, post, hpend⟩ := append_of_mem hwup
        rw [hpend, flatMap_append, flatMap_cons]
        simp only [length_append]
        omega
      rw [h.perm.length_eq] at hsub
      omega
    obtain ⟨l, last, hsplit, hlast⟩ := lastCollider_chain (chain wup) (h.linked wup hwup) hlength
    dsimp only
    rw [hlast]
    exact ⟨_, _, rfl, h.deferred_behind hwup hsplit, rfl, .inl rfl⟩

/-- `sr_wu_done_callback` takes the work unit off, and starts its collider. -/
theorem srWuDoneCallback_chained (h : Chained sd chain) (hwu : wu ∈ sd.pendq) :
    ∃ chain', Chained (srWuDoneCallback sd wu) chain' ∧ (srWuDoneCallback sd wu).blocks = sd.blocks ∧
      (srWuDoneCallback sd wu).pendq = sd.pendq.erase wu ++ (sd.collider wu).toList := by
  have hlinked := h.linked wu hwu
  have hperm : (chain wu ++ (sd.pendq.erase wu).flatMap chain).Perm sd.defq := by
    have hflat := (perm_cons_erase hwu).flatMap_right chain
    rw [flatMap_cons] at hflat
    exact hflat.symm.trans h.perm
  have hnodup : (sd.pendq.erase wu ++ sd.defq).Nodup :=
    h.nodup.sublist (erase_sublist.append_right sd.defq)
  have hlinked' : ∀ p ∈ sd.pendq.erase wu, LinkedList sd.collider (sd.collider p) (chain p) :=
    fun p hp => h.linked p (mem_of_mem_erase hp)
  unfold srWuDoneCallback
  cases hchain : chain wu with
  | nil =>
    rw [hchain] at hlinked hperm
    have hnone : sd.collider wu = none := hlinked
    dsimp only
    rw [hnone]
    refine ⟨chain, ⟨hlinked', hperm, hnodup, h.deferred⟩, rfl, ?_⟩
    exact (append_nil _).symm
  | cons wuC rest =>
    rw [hchain] at hlinked hperm
    have hsome : sd.collider wu = some wuC := hlinked.1
    have hin : wuC ∈ sd.defq := hperm.subset mem_cons_self
    have hnotpend : wuC ∉ sd.pendq := fun hp =>
      (nodup_append.1 h.nodup).2.2 wuC hp wuC hin rfl
    have hdefq : sd.defq.Nodup := (nodup_append.1 h.nodup).2.1
    dsimp only
    rw [hsome]
    have hfloating : Floating { sd with
          pendq := sd.pendq.erase wu
          defq := sd.defq.erase wuC
          state := update sd.state wuC .inprogress } chain wuC rest := by
      refine ⟨hlinked', hlinked.2, ?_, ?_, ⟨?_, hdefq.not_mem_erase⟩, ?_, update_self ..⟩
      · show ((sd.pendq.erase wu).flatMap chain ++ rest).Perm (sd.defq.erase wuC)
        have herase := hperm.erase wuC
        rw [cons_append, erase_cons_head] at herase
        exact perm_append_comm.trans herase
      · exact hnodup.sublist (erase_sublist.append_left _)
      · exact fun hp => hnotpend (mem_of_mem_erase hp)
      · intro w hw
        have hne := (hdefq.mem_erase_iff.1 hw).1
        show update sd.state wuC .inprogress w = .deferred
        rw [update_of_ne hne]
        exact h.deferred w (mem_of_mem_erase hw)
    have hstart : srRaidStartwu { sd with pendq := sd.pendq.erase wu } wuC = { sd with
          pendq := sd.pendq.erase wu ++ [wuC]
          defq := sd.defq.erase wuC
          state := update sd.state wuC .inprogress } := by
      have hdeferred : sd.state wuC = .deferred := h.deferred wuC hin
      simp only [srRaidStartwu, if_pos hdeferred]
    dsimp only
    rw [hstart]
    exact ⟨_, hfloating.started, rfl, rfl⟩

/-! ## Runs -/

/-- No two pending work units have a block in common. -/
def SrDisjoint (sd : SrDiscipline) : Prop :=
  sd.pendq.Pairwise fun a b => ∀ x, (sd.blocks a).Has x → ¬ (sd.blocks b).Has x

theorem collides_eq_false {a b : SrBlocks} (h : a.collides b = false) (x : Int) : a.Has x → ¬ b.Has x := by
  intro ha hb
  unfold SrBlocks.collides at h
  unfold SrBlocks.Has at ha hb
  rw [Bool.not_eq_false', Bool.or_eq_true, decide_eq_true_iff, decide_eq_true_iff] at h
  omega

theorem collides_eq_true {a b : SrBlocks} (h : a.collides b = true) : ∃ x, a.Has x ∧ b.Has x := by
  unfold SrBlocks.collides at h
  rw [Bool.not_eq_true', Bool.or_eq_false_iff, decide_eq_false_iff_not, decide_eq_false_iff_not] at h
  have ha := a.le
  have hb := b.le
  unfold SrBlocks.Has
  by_cases hle : a.blkStart ≤ b.blkStart
  · exact ⟨b.blkStart, by omega⟩
  · exact ⟨a.blkStart, by omega⟩

theorem srDisjoint_append {pendq : List Nat} {blocks : Nat → SrBlocks}
    (h : pendq.Pairwise fun a b => ∀ x, (blocks a).Has x → ¬ (blocks b).Has x) (wu : Nat)
    (hwu : ∀ wup ∈ pendq, (blocks wu).collides (blocks wup) = false) :
    (pendq ++ [wu]).Pairwise fun a b => ∀ x, (blocks a).Has x → ¬ (blocks b).Has x := by
  refine pairwise_append.2 ⟨h, pairwise_singleton _ _, ?_⟩
  intro wup hwup b hb x hx hx'
  rw [mem_singleton.1 hb] at hx'
  exact collides_eq_false (hwu wup hwup) x hx' hx

/-- The collider that the end of a work unit starts collides with no other pending work unit. -/
def ColliderClear (sd : SrDiscipline) : SrStep → Prop
  | .done wu => ∀ wuC, sd.collider wu = some wuC → ∀ wup ∈ sd.pendq, wup ≠ wu →
      (sd.blocks wuC).collides (sd.blocks wup) = false
  | _ => True

theorem newWu_disjoint (h : SrDisjoint sd) (b : SrBlocks) (hwu : wu ∉ sd.pendq) :
    SrDisjoint (srNewWu sd wu b) := by
  refine List.Pairwise.imp_of_mem ?_ h
  intro p q hp hq hpq x hx hx'
  have hp' : p ≠ wu := fun heq => hwu (heq ▸ hp)
  have hq' : q ≠ wu := fun heq => hwu (heq ▸ hq)
  simp only [srNewWu, update_of_ne hp', update_of_ne hq'] at hx hx'
  exact hpq x hx hx'

variable {sd' : SrDiscipline}

theorem scheduled_disjoint (h : SrDisjoint sd) (hblocks : sd'.blocks = sd.blocks)
    (hpendq : sd'.pendq = sd.pendq ∨ sd.colliding wu = none ∧ sd'.pendq = sd.pendq ++ [wu]) : SrDisjoint sd' := by
  unfold SrDisjoint
  rw [hblocks]
  rcases hpendq with hsame | ⟨hnone, hstarted⟩
  · rw [hsame]
    exact h
  · rw [hstarted]
    apply srDisjoint_append h
    intro wup hwup
    have hfind := find?_eq_none.1 hnone wup (mem_reverse.2 hwup)
    exact Bool.eq_false_iff.2 hfind

/-- One step keeps the chains; it keeps the pending work units apart exactly when it starts no collider
that collides. -/
theorem srStep_chained {e : SrStep} (h : Chained sd chain) (hstep : srStep sd e = some sd') :
    ∃ chain', Chained sd' chain' ∧ (SrDisjoint sd → (ColliderClear sd e ↔ SrDisjoint sd')) := by
  cases e with
  | schedule wu b =>
    rw [srStep] at hstep
    split at hstep
    next hunused =>
      obtain ⟨sd'', chain', hsome, hchained, hblocks, hpendq⟩ := srScheduleWu_chained (h.newWu hunused b)
      rw [hsome] at hstep
      cases hstep
      refine ⟨chain', hchained, fun hdisjoint => ⟨fun _ => ?_, fun _ => trivial⟩⟩
      exact scheduled_disjoint (newWu_disjoint hdisjoint b hunused.1) hblocks hpendq
    next => cases hstep
  | scheduleCarrying wu wuC b =>
    rw [srStep] at hstep
    split at hstep
    next hunused =>
      obtain ⟨hwu, hwuC, hne⟩ := hunused
      obtain ⟨sd'', chain', hsome, hchained, hblocks, hpendq⟩ :=
        srScheduleWu_chained (h.carrying hwu hwuC hne b)
      rw [hsome] at hstep
      cases hstep
      refine ⟨chain', hchained, fun hdisjoint => ⟨fun _ => ?_, fun _ => trivial⟩⟩
      exact scheduled_disjoint (newWu_disjoint (newWu_disjoint hdisjoint b hwuC.1) b hwu.1) hblocks hpendq
    next => cases hstep
  | done wu =>
    rw [srStep] at hstep
    split at hstep
    next hwu =>
      cases hstep
      obtain ⟨chain', hchained, hblocks, hpendq⟩ := srWuDoneCallback_chained h hwu
      have hpendnodup : sd.pendq.Nodup := (nodup_append.1 h.nodup).1
      refine ⟨chain', hchained, fun hdisjoint => ?_⟩
      have herase : (sd.pendq.erase wu).Pairwise fun a b => ∀ x, (sd.blocks a).Has x → ¬ (sd.blocks b).Has x :=
        hdisjoint.sublist erase_sublist
      unfold SrDisjoint
      rw [hblocks, hpendq]
      cases hcollider : sd.collider wu with
      | none =>
        rw [Option.toList_none, append_nil]
        refine ⟨fun _ => herase, fun _ wuC hsome => ?_⟩
        rw [hcollider] at hsome
        cases hsome
      | some wuC =>
        rw [Option.toList_some]
        constructor
        · intro hclear
          apply srDisjoint_append herase
          intro wup hwup
          obtain ⟨hne, hin⟩ := hpendnodup.mem_erase_iff.1 hwup
          exact hclear wuC hcollider wup hin hne
        · intro hpairwise wuC' hsome wup hin hne
          rw [hcollider] at hsome
          cases hsome
          by_contra hcollides
          obtain ⟨x, hx, hx'⟩ := collides_eq_true (Bool.not_eq_false _ ▸ hcollides)
          have hwup : wup ∈ sd.pendq.erase wu := hpendnodup.mem_erase_iff.2 ⟨hne, hin⟩
          exact (pairwise_append.1 hpairwise).2.2 wup hwup wuC (mem_singleton_self wuC) x hx' hx
    next => cases hstep

/-- The work unit is on the chain of colliders of another. -/
def OnChain (sd : SrDiscipline) (p w : Nat) : Prop :=
  ∃ l, LinkedList sd.collider (sd.collider p) l ∧ w ∈ l

/-- No two pending work units collide, and every deferred one is on the chain of exactly one that is
pending. -/
structure SrGood (sd : SrDiscipline) : Prop where
  disjoint : SrDisjoint sd
  chained : ∀ w ∈ sd.defq, ∃! p, p ∈ sd.pendq ∧ OnChain sd p w
  nodup : (sd.pendq ++ sd.defq).Nodup

theorem Chained.exists_unique (h : Chained sd chain) : ∀ w ∈ sd.defq, ∃! p, p ∈ sd.pendq ∧ OnChain sd p w := by
  intro w hw
  obtain ⟨p, hp, hwp⟩ := mem_flatMap.1 (h.perm.symm.subset hw)
  refine ⟨p, ⟨hp, chain p, h.linked p hp, hwp⟩, ?_⟩
  rintro q ⟨hq, l, hl, hwl⟩
  rw [hl.unique (h.linked q hq)] at hwl
  by_contra hne
  have hnodup : (sd.pendq.flatMap chain).Nodup := h.perm.symm.nodup (nodup_append.1 h.nodup).2.1
  exact notMem_of_flatMap_nodup hnodup hp hq hne hwp hwl

theorem Chained.good (h : Chained sd chain) (hdisjoint : SrDisjoint sd) : SrGood sd :=
  ⟨hdisjoint, h.exists_unique, h.nodup⟩

theorem chained_init : Chained srInit fun _ => [] := by
  refine ⟨?_, List.Perm.refl _, nodup_nil, ?_⟩
  all_goals
    intro p hp
    cases hp

/-- In a run that starts no collider while another work unit that it collides with is pending, no two
pending work units collide.  The first step that does so ends that. -/
theorem sr_run_good {es : List SrStep} {sd : SrDiscipline} (hrun : Run srStep ColliderClear srInit es sd) :
    SrGood sd ∧ ∀ e sd', srStep sd e = some sd' → (ColliderClear sd e ↔ SrGood sd') := by
  have hstep : ∀ sd e sd', (∃ chain, Chained sd chain) ∧ SrDisjoint sd → ColliderClear sd e →
      srStep sd e = some sd' → (∃ chain, Chained sd' chain) ∧ SrDisjoint sd' := by
    rintro sd e sd' ⟨⟨chain, h⟩, hdisjoint⟩ hclear hstep
    obtain ⟨chain', h', hiff⟩ := srStep_chained h hstep
    exact ⟨⟨chain', h'⟩, (hiff hdisjoint).1 hclear⟩
  obtain ⟨⟨chain, h⟩, hdisjoint⟩ := hrun.invariant hstep ⟨⟨_, chained_init⟩, List.Pairwise.nil⟩
  refine ⟨h.good hdisjoint, fun e sd' hnext => ?_⟩
  obtain ⟨chain', h', hiff⟩ := srStep_chained h hnext
  rw [hiff hdisjoint]
  exact ⟨fun hdisjoint' => h'.good hdisjoint', SrGood.disjoint⟩

theorem colliderClear_lone (h : sd.pendq = [wu]) : ColliderClear sd (.done wu) := by
  intro wuC _ wup hwup hne
  rw [h] at hwup
  exact absurd (mem_singleton.1 hwup) hne

/-- A write behind its reads, and a read that collides with both. -/
theorem sr_run_good_chain :
    ∃ sd, Run srStep ColliderClear srInit
      [.scheduleCarrying 1 2 ⟨0, 7, by decide⟩, .schedule 3 ⟨4, 5, by decide⟩, .done 1, .done 2] sd ∧
      sd.pendq = [3] ∧ SrGood sd := by
  have hrun : Run srStep ColliderClear srInit
      [.scheduleCarrying 1 2 ⟨0, 7, by decide⟩, .schedule 3 ⟨4, 5, by decide⟩, .done 1, .done 2] _ :=
    .cons trivial rfl (.cons trivial rfl (.cons (colliderClear_lone rfl) rfl
      (.cons (colliderClear_lone rfl) rfl (.nil _))))
  exact ⟨_, hrun, rfl, (sr_run_good hrun).1⟩

/-- Work unit 3 collides with 1 and 2 and waits for 2 only: it runs together with 1. -/
theorem collider_runs_with_pending :
    ∃ sd, Run srStep (fun _ _ => True) srInit
      [.schedule 1 ⟨0, 5, by decide⟩, .schedule 2 ⟨6, 10, by decide⟩, .schedule 3 ⟨4, 7, by decide⟩, .done 2] sd ∧
      sd.pendq = [1, 3] ∧ (sd.blocks 1).Has 4 ∧ (sd.blocks 3).Has 4 ∧ ¬ SrGood sd := by
  have hrun : Run srStep (fun _ _ => True) srInit
      [.schedule 1 ⟨0, 5, by decide⟩, .schedule 2 ⟨6, 10, by decide⟩, .schedule 3 ⟨4, 7, by decide⟩, .done 2] _ :=
    .cons trivial rfl (.cons trivial rfl (.cons trivial rfl (.cons trivial rfl (.nil _))))
  have hfirst : (⟨0, 5, by decide⟩ : SrBlocks).Has 4 := by
    constructor <;> decide
  have hthird : (⟨4, 7, by decide⟩ : SrBlocks).Has 4 := by
    constructor <;> decide
  refine ⟨_, hrun, rfl, hfirst, hthird, ?_⟩
  intro hgood
  exact (pairwise_cons.1 hgood.disjoint).1 3 (mem_singleton_self 3) 4 hfirst hthird

theorem srWuDoneCallback_perm (h : Chained sd chain) (hwu : wu ∈ sd.pendq) :
    (wu :: ((srWuDoneCallback sd wu).pendq ++ (srWuDoneCallback sd wu).defq)).Perm
      (sd.pendq ++ sd.defq) := by
  have hpend := (perm_cons_erase hwu).symm
  cases hcollider : sd.collider wu with
  | none =>
    simp only [srWuDoneCallback, hcollider]
    exact hpend.append_right sd.defq
  | some wuC =>
    have hchain : wuC ∈ chain wu := by
      have hhead := (h.linked wu hwu).eq_head?
      rw [hcollider] at hhead
      exact mem_of_head? hhead.symm
    have hdef : wuC ∈ sd.defq := h.perm.subset (mem_flatMap.2 ⟨wu, hwu, hchain⟩)
    simp only [srWuDoneCallback, hcollider, srRaidStartwu, if_pos (h.deferred wuC hdef)]
    rw [append_assoc, singleton_append, ← cons_append]
    exact hpend.append (perm_cons_erase hdef).symm

/-- Also where a work unit starts beside one that it collides with: whichever way the pending ones
are completed, each work unit of the two queues has been completed once when none is pending. -/
theorem sr_done_each_once {es : List SrStep} (hrun : Run srStep (fun _ _ => True) srInit es sd)
    {ws : List Nat} (hdone : Run srStep (fun _ _ => True) sd (ws.map .done) sd') :
    (ws ++ (sd'.pendq ++ sd'.defq)).Perm (sd.pendq ++ sd.defq) ∧ (sd'.pendq = [] → sd'.defq = []) := by
  obtain ⟨chain, h⟩ := @Run.invariant _ _ _ _ (fun sd => ∃ chain, Chained sd chain)
    (fun _ _ _ ⟨_, h⟩ _ hstep => (srStep_chained h hstep).imp fun _ h' => h'.1) _ _ _ hrun
    ⟨_, chained_init⟩
  clear hrun
  induction ws generalizing sd chain with
  | nil =>
    cases hdone
    refine ⟨.refl _, fun hnil => ?_⟩
    have hperm := h.perm
    rw [hnil] at hperm
    exact hperm.nil_eq.symm
  | cons wu ws ih =>
    cases hdone with
    | cons _ hstep hrest =>
      obtain ⟨chain', h', -⟩ := srStep_chained h hstep
      obtain ⟨hperm, hnil⟩ := ih hrest chain' h'
      rw [srStep] at hstep
      split at hstep
      next hwu =>
        cases hstep
        exact ⟨(hperm.cons wu).trans (srWuDoneCallback_perm h hwu), hnil⟩
      next => cases hstep

theorem sr_done_each_once_chain :
    ∃ sd sd', Run srStep (fun _ _ => True) sd ([1, 2, 3].map .done) sd' ∧
      ([1, 2, 3] ++ (sd'.pendq ++ sd'.defq)).Perm (sd.pendq ++ sd.defq) := by
  obtain ⟨sd, hrun, sd', hdone⟩ : ∃ sd, Run srStep (fun _ _ => True) srInit
      [.scheduleCarrying 1 2 ⟨0, 7, by decide⟩, .schedule 3 ⟨4, 5, by decide⟩] sd ∧
      ∃ sd', Run srStep (fun _ _ => True) sd ([1, 2, 3].map .done) sd' :=
    ⟨_, .cons trivial rfl (.cons trivial rfl (.nil _)), _,
      .cons trivial rfl (.cons trivial rfl (.cons trivial rfl (.nil _)))⟩
  exact ⟨sd, sd', hdone, (sr_done_each_once hrun hdone).1⟩

end OpenBsd.Dev
