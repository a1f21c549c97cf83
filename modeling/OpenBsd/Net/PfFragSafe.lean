/-
  OpenBsd.Net.PfFragSafe

  The queue of a key holds pieces of the datagram, and only its last entry may end it.
-/

import OpenBsd.Net.PfFrag

namespace OpenBsd.Net

open OpenBsd.Lib OpenBsd.Netinet List

variable {got : Nat → UInt8 → Prop}

variable {a : Nat} {e frent : PfFrent} {d : List UInt8} {q : List PfFrent}

def PfFrent.payload (e : PfFrent) : List UInt8 := (e.feM.drop e.feHdrlen).take e.feLen

/-- The entry is the piece `d` at the offset `a`. -/
structure PfFrent.At (a : Nat) (e : PfFrent) (d : List UInt8) : Prop where
  off : e.feOff = a
  len : e.feLen = d.length
  payload : e.payload = d
  whole : e.Whole
  pos : 0 < d.length

theorem PfFrent.At.stop (h : e.At a d) : e.stop = a + d.length := by
  rw [PfFrent.stop, h.off, h.len]

theorem PfFrent.Whole.at_self (h : e.Whole) (hpos : 0 < e.feLen) : e.At e.feOff e.payload := by
  have hlen : e.payload.length = e.feLen := by
    unfold PfFrent.Whole at h
    rw [PfFrent.payload, length_take, length_drop]
    omega
  exact ⟨rfl, hlen.symm, rfl, h, by omega⟩

theorem PfFrent.At.cut {n : Nat} (h : e.At a d) (hn : n < d.length)
    (ha : a + d.length ≤ ipMaxpacket) : (e.cut n).At (a + n) (d.drop n) := by
  have hlen := h.len
  have hwhole := h.whole
  unfold PfFrent.Whole at hwhole
  simp only [ipMaxpacket] at ha
  have hadj : mAdj e.feM n = e.feM.drop n := by
    rw [mAdj, if_pos (by omega), Int.toNat_natCast]
  refine ⟨?_, ?_, ?_, ?_, ?_⟩
  · simp only [PfFrent.cut, h.off]
    omega
  · simp only [PfFrent.cut, length_drop, h.len]
  · rw [← h.payload]
    simp only [PfFrent.payload, PfFrent.cut, hadj, drop_take, List.drop_drop]
    rw [Nat.add_comm n]
  · simp only [PfFrent.Whole, PfFrent.cut, hadj, length_drop]
    omega
  · rw [length_drop]
    omega

theorem PfFrent.cut_stop {n : Nat} (hn : n ≤ e.feLen) (hstop : e.stop ≤ ipMaxpacket) :
    (e.cut n).stop = e.stop := by
  simp only [PfFrent.stop, PfFrent.cut, ipMaxpacket] at hstop ⊢
  omega

theorem cutAfter_cons (es : List PfFrent) (he : e.At a d) (hend : a + d.length ≤ ipMaxpacket)
    (hstop : frent.stop ≤ ipMaxpacket) :
    cutAfter frent (e :: es) =
      if frent.stop ≤ a then e :: es
      else if frent.stop < a + d.length then e.cut (frent.stop - a) :: es else cutAfter frent es := by
  simp only [ipMaxpacket] at hend hstop
  have hmod : (frent.stop - a) % 2 ^ 16 = frent.stop - a := Nat.mod_eq_of_lt (by omega)
  rw [cutAfter, he.off, he.len]
  dsimp only
  rw [hmod]
  by_cases h : frent.stop ≤ a
  · rw [if_pos h, if_neg (by omega)]
  · rw [if_neg h, if_pos (by omega)]
    by_cases h' : frent.stop < a + d.length
    · rw [if_pos h', if_pos (by omega)]
    · rw [if_neg h', if_neg (by omega)]

/-! ## The queue -/

/-- Entries that follow each other, each with another behind it marked as such. -/
structure FragOk (got : Nat → UInt8 → Prop) (q : List PfFrent) : Prop where
  ne : q ≠ []
  pieces : Pieces PfFrent.At got 0 ipMaxpacket q
  mff : q.Pairwise fun e _ => e.feMff = true

theorem cutAfter_spec {lo T : Nat} {l : List PfFrent} (h : Pieces PfFrent.At got lo ipMaxpacket l)
    (hf : frent.At T d) (hcame : Came got T d) (hstop : frent.stop ≤ ipMaxpacket) :
    Pieces PfFrent.At got T ipMaxpacket (frent :: cutAfter frent l) := by
  have hrest := h.cut_behind (c := PfFrent.cut)
    (fun a e d es hat _ had => cutAfter_cons es hat had hstop) rfl ?_ hstop
  · rw [hf.stop] at hrest
    exact ⟨T, d, Nat.le_refl T, hf, hcame, hrest⟩
  · intro a e d' hat _ had haE hEd
    have hcut := hat.cut (n := frent.stop - a) (by omega) had
    have hplace : a + (frent.stop - a) = frent.stop := by omega
    rwa [hplace] at hcut

theorem badEnd_false {last : PfFrent} (h : badEnd last frent = false)
    (hlast : last.stop ≤ ipMaxpacket) :
    (frent.stop < last.stop → frent.feMff = true) ∧
      (last.feMff = false → frent.stop ≤ last.stop ∧ (frent.stop = last.stop → frent.feMff = false)) := by
  have htotal : last.stop % 2 ^ 16 = last.stop := by
    simp only [ipMaxpacket] at hlast
    exact Nat.mod_eq_of_lt (by omega)
  rw [badEnd, htotal] at h
  cases hl : last.feMff <;> cases hf : frent.feMff <;> simp [hl, hf] at h ⊢ <;> omega

theorem FragOk.last {q : List PfFrent} {last : PfFrent} (h : FragOk got q)
    (hlast : q.getLast? = some last) :
    last ∈ q ∧ last.stop ≤ ipMaxpacket ∧ (last.feMff = true → ∀ e ∈ q, e.feMff = true) := by
  obtain ⟨ys, rfl⟩ := getLast?_eq_some_iff.1 hlast
  have hmem : last ∈ ys ++ [last] := mem_append_right ys mem_cons_self
  obtain ⟨a, d, -, hend, hat, -⟩ := h.pieces.mem hmem
  refine ⟨hmem, by rw [hat.stop]; exact hend, ?_⟩
  intro hmff e he
  rcases mem_append.1 he with he | he
  · exact (pairwise_append.1 h.mff).2.2 e he last mem_cons_self
  · rw [mem_singleton.1 he]
    exact hmff

variable {after before : List PfFrent}

/-- An entry put between those before its offset and what it leaves of those behind. -/
theorem FragOk.insert {last frent' : PfFrent} {lo T : Nat}
    (hq : FragOk got q) (hsplit : q = before ++ after) (hlast : q.getLast? = some last)
    (hbad : badEnd last frent = false) (hbefore : Pieces PfFrent.At got 0 T before)
    (hafter : Pieces PfFrent.At got lo ipMaxpacket after) (hlo : lo ≤ T) (hf : frent'.At T d)
    (hcame : Came got T d) (hstop : frent'.stop = frent.stop) (hmff : frent'.feMff = frent.feMff)
    (hmax : frent.stop ≤ ipMaxpacket) :
    FragOk got (before ++ frent' :: cutAfter frent' after) ∧
      (last.feMff = false → ∃ last', (before ++ frent' :: cutAfter frent' after).getLast? = some last' ∧
        last'.feMff = false ∧ last'.stop = last.stop) := by
  have hne : before ++ frent' :: cutAfter frent' after ≠ [] := by simp
  have hpieces : Pieces PfFrent.At got 0 ipMaxpacket (before ++ frent' :: cutAfter frent' after) :=
    pieces_append.2 ⟨T, hbefore, cutAfter_spec hafter hf hcame (by rw [hstop]; exact hmax)⟩
  obtain ⟨hmem, hlaststop, hall⟩ := hq.last hlast
  obtain ⟨hmore, hfixed⟩ := badEnd_false hbad hlaststop
  have hTE : T < frent.stop := by
    rw [← hstop, hf.stop]
    have := hf.pos
    omega
  have hmffs := hq.mff
  rw [hsplit] at hmffs
  obtain ⟨hmffb, hmffa, hmffba⟩ := pairwise_append.1 hmffs
  rcases hafter.cut (c := PfFrent.cut)
    (fun a e d es hat _ had => cutAfter_cons es hat had (by rw [hstop]; exact hmax)) []
    with ⟨hnil, hcovered⟩ | ⟨pre, e, rest, a, d', hsplit', -, hat, -, hrest, hfound⟩
  · -- nothing is left behind the fragment
    rw [append_nil, cutAfter] at hnil
    rw [hnil] at hne hpieces ⊢
    rcases eq_nil_or_concat after with rfl | ⟨init, e, rfl⟩
    · -- the last entry was in front of it
      rw [append_nil] at hsplit
      subst hsplit
      obtain ⟨a, d', -, hend, hat, -⟩ := hbefore.mem hmem
      have hlastmff : last.feMff = true := by
        by_contra hno
        have := hfixed (by simpa using hno)
        rw [hat.stop] at this
        omega
      refine ⟨⟨hne, hpieces, pairwise_append.2 ⟨hmffb, pairwise_singleton _ _, ?_⟩⟩, ?_⟩
      · exact fun e he _ _ => hall hlastmff e he
      · intro hno
        rw [hlastmff] at hno
        cases hno
    · -- the last entry was covered
      rw [concat_eq_append] at hsplit hcovered hmffba
      have hlast' : e = last := by
        rw [hsplit, ← append_assoc, getLast?_concat] at hlast
        exact Option.some.inj hlast
      subst hlast'
      have hin : e ∈ init ++ [e] := mem_append_right init mem_cons_self
      obtain ⟨a, d', -, hend, hat, -⟩ := hcovered.mem hin
      refine ⟨⟨hne, hpieces, pairwise_append.2 ⟨hmffb, pairwise_singleton _ _, ?_⟩⟩, ?_⟩
      · exact fun e' he' _ _ => hmffba e' he' e hin
      · intro hno
        obtain ⟨hle, hsame⟩ := hfixed hno
        have heq : frent.stop = e.stop := by
          rw [hat.stop] at hle ⊢
          omega
        refine ⟨frent', getLast?_concat, ?_, hstop.trans heq⟩
        rw [hmff]
        exact hsame heq
  · -- an entry ends behind the fragment, and with it the last one
    have hmaxe := hrest.le
    have hleft : ∃ e', cutAfter frent' after = e' :: rest ∧ e'.feMff = e.feMff ∧ e'.stop = e.stop ∧
        frent.stop < e.stop := by
      have hpos := hat.pos
      rw [hstop, append_nil, append_nil, append_nil] at hfound
      rcases hfound with ⟨ha, hcut⟩ | ⟨ha, had, hcut⟩
      · exact ⟨e, hcut, rfl, rfl, by rw [hat.stop]; omega⟩
      · refine ⟨_, hcut, rfl, PfFrent.cut_stop ?_ (by rw [hat.stop]; exact hmaxe), ?_⟩
        · rw [hat.len]
          omega
        · rw [hat.stop]
          exact had
    obtain ⟨e', hcut, hmff', hstop', hbehind⟩ := hleft
    rw [hcut] at hne hpieces ⊢
    subst hsplit'
    have htail : ∀ x : PfFrent, (before ++ frent' :: x :: rest).getLast? = (x :: rest).getLast? := by
      intro x
      rw [getLast?_append_of_ne_nil _ (cons_ne_nil _ _), getLast?_cons_cons]
    have hlast' : (e :: rest).getLast? = some last := by
      rw [hsplit, getLast?_append_of_ne_nil _ (by simp),
        getLast?_append_of_ne_nil _ (cons_ne_nil _ _)] at hlast
      exact hlast
    -- the last entry is this one or behind it
    have hkept : ∃ last', (e' :: rest).getLast? = some last' ∧ last'.feMff = last.feMff ∧
        last'.stop = last.stop ∧ frent.stop < last.stop := by
      cases rest with
      | nil =>
        cases hlast'
        exact ⟨e', rfl, hmff', hstop', hbehind⟩
      | cons r rs =>
        rw [getLast?_cons_cons] at hlast' ⊢
        refine ⟨last, hlast', rfl, rfl, ?_⟩
        obtain ⟨a', d'', hle, -, hat', -⟩ := hrest.mem (mem_of_getLast? hlast')
        rw [hat.stop] at hbehind
        rw [hat'.stop]
        omega
    obtain ⟨last', hlaste, hlastmff, hlaststop', hlt⟩ := hkept
    obtain ⟨-, hmffe, -⟩ := pairwise_append.1 hmffa
    refine ⟨⟨hne, hpieces, ?_⟩, ?_⟩
    · refine pairwise_append.2 ⟨hmffb, pairwise_cons.2 ⟨?_, ?_⟩, ?_⟩
      · exact fun _ _ => hmff.trans (hmore hlt)
      · refine pairwise_cons.2 ⟨fun x hx => ?_, (pairwise_cons.1 hmffe).2⟩
        rw [hmff']
        exact (pairwise_cons.1 hmffe).1 x hx
      · intro x hx _ _
        exact hmffba x hx e (mem_append_right pre mem_cons_self)
    · intro hno
      exact ⟨last', (htail e').trans hlaste, hlastmff.trans hno, hlaststop'⟩

/-- A queue that has the end of the datagram keeps it. -/
def KeepsTotal (q q' : List PfFrent) : Prop :=
  ∀ last, q.getLast? = some last → last.feMff = false →
    ∃ last', q'.getLast? = some last' ∧ last'.feMff = false ∧ last'.stop = last.stop

/-- What `pf_fillup_fragment` may make of a queue.  Its first entry is one as it came. -/
structure Refilled (got : Nat → UInt8 → Prop) (frent : PfFrent) (q q' : List PfFrent) : Prop where
  ok : FragOk got q'
  total : KeepsTotal q q'
  first : q'.head? = q.head? ∨ q'.head? = some frent

theorem Refilled.refl (h : FragOk got q) :
    Refilled got frent q q := ⟨h, fun last hlast hmff => ⟨last, hlast, hmff, rfl⟩, .inl rfl⟩

theorem insertAfter_filled {frAf : PfAf} {q' : List PfFrent}
    (h : insertFrent.insertAfter frAf before after frent = .filled q') :
    q' = before ++ frent :: cutAfter frent after := by
  unfold insertFrent.insertAfter at h
  split at h
  · cases h
  · cases h
    rfl

theorem insertAfter_freed {frAf : PfAf}
    (h : insertFrent.insertAfter frAf before after frent = .freed) : frAf = .inet6 := by
  unfold insertFrent.insertAfter at h
  split at h
  · rename_i hfree
    exact hfree.1
  · cases h

theorem insertFrent_spec {frAf : PfAf} {q : List PfFrent} {last frent : PfFrent}
    (hq : FragOk got q) (hlast : q.getLast? = some last) (hbad : badEnd last frent = false)
    (hwhole : frent.Whole) (hpos : 0 < frent.feLen) (hmax : frent.stop ≤ ipMaxpacket)
    (hcame : Came got frent.feOff frent.payload) :
    (∀ q', insertFrent frAf (q.takeWhile fun e => !decide (e.feOff > frent.feOff))
        (q.dropWhile fun e => !decide (e.feOff > frent.feOff)) frent = .filled q' →
      Refilled got frent q q') ∧
    (insertFrent frAf (q.takeWhile fun e => !decide (e.feOff > frent.feOff))
        (q.dropWhile fun e => !decide (e.feOff > frent.feOff)) frent = .freed → frAf = .inet6) := by
  have hself := hwhole.at_self hpos
  have hT : frent.feOff ≤ ipMaxpacket := by
    unfold PfFrent.stop at hmax
    omega
  have hsearch := hq.pieces.split (p := fun e => !decide (e.feOff > frent.feOff)) hT fun a e d hat _ _ => by
    simp only [hat.off, Bool.not_eq_true', decide_eq_false_iff_not, gt_iff_lt, Nat.not_lt]
  have hwhat := (takeWhile_append_dropWhile (p := fun e : PfFrent => !decide (e.feOff > frent.feOff))
    (l := q)).symm
  generalize q.takeWhile (fun e => !decide (e.feOff > frent.feOff)) = before at hsearch hwhat ⊢
  generalize q.dropWhile (fun e => !decide (e.feOff > frent.feOff)) = after at hsearch hwhat ⊢
  rcases hsearch with ⟨hnil, hall, hrest⟩ | ⟨b, prev, a, d, hbefore, hb, ha, hat, hcame', hrest⟩
  · subst hnil
    subst hall
    refine ⟨fun q' hfill => ?_, insertAfter_freed⟩
    rw [insertAfter_filled hfill]
    obtain ⟨hok, htotal⟩ := hq.insert hwhat hlast hbad (Nat.zero_le _) hrest (by omega) hself hcame rfl
      rfl hmax
    exact ⟨hok, fun last' hlast' => by cases hlast.symm.trans hlast'; exact htotal, .inr rfl⟩
  · have hprev : Pieces PfFrent.At got 0 (a + d.length) before := by
      rw [hbefore]
      exact pieces_append.2 ⟨a, hb, a, d, Nat.le_refl a, hat, hcame', Nat.le_refl _⟩
    have hhead : ∀ l, (before ++ l).head? = q.head? := by
      intro l
      rw [hwhat, hbefore]
      cases b <;> rfl
    -- the fragment, or what is left of it, behind the entry before it
    have hplaced : ∀ {frent' : PfFrent} {T : Nat} {d' : List UInt8} {q' : List PfFrent},
        insertFrent.insertAfter frAf before after frent' = .filled q' → frent'.At T d' →
        Came got T d' → frent.feOff ≤ T → a + d.length ≤ T → frent'.stop = frent.stop →
        frent'.feMff = frent.feMff → Refilled got frent q q' := by
      intro frent' T d' q' hfill hat' hcame'' hle hle' hstop hmff
      rw [insertAfter_filled hfill]
      obtain ⟨hok, htotal⟩ := hq.insert hwhat hlast hbad
        (hprev.mono (Nat.le_refl 0) hle' fun _ _ => id) hrest (by omega) hat' hcame'' hstop hmff hmax
      exact ⟨hok, fun last' hlast' => by cases hlast.symm.trans hlast'; exact htotal, .inl (hhead _)⟩
    rw [insertFrent, hbefore, getLast?_concat, ← hbefore]
    dsimp only
    by_cases hover : prev.stop > frent.feOff
    · rw [if_pos hover]
      by_cases hv6 : frAf = .inet6
      · rw [if_pos hv6]
        exact ⟨fun q' h => (by cases h), fun _ => hv6⟩
      · rw [if_neg hv6]
        rw [hat.stop] at hover
        have hle := hrest.le
        have hmod : (prev.stop - frent.feOff) % 2 ^ 16 = a + d.length - frent.feOff := by
          rw [hat.stop]
          simp only [ipMaxpacket] at hle
          exact Nat.mod_eq_of_lt (by omega)
        rw [hmod]
        split
        · exact ⟨fun q' h => (by cases h), fun h => (by cases h)⟩
        · rename_i hlen
          have hcut := hself.cut (n := a + d.length - frent.feOff) (by rw [← hself.len]; omega)
            (by rw [← hself.stop]; exact hmax)
          have hdrop := hcame.drop (a + d.length - frent.feOff)
          refine ⟨fun q' hfill => hplaced hfill hcut hdrop (by omega) (by omega) ?_ rfl, insertAfter_freed⟩
          exact PfFrent.cut_stop (by omega) hmax
    · rw [if_neg hover]
      rw [hat.stop] at hover
      exact ⟨fun q' hfill => hplaced hfill hself hcame (Nat.le_refl _) (by omega) rfl rfl,
        insertAfter_freed⟩

/-- `pf_fillup_fragment` on a queue.  No assertion fails. -/
theorem fillup_queue (frAf : PfAf) (mem : Bool) (hq : FragOk got q) (hwhole : frent.Whole)
    (hcame : Came got frent.feOff frent.payload) :
    ∃ frag r, pfFillupFragment frAf (some q) frent mem = some (frag, r) ∧
      (frag = none → frAf = .inet6) ∧ ∀ q' ∈ frag, Refilled got frent q q' := by
  have hsame : ∀ q' ∈ some q, Refilled got frent q q' := by
    intro q' hq'
    cases hq'
    exact Refilled.refl hq
  rw [pfFillupFragment]
  by_cases hbadf : badFragment frent = true
  · rw [if_pos hbadf]
    exact ⟨some q, false, rfl, fun h => (by cases h), hsame⟩
  · rw [if_neg hbadf]
    simp only [badFragment, Bool.or_eq_true, decide_eq_true_eq, Bool.and_eq_true, not_or] at hbadf
    dsimp only
    cases hlast : q.getLast? with
    | none => exact absurd (getLast?_eq_none_iff.1 hlast) hq.ne
    | some last =>
      dsimp only
      by_cases hbad : badEnd last frent = true
      · rw [if_pos hbad]
        exact ⟨some q, false, rfl, fun h => (by cases h), hsame⟩
      · rw [if_neg hbad]
        have hsome : ¬ (q.takeWhile (fun e => !decide (e.feOff > frent.feOff)) = [] ∧
            q.dropWhile (fun e => !decide (e.feOff > frent.feOff)) = []) := by
          rintro ⟨htake, hdrop⟩
          have happ := takeWhile_append_dropWhile (p := fun e : PfFrent => !decide (e.feOff > frent.feOff))
            (l := q)
          rw [htake, hdrop] at happ
          exact hq.ne happ.symm
        rw [if_neg hsome]
        obtain ⟨hfilled, hfreed⟩ := @insertFrent_spec got frAf _ _ _ hq hlast (by simpa using hbad) hwhole
          (by omega) (by omega) hcame
        split
        · rename_i q' hins
          refine ⟨some q', true, rfl, fun h => (by cases h), fun q'' hq'' => ?_⟩
          cases hq''
          exact hfilled q' hins
        · exact ⟨some q, false, rfl, fun h => (by cases h), hsame⟩
        · rename_i hins
          exact ⟨none, false, rfl, fun _ => hfreed hins, fun q' hq' => (by cases hq')⟩

theorem fillup_new (frAf : PfAf) (mem : Bool) (hwhole : frent.Whole)
    (hcame : Came got frent.feOff frent.payload) :
    ∃ frag r, pfFillupFragment frAf none frent mem = some (frag, r) ∧
      ∀ q ∈ frag, FragOk got q ∧ q.head? = some frent := by
  rw [pfFillupFragment]
  by_cases hbad : badFragment frent = true
  · rw [if_pos hbad]
    exact ⟨none, false, rfl, fun q hq => (by cases hq)⟩
  · rw [if_neg hbad]
    simp only [badFragment, Bool.or_eq_true, decide_eq_true_eq, Bool.and_eq_true, not_or] at hbad
    cases mem with
    | false => exact ⟨none, false, rfl, fun q hq => (by cases hq)⟩
    | true =>
      refine ⟨some [frent], true, rfl, fun q hq => ?_⟩
      cases hq
      have hself := hwhole.at_self (by omega)
      refine ⟨⟨cons_ne_nil _ _, ⟨_, _, Nat.zero_le _, hself, hcame, ?_⟩, pairwise_singleton _ _⟩, rfl⟩
      rw [← hself.stop]
      exact Nat.not_lt.1 hbad.2

end OpenBsd.Net
