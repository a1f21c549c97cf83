/-
  OpenBsd.Net.PfFragRun

  Complete queues, the packets that are joined from them, and runs of the fragment cache.
-/

import OpenBsd.Net.PfFragSafe

namespace OpenBsd.Net

open OpenBsd.Lib OpenBsd.Netinet List

variable {got : Nat → UInt8 → Prop}

variable {total lo off : Nat} {l q : List PfFrent} {s : PfFragState}

/-! ## Complete queues -/

/-- The entries follow each other from `off` on. -/
def Contig : Nat → List PfFrent → Prop
  | _, [] => True
  | off, e :: es => e.feOff = off ∧ Contig e.stop es

/-- The last entry ends at `total`. -/
def EndsAt (total : Nat) (l : List PfFrent) : Prop := ∀ last, l.getLast? = some last → last.stop = total

theorem EndsAt.tail {e : PfFrent} {es : List PfFrent} (h : EndsAt total (e :: es)) :
    EndsAt total es := by
  intro last hlast
  cases es with
  | nil => cases hlast
  | cons e' es =>
    refine h last ?_
    rw [getLast?_cons_cons]
    exact hlast

/-- The loop of `pf_isfull_fragment` sums up to the end, or finds a gap. -/
theorem fullLoop_spec (h : Pieces PfFrent.At got lo total l) (hne : l ≠ []) (hend : EndsAt total l)
    (hmax : total ≤ ipMaxpacket) (hoff : off ≤ lo) :
    (Contig off l ∧ fullLoop total l off = some total) ∨
      (¬ Contig off l ∧ fullLoop total l off = none) := by
  induction l generalizing lo off with
  | nil => exact absurd rfl hne
  | cons e es ih =>
    obtain ⟨a, d, hlo, hat, -, hrest⟩ := h
    have hle := hrest.le
    have hpos := hat.pos
    simp only [ipMaxpacket] at hmax
    have hmod : (off + d.length) % 2 ^ 16 = off + d.length := Nat.mod_eq_of_lt (by omega)
    rw [fullLoop, hat.len, hmod]
    cases es with
    | nil =>
      have htotal := hend e rfl
      rw [hat.stop] at htotal
      by_cases hgap : off = a
      · left
        rw [if_neg (by omega), fullLoop, hgap, htotal]
        exact ⟨⟨hat.off, trivial⟩, rfl⟩
      · right
        rw [if_pos ⟨by omega, by simp⟩]
        exact ⟨fun hc => hgap (hc.1.symm.trans hat.off), rfl⟩
    | cons e' es =>
      obtain ⟨a', d', hlo', hat', hcame', hrest'⟩ := hrest
      have hle' := hrest'.le
      have hpos' := hat'.pos
      have hnext : (e' :: es).head?.map PfFrent.feOff = some a' := by rw [← hat'.off]; rfl
      rw [hnext]
      by_cases hgap : a' = off + d.length
      · have hoffa : off = a := by omega
        rw [if_neg (by simp [hgap])]
        have hstep := @ih (a + d.length) (off + d.length) ⟨a', d', hlo', hat', hcame', hrest'⟩
          (cons_ne_nil _ _) hend.tail (by omega)
        have hcont : Contig off (e :: e' :: es) ↔ Contig (off + d.length) (e' :: es) := by
          rw [Contig, hat.stop, hoffa, hat.off]
          exact ⟨fun hc => hc.2, fun hc => ⟨rfl, hc⟩⟩
        rw [hcont]
        exact hstep
      · right
        rw [if_pos ⟨by omega, by simpa using hgap⟩]
        refine ⟨fun hc => hgap ?_, rfl⟩
        have hstop : e'.feOff = e.stop := hc.2.1
        have hfirst : e.feOff = off := hc.1
        rw [hat'.off, hat.stop] at hstop
        rw [hat.off] at hfirst
        omega

/-- Without a gap means that each byte is there. -/
theorem contig_iff (h : Pieces PfFrent.At got lo total l) (hend : EndsAt total l) (hne : l ≠ [])
    (hoff : off ≤ lo) :
    Contig off l ↔ ∀ x, off ≤ x → x < total → ∃ e ∈ l, e.feOff ≤ x ∧ x < e.stop := by
  induction l generalizing lo off with
  | nil => exact absurd rfl hne
  | cons e es ih =>
    obtain ⟨a, d, hlo, hat, hcame, hrest⟩ := h
    have hpos := hat.pos
    have hle := hrest.le
    have hstep : es ≠ [] → (Contig e.stop es ↔ ∀ x, e.stop ≤ x → x < total →
        ∃ e' ∈ es, e'.feOff ≤ x ∧ x < e'.stop) := by
      intro hes
      exact ih hrest hend.tail hes (Nat.le_of_eq hat.stop)
    constructor
    · rintro ⟨hfirst, hcont⟩ x hx hxt
      by_cases hxe : x < e.stop
      · exact ⟨e, mem_cons_self, by omega, hxe⟩
      · by_cases hes : es = []
        · have := hend e (by rw [hes]; rfl)
          omega
        · obtain ⟨e', he', hcov⟩ := (hstep hes).1 hcont x (by omega) hxt
          exact ⟨e', mem_cons_of_mem e he', hcov⟩
    · intro hcov
      have hfirst : a = off := by
        obtain ⟨e', he', hlow, -⟩ := hcov off (Nat.le_refl off) (by omega)
        have hin : Pieces PfFrent.At got a total (e :: es) := ⟨a, d, Nat.le_refl a, hat, hcame, hrest⟩
        obtain ⟨a', d', ha', -, hat', -⟩ := hin.mem he'
        rw [hat'.off] at hlow
        omega
      refine ⟨hat.off.trans hfirst, ?_⟩
      by_cases hes : es = []
      · rw [hes]
        trivial
      · refine (hstep hes).2 fun x hx hxt => ?_
        obtain ⟨e', he', hlow, hhigh⟩ := hcov x (by rw [hat.stop] at hx; omega) hxt
        rcases mem_cons.1 he' with rfl | he'
        · omega
        · exact ⟨e', he', hlow, hhigh⟩

theorem FragOk.upto {last : PfFrent} (h : FragOk got q) (hlast : q.getLast? = some last) :
    Pieces PfFrent.At got 0 last.stop q ∧ EndsAt last.stop q := by
  refine ⟨?_, fun last' hlast' => by cases hlast.symm.trans hlast'; rfl⟩
  obtain ⟨ys, rfl⟩ := getLast?_eq_some_iff.1 hlast
  obtain ⟨m, hys, a, d, hle, hat, hcame, -⟩ := pieces_append.1 h.pieces
  refine pieces_append.2 ⟨m, hys, a, d, hle, hat, hcame, ?_⟩
  exact Nat.le_of_eq hat.stop.symm

theorem pfIsfullFragment_spec {last : PfFrent} (h : FragOk got q) (hlast : q.getLast? = some last) :
    (pfIsfullFragment q = some true ∧ last.feMff = false ∧ Contig 0 q) ∨
      (pfIsfullFragment q = some false ∧ ¬ (last.feMff = false ∧ Contig 0 q)) := by
  obtain ⟨hpieces, hend⟩ := h.upto hlast
  have hmax := (h.last hlast).2.1
  have hmod : last.stop % 2 ^ 16 = last.stop := by
    simp only [ipMaxpacket] at hmax
    exact Nat.mod_eq_of_lt (by omega)
  rw [pfIsfullFragment, hlast]
  dsimp only
  rw [hmod]
  cases hmff : last.feMff with
  | true => exact .inr ⟨rfl, fun hno => by cases hno.1⟩
  | false =>
    rcases fullLoop_spec hpieces h.ne hend hmax (Nat.le_refl 0) with ⟨hcont, hloop⟩ | ⟨hgap, hloop⟩
    · rw [hloop]
      simp [hcont]
    · rw [hloop]
      simp [hgap]

/-! ## The joined packet -/

theorem stripTrailing_eq_take (m : List UInt8) (n : Nat) : stripTrailing m n = m.take n := by
  unfold stripTrailing
  split
  · rename_i hlt
    rw [mAdj, if_neg (by omega)]
    congr 1
    omega
  · rename_i hge
    exact (take_of_length_le (by omega)).symm

theorem join_rest (m : List UInt8) (l : List PfFrent) :
    l.foldl (fun m e => m ++ stripTrailing (mAdj e.feM e.feHdrlen) e.feLen) m =
      m ++ (l.map PfFrent.payload).flatten := by
  induction l generalizing m with
  | nil => simp
  | cons e es ih =>
    have hpayload : stripTrailing (mAdj e.feM e.feHdrlen) e.feLen = e.payload := by
      rw [stripTrailing_eq_take, mAdj, if_pos (by omega), Int.toNat_natCast, PfFrent.payload]
    rw [foldl_cons, ih, hpayload, map_cons, flatten_cons, append_assoc]

theorem pfJoinFragment_eq (e : PfFrent) (es : List PfFrent) :
    pfJoinFragment (e :: es) = e.feM.take e.feHdrlen ++ ((e :: es).map PfFrent.payload).flatten := by
  rw [pfJoinFragment, join_rest, stripTrailing_eq_take, map_cons, flatten_cons,
    ← append_assoc, PfFrent.payload, take_add]

theorem contig_payload (h : Pieces PfFrent.At got lo total l) (hne : l ≠ []) (hend : EndsAt total l)
    (hcont : Contig off l) :
    Came got off (l.map PfFrent.payload).flatten ∧ off + (l.map PfFrent.payload).flatten.length = total := by
  induction l generalizing lo off with
  | nil => exact absurd rfl hne
  | cons e es ih =>
    obtain ⟨a, d, hlo, hat, hcame, hrest⟩ := h
    obtain ⟨hfirst, hcont⟩ := hcont
    have hoff : a = off := hat.off.symm.trans hfirst
    subst hoff
    rw [map_cons, flatten_cons, hat.payload, length_append]
    rw [hat.stop] at hcont
    by_cases hes : es = []
    · have htotal := hend e (by rw [hes]; rfl)
      subst hes
      rw [hat.stop] at htotal
      simpa [hcame] using htotal
    · obtain ⟨hcame', hlen⟩ := ih hrest hes hend.tail hcont
      exact ⟨hcame.append hcame', by omega⟩

/-! ## Runs -/

/-- A received fragment carried the byte at the offset. -/
def FragCarried (received : List PfFrent) (x : Nat) (b : UInt8) : Prop :=
  ∃ f ∈ received, ∃ j, f.feOff + j = x ∧ f.payload[j]? = some b

theorem FragCarried.cons {received : List PfFrent} (f : PfFrent) :
    ∀ x b, FragCarried received x b → FragCarried (f :: received) x b :=
  fun _ _ ⟨f', hf', hrest⟩ => ⟨f', mem_cons_of_mem f hf', hrest⟩

theorem came_frent (received : List PfFrent) (f : PfFrent) :
    Came (FragCarried (f :: received)) f.feOff f.payload :=
  fun j _ hj => ⟨f, mem_cons_self, j, rfl, hj⟩

theorem FragOk.mono {got' : Nat → UInt8 → Prop} (h : FragOk got q)
    (hgot : ∀ x b, got x b → got' x b) : FragOk got' q :=
  ⟨h.ne, h.pieces.mono (Nat.le_refl 0) (Nat.le_refl _) hgot, h.mff⟩

/-- The queue of a state, and a first entry that came as it is. -/
def PfFragState.Ok (s : PfFragState) : Prop :=
  ∀ q, s.frag = some q → FragOk (FragCarried s.received) q ∧ ∃ f ∈ s.received, q.head? = some f

theorem PfFragState.Ok.fillup (h : s.Ok) (frAf : PfAf) {frent : PfFrent} (mem : Bool)
    (hwhole : frent.Whole) :
    ∃ s', s.fillup frAf frent mem = some s' ∧ s'.Ok ∧
      ∀ q, s.frag = some q → (s'.frag = none → frAf = .inet6) ∧ ∀ q', s'.frag = some q' → KeepsTotal q q' := by
  have hcame := came_frent s.received frent
  cases hfrag : s.frag with
  | none =>
    obtain ⟨frag, r, hfill, hnew⟩ := fillup_new frAf mem hwhole hcame
    refine ⟨⟨frag, frent :: s.received⟩, ?_, ?_, fun q hq => (by cases hq)⟩
    · rw [PfFragState.fillup, hfrag, hfill]
      rfl
    · rintro q (rfl : frag = some q)
      exact ⟨(hnew q rfl).1, frent, mem_cons_self, (hnew q rfl).2⟩
  | some q =>
    obtain ⟨hok, f, hf, hhead⟩ := h q hfrag
    obtain ⟨frag, r, hfill, hfreed, hrefill⟩ :=
      fillup_queue frAf mem (hok.mono (FragCarried.cons frent)) hwhole hcame
    refine ⟨⟨frag, frent :: s.received⟩, ?_, ?_, ?_⟩
    · rw [PfFragState.fillup, hfrag, hfill]
      rfl
    · rintro q' (rfl : frag = some q')
      refine ⟨(hrefill q' rfl).ok, ?_⟩
      rcases (hrefill q' rfl).first with hsame | hnew
      · exact ⟨f, mem_cons_of_mem frent hf, hsame.trans hhead⟩
      · exact ⟨frent, mem_cons_self, hnew⟩
    · intro q' hq'
      cases hq'
      exact ⟨hfreed, fun q' hq' => (hrefill q' hq').total⟩

theorem PfFragState.Reach.ok {frAf : PfAf} (h : PfFragState.Reach frAf s) : s.Ok := by
  induction h with
  | start => exact fun q hq => (by cases hq)
  | fillup frent mem _ hwhole hfill ih =>
    obtain ⟨s', hfill', hok, -⟩ := ih.fillup frAf mem hwhole
    rw [hfill] at hfill'
    cases hfill'
    exact hok
  | free => exact fun q hq => (by cases hq)

theorem fillups_keep_total (h : s.Ok) (hq : s.frag = some q) {frents : List (PfFrent × Bool)}
    (hwhole : ∀ p ∈ frents, p.1.Whole) :
    ∃ s' q', s.fillups .inet frents = some s' ∧ s'.frag = some q' ∧ KeepsTotal q q' := by
  induction frents generalizing s q with
  | nil => exact ⟨s, q, rfl, hq, fun last hlast hmff => ⟨last, hlast, hmff, rfl⟩⟩
  | cons p ps ih =>
    obtain ⟨frent, mem⟩ := p
    obtain ⟨s', hfill, hok, hkeep⟩ := h.fillup .inet mem (hwhole (frent, mem) mem_cons_self)
    obtain ⟨hsome, htotal⟩ := hkeep q hq
    cases hfrag : s'.frag with
    | none => cases hsome hfrag
    | some q' =>
      obtain ⟨s'', q'', hfills, hfrag', htotal'⟩ :=
        ih hok hfrag fun p hp => hwhole p (mem_cons_of_mem _ hp)
      refine ⟨s'', q'', ?_, hfrag', ?_⟩
      · rw [PfFragState.fillups, hfill]
        exact hfills
      · intro last hlast hmff
        obtain ⟨last', hlast', hmff', hstop⟩ := htotal q' hfrag last hlast hmff
        obtain ⟨last'', hlast'', hmff'', hstop'⟩ := htotal' last' hlast' hmff'
        exact ⟨last'', hlast'', hmff'', hstop'.trans hstop⟩

/-! ## pf_reassemble -/

/-- In every state that fragments lead to, the queue is in order, without overlaps and within
    a packet, only its last entry may end the datagram, and then the end stays;
    `pf_isfull_fragment` says when nothing is missing, and the packet that is joined then has at
    each offset a byte that came for it. -/
theorem pf_fragment_queue {s : PfFragState} (h : PfFragState.Reach .inet s) {q : List PfFrent}
    (hq : s.frag = some q) :
    q ≠ [] ∧ q.Pairwise (fun e e' => e.stop ≤ e'.feOff) ∧
    (∀ e ∈ q, 0 < e.feLen ∧ e.stop ≤ ipMaxpacket) ∧ (∀ e ∈ q.dropLast, e.feMff = true) ∧
    (∀ frents : List (PfFrent × Bool), (∀ p ∈ frents, p.1.Whole) →
      ∃ s' q', s.fillups .inet frents = some s' ∧ s'.frag = some q' ∧ KeepsTotal q q') ∧
    (∃ full, pfIsfullFragment q = some full ∧
      (full = true ↔ ∃ last, q.getLast? = some last ∧ last.feMff = false ∧
        ∀ x < last.stop, ∃ e ∈ q, e.feOff ≤ x ∧ x < e.stop)) ∧
    (pfIsfullFragment q = some true → ∃ f ∈ s.received, ∃ last payload, q.head? = some f ∧
      q.getLast? = some last ∧ pfJoinFragment q = f.feM.take f.feHdrlen ++ payload ∧
      payload.length = last.stop ∧
      ∀ k b, payload[k]? = some b → ∃ g ∈ s.received, ∃ j, g.feOff + j = k ∧ g.payload[j]? = some b) := by
  obtain ⟨hok, f, hf, hhead⟩ := h.ok q hq
  obtain ⟨last, hlast⟩ : ∃ last, q.getLast? = some last := by
    cases hl : q.getLast? with
    | none => exact absurd (getLast?_eq_none_iff.1 hl) hok.ne
    | some last => exact ⟨last, rfl⟩
  obtain ⟨hpieces, hend⟩ := hok.upto hlast
  have hcover : Contig 0 q ↔ ∀ x < last.stop, ∃ e ∈ q, e.feOff ≤ x ∧ x < e.stop := by
    rw [contig_iff hpieces hend hok.ne (Nat.le_refl 0)]
    exact ⟨fun hall x => hall x (Nat.zero_le x), fun hall x _ => hall x⟩
  refine ⟨hok.ne, ?_, ?_, ?_, ?_, ?_, ?_⟩
  · refine hok.pieces.pairwise.imp ?_
    rintro e e' ⟨a, d, a', d', -, hat, hat', hle, -⟩
    rw [hat.stop, hat'.off]
    exact hle
  · intro e he
    obtain ⟨a, d, -, hend', hat, -⟩ := hok.pieces.mem he
    rw [hat.stop, hat.len]
    exact ⟨hat.pos, hend'⟩
  · intro e he
    have hmff := hok.mff
    rw [← dropLast_append_getLast? last hlast] at hmff
    exact (pairwise_append.1 hmff).2.2 e he last mem_cons_self
  · exact fun frents hwhole => fillups_keep_total h.ok hq hwhole
  · rcases pfIsfullFragment_spec hok hlast with ⟨hfull, hmff, hcont⟩ | ⟨hfull, hnot⟩
    · exact ⟨true, hfull, fun _ => ⟨last, hlast, hmff, hcover.1 hcont⟩, fun _ => rfl⟩
    · refine ⟨false, hfull, fun hno => (by cases hno), ?_⟩
      rintro ⟨last', hlast', hmff, hall⟩
      cases hlast.symm.trans hlast'
      exact absurd ⟨hmff, hcover.2 hall⟩ hnot
  · intro hfull
    rcases pfIsfullFragment_spec hok hlast with ⟨-, -, hcont⟩ | ⟨hfull', -⟩
    · obtain ⟨hcame, hlen⟩ := contig_payload hpieces hok.ne hend hcont
      refine ⟨f, hf, last, (q.map PfFrent.payload).flatten, hhead, hlast, ?_, by omega, ?_⟩
      · cases q with
        | nil => cases hhead
        | cons e es =>
          cases hhead
          exact pfJoinFragment_eq f es
      · intro k b hk
        have hgot := hcame k b hk
        rwa [Nat.zero_add] at hgot
    · rw [hfull] at hfull'
      cases hfull'

/-- The last fragment comes first. -/
theorem pf_fragment_queue_joined :
    let a : PfFrent := ⟨20, 8, 0, true, List.replicate 20 0 ++ [1, 2, 3, 4, 5, 6, 7, 8]⟩
    let b : PfFrent := ⟨20, 3, 8, false, List.replicate 20 0 ++ [9, 10, 11]⟩
    pfJoinFragment [a, b] = List.replicate 20 0 ++ [1, 2, 3, 4, 5, 6, 7, 8, 9, 10, 11] ∧
      [a, b].Pairwise (fun e e' => e.stop ≤ e'.feOff) := by
  intro a b
  have hlast : PfFragState.Reach .inet ⟨some [b], [b]⟩ := .fillup b true .start (by decide) (by decide)
  have hreach : PfFragState.Reach .inet ⟨some [a, b], [a, b]⟩ := .fillup a true hlast (by decide) (by decide)
  exact ⟨by decide, (pf_fragment_queue hreach rfl).2.1⟩

end OpenBsd.Net
