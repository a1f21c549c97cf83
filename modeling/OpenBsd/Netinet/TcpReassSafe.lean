/-
  OpenBsd.Netinet.TcpReassSafe

  The reassembly queue holds pieces of the stream behind the bytes that were handed over.

  A place of the stream counts from the first byte of the connection; the sequence number
  of the place `a` is `seqOf (r + a)`, with `r` the initial `rcv_nxt`.
-/

import OpenBsd.Netinet.TcpReass

namespace OpenBsd.Netinet

open OpenBsd.Lib List

variable {n T a E lo : Nat} {th : TcpSeg} {d : List UInt8} {q : TcpQent} {l segq : List TcpQent}
  {tp : TcpReass}

/-- The entry is the piece `d` at the place `a`. -/
def TcpQent.At (r a : Nat) (q : TcpQent) (d : List UInt8) : Prop :=
  q.thSeq = seqOf (r + a) ∧ q.thReseqlen = d.length ∧ q.data = d

/-- A received segment carried the byte for the place. -/
def Carried (received : List (Nat × TcpSeg)) (x : Nat) (b : UInt8) : Prop :=
  ∃ s ∈ received, ∃ j, s.1 + j = x ∧ s.2.data[j]? = some b

variable {r A hi : Nat} {got : Nat → UInt8 → Prop}

/-! ## Places and sequence numbers -/

theorem seqDiff_place {x y : Nat} (hx : A ≤ x) (hx' : x < A + 2 ^ 31) (hy : A ≤ y)
    (hy' : y < A + 2 ^ 31) : seqDiff (seqOf (r + x)) (seqOf (r + y)) = (x : Int) - y := by
  rw [seqDiff_seqOf (by omega) (by omega)]
  omega

theorem seqDiff_place_add {x y : Nat} (hx : A ≤ x) (hx' : x + n < A + 2 ^ 31) (hy : A ≤ y)
    (hy' : y < A + 2 ^ 31) :
    seqDiff (seqOf (r + x) + n) (seqOf (r + y)) = ((x + n : Nat) : Int) - y := by
  rw [← seqDiff_left, seqOf_add, Nat.add_assoc]
  exact seqDiff_place (by omega) hx' hy hy'

/-! ## The steps of tcp_reass -/

theorem trimSeg_spec {th' : TcpSeg} {p : TcpQent} (hth : th.thSeq = seqOf (r + T)) (hp : p.At r a d)
    (hcame : Came got T th.data) (ha : A ≤ a) (had : a + d.length < A + 2 ^ 31) (hT : A ≤ T)
    (hT' : T < A + 2 ^ 31) (htrim : trimSeg (some p) th = some th') :
    ∃ T', T ≤ T' ∧ a + d.length ≤ T' ∧
      T' + th'.data.length ≤ max (a + d.length) (T + th.data.length) ∧
      th'.thSeq = seqOf (r + T') ∧ Came got T' th'.data := by
  obtain ⟨hseq, hlen, hdata⟩ := hp
  have hi : seqDiff (p.thSeq + p.thReseqlen) th.thSeq = ((a + d.length : Nat) : Int) - T := by
    rw [hseq, hlen, hth]
    exact seqDiff_place_add ha had hT hT'
  simp only [trimSeg, hi] at htrim
  split at htrim
  · split at htrim
    · cases htrim
    · cases htrim
      have hplace : T + (((a + d.length : Nat) : Int) - T).toNat = a + d.length := by omega
      refine ⟨a + d.length, by omega, Nat.le_refl _, ?_, ?_, ?_⟩
      · simp only [length_drop]
        omega
      · simp only [hth, seqOf_add_mod, Nat.add_assoc, hplace]
      · have hdrop := hcame.drop (((a + d.length : Nat) : Int) - T).toNat
        rwa [hplace] at hdrop
  · cases htrim
    exact ⟨T, Nat.le_refl T, by omega, by omega, hth, hcame⟩

/-- An entry without its first bytes. -/
def TcpQent.dropFirst (q : TcpQent) (n : Nat) : TcpQent :=
  { q with thSeq := (q.thSeq + n) % 2 ^ 32, thReseqlen := q.thReseqlen - n, data := q.data.drop n }

theorem TcpQent.At.drop (h : q.At r a d) : (q.dropFirst n).At r (a + n) (d.drop n) := by
  obtain ⟨hseq, hlen, hdata⟩ := h
  refine ⟨?_, ?_, ?_⟩
  · simp only [TcpQent.dropFirst, hseq, seqOf_add_mod, Nat.add_assoc]
  · simp only [TcpQent.dropFirst, hlen, length_drop]
  · simp only [TcpQent.dropFirst, hdata]

theorem trimQueue_cons (qs : List TcpQent) (hE : seqOf (th.thSeq + th.data.length) = seqOf (r + E))
    (hq : q.At r a d) (ha : A ≤ a) (ha' : a < A + 2 ^ 31) (hAE : A ≤ E) (hE' : E < A + 2 ^ 31) :
    trimQueue th (q :: qs) =
      if E ≤ a then q :: qs else if E < a + d.length then q.dropFirst (E - a) :: qs
      else trimQueue th qs := by
  obtain ⟨hseq, hlen, hdata⟩ := hq
  have hdiff : seqDiff (th.thSeq + th.data.length) q.thSeq = (E : Int) - a := by
    rw [← seqDiff_left, hE, hseq]
    exact seqDiff_place hAE hE' ha ha'
  simp only [trimQueue, hdiff, hlen]
  clear hdiff
  by_cases h : E ≤ a
  · rw [if_pos h, if_pos (by omega)]
  · have hsub : ((E : Int) - a).toNat = E - a := by omega
    rw [if_neg h, if_neg (by omega), hsub]
    by_cases h' : E < a + d.length
    · rw [if_pos h', if_pos (by omega), TcpQent.dropFirst, hlen]
    · rw [if_neg h', if_neg (by omega)]

theorem trimQueue_spec (hE : seqOf (th.thSeq + th.data.length) = seqOf (r + E)) (hA : A ≤ lo)
    (hAE : A ≤ E) (hEhi : E ≤ hi) (hhi : hi < A + 2 ^ 31) (h : Pieces (TcpQent.At r) got lo hi l) :
    Pieces (TcpQent.At r) got E hi (trimQueue th l) := by
  refine h.cut_behind (c := TcpQent.dropFirst) (fun a e d es hat ha had => ?_) rfl
    (fun a e d hat ha _ haE _ => ?_) hEhi
  · exact trimQueue_cons es hE hat (by omega) (by omega) hAE (by omega)
  · have hnew := hat.drop (n := E - a)
    have hplace : a + (E - a) = E := by omega
    rwa [hplace] at hnew

/-- The entry has the byte that is `n` past `rcvNxt`. -/
def TcpQent.Covers (rcvNxt n : Nat) (q : TcpQent) : Prop :=
  (q.thSeq + 2 ^ 32 - rcvNxt) % 2 ^ 32 ≤ n ∧
    n < (q.thSeq + 2 ^ 32 - rcvNxt) % 2 ^ 32 + q.thReseqlen

theorem offset_place (ha : A ≤ a) (ha' : a < A + 2 ^ 32) :
    (seqOf (r + a) + 2 ^ 32 - seqOf (r + A)) % 2 ^ 32 = a - A := by
  rw [seqOf_eq, seqOf_eq]
  omega

theorem TcpQent.At.covers_iff (h : q.At r a d) (ha : A ≤ a) (ha' : a < A + 2 ^ 31) :
    q.Covers (seqOf (r + A)) n ↔ a ≤ A + n ∧ A + n < a + d.length := by
  rw [TcpQent.Covers, h.1, h.2.1, offset_place ha (by omega)]
  omega

theorem trimQueue_covers (hE : seqOf (th.thSeq + th.data.length) = seqOf (r + E)) (hA : A ≤ lo)
    (hAE : A ≤ E) (hEhi : E ≤ hi) (hhi : hi < A + 2 ^ 31) (h : Pieces (TcpQent.At r) got lo hi l)
    (hn : E ≤ A + n) (hq : ∃ q ∈ l, q.Covers (seqOf (r + A)) n) :
    ∃ q ∈ trimQueue th l, q.Covers (seqOf (r + A)) n := by
  induction l generalizing lo with
  | nil => exact hq
  | cons q qs ih =>
    obtain ⟨a, d, hlo, hat, hcame, hrest⟩ := h
    have hle := hrest.le
    have hcov := hat.covers_iff (n := n) (Nat.le_trans hA hlo) (by omega)
    rw [trimQueue_cons qs hE hat (by omega) (by omega) hAE (by omega)]
    split
    · exact hq
    · obtain ⟨q', hmem, hq'⟩ := hq
      split
      · rcases mem_cons.1 hmem with rfl | hmem
        · have hnew := hat.drop (n := E - a)
          refine ⟨_, mem_cons_self, (hnew.covers_iff (by omega) (by omega)).2 ?_⟩
          simp only [length_drop]
          have := hcov.1 hq'
          omega
        · exact ⟨q', mem_cons_of_mem _ hmem, hq'⟩
      · rcases mem_cons.1 hmem with rfl | hmem
        · have := hcov.1 hq'
          omega
        · exact ih (by omega) hrest ⟨q', hmem, hq'⟩

theorem seq_ne_of_behind (h : Pieces (TcpQent.At r) got lo hi l) (hlo : A < lo)
    (hhi : hi < A + 2 ^ 31) : ∀ q ∈ l, q.thSeq ≠ seqOf (r + A) := by
  intro q hq heq
  obtain ⟨a, d, ha, ha', hat, -⟩ := h.mem hq
  have := seqOf_inj (by omega) (by omega) (hat.1.symm.trans heq)
  omega

/-- The loop hands over the pieces that follow each other, and stops at a hole. -/
theorem flushLoop_spec (h : Pieces (TcpQent.At r) got A hi l) (hhi : hi < A + 2 ^ 31)
    (handed : List UInt8) (flags : Bool) :
    ∃ l' bytes flags', flushLoop l (seqOf (r + A)) handed flags =
        (l', seqOf (r + (A + bytes.length)), handed ++ bytes, flags') ∧
      Came got A bytes ∧ Pieces (TcpQent.At r) got (A + bytes.length) hi l' ∧
      (∀ q ∈ l', q.thSeq ≠ seqOf (r + (A + bytes.length))) ∧
      ∀ q ∈ l, ∃ a d, A ≤ a ∧ a + d.length ≤ hi ∧ q.At r a d ∧
        (A + bytes.length < a ∨ a + d.length ≤ A + bytes.length) := by
  induction l generalizing A handed flags with
  | nil =>
    refine ⟨[], [], flags, ?_, Came.nil A, h, ?_, ?_⟩
    · simp only [flushLoop, length_nil, Nat.add_zero, append_nil]
    · intro q hq
      cases hq
    · intro q hq
      cases hq
  | cons q qs ih =>
    obtain ⟨a, d, hlo, hat, hcame, hrest⟩ := h
    have hle := hrest.le
    by_cases hseq : q.thSeq = seqOf (r + A)
    · have hplace := seqOf_inj (by omega) (by omega) (hat.1.symm.trans hseq)
      have ha : a = A := by omega
      subst ha
      obtain ⟨l', bytes, flags', hloop, hcame', hl', hne, hall⟩ := ih hrest (by omega) (handed ++ d) q.fin
      have hlen : a + d.length + bytes.length = a + (d ++ bytes).length := by
        rw [length_append, Nat.add_assoc]
      rw [hlen] at hloop hl' hne hall
      refine ⟨l', d ++ bytes, flags', ?_, hcame.append hcame', hl', hne, ?_⟩
      · rw [flushLoop, if_pos hseq, hat.2.1, hat.2.2, seqOf_add_mod, Nat.add_assoc, hloop,
          append_assoc]
      · intro q' hq'
        rcases mem_cons.1 hq' with rfl | hq'
        · refine ⟨a, d, Nat.le_refl a, hle, hat, .inr ?_⟩
          rw [length_append]
          omega
        · obtain ⟨a', d', ha', hrest'⟩ := hall q' hq'
          exact ⟨a', d', by omega, hrest'⟩
    · have ha : A ≠ a := by
        rintro rfl
        exact hseq hat.1
      have hbehind : Pieces (TcpQent.At r) got a hi (q :: qs) := ⟨a, d, Nat.le_refl a, hat, hcame, hrest⟩
      refine ⟨q :: qs, [], flags, ?_, Came.nil A, ⟨a, d, hlo, hat, hcame, hrest⟩, ?_, ?_⟩
      · rw [flushLoop, if_neg hseq, append_nil, length_nil, Nat.add_zero]
      · exact seq_ne_of_behind hbehind (by simp only [length_nil]; omega) hhi
      · intro q' hq'
        obtain ⟨a', d', ha', hend, hat', -⟩ := hbehind.mem hq'
        exact ⟨a', d', by omega, hend, hat', .inl (by simp only [length_nil]; omega)⟩

/-! ## What tcp_reass keeps -/

/-- `rcv_nxt` is at the place `A` and the queue holds pieces behind it. -/
structure TcpReass.Stands (r A : Nat) (got : Nat → UInt8 → Prop) (tp : TcpReass) : Prop where
  rcvNxt : tp.rcvNxt = seqOf (r + A)
  segq : ∃ hi, hi < A + 2 ^ 31 ∧ Pieces (TcpQent.At r) got A hi tp.segq
  hole : ∀ q ∈ tp.segq, q.thSeq ≠ tp.rcvNxt

theorem allocQent_some {mem : Bool} (h : allocQent tp th mem = some segq) :
    segq.Sublist tp.segq := by
  unfold allocQent at h
  split at h
  · cases h
    exact List.Sublist.refl _
  · split at h
    · cases h
      exact dropLast_sublist _
    · cases h

theorem TcpReass.Stands.sublist (h : tp.Stands r A got) (hsub : segq.Sublist tp.segq) :
    ({ tp with segq := segq } : TcpReass).Stands r A got := by
  obtain ⟨hi, hhi, hsegq⟩ := h.segq
  exact ⟨h.rcvNxt, ⟨hi, hhi, hsegq.sublist hsub⟩, fun q hq => h.hole q (hsub.subset hq)⟩

theorem search_spec {T : Nat} {th : TcpSeg} {l : List TcpQent} (h : Pieces (TcpQent.At r) got A hi l)
    (hth : th.thSeq = seqOf (r + T)) (hT : A ≤ T) (hThi : T ≤ hi) (hhi : hi < A + 2 ^ 31) :
    (l.takeWhile (fun q => !seqGt q.thSeq th.thSeq) = [] ∧
      l.dropWhile (fun q => !seqGt q.thSeq th.thSeq) = l ∧
      Pieces (TcpQent.At r) got (max A T) hi l) ∨
    ∃ b e a d, l.takeWhile (fun q => !seqGt q.thSeq th.thSeq) = b ++ [e] ∧
      Pieces (TcpQent.At r) got A a b ∧ a ≤ T ∧ e.At r a d ∧ Came got a d ∧
      Pieces (TcpQent.At r) got (max (a + d.length) T) hi
        (l.dropWhile fun q => !seqGt q.thSeq th.thSeq) := by
  refine h.split hThi fun a e d hat ha ha' => ?_
  have hdiff : seqDiff e.thSeq th.thSeq = (a : Int) - T := by
    rw [hat.1, hth]
    exact seqDiff_place ha (by omega) hT (by omega)
  simp only [seqGt, hdiff, Bool.not_eq_true', decide_eq_false_iff_not]
  omega

/-- The new entry and the queue around it. -/
theorem insert_spec {th' : TcpSeg} (h : Pieces (TcpQent.At r) got A hi l)
    (hth : th.thSeq = seqOf (r + T)) (hcame : Came got T th.data) (hlen : th.data.length < 2 ^ 16)
    (hT : A ≤ T) (hThi : T + th.data.length ≤ hi) (hhi : hi < A + 2 ^ 31)
    (htrim : trimSeg (l.takeWhile fun q => !seqGt q.thSeq th.thSeq).getLast? th = some th') :
    ∃ T', T ≤ T' ∧ th'.thSeq = seqOf (r + T') ∧
      Pieces (TcpQent.At r) got A T' (l.takeWhile fun q => !seqGt q.thSeq th.thSeq) ∧
      Pieces (TcpQent.At r) got T' hi (⟨th'.thSeq, th'.data.length % 2 ^ 16, th'.fin, th'.data⟩ ::
        trimQueue th' (l.dropWhile fun q => !seqGt q.thSeq th.thSeq)) := by
  -- the new entry at its place, in front of what is left of the rest
  have hentry : ∀ {T' lo : Nat} {th' : TcpSeg}, T ≤ T' → T' + th'.data.length ≤ hi →
      th'.data.length < 2 ^ 16 → th'.thSeq = seqOf (r + T') → Came got T' th'.data → A ≤ lo →
      Pieces (TcpQent.At r) got lo hi (l.dropWhile fun q => !seqGt q.thSeq th.thSeq) →
      Pieces (TcpQent.At r) got T' hi (⟨th'.thSeq, th'.data.length % 2 ^ 16, th'.fin, th'.data⟩ ::
        trimQueue th' (l.dropWhile fun q => !seqGt q.thSeq th.thSeq)) := by
    intro T' lo th' hTT' hend hlen' hth' hcame' hlo hrest
    have hE : seqOf (th'.thSeq + th'.data.length) = seqOf (r + (T' + th'.data.length)) := by
      rw [hth', seqOf_add, Nat.add_assoc]
    exact ⟨T', th'.data, Nat.le_refl T', ⟨hth', Nat.mod_eq_of_lt hlen', rfl⟩, hcame',
      trimQueue_spec hE hlo (by omega) hend hhi hrest⟩
  rcases search_spec h hth hT (by omega) hhi with
    ⟨htake, hdrop, hrest⟩ | ⟨b, e, a, d, htake, hb, ha, hat, hcame', hrest⟩
  · rw [htake] at htrim ⊢
    cases htrim
    rw [← hdrop] at hrest
    exact ⟨T, Nat.le_refl T, hth, hT, hentry (Nat.le_refl T) hThi hlen hth hcame (by omega) hrest⟩
  · rw [htake, getLast?_concat] at htrim
    have hAa := hb.le
    have hle := hrest.le
    obtain ⟨T', hTT', hbehind, hend, hth', hcame''⟩ :=
      trimSeg_spec hth hat hcame hAa (by omega) hT (by omega) htrim
    rw [htake]
    refine ⟨T', hTT', hth', pieces_append.2 ⟨a, hb, a, d, Nat.le_refl a, hat, hcame', hbehind⟩,
      hentry hTT' (by omega) (by omega) hth' hcame'' (by omega) hrest⟩

/-- What a call does: it hands over the bytes from `rcv_nxt` on and keeps the rest. -/
structure ReassEnd (r A : Nat) (got : Nat → UInt8 → Prop) (tp : TcpReass)
    (res : TcpReass × List UInt8 × Bool) : Prop where
  tState : res.1.tState = tp.tState
  handed : Came got A res.2.1
  stands : res.1.Stands r (A + res.2.1.length) got

theorem ReassEnd.none (h : ({ tp with segq := segq } : TcpReass).Stands r A got) :
    ReassEnd r A got tp ({ tp with segq := segq }, [], false) := ⟨rfl, Came.nil A, h⟩

theorem tcpFlushQueue_spec {tp : TcpReass} {q : TcpQent} {qs : List TcpQent}
    (hState : tcpsEstablished ≤ tp.tState) (hrcv : tp.rcvNxt = seqOf (r + A))
    (hsegq : tp.segq = q :: qs) (hq : q.thSeq = tp.rcvNxt)
    (h : Pieces (TcpQent.At r) got A hi tp.segq) (hhi : hi < A + 2 ^ 31) :
    ReassEnd r A got tp (tcpFlushQueue tp) ∧
      ∀ q ∈ tp.segq, ∃ a d, A ≤ a ∧ a + d.length ≤ hi ∧ q.At r a d ∧
        (A + (tcpFlushQueue tp).2.1.length < a ∨ a + d.length ≤ A + (tcpFlushQueue tp).2.1.length) := by
  obtain ⟨l', bytes, flags, hloop, hcame, hl', hne, hall⟩ := flushLoop_spec h hhi [] false
  have hflush : tcpFlushQueue tp =
      ({ tp with segq := l', rcvNxt := seqOf (r + (A + bytes.length)) }, bytes, flags) := by
    have hstate : ¬ tp.tState < tcpsEstablished := by omega
    have hsyn : tp.tState ≠ tcpsSynReceived := by
      simp only [tcpsEstablished, tcpsSynReceived] at hState ⊢
      omega
    rw [hsegq, ← hrcv, nil_append] at hloop
    rw [tcpFlushQueue, if_neg hstate, hsegq]
    simp only [hq, hsyn, ne_eq, not_true_eq_false, false_and, or_self, if_false, hloop]
  rw [hflush]
  exact ⟨⟨rfl, hcame, rfl, ⟨hi, by dsimp only; omega, hl'⟩, hne⟩, hall⟩

theorem tcpReass_behind (mem : Bool) (h : tp.Stands r A got) (hth : th.thSeq = seqOf (r + T))
    (hcame : Came got T th.data) (hlen : th.data.length < 2 ^ 16) (hT : A < T)
    (hTend : T + th.data.length < A + 2 ^ 31) : ReassEnd r A got tp (tcpReass tp th mem) := by
  unfold tcpReass
  split
  · refine ReassEnd.none (h.sublist ?_)
    exact nil_sublist _
  · rename_i segq halloc
    have hs := h.sublist (allocQent_some halloc)
    dsimp only
    split
    · exact ReassEnd.none hs
    · rename_i th' htrim
      obtain ⟨hi, hhi, hsegq⟩ := hs.segq
      have hwide := hsegq.mono (Nat.le_refl A) (Nat.le_max_left hi (T + th.data.length)) fun _ _ => id
      have hbound : max hi (T + th.data.length) < A + 2 ^ 31 := Nat.max_lt.2 ⟨hhi, hTend⟩
      obtain ⟨T', hTT', hth', hbefore, hbehind⟩ :=
        insert_spec hwide hth hcame hlen (by omega) (Nat.le_max_right _ _) hbound htrim
      have hne : th'.thSeq ≠ tp.rcvNxt := by
        rw [hth', h.rcvNxt]
        intro heq
        have hle := hbehind.le
        have := seqOf_inj (by omega) (by omega) heq
        omega
      rw [if_pos hne]
      refine ReassEnd.none ⟨h.rcvNxt, ⟨_, hbound, pieces_append.2 ⟨T', hbefore, hbehind⟩⟩, ?_⟩
      intro q hq
      rcases mem_append.1 hq with hq | hq
      · exact hs.hole q (takeWhile_subset _ hq)
      · have hseq := seq_ne_of_behind hbehind (by omega) hbound q hq
        rwa [← h.rcvNxt] at hseq

/-- A segment at `rcv_nxt` is handed over with all the data that follows. -/
theorem tcpReass_next (mem : Bool) (h : tp.Stands r A got) (hState : tcpsEstablished ≤ tp.tState)
    (hth : th.thSeq = seqOf (r + A)) (hcame : Came got A th.data) (hlen : th.data.length < 2 ^ 16) :
    ReassEnd r A got tp (tcpReass tp th mem) ∧
      ∀ segq, allocQent tp th mem = some segq →
        th.data.length ≤ (tcpReass tp th mem).2.1.length ∧
        ∀ q ∈ segq, ¬ q.Covers tp.rcvNxt (tcpReass tp th mem).2.1.length := by
  unfold tcpReass
  split
  · rename_i halloc
    refine ⟨ReassEnd.none (h.sublist (nil_sublist _)), ?_⟩
    intro segq hsome
    rw [halloc] at hsome
    cases hsome
  · rename_i segq halloc
    have hs := h.sublist (allocQent_some halloc)
    obtain ⟨hi, hhi, hsegq⟩ := hs.segq
    have hwide := hsegq.mono (Nat.le_refl A) (Nat.le_max_left hi (A + th.data.length)) fun _ _ => id
    have hbound : max hi (A + th.data.length) < A + 2 ^ 31 := Nat.max_lt.2 ⟨hhi, by omega⟩
    -- the first entry of the queue is behind a hole
    have hfirst : segq.takeWhile (fun q => !seqGt q.thSeq th.thSeq) = [] ∧
        segq.dropWhile (fun q => !seqGt q.thSeq th.thSeq) = segq := by
      rcases search_spec hwide hth (Nat.le_refl A) (by omega) hbound with
        ⟨htake, hdrop, -⟩ | ⟨b, e, a, d, htake, hb, ha, hat, -⟩
      · exact ⟨htake, hdrop⟩
      · have hAa := hb.le
        have haA : a = A := by omega
        have he : e ∈ segq.takeWhile fun q => !seqGt q.thSeq th.thSeq := by
          rw [htake]
          exact mem_append_right b mem_cons_self
        refine absurd ?_ (hs.hole e (takeWhile_subset _ he))
        rw [hat.1, haA]
        exact h.rcvNxt.symm
    have htrim : trimSeg (segq.takeWhile fun q => !seqGt q.thSeq th.thSeq).getLast? th = some th := by
      rw [hfirst.1]
      rfl
    obtain ⟨T', hAT', hplace, -, hqueue⟩ :=
      insert_spec hwide hth hcame hlen (Nat.le_refl A) (Nat.le_max_right _ _) hbound htrim
    have hle := hqueue.le
    have hsame := seqOf_inj (by omega) (by omega) (hplace.symm.trans hth)
    have hT' : T' = A := by omega
    subst hT'
    rw [hfirst.2] at hqueue
    have heq : th.thSeq = tp.rcvNxt := hth.trans h.rcvNxt.symm
    have hnext : ¬ th.thSeq ≠ tp.rcvNxt := fun hne => hne heq
    rw [hfirst.1, hfirst.2]
    dsimp only [getLast?_nil, trimSeg, nil_append]
    rw [if_neg hnext]
    generalize htiqe : (⟨th.thSeq, th.data.length % 2 ^ 16, th.fin, th.data⟩ : TcpQent) = tiqe at hqueue ⊢
    have hseq : tiqe.thSeq = tp.rcvNxt := by rw [← htiqe, heq]
    obtain ⟨hend, hall⟩ := @tcpFlushQueue_spec r T' _ got { tp with segq := tiqe :: trimQueue th segq }
      tiqe (trimQueue th segq) hState h.rcvNxt rfl hseq hqueue hbound
    refine ⟨⟨hend.tState, hend.handed, hend.stands⟩, ?_⟩
    intro segq' hsome
    rw [halloc] at hsome
    cases hsome
    generalize (tcpFlushQueue { tp with segq := tiqe :: trimQueue th segq }).2.1.length = n at hall ⊢
    have hn : th.data.length ≤ n := by
      obtain ⟨a, d, ha, hadhi, hat, hor⟩ := hall tiqe mem_cons_self
      subst htiqe
      have hd : d.length = th.data.length := congrArg List.length hat.2.2.symm
      have := seqOf_inj (by omega) (by omega) (hth.symm.trans hat.1)
      omega
    refine ⟨hn, ?_⟩
    intro q hq hcov
    rw [h.rcvNxt] at hcov
    have hE : seqOf (th.thSeq + th.data.length) = seqOf (r + (T' + th.data.length)) := by
      rw [hth, seqOf_add, Nat.add_assoc]
    obtain ⟨q', hq', hcov'⟩ := trimQueue_covers hE (Nat.le_refl T') (by omega) (Nat.le_max_right _ _)
      hbound hwide (by omega) ⟨q, hq, hcov⟩
    obtain ⟨a, d, ha, hadhi, hat, hor⟩ := hall q' (mem_cons_of_mem _ hq')
    have := (hat.covers_iff ha (by omega)).1 hcov'
    omega

/-! ## Runs -/

/-- The bytes handed over came at their places, and the queue stands behind them. -/
structure TcpConn.Ok (tState r : Nat) (c : TcpConn) : Prop where
  tState : c.tp.tState = tState
  stands : c.tp.Stands r c.handed.length (Carried c.received)
  handed : Came (Carried c.received) 0 c.handed
  received : ∀ s ∈ c.received, s.2.thSeq = seqOf (r + s.1)
  soRcv : c.soRcv <+: c.handed
  receives : c.cantRcvMore = false → c.soRcv = c.handed

theorem TcpReass.Stands.mono {got' : Nat → UInt8 → Prop} (h : tp.Stands r A got)
    (hgot : ∀ x b, got x b → got' x b) : tp.Stands r A got' := by
  obtain ⟨hi, hhi, hsegq⟩ := h.segq
  exact ⟨h.rcvNxt, ⟨hi, hhi, hsegq.mono (Nat.le_refl A) (Nat.le_refl hi) hgot⟩, h.hole⟩

theorem TcpReass.Stands.place (h : tp.Stands r A got) (hth : th.thSeq < 2 ^ 32) :
    th.thSeq = seqOf (r + (A + tp.offset th.thSeq)) := by
  rw [TcpReass.offset, h.rcvNxt, seqOf_eq, seqOf_eq]
  omega

theorem Carried.cons {received : List (Nat × TcpSeg)} (s : Nat × TcpSeg) :
    ∀ x b, Carried received x b → Carried (s :: received) x b :=
  fun _ _ ⟨t, ht, hrest⟩ => ⟨t, mem_cons_of_mem s ht, hrest⟩

theorem came_received (received : List (Nat × TcpSeg)) (T : Nat) (th : TcpSeg) :
    Came (Carried ((T, th) :: received)) T th.data :=
  fun j _ hj => ⟨(T, th), mem_cons_self, j, rfl, hj⟩

theorem tcpReass_spec (mem : Bool) (h : tp.Stands r A got) (hState : tcpsEstablished ≤ tp.tState)
    (hwin : th.InWindow tp) (hcame : Came got (A + tp.offset th.thSeq) th.data) :
    ReassEnd r A got tp (tcpReass tp th mem) := by
  obtain ⟨hlt, hend, hlen⟩ := hwin
  have hth := h.place hlt
  rcases Nat.eq_zero_or_pos (tp.offset th.thSeq) with hzero | hpos
  · rw [hzero, Nat.add_zero] at hth hcame
    exact (tcpReass_next mem h hState hth hcame hlen).1
  · exact tcpReass_behind mem h hth hcame hlen (by omega) (by omega)

variable {tState : Nat} {c : TcpConn}

theorem TcpConn.Ok.input (h : c.Ok tState r)
    (hState : tcpsEstablished ≤ tState) (mem : Bool) (hwin : th.InWindow c.tp) :
    (c.input th mem).Ok tState r := by
  have hgot := @Carried.cons c.received (c.handed.length + c.tp.offset th.thSeq, th)
  have hend := tcpReass_spec mem (h.stands.mono hgot) (h.tState.symm ▸ hState) hwin
    (came_received c.received _ th)
  rcases hres : tcpReass c.tp th mem with ⟨tp', bytes, fin⟩
  rw [hres] at hend
  have hinput : c.input th mem = { c with
        tp := tp'
        soRcv := if c.cantRcvMore then c.soRcv else c.soRcv ++ bytes
        handed := c.handed ++ bytes
        received := (c.handed.length + c.tp.offset th.thSeq, th) :: c.received } := by
    rw [TcpConn.input, hres]
  rw [hinput]
  refine ⟨hend.tState.trans h.tState, ?_, ?_, ?_, ?_, ?_⟩
  · rw [length_append]
    exact hend.stands
  · exact (h.handed.mono hgot).append (by rw [Nat.zero_add]; exact hend.handed)
  · intro s hs
    rcases mem_cons.1 hs with rfl | hs
    · exact h.stands.place hwin.1
    · exact h.received s hs
  · dsimp only
    split
    · exact h.soRcv.trans (prefix_append _ _)
    · rename_i hopen
      rewrite [h.receives (by simpa using hopen)]
      exact prefix_rfl
  · intro hopen
    dsimp only at hopen ⊢
    rw [hopen, h.receives hopen]
    rfl

theorem TcpConn.Reach.ok (h : TcpConn.Reach tState r c)
    (hState : tcpsEstablished ≤ tState) (hr : r < 2 ^ 32) : c.Ok tState r := by
  induction h with
  | start =>
    refine ⟨rfl, ⟨?_, ⟨0, Nat.two_pow_pos 31 |> Nat.lt_add_left 0, Nat.le_refl 0⟩, ?_⟩, Came.nil 0, ?_, prefix_rfl, fun _ => rfl⟩
    · rw [seqOf_eq]
      exact (Nat.mod_eq_of_lt hr).symm
    · intro q hq
      cases hq
    · intro s hs
      cases hs
  | input th mem _ hwin ih => exact ih.input hState mem hwin
  | shut _ ih => exact ⟨ih.tState, ih.stands, ih.handed, ih.received, ih.soRcv, fun hopen => by cases hopen⟩

/-- However segments come in, with memory for queue entries or without: the queue is in
    order, without overlaps and at or above `rcv_nxt`; the bytes handed over are those from
    the first `rcv_nxt` to this one, each carried by a segment at its place; they are what
    was appended to `so_rcv` as long as the socket receives; and a segment at `rcv_nxt` that
    gets an entry advances `rcv_nxt` to a place that nothing queued covers. -/
theorem tcp_reass_stream {tState r : Nat} (hState : tcpsEstablished ≤ tState) (hr : r < 2 ^ 32)
    {c : TcpConn} (h : TcpConn.Reach tState r c) :
    (∀ q ∈ c.tp.segq, c.tp.offset q.thSeq + q.thReseqlen < 2 ^ 31 ∧ q.data.length = q.thReseqlen) ∧
    c.tp.segq.Pairwise (fun q q' => c.tp.offset q.thSeq + q.thReseqlen ≤ c.tp.offset q'.thSeq) ∧
    c.tp.rcvNxt = (r + c.handed.length) % 2 ^ 32 ∧
    (∀ k b, c.handed[k]? = some b → ∃ s ∈ c.received, ∃ j, s.1 + j = k ∧ s.2.data[j]? = some b) ∧
    (∀ s ∈ c.received, s.2.thSeq = (r + s.1) % 2 ^ 32) ∧
    c.soRcv <+: c.handed ∧ (c.cantRcvMore = false → c.soRcv = c.handed) ∧
    ∀ th mem segq, th.InWindow c.tp → th.thSeq = c.tp.rcvNxt → allocQent c.tp th mem = some segq →
      ∃ n, (c.input th mem).handed.length = c.handed.length + n ∧ th.data.length ≤ n ∧
        ∀ q ∈ segq, ¬ (c.tp.offset q.thSeq ≤ n ∧ n < c.tp.offset q.thSeq + q.thReseqlen) := by
  have hok := h.ok hState hr
  obtain ⟨hi, hhi, hsegq⟩ := hok.stands.segq
  have hoff : ∀ {q : TcpQent} {a : Nat} {d : List UInt8}, q.At r a d → c.handed.length ≤ a → a ≤ hi →
      c.tp.offset q.thSeq = a - c.handed.length := by
    intro q a d hat ha ha'
    rw [TcpReass.offset, hok.stands.rcvNxt, hat.1]
    exact offset_place ha (by omega)
  refine ⟨?_, ?_, ?_, ?_, ?_, hok.soRcv, hok.receives, ?_⟩
  · intro q hq
    obtain ⟨a, d, ha, hend, hat, -⟩ := hsegq.mem hq
    rw [hoff hat ha (by omega), hat.2.1, hat.2.2]
    exact ⟨by omega, rfl⟩
  · refine hsegq.pairwise.imp ?_
    rintro q q' ⟨a, d, a', d', ha, hat, hat', hle, hend⟩
    rw [hoff hat ha (by omega), hoff hat' (by omega) (by omega), hat.2.1]
    omega
  · rw [hok.stands.rcvNxt, seqOf_eq]
  · intro k b hk
    have hcame := hok.handed k b hk
    rwa [Nat.zero_add] at hcame
  · intro s hs
    rw [hok.received s hs, seqOf_eq]
  · intro th mem segq hwin hnext halloc
    have hgot := @Carried.cons c.received (c.handed.length + 0, th)
    have hth : th.thSeq = seqOf (r + c.handed.length) := hnext.trans hok.stands.rcvNxt
    obtain ⟨-, hall⟩ := tcpReass_next mem (hok.stands.mono hgot) (hok.tState.symm ▸ hState) hth
      (came_received c.received _ th) hwin.2.2
    obtain ⟨hle, hcov⟩ := hall segq halloc
    refine ⟨_, ?_, hle, hcov⟩
    rw [TcpConn.input]
    exact length_append

/-- Two bytes from the end of the numbers on come after the two that follow them. -/
theorem tcp_reass_stream_wrap :
    let c := ((TcpConn.start 4 4294967294).input ⟨0, false, [3, 4]⟩ true).input
      ⟨4294967294, false, [1, 2]⟩ true
    (c.tp = ⟨4, 2, []⟩ ∧ c.handed = [1, 2, 3, 4]) ∧ c.tp.rcvNxt = (4294967294 + c.handed.length) % 2 ^ 32 :=
  ⟨by decide +kernel, (tcp_reass_stream (by decide) (by decide)
    (.input ⟨4294967294, false, [1, 2]⟩ true (.input ⟨0, false, [3, 4]⟩ true .start (by decide))
      (by decide))).2.2.1⟩

/-- On a socket that receives no more, `rcv_nxt` advances past bytes that are not in `so_rcv`. -/
theorem freed_bytes_not_appended :
    ¬ ∀ c : TcpConn, TcpConn.Reach tcpsEstablished 0 c → c.tp.rcvNxt = (0 + c.soRcv.length) % 2 ^ 32 := by
  intro h
  have hstep := h ((TcpConn.start tcpsEstablished 0).shut.input ⟨0, false, [7]⟩ true)
    (TcpConn.Reach.input _ true (TcpConn.Reach.shut TcpConn.Reach.start) (by decide))
  revert hstep
  decide

end OpenBsd.Netinet
