/-
  OpenBsd.Netinet.IpReassEcn

  Congestion marks in `ip_reass` of `sys/netinet/ip_input.c`: a mark goes to the header of
  the fragment that is the first one at the time.
-/

import OpenBsd.Netinet.IpReassParts

namespace OpenBsd.Netinet

open OpenBsd.Lib List Function

/-! ## Marks -/

/-- The packet is marked: congestion experienced. -/
def IpPkt.Ce (f : IpPkt) : Prop := f.ipTos &&& iptosEcnCe = iptosEcnCe

instance (f : IpPkt) : Decidable f.Ce := inferInstanceAs (Decidable (_ = _))

/-- A payload in fragments that are all ECN-capable. -/
structure EcnFragmented (payload : List UInt8) (fs : List IpPkt) : Prop where
  parts : FragmentsOf 0 payload fs
  two : 2 ≤ fs.length
  whole : ∀ f ∈ fs, f.Whole
  capable : ∀ f ∈ fs, f.ipTos &&& iptosEcnCe ≠ 0
  size : ∀ f ∈ fs.head?, f.ipHl <<< 2 + payload.length ≤ ipMaxpacket

/-- The packet with another type of service. -/
def IpPkt.withTos (tos : IpPkt → Nat) (f : IpPkt) : IpPkt := { f with ipTos := tos f }

/-- A marked packet has come after `f`, or is it; `seen` has the last one first. -/
def MarkedSince (f : IpPkt) : List IpPkt → Prop
  | [] => False
  | x :: seen => x.Ce ∧ f ∈ x :: seen ∨ MarkedSince f seen

section

variable {payload : List UInt8} {fs seen xs : List IpPkt} {x f : IpPkt} {tos : IpPkt → Nat}

theorem not_markedSince (h : f ∉ seen) : ¬ MarkedSince f seen := by
  induction seen with
  | nil => exact id
  | cons x seen ih =>
    rintro (⟨-, hmem⟩ | hrest)
    · exact h hmem
    · exact ih (fun hmem => h (mem_cons_of_mem x hmem)) hrest

theorem markedSince_iff :
    MarkedSince f seen ↔ ∃ post x pre, seen = post ++ x :: pre ∧ x.Ce ∧ f ∈ x :: pre := by
  induction seen with
  | nil =>
    refine iff_of_false id ?_
    rintro ⟨post, x, pre, heq, -⟩
    exact append_ne_nil_of_right_ne_nil post (cons_ne_nil _ _) heq.symm
  | cons y seen ih =>
    rw [MarkedSince, ih]
    constructor
    · rintro (⟨hce, hmem⟩ | ⟨post, x, pre, rfl, hce, hmem⟩)
      · exact ⟨[], y, seen, rfl, hce, hmem⟩
      · exact ⟨y :: post, x, pre, rfl, hce, hmem⟩
    · rintro ⟨post, x, pre, heq, hce, hmem⟩
      cases post with
      | nil =>
        obtain ⟨rfl, rfl⟩ := List.cons.inj heq
        exact .inl ⟨hce, hmem⟩
      | cons z post =>
        obtain ⟨rfl, rfl⟩ := List.cons.inj heq
        exact .inr ⟨post, x, pre, rfl, hce, hmem⟩

theorem markedSince_reverse :
    MarkedSince f xs.reverse ↔ ∃ pre x post, xs = pre ++ x :: post ∧ x.Ce ∧ (f ∈ pre ∨ f = x) := by
  rw [markedSince_iff]
  constructor
  · rintro ⟨post, x, pre, heq, hce, hmem⟩
    refine ⟨pre.reverse, x, post.reverse, ?_, hce, ?_⟩
    · rw [← reverse_reverse xs, heq, reverse_append, reverse_cons, append_assoc, singleton_append]
    · rw [mem_reverse]
      exact (mem_cons.1 hmem).symm
  · rintro ⟨pre, x, post, rfl, hce, hmem⟩
    refine ⟨post.reverse, x, pre.reverse, ?_, hce, ?_⟩
    · rw [reverse_append, reverse_cons, append_assoc, singleton_append]
    · rw [mem_cons, mem_reverse]
      exact hmem.symm

/-! ## Fragments with other marks -/

theorem FragmentsOf.withTos {off : Nat} (h : FragmentsOf off payload fs) (tos : IpPkt → Nat) :
    FragmentsOf off payload (fs.map (IpPkt.withTos tos)) := by
  induction fs generalizing off payload with
  | nil => exact h
  | cons f fs ih =>
    cases fs with
    | nil => exact h
    | cons g gs =>
      obtain ⟨hoff, hmff, hne, rest, hpayload, hrest⟩ := h
      exact ⟨hoff, hmff, hne, rest, hpayload, ih hrest⟩

theorem pairwise_withTos (h : fs.Pairwise Before) (tos : IpPkt → Nat) :
    (fs.map (IpPkt.withTos tos)).Pairwise Before :=
  pairwise_map.2 h

theorem marked_bits (t : Nat) : (t ||| iptosEcnCe) &&& iptosEcnCe = iptosEcnCe := by
  rw [Nat.and_or_distrib_right, Nat.and_self]
  refine Nat.eq_of_testBit_eq fun i => ?_
  rw [Nat.testBit_or, Nat.testBit_and]
  cases t.testBit i <;> cases iptosEcnCe.testBit i <;> rfl

/-- Among fragments that are ECN-capable none is dropped; the mark of the new one goes to the
    first. -/
theorem ecnCheck_capable (first ipqe : Ipqent) (hfirst : first.ipTos &&& iptosEcnCe ≠ 0)
    (hipqe : ipqe.ipTos &&& iptosEcnCe ≠ 0) :
    ecnCheck first ipqe = some { first with
      ipTos := if ipqe.ipTos &&& iptosEcnCe = iptosEcnCe ∧
          first.ipTos &&& iptosEcnCe ≠ iptosEcnCe then first.ipTos ||| iptosEcnCe
        else first.ipTos } := by
  rw [ecnCheck, if_neg (fun h => hfirst h.2), if_neg (fun h => hipqe h.1)]
  split <;> rfl

/-- The queue is made of the fragments that have come, and the fragment at the start of the
    datagram carries a mark if one has come since it is there. -/
def HoldsEcn (fs seen : List IpPkt) (fp : Option Ipq) : Prop :=
  (seen = [] ∧ fp = none) ∨ ∃ q tos, fp = some q ∧
    q.fragq = ((seenOf fs seen).map (IpPkt.withTos tos)).map IpPkt.entry ∧
    (∀ f ∈ seenOf fs seen, tos f &&& iptosEcnCe ≠ 0) ∧
    ∀ f ∈ fs.head?, f ∈ seen → (tos f &&& iptosEcnCe = iptosEcnCe ↔ MarkedSince f seen)

section

variable {fp : Option Ipq} (h : EcnFragmented payload fs)
include h

/-- `ip_reass` on a fragment that has not come yet. -/
theorem EcnFragmented.reass (hx : x ∈ fs) (hseen : x ∉ seen) (hfp : HoldsEcn fs seen fp) :
    ∃ q tos, ipReass x.entry fp true = complete q ∧
      q.fragq = ((seenOf fs (x :: seen)).map (IpPkt.withTos tos)).map IpPkt.entry ∧
      (∀ f ∈ seenOf fs (x :: seen), tos f &&& iptosEcnCe ≠ 0) ∧
      ∀ f ∈ fs.head?, f ∈ x :: seen →
        (tos f &&& iptosEcnCe = iptosEcnCe ↔ MarkedSince f (x :: seen)) := by
  obtain ⟨hbounds, hpair⟩ := h.parts.bounds
  have hself : ∀ f ∈ fs, ¬ Before f f := fun f hf => not_before_self (hbounds f hf).2
  have hxcapable := h.capable x hx
  obtain ⟨A, B, rfl⟩ := append_of_mem hx
  have hxAB : x ∉ A ∧ x ∉ B := by
    obtain ⟨-, hxB, hAx⟩ := pairwise_append.1 hpair
    exact ⟨fun hA => hself x hx (hAx x hA x mem_cons_self),
      fun hB => hself x hx ((pairwise_cons.1 hxB).1 x hB)⟩
  obtain ⟨hnew, hold⟩ := seenOf_cons hxAB hseen
  rcases hfp with ⟨rfl, rfl⟩ | ⟨q, tos, rfl, hq, hcapable, hhead⟩
  · -- the first one to come
    refine ⟨⟨[x.entry], cons_ne_nil _ _⟩, IpPkt.ipTos, rfl, ?_, fun f hf => ?_, fun f hf hmem => ?_⟩
    · rw [hnew]
      simp [seenOf, IpPkt.withTos]
    · rw [hnew] at hf
      simp only [seenOf, not_mem_nil, decide_false, filter_false, nil_append, mem_singleton] at hf
      exact hf ▸ hxcapable
    · obtain rfl := mem_singleton.1 hmem
      exact ⟨fun hce => .inl ⟨hce, hmem⟩, fun hs => hs.elim And.left False.elim⟩
  · -- `f₁` is the first in the queue
    obtain ⟨f₁, L, hL⟩ : ∃ f₁ L, seenOf (A ++ x :: B) seen = f₁ :: L := by
      refine exists_cons_of_ne_nil fun hnil => q.ne ?_
      rw [hq, hnil]
      rfl
    have hsub := seenOf_sublist (A ++ x :: B) seen
    have hpairL := hpair.sublist hsub
    rw [hL] at hpairL
    have hf₁ : f₁ ∈ A ++ x :: B ∧ f₁ ∈ seen := by
      have hmem : f₁ ∈ seenOf (A ++ x :: B) seen := hL ▸ mem_cons_self
      exact ⟨hsub.subset hmem, of_decide_eq_true (mem_filter.1 hmem).2⟩
    have hf₁L : f₁ ∉ L := fun hmem => hself f₁ hf₁.1 ((pairwise_cons.1 hpairL).1 f₁ hmem)
    have hf₁x : f₁ ≠ x := fun heq => hseen (heq ▸ hf₁.2)
    have hfirst : q.first = (f₁.withTos tos).entry := by
      have hhead? : q.fragq.head? = some (f₁.withTos tos).entry := by
        rw [hq, hL]
        rfl
      rw [head?_eq_some_head q.ne] at hhead?
      exact Option.some.inj hhead?
    have htail : q.fragq.tail = (L.map (IpPkt.withTos tos)).map IpPkt.entry := by
      rw [hq, hL]
      rfl
    -- its type of service behind the check
    obtain ⟨t₁, ht₁⟩ : ∃ t₁, t₁ = if x.ipTos &&& iptosEcnCe = iptosEcnCe ∧
        tos f₁ &&& iptosEcnCe ≠ iptosEcnCe then tos f₁ ||| iptosEcnCe else tos f₁ := ⟨_, rfl⟩
    have hf₁capable : tos f₁ &&& iptosEcnCe ≠ 0 := hcapable f₁ (hL ▸ mem_cons_self)
    have ht₁bits : t₁ &&& iptosEcnCe = iptosEcnCe ↔ x.Ce ∨ tos f₁ &&& iptosEcnCe = iptosEcnCe := by
      rw [ht₁]
      split
      · next hboth => exact iff_of_true (marked_bits _) (.inl hboth.1)
      · next hno =>
        refine ⟨.inr, fun hor => hor.elim (fun hce => ?_) id⟩
        by_contra hnot
        exact hno ⟨hce, hnot⟩
    have ht₁capable : t₁ &&& iptosEcnCe ≠ 0 := by
      rw [ht₁]
      split
      · rw [marked_bits]
        decide
      · exact hf₁capable
    have hcheck : ecnCheck q.first x.entry = some { q.first with ipTos := t₁ } := by
      have hcap := ecnCheck_capable q.first x.entry (by rw [hfirst]; exact hf₁capable) hxcapable
      rw [hcap, ht₁, hfirst]
      rfl
    obtain ⟨tos', htos'⟩ : ∃ tos', tos' = update (update tos f₁ t₁) x x.ipTos :=
      ⟨_, rfl⟩
    have htos'x : tos' x = x.ipTos := by rw [htos', update_self]
    have htos'f₁ : tos' f₁ = t₁ := by
      rw [htos', update_of_ne hf₁x, update_self]
    have htos'L : ∀ f ∈ L, tos' f = tos f := by
      intro f hf
      have hfx : f ≠ x := by
        rintro rfl
        have hmem : f ∈ seenOf (A ++ f :: B) seen := hL ▸ mem_cons_of_mem f₁ hf
        exact hseen (of_decide_eq_true (mem_filter.1 hmem).2)
      have hff₁ : f ≠ f₁ := fun heq => hf₁L (heq ▸ hf)
      rw [htos', update_of_ne hfx, update_of_ne hff₁]
    have hqueue : ({ q.first with ipTos := t₁ } : Ipqent) :: q.fragq.tail
        = ((seenOf A seen).map (IpPkt.withTos tos') ++
            (seenOf B seen).map (IpPkt.withTos tos')).map IpPkt.entry := by
      rw [← map_append, ← hold, hL, hfirst, htail, map_cons, map_cons]
      refine congrArg₂ List.cons ?_ (congrArg _ (map_congr_left fun f hf => ?_))
      · rw [IpPkt.withTos, IpPkt.withTos, htos'f₁]
        rfl
      · rw [IpPkt.withTos, IpPkt.withTos, htos'L f hf]
    have hxmark : x.withTos tos' = x := by rw [IpPkt.withTos, htos'x]
    have hsubnew := seenOf_sublist (A ++ x :: B) (x :: seen)
    have hpairnew := pairwise_withTos (hpair.sublist hsubnew) tos'
    have hall : ∀ f ∈ (seenOf (A ++ x :: B) (x :: seen)).map (IpPkt.withTos tos'),
        f.Whole ∧ f.data ≠ [] := by
      intro f hf
      obtain ⟨g, hg, rfl⟩ := mem_map.1 hf
      exact ⟨h.whole g (hsubnew.subset hg), (hbounds g (hsubnew.subset hg)).2⟩
    rw [hnew, map_append, map_cons, hxmark] at hpairnew hall
    obtain ⟨q', hq', hreass⟩ := ipReass_insert true hcheck hqueue hpairnew
      (fun f hf => (hall f hf).1) fun f hf => (hall f hf).2
    refine ⟨q', tos', hreass, ?_, fun f hf => ?_, fun f hf hmem => ?_⟩
    · have hlist : (seenOf (A ++ x :: B) (x :: seen)).map (IpPkt.withTos tos')
          = (seenOf A seen).map (IpPkt.withTos tos') ++
            x :: (seenOf B seen).map (IpPkt.withTos tos') := by
        rw [hnew, map_append, map_cons, hxmark]
      rw [hq', hlist]
    · by_cases hfx : f = x
      · rw [hfx, htos'x]
        exact hxcapable
      · have hfold : f ∈ f₁ :: L := by
          rw [← hL, hold]
          rw [hnew, mem_append, mem_cons] at hf
          rcases hf with hf | hf | hf
          · exact mem_append_left _ hf
          · exact absurd hf hfx
          · exact mem_append_right _ hf
        rcases mem_cons.1 hfold with rfl | hfL
        · rw [htos'f₁]
          exact ht₁capable
        · rw [htos'L f hfL]
          exact hcapable f (hL ▸ hfold)
    · rw [MarkedSince]
      by_cases hfx : f = x
      · subst hfx
        rw [htos'x]
        refine ⟨fun hce => .inl ⟨hce, hmem⟩, fun hs => hs.elim And.left fun hs => ?_⟩
        exact absurd hs (not_markedSince hseen)
      · have hfseen : f ∈ seen := (mem_cons.1 hmem).resolve_left hfx
        -- the start of the datagram is there, so it is the first in the queue
        obtain rfl : f = f₁ := by
          obtain ⟨l, hl⟩ : ∃ l, A ++ x :: B = f :: l := by
            cases hfs : A ++ x :: B with
            | nil => rw [hfs] at hf; cases hf
            | cons g l => rw [hfs] at hf; exact ⟨l, by rw [Option.some.inj hf]⟩
          rw [hl, seenOf, filter_cons, if_pos (decide_eq_true hfseen), List.cons.injEq] at hL
          exact hL.1
        rw [htos'f₁, ht₁bits, hhead f hf hfseen]
        exact or_congr_left ⟨fun hce => ⟨hce, hmem⟩, And.left⟩

/-- One fragment more: the datagram goes on when all are there, with the mark of its start. -/
theorem EcnFragmented.step (hx : x ∈ fs) (hseen : x ∉ seen) (hfp : HoldsEcn fs seen fp) :
    (¬ (∀ f ∈ fs, f ∈ x :: seen) ∧ ∃ fp', ipOurs fp x true true = (fp', none) ∧
      HoldsEcn fs (x :: seen) fp') ∨
    ((∀ f ∈ fs, f ∈ x :: seen) ∧ ∃ m, ipOurs fp x true true = (none, some m) ∧
      m.data = payload ∧ ∀ f ∈ fs.head?, (m.Ce ↔ MarkedSince f (x :: seen))) := by
  obtain ⟨q, tos, hreass, hq, hcapable, hhead⟩ := h.reass hx hseen hfp
  have hparts := h.parts.withTos tos
  have hwhole : ∀ f ∈ fs.map (IpPkt.withTos tos), f.Whole := by
    intro f hf
    obtain ⟨g, hg, rfl⟩ := mem_map.1 hf
    exact h.whole g hg
  have hmax : ∀ f ∈ (fs.map (IpPkt.withTos tos)).head?,
      f.ipHl <<< 2 + payload.length ≤ ipMaxpacket := by
    intro f hf
    rw [head?_map, Option.mem_def, Option.map_eq_some_iff] at hf
    obtain ⟨g, hg, rfl⟩ := hf
    exact h.size g hg
  have hsub := seenOf_sublist fs (x :: seen)
  rw [h.parts.ours h.two h.whole hx, hreass]
  rcases hparts.complete_iff hwhole hmax hq (hsub.map _) with
    ⟨hpart, hc⟩ | ⟨hall, m, hc, hdata, -, -, hm⟩
  · left
    rw [hc]
    exact ⟨fun hall => hpart (by rw [seenOf_eq_self.2 hall]), some q, rfl,
      .inr ⟨q, tos, rfl, hq, hcapable, hhead⟩⟩
  · right
    have hlen := congrArg List.length hall
    rw [length_map, length_map] at hlen
    have hallseen := seenOf_eq_self.1 (hsub.eq_of_length hlen)
    rw [hc]
    refine ⟨hallseen, _, rfl, hdata, fun f hf => ?_⟩
    obtain ⟨-, hmtos, -⟩ := hm (f.withTos tos) (by rw [head?_map, hf]; rfl)
    have hfmem : f ∈ fs := mem_of_mem_head? hf
    rw [← hhead f hf (hallseen f hfmem)]
    show m.ipTos &&& iptosEcnCe = iptosEcnCe ↔ _
    rw [hmtos]
    rfl

/-- The fragments in any order: what goes on at the end. -/
theorem EcnFragmented.run (hfp : HoldsEcn fs seen fp) (hxs : ∀ f ∈ xs, f ∈ fs) (hnodup : xs.Nodup)
    (hnew : ∀ f ∈ xs, f ∉ seen) (hall : ∀ f ∈ fs, f ∈ seen ∨ f ∈ xs) (hne : xs ≠ []) :
    ∃ m, (ipRun fp xs).2.getLast? = some (some m) ∧ m.data = payload ∧
      ∀ f ∈ fs.head?, (m.Ce ↔ MarkedSince f (xs.reverse ++ seen)) := by
  induction xs generalizing seen fp with
  | nil => exact absurd rfl hne
  | cons x xs ih =>
    obtain ⟨hxnew, hnodup'⟩ := nodup_cons.1 hnodup
    rw [reverse_cons, append_assoc, singleton_append, ipRun]
    rcases h.step (hxs x mem_cons_self) (hnew x mem_cons_self) hfp with
      ⟨hmiss, fp', hours, hfp'⟩ | ⟨hdone, m, hours, hdata, hce⟩
    · have hne' : xs ≠ [] := by
        rintro rfl
        refine hmiss fun f hf => (hall f hf).elim (mem_cons_of_mem x) fun hmem => ?_
        rw [mem_singleton.1 hmem]
        exact mem_cons_self
      obtain ⟨m, hlast, hrest⟩ := ih hfp' (fun f hf => hxs f (mem_cons_of_mem x hf)) hnodup'
        (fun f hf hmem => (mem_cons.1 hmem).elim (fun heq => hxnew (heq ▸ hf))
          (hnew f (mem_cons_of_mem x hf)))
        (fun f hf => (hall f hf).elim (fun hs => .inl (mem_cons_of_mem x hs)) fun hmem =>
          (mem_cons.1 hmem).elim (fun heq => .inl (heq ▸ mem_cons_self)) .inr) hne'
      refine ⟨m, ?_, hrest⟩
      rw [hours]
      dsimp only
      rw [getLast?_cons, hlast]
      rfl
    · -- nothing can be left
      obtain rfl : xs = [] := by
        refine eq_nil_iff_forall_not_mem.2 fun f hf => ?_
        have hfs := hdone f (hxs f (mem_cons_of_mem x hf))
        rcases mem_cons.1 hfs with heq | hs
        · exact hxnew (heq ▸ hf)
        · exact hnew f (mem_cons_of_mem x hf) hs
      refine ⟨m, ?_, hdata, hce⟩
      rw [hours]
      rfl

end

/-- No fragment is marked, or one that is marked comes with the start of the datagram or after
    it. -/
def KeepsMark (fs xs : List IpPkt) : Prop :=
  (∀ f ∈ fs, ¬ f.Ce) ∨
    ∃ f ∈ fs.head?, ∃ pre x post, xs = pre ++ x :: post ∧ x.Ce ∧ (f ∈ pre ∨ f = x)

/-- The datagram that the fragments give is marked if any of them was, exactly when one that is
    marked does not come before the start of the datagram. -/
theorem ipReass_ecn_iff (h : EcnFragmented payload fs) (hxs : xs.Perm fs) :
    ∃ m, (ipRun none xs).2.getLast? = some (some m) ∧ m.data = payload ∧
      (((∃ f ∈ fs, f.Ce) → m.Ce) ↔ KeepsMark fs xs) := by
  have hpair := h.parts.bounds.2
  have hnodup : fs.Nodup := by
    refine List.Pairwise.imp_of_mem (fun {a b} ha hb hab heq => ?_) hpair
    exact not_before_self (h.parts.bounds.1 a ha).2 (heq ▸ hab)
  have hne : xs ≠ [] := by
    rintro rfl
    have htwo := h.two
    rw [nil_perm.1 hxs] at htwo
    exact absurd htwo (by decide)
  obtain ⟨m, hlast, hdata, hce⟩ := h.run (.inl ⟨rfl, rfl⟩) (fun f hf => hxs.subset hf)
    (hxs.nodup_iff.2 hnodup) (fun f _ => not_mem_nil)
    (fun f hf => .inr (hxs.symm.subset hf)) hne
  refine ⟨m, hlast, hdata, ?_⟩
  obtain ⟨f, fs', rfl⟩ : ∃ f fs', fs = f :: fs' :=
    exists_cons_of_ne_nil fun hnil => hne (perm_nil.1 (hnil ▸ hxs))
  have hmark := hce f rfl
  rw [append_nil, markedSince_reverse] at hmark
  rw [hmark, KeepsMark]
  constructor
  · intro himp
    by_cases hany : ∃ g ∈ f :: fs', g.Ce
    · exact .inr ⟨f, rfl, himp hany⟩
    · exact .inl fun g hg hgce => hany ⟨g, hg, hgce⟩
  · rintro (hnone | ⟨g, hg, hx⟩) ⟨g', hg', hce'⟩
    · exact absurd hce' (hnone g' hg')
    · obtain rfl := Option.some.inj hg
      exact hx

end

/-- Two fragments, ECN-capable the one and marked the other. -/
def ecnFirst : IpPkt := ⟨5, 2, 28, 0x2000, [1, 2, 3, 4, 5, 6, 7, 8], {}⟩

@[inherit_doc ecnFirst]
def ecnSecond : IpPkt := ⟨5, 3, 23, 1, [9, 10, 11], {}⟩

theorem ecnFragmented_two :
    EcnFragmented [1, 2, 3, 4, 5, 6, 7, 8, 9, 10, 11] [ecnFirst, ecnSecond] :=
  ⟨⟨by decide, by decide, by decide, [9, 10, 11], rfl, by decide, by decide, rfl, by decide⟩,
    by decide, by decide, by decide, by decide⟩

/-- In order. -/
theorem ipReass_ecn_iff_two :
    ∃ m, (ipRun none [ecnFirst, ecnSecond]).2.getLast? = some (some m) ∧
      m.data = [1, 2, 3, 4, 5, 6, 7, 8, 9, 10, 11] ∧
      (((∃ f ∈ [ecnFirst, ecnSecond], f.Ce) → m.Ce) ↔
        KeepsMark [ecnFirst, ecnSecond] [ecnFirst, ecnSecond]) :=
  ipReass_ecn_iff ecnFragmented_two (List.Perm.refl _)

/-- The marked fragment comes first, and its mark is lost. -/
theorem ipReass_ecn_lost :
    EcnFragmented [1, 2, 3, 4, 5, 6, 7, 8, 9, 10, 11] [ecnFirst, ecnSecond] ∧
      ecnSecond.Ce ∧ ∃ m, (ipRun none [ecnSecond, ecnFirst]).2 = [none, some m] ∧ m.ipTos = 2 :=
  ⟨ecnFragmented_two, by decide, _, rfl, rfl⟩

end OpenBsd.Netinet
