/-
  OpenBsd.Netinet.IpReassParts

  The fragments of one datagram: they are completed once the last of them is there.
-/

import OpenBsd.Netinet.IpReassRun

namespace OpenBsd.Netinet

open OpenBsd.Lib List

variable {off : Nat} {payload : List UInt8} {fs A B seen : List IpPkt} {q : Ipq} {first : Ipqent}
  {x : IpPkt}

/-! ## Fragments in order -/

/-- The first packet ends before the other starts. -/
def Before (f g : IpPkt) : Prop := f.entry.ipOff + f.data.length ≤ g.entry.ipOff

theorem FragmentsOf.cons {off : Nat} {payload : List UInt8} {f : IpPkt} {fs : List IpPkt}
    (h : FragmentsOf off payload (f :: fs)) (hne : fs ≠ []) :
    f.entry.ipOff = off ∧ f.entry.ipqeMff = true ∧ f.data ≠ [] ∧
      ∃ rest, payload = f.data ++ rest ∧ FragmentsOf (off + f.data.length) rest fs := by
  cases fs with
  | nil => exact absurd rfl hne
  | cons g gs => exact h

theorem FragmentsOf.head {f : IpPkt} (h : FragmentsOf off payload (f :: fs)) :
    f.entry.ipOff = off ∧ f.data ≠ [] := by
  cases fs with
  | nil =>
    obtain ⟨hoff, -, hdata, hne⟩ := h
    exact ⟨hoff, by rw [hdata]; exact hne⟩
  | cons g gs => exact ⟨h.1, h.2.2.1⟩

theorem FragmentsOf.bounds (h : FragmentsOf off payload fs) :
    (∀ f ∈ fs, off ≤ f.entry.ipOff ∧ f.data ≠ []) ∧ fs.Pairwise Before := by
  induction fs generalizing off payload with
  | nil => exact ⟨fun f hf => (by cases hf), List.Pairwise.nil⟩
  | cons f fs ih =>
    obtain ⟨hoff, hne⟩ := h.head
    by_cases hfs : fs = []
    · subst hfs
      refine ⟨fun g hg => ?_, pairwise_singleton _ _⟩
      rw [mem_singleton.1 hg]
      exact ⟨Nat.le_of_eq hoff.symm, hne⟩
    · obtain ⟨-, -, -, rest, -, hrest⟩ := h.cons hfs
      obtain ⟨hlow, hpair⟩ := ih hrest
      refine ⟨fun g hg => ?_, pairwise_cons.2 ⟨fun g hg => ?_, hpair⟩⟩
      · rcases mem_cons.1 hg with rfl | hg
        · exact ⟨Nat.le_of_eq hoff.symm, hne⟩
        · exact ⟨by have := (hlow g hg).1; omega, (hlow g hg).2⟩
      · unfold Before
        rw [hoff]
        exact (hlow g hg).1

theorem FragmentsOf.fragment {off : Nat} {payload : List UInt8} {fs : List IpPkt}
    (h : FragmentsOf off payload fs) (htwo : 2 ≤ fs.length ∨ 0 < off) :
    ∀ f ∈ fs, f.IsFragment ∧ (f.entry.ipqeMff = true → f.data.length % 8 = 0) := by
  induction fs generalizing off payload with
  | nil => exact fun f hf => (by cases hf)
  | cons f fs ih =>
    obtain ⟨hoff, hne⟩ := h.head
    intro g hg
    by_cases hfs : fs = []
    · subst hfs
      rw [mem_singleton.1 hg]
      obtain ⟨-, hmff, -⟩ := h
      simp only [length_cons, length_nil] at htwo
      exact ⟨f.isFragment_iff.2 (.inr (by omega)), fun hno => by rw [hmff] at hno; cases hno⟩
    · obtain ⟨-, hmff, -, rest, -, hrest⟩ := h.cons hfs
      have hpos := length_pos_iff.2 hne
      rcases mem_cons.1 hg with rfl | hg
      · refine ⟨g.isFragment_iff.2 (.inl hmff), fun _ => ?_⟩
        obtain ⟨g', gs, rfl⟩ := exists_cons_of_ne_nil hfs
        have hnext := hrest.head.1
        rw [IpPkt.entry_off] at hoff hnext
        omega
      · exact ih hrest (.inr (by omega)) g hg

theorem FragmentsOf.all (h : FragmentsOf off payload fs) (hwhole : ∀ f ∈ fs, f.Whole) :
    sumLoop (fs.map IpPkt.entry) off = some (off + payload.length) ∧
      ((fs.map IpPkt.entry).map Ipqent.data).flatten = payload ∧
      ∀ last, (fs.map IpPkt.entry).getLast? = some last → last.ipqeMff = false := by
  induction fs generalizing off payload with
  | nil => exact h.elim
  | cons f fs ih =>
    have hlen := (hwhole f mem_cons_self).entry_len
    rw [map_cons, map_cons, flatten_cons, sumLoop, hlen, if_neg (by simpa using h.head.1)]
    by_cases hfs : fs = []
    · subst hfs
      obtain ⟨-, hmff, rfl, -⟩ := h
      refine ⟨rfl, append_nil _, fun last hlast => ?_⟩
      cases hlast
      exact hmff
    · obtain ⟨-, -, -, rest, rfl, hrest⟩ := h.cons hfs
      obtain ⟨hsum, hdata, hlast⟩ := ih hrest fun g hg => hwhole g (mem_cons_of_mem f hg)
      refine ⟨?_, ?_, ?_⟩
      · rw [hsum, length_append, Nat.add_assoc]
      · rw [hdata]
        rfl
      · obtain ⟨g, gs, rfl⟩ := exists_cons_of_ne_nil hfs
        intro last hl
        rw [map_cons, getLast?_cons_cons] at hl
        exact hlast last hl

/-- Some of them: either there is a hole, or the last one is missing. -/
theorem FragmentsOf.some_missing {n : Nat} {l : List IpPkt} (h : FragmentsOf off payload fs)
    (hwhole : ∀ f ∈ fs, f.Whole) (hsub : l.Sublist fs) (hne : l ≠ [])
    (hsum : sumLoop (l.map IpPkt.entry) off = some n)
    (hlast : ∀ last, (l.map IpPkt.entry).getLast? = some last → last.ipqeMff = false) : l = fs := by
  induction fs generalizing off payload l with
  | nil => exact h.elim
  | cons f fs ih =>
    have hlen := (hwhole f mem_cons_self).entry_len
    have hpos := length_pos_iff.2 h.head.2
    cases hsub with
    | cons _ hsub =>
      -- the first one is missing
      obtain ⟨g, gs, rfl⟩ := exists_cons_of_ne_nil hne
      have hg := hsub.subset mem_cons_self
      have hfs : fs ≠ [] := ne_nil_of_mem hg
      obtain ⟨-, -, -, rest, -, hrest⟩ := h.cons hfs
      have hlow := (hrest.bounds.1 g hg).1
      rw [map_cons, sumLoop, if_pos (by omega)] at hsum
      cases hsum
    | cons_cons _ hsub =>
      rename_i l'
      rw [map_cons, sumLoop, hlen, if_neg (by simpa using h.head.1)] at hsum
      by_cases hl' : l' = []
      · subst hl'
        by_cases hfs : fs = []
        · rw [hfs]
        · have hmff := (h.cons hfs).2.1
          rw [hlast f.entry rfl] at hmff
          cases hmff
      · have hfs : fs ≠ [] := by
          rintro rfl
          exact hl' (sublist_nil.1 hsub)
        obtain ⟨-, -, -, rest, -, hrest⟩ := h.cons hfs
        rw [ih hrest (fun g hg => hwhole g (mem_cons_of_mem f hg)) hsub hl' hsum ?_]
        intro last hl
        obtain ⟨g, gs, rfl⟩ := exists_cons_of_ne_nil hl'
        refine hlast last ?_
        rw [map_cons, map_cons, getLast?_cons_cons]
        exact hl

/-! ## One fragment more -/

theorem Ipq.ext_fragq {p : Ipq} (h : p.fragq = q.fragq) : p = q := by
  cases p
  cases q
  cases h
  rfl

theorem ecnCheck_uniform {ipqe : Ipqent}
    (h : first.ipTos &&& iptosEcnCe = ipqe.ipTos &&& iptosEcnCe) :
    ecnCheck first ipqe = some first := by
  simp only [ecnCheck, h]
  rw [if_neg, if_neg, if_neg]
  · exact fun hno => hno.2 hno.1
  · exact fun hno => hno.2 hno.1
  · rintro ⟨hce, hno⟩
    rw [hno] at hce
    cases hce

theorem ipReass_some {ipqe : Ipqent} {fragq : List Ipqent} (mem : Bool)
    (hecn : ecnCheck q.first ipqe = some first) (hfragq : first :: q.fragq.tail = fragq) :
    (trimBefore (fragq.takeWhile (startsBy ipqe.ipOff)).getLast? ipqe = none ∧
      ∃ q' : Ipq, q'.fragq = fragq ∧ ipReass ipqe (some q) mem = (some q', none)) ∨
    ∃ f' q', trimBefore (fragq.takeWhile (startsBy ipqe.ipOff)).getLast? ipqe = some f' ∧
      q'.fragq = fragq.takeWhile (startsBy ipqe.ipOff) ++
        f' :: trimBehind f' (fragq.dropWhile (startsBy ipqe.ipOff)) ∧
      ipReass ipqe (some q) mem = complete q' := by
  subst hfragq
  rw [ipReass, hecn]
  dsimp only
  cases htrim : trimBefore ((first :: q.fragq.tail).takeWhile (startsBy ipqe.ipOff)).getLast? ipqe with
  | none => exact .inl ⟨rfl, _, rfl, by unfold startsBy at htrim; rw [htrim]⟩
  | some f' => exact .inr ⟨f', ⟨_, insert_ne _ _ _⟩, rfl, rfl, by unfold startsBy at htrim ⊢; rw [htrim]⟩

/-- A fragment that is not queued goes to its place, and nothing is trimmed. -/
theorem ipReass_insert (mem : Bool) (hcheck : ecnCheck q.first x.entry = some first)
    (hfirst : first :: q.fragq.tail = (A ++ B).map IpPkt.entry)
    (hpair : (A ++ x :: B).Pairwise Before) (hwhole : ∀ f ∈ A ++ x :: B, f.Whole)
    (hne : ∀ f ∈ A ++ x :: B, f.data ≠ []) :
    ∃ q', q'.fragq = (A ++ x :: B).map IpPkt.entry ∧ ipReass x.entry (some q) mem = complete q' := by
  have hxin : x ∈ A ++ x :: B := mem_append_right A mem_cons_self
  have hxpos := length_pos_iff.2 (hne x hxin)
  have hxlen := (hwhole x hxin).entry_len
  obtain ⟨-, hxB, hAx⟩ := pairwise_append.1 hpair
  have hA : ∀ e ∈ A.map IpPkt.entry, startsBy x.entry.ipOff e = true := by
    intro e he
    obtain ⟨f, hf, rfl⟩ := mem_map.1 he
    have hfx : Before f x := hAx f hf x mem_cons_self
    unfold Before at hfx
    exact startsBy_iff.2 (by omega)
  have hB : ∀ e ∈ B.map IpPkt.entry, ¬ startsBy x.entry.ipOff e = true ∧
      x.entry.ipOff + x.entry.ipLen ≤ e.ipOff := by
    intro e he
    obtain ⟨f, hf, rfl⟩ := mem_map.1 he
    have hxf : Before x f := (pairwise_cons.1 hxB).1 f hf
    unfold Before at hxf
    exact ⟨fun hle => by have := startsBy_iff.1 hle; omega, by omega⟩
  have hsearch : (((A ++ B).map IpPkt.entry).takeWhile (startsBy x.entry.ipOff) = A.map IpPkt.entry) ∧
      ((A ++ B).map IpPkt.entry).dropWhile (startsBy x.entry.ipOff) = B.map IpPkt.entry := by
    rw [map_append, takeWhile_append_of_pos hA, dropWhile_append_of_pos hA]
    cases B with
    | nil => exact ⟨append_nil _, rfl⟩
    | cons b bs =>
      have hb := (hB b.entry mem_cons_self).1
      rw [map_cons, takeWhile_cons_of_neg hb, dropWhile_cons_of_neg hb, append_nil]
      exact ⟨rfl, rfl⟩
  have hbefore : trimBefore (A.map IpPkt.entry).getLast? x.entry = some x.entry := by
    cases hlast : (A.map IpPkt.entry).getLast? with
    | none => rfl
    | some p =>
      obtain ⟨f, hf, rfl⟩ := mem_map.1 (mem_of_getLast? hlast)
      have hfx : Before f x := hAx f hf x mem_cons_self
      have hflen := (hwhole f (mem_append_left _ hf)).entry_len
      unfold Before at hfx
      simp only [trimBefore]
      rw [if_neg (by omega)]
  have hbehind : trimBehind x.entry (B.map IpPkt.entry) = B.map IpPkt.entry := by
    cases B with
    | nil => rfl
    | cons b bs =>
      rw [map_cons, trimBehind, if_neg]
      exact Nat.not_lt.2 (hB b.entry mem_cons_self).2
  rcases ipReass_some mem hcheck hfirst with ⟨hnone, -⟩ | ⟨f', q', hsome, hfragq, hreass⟩
  · rw [hsearch.1, hbefore] at hnone
    cases hnone
  · rw [hsearch.1, hbefore] at hsome
    cases hsome
    refine ⟨q', ?_, hreass⟩
    rw [hfragq, hsearch.1, hsearch.2, hbehind, map_append, map_cons]

theorem ipReass_new (mem : Bool) (hq : q.fragq = (A ++ B).map IpPkt.entry)
    (hpair : (A ++ x :: B).Pairwise Before) (hwhole : ∀ f ∈ A ++ x :: B, f.Whole)
    (hne : ∀ f ∈ A ++ x :: B, f.data ≠ [])
    (hecn : ∀ e ∈ q.fragq, e.ipTos &&& iptosEcnCe = x.ipTos &&& iptosEcnCe) :
    ∃ q', q'.fragq = (A ++ x :: B).map IpPkt.entry ∧ ipReass x.entry (some q) mem = complete q' := by
  have hcheck : ecnCheck q.first x.entry = some q.first :=
    ecnCheck_uniform (hecn q.first (head_mem q.ne))
  have hfirst : q.first :: q.fragq.tail = (A ++ B).map IpPkt.entry := by
    rw [Ipq.first, cons_head_tail, hq]
  exact ipReass_insert mem hcheck hfirst hpair hwhole hne

/-- A fragment that is queued is dropped. -/
theorem ipReass_dup (mem : Bool) (hq : q.fragq = (A ++ x :: B).map IpPkt.entry)
    (hpair : (A ++ x :: B).Pairwise Before) (hwhole : x.Whole) (hne : x.data ≠ [])
    (hecn : ∀ e ∈ q.fragq, e.ipTos &&& iptosEcnCe = x.ipTos &&& iptosEcnCe) :
    ipReass x.entry (some q) mem = (some q, none) := by
  have hxpos := length_pos_iff.2 hne
  have hxlen := hwhole.entry_len
  obtain ⟨-, hxB, hAx⟩ := pairwise_append.1 hpair
  have hfirst : q.first :: q.fragq.tail = (A ++ x :: B).map IpPkt.entry := by
    rw [Ipq.first, cons_head_tail, hq]
  have hA : ∀ e ∈ (A ++ [x]).map IpPkt.entry, startsBy x.entry.ipOff e = true := by
    intro e he
    obtain ⟨f, hf, rfl⟩ := mem_map.1 he
    rcases mem_append.1 hf with hf | hf
    · have hfx : Before f x := hAx f hf x mem_cons_self
      unfold Before at hfx
      exact startsBy_iff.2 (by omega)
    · rw [mem_singleton.1 hf]
      exact startsBy_iff.2 (Nat.le_refl _)
  have hsearch : ((A ++ x :: B).map IpPkt.entry).takeWhile (startsBy x.entry.ipOff) =
      (A ++ [x]).map IpPkt.entry := by
    have happ : A ++ x :: B = (A ++ [x]) ++ B := by rw [append_assoc]; rfl
    rw [happ, map_append, takeWhile_append_of_pos hA]
    cases B with
    | nil => exact append_nil _
    | cons b bs =>
      have hxb : Before x b := (pairwise_cons.1 hxB).1 b mem_cons_self
      unfold Before at hxb
      have hb : ¬ startsBy x.entry.ipOff b.entry = true := fun hle => by
        have := startsBy_iff.1 hle
        omega
      rw [map_cons, takeWhile_cons_of_neg hb, append_nil]
  have htrim : trimBefore (some x.entry) x.entry = none := by
    simp only [trimBefore, hxlen]
    rw [if_pos (by omega), if_pos (by omega)]
  have hcheck : ecnCheck q.first x.entry = some q.first :=
    ecnCheck_uniform (hecn q.first (head_mem q.ne))
  rcases ipReass_some mem hcheck hfirst with ⟨-, q', hfragq, hreass⟩ | ⟨f', q', hsome, -⟩
  · rw [hreass, Ipq.ext_fragq (hfragq.trans hq.symm)]
  · rw [hsearch, map_append, map_singleton, getLast?_concat, htrim] at hsome
    cases hsome

/-- A payload in fragments, as IP allows it: at least two, with the same ECN bits, and with
    the header of the first not too long for a packet. -/
structure Fragmented (payload : List UInt8) (fs : List IpPkt) : Prop where
  parts : FragmentsOf 0 payload fs
  two : 2 ≤ fs.length
  whole : ∀ f ∈ fs, f.Whole
  ecn : ∀ f ∈ fs, ∀ g ∈ fs, f.ipTos &&& iptosEcnCe = g.ipTos &&& iptosEcnCe
  size : ∀ f ∈ fs.head?, f.ipHl <<< 2 + payload.length ≤ ipMaxpacket

/-- The fragments that have come. -/
def seenOf (fs seen : List IpPkt) : List IpPkt := fs.filter fun f => decide (f ∈ seen)

/-- The queue is made of the fragments that have come. -/
def Holds (fs seen : List IpPkt) (fp : Option Ipq) : Prop :=
  (seen = [] ∧ fp = none) ∨ ∃ q, fp = some q ∧ q.fragq = (seenOf fs seen).map IpPkt.entry

theorem seenOf_sublist (fs seen : List IpPkt) : (seenOf fs seen).Sublist fs := filter_sublist

theorem seenOf_eq_self : seenOf fs seen = fs ↔ ∀ f ∈ fs, f ∈ seen := by
  simp only [seenOf, filter_eq_self, decide_eq_true_eq]

theorem not_before_self {f : IpPkt} (h : f.data ≠ []) : ¬ Before f f := by
  have := length_pos_iff.2 h
  unfold Before
  omega

theorem seenOf_cons (hx : x ∉ A ∧ x ∉ B) (hseen : x ∉ seen) :
    seenOf (A ++ x :: B) (x :: seen) = seenOf A seen ++ x :: seenOf B seen ∧
      seenOf (A ++ x :: B) seen = seenOf A seen ++ seenOf B seen := by
  have hkeep : ∀ l : List IpPkt, x ∉ l → seenOf l (x :: seen) = seenOf l seen := by
    intro l hl
    refine filter_congr fun f hf => ?_
    have hne : f ≠ x := fun heq => hl (heq ▸ hf)
    simp only [mem_cons, hne, false_or]
  constructor
  · rw [seenOf, filter_append, filter_cons_of_pos (by simp)]
    exact congrArg₂ (fun a b => a ++ x :: b) (hkeep A hx.1) (hkeep B hx.2)
  · rw [seenOf, filter_append, filter_cons_of_neg (by simpa using hseen)]
    rfl

/-- The header is that of the first of the fragments. -/
def HeadOf (fs : List IpPkt) (m : IpPkt) : Prop :=
  ∀ f ∈ fs.head?, m.ipHl = f.ipHl ∧ m.ipTos = f.ipTos ∧ m.hdr = f.hdr ∧ m.ipOff = 0

/-- The check after an insertion: it completes all, and keeps less. -/
theorem FragmentsOf.complete_iff {l : List IpPkt} (h : FragmentsOf 0 payload fs)
    (hwhole : ∀ f ∈ fs, f.Whole)
    (hmax : ∀ f ∈ fs.head?, f.ipHl <<< 2 + payload.length ≤ ipMaxpacket)
    (hq : q.fragq = l.map IpPkt.entry) (hsub : l.Sublist fs) :
    (l ≠ fs ∧ complete q = (some q, none)) ∨
      (l = fs ∧ ∃ m, complete q = (none, some m) ∧ m.data = payload ∧ m.ipLen = payload.length ∧
        m.ipHl <<< 2 + payload.length ≤ ipMaxpacket ∧ HeadOf fs m) := by
  have hl : l ≠ [] := by
    rintro rfl
    exact q.ne hq
  have hlast : ∀ last, (l.map IpPkt.entry).getLast? = some last → last = q.fragq.getLast q.ne := by
    intro last hlast
    rw [← hq, getLast?_eq_some_getLast q.ne] at hlast
    exact (Option.some.inj hlast).symm
  by_cases hall : l = fs
  · right
    subst hall
    obtain ⟨hsum, hdata, hmff⟩ := h.all hwhole
    rw [Nat.zero_add] at hsum
    obtain ⟨f, gs, rfl⟩ := exists_cons_of_ne_nil hl
    have hsize := hmax f rfl
    have hq0 : q.first = f.entry := by
      have hfirst : q.fragq.head? = some f.entry := by rw [hq]; rfl
      rw [head?_eq_some_head q.ne] at hfirst
      exact Option.some.inj hfirst
    have hhl : q.first.ipHl = f.ipHl := by
      rw [hq0]
      rfl
    have hlastmff : (q.fragq.getLast q.ne).ipqeMff = false :=
      hmff _ (by rw [← hq]; exact getLast?_eq_some_getLast q.ne)
    have hlen : payload.length % 2 ^ 16 = payload.length := by
      simp only [ipMaxpacket] at hsize
      exact Nat.mod_eq_of_lt (by omega)
    rw [← hq] at hsum hdata
    have hdone : complete q = (none, some ⟨q.first.ipHl, q.first.ipTos, payload.length % 2 ^ 16, 0,
        (q.fragq.map Ipqent.data).flatten, q.first.hdr⟩) := by
      rw [complete, hsum]
      dsimp only
      rw [hlastmff, if_neg Bool.false_ne_true, if_neg (by rw [hhl]; omega)]
    refine ⟨rfl, _, hdone, hdata, hlen, by rw [hhl]; exact hsize, ?_⟩
    intro f' hf'
    obtain rfl := Option.some.inj hf'
    rw [hq0]
    exact ⟨rfl, rfl, rfl, rfl⟩
  · left
    refine ⟨hall, ?_⟩
    unfold complete
    cases hsum : sumLoop q.fragq 0 with
    | none => rfl
    | some n =>
      dsimp only
      rw [if_pos]
      by_contra hmff
      rw [hq] at hsum
      refine hall (h.some_missing hwhole hsub hl hsum fun last hl' => ?_)
      rw [hlast last hl']
      simpa using hmff

/-- `ip_reass` on a fragment that has come already, and on one that has not. -/
theorem Fragmented.reass {fp : Option Ipq} (h : Fragmented payload fs) (hx : x ∈ fs)
    (hfp : Holds fs seen fp) :
    (x ∈ seen → ipReass x.entry fp true = (fp, none)) ∧
      (x ∉ seen → ∃ q', q'.fragq = (seenOf fs (x :: seen)).map IpPkt.entry ∧
        ipReass x.entry fp true = complete q') := by
  obtain ⟨hbounds, hpair⟩ := h.parts.bounds
  have hsub := seenOf_sublist fs
  have hecn : ∀ q : Ipq, q.fragq = (seenOf fs seen).map IpPkt.entry →
      ∀ e ∈ q.fragq, e.ipTos &&& iptosEcnCe = x.ipTos &&& iptosEcnCe := by
    intro q hq e he
    rw [hq] at he
    obtain ⟨f, hf, rfl⟩ := mem_map.1 he
    exact h.ecn f ((hsub seen).subset hf) x hx
  constructor
  · intro hseen
    rcases hfp with ⟨rfl, -⟩ | ⟨q, rfl, hq⟩
    · cases hseen
    · have hin : x ∈ seenOf fs seen := mem_filter.2 ⟨hx, by simpa using hseen⟩
      obtain ⟨A, B, happ⟩ := append_of_mem hin
      have hpair' := hpair.sublist (hsub seen)
      have hall := hecn q hq
      rw [happ] at hq hpair'
      exact ipReass_dup true hq hpair' (h.whole x hx) (hbounds x hx).2 hall
  · intro hseen
    obtain ⟨A, B, rfl⟩ := append_of_mem hx
    have hxAB : x ∉ A ∧ x ∉ B := by
      obtain ⟨-, hxB, hAx⟩ := pairwise_append.1 hpair
      have hself := not_before_self (hbounds x hx).2
      exact ⟨fun hA => hself (hAx x hA x mem_cons_self),
        fun hB => hself ((pairwise_cons.1 hxB).1 x hB)⟩
    obtain ⟨hnew, hold⟩ := seenOf_cons hxAB hseen
    rcases hfp with ⟨rfl, rfl⟩ | ⟨q, rfl, hq⟩
    · refine ⟨⟨[x.entry], cons_ne_nil _ _⟩, ?_, rfl⟩
      rw [hnew]
      simp [seenOf]
    · have hsubnew := hsub (x :: seen)
      have hpair' := hpair.sublist hsubnew
      have hwhole : ∀ f ∈ seenOf (A ++ x :: B) (x :: seen), f.Whole :=
        fun f hf => h.whole f (hsubnew.subset hf)
      have hne : ∀ f ∈ seenOf (A ++ x :: B) (x :: seen), f.data ≠ [] :=
        fun f hf => (hbounds f (hsubnew.subset hf)).2
      have hall := hecn q hq
      rw [hnew] at hpair' hwhole hne ⊢
      rw [hold] at hq
      exact ipReass_new true hq hpair' hwhole hne hall

theorem FragmentsOf.ours (h : FragmentsOf 0 payload fs) (htwo : 2 ≤ fs.length)
    (hwhole : ∀ f ∈ fs, f.Whole) (hx : x ∈ fs) (fp : Option Ipq) :
    ipOurs fp x true true = ((ipReass x.entry fp true).1, (ipReass x.entry fp true).2.map fun m =>
      { m with ipLen := (m.ipLen + m.ipHl <<< 2) % 2 ^ 16 }) := by
  obtain ⟨hfrag, hlen⟩ := h.fragment (.inl htwo) x hx
  have hpos := length_pos_iff.2 (h.bounds.1 x hx).2
  have hentry := (hwhole x hx).entry_len
  have hgood : ¬ (x.entry.ipqeMff = true ∧ (x.entry.ipLen = 0 ∨ x.entry.ipLen % 8 ≠ 0)) := by
    rintro ⟨hmff, hbad⟩
    have := hlen hmff
    omega
  rw [ipOurs, if_pos hfrag]
  dsimp only
  rw [if_neg hgood, if_pos (x.isFragment_iff.1 hfrag)]
  rcases ipReass x.entry fp true with ⟨fp', _ | m⟩
  · rfl
  · rfl

/-- One fragment more: all are there and the payload goes on, or the queue waits. -/
theorem Fragmented.step {fp : Option Ipq} (h : Fragmented payload fs) (hx : x ∈ fs)
    (hfp : Holds fs seen fp) (hmiss : ¬ ∀ f ∈ fs, f ∈ seen) :
    (¬ (∀ f ∈ fs, f ∈ x :: seen) ∧ ∃ fp', ipOurs fp x true true = (fp', none) ∧
      Holds fs (x :: seen) fp') ∨
    ((∀ f ∈ fs, f ∈ x :: seen) ∧ ∃ m, ipOurs fp x true true = (none, some m) ∧ m.data = payload ∧
      m.ipLen = m.ipHl <<< 2 + payload.length ∧ HeadOf fs m) := by
  obtain ⟨hdup, hnew⟩ := h.reass hx hfp
  rw [h.parts.ours h.two h.whole hx]
  by_cases hseen : x ∈ seen
  · left
    have hsame : ∀ f, f ∈ x :: seen ↔ f ∈ seen := by
      intro f
      rw [mem_cons]
      exact ⟨fun hf => hf.elim (fun heq => heq ▸ hseen) id, .inr⟩
    rw [hdup hseen]
    refine ⟨fun hall => hmiss fun f hf => (hsame f).1 (hall f hf), fp, rfl, ?_⟩
    rcases hfp with ⟨rfl, -⟩ | ⟨q, rfl, hq⟩
    · cases hseen
    · refine .inr ⟨q, rfl, ?_⟩
      rw [hq]
      simp only [seenOf, hsame]
  · obtain ⟨q', hq', hreass⟩ := hnew hseen
    rw [hreass]
    rcases h.parts.complete_iff h.whole h.size hq' (seenOf_sublist _ _) with ⟨hpart, hc⟩ | ⟨hall, m, hc, hdata, hlen, hmax, hhead⟩
    · left
      rw [hc]
      exact ⟨fun hall => hpart (seenOf_eq_self.2 hall), some q', rfl, .inr ⟨q', rfl, hq'⟩⟩
    · right
      rw [hc]
      refine ⟨seenOf_eq_self.1 hall, _, rfl, hdata, ?_, hhead⟩
      dsimp only
      rw [hlen]
      simp only [ipMaxpacket] at hmax
      omega

theorem Fragmented.run {payload : List UInt8} {fs seen : List IpPkt} {fp : Option Ipq}
    (h : Fragmented payload fs) {xs : List IpPkt} (hxs : xs ⊆ fs) (hfp : Holds fs seen fp)
    (hmiss : ¬ ∀ f ∈ fs, f ∈ xs.reverse ++ seen) :
    (ipRun fp xs).2 = xs.map (fun _ => none) ∧ Holds fs (xs.reverse ++ seen) (ipRun fp xs).1 := by
  induction xs generalizing seen fp with
  | nil => exact ⟨rfl, hfp⟩
  | cons x xs ih =>
    rw [reverse_cons, append_assoc, singleton_append] at hmiss ⊢
    have hmiss' : ¬ ∀ f ∈ fs, f ∈ seen := fun hall => hmiss fun f hf =>
      mem_append_right _ (mem_cons_of_mem x (hall f hf))
    rcases h.step (hxs mem_cons_self) hfp hmiss' with ⟨-, fp', hours, hfp'⟩ | ⟨hall, -⟩
    · obtain ⟨hout, hend⟩ := ih (fun y hy => hxs (mem_cons_of_mem x hy)) hfp' hmiss
      rw [ipRun, hours]
      exact ⟨by rw [hout]; rfl, hend⟩
    · exact absurd (fun f hf => mem_append_right _ (hall f hf)) hmiss

/-- Whatever comes, a datagram that is put together is one: it ends like a fragment without
    `IP_MF`, fits into a packet and has at each offset a byte that came for it.  And the
    fragments of one datagram, in any order and with duplicates, give its payload when the
    last missing one is there, and nothing before. -/
theorem ip_reass_sound_and_complete :
    (∀ s : IpqState, s.Reach → ∀ ip : IpPkt, ip.Whole → ip.IsFragment → ∀ mem memq m,
      (s.ours ip mem memq).2 = some m →
        (∃ f ∈ (s.ours ip mem memq).1.received, f.entry.ipqeMff = false ∧
          f.entry.ipOff + f.data.length = m.data.length) ∧
        m.ipHl <<< 2 + m.data.length ≤ ipMaxpacket ∧ m.ipLen = m.ipHl <<< 2 + m.data.length ∧
        ∀ k b, m.data[k]? = some b → ∃ f ∈ (s.ours ip mem memq).1.received,
          ∃ j, f.entry.ipOff + j = k ∧ f.data[j]? = some b) ∧
    ∀ payload fs, Fragmented payload fs → ∀ xs : List IpPkt, xs ⊆ fs → (¬ ∀ f ∈ fs, f ∈ xs) →
      (ipRun none xs).2 = xs.map (fun _ => none) ∧
      ∀ x ∈ fs, (∀ f ∈ fs, f ∈ x :: xs) → ∃ m, ipOurs (ipRun none xs).1 x true true = (none, some m) ∧
        m.data = payload ∧ m.ipLen = m.ipHl <<< 2 + payload.length := by
  refine ⟨fun s h ip hwhole hfrag mem memq m hm => reass_sound h hwhole hfrag hm, ?_⟩
  intro payload fs h xs hxs hmiss
  have hmem : ∀ f, f ∈ xs.reverse ++ [] ↔ f ∈ xs := by simp
  obtain ⟨hout, hend⟩ := @Fragmented.run payload fs [] none h xs hxs (.inl ⟨rfl, rfl⟩)
    (by simpa only [hmem] using hmiss)
  refine ⟨hout, fun x hx hall => ?_⟩
  rcases h.step hx hend (by simpa only [hmem] using hmiss) with ⟨hno, -⟩ |
    ⟨-, m, hdone, hdata, hlen, -⟩
  · exact absurd (fun f hf => by simpa only [mem_cons, hmem] using hall f hf) hno
  · exact ⟨m, hdone, hdata, hlen⟩

/-- The last fragment comes first, and twice. -/
theorem ip_reass_two_fragments :
    let a : IpPkt := ⟨5, 0, 28, 0x2000, [1, 2, 3, 4, 5, 6, 7, 8], {}⟩
    let b : IpPkt := ⟨5, 0, 23, 1, [9, 10, 11], {}⟩
    (ipRun none [b, b]).2 = [none, none] ∧
      ∃ m, ipOurs (ipRun none [b, b]).1 a true true = (none, some m) ∧
        m.data = [1, 2, 3, 4, 5, 6, 7, 8, 9, 10, 11] ∧ m.ipLen = m.ipHl <<< 2 + 11 := by
  intro a b
  have hparts : FragmentsOf 0 [1, 2, 3, 4, 5, 6, 7, 8, 9, 10, 11] [a, b] :=
    ⟨by decide, by decide, by decide, [9, 10, 11], rfl, by decide, by decide, rfl, by decide⟩
  have hfrag : Fragmented [1, 2, 3, 4, 5, 6, 7, 8, 9, 10, 11] [a, b] :=
    ⟨hparts, by decide, by decide, by decide, by decide⟩
  obtain ⟨hout, hlast⟩ := ip_reass_sound_and_complete.2 _ _ hfrag [b, b] (by decide) (by decide)
  exact ⟨hout, hlast a (by decide) (by decide)⟩

end OpenBsd.Netinet
