/-
  OpenBsd.Netinet.IpReassSafe

  What the reassembly queue of a datagram holds: pieces of it, up to an entry that reaches
  past 65535.  An offset that was trimmed there starts from zero again, and the entries from
  that one on are never completed.
-/

import OpenBsd.Netinet.IpReass
import Mathlib.Data.List.TakeWhile

namespace OpenBsd.Netinet

open OpenBsd.Lib List

variable {received : List IpPkt}

variable {ip : IpPkt} {a T lo : Nat} {e f f' : Ipqent} {d : List UInt8}

/-- A received fragment carried the byte at the offset. -/
def PktCarried (received : List IpPkt) (x : Nat) (b : UInt8) : Prop :=
  ∃ f ∈ received, ∃ j, f.entry.ipOff + j = x ∧ f.data[j]? = some b

/-- The entry is the piece `d` at the offset `a`, and ends like a received fragment. -/
structure Ipqent.At (received : List IpPkt) (a : Nat) (e : Ipqent) (d : List UInt8) : Prop where
  off : e.ipOff = a
  lt : a < 2 ^ 16
  len : e.ipLen = d.length
  data : e.data = d
  short : d.length < 2 ^ 16
  stop : ∃ f ∈ received, f.entry.ipOff + f.data.length = a + d.length ∧ f.entry.ipqeMff = e.ipqeMff

theorem IpPkt.Whole.entry_len (h : ip.Whole) : ip.entry.ipLen = ip.data.length := by
  obtain ⟨hlen, hlt, -⟩ := h
  simp only [IpPkt.entry]
  omega

theorem IpPkt.entry_off_lt (ip : IpPkt) : ip.entry.ipOff < 2 ^ 16 := Nat.mod_lt _ (by decide)

theorem IpPkt.Whole.at_self (h : ip.Whole) (hin : ip ∈ received) :
    ip.entry.At received ip.entry.ipOff ip.data := by
  refine ⟨rfl, ip.entry_off_lt, h.entry_len, rfl, ?_, ip, hin, rfl, rfl⟩
  obtain ⟨hlen, hlt, -⟩ := h
  omega

theorem came_pkt (hin : ip ∈ received) : Came (PktCarried received) ip.entry.ipOff ip.data :=
  fun j _ hj => ⟨ip, hin, j, rfl, hj⟩

theorem Ipqent.At.cut {n : Nat} (h : e.At received a d) (hn : n ≤ d.length) (ha : a + n < 2 ^ 16) :
    (e.cut n).At received (a + n) (d.drop n) := by
  obtain ⟨f, hf, hend, hmff⟩ := h.stop
  have hshort := h.short
  refine ⟨?_, ha, ?_, ?_, ?_, f, hf, ?_, hmff⟩
  · simp only [Ipqent.cut, h.off]
    exact Nat.mod_eq_of_lt ha
  · simp only [Ipqent.cut, h.len, length_drop]
  · simp only [Ipqent.cut, h.data]
  · rw [length_drop]
    omega
  · rw [length_drop]
    omega

theorem trimBehind_cons (es : List Ipqent) (he : e.At received a d) :
    trimBehind f (e :: es) =
      if f.ipOff + f.ipLen ≤ a then e :: es
      else if f.ipOff + f.ipLen < a + d.length then e.cut (f.ipOff + f.ipLen - a) :: es
      else trimBehind f es := by
  rw [trimBehind, he.off, he.len]
  by_cases h : f.ipOff + f.ipLen ≤ a
  · rw [if_pos h, if_neg (by omega)]
  · rw [if_neg h, if_pos (by omega)]
    by_cases h' : f.ipOff + f.ipLen < a + d.length
    · rw [if_pos h', if_pos (by omega)]
    · rw [if_neg h', if_neg (by omega)]

/-! ## Entries past the end -/

/-- The fields of the entry fit. -/
def Ipqent.Bounded (e : Ipqent) : Prop := e.ipOff < 2 ^ 16 ∧ e.ipLen < 2 ^ 16

theorem Ipqent.Bounded.cut (h : e.Bounded) (n : Nat) : (e.cut n).Bounded := by
  refine ⟨Nat.mod_lt _ (by decide), ?_⟩
  have := h.2
  simp only [Ipqent.cut]
  omega

theorem trimBehind_bounded {l : List Ipqent} (h : ∀ e ∈ l, e.Bounded) :
    ∀ e ∈ trimBehind f l, e.Bounded := by
  induction l with
  | nil => exact h
  | cons q qs ih =>
    rw [trimBehind]
    split
    · dsimp only
      split
      · intro e he
        rcases mem_cons.1 he with rfl | he
        · exact (h q mem_cons_self).cut _
        · exact h e (mem_cons_of_mem q he)
      · exact ih fun e he => h e (mem_cons_of_mem q he)
    · exact h

/-- Behind an entry that reaches past the end, every other one is covered, or starts from
    zero. -/
theorem trimBehind_far {l : List Ipqent} (h : ∀ e ∈ l, e.Bounded)
    (hfar : 2 ^ 16 ≤ f.ipOff + f.ipLen) (hlt : f.ipOff + f.ipLen < 2 ^ 17) :
    trimBehind f l = [] ∨ ∃ x, (trimBehind f l).head? = some x ∧ f.ipOff + f.ipLen = x.ipOff + 2 ^ 16 := by
  induction l with
  | nil => exact .inl rfl
  | cons q qs ih =>
    have hq := (h q mem_cons_self).1
    rw [trimBehind, if_pos (by omega)]
    dsimp only
    split
    · refine .inr ⟨_, rfl, ?_⟩
      simp only [Ipqent.cut]
      omega
    · exact ih fun e he => h e (mem_cons_of_mem q he)

/-- The entry behind the pieces starts from zero where the last of them ends. -/
def Wraps (good garbage : List Ipqent) : Prop :=
  ∃ p x, good.getLast? = some p ∧ garbage.head? = some x ∧ p.ipOff + p.ipLen = x.ipOff + 2 ^ 16

/-- Pieces of the datagram, and what reaches past its end. -/
structure IpqOk (received : List IpPkt) (fragq : List Ipqent) : Prop where
  bounded : ∀ e ∈ fragq, e.Bounded
  split : ∃ good garbage, fragq = good ++ garbage ∧
    Pieces (Ipqent.At received) (PktCarried received) 0 (2 ^ 17) good ∧
    (garbage = [] ∨ Wraps good garbage)

/-! ## Insertion -/

/-- The test of the search loop. -/
def startsBy (T : Nat) (q : Ipqent) : Bool := !decide (q.ipOff > T)

theorem startsBy_iff {q : Ipqent} : startsBy T q = true ↔ q.ipOff ≤ T := by
  simp only [startsBy, Bool.not_eq_true', decide_eq_false_iff_not, gt_iff_lt, Nat.not_lt]

theorem trimBefore_spec {p : Ipqent} {d' : List UInt8} (hf : f.At received T d)
    (hp : p.At received a d') (htrim : trimBefore (some p) f = some f') :
    (a + d'.length ≤ T ∧ f' = f) ∨
      (T < a + d'.length ∧ a + d'.length < T + d.length ∧ f' = f.cut (a + d'.length - T)) := by
  simp only [trimBefore, hp.off, hp.len, hf.off, hf.len] at htrim
  split at htrim
  · split at htrim
    · cases htrim
    · cases htrim
      refine .inr ⟨by omega, by omega, ?_⟩
      congr 1
      omega
  · cases htrim
    exact .inl ⟨by omega, rfl⟩

variable {before behind garbage : List Ipqent}

/-- The fragment with all that it leaves behind it, as long as it ends below 65536. -/
theorem insert_near (hf : f.At received T d)
    (hcame : Came (PktCarried received) T d)
    (hbefore : Pieces (Ipqent.At received) (PktCarried received) 0 T before)
    (hbehind : Pieces (Ipqent.At received) (PktCarried received) lo (2 ^ 17) behind) (hlo : lo ≤ T)
    (hE : T + d.length < 2 ^ 16)
    (hg : garbage = [] ∨ (behind ≠ [] ∧ Wraps (before ++ behind) garbage)) :
    ∃ good garbage', before ++ f :: trimBehind f (behind ++ garbage) = good ++ garbage' ∧
      Pieces (Ipqent.At received) (PktCarried received) 0 (2 ^ 17) good ∧
      (garbage' = [] ∨ Wraps good garbage') := by
  have hfend : f.ipOff + f.ipLen = T + d.length := by rw [hf.off, hf.len]
  have hcut := hbehind.cut (E := T + d.length) (c := Ipqent.cut) (f := trimBehind f)
    (fun a e d' es hat _ _ => by rw [trimBehind_cons es hat, hfend]) garbage
  rcases hcut with ⟨hnil, hcovered⟩ | ⟨pre, e, rest, a, d', hsplit, -, hat, hcame', hrest, hfound⟩
  · rcases hg with rfl | ⟨hne, p, x, hp, -, hwrap⟩
    · refine ⟨before ++ [f], [], ?_, ?_, .inl rfl⟩
      · rw [hnil, trimBehind, append_nil]
      · exact pieces_append.2 ⟨T, hbefore, T, d, Nat.le_refl T, hf, hcame, by show _ ≤ _; omega⟩
    · -- the last piece reaches past the end, and is not covered
      rw [getLast?_append_of_ne_nil _ hne] at hp
      obtain ⟨a, d', -, hend, hat, -⟩ := hcovered.mem (mem_of_getLast? hp)
      rw [hat.off, hat.len] at hwrap
      omega
  · have hleft : ∃ e' a' d'', trimBehind f (behind ++ garbage) = e' :: rest ++ garbage ∧
        e'.At received a' d'' ∧ Came (PktCarried received) a' d'' ∧ T + d.length ≤ a' ∧
        a' + d''.length = a + d'.length := by
      rcases hfound with ⟨ha, hcut⟩ | ⟨ha, had, hcut⟩
      · exact ⟨e, a, d', hcut, hat, hcame', ha, rfl⟩
      · have hplace : a + (T + d.length - a) = T + d.length := by omega
        have hnew := hat.cut (n := T + d.length - a) (by omega) (by omega)
        have hdrop := hcame'.drop (T + d.length - a)
        rw [hplace] at hnew hdrop
        refine ⟨_, _, _, hcut, hnew, hdrop, Nat.le_refl _, ?_⟩
        rw [length_drop]
        omega
    obtain ⟨e', a', d'', hcut, hat', hcame'', hle, hend⟩ := hleft
    refine ⟨before ++ f :: e' :: rest, garbage, ?_, ?_, ?_⟩
    · rw [hcut, append_assoc]
      rfl
    · refine pieces_append.2 ⟨T, hbefore, T, d, Nat.le_refl T, hf, hcame, a', d'', hle, hat', hcame'', ?_⟩
      rw [hend]
      exact hrest
    · rcases hg with hnil | ⟨hne, p, x, hp, hx, hwrap⟩
      · exact .inl hnil
      · right
        rw [hsplit, getLast?_append_of_ne_nil _ (insert_ne _ _ _),
          getLast?_append_of_ne_nil _ (cons_ne_nil _ _)] at hp
        have htail : (before ++ f :: e' :: rest).getLast? = (e' :: rest).getLast? := by
          rw [getLast?_append_of_ne_nil _ (cons_ne_nil _ _), getLast?_cons_cons]
        cases rest with
        | nil =>
          obtain rfl : e = p := by simpa using hp
          refine ⟨e', x, htail, hx, ?_⟩
          rw [hat'.off, hat'.len, hend, ← hwrap, hat.off, hat.len]
        | cons r rs =>
          rw [getLast?_cons_cons] at hp
          exact ⟨p, x, by rw [htail, getLast?_cons_cons]; exact hp, hx, hwrap⟩

theorem insert_far (hf : f.At received T d)
    (hcame : Came (PktCarried received) T d)
    (hbefore : Pieces (Ipqent.At received) (PktCarried received) 0 T before)
    (hbounded : ∀ e ∈ behind, e.Bounded) (hE : 2 ^ 16 ≤ T + d.length) :
    ∃ good garbage', before ++ f :: trimBehind f behind = good ++ garbage' ∧
      Pieces (Ipqent.At received) (PktCarried received) 0 (2 ^ 17) good ∧
      (garbage' = [] ∨ Wraps good garbage') := by
  have hfend : f.ipOff + f.ipLen = T + d.length := by rw [hf.off, hf.len]
  have hlt := hf.lt
  have hshort := hf.short
  refine ⟨before ++ [f], trimBehind f behind, by rw [append_assoc]; rfl, ?_, ?_⟩
  · exact pieces_append.2 ⟨T, hbefore, T, d, Nat.le_refl T, hf, hcame, by show _ ≤ _; omega⟩
  · rcases trimBehind_far (f := f) hbounded (by omega) (by omega) with hnil | ⟨x, hx, hwrap⟩
    · exact .inl hnil
    · exact .inr ⟨f, x, getLast?_concat, hx, hwrap⟩

theorem insert_placed (hf : f.At received T d)
    (hcame : Came (PktCarried received) T d)
    (hbefore : Pieces (Ipqent.At received) (PktCarried received) 0 T before)
    (hbehind : Pieces (Ipqent.At received) (PktCarried received) lo (2 ^ 17) behind) (hlo : lo ≤ T)
    (hbounded : ∀ e ∈ behind ++ garbage, e.Bounded)
    (hg : garbage = [] ∨ (behind ≠ [] ∧ Wraps (before ++ behind) garbage)) :
    ∃ good garbage', before ++ f :: trimBehind f (behind ++ garbage) = good ++ garbage' ∧
      Pieces (Ipqent.At received) (PktCarried received) 0 (2 ^ 17) good ∧
      (garbage' = [] ∨ Wraps good garbage') := by
  by_cases hE : T + d.length < 2 ^ 16
  · exact insert_near hf hcame hbefore hbehind hlo hE hg
  · exact insert_far hf hcame hbefore hbounded (by omega)

theorem trimBefore_bounded {p : Option Ipqent} (hf : f.Bounded) (htrim : trimBefore p f = some f') :
    f'.Bounded := by
  cases p with
  | none =>
    cases htrim
    exact hf
  | some p =>
    simp only [trimBefore] at htrim
    split at htrim
    · split at htrim
      · cases htrim
      · cases htrim
        exact hf.cut _
    · cases htrim
      exact hf

variable {good : List Ipqent}

theorem search_stops (garbage : List Ipqent)
    (h : good.dropWhile (startsBy T) ≠ []) :
    (good ++ garbage).takeWhile (startsBy T) = good.takeWhile (startsBy T) ∧
      (good ++ garbage).dropWhile (startsBy T) = good.dropWhile (startsBy T) ++ garbage := by
  have hlen : (good.takeWhile (startsBy T)).length ≠ good.length := by
    have happ := congrArg List.length (takeWhile_append_dropWhile (p := startsBy T) (l := good))
    have hpos := length_pos_iff.2 h
    rw [length_append] at happ
    omega
  rw [takeWhile_append, if_neg hlen, dropWhile_append, if_neg (by simpa using h)]
  exact ⟨rfl, rfl⟩

theorem cut_behind {m : Nat} (hf : f.At received T d) (hcame : Came (PktCarried received) T d)
    (hlt : T < m) (hlt' : m < T + d.length) (hm : m < 2 ^ 16) :
    (f.cut (m - T)).At received m (d.drop (m - T)) ∧ Came (PktCarried received) m (d.drop (m - T)) := by
  have hplace : T + (m - T) = m := by omega
  have hcut := hf.cut (n := m - T) (by omega) (by omega)
  have hdrop := hcame.drop (m - T)
  rw [hplace] at hcut hdrop
  exact ⟨hcut, hdrop⟩

theorem insert_last {b : List Ipqent} {d' : List UInt8} (hf : f.At received T d)
    (hcame : Came (PktCarried received) T d)
    (hb : Pieces (Ipqent.At received) (PktCarried received) 0 a b) (he : e.At received a d')
    (hcame' : Came (PktCarried received) a d') (htrim : trimBefore (some e) f = some f') :
    ∃ good garbage, b ++ [e] ++ f' :: trimBehind f' [] = good ++ garbage ∧
      Pieces (Ipqent.At received) (PktCarried received) 0 (2 ^ 17) good ∧
      (garbage = [] ∨ Wraps good garbage) := by
  have hT := hf.lt
  have hlt := he.lt
  have hshort := he.short
  have hprev : Pieces (Ipqent.At received) (PktCarried received) 0 (a + d'.length) (b ++ [e]) :=
    pieces_append.2 ⟨a, hb, a, d', Nat.le_refl a, he, hcame', Nat.le_refl _⟩
  have hnone : ∀ {lo}, lo ≤ 2 ^ 17 → Pieces (Ipqent.At received) (PktCarried received) lo (2 ^ 17) [] := id
  have hb' : ∀ e ∈ ([] ++ [] : List Ipqent), e.Bounded := fun e he => (by cases he)
  rcases trimBefore_spec hf he htrim with ⟨hle, rfl⟩ | ⟨hgt, hgt', rfl⟩
  · exact insert_placed hf hcame (hprev.mono (Nat.le_refl 0) hle fun _ _ => id)
      (hnone (by omega)) (Nat.le_refl T) hb' (.inl rfl)
  · by_cases hfit : a + d'.length < 2 ^ 16
    · obtain ⟨hcut, hcame''⟩ := cut_behind hf hcame hgt hgt' hfit
      exact insert_placed hcut hcame'' hprev (hnone (by omega)) (Nat.le_refl _) hb' (.inl rfl)
    · -- its offset is past the end, and starts from zero
      refine ⟨b ++ [e], [f.cut (a + d'.length - T)], rfl, hprev.mono (Nat.le_refl 0) (by omega) fun _ _ => id,
        .inr ⟨e, _, getLast?_concat, rfl, ?_⟩⟩
      rw [he.off, he.len, Ipqent.cut, hf.off]
      dsimp only
      omega

/-- The search and the insertion of a fragment. -/
theorem IpqOk.insert {fragq : List Ipqent} (h : IpqOk received fragq) (hne : fragq ≠ [])
    (hwhole : ip.Whole) (hin : ip ∈ received)
    (htrim : trimBefore (fragq.takeWhile (startsBy ip.entry.ipOff)).getLast? ip.entry = some f') :
    IpqOk received (fragq.takeWhile (startsBy ip.entry.ipOff) ++
      f' :: trimBehind f' (fragq.dropWhile (startsBy ip.entry.ipOff))) := by
  have hf := hwhole.at_self hin
  have hcame := came_pkt hin
  have hT := ip.entry_off_lt
  generalize hentry : ip.entry = f at hf hcame hT htrim ⊢
  generalize hplace : f.ipOff = T at hf hcame hT htrim ⊢
  have hshort := hf.short
  have hmem : ∀ e ∈ fragq, e.Bounded := h.bounded
  have hbehind : ∀ e ∈ fragq.dropWhile (startsBy T), e.Bounded :=
    fun e he => hmem e (dropWhile_subset _ he)
  refine ⟨?_, ?_⟩
  · intro e he
    rcases mem_append.1 he with he | he
    · exact hmem e (takeWhile_subset _ he)
    · rcases mem_cons.1 he with rfl | he
      · exact trimBefore_bounded ⟨by rw [hplace]; exact hT, by rw [hf.len]; exact hshort⟩ htrim
      · exact trimBehind_bounded hbehind e he
  · obtain ⟨good, garbage, rfl, hgood, hg⟩ := h.split
    have hsearch := hgood.split (T := T) (p := startsBy T) (by omega) fun a e d hat _ _ => by
      rw [startsBy_iff, hat.off]
    by_cases hdrop : good.dropWhile (startsBy T) = []
    · -- every piece starts at the place or before it
      have hall : ∀ e ∈ good, startsBy T e = true := dropWhile_eq_nil_iff.1 hdrop
      rw [takeWhile_append_of_pos hall] at htrim ⊢
      rw [dropWhile_append_of_pos hall]
      rcases hg with rfl | ⟨p, x, hp, hx, hwrap⟩
      · rw [append_nil] at hne
        rw [takeWhile_nil, append_nil] at htrim ⊢
        rw [dropWhile_nil]
        rcases hsearch with ⟨-, hself, -⟩ | ⟨b, e, a, d, hbefore, hb, ha, hat, hcame', -⟩
        · exact absurd (hself.symm.trans hdrop) hne
        · rw [takeWhile_eq_self_iff.2 hall] at hbefore
          subst hbefore
          rw [getLast?_concat] at htrim
          exact insert_last hf hcame hb hat hcame' htrim
      · -- the entry that starts from zero stays where it is
        have hxT : startsBy T x = true := by
          have hpT := startsBy_iff.1 (hall p (mem_of_getLast? hp))
          have hplen := (hmem p (mem_append_left _ (mem_of_getLast? hp))).2
          rw [startsBy_iff]
          omega
        obtain ⟨gs, rfl⟩ : ∃ gs, garbage = x :: gs := by
          cases garbage with
          | nil => cases hx
          | cons y gs =>
            cases hx
            exact ⟨gs, rfl⟩
        rw [takeWhile_cons_of_pos hxT, append_assoc]
        exact ⟨good, _, rfl, hgood, .inr ⟨p, x, hp, rfl, hwrap⟩⟩
    · obtain ⟨htake, hrest⟩ := search_stops garbage hdrop
      rw [htake] at htrim
      rw [hrest] at hbehind
      rw [htake, hrest]
      have hsplit := (takeWhile_append_dropWhile (p := startsBy T) (l := good)).symm
      have hg' : garbage = [] ∨ (good.dropWhile (startsBy T) ≠ [] ∧
          Wraps (good.takeWhile (startsBy T) ++ good.dropWhile (startsBy T)) garbage) := by
        rw [← hsplit]
        exact hg.imp id fun hw => ⟨hdrop, hw⟩
      rcases hsearch with ⟨hnil, hself, hpieces⟩ | ⟨b, e, a, d, hbefore, hb, ha, hat, hcame', hpieces⟩
      · rw [hnil] at htrim hg' ⊢
        cases htrim
        rw [Nat.zero_max] at hpieces
        exact insert_placed hf hcame (Nat.zero_le T) (by rw [hself]; exact hpieces) (Nat.le_refl T)
          hbehind hg'
      · rw [hbefore] at hg' ⊢
        rw [hbefore, getLast?_concat] at htrim
        have hstarts : a + d.length < 2 ^ 16 := by
          obtain ⟨q, qs, hq⟩ := exists_cons_of_ne_nil hdrop
          rw [hq] at hpieces
          obtain ⟨a', d', hle, hat', -⟩ := hpieces
          have := hat'.lt
          omega
        have hprev : Pieces (Ipqent.At received) (PktCarried received) 0 (a + d.length) (b ++ [e]) :=
          pieces_append.2 ⟨a, hb, a, d, Nat.le_refl a, hat, hcame', Nat.le_refl _⟩
        rcases trimBefore_spec hf hat htrim with ⟨hle, rfl⟩ | ⟨hlt, hlt', rfl⟩
        · exact insert_placed hf hcame (hprev.mono (Nat.le_refl 0) hle fun _ _ => id) hpieces
            (by omega) hbehind hg'
        · obtain ⟨hcut, hcame''⟩ := cut_behind hf hcame hlt hlt' hstarts
          exact insert_placed hcut hcame'' hprev hpieces (by omega) hbehind hg'

/-! ## Complete datagrams -/

theorem sumLoop_pieces {next n : Nat} (rest : List Ipqent)
    (h : Pieces (Ipqent.At received) (PktCarried received) lo (2 ^ 17) good)
    (hsum : sumLoop (good ++ rest) next = some n) :
    Came (PktCarried received) next (good.map Ipqent.data).flatten ∧
      sumLoop rest (next + (good.map Ipqent.data).flatten.length) = some n ∧
      ∀ p, good.getLast? = some p → p.ipOff + p.ipLen = next + (good.map Ipqent.data).flatten.length := by
  induction good generalizing lo next with
  | nil => exact ⟨Came.nil next, hsum, fun p hp => (by cases hp)⟩
  | cons e es ih =>
    obtain ⟨a, d, -, hat, hcame, hrest⟩ := h
    rw [cons_append, sumLoop, hat.len] at hsum
    split at hsum
    · cases hsum
    · rename_i hoff
      have hnext : a = next := by
        rw [hat.off] at hoff
        exact Decidable.not_not.1 hoff
      subst hnext
      obtain ⟨hcame', hsum', hlast⟩ := ih hrest hsum
      rw [map_cons, flatten_cons, hat.data, length_append, ← Nat.add_assoc]
      refine ⟨hcame.append hcame', hsum', ?_⟩
      intro p hp
      cases es with
      | nil =>
        obtain rfl : e = p := by simpa using hp
        rw [hat.off, hat.len]
        rfl
      | cons e' es =>
        rw [getLast?_cons_cons] at hp
        exact hlast p hp

/-- What a completed datagram is made of. -/
structure Joined (received : List IpPkt) (m : IpPkt) : Prop where
  carried : Came (PktCarried received) 0 m.data
  short : m.ipHl <<< 2 + m.data.length ≤ ipMaxpacket
  len : m.ipLen = m.data.length
  stop : ∃ f ∈ received, f.entry.ipOff + f.data.length = m.data.length ∧ f.entry.ipqeMff = false

theorem complete_spec {fp : Ipq} (h : IpqOk received fp.fragq) :
    (∀ fp', (complete fp).1 = some fp' → fp' = fp) ∧ ∀ m, (complete fp).2 = some m → Joined received m := by
  unfold complete
  cases hsum : sumLoop fp.fragq 0 with
  | none => exact ⟨fun fp' hfp' => (Option.some.inj hfp').symm, fun m hm => (by cases hm)⟩
  | some next =>
    dsimp only
    split
    · exact ⟨fun fp' hfp' => (Option.some.inj hfp').symm, fun m hm => (by cases hm)⟩
    · rename_i hmff
      split
      · exact ⟨fun fp' hfp' => (by cases hfp'), fun m hm => (by cases hm)⟩
      · rename_i hmax
        refine ⟨fun fp' hfp' => (by cases hfp'), fun m hm => ?_⟩
        cases hm
        obtain ⟨good, garbage, hsplit, hgood, hg⟩ := h.split
        rw [hsplit] at hsum
        obtain ⟨hcame, hsum', hlast⟩ := sumLoop_pieces garbage hgood hsum
        rw [Nat.zero_add] at hsum' hlast
        rcases hg with rfl | ⟨p, x, hp, hx, hwrap⟩
        · rw [append_nil] at hsplit
          have hnext : (good.map Ipqent.data).flatten.length = next := Option.some.inj hsum'
          obtain ⟨p, hp⟩ : ∃ p, good.getLast? = some p := by
            rw [← hsplit]
            exact ⟨_, getLast?_eq_some_getLast fp.ne⟩
          obtain ⟨a, d, -, -, hat, -⟩ := hgood.mem (mem_of_getLast? hp)
          obtain ⟨f, hf, hend, hfmff⟩ := hat.stop
          have hpend := hlast p hp
          rw [hat.off, hat.len] at hpend
          have hpmff : p.ipqeMff = false := by
            have hp' := hp
            rw [← hsplit, getLast?_eq_some_getLast fp.ne] at hp'
            rw [← Option.some.inj hp']
            simpa using hmff
          simp only [ipMaxpacket] at hmax
          rw [hsplit]
          refine ⟨hcame, ?_, ?_, f, hf, hend.trans hpend, hfmff.trans hpmff⟩
          · simp only [ipMaxpacket]
            omega
          · rw [hnext]
            exact Nat.mod_eq_of_lt (by omega)
        · -- the entry that starts from zero does not follow
          cases garbage with
          | nil => cases hx
          | cons y gs =>
            cases hx
            rw [sumLoop, if_pos (by have := hlast p hp; omega)] at hsum'
            cases hsum'

end OpenBsd.Netinet
