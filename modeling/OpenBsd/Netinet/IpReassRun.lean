/-
  OpenBsd.Netinet.IpReassRun

  Runs of the reassembly: what is completed came together from the fragments, whatever they
  are.
-/

import OpenBsd.Netinet.IpReassSafe

namespace OpenBsd.Netinet

open OpenBsd.Lib

variable {received : List IpPkt}

variable {received' : List IpPkt}

theorem PktCarried.mono (hsub : received ⊆ received') :
    ∀ x b, PktCarried received x b → PktCarried received' x b :=
  fun _ _ ⟨f, hf, hrest⟩ => ⟨f, hsub hf, hrest⟩

theorem Ipqent.At.mono (hsub : received ⊆ received') :
    ∀ a (e : Ipqent) d, e.At received a d → e.At received' a d := by
  intro a e d h
  obtain ⟨f, hf, hrest⟩ := h.stop
  exact ⟨h.off, h.lt, h.len, h.data, h.short, f, hsub hf, hrest⟩

theorem IpqOk.mono {fragq : List Ipqent} (h : IpqOk received fragq)
    (hsub : received ⊆ received') : IpqOk received' fragq := by
  obtain ⟨good, garbage, hsplit, hgood, hg⟩ := h.split
  exact ⟨h.bounded, good, garbage, hsplit, hgood.imp (Ipqent.At.mono hsub) (PktCarried.mono hsub), hg⟩

theorem IpqOk.setTos {e : Ipqent} {es : List Ipqent} (h : IpqOk received (e :: es)) (tos : Nat) :
    IpqOk received ({ e with ipTos := tos } :: es) := by
  obtain ⟨good, garbage, hsplit, hgood, hg⟩ := h.split
  refine ⟨?_, ?_⟩
  · intro x hx
    rcases List.mem_cons.1 hx with rfl | hx
    · exact h.bounded e List.mem_cons_self
    · exact h.bounded x (List.mem_cons_of_mem e hx)
  · cases good with
    | nil =>
      rcases hg with rfl | ⟨p, x, hp, -⟩
      · cases hsplit
      · cases hp
    | cons g gs =>
      cases hsplit
      obtain ⟨a, d, hlo, hat, hcame, hrest⟩ := hgood
      refine ⟨{ e with ipTos := tos } :: gs, garbage, rfl,
        ⟨a, d, hlo, ⟨hat.off, hat.lt, hat.len, hat.data, hat.short, hat.stop⟩, hcame, hrest⟩, ?_⟩
      rcases hg with hnil | ⟨p, x, hp, hx, hwrap⟩
      · exact .inl hnil
      · right
        cases gs with
        | nil =>
          obtain rfl : e = p := by simpa using hp
          exact ⟨_, x, rfl, hx, hwrap⟩
        | cons g' gs =>
          rw [List.getLast?_cons_cons] at hp
          exact ⟨p, x, by rw [List.getLast?_cons_cons]; exact hp, hx, hwrap⟩

theorem ecnCheck_some {first ipqe first' : Ipqent} (h : ecnCheck first ipqe = some first') :
    ∃ tos, first' = { first with ipTos := tos } := by
  simp only [ecnCheck] at h
  split at h
  · cases h
  · split at h
    · cases h
    · split at h
      · exact ⟨_, (Option.some.inj h).symm⟩
      · exact ⟨first.ipTos, (Option.some.inj h).symm⟩

/-- `ip_reass` keeps the queue, or completes the datagram. -/
theorem ipReass_spec {ip : IpPkt} {fp : Option Ipq} (hfp : ∀ q, fp = some q → IpqOk received q.fragq)
    (hwhole : ip.Whole) (hin : ip ∈ received) (mem : Bool) :
    (∀ q, (ipReass ip.entry fp mem).1 = some q → IpqOk received q.fragq) ∧
      ∀ m, (ipReass ip.entry fp mem).2 = some m → Joined received m := by
  have hcomplete : ∀ {q : Ipq}, IpqOk received q.fragq →
      (∀ q', (complete q).1 = some q' → IpqOk received q'.fragq) ∧
        ∀ m, (complete q).2 = some m → Joined received m := by
    intro q hq
    obtain ⟨hsame, hjoined⟩ := complete_spec hq
    exact ⟨fun q' hq' => by rw [hsame q' hq']; exact hq, hjoined⟩
  unfold ipReass
  cases fp with
  | none =>
    cases mem with
    | false => exact ⟨fun q hq => (by cases hq), fun m hm => (by cases hm)⟩
    | true =>
      have hself := hwhole.at_self hin
      refine hcomplete ⟨?_, [ip.entry], [], rfl, ⟨_, _, Nat.zero_le _, hself, came_pkt hin, ?_⟩, .inl rfl⟩
      · intro e he
        rw [List.mem_singleton.1 he]
        exact ⟨ip.entry_off_lt, by rw [hself.len]; exact hself.short⟩
      · have := ip.entry_off_lt
        have := hself.short
        show _ ≤ _
        omega
  | some q =>
    have hq := hfp q rfl
    dsimp only
    cases hecn : ecnCheck q.first ip.entry with
    | none => exact ⟨fun q' hq' => by cases hq'; exact hq, fun m hm => (by cases hm)⟩
    | some first =>
      obtain ⟨tos, rfl⟩ := ecnCheck_some hecn
      have hset : IpqOk received ({ q.first with ipTos := tos } :: q.fragq.tail) := by
        refine IpqOk.setTos ?_ tos
        rw [Ipq.first, List.cons_head_tail]
        exact hq
      dsimp only
      cases htrim : trimBefore (List.takeWhile (fun q => !decide (q.ipOff > ip.entry.ipOff))
          ({ q.first with ipTos := tos } :: q.fragq.tail)).getLast? ip.entry with
      | none => exact ⟨fun q' hq' => by cases hq'; exact hset, fun m hm => (by cases hm)⟩
      | some f' => exact hcomplete (hset.insert (List.cons_ne_nil _ _) hwhole hin htrim)

theorem IpPkt.and_offmask (ip : IpPkt) : ip.ipOff &&& (2 ^ 16 - 1 - (ipDf ||| ipRf)) = ip.ipOff % 2 ^ 14 := by
  have hmask : 2 ^ 16 - 1 - (ipDf ||| ipRf) = 2 ^ 14 - 1 := by decide
  rw [hmask, Nat.and_two_pow_sub_one_eq_mod]

theorem IpPkt.entry_mff (ip : IpPkt) : ip.entry.ipqeMff = decide (ip.ipOff % 2 ^ 14 &&& ipMf ≠ 0) := by
  have hand : ip.ipOff % 2 ^ 14 &&& ipMf = ip.ipOff &&& ipMf := by
    have hmask : (2 ^ 14 - 1) &&& ipMf = ipMf := by decide
    rw [← Nat.and_two_pow_sub_one_eq_mod, Nat.and_assoc, hmask]
  rw [hand]
  rfl

theorem IpPkt.entry_off (ip : IpPkt) : ip.entry.ipOff = ip.ipOff % 2 ^ 13 * 8 := by
  simp only [IpPkt.entry, Nat.shiftLeft_eq]
  omega

theorem IpPkt.isFragment_iff (ip : IpPkt) :
    ip.IsFragment ↔ ip.entry.ipqeMff = true ∨ ip.entry.ipOff ≠ 0 := by
  rw [IpPkt.IsFragment, ip.and_offmask, ip.entry_mff, ip.entry_off, decide_eq_true_eq]
  constructor
  · intro hne
    by_contra hno
    rw [not_or, Decidable.not_not, Decidable.not_not] at hno
    have hbit : ip.ipOff % 2 ^ 14 = 2 ^ 13 := by omega
    rw [hbit] at hno
    exact absurd hno.1 (by decide)
  · rintro (hmff | hoff) hzero
    · rw [hzero, Nat.zero_and] at hmff
      exact hmff rfl
    · omega

theorem ipOurs_eq {ip : IpPkt} (hfrag : ip.IsFragment) (fp : Option Ipq) (mem memq : Bool) :
    ipOurs fp ip mem memq = (fp, none) ∨
      ipOurs fp ip mem memq = ((ipReass ip.entry fp memq).1, (ipReass ip.entry fp memq).2.map fun m =>
        { m with ipLen := (m.ipLen + m.ipHl <<< 2) % 2 ^ 16 }) := by
  rw [ipOurs, if_pos hfrag]
  dsimp only
  split
  · exact .inl rfl
  · rw [if_pos (ip.isFragment_iff.1 hfrag)]
    cases mem with
    | false => exact .inl rfl
    | true =>
      right
      rcases ipReass ip.entry fp memq with ⟨fp', _ | m⟩
      · rfl
      · rfl

/-- The queue of a state holds what came since it was made. -/
def IpqState.Ok (s : IpqState) : Prop := ∀ q, s.fp = some q → IpqOk s.received q.fragq

variable {s : IpqState}

theorem IpqState.Ok.ours (h : s.Ok) {ip : IpPkt} (hwhole : ip.Whole)
    (hfrag : ip.IsFragment) (mem memq : Bool) :
    (s.ours ip mem memq).1.Ok ∧ ∀ m, (s.ours ip mem memq).2 = some m →
      ∃ m', Joined (s.ours ip mem memq).1.received m' ∧
        m = { m' with ipLen := (m'.ipLen + m'.ipHl <<< 2) % 2 ^ 16 } := by
  have hfp : ∀ q, s.fp = some q → IpqOk (ip :: if s.fp = none then [] else s.received) q.fragq := by
    intro q hq
    refine (h q hq).mono ?_
    rw [hq, if_neg (Option.some_ne_none q)]
    exact List.subset_cons_self ip _
  obtain ⟨hkeep, hjoined⟩ := ipReass_spec hfp hwhole List.mem_cons_self memq
  rcases ipOurs_eq hfrag s.fp mem memq with hdrop | hreass
  · rw [IpqState.ours, hdrop]
    exact ⟨hfp, fun m hm => (by cases hm)⟩
  · rw [IpqState.ours, hreass]
    refine ⟨hkeep, fun m hm => ?_⟩
    obtain ⟨m', hm', rfl⟩ := Option.map_eq_some_iff.1 hm
    exact ⟨m', hjoined m' hm', rfl⟩

theorem IpqState.Reach.ok (h : s.Reach) : s.Ok := by
  induction h with
  | start => exact fun q hq => (by cases hq)
  | ours ip mem memq _ hwhole hfrag ih => exact (ih.ours hwhole hfrag mem memq).1
  | freef => exact fun q hq => (by cases hq)

/-- A datagram that `ip_reass` returns ends like a fragment without `IP_MF`, fits into a
    packet, and has at each offset a byte that a fragment carried there. -/
theorem reass_sound (h : s.Reach) {ip : IpPkt} (hwhole : ip.Whole)
    (hfrag : ip.IsFragment) {mem memq : Bool} {m : IpPkt} (hm : (s.ours ip mem memq).2 = some m) :
    (∃ f ∈ (s.ours ip mem memq).1.received, f.entry.ipqeMff = false ∧
      f.entry.ipOff + f.data.length = m.data.length) ∧
    m.ipHl <<< 2 + m.data.length ≤ ipMaxpacket ∧ m.ipLen = m.ipHl <<< 2 + m.data.length ∧
    ∀ k b, m.data[k]? = some b →
      ∃ f ∈ (s.ours ip mem memq).1.received, ∃ j, f.entry.ipOff + j = k ∧ f.data[j]? = some b := by
  obtain ⟨m', hjoined, rfl⟩ := (h.ok.ours hwhole hfrag mem memq).2 m hm
  obtain ⟨f, hf, hend, hmff⟩ := hjoined.stop
  have hshort := hjoined.short
  refine ⟨⟨f, hf, hmff, hend⟩, hshort, ?_, ?_⟩
  · dsimp only
    rw [hjoined.len]
    simp only [ipMaxpacket] at hshort
    omega
  · intro k b hk
    have hcame := hjoined.carried k b hk
    rwa [Nat.zero_add] at hcame

end OpenBsd.Netinet
