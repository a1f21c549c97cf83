/-
  OpenBsd.Netinet.IpMaxqueue

  The limit `ip_maxqueue` on queued fragments in `ip_ours`, for the fragments of one datagram
  and no others.
-/

import OpenBsd.Netinet.IpReassParts

namespace OpenBsd.Netinet

open List

/-- The value of `ip_maxqueue` unless sysctl changes it. -/
def ipMaxqueue : Nat := 300

def ipFrags : Option Ipq → Nat
  | none => 0
  | some fp => fp.fragq.length

/-- `ip_flush`, with one queue at most. -/
def ipFlush (maxqueue : Nat) (fp : Option Ipq) : Option Ipq :=
  if maxqueue * 3 / 4 < ipFrags fp then none else fp

/-- The fragments that `ip_ours` does not find bad. -/
def IpPkt.Counted (ip : IpPkt) : Prop :=
  ip.IsFragment ∧ ¬ (ip.entry.ipqeMff ∧ (ip.entry.ipLen = 0 ∨ ip.entry.ipLen % 8 ≠ 0)) ∧
    (ip.entry.ipqeMff ∨ ip.entry.ipOff ≠ 0)

instance (ip : IpPkt) : Decidable ip.Counted := inferInstanceAs (Decidable (_ ∧ _ ∧ _))

/-- `ip_ours` with the limit, and memory for every fragment that is let in. -/
def ipOursMax (maxqueue : Nat) (fp : Option Ipq) (ip : IpPkt) : Option Ipq × Option IpPkt :=
  if ip.Counted ∧ maxqueue < ipFrags fp + 1 then (ipFlush maxqueue fp, none)
  else ipOurs fp ip true true

/-- Fragment after fragment. -/
def ipRunMax (maxqueue : Nat) (fp : Option Ipq) : List IpPkt → Option Ipq × List (Option IpPkt)
  | [] => (fp, [])
  | ip :: ips =>
    let r := ipOursMax maxqueue fp ip
    let rest := ipRunMax maxqueue r.1 ips
    (rest.1, r.2 :: rest.2)

/-! ## Below the limit -/

theorem length_trimBehind_le (ipqe : Ipqent) (l : List Ipqent) :
    (trimBehind ipqe l).length ≤ l.length := by
  induction l with
  | nil => exact Nat.le_refl _
  | cons q qs ih =>
    unfold trimBehind
    split
    · dsimp only
      split
      · exact Nat.le_refl _
      · exact Nat.le_succ_of_le ih
    · exact Nat.le_refl _

theorem ipFrags_complete_le (q : Ipq) : ipFrags (complete q).1 ≤ q.fragq.length := by
  unfold complete
  split
  · exact Nat.le_refl _
  · split
    · exact Nat.le_refl _
    · split
      · exact Nat.zero_le _
      · exact Nat.zero_le _

theorem ipFrags_ipReass_le (ipqe : Ipqent) (fp : Option Ipq) (mem : Bool) :
    ipFrags (ipReass ipqe fp mem).1 ≤ ipFrags fp + 1 := by
  unfold ipReass
  cases fp with
  | none =>
    dsimp only
    split
    · exact ipFrags_complete_le _
    · exact Nat.zero_le _
  | some q =>
    dsimp only
    cases hecn : ecnCheck q.first ipqe with
    | none => exact Nat.le_succ _
    | some first =>
      have hlen : (first :: q.fragq.tail).length = q.fragq.length := by
        rw [length_cons, length_tail]
        have := length_pos_iff.mpr q.ne
        omega
      dsimp only
      split
      · show (first :: q.fragq.tail).length ≤ q.fragq.length + 1
        omega
      · next ipqe' _ =>
        apply (ipFrags_complete_le _).trans
        have hpart := congrArg List.length (@List.takeWhile_append_dropWhile _
          (fun q' : Ipqent => !decide (q'.ipOff > ipqe.ipOff)) (first :: q.fragq.tail))
        have htrim := length_trimBehind_le ipqe'
          ((first :: q.fragq.tail).dropWhile fun q' => !decide (q'.ipOff > ipqe.ipOff))
        rw [length_append] at hpart
        show (_ ++ _ :: _ : List Ipqent).length ≤ q.fragq.length + 1
        rw [length_append, length_cons]
        omega

theorem ipFrags_ipOurs_le (fp : Option Ipq) (ip : IpPkt) :
    ipFrags (ipOurs fp ip true true).1 ≤ ipFrags fp + 1 := by
  have hreass := ipFrags_ipReass_le ip.entry fp true
  unfold ipOurs
  split
  · dsimp only
    split
    · exact Nat.le_succ _
    · split
      · generalize ipReass ip.entry fp true = r at hreass
        obtain ⟨fp', _ | m⟩ := r
        · exact hreass
        · exact hreass
      · exact Nat.zero_le _
  · exact Nat.le_succ _

theorem ipRunMax_eq {maxqueue : Nat} {fp : Option Ipq} {ips : List IpPkt}
    (h : ipFrags fp + ips.length ≤ maxqueue) : ipRunMax maxqueue fp ips = ipRun fp ips := by
  induction ips generalizing fp with
  | nil => rfl
  | cons ip ips ih =>
    rw [length_cons] at h
    have hours : ipOursMax maxqueue fp ip = ipOurs fp ip true true := by
      unfold ipOursMax
      rw [if_neg]
      intro hno
      omega
    have hle := ipFrags_ipOurs_le fp ip
    unfold ipRunMax ipRun
    rw [hours]
    dsimp only
    rw [@ih (ipOurs fp ip true true).1 (by omega)]

theorem ipRunMax_append (maxqueue : Nat) (fp : Option Ipq) (xs ys : List IpPkt) :
    ipRunMax maxqueue fp (xs ++ ys) =
      ((ipRunMax maxqueue (ipRunMax maxqueue fp xs).1 ys).1,
        (ipRunMax maxqueue fp xs).2 ++ (ipRunMax maxqueue (ipRunMax maxqueue fp xs).1 ys).2) := by
  induction xs generalizing fp with
  | nil => rfl
  | cons x xs ih =>
    show ((ipRunMax _ _ (xs ++ ys)).1, _ :: (ipRunMax _ _ (xs ++ ys)).2) = _
    rw [ih]
    rfl

/-! ## Beyond it -/

/-- With one fragment more than the limit, in order, the last one is dropped with the queue. -/
theorem Fragmented.beyond_limit {payload : List UInt8} {xs : List IpPkt} {x : IpPkt}
    (h : Fragmented payload (xs ++ [x])) :
    (ipRunMax xs.length none (xs ++ [x])).2 = (xs ++ [x]).map fun _ => none := by
  obtain ⟨hbounds, hpair⟩ := h.parts.bounds
  have hx : x ∈ xs ++ [x] := mem_append_right xs mem_cons_self
  have hxnot : x ∉ xs := by
    intro hin
    exact not_before_self (hbounds x hx).2 ((pairwise_append.1 hpair).2.2 x hin x mem_cons_self)
  have hmiss : ¬ ∀ f ∈ xs ++ [x], f ∈ xs.reverse ++ [] := by
    intro hall
    exact hxnot (by simpa using hall x hx)
  obtain ⟨hout, hend⟩ := @Fragmented.run payload (xs ++ [x]) [] none h xs
    (fun y hy => mem_append_left _ hy) (.inl ⟨rfl, rfl⟩) hmiss
  -- the queue has all of them but the last
  have hseen : seenOf (xs ++ [x]) (xs.reverse ++ []) = xs := by
    unfold seenOf
    rw [filter_append, filter_eq_self.mpr (by simp),
      filter_eq_nil_iff.mpr (by simpa using hxnot), append_nil]
  have hfull : ipFrags (ipRun none xs).1 = xs.length := by
    rcases hend with ⟨hnil, hnone⟩ | ⟨q, hq, hfragq⟩
    · have : xs = [] := by simpa using hnil
      rw [hnone, this]
      rfl
    · rw [hq]
      show q.fragq.length = _
      rw [hfragq, hseen, length_map]
  obtain ⟨hfrag, hlen⟩ := h.parts.fragment (.inl h.two) x hx
  have hcounted : x.Counted := by
    refine ⟨hfrag, ?_, x.isFragment_iff.1 hfrag⟩
    rintro ⟨hmff, hbad⟩
    have hpos := length_pos_iff.2 (hbounds x hx).2
    have hentry := (h.whole x hx).entry_len
    have hmod := hlen hmff
    omega
  have hmax : ipRunMax xs.length none xs = ipRun none xs :=
    ipRunMax_eq (by show 0 + _ ≤ _; omega)
  have hdrop : (ipOursMax xs.length (ipRun none xs).1 x).2 = none := by
    unfold ipOursMax
    rw [if_pos ⟨hcounted, by omega⟩]
  rw [ipRunMax_append, hmax, hout, map_append]
  show _ ++ [(ipOursMax xs.length (ipRun none xs).1 x).2] = _
  rw [hdrop]
  rfl

end OpenBsd.Netinet
