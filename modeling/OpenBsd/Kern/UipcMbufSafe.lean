/-
  OpenBsd.Kern.UipcMbufSafe

  `m_copyback` overwrites the bytes of a chain, which it first extends with zeros if they
  end before `off`.
-/

import OpenBsd.Kern.UipcMbuf

namespace OpenBsd.Kern

open OpenBsd.Lib List Option

variable {mlen : Nat}

variable {m m' : ChainMbuf} {off : Nat} {src cp : List UInt8} {next : List ChainMbuf}

/-! ## Stores and new mbufs -/

theorem cInt_eq_some {n k : Nat} (h : cInt n = some k) : k = n := by
  rw [cInt] at h
  split at h
  · exact (Option.some.inj h).symm
  · cases h

theorem ChainMbuf.store_eq_some (h : m.store off src = some m') :
    m'.mData = overwrite 0 m.mData off src ∧ m'.mLen = m.mLen ∧
      m'.mPkthdrLen = m.mPkthdrLen := by
  rw [ChainMbuf.store] at h
  split at h
  · cases h
    exact ⟨rfl, rfl, rfl⟩
  · cases h

theorem ChainMbuf.setLen_eq_some {len : Nat} (h : m.setLen len = some m') :
    m'.mData = m.mData ∧ m'.mLen = len ∧ m'.mPkthdrLen = m.mPkthdrLen := by
  rw [ChainMbuf.setLen] at h
  split at h
  · cases h
    exact ⟨rfl, rfl, rfl⟩
  · cases h

theorem ChainMbuf.store_bytes (h : m.store off src = some m') (hfit : off + src.length ≤ m.mLen) :
    m'.bytes = overwrite 0 m.bytes off src := by
  obtain ⟨hdata, hlen, -⟩ := ChainMbuf.store_eq_some h
  rw [ChainMbuf.bytes, hdata, hlen, take_overwrite hfit m.mLen_le]
  rfl

/-- "extend last packet to be filled fully": only the last mbuf grows, behind its data and
    not beyond what is written. -/
theorem fillLast_eq_some {s : Copyback} (h : fillLast s = some m') :
    m' = s.m ∨
      s.next = [] ∧ s.m.mLen ≤ m'.mLen ∧
        (s.off ≤ s.m.mLen → m'.mLen ≤ s.off + s.cp.length) ∧
        s.m.bytes = m'.bytes.take s.m.mLen ∧ m'.mPkthdrLen = s.m.mPkthdrLen := by
  rw [fillLast] at h
  split at h
  · rename_i hlast
    obtain ⟨hdata, hlen, hp⟩ := ChainMbuf.setLen_eq_some h
    have hle : s.m.mLen ≤ m'.mLen := by
      rw [hlen]
      exact Nat.le_add_right _ _
    refine .inr ⟨hlast.1, hle, ?_, ?_, hp⟩
    · intro hoff
      rw [hlen]
      omega
    · rw [ChainMbuf.bytes, ChainMbuf.bytes, hdata, take_take, Nat.min_eq_left hle]
  · exact .inl (Option.some.inj h).symm

/-! ## The invariant of both loops -/

/-- What is copied so far is `front`; writing the rest of the buffer into the rest of the
    chain gives `goal`.  The first mbuf keeps its header and the chain never shrinks. -/
structure Copyback.Inv (goal : List UInt8) (last base : Nat) (p : Option Int)
    (s : Copyback) : Prop where
  cp_ne : s.cp ≠ []
  bytes : chainBytes s.front ++ overwrite 0 (chainBytes (s.m :: s.next)) s.off s.cp = goal
  totlen : s.totlen = chainLen s.front
  last_eq : s.totlen + s.off + s.cp.length = last
  base_le : base ≤ chainLen s.chain
  pkthdr : pkthdrLen s.chain = p

/-- What is so at `out`. -/
def CopybackDone (goal : List UInt8) (last base : Nat) (p : Option Int) :
    CopybackError × Copyback → Prop
  | (.ok, s) =>
    chainBytes s.chain = goal ∧ s.totlen = last ∧
      pkthdrLen s.chain = p
  | (.enobufs, s) =>
    s.totlen = chainLen s.chain ∧ base ≤ chainLen s.chain ∧
      pkthdrLen s.chain = p

/-- What the first loop leaves. -/
def SeekDone (goal : List UInt8) (last base : Nat) (p : Option Int) :
    CopybackError × Copyback → Prop
  | (.ok, s) => s.Inv goal last base p ∧ s.off ≤ s.m.mLen
  | (.enobufs, s) => CopybackDone goal last base p (.enobufs, s)

variable {goal : List UInt8} {last base : Nat} {p : Option Int} {s : Copyback}

theorem Copyback.chain_step (s : Copyback) (m : ChainMbuf) (next : List ChainMbuf) :
    (s.front ++ [m]) ++ next = s.front ++ m :: next := by
  rw [append_assoc, singleton_append]

theorem pkthdrLen_append_cons {front next' : List ChainMbuf} (h : m'.mPkthdrLen = m.mPkthdrLen) :
    pkthdrLen (front ++ m' :: next') = pkthdrLen (front ++ m :: next) := by
  cases front with
  | nil => exact h
  | cons f front => rfl

/-! ## while (off > (mlen = m->m_len)) -/

theorem overwrite_zeroed {n n₁ n₂ : ChainMbuf} (hstore : n.store 0 (List.replicate off 0) = some n₁)
    (hlen : n₁.setLen (cp.length + off) = some n₂) :
    n₂.bytes.length = cp.length + off ∧
      overwrite 0 n₂.bytes off cp = List.replicate off 0 ++ cp := by
  obtain ⟨hdata₁, -, -⟩ := ChainMbuf.store_eq_some hstore
  obtain ⟨hdata₂, hlen₂, -⟩ := ChainMbuf.setLen_eq_some hlen
  have hlength : n₂.bytes.length = cp.length + off := by rw [ChainMbuf.bytes_length, hlen₂]
  have hstart : n₂.bytes.take off = List.replicate off 0 := by
    rw [ChainMbuf.bytes, hlen₂, hdata₂, hdata₁, take_take,
      Nat.min_eq_left (Nat.le_add_left off cp.length)]
    simp [overwrite]
  refine ⟨hlength, ?_⟩
  rw [overwrite_of_le_length (by omega) (by omega), hstart]

theorem seekBody_next {s' : Copyback} (hs : s.Inv goal last base p)
    (h : seekBody mlen s = some (.inl s')) : s'.Inv goal last base p := by
  rw [seekBody] at h
  obtain ⟨k, hk, h⟩ := bind_eq_some_iff.mp h
  cases cInt_eq_some hk
  split at h
  swap
  · cases h
  rename_i hoff
  obtain ⟨t, ht, h⟩ := bind_eq_some_iff.mp h
  cases cInt_eq_some ht
  have hbytes := hs.bytes
  have hlast := hs.last_eq
  have htot := hs.totlen
  split at h
  · rename_i m next hnext
    cases h
    have hchain : (s.front ++ [s.m]) ++ m :: next = s.chain := by
      rw [Copyback.chain, hnext, s.chain_step]
    refine ⟨hs.cp_ne, ?_, ?_, ?_, ?_, ?_⟩
    · rw [hnext, chainBytes_cons, overwrite_append_right
        (by rw [ChainMbuf.bytes_length]; exact Nat.le_of_lt hoff), ChainMbuf.bytes_length] at hbytes
      rw [← hbytes, chainBytes_append, append_assoc]
      simp only [chainBytes_cons, chainBytes_nil, append_nil]
    · simp only [chainLen_append, chainLen_cons, htot]
      rfl
    · simp only
      omega
    · rw [Copyback.chain, hchain]
      exact hs.base_le
    · rw [Copyback.chain, hchain]
      exact hs.pkthdr
  · rename_i hnext
    obtain ⟨⟨n?, pools⟩, hnew, h⟩ := bind_eq_some_iff.mp h
    cases n? with
    | none => cases h
    | some n =>
      obtain ⟨n₁, hstore, h⟩ := bind_eq_some_iff.mp h
      obtain ⟨n₂, hlen, h⟩ := bind_eq_some_iff.mp h
      cases h
      obtain ⟨hlength, hzeros⟩ := overwrite_zeroed hstore hlen
      have hchain : (s.front ++ [s.m]) ++ [n₂] = s.chain ++ [n₂] := by
        rw [Copyback.chain, hnext]
      refine ⟨hs.cp_ne, ?_, ?_, ?_, ?_, ?_⟩
      · rw [hnext, chainBytes_cons, chainBytes_nil, append_nil, overwrite_of_length_le
          (by rw [ChainMbuf.bytes_length]; exact Nat.le_of_lt hoff),
          ChainMbuf.bytes_length] at hbytes
        rw [← hbytes]
        simp only [chainBytes_append, chainBytes_cons, chainBytes_nil, append_nil, hzeros,
          append_assoc]
      · simp only [chainLen_append, chainLen_cons, htot]
        rfl
      · simp only
        omega
      · rw [Copyback.chain, hchain, chainLen_append]
        exact Nat.le_trans hs.base_le (Nat.le_add_right _ _)
      · have hp := hs.pkthdr
        rw [Copyback.chain, hnext] at hp
        rw [Copyback.chain, s.chain_step, ← hp]
        exact pkthdrLen_append_cons rfl

variable {r : CopybackError × Copyback}

theorem seekBody_exit (hs : s.Inv goal last base p)
    (h : seekBody mlen s = some (.inr r)) : SeekDone goal last base p r := by
  rw [seekBody] at h
  obtain ⟨k, hk, h⟩ := bind_eq_some_iff.mp h
  cases cInt_eq_some hk
  split at h
  · obtain ⟨t, ht, h⟩ := bind_eq_some_iff.mp h
    cases cInt_eq_some ht
    split at h
    · cases h
    · rename_i hnext
      obtain ⟨⟨n?, pools⟩, hnew, h⟩ := bind_eq_some_iff.mp h
      cases n? with
      | none =>
        cases h
        refine ⟨?_, hs.base_le, hs.pkthdr⟩
        simp only [Copyback.chain, hnext, chainLen_append, chainLen_cons, hs.totlen]
        rfl
      | some n =>
        obtain ⟨n₁, hstore, h⟩ := bind_eq_some_iff.mp h
        obtain ⟨n₂, hlen, h⟩ := bind_eq_some_iff.mp h
        cases h
  · rename_i hoff
    cases h
    exact ⟨hs, Nat.le_of_not_lt hoff⟩

/-! ## while (len > 0) -/

theorem fillLast_overwrite (hoff : s.off ≤ s.m.mLen) (h : fillLast s = some m') :
    overwrite 0 (chainBytes (m' :: s.next)) s.off s.cp =
      overwrite 0 (chainBytes (s.m :: s.next)) s.off s.cp := by
  obtain rfl | ⟨hnext, hle, hend, hbytes, -⟩ := fillLast_eq_some h
  · rfl
  · have hend' := hend hoff
    have hlen := ChainMbuf.bytes_length s.m
    have hlen' := ChainMbuf.bytes_length m'
    simp only [hnext, chainBytes_cons, chainBytes_nil, append_nil]
    rw [overwrite_of_le_length (by omega) (by omega), overwrite_of_le_length (by omega) (by omega),
      hbytes, take_take, Nat.min_eq_left hoff]

theorem store_overwrite (hoff : off ≤ m.mLen)
    (h : m.store off (cp.take (min (m.mLen - off) cp.length)) = some m') :
    overwrite 0 (chainBytes (m :: next)) off cp =
      m'.bytes ++ overwrite 0 (chainBytes next) 0 (cp.drop (min (m.mLen - off) cp.length)) := by
  have htake : cp.take (min (m.mLen - off) cp.length) = cp.take (m.mLen - off) := by
    rw [← take_take, take_length]
  have hdrop : cp.drop (min (m.mLen - off) cp.length) = cp.drop (m.mLen - off) := by
    by_cases hle : m.mLen - off ≤ cp.length
    · rw [Nat.min_eq_left hle]
    · rw [Nat.min_eq_right (by omega), drop_length, drop_eq_nil_of_le (by omega)]
  have hbytes := ChainMbuf.store_bytes h (by rw [length_take]; omega)
  rw [hdrop, hbytes, htake, chainBytes_cons,
    overwrite_append_left (by rw [ChainMbuf.bytes_length]; exact hoff), ChainMbuf.bytes_length]

/-- What an iteration makes of `m`, with `n` bytes copied. -/
structure Stored (goal : List UInt8) (s : Copyback) (m : ChainMbuf) (n : Nat) : Prop where
  bytes : chainBytes s.front ++ (m.bytes ++ overwrite 0 (chainBytes s.next) 0 (s.cp.drop n)) = goal
  n_eq : n = min (m.mLen - s.off) s.cp.length
  off_le : s.off ≤ m.mLen
  mLen_le : s.m.mLen ≤ m.mLen
  pkthdr : m.mPkthdrLen = s.m.mPkthdrLen

theorem Copyback.Inv.stored {m₁ m₂ : ChainMbuf} (hs : s.Inv goal last base p)
    (hoff : s.off ≤ s.m.mLen) (hfill : fillLast s = some m₁)
    (hstore : m₁.store s.off (s.cp.take (min (m₁.mLen - s.off) s.cp.length)) = some m₂) :
    Stored goal s m₂ (min (m₁.mLen - s.off) s.cp.length) := by
  have hle : s.m.mLen ≤ m₁.mLen ∧ m₁.mPkthdrLen = s.m.mPkthdrLen := by
    obtain rfl | ⟨-, hle, -, -, hp⟩ := fillLast_eq_some hfill
    · exact ⟨Nat.le_refl _, rfl⟩
    · exact ⟨hle, hp⟩
  obtain ⟨-, hlen, hp⟩ := ChainMbuf.store_eq_some hstore
  refine ⟨?_, by rw [hlen], ?_, ?_, hp.trans hle.2⟩
  · rw [← store_overwrite (Nat.le_trans hoff hle.1) hstore, fillLast_overwrite hoff hfill]
    exact hs.bytes
  · rw [hlen]
    exact Nat.le_trans hoff hle.1
  · rw [hlen]
    exact hle.1

theorem copyBody_next {s' : Copyback} (hs : s.Inv goal last base p ∧ s.off ≤ s.m.mLen)
    (h : copyBody mlen s = some (.inl s')) :
    s'.Inv goal last base p ∧ s'.off ≤ s'.m.mLen := by
  obtain ⟨hs, hoff⟩ := hs
  rw [copyBody] at h
  split at h
  · cases h
  obtain ⟨m₁, hfill, h⟩ := bind_eq_some_iff.mp h
  obtain ⟨m₂, hstore, h⟩ := bind_eq_some_iff.mp h
  obtain ⟨t, ht, h⟩ := bind_eq_some_iff.mp h
  cases cInt_eq_some ht
  have hst := hs.stored hoff hfill hstore
  set n := min (m₁.mLen - s.off) s.cp.length with hn
  split at h
  · cases h
  rename_i hrest
  -- the buffer is not used up, so the mbuf is
  have hdrop : (s.cp.drop n).length = s.cp.length - n := length_drop
  have hfull : n + s.off = m₂.mLen := by
    have := hst.n_eq
    have := hst.off_le
    omega
  have hne : s.cp.drop n ≠ [] := by
    intro hnil
    rw [hnil] at hrest
    exact hrest rfl
  have hbytes := hst.bytes
  have hlast := hs.last_eq
  have hbase := hs.base_le
  rw [Copyback.chain, chainLen_append, chainLen_cons] at hbase
  have hlonger := hst.mLen_le
  have hhead : ∀ l, pkthdrLen (s.front ++ m₂ :: l) = p := fun l =>
    (pkthdrLen_append_cons hst.pkthdr).trans hs.pkthdr
  have htot : s.totlen + (n + s.off) = chainLen (s.front ++ [m₂]) := by
    rw [chainLen_append, hs.totlen, hfull]
    rfl
  split at h
  · rename_i m next hnext
    cases h
    refine ⟨⟨hne, ?_, htot, ?_, ?_, ?_⟩, Nat.zero_le _⟩
    · rw [← hbytes, hnext, chainBytes_append, append_assoc]
      simp only [chainBytes_cons, chainBytes_nil, append_nil]
    · simp only
      omega
    · simp only [Copyback.chain, s.chain_step, chainLen_append, chainLen_cons, hnext] at hbase ⊢
      omega
    · rw [Copyback.chain, s.chain_step, hhead]
  · rename_i hnext
    obtain ⟨⟨n?, pools⟩, hnew, h⟩ := bind_eq_some_iff.mp h
    cases n? with
    | none => cases h
    | some n₁ =>
      obtain ⟨n₂, hlen, h⟩ := bind_eq_some_iff.mp h
      cases h
      obtain ⟨-, hlen₂, -⟩ := ChainMbuf.setLen_eq_some hlen
      have hn₂ : n₂.bytes.length = (s.cp.drop n).length := by
        rw [ChainMbuf.bytes_length, hlen₂]
      refine ⟨⟨hne, ?_, htot, ?_, ?_, ?_⟩, Nat.zero_le _⟩
      · rw [← hbytes, hnext, chainBytes_append, append_assoc]
        simp only [chainBytes_cons, chainBytes_nil, append_nil]
        rw [overwrite_of_le_length (Nat.zero_le n₂.bytes.length)
            (Nat.le_of_eq (by rw [hn₂, Nat.zero_add])),
          overwrite_of_le_length (Nat.zero_le ([] : List UInt8).length) (Nat.zero_le _),
          take_zero, take_zero]
      · simp only
        omega
      · simp only [Copyback.chain, s.chain_step, chainLen_append, chainLen_cons, hnext] at hbase ⊢
        omega
      · rw [Copyback.chain, s.chain_step, hhead]

theorem copyBody_exit (hs : s.Inv goal last base p ∧ s.off ≤ s.m.mLen)
    (h : copyBody mlen s = some (.inr r)) : CopybackDone goal last base p r := by
  obtain ⟨hs, hoff⟩ := hs
  rw [copyBody] at h
  split at h
  · rename_i hnil
    exact absurd (length_eq_zero_iff.mp hnil) hs.cp_ne
  obtain ⟨m₁, hfill, h⟩ := bind_eq_some_iff.mp h
  obtain ⟨m₂, hstore, h⟩ := bind_eq_some_iff.mp h
  obtain ⟨t, ht, h⟩ := bind_eq_some_iff.mp h
  cases cInt_eq_some ht
  have hst := hs.stored hoff hfill hstore
  set n := min (m₁.mLen - s.off) s.cp.length with hn
  have hdrop : (s.cp.drop n).length = s.cp.length - n := length_drop
  have hhead : pkthdrLen (s.front ++ m₂ :: s.next) = p := by
    rw [← hs.pkthdr, Copyback.chain]
    exact pkthdrLen_append_cons hst.pkthdr
  split at h
  · rename_i hused
    cases h
    refine ⟨?_, ?_, hhead⟩
    · rw [← hst.bytes, length_eq_zero_iff.mp hused, overwrite_nil (Nat.zero_le _)]
      simp only [Copyback.chain, chainBytes_append, chainBytes_cons]
    · have := hs.last_eq
      show s.totlen + (n + s.off) = last
      omega
  · rename_i hrest
    split at h
    · cases h
    · rename_i hnext
      obtain ⟨⟨n?, pools⟩, hnew, h⟩ := bind_eq_some_iff.mp h
      cases n? with
      | some n₁ =>
        obtain ⟨n₂, hlen, h⟩ := bind_eq_some_iff.mp h
        cases h
      | none =>
        cases h
        have hfull : n + s.off = m₂.mLen := by
          have := hst.n_eq
          have := hst.off_le
          omega
        have hbase := hs.base_le
        have hlonger := hst.mLen_le
        refine ⟨?_, ?_, hhead⟩
        · simp only [Copyback.chain, hnext, chainLen_append, chainLen_cons, hs.totlen, hfull]
          rfl
        · simp only [Copyback.chain, chainLen_append, chainLen_cons] at hbase ⊢
          omega

/-! ## Both loops end -/

theorem cInt_of_lt {n : Nat} (h : n < 2 ^ 31) : cInt n = some n := if_pos h

theorem mClpool_isSome {pktlen : Nat} (h : pktlen ≤ 64 * 1024) :
    ∃ size, mClpool pktlen = some size ∧ pktlen ≤ size := by
  have hsome : (mClpool pktlen).isSome := by
    rw [mClpool, find?_isSome]
    exact ⟨64 * 1024, by decide, decide_eq_true h⟩
  obtain ⟨size, hsize⟩ := isSome_iff_exists.mp hsome
  rw [mClpool] at hsize
  have hle := find?_some hsize
  exact ⟨size, hsize, of_decide_eq_true hle⟩

theorem mbufPoolGet_length {size : Nat} {pools pools' : PoolGets} {item : List UInt8}
    (h : mbufPoolGet size pools = (some item, pools')) : item.length = size := by
  match pools with
  | [] => cases h
  | none :: _ => cases h
  | some _ :: _ =>
    cases h
    rw [length_map, length_range]

theorem newMbuf_eq (mlen type : Nat) {need : Nat} (pools : PoolGets) (h : need ≤ 64 * 1024) :
    ∃ n? pools', newMbuf mlen type need pools = some (n?, pools') ∧
      ∀ n, n? = some n → need ≤ n.mData.length := by
  rw [newMbuf]
  split
  · rename_i pools' hget
    exact ⟨none, pools', rfl, fun n hn => nomatch hn⟩
  · rename_i n pools' hget
    have hroom : n.mData.length = mlen := by
      rw [mGet] at hget
      split at hget
      · cases hget
      · rename_i dat pools'' hpool
        cases hget
        exact mbufPoolGet_length hpool
    split
    · obtain ⟨size, hsize, hle⟩ := mClpool_isSome h
      simp only [mClget, hsize]
      split
      · rename_i pools'' hpool
        exact ⟨none, pools'', rfl, fun n hn => nomatch hn⟩
      · rename_i buf pools'' hpool
        refine ⟨_, pools'', rfl, ?_⟩
        intro n' hn'
        cases hn'
        rw [mbufPoolGet_length hpool]
        exact hle
    · rename_i hfits
      refine ⟨some n, pools', rfl, ?_⟩
      intro n' hn'
      cases hn'
      omega

theorem ChainMbuf.store_isSome (h : off + src.length ≤ m.mData.length) :
    ∃ m', m.store off src = some m' :=
  ⟨_, dif_pos h⟩

theorem ChainMbuf.setLen_isSome {len : Nat} (h : len ≤ m.mData.length) :
    ∃ m', m.setLen len = some m' := ⟨_, dif_pos h⟩

theorem fillLast_isSome (s : Copyback) : ∃ m, fillLast s = some m := by
  rw [fillLast]
  split
  · apply ChainMbuf.setLen_isSome
    have hle := s.m.mLen_le
    rw [mbufTrailingspace]
    split <;> omega
  · exact ⟨s.m, rfl⟩

/-- No `int` overflows and no cluster is asked for that no pool has. -/
structure CopybackFits (base last : Nat) : Prop where
  chain : base < 2 ^ 31
  whole : last < 2 ^ 31
  cluster : last ≤ base + 64 * 1024

/-- The mbufs that the first loop still visits. -/
def seekLeft (s : Copyback) : Nat := if s.m.mLen < s.off then s.next.length + 1 else 0

theorem seekBody_isSome (mlen : Nat) (hfit : CopybackFits base last)
    (hs : s.Inv goal last base p ∧ chainLen s.chain ≤ max base last) :
    (∃ r, seekBody mlen s = some (.inr r)) ∨
      ∃ s', seekBody mlen s = some (.inl s') ∧
        (s'.Inv goal last base p ∧ chainLen s'.chain ≤ max base last) ∧
        seekLeft s' < seekLeft s := by
  obtain ⟨hs, hmax⟩ := hs
  have hchain : s.front ++ s.m :: s.next = s.chain := rfl
  have hlast := hs.last_eq
  have htot := hs.totlen
  have hlen : chainLen s.chain = chainLen s.front + (s.m.mLen + chainLen s.next) := by
    rw [← hchain, chainLen_append, chainLen_cons]
  have hwhole := hfit.whole
  have hbase := hfit.chain
  have hmLen : cInt s.m.mLen = some s.m.mLen := cInt_of_lt (by omega)
  by_cases hoff : s.m.mLen < s.off
  swap
  · refine .inl ⟨(.ok, s), ?_⟩
    simp only [seekBody, hmLen, bind_eq_bind, bind_some, if_neg hoff]
  have htotlen : cInt (s.totlen + s.m.mLen) = some (s.totlen + s.m.mLen) := cInt_of_lt (by omega)
  have hleft : seekLeft s = s.next.length + 1 := if_pos hoff
  cases hnext : s.next with
  | cons m next =>
    have hbody : seekBody mlen s = some (.inl { s with
        front := s.front ++ [s.m], m, next, off := s.off - s.m.mLen,
        totlen := s.totlen + s.m.mLen }) := by
      simp only [seekBody, hmLen, htotlen, hnext, bind_eq_bind, bind_some, if_pos hoff]
    refine .inr ⟨_, hbody, ⟨seekBody_next hs hbody, ?_⟩, ?_⟩
    · rw [Copyback.chain, s.chain_step, ← hnext]
      exact hmax
    · rw [hleft, hnext, seekLeft]
      split
      · exact Nat.lt_succ_self _
      · exact Nat.succ_pos _
  | nil =>
    have hneed : s.off - s.m.mLen + s.cp.length ≤ 64 * 1024 := by
      have := hs.base_le
      have := hfit.cluster
      rw [hnext, chainLen_nil] at hlen
      omega
    obtain ⟨n?, pools, hnew, hroom⟩ := newMbuf_eq mlen s.m.mType s.pools hneed
    cases n? with
    | none =>
      refine .inl ⟨(.enobufs, { s with
        off := s.off - s.m.mLen, totlen := s.totlen + s.m.mLen, pools }), ?_⟩
      simp only [seekBody, hmLen, htotlen, hnext, hnew, bind_eq_bind, bind_some, if_pos hoff]
    | some n =>
      have hn := hroom n rfl
      obtain ⟨n₁, hstore⟩ : ∃ n₁, n.store 0 (List.replicate (s.off - s.m.mLen) 0) = some n₁ :=
        ChainMbuf.store_isSome (by rw [length_replicate]; omega)
      obtain ⟨hdata, -, -⟩ := ChainMbuf.store_eq_some hstore
      obtain ⟨n₂, hset⟩ : ∃ n₂, n₁.setLen (s.cp.length + (s.off - s.m.mLen)) = some n₂ := by
        apply ChainMbuf.setLen_isSome
        rw [hdata, overwrite_length]
        omega
      obtain ⟨-, hlen₂, -⟩ := ChainMbuf.setLen_eq_some hset
      have hbody : seekBody mlen s = some (.inl { s with
          front := s.front ++ [s.m], m := n₂, next := [], off := s.off - s.m.mLen,
          totlen := s.totlen + s.m.mLen, pools }) := by
        simp only [seekBody, hmLen, htotlen, hnext, hnew, hstore, hset, bind_eq_bind,
          bind_some, if_pos hoff]
      refine .inr ⟨_, hbody, ⟨seekBody_next hs hbody, ?_⟩, ?_⟩
      · simp only [Copyback.chain, s.chain_step, chainLen_append, chainLen_cons, chainLen_nil,
          hlen₂]
        omega
      · rw [hleft, hnext, seekLeft, if_neg (by simp only [hlen₂]; omega)]
        exact Nat.succ_pos _

/-- The mbufs that the second loop still fills. -/
def copyLeft (s : Copyback) : Nat :=
  if s.m.mLen < s.off + s.cp.length then s.next.length + 1 else 0

theorem copyBody_isSome (mlen : Nat) (hfit : CopybackFits base last)
    (hs : s.Inv goal last base p ∧ s.off ≤ s.m.mLen) :
    (∃ r, copyBody mlen s = some (.inr r)) ∨
      ∃ s', copyBody mlen s = some (.inl s') ∧
        (s'.Inv goal last base p ∧ s'.off ≤ s'.m.mLen) ∧ copyLeft s' < copyLeft s := by
  have hne : ¬ s.cp.length = 0 := fun h => hs.1.cp_ne (length_eq_zero_iff.mp h)
  obtain ⟨m₁, hfill⟩ := fillLast_isSome s
  obtain ⟨m₂, hstore⟩ : ∃ m₂,
      m₁.store s.off (s.cp.take (min (m₁.mLen - s.off) s.cp.length)) = some m₂ := by
    apply ChainMbuf.store_isSome
    have hle : s.m.mLen ≤ m₁.mLen := by
      obtain rfl | ⟨-, hle, -⟩ := fillLast_eq_some hfill
      · exact Nat.le_refl _
      · exact hle
    have := m₁.mLen_le
    have := hs.2
    rw [length_take]
    omega
  have hst := hs.1.stored hs.2 hfill hstore
  have hstored := hst.n_eq
  set n := min (m₁.mLen - s.off) s.cp.length with hn
  have hdrop : (s.cp.drop n).length = s.cp.length - n := length_drop
  have hlast := hs.1.last_eq
  have htotlen : cInt (s.totlen + (n + s.off)) = some (s.totlen + (n + s.off)) := by
    have := hfit.whole
    exact cInt_of_lt (by omega)
  by_cases hused : (s.cp.drop n).length = 0
  · refine .inl ⟨(.ok, { s with
      m := m₂, cp := s.cp.drop n, totlen := s.totlen + (n + s.off) }), ?_⟩
    simp only [copyBody, if_neg hne, hfill, hstore, ← hn, htotlen, bind_eq_bind,
      bind_some, if_pos hused]
  have hleft : copyLeft s = s.next.length + 1 := by
    have := hst.mLen_le
    rw [copyLeft, if_pos (by omega)]
  cases hnext : s.next with
  | cons m next =>
    have hbody : copyBody mlen s = some (.inl { s with
        front := s.front ++ [m₂], m, next, off := 0, cp := s.cp.drop n,
        totlen := s.totlen + (n + s.off) }) := by
      simp only [copyBody, if_neg hne, hfill, hstore, ← hn, htotlen, hnext, bind_eq_bind,
        bind_some, if_neg hused]
    refine .inr ⟨_, hbody, copyBody_next hs hbody, ?_⟩
    rw [hleft, hnext, copyLeft]
    split
    · exact Nat.lt_succ_self _
    · exact Nat.succ_pos _
  | nil =>
    have hneed : (s.cp.drop n).length ≤ 64 * 1024 := by
      have hbase := hs.1.base_le
      have := hfit.cluster
      have := hst.mLen_le
      have := hst.off_le
      have := hs.1.totlen
      simp only [Copyback.chain, hnext, chainLen_append, chainLen_cons, chainLen_nil] at hbase
      omega
    obtain ⟨n?, pools, hnew, hroom⟩ := newMbuf_eq mlen m₂.mType s.pools hneed
    cases n? with
    | none =>
      refine .inl ⟨(.enobufs, { s with
        m := m₂, off := 0, cp := s.cp.drop n, totlen := s.totlen + (n + s.off), pools }), ?_⟩
      simp only [copyBody, if_neg hne, hfill, hstore, ← hn, htotlen, hnext, hnew,
        bind_eq_bind, bind_some, if_neg hused]
    | some n₁ =>
      obtain ⟨n₂, hset⟩ := ChainMbuf.setLen_isSome (hroom n₁ rfl)
      obtain ⟨-, hlen₂, -⟩ := ChainMbuf.setLen_eq_some hset
      have hbody : copyBody mlen s = some (.inl { s with
          front := s.front ++ [m₂], m := n₂, next := [], off := 0, cp := s.cp.drop n,
          totlen := s.totlen + (n + s.off), pools }) := by
        simp only [copyBody, if_neg hne, hfill, hstore, ← hn, htotlen, hnext, hnew, hset,
          bind_eq_bind, bind_some, if_neg hused]
      refine .inr ⟨_, hbody, copyBody_next hs hbody, ?_⟩
      rw [hleft, hnext, copyLeft, if_neg (by simp only [hlen₂]; omega)]
      exact Nat.succ_pos _

/-! ## m_copyback -/

theorem setPkthdrLen_bytes (totlen : Nat) (l : List ChainMbuf) :
    chainBytes (setPkthdrLen totlen l) = chainBytes l ∧
      chainLen (setPkthdrLen totlen l) = chainLen l := by
  cases l with
  | nil => exact ⟨rfl, rfl⟩
  | cons m next =>
    simp only [setPkthdrLen]
    split
    · exact ⟨rfl, rfl⟩
    · split <;> exact ⟨rfl, rfl⟩

theorem pkthdrLen_setPkthdrLen (totlen : Nat) (l : List ChainMbuf) :
    pkthdrLen (setPkthdrLen totlen l) = (pkthdrLen l).map fun len : Int => max len totlen := by
  cases l with
  | nil => rfl
  | cons m next =>
    simp only [setPkthdrLen]
    cases hp : m.mPkthdrLen with
    | none => simp only [pkthdrLen, head?_cons, bind_some, hp, map_none]
    | some len =>
      simp only [pkthdrLen, head?_cons, bind_some, hp, map_some]
      split
      · rename_i hlt
        simp only [head?_cons, bind_some, max_eq_right (le_of_lt hlt)]
      · rename_i hge
        simp only [head?_cons, bind_some, hp, max_eq_left (not_lt.mp hge)]

theorem copyback_start (m0 : ChainMbuf) (next : List ChainMbuf) (off : Nat) (pools : PoolGets)
    (hcp : cp ≠ []) :
    Copyback.Inv (overwrite 0 (chainBytes (m0 :: next)) off cp) (off + cp.length)
      (chainLen (m0 :: next)) m0.mPkthdrLen ⟨[], m0, next, off, 0, cp, pools⟩ :=
  ⟨hcp, rfl, rfl, by simp only [Nat.zero_add], Nat.le_refl _, rfl⟩

theorem mCopyback_eq_some {m0 : ChainMbuf} {chain : List ChainMbuf} {pools : PoolGets}
    {error : CopybackError} (hcp : cp ≠ [])
    (h : mCopyback mlen (m0 :: next) off cp pools = some (error, chain)) :
    ∃ s : Copyback, chain = setPkthdrLen s.totlen s.chain ∧
      CopybackDone (overwrite 0 (chainBytes (m0 :: next)) off cp) (off + cp.length)
        (chainLen (m0 :: next)) m0.mPkthdrLen (error, s) := by
  have hstart := copyback_start m0 next off pools hcp
  rw [mCopyback] at h
  split at h
  · cases h
  · rename_i s hseek
    have hfailed : SeekDone _ _ _ _ (.enobufs, s) :=
      loop_invariant (fun s s' => seekBody_next) (fun s r => seekBody_exit) _ _ hstart hseek
    cases h
    exact ⟨s, rfl, hfailed⟩
  · rename_i s hseek
    have hsought := loop_invariant (fun s s' => seekBody_next) (fun s r => seekBody_exit) _ _
      hstart hseek
    obtain ⟨⟨e, s'⟩, hcopy, hout⟩ := map_eq_some_iff.mp h
    cases hout
    exact ⟨s', rfl, loop_invariant (fun s s' => copyBody_next) (fun s r => copyBody_exit) _ _
      hsought hcopy⟩

/-- For a chain, a position and a buffer that `int`s and clusters can hold there is a
    result. -/
theorem mCopyback_isSome {m0 : ChainMbuf} (pools : PoolGets) (hcp : cp ≠ [])
    (hfit : CopybackFits (chainLen (m0 :: next)) (off + cp.length)) :
    (mCopyback mlen (m0 :: next) off cp pools).isSome := by
  have hstart := copyback_start m0 next off pools hcp
  obtain ⟨⟨e, s⟩, hseek⟩ := isSome_iff_exists.mp
    (loop_isSome seekLeft (fun s => seekBody_isSome mlen hfit) (next.length + 3) _
      ⟨hstart, Nat.le_max_left _ _⟩ (by
        rw [seekLeft]
        split
        · exact Nat.add_lt_add_left (by decide) next.length
        · exact Nat.succ_pos _))
  have hsought := loop_invariant (fun s s' => seekBody_next) (fun s r => seekBody_exit) _ _
    hstart hseek
  cases e with
  | enobufs => simp only [mCopyback, hseek, isSome_some]
  | ok =>
    obtain ⟨r, hcopy⟩ := isSome_iff_exists.mp
      (loop_isSome copyLeft (fun s => copyBody_isSome mlen hfit) (s.next.length + 3) s
        hsought (by
          rw [copyLeft]
          split
          · exact Nat.add_lt_add_left (by decide) s.next.length
          · exact Nat.succ_pos _))
    simp only [mCopyback, hseek, hcopy, map_some, isSome_some]

/-- `m_copyback` overwrites.  It gives a result unless the chain or the end of the write is
    beyond an `int`, or the write ends so far behind the chain that no cluster can hold the
    gap. -/
theorem mCopyback_overwrites (m0 : ChainMbuf) (next : List ChainMbuf) (off : Nat)
    (cp : List UInt8) (pools : PoolGets) (hcp : cp ≠ []) :
    (chainLen (m0 :: next) < 2 ^ 31 → off + cp.length < 2 ^ 31 →
      off + cp.length ≤ chainLen (m0 :: next) + 64 * 1024 →
      (mCopyback mlen (m0 :: next) off cp pools).isSome) ∧
    (∀ chain, mCopyback mlen (m0 :: next) off cp pools = some (.ok, chain) →
      chainBytes chain = overwrite 0 (chainBytes (m0 :: next)) off cp ∧
      (pkthdrLen (m0 :: next) = some (chainLen (m0 :: next) : Int) →
        pkthdrLen chain = some (chainLen chain : Int))) ∧
    ∀ chain, mCopyback mlen (m0 :: next) off cp pools = some (.enobufs, chain) →
      ∀ len ∈ pkthdrLen (m0 :: next), len ≤ chainLen (m0 :: next) →
        ∃ len' ∈ pkthdrLen chain, len' ≤ chainLen chain := by
  refine ⟨?_, ?_, ?_⟩
  · intro hchain hlast hcluster
    exact mCopyback_isSome pools hcp ⟨hchain, hlast, hcluster⟩
  · intro chain h
    obtain ⟨s, rfl, hbytes, htot, hp⟩ := mCopyback_eq_some hcp h
    obtain ⟨hsame, hsameLen⟩ := setPkthdrLen_bytes s.totlen s.chain
    refine ⟨hsame.trans hbytes, ?_⟩
    intro hlen
    have hfinal : chainLen s.chain = max (chainLen (m0 :: next)) (off + cp.length) := by
      rw [← chainBytes_length, hbytes, overwrite_length, chainBytes_length]
    rw [pkthdrLen_setPkthdrLen, hp, hsameLen, hfinal, htot]
    rw [show m0.mPkthdrLen = some (chainLen (m0 :: next) : Int) from hlen, map_some]
    congr 1
    omega
  · intro chain h len hlen hle
    obtain ⟨s, rfl, htot, hbase, hp⟩ := mCopyback_eq_some hcp h
    obtain ⟨-, hsameLen⟩ := setPkthdrLen_bytes s.totlen s.chain
    have hlen' : m0.mPkthdrLen = some len := hlen
    refine ⟨max len s.totlen, ?_, ?_⟩
    · rw [pkthdrLen_setPkthdrLen, hp, hlen']
      rfl
    · rw [hsameLen, htot]
      exact max_le (hle.trans (Int.ofNat_le.mpr hbase)) (Int.le_refl _)

/-- Two bytes at position 2 of three, the second of them in trailing space. -/
theorem mCopyback_overwrites_trailing :
    ∃ chain,
      mCopyback 8 [⟨[1, 2, 3, 0], 3, by decide, 1, false, some 3⟩] 2 [8, 9] [] =
        some (.ok, chain) ∧
      chainBytes chain = [1, 2, 8, 9] ∧ pkthdrLen chain = some (chainLen chain : Int) := by
  have h := @mCopyback_overwrites 8 ⟨[1, 2, 3, 0], 3, by decide, 1, false, some 3⟩ []
    2 [8, 9] [] (cons_ne_nil _ _)
  obtain ⟨⟨e, chain⟩, hrun⟩ := isSome_iff_exists.mp (h.1 (by decide) (by decide) (by decide))
  have herror : (mCopyback 8 [⟨[1, 2, 3, 0], 3, by decide, 1, false, some 3⟩] 2 [8, 9] []).map
      Prod.fst = some .ok := rfl
  rw [hrun] at herror
  cases Option.some.inj herror
  obtain ⟨hbytes, hlen⟩ := h.2.1 chain hrun
  exact ⟨chain, hrun, hbytes, hlen rfl⟩

end OpenBsd.Kern
