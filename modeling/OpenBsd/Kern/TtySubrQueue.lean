/-
  OpenBsd.Kern.TtySubrQueue

  Character lists are bounded queues of characters, each with its quote bit.

  A list without a bit map does not keep the quote bits, so the queue says whether they are
  kept.  `catq` may exchange the two lists, and with them their bit maps.
-/

import OpenBsd.Kern.TtySubrRep

namespace OpenBsd.Kern

open OpenBsd.Lib List Function Option

/-! ## The queue -/

structure TtyQueue where
  quot : Bool
  chars : BoundedQueue (BitVec 8 × Bool)

namespace TtyQueue

def empty (size : Nat) (quot : Bool) : TtyQueue := ⟨quot, .empty size⟩

def getc (q : TtyQueue) : BitVec 32 × TtyQueue :=
  match q.chars.items.head? with
  | none => (-1, q)
  | some c => (ttyChar c.1 c.2, { q with chars := q.chars.drop 1 })

def qToB (q : TtyQueue) (count : Int) : List (BitVec 8) × TtyQueue :=
  ((q.chars.items.take count.toNat).map Prod.fst, { q with chars := q.chars.drop count.toNat })

def ndflush (q : TtyQueue) (count : Int) : TtyQueue :=
  { q with chars := q.chars.drop count.toNat }

def unputc (q : TtyQueue) : BitVec 32 × TtyQueue :=
  match q.chars.items.getLast? with
  | none => (-1, q)
  | some c => (ttyChar c.1 c.2, { q with chars := q.chars.dropLast })

/-- A character as the queue keeps it. -/
def char (q : TtyQueue) (c : BitVec 32) : BitVec 8 × Bool :=
  (c.setWidth 8, decide (c &&& ttyQuote ≠ 0) && q.quot)

def putc (c : BitVec 32) (q : TtyQueue) : Int × TtyQueue :=
  (if q.chars.room = 0 then -1 else 0, { q with chars := q.chars.pushAll [q.char c] })

def bToQ (cp : List (BitVec 8)) (q : TtyQueue) : List (BitVec 8) × TtyQueue :=
  (cp.drop q.chars.room, { q with chars := q.chars.pushAll (cp.map (·, false)) })

/-- The characters of the first queue go behind those of the second. -/
def move (src dst : TtyQueue) : TtyQueue × TtyQueue :=
  ({ src with chars := src.chars.drop src.chars.items.length },
    { dst with chars := dst.chars.pushAll (src.chars.items.map fun c => (c.1, c.2 && dst.quot)) })

def catq (src dst : TtyQueue) : TtyQueue × TtyQueue :=
  if src.chars.items = [] then (src, dst)
  else if dst.chars.items = [] ∧ src.chars.cap = dst.chars.cap then (dst, src)
  else move src dst

end TtyQueue

/-! ## Lists and queues -/

theorem quoteAt_clear (cq : Option (Bitmap 8)) (k i : Nat) :
    quoteAt (cq.map (Bitmap.clear · k)) i = (!decide (i = k) && quoteAt cq i) := by
  cases cq with
  | none => simp [quoteAt]
  | some m => exact Bitmap.test_clear (by decide) k i

theorem quoteAt_clrbits (cq : Option (Bitmap 8)) (off len i : Nat) :
    quoteAt (cq.map (clrbits · off len)) i =
      (!decide (off ≤ i ∧ i < off + len) && quoteAt cq i) := by
  cases cq with
  | none => simp [quoteAt]
  | some m => exact test_clrbits m off len i

theorem isSome_map_quote (cq : Option (Bitmap 8)) (g : Bitmap 8 → Bitmap 8) :
    (cq.map g).isSome = cq.isSome := isSome_map

namespace Clist

variable {clp clp' : Clist} {f : Nat} {q q' : TtyQueue}

/-- The list holds what the queue holds. -/
structure Rep (clp : Clist) (q : TtyQueue) : Prop where
  cs : clp.cCs = some clp.bytes
  cap : q.chars.cap = clp.cCn
  quot : q.quot = clp.cCq.isSome
  chars : q.chars.items = clp.chars
  ptrs : (clp.cCc = 0 ∧ clp.cCf = none ∧ clp.cCl = none) ∨ (0 < clp.cCc ∧ ∃ f, clp.Ring f)

theorem rep_clalloc (size : Nat) (quot : Bool) : Rep (clalloc size quot) (.empty size quot) where
  cs := rfl
  cap := rfl
  quot := by cases quot <;> rfl
  chars := rfl
  ptrs := .inl ⟨rfl, rfl, rfl⟩

theorem Rep.length (h : Rep clp q) : q.chars.items.length = clp.cCc := by
  rw [h.chars, length_chars]

theorem Rep.room (h : Rep clp q) : q.chars.room = clp.cCn - clp.cCc := by
  rw [BoundedQueue.room, h.cap, h.length]

theorem Rep.le (h : Rep clp q) : clp.cCc ≤ clp.cCn := by
  rw [← h.cap, ← h.length]
  exact q.chars.fits

theorem Ring.rep_ifEmpty (h : Ring clp f) (hcap : q.chars.cap = clp.cCn)
    (hquot : q.quot = clp.cCq.isSome) (hchars : q.chars.items = clp.chars) :
    Rep clp.ifEmpty q := by
  rw [ifEmpty]
  by_cases hzero : clp.cCc = 0
  · rw [if_pos hzero]
    refine ⟨h.cs, hcap, hquot, ?_, .inl ⟨hzero, rfl, rfl⟩⟩
    simp only [hchars, chars, hzero, window_zero]
  · rw [if_neg hzero]
    exact ⟨h.cs, hcap, hquot, hchars, .inr ⟨Nat.pos_of_ne_zero hzero, f, h⟩⟩

theorem Ring.head (h : Ring clp f) (hpos : 0 < clp.cCc) : clp.chars.head? = some (clp.cell f) := by
  rw [head?_eq_getElem?, h.chars_eq, getElem?_window hpos, Nat.add_zero, Nat.mod_eq_of_lt h.lt]

/-! ## Out of the list -/

theorem getc_rep (h : Rep clp q) :
    ∃ clp', getc clp = some (q.getc.1, clp') ∧ Rep clp' q.getc.2 := by
  rcases h.ptrs with ⟨hzero, -, -⟩ | ⟨hpos, f, hring⟩
  · have hnil : q.chars.items.head? = none := by
      rw [head?_eq_none_iff]
      exact eq_nil_of_length_eq_zero (h.length.trans hzero)
    refine ⟨clp, ?_, ?_⟩
    · rw [getc, if_pos hzero, TtyQueue.getc, hnil]
    · rw [TtyQueue.getc, hnil]
      exact h
  · have hhead : q.chars.items.head? = some (clp.cell f) := by
      rw [h.chars]
      exact hring.head hpos
    rw [getc, if_neg (Nat.pos_iff_ne_zero.1 hpos), TtyQueue.getc, hhead]
    simp only [hring.cs, hring.cf, bind_eq_bind, bind_some]
    refine ⟨_, rfl, ?_⟩
    have hcells : ∀ i, ¬ (f ≤ i ∧ i < f + 1) → cell { clp with
        cCs := some (update clp.bytes f 0)
        cCq := clp.cCq.map (Bitmap.clear · f)
        cCf := some (clp.wrap (f + 1))
        cCc := clp.cCc - 1 } i = clp.cell i := by
      intro i hi
      have hne : i ≠ f := by omega
      refine Prod.ext (update_of_ne hne _ _) ?_
      exact (quoteAt_clear _ _ _).trans (by rw [decide_eq_false hne]; rfl)
    obtain ⟨hring', hchars'⟩ := hring.drop hpos hring.lt hcells rfl rfl rfl rfl rfl
    refine hring'.rep_ifEmpty h.cap ?_ ?_
    · exact h.quot.trans (isSome_map_quote _ _).symm
    · rw [hchars', ← h.chars]
      rfl

/-- What a loop over the front leaves when it has taken `n` characters. -/
structure Taken (clp : Clist) (n : Nat) (clp' : Clist) : Prop where
  ring : ∃ f, clp'.Ring f
  cn : clp'.cCn = clp.cCn
  quot : clp'.cCq.isSome = clp.cCq.isSome
  chars : clp'.chars = clp.chars.drop n

theorem Ring.chunk (h : Ring clp f) (hpos : 0 < clp.cCc) {count : Nat} (hcount : 0 < count) :
    ∃ m, (if count < (if (f + clp.cCc) % clp.cCn ≤ f then clp.cCn - f
          else (f + clp.cCc) % clp.cCn - f) then count
        else if (f + clp.cCc) % clp.cCn ≤ f then clp.cCn - f else (f + clp.cCc) % clp.cCn - f) = m ∧
      0 < m ∧ m ≤ count ∧ m ≤ clp.cCc ∧ f + m ≤ clp.cCn := by
  have hlt := h.lt
  rw [h.frontChunk hpos]
  refine ⟨_, rfl, ?_⟩
  split <;> omega

theorem Taken.trans {m n : Nat} {clp₁ clp₂ : Clist} (h : Taken clp m clp₁) (h' : Taken clp₁ n clp₂) :
    Taken clp (m + n) clp₂ :=
  ⟨h'.ring, h'.cn.trans h.cn, h'.quot.trans h.quot,
    by rw [h'.chars, h.chars, List.drop_drop]⟩

theorem Ring.taken_of_done (h : Ring clp f) {count : Nat} (hdone : ¬ (0 < count ∧ 0 < clp.cCc)) :
    Taken clp count clp := by
  refine ⟨⟨f, h⟩, rfl, rfl, ?_⟩
  rcases Nat.eq_zero_or_pos count with rfl | hcount
  · rfl
  · have hnil : clp.chars = [] :=
      eq_nil_of_length_eq_zero (by rw [length_chars]; omega)
    rw [hnil, drop_nil]

theorem Ring.take_bytes (h : Ring clp f) {m : Nat} (hm : m ≤ clp.cCc) (hend : f + m ≤ clp.cCn) :
    (clp.chars.take m).map Prod.fst = (List.range m).map fun i => clp.bytes (f + i) := by
  have hsplit : clp.cCc = m + (clp.cCc - m) := by omega
  rw [h.chars_eq, hsplit, window_add, take_left' length_window, window_straight hend, List.map_map]
  rfl

theorem qToBLoop_taken {n count : Nat} (h : Ring clp f) (hn : count < n) (p : List (BitVec 8)) :
    ∃ clp', qToBLoop n clp count p = some (p ++ (clp.chars.take count).map Prod.fst, clp') ∧
      Taken clp count clp' := by
  induction n generalizing clp f count p with
  | zero => exact absurd hn (Nat.not_lt_zero _)
  | succ n ih =>
    rw [qToBLoop]
    by_cases hgo : 0 < count ∧ 0 < clp.cCc
    · rw [if_pos hgo]
      simp only [h.cs, h.cf, h.cl, bind_eq_bind, bind_some]
      obtain ⟨m, hm, hmpos, hmcount, hmcc, hmend⟩ := h.chunk hgo.2 hgo.1
      rw [hm]
      have hcells : ∀ i, ¬ (f ≤ i ∧ i < f + m) → cell { clp with
          cCs := some (bzeroAt clp.bytes f m)
          cCq := clp.cCq.map (clrbits · f m)
          cCc := clp.cCc - m
          cCf := some (clp.wrap (f + m))
          cCl := some ((f + clp.cCc) % clp.cCn) } i = clp.cell i := by
        intro i hi
        refine Prod.ext (if_neg hi) ?_
        exact (quoteAt_clrbits _ _ _ _).trans (by rw [decide_eq_false hi]; rfl)
      obtain ⟨hring', hchars'⟩ := h.drop hmcc hmend hcells rfl rfl rfl h.cl.symm rfl
      have htaken : Taken clp m _ := ⟨⟨_, hring'⟩, rfl, isSome_map_quote _ _, hchars'⟩
      obtain ⟨clp', hloop, hrest⟩ := @ih _ _ (count - m) hring' (by omega)
        (p ++ (List.range m).map fun i => clp.bytes (f + i))
      refine ⟨clp', ?_, ?_⟩
      · have htake : clp.chars.take count =
            clp.chars.take m ++ (clp.chars.drop m).take (count - m) := by
          rw [← take_add, Nat.add_sub_cancel' hmcount]
        rw [hloop, hchars', htake, map_append, h.take_bytes hmcc hmend, append_assoc]
      · have hall := htaken.trans hrest
        rwa [Nat.add_sub_cancel' hmcount] at hall
    · rw [if_neg hgo]
      have htake : clp.chars.take count = [] := by
        rw [take_eq_nil_iff, ← length_eq_zero_iff, length_chars]
        omega
      refine ⟨clp, ?_, h.taken_of_done hgo⟩
      rw [htake, map_nil, append_nil]

theorem ndflushLoop_taken {n count : Nat} (h : Ring clp f) (hn : count < n) :
    ∃ clp', ndflushLoop n clp count = some clp' ∧ Taken clp count clp' := by
  induction n generalizing clp f count with
  | zero => exact absurd hn (Nat.not_lt_zero _)
  | succ n ih =>
    rw [ndflushLoop]
    by_cases hgo : 0 < count ∧ 0 < clp.cCc
    · rw [if_pos hgo]
      simp only [h.cf, h.cl, bind_eq_bind, bind_some]
      obtain ⟨m, hm, hmpos, hmcount, hmcc, hmend⟩ := h.chunk hgo.2 hgo.1
      rw [hm]
      have hcells : ∀ i, ¬ (f ≤ i ∧ i < f + m) → cell { clp with
          cCc := clp.cCc - m
          cCf := some (clp.wrap (f + m))
          cCl := some ((f + clp.cCc) % clp.cCn) } i = clp.cell i := fun _ _ => rfl
      obtain ⟨hring', hchars'⟩ := h.drop hmcc hmend hcells h.cs rfl rfl h.cl.symm rfl
      have htaken : Taken clp m _ := ⟨⟨_, hring'⟩, rfl, rfl, hchars'⟩
      obtain ⟨clp', hloop, hrest⟩ := @ih _ _ (count - m) hring' (by omega)
      have hall := htaken.trans hrest
      rw [Nat.add_sub_cancel' hmcount] at hall
      exact ⟨clp', hloop, hall⟩
    · rw [if_neg hgo]
      exact ⟨clp, rfl, h.taken_of_done hgo⟩

theorem Rep.taken (h : Rep clp q) {n : Nat} (htaken : Taken clp n clp') :
    Rep clp'.ifEmpty { q with chars := q.chars.drop n } := by
  obtain ⟨f, hring⟩ := htaken.ring
  refine hring.rep_ifEmpty (h.cap.trans htaken.cn.symm) (h.quot.trans htaken.quot.symm) ?_
  rw [htaken.chars, ← h.chars]
  rfl

theorem Rep.drop_empty (h : Rep clp q) (hzero : clp.cCc = 0) (n : Nat) :
    { q with chars := q.chars.drop n } = q := by
  have hnil : q.chars.items = [] := eq_nil_of_length_eq_zero (h.length.trans hzero)
  have hsame : q.chars.drop n = q.chars := by
    refine BoundedQueue.ext rfl ?_
    change q.chars.items.drop n = q.chars.items
    rw [hnil, drop_nil]
  rw [hsame]

theorem Rep.ifEmpty_empty (h : Rep clp q) (hzero : clp.cCc = 0) : Rep clp.ifEmpty q := by
  rw [ifEmpty, if_pos hzero]
  refine ⟨h.cs, h.cap, h.quot, ?_, .inl ⟨hzero, rfl, rfl⟩⟩
  simp only [h.chars, Clist.chars, hzero, window_zero]

theorem qToB_rep (h : Rep clp q) (count : Int) :
    ∃ clp', qToB clp count = some ((q.qToB count).1, clp') ∧ Rep clp' (q.qToB count).2 := by
  rcases h.ptrs with ⟨hzero, -, -⟩ | ⟨hpos, f, hring⟩
  · have hnil : q.chars.items = [] := eq_nil_of_length_eq_zero (h.length.trans hzero)
    have hloop : qToBLoop (count.toNat + 1) clp count.toNat [] = some ([], clp) := by
      rw [qToBLoop, if_neg (by omega)]
    refine ⟨clp.ifEmpty, ?_, ?_⟩
    · simp only [qToB, hloop, TtyQueue.qToB, hnil, take_nil, map_nil, bind_eq_bind, bind_some]
    · rw [TtyQueue.qToB, h.drop_empty hzero]
      exact h.ifEmpty_empty hzero
  · obtain ⟨clp', hloop, htaken⟩ := qToBLoop_taken hring (Nat.lt_succ_self count.toNat) []
    refine ⟨clp'.ifEmpty, ?_, h.taken htaken⟩
    simp only [qToB, hloop, TtyQueue.qToB, h.chars, nil_append, bind_eq_bind, bind_some]

theorem ndflush_rep (h : Rep clp q) (count : Int) :
    ∃ clp', ndflush clp count = some clp' ∧ Rep clp' (q.ndflush count) := by
  by_cases hall : count = clp.cCc
  · -- all characters, without a look at the ring
    refine ⟨_, if_pos hall, h.cs, h.cap, h.quot, ?_, .inl ⟨rfl, rfl, rfl⟩⟩
    have hcount : count.toNat = q.chars.items.length := by rw [h.length]; omega
    change q.chars.items.drop count.toNat = []
    rw [hcount, drop_length]
  · rcases h.ptrs with ⟨hzero, -, -⟩ | ⟨hpos, f, hring⟩
    · have hloop : ndflushLoop (count.toNat + 1) clp count.toNat = some clp := by
        rw [ndflushLoop, if_neg (by omega)]
      refine ⟨clp.ifEmpty, ?_, ?_⟩
      · rw [ndflush, if_neg hall, hloop]
        rfl
      · rw [TtyQueue.ndflush, h.drop_empty hzero]
        exact h.ifEmpty_empty hzero
    · obtain ⟨clp', hloop, htaken⟩ := ndflushLoop_taken hring (Nat.lt_succ_self count.toNat)
      refine ⟨clp'.ifEmpty, ?_, h.taken htaken⟩
      rw [ndflush, if_neg hall, hloop]
      rfl

theorem unputc_rep (h : Rep clp q) :
    ∃ clp', unputc clp = some (q.unputc.1, clp') ∧ Rep clp' q.unputc.2 := by
  rcases h.ptrs with ⟨hzero, -, -⟩ | ⟨hpos, f, hring⟩
  · have hnil : q.chars.items.getLast? = none := by
      rw [getLast?_eq_none_iff]
      exact eq_nil_of_length_eq_zero (h.length.trans hzero)
    refine ⟨clp, ?_, ?_⟩
    · rw [unputc, if_pos hzero, TtyQueue.unputc, hnil]
    · rw [TtyQueue.unputc, hnil]
      exact h
  · rw [unputc, if_neg (Nat.pos_iff_ne_zero.1 hpos)]
    simp only [hring.cs, hring.cl, bind_eq_bind, bind_some, hring.backCell hpos]
    have hcells : ∀ i, i ≠ (f + (clp.cCc - 1)) % clp.cCn → cell { clp with
        cCl := some ((f + (clp.cCc - 1)) % clp.cCn)
        cCc := clp.cCc - 1
        cCs := some (update clp.bytes ((f + (clp.cCc - 1)) % clp.cCn) 0)
        cCq := clp.cCq.map (Bitmap.clear · ((f + (clp.cCc - 1)) % clp.cCn)) } i = clp.cell i := by
      intro i hne
      refine Prod.ext (update_of_ne hne _ _) ?_
      exact (quoteAt_clear _ _ _).trans (by rw [decide_eq_false hne]; rfl)
    obtain ⟨hring', hchars'⟩ := hring.dropLast hpos hcells rfl rfl rfl rfl rfl
    have hlast : q.chars.items.getLast? = some (clp.cell ((f + (clp.cCc - 1)) % clp.cCn)) := by
      rw [h.chars, hchars', getLast?_concat]
    rw [TtyQueue.unputc, hlast]
    refine ⟨_, rfl, hring'.rep_ifEmpty h.cap ?_ ?_⟩
    · exact h.quot.trans (isSome_map_quote _ _).symm
    · change q.chars.items.dropLast = _
      rw [h.chars, hchars', dropLast_concat]

/-! ## Into the list -/

theorem start_empty {cs : Nat → BitVec 8} (hcs : clp.cCs = some cs) (hzero : clp.cCc = 0) :
    clp.start = { clp with cCf := some 0, cCl := some 0 } := by
  cases clp with
  | mk cc cn cf cl cs' cq =>
    subst hcs hzero
    rfl

theorem Rep.start (h : Rep clp q) (hroom : clp.cCc < clp.cCn) :
    ∃ f, Ring clp.start f ∧ clp.start.chars = clp.chars ∧ clp.start.cCn = clp.cCn ∧
      clp.start.cCq = clp.cCq ∧ clp.start.cCc = clp.cCc ∧ ∀ g, clp.cCf = some g → g = f := by
  rcases h.ptrs with ⟨hzero, hcf, -⟩ | ⟨hpos, f, hring⟩
  · rw [start_empty h.cs hzero]
    refine ⟨0, ⟨h.cs, rfl, ?_, Nat.lt_of_le_of_lt (Nat.zero_le _) hroom, Nat.le_of_lt hroom⟩, ?_,
      rfl, rfl, rfl, fun g hg => absurd (hcf.symm.trans hg) nofun⟩
    · change some 0 = some ((0 + clp.cCc) % clp.cCn)
      rw [hzero, Nat.zero_add, Nat.zero_mod]
    · simp only [Clist.chars, hzero, window_zero]
  · rw [Clist.start, if_neg (Nat.pos_iff_ne_zero.1 hpos)]
    exact ⟨f, hring, rfl, rfl, rfl, rfl, fun g hg => Option.some.inj (hg.symm.trans hring.cf)⟩

theorem Ring.rep (h : Ring clp f) (hpos : 0 < clp.cCc) (hcap : q.chars.cap = clp.cCn)
    (hquot : q.quot = clp.cCq.isSome) (hchars : q.chars.items = clp.chars) : Rep clp q :=
  ⟨h.cs, hcap, hquot, hchars, .inr ⟨hpos, f, h⟩⟩

theorem quoteAt_put (cq : Option (Bitmap 8)) (c : BitVec 32) (k i : Nat) :
    quoteAt (cq.map fun m => if c &&& ttyQuote ≠ 0 then Bitmap.set m k else Bitmap.clear m k) i =
      if i = k then decide (c &&& ttyQuote ≠ 0) && cq.isSome else quoteAt cq i := by
  cases cq with
  | none =>
    rw [isSome_none, Bool.and_false]
    exact (ite_self false).symm
  | some m =>
    change Bitmap.test (if c &&& ttyQuote ≠ 0 then m.set k else m.clear k) i = _
    split
    · rename_i hquote
      rw [Bitmap.test_set (by decide), decide_eq_true hquote]
      by_cases hi : i = k <;> simp [hi, quoteAt]
    · rename_i hquote
      rw [Bitmap.test_clear (by decide), decide_eq_false hquote]
      by_cases hi : i = k <;> simp [hi, quoteAt]

theorem Ring.put (h : Ring clp f) (hroom : clp.cCc < clp.cCn) {l : Nat}
    (hl : (f + clp.cCc) % clp.cCn = l) (c : BitVec 32) {clp' : Clist}
    (hclp' : clp' = { clp with
      cCs := some (update clp.bytes l (c.setWidth 8))
      cCq := clp.cCq.map fun m =>
        if c &&& ttyQuote ≠ 0 then Bitmap.set m l else Bitmap.clear m l
      cCc := clp.cCc + 1
      cCl := some (clp.wrap (l + 1)) }) :
    Ring clp' f ∧
      clp'.chars = clp.chars ++ [(c.setWidth 8, decide (c &&& ttyQuote ≠ 0) && clp.cCq.isSome)] := by
  subst hl hclp'
  have hend : (f + clp.cCc) % clp.cCn + 1 ≤ clp.cCn := Nat.mod_lt _ (by omega)
  refine h.append (Nat.succ_le_of_lt hroom) hend ?_ ?_ rfl rfl rfl rfl rfl
  · intro i hi
    have hne : i ≠ (f + clp.cCc) % clp.cCn := by
      rw [length_singleton] at hi
      omega
    refine Prod.ext (update_of_ne hne _ _) ?_
    exact (quoteAt_put _ _ _ _).trans (if_neg hne)
  · intro j hj
    obtain rfl : j = 0 := Nat.lt_one_iff.1 hj
    refine congrArg some (Prod.ext ?_ ?_)
    · exact (update_self ((f + clp.cCc) % clp.cCn) _ clp.bytes).symm
    · exact ((quoteAt_put _ _ _ _).trans (if_pos (Nat.add_zero _))).symm

theorem putc_rep (h : Rep clp q) (c : BitVec 32) :
    ∃ clp', putc c clp = some ((q.putc c).1, clp') ∧ Rep clp' (q.putc c).2 ∧
      ∀ g, clp.cCf = some g → clp'.cCf = some g := by
  have hle := h.le
  rw [putc, TtyQueue.putc, h.room]
  by_cases hfull : clp.cCc = clp.cCn
  · have hzero : clp.cCn - clp.cCc = 0 := by omega
    have hsame : q.chars.pushAll [q.char c] = q.chars := by
      refine BoundedQueue.ext rfl ?_
      change q.chars.items ++ [q.char c].take q.chars.room = _
      rw [h.room, hzero, take_zero, append_nil]
    rw [if_pos hfull, if_pos hzero, hsame]
    exact ⟨clp, rfl, h, fun _ hg => hg⟩
  · have hroom : clp.cCc < clp.cCn := by omega
    obtain ⟨f, hring, hchars, hcn, hcq, hcc, hfirst⟩ := h.start hroom
    rw [if_neg hfull, if_neg (by omega)]
    simp only [hring.cs, hring.cl, bind_eq_bind, bind_some]
    obtain ⟨hring', hchars'⟩ := hring.put (by omega) rfl c rfl
    refine ⟨_, rfl, hring'.rep (Nat.succ_pos _) (h.cap.trans hcn.symm) ?_ ?_, fun g hg =>
      hfirst g hg ▸ hring'.cf⟩
    · rw [isSome_map_quote, hcq]
      exact h.quot
    · rw [hchars', hchars, hcq, ← h.chars, ← h.quot]
      change q.chars.items ++ [q.char c].take q.chars.room = _
      rw [h.room, take_of_length_le (by rw [length_singleton]; omega)]
      rfl

theorem Ring.copy (h : Ring clp f) {l : Nat} (hl : (f + clp.cCc) % clp.cCn = l)
    {ys : List (BitVec 8)} (hroom : clp.cCc + ys.length ≤ clp.cCn) (hend : l + ys.length ≤ clp.cCn)
    {clp' : Clist} (hclp' : clp' = { clp with
      cCs := some (bcopyAt clp.bytes l ys)
      cCq := clp.cCq.map (clrbits · l ys.length)
      cCc := clp.cCc + ys.length
      cCl := some (clp.wrap (l + ys.length)) }) :
    Ring clp' f ∧ clp'.chars = clp.chars ++ ys.map (·, false) := by
  subst hl hclp'
  have hlen : (ys.map fun b => (b, false)).length = ys.length := length_map _
  refine h.append (by rw [hlen]; exact hroom) (by rw [hlen]; exact hend) ?_ ?_ rfl rfl rfl
    (by rw [hlen]) (by rw [hlen])
  · intro i hi
    rw [hlen] at hi
    refine Prod.ext ?_ ?_
    · change bcopyAt clp.bytes _ ys i = clp.bytes i
      rw [bcopyAt]
      split
      · rw [getElem?_eq_none (by omega)]
        rfl
      · rfl
    · exact (quoteAt_clrbits _ _ _ _).trans (by rw [decide_eq_false hi]; rfl)
  · intro j hj
    rw [hlen] at hj
    rw [getElem?_map, getElem?_eq_getElem hj]
    refine congrArg some (Prod.ext ?_ ?_)
    · change _ = bcopyAt clp.bytes _ ys _
      rw [bcopyAt, if_pos (Nat.le_add_right _ _), Nat.add_sub_cancel_left, getElem?_eq_getElem hj]
      rfl
    · have hin : (f + clp.cCc) % clp.cCn ≤ (f + clp.cCc) % clp.cCn + j ∧
          (f + clp.cCc) % clp.cCn + j < (f + clp.cCc) % clp.cCn + ys.length := by omega
      exact ((quoteAt_clrbits _ _ _ _).trans (by rw [decide_eq_true hin]; rfl)).symm

/-- What the loop of `b_to_q` leaves: as many of the bytes as there is room for are put. -/
theorem bToQLoop_put {n : Nat} {p : List (BitVec 8)} (h : Ring clp f) (hn : p.length < n) :
    ∃ clp', bToQLoop n clp p = some (p.drop (clp.cCn - clp.cCc), clp') ∧ Ring clp' f ∧
      clp'.cCn = clp.cCn ∧ clp'.cCq.isSome = clp.cCq.isSome ∧
      clp'.chars = clp.chars ++ (p.take (clp.cCn - clp.cCc)).map (·, false) := by
  induction n generalizing clp p with
  | zero => exact absurd hn (Nat.not_lt_zero _)
  | succ n ih =>
    rw [bToQLoop]
    by_cases hgo : 0 < p.length ∧ clp.cCc < clp.cCn
    · rw [if_pos hgo]
      simp only [h.cs, h.cf, h.cl, bind_eq_bind, bind_some]
      rw [h.backChunk hgo.2]
      obtain ⟨l, hl⟩ : ∃ l, (f + clp.cCc) % clp.cCn = l := ⟨_, rfl⟩
      have hlt : l < clp.cCn := hl ▸ Nat.mod_lt _ (by omega)
      rw [hl]
      obtain ⟨m, hm⟩ : ∃ m, (if p.length < min (clp.cCn - clp.cCc) (clp.cCn - l) then p.length
          else min (clp.cCn - clp.cCc) (clp.cCn - l)) = m := ⟨_, rfl⟩
      have hbounds : 0 < m ∧ m ≤ p.length ∧ clp.cCc + m ≤ clp.cCn ∧ l + m ≤ clp.cCn := by
        rw [← hm]
        split <;> omega
      obtain ⟨hmpos, hmlen, hmroom, hmend⟩ := hbounds
      have hlen : (p.take m).length = m := length_take_of_le hmlen
      obtain ⟨hring', hchars'⟩ :=
        h.copy hl (by rw [hlen]; exact hmroom) (by rw [hlen]; exact hmend) rfl
      rw [hm]
      simp only [hlen, h.cf] at hring' hchars'
      have hsplit : clp.cCn - clp.cCc = m + (clp.cCn - (clp.cCc + m)) := by omega
      obtain ⟨clp', hloop, hring'', hcn, hcq, hchars''⟩ :=
        @ih _ (p.drop m) hring' (by rw [length_drop]; omega)
      refine ⟨clp', ?_, hring'', hcn, hcq.trans (isSome_map_quote _ _), ?_⟩
      · rw [hloop, hsplit, ← List.drop_drop]
      · rw [hchars'', hchars', hsplit, take_add, map_append, append_assoc]
    · rw [if_neg hgo]
      have hle := h.le
      have hnone : p = [] ∨ clp.cCn - clp.cCc = 0 := by
        rw [← length_eq_zero_iff]
        omega
      refine ⟨clp, ?_, h, rfl, rfl, ?_⟩
      · rcases hnone with rfl | hzero
        · rw [drop_nil]
        · rw [hzero, List.drop_zero]
      · rcases hnone with rfl | hzero
        · rw [take_nil, map_nil, append_nil]
        · rw [hzero, take_zero, map_nil, append_nil]

theorem bToQ_rep (h : Rep clp q) (cp : List (BitVec 8)) :
    ∃ clp', bToQ cp clp = some ((q.bToQ cp).1, clp') ∧ Rep clp' (q.bToQ cp).2 ∧
      ∀ g, clp.cCf = some g → clp'.cCf = some g := by
  have hle := h.le
  rw [bToQ, TtyQueue.bToQ]
  by_cases hnone : cp.length = 0 ∨ clp.cCc = clp.cCn
  · have hsame : q.chars.pushAll (cp.map (·, false)) = q.chars := by
      refine BoundedQueue.ext rfl ?_
      change q.chars.items ++ (cp.map (·, false)).take q.chars.room = _
      have htake : (cp.map fun b => (b, false)).take q.chars.room = [] := by
        rw [take_eq_nil_iff, h.room, map_eq_nil_iff, ← length_eq_zero_iff]
        omega
      rw [htake, append_nil]
    rw [hsame]
    refine ⟨clp, ?_, h, fun _ hg => hg⟩
    by_cases hzero : cp.length = 0
    · rw [if_pos hzero, length_eq_zero_iff.1 hzero, drop_nil]
    · have hfull := hnone.resolve_left hzero
      rw [if_neg hzero, if_pos hfull, h.room, hfull, Nat.sub_self, List.drop_zero]
  · rw [not_or] at hnone
    have hroom : clp.cCc < clp.cCn := by omega
    obtain ⟨f, hring, hchars, hcn, hcq, hcc, hfirst⟩ := h.start hroom
    obtain ⟨clp', hloop, hring', hcn', hcq', hchars'⟩ :=
      bToQLoop_put hring (Nat.lt_succ_self cp.length)
    rw [if_neg hnone.1, if_neg hnone.2, hloop, h.room, hcn, hcc]
    rw [hcn, hcc, hchars] at hchars'
    have hsome : 0 < clp'.cCc := by
      rw [← length_chars, hchars', length_append, length_map, length_take]
      omega
    refine ⟨clp', rfl, hring'.rep hsome ?_ ?_ ?_, fun g hg => hfirst g hg ▸ hring'.cf⟩
    · rw [hcn', hcn]
      exact h.cap
    · rw [hcq', hcq]
      exact h.quot
    · rw [hchars', ← h.chars, ← h.room, map_take]
      rfl

end Clist

/-! ## From one list to the other -/

theorem setWidth_ttyChar (b : BitVec 8) (quoted : Bool) : (ttyChar b quoted).setWidth 8 = b := by
  cases quoted with
  | false => exact BitVec.setWidth_setWidth_of_le b (by decide)
  | true =>
    change BitVec.setWidth 8 (b.setWidth 32 ||| ttyQuote) = b
    rw [BitVec.setWidth_or, BitVec.setWidth_setWidth_of_le b (by decide)]
    exact BitVec.or_zero

theorem setWidth_and_ttyQuote (b : BitVec 8) : b.setWidth 32 &&& ttyQuote = 0#32 := by
  revert b
  decide

theorem ttyChar_quote (b : BitVec 8) (quoted : Bool) :
    decide (ttyChar b quoted &&& ttyQuote ≠ 0) = quoted := by
  cases quoted with
  | false => exact decide_eq_false (not_not.2 (setWidth_and_ttyQuote b))
  | true =>
    refine decide_eq_true ?_
    change (b.setWidth 32 ||| ttyQuote) &&& ttyQuote ≠ 0
    rw [BitVec.and_or_distrib_right, setWidth_and_ttyQuote, BitVec.zero_or, BitVec.and_self]
    decide

theorem ttyChar_ne (b : BitVec 8) (quoted : Bool) : ttyChar b quoted ≠ -1 := by
  intro h
  have hbit := congrArg (BitVec.getLsbD · 9) h
  cases quoted <;> simp [ttyChar, ttyQuote] at hbit

theorem TtyQueue.char_ttyChar (q : TtyQueue) (b : BitVec 8) (quoted : Bool) :
    q.char (ttyChar b quoted) = (b, quoted && q.quot) := by
  rw [TtyQueue.char, setWidth_ttyChar, ttyChar_quote]

theorem TtyQueue.move_cons {src dst : TtyQueue} {c : BitVec 8 × Bool}
    (hhead : src.chars.items.head? = some c) :
    move src.getc.2 (dst.putc (ttyChar c.1 c.2)).2 = move src dst := by
  obtain ⟨rest, hitems⟩ : ∃ rest, src.chars.items = c :: rest := by
    rw [head?_eq_some_iff] at hhead
    exact hhead
  have hsrc : src.getc.2 = { src with chars := src.chars.drop 1 } := by
    rw [TtyQueue.getc, hhead]
  have hrest : (src.chars.drop 1).items = rest := by
    change src.chars.items.drop 1 = rest
    rw [hitems]
    rfl
  rw [hsrc, move, move]
  refine Prod.ext ?_ ?_
  · simp only [BoundedQueue.drop_drop, hrest, hitems, length_cons, Nat.add_comm]
  · simp only [TtyQueue.putc, TtyQueue.char_ttyChar, hrest, hitems, BoundedQueue.pushAll_pushAll,
      map_cons, singleton_append]

variable {dst src : Clist} {qd qs : TtyQueue}

theorem catqLoop_rep {n : Nat} (hs : src.Rep qs)
    (hd : dst.Rep qd) (hn : qs.chars.items.length < n) :
    ∃ src' dst', catqLoop n src dst = some (src', dst') ∧ src'.Rep (qs.move qd).1 ∧
      dst'.Rep (qs.move qd).2 := by
  induction n generalizing src dst qs qd with
  | zero => exact absurd hn (Nat.not_lt_zero _)
  | succ n ih =>
    obtain ⟨src₁, hgetc, hs₁⟩ := Clist.getc_rep hs
    cases hhead : qs.chars.items.head? with
    | none =>
      have hnil := head?_eq_none_iff.1 hhead
      have hend : qs.getc = (-1, qs) := by rw [TtyQueue.getc, hhead]
      rw [hend] at hgetc hs₁
      have hstay : qs.move qd = (qs, qd) := by
        rw [TtyQueue.move, hnil, map_nil, BoundedQueue.pushAll_nil]
        refine Prod.ext ?_ rfl
        change { qs with chars := qs.chars.drop [].length } = qs
        rw [length_nil, BoundedQueue.drop_zero]
      rw [hstay]
      refine ⟨src₁, dst, ?_, hs₁, hd⟩
      rw [catqLoop, hgetc]
      rfl
    | some c =>
      have hchar : qs.getc.1 = ttyChar c.1 c.2 := by rw [TtyQueue.getc, hhead]
      have hlen : qs.getc.2.chars.items.length + 1 = qs.chars.items.length := by
        obtain ⟨rest, hitems⟩ := head?_eq_some_iff.1 hhead
        rw [TtyQueue.getc, hhead]
        change (qs.chars.items.drop 1).length + 1 = _
        rw [hitems]
        rfl
      obtain ⟨dst₁, hputc, hd₁, -⟩ := Clist.putc_rep hd (ttyChar c.1 c.2)
      obtain ⟨src₂, dst₂, hloop, hs₂, hd₂⟩ := ih hs₁ hd₁ (by omega)
      rw [TtyQueue.move_cons hhead] at hs₂ hd₂
      refine ⟨src₂, dst₂, ?_, hs₂, hd₂⟩
      rw [catqLoop, hgetc, hchar]
      simp only [bind_eq_bind, bind_some, if_neg (ttyChar_ne c.1 c.2), hputc, hloop]

theorem catq_rep (hs : src.Rep qs) (hd : dst.Rep qd) :
    ∃ src' dst', catq src dst = some (src', dst') ∧ src'.Rep (qs.catq qd).1 ∧
      dst'.Rep (qs.catq qd).2 := by
  have hsnil : qs.chars.items = [] ↔ src.cCc = 0 := by
    rw [← length_eq_zero_iff, hs.length]
  have hdnil : qd.chars.items = [] ↔ dst.cCc = 0 := by
    rw [← length_eq_zero_iff, hd.length]
  rw [catq, TtyQueue.catq, hs.cap, hd.cap]
  by_cases hzero : src.cCc = 0
  · rw [if_pos hzero, if_pos (hsnil.2 hzero)]
    exact ⟨src, dst, rfl, hs, hd⟩
  · rw [if_neg hzero, if_neg (hsnil.not.2 hzero)]
    by_cases hswap : dst.cCc = 0 ∧ src.cCn = dst.cCn
    · rw [if_pos hswap, if_pos ⟨hdnil.2 hswap.1, hswap.2⟩]
      exact ⟨dst, src, rfl, hd, hs⟩
    · rw [if_neg hswap, if_neg fun h => hswap ⟨hdnil.1 h.1, h.2⟩]
      exact catqLoop_rep hs hd (by rw [hs.length]; exact Nat.lt_succ_self _)

end OpenBsd.Kern
