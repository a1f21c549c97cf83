/-
  OpenBsd.Uvm.AmapSafe

  The per-page reference counts are exact over every run, as long as no array is made in
  the middle of `amap_ref`.
-/

import OpenBsd.Uvm.Amap

namespace OpenBsd.Uvm

open List

variable {len j cur n stop : Nat} {ref adj : Int} {refs : List Aref} {mem : Bool}

/-! ## Chunks of the array -/

/-- The chunk of `len` slots at `a`, with the count `ref`. -/
def Chunk (pp : Nat → Int) (a : Nat) (ref : Int) (len : Nat) : Prop :=
  0 ≤ ref ∧ 0 < len ∧ if len = 1 then pp a = ref + 1 else pp a = -(ref + 1) ∧ pp (a + 1) = len

theorem ppGetreflen_of_chunk {pp : Nat → Int} {a : Nat} (h : Chunk pp a ref len) :
    ppGetreflen pp a = (ref, len) := by
  obtain ⟨hpos, hlen, hval⟩ := h
  rw [ppGetreflen]
  split at hval
  case isTrue hone =>
    rw [if_pos (by omega), hval, hone]
    simp
  case isFalse hmany =>
    rw [if_neg (by omega), hval.1, hval.2]
    simp

theorem chunk_ppSetreflen (pp : Nat → Int) (a : Nat) {ref : Int} {len : Nat} (href : 0 ≤ ref)
    (hlen : 0 < len) : Chunk (ppSetreflen pp a ref len) a ref len := by
  refine ⟨href, hlen, ?_⟩
  rw [ppSetreflen]
  split
  case isTrue => simp [setSlot]
  case isFalse =>
    constructor <;> simp [setSlot]

theorem ppSetreflen_of_outside {pp : Nat → Int} {a : Nat} (hlen : 0 < len)
    (hj : j < a ∨ a + len ≤ j) : ppSetreflen pp a ref len j = pp j := by
  rw [ppSetreflen]
  split
  case isTrue => exact if_neg (by omega)
  case isFalse => rw [setSlot, if_neg (by omega), setSlot, if_neg (by omega)]

theorem Chunk.congr {pp pp' : Nat → Int} {a : Nat} (h : Chunk pp a ref len)
    (heq : ∀ j, a ≤ j → j < a + len → pp' j = pp j) : Chunk pp' a ref len := by
  obtain ⟨hpos, hlen, hval⟩ := h
  refine ⟨hpos, hlen, ?_⟩
  split at hval
  case isTrue hone =>
    rw [if_pos hone, heq a (le_refl a) (by omega)]
    exact hval
  case isFalse hmany =>
    rw [if_neg hmany, heq a (le_refl a) (by omega), heq (a + 1) (by omega) (by omega)]
    exact hval

/-- The slots from `a` to before `b` are chunks with the counts `f`. -/
inductive Chunks (pp : Nat → Int) (f : Nat → Int) : Nat → Nat → Prop where
  | nil (a : Nat) : Chunks pp f a a
  | cons {a b len : Nat} {ref : Int} : Chunk pp a ref len →
      (∀ j, a ≤ j → j < a + len → f j = ref) → Chunks pp f (a + len) b → Chunks pp f a b

section Chunks

variable {pp pp' f g : Nat → Int} {a b c : Nat}

theorem Chunks.le (h : Chunks pp f a b) : a ≤ b := by
  induction h with
  | nil => exact le_refl _
  | cons _ _ _ ih => omega

theorem Chunks.congr (h : Chunks pp f a b) (hpp : ∀ j, a ≤ j → j < b → pp' j = pp j)
    (hf : ∀ j, a ≤ j → j < b → g j = f j) : Chunks pp' g a b := by
  induction h with
  | nil a => exact .nil a
  | @cons a b len ref hchunk hsame hrest ih =>
    have hle := hrest.le
    refine .cons (hchunk.congr fun j hj hlt => hpp j hj (by omega)) (fun j hj hlt => ?_)
      (ih (fun j hj hlt => hpp j (by omega) hlt) fun j hj hlt => hf j (by omega) hlt)
    rw [hf j hj (by omega)]
    exact hsame j hj hlt

theorem Chunks.append (h : Chunks pp f a b) (h' : Chunks pp f b c) : Chunks pp f a c := by
  induction h with
  | nil => exact h'
  | cons hchunk hsame _ ih => exact .cons hchunk hsame (ih h')

theorem Chunks.single (h : Chunk pp a ref len) (hf : ∀ j, a ≤ j → j < a + len → f j = ref) :
    Chunks pp f a (a + len) :=
  .cons h hf (.nil _)

theorem Chunks.decode (h : Chunks pp f a b) :
    ∀ fuel, b ≤ a + fuel → ppDecode pp b fuel a = (List.range' a (b - a)).map f := by
  induction h with
  | nil a =>
    intro fuel _
    cases fuel with
    | zero => simp [ppDecode]
    | succ fuel => simp [ppDecode]
  | @cons a b len ref hchunk hsame hrest ih =>
    intro fuel hfuel
    have hle := hrest.le
    have hlen := hchunk.2.1
    obtain ⟨n, rfl⟩ : ∃ n, fuel = n + 1 := ⟨fuel - 1, by omega⟩
    have hsplit : b - a = len + (b - (a + len)) := by omega
    have hmap : (List.range' a len).map f = List.replicate len ref := by
      rw [eq_replicate_iff]
      refine ⟨by simp, fun x hx => ?_⟩
      obtain ⟨j, hj, rfl⟩ := mem_map.1 hx
      rw [mem_range'_1] at hj
      exact hsame j hj.1 hj.2
    rw [ppDecode, if_pos (by omega), ppGetreflen_of_chunk hchunk]
    dsimp only
    rw [ih n (by omega), hsplit, ← range'_append_1, map_append, hmap]

end Chunks

/-! ## Adjusting counts -/

/-- The chunk that ends where the adjusting begins. -/
structure PrevChunk (pp f : Nat → Int) (p q : Nat) : Prop where
  before : Chunks pp f 0 p
  lt : p < q
  chunk : Chunk pp p (f p) (q - p)
  same : ∀ j, p ≤ j → j < q → f j = f p

theorem PrevChunk.chunks {pp f : Nat → Int} {p q : Nat} (h : PrevChunk pp f p q) :
    Chunks pp f 0 q := by
  have hq : p + (q - p) = q := by
    have := h.lt
    omega
  have hone := Chunks.single h.chunk fun j hj hlt => h.same j hj (by omega)
  rw [hq] at hone
  exact h.before.append hone

/-- The first loop comes to a boundary of chunks at `cur`. -/
theorem ppSeek_spec {f : Nat → Int} (hn : cur ≤ n) :
    ∀ (fuel : Nat) (pp : Nat → Int) (lcv prev : Nat), Chunks pp f lcv n → lcv ≤ cur →
      cur ≤ lcv + fuel → (lcv ≠ 0 → PrevChunk pp f prev lcv) →
      ∃ pp' prev', ppSeek cur fuel pp lcv prev = .ok (pp', cur, prev') ∧ Chunks pp' f cur n ∧
        (cur ≠ 0 → PrevChunk pp' f prev' cur) := by
  intro fuel
  induction fuel with
  | zero =>
    intro pp lcv prev hrest hle hfuel hprev
    have hlcv : lcv = cur := by omega
    subst hlcv
    exact ⟨pp, prev, by rw [ppSeek, if_neg (by omega)], hrest, hprev⟩
  | succ fuel ih =>
    intro pp lcv prev hrest hle hfuel hprev
    by_cases hlt : lcv < cur
    · -- the chunk at `lcv`
      have hbefore : Chunks pp f 0 lcv := by
        by_cases hz : lcv = 0
        · rw [hz]
          exact .nil 0
        · exact (hprev hz).chunks
      cases hrest with
      | nil => omega
      | @cons _ _ len ref hchunk hsame hrest' =>
        have hlen := hchunk.2.1
        rw [ppSeek, if_pos hlt]
        simp only [ppGetreflen_of_chunk hchunk]
        by_cases hover : lcv + len > cur
        · -- it goes past the start and is split
          rw [if_pos hover]
          have hcur : lcv + (cur - lcv) = cur := by omega
          obtain ⟨pp₁, hpp₁⟩ : ∃ pp₁, pp₁ = ppSetreflen pp lcv ref (cur - lcv) := ⟨_, rfl⟩
          obtain ⟨pp₂, hpp₂⟩ : ∃ pp₂, pp₂ = ppSetreflen pp₁ cur ref (len - (cur - lcv)) := ⟨_, rfl⟩
          have hout : ∀ j, j < lcv ∨ lcv + len ≤ j → pp₂ j = pp j := by
            intro j hj
            rw [hpp₂, ppSetreflen_of_outside (by omega) (by omega), hpp₁,
              ppSetreflen_of_outside (by omega) (by omega)]
          have hfirst : Chunk pp₂ lcv ref (cur - lcv) := by
            have h₁ := @chunk_ppSetreflen pp lcv ref (cur - lcv) hchunk.1 (by omega)
            rw [← hpp₁] at h₁
            refine h₁.congr fun j hj hjlt => ?_
            rw [hpp₂, ppSetreflen_of_outside (by omega) (by omega)]
          have hsecond : Chunk pp₂ cur ref (len - (cur - lcv)) := by
            rw [hpp₂]
            exact chunk_ppSetreflen pp₁ cur hchunk.1 (by omega)
          have hback : Chunks pp₂ f cur n := by
            refine .cons hsecond (fun j hj hjlt => hsame j (by omega) (by omega)) ?_
            have hend : cur + (len - (cur - lcv)) = lcv + len := by omega
            rw [hend]
            exact hrest'.congr (fun j hj _ => hout j (.inr hj)) fun _ _ _ => rfl
          have hfl : f lcv = ref := hsame lcv (le_refl _) (by omega)
          have hnew : PrevChunk pp₂ f lcv cur := by
            refine ⟨hbefore.congr (fun j _ hj => hout j (.inl hj)) fun _ _ _ => rfl, hlt,
              hfl ▸ hfirst, fun j hj hjlt => ?_⟩
            rw [hfl]
            exact hsame j hj (by omega)
          rw [← hpp₁, ← hpp₂, hcur]
          exact ih pp₂ cur lcv hback (le_refl _) (by omega) fun _ => hnew
        · rw [if_neg hover]
          refine ih pp (lcv + len) lcv hrest' (by omega) (by omega) fun _ => ?_
          have hfl : f lcv = ref := hsame lcv (le_refl _) (by omega)
          have hsub : lcv + len - lcv = len := by omega
          refine ⟨hbefore, by omega, ?_, fun j hj hjlt => ?_⟩
          · rw [hsub, hfl]
            exact hchunk
          · rw [hfl]
            exact hsame j hj hjlt
    · have hlcv : lcv = cur := by omega
      subst hlcv
      exact ⟨pp, prev, by rw [ppSeek, if_neg hlt], hrest, hprev⟩

/-- The counts after the adjusting. -/
def adjusted (f : Nat → Int) (cur stop : Nat) (adj : Int) (j : Nat) : Int :=
  if cur ≤ j ∧ j < stop then f j + adj else f j

theorem adjusted_inside {f : Nat → Int} (h : cur ≤ j) (h' : j < stop) :
    adjusted f cur stop adj j = f j + adj := if_pos ⟨h, h'⟩

theorem adjusted_before {f : Nat → Int} (h : j < cur) :
    adjusted f cur stop adj j = f j := if_neg fun h' => by omega

theorem adjusted_behind {f : Nat → Int} (h : stop ≤ j) :
    adjusted f cur stop adj j = f j := if_neg fun h' => by omega

/-- The array while the second loop is at `lcv`: the counts before it are the new ones.  At
    the start of the range the chunk before it may still grow. -/
def AdjustInv (pp g : Nat → Int) (cur lcv prevlcv : Nat) (prev : Int × Nat) : Prop :=
  (lcv = cur ∧ cur = 0 ∧ prev = (-1, 0)) ∨
  (lcv = cur ∧ PrevChunk pp g prevlcv cur ∧ prev = (g prevlcv, cur - prevlcv)) ∨
  (cur < lcv ∧ prevlcv + prev.2 = cur ∧ Chunks pp g 0 lcv)

variable {prev : Int × Nat} {lcv prevlcv : Nat}

theorem AdjustInv.chunks {pp g : Nat → Int}
    (h : AdjustInv pp g cur lcv prevlcv prev) : Chunks pp g 0 lcv := by
  obtain ⟨rfl, rfl, -⟩ | ⟨rfl, hprev, -⟩ | ⟨-, -, hchunks⟩ := h
  · exact .nil 0
  · exact hprev.chunks
  · exact hchunks

/-- The chunk at `lcv` is stored with its new count, on its own or as part of the chunk
    before it. -/
theorem AdjustInv.store {pp g : Nat → Int}
    (h : AdjustInv pp g cur lcv prevlcv prev) (hcur : prevlcv + prev.2 ≤ cur) (hle : cur ≤ lcv)
    (hpos : 0 ≤ ref) (hlen : 0 < len) (hg : ∀ j, lcv ≤ j → j < lcv + len → g j = ref) :
    ∃ pp', pp' = (if lcv = prevlcv + prev.2 ∧ ref = prev.1 then
        ppSetreflen pp prevlcv ref (prev.2 + len) else ppSetreflen pp lcv ref len) ∧
      Chunks pp' g 0 (lcv + len) ∧ ∀ j, lcv + len ≤ j → pp' j = pp j := by
  refine ⟨_, rfl, ?_⟩
  by_cases hmerge : lcv = prevlcv + prev.2 ∧ ref = prev.1
  · rw [if_pos hmerge]
    obtain ⟨hat, href⟩ := hmerge
    obtain ⟨-, -, hnone⟩ | ⟨hlcv, hprev, heq⟩ | ⟨hlt, -, -⟩ := h
    · -- there is no chunk before the first slot
      rw [hnone] at href
      omega
    · have hlt := hprev.lt
      rw [heq] at hat href ⊢
      dsimp only at hat href ⊢
      have hchunk := @chunk_ppSetreflen pp prevlcv ref (cur - prevlcv + len) hpos (by omega)
      have hend : prevlcv + (cur - prevlcv + len) = lcv + len := by omega
      refine ⟨?_, fun j hj => ppSetreflen_of_outside (by omega) (by omega)⟩
      have hbefore : Chunks (ppSetreflen pp prevlcv ref (cur - prevlcv + len)) g 0 prevlcv :=
        hprev.before.congr (fun j _ hj => ppSetreflen_of_outside (by omega) (by omega))
          fun _ _ _ => rfl
      have hone := Chunks.single (f := g) hchunk fun j hj hjlt => by
        by_cases hjc : j < cur
        · rw [hprev.same j hj hjc, ← href]
        · exact hg j (by omega) (by omega)
      rw [hend] at hone
      exact hbefore.append hone
    · omega
  · rw [if_neg hmerge]
    refine ⟨?_, fun j hj => ppSetreflen_of_outside hlen (by omega)⟩
    have hbefore : Chunks (ppSetreflen pp lcv ref len) g 0 lcv :=
      h.chunks.congr (fun j _ hj => ppSetreflen_of_outside hlen (by omega)) fun _ _ _ => rfl
    exact hbefore.append (Chunks.single (chunk_ppSetreflen pp lcv hpos hlen) hg)

/-- The ranges lie before `n` and have the count zero. -/
def ZeroRanges (g : Nat → Int) (n : Nat) (wiped : List (Nat × Nat)) : Prop :=
  ∀ w ∈ wiped, w.1 + w.2 ≤ n ∧ ∀ j, w.1 ≤ j → j < w.1 + w.2 → g j = 0

/-- The second loop adjusts the counts of the range. -/
theorem ppAdjust_spec {f : Nat → Int} {cur stop n prevlcv : Nat} {adj : Int} {prev : Int × Nat}
    (hn : stop ≤ n) (hpos : ∀ j, cur ≤ j → j < stop → 0 ≤ f j + adj)
    (hcur : prevlcv + prev.2 ≤ cur) :
    ∀ (fuel : Nat) (pp : Nat → Int) (lcv : Nat) (wiped : List (Nat × Nat)), cur ≤ lcv →
      lcv ≤ stop → stop ≤ lcv + fuel → Chunks pp f lcv n →
      AdjustInv pp (adjusted f cur stop adj) cur lcv prevlcv prev →
      ZeroRanges (adjusted f cur stop adj) n wiped →
      ∃ pp' wiped', ppAdjust stop adj prevlcv prev fuel pp lcv wiped = .ok (pp', wiped') ∧
        Chunks pp' (adjusted f cur stop adj) 0 n ∧
        ZeroRanges (adjusted f cur stop adj) n wiped' := by
  -- at the end of the range
  have hend : ∀ (fuel : Nat) (pp : Nat → Int) (wiped : List (Nat × Nat)), Chunks pp f stop n →
      AdjustInv pp (adjusted f cur stop adj) cur stop prevlcv prev →
      ZeroRanges (adjusted f cur stop adj) n wiped →
      ∃ pp' wiped', ppAdjust stop adj prevlcv prev fuel pp stop wiped = .ok (pp', wiped') ∧
        Chunks pp' (adjusted f cur stop adj) 0 n ∧
        ZeroRanges (adjusted f cur stop adj) n wiped' := by
    intro fuel pp wiped hrest hinv hzero
    refine ⟨pp, wiped, ?_, hinv.chunks.append (hrest.congr (fun _ _ _ => rfl) fun j hj _ =>
      adjusted_behind hj), hzero⟩
    unfold ppAdjust
    rw [if_neg (by omega)]
  intro fuel
  induction fuel with
  | zero =>
    intro pp lcv wiped hle hstop hfuel hrest hinv hzero
    have hlcv : lcv = stop := by omega
    subst hlcv
    exact hend 0 pp wiped hrest hinv hzero
  | succ fuel ih =>
    intro pp lcv wiped hle hstop hfuel hrest hinv hzero
    by_cases hlt : lcv < stop
    · cases hrest with
      | nil => omega
      | @cons _ _ len₀ ref hchunk hsame hrest' =>
        have hlen₀ := hchunk.2.1
        -- the part of the chunk in the range, and what is behind it
        obtain ⟨pp₁, len, hsplit, hlen, hlen', hstop', hbehind, hkeep⟩ : ∃ pp₁ len,
            (if lcv + len₀ > stop then
              (ppSetreflen (ppSetreflen pp lcv ref (stop - lcv)) stop ref (len₀ - (stop - lcv)),
                stop - lcv)
            else (pp, len₀)) = (pp₁, len) ∧ 0 < len ∧ len ≤ len₀ ∧ lcv + len ≤ stop ∧
            Chunks pp₁ f (lcv + len) n ∧ ∀ j, j < lcv → pp₁ j = pp j := by
          by_cases hover : lcv + len₀ > stop
          · refine ⟨_, _, if_pos hover, by omega, by omega, by omega, ?_, ?_⟩
            · have hs : lcv + (stop - lcv) = stop := by omega
              rw [hs]
              refine .cons (@chunk_ppSetreflen _ stop ref (len₀ - (stop - lcv)) hchunk.1
                (by omega)) (fun j hj hjlt => hsame j (by omega) (by omega)) ?_
              have he : stop + (len₀ - (stop - lcv)) = lcv + len₀ := by omega
              rw [he]
              refine hrest'.congr (fun j hj _ => ?_) fun _ _ _ => rfl
              rw [ppSetreflen_of_outside (by omega) (by omega),
                ppSetreflen_of_outside (by omega) (by omega)]
            · intro j hj
              rw [ppSetreflen_of_outside (by omega) (by omega),
                ppSetreflen_of_outside (by omega) (by omega)]
          · exact ⟨pp, len₀, if_neg hover, hlen₀, le_refl _, by omega, hrest', fun _ _ => rfl⟩
        have hinv₁ : AdjustInv pp₁ (adjusted f cur stop adj) cur lcv prevlcv prev := by
          obtain h | ⟨hlcv, hprev, heq⟩ | ⟨hcl, hpl, hchunks⟩ := hinv
          · exact .inl h
          · refine .inr (.inl ⟨hlcv, ⟨hprev.before.congr (fun j _ hj => hkeep j ?_)
              fun _ _ _ => rfl, hprev.lt, hprev.chunk.congr fun j hj hjlt => hkeep j ?_,
              hprev.same⟩, heq⟩)
            · have := hprev.lt
              omega
            · have := hprev.lt
              omega
          · exact .inr (.inr ⟨hcl, hpl, hchunks.congr (fun j _ hj => hkeep j hj) fun _ _ _ => rfl⟩)
        have hf : ∀ j, lcv ≤ j → j < lcv + len → f j = ref := fun j hj hjlt =>
          hsame j hj (by omega)
        have hg : ∀ j, lcv ≤ j → j < lcv + len → adjusted f cur stop adj j = ref + adj := by
          intro j hj hjlt
          rw [adjusted_inside (by omega) (by omega), hf j hj hjlt]
        have hnonneg : 0 ≤ ref + adj := by
          have h₀ := hpos lcv hle hlt
          rw [hf lcv (le_refl _) (by omega)] at h₀
          exact h₀
        obtain ⟨pp₂, hpp₂, hchunks₂, hkeep₂⟩ := hinv₁.store hcur hle hnonneg hlen hg
        have hcl : cur < lcv + len := by omega
        have hpl : prevlcv + prev.2 = cur := by
          obtain ⟨-, hz, heq⟩ | ⟨-, hprev, heq⟩ | ⟨-, hpl, -⟩ := hinv
          · rw [heq] at hcur ⊢
            dsimp only at hcur ⊢
            omega
          · have := hprev.lt
            rw [heq]
            dsimp only
            omega
          · exact hpl
        unfold ppAdjust
        rw [if_pos hlt]
        simp only [ppGetreflen_of_chunk hchunk, hsplit, if_neg (Int.not_lt.2 hnonneg)]
        rw [← hpp₂]
        refine ih pp₂ (lcv + len) _ (by omega) hstop' (by omega)
          (hbehind.congr (fun j hj _ => hkeep₂ j hj) fun _ _ _ => rfl)
          (.inr (.inr ⟨hcl, hpl, hchunks₂⟩)) ?_
        intro w hw
        split at hw
        case isTrue hz =>
          rcases mem_append.1 hw with hw | hw
          · exact hzero w hw
          · rw [mem_singleton] at hw
            subst hw
            refine ⟨by dsimp only; omega, fun j hj hjlt => ?_⟩
            rw [hg j hj hjlt, hz]
        case isFalse => exact hzero w hw
    · have hlcv : lcv = stop := by omega
      subst hlcv
      exact hend (fuel + 1) pp wiped hrest hinv hzero

/-- `amap_pp_adjref` adjusts the counts of its range and no others. -/
theorem amapPpAdjref_spec {pp f : Nat → Int} {n cur len : Nat} {adj : Int} (h : Chunks pp f 0 n)
    (hn : cur + len ≤ n) (hpos : ∀ j, cur ≤ j → j < cur + len → 0 ≤ f j + adj) :
    ∃ pp' wiped, amapPpAdjref pp cur len adj = .ok (pp', wiped) ∧
      Chunks pp' (adjusted f cur (cur + len) adj) 0 n ∧
      ZeroRanges (adjusted f cur (cur + len) adj) n wiped := by
  have hnil : ZeroRanges (adjusted f cur (cur + len) adj) n [] := fun w hw =>
    absurd hw not_mem_nil
  by_cases hz : cur = 0
  · -- there is no chunk before the range
    subst hz
    obtain ⟨pp', wiped, hadj, hres⟩ := @ppAdjust_spec f 0 (0 + len) n 0 adj (-1, 0) hn hpos
      (le_refl 0) len pp 0 [] (le_refl 0) (Nat.zero_le _) (le_refl _) h (.inl ⟨rfl, rfl, rfl⟩) hnil
    exact ⟨pp', wiped, hadj, hres⟩
  · obtain ⟨pp₁, prevlcv, hseek, hrest, hprev⟩ :=
      ppSeek_spec (Nat.le_of_add_right_le hn) cur pp 0 0 h (Nat.zero_le _) (Nat.le_add_left _ _)
        (fun hne => absurd rfl hne)
    have hp := hprev hz
    have hlt := hp.lt
    have heq : ppPrev pp₁ cur prevlcv = (f prevlcv, cur - prevlcv) := by
      rw [ppPrev, if_pos hz, ppGetreflen_of_chunk hp.chunk]
    have hbefore : ∀ j, j < cur → adjusted f cur (cur + len) adj j = f j := fun j hj =>
      adjusted_before hj
    have hp' : PrevChunk pp₁ (adjusted f cur (cur + len) adj) prevlcv cur := by
      refine ⟨hp.before.congr (fun _ _ _ => rfl) fun j _ hj => hbefore j (by omega), hlt, ?_, ?_⟩
      · rw [hbefore prevlcv hlt]
        exact hp.chunk
      · intro j hj hjlt
        rw [hbefore prevlcv hlt, hbefore j hjlt]
        exact hp.same j hj hjlt
    obtain ⟨pp', wiped, hadj, hres⟩ := ppAdjust_spec hn hpos
      (show prevlcv + (f prevlcv, cur - prevlcv).2 ≤ cur by dsimp only; omega) len pp₁ cur []
      (le_refl _) (Nat.le_add_right _ _) (le_refl _) hrest
      (.inr (.inl ⟨rfl, hp', by rw [hbefore prevlcv hlt]⟩)) hnil
    refine ⟨pp', wiped, ?_, hres⟩
    rw [amapPpAdjref, hseek]
    simp only [ne_eq, not_true_eq_false, if_false, heq]
    exact hadj

/-! ## The counts of the references -/

/-- How much a reference counts at a slot. -/
def Aref.count (r : Aref) (slot : Nat) : Nat :=
  if r.pageoff ≤ slot ∧ slot < r.pageoff + r.len then 1 else 0

theorem cover_cons (r : Aref) (refs : List Aref) (slot : Nat) :
    cover (r :: refs) slot = cover refs slot + r.count slot := by
  rw [cover, countP_cons, ← cover, Aref.count]
  simp only [decide_eq_true_eq]

theorem cover_erase {r : Aref} (h : r ∈ refs) (slot : Nat) :
    cover refs slot = cover (refs.erase r) slot + r.count slot := by
  rw [← cover_cons]
  exact (perm_cons_erase h).countP_eq _

/-- The invariant: the number of references, their slots, and the counts of the array.
    Without an array every reference covers all slots, unless there will never be one. -/
structure AmapOk (s : AmapSys) : Prop where
  amRef : s.amap.amRef = s.refs.length
  bound : ∀ r ∈ s.refs, r.pageoff + r.len ≤ s.amap.nslot
  null : s.amap.ppref = .null → ∀ r ∈ s.refs, r = ⟨0, s.amap.nslot⟩
  array : ∀ pp, s.amap.ppref = .array pp →
    Chunks pp (fun slot => (cover s.refs slot : Int)) 0 s.amap.nslot

theorem AmapOk.counted {s : AmapSys} (h : AmapOk s) : Counted s := by
  intro pp hpp
  rw [(h.array pp hpp).decode s.amap.nslot (Nat.le_add_left _ _), Nat.sub_zero, range_eq_range']

/-- No reference covers a slot of the ranges. -/
def Uncovered (refs : List Aref) (wiped : List (Nat × Nat)) : Prop :=
  ∀ w ∈ wiped, ∀ slot, w.1 ≤ slot → slot < w.1 + w.2 → cover refs slot = 0

theorem uncovered_nil (refs : List Aref) : Uncovered refs [] := fun _ hw =>
  absurd hw not_mem_nil

theorem adjustAmap_spec {a : Amap} {refs refs' : List Aref} {cur len : Nat} {adj : Int}
    (hn : cur + len ≤ a.nslot)
    (harray : ∀ pp, a.ppref = .array pp → Chunks pp (fun slot => (cover refs slot : Int)) 0 a.nslot)
    (hcover : ∀ slot, (cover refs' slot : Int) =
      adjusted (fun slot => (cover refs slot : Int)) cur (cur + len) adj slot) :
    ∃ a' wiped, adjustAmap a cur len adj = .ok (a', wiped) ∧ a'.amRef = a.amRef ∧
      a'.nslot = a.nslot ∧ (a'.ppref = .null → a.ppref = .null) ∧
      (∀ pp, a'.ppref = .array pp →
        Chunks pp (fun slot => (cover refs' slot : Int)) 0 a.nslot) ∧ Uncovered refs' wiped := by
  rw [adjustAmap]
  cases hpp : a.ppref with
  | null => exact ⟨a, [], rfl, rfl, rfl, fun _ => rfl, by simp [hpp], uncovered_nil _⟩
  | none => exact ⟨a, [], rfl, rfl, rfl, by simp [hpp], by simp [hpp], uncovered_nil _⟩
  | array pp =>
    have hpos : ∀ j, cur ≤ j → j < cur + len → 0 ≤ (cover refs j : Int) + adj := by
      intro j hj hlt
      have hc := hcover j
      rw [adjusted_inside hj hlt] at hc
      omega
    obtain ⟨pp', wiped, hadj, hchunks, hzero⟩ := amapPpAdjref_spec (harray pp hpp) hn hpos
    refine ⟨{ a with ppref := .array pp' }, wiped, ?_, rfl, rfl, by simp, ?_, ?_⟩
    · simp only [hadj]
    · intro pp'' hpp''
      cases hpp''
      exact hchunks.congr (fun _ _ _ => rfl) fun j _ _ => hcover j
    · intro w hw slot hle hlt
      have hc := hcover slot
      rw [(hzero w hw).2 slot hle hlt] at hc
      omega

theorem cover_full (h : ∀ r ∈ refs, r = ⟨0, n⟩) {slot : Nat} (hslot : slot < n) :
    cover refs slot = refs.length := by
  rw [cover, countP_eq_length]
  intro r hr
  rw [h r hr]
  simp [hslot]

theorem adjusted_cover (refs : List Aref) (r : Aref) (adj : Int) (slot : Nat) :
    adjusted (fun slot => (cover refs slot : Int)) r.pageoff (r.pageoff + r.len) adj slot =
      cover refs slot + (r.count slot : Int) * adj := by
  rw [adjusted, Aref.count]
  split <;> simp

theorem cover_gain (refs : List Aref) (r : Aref) (slot : Nat) :
    (cover (r :: refs) slot : Int) =
      adjusted (fun slot => (cover refs slot : Int)) r.pageoff (r.pageoff + r.len) 1 slot := by
  rw [adjusted_cover, cover_cons]
  push_cast
  ring

theorem cover_drop {r : Aref} (h : r ∈ refs) (slot : Nat) :
    (cover (refs.erase r) slot : Int) =
      adjusted (fun slot => (cover refs slot : Int)) r.pageoff (r.pageoff + r.len) (-1) slot := by
  rw [adjusted_cover, cover_erase h]
  push_cast
  ring

theorem length_erase_cast {r : Aref} (h : r ∈ refs) :
    ((refs.erase r).length : Int) = refs.length - 1 := by
  have hpos := length_pos_of_mem h
  rw [length_erase_of_mem h]
  omega

/-- Some operations end well: the invariant holds, and only free slots were wiped. -/
def EndsOk (x : Except AmapPanic (AmapSys × List (Nat × Nat))) : Prop :=
  ∃ s wiped, x = .ok (s, wiped) ∧ AmapOk s ∧ Uncovered s.refs wiped

/-- The reference that `amap_ref` gains. -/
def gained (s : AmapSys) (offset len : Nat) (all : Bool) : Aref :=
  if all then ⟨0, s.amap.nslot⟩ else ⟨offset, len⟩

theorem ref_ok {s : AmapSys} {offset : Nat} {all : Bool} (h : AmapOk s)
    (hready : all = false → offset + len ≤ s.amap.nslot)
    (hgood : ¬(s.amap.ppref = .null ∧ all = false ∧ len ≠ s.amap.nslot ∧ mem = true)) :
    EndsOk (amapStep s (.ref offset len all mem)) := by
  have hbound : (gained s offset len all).pageoff + (gained s offset len all).len ≤ s.amap.nslot := by
    rw [gained]
    cases all with
    | true => simp
    | false => exact hready rfl
  -- the amap before the counts are adjusted
  obtain ⟨a, ha, hamRef, hnslot, hnull, harray⟩ : ∃ a : Amap,
      a = (if ({ s.amap with amRef := s.amap.amRef + 1 } : Amap).ppref.isNull ∧ all = false ∧
          len ≠ s.amap.nslot then amapPpEstablish { s.amap with amRef := s.amap.amRef + 1 } mem
        else { s.amap with amRef := s.amap.amRef + 1 }) ∧
      a.amRef = s.amap.amRef + 1 ∧ a.nslot = s.amap.nslot ∧
      (a.ppref = .null → s.amap.ppref = .null ∧ (all = true ∨ len = s.amap.nslot)) ∧
      ∀ pp, a.ppref = .array pp → Chunks pp (fun slot => (cover s.refs slot : Int)) 0 s.amap.nslot := by
    refine ⟨_, rfl, ?_⟩
    split
    case isTrue hcond =>
      have hisnull : s.amap.ppref = .null := by
        cases hpp : s.amap.ppref <;> simp_all [Ppref.isNull]
      have hmem : mem = false := by
        cases mem with
        | false => rfl
        | true => exact absurd ⟨hisnull, hcond.2.1, hcond.2.2, rfl⟩ hgood
      subst hmem
      exact ⟨rfl, rfl, nofun, nofun⟩
    case isFalse hcond =>
      refine ⟨rfl, rfl, fun hnull => ⟨hnull, ?_⟩, h.array⟩
      by_contra hno
      rw [not_or] at hno
      refine hcond ⟨?_, Bool.eq_false_iff.2 hno.1, hno.2⟩
      dsimp only at hnull ⊢
      rw [hnull]
      rfl
  obtain ⟨a', wiped, hadj, hamRef', hnslot', hnull', harray', hun⟩ :=
    adjustAmap_spec (hnslot ▸ hbound) (hnslot ▸ harray) (cover_gain s.refs (gained s offset len all))
  refine ⟨⟨a', gained s offset len all :: s.refs⟩, wiped, ?_, ⟨?_, ?_, ?_, ?_⟩, hun⟩
  · have href : amapRef s.amap offset len all mem = .ok (a', wiped) := by
      rw [amapRef]
      dsimp only
      rw [← ha]
      cases all with
      | true =>
        rw [if_pos rfl, ← hadj, gained, if_pos rfl, hnslot]
      | false =>
        rw [if_neg (by decide), ← hadj, gained, if_neg (by decide)]
    rw [amapStep, href]
    rfl
  · dsimp only
    rw [hamRef', hamRef, h.amRef, length_cons]
    push_cast
    ring
  · intro r hr
    dsimp only at hr ⊢
    rw [hnslot', hnslot]
    rcases mem_cons.1 hr with rfl | hr
    · exact hbound
    · exact h.bound r hr
  · intro hpp r hr
    dsimp only at hpp hr ⊢
    obtain ⟨hnull₀, hfull⟩ := hnull (hnull' hpp)
    rw [hnslot', hnslot]
    rcases mem_cons.1 hr with rfl | hr
    · cases all with
      | true => rfl
      | false =>
        have hlen : len = s.amap.nslot := hfull.resolve_left (by decide)
        have hoff : offset = 0 := by
          have := hready rfl
          omega
        rw [gained, if_neg (by decide), hlen, hoff]
    · exact h.null hnull₀ r hr
  · intro pp hpp
    dsimp only at hpp ⊢
    rw [hnslot']
    exact harray' pp hpp

theorem drop_ok {s : AmapSys} {r : Aref} (h : AmapOk s) (hr : r ∈ s.refs) :
    ∃ a wiped, adjustAmap { s.amap with amRef := s.amap.amRef - 1 } r.pageoff r.len (-1) =
        .ok (a, wiped) ∧ AmapOk ⟨a, s.refs.erase r⟩ ∧ Uncovered (s.refs.erase r) wiped := by
  obtain ⟨a, wiped, hadj, hamRef, hnslot, hnull, harray, hun⟩ :=
    @adjustAmap_spec { s.amap with amRef := s.amap.amRef - 1 } s.refs (s.refs.erase r) r.pageoff r.len
      (-1) (h.bound r hr) h.array (cover_drop hr)
  refine ⟨a, wiped, hadj, ⟨?_, fun q hq => ?_, fun hpp q hq => ?_, fun pp hpp => ?_⟩, hun⟩
  · dsimp only
    rw [hamRef, length_erase_cast hr]
    dsimp only
    rw [h.amRef]
  · dsimp only at hq ⊢
    rw [hnslot]
    exact h.bound q (mem_of_mem_erase hq)
  · dsimp only at hpp hq ⊢
    rw [hnslot]
    exact h.null (hnull hpp) q (mem_of_mem_erase hq)
  · dsimp only at hpp ⊢
    rw [hnslot]
    exact harray pp hpp

theorem refs_single {s : AmapSys} {r : Aref} (h : AmapOk s) (hr : r ∈ s.refs)
    (hone : s.amap.amRef = 1) : s.refs = [r] := by
  have hlen : s.refs.length = 1 := by
    have := h.amRef
    omega
  obtain ⟨q, hq⟩ := length_eq_one_iff.1 hlen
  rw [hq] at hr ⊢
  rw [mem_singleton.1 hr]

theorem unref_ok {s : AmapSys} {r : Aref} {all : Bool} (h : AmapOk s) (hr : r ∈ s.refs)
    (hall : all = true → r = ⟨0, s.amap.nslot⟩) : EndsOk (amapStep s (.unref r all mem)) := by
  rw [amapStep, amapUnref]
  by_cases hone : s.amap.amRef = 1
  · -- the last reference
    rw [if_pos hone]
    have herase : s.refs.erase r = [] := by
      rw [refs_single h hr hone]
      simp
    refine ⟨_, _, rfl, ⟨?_, ?_, ?_, nofun⟩, uncovered_nil _⟩ <;> simp [herase]
  · rw [if_neg hone]
    -- no array is made: without one the reference covers all slots
    have hcond : ¬(({ s.amap with amRef := s.amap.amRef - 1 } : Amap).ppref.isNull ∧ all = false ∧
        r.len ≠ s.amap.nslot) := by
      rintro ⟨hisnull, -, hlen⟩
      have hpp : s.amap.ppref = .null := by
        cases hpp : s.amap.ppref <;> simp_all [Ppref.isNull]
      rw [h.null hpp r hr] at hlen
      exact hlen rfl
    obtain ⟨a, wiped, hadj, hok, hun⟩ := drop_ok h hr
    refine ⟨⟨a, s.refs.erase r⟩, wiped, ?_, hok, hun⟩
    dsimp only
    rw [if_neg hcond]
    cases all with
    | true =>
      have hfull := hall rfl
      rw [hfull] at hadj
      rw [if_pos rfl, hadj]
    | false => rw [if_neg (by decide), hadj]

theorem copy_ok {s : AmapSys} {r : Aref} (h : AmapOk s) (hr : r ∈ s.refs) :
    EndsOk (amapStep s (.copy r mem)) := by
  rw [amapStep, amapCopy]
  by_cases hkeep : s.amap.amRef = 1 ∨ mem = false
  · rw [if_pos hkeep]
    exact ⟨s, [], rfl, h, uncovered_nil _⟩
  · rw [if_neg hkeep]
    obtain ⟨a, wiped, hadj, hok, hun⟩ := drop_ok h hr
    refine ⟨⟨a, s.refs.erase r⟩, wiped, ?_, hok, hun⟩
    rw [hadj]
    rfl

theorem cover_split {r : Aref} (h : r ∈ refs) (hn : n < r.len) (slot : Nat) :
    cover (⟨r.pageoff, n⟩ :: ⟨r.pageoff + n, r.len - n⟩ :: refs.erase r) slot =
      cover refs slot := by
  rw [cover_cons, cover_cons, cover_erase h, Aref.count, Aref.count, Aref.count]
  dsimp only
  split_ifs <;> omega

theorem splitref_ok {s : AmapSys} {r : Aref} {leftslots : Nat} (h : AmapOk s) (hr : r ∈ s.refs)
    (hpos : 0 < leftslots) (hlt : leftslots < r.len) :
    EndsOk (amapStep s (.splitref r leftslots mem)) := by
  have hbound := h.bound r hr
  -- the array, if there is one now, has the counts of the references
  obtain ⟨a, ha, hamRef, hnslot, hnull, harray⟩ : ∃ a : Amap,
      a = (if s.amap.ppref.isNull then amapPpEstablish s.amap mem else s.amap) ∧
      a.amRef = s.amap.amRef ∧ a.nslot = s.amap.nslot ∧ a.ppref ≠ .null ∧
      ∀ pp, a.ppref = .array pp → Chunks pp (fun slot => (cover s.refs slot : Int)) 0 s.amap.nslot := by
    refine ⟨_, rfl, ?_⟩
    split
    case isTrue hisnull =>
      have hpp : s.amap.ppref = .null := by
        cases hpp : s.amap.ppref <;> simp_all [Ppref.isNull]
      cases mem with
      | false => exact ⟨rfl, rfl, nofun, nofun⟩
      | true =>
        refine ⟨rfl, rfl, nofun, fun pp hpp' => ?_⟩
        cases hpp'
        have hchunk := @chunk_ppSetreflen (fun _ => 0) 0 s.amap.amRef s.amap.nslot
          (by rw [h.amRef]; omega) (by omega)
        have hone := Chunks.single (f := fun slot => (cover s.refs slot : Int)) hchunk
          fun j _ hj => by
            rw [cover_full (h.null hpp) (by omega), h.amRef]
        rw [Nat.zero_add] at hone
        exact hone
    case isFalse hno =>
      refine ⟨rfl, rfl, fun hpp => ?_, h.array⟩
      rw [hpp] at hno
      exact hno rfl
  refine ⟨⟨{ a with amRef := a.amRef + 1 }, ⟨r.pageoff, leftslots⟩ ::
    ⟨r.pageoff + leftslots, r.len - leftslots⟩ :: s.refs.erase r⟩, [], ?_, ⟨?_, ?_, ?_, ?_⟩,
    uncovered_nil _⟩
  · rw [amapStep, amapSplitref, if_neg (by omega), if_neg (by omega)]
    dsimp only
    rw [← ha]
  · dsimp only
    rw [hamRef, h.amRef, length_cons, length_cons]
    have := length_erase_cast hr
    push_cast
    omega
  · intro q hq
    dsimp only at hq ⊢
    rw [hnslot]
    rcases mem_cons.1 hq with rfl | hq
    · dsimp only
      omega
    · rcases mem_cons.1 hq with rfl | hq
      · dsimp only
        omega
      · exact h.bound q (mem_of_mem_erase hq)
  · exact fun hpp => absurd hpp hnull
  · intro pp hpp
    dsimp only at hpp ⊢
    rw [hnslot]
    refine (harray pp hpp).congr (fun _ _ _ => rfl) fun j _ _ => ?_
    rw [cover_split hr hlt]

/-- The slots behind an entry and the new ones get its reference. -/
theorem extendPpref_spec {pp f g : Nat → Int} {nslot mapped slotneed : Nat} (h : Chunks pp f 0 nslot)
    (hmapped : mapped ≤ nslot) (hneed : nslot < slotneed) (hf : ∀ j, 0 ≤ f j)
    (hg : ∀ j < nslot, g j = adjusted f mapped nslot 1 j)
    (hnew : ∀ j, nslot ≤ j → j < slotneed → g j = 1) :
    ∃ pp' wiped, extendPpref pp nslot mapped slotneed = .ok (pp', wiped) ∧
      Chunks pp' g 0 slotneed ∧ ZeroRanges g nslot wiped := by
  -- the chunk of the new slots
  have hlast : ∀ pp₁, Chunks pp₁ g 0 nslot →
      Chunks (ppSetreflen pp₁ nslot 1 (slotneed - nslot)) g 0 slotneed := by
    intro pp₁ h₁
    have hone := Chunks.single (f := g)
      (@chunk_ppSetreflen pp₁ nslot 1 (slotneed - nslot) (by decide) (by omega))
      fun j hj hlt => hnew j hj (by omega)
    have hend : nslot + (slotneed - nslot) = slotneed := by omega
    rw [hend] at hone
    exact (h₁.congr (fun j _ hj => ppSetreflen_of_outside (by omega) (by omega))
      fun _ _ _ => rfl).append hone
  rw [extendPpref]
  by_cases hlt : mapped < nslot
  · have hto : mapped + (nslot - mapped) = nslot := by omega
    obtain ⟨pp', wiped, hadj, hchunks, hzero⟩ :=
      @amapPpAdjref_spec pp f nslot mapped (nslot - mapped) 1 h (by omega)
        (fun j _ _ => by have := hf j; omega)
    rw [hto] at hchunks hzero
    rw [if_pos hlt, hadj]
    refine ⟨_, wiped, rfl, hlast pp' (hchunks.congr (fun _ _ _ => rfl) fun j _ hj => hg j hj), ?_⟩
    intro w hw
    obtain ⟨hwn, hwz⟩ := hzero w hw
    refine ⟨hwn, fun j hj hjlt => ?_⟩
    rw [hg j (by omega)]
    exact hwz j hj hjlt
  · rw [if_neg hlt]
    refine ⟨_, [], rfl, hlast pp (h.congr (fun _ _ _ => rfl) fun j _ hj => ?_), fun w hw =>
      absurd hw not_mem_nil⟩
    rw [hg j hj, adjusted_before (by omega)]

section Extend

variable {s : AmapSys} {r : Aref} {slotadd : Nat}

/-- The only reference, with more slots behind it. -/
def Aref.extended (r : Aref) (slotadd : Nat) : Aref := ⟨r.pageoff, r.len + slotadd⟩

theorem count_extended (r : Aref) (slotadd slot : Nat) :
    (r.extended slotadd).count slot =
      r.count slot + (Aref.mk (r.pageoff + r.len) slotadd).count slot := by
  rw [Aref.count, Aref.count, Aref.count, Aref.extended]
  dsimp only
  split_ifs <;> omega

theorem cover_single (r : Aref) (slot : Nat) : cover [r] slot = r.count slot := by
  rw [cover_cons, cover, countP_nil, Nat.zero_add]

theorem grown_ok (h : AmapOk s) (hr : r ∈ s.refs) (hone : s.amap.amRef = 1) {a : Amap}
    (hamRef : a.amRef = 1) (hnslot : a.nslot = r.pageoff + r.len + slotadd)
    (hnull : a.ppref = .null → s.amap.ppref = .null)
    (harray : ∀ pp, a.ppref = .array pp →
      Chunks pp (fun slot => (cover [r.extended slotadd] slot : Int)) 0 a.nslot) :
    AmapOk ⟨a, r.extended slotadd :: s.refs.erase r⟩ := by
  have herase : s.refs.erase r = [] := by
    rw [refs_single h hr hone]
    simp
  rw [herase]
  refine ⟨hamRef, fun q hq => ?_, fun hpp q hq => ?_, harray⟩
  · rw [mem_singleton.1 hq]
    dsimp only [Aref.extended]
    omega
  · have hfull := h.null (hnull hpp) r hr
    rw [mem_singleton.1 hq]
    dsimp only
    rw [hnslot, hfull, Aref.extended]
    simp

theorem grown_array (h : AmapOk s) (hr : r ∈ s.refs) (hone : s.amap.amRef = 1) {pp : Nat → Int}
    (hpp : Chunks pp (fun slot => (cover s.refs slot : Int)) 0 s.amap.nslot)
    (hneed : s.amap.nslot < r.pageoff + r.len + slotadd) :
    ∃ pp' wiped, extendPpref pp s.amap.nslot (r.pageoff + r.len) (r.pageoff + r.len + slotadd) =
        .ok (pp', wiped) ∧
      Chunks pp' (fun slot => (cover [r.extended slotadd] slot : Int)) 0
        (r.pageoff + r.len + slotadd) ∧ Uncovered [r.extended slotadd] wiped := by
  have hbound := h.bound r hr
  rw [refs_single h hr hone] at hpp
  obtain ⟨pp', wiped, hext, hchunks, hzero⟩ := @extendPpref_spec pp
    (fun slot => (cover [r] slot : Int)) (fun slot => (cover [r.extended slotadd] slot : Int))
    s.amap.nslot (r.pageoff + r.len) (r.pageoff + r.len + slotadd) hpp hbound hneed
    (fun j => Int.natCast_nonneg _)
    (fun j hj => by
      rw [cover_single, count_extended, adjusted]
      simp only [cover_single, Aref.count]
      split_ifs <;> omega)
    (fun j hj hlt => by
      rw [cover_single, Aref.count, Aref.extended]
      dsimp only
      rw [if_pos (by omega)]
      rfl)
  refine ⟨pp', wiped, hext, hchunks, fun w hw slot hle hlt => ?_⟩
  have hz := (hzero w hw).2 slot hle hlt
  dsimp only at hz
  omega

theorem extend_ok {slotalloc : Nat} {ppMem slMem : Bool} (h : AmapOk s) (hr : r ∈ s.refs)
    (hone : s.amap.amRef = 1) : EndsOk (amapStep s (.extend r slotadd slotalloc ppMem slMem)) := by
  have herase : s.refs.erase r = [] := by
    rw [refs_single h hr hone]
    simp
  -- the amap stays as it is, perhaps without its array
  have hsame : EndsOk (.ok (s, [])) := ⟨s, [], rfl, h, uncovered_nil _⟩
  rw [amapStep, amapExtend]
  dsimp only
  by_cases henough : s.amap.nslot ≥ r.pageoff + r.len + slotadd
  · -- there are enough slots
    rw [if_pos henough]
    obtain ⟨a, wiped, hadj, hamRef, hnslot, hnull, harray, hun⟩ :=
      @adjustAmap_spec s.amap s.refs [r.extended slotadd] (r.pageoff + r.len) slotadd 1 henough h.array
        (fun slot => by
          rw [refs_single h hr hone]
          have hadj := adjusted_cover [r] ⟨r.pageoff + r.len, slotadd⟩ 1 slot
          dsimp only at hadj
          rw [hadj, cover_single, cover_single, count_extended]
          push_cast
          ring)
    refine ⟨⟨a, [r.extended slotadd]⟩, wiped, ?_, ⟨?_, fun q hq => ?_, fun hpp q hq => ?_, ?_⟩, hun⟩
    · rw [hadj, herase]
      rfl
    · rw [hamRef, hone]
      rfl
    · rw [mem_singleton.1 hq]
      dsimp only [Aref.extended]
      omega
    · have hfull := h.null (hnull hpp) r hr
      have hzero : slotadd = 0 := by
        rw [hfull] at henough
        dsimp only at henough
        omega
      rw [mem_singleton.1 hq]
      dsimp only
      rw [hnslot, Aref.extended, hfull, hzero]
      rfl
    · intro pp hpp
      dsimp only
      rw [hnslot]
      exact harray pp hpp
  · rw [if_neg henough]
    have hneed : s.amap.nslot < r.pageoff + r.len + slotadd := Nat.lt_of_not_le henough
    by_cases hmax : s.amap.maxslot ≥ r.pageoff + r.len + slotadd
    · -- slots from the padding
      rw [if_pos hmax]
      cases hpp : s.amap.ppref with
      | null =>
        exact ⟨_, _, rfl, grown_ok h hr hone hone rfl (fun _ => hpp) nofun, uncovered_nil _⟩
      | none =>
        exact ⟨_, _, rfl, grown_ok h hr hone hone rfl nofun nofun, uncovered_nil _⟩
      | array pp =>
        obtain ⟨pp', wiped, hext, hchunks, hun⟩ := grown_array h hr hone (h.array pp hpp) hneed
        refine ⟨⟨{ s.amap with nslot := r.pageoff + r.len + slotadd, ppref := .array pp' },
          r.extended slotadd :: s.refs.erase r⟩, wiped, ?_, ?_, ?_⟩
        · simp only [hext]
          rfl
        · refine grown_ok h hr hone hone rfl (by simp) fun pp'' hpp'' => ?_
          cases hpp''
          exact hchunks
        · rw [herase]
          exact hun
    · rw [if_neg hmax]
      by_cases hlarge : r.pageoff + r.len + slotadd ≥ uvmAmapLarge
      · rw [if_pos hlarge]
        exact hsame
      · rw [if_neg hlarge]
        cases hpp : s.amap.ppref with
        | null =>
          cases slMem with
          | false => exact hsame
          | true =>
            exact ⟨_, _, rfl, grown_ok h hr hone hone rfl (fun _ => hpp) nofun, uncovered_nil _⟩
        | none =>
          cases slMem with
          | false => exact hsame
          | true =>
            exact ⟨_, _, rfl, grown_ok h hr hone hone rfl nofun nofun, uncovered_nil _⟩
        | array pp =>
          cases ppMem with
          | false =>
            cases slMem with
            | false =>
              exact ⟨_, _, rfl, ⟨h.amRef, h.bound, nofun, nofun⟩, uncovered_nil _⟩
            | true =>
              exact ⟨_, _, rfl, grown_ok h hr hone hone rfl nofun nofun, uncovered_nil _⟩
          | true =>
            cases slMem with
            | false => exact hsame
            | true =>
              have hcopy : Chunks (fun i => if i < s.amap.nslot then pp i else 0)
                  (fun slot => (cover s.refs slot : Int)) 0 s.amap.nslot :=
                (h.array pp hpp).congr (fun j _ hj => if_pos hj) fun _ _ _ => rfl
              obtain ⟨pp', wiped, hext, hchunks, hun⟩ := grown_array h hr hone hcopy hneed
              refine ⟨⟨{ s.amap with
                  nslot := r.pageoff + r.len + slotadd, maxslot := slotalloc, ppref := .array pp' },
                r.extended slotadd :: s.refs.erase r⟩, wiped, ?_, ?_, ?_⟩
              · simp only [hext, Bool.true_eq_false, if_false]
                rfl
              · refine grown_ok h hr hone hone rfl (by simp) fun pp'' hpp'' => ?_
                cases hpp''
                exact hchunks
              · rw [herase]
                exact hun

end Extend

/-! ## Runs -/

/-- No array is made in the middle of `amap_ref`. -/
def AmapOp.noEstablish (s : AmapSys) : AmapOp → Prop
  | .ref _ len all mem => ¬(s.amap.ppref = .null ∧ all = false ∧ len ≠ s.amap.nslot ∧ mem = true)
  | _ => True

theorem amapStep_ok {s : AmapSys} {op : AmapOp} (h : AmapOk s) (hready : op.ready s)
    (hgood : op.noEstablish s) : EndsOk (amapStep s op) := by
  cases op with
  | ref offset len all mem => exact ref_ok h hready.2 hgood
  | unref r all mem => exact unref_ok h hready.1 hready.2
  | splitref r leftslots mem => exact splitref_ok h hready.1 hready.2.1 hready.2.2
  | copy r mem => exact copy_ok h hready
  | extend r slotadd slotalloc ppMem slMem => exact extend_ok h hready.1 hready.2.1

/-- The states of the runs from `amap_alloc` on whose steps are all `good`. -/
inductive AmapReach (good : AmapSys → AmapOp → Prop) (slots maxslot : Nat) : AmapSys → Prop where
  | alloc : AmapReach good slots maxslot ⟨amapAlloc slots maxslot, [⟨0, slots⟩]⟩
  | step {s s' : AmapSys} {wiped : List (Nat × Nat)} (op : AmapOp) : AmapReach good slots maxslot s →
      op.ready s → good s op → amapStep s op = .ok (s', wiped) → AmapReach good slots maxslot s'

theorem AmapReach.ok {slots maxslot : Nat} {s : AmapSys}
    (h : AmapReach (fun s op => op.noEstablish s) slots maxslot s) : AmapOk s := by
  induction h with
  | alloc =>
    refine ⟨rfl, fun r hr => ?_, fun _ r hr => mem_singleton.1 hr, nofun⟩
    rw [mem_singleton.1 hr]
    exact (Nat.zero_add slots).le
  | step op _ hready hgood hstep ih =>
    obtain ⟨s', wiped, heq, hok, -⟩ := amapStep_ok ih hready hgood
    rw [heq] at hstep
    cases hstep
    exact hok

/-- In every run in which no array is made in the middle of `amap_ref`, an array has for
    every slot the number of references that cover it; the next operation does not panic,
    and wipes slots only that no reference covers. -/
theorem amap_counts_run {slots maxslot : Nat} {s : AmapSys}
    (h : AmapReach (fun s op => op.noEstablish s) slots maxslot s) :
    Counted s ∧ ∀ op : AmapOp, op.ready s → op.noEstablish s →
      ∃ s' wiped, amapStep s op = .ok (s', wiped) ∧ Counted s' ∧ Uncovered s'.refs wiped := by
  refine ⟨h.ok.counted, fun op hready hgood => ?_⟩
  obtain ⟨s', wiped, heq, hok, hun⟩ := amapStep_ok h.ok hready hgood
  exact ⟨s', wiped, heq, hok.counted, hun⟩

/-- A reference to four slots is split, and its second half is dropped. -/
theorem amap_counts_run_split :
    ∃ s pp, AmapReach (fun s op => op.noEstablish s) 4 8 s ∧ s.refs = [⟨0, 2⟩] ∧
      s.amap.ppref = .array pp ∧ ppDecode pp 4 4 0 = [1, 1, 0, 0] ∧ Counted s := by
  have halloc : AmapReach (fun s op => op.noEstablish s) 4 8 ⟨amapAlloc 4 8, [⟨0, 4⟩]⟩ := .alloc
  have hreach := AmapReach.step (.unref ⟨2, 2⟩ false true)
    (.step (.splitref ⟨0, 4⟩ 2 true) halloc
      ⟨mem_singleton.2 rfl, Nat.zero_lt_two, Nat.lt_add_of_pos_right Nat.zero_lt_two⟩
      trivial rfl)
    ⟨mem_cons_of_mem _ (mem_cons_self ..), fun h => nomatch h⟩ trivial rfl
  exact ⟨_, _, hreach, rfl, rfl, by decide, (amap_counts_run hreach).1⟩

/-- A partial reference that makes the array is counted twice, and in all slots. -/
theorem partial_ref_miscounted :
    ∃ s pp, AmapReach (fun _ _ => True) 4 4 s ∧ s.refs = [⟨0, 2⟩, ⟨0, 4⟩] ∧
      s.amap.ppref = .array pp ∧ ppDecode pp 4 4 0 = [3, 3, 2, 2] ∧ ¬Counted s := by
  refine ⟨_, _, .step (.ref 0 2 false true) .alloc ⟨by decide, fun _ => by decide⟩ trivial rfl, rfl,
    rfl, by decide, fun h => ?_⟩
  have hcounts := h _ rfl
  exact absurd hcounts (by decide)

end OpenBsd.Uvm
