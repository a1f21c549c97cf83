/-
  OpenBsd.Dev.SoftraidRaid6Read

  Reads of RAID 6 over virtual contents: what `sr_raid6_rw` regenerates in each of its cases.
-/

import OpenBsd.Dev.SoftraidRaid6Safe

namespace OpenBsd.Dev

open OpenBsd.Lib List

/-! ## Disk-fail flags -/

/-- What the flags tell about the first `n` chunks. -/
structure SrFail.Tells (s : Raid6State) (n chunk pchunk qchunk : Nat) (fail : SrFail) : Prop where
  x : fail.x = true ↔ chunk < n ∧ (s.status chunk).failed = true
  p : fail.p = true ↔ pchunk < n ∧ (s.status pchunk).failed = true
  q : fail.q = true ↔ qchunk < n ∧ (s.status qchunk).failed = true
  y : fail.y = true ↔ fail.fchunk.isSome = true
  other : ∀ f, fail.fchunk = some f →
    f < n ∧ f ≠ chunk ∧ f ≠ pchunk ∧ f ≠ qchunk ∧ (s.status f).failed = true
  noOther : fail.fchunk = none → ∀ i < n, i ≠ chunk → i ≠ pchunk → i ≠ qchunk →
    (s.status i).failed = false

theorem srFail_tells (s : Raid6State) {chunk pchunk qchunk : Nat} (hxp : chunk ≠ pchunk)
    (hxq : chunk ≠ qchunk) (hpq : pchunk ≠ qchunk) : ∀ n,
    SrFail.Tells s n chunk pchunk qchunk ((List.range n).foldl
      (fun fail i =>
        if ! (s.status i).failed then fail
        else if i = qchunk then { fail with q := true }
        else if i = pchunk then { fail with p := true }
        else if i = chunk then { fail with x := true }
        else { fail with y := true, fchunk := some i })
      { x := false, y := false, p := false, q := false, fchunk := none }) := by
  intro n
  induction n with
  | zero => constructor <;> simp
  | succ n ih =>
    rw [range_succ, foldl_append, foldl_cons, foldl_nil]
    generalize (List.range n).foldl _ _ = fail at ih ⊢
    obtain ⟨hx, hp, hq, hy, hother, hno⟩ := ih
    have hkeep : ∀ c, c ≠ n ∨ (s.status c).failed = false →
        (c < n + 1 ∧ (s.status c).failed = true ↔ c < n ∧ (s.status c).failed = true) := by
      rintro c (hc | hc)
      · constructor <;> rintro ⟨hlt, hf⟩ <;> exact ⟨by omega, hf⟩
      · rw [hc]
        simp
    have hother' : ∀ f, fail.fchunk = some f →
        f < n + 1 ∧ f ≠ chunk ∧ f ≠ pchunk ∧ f ≠ qchunk ∧ (s.status f).failed = true :=
      fun f hf => ⟨Nat.lt_succ_of_lt (hother f hf).1, (hother f hf).2⟩
    have hno' : (s.status n).failed = false ∨ n = chunk ∨ n = pchunk ∨ n = qchunk →
        fail.fchunk = none → ∀ i < n + 1, i ≠ chunk → i ≠ pchunk → i ≠ qchunk →
          (s.status i).failed = false := by
      intro hn hnone i hi h1 h2 h3
      by_cases hin : i = n
      · subst hin
        rcases hn with hn | hn | hn | hn
        · exact hn
        · exact absurd hn h1
        · exact absurd hn h2
        · exact absurd hn h3
      · exact hno hnone i (by omega) h1 h2 h3
    cases hf : (s.status n).failed with
    | false =>
      -- nothing is told of a chunk that has not failed
      have hall : ∀ c, c ≠ n ∨ (s.status c).failed = false := fun c => by
        by_cases hc : c = n
        · exact Or.inr (by rw [hc, hf])
        · exact Or.inl hc
      rw [if_pos (by rfl)]
      exact ⟨by rw [hkeep _ (hall _), hx], by rw [hkeep _ (hall _), hp],
        by rw [hkeep _ (hall _), hq], hy, hother', hno' (Or.inl hf)⟩
    | true =>
      rw [if_neg (by decide)]
      by_cases h1 : n = qchunk
      · rw [if_pos h1]
        exact ⟨by rw [hkeep _ (Or.inl (by omega))]; exact hx,
          by rw [hkeep _ (Or.inl (by omega))]; exact hp,
          ⟨fun _ => ⟨by omega, by rw [← h1, hf]⟩, fun _ => rfl⟩, hy, hother',
          hno' (Or.inr (Or.inr (Or.inr h1)))⟩
      rw [if_neg h1]
      by_cases h2 : n = pchunk
      · rw [if_pos h2]
        exact ⟨by rw [hkeep _ (Or.inl (by omega))]; exact hx,
          ⟨fun _ => ⟨by omega, by rw [← h2, hf]⟩, fun _ => rfl⟩,
          by rw [hkeep _ (Or.inl (by omega))]; exact hq, hy, hother',
          hno' (Or.inr (Or.inr (Or.inl h2)))⟩
      rw [if_neg h2]
      by_cases h3 : n = chunk
      · rw [if_pos h3]
        exact ⟨⟨fun _ => ⟨by omega, by rw [← h3, hf]⟩, fun _ => rfl⟩,
          by rw [hkeep _ (Or.inl (by omega))]; exact hp,
          by rw [hkeep _ (Or.inl (by omega))]; exact hq, hy, hother', hno' (Or.inr (Or.inl h3))⟩
      · rw [if_neg h3]
        refine ⟨by rw [hkeep _ (Or.inl (by omega))]; exact hx,
          by rw [hkeep _ (Or.inl (by omega))]; exact hp,
          by rw [hkeep _ (Or.inl (by omega))]; exact hq, ⟨fun _ => rfl, fun _ => rfl⟩, ?_, ?_⟩
        · intro f hfn
          cases hfn
          exact ⟨Nat.lt_succ_self n, h3, h2, h1, hf⟩
        · intro hnone
          cases hnone

/-! ## Buffers -/

section

variable {sd : SrRaid6} {s : Raid6State} {lba len : Nat}

theorem addioP_map (c : Nat) (f : Nat → Block) :
    addioP s c lba ((List.range len).map f) =
      (List.range len).map fun j => f j + s.chunks c (lba + j) := by
  unfold addioP readChunk
  rw [length_map, length_range, xorBuf_map]

theorem foldl_addioP (chunks : List Nat) : ∀ f : Nat → Block,
    chunks.foldl (fun data i => addioP s i lba data) ((List.range len).map f) =
      (List.range len).map fun j => f j + (chunks.map fun i => s.chunks i (lba + j)).sum := by
  induction chunks with
  | nil => simp
  | cons c chunks ih =>
    intro f
    rw [foldl_cons, addioP_map, ih]
    simp only [map_cons, sum_cons, add_assoc]

theorem zipWith_smul (f h : Nat → Block) (gn : XorWord 8) :
    List.zipWith (fun q x => q + gn • x) ((List.range len).map f) ((List.range len).map h) =
      (List.range len).map fun j => f j + gn • h j := by
  simp only [zipWith_map, zipWith_self]

theorem addioQ_map {gn : XorWord 8} (hgn : gn ≠ 0) (c : Nat) (f : Nat → Block) :
    addioQ s c lba ((List.range len).map f) gn =
      .ok ((List.range len).map fun j => f j + gn • s.chunks c (lba + j)) := by
  unfold addioQ readChunk
  rw [gfPremul_ok hgn, ok_bind, srRaid6Xorq_eq, length_map, length_range, zipWith_smul]
  rfl

/-- The loop over the other chunks adds them up, each with its factor. -/
theorem addioOthers_map {but : List Nat} {factor : Nat → Except Raid6Error (XorWord 8)}
    {coef : Nat → XorWord 8}
    (hfactor : ∀ i < sd.chunkNo, i ∉ but → factor i = .ok (coef i) ∧ coef i ≠ 0) (f : Nat → Block) :
    addioOthers sd s but factor lba ((List.range len).map f) =
      .ok ((List.range len).map fun j =>
        f j + ∑ i ∈ (Finset.range sd.chunkNo).filter (· ∉ but), coef i • s.chunks i (lba + j)) := by
  have hlist : ∀ (chunks : List Nat), (∀ i ∈ chunks, i < sd.chunkNo) → ∀ f : Nat → Block,
      chunks.foldlM
        (fun data i => if i ∈ but then .ok data else factor i >>= fun gn => addioQ s i lba data gn)
        ((List.range len).map f) =
      (Except.ok ((List.range len).map fun j =>
        f j + ((chunks.filter (· ∉ but)).map fun i => coef i • s.chunks i (lba + j)).sum) :
          Except Raid6Error (List Block)) := by
    intro chunks
    induction chunks with
    | nil =>
      intro _ f
      simp only [filter_nil, map_nil, sum_nil, add_zero]
      rfl
    | cons i chunks ih =>
      intro hchunks f
      have hrest := fun k hk => hchunks k (mem_cons_of_mem _ hk)
      rw [foldlM_cons]
      by_cases hi : i ∈ but
      · rw [if_pos hi, ok_bind, ih hrest, filter_cons_of_neg (by simpa using hi)]
      · obtain ⟨hok, hne⟩ := hfactor i (hchunks i mem_cons_self) hi
        rw [if_neg hi, hok, ok_bind, addioQ_map hne, ok_bind, ih hrest,
          filter_cons_of_pos (by simpa using hi)]
        simp only [map_cons, sum_cons, add_assoc]
  unfold addioOthers
  rw [hlist _ (fun i hi => mem_range.mp hi)]
  apply congrArg Except.ok
  apply map_congr_left
  intro j _
  rw [sum_filter_range sd.chunkNo (fun i => i ∉ but) fun i => coef i • s.chunks i (lba + j)]
  simp only [decide_eq_true_eq]

end

/-! ## The invariant -/

structure Raid6Inv (sd : SrRaid6) (s : Raid6State) (disk : Disk) : Prop where
  two : ∃ a b, ∀ i < sd.chunkNo, i ≠ a → i ≠ b → s.status i = .sdOnline
  has : ∀ c < sd.chunkNo, (s.status c).failed = false → ∀ lba, s.chunks c lba = sd.virt disk c lba
  last : ∀ c < sd.chunkNo, ∀ lba, s.last c lba = sd.virt disk c lba

section

variable {sd : SrRaid6} {s : Raid6State} {disk : Disk}

theorem Raid6Inv.third (h : Raid6Inv sd s disk) {x y i : Nat} (hx : x < sd.chunkNo)
    (hy : y < sd.chunkNo) (hi : i < sd.chunkNo) (hxy : x ≠ y) (hix : i ≠ x) (hiy : i ≠ y)
    (hfx : (s.status x).failed = true) (hfy : (s.status y).failed = true) :
    (s.status i).failed = false := by
  obtain ⟨a, b, hab⟩ := h.two
  have hon : ∀ c < sd.chunkNo, (s.status c).failed = true → c = a ∨ c = b := by
    intro c hc hf
    by_contra hne
    rw [hab c hc (fun h => hne (Or.inl h)) (fun h => hne (Or.inr h))] at hf
    cases hf
  have hxab := hon x hx hfx
  have hyab := hon y hy hfy
  rw [hab i hi (by omega) (by omega)]
  rfl

theorem gfPow_chunk {c : Nat} (hc : c < sd.chunkNo) : gfPow c = .ok (Gf256.gen ^ c) := by
  have hle := sd.chunkNo_le
  exact gfPow_ok (by omega)

theorem gen_pow_add_ne_zero {x y : Nat} (hx : x < sd.chunkNo) (hy : y < sd.chunkNo) (hne : x ≠ y) :
    Gf256.gen ^ x + Gf256.gen ^ y ≠ 0 := by
  have hle := sd.chunkNo_le
  intro h
  exact hne (Gf256.gen_pow_injective (by omega) (by omega)
    (eq_of_add_eq_zero_self XorWord.add_self h))

/-! ## Reads -/

theorem others_eq {row x : Nat} :
    (Finset.range sd.chunkNo).filter (· ∉ [sd.rowQ row, sd.rowP row, x]) =
      (sd.dataChunks row).erase x := by
  ext c
  simp only [Finset.mem_filter, Finset.mem_erase, Finset.mem_range, sd.mem_dataChunks,
    mem_cons, not_mem_nil, or_false]
  tauto

theorem others_eq_two {row x y : Nat} :
    (Finset.range sd.chunkNo).filter (· ∉ [sd.rowQ row, sd.rowP row, x, y]) =
      ((sd.dataChunks row).erase x).erase y := by
  ext c
  simp only [Finset.mem_filter, Finset.mem_erase, Finset.mem_range, sd.mem_dataChunks,
    mem_cons, not_mem_nil, or_false]
  tauto

theorem part_spec {b j : Nat} (hfit : b % sd.stripBlocks + j ≤ sd.stripBlocks) {i : Nat} (hi : i < j) :
    (sd.layout.lba b + i) / sd.stripBlocks = b / sd.stripBlocks / sd.noChunk ∧
      sd.virt disk (sd.chunk (b / sd.stripBlocks)) (sd.layout.lba b + i) = disk (b + i) := by
  obtain ⟨hdiv, hlba, -⟩ := Layout.within (l := sd.layout) hfit hi
  have hrow : sd.layout.lba (b + i) / sd.stripBlocks = (b + i) / sd.stripBlocks / sd.noChunk :=
    sd.layout.lba_div (b + i)
  have hdiv' : (b + i) / sd.stripBlocks = b / sd.stripBlocks := hdiv
  rw [hlba, hdiv'] at hrow
  refine ⟨hrow, ?_⟩
  rw [← sd.virt_chunk disk (b + i), hlba, hdiv']

section

variable (h : Raid6Inv sd s disk)
include h

/-- `Dx = (Q^Dz*gz)*inv(gx)` -/
theorem Raid6Inv.read_q {row x lba len : Nat} (hx : x ∈ sd.dataChunks row)
    (hrow : ∀ i < len, (lba + i) / sd.stripBlocks = row)
    (hq : (s.status (sd.rowQ row)).failed = false)
    (hz : ∀ z ∈ (sd.dataChunks row).erase x, (s.status z).failed = false) :
    (do
      let gx ← gfPow x
      let gxinv ← gfInv gx
      let data ← addioQ s (sd.rowQ row) lba (List.replicate len 0) gxinv
      addioOthers sd s [sd.rowQ row, sd.rowP row, x]
        (fun i => do
          let gz ← gfPow i
          gfMul gz gxinv) lba data) =
      (Except.ok ((List.range len).map fun i => sd.virt disk x (lba + i)) :
        Except Raid6Error (List Block)) := by
  have hzero : List.replicate len (0 : Block) = (List.range len).map fun _ => 0 := by
    rw [map_const', length_range]
  have hgx := gen_pow_ne_zero x
  have hxlt := (sd.mem_dataChunks.mp hx).1
  rw [gfPow_chunk hxlt, ok_bind, gfInv_ok hgx, ok_bind, hzero, addioQ_map (inv_ne_zero hgx), ok_bind,
    @addioOthers_map sd s lba len _ _ fun i => Gf256.gen ^ i * (Gf256.gen ^ x)⁻¹]
  · congr 1
    apply map_congr_left
    intro i hi
    have hi' := mem_range.mp hi
    have hQ := (sd.virt_rows disk (lba + i)).2
    rw [hrow i hi'] at hQ
    rw [zero_add, h.has _ (sd.rowQ_lt row) hq, hQ, others_eq,
      ← recover_one Block.add_self hx hgx (v := fun z => sd.virt disk z (lba + i))]
    congr 1
    apply Finset.sum_congr rfl
    intro z hzmem
    have hzlt := (sd.mem_dataChunks.mp (Finset.mem_of_mem_erase hzmem)).1
    rw [h.has z hzlt (hz z hzmem)]
  · intro i hi _
    rw [gfPow_chunk hi, ok_bind, gfMul_ok _ (inv_ne_zero hgx)]
    exact ⟨rfl, mul_ne_zero (gen_pow_ne_zero i) (inv_ne_zero hgx)⟩

/-- `Dx` from `P` and `Q`, when `Dy` is lost as well. -/
theorem Raid6Inv.read_pq {row x y lba len : Nat} (hx : x ∈ sd.dataChunks row)
    (hy : y ∈ sd.dataChunks row) (hne : x ≠ y) (hrow : ∀ i < len, (lba + i) / sd.stripBlocks = row)
    (hq : (s.status (sd.rowQ row)).failed = false) (hp : (s.status (sd.rowP row)).failed = false)
    (hz : ∀ z ∈ ((sd.dataChunks row).erase x).erase y, (s.status z).failed = false) :
    (do
      let gx ← gfPow x
      let gy ← gfPow y
      let gxinv ← gfInv (gx + gy)
      let pxinv ← gfMul gy gxinv
      let data ← addioQ s (sd.rowQ row) lba (List.replicate len 0) gxinv
      let data ← addioQ s (sd.rowP row) lba data pxinv
      addioOthers sd s [sd.rowQ row, sd.rowP row, x, y]
        (fun i => do
          let gz ← gfPow i
          let gzinv ← gfMul gz gxinv
          return pxinv + gzinv) lba data) =
      (Except.ok ((List.range len).map fun i => sd.virt disk x (lba + i)) :
        Except Raid6Error (List Block)) := by
  have hzero : List.replicate len (0 : Block) = (List.range len).map fun _ => 0 := by
    rw [map_const', length_range]
  have hxlt := (sd.mem_dataChunks.mp hx).1
  have hylt := (sd.mem_dataChunks.mp hy).1
  have hg := gen_pow_add_ne_zero hxlt hylt hne
  have hginv := inv_ne_zero hg
  rw [gfPow_chunk hxlt, ok_bind, gfPow_chunk hylt, ok_bind, gfInv_ok hg, ok_bind, gfMul_ok _ hginv,
    ok_bind, hzero, addioQ_map hginv, ok_bind,
    addioQ_map (mul_ne_zero (gen_pow_ne_zero y) hginv), ok_bind,
    @addioOthers_map sd s lba len _ _ fun i => Gf256.gen ^ y * (Gf256.gen ^ x + Gf256.gen ^ y)⁻¹ +
      Gf256.gen ^ i * (Gf256.gen ^ x + Gf256.gen ^ y)⁻¹]
  · congr 1
    apply map_congr_left
    intro i hi
    have hi' := mem_range.mp hi
    obtain ⟨hP, hQ⟩ := sd.virt_rows disk (lba + i)
    rw [hrow i hi'] at hP hQ
    rw [zero_add, h.has _ (sd.rowQ_lt row) hq, h.has _ (sd.rowP_lt row) hp, hQ, hP, others_eq_two,
      ← recover_two Block.add_self hx hy hne hg (v := fun z => sd.virt disk z (lba + i))]
    congr 1
    apply Finset.sum_congr rfl
    intro z hzmem
    have hzlt := (sd.mem_dataChunks.mp (Finset.mem_of_mem_erase (Finset.mem_of_mem_erase hzmem))).1
    rw [h.has z hzlt (hz z hzmem)]
  · intro i hi hbut
    have hiy : i ≠ y := fun heq => hbut (by simp [heq])
    rw [gfPow_chunk hi, ok_bind, gfMul_ok _ hginv, ok_bind]
    refine ⟨rfl, ?_⟩
    rw [← add_mul]
    exact mul_ne_zero (gen_pow_add_ne_zero hylt hi hiy.symm) hginv

/-- `Dx = P^Dz` -/
theorem Raid6Inv.read_p {row x lba len : Nat} (hx : x ∈ sd.dataChunks row)
    (hrow : ∀ i < len, (lba + i) / sd.stripBlocks = row)
    (hp : (s.status (sd.rowP row)).failed = false)
    (hz : ∀ z ∈ (sd.dataChunks row).erase x, (s.status z).failed = false) :
    ((List.range sd.chunkNo).filter fun i => i ≠ x ∧ i ≠ sd.rowQ row).foldl
        (fun data i => addioP s i lba data) (List.replicate len 0) =
      (List.range len).map fun i => sd.virt disk x (lba + i) := by
  have hzero : List.replicate len (0 : Block) = (List.range len).map fun _ => 0 := by
    rw [map_const', length_range]
  have hset : (Finset.range sd.chunkNo).filter (fun i => decide (i ≠ x ∧ i ≠ sd.rowQ row) = true) =
      insert (sd.rowP row) ((sd.dataChunks row).erase x) := by
    have hlt := sd.rowP_lt row
    have hpq := sd.rowP_ne_rowQ row
    have hxp := (sd.mem_dataChunks.mp hx).2.1
    ext c
    simp only [Finset.mem_filter, Finset.mem_insert, Finset.mem_erase, Finset.mem_range,
      sd.mem_dataChunks, decide_eq_true_eq]
    constructor
    · rintro ⟨hc, hcx, hcq⟩
      by_cases hcp : c = sd.rowP row
      · exact Or.inl hcp
      · exact Or.inr ⟨hcx, hc, hcp, hcq⟩
    · rintro (rfl | ⟨hcx, hc, -, hcq⟩)
      · exact ⟨hlt, hxp.symm, hpq⟩
      · exact ⟨hc, hcx, hcq⟩
  have hnotmem : sd.rowP row ∉ (sd.dataChunks row).erase x := fun hmem =>
    (sd.mem_dataChunks.mp (Finset.mem_of_mem_erase hmem)).2.1 rfl
  rw [hzero]
  have hfold := @foldl_addioP s lba len
    ((List.range sd.chunkNo).filter fun i => i ≠ x ∧ i ≠ sd.rowQ row) fun _ => 0
  rw [hfold]
  apply map_congr_left
  intro i hi
  have hP := (sd.virt_rows disk (lba + i)).1
  rw [hrow i (mem_range.mp hi)] at hP
  rw [zero_add, sum_filter_range sd.chunkNo (fun i => i ≠ x ∧ i ≠ sd.rowQ row), hset,
    Finset.sum_insert hnotmem, h.has _ (sd.rowP_lt row) hp, hP,
    ← sum_add_erase Block.add_self hx fun z => sd.virt disk z (lba + i)]
  congr 1
  apply Finset.sum_congr rfl
  intro z hzmem
  have hzlt := (sd.mem_dataChunks.mp (Finset.mem_of_mem_erase hzmem)).1
  exact h.has z hzlt (hz z hzmem) _

/-- A part of a strip is read as the disk has it, whichever chunks have failed. -/
theorem Raid6Inv.readStrip {b j : Nat} {strip : Strip} (hno : strip.stripNo = b / sd.stripBlocks)
    (hlba : strip.lba = sd.layout.lba b) (hlen : strip.length >>> devBshift = j)
    (hfit : b % sd.stripBlocks + j ≤ sd.stripBlocks) :
    srRaid6ReadStrip sd s strip = .ok ((List.range j).map fun i => disk (b + i)) := by
  have hdisk : (List.range j).map (fun i => disk (b + i)) = (List.range j).map fun i =>
      sd.virt disk (sd.chunk (b / sd.stripBlocks)) (sd.layout.lba b + i) := by
    apply map_congr_left
    intro i hi
    exact (part_spec hfit (mem_range.mp hi)).2.symm
  have hrow : ∀ i < j, (sd.layout.lba b + i) / sd.stripBlocks = b / sd.stripBlocks / sd.noChunk :=
    fun i hi => (@part_spec sd disk b j hfit i hi).1
  have hx : sd.chunk (b / sd.stripBlocks) ∈ sd.dataChunks (b / sd.stripBlocks / sd.noChunk) :=
    sd.mem_dataChunks.mpr ⟨sd.chunk_lt _, sd.chunk_ne_pchunk _, sd.chunk_ne_qchunk _⟩
  have htells := srFail_tells s (sd.chunk_ne_pchunk (b / sd.stripBlocks))
    (sd.chunk_ne_qchunk (b / sd.stripBlocks)) (sd.rowP_ne_rowQ _) sd.chunkNo
  rw [hdisk]
  unfold srRaid6ReadStrip srFail
  rw [hno, hlba, hlen]
  dsimp only
  generalize (List.range sd.chunkNo).foldl _ _ = fail at htells ⊢
  rw [sd.pchunk_eq, sd.qchunk_eq] at htells ⊢
  generalize sd.chunk (b / sd.stripBlocks) = x at *
  generalize b / sd.stripBlocks / sd.noChunk = row at *
  generalize sd.layout.lba b = lba at *
  obtain ⟨hxlt, hxp, hxq⟩ := sd.mem_dataChunks.mp hx
  have hplt := sd.rowP_lt row
  have hqlt := sd.rowQ_lt row
  have hpq := sd.rowP_ne_rowQ row
  by_cases hfx : fail.x = true
  · have hxfail := (htells.x.mp hfx).2
    rw [if_neg (by rw [hfx]; decide)]
    by_cases hfp : fail.p = true
    · -- Dx, P failed
      have hpfail := (htells.p.mp hfp).2
      rw [if_pos hfp]
      apply h.read_q hx hrow
      · exact h.third hxlt hplt hqlt hxp hxq.symm hpq.symm hxfail hpfail
      · intro z hz
        obtain ⟨hzx, hzmem⟩ := Finset.mem_erase.mp hz
        obtain ⟨hzlt, hzp, -⟩ := sd.mem_dataChunks.mp hzmem
        exact h.third hxlt hplt hzlt hxp hzx hzp hxfail hpfail
    · rw [if_neg hfp]
      have hpgood : (s.status (sd.rowP row)).failed = false :=
        Bool.eq_false_iff.mpr fun hf => hfp (htells.p.mpr ⟨hplt, hf⟩)
      cases hf : fail.fchunk with
      | some y =>
        -- Dx, Dy failed
        obtain ⟨hylt, hyx, hyp, hyq, hyfail⟩ := htells.other y hf
        rw [if_pos (htells.y.mpr (by rw [hf]; rfl))]
        dsimp only
        apply h.read_pq hx (sd.mem_dataChunks.mpr ⟨hylt, hyp, hyq⟩) hyx.symm hrow
        · exact h.third hxlt hylt hqlt hyx.symm hxq.symm hyq.symm hxfail hyfail
        · exact hpgood
        · intro z hz
          obtain ⟨hzy, hz⟩ := Finset.mem_erase.mp hz
          obtain ⟨hzx, hzmem⟩ := Finset.mem_erase.mp hz
          exact h.third hxlt hylt (sd.mem_dataChunks.mp hzmem).1 hyx.symm hzx hzy hxfail hyfail
      | none =>
        -- single disk (Dx) or (Dx+Q)
        rw [if_neg (by rw [htells.y, hf]; decide)]
        rw [h.read_p hx hrow hpgood]
        intro z hz
        obtain ⟨hzx, hzmem⟩ := Finset.mem_erase.mp hz
        obtain ⟨hzlt, hzp, hzq⟩ := sd.mem_dataChunks.mp hzmem
        exact htells.noOther hf z hzlt hzx hzp hzq
  · have hgood : (s.status x).failed = false :=
      Bool.eq_false_iff.mpr fun hf => hfx (htells.x.mpr ⟨hxlt, hf⟩)
    rw [if_pos (by rw [Bool.eq_false_iff.mpr hfx]; rfl), readChunk]
    congr 1
    apply map_congr_left
    intro i _
    exact h.has x hxlt hgood _

theorem Raid6Inv.readStrips {b k : Nat} {strips : List Strip} (hcov : Covers sd.layout b k strips) :
    srRaid6ReadStrips sd s strips = .ok ((List.range k).map fun i => disk (b + i)) := by
  induction hcov with
  | nil b => rfl
  | @cons b k j strip rest hj hjk hlen hno hlba hfit _ ih =>
    unfold srRaid6ReadStrips
    rw [h.readStrip hno hlba hlen hfit, ok_bind, ih, ok_bind]
    show Except.ok _ = Except.ok _
    congr 1
    have hk : k = j + (k - j) := by omega
    conv_rhs => rw [hk]
    rw [range_add, map_append, map_map]
    simp only [Function.comp_def, Nat.add_assoc]

end

end

end OpenBsd.Dev
