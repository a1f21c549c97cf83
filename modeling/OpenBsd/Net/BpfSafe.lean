/-
  OpenBsd.Net.BpfSafe

  The validator is sound: a program that `bpf_validate` accepts runs to a return of
  `bpf_filter` in as many steps as it has instructions, without a fault, on every packet of
  `Packet.StraddleOk`, and on every other packet some accepted program does fault.

  `BpfOp.Checked` says what the bits the validator looks at tell about the whole code, label
  by label.
-/

import OpenBsd.Net.BpfLoad

namespace OpenBsd.Net

/-! ## What an accepted instruction is known to do -/

theorem code_of_ofCode {code : UInt16} {op : BpfOp} (h : BpfOp.ofCode code = some op) :
    code = op.code := by
  have hcode := List.find?_some h
  exact (beq_iff_eq.mp hcode).symm

/-- What the checks of instruction `i` tell where the interpreter takes label `op`. -/
def BpfOp.Checked (len i : Nat) (p : BpfInsn) : BpfOp → Prop
  | .ldMem | .ldxMem | .st | .stx => p.k.toNat < bpfMemwords
  | .alu .div .k => p.k ≠ 0
  | .ja => i + 1 + p.k.toNat < len
  | .jmp _ _ => i + 1 + p.jt.toNat < len ∧ i + 1 + p.jf.toNat < len
  | _ => True

section Insn

variable {maxbufsize : UInt32} {len i : Nat} {p : BpfInsn}

theorem mem_in_range (h : (!decide (p.k.toNat ≥ bpfMemwords)) = true) :
    p.k.toNat < bpfMemwords := by
  simpa using h

theorem jump_in_range {j : UInt8} (hi : i < len) (hlen : len ≤ bpfMaxinsns)
    (h : ¬ UInt32.ofNat i + 1 + j.toUInt32 ≥ UInt32.ofNat len) : i + 1 + j.toNat < len := by
  have hj := j.toNat_lt
  rw [bpfMaxinsns] at hlen
  rw [ge_iff_le, UInt32.le_iff_toNat_le, UInt32.toNat_add, UInt32.toNat_add,
    UInt32.toNat_ofNat', UInt32.toNat_ofNat', UInt8.toNat_toUInt32,
    show (1 : UInt32).toNat = 1 from rfl] at h
  omega

theorem jumps_in_range (hi : i < len) (hlen : len ≤ bpfMaxinsns)
    (h : (!(decide (UInt32.ofNat i + 1 + p.jt.toUInt32 ≥ .ofNat len) ||
      decide (UInt32.ofNat i + 1 + p.jf.toUInt32 ≥ .ofNat len))) = true) :
    i + 1 + p.jt.toNat < len ∧ i + 1 + p.jf.toNat < len := by
  rw [Bool.not_eq_true', Bool.or_eq_false_iff, decide_eq_false_iff_not,
    decide_eq_false_iff_not] at h
  exact ⟨jump_in_range hi hlen h.1, jump_in_range hi hlen h.2⟩

theorem ja_in_range (hi : i < len) (hlen : len ≤ bpfMaxinsns)
    (h : (!(decide (UInt32.ofNat i + 1 + p.k < UInt32.ofNat i + 1) ||
      decide (UInt32.ofNat i + 1 + p.k ≥ .ofNat len))) = true) : i + 1 + p.k.toNat < len := by
  rw [Bool.not_eq_true', Bool.or_eq_false_iff, decide_eq_false_iff_not,
    decide_eq_false_iff_not] at h
  obtain ⟨hwrap, hrange⟩ := h
  have hk := p.k.toNat_lt
  rw [bpfMaxinsns] at hlen
  rw [UInt32.lt_iff_toNat_lt, UInt32.toNat_add, UInt32.toNat_add, UInt32.toNat_ofNat',
    show (1 : UInt32).toNat = 1 from rfl] at hwrap
  rw [ge_iff_le, UInt32.le_iff_toNat_le, UInt32.toNat_add, UInt32.toNat_add,
    UInt32.toNat_ofNat', UInt32.toNat_ofNat', show (1 : UInt32).toNat = 1 from rfl] at hrange
  omega

theorem div_ne_zero (h : (!(true && p.k == 0)) = true) : p.k ≠ 0 := by
  simpa using h

theorem checked_of_validateInsn {op : BpfOp}
    (h : validateInsn maxbufsize (.ofNat len) (.ofNat i) p = true)
    (hop : BpfOp.ofCode p.code = some op) (hi : i < len) (hlen : len ≤ bpfMaxinsns) :
    op.Checked len i p := by
  -- with the label known the tests on the class, mode and operation bits compute
  have hcode := code_of_ofCode hop
  cases op with
  | ldMem | ldxMem | st | stx =>
    simp only [validateInsn, hcode] at h
    exact mem_in_range h
  | ja =>
    simp only [validateInsn, hcode] at h
    exact ja_in_range hi hlen h
  | jmp op src =>
    cases op <;> cases src <;>
    · simp only [validateInsn, hcode] at h
      exact jumps_in_range hi hlen h
  | alu op src =>
    cases op with
    | div =>
      cases src with
      | k =>
        simp only [validateInsn, hcode] at h
        exact div_ne_zero h
      | x => trivial
    | _ => trivial
  | _ => trivial

theorem ret_of_class {op : BpfOp} (hop : BpfOp.ofCode p.code = some op)
    (hcls : (bpfClass p.code == bpfRet) = true) : op = .retK ∨ op = .retA := by
  rw [code_of_ofCode hop] at hcls
  cases op with
  | retK => exact .inl rfl
  | retA => exact .inr rfl
  | ldAbs size | ldInd size => cases size <;> exact absurd hcls (by decide)
  | jmp op src => cases op <;> cases src <;> exact absurd hcls (by decide)
  | alu op src => cases op <;> cases src <;> exact absurd hcls (by decide)
  | _ => exact absurd hcls (by decide)

end Insn

/-! ## One step -/

/-- The program counter moves forward inside the program, or the filter returns. -/
def BpfNext.Forward (len pc : Nat) : BpfNext → Prop
  | .ret _ => True
  | .go s => pc < s.pc ∧ s.pc < len

section Step

variable {len : Nat} {pkt : Packet} {wirelen : UInt32} {p : BpfInsn} {s : BpfState}

theorem forward_continue {s' : BpfState} (hpc : s'.pc = s.pc) (hnext : s.pc + 1 < len) :
    s'.continue.Forward len s.pc := by
  refine ⟨?_, ?_⟩
  · show s.pc < s'.pc + 1
    omega
  · show s'.pc + 1 < len
    omega

theorem forward_jump {off : Nat} (h : s.pc + 1 + off < len) : (s.jump off).Forward len s.pc := by
  refine ⟨?_, ?_⟩
  · show s.pc < s.pc + off + 1
    omega
  · show s.pc + off + 1 < len
    omega

theorem forward_loaded {f : UInt32 → BpfState} (r : Option UInt32)
    (hf : ∀ v, (f v).pc = s.pc) (hnext : s.pc + 1 < len) : (loaded r f).Forward len s.pc := by
  cases r with
  | none => trivial
  | some v => exact forward_continue (hf v) hnext

theorem forward_bind {α : Type} {x : Except BpfFault α} {f : α → Except BpfFault BpfNext}
    {v : α} {pc : Nat} (hx : x = .ok v) (hf : ∃ r, f v = .ok r ∧ r.Forward len pc) :
    ∃ r, (x >>= f) = .ok r ∧ r.Forward len pc := by
  subst hx
  exact hf

theorem readMem_ok {k : UInt32} (h : k.toNat < bpfMemwords) : ∃ v, s.readMem k = .ok v := by
  simp [BpfState.readMem, Vector.getElem?_eq_getElem h]

theorem writeMem_ok {k v : UInt32} (h : k.toNat < bpfMemwords) :
    ∃ s', s.writeMem k v = .ok s' ∧ s'.pc = s.pc :=
  ⟨_, dif_pos h, rfl⟩

theorem apply_ok {op : BpfAluOp} {a v : UInt32} (h : op = .div → v ≠ 0) :
    ∃ w, op.apply a v = .ok w := by
  cases op with
  | div => exact ⟨a / v, if_neg (h rfl)⟩
  | _ => exact ⟨_, rfl⟩

/-- The `switch` on a checked instruction; all but the returns have another one
    behind them. -/
theorem exec_forward {op : BpfOp} (hload : pkt.LoadsOk) (hop : op.Checked len s.pc p)
    (hnext : op ≠ .retK → op ≠ .retA → s.pc + 1 < len) :
    ∃ r, exec pkt wirelen p s op = .ok r ∧ r.Forward len s.pc := by
  cases op with
  | retK | retA => exact ⟨_, rfl, trivial⟩
  -- one case for each kind of label: what it needs of the checks, and where it goes
  | ldLen | ldxLen | ldImm | ldxImm | neg | tax | txa =>
    exact ⟨_, rfl, forward_continue rfl (hnext nofun nofun)⟩
  | ldAbs size =>
    obtain ⟨r, hr⟩ := hload size p.k
    exact forward_bind hr ⟨_, rfl, forward_loaded r (fun _ => rfl) (hnext nofun nofun)⟩
  | ldInd size =>
    obtain ⟨r, hr⟩ := hload size (s.x + p.k)
    exact forward_bind hr ⟨_, rfl, forward_loaded r (fun _ => rfl) (hnext nofun nofun)⟩
  | ldxMsh =>
    obtain ⟨r, hr⟩ := hload .b p.k
    exact forward_bind hr ⟨_, rfl, forward_loaded r (fun _ => rfl) (hnext nofun nofun)⟩
  | ldMem | ldxMem =>
    obtain ⟨v, hv⟩ := readMem_ok (s := s) hop
    exact forward_bind hv ⟨_, rfl, forward_continue rfl (hnext nofun nofun)⟩
  | st =>
    obtain ⟨s', hs', hpc⟩ := writeMem_ok (s := s) (v := s.a) hop
    exact forward_bind hs' ⟨_, rfl, forward_continue hpc (hnext nofun nofun)⟩
  | stx =>
    obtain ⟨s', hs', hpc⟩ := writeMem_ok (s := s) (v := s.x) hop
    exact forward_bind hs' ⟨_, rfl, forward_continue hpc (hnext nofun nofun)⟩
  | ja => exact ⟨_, rfl, forward_jump hop⟩
  | jmp op src =>
    obtain ⟨hjt, hjf⟩ := hop
    refine ⟨_, rfl, forward_jump ?_⟩
    split
    · exact hjt
    · exact hjf
  | alu op src =>
    by_cases hzero : op = .div ∧ src = .x ∧ s.x = 0
    · exact ⟨.ret 0, by rw [exec, if_pos hzero]; rfl, trivial⟩
    · -- a constant divisor was checked, X was tested just now
      have hdiv : op = .div → src.value p s ≠ 0 := by
        rintro rfl
        cases src with
        | k => exact hop
        | x => exact fun hx => hzero ⟨rfl, rfl, hx⟩
      obtain ⟨v, hv⟩ := apply_ok (a := s.a) hdiv
      rw [exec, if_neg hzero]
      exact forward_bind hv ⟨_, rfl, forward_continue rfl (hnext nofun nofun)⟩

end Step

/-! ## Whole runs -/

section Run

variable {maxbufsize : UInt32} {f : List BpfInsn} {pkt : Packet} {wirelen : UInt32}

/-- What `bpf_validate` has looked at when it accepts. -/
structure Accepted (maxbufsize : UInt32) (f : List BpfInsn) : Prop where
  length_le : f.length ≤ bpfMaxinsns
  insn : ∀ i p, f[i]? = some p →
    validateInsn maxbufsize (.ofNat f.length) (.ofNat i) p = true
  last : ∃ p, f[f.length - 1]? = some p ∧ (bpfClass p.code == bpfRet) = true

theorem accepted_of_validate (hvalid : bpfValidate maxbufsize f = true) :
    Accepted maxbufsize f := by
  rw [bpfValidate] at hvalid
  split at hvalid
  · cases hvalid
  · rename_i hlen
    simp only [Bool.or_eq_true, decide_eq_true_eq, not_or, Nat.not_lt] at hlen
    obtain ⟨hall, hlast⟩ := Bool.and_eq_true_iff.mp hvalid
    refine ⟨hlen.2, fun i p hp => ?_, ?_⟩
    · exact List.all_eq_true.mp hall (p, i) (List.mem_zipIdx_iff_getElem?.mpr hp)
    · rw [List.getLast?_eq_getElem?] at hlast
      cases hp : f[f.length - 1]? with
      | none => simp [hp] at hlast
      | some p => exact ⟨p, rfl, by simpa [hp] using hlast⟩

theorem step_forward (hacc : Accepted maxbufsize f) (hload : pkt.LoadsOk)
    {s : BpfState} (hpc : s.pc < f.length) :
    ∃ r, bpfStep f pkt wirelen s = .ok r ∧ r.Forward f.length s.pc := by
  obtain ⟨p, hp⟩ : ∃ p, f[s.pc]? = some p := ⟨_, List.getElem?_eq_getElem hpc⟩
  simp only [bpfStep, hp]
  cases hop : BpfOp.ofCode p.code with
  | none => exact ⟨.ret 0, rfl, trivial⟩
  | some op =>
    have hchecked := checked_of_validateInsn (hacc.insn s.pc p hp) hop hpc hacc.length_le
    refine exec_forward hload hchecked fun hretK hretA => ?_
    -- the last instruction is a return, so this one is not the last
    by_contra hlast
    obtain ⟨p', hp', hcls⟩ := hacc.last
    rw [show f.length - 1 = s.pc by omega, hp, Option.some.injEq] at hp'
    subst hp'
    obtain rfl | rfl := ret_of_class hop hcls
    · exact hretK rfl
    · exact hretA rfl

theorem run_returns (hacc : Accepted maxbufsize f) (hload : pkt.LoadsOk)
    {fuel : Nat} {s : BpfState} (hpc : s.pc < f.length) (hfuel : f.length ≤ s.pc + fuel) :
    ∃ v, bpfRun f pkt wirelen fuel s = .ok (some v) := by
  induction fuel generalizing s with
  | zero => omega
  | succ fuel ih =>
    obtain ⟨r, hr, hforward⟩ : ∃ r, bpfStep f pkt wirelen s = .ok r ∧ r.Forward f.length s.pc :=
      step_forward hacc hload hpc
    rw [bpfRun, hr]
    cases r with
    | ret v => exact ⟨v, rfl⟩
    | go s' =>
      obtain ⟨hlt, hpc'⟩ := hforward
      exact ih hpc' (by omega)

theorem filter_returns (hvalid : bpfValidate maxbufsize f = true) (hload : pkt.LoadsOk) :
    ∃ v, bpfFilter (some f) pkt wirelen = .ok (some v) := by
  have hacc := accepted_of_validate hvalid
  have hpos : 0 < f.length := by
    obtain ⟨p, hp, -⟩ := hacc.last
    have := (List.getElem?_eq_some_iff.mp hp).1
    omega
  exact run_returns hacc hload hpos (Nat.le_add_left _ _)

end Run

/-! ## Programs that try one load -/

/-- `ldx #k; ld [x + 0]; last`: the offset of an indirect load is not bounded. -/
def readout (size : BpfSize) (k : UInt32) (last : BpfInsn) : List BpfInsn :=
  [bpfStmt (bpfLdx ||| bpfImm) k, bpfStmt (bpfLd ||| size.code ||| bpfInd) 0, last]

theorem validate_readout {maxbufsize : UInt32} (hmax : bpfMinbufsize ≤ maxbufsize)
    (size : BpfSize) (k : UInt32) {last : BpfInsn}
    (hret : validateInsn maxbufsize 3 2 last = true)
    (hlast : (bpfClass last.code == bpfRet) = true) :
    bpfValidate maxbufsize (readout size k last) = true := by
  have hpos : (!decide ((0 : UInt32) ≥ maxbufsize)) = true := by
    rw [Bool.not_eq_true', decide_eq_false_iff_not, ge_iff_le, UInt32.not_le]
    exact UInt32.lt_of_lt_of_le (by decide) hmax
  -- the load is the only instruction with a check to pass
  have hload : validateInsn maxbufsize 3 1 (bpfStmt (bpfLd ||| size.code ||| bpfInd) 0) = true := by
    cases size <;> exact hpos
  have hldx : validateInsn maxbufsize 3 0 (bpfStmt (bpfLdx ||| bpfImm) k) = true := by
    have hcls : (bpfClass (bpfLdx ||| bpfImm) == bpfLdx) = true := by decide
    have hmode : (bpfMode (bpfLdx ||| bpfImm) == bpfImm) = true := by decide
    simp only [validateInsn, bpfStmt, hcls, hmode, Bool.or_true, if_true]
  have hall : (readout size k last).zipIdx.all
      (fun p => validateInsn maxbufsize 3 (.ofNat p.2) p.1) = true := by
    simp only [readout, List.zipIdx_cons, List.zipIdx_nil, List.all_cons, List.all_nil]
    exact Bool.and_eq_true_iff.mpr ⟨hldx, Bool.and_eq_true_iff.mpr ⟨hload,
      Bool.and_eq_true_iff.mpr ⟨hret, rfl⟩⟩⟩
  exact Bool.and_eq_true_iff.mpr ⟨hall, hlast⟩

theorem filter_readout (pkt : Packet) (size : BpfSize) (k : UInt32) (last : BpfInsn)
    (wirelen : UInt32) :
    bpfFilter (some (readout size k last)) pkt wirelen =
      match size.load pkt k with
      | .error e => .error e
      | .ok none => .ok (some 0)
      | .ok (some v) =>
        bpfRun (readout size k last) pkt wirelen 1 { BpfState.init with pc := 2, a := v, x := k } := by
  have hldx : bpfStep (readout size k last) pkt wirelen .init =
      .ok (.go { BpfState.init with pc := 1, x := k }) := rfl
  -- the second instruction is the load, at offset X + 0
  have hld : bpfStep (readout size k last) pkt wirelen { BpfState.init with pc := 1, x := k } =
      exec pkt wirelen (bpfStmt (bpfLd ||| size.code ||| bpfInd) 0)
        { BpfState.init with pc := 1, x := k } (.ldInd size) := by
    cases size <;> rfl
  have hk : k + (bpfStmt (bpfLd ||| size.code ||| bpfInd) 0).k = k := UInt32.add_zero k
  show bpfRun (readout size k last) pkt wirelen 3 .init = _
  rw [bpfRun, hldx]
  dsimp only
  rw [bpfRun, hld, exec]
  dsimp only
  rw [hk]
  cases size.load pkt k with
  | error e => rfl
  | ok r =>
    cases r with
    | none => rfl
    | some v => rfl

/-- `ldx #k; ld [x + 0]; ret #0` -/
def probe (size : BpfSize) (k : UInt32) : List BpfInsn :=
  [bpfStmt (bpfLdx ||| bpfImm) k, bpfStmt (bpfLd ||| size.code ||| bpfInd) 0,
    bpfStmt (bpfRet ||| bpfK) 0]

theorem validate_probe {maxbufsize : UInt32} (hmax : bpfMinbufsize ≤ maxbufsize)
    (size : BpfSize) (k : UInt32) : bpfValidate maxbufsize (probe size k) = true :=
  validate_readout hmax size k rfl rfl

theorem filter_probe {pkt : Packet} {size : BpfSize} {k : UInt32} {e : BpfFault}
    (h : size.load pkt k = .error e) (wirelen : UInt32) :
    bpfFilter (some (probe size k)) pkt wirelen = .error e := by
  have hrun := filter_readout pkt size k (bpfStmt (bpfRet ||| bpfK) 0) wirelen
  rw [h] at hrun
  exact hrun

/-! ## The validator is sound -/

/-- Every program the validator accepts for `maxbufsize` runs on `pkt` to a return of
    the filter, within as many turns as it has instructions: no instruction outside the
    program is fetched, no word outside `mem` is used, nothing is divided by zero and
    no byte outside the packet is read. -/
def BpfSafe (maxbufsize : UInt32) (pkt : Packet) : Prop :=
  ∀ f : List BpfInsn, bpfValidate maxbufsize f = true →
    ∀ wirelen : UInt32, ∃ v, bpfFilter (some f) pkt wirelen = .ok (some v)

/-- Every buffer is safe.  A chain is safe exactly if no mbuf with data whose last byte
    lies below offset `2 ^ 32` is followed by an empty one, and no mbuf of `2 ^ 32 - 3`
    bytes or more starts below offset 4. -/
theorem bpfSafe_iff (maxbufsize : UInt32) (hmax : bpfMinbufsize ≤ maxbufsize) (pkt : Packet) :
    BpfSafe maxbufsize pkt ↔ pkt.StraddleOk := by
  rw [← loadsOk_iff]
  constructor
  · intro hsafe size k
    cases hload : size.load pkt k with
    | ok r => exact ⟨r, rfl⟩
    | error e =>
      obtain ⟨v, hv⟩ := hsafe (probe size k) (validate_probe hmax size k) 0
      rw [filter_probe hload] at hv
      cases hv
  · intro hload f hvalid wirelen
    exact filter_returns hvalid hload

/-- A packet cut behind its third byte, with `bpf_maxbufsize` as it starts. -/
theorem bpfSafe_iff_cut :
    bpfMinbufsize ≤ bpfMaxbufsize ∧
      BpfSafe bpfMaxbufsize
        (.chain ⟨[], by decide⟩ [⟨[0x45, 0, 0], by decide⟩, ⟨[0x54], by decide⟩]) :=
  ⟨by decide, (bpfSafe_iff bpfMaxbufsize (by decide) _).mpr (by decide)⟩

/-- `ldh [0]; ret #1` is accepted, and reads the first byte of an empty mbuf. -/
theorem bpf_reads_empty_mbuf :
    bpfValidate bpfMaxbufsize
        [bpfStmt (bpfLd ||| bpfH ||| bpfAbs) 0, bpfStmt (bpfRet ||| bpfK) 1] = true ∧
      bpfFilter (some [bpfStmt (bpfLd ||| bpfH ||| bpfAbs) 0, bpfStmt (bpfRet ||| bpfK) 1])
        (.chain ⟨[0x45], by decide⟩ [⟨[], by decide⟩]) 1 = .error .read ∧
      ¬ BpfSafe bpfMaxbufsize (.chain ⟨[0x45], by decide⟩ [⟨[], by decide⟩]) := by
  have hvalid : bpfValidate bpfMaxbufsize
      [bpfStmt (bpfLd ||| bpfH ||| bpfAbs) 0, bpfStmt (bpfRet ||| bpfK) 1] = true := by decide
  have hread : bpfFilter
      (some [bpfStmt (bpfLd ||| bpfH ||| bpfAbs) 0, bpfStmt (bpfRet ||| bpfK) 1])
      (.chain ⟨[0x45], by decide⟩ [⟨[], by decide⟩]) 1 = .error .read := by rfl
  refine ⟨hvalid, hread, fun hsafe => ?_⟩
  obtain ⟨v, hv⟩ := hsafe _ hvalid 1
  rw [hread] at hv
  cases hv

end OpenBsd.Net
