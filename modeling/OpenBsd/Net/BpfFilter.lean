/-
  OpenBsd.Net.BpfFilter

  The packet filter machine of `net/bpf_filter.c` as the kernel compiles it: the
  loads from a buffer or from a chain of mbufs, `bpf_filter` and `bpf_validate`.

  What C leaves undefined is a fault here: an instruction outside the program, a
  scratch word outside `mem`, a division by zero, a byte outside the data it is
  read from.  Shift counts are taken modulo 32, as the hardware takes them.
-/

import Mathlib.Data.List.Basic
import Mathlib.Tactic.Ring

namespace OpenBsd.Net

/-! ## Instruction codes -/

def bpfMaxinsns : Nat := 512

def bpfMemwords : Nat := 16

/-- `BPF_MINBUFSIZE`, below which `bpf_sysctl` never sets `bpf_maxbufsize`. -/
def bpfMinbufsize : UInt32 := 32

/-- `BPF_MAXBUFSIZE`, the first value of `bpf_maxbufsize`. -/
def bpfMaxbufsize : UInt32 := 2 * 1024 * 1024

-- instruction classes
def bpfLd : UInt16 := 0x00
def bpfLdx : UInt16 := 0x01
def bpfSt : UInt16 := 0x02
def bpfStx : UInt16 := 0x03
def bpfAlu : UInt16 := 0x04
def bpfJmp : UInt16 := 0x05
def bpfRet : UInt16 := 0x06
def bpfMisc : UInt16 := 0x07

-- ld/ldx fields
def bpfW : UInt16 := 0x00
def bpfH : UInt16 := 0x08
def bpfB : UInt16 := 0x10
def bpfImm : UInt16 := 0x00
def bpfAbs : UInt16 := 0x20
def bpfInd : UInt16 := 0x40
def bpfMem : UInt16 := 0x60
def bpfLen : UInt16 := 0x80
def bpfMsh : UInt16 := 0xa0

-- alu/jmp fields
def bpfAdd : UInt16 := 0x00
def bpfSub : UInt16 := 0x10
def bpfMul : UInt16 := 0x20
def bpfDiv : UInt16 := 0x30
def bpfOr : UInt16 := 0x40
def bpfAnd : UInt16 := 0x50
def bpfLsh : UInt16 := 0x60
def bpfRsh : UInt16 := 0x70
def bpfNeg : UInt16 := 0x80
def bpfJa : UInt16 := 0x00
def bpfJeq : UInt16 := 0x10
def bpfJgt : UInt16 := 0x20
def bpfJge : UInt16 := 0x30
def bpfJset : UInt16 := 0x40
def bpfK : UInt16 := 0x00
def bpfX : UInt16 := 0x08

-- ret and misc fields
def bpfA : UInt16 := 0x10
def bpfTax : UInt16 := 0x00
def bpfTxa : UInt16 := 0x80

def bpfClass (code : UInt16) : UInt16 := code &&& 0x07

def bpfMode (code : UInt16) : UInt16 := code &&& 0xe0

def bpfOp (code : UInt16) : UInt16 := code &&& 0xf0

def bpfSrc (code : UInt16) : UInt16 := code &&& 0x08

/-- `struct bpf_insn` -/
structure BpfInsn where
  code : UInt16
  jt : UInt8
  jf : UInt8
  k : UInt32
  deriving DecidableEq, Repr

def bpfStmt (code : UInt16) (k : UInt32) : BpfInsn := ⟨code, 0, 0, k⟩

/-! ## The instructions `bpf_filter` knows

One constructor for each family of `case` labels; every other code takes the
`default` label. -/

inductive BpfSize where
  | w
  | h
  | b
  deriving DecidableEq, Repr

inductive BpfSrc where
  | k
  | x
  deriving DecidableEq, Repr

inductive BpfAluOp where
  | add
  | sub
  | mul
  | div
  | or
  | and
  | lsh
  | rsh
  deriving DecidableEq, Repr

inductive BpfJmpOp where
  | jeq
  | jgt
  | jge
  | jset
  deriving DecidableEq, Repr

inductive BpfOp where
  | retK
  | retA
  | ldAbs (size : BpfSize)
  | ldLen
  | ldxLen
  | ldInd (size : BpfSize)
  | ldxMsh
  | ldImm
  | ldxImm
  | ldMem
  | ldxMem
  | st
  | stx
  | ja
  | jmp (op : BpfJmpOp) (src : BpfSrc)
  | alu (op : BpfAluOp) (src : BpfSrc)
  | neg
  | tax
  | txa
  deriving DecidableEq, Repr

def BpfSize.code : BpfSize → UInt16
  | .w => bpfW
  | .h => bpfH
  | .b => bpfB

def BpfSrc.code : BpfSrc → UInt16
  | .k => bpfK
  | .x => bpfX

def BpfAluOp.code : BpfAluOp → UInt16
  | .add => bpfAdd
  | .sub => bpfSub
  | .mul => bpfMul
  | .div => bpfDiv
  | .or => bpfOr
  | .and => bpfAnd
  | .lsh => bpfLsh
  | .rsh => bpfRsh

def BpfJmpOp.code : BpfJmpOp → UInt16
  | .jeq => bpfJeq
  | .jgt => bpfJgt
  | .jge => bpfJge
  | .jset => bpfJset

/-- The `case` label of an instruction. -/
def BpfOp.code : BpfOp → UInt16
  | .retK => bpfRet ||| bpfK
  | .retA => bpfRet ||| bpfA
  | .ldAbs size => bpfLd ||| size.code ||| bpfAbs
  | .ldLen => bpfLd ||| bpfW ||| bpfLen
  | .ldxLen => bpfLdx ||| bpfW ||| bpfLen
  | .ldInd size => bpfLd ||| size.code ||| bpfInd
  | .ldxMsh => bpfLdx ||| bpfMsh ||| bpfB
  | .ldImm => bpfLd ||| bpfImm
  | .ldxImm => bpfLdx ||| bpfImm
  | .ldMem => bpfLd ||| bpfMem
  | .ldxMem => bpfLdx ||| bpfMem
  | .st => bpfSt
  | .stx => bpfStx
  | .ja => bpfJmp ||| bpfJa
  | .jmp op src => bpfJmp ||| op.code ||| src.code
  | .alu op src => bpfAlu ||| op.code ||| src.code
  | .neg => bpfAlu ||| bpfNeg
  | .tax => bpfMisc ||| bpfTax
  | .txa => bpfMisc ||| bpfTxa

/-- The labels of the `switch` of `bpf_filter`. -/
def BpfOp.all : List BpfOp :=
  [.retK, .retA, .ldAbs .w, .ldAbs .h, .ldAbs .b, .ldLen, .ldxLen, .ldInd .w, .ldInd .h, .ldInd .b,
    .ldxMsh, .ldImm, .ldxImm, .ldMem, .ldxMem, .st, .stx, .ja,
    .jmp .jgt .k, .jmp .jge .k, .jmp .jeq .k, .jmp .jset .k,
    .jmp .jgt .x, .jmp .jge .x, .jmp .jeq .x, .jmp .jset .x,
    .alu .add .x, .alu .sub .x, .alu .mul .x, .alu .div .x,
    .alu .and .x, .alu .or .x, .alu .lsh .x, .alu .rsh .x,
    .alu .add .k, .alu .sub .k, .alu .mul .k, .alu .div .k,
    .alu .and .k, .alu .or .k, .alu .lsh .k, .alu .rsh .k, .neg, .tax, .txa]

/-- The label the `switch` selects, none for `default`. -/
def BpfOp.ofCode (code : UInt16) : Option BpfOp := BpfOp.all.find? (·.code == code)

/-! ## Packets -/

/-- What the C code must not do. -/
inductive BpfFault where
  | insn
  | mem
  | div
  | read
  deriving DecidableEq, Repr

/-- The data of an mbuf; `m_len` is an unsigned 32-bit word. -/
structure Mbuf where
  data : List UInt8
  length_lt : data.length < 2 ^ 32
  deriving DecidableEq, Repr

def Mbuf.len (m : Mbuf) : UInt32 := .ofNat m.data.length

/-- The arguments `p` and `buflen`: a buffer of `buflen` bytes, or with `buflen` zero
    a chain of mbufs. -/
inductive Packet where
  | buffer (p : List UInt8) (ne_nil : p ≠ []) (length_lt : p.length < 2 ^ 32)
  | chain (m : Mbuf) (next : List Mbuf)

def Packet.buflen : Packet → UInt32
  | .buffer p _ _ => .ofNat p.length
  | .chain _ _ => 0

def readByte (data : List UInt8) (i : Nat) : Except BpfFault UInt32 :=
  match data[i]? with
  | some b => .ok b.toUInt32
  | none => .error .read

/-- Two bytes in network order. -/
def mkShort (b₀ b₁ : UInt32) : UInt32 := b₀ <<< 8 ||| b₁

/-- Four bytes in network order. -/
def mkLong (b₀ b₁ b₂ b₃ : UInt32) : UInt32 := b₀ <<< 24 ||| b₁ <<< 16 ||| b₂ <<< 8 ||| b₃

def extractShort (data : List UInt8) (i : Nat) : Except BpfFault UInt32 := do
  let b₀ ← readByte data i
  let b₁ ← readByte data (i + 1)
  return mkShort b₀ b₁

def extractLong (data : List UInt8) (i : Nat) : Except BpfFault UInt32 := do
  let b₀ ← readByte data i
  let b₁ ← readByte data (i + 1)
  let b₂ ← readByte data (i + 2)
  let b₃ ← readByte data (i + 3)
  return mkLong b₀ b₁ b₂ b₃

/-- `MINDEX`: the mbuf that holds byte `k`, the mbufs behind it and the offset in it. -/
def mindex (m : Mbuf) (next : List Mbuf) (k : UInt32) : Option (Mbuf × List Mbuf × UInt32) :=
  if k ≥ m.len then
    match next with
    | [] => none
    | m' :: next' => mindex m' next' (k - m.len)
  else some (m, next, k)

/-- `bpf_m_xword` behind its `MINDEX`: the word at `k` in `m`, or across `m` and the mbuf
    behind it; none is `*err = 1`. -/
def xwordAt (m : Mbuf) (next : List Mbuf) (k : UInt32) : Except BpfFault (Option UInt32) :=
  if m.len ≥ k + 4 then return some (← extractLong m.data k.toNat)
  else
    match next with
    | [] => return none
    | m0 :: _ =>
      if m0.len + m.len - k < 4 then return none
      else if m.len - k = 1 then do
        let c₀ ← readByte m.data k.toNat
        let n₀ ← readByte m0.data 0
        let n₁ ← readByte m0.data 1
        let n₂ ← readByte m0.data 2
        return some (mkLong c₀ n₀ n₁ n₂)
      else if m.len - k = 2 then do
        let c₀ ← readByte m.data k.toNat
        let c₁ ← readByte m.data (k.toNat + 1)
        let n₀ ← readByte m0.data 0
        let n₁ ← readByte m0.data 1
        return some (mkLong c₀ c₁ n₀ n₁)
      else do
        let c₀ ← readByte m.data k.toNat
        let c₁ ← readByte m.data (k.toNat + 1)
        let c₂ ← readByte m.data (k.toNat + 2)
        let n₀ ← readByte m0.data 0
        return some (mkLong c₀ c₁ c₂ n₀)

/-- `bpf_m_xhalf` behind its `MINDEX`. -/
def xhalfAt (m : Mbuf) (next : List Mbuf) (k : UInt32) : Except BpfFault (Option UInt32) :=
  if m.len ≥ k + 2 then return some (← extractShort m.data k.toNat)
  else
    match next with
    | [] => return none
    | m0 :: _ => do
      -- the length of `m0` is not looked at
      let c₀ ← readByte m.data k.toNat
      let n₀ ← readByte m0.data 0
      return some (mkShort c₀ n₀)

def bpfMXword (m : Mbuf) (next : List Mbuf) (k : UInt32) : Except BpfFault (Option UInt32) :=
  match mindex m next k with
  | none => return none
  | some (m, next, k) => xwordAt m next k

def bpfMXhalf (m : Mbuf) (next : List Mbuf) (k : UInt32) : Except BpfFault (Option UInt32) :=
  match mindex m next k with
  | none => return none
  | some (m, next, k) => xhalfAt m next k

/-- The byte loads of `bpf_filter` from a chain. -/
def bpfMXbyte (m : Mbuf) (next : List Mbuf) (k : UInt32) : Except BpfFault (Option UInt32) :=
  match mindex m next k with
  | none => return none
  | some (m, _, k) => return some (← readByte m.data k.toNat)

/-- The loads of `bpf_filter` at offset `k`: a first test against `buflen`, and where it
    fails the way through the mbufs, unless there is a buffer.  None is `return 0`. -/
def loadWith (short : Bool) (pkt : Packet)
    (flat : List UInt8 → Except BpfFault UInt32)
    (slow : Mbuf → List Mbuf → Except BpfFault (Option UInt32)) :
    Except BpfFault (Option UInt32) :=
  match pkt with
  | .buffer p _ _ => if short then return none else return some (← flat p)
  -- with `short` false `p` would be read as bytes; it is the address of an mbuf
  | .chain m next => if short then slow m next else .error .read

def ldWord (pkt : Packet) (k : UInt32) : Except BpfFault (Option UInt32) :=
  loadWith (k > pkt.buflen || 4 > pkt.buflen - k) pkt
    (extractLong · k.toNat) (bpfMXword · · k)

def ldHalf (pkt : Packet) (k : UInt32) : Except BpfFault (Option UInt32) :=
  loadWith (k > pkt.buflen || 2 > pkt.buflen - k) pkt
    (extractShort · k.toNat) (bpfMXhalf · · k)

def ldByte (pkt : Packet) (k : UInt32) : Except BpfFault (Option UInt32) :=
  loadWith (k ≥ pkt.buflen) pkt (readByte · k.toNat) (bpfMXbyte · · k)

def BpfSize.load : BpfSize → Packet → UInt32 → Except BpfFault (Option UInt32)
  | .w => ldWord
  | .h => ldHalf
  | .b => ldByte

/-! ## `bpf_filter` -/

/-- The registers; `pc` is an index into the program. -/
structure BpfState where
  pc : Nat
  a : UInt32
  x : UInt32
  mem : Vector UInt32 bpfMemwords

def BpfState.init : BpfState := ⟨0, 0, 0, .replicate _ 0⟩

/-- What one turn of the loop ends with. -/
inductive BpfNext where
  | ret (v : UInt32)
  | go (s : BpfState)

def BpfState.readMem (s : BpfState) (k : UInt32) : Except BpfFault UInt32 :=
  match s.mem[k.toNat]? with
  | some v => .ok v
  | none => .error .mem

def BpfState.writeMem (s : BpfState) (k v : UInt32) : Except BpfFault BpfState :=
  if h : k.toNat < bpfMemwords then .ok { s with mem := s.mem.set k.toNat v h }
  else .error .mem

def BpfState.continue (s : BpfState) : BpfNext := .go { s with pc := s.pc + 1 }

/-- `pc += off` and `continue` -/
def BpfState.jump (s : BpfState) (off : Nat) : BpfNext := .go { s with pc := s.pc + off + 1 }

def BpfSrc.value (src : BpfSrc) (p : BpfInsn) (s : BpfState) : UInt32 :=
  match src with
  | .k => p.k
  | .x => s.x

def BpfJmpOp.test : BpfJmpOp → UInt32 → UInt32 → Bool
  | .jeq, a, v => a == v
  | .jgt, a, v => a > v
  | .jge, a, v => a ≥ v
  | .jset, a, v => a &&& v != 0

def BpfAluOp.apply : BpfAluOp → UInt32 → UInt32 → Except BpfFault UInt32
  | .add, a, v => .ok (a + v)
  | .sub, a, v => .ok (a - v)
  | .mul, a, v => .ok (a * v)
  | .div, a, v => if v = 0 then .error .div else .ok (a / v)
  | .or, a, v => .ok (a ||| v)
  | .and, a, v => .ok (a &&& v)
  | .lsh, a, v => .ok (a <<< v)
  | .rsh, a, v => .ok (a >>> v)

/-- A load into a register; where it found no data the filter returns 0. -/
def loaded (r : Option UInt32) (f : UInt32 → BpfState) : BpfNext :=
  match r with
  | none => .ret 0
  | some v => (f v).continue

/-- The `switch` of `bpf_filter`. -/
def exec (pkt : Packet) (wirelen : UInt32) (p : BpfInsn) (s : BpfState) :
    BpfOp → Except BpfFault BpfNext
  | .retK => return .ret p.k
  | .retA => return .ret s.a
  | .ldAbs size => do
    let r ← size.load pkt p.k
    return loaded r fun v => { s with a := v }
  | .ldLen => return { s with a := wirelen }.continue
  | .ldxLen => return { s with x := wirelen }.continue
  | .ldInd size => do
    let r ← size.load pkt (s.x + p.k)
    return loaded r fun v => { s with a := v }
  | .ldxMsh => do
    let r ← ldByte pkt p.k
    return loaded r fun v => { s with x := (v &&& 0xf) <<< 2 }
  | .ldImm => return { s with a := p.k }.continue
  | .ldxImm => return { s with x := p.k }.continue
  | .ldMem => do
    let v ← s.readMem p.k
    return { s with a := v }.continue
  | .ldxMem => do
    let v ← s.readMem p.k
    return { s with x := v }.continue
  | .st => do
    let s ← s.writeMem p.k s.a
    return s.continue
  | .stx => do
    let s ← s.writeMem p.k s.x
    return s.continue
  | .ja => return s.jump p.k.toNat
  | .jmp op src =>
    return s.jump (if op.test s.a (src.value p s) then p.jt else p.jf).toNat
  | .alu op src => do
    -- only the division by X is tested at run time
    if op = .div ∧ src = .x ∧ s.x = 0 then return .ret 0
    let v ← op.apply s.a (src.value p s)
    return { s with a := v }.continue
  | .neg => return { s with a := -s.a }.continue
  | .tax => return { s with x := s.a }.continue
  | .txa => return { s with a := s.x }.continue

/-- One turn of the loop of `bpf_filter`. -/
def bpfStep (f : List BpfInsn) (pkt : Packet) (wirelen : UInt32) (s : BpfState) :
    Except BpfFault BpfNext :=
  match f[s.pc]? with
  | none => .error .insn
  | some p =>
    match BpfOp.ofCode p.code with
    | none => .ok (.ret 0)
    | some op => exec pkt wirelen p s op

/-- At most `fuel` turns of the loop; none when they are not enough. -/
def bpfRun (f : List BpfInsn) (pkt : Packet) (wirelen : UInt32) :
    Nat → BpfState → Except BpfFault (Option UInt32)
  | 0, _ => .ok none
  | fuel + 1, s =>
    match bpfStep f pkt wirelen s with
    | .error e => .error e
    | .ok (.ret v) => .ok (some v)
    | .ok (.go s') => bpfRun f pkt wirelen fuel s'

/-- `bpf_filter`, with as many turns as the program has instructions.  No program at
    all accepts the whole packet. -/
def bpfFilter (pc : Option (List BpfInsn)) (pkt : Packet) (wirelen : UInt32) :
    Except BpfFault (Option UInt32) :=
  match pc with
  | none => .ok (some (-1))
  | some f => bpfRun f pkt wirelen f.length .init

/-! ## `bpf_validate` -/

/-- The checks of one instruction; `i` is its index and `len` the length of the
    program.  `bpf_maxbufsize` is converted to unsigned, and `from` wraps. -/
def validateInsn (maxbufsize len i : UInt32) (p : BpfInsn) : Bool :=
  let cls := bpfClass p.code
  let mode := bpfMode p.code
  let op := bpfOp p.code
  if cls == bpfLd || cls == bpfLdx then
    if mode == bpfImm then true
    else if mode == bpfAbs || mode == bpfInd || mode == bpfMsh then !(p.k ≥ maxbufsize)
    else if mode == bpfMem then !(p.k.toNat ≥ bpfMemwords)
    else mode == bpfLen
  else if cls == bpfSt || cls == bpfStx then !(p.k.toNat ≥ bpfMemwords)
  else if cls == bpfAlu then
    if op == bpfAdd || op == bpfSub || op == bpfMul || op == bpfOr || op == bpfAnd ||
        op == bpfLsh || op == bpfRsh || op == bpfNeg then true
    else if op == bpfDiv then !(bpfSrc p.code == bpfK && p.k == 0)
    else false
  else if cls == bpfJmp then
    let start := i + 1
    if op == bpfJa then !(start + p.k < start || start + p.k ≥ len)
    else if op == bpfJeq || op == bpfJgt || op == bpfJge || op == bpfJset then
      !(start + p.jt.toUInt32 ≥ len || start + p.jf.toUInt32 ≥ len)
    else false
  else cls == bpfRet || cls == bpfMisc

/-- `bpf_validate`, of the array that `f` lists. -/
def bpfValidate (maxbufsize : UInt32) (f : List BpfInsn) : Bool :=
  if f.length < 1 || f.length > bpfMaxinsns then false
  else
    f.zipIdx.all (fun p => validateInsn maxbufsize (.ofNat f.length) (.ofNat p.2) p.1) &&
      match f.getLast? with
      | some p => bpfClass p.code == bpfRet
      | none => false

end OpenBsd.Net
