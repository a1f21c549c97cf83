/-
  OpenBsd.Net.PfTestAttrib

  The attributes of a rule that `pf_test_rule` in `sys/net/pf.c` tests, the effects of a
  match rule, and `pf_calc_skip_steps`.

  Words of addresses, ports and flags are numbers in host order.  The lookups of
  interfaces, routes, tables, labels and sockets, the random numbers, the pool and the
  translation are parameters (`PfLookup`); a lookup gets the fields of the rule that
  `pf_calc_skip_steps` compares, and `ω` is what the others change.
-/

import OpenBsd.Net.PfRuleset

namespace OpenBsd.Net

/-! ## Rules and packets -/

/-- `struct pf_addr` as `addr32`. -/
structure PfAddr where
  a0 : Nat
  a1 : Nat
  a2 : Nat
  a3 : Nat
  deriving DecidableEq

/-- `struct pf_addr_wrap`, by its type; a dynamic address is known by its table. -/
inductive PfAddrWrap where
  | addrmask (addr mask : PfAddr)
  | noroute
  | dyniftl (pfidKt : Nat)
  | table (tbl : Nat)
  | rtlabel (rtlabel : Nat)
  | urpffailed
  | range (addr mask : PfAddr)
  | none
  | invalid (type : Nat)
  deriving DecidableEq

/-- `struct pf_rule_addr`. -/
structure PfRuleAddr where
  addr : PfAddrWrap
  port0 : Nat
  port1 : Nat
  neg : Nat
  portOp : Nat
  deriving DecidableEq

/-- `struct pf_rule_uid` and `struct pf_rule_gid`. -/
structure PfRuleId where
  id0 : Nat
  id1 : Nat
  op : Nat
  deriving DecidableEq

/-- The fields of `struct pf_rule` that the evaluation reads. -/
structure PfRuleBody where
  nr : Nat
  src : PfRuleAddr
  dst : PfRuleAddr
  kif : Option Nat
  rcvKif : Option Nat
  osFingerprint : Nat
  rtableid : Int
  onrdomain : Int
  qid : Nat
  pqid : Nat
  prob : Nat
  maxMss : Nat
  tag : Nat
  matchTag : Nat
  scrubFlags : Nat
  uid : PfRuleId
  gid : PfRuleId
  ruleFlag : Nat
  action : Nat
  direction : Nat
  log : Nat
  quick : Nat
  ifnot : Nat
  matchTagNot : Nat
  keepState : Nat
  af : Nat
  proto : Nat
  type : Nat
  code : Nat
  flags : Nat
  flagset : Nat
  minTtl : Nat
  tos : Nat
  setTos : Nat
  prio : Nat
  setPrio0 : Nat
  setPrio1 : Nat
  naf : Nat
  rcvifnot : Nat
  deriving DecidableEq

/-- What the loop reads of the packet and never changes. -/
structure PfPacket where
  kif : Option Nat
  dir : Nat
  rdomain : Int
  af : Nat
  proto : Nat
  virtualProto : Nat
  thFlags : Nat
  icmptype : Nat
  icmpcode : Nat
  stateIcmp : Nat
  icmpDir : Nat
  tos : Nat
  pfTag : Nat
  pfPrio : Nat

/-- The part of `struct pf_pdesc` that translation and the socket lookup change. -/
structure PfPdesc where
  naf : Nat
  nsaddr : PfAddr
  ndaddr : PfAddr
  nsport : Nat
  ndport : Nat
  lookupDone : Int
  lookupUid : Nat
  lookupGid : Nat

/-- `struct pf_rule_actions`. -/
structure PfRuleActions where
  rtableid : Int
  qid : Nat
  pqid : Nat
  maxMss : Nat
  flags : Nat
  log : Nat
  setTos : Nat
  minTtl : Nat
  setPrio0 : Nat
  setPrio1 : Nat

/-- The variables of `pf_test_rule` that the tests and the match rules change. -/
structure PfEvalState (ω : Type) where
  tag : Int
  act : PfRuleActions
  pd : PfPdesc
  rules : List PfRuleBody
  nr : Option PfRuleBody
  world : ω

structure PfLookup (ω : Type) where
  pfiKifMatch : Option Nat → Option Nat → Bool
  pfRoutable : PfAddr → Nat → Option Nat → Int → Bool
  pfRtlabelMatch : PfAddr → Nat → Nat → Int → Bool
  pfrMatchAddr : Nat → PfAddr → Nat → Bool
  pfiMatchAddr : Nat → PfAddr → Nat → Bool
  pfOsfpMatch : Nat → Bool
  pfMatchRcvif : Nat → Bool
  pfSocketLookup : PfPdesc → ω → PfPdesc × Int × ω
  arc4randomUniform : Nat → ω → Nat × ω
  poolGet : ω → Bool × ω
  pfGetTransaddr : PfRuleBody → PfPdesc → Option PfRuleBody → ω →
    Option (PfPdesc × Option PfRuleBody × ω)

def afInet : Nat := 2

def afInet6 : Nat := 24

def pfVprotoFragment : Nat := 256

def ipprotoTcp : Nat := 6

def ipprotoUdp : Nat := 17

def ipprotoIcmp : Nat := 1

def ipprotoIcmpv6 : Nat := 58

def pfIn : Nat := 1

def pfMatchAction : Nat := 12

def idMax : Nat := 2 ^ 32 - 1

def pfruleFragment : Nat := 0x0002

def pfruleStatesloppy : Nat := 0x00020000

def pfruleAfto : Nat := 0x00200000

def pfstateSettos : Nat := 0x0040

def pfstateSetprio : Nat := 0x0200

/-- `PFSTATE_NODF|PFSTATE_RANDOMID|PFSTATE_SETTOS|PFSTATE_SCRUB_TCP|PFSTATE_SETPRIO`. -/
def pfstateScrubMask : Nat := 0x03e0

def pfPrioZero : Nat := 0xff

/-! ## Matching -/

def pfAzero (a : PfAddr) (af : Nat) : Bool :=
  (af == afInet && a.a0 == 0) ||
  (af == afInet6 && a.a0 == 0 && a.a1 == 0 && a.a2 == 0 && a.a3 == 0)

def pfMatchAddr (a m b : PfAddr) (af : Nat) : Bool :=
  if af = afInet then a.a0 &&& m.a0 == b.a0 &&& m.a0
  else if af = afInet6 then
    a.a0 &&& m.a0 == b.a0 &&& m.a0 && a.a1 &&& m.a1 == b.a1 &&& m.a1 &&
      a.a2 &&& m.a2 == b.a2 &&& m.a2 && a.a3 &&& m.a3 == b.a3 &&& m.a3
  else false

/-- The loop over the words for `a >= b`. -/
def wordsGe : List (Nat × Nat) → Bool
  | [] => true
  | (a, b) :: rest => if a > b then true else if a < b then false else wordsGe rest

def PfAddr.words (a : PfAddr) : List Nat := [a.a0, a.a1, a.a2, a.a3]

def pfMatchAddrRange (b e a : PfAddr) (af : Nat) : Bool :=
  if af = afInet then !(decide (a.a0 < b.a0) || decide (a.a0 > e.a0))
  else if af = afInet6 then
    wordsGe (a.words.zip b.words) && wordsGe (e.words.zip a.words)
  else true

def pfMatch (op a1 a2 p : Nat) : Bool :=
  match op with
  | 1 => decide (p > a1) && decide (p < a2)
  | 2 => p == a1
  | 3 => p != a1
  | 4 => decide (p < a1)
  | 5 => decide (p ≤ a1)
  | 6 => decide (p > a1)
  | 7 => decide (p ≥ a1)
  | 8 => decide (p < a1) || decide (p > a2)
  | 9 => decide (p ≥ a1) && decide (p ≤ a2)
  | _ => false

def pfMatchId (r : PfRuleId) (u : Nat) : Bool :=
  if u = idMax ∧ r.op ≠ 2 ∧ r.op ≠ 3 then false else pfMatch r.op r.id0 r.id1 u

section Tests

variable {ω : Type} (lk : PfLookup ω) (p : PfPacket)

def pfMismatchaw (aw : PfAddrWrap) (x : PfAddr) (af neg : Nat) (ifp : Option Nat) (rtid : Int) :
    Bool :=
  let mismatch :=
    match aw with
    | .noroute => lk.pfRoutable x af none rtid
    | .urpffailed => ifp.isSome && lk.pfRoutable x af ifp rtid
    | .rtlabel l => !lk.pfRtlabelMatch x af l rtid
    | .table tbl => !lk.pfrMatchAddr tbl x af
    | .dyniftl kt => !lk.pfiMatchAddr kt x af
    | .range b e => !pfMatchAddrRange b e x af
    | .addrmask a m => !pfAzero m af && !pfMatchAddr a m x af
    | .none => false
    | .invalid _ => false
  mismatch.toNat != neg

/-- `pf_match_port`, for a rule that looks at the port. -/
def portMismatch (a : PfRuleAddr) (port : Nat) : Bool :=
  a.portOp != 0 && !pfMatch a.portOp a.port0 a.port1 port

/-- The attributes with a skip pointer. -/
inductive PfSkip where
  | ifp
  | dir
  | rdom
  | af
  | proto
  | srcAddr
  | dstAddr
  | srcPort
  | dstPort
  deriving DecidableEq

def PfSkip.all : List PfSkip :=
  [.ifp, .dir, .rdom, .af, .proto, .srcAddr, .dstAddr, .srcPort, .dstPort]

/-- The condition on which a skip pointer is followed. -/
def skipTest (st : PfEvalState ω) (r : PfRuleBody) : PfSkip → Bool
  | .ifp => (lk.pfiKifMatch r.kif p.kif).toNat == r.ifnot
  | .dir => r.direction != 0 && r.direction != p.dir
  | .rdom => decide (r.onrdomain ≥ 0) && (decide (r.onrdomain = p.rdomain)).toNat == r.ifnot
  | .af => r.af != 0 && r.af != p.af
  | .proto => r.proto != 0 && r.proto != p.proto
  | .srcAddr => pfMismatchaw lk r.src.addr st.pd.nsaddr st.pd.naf r.src.neg p.kif st.act.rtableid
  | .dstAddr => pfMismatchaw lk r.dst.addr st.pd.ndaddr p.af r.dst.neg none st.act.rtableid
  | .srcPort => portMismatch r.src st.pd.nsport
  | .dstPort => portMismatch r.dst st.pd.ndport

/-- A test that goes on with a skip pointer. -/
def skipGuard (st : PfEvalState ω) (r : PfRuleBody) (i : PfSkip) : Bool × PfTest PfSkip :=
  (skipTest lk p st r i, .skip i)

/-- The tests before the first one with an effect, in their order. -/
def pfGuards (st : PfEvalState ω) (r : PfRuleBody) : List (Bool × PfTest PfSkip) :=
  [.ifp, .dir, .rdom, .af, .proto, .srcAddr, .dstAddr].map (skipGuard lk p st r) ++
  if p.virtualProto = pfVprotoFragment then
    [(r.src.portOp != 0 || r.dst.portOp != 0, .next),
      (p.proto == ipprotoTcp && r.flagset != 0, .next), (r.type != 0 || r.code != 0, .next),
      (r.gid.op != 0 || r.uid.op != 0, .next)]
  else if p.virtualProto = ipprotoTcp then
    [(r.flagset &&& p.thFlags != r.flags, .next),
      (r.osFingerprint != 0 && !lk.pfOsfpMatch r.osFingerprint, .next),
      skipGuard lk p st r .srcPort, skipGuard lk p st r .dstPort]
  else if p.virtualProto = ipprotoUdp then
    [skipGuard lk p st r .srcPort, skipGuard lk p st r .dstPort]
  else if p.virtualProto = ipprotoIcmp ∨ p.virtualProto = ipprotoIcmpv6 then
    [(r.type != 0 && r.type != p.icmptype + 1, .next),
      (r.code != 0 && r.code != p.icmpcode + 1, .next),
      (r.keepState != 0 && p.stateIcmp == 0 && r.ruleFlag &&& pfruleStatesloppy == 0 &&
        p.icmpDir != pfIn, .next)]
  else []

def lookupOnce (st : PfEvalState ω) : PfEvalState ω :=
  if st.pd.lookupDone ≠ 0 then st
  else
    let (pd, done, world) := lk.pfSocketLookup st.pd st.world
    { st with pd := { pd with lookupDone := done }, world := world }

/-- `PF_TEST_ATTRIB` with the next rule behind it and a test that has an effect. -/
def testNext (t : PfEvalState ω × Bool)
    (k : PfEvalState ω → PfEvalState ω × PfTest PfSkip) : PfEvalState ω × PfTest PfSkip :=
  if t.2 then (t.1, .next) else k t.1

/-- The test of the owner of the socket, by user or group. -/
def idTest (r : PfRuleId) (id : PfPdesc → Nat) (st : PfEvalState ω) : PfEvalState ω × Bool :=
  if r.op ≠ 0 ∧ (p.virtualProto = ipprotoTcp ∨ p.virtualProto = ipprotoUdp) then
    let st := lookupOnce lk st
    (st, !pfMatchId r (id st.pd))
  else (st, false)

def probTest (r : PfRuleBody) (st : PfEvalState ω) : PfEvalState ω × Bool :=
  if r.prob = 0 then (st, false)
  else
    let (n, world) := lk.arc4randomUniform (2 ^ 32 - 2) st.world
    ({ st with world := world }, decide (r.prob ≤ n + 1))

def tagTest (r : PfRuleBody) (st : PfEvalState ω) : PfEvalState ω × Bool :=
  if r.matchTag = 0 then (st, false)
  else
    let tag : Int := if st.tag = -1 then p.pfTag else st.tag
    ({ st with tag := tag }, !((r.matchTagNot == 0 && decide ((r.matchTag : Int) = tag)) ||
        (r.matchTagNot != 0 && decide ((r.matchTag : Int) ≠ tag))))

/-- The test of the receiving interface. -/
def rcvTest (r : PfRuleBody) : Bool :=
  match r.rcvKif with
  | none => false
  | some kif => (lk.pfMatchRcvif kif).toNat == r.rcvifnot

/-- The tests from the first one with an effect on, and the tag of a rule that matches. -/
def pfTestTail (st : PfEvalState ω) (r : PfRuleBody) : PfEvalState ω × PfTest PfSkip :=
  testNext (idTest lk p r.uid PfPdesc.lookupUid st) fun st =>
  testNext (idTest lk p r.gid PfPdesc.lookupGid st) fun st =>
  testNext (st, r.ruleFlag &&& pfruleFragment != 0 && p.virtualProto != pfVprotoFragment) fun st =>
  testNext (st, r.tos != 0 && r.tos != p.tos) fun st =>
  testNext (probTest lk r st) fun st =>
  testNext (tagTest p r st) fun st =>
  testNext (st, rcvTest lk r) fun st =>
  testNext (st, r.prio != 0 && (if r.prio = pfPrioZero then 0 else r.prio) != p.pfPrio) fun st =>
  (if r.tag ≠ 0 then { st with tag := r.tag } else st, .hit)

/-- All tests of a rule. -/
def pfTestAttribs (st : PfEvalState ω) (r : PfRuleBody) : PfEvalState ω × PfTest PfSkip :=
  match (pfGuards lk p st r).find? Prod.fst with
  | some (_, t) => (st, t)
  | none => pfTestTail lk p st r

/-! ## Match rules -/

def pfRuleToActions (r : PfRuleBody) (a : PfRuleActions) : PfRuleActions :=
  { rtableid := if r.rtableid ≥ 0 then r.rtableid else a.rtableid
    qid := if r.qid ≠ 0 then r.qid % 2 ^ 16 else a.qid
    pqid := if r.pqid ≠ 0 then r.pqid % 2 ^ 16 else a.pqid
    maxMss := if r.maxMss ≠ 0 then r.maxMss else a.maxMss
    flags := a.flags ||| (r.scrubFlags &&& pfstateScrubMask)
    log := a.log ||| r.log
    setTos := if r.scrubFlags &&& pfstateSettos ≠ 0 then r.setTos else a.setTos
    minTtl := if r.minTtl ≠ 0 then r.minTtl else a.minTtl
    setPrio0 := if r.scrubFlags &&& pfstateSetprio ≠ 0 then r.setPrio0 else a.setPrio0
    setPrio1 := if r.scrubFlags &&& pfstateSetprio ≠ 0 then r.setPrio1 else a.setPrio1 }

/-- A match rule is put on the list and applied; without memory or a translation the
    evaluation ends. -/
def applyMatch (st : PfEvalState ω) (r : PfRuleBody) : Option (PfEvalState ω) :=
  match lk.poolGet st.world with
  | (false, _) => none
  | (true, world) =>
    let pd := if r.ruleFlag &&& pfruleAfto ≠ 0 then { st.pd with naf := r.naf } else st.pd
    match lk.pfGetTransaddr r pd st.nr world with
    | none => none
    | some (pd, nr, world) =>
      some { st with
        act := pfRuleToActions r st.act, pd := pd, rules := r :: st.rules, nr := nr, world := world }

/-- The rules of `pf_test_rule` and the packet. -/
def pfEngine : PfEngine PfRuleBody (PfEvalState ω) PfSkip where
  test := pfTestAttribs lk p
  act := applyMatch lk
  isMatch := fun r => r.action == pfMatchAction
  quick := fun r => r.quick != 0

end Tests

/-! ## Skip steps -/

def pfAneq (a b : PfAddr) : Bool := a.a3 != b.a3 || a.a2 != b.a2 || a.a1 != b.a1 || a.a0 != b.a0

def pfAddrWrapNeq : PfAddrWrap → PfAddrWrap → Bool
  | .addrmask a m, .addrmask a' m' => pfAneq a a' || pfAneq m m'
  | .range a m, .range a' m' => pfAneq a a' || pfAneq m m'
  | .dyniftl kt, .dyniftl kt' => kt != kt'
  | .none, .none => false
  | .noroute, .noroute => false
  | .urpffailed, .urpffailed => false
  | .table tbl, .table tbl' => tbl != tbl'
  | .rtlabel l, .rtlabel l' => l != l'
  | _, _ => true

def portNeq (a b : PfRuleAddr) : Bool :=
  a.port0 != b.port0 || a.port1 != b.port1 || a.portOp != b.portOp

/-- The comparisons of a rule with the one before it. -/
def skipNeq (cur prev : PfRuleBody) : PfSkip → Bool
  | .ifp => cur.kif != prev.kif || cur.ifnot != prev.ifnot
  | .dir => cur.direction != prev.direction
  | .rdom => cur.onrdomain != prev.onrdomain || cur.ifnot != prev.ifnot
  | .af => cur.af != prev.af
  | .proto => cur.proto != prev.proto
  | .srcAddr => cur.src.neg != prev.src.neg || pfAddrWrapNeq cur.src.addr prev.src.addr
  | .dstAddr => cur.dst.neg != prev.dst.neg || pfAddrWrapNeq cur.dst.addr prev.dst.addr
  | .srcPort => portNeq cur.src prev.src
  | .dstPort => portNeq cur.dst prev.dst

/-- The heads of the chains and the skip pointers set so far. -/
structure SkipCalc where
  head : PfSkip → Nat
  skip : Nat → PfSkip → Nat

/-- `PF_SET_SKIP_STEPS`, for at most `fuel` rounds. -/
def pfSetSkipSteps (i : PfSkip) (cur : Nat) : Nat → SkipCalc → SkipCalc
  | 0, s => s
  | fuel + 1, s =>
    if s.head i = cur then s
    else pfSetSkipSteps i cur fuel
      { head := fun j => if j = i then s.head i + 1 else s.head j
        skip := fun k j => if k = s.head i ∧ j = i then cur else s.skip k j }

/-- A chain that ends before the rule `cur`; at most `cur` rules are on it. -/
def endChain (cur : Nat) (s : SkipCalc) (i : PfSkip) : SkipCalc := pfSetSkipSteps i cur cur s

/-- One round: the rule `cur` with the one before it. -/
def skipRound (rules : List PfRuleBody) (s : SkipCalc) (cur : Nat) : SkipCalc :=
  match rules[cur]?, rules[cur - 1]? with
  | some c, some prev =>
    PfSkip.all.foldl (fun s i => if skipNeq c prev i then endChain cur s i else s) s
  | _, _ => s

def pfCalcSkipSteps (rules : List PfRuleBody) (skip : Nat → PfSkip → Nat) : Nat → PfSkip → Nat :=
  let s := (List.range rules.length).foldl (skipRound rules) { head := fun _ => 0, skip := skip }
  (PfSkip.all.foldl (endChain rules.length) s).skip

end OpenBsd.Net
