/-
  OpenBsd.Net.PfState

  The state table of `sys/net/pf.c`: `pf_state_key_attach`, `pf_state_key_detach`,
  `pf_detach_state`, `pf_unlink_state` and `pf_state_insert`.

  Keys and states are memory at addresses, with nothing where they are free; a function
  without a result has gone through a null or freed pointer.  The two red-black trees are
  the lists of their elements, and an item on the list of a key is the state it belongs
  to.  The pointers `reverse` and `inp` of a key, and what `pf_unlink_state` does besides
  taking the state out of the table, are left out.
-/

import OpenBsd.Net.PfTestAttrib

namespace OpenBsd.Net

/-! ## Keys and states -/

/-- `struct pf_state_key_cmp`. -/
structure PfStateKeyCmp where
  addr0 : PfAddr
  addr1 : PfAddr
  port0 : Nat
  port1 : Nat
  rdomain : Nat
  af : Nat
  proto : Nat
  deriving DecidableEq

/-- `pf_addr_compare` finds no difference. -/
def sameAddr (a b : PfAddr) (af : Nat) : Bool :=
  if af = afInet then a.a0 == b.a0
  else if af = afInet6 then a.a3 == b.a3 && a.a2 == b.a2 && a.a1 == b.a1 && a.a0 == b.a0
  else true

/-- `pf_state_compare_key` finds no difference. -/
def sameKey (a b : PfStateKeyCmp) : Bool :=
  a.proto == b.proto && a.af == b.af && sameAddr a.addr0 b.addr0 a.af &&
    sameAddr a.addr1 b.addr1 a.af && a.port0 == b.port0 && a.port1 == b.port1 &&
    a.rdomain == b.rdomain

/-- `struct pf_state_key`. -/
structure PfStateKey where
  cmp : PfStateKeyCmp
  states : List Nat
  deriving DecidableEq

inductive PfSk where
  | wire
  | stack
  deriving DecidableEq

/-- `struct pf_state`, with the states of its two TCP peers. -/
structure PfState where
  id : Nat
  creatorid : Nat
  direction : Nat
  kif : Nat
  srcState : Nat
  dstState : Nat
  wire : Option Nat
  stack : Option Nat
  deriving DecidableEq

/-- `s->key[idx]`. -/
def PfState.key (s : PfState) : PfSk → Option Nat
  | .wire => s.wire
  | .stack => s.stack

def PfState.setKey (s : PfState) (idx : PfSk) (k : Option Nat) : PfState :=
  match idx with
  | .wire => { s with wire := k }
  | .stack => { s with stack := k }

def tcpsFinWait2 : Nat := 9

/-- Both peers are done, and the state may be displaced. -/
def PfState.done (s : PfState) : Prop := s.srcState ≥ tcpsFinWait2 ∧ s.dstState ≥ tcpsFinWait2

instance (s : PfState) : Decidable s.done := inferInstanceAs (Decidable (_ ∧ _))

def pfiAll : Nat := 0

/-- `pf_statetbl`, `tree_id`, the memory of keys and states, and `pf_status`. -/
structure PfStateTable where
  statetbl : List Nat
  keys : Nat → Option PfStateKey
  states : Nat → Option PfState
  treeId : List Nat
  stateid : Nat
  hostid : Nat

namespace PfStateTable

def setKeyMem (t : PfStateTable) (k : Nat) (v : Option PfStateKey) : PfStateTable :=
  { t with keys := fun k' => if k' = k then v else t.keys k' }

def setState (t : PfStateTable) (s : Nat) (v : Option PfState) : PfStateTable :=
  { t with states := fun s' => if s' = s then v else t.states s' }

/-- `RB_FIND` on `pf_statetbl`. -/
def findKey (t : PfStateTable) (cmp : PfStateKeyCmp) : Option Nat :=
  t.statetbl.find? fun k => match t.keys k with
    | some key => sameKey key.cmp cmp
    | none => false

def findId (t : PfStateTable) (st : PfState) : Option Nat :=
  t.treeId.find? fun s => match t.states s with
    | some st' => st'.id == st.id && st'.creatorid == st.creatorid
    | none => false

/-- The address family of a key. -/
def keyAf (t : PfStateTable) (k : Option Nat) : Option Nat :=
  match k with
  | none => none
  | some k => (t.keys k).map fun key => key.cmp.af

end PfStateTable

/-- `RB_REMOVE`.  For an element that was never in the tree all links are zero, and its
    empty child becomes the root. -/
def rbRemove (l : List Nat) (x : Nat) : List Nat := if x ∈ l then l.erase x else []

/-! ## Detaching -/

def pfStateKeyDetach (t : PfStateTable) (s : Nat) (idx : PfSk) : Option PfStateTable :=
  match t.states s with
  | none => none
  | some st =>
    match st.key idx with
    | none => some t
    | some k =>
      match t.keys k with
      | none => none
      | some key =>
        let items := key.states.erase s
        let t := if items = [] then { t.setKeyMem k none with statetbl := rbRemove t.statetbl k }
          else t.setKeyMem k (some { key with states := items })
        some (t.setState s (some (st.setKey idx none)))

def pfDetachState (t : PfStateTable) (s : Nat) : Option PfStateTable :=
  match t.states s with
  | none => none
  | some st =>
    let t := if st.wire = st.stack then t.setState s (some { st with wire := none }) else t
    (pfStateKeyDetach t s .stack).bind fun t => pfStateKeyDetach t s .wire

def pfUnlinkState (t : PfStateTable) (s : Nat) : Option PfStateTable :=
  pfDetachState { t with treeId := rbRemove t.treeId s } s

/-! ## Inserting -/

/-- The state of an item and the new state want the same packets. -/
def sameFlow (t : PfStateTable) (sk : PfStateKeyCmp) (st old : PfState) : Option Bool :=
  if old.kif ≠ st.kif then some false
  else
    match t.keyAf old.wire with
    | none => none
    | some waf =>
      if waf = sk.af ∧ old.direction = st.direction then some true
      else
        match t.keyAf old.stack with
        | none => none
        | some saf => some (decide (waf ≠ saf ∧ sk.af = saf ∧ old.direction ≠ st.direction))

/-- The loop over the items of a key that exists, with the state to unlink so far; without
    one at the end it is a collision. -/
def attachScan (sk : PfStateKeyCmp) (s : Nat) :
    List Nat → PfStateTable → Option Nat → Option (PfStateTable × Option (Option Nat))
  | [], t, olds => some (t, some olds)
  | si :: items, t, olds =>
    match t.states s, t.states si with
    | some st, some old =>
      match sameFlow t sk st old with
      | none => none
      | some false => attachScan sk s items t olds
      | some true =>
        if sk.proto = ipprotoTcp ∧ old.done then
          attachScan sk s items
            (t.setState si (some { old with srcState := 0, dstState := 0 })) (some si)
        else some (t, none)
    | _, _ => none

/-- `if (olds) pf_unlink_state(olds)`. -/
def unlinkOld (t : PfStateTable) (olds : Option Nat) : Option PfStateTable :=
  match olds with
  | none => some t
  | some o => pfUnlinkState t o

/-- The end of `pf_state_key_attach`: an item if there is one, and the old state goes. -/
def attachItem (t : PfStateTable) (s : Nat) (idx : PfSk) (k : Nat) (olds : Option Nat)
    (item : Bool) : Option (PfStateTable × Bool) :=
  match t.states s with
  | none => none
  | some st =>
    let t := t.setState s (some (st.setKey idx (some k)))
    if item then
      match t.keys k with
      | none => none
      | some key =>
        let states := if st.kif = pfiAll then key.states ++ [s] else s :: key.states
        (unlinkOld (t.setKeyMem k (some { key with states := states })) olds).map fun t => (t, true)
    else (pfStateKeyDetach t s idx).map fun t => (t, false)

/-- `pf_state_key_attach`; `item` says whether `pool_get` has an item.  The result says
    whether it was attached. -/
def pfStateKeyAttach (t : PfStateTable) (sk s : Nat) (idx : PfSk) (item : Bool) :
    Option (PfStateTable × Bool) :=
  match t.keys sk with
  | none => none
  | some skey =>
    match t.findKey skey.cmp with
    | none => attachItem { t with statetbl := sk :: t.statetbl } s idx sk none item
    | some cur =>
      match t.keys cur with
      | none => none
      | some key =>
        match attachScan skey.cmp s key.states t none with
        | none => none
        | some (t, none) => some (t.setKeyMem sk none, false)
        | some (t, some olds) => attachItem (t.setKeyMem sk none) s idx cur olds item

/-- A state without an id gets the next one. -/
def giveId (t : PfStateTable) (s : Nat) (st : PfState) : PfStateTable :=
  if st.id = 0 ∧ st.creatorid = 0 then
    { t.setState s (some { st with id := t.stateid, creatorid := t.hostid }) with
      stateid := (t.stateid + 1) % 2 ^ 64 }
  else t

/-- `RB_INSERT` on `tree_id`; a state with the id of another one is detached again. -/
def insertTree (t : PfStateTable) (s : Nat) : Option (PfStateTable × Bool) :=
  match t.states s with
  | none => none
  | some st =>
    match t.findId st with
    | some _ => (pfDetachState t s).map fun t => (t, false)
    | none => some ({ t with treeId := s :: t.treeId }, true)

/-- The end of `pf_state_insert`. -/
def insertId (t : PfStateTable) (s : Nat) : Option (PfStateTable × Bool) :=
  match t.states s with
  | none => none
  | some st => insertTree (giveId t s st) s

/-- A state and its keys as they come to `pf_state_insert`, and the outcomes of `pool_get`
    for the item of each key. -/
structure PfInsert where
  kif : Nat
  skw : Nat
  sks : Nat
  s : Nat
  wireItem : Bool
  stackItem : Bool

/-- `pf_state_insert` with one key for both sides. -/
def insertOne (t : PfStateTable) (c : PfInsert) : Option (PfStateTable × Bool) :=
  match pfStateKeyAttach t c.skw c.s .wire c.wireItem with
  | none => none
  | some (t, false) => some (t, false)
  | some (t, true) =>
    match t.states c.s with
    | none => none
    | some st => insertId (t.setState c.s (some { st with stack := st.wire })) c.s

/-- `pf_state_insert` with two keys. -/
def insertTwo (t : PfStateTable) (c : PfInsert) : Option (PfStateTable × Bool) :=
  match pfStateKeyAttach t c.skw c.s .wire c.wireItem with
  | none => none
  | some (t, false) => some (t.setKeyMem c.sks none, false)
  | some (t, true) =>
    match pfStateKeyAttach t c.sks c.s .stack c.stackItem with
    | none => none
    | some (t, false) => (pfStateKeyDetach t c.s .wire).map fun t => (t, false)
    | some (t, true) => insertId t c.s

def pfStateInsert (t : PfStateTable) (c : PfInsert) : Option (PfStateTable × Bool) :=
  match t.states c.s with
  | none => none
  | some st =>
    let t := t.setState c.s (some { st with kif := c.kif })
    if c.skw = c.sks then insertOne t c else insertTwo t c

/-! ## Runs -/

/-- What happens to the table: a state is inserted, unlinked or detached, or its peers
    change. -/
inductive PfOp where
  | insert (skw sks : PfStateKeyCmp) (st : PfState) (c : PfInsert)
  | unlink (s : Nat)
  | detach (s : Nat)
  | peers (s : Nat) (src dst : Nat)

/-- The caller of `pf_state_insert` has allocated a state and its keys. -/
def prepare (t : PfStateTable) (skw sks : PfStateKeyCmp) (st : PfState) (c : PfInsert) :
    PfStateTable :=
  let t := t.setKeyMem c.skw (some ⟨skw, []⟩)
  let t := if c.skw = c.sks then t else t.setKeyMem c.sks (some ⟨sks, []⟩)
  t.setState c.s (some { st with wire := none, stack := none })

/-- Memory from a pool is free, and only a state of the table is taken out. -/
def PfOp.ready (t : PfStateTable) : PfOp → Prop
  | .insert _ _ _ c => t.keys c.skw = none ∧ t.keys c.sks = none ∧ t.states c.s = none
  | .unlink s => s ∈ t.treeId
  | .detach s => t.states s ≠ none
  | .peers s _ _ => t.states s ≠ none

/-- One step; a rejected state goes back to its pool. -/
def pfStep (t : PfStateTable) : PfOp → Option PfStateTable
  | .insert skw sks st c =>
    (pfStateInsert (prepare t skw sks st c) c).map fun p =>
      if p.2 then p.1 else p.1.setState c.s none
  | .unlink s => pfUnlinkState t s
  | .detach s => pfDetachState t s
  | .peers s src dst =>
    match t.states s with
    | none => none
    | some st => some (t.setState s (some { st with srcState := src, dstState := dst }))

def emptyTable (stateid hostid : Nat) : PfStateTable :=
  { statetbl := [], keys := fun _ => none, states := fun _ => none, treeId := [],
    stateid := stateid, hostid := hostid }

end OpenBsd.Net
