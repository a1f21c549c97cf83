/-
  OpenBsd.Gdisk.Edit

  The commands of `sbin/gdisk/cmd.c` that change the table in memory: `swap`,
  `setpid`, `edit` and `flags`, each with the parsing of its arguments.

  An entry is read or written by its number, and a number that the table does
  not have is the fault `outside`.  What the user answers to the questions of a
  command is a `Console`.
-/

import OpenBsd.Gdisk.Fill

namespace OpenBsd.Gdisk

open OpenBsd.Lib
open List hiding Vector

/-! ## Arguments -/

def isspace (c : Char) : Bool := c = ' ' || ('\t' ≤ c && c ≤ '\r')

inductive NumError where
  | invalid
  | tooSmall
  | tooLarge
deriving DecidableEq

/-- The sign of a number and what follows it. -/
def strtollSign : List Char → Bool × List Char
  | '-' :: s => (true, s)
  | '+' :: s => (false, s)
  | s => (false, s)

/-- The value of a string of decimal digits. -/
def decimal (digits : List Char) : Nat :=
  digits.foldl (fun n c => 10 * n + (c.toNat - '0'.toNat)) 0

/-- The range test of `strtonum`. -/
def numRange (ll minval maxval : Int) : Except NumError Int :=
  if ll < minval then .error .tooSmall
  else if maxval < ll then .error .tooLarge
  else .ok ll

def strtonum (numstr : List Char) (minval maxval : Int) : Except NumError Int :=
  let (neg, s) := strtollSign (numstr.dropWhile isspace)
  let digits := s.takeWhile Char.isDigit
  if digits = [] ∨ s.dropWhile Char.isDigit ≠ [] then .error .invalid
  else numRange (if neg then -decimal digits else decimal digits) minval maxval

/-- `(int)strtonum(numstr, 0, maxval, &errstr)`, `none` with `errstr` set. -/
def strtonumTo (numstr : List Char) (maxval : Nat) : Option Nat :=
  match strtonum numstr 0 maxval with
  | .ok ll => some ll.toNat
  | .error _ => none

/-- `strsep(&stringp, " \t")`: the token, and what `stringp` points at then. -/
def strsep : Option (List Char) → Option (List Char) × Option (List Char)
  | none => (none, none)
  | some s =>
    let token := s.takeWhile fun c => c ≠ ' ' && c ≠ '\t'
    match s.dropWhile fun c => c ≠ ' ' && c ≠ '\t' with
    | [] => (some token, none)
    | _ :: rest => (some token, some rest)

/-- The two numbers of `Xswap`; `none` where it returns without a swap. -/
def swapArgs (args : List Char) : Option (Nat × Nat) :=
  match strsep (some args) with
  | (some src, some dst) =>
    match strtonumTo src 127, strtonumTo dst 127 with
    | some pf, some pt => if pt = pf then none else some (pf, pt)
    | _, _ => none
  | _ => none

/-- `GPT_PRIORITY_MAX`, `GPT_TRIES_MAX` and `GPT_SUCCESS_MAX` -/
def gptPriorityMax : UInt64 := 0xf
def gptTriesMax : UInt64 := 0xf
def gptSuccessMax : UInt64 := 0x1

/-- The flags that `Xflags` sets. -/
structure Flags where
  active : Bool
  priority : UInt64
  tries : UInt64
  success : UInt64
deriving DecidableEq

/-- The four further arguments of `Xflags`. -/
def flagsValues (activep priorityp triesp successp : List Char) : Option Flags :=
  match strtonumTo activep 1, strtonumTo priorityp gptPriorityMax.toNat,
    strtonumTo triesp gptTriesMax.toNat, strtonumTo successp gptSuccessMax.toNat with
  | some active, some priority, some tries, some success =>
    some ⟨active ≠ 0, UInt64.ofNat priority, UInt64.ofNat tries, UInt64.ofNat success⟩
  | _, _, _, _ => none

/-- The arguments of `Xflags`: the entry, and the flags where they are given.
    `none` where it returns with nothing done. -/
def flagsArgs (args : List Char) : Option (Nat × Option Flags) :=
  let (partp, activep) := strsep (some args)
  let (activep, priorityp) := strsep activep
  let (priorityp, triesp) := strsep priorityp
  let (triesp, successp) := strsep triesp
  match strtonumTo (partp.getD []) 127 with
  | none => none
  | some part =>
    match activep, priorityp, triesp, successp with
    | none, none, none, none => some (part, none)
    | some a, some p, some t, some s => (flagsValues a p t s).map fun f => (part, some f)
    | _, _, _, _ => none

/-! ## The commands -/

/-- What a command returns. -/
inductive EditRet where
  | cont
  | dirty
deriving DecidableEq

/-- The answers to the questions of one command. -/
structure Console where
  /-- `ask_pid`, from its default -/
  askPid : Nat → Nat
  /-- `ask_string`, into a buffer of zeros -/
  askString : Vector UInt8 36
  /-- `ask_yn` -/
  askYn : Bool
  /-- `getuint`, from its prompt, `oval` and `maxval` -/
  getuint : String → UInt64 → UInt64 → UInt64
  /-- `uuid_create` -/
  uuidCreate : Uuid

/-- `gpt->part[i]`, read -/
def getPart (g : Gpt) (i : Nat) : Except EditFault GptPartition :=
  match g.part[i]? with
  | some p => .ok p
  | none => .error .outside

/-- `gpt->part[i] = p` -/
def setPart (g : Gpt) (i : Nat) (p : GptPartition) : Except EditFault Gpt :=
  if i < g.part.length then
    .ok { header := g.header, part := g.part.set i p,
          length_part := by rw [List.length_set, g.length_part] }
  else .error .outside

/-- The value of a string of hexadecimal digits. -/
def hexValue (cs : List Char) : Nat :=
  cs.foldl (fun n c => 16 * n + if c.isDigit then c.toNat - '0'.toNat
    else c.toLower.toNat - 'a'.toNat + 10) 0

def uuidFromString (s : String) : Uuid :=
  let field := fun (pos len : Nat) => hexValue ((s.toList.drop pos).take len)
  ⟨UInt32.ofNat (field 0 8), UInt16.ofNat (field 9 4), UInt16.ofNat (field 14 4),
    UInt8.ofNat (field 19 2), UInt8.ofNat (field 21 2),
    Vector.ofFn fun k : Fin 6 => UInt8.ofNat (field (24 + 2 * k) 2)⟩

def prtSetTypeByPid (partn : GptPartition) (pid : Nat) : GptPartition :=
  match partTypes.find? (fun t => t.1 = pid) with
  | some t => { partn with type := uuidFromString t.2 }
  | none => partn

/-- `memset(pp, 0, sizeof(*pp))` -/
def zeroPartition : GptPartition := ⟨Uuid.nil, Uuid.nil, 0, 0, 0, Vector.replicate 36 0⟩

def xswap (args : List Char) (g : Gpt) : Except EditFault (Gpt × EditRet) :=
  match swapArgs args with
  | none => .ok (g, .cont)
  | some (pf, pt) => do
      let pp ← getPart g pt
      let q ← getPart g pf
      let g ← setPart g pt q
      let g ← setPart g pf pp
      return (g, .dirty)

/-- The default of the question about the type. -/
def setpidDflt (pp : GptPartition) : Nat :=
  if uuidIsNil pp.type then gptptypOpenbsd else prtPidForType pp.type

def xsetpid (con : Console) (args : List Char) (g : Gpt) : Except EditFault (Gpt × EditRet) :=
  match strtonumTo args 127 with
  | none => .ok (g, .cont)
  | some pn => do
      let pp ← getPart g pn
      let num := con.askPid (setpidDflt pp)
      if num = prtPidForType pp.type then return (g, .cont)
      let g ← setPart g pn (prtSetTypeByPid pp num)
      return (g, .dirty)

/-- A `char` in a `uint16_t`: the sign goes along. -/
def charToU16 (c : UInt8) : UInt16 := if c < 0x80 then c.toUInt16 else c.toUInt16 ||| 0xff00

/-- The rest of `Xedit` on an entry in use: name, offset and size. -/
def editRange (con : Console) (h : GptHeader) (pp : GptPartition) : GptPartition :=
  let pp := { pp with name := con.askString.map charToU16 }
  let pp := { pp with startLba := con.getuint "Partition offset" pp.startLba h.endLba }
  let size := con.getuint "Partition size" (pp.endLba - pp.startLba + 1)
    (h.endLba - pp.startLba + 1)
  let pp := { pp with endLba := size + pp.startLba - 1 }
  -- a partition of no size is removed
  if pp.startLba > pp.endLba then zeroPartition
  else if uuidIsNil pp.guid then { pp with guid := con.uuidCreate }
  else pp

/-- The room of a new entry. -/
def fillNew (d : Disk) (fuel : Nat) (g : Gpt) (pn : Nat) (new : Bool) : Except EditFault Gpt :=
  if new then gptFillremaining d fuel g pn else .ok g

def xedit (con : Console) (d : Disk) (fuel : Nat) (args : List Char) (g : Gpt) :
    Except EditFault (Gpt × EditRet) :=
  match strtonumTo args 127 with
  | none => .ok (g, .cont)
  | some pn => do
      let old ← getPart g pn
      let (g, ret) ← xsetpid con args g
      let pp ← getPart g pn
      if uuidIsNil pp.type then
        let g ← setPart g pn zeroPartition
        return (g, ret)
      let g ← fillNew d fuel g pn (uuidIsNil old.type)
      let pp ← getPart g pn
      let g ← setPart g pn (editRange con g.header pp)
      return (g, ret)

def gptDosactive : UInt64 := 0x2

/-- `GPT_PRIORITY_SHIFT`, `GPT_TRIES_SHIFT` and `GPT_SUCCESS_SHIFT`; the masks
    are the greatest values. -/
def gptPriorityShift : UInt64 := 48
def gptTriesShift : UInt64 := 52
def gptSuccessShift : UInt64 := 56

/-- `(attribute >> shift) & mask` -/
def attrField (attr mask shift : UInt64) : UInt64 := (attr >>> shift) &&& mask

/-- `attribute &= ~(mask << shift); attribute |= (v & mask) << shift` -/
def setAttrField (attr mask shift v : UInt64) : UInt64 :=
  (attr &&& ~~~(mask <<< shift)) ||| ((v &&& mask) <<< shift)

/-- The questions of `Xflags` about an entry. -/
def askFlags (con : Console) (attr : UInt64) : Flags :=
  { active := con.askYn
    priority := con.getuint "Priority" (attrField attr gptPriorityMax gptPriorityShift)
      gptPriorityMax
    tries := con.getuint "Tries" (attrField attr gptTriesMax gptTriesShift) gptTriesMax
    success := con.getuint "Success" (attrField attr gptSuccessMax gptSuccessShift)
      gptSuccessMax }

/-- The loop of `Xflags` that marks entry `part` as the active one. -/
def markActive (part : Nat) (g : Gpt) : Gpt :=
  { header := g.header
    part := g.part.mapIdx fun i p =>
      { p with attributes :=
          if i = part then p.attributes ||| gptDosactive else p.attributes &&& ~~~gptDosactive }
    length_part := by rw [List.length_mapIdx, g.length_part] }

/-- The three fields that `Xflags` sets last. -/
def setFlags (f : Flags) (p : GptPartition) : GptPartition :=
  let a := setAttrField p.attributes gptPriorityMax gptPriorityShift f.priority
  let a := setAttrField a gptTriesMax gptTriesShift f.tries
  { p with attributes := setAttrField a gptSuccessMax gptSuccessShift f.success }

/-- The flags that were given, or else asked for. -/
def flagsOrAsk (con : Console) (g : Gpt) (part : Nat) : Option Flags → Except EditFault Flags
  | some f => .ok f
  | none => do
      let p ← getPart g part
      return askFlags con p.attributes

def xflags (con : Console) (args : List Char) (g : Gpt) : Except EditFault (Gpt × EditRet) :=
  match flagsArgs args with
  | none => .ok (g, .cont)
  | some (part, flags) => do
      let f ← flagsOrAsk con g part flags
      let g := if f.active then markActive part g else g
      let p ← getPart g part
      let g ← setPart g part (setFlags f p)
      return (g, .dirty)

/-- The commands that change the table. -/
inductive EditCmd where
  | swap
  | setpid
  | edit
  | flags
deriving DecidableEq

/-- The call of a command from `USER_modify`. -/
def runEdit (cmd : EditCmd) (con : Console) (d : Disk) (fuel : Nat) (args : List Char) (g : Gpt) :
    Except EditFault (Gpt × EditRet) :=
  match cmd with
  | .swap => xswap args g
  | .setpid => xsetpid con args g
  | .edit => xedit con d fuel args g
  | .flags => xflags con args g

/-- The entries that a command line names, when it is not refused. -/
def targets (cmd : EditCmd) (args : List Char) : List Nat :=
  match cmd with
  | .swap => ((swapArgs args).map fun t => [t.1, t.2]).getD []
  | .setpid => (strtonumTo args 127).toList
  | .edit => (strtonumTo args 127).toList
  | .flags => ((flagsArgs args).map fun t => t.1).toList

/-! ## Runs that stay inside the table -/

/-- A run that reads and writes entries of the table only. -/
def Inside {α : Type} (r : Except EditFault α) : Prop := r ≠ .error .outside

section

variable {α β : Type}

theorem inside_ok (a : α) : Inside (.ok a) := by
  intro h
  cases h

theorem not_inside_outside : ¬ Inside (.error .outside : Except EditFault α) := fun h => h rfl

variable {r : Except EditFault α}

theorem inside_bind {f : α → Except EditFault β} (hr : Inside r)
    (hf : ∀ a, r = .ok a → Inside (f a)) : Inside (r >>= f) := by
  cases r with
  | ok a => exact hf a rfl
  | error e =>
    intro h
    apply hr
    cases h
    rfl

theorem bind_outside (f : α → Except EditFault β) :
    ((.error .outside : Except EditFault α) >>= f) = .error .outside := rfl

theorem inside_iff_of_one {o : Option Nat} {n : Nat}
    (hnone : o = none → Inside r) (hin : ∀ k, o = some k → k < n → Inside r)
    (hout : ∀ k, o = some k → n ≤ k → r = .error .outside) :
    Inside r ↔ ∀ k ∈ o.toList, k < n := by
  cases o with
  | none => exact ⟨fun _ k hk => absurd hk not_mem_nil, fun _ => hnone rfl⟩
  | some k =>
    rw [Option.toList_some]
    constructor
    · intro h k' hk'
      rw [mem_singleton.mp hk']
      by_contra hge
      rw [hout k rfl (Nat.not_lt.mp hge)] at h
      exact not_inside_outside h
    · intro h
      exact hin k rfl (h k (mem_singleton_self k))

end

variable {g g' : Gpt} {i : Nat}

theorem getPart_inside (h : i < g.part.length) : Inside (getPart g i) := by
  unfold getPart
  rw [getElem?_eq_getElem h]
  exact inside_ok _

theorem getPart_outside (h : g.part.length ≤ i) : getPart g i = .error .outside := by
  unfold getPart
  rw [getElem?_eq_none h]

theorem setPart_inside (h : i < g.part.length) (p : GptPartition) : Inside (setPart g i p) := by
  unfold setPart
  rw [if_pos h]
  exact inside_ok _

theorem setPart_length {p : GptPartition} (h : setPart g i p = .ok g') :
    g'.part.length = g.part.length := by
  unfold setPart at h
  split at h
  · cases h
    exact length_set
  · cases h

variable {d : Disk} {fuel : Nat}

theorem gptFillremaining_inside (h : i < g.part.length) : Inside (gptFillremaining d fuel g i) := by
  unfold gptFillremaining
  rw [getElem?_eq_getElem h]
  cases fillStart (sectoblk d g.header.startLba) fuel 1 with
  | none =>
    intro hbad
    cases hbad
  | some _ => exact inside_ok _

theorem gptFillremaining_length
    (h : gptFillremaining d fuel g i = .ok g') : g'.part.length = g.part.length := by
  obtain ⟨_, _, -, -, -, hset⟩ := gptFillremaining_eq_ok.mp h
  rw [hset, length_set]

/-! ## The commands -/

theorem xswap_inside_iff {args : List Char} :
    Inside (xswap args g) ↔ ∀ k ∈ targets .swap args, k < g.part.length := by
  unfold xswap targets
  cases swapArgs args with
  | none => exact ⟨fun _ k hk => absurd hk not_mem_nil, fun _ => inside_ok _⟩
  | some t =>
    obtain ⟨pf, pt⟩ := t
    dsimp only [Option.map_some, Option.getD_some]
    constructor
    · -- both entries are read before one is written
      intro h k hk
      by_contra hge
      have hge := Nat.not_lt.mp hge
      rcases mem_cons.mp hk with rfl | hk
      · cases hpt : getPart g pt with
        | ok pp =>
          rw [hpt, getPart_outside hge] at h
          exact h rfl
        | error e =>
          cases e with
          | outside =>
            rw [hpt] at h
            exact h rfl
          | fuel =>
            unfold getPart at hpt
            split at hpt <;> cases hpt
      · rw [mem_singleton.mp hk] at hge
        rw [getPart_outside hge] at h
        exact h rfl
    · intro h
      have hpf : pf < g.part.length := h pf mem_cons_self
      have hpt : pt < g.part.length :=
        h pt (mem_cons_of_mem _ (mem_singleton_self pt))
      apply inside_bind (getPart_inside hpt)
      intro pp _
      apply inside_bind (getPart_inside hpf)
      intro q _
      apply inside_bind (setPart_inside hpt q)
      intro g₁ hg₁
      apply inside_bind (setPart_inside (by rw [setPart_length hg₁]; exact hpf) pp)
      intro g₂ _
      exact inside_ok _

section

variable {con : Console} {args : List Char} {pn : Nat}

theorem xsetpid_inside (hargs : strtonumTo args 127 = some pn) (hpn : pn < g.part.length) :
    Inside (xsetpid con args g) := by
  unfold xsetpid
  rw [hargs]
  apply inside_bind (getPart_inside hpn)
  intro pp _
  dsimp only
  split
  · exact inside_ok _
  · apply inside_bind (setPart_inside hpn _)
    intro g₁ _
    exact inside_ok _

theorem xsetpid_length {r : Gpt × EditRet} (h : xsetpid con args g = .ok r) :
    r.1.part.length = g.part.length := by
  unfold xsetpid at h
  split at h
  · cases h
    rfl
  · rename_i pn hargs
    cases hpp : getPart g pn with
    | error e =>
      rw [hpp] at h
      cases h
    | ok pp =>
      rw [hpp] at h
      simp only [bind, Except.bind, pure, Except.pure] at h
      split at h
      · cases h
        rfl
      · cases hset : setPart g pn (prtSetTypeByPid pp (con.askPid (setpidDflt pp))) with
        | error e =>
          rw [hset] at h
          cases h
        | ok g₁ =>
          rw [hset] at h
          cases h
          exact setPart_length hset

theorem xsetpid_inside_iff :
    Inside (xsetpid con args g) ↔ ∀ k ∈ targets .setpid args, k < g.part.length := by
  apply inside_iff_of_one
  · intro hargs
    unfold xsetpid
    rw [hargs]
    exact inside_ok _
  · intro k hargs hk
    exact xsetpid_inside hargs hk
  · intro k hargs hk
    unfold xsetpid
    rw [hargs]
    dsimp only
    rw [getPart_outside hk, bind_outside]

theorem xedit_inside (hargs : strtonumTo args 127 = some pn)
    (hpn : pn < g.part.length) : Inside (xedit con d fuel args g) := by
  unfold xedit
  rw [hargs]
  apply inside_bind (getPart_inside hpn)
  intro old _
  apply inside_bind (xsetpid_inside hargs hpn)
  rintro ⟨g₁, ret⟩ hset
  -- neither the type nor the room changes how many entries there are
  have hpn₁ : pn < g₁.part.length := by rw [xsetpid_length hset]; exact hpn
  apply inside_bind (getPart_inside hpn₁)
  intro pp _
  split
  · apply inside_bind (setPart_inside hpn₁ _)
    intro g₂ _
    exact inside_ok _
  · have hfill : Inside (fillNew d fuel g₁ pn (uuidIsNil old.type)) := by
      unfold fillNew
      split
      · exact gptFillremaining_inside hpn₁
      · exact inside_ok _
    apply inside_bind hfill
    intro g₂ hg₂
    have hpn₂ : pn < g₂.part.length := by
      unfold fillNew at hg₂
      split at hg₂
      · rw [gptFillremaining_length hg₂]
        exact hpn₁
      · cases hg₂
        exact hpn₁
    apply inside_bind (getPart_inside hpn₂)
    intro p₂ _
    apply inside_bind (setPart_inside hpn₂ _)
    intro g₃ _
    exact inside_ok _

theorem xedit_inside_iff :
    Inside (xedit con d fuel args g) ↔ ∀ k ∈ targets .edit args, k < g.part.length := by
  apply inside_iff_of_one
  · intro hargs
    unfold xedit
    rw [hargs]
    exact inside_ok _
  · intro k hargs hk
    exact xedit_inside hargs hk
  · intro k hargs hk
    unfold xedit
    rw [hargs]
    dsimp only
    rw [getPart_outside hk, bind_outside]

theorem markActive_length (part : Nat) : (markActive part g).part.length = g.part.length :=
  length_mapIdx

theorem xflags_inside_iff :
    Inside (xflags con args g) ↔ ∀ k ∈ targets .flags args, k < g.part.length := by
  unfold xflags
  cases hargs : flagsArgs args with
  | none =>
    unfold targets
    rw [hargs]
    exact ⟨fun _ k hk => absurd hk not_mem_nil, fun _ => inside_ok _⟩
  | some t =>
    obtain ⟨part, flags⟩ := t
    unfold targets
    rw [hargs]
    have hmark : ∀ f : Flags,
        (if f.active then markActive part g else g).part.length = g.part.length := by
      intro f
      split
      · exact markActive_length part
      · rfl
    apply inside_iff_of_one
    · intro h
      cases h
    · intro k hk hlt
      cases hk
      have hflags : Inside (flagsOrAsk con g part flags) := by
        cases flags with
        | some f => exact inside_ok f
        | none =>
          apply inside_bind (getPart_inside hlt)
          intro p _
          exact inside_ok _
      apply inside_bind hflags
      intro f _
      dsimp only
      apply inside_bind (getPart_inside (by rw [hmark f]; exact hlt))
      intro p _
      apply inside_bind (setPart_inside (by rw [hmark f]; exact hlt) _)
      intro g₁ _
      exact inside_ok _
    · intro k hk hge
      cases hk
      cases flags with
      | none =>
        unfold flagsOrAsk
        dsimp only
        rw [getPart_outside hge, bind_outside, bind_outside]
      | some f =>
        show (getPart (if f.active then markActive part g else g) part >>= fun p => _) = _
        rw [getPart_outside (by rw [hmark f]; exact hge), bind_outside]

end

/-! ## The constant bound -/

theorem runEdit_inside {cmd : EditCmd} {con : Console} {args : List Char} :
    Inside (runEdit cmd con d fuel args g) ↔ ∀ k ∈ targets cmd args, k < g.part.length := by
  cases cmd with
  | swap => exact xswap_inside_iff
  | setpid => exact xsetpid_inside_iff
  | edit => exact xedit_inside_iff
  | flags => exact xflags_inside_iff

/-- A command stays inside the table when the table has all the entries that
    the command line names, and only then; `GPT_fillremaining` does on every
    entry of the table. -/
theorem runEdit_inside_iff (cmd : EditCmd) (con : Console) (d : Disk) (fuel : Nat)
    (args : List Char) (g : Gpt) :
    (Inside (runEdit cmd con d fuel args g) ↔
      ∀ k ∈ targets cmd args, k < g.header.partitionsNum.toNat) ∧
    ∀ pn < g.header.partitionsNum.toNat, Inside (gptFillremaining d fuel g pn) := by
  rw [← g.length_part]
  exact ⟨runEdit_inside, fun pn hpn => gptFillremaining_inside hpn⟩

/-- `swap 0 5` in a table of two entries. -/
theorem swap_outside :
    ¬ ∃ crc32 : List UInt8 → UInt32, ∀ (d : Disk) (alt : Bool) (g : Gpt),
        gptLoad crc32 d alt = .ok g →
          ∀ (cmd : EditCmd) (con : Console) (fuel : Nat) (args : List Char),
            Inside (runEdit cmd con d fuel args g) := by
  rintro ⟨crc32, h⟩
  have ok : StoreOk (blankDisk 100 (by decide)) topGpt := topGpt_storeOk (by decide)
  have hload := @load_stored_primary crc32 _ _ ok
  have con : Console := ⟨id, Vector.replicate 36 0, false, fun _ oval _ => oval, Uuid.nil⟩
  have hrun := h _ _ _ hload .swap con 0 ['0', ' ', '5']
  have hfive : 5 < topGpt.part.length := runEdit_inside.mp hrun 5 (by decide)
  exact absurd hfive (by decide)

end OpenBsd.Gdisk
