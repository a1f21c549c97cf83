/-
  OpenBsd.Msdosfs.MsdosfsConv

  The long file names of Win95 in `sys/msdosfs/msdosfs_conv.c`, in the directory entry that
  `sys/msdosfs/direntry.h` lays out for them.

  A name is the list of its bytes, and a pointer that walks through a name or through a part
  of an entry is the list of the bytes still ahead of it.
-/

import Mathlib.Data.List.Basic

namespace OpenBsd.Msdosfs

/-! ## The directory entry -/

def winLast : UInt8 := 0x40

def winCnt : UInt8 := 0x3f

def winChars : Nat := 13

def winMaxlen : Nat := 255

def attrWin95 : UInt8 := 0x0f

def howmanyChars (len : Nat) : Nat := (len + (winChars - 1)) / winChars

/-- `struct winentry`: each of the three parts of the name takes two bytes a character. -/
structure Winentry where
  weCnt : UInt8
  wePart1 : List UInt8
  weAttributes : UInt8
  weReserved1 : UInt8
  weChksum : UInt8
  wePart2 : List UInt8
  weReserved2 : UInt16
  wePart3 : List UInt8
  size1 : wePart1.length = 2 * 5
  size2 : wePart2.length = 2 * 6
  size3 : wePart3.length = 2 * 2

/-- What `win2unixfn` writes of `struct dirent`. -/
structure Dirent where
  dNamlen : UInt8
  dName : Nat → UInt8

/-- `d_name[np] = c`. -/
def Dirent.put (dp : Dirent) (np : Nat) (c : UInt8) : Dirent :=
  { dp with dName := fun k => if k = np then c else dp.dName k }

/-- `*cp == ' ' || *cp == '.'`. -/
def blankOrDot (c : UInt8) : Bool := c == 0x20 || c == 0x2e

/-! ## The writer -/

/-- The loop that drops the trailing blanks and dots of the first `unlen` bytes; `none` when it
    runs off the front of the name. -/
def dropTrailing (un : List UInt8) : Nat → Option Nat
  | 0 => none
  | unlen + 1 => if blankOrDot (un.getD unlen 0) then dropTrailing un unlen else some (unlen + 1)

/-- One of the three loops over a part, which `0xff` fills, with `i` characters to go: the bytes
    of the part and the rest of the name, or `none` after the `goto done`. -/
def fillPart : Nat → Option (List UInt8) → List UInt8 × Option (List UInt8)
  | 0, un => ([], un)
  | i + 1, none => (List.replicate (2 * (i + 1)) 0xff, none)
  | i + 1, some [] => (0 :: 0 :: List.replicate (2 * i) 0xff, none)
  | i + 1, some (c :: un) => (c :: 0 :: (fillPart i (some un)).1, (fillPart i (some un)).2)

@[simp] theorem fillPart_length (i : Nat) (un : Option (List UInt8)) :
    (fillPart i un).1.length = 2 * i := by
  induction i generalizing un with
  | zero => rfl
  | succ i ih =>
    cases un with
    | none => simp only [fillPart, List.length_replicate]
    | some l =>
      cases l with
      | nil =>
        simp only [fillPart, List.length_cons, List.length_replicate]
        omega
      | cons c l =>
        simp only [fillPart, List.length_cons, ih]
        omega

/-- `unix2winfn` after the trailing blanks and dots are gone: the entry with number `cnt`, from 1
    on, and the value returned. -/
def fillWinentry (un : List UInt8) (cnt : Nat) (chksum : UInt8) : Winentry × Nat :=
  let part1 := fillPart 5 (some (un.drop ((cnt - 1) * winChars)))
  let part2 := fillPart 6 part1.2
  let part3 := fillPart 2 part2.2
  let weCnt : UInt8 := UInt8.ofNat cnt
  ({ weCnt := if (part3.2.getD []).isEmpty then weCnt ||| winLast else weCnt
     wePart1 := part1.1
     weAttributes := attrWin95
     weReserved1 := 0
     weChksum := chksum
     wePart2 := part2.1
     weReserved2 := 0
     wePart3 := part3.1
     size1 := fillPart_length 5 _
     size2 := fillPart_length 6 _
     size3 := fillPart_length 2 _ }, (part3.2.getD []).length)

/-- `unix2winfn(un, unlen, wep, cnt, chksum)`. -/
def unix2winfn (un : List UInt8) (unlen cnt : Nat) (chksum : UInt8) : Option (Winentry × Nat) :=
  (dropTrailing un unlen).map fun len => fillWinentry (un.take len) cnt chksum

/-- `winSlotCnt`'s loop over the trailing blanks and dots. -/
def slotLen (un : List UInt8) : Nat → Nat
  | 0 => 0
  | unlen + 1 => if blankOrDot (un.getD unlen 0) then slotLen un unlen else unlen + 1

def winSlotCnt (un : List UInt8) (unlen : Nat) : Nat :=
  if slotLen un unlen > winMaxlen then 0 else howmanyChars (slotLen un unlen)

/-- The entries that `unix2winfn` writes for `cnt = 1, 2, ...` up to `winSlotCnt`. -/
def winEntries (un : List UInt8) (unlen : Nat) (chksum : UInt8) : Option (List Winentry) :=
  (List.range (winSlotCnt un unlen)).mapM fun k =>
    (unix2winfn un unlen (k + 1) chksum).map Prod.fst

/-! ## The matcher -/

/-- `u2l`: the lower case of each byte. -/
def u2lTable : List UInt8 :=
  [0x00, 0x01, 0x02, 0x03, 0x04, 0x05, 0x06, 0x07, 0x08, 0x09, 0x0a, 0x0b, 0x0c, 0x0d, 0x0e, 0x0f,
   0x10, 0x11, 0x12, 0x13, 0x14, 0x15, 0x16, 0x17, 0x18, 0x19, 0x1a, 0x1b, 0x1c, 0x1d, 0x1e, 0x1f,
   0x20, 0x21, 0x22, 0x23, 0x24, 0x25, 0x26, 0x27, 0x28, 0x29, 0x2a, 0x2b, 0x2c, 0x2d, 0x2e, 0x2f,
   0x30, 0x31, 0x32, 0x33, 0x34, 0x35, 0x36, 0x37, 0x38, 0x39, 0x3a, 0x3b, 0x3c, 0x3d, 0x3e, 0x3f,
   0x40, 0x61, 0x62, 0x63, 0x64, 0x65, 0x66, 0x67, 0x68, 0x69, 0x6a, 0x6b, 0x6c, 0x6d, 0x6e, 0x6f,
   0x70, 0x71, 0x72, 0x73, 0x74, 0x75, 0x76, 0x77, 0x78, 0x79, 0x7a, 0x5b, 0x5c, 0x5d, 0x5e, 0x5f,
   0x60, 0x61, 0x62, 0x63, 0x64, 0x65, 0x66, 0x67, 0x68, 0x69, 0x6a, 0x6b, 0x6c, 0x6d, 0x6e, 0x6f,
   0x70, 0x71, 0x72, 0x73, 0x74, 0x75, 0x76, 0x77, 0x78, 0x79, 0x7a, 0x7b, 0x7c, 0x7d, 0x7e, 0x7f,
   0x80, 0x81, 0x82, 0x83, 0x84, 0x85, 0x86, 0x87, 0x88, 0x89, 0x8a, 0x8b, 0x8c, 0x8d, 0x8e, 0x8f,
   0x90, 0x91, 0x92, 0x93, 0x94, 0x95, 0x96, 0x97, 0x98, 0x99, 0x9a, 0x9b, 0x9c, 0x9d, 0x9e, 0x9f,
   0xa0, 0xa1, 0xa2, 0xa3, 0xa4, 0xa5, 0xa6, 0xa7, 0xa8, 0xa9, 0xaa, 0xab, 0xac, 0xad, 0xae, 0xaf,
   0xb0, 0xb1, 0xb2, 0xb3, 0xb4, 0xb5, 0xb6, 0xb7, 0xb8, 0xb9, 0xba, 0xbb, 0xbc, 0xbd, 0xbe, 0xbf,
   0xe0, 0xe1, 0xe2, 0xe3, 0xe4, 0xe5, 0xe6, 0xe7, 0xe8, 0xe9, 0xea, 0xeb, 0xec, 0xed, 0xee, 0xef,
   0xf0, 0xf1, 0xf2, 0xf3, 0xf4, 0xf5, 0xf6, 0xd7, 0xf8, 0xf9, 0xfa, 0xfb, 0xfc, 0xfd, 0xfe, 0xdf,
   0xe0, 0xe1, 0xe2, 0xe3, 0xe4, 0xe5, 0xe6, 0xe7, 0xe8, 0xe9, 0xea, 0xeb, 0xec, 0xed, 0xee, 0xef,
   0xf0, 0xf1, 0xf2, 0xf3, 0xf4, 0xf5, 0xf6, 0xf7, 0xf8, 0xf9, 0xfa, 0xfb, 0xfc, 0xfd, 0xfe, 0xff]

def u2l (c : UInt8) : UInt8 := u2lTable.getD c.toNat 0

/-- How one of the loops of `winChkName` ends: it goes through the part, or it returns. -/
inductive ChkStep where
  | next (un : List UInt8)
  | hit
  | miss

/-- One of the three loops of `winChkName`, with `i` characters to go. -/
def winChkPart : Nat → List UInt8 → List UInt8 → ChkStep
  | i + 1, lo :: hi :: cp, un =>
    match un with
    | [] => if lo = 0 ∧ hi = 0 then .hit else .miss
    | c :: un => if u2l lo ≠ u2l c ∨ hi ≠ 0 then .miss else winChkPart i cp un
  | _, _, un => .next un

/-- The checksum that both readers go on with: the entry's own for the last one, else the one of
    the entries before if the two agree. -/
def winChksumOf (wep : Winentry) (chksum : Int) : Int :=
  if wep.weCnt &&& winLast ≠ 0 then wep.weChksum.toNat
  else if chksum ≠ wep.weChksum.toNat then -1 else chksum

/-- `((wep->weCnt&WIN_CNT) - 1) * WIN_CHARS`. -/
def winOffset (wep : Winentry) : Int := (((wep.weCnt &&& winCnt).toNat : Int) - 1) * winChars

/-- The loops of `winChkName` after one of them: the next part, or the return value. -/
def ChkStep.andThen (s : ChkStep) (chksum : Int) (k : List UInt8 → Int) : Int :=
  match s with
  | .next un => k un
  | .hit => chksum
  | .miss => -1

/-- `winChkName(un, unlen, wep, chksum)`, for a name of `un.length` bytes; `none` when it reads in
    front of the name, for an entry with the number 0. -/
def winChkName (un : List UInt8) (wep : Winentry) (chksum : Int) : Option Int :=
  let chksum := winChksumOf wep chksum
  if chksum = -1 then some (-1)
  else
    let i := winOffset wep
    let unlen := (un.length : Int) - i
    if unlen ≤ 0 then some (-1)
    else if wep.weCnt &&& winLast ≠ 0 ∧ unlen > winChars then some (-1)
    else if i < 0 then none
    else
      some ((winChkPart 5 wep.wePart1 (un.drop i.toNat)).andThen chksum fun un =>
        (winChkPart 6 wep.wePart2 un).andThen chksum fun un =>
          (winChkPart 2 wep.wePart3 un).andThen chksum fun _ => chksum)

/-- `adjlen` of `msdosfs_lookup`, which calls `winChkName` with the length that the same loop over
    the trailing blanks and dots leaves. -/
def adjlen (un : List UInt8) (namelen : Nat) : Nat := slotLen un namelen

/-- What `winChkName` returns for one entry after the other. -/
def winChkNames (un : List UInt8) : List Winentry → Int → Option (List Int)
  | [], _ => some []
  | wep :: es, chksum =>
    (winChkName un wep chksum).bind fun c => (winChkNames un es c).map (c :: ·)

/-! ## The reader -/

/-- How one of the loops of `win2unixfn` ends: it goes through the part with the pointer into
    `d_name`, or it returns the checksum or -1. -/
inductive FnStep where
  | next (np : Nat) (dp : Dirent)
  | done (dp : Dirent)
  | bad (dp : Dirent)

/-- One of the three loops of `win2unixfn`, with `i` characters to go and `rest` in the parts
    behind it.  The test of `ep` is compiled into one of the loops only. -/
def win2unixPart (rest : Nat) (testEp : Bool) : Nat → List UInt8 → Nat → Dirent → FnStep
  | i + 1, lo :: hi :: cp, np, dp =>
    let dp := dp.put np lo
    if lo = 0 then .done { dp with dNamlen := dp.dNamlen - UInt8.ofNat (rest + i + 1) }
    else if lo = 0x2f then .bad (dp.put np 0)
    else if testEp ∧ winMaxlen < np + 1 then .bad (dp.put np 0)
    else if hi ≠ 0 then .bad dp
    else win2unixPart rest testEp i cp (np + 1) dp
  | _, _, np, dp => .next np dp

/-- The loops of `win2unixfn` after one of them: the next part, or the return value. -/
def FnStep.andThen (s : FnStep) (chksum : Int) (k : Nat → Dirent → Int × Dirent) : Int × Dirent :=
  match s with
  | .next np dp => k np dp
  | .done dp => (chksum, dp)
  | .bad dp => (-1, dp)

/-- `win2unixfn(wep, dp, chksum)`: the value returned and the directory entry. -/
def win2unixfn (wep : Winentry) (dp : Dirent) (chksum : Int) : Int × Dirent :=
  let cnt := (wep.weCnt &&& winCnt).toNat
  if cnt > howmanyChars winMaxlen ∨ cnt = 0 then (-1, dp)
  else
    let chksum := winChksumOf wep chksum
    let dp := if wep.weCnt &&& winLast ≠ 0 then { dp with dNamlen := UInt8.ofNat (cnt * winChars) }
      else dp
    if chksum = -1 then (-1, dp)
    else
      (win2unixPart (6 + 2) (decide (winMaxlen % winChars < 5)) 5 wep.wePart1
        (winOffset wep).toNat dp).andThen chksum fun np dp =>
        (win2unixPart 2 (decide (winMaxlen % winChars ≥ 5 ∧ winMaxlen % winChars < 5 + 6)) 6
          wep.wePart2 np dp).andThen chksum fun np dp =>
          (win2unixPart 0 (decide (winMaxlen % winChars ≥ 5 + 6)) 2 wep.wePart3 np dp).andThen
            chksum fun _ dp => (chksum, dp)

/-- `win2unixfn` on one entry after the other, into one directory entry: the values returned and
    the directory entry at the end. -/
def win2unixfns : List Winentry → Dirent → Int → List Int × Dirent
  | [], dp, _ => ([], dp)
  | wep :: es, dp, chksum =>
    let r := win2unixfn wep dp chksum
    let rs := win2unixfns es r.2 r.1
    (r.1 :: rs.1, rs.2)

end OpenBsd.Msdosfs
