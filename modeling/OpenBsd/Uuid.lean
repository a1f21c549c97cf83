/-
  OpenBsd.Uuid

  `struct uuid` (`sys/uuid.h`) and the two decoders of `kern_uuid.c`.  In memory
  the integers of a `struct uuid` are little endian here, so its memory image is
  what `uuid_dec_le` reads; the constants of `sys/disklabel.h` are written big
  endian and go through `uuid_dec_be`.
-/

import OpenBsd.Lib.Codec

namespace OpenBsd

open OpenBsd.Lib

/-- `struct uuid` -/
structure Uuid where
  timeLow : UInt32
  timeMid : UInt16
  timeHiAndVersion : UInt16
  clockSeqHiAndReserved : UInt8
  clockSeqLow : UInt8
  node : Vector UInt8 6
deriving DecidableEq

/-- The memory image of `struct uuid` on a little-endian machine. -/
def Uuid.codec : Codec Uuid :=
  (u32.prod (u16.prod (u16.prod (u8.prod (u8.prod (u8.vector 6)))))).iso
    (fun p => ⟨p.1, p.2.1, p.2.2.1, p.2.2.2.1, p.2.2.2.2.1, p.2.2.2.2.2⟩)
    (fun u => (u.timeLow, u.timeMid, u.timeHiAndVersion, u.clockSeqHiAndReserved,
      u.clockSeqLow, u.node))
    (fun _ => rfl)

def Uuid.nil : Uuid := ⟨0, 0, 0, 0, 0, Vector.replicate 6 0⟩

def uuidDecLe (buf : List UInt8) : Uuid := Uuid.codec.dec buf

def uuidDecBe (buf : List UInt8) : Uuid :=
  { timeLow := UInt32.ofNat (leNat (buf.take 4).reverse)
    timeMid := UInt16.ofNat (leNat ((buf.drop 4).take 2).reverse)
    timeHiAndVersion := UInt16.ofNat (leNat ((buf.drop 6).take 2).reverse)
    clockSeqHiAndReserved := buf.getD 8 0
    clockSeqLow := buf.getD 9 0
    node := Vector.ofFn fun i => buf.getD (10 + i.val) 0 }

theorem uuidDecLe_enc (u : Uuid) : uuidDecLe (Uuid.codec.enc u) = u := Uuid.codec.dec_enc_self u

end OpenBsd
