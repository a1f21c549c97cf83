/-
  OpenBsd.Gdisk.Part

  Partition entries as gdisk holds them (`sbin/gdisk/part.h`, `part.c`): the
  packed `gpt_partition_t`, the overlap test, and the search of the table of
  known partition types.  `uuid_is_nil` and `uuid_to_string` are the libc
  functions of those names.
-/

import OpenBsd.Uuid

namespace OpenBsd.Gdisk

open OpenBsd.Lib

/-! ## UUIDs -/

def uuidIsNil (u : Uuid) : Bool := u = Uuid.nil

/-- `%0*x`: the `n` low hexadecimal digits of `v`. -/
def hexDigits : Nat → Nat → List Char
  | 0, _ => []
  | n + 1, v => hexDigits n (v / 16) ++ [Nat.digitChar (v % 16)]

def uuidToString (u : Uuid) : String :=
  String.ofList (hexDigits 8 u.timeLow.toNat ++ ['-'] ++ hexDigits 4 u.timeMid.toNat ++ ['-'] ++
    hexDigits 4 u.timeHiAndVersion.toNat ++ ['-'] ++ hexDigits 2 u.clockSeqHiAndReserved.toNat ++
    hexDigits 2 u.clockSeqLow.toNat ++ ['-'] ++
    u.node.toList.flatMap fun b => hexDigits 2 b.toNat)

/-! ## Partition entries -/

/-- `gpt_partition_t` -/
structure GptPartition where
  type : Uuid
  guid : Uuid
  startLba : UInt64
  endLba : UInt64
  attributes : UInt64
  name : Vector UInt16 36
deriving DecidableEq

/-- The packed memory image of `gpt_partition_t`. -/
def GptPartition.codec : Codec GptPartition :=
  (Uuid.codec.prod (Uuid.codec.prod (u64.prod (u64.prod (u64.prod (u16.vector 36)))))).iso
    (fun p => ⟨p.1, p.2.1, p.2.2.1, p.2.2.2.1, p.2.2.2.2.1, p.2.2.2.2.2⟩)
    (fun e => (e.type, e.guid, e.startLba, e.endLba, e.attributes, e.name))
    (fun _ => rfl)

/-- `sizeof(gpt_partition_t)` -/
def sizeofGptPartition : Nat := 128

@[simp] theorem GptPartition.codec_size : GptPartition.codec.size = sizeofGptPartition := rfl

def partBytes (part : List GptPartition) : List UInt8 := part.flatMap GptPartition.codec.enc

theorem length_partBytes (part : List GptPartition) :
    (partBytes part).length = part.length * sizeofGptPartition :=
  GptPartition.codec.length_flatMap_enc part

def prtOverlap (p1 p2 : GptPartition) : Bool :=
  p1.endLba ≥ p2.startLba && p2.endLba ≥ p1.startLba

/-! ## Known partition types -/

def gptptypOpenbsd : Nat := 0xa600

/-- The `type` and `sguid` columns of `part_types`. -/
def partTypes : List (Nat × String) :=
  [
    (0x0000, "00000000-0000-0000-0000-000000000000"),
    (0x0100, "ebd0a0a2-b9e5-4433-87c0-68b6b72699c7"),
    (0x0400, "ebd0a0a2-b9e5-4433-87c0-68b6b72699c7"),
    (0x0600, "ebd0a0a2-b9e5-4433-87c0-68b6b72699c7"),
    (0x0700, "ebd0a0a2-b9e5-4433-87c0-68b6b72699c7"),
    (0x0b00, "ebd0a0a2-b9e5-4433-87c0-68b6b72699c7"),
    (0x0c00, "ebd0a0a2-b9e5-4433-87c0-68b6b72699c7"),
    (0x0c01, "e3c9e316-0b5c-4db8-817d-f92df00215ae"),
    (0x0e00, "ebd0a0a2-b9e5-4433-87c0-68b6b72699c7"),
    (0x1100, "ebd0a0a2-b9e5-4433-87c0-68b6b72699c7"),
    (0x1400, "ebd0a0a2-b9e5-4433-87c0-68b6b72699c7"),
    (0x1600, "ebd0a0a2-b9e5-4433-87c0-68b6b72699c7"),
    (0x1700, "ebd0a0a2-b9e5-4433-87c0-68b6b72699c7"),
    (0x1b00, "ebd0a0a2-b9e5-4433-87c0-68b6b72699c7"),
    (0x1c00, "ebd0a0a2-b9e5-4433-87c0-68b6b72699c7"),
    (0x1e00, "ebd0a0a2-b9e5-4433-87c0-68b6b72699c7"),
    (0x2700, "de94bba4-06d1-4d40-a16a-bfd50179d6ac"),
    (0x4200, "af9b60a0-1431-4f62-bc68-3311714a69ad"),
    (0x4201, "5808c8aa-7e8f-42e0-85d2-e1e90434cfb3"),
    (0x7501, "37affc90-ef7d-4e96-91c3-2d7ae055b174"),
    (0x7f00, "fe3a2a5d-4f32-41a7-b725-accc3285a309"),
    (0x7f01, "3cb8e202-3b7e-47dd-8a3c-7ff2a13cfcec"),
    (0x7f02, "2e0a753d-9e48-43b0-8337-b15192cb1b5e"),
    (0x8200, "0657fd6d-a4ab-43c4-84e5-0933c84b4f4f"),
    (0x8300, "0fc63daf-8483-4772-8e79-3d69d8477de4"),
    (0x8301, "8da63339-0007-60c0-c436-083ac8230908"),
    (0x8e00, "e6d6d379-f507-44c2-a23c-238f2a3df928"),
    (0xa500, "516e7cb4-6ecf-11d6-8ff8-00022d09712b"),
    (0xa501, "83bd6b9d-7f41-11dc-be0b-001560b84f0f"),
    (0xa502, "516e7cb5-6ecf-11d6-8ff8-00022d09712b"),
    (0xa503, "516e7cb6-6ecf-11d6-8ff8-00022d09712b"),
    (0xa504, "516e7cba-6ecf-11d6-8ff8-00022d09712b"),
    (0xa505, "516e7cb8-6ecf-11d6-8ff8-00022d09712b"),
    (0xa580, "85d5e45a-237c-11e1-b4b3-e89a8f7fc3a7"),
    (0xa581, "85d5e45e-237c-11e1-b4b3-e89a8f7fc3a7"),
    (0xa582, "85d5e45b-237c-11e1-b4b3-e89a8f7fc3a7"),
    (0xa583, "0394ef8b-237e-11e1-b4b3-e89a8f7fc3a7"),
    (0xa584, "85d5e45d-237c-11e1-b4b3-e89a8f7fc3a7"),
    (0xa585, "85d5e45c-237c-11e1-b4b3-e89a8f7fc3a7"),
    (0xa600, "824cc7a0-36a8-11e3-890a-952519ad3f61"),
    (0xa800, "55465300-0000-11aa-aa11-00306543ecac"),
    (0xa900, "516e7cb4-6ecf-11d6-8ff8-00022d09712b"),
    (0xa901, "49f48d32-b10e-11dc-b99b-0019d1879648"),
    (0xa902, "49f48d5a-b10e-11dc-b99b-0019d1879648"),
    (0xa903, "49f48d82-b10e-11dc-b99b-0019d1879648"),
    (0xa904, "2db519c4-b10f-11dc-b99b-0019d1879648"),
    (0xa905, "2db519ec-b10f-11dc-b99b-0019d1879648"),
    (0xa906, "49f48daa-b10e-11dc-b99b-0019d1879648"),
    (0xab00, "426f6f74-0000-11aa-aa11-00306543ecac"),
    (0xaf00, "48465300-0000-11aa-aa11-00306543ecac"),
    (0xaf01, "52414944-0000-11aa-aa11-00306543ecac"),
    (0xaf02, "52414944-5f4f-11aa-aa11-00306543ecac"),
    (0xaf03, "4c616265-6c00-11aa-aa11-00306543ecac"),
    (0xaf04, "5265636f-7665-11aa-aa11-00306543ecac"),
    (0xaf05, "53746f72-6167-11aa-aa11-00306543ecac"),
    (0xbe00, "6a82cb45-1dd2-11b2-99a6-080020736631"),
    (0xbf00, "6a85cf4d-1dd2-11b2-99a6-080020736631"),
    (0xbf01, "6a898cc3-1dd2-11b2-99a6-080020736631"),
    (0xbf02, "6a87c46f-1dd2-11b2-99a6-080020736631"),
    (0xbf03, "6a8b642b-1dd2-11b2-99a6-080020736631"),
    (0xbf04, "6a8ef2e9-1dd2-11b2-99a6-080020736631"),
    (0xbf05, "6a90ba39-1dd2-11b2-99a6-080020736631"),
    (0xbf06, "6a9283a5-1dd2-11b2-99a6-080020736631"),
    (0xbf07, "6a945a3b-1dd2-11b2-99a6-080020736631"),
    (0xbf08, "6a9630d1-1dd2-11b2-99a6-080020736631"),
    (0xbf09, "6a980767-1dd2-11b2-99a6-080020736631"),
    (0xbf0a, "6a96237f-1dd2-11b2-99a6-080020736631"),
    (0xbf0b, "6a8d2ac7-1dd2-11b2-99a6-080020736631"),
    (0xc001, "75894c1e-3aeb-11d3-b7c1-7b03a0000000"),
    (0xc002, "e2a1e728-32e3-11d6-a682-7b03a0000000"),
    (0xeb00, "42465331-3ba3-10f1-802a-4861696b7521"),
    (0xed00, "f4019732-066e-4e12-8273-346c5641494f"),
    (0xef00, "c12a7328-f81f-11d2-ba4b-00a0c93ec93b"),
    (0xef01, "024dee41-33e7-11d3-9d69-0008c781f39f"),
    (0xef02, "21686148-6449-6e6f-744e-656564454649"),
    (0xef03, "d3bfe2de-3daf-11df-ba40-e3a556d89593"),
    (0xfb00, "aa31e02a-400f-11db-9590-000c2911d1b8"),
    (0xfb01, "9198effc-31c0-11db-8f78-000c2911d1b8"),
    (0xfc00, "9d275380-40ad-11db-bf97-000c2911d1b8"),
    (0xfd00, "a19d880f-05fc-4d3b-a006-743f0f84911e")
  ]

def prtPidForType (guid : Uuid) : Nat :=
  match partTypes.find? (fun t => t.2 = uuidToString guid) with
  | some t => t.1
  | none => 0

end OpenBsd.Gdisk
