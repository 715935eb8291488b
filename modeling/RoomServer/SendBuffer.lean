import RoomServer.Library.Memory
import RoomServer.Library.LittleEndian
import RoomServer.PacketStruct

/-! `SendBuffer` of `Buffer.h`: packets are written one behind the other into a
chunk. What C++ leaves undefined, an `int` that overflows or a `memcpy` past an
array, has no result here. -/
namespace RoomServer
open Library.Memory Library.LittleEndian

/-- The header as the four bytes that `memcpy( …, &pi, sizeof( pi ) )` copies. -/
def PacketID.bytes (pi : PacketID) : List Byte :=
  toBytes 2 pi.type.toNat ++ toBytes 2 pi.size.toNat

@[simp] theorem PacketID.length_bytes (pi : PacketID) : pi.bytes.length = PacketID_SIZE := by
  rw [PacketID.bytes, List.length_append, length_toBytes, length_toBytes]
  rfl

theorem readUInt16_toBytes (word : UInt16) :
    readUInt16 (UInt8.ofNat word.toNat) (UInt8.ofNat (word.toNat / 256)) = word := by
  have hlt := word.toNat_lt
  have hlow : (UInt8.ofNat word.toNat).toNat = word.toNat % 256 := UInt8.toNat_ofNat'
  have hhigh : (UInt8.ofNat (word.toNat / 256)).toNat = word.toNat / 256 % 256 :=
    UInt8.toNat_ofNat'
  have hsum : word.toNat % 256 + 256 * (word.toNat / 256 % 256) = word.toNat := by omega
  rw [readUInt16, hlow, hhigh, hsum, UInt16.ofNat_toNat]

theorem PacketID.read_bytes (pi : PacketID) (rest : List Byte) :
    PacketID.read (pi.bytes ++ rest) = pi := by
  obtain ⟨type, size⟩ := pi
  simp only [PacketID.bytes, toBytes, List.cons_append, List.nil_append, PacketID.read,
    readUInt16_toBytes]

def packetBytes (packetType : PacketType) (body : List Byte) : List Byte :=
  PacketID.bytes ⟨packetType, UInt16.ofNat body.length⟩ ++ body

@[simp] theorem length_packetBytes (packetType : PacketType) (body : List Byte) :
    (packetBytes packetType body).length = PacketID_SIZE + body.length := by
  rw [packetBytes, List.length_append, PacketID.length_bytes]

theorem read_packetBytes (packetType : PacketType) (body : List Byte) :
    PacketID.read (packetBytes packetType body) =
      ⟨packetType, UInt16.ofNat body.length⟩ := PacketID.read_bytes _ _

theorem drop_packetBytes (packetType : PacketType) (body : List Byte) :
    (packetBytes packetType body).drop PacketID_SIZE = body := by
  rw [packetBytes, List.drop_left' (PacketID.length_bytes _)]

section Arriving
variable {packetType : PacketType} {body input stream : List Byte}

theorem header_arrived (h : input <+: packetBytes packetType body ++ stream)
    (hheader : PacketID_SIZE ≤ input.length) :
    PacketID.read input = ⟨packetType, UInt16.ofNat body.length⟩ := by
  have htake : input.take PacketID_SIZE = (packetBytes packetType body).take PacketID_SIZE := by
    obtain ⟨more, hmore⟩ := h
    have hwhole := congrArg (List.take PacketID_SIZE) hmore
    rwa [List.take_append_of_le_length hheader,
      List.take_append_of_le_length (by rw [length_packetBytes]; omega)] at hwhole
  rw [← PacketID.read_take hheader, htake,
    PacketID.read_take (by rw [length_packetBytes]; omega), read_packetBytes]

theorem packet_arrived (h : input <+: packetBytes packetType body ++ stream)
    (hpacket : PacketID_SIZE + body.length ≤ input.length) :
    input = packetBytes packetType body ++ input.drop (PacketID_SIZE + body.length) := by
  have htake : input.take (PacketID_SIZE + body.length) = packetBytes packetType body := by
    obtain ⟨more, hmore⟩ := h
    have hwhole := congrArg (List.take (PacketID_SIZE + body.length)) hmore
    rwa [List.take_append_of_le_length hpacket,
      List.take_left' (length_packetBytes packetType body)] at hwhole
  rw [← htake, List.take_append_drop]

end Arriving

structure SendBuffer where
  chunk : Nat → Byte
  pointer : Nat

namespace SendBuffer

def getChunkSize : Nat := PACKET_SIZE * 10

def reset (_ : SendBuffer) : SendBuffer := ⟨fun _ => 0, 0⟩

def new : SendBuffer := ⟨fun _ => 0, 0⟩

def addInt (a b : Int) : Option Int :=
  if -2147483648 ≤ a + b ∧ a + b ≤ 2147483647 then some (a + b) else none

/-- `memcpy( &m_chunk[offset], data, size )`. -/
def memcpy (chunk : Nat → Byte) (offset : Nat) (data : List Byte) (size : Int) :
    Option (Nat → Byte) :=
  if 0 ≤ size ∧ size ≤ data.length ∧ offset + size ≤ getChunkSize then
    some (write chunk offset (data.take size.toNat))
  else none

def isCopy (b : SendBuffer) (sendSize : Int) : Option Bool :=
  (addInt b.pointer sendSize).map fun stop => if (getChunkSize : Int) < stop then false else true

/-- The pointer and the size of the copy; no copy is the source's `( -1, 0 )`. -/
def copyBuffer (b : SendBuffer) (packetType : PacketType) (copyData : List Byte)
    (sendSize : Int) : Option (SendBuffer × Option (Nat × Nat)) := do
  let total ← addInt PacketID_SIZE sendSize
  if ← b.isCopy total then
    let pi : PacketID := ⟨packetType, UInt16.ofInt sendSize⟩
    let chunk ← memcpy b.chunk b.pointer pi.bytes PacketID_SIZE
    let pointer := b.pointer + PacketID_SIZE
    let chunk ← memcpy chunk pointer copyData sendSize
    some (⟨chunk, pointer + sendSize.toNat⟩, some (b.pointer, sendSize.toNat + PacketID_SIZE))
  else some (b, none)

theorem addInt_some {a b sum : Int} (h : addInt a b = some sum) : sum = a + b := by
  unfold addInt at h
  split at h
  · exact (Option.some.inj h).symm
  · cases h

theorem memcpy_some {chunk chunk' : Nat → Byte} {offset : Nat} {data : List Byte} {size : Int}
    (h : memcpy chunk offset data size = some chunk') :
    0 ≤ size ∧ size ≤ data.length ∧ chunk' = write chunk offset (data.take size.toNat) := by
  unfold memcpy at h
  split at h
  case isTrue hfits => exact ⟨hfits.1, hfits.2.1, (Option.some.inj h).symm⟩
  case isFalse => cases h

theorem isCopy_some {b : SendBuffer} {sendSize : Int} {copies : Bool}
    (h : b.isCopy sendSize = some copies) :
    copies = true ↔ b.pointer + sendSize ≤ getChunkSize := by
  obtain ⟨stop, hstop, rfl⟩ := Option.map_eq_some_iff.mp h
  rw [addInt_some hstop]
  split <;> simp <;> omega

theorem ofInt_natCast (size : Nat) : UInt16.ofInt size = UInt16.ofNat size := by
  rw [UInt16.ofInt, ← UInt16.toNat_inj, UInt16.toNat_ofNat', UInt16.toNat_ofNat']
  omega

/-- What a call can do: nothing, for want of room, or one packet behind the others. -/
theorem copyBuffer_cases {b b' : SendBuffer} {packetType : PacketType} {copyData : List Byte}
    {sendSize : Int} {result : Option (Nat × Nat)}
    (h : b.copyBuffer packetType copyData sendSize = some (b', result)) :
    (result = none ∧ b' = b ∧ getChunkSize < b.pointer + (PacketID_SIZE + sendSize)) ∨
    ∃ size : Nat, sendSize = size ∧ size ≤ copyData.length ∧
      b.pointer + (PacketID_SIZE + size) ≤ getChunkSize ∧
      result = some (b.pointer, size + PacketID_SIZE) ∧
      b' = ⟨write b.chunk b.pointer (packetBytes packetType (copyData.take size)),
        b.pointer + (PacketID_SIZE + size)⟩ := by
  unfold copyBuffer at h
  obtain ⟨total, htotal, h⟩ := Option.bind_eq_some_iff.mp h
  obtain ⟨copies, hcopies, h⟩ := Option.bind_eq_some_iff.mp h
  have hroom := isCopy_some hcopies
  rw [addInt_some htotal] at hroom
  cases copies with
  | false =>
    cases h
    refine .inl ⟨rfl, rfl, ?_⟩
    have hnot : ¬(b.pointer + (PacketID_SIZE + sendSize) ≤ (getChunkSize : Int)) :=
      fun hle => Bool.false_ne_true (hroom.mpr hle)
    omega
  | true =>
    rw [if_pos rfl] at h
    obtain ⟨header, hheader, h⟩ := Option.bind_eq_some_iff.mp h
    obtain ⟨chunk, hbody, h⟩ := Option.bind_eq_some_iff.mp h
    cases h
    obtain ⟨-, -, rfl⟩ := memcpy_some hheader
    obtain ⟨hnonneg, hdata, rfl⟩ := memcpy_some hbody
    obtain ⟨size, rfl⟩ := Int.eq_ofNat_of_zero_le hnonneg
    have hsize : size ≤ copyData.length := Int.ofNat_le.mp hdata
    have hle := hroom.mp rfl
    have hfits : b.pointer + (PacketID_SIZE + size) ≤ getChunkSize := by omega
    refine .inr ⟨size, rfl, hsize, hfits, rfl, ?_⟩
    have hlength : (copyData.take size).length = size := List.length_take_of_le hsize
    have hmerge := write_append b.chunk b.pointer
      (PacketID.bytes ⟨packetType, UInt16.ofNat size⟩) (copyData.take size)
    rw [PacketID.length_bytes] at hmerge
    have hheader : (PacketID.bytes ⟨packetType, UInt16.ofNat size⟩).take (PacketID_SIZE : Int).toNat =
        PacketID.bytes ⟨packetType, UInt16.ofNat size⟩ :=
      List.take_of_length_le (Nat.le_of_eq (PacketID.length_bytes _))
    rw [packetBytes, hlength, ← hmerge, ← Nat.add_assoc, ofInt_natCast, hheader, Int.toNat_natCast]

theorem copyBuffer_fits {b : SendBuffer} {copyData : List Byte} {size : Nat}
    (packetType : PacketType) (hdata : size ≤ copyData.length)
    (hroom : b.pointer + (PacketID_SIZE + size) ≤ getChunkSize) :
    ∃ b' pointer total,
      b.copyBuffer packetType copyData size = some (b', some (pointer, total)) := by
  have hchunk : (getChunkSize : Int) ≤ 2147483647 := by decide
  have hfits : ((b.pointer + (PacketID_SIZE + size) : Nat) : Int) ≤ getChunkSize :=
    Int.ofNat_le.mpr hroom
  have htotal : addInt PacketID_SIZE size = some (PacketID_SIZE + size : Int) :=
    if_pos (by omega)
  have hstop : addInt b.pointer (PacketID_SIZE + size) =
      some (b.pointer + (PacketID_SIZE + size) : Int) := if_pos (by omega)
  have hcopies : b.isCopy (PacketID_SIZE + size) = some true := by
    rw [isCopy, hstop, Option.map_some, if_neg (by omega)]
  have hmemcpy : ∀ (chunk : Nat → Byte) (offset : Nat) (data : List Byte) (count : Nat),
      count ≤ data.length → offset + count ≤ getChunkSize →
      ∃ chunk', memcpy chunk offset data count = some chunk' := by
    intro chunk offset data count hcount hoffset
    exact ⟨_, if_pos (by omega)⟩
  obtain ⟨header, hheader⟩ := hmemcpy b.chunk b.pointer
    (PacketID.bytes ⟨packetType, UInt16.ofInt size⟩) PacketID_SIZE
    (Nat.le_of_eq (PacketID.length_bytes _).symm) (by omega)
  obtain ⟨chunk, hchunk⟩ := hmemcpy header (b.pointer + PacketID_SIZE) copyData size hdata
    (by omega)
  refine ⟨⟨chunk, b.pointer + PacketID_SIZE + size⟩, b.pointer, size + PacketID_SIZE, ?_⟩
  unfold copyBuffer
  rw [htotal, Option.bind_eq_bind, Option.bind_some, hcopies, Option.bind_eq_bind,
    Option.bind_some, if_pos rfl]
  simp only [hheader, Option.bind_eq_bind, Option.bind_some, hchunk, Int.toNat_natCast]

theorem copyBuffer_defined {b : SendBuffer} {copyData : List Byte} {size : Nat}
    (packetType : PacketType) (hpointer : b.pointer ≤ getChunkSize)
    (hdata : size ≤ copyData.length) (hsize : size < 65536) :
    ∃ result, b.copyBuffer packetType copyData size = some result := by
  by_cases hroom : b.pointer + (PacketID_SIZE + size) ≤ getChunkSize
  · obtain ⟨b', pointer, total, hcopy⟩ := copyBuffer_fits packetType hdata hroom
    exact ⟨_, hcopy⟩
  · have hchunk : getChunkSize ≤ 40960 := by decide
    have hheader : PacketID_SIZE = 4 := rfl
    have htotal : addInt PacketID_SIZE size = some (PacketID_SIZE + size : Int) :=
      if_pos (by omega)
    have hstop : addInt b.pointer (PacketID_SIZE + size) =
        some (b.pointer + (PacketID_SIZE + size) : Int) := if_pos (by omega)
    have hcopies : b.isCopy (PacketID_SIZE + size) = some false := by
      rw [isCopy, hstop, Option.map_some, if_pos (by omega)]
    refine ⟨(b, none), ?_⟩
    unfold copyBuffer
    rw [htotal, Option.bind_eq_bind, Option.bind_some, hcopies, Option.bind_eq_bind,
      Option.bind_some, if_neg Bool.false_ne_true]

end SendBuffer
end RoomServer
