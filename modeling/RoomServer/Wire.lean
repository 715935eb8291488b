import RoomServer.SendBuffer
import RoomServer.Receive

/-! The server's packets as the memory of their structs, and the part of it that
a sender passes to `CopyBuffer`. Integers are little-endian, the structs are
packed, and a coordinate is the 32 bits of its `float`. -/
namespace RoomServer
open Library.Memory Library.LittleEndian Library.Framing

/-! ### Fields -/

def intBytes (value : Int) : List Byte := toBytes 4 (value % 4294967296).toNat

def uintBytes (value : Nat) : List Byte := toBytes 4 value

def readUInt (bytes : List Byte) : Nat := ofBytes (bytes.take 4)

def readInt (bytes : List Byte) : Int :=
  if readUInt bytes < 2147483648 then readUInt bytes else readUInt bytes - 4294967296

@[simp] theorem length_intBytes (value : Int) : (intBytes value).length = 4 := length_toBytes 4 _

@[simp] theorem length_uintBytes (value : Nat) : (uintBytes value).length = 4 :=
  length_toBytes 4 value

theorem readUInt_append {value : Nat} (h : value < 4294967296) (rest : List Byte) :
    readUInt (uintBytes value ++ rest) = value := by
  rw [readUInt, List.take_left' (length_uintBytes value)]
  exact ofBytes_toBytes_of_lt h

theorem readInt_append {value : Int} (hlow : -2147483648 ≤ value) (hhigh : value < 2147483648)
    (rest : List Byte) : readInt (intBytes value ++ rest) = value := by
  have hword : readUInt (intBytes value ++ rest) = (value % 4294967296).toNat :=
    readUInt_append (by omega) rest
  rw [readInt, hword]
  split <;> omega

def SpawnData.bytes (data : SpawnData UInt32) : List Byte :=
  uintBytes data.seqID ++ (uintBytes data.posX.toNat ++ uintBytes data.posY.toNat)

def SpawnData.size : Nat := 12

@[simp] theorem SpawnData.length_bytes (data : SpawnData UInt32) :
    data.bytes.length = SpawnData.size := by
  rw [SpawnData.bytes, List.length_append, List.length_append, length_uintBytes, length_uintBytes,
    length_uintBytes, SpawnData.size]

def SpawnData.read (bytes : List Byte) : SpawnData UInt32 where
  seqID := readUInt bytes
  posX := UInt32.ofNat (readUInt (bytes.drop 4))
  posY := UInt32.ofNat (readUInt (bytes.drop 8))

theorem SpawnData.read_append {data : SpawnData UInt32} (h : data.seqID < 4294967296)
    (rest : List Byte) : SpawnData.read (data.bytes ++ rest) = data := by
  obtain ⟨seqID, posX, posY⟩ := data
  have hY : (uintBytes seqID ++ (uintBytes posX.toNat ++ (uintBytes posY.toNat ++ rest))).drop 8 =
      uintBytes posY.toNat ++ rest := by
    rw [← List.append_assoc, List.drop_left' (by simp)]
  unfold SpawnData.read SpawnData.bytes
  simp only [List.append_assoc]
  rw [readUInt_append h, List.drop_left' (length_uintBytes seqID), hY, readUInt_append posX.toNat_lt,
    readUInt_append posY.toNat_lt, UInt32.ofNat_toNat, UInt32.ofNat_toNat]

/-! ### Structs -/

namespace DataList

/-- Every list of entries within the limit is one that the `Add`s of its entries build. -/
theorem add_all {datas : List (SpawnData ι)} (h : datas.length ≤ limit) :
    (datas.foldl (fun list data => (list.add data).1) (empty : DataList ι limit)).data = datas := by
  suffices hfrom : ∀ list : DataList ι limit, list.data.length + datas.length ≤ limit →
      (datas.foldl (fun list data => (list.add data).1) list).data = list.data ++ datas by
    exact hfrom empty ((Nat.zero_add _).symm ▸ h)
  clear h
  induction datas with
  | nil => exact fun list _ => (List.append_nil _).symm
  | cons data datas ih =>
    intro list hroom
    rw [List.length_cons] at hroom
    have hlt : list.count < limit := by
      unfold count
      omega
    have hadd : (list.add data).1.data = list.data ++ [data] := by rw [add, dif_pos hlt]
    have hnext := ih (list.add data).1 (by
      rw [hadd, List.length_append, List.length_singleton]
      omega)
    rw [List.foldl_cons, hnext, hadd, List.append_assoc, List.singleton_append]

/-- `m_count` and the whole array, cleared behind the last entry. -/
def image (list : DataList UInt32 limit) : List Byte :=
  intBytes list.count ++ (list.data.flatMap SpawnData.bytes ++
    List.replicate (SpawnData.size * (limit - list.count)) 0)

def structSize (limit : Nat) : Nat := 4 + SpawnData.size * limit

def getSize (list : DataList UInt32 limit) : Nat := 4 + SpawnData.size * list.count

theorem take_image (list : DataList UInt32 limit) :
    list.image.take list.getSize =
      intBytes list.count ++ list.data.flatMap SpawnData.bytes := by
  rw [image, ← List.append_assoc, List.take_left']
  rw [List.length_append, length_cells SpawnData.length_bytes, length_intBytes]
  rfl

theorem getSize_le (list : DataList UInt32 limit) : list.getSize ≤ structSize limit :=
  Nat.add_le_add_left (Nat.mul_le_mul_left _ list.bounded) 4

theorem length_image (list : DataList UInt32 limit) : list.image.length = structSize limit := by
  have hbounded : list.count ≤ limit := list.bounded
  rw [image, List.length_append, List.length_append, length_cells SpawnData.length_bytes,
    length_intBytes, List.length_replicate, ← Nat.mul_add]
  change 4 + SpawnData.size * (list.count + (limit - list.count)) = _
  rw [Nat.add_sub_cancel' hbounded, structSize]

end DataList

namespace ServerPacket

def packetType : ServerPacket ι → PacketType
  | .echo _ => .SERVER_ECHO
  | .broadcast _ => .SERVER_BROADCAST
  | .enter _ _ => .SERVER_ENTER
  | .spawn _ => .SERVER_SPAWN
  | .leave _ => .SERVER_LEAVE
  | .move _ => .SERVER_MOVE

/-- The memory of the struct that the sender has filled. -/
def image : ServerPacket UInt32 → List Byte
  | .echo text | .broadcast text => text
  | .enter roomID seqID => intBytes roomID ++ uintBytes seqID
  | .spawn packet => packet.image
  | .leave seqID => uintBytes seqID
  | .move packet => packet.image

/-- What the sender passes: `GetSize()` where the struct has it, else `sizeof`. -/
def sendSize : ServerPacket UInt32 → Nat
  | .echo _ | .broadcast _ => 64
  | .enter _ _ => 8
  | .spawn packet => packet.getSize
  | .leave _ => 4
  | .move packet => packet.getSize

/-- The values fit the types of their fields. -/
def Typed : ServerPacket UInt32 → Prop
  | .echo text | .broadcast text => text.length = 64
  | .enter roomID seqID =>
    -2147483648 ≤ roomID ∧ roomID < 2147483648 ∧ seqID < 4294967296
  | .spawn packet => ∀ data ∈ packet.data, data.seqID < 4294967296
  | .leave seqID => seqID < 4294967296
  | .move packet => ∀ data ∈ packet.data, data.seqID < 4294967296

def body (packet : ServerPacket UInt32) : List Byte := packet.image.take packet.sendSize

/-- `frame` is what a `CopyBuffer` of the packet, into whatever buffer, has left there. -/
def Framed (packet : ServerPacket UInt32) (frame : List Byte) : Prop :=
  ∃ (b b' : SendBuffer) (pointer size : Nat),
    b.copyBuffer packet.packetType packet.image packet.sendSize =
      some (b', some (pointer, size)) ∧ frame = read b'.chunk pointer size

theorem Framed.eq {packet : ServerPacket UInt32} {frame : List Byte} (h : packet.Framed frame) :
    frame = packetBytes packet.packetType packet.body := by
  obtain ⟨b, b', pointer, size, hcopy, rfl⟩ := h
  rcases SendBuffer.copyBuffer_cases hcopy with
    ⟨hnone, _⟩ | ⟨sendSize, hsize, hdata, _, hresult, rfl⟩
  · cases hnone
  · obtain rfl : packet.sendSize = sendSize := Int.ofNat_inj.mp hsize
    cases hresult
    have hlength : (packetBytes packet.packetType packet.body).length =
        packet.sendSize + PacketID_SIZE := by
      rw [length_packetBytes, body, List.length_take_of_le hdata, Nat.add_comm]
    rw [← hlength]
    exact read_write _ _ _

theorem sendSize_le (packet : ServerPacket UInt32) :
    packet.sendSize ≤ DataList.structSize MaxSendMoveCount := by
  cases packet with
  | echo | broadcast | enter | leave => exact Nat.le_of_ble_eq_true rfl
  | spawn packet => exact packet.getSize_le
  | move packet => exact packet.getSize_le

theorem Typed.framed {packet : ServerPacket UInt32} (h : packet.Typed) :
    packet.Framed (packetBytes packet.packetType packet.body) := by
  have hdata : packet.sendSize ≤ packet.image.length := by
    cases packet with
    | echo text | broadcast text => exact Nat.le_of_eq h.symm
    | enter roomID seqID =>
      rw [image, List.length_append, length_intBytes, length_uintBytes]
      exact Nat.le_refl 8
    | leave seqID => exact Nat.le_of_eq (length_uintBytes seqID).symm
    | spawn packet => exact packet.length_image ▸ packet.getSize_le
    | move packet => exact packet.length_image ▸ packet.getSize_le
  have hsize := packet.sendSize_le
  have hroom : SendBuffer.new.pointer + (PacketID_SIZE + packet.sendSize) ≤
      SendBuffer.getChunkSize := by
    have hchunk : PacketID_SIZE + DataList.structSize MaxSendMoveCount ≤
        SendBuffer.getChunkSize := by decide
    have hpointer : SendBuffer.new.pointer = 0 := rfl
    omega
  obtain ⟨b', pointer, total, hcopy⟩ := SendBuffer.copyBuffer_fits packet.packetType hdata hroom
  have hframed : packet.Framed (read b'.chunk pointer total) := ⟨_, _, _, _, hcopy, rfl⟩
  rw [← hframed.eq]
  exact hframed

/-! ### The stream of the server -/

def frame (packet : ServerPacket UInt32) : Frame Byte :=
  ⟨PacketID.bytes ⟨packet.packetType, UInt16.ofNat packet.body.length⟩, packet.body⟩

theorem length_body_lt (packet : ServerPacket UInt32) : packet.body.length < 65536 := by
  have hsize := packet.sendSize_le
  have hstruct : DataList.structSize MaxSendMoveCount < 65536 := by decide
  rw [body, List.length_take]
  omega

theorem frame_valid (packet : ServerPacket UInt32) : packetFormat.Valid packet.frame := by
  refine ⟨PacketID.length_bytes _, ?_⟩
  have hread := PacketID.read_bytes
    ⟨packet.packetType, UInt16.ofNat packet.body.length⟩ []
  rw [List.append_nil] at hread
  change packet.body.length = (PacketID.read (PacketID.bytes _)).size.toNat
  rw [hread, UInt16.toNat_ofNat_of_lt' packet.length_body_lt]

theorem packetOf_frame (packet : ServerPacket UInt32) :
    packetOf packet.frame = ⟨packet.packetType, packet.body⟩ := by
  have hread := PacketID.read_bytes
    ⟨packet.packetType, UInt16.ofNat packet.body.length⟩ []
  rw [List.append_nil] at hread
  rw [packetOf, frame, hread]

theorem framed_stream {sent : List (ServerPacket UInt32)} {frames : List (List Byte)}
    (h : List.Forall₂ Framed sent frames) : frames.flatten = encode (sent.map frame) := by
  induction h with
  | nil => rfl
  | cons hframed _ ih =>
    rw [List.flatten_cons, ih, hframed.eq]
    rfl

theorem packets_stream (sent : List (ServerPacket UInt32)) :
    packets (encode (sent.map frame)) = sent.map (fun packet => ⟨packet.packetType, packet.body⟩) ∧
      packetFormat.rest (encode (sent.map frame)) = [] := by
  have hvalid : ∀ found ∈ sent.map frame, packetFormat.Valid found := by
    intro found hfound
    obtain ⟨packet, _, rfl⟩ := List.mem_map.mp hfound
    exact packet.frame_valid
  have hsplit : packetFormat.split (encode (sent.map frame) ++ []) = (sent.map frame, []) :=
    packetFormat.split_encode hvalid (.inl packetFormat.headerLength_pos)
  rw [List.append_nil] at hsplit
  constructor
  · rw [packets, Format.frames, hsplit, List.map_map]
    exact List.map_congr_left fun packet _ => packet.packetOf_frame
  · rw [Format.rest, hsplit]

end ServerPacket
end RoomServer
