/-! The packet header, the packet types and the server's packets, from
`PacketStruct.h`, with the sizes of `RSDefine.h`. Coordinates are a parameter:
the room computes with them, the wire only copies them. -/
namespace RoomServer

abbrev Byte := UInt8

def PACKET_SIZE : Nat := 4096
def MaxRoomUserCount : Nat := 1000
def MaxSendSpawnCount : Nat := 100
def MaxSendMoveCount : Nat := 100

/-- `m_type` of a header is whatever sixteen bits arrived, so the enumeration is
its underlying type with the declared values named. -/
abbrev PacketType := UInt16

namespace PacketType
def NULL : PacketType := 0
def CLIENT_ECHO : PacketType := 1
def CLIENT_BROADCAST : PacketType := 2
def CLIENT_ENTER : PacketType := 3
def CLIENT_LEAVE : PacketType := 4
def CLIENT_MOVE : PacketType := 5
def CLIENT_END : PacketType := 99
def SERVER_ECHO : PacketType := 100
def SERVER_BROADCAST : PacketType := 101
def SERVER_ENTER : PacketType := 102
def SERVER_SPAWN : PacketType := 103
def SERVER_LEAVE : PacketType := 104
def SERVER_MOVE : PacketType := 106
end PacketType

structure PacketID where
  type : PacketType
  /-- The body's size, without the header. -/
  size : UInt16
  deriving DecidableEq, Repr

def PacketID.null : PacketID := ⟨PacketType.NULL, 0⟩

def PacketID_SIZE : Nat := 4

def readUInt16 (low high : Byte) : UInt16 := UInt16.ofNat (low.toNat + 256 * high.toNat)

/-- `*reinterpret_cast<PacketID*>( bytes )`: two little-endian words, packed. -/
def PacketID.read : List Byte → PacketID
  | t0 :: t1 :: s0 :: s1 :: _ => ⟨readUInt16 t0 t1, readUInt16 s0 s1⟩
  | _ => .null

theorem PacketID.read_take {bytes : List Byte} (h : PacketID_SIZE ≤ bytes.length) :
    PacketID.read (bytes.take PacketID_SIZE) = PacketID.read bytes := by
  match bytes with
  | [] | [_] | [_, _] | [_, _, _] => simp [PacketID_SIZE] at h
  | _ :: _ :: _ :: _ :: _ => rfl

structure Packet where
  type : PacketType
  body : List Byte
  deriving DecidableEq, Repr

/-! ### The server's packets -/

structure SpawnData (ι : Type) where
  seqID : Nat
  posX : ι
  posY : ι
  deriving DecidableEq, Repr

abbrev MoveData := SpawnData

/-- `m_count` and the array that it bounds, of `Server_Spawn` and `Server_Move_Ack`. -/
structure DataList (ι : Type) (limit : Nat) where
  data : List (SpawnData ι)
  bounded : data.length ≤ limit
  deriving DecidableEq

namespace DataList

def empty : DataList ι limit := ⟨[], Nat.zero_le limit⟩

def count (list : DataList ι limit) : Nat := list.data.length

/-- `AddSpawnData` and `AddMoveData`: a full list is left as it is. -/
def add (list : DataList ι limit) (data : SpawnData ι) : DataList ι limit × Bool :=
  if h : list.count < limit then
    (⟨list.data ++ [data], by rw [List.length_append]; exact h⟩, true)
  else (list, false)

end DataList

abbrev Server_Spawn (ι : Type) := DataList ι MaxSendSpawnCount
abbrev Server_Move_Ack (ι : Type) := DataList ι MaxSendMoveCount

inductive ServerPacket (ι : Type) where
  | echo (text : List Byte)
  | broadcast (text : List Byte)
  | enter (roomID : Int) (seqID : Nat)
  | spawn (packet : Server_Spawn ι)
  | leave (seqID : Nat)
  | move (packet : Server_Move_Ack ι)
  deriving DecidableEq

end RoomServer
