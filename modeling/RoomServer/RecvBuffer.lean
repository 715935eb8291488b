import RoomServer.PacketStruct

/-! The receive buffer of `Buffer.cpp`. Offsets are the source's `uint16`: every
assignment to one reduces modulo 2^16, arithmetic inside an expression is `int`. -/
namespace RoomServer

def uint16 (n : Nat) : Nat := n % 65536

/-- `size_t` subtraction, which wraps. -/
def sizeSub (a b : Nat) : Nat := (a + UInt64.size - b) % UInt64.size

structure RecvBuffer where
  buffer : List Byte
  writePos : Nat
  readPos : Nat
  packetHeader : PacketID

namespace RecvBuffer

def constructed : RecvBuffer := ⟨[], 0, 0, .null⟩

/-- `m_buffer.resize( bufferSize, 0 )`, and nothing else. -/
def initializeTo (b : RecvBuffer) (bufferSize : Nat) : RecvBuffer :=
  { b with
    buffer := b.buffer.take bufferSize ++ List.replicate (bufferSize - b.buffer.length) 0 }

def getWriteBufferSize (b : RecvBuffer) : Nat :=
  uint16 (uint16 b.buffer.length + 65536 - b.writePos)

def getBufferSize (b : RecvBuffer) : Nat := uint16 (b.writePos + 65536 - b.readPos)

def getReadData (b : RecvBuffer) (size : Nat) : List Byte :=
  (b.buffer.drop (b.readPos + PacketID_SIZE)).take size

def isCheckData (b : RecvBuffer) : Bool := b.readPos != b.writePos

def clear (b : RecvBuffer) : RecvBuffer :=
  if sizeSub b.buffer.length PacketID_SIZE < b.packetHeader.size.toNat then
    { b with writePos := 0, readPos := 0, packetHeader := .null }
  else if b.isCheckData then
    { b with
      buffer := (b.buffer.drop b.readPos).take b.getBufferSize ++ b.buffer.drop b.getBufferSize
      writePos := uint16 (b.writePos + 65536 - b.readPos)
      readPos := 0 }
  else
    { b with writePos := 0, readPos := 0, packetHeader := .null }

def divideBuffer (b : RecvBuffer) (transferbyte : Nat) : RecvBuffer × Bool :=
  let b := { b with writePos := uint16 (b.writePos + transferbyte) }
  let b :=
    if PacketID_SIZE ≤ b.getBufferSize then
      { b with packetHeader := PacketID.read (b.buffer.drop b.readPos) }
    else b
  -- with fewer than four bytes the header tested by `clear` is the previous packet's
  if b.getBufferSize < PacketID_SIZE ∨
      b.getBufferSize - PacketID_SIZE < b.packetHeader.size.toNat then
    (b.clear, false)
  else (b, true)

def setReadPos (b : RecvBuffer) (transferbyte : Nat) : RecvBuffer :=
  if transferbyte = 0 ∨ b.writePos < b.readPos + transferbyte then b
  else { b with readPos := uint16 (b.readPos + transferbyte) }.clear

/-- The kernel fills the `WSABUF` that `RecvStart` took at the write position. -/
def fill (b : RecvBuffer) (data : List Byte) : RecvBuffer :=
  { b with
    buffer := b.buffer.take b.writePos ++ data ++ b.buffer.drop (b.writePos + data.length) }

end RecvBuffer
end RoomServer
