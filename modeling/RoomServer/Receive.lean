import RoomServer.Library.Transition
import RoomServer.Library.Framing
import RoomServer.RecvBuffer

/-! `SessionData::Recv`: the loop that hands the packets of the receive buffer to
`PacketHandler::Dispatch`. Between two receives the buffer is determined by its
unconsumed bytes, and the loop acts on them as the deframer does. -/
namespace RoomServer
open Library.Framing Library.Transition

/-- `PacketHandler::Dispatch` with everything a handler reads or writes as state. -/
abbrev Dispatch (σ : Type) := σ → Packet → σ × Bool

structure RecvResult (σ : Type) where
  app : σ
  buffer : RecvBuffer
  /-- What was handed to `Dispatch`, the rejected packet included. -/
  dispatched : List Packet
  /-- `true` when the loop ended by itself and `RecvStart` is called. -/
  accepted : Bool

/-- The `while` loop; `none` when the fuel did not suffice. -/
def recvLoop (dispatch : Dispatch σ) : Nat → σ → RecvBuffer → Nat → Option (RecvResult σ)
  | 0, _, _, _ => none
  | fuel + 1, app, b, divideByte =>
    let divided := b.divideBuffer divideByte
    let b := divided.1
    if divided.2 then
      let bodySize := b.packetHeader.size.toNat
      let packet : Packet := ⟨b.packetHeader.type, b.getReadData bodySize⟩
      let handled := dispatch app packet
      if handled.2 then
        (recvLoop dispatch fuel handled.1 (b.setReadPos (bodySize + PacketID_SIZE)) 0).map fun r =>
          { r with dispatched := packet :: r.dispatched }
      else some ⟨handled.1, b, [packet], false⟩
    else some ⟨app, b, [], true⟩

/-- The offsets are sixteen bits wide, so more rounds than this would mean that a
round consumed nothing. -/
def recvFuel : Nat := 65536

def recv (dispatch : Dispatch σ) (app : σ) (b : RecvBuffer) (transferByte : Nat) :
    Option (RecvResult σ) :=
  recvLoop dispatch recvFuel app b transferByte

/-- A session's receive side from one posted receive to the next. -/
structure Receiver (σ : Type) where
  app : σ
  buffer : RecvBuffer
  dispatched : List Packet
  rejected : Bool

/-- One receive completion. The posted length bounds what can arrive; after a
rejected packet the session is released and nothing is posted any more. -/
def receive (dispatch : Dispatch σ) : Step (Receiver σ) (List Byte) := fun s data =>
  if s.rejected = false ∧ 1 ≤ data.length ∧ data.length ≤ s.buffer.getWriteBufferSize then
    (recv dispatch s.app (s.buffer.fill data) data.length).map fun r =>
      ⟨r.app, r.buffer, s.dispatched ++ r.dispatched, !r.accepted⟩
  else none

def RecvBuffer.fresh : RecvBuffer := RecvBuffer.constructed.initializeTo PACKET_SIZE

def Receiver.fresh (app : σ) : Receiver σ := ⟨app, .fresh, [], false⟩

/-! ### The packets in a stream -/

def packetFormat : Format Byte where
  headerLength := PacketID_SIZE
  bodyLength header := (PacketID.read header).size.toNat
  headerLength_pos := by decide

def packetOf (frame : Frame Byte) : Packet := ⟨(PacketID.read frame.header).type, frame.body⟩

def packets (stream : List Byte) : List Packet := (packetFormat.frames stream).map packetOf

def largestBody : Nat := PACKET_SIZE - PacketID_SIZE

structure Handed (σ : Type) where
  app : σ
  packets : List Packet
  accepted : Bool

/-- Hand over packets up to and including the first one rejected. -/
def hand (dispatch : Dispatch σ) : σ → List Packet → Handed σ
  | app, [] => ⟨app, [], true⟩
  | app, packet :: rest =>
    match dispatch app packet with
    | (app, false) => ⟨app, [packet], false⟩
    | (app, true) =>
      let tail := hand dispatch app rest
      { tail with packets := packet :: tail.packets }

theorem hand_append (dispatch : Dispatch σ) (app : σ) (first second : List Packet) :
    hand dispatch app (first ++ second) =
      if (hand dispatch app first).accepted then
        let tail := hand dispatch (hand dispatch app first).app second
        { tail with packets := (hand dispatch app first).packets ++ tail.packets }
      else hand dispatch app first := by
  induction first generalizing app with
  | nil => simp [hand]
  | cons packet rest ih =>
    rcases hd : dispatch app packet with ⟨app', accepted⟩
    cases accepted with
    | false => simp [hand, hd]
    | true =>
      simp only [List.cons_append, hand, hd, ih app']
      split <;> rfl

/-! ### The buffer as its unconsumed bytes -/

/-- The buffer holds `bytes` from position 0, the last `incoming` of them not yet
counted by the write position. The header, stale or not, is never one that
`Clear` would take for an oversized packet. -/
structure Window (b : RecvBuffer) (incoming : Nat) (bytes : List Byte) : Prop where
  size : b.buffer.length = PACKET_SIZE
  readPos : b.readPos = 0
  writePos : b.writePos + incoming = bytes.length
  content : b.buffer.take bytes.length = bytes
  header : b.packetHeader.size.toNat ≤ largestBody

/-- An oversized packet is given up together with everything received of it. -/
def abandoned (bytes : List Byte) : Prop :=
  PacketID_SIZE ≤ bytes.length ∧ largestBody < (PacketID.read bytes).size.toNat

instance (bytes : List Byte) : Decidable (abandoned bytes) := inferInstanceAs (Decidable (_ ∧ _))

def keep (bytes : List Byte) : List Byte := if abandoned bytes then [] else bytes

theorem Window.length_le {b : RecvBuffer} {incoming : Nat} {bytes : List Byte}
    (h : Window b incoming bytes) : bytes.length ≤ PACKET_SIZE := by
  have hlength := congrArg List.length h.content
  rw [List.length_take, h.size] at hlength
  omega

theorem window_fresh : Window .fresh 0 [] where
  size := by simp [RecvBuffer.fresh, RecvBuffer.initializeTo, RecvBuffer.constructed]
  readPos := rfl
  writePos := rfl
  content := rfl
  header := by decide

theorem window_fill {b : RecvBuffer} {bytes data : List Byte} (h : Window b 0 bytes)
    (hroom : bytes.length + data.length ≤ PACKET_SIZE) :
    Window (b.fill data) data.length (bytes ++ data) := by
  have hw : b.writePos = bytes.length := h.writePos
  have hc := h.content
  refine ⟨?_, h.readPos, by simp [RecvBuffer.fill, hw], ?_, h.header⟩
  · have hs := h.size
    simp only [RecvBuffer.fill, List.length_append, List.length_take, List.length_drop]
    omega
  · simp only [RecvBuffer.fill, hw, hc]
    rw [← List.length_append, List.take_left' rfl]

theorem format_incomplete (bytes : List Byte) :
    packetFormat.Incomplete bytes ↔ bytes.length < PacketID_SIZE ∨
      bytes.length - PacketID_SIZE < (PacketID.read bytes).size.toNat := by
  by_cases hshort : bytes.length < PacketID_SIZE
  · simp [Format.Incomplete, packetFormat, hshort]
  · have hread : PacketID.read (bytes.take PacketID_SIZE) = PacketID.read bytes :=
      PacketID.read_take (by omega)
    simp only [Format.Incomplete, Format.frameLength, packetFormat, hread, hshort, false_or]
    omega

theorem read_window {b : RecvBuffer} {bytes : List Byte} (hc : b.buffer.take bytes.length = bytes)
    (h : PacketID_SIZE ≤ bytes.length) : PacketID.read b.buffer = PacketID.read bytes := by
  have hb : PacketID_SIZE ≤ b.buffer.length := by
    have hl := congrArg List.length hc
    rw [List.length_take] at hl
    omega
  rw [← PacketID.read_take hb, ← PacketID.read_take h, ← hc, List.take_take]
  congr 2
  omega

theorem null_header : PacketID.null.size.toNat ≤ largestBody := by decide

/-- `Clear` on a buffer whose header is not oversized, whatever was consumed of it. -/
theorem clear_window {b : RecvBuffer} {bytes : List Byte} (hsize : b.buffer.length = PACKET_SIZE)
    (hheader : b.packetHeader.size.toNat ≤ largestBody)
    (hpos : b.writePos = b.readPos + bytes.length) (hw : b.writePos ≤ PACKET_SIZE)
    (hcontent : (b.buffer.drop b.readPos).take bytes.length = bytes) :
    Window b.clear 0 bytes := by
  have hsub : sizeSub b.buffer.length PacketID_SIZE = largestBody := by rw [hsize]; rfl
  have hcount : b.getBufferSize = bytes.length := by
    unfold RecvBuffer.getBufferSize uint16
    unfold PACKET_SIZE at hw
    omega
  unfold RecvBuffer.clear
  rw [hsub, if_neg (Nat.not_lt.mpr hheader)]
  by_cases hdata : b.readPos = b.writePos
  · have hnil : bytes = [] := List.length_eq_zero_iff.mp (by omega)
    subst hnil
    simp only [RecvBuffer.isCheckData, hdata, bne_self_eq_false, Bool.false_eq_true, ↓reduceIte]
    exact ⟨hsize, rfl, rfl, rfl, null_header⟩
  · simp only [RecvBuffer.isCheckData, bne_iff_ne, ne_eq, hdata, not_false_eq_true, ↓reduceIte,
      hcount, hcontent]
    refine ⟨?_, rfl, ?_, ?_, hheader⟩
    · rw [List.length_append, List.length_drop, hsize]
      omega
    · rw [Nat.add_zero]
      exact hcount
    · exact List.take_left' rfl

theorem clear_oversized {b : RecvBuffer} (hsize : b.buffer.length = PACKET_SIZE)
    (hheader : largestBody < b.packetHeader.size.toNat) : Window b.clear 0 [] := by
  have hsub : sizeSub b.buffer.length PacketID_SIZE = largestBody := by rw [hsize]; rfl
  unfold RecvBuffer.clear
  rw [hsub, if_pos hheader]
  exact ⟨hsize, rfl, rfl, rfl, null_header⟩

/-- `DivideBuffer` on a window: the received bytes are counted and the header is
read anew when it is there. -/
theorem divideBuffer_window {b : RecvBuffer} {incoming : Nat} {bytes : List Byte}
    (h : Window b incoming bytes) :
    b.divideBuffer incoming =
      let header := if PacketID_SIZE ≤ bytes.length then PacketID.read bytes else b.packetHeader
      let b' := { b with writePos := bytes.length, packetHeader := header }
      if bytes.length < PacketID_SIZE ∨ bytes.length - PacketID_SIZE < header.size.toNat then
        (b'.clear, false)
      else (b', true) := by
  have hle := h.length_le
  unfold PACKET_SIZE at hle
  obtain ⟨buffer, writePos, readPos, header⟩ := b
  obtain rfl : readPos = 0 := h.readPos
  have hwrite : uint16 (writePos + incoming) = bytes.length := by
    rw [show writePos + incoming = bytes.length from h.writePos]
    exact Nat.mod_eq_of_lt (by omega)
  have hsize (header : PacketID) :
      RecvBuffer.getBufferSize ⟨buffer, bytes.length, 0, header⟩ = bytes.length := by
    simp only [RecvBuffer.getBufferSize, uint16]
    omega
  unfold RecvBuffer.divideBuffer
  by_cases hheader : PacketID_SIZE ≤ bytes.length
  · have hread : PacketID.read buffer = PacketID.read bytes := read_window h.content hheader
    simp only [hwrite, hsize, List.drop_zero, hheader, ↓reduceIte, hread]
  · simp only [hwrite, hsize, hheader, ↓reduceIte]

theorem divide_incomplete {b : RecvBuffer} {incoming : Nat} {bytes : List Byte}
    (h : Window b incoming bytes) (hinc : packetFormat.Incomplete bytes) :
    ∃ b', b.divideBuffer incoming = (b', false) ∧ Window b' 0 (keep bytes) := by
  have hle := h.length_le
  rw [format_incomplete] at hinc
  rw [divideBuffer_window h]
  by_cases hheader : PacketID_SIZE ≤ bytes.length
  · simp only [hheader, ↓reduceIte, hinc]
    refine ⟨_, rfl, ?_⟩
    by_cases hbig : largestBody < (PacketID.read bytes).size.toNat
    · rw [keep, if_pos ⟨hheader, hbig⟩]
      exact clear_oversized h.size hbig
    · rw [keep, if_neg (fun ha => hbig ha.2)]
      refine clear_window h.size (Nat.le_of_not_lt hbig) ?_ hle ?_
      · simp [h.readPos]
      · rw [h.readPos, List.drop_zero]
        exact h.content
  · -- the header is the previous packet's
    simp only [hheader, ↓reduceIte, Nat.lt_of_not_le hheader, true_or]
    refine ⟨_, rfl, ?_⟩
    rw [keep, if_neg (fun ha => hheader ha.1)]
    refine clear_window h.size h.header ?_ hle ?_
    · simp [h.readPos]
    · rw [h.readPos, List.drop_zero]
      exact h.content

theorem divide_complete {b : RecvBuffer} {incoming : Nat} {bytes : List Byte}
    (h : Window b incoming bytes) (hcomplete : ¬packetFormat.Incomplete bytes) :
    ∃ b', b.divideBuffer incoming = (b', true) ∧ Window b' 0 bytes ∧
      b'.packetHeader = PacketID.read bytes := by
  have hle := h.length_le
  rw [format_incomplete] at hcomplete
  obtain ⟨hheader, hbody⟩ := not_or.mp hcomplete
  rw [divideBuffer_window h]
  simp only [Nat.le_of_not_lt hheader, ↓reduceIte, hcomplete]
  refine ⟨_, rfl, ⟨h.size, h.readPos, rfl, h.content, ?_⟩, rfl⟩
  change (PacketID.read bytes).size.toNat ≤ PACKET_SIZE - PacketID_SIZE
  omega

theorem packet_window {b : RecvBuffer} {bytes : List Byte} (h : Window b 0 bytes)
    (hcomplete : ¬packetFormat.Incomplete bytes)
    (hheader : b.packetHeader = PacketID.read bytes) :
    ⟨b.packetHeader.type, b.getReadData b.packetHeader.size.toNat⟩ =
        packetOf (packetFormat.first bytes) ∧
      b.packetHeader.size.toNat + PacketID_SIZE = packetFormat.frameLength bytes := by
  have hlong : PacketID_SIZE ≤ bytes.length := by
    rw [format_incomplete] at hcomplete
    omega
  have hread : PacketID.read (bytes.take PacketID_SIZE) = PacketID.read bytes :=
    PacketID.read_take hlong
  have hend := packetFormat.frameLength_le hcomplete
  have hlength : packetFormat.frameLength bytes =
      PacketID_SIZE + (PacketID.read bytes).size.toNat := by
    rw [← hread]
    rfl
  refine ⟨?_, by rw [hheader, hlength, Nat.add_comm]⟩
  unfold packetOf Format.first
  simp only [packetFormat, hread, hheader, RecvBuffer.getReadData, h.readPos, Nat.zero_add]
  congr 1
  calc (b.buffer.drop PacketID_SIZE).take (PacketID.read bytes).size.toNat
      = ((b.buffer.take bytes.length).drop PacketID_SIZE).take (PacketID.read bytes).size.toNat := by
        rw [List.drop_take, List.take_take]
        congr 1
        omega
    _ = (bytes.drop PacketID_SIZE).take (PacketID.read bytes).size.toNat := by rw [h.content]

theorem setReadPos_window {b : RecvBuffer} {bytes : List Byte} {n : Nat} (h : Window b 0 bytes)
    (hpos : 0 < n) (hn : n ≤ bytes.length) : Window (b.setReadPos n) 0 (bytes.drop n) := by
  have hle := h.length_le
  have hw : b.writePos = bytes.length := h.writePos
  unfold RecvBuffer.setReadPos
  rw [if_neg (by rw [h.readPos, hw]; omega)]
  have hread : uint16 (b.readPos + n) = n := by
    rw [h.readPos, Nat.zero_add]
    unfold PACKET_SIZE at hle
    exact Nat.mod_eq_of_lt (by omega)
  rw [hread]
  refine clear_window h.size h.header ?_ ?_ ?_
  · simp only [hw, List.length_drop]
    omega
  · simpa only [hw] using hle
  · simp only [List.length_drop]
    rw [← List.drop_take, h.content]

/-! ### One round of the loop, by its outcome -/

theorem recvLoop_stop {dispatch : Dispatch σ} {fuel n : Nat} {app : σ} {b b' : RecvBuffer}
    (hdivide : b.divideBuffer n = (b', false)) :
    recvLoop dispatch (fuel + 1) app b n = some ⟨app, b', [], true⟩ := by
  rw [recvLoop, hdivide]
  simp only [Bool.false_eq_true, ↓reduceIte]

theorem recvLoop_reject {dispatch : Dispatch σ} {fuel n : Nat} {app app' : σ} {b b' : RecvBuffer}
    {packet : Packet} (hdivide : b.divideBuffer n = (b', true))
    (hpacket : ⟨b'.packetHeader.type, b'.getReadData b'.packetHeader.size.toNat⟩ = packet)
    (hd : dispatch app packet = (app', false)) :
    recvLoop dispatch (fuel + 1) app b n = some ⟨app', b', [packet], false⟩ := by
  rw [recvLoop, hdivide]
  simp only [hpacket, hd, ↓reduceIte, Bool.false_eq_true]

theorem recvLoop_accept {dispatch : Dispatch σ} {fuel n : Nat} {app app' : σ} {b b' : RecvBuffer}
    {packet : Packet} {r : RecvResult σ} (hdivide : b.divideBuffer n = (b', true))
    (hpacket : ⟨b'.packetHeader.type, b'.getReadData b'.packetHeader.size.toNat⟩ = packet)
    (hd : dispatch app packet = (app', true))
    (hr : recvLoop dispatch fuel app'
      (b'.setReadPos (b'.packetHeader.size.toNat + PacketID_SIZE)) 0 = some r) :
    recvLoop dispatch (fuel + 1) app b n =
      some { r with dispatched := packet :: r.dispatched } := by
  rw [recvLoop, hdivide]
  simp only [hpacket, hd, ↓reduceIte, hr, Option.map_some]

structure RecvSpec (dispatch : Dispatch σ) (app : σ) (bytes : List Byte) (r : RecvResult σ) :
    Prop where
  app_eq : r.app = (hand dispatch app (packets bytes)).app
  dispatched_eq : r.dispatched = (hand dispatch app (packets bytes)).packets
  accepted_eq : r.accepted = (hand dispatch app (packets bytes)).accepted
  kept : r.accepted = true → Window r.buffer 0 (keep (packetFormat.rest bytes))
  /-- A rejected packet stays in the buffer. -/
  left : r.accepted = false → ∃ pending, Window r.buffer 0 pending ∧ pending ≠ []

/-- The loop runs to its end and acts on the window as the deframer does; one
round for each frame. -/
theorem recvLoop_window (dispatch : Dispatch σ) (app : σ) (bytes : List Byte) :
    ∀ (fuel incoming : Nat) (b : RecvBuffer), Window b incoming bytes → bytes.length < fuel →
      ∃ r, recvLoop dispatch fuel app b incoming = some r ∧ RecvSpec dispatch app bytes r := by
  induction bytes using packetFormat.split_induction generalizing app with
  | incomplete bytes hinc =>
    intro fuel incoming b h hfuel
    obtain ⟨b', hdivide, hb'⟩ := divide_incomplete h hinc
    obtain ⟨fuel, rfl⟩ : ∃ k, fuel = k + 1 := ⟨fuel - 1, by omega⟩
    have hp : packets bytes = [] := by rw [packets, packetFormat.frames_incomplete hinc]; rfl
    refine ⟨⟨app, b', [], true⟩, recvLoop_stop hdivide, ?_⟩
    refine ⟨by rw [hp]; rfl, by rw [hp]; rfl, by rw [hp]; rfl, fun _ => ?_, nofun⟩
    rw [packetFormat.rest_incomplete hinc]
    exact hb'
  | complete bytes hcomplete ih =>
    intro fuel incoming b h hfuel
    obtain ⟨b', hdivide, hb', hheader⟩ := divide_complete h hcomplete
    obtain ⟨hpacket, hlength⟩ := packet_window hb' hcomplete hheader
    obtain ⟨fuel, rfl⟩ : ∃ k, fuel = k + 1 := ⟨fuel - 1, by omega⟩
    have hp : packets bytes = packetOf (packetFormat.first bytes) ::
        packets (bytes.drop (packetFormat.frameLength bytes)) := by
      rw [packets, packetFormat.frames_complete hcomplete]
      rfl
    rcases hd : dispatch app (packetOf (packetFormat.first bytes)) with ⟨app', accepted⟩
    cases accepted with
    | false =>
      refine ⟨⟨app', b', [packetOf (packetFormat.first bytes)], false⟩,
        recvLoop_reject hdivide hpacket hd, ?_⟩
      refine ⟨by simp [hp, hand, hd], by simp [hp, hand, hd], by simp [hp, hand, hd], nofun,
        fun _ => ⟨bytes, hb', ?_⟩⟩
      rintro rfl
      exact hcomplete (.inl packetFormat.headerLength_pos)
    | true =>
      have hnext := setReadPos_window hb' (packetFormat.frameLength_pos bytes)
        (packetFormat.frameLength_le hcomplete)
      have hdrop := packetFormat.drop_length_lt hcomplete
      obtain ⟨r, hr, hspec⟩ := ih app' fuel 0 _ hnext (by omega)
      rw [← hlength] at hr
      refine ⟨{ r with dispatched := packetOf (packetFormat.first bytes) :: r.dispatched },
        recvLoop_accept hdivide hpacket hd hr, ?_⟩
      refine ⟨?_, ?_, ?_, ?_, hspec.left⟩
      · simpa [hp, hand, hd] using hspec.app_eq
      · simpa [hp, hand, hd] using hspec.dispatched_eq
      · simpa [hp, hand, hd] using hspec.accepted_eq
      · rw [packetFormat.rest_complete hcomplete]
        exact hspec.kept

theorem recv_window (dispatch : Dispatch σ) (app : σ) {b : RecvBuffer} {bytes : List Byte}
    (data : List Byte) (h : Window b 0 bytes) (hroom : bytes.length + data.length ≤ PACKET_SIZE) :
    ∃ r, recv dispatch app (b.fill data) data.length = some r ∧
      RecvSpec dispatch app (bytes ++ data) r := by
  apply recvLoop_window dispatch app (bytes ++ data) recvFuel data.length _ (window_fill h hroom)
  unfold PACKET_SIZE at hroom
  rw [List.length_append, recvFuel]
  omega

end RoomServer
