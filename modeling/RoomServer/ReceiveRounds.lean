import RoomServer.Segmentation

/-! The rounds of `SessionData::Recv` one by one: what every `DivideBuffer`, `Clear`
and `SetReadPos` finds in the buffer, whatever bytes arrived. -/
namespace RoomServer
open Library.Framing Library.Transition

/-- One `DivideBuffer` of the loop and what follows it. -/
structure Round where
  start : RecvBuffer
  incoming : Nat
  divided : RecvBuffer
  /-- `DivideBuffer` found a whole packet. -/
  complete : Bool
  /-- The buffer after `SetReadPos`, which an accepted packet leads to. -/
  next : Option RecvBuffer

namespace Round

def bodySize (round : Round) : Nat := round.divided.packetHeader.size.toNat

def packet (round : Round) : Packet :=
  ⟨round.divided.packetHeader.type, round.divided.getReadData round.bodySize⟩

end Round

def recvRounds (dispatch : Dispatch σ) : Nat → σ → RecvBuffer → Nat → List Round
  | 0, _, _, _ => []
  | fuel + 1, app, b, divideByte =>
    let divided := b.divideBuffer divideByte
    if divided.2 then
      let bodySize := divided.1.packetHeader.size.toNat
      let packet : Packet := ⟨divided.1.packetHeader.type, divided.1.getReadData bodySize⟩
      let handled := dispatch app packet
      if handled.2 then
        let next := divided.1.setReadPos (bodySize + PacketID_SIZE)
        ⟨b, divideByte, divided.1, true, some next⟩ :: recvRounds dispatch fuel handled.1 next 0
      else [⟨b, divideByte, divided.1, true, none⟩]
    else [⟨b, divideByte, divided.1, false, none⟩]

section Rounds
variable {dispatch : Dispatch σ} {fuel n : Nat} {app app' : σ} {b b' : RecvBuffer}

theorem recvRounds_stop (hdivide : b.divideBuffer n = (b', false)) :
    recvRounds dispatch (fuel + 1) app b n = [⟨b, n, b', false, none⟩] := by
  rw [recvRounds, hdivide]
  simp only [Bool.false_eq_true, ↓reduceIte]

theorem recvRounds_reject {packet : Packet} (hdivide : b.divideBuffer n = (b', true))
    (hpacket : ⟨b'.packetHeader.type, b'.getReadData b'.packetHeader.size.toNat⟩ = packet)
    (hd : dispatch app packet = (app', false)) :
    recvRounds dispatch (fuel + 1) app b n = [⟨b, n, b', true, none⟩] := by
  rw [recvRounds, hdivide]
  simp only [hpacket, hd, ↓reduceIte, Bool.false_eq_true]

theorem recvRounds_accept {packet : Packet} (hdivide : b.divideBuffer n = (b', true))
    (hpacket : ⟨b'.packetHeader.type, b'.getReadData b'.packetHeader.size.toNat⟩ = packet)
    (hd : dispatch app packet = (app', true)) :
    recvRounds dispatch (fuel + 1) app b n =
      ⟨b, n, b', true, some (b'.setReadPos (b'.packetHeader.size.toNat + PacketID_SIZE))⟩ ::
        recvRounds dispatch fuel app'
          (b'.setReadPos (b'.packetHeader.size.toNat + PacketID_SIZE)) 0 := by
  rw [recvRounds, hdivide]
  simp only [hpacket, hd, ↓reduceIte]

end Rounds

/-- The rounds are those of the loop: the complete ones hand over its packets. -/
theorem recvLoop_rounds (dispatch : Dispatch σ) (fuel : Nat) (app : σ) (b : RecvBuffer) (n : Nat)
    {r : RecvResult σ} (h : recvLoop dispatch fuel app b n = some r) :
    r.dispatched = ((recvRounds dispatch fuel app b n).filter Round.complete).map Round.packet := by
  induction fuel generalizing app b n r with
  | zero => contradiction
  | succ fuel ih =>
    rcases hdivide : b.divideBuffer n with ⟨b', complete⟩
    cases complete with
    | false =>
      rw [recvLoop_stop hdivide] at h
      cases h
      rw [recvRounds_stop hdivide]
      rfl
    | true =>
      rcases hd : dispatch app
        ⟨b'.packetHeader.type, b'.getReadData b'.packetHeader.size.toNat⟩ with ⟨app', accepted⟩
      cases accepted with
      | false =>
        rw [recvLoop_reject hdivide rfl hd] at h
        cases h
        rw [recvRounds_reject hdivide rfl hd]
        rfl
      | true =>
        rw [recvRounds_accept hdivide rfl hd]
        rw [recvLoop, hdivide] at h
        simp only [hd, ↓reduceIte] at h
        obtain ⟨tail, htail, rfl⟩ := Option.map_eq_some_iff.mp h
        simp only [List.filter_cons_of_pos, List.map_cons, ih _ _ _ htail]
        rfl

/-! ### What a round may rely on -/

namespace RecvBuffer

def unread (b : RecvBuffer) : List Byte := (b.buffer.drop b.readPos).take (b.writePos - b.readPos)

def InRange (b : RecvBuffer) : Prop := b.readPos ≤ b.writePos ∧ b.writePos ≤ PACKET_SIZE

end RecvBuffer

def Fits (n : Int) : Prop := 0 ≤ n ∧ n < 65536

structure Round.Safe (received : List Byte) (round : Round) : Prop where
  start : round.start.InRange
  /-- `m_writePos += transferbyte`. -/
  counted : Fits (round.start.writePos + round.incoming)
  /-- `GetBufferSize`, and the difference in `Clear` when the packet is not complete. -/
  measured : Fits (round.start.writePos + round.incoming - round.start.readPos)
  divided : round.divided.InRange
  unread : round.divided.unread <:+ received
  inside : round.complete = true →
    PacketID_SIZE + round.bodySize ≤ round.divided.unread.length
  body : round.complete = true →
    round.packet.body = (round.divided.unread.drop PacketID_SIZE).take round.bodySize
  /-- `m_readPos += transferbyte` and then `m_writePos -= m_readPos`. -/
  advanced : round.next.isSome →
    Fits (round.divided.readPos + (round.bodySize + PacketID_SIZE : Nat))
  compacted : round.next.isSome → Fits (round.divided.writePos -
    (round.divided.readPos + (round.bodySize + PacketID_SIZE : Nat)))
  next : ∀ next ∈ round.next, next.InRange
  consumed : ∀ next ∈ round.next,
    next.unread = round.divided.unread.drop (round.bodySize + PacketID_SIZE)
  shorter : ∀ next ∈ round.next,
    next.unread.length + PacketID_SIZE ≤ round.divided.unread.length

theorem Window.unread {b : RecvBuffer} {bytes : List Byte} (h : Window b 0 bytes) :
    b.unread = bytes := by
  have hw : b.writePos = bytes.length := h.writePos
  rw [RecvBuffer.unread, h.readPos, List.drop_zero, Nat.sub_zero, hw, h.content]

theorem Window.inRange {b : RecvBuffer} {incoming : Nat} {bytes : List Byte}
    (h : Window b incoming bytes) : b.InRange := by
  have hle := h.length_le
  have hw := h.writePos
  unfold RecvBuffer.InRange
  rw [h.readPos]
  omega

theorem suffix_append_more {pending received : List Byte} (h : pending <:+ received)
    (data : List Byte) : pending ++ data <:+ received ++ data := by
  obtain ⟨before, rfl⟩ := h
  exact ⟨before, (List.append_assoc _ _ _).symm⟩

theorem keep_suffix (bytes : List Byte) : keep bytes <:+ bytes := by
  unfold keep
  split
  · exact List.nil_suffix
  · exact List.suffix_rfl

section Window
variable {b b' : RecvBuffer} {incoming : Nat} {bytes received : List Byte}

theorem Window.fits_counted (h : Window b incoming bytes) :
    Fits (b.writePos + incoming) ∧ Fits (b.writePos + incoming - b.readPos) := by
  have hle := h.length_le
  have hw := h.writePos
  have hr := h.readPos
  unfold PACKET_SIZE at hle
  unfold Fits
  omega

theorem safe_incomplete (h : Window b incoming bytes) (hb' : Window b' 0 (keep bytes))
    (hreceived : bytes <:+ received) : Round.Safe received ⟨b, incoming, b', false, none⟩ where
  start := h.inRange
  counted := h.fits_counted.1
  measured := h.fits_counted.2
  divided := hb'.inRange
  unread := by
    change b'.unread <:+ received
    rw [hb'.unread]
    exact (keep_suffix bytes).trans hreceived
  inside := nofun
  body := nofun
  advanced := nofun
  compacted := nofun
  next := nofun
  consumed := nofun
  shorter := nofun

theorem safe_complete {next : Option RecvBuffer} (h : Window b incoming bytes)
    (hb' : Window b' 0 bytes) (hreceived : bytes <:+ received)
    (hcomplete : ¬packetFormat.Incomplete bytes) (hheader : b'.packetHeader = PacketID.read bytes)
    (hnext : ∀ b'' ∈ next, Window b'' 0
      (bytes.drop (b'.packetHeader.size.toNat + PacketID_SIZE))) :
    Round.Safe received ⟨b, incoming, b', true, next⟩ := by
  have hunread := hb'.unread
  have hle := h.length_le
  have hw : b'.writePos = bytes.length := hb'.writePos
  have hinside : PacketID_SIZE + b'.packetHeader.size.toNat ≤ bytes.length := by
    rw [format_incomplete] at hcomplete
    rw [hheader]
    omega
  have hconsumed : ∀ b'' ∈ next,
      b''.unread = b'.unread.drop (b'.packetHeader.size.toNat + PacketID_SIZE) := by
    intro b'' hb''
    rw [(hnext b'' hb'').unread, hunread]
  unfold PACKET_SIZE at hle
  refine ⟨h.inRange, h.fits_counted.1, h.fits_counted.2, hb'.inRange, ?_, fun _ => ?_,
    fun _ => ?_, fun _ => ?_, fun _ => ?_, ?_, hconsumed, ?_⟩
  · change b'.unread <:+ received
    rw [hunread]
    exact hreceived
  · change PacketID_SIZE + b'.packetHeader.size.toNat ≤ b'.unread.length
    rw [hunread]
    exact hinside
  · change b'.getReadData b'.packetHeader.size.toNat =
      (b'.unread.drop PacketID_SIZE).take b'.packetHeader.size.toNat
    rw [RecvBuffer.getReadData, RecvBuffer.unread, hb'.readPos, List.drop_zero, Nat.zero_add,
      Nat.sub_zero, hw, List.drop_take, List.take_take]
    congr 1
    omega
  · change Fits (b'.readPos + (b'.packetHeader.size.toNat + PacketID_SIZE : Nat))
    rw [hb'.readPos]
    unfold Fits
    omega
  · change Fits (b'.writePos - (b'.readPos + (b'.packetHeader.size.toNat + PacketID_SIZE : Nat)))
    rw [hb'.readPos, hw]
    unfold Fits
    omega
  · intro b'' hb''
    exact (hnext b'' hb'').inRange
  · intro b'' hb''
    rw [hconsumed b'' hb'']
    change (b'.unread.drop _).length + PacketID_SIZE ≤ b'.unread.length
    rw [hunread, List.length_drop]
    omega

end Window

/-- Every round of a receive is safe; along the frames of the window. -/
theorem recvRounds_safe (dispatch : Dispatch σ) (app : σ) (bytes : List Byte) :
    ∀ (fuel incoming : Nat) (b : RecvBuffer) (received : List Byte), Window b incoming bytes →
      bytes <:+ received →
      ∀ round ∈ recvRounds dispatch fuel app b incoming, round.Safe received := by
  induction bytes using packetFormat.split_induction generalizing app with
  | incomplete bytes hinc =>
    intro fuel incoming b received h hreceived
    cases fuel with
    | zero => nofun
    | succ fuel =>
      obtain ⟨b', hdivide, hb'⟩ := divide_incomplete h hinc
      rw [recvRounds_stop hdivide]
      intro round hround
      cases List.mem_singleton.mp hround
      exact safe_incomplete h hb' hreceived
  | complete bytes hcomplete ih =>
    intro fuel incoming b received h hreceived
    cases fuel with
    | zero => nofun
    | succ fuel =>
      obtain ⟨b', hdivide, hb', hheader⟩ := divide_complete h hcomplete
      obtain ⟨hpacket, hlength⟩ := packet_window hb' hcomplete hheader
      rcases hd : dispatch app (packetOf (packetFormat.first bytes)) with ⟨app', accepted⟩
      cases accepted with
      | false =>
        rw [recvRounds_reject hdivide hpacket hd]
        intro round hround
        cases List.mem_singleton.mp hround
        exact safe_complete h hb' hreceived hcomplete hheader nofun
      | true =>
        have hnext := setReadPos_window hb' (packetFormat.frameLength_pos bytes)
          (packetFormat.frameLength_le hcomplete)
        rw [recvRounds_accept hdivide hpacket hd]
        rw [← hlength] at hnext ih
        intro round hround
        cases hround with
        | head =>
          apply safe_complete h hb' hreceived hcomplete hheader
          intro b'' hb''
          cases hb''
          exact hnext
        | tail _ hround =>
          exact ih app' fuel 0 _ received hnext ((List.drop_suffix _ _).trans hreceived) round hround

/-! ### Over a whole connection -/

theorem keep_rest_length (bytes : List Byte) :
    (keep (packetFormat.rest bytes)).length < PACKET_SIZE := by
  unfold keep
  split
  · decide
  case isFalse hkept =>
    -- the tail is incomplete, and its header, if it is there, declares a body that fits
    have hinc := (format_incomplete _).mp (packetFormat.incomplete_rest bytes)
    have hlimit : largestBody + PacketID_SIZE = PACKET_SIZE := rfl
    by_cases hheader : PacketID_SIZE ≤ (packetFormat.rest bytes).length
    · have hfit : ¬largestBody < (PacketID.read (packetFormat.rest bytes)).size.toNat :=
        fun hbig => hkept ⟨hheader, hbig⟩
      omega
    · unfold PACKET_SIZE
      unfold PacketID_SIZE at hheader
      omega

/-- Between two receives the buffer holds the end of what was received, and room
is left behind it. -/
def Reposted (received : List Byte) (s : Receiver σ) : Prop :=
  s.rejected = false →
    ∃ pending, Window s.buffer 0 pending ∧ pending <:+ received ∧ pending.length < PACKET_SIZE

theorem reposted_fresh (app : σ) : Reposted [] (Receiver.fresh app) :=
  fun _ => ⟨[], window_fresh, List.suffix_rfl, by decide⟩

theorem receive_window {dispatch : Dispatch σ} {s s' : Receiver σ} {received data : List Byte}
    (h : Reposted received s) (hstep : receive dispatch s data = some s') :
    ∃ pending, Window s.buffer 0 pending ∧ pending <:+ received ∧
      pending.length + data.length ≤ PACKET_SIZE := by
  unfold receive at hstep
  split at hstep
  case isFalse => contradiction
  case isTrue henabled =>
    obtain ⟨pending, hwindow, hsuffix, hlength⟩ := h henabled.1
    have hsize := hwindow.getWriteBufferSize
    exact ⟨pending, hwindow, hsuffix, by omega⟩

theorem receive_posted {dispatch : Dispatch σ} {s s' : Receiver σ} {received data : List Byte}
    (h : Reposted received s) (hstep : receive dispatch s data = some s') :
    Reposted (received ++ data) s' := by
  obtain ⟨pending, hwindow, hsuffix, hroom⟩ := receive_window h hstep
  unfold receive at hstep
  split at hstep
  case isFalse => contradiction
  case isTrue =>
    obtain ⟨r, hr, hspec⟩ := recv_window dispatch s.app data hwindow hroom
    rw [hr] at hstep
    cases hstep
    intro hgoes
    have hgoes : r.accepted = true := by simpa using hgoes
    refine ⟨_, hspec.kept hgoes, ?_, keep_rest_length _⟩
    have hrest : keep (packetFormat.rest (pending ++ data)) <:+ pending ++ data :=
      (keep_suffix _).trans (packetFormat.rest_suffix _)
    exact hrest.trans (suffix_append_more hsuffix data)

theorem run_posted {dispatch : Dispatch σ} (cuts : List (List Byte)) {s s' : Receiver σ}
    {received : List Byte} (h : Reposted received s)
    (hrun : run (receive dispatch) s cuts = some s') : Reposted (received ++ cuts.flatten) s' := by
  induction cuts generalizing s received with
  | nil =>
    cases Option.some.inj hrun
    simpa using h
  | cons data rest ih =>
    obtain ⟨middle, hstep, hrest⟩ := Option.bind_eq_some_iff.mp hrun
    rw [List.flatten_cons, ← List.append_assoc]
    exact ih (receive_posted h hstep) hrest

/-- Whatever was sent and however it was cut: the next receive is posted with a
length that is not zero and stays inside the buffer, and its loop ends, with every
round safe. -/
theorem receive_safe (dispatch : Dispatch σ) (app : σ) (cuts : List (List Byte)) (s : Receiver σ)
    (hrun : run (receive dispatch) (Receiver.fresh app) cuts = some s)
    (haccepted : s.rejected = false) :
    s.buffer.InRange ∧ Fits (PACKET_SIZE - s.buffer.writePos) ∧
      1 ≤ s.buffer.getWriteBufferSize ∧
      s.buffer.getWriteBufferSize ≤ PACKET_SIZE - s.buffer.writePos ∧
      ∀ data : List Byte, 1 ≤ data.length → data.length ≤ s.buffer.getWriteBufferSize →
        (recv dispatch s.app (s.buffer.fill data) data.length).isSome ∧
        ∀ round ∈ recvRounds dispatch recvFuel s.app (s.buffer.fill data) data.length,
          round.Safe (cuts.flatten ++ data) := by
  have hposted := run_posted cuts (reposted_fresh app) hrun
  rw [List.nil_append] at hposted
  obtain ⟨pending, hwindow, hsuffix, hlength⟩ := hposted haccepted
  have hw : s.buffer.writePos = pending.length := hwindow.writePos
  have hsize := hwindow.getWriteBufferSize
  refine ⟨hwindow.inRange, ?_, ?_, ?_, fun data _ hroom => ⟨?_, ?_⟩⟩
  · rw [hw]
    unfold Fits PACKET_SIZE
    unfold PACKET_SIZE at hlength
    omega
  · omega
  · omega
  · obtain ⟨r, hr, _⟩ := recv_window dispatch s.app data hwindow (by omega)
    rw [hr]
    rfl
  · exact recvRounds_safe dispatch s.app (pending ++ data) recvFuel data.length _ _
      (window_fill hwindow (by omega)) (suffix_append_more hsuffix data)

/-- An oversized header, given up, and then four bytes of its body. -/
theorem receive_safe_oversized :
    ∃ s, run (receive acceptAll) (Receiver.fresh ()) [[2, 0, 253], [15]] = some s ∧
      1 ≤ s.buffer.getWriteBufferSize ∧
      ∀ round ∈ recvRounds acceptAll recvFuel s.app (s.buffer.fill [3, 0, 0, 0]) 4,
        round.Safe [2, 0, 253, 15, 3, 0, 0, 0] := by
  obtain ⟨s, hrun⟩ := Option.isSome_iff_exists.mp (show
    (run (receive acceptAll) (Receiver.fresh ()) [[2, 0, 253], [15]]).isSome by decide +kernel)
  have hpost : (run (receive acceptAll) (Receiver.fresh ()) [[2, 0, 253], [15]]).all fun s =>
      s.rejected == false && decide (4 ≤ s.buffer.getWriteBufferSize) := by decide +kernel
  rw [hrun] at hpost
  simp only [Option.all_some, Bool.and_eq_true, beq_iff_eq, decide_eq_true_eq] at hpost
  obtain ⟨_, _, hpositive, _, hrounds⟩ := receive_safe acceptAll () [[2, 0, 253], [15]] s hrun hpost.1
  exact ⟨s, hrun, hpositive, (hrounds [3, 0, 0, 0] (by decide) hpost.2).2⟩

end RoomServer
