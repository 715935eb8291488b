import RoomServer.Receive

/-! Framing does not depend on how the stream was cut into receives. The
receive side refines a deframer whose only memory is the unfinished tail. -/
namespace RoomServer
open Library.Framing Library.Transition

/-- The abstract receive side: a list of unconsumed bytes instead of offsets,
cached header and compaction. -/
structure Deframer (σ : Type) where
  app : σ
  pending : List Byte
  dispatched : List Packet
  rejected : Bool

def deframe (dispatch : Dispatch σ) : Step (Deframer σ) (List Byte) := fun s data =>
  if s.rejected = false ∧ 1 ≤ data.length ∧ data.length ≤ PACKET_SIZE - s.pending.length then
    let handed := hand dispatch s.app (packets (s.pending ++ data))
    some ⟨handed.app, keep (packetFormat.rest (s.pending ++ data)),
      s.dispatched ++ handed.packets, !handed.accepted⟩
  else none

structure Refines (c : Receiver σ) (a : Deframer σ) : Prop where
  app_eq : c.app = a.app
  dispatched_eq : c.dispatched = a.dispatched
  rejected_eq : c.rejected = a.rejected
  window : c.rejected = false → Window c.buffer 0 a.pending
  left : c.rejected = true → ∃ pending, Window c.buffer 0 pending ∧ pending ≠ []

theorem Window.getWriteBufferSize {b : RecvBuffer} {bytes : List Byte} (h : Window b 0 bytes) :
    b.getWriteBufferSize = PACKET_SIZE - bytes.length := by
  have hle := h.length_le
  have hw : b.writePos = bytes.length := h.writePos
  unfold RecvBuffer.getWriteBufferSize uint16
  rw [h.size, hw]
  unfold PACKET_SIZE at hle ⊢
  omega

/-- Every receive of the faithful model is one of the deframer, with the same
packets handed over and the same length posted next. -/
theorem receive_refines (dispatch : Dispatch σ) :
    Simulates Refines (receive dispatch) (deframe dispatch) := by
  intro c a data h
  unfold receive deframe
  rw [← h.rejected_eq]
  cases hrej : c.rejected with
  | true => exact .none
  | false =>
    have hwindow := h.window hrej
    rw [hwindow.getWriteBufferSize]
    by_cases hdata : 1 ≤ data.length ∧ data.length ≤ PACKET_SIZE - a.pending.length
    · have hle := hwindow.length_le
      obtain ⟨r, hr, hspec⟩ := recv_window dispatch c.app data hwindow (by omega)
      simp only [hdata, and_self, ↓reduceIte, hr, Option.map_some]
      refine .some ⟨?_, ?_, ?_, ?_, ?_⟩
      · rw [← h.app_eq]
        exact hspec.app_eq
      · rw [← h.app_eq, ← h.dispatched_eq, hspec.dispatched_eq]
      · rw [← h.app_eq, hspec.accepted_eq]
      · intro haccepted
        exact hspec.kept (by simpa using haccepted)
      · intro hrejected
        exact hspec.left (by simpa using hrejected)
    · simp only [true_and, hdata, ↓reduceIte]
      exact .none

theorem refines_fresh (app : σ) : Refines (Receiver.fresh app) ⟨app, [], [], false⟩ :=
  ⟨rfl, rfl, rfl, fun _ => window_fresh, nofun⟩

theorem run_refines (dispatch : Dispatch σ) (app : σ) (cuts : List (List Byte)) :
    Option.Rel Refines (run (receive dispatch) (Receiver.fresh app) cuts)
      (run (deframe dispatch) ⟨app, [], [], false⟩ cuts) :=
  (receive_refines dispatch).run (refines_fresh app) cuts

/-! ### Streams of packets that fit -/

/-- Packets whose declared bodies fit the receive buffer, and perhaps the
beginning of one more. -/
def PacketStream (stream : List Byte) : Prop :=
  ∃ (frames : List (Frame Byte)) (tail : List Byte), stream = encode frames ++ tail ∧
    (∀ frame ∈ frames, packetFormat.Valid frame ∧ frame.body.length ≤ largestBody) ∧
    packetFormat.Incomplete tail ∧
    (PacketID_SIZE ≤ tail.length → (PacketID.read tail).size.toNat ≤ largestBody)

theorem PacketStream.bounded {stream : List Byte} (h : PacketStream stream) :
    packetFormat.Bounded largestBody stream := by
  obtain ⟨frames, tail, rfl, hframes, htail, hheader⟩ := h
  have hsplit := packetFormat.split_encode (fun frame hf => (hframes frame hf).1) htail
  unfold Format.Bounded Format.frames Format.rest
  rw [hsplit]
  refine ⟨fun frame hf => ?_, fun hlong => ?_⟩
  · rw [← (hframes frame hf).1.body_length]
    exact (hframes frame hf).2
  · have := hheader hlong
    rwa [← PacketID.read_take hlong] at this

theorem keep_rest {stream : List Byte} (h : packetFormat.Bounded largestBody stream) :
    keep (packetFormat.rest stream) = packetFormat.rest stream := by
  refine if_neg fun habandoned => ?_
  have hheader := h.2 habandoned.1
  have hread := PacketID.read_take habandoned.1
  have hbig := habandoned.2
  rw [← hread] at hbig
  exact absurd hheader (Nat.not_le.mpr hbig)

structure Received (dispatch : Dispatch σ) (app : σ) (stream : List Byte) (s : Deframer σ) :
    Prop where
  dispatched_eq : s.dispatched = (hand dispatch app (packets stream)).packets
  rejected_eq : s.rejected = !(hand dispatch app (packets stream)).accepted
  app_eq : s.app = (hand dispatch app (packets stream)).app
  pending_eq : s.rejected = false → s.pending = packetFormat.rest stream

theorem packets_append (stream more : List Byte) :
    packets (stream ++ more) = packets stream ++ packets (packetFormat.rest stream ++ more) := by
  rw [packets, packetFormat.frames_append, List.map_append]
  rfl

theorem deframe_received {dispatch : Dispatch σ} {app : σ} {stream data : List Byte}
    {s s' : Deframer σ} (h : Received dispatch app stream s)
    (hbound : packetFormat.Bounded largestBody (stream ++ data))
    (hstep : deframe dispatch s data = some s') :
    Received dispatch app (stream ++ data) s' := by
  unfold deframe at hstep
  split at hstep
  case isFalse => contradiction
  case isTrue henabled =>
    cases Option.some.inj hstep
    have hpending := h.pending_eq henabled.1
    have haccepted : (hand dispatch app (packets stream)).accepted = true := by
      simpa [henabled.1] using h.rejected_eq.symm
    have hhand := hand_append dispatch app (packets stream)
      (packets (packetFormat.rest stream ++ data))
    rw [if_pos haccepted, ← packets_append, ← h.app_eq, ← h.dispatched_eq, ← hpending] at hhand
    refine ⟨?_, ?_, ?_, fun _ => ?_⟩
    · rw [hhand]
    · rw [hhand]
    · rw [hhand]
    · change keep (packetFormat.rest (s.pending ++ data)) = _
      rw [hpending, ← packetFormat.rest_append, keep_rest hbound]

theorem run_received {dispatch : Dispatch σ} {app : σ} (cuts : List (List Byte))
    {stream : List Byte} {s s' : Deframer σ} (h : Received dispatch app stream s)
    (hbound : packetFormat.Bounded largestBody (stream ++ cuts.flatten))
    (hrun : run (deframe dispatch) s cuts = some s') :
    Received dispatch app (stream ++ cuts.flatten) s' := by
  induction cuts generalizing stream s with
  | nil =>
    cases Option.some.inj hrun
    simpa using h
  | cons data rest ih =>
    obtain ⟨middle, hstep, hrest⟩ := Option.bind_eq_some_iff.mp hrun
    rw [List.flatten_cons, ← List.append_assoc] at hbound ⊢
    exact ih (deframe_received h hbound.left hstep) hbound hrest

theorem received_nil (dispatch : Dispatch σ) (app : σ) :
    Received dispatch app [] ⟨app, [], [], false⟩ := ⟨rfl, rfl, rfl, fun _ => rfl⟩

theorem run_refined {dispatch : Dispatch σ} {app : σ} {cuts : List (List Byte)}
    {future : List Byte} (hstream : PacketStream (cuts.flatten ++ future)) {s : Receiver σ}
    (hrun : run (receive dispatch) (Receiver.fresh app) cuts = some s) :
    ∃ a, Refines s a ∧ Received dispatch app cuts.flatten a := by
  have hrel := run_refines dispatch app cuts
  rw [hrun] at hrel
  cases ha : run (deframe dispatch) ⟨app, [], [], false⟩ cuts with
  | none => rw [ha] at hrel; contradiction
  | some a =>
    rw [ha] at hrel
    obtain ⟨hrefines⟩ := hrel
    have hreceived := run_received cuts (received_nil dispatch app) hstream.bounded.left ha
    rw [List.nil_append] at hreceived
    exact ⟨a, hrefines, hreceived⟩

/-- Whatever the cuts, `Dispatch` is handed the complete packets of the bytes
received so far, up to the first one it rejects; until then the buffer holds the
unfinished tail from position 0, and every further receive of a length posted
is processed to its end. -/
theorem recv_segmentation (dispatch : Dispatch σ) (app : σ) (cuts : List (List Byte))
    (future : List Byte) (hstream : PacketStream (cuts.flatten ++ future)) (s : Receiver σ)
    (hrun : run (receive dispatch) (Receiver.fresh app) cuts = some s) :
    s.dispatched = (hand dispatch app (packets cuts.flatten)).packets ∧
      s.rejected = !(hand dispatch app (packets cuts.flatten)).accepted ∧
      (s.rejected = false →
        s.buffer.readPos = 0 ∧
        s.buffer.buffer.take s.buffer.writePos = packetFormat.rest cuts.flatten ∧
        ∀ data : List Byte, 1 ≤ data.length → data.length ≤ s.buffer.getWriteBufferSize →
          (receive dispatch s data).isSome) := by
  obtain ⟨a, hrefines, hreceived⟩ := run_refined hstream hrun
  refine ⟨?_, ?_, fun haccepted => ?_⟩
  · rw [hrefines.dispatched_eq, hreceived.dispatched_eq]
  · rw [hrefines.rejected_eq, hreceived.rejected_eq]
  · have hwindow := hrefines.window haccepted
    have hpending := hreceived.pending_eq (hrefines.rejected_eq ▸ haccepted)
    refine ⟨hwindow.readPos, ?_, fun data hpos hroom => ?_⟩
    · rw [show s.buffer.writePos = a.pending.length from hwindow.writePos, hwindow.content,
        hpending]
    · have hle := hwindow.length_le
      have hsize := hwindow.getWriteBufferSize
      obtain ⟨r, hr, _⟩ := recv_window dispatch s.app data hwindow (by omega)
      simp [receive, haccepted, hpos, hroom, hr]

def acceptAll : Dispatch Unit := fun app _ => (app, true)

/-- An ENTER cut inside its header, then the beginning of another packet. -/
theorem recv_segmentation_cut_header :
    ∃ s, run (receive acceptAll) (Receiver.fresh ()) [[3, 0], [0, 0, 1]] = some s ∧
      s.dispatched = [⟨PacketType.CLIENT_ENTER, []⟩] ∧
      s.buffer.buffer.take s.buffer.writePos = [1] := by
  obtain ⟨s, hrun⟩ := Option.isSome_iff_exists.mp (show
    (run (receive acceptAll) (Receiver.fresh ()) [[3, 0], [0, 0, 1]]).isSome by decide +kernel)
  have hstream : PacketStream ([[3, 0], [0, 0, 1]].flatten ++ [0, 2, 0, 9]) := by
    refine ⟨[⟨[3, 0, 0, 0], []⟩], [1, 0, 2, 0, 9], rfl, ?_, by decide, by decide⟩
    intro frame hframe
    cases List.mem_singleton.mp hframe
    exact ⟨⟨rfl, rfl⟩, by decide⟩
  obtain ⟨hdispatched, hrejected, hbuffer⟩ :=
    recv_segmentation acceptAll () [[3, 0], [0, 0, 1]] [0, 2, 0, 9] hstream s hrun
  exact ⟨s, hrun, hdispatched.trans (by decide), (hbuffer (hrejected.trans (by decide))).2.1.trans (by decide)⟩

end RoomServer
