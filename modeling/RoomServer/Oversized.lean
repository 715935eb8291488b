import RoomServer.ReceiveRounds

/-! Packets whose declared body does not fit the receive buffer. `Clear` gives one up
as soon as its header is known, with what has arrived of it; nothing remembers that
the rest of its body is still to come. -/
namespace RoomServer
open Library.Framing Library.Transition

/-! ### Where headers are read -/

namespace Round

def available (round : Round) : Nat :=
  { round.start with writePos := uint16 (round.start.writePos + round.incoming) }.getBufferSize

def headerAt (received : Nat) (round : Round) : Option Nat :=
  if PacketID_SIZE ≤ round.available then some (received - round.available) else none

end Round

def headersRead (dispatch : Dispatch σ) : Receiver σ → Nat → List (List Byte) → List Nat
  | _, _, [] => []
  | s, received, data :: rest =>
    let rounds := recvRounds dispatch recvFuel s.app (s.buffer.fill data) data.length
    rounds.filterMap (Round.headerAt (received + data.length)) ++
      match receive dispatch s data with
      | none => []
      | some s' => headersRead dispatch s' (received + data.length) rest

theorem headersRead_cons {dispatch : Dispatch σ} {s s' : Receiver σ} {data : List Byte}
    (hstep : receive dispatch s data = some s') (received : Nat) (rest : List (List Byte)) :
    headersRead dispatch s received (data :: rest) =
      (recvRounds dispatch recvFuel s.app (s.buffer.fill data) data.length).filterMap
          (Round.headerAt (received + data.length)) ++
        headersRead dispatch s' (received + data.length) rest := by
  rw [headersRead, hstep]

theorem headersRead_append {dispatch : Dispatch σ} (first second : List (List Byte))
    {s s' : Receiver σ} (received : Nat) (hrun : run (receive dispatch) s first = some s') :
    headersRead dispatch s received (first ++ second) =
      headersRead dispatch s received first ++
        headersRead dispatch s' (received + first.flatten.length) second := by
  induction first generalizing s received with
  | nil =>
    cases Option.some.inj hrun
    rfl
  | cons data rest ih =>
    obtain ⟨middle, hstep, hrest⟩ := Option.bind_eq_some_iff.mp hrun
    rw [List.cons_append, headersRead_cons hstep, headersRead_cons hstep, ih _ hrest,
      List.append_assoc, List.flatten_cons, List.length_append, Nat.add_assoc]

theorem headersRead_through {dispatch : Dispatch σ} {first : List (List Byte)} {data : List Byte}
    {s middle s' : Receiver σ} (rest : List (List Byte)) (received : Nat)
    (hfirst : run (receive dispatch) s first = some middle)
    (hstep : receive dispatch middle data = some s') :
    headersRead dispatch s received (first ++ data :: rest) =
      headersRead dispatch s received (first ++ [data]) ++
        headersRead dispatch s' (received + first.flatten.length + data.length) rest := by
  rw [headersRead_append first _ received hfirst, headersRead_append first [data] received hfirst,
    headersRead_cons hstep, headersRead_cons hstep, headersRead, List.append_nil,
    List.append_assoc]

theorem Window.available {b : RecvBuffer} {incoming : Nat} {bytes : List Byte}
    (h : Window b incoming bytes) (divided : RecvBuffer) (complete : Bool)
    (next : Option RecvBuffer) :
    Round.available ⟨b, incoming, divided, complete, next⟩ = bytes.length := by
  have hle := h.length_le
  have hw := h.writePos
  unfold Round.available RecvBuffer.getBufferSize uint16
  simp only [h.readPos]
  unfold PACKET_SIZE at hle
  omega

/-- The rounds go through the window frame by frame, from its first byte. -/
theorem recvRounds_available (dispatch : Dispatch σ) (app : σ) (bytes : List Byte) :
    ∀ (fuel incoming : Nat) (b : RecvBuffer), Window b incoming bytes →
      ∀ round ∈ recvRounds dispatch fuel app b incoming,
        (packetFormat.rest bytes).length ≤ round.available ∧ round.available ≤ bytes.length := by
  induction bytes using packetFormat.split_induction generalizing app with
  | incomplete bytes hinc =>
    intro fuel incoming b h
    cases fuel with
    | zero => nofun
    | succ fuel =>
      obtain ⟨b', hdivide, _⟩ := divide_incomplete h hinc
      rw [recvRounds_stop hdivide, packetFormat.rest_incomplete hinc]
      intro round hround
      cases List.mem_singleton.mp hround
      rw [h.available]
      exact ⟨Nat.le_refl _, Nat.le_refl _⟩
  | complete bytes hcomplete ih =>
    intro fuel incoming b h
    have hrest := (packetFormat.rest_suffix bytes).length_le
    cases fuel with
    | zero => nofun
    | succ fuel =>
      obtain ⟨b', hdivide, hb', hheader⟩ := divide_complete h hcomplete
      obtain ⟨hpacket, hlength⟩ := packet_window hb' hcomplete hheader
      rcases hd : dispatch app (packetOf (packetFormat.first bytes)) with ⟨app', accepted⟩
      cases accepted with
      | false =>
        rw [recvRounds_reject hdivide hpacket hd]
        intro round hround
        cases List.mem_singleton.mp hround
        rw [h.available]
        exact ⟨hrest, Nat.le_refl _⟩
      | true =>
        have hnext := setReadPos_window hb' (packetFormat.frameLength_pos bytes)
          (packetFormat.frameLength_le hcomplete)
        have hshorter := packetFormat.drop_length_lt hcomplete
        rw [recvRounds_accept hdivide hpacket hd, packetFormat.rest_complete hcomplete]
        rw [← hlength] at hnext ih hshorter ⊢
        intro round hround
        cases hround with
        | head =>
          rw [h.available]
          refine ⟨?_, Nat.le_refl _⟩
          rw [hlength, ← packetFormat.rest_complete hcomplete]
          exact hrest
        | tail _ hround =>
          have := ih app' fuel 0 _ hnext round hround
          omega

theorem header_at_start (dispatch : Dispatch σ) (app : σ) {bytes : List Byte} {incoming : Nat}
    {b : RecvBuffer} (h : Window b incoming bytes) (hheader : PacketID_SIZE ≤ bytes.length)
    (fuel received : Nat) :
    received - bytes.length ∈
      (recvRounds dispatch (fuel + 1) app b incoming).filterMap (Round.headerAt received) := by
  have hread (divided : RecvBuffer) (complete : Bool) (next : Option RecvBuffer) :
      Round.headerAt received ⟨b, incoming, divided, complete, next⟩ =
        some (received - bytes.length) := by
    rw [Round.headerAt, h.available, if_pos hheader]
  rcases hdivide : b.divideBuffer incoming with ⟨b', complete⟩
  cases complete with
  | false =>
    rw [recvRounds_stop hdivide, List.filterMap_cons_some (hread _ _ _)]
    exact List.mem_cons_self
  | true =>
    rcases hd : dispatch app
      ⟨b'.packetHeader.type, b'.getReadData b'.packetHeader.size.toNat⟩ with ⟨app', accepted⟩
    cases accepted with
    | false =>
      rw [recvRounds_reject hdivide rfl hd, List.filterMap_cons_some (hread _ _ _)]
      exact List.mem_cons_self
    | true =>
      rw [recvRounds_accept hdivide rfl hd, List.filterMap_cons_some (hread _ _ _)]
      exact List.mem_cons_self

theorem headersRead_le {dispatch : Dispatch σ} (cuts : List (List Byte)) {s s' : Receiver σ}
    {received : List Byte} (h : Reposted received s) (hrun : run (receive dispatch) s cuts = some s') :
    ∀ o ∈ headersRead dispatch s received.length cuts,
      o + PacketID_SIZE ≤ received.length + cuts.flatten.length := by
  induction cuts generalizing s received with
  | nil => nofun
  | cons data rest ih =>
    obtain ⟨middle, hstep, hrest⟩ := Option.bind_eq_some_iff.mp hrun
    have hlater := ih (receive_posted h hstep) hrest
    rw [List.length_append] at hlater
    rw [headersRead_cons hstep, List.flatten_cons, List.length_append]
    intro o ho
    rcases List.mem_append.mp ho with ho | ho
    · obtain ⟨round, hround, hat⟩ := List.mem_filterMap.mp ho
      obtain ⟨pending, hwindow, hsuffix, hroom⟩ := receive_window h hstep
      have havailable := (recvRounds_available dispatch s.app (pending ++ data) recvFuel
        data.length _ (window_fill hwindow hroom) round hround).2
      have hlength := hsuffix.length_le
      rw [List.length_append] at havailable
      unfold Round.headerAt at hat
      split at hat
      · cases hat
        omega
      · contradiction
    · have := hlater o ho
      omega

/-! ### What the handlers make of the packets that fit -/

theorem hand_packets {dispatch : Dispatch σ} {app : σ} {list : List Packet}
    (h : (hand dispatch app list).accepted = true) : (hand dispatch app list).packets = list := by
  induction list generalizing app with
  | nil => rfl
  | cons packet rest ih =>
    rcases hd : dispatch app packet with ⟨app', accepted⟩
    cases accepted with
    | false => simp [hand, hd] at h
    | true =>
      simp only [hand, hd] at h ⊢
      rw [ih h]

theorem hand_accepted_append {dispatch : Dispatch σ} {app : σ} {first second : List Packet}
    (h : (hand dispatch app (first ++ second)).accepted = true) :
    (hand dispatch app first).accepted = true ∧
      (hand dispatch (hand dispatch app first).app second).accepted = true := by
  rw [hand_append] at h
  split at h
  case isTrue haccepted => exact ⟨haccepted, h⟩
  case isFalse hrejected => exact absurd h hrejected

structure Waiting (s : Receiver σ) (pending : List Byte) : Prop where
  accepted : s.rejected = false
  window : Window s.buffer 0 pending

theorem Waiting.room {dispatch : Dispatch σ} {s s' : Receiver σ} {pending data : List Byte}
    (h : Waiting s pending) (hstep : receive dispatch s data = some s') :
    pending.length + data.length ≤ PACKET_SIZE := by
  unfold receive at hstep
  split at hstep
  case isFalse => contradiction
  case isTrue henabled =>
    have hsize := h.window.getWriteBufferSize
    have hle := h.window.length_le
    omega

theorem receive_waiting {dispatch : Dispatch σ} {s s' : Receiver σ} {pending data : List Byte}
    (h : Waiting s pending) (hstep : receive dispatch s data = some s')
    (hhand : (hand dispatch s.app (packets (pending ++ data))).accepted = true) :
    Waiting s' (keep (packetFormat.rest (pending ++ data))) ∧
      s'.dispatched = s.dispatched ++ packets (pending ++ data) := by
  unfold receive at hstep
  split at hstep
  case isFalse => contradiction
  case isTrue henabled =>
    have hsize := h.window.getWriteBufferSize
    have hle := h.window.length_le
    obtain ⟨r, hr, hspec⟩ := recv_window dispatch s.app data h.window (by omega)
    have haccepted : r.accepted = true := hspec.accepted_eq.trans hhand
    rw [hr] at hstep
    cases hstep
    refine ⟨⟨by simp [haccepted], hspec.kept haccepted⟩, ?_⟩
    simp only [hspec.dispatched_eq, hand_packets hhand]

theorem run_fitting {dispatch : Dispatch σ} {app : σ} {cuts : List (List Byte)} {s : Receiver σ}
    (hbound : packetFormat.Bounded largestBody cuts.flatten)
    (hhand : (hand dispatch app (packets cuts.flatten)).accepted = true)
    (hrun : run (receive dispatch) (Receiver.fresh app) cuts = some s) :
    Waiting s (packetFormat.rest cuts.flatten) ∧ s.dispatched = packets cuts.flatten ∧
      s.app = (hand dispatch app (packets cuts.flatten)).app := by
  have hrel := run_refines dispatch app cuts
  rw [hrun] at hrel
  cases ha : run (deframe dispatch) ⟨app, [], [], false⟩ cuts with
  | none => rw [ha] at hrel; contradiction
  | some a =>
    rw [ha] at hrel
    obtain ⟨hrefines⟩ := hrel
    have hreceived := run_received cuts (received_nil dispatch app) hbound ha
    rw [List.nil_append] at hreceived
    have haccepted : s.rejected = false := by
      rw [hrefines.rejected_eq, hreceived.rejected_eq, hhand]
      rfl
    have hpending := hreceived.pending_eq (hrefines.rejected_eq ▸ haccepted)
    refine ⟨⟨haccepted, ?_⟩, ?_, ?_⟩
    · rw [← hpending]
      exact hrefines.window haccepted
    · rw [hrefines.dispatched_eq, hreceived.dispatched_eq, hand_packets hhand]
    · rw [hrefines.app_eq, hreceived.app_eq]

theorem short_incomplete {bytes : List Byte} (h : bytes.length < PacketID_SIZE) :
    packetFormat.Incomplete bytes := .inl h

theorem run_short {dispatch : Dispatch σ} (cuts : List (List Byte)) {s s' : Receiver σ}
    {pending : List Byte} (received : Nat) (h : Waiting s pending)
    (hshort : (pending ++ cuts.flatten).length < PacketID_SIZE)
    (hrun : run (receive dispatch) s cuts = some s') :
    Waiting s' (pending ++ cuts.flatten) ∧ s'.dispatched = s.dispatched ∧
      headersRead dispatch s received cuts = [] := by
  induction cuts generalizing s pending received with
  | nil =>
    cases Option.some.inj hrun
    exact ⟨by simpa using h, rfl, rfl⟩
  | cons data rest ih =>
    obtain ⟨middle, hstep, hrest⟩ := Option.bind_eq_some_iff.mp hrun
    rw [List.flatten_cons, ← List.append_assoc] at hshort ⊢
    have hless : (pending ++ data).length < PacketID_SIZE := by
      rw [List.length_append] at hshort
      omega
    have hinc := short_incomplete hless
    have hnone : packets (pending ++ data) = [] := by
      rw [packets, packetFormat.frames_incomplete hinc]
      rfl
    have hkeep : keep (packetFormat.rest (pending ++ data)) = pending ++ data := by
      rw [packetFormat.rest_incomplete hinc]
      exact if_neg fun habandoned => absurd habandoned.1 (Nat.not_le.mpr hless)
    obtain ⟨hwaiting, hdispatched⟩ := receive_waiting h hstep (by rw [hnone]; rfl)
    rw [hkeep] at hwaiting
    rw [hnone, List.append_nil] at hdispatched
    obtain ⟨hend, hsame, hheaders⟩ := ih (received + data.length) hwaiting hshort hrest
    refine ⟨hend, hsame.trans hdispatched, ?_⟩
    have hroom : pending.length + data.length ≤ PACKET_SIZE := by
      rw [List.length_append] at hless
      unfold PacketID_SIZE at hless
      unfold PACKET_SIZE
      omega
    rw [headersRead_cons hstep, hheaders, List.append_nil, List.filterMap_eq_nil_iff]
    intro round hround
    have havailable := (recvRounds_available dispatch s.app (pending ++ data) recvFuel
      data.length _ (window_fill h.window hroom) round hround).2
    exact if_neg (by omega)

/-! ### The receive that completes an oversized header -/

theorem oversized_complete_length {frame : Frame Byte} {tail more after : List Byte}
    (hvalid : packetFormat.Valid frame) (htail : tail ++ more = frame.bytes ++ after)
    (hheader : PacketID_SIZE ≤ tail.length) :
    tail.take PacketID_SIZE = frame.header ∧
      packetFormat.frameLength tail = frame.bytes.length := by
  have htake : tail.take PacketID_SIZE = frame.header := by
    have hlength : frame.header.length = PacketID_SIZE := hvalid.header_length
    calc tail.take PacketID_SIZE
        = (tail ++ more).take PacketID_SIZE := (List.take_append_of_le_length hheader).symm
      _ = (frame.header ++ (frame.body ++ after)).take PacketID_SIZE := by
        rw [htail, Frame.bytes, List.append_assoc]
      _ = frame.header := by rw [← hlength, List.take_left' rfl]
  refine ⟨htake, ?_⟩
  change PacketID_SIZE + packetFormat.bodyLength (tail.take PacketID_SIZE) = _
  rw [htake, ← hvalid.body_length, Frame.bytes, List.length_append, hvalid.header_length]
  rfl

section Completed
variable {dispatch : Dispatch σ} {app : σ} {before after : List (Frame Byte)} {frame : Frame Byte}
  {first : List (List Byte)} {data more : List Byte} {s s' : Receiver σ}

theorem before_oversized (hvalid : ∀ f ∈ before ++ frame :: after, packetFormat.Valid f)
    (hfit : ∀ f ∈ before, f.body.length ≤ largestBody)
    (hhand : (hand dispatch app (before.map packetOf)).accepted = true)
    (hstream : first.flatten ++ more = encode (before ++ frame :: after))
    (hbefore : first.flatten.length < (encode before).length + PacketID_SIZE)
    (hfirst : run (receive dispatch) (Receiver.fresh app) first = some s) :
    Waiting s (packetFormat.rest first.flatten) ∧ s.dispatched = packets first.flatten ∧
      s.app = (hand dispatch app (packets first.flatten)).app := by
  have hvalidBefore : ∀ f ∈ before, packetFormat.Valid f :=
    fun f hf => hvalid f (List.mem_append_left _ hf)
  have hheader : (frame.header.take 3).length = 3 := by
    rw [List.length_take, (hvalid frame (by simp)).header_length]
    rfl
  have hinc : packetFormat.Incomplete (frame.header.take 3) :=
    short_incomplete (by rw [hheader]; decide)
  obtain ⟨rest, hrest⟩ : ∃ rest, first.flatten ++ rest = encode before ++ frame.header.take 3 := by
    have hprefix : encode before ++ frame.header.take 3 <+: encode (before ++ frame :: after) := by
      refine ⟨frame.header.drop 3 ++ frame.body ++ encode after, ?_⟩
      simp only [encode, List.flatMap_append, List.flatMap_cons, Frame.bytes, List.append_assoc]
      rw [← List.append_assoc (frame.header.take 3), List.take_append_drop]
    have hshort : first.flatten.length ≤ (encode before ++ frame.header.take 3).length := by
      rw [List.length_append, hheader]
      unfold PacketID_SIZE at hbefore
      omega
    exact List.prefix_of_prefix_length_le ⟨more, hstream⟩ hprefix hshort
  have hpackets : packets (encode before ++ frame.header.take 3) = before.map packetOf := by
    rw [packets, Format.frames, packetFormat.split_encode hvalidBefore hinc]
  have hall : PacketStream (first.flatten ++ rest) := by
    rw [hrest]
    refine ⟨before, _, rfl, fun f hf => ⟨hvalidBefore f hf, hfit f hf⟩, hinc, ?_⟩
    rw [hheader]
    exact fun habsurd => absurd habsurd (by decide)
  apply run_fitting hall.bounded.left _ hfirst
  rw [← hpackets, ← hrest, packets_append] at hhand
  exact (hand_accepted_append hhand).1

theorem encode_through (before : List (Frame Byte)) (frame : Frame Byte) (after : List (Frame Byte)) :
    encode (before ++ frame :: after) = encode before ++ (frame.bytes ++ encode after) := by
  simp only [encode, List.flatMap_append, List.flatMap_cons]

theorem oversized_arrived
    (hstream : first.flatten ++ (data ++ more) = encode (before ++ frame :: after))
    (hthrough : (encode before).length + PacketID_SIZE ≤ first.flatten.length + data.length) :
    ∃ tail, first.flatten ++ data = encode before ++ tail ∧
      tail ++ more = frame.bytes ++ encode after := by
  rw [encode_through, ← List.append_assoc] at hstream
  rcases List.append_eq_append_iff.mp hstream with ⟨gap, hgap, _⟩ | ⟨tail, htail, hmore⟩
  · have := congrArg List.length hgap
    simp only [List.length_append] at this
    unfold PacketID_SIZE at hthrough
    omega
  · exact ⟨tail, htail, hmore.symm⟩

/-- What has arrived of an oversized packet lies in the receive buffer, behind the packets that
fit or behind its cut header. -/
theorem oversized_tail_short {tail : List Byte} (hvalid : ∀ f ∈ before, packetFormat.Valid f)
    (hbefore : first.flatten.length < (encode before).length + PacketID_SIZE)
    (htail : first.flatten ++ data = encode before ++ tail)
    (hroom : (packetFormat.rest first.flatten).length + data.length ≤ PACKET_SIZE) :
    tail.length ≤ PACKET_SIZE := by
  have htailLength : first.flatten.length + data.length = (encode before).length + tail.length := by
    have := congrArg List.length htail
    rwa [List.length_append, List.length_append] at this
  rcases List.append_eq_append_iff.mp htail with ⟨gap, hgap, _⟩ | ⟨cut, hcut, _⟩
  · have := congrArg List.length hgap
    rw [List.length_append] at this
    omega
  · -- the header itself was cut
    have hcutLength := congrArg List.length hcut
    rw [List.length_append] at hcutLength
    have hrest : packetFormat.rest first.flatten = cut := by
      rw [hcut, Format.rest, packetFormat.split_encode hvalid (short_incomplete (by omega))]
    rw [hrest] at hroom
    omega

theorem headersRead_behind {pending : List Byte} (h : Waiting s pending)
    (hstep : receive dispatch s data = some s') {received : Nat}
    (hreceived : (packetFormat.rest (pending ++ data)).length ≤ received + data.length) :
    ∀ o ∈ headersRead dispatch s received [data],
      o + (packetFormat.rest (pending ++ data)).length ≤ received + data.length := by
  intro o ho
  rw [headersRead_cons hstep, headersRead, List.append_nil] at ho
  obtain ⟨round, hround, hat⟩ := List.mem_filterMap.mp ho
  have havailable := (recvRounds_available dispatch s.app (pending ++ data) recvFuel data.length _
    (window_fill h.window (h.room hstep)) round hround).1
  unfold Round.headerAt at hat
  split at hat
  · cases hat
    omega
  · contradiction

/-- The oversized packet is given up with what has arrived of it, and no header was read behind
its own. -/
theorem oversized_dropped (hvalid : ∀ f ∈ before ++ frame :: after, packetFormat.Valid f)
    (hfit : ∀ f ∈ before, f.body.length ≤ largestBody) (hbig : largestBody < frame.body.length)
    (hhand : (hand dispatch app (before.map packetOf)).accepted = true)
    (hstream : first.flatten ++ (data ++ more) = encode (before ++ frame :: after))
    (hbefore : first.flatten.length < (encode before).length + PacketID_SIZE)
    (hthrough : (encode before).length + PacketID_SIZE ≤ first.flatten.length + data.length)
    (hfirst : run (receive dispatch) (Receiver.fresh app) first = some s)
    (hstep : receive dispatch s data = some s') :
    Waiting s' [] ∧ s'.dispatched = before.map packetOf ∧
      (∀ o ∈ headersRead dispatch (Receiver.fresh app) 0 (first ++ [data]),
        o ≤ (encode before).length) ∧
      first.flatten.length + data.length < (encode before).length + frame.bytes.length := by
  have hvalidBefore : ∀ f ∈ before, packetFormat.Valid f :=
    fun f hf => hvalid f (List.mem_append_left _ hf)
  have hvalidFrame := hvalid frame (by simp)
  obtain ⟨hwaiting, hdispatched, happ⟩ :=
    before_oversized hvalid hfit hhand hstream hbefore hfirst
  obtain ⟨tail, htail, hmore⟩ := oversized_arrived hstream hthrough
  have htailLength : first.flatten.length + data.length = (encode before).length + tail.length := by
    have := congrArg List.length htail
    rwa [List.length_append, List.length_append] at this
  have hheader : PacketID_SIZE ≤ tail.length := by omega
  obtain ⟨htake, hframeLength⟩ := oversized_complete_length hvalidFrame hmore hheader
  have hlong : PACKET_SIZE < frame.bytes.length := by
    rw [Frame.bytes, List.length_append, hvalidFrame.header_length]
    change PACKET_SIZE < PacketID_SIZE + frame.body.length
    unfold largestBody at hbig
    unfold PACKET_SIZE PacketID_SIZE at *
    omega
  have htailShort := oversized_tail_short hvalidBefore hbefore htail (hwaiting.room hstep)
  have hinc : packetFormat.Incomplete tail := .inr (by omega)
  have hsplit := packetFormat.split_encode hvalidBefore hinc
  have hpackets : packets first.flatten ++ packets (packetFormat.rest first.flatten ++ data) =
      before.map packetOf := by
    rw [← packets_append, htail, packets, Format.frames, hsplit]
  have hrest : packetFormat.rest (packetFormat.rest first.flatten ++ data) = tail := by
    rw [← packetFormat.rest_append, htail, Format.rest, hsplit]
  have habandoned : keep tail = [] := by
    refine if_pos ⟨hheader, ?_⟩
    rw [← PacketID.read_take hheader, htake]
    exact Nat.lt_of_lt_of_eq hbig hvalidFrame.body_length
  rw [← hpackets] at hhand
  have hhandRest := (hand_accepted_append hhand).2
  rw [← happ] at hhandRest
  obtain ⟨hafter, hall⟩ := receive_waiting hwaiting hstep hhandRest
  rw [hrest, habandoned] at hafter
  refine ⟨hafter, by rw [hall, hdispatched, hpackets], ?_, by omega⟩
  intro o ho
  rw [headersRead_append first [data] 0 hfirst, Nat.zero_add] at ho
  rcases List.mem_append.mp ho with ho | ho
  · have := headersRead_le first (reposted_fresh app) hfirst o ho
    rw [List.length_nil, Nat.zero_add] at this
    omega
  · have hbehind := headersRead_behind hwaiting hstep (by rw [hrest]; omega) o ho
    rw [hrest] at hbehind
    omega

end Completed

/-! ### When only the oversized packet is given up -/

def fits (frame : Frame Byte) : Bool := decide (frame.body.length ≤ largestBody)

/-- One of the four bytes from offset `o` on lies in an oversized packet's body. -/
def InOversizedBody (frames : List (Frame Byte)) (o : Nat) : Prop :=
  ∃ before frame after, frames = before ++ frame :: after ∧ fits frame = false ∧
    (encode before).length + PacketID_SIZE < o + PacketID_SIZE ∧
    o < (encode before).length + frame.bytes.length

structure OnlyOversizedGivenUp (frames : List (Frame Byte)) (dispatched : List Packet)
    (headers : List Nat) : Prop where
  dispatched_eq : dispatched = (frames.filter fits).map packetOf
  headers_own : ∀ o ∈ headers, ¬InOversizedBody frames o

def endOfReceive (n : Nat) : Nat → List (List Byte) → Nat
  | received, [] => received
  | received, data :: rest =>
    if n ≤ received + data.length then received + data.length
    else endOfReceive n (received + data.length) rest

/-- Every packet fits, or the receive that completes the first oversized packet's
header is followed by fewer than four bytes of the stream. -/
def NoHeaderFollows (frames : List (Frame Byte)) (cuts : List (List Byte)) : Prop :=
  (∀ frame ∈ frames, fits frame = true) ∨
    (encode frames).length <
      endOfReceive ((encode (frames.takeWhile fits)).length + PacketID_SIZE) 0 cuts + PacketID_SIZE

theorem exists_receive (n : Nat) (cuts : List (List Byte)) (received : Nat) (hstart : received < n)
    (hend : n ≤ received + cuts.flatten.length) :
    ∃ first data rest, cuts = first ++ data :: rest ∧ received + first.flatten.length < n ∧
      n ≤ received + first.flatten.length + data.length ∧
      endOfReceive n received cuts = received + first.flatten.length + data.length := by
  induction cuts generalizing received with
  | nil =>
    rw [List.flatten_nil, List.length_nil] at hend
    omega
  | cons data rest ih =>
    by_cases hthrough : n ≤ received + data.length
    · refine ⟨[], data, rest, rfl, hstart, hthrough, ?_⟩
      rw [endOfReceive, if_pos hthrough]
      rfl
    · rw [List.flatten_cons, List.length_append] at hend
      obtain ⟨first, data', rest', rfl, hbefore, hafter, heq⟩ :=
        ih (received + data.length) (by omega) (by omega)
      refine ⟨data :: first, data', rest', rfl, ?_, ?_, ?_⟩
      · rw [List.flatten_cons, List.length_append]
        omega
      · rw [List.flatten_cons, List.length_append]
        omega
      · rw [endOfReceive, if_neg hthrough, heq, List.flatten_cons, List.length_append]
        omega

theorem first_oversized (frames : List (Frame Byte)) :
    (∀ f ∈ frames, fits f = true) ∨ ∃ before frame after, frames = before ++ frame :: after ∧
      (∀ f ∈ before, fits f = true) ∧ fits frame = false := by
  induction frames with
  | nil => exact .inl nofun
  | cons frame rest ih =>
    cases hfit : fits frame with
    | false => exact .inr ⟨[], frame, rest, rfl, nofun, hfit⟩
    | true =>
      rcases ih with hall | ⟨before, oversized, after, rfl, hbefore, hoversized⟩
      · exact .inl fun f hf => (List.mem_cons.mp hf).elim (fun heq => heq ▸ hfit) (hall f)
      · exact .inr ⟨frame :: before, oversized, after, rfl,
          fun f hf => (List.mem_cons.mp hf).elim (fun heq => heq ▸ hfit) (hbefore f), hoversized⟩

theorem header_after_drop {dispatch : Dispatch σ} {cuts : List (List Byte)} {s s' : Receiver σ}
    (received : Nat) (h : Waiting s []) (hrun : run (receive dispatch) s cuts = some s')
    (hmore : PacketID_SIZE ≤ cuts.flatten.length) :
    received ∈ headersRead dispatch s received cuts := by
  obtain ⟨first, data, rest, rfl, hbefore, hafter, _⟩ :=
    exists_receive PacketID_SIZE cuts 0 (by decide) (by omega)
  rw [Nat.zero_add] at hbefore hafter
  rw [run_append] at hrun
  obtain ⟨middle, hfirst, hrest⟩ := Option.bind_eq_some_iff.mp hrun
  obtain ⟨next, hstep, _⟩ := Option.bind_eq_some_iff.mp hrest
  obtain ⟨hwaiting, _, _⟩ := run_short first received h (by simpa using hbefore) hfirst
  rw [List.nil_append] at hwaiting
  have hheader : PacketID_SIZE ≤ (first.flatten ++ data).length := by
    rw [List.length_append]
    exact hafter
  have hread := header_at_start dispatch middle.app
    (window_fill hwaiting.window (hwaiting.room hstep)) hheader (recvFuel - 1)
    (received + first.flatten.length + data.length)
  have hoffset : received + first.flatten.length + data.length -
      (first.flatten ++ data).length = received := by
    rw [List.length_append]
    omega
  rw [headersRead_append first _ received hfirst, headersRead_cons hstep]
  refine List.mem_append_right _ (List.mem_append_left _ ?_)
  rwa [hoffset] at hread

section Main
variable {dispatch : Dispatch σ} {app : σ} {frames : List (Frame Byte)} {cuts : List (List Byte)}
  {future : List Byte} {s : Receiver σ}

theorem fits_iff {frame : Frame Byte} : fits frame = true ↔ frame.body.length ≤ largestBody :=
  decide_eq_true_iff

theorem oversized_iff {frame : Frame Byte} :
    fits frame = false ↔ largestBody < frame.body.length := by
  rw [fits, decide_eq_false_iff_not, Nat.not_le]

theorem packets_encode (hvalid : ∀ frame ∈ frames, packetFormat.Valid frame) :
    packets (encode frames) = frames.map packetOf := by
  have hsplit := packetFormat.split_encode hvalid
    (short_incomplete (by decide : ([] : List Byte).length < PacketID_SIZE))
  rw [List.append_nil] at hsplit
  rw [packets, Format.frames, hsplit]

theorem all_fit (hvalid : ∀ frame ∈ frames, packetFormat.Valid frame)
    (hfits : ∀ frame ∈ frames, fits frame = true)
    (hhand : (hand dispatch app ((frames.filter fits).map packetOf)).accepted = true)
    (hstream : cuts.flatten ++ future = encode frames)
    (hrun : run (receive dispatch) (Receiver.fresh app) cuts = some s)
    (hend : s.rejected = true ∨ future = []) (headers : List Nat) :
    OnlyOversizedGivenUp frames s.dispatched headers := by
  have hall : PacketStream (cuts.flatten ++ future) := by
    refine ⟨frames, [], by rw [hstream, List.append_nil], fun frame hf => ⟨hvalid frame hf, ?_⟩,
      short_incomplete (by decide), fun habsurd => absurd habsurd (by decide)⟩
    exact fits_iff.mp (hfits frame hf)
  rw [List.filter_eq_self.mpr hfits] at hhand
  rw [← packets_encode hvalid, ← hstream, packets_append] at hhand
  obtain ⟨hwaiting, hdispatched, _⟩ :=
    run_fitting hall.bounded.left (hand_accepted_append hhand).1 hrun
  have hfuture : future = [] := hend.resolve_left (by rw [hwaiting.accepted]; decide)
  rw [hfuture, List.append_nil] at hstream
  refine ⟨?_, ?_⟩
  · rw [hdispatched, hstream, packets_encode hvalid, List.filter_eq_self.mpr hfits]
  · intro o _ hinside
    obtain ⟨before, frame, after, rfl, hoversized, _⟩ := hinside
    rw [hfits frame (by simp)] at hoversized
    exact Bool.noConfusion hoversized

theorem not_inOversizedBody {before after : List (Frame Byte)} {frame : Frame Byte}
    (hbefore : ∀ f ∈ before, fits f = true) {o : Nat} (ho : o ≤ (encode before).length) :
    ¬InOversizedBody (before ++ frame :: after) o := by
  rintro ⟨before', frame', after', heq, hoversized, hbody, _⟩
  rcases List.append_eq_append_iff.mp heq with ⟨gap, rfl, _⟩ | ⟨gap, rfl, hgap⟩
  · rw [encode, List.flatMap_append, List.length_append] at hbody
    rw [encode] at ho
    omega
  · cases gap with
    | nil =>
      rw [List.append_nil] at ho
      omega
    | cons other gap =>
      cases hgap
      rw [hbefore frame' (by simp)] at hoversized
      exact Bool.noConfusion hoversized

theorem header_follows {before after : List (Frame Byte)} {frame : Frame Byte}
    (hvalid : ∀ f ∈ before ++ frame :: after, packetFormat.Valid f) (hafter : after ≠ []) :
    (encode before).length + frame.bytes.length + PacketID_SIZE ≤
      (encode (before ++ frame :: after)).length := by
  cases after with
  | nil => exact absurd rfl hafter
  | cons next after =>
    have hnext : next.header.length = PacketID_SIZE := (hvalid next (by simp)).header_length
    simp only [encode, List.flatMap_append, List.flatMap_cons, List.length_append, Frame.bytes]
    omega

/-- In a receiver that waits, or at the end of the stream, the oversized header has arrived. -/
theorem oversized_header_arrives {before after : List (Frame Byte)} {frame : Frame Byte}
    (hvalid : ∀ f ∈ before ++ frame :: after, packetFormat.Valid f)
    (hfit : ∀ f ∈ before, f.body.length ≤ largestBody)
    (hhand : (hand dispatch app (before.map packetOf)).accepted = true)
    (hstream : cuts.flatten ++ future = encode (before ++ frame :: after))
    (hrun : run (receive dispatch) (Receiver.fresh app) cuts = some s)
    (hend : s.rejected = true ∨ future = []) :
    (encode before).length + PacketID_SIZE ≤ cuts.flatten.length := by
  by_contra hshort
  obtain ⟨hwaiting, _, _⟩ := before_oversized hvalid hfit hhand hstream (by omega) hrun
  have hfuture : future = [] := hend.resolve_left (by rw [hwaiting.accepted]; decide)
  have hheader : frame.header.length = PacketID_SIZE := (hvalid frame (by simp)).header_length
  have htotal := congrArg List.length hstream
  rw [hfuture, List.append_nil] at htotal
  simp only [encode, List.flatMap_append, List.flatMap_cons, List.length_append,
    Frame.bytes] at htotal hshort
  omega

/-- For every stream and every way to cut it. -/
theorem oversized_given_up_iff (dispatch : Dispatch σ) (app : σ) (frames : List (Frame Byte))
    (hvalid : ∀ frame ∈ frames, packetFormat.Valid frame)
    (hhand : (hand dispatch app ((frames.filter fits).map packetOf)).accepted = true)
    (cuts : List (List Byte)) (future : List Byte)
    (hstream : cuts.flatten ++ future = encode frames) (s : Receiver σ)
    (hrun : run (receive dispatch) (Receiver.fresh app) cuts = some s)
    (hend : s.rejected = true ∨ future = []) :
    OnlyOversizedGivenUp frames s.dispatched
        (headersRead dispatch (Receiver.fresh app) 0 cuts) ↔
      NoHeaderFollows frames cuts := by
  rcases first_oversized frames with hfits | ⟨before, frame, after, rfl, hbefore, hoversized⟩
  · exact iff_of_true (all_fit hvalid hfits hhand hstream hrun hend _) (.inl hfits)
  have hfit : ∀ f ∈ before, f.body.length ≤ largestBody := fun f hf => fits_iff.mp (hbefore f hf)
  have hbig := oversized_iff.mp hoversized
  have hfilter : (before ++ frame :: after).filter fits = before ++ after.filter fits := by
    rw [List.filter_append, List.filter_eq_self.mpr hbefore, List.filter_cons_of_neg]
    rw [hoversized]
    decide
  have htakeWhile : (before ++ frame :: after).takeWhile fits = before := by
    rw [List.takeWhile_append_of_pos hbefore, List.takeWhile_cons_of_neg, List.append_nil]
    rw [hoversized]
    decide
  rw [hfilter, List.map_append] at hhand
  have hhandBefore := (hand_accepted_append hhand).1
  have hthrough := oversized_header_arrives hvalid hfit hhandBefore hstream hrun hend
  obtain ⟨first, data, rest, rfl, hfirstShort, hfirstEnd, hreceiveEnd⟩ :=
    exists_receive ((encode before).length + PacketID_SIZE) cuts 0
      (by unfold PacketID_SIZE; omega) (by omega)
  rw [Nat.zero_add] at hfirstShort hfirstEnd hreceiveEnd
  rw [run_append] at hrun
  obtain ⟨middle, hfirst, hlater⟩ := Option.bind_eq_some_iff.mp hrun
  obtain ⟨dropped, hstep, hrest⟩ := Option.bind_eq_some_iff.mp hlater
  have hparts : first.flatten ++ (data ++ (rest.flatten ++ future)) =
      encode (before ++ frame :: after) := by
    rw [← hstream, List.flatten_append, List.flatten_cons]
    simp only [List.append_assoc]
  obtain ⟨hwaiting, hdispatched, hheaders, hinside⟩ :=
    oversized_dropped hvalid hfit hbig hhandBefore hparts hfirstShort hfirstEnd hfirst hstep
  have hsplit := headersRead_through rest 0 hfirst hstep
  rw [Nat.zero_add] at hsplit
  have hlength := congrArg List.length hparts
  simp only [List.length_append] at hlength
  unfold NoHeaderFollows
  rw [htakeWhile, hreceiveEnd, hsplit]
  by_cases hshort : (rest.flatten ++ future).length < PacketID_SIZE
  · -- what is left is too short for a header, and no packet follows
    rw [List.length_append] at hshort
    obtain ⟨_, hsame, hnone⟩ := run_short rest (first.flatten.length + data.length) hwaiting
      (by rw [List.nil_append]; omega) hrest
    have hlast : after = [] := by
      by_contra hmore
      have := header_follows hvalid hmore
      omega
    refine iff_of_true ⟨?_, ?_⟩ (.inr (by omega))
    · rw [hsame, hdispatched, hfilter, hlast, List.filter_nil, List.append_nil]
    · rw [hnone, List.append_nil]
      exact fun o ho => not_inOversizedBody hbefore (hheaders o ho)
  · -- the next header is read where the rest of the oversized body goes on
    rw [List.length_append] at hshort
    have hmore : PacketID_SIZE ≤ rest.flatten.length := by
      by_contra hfew
      obtain ⟨hstill, _, _⟩ := run_short rest 0 hwaiting (by rw [List.nil_append]; omega) hrest
      have hfuture : future = [] := hend.resolve_left (by rw [hstill.accepted]; decide)
      rw [hfuture, List.length_nil] at hshort
      omega
    have hread := header_after_drop (first.flatten.length + data.length) hwaiting hrest hmore
    refine iff_of_false (fun hgiven => ?_) ?_
    · refine hgiven.headers_own _ (List.mem_append_right _ hread) ?_
      have hbody : (encode before).length + PacketID_SIZE <
          first.flatten.length + data.length + PacketID_SIZE :=
        Nat.lt_of_le_of_lt hfirstEnd (Nat.lt_add_of_pos_right (by decide))
      exact ⟨before, frame, after, rfl, hoversized, hbody, hinside⟩
    · rintro (hall | hend)
      · rw [hall frame (by simp)] at hoversized
        exact Bool.noConfusion hoversized
      · omega

end Main

/-- A body of 4093 bytes, in which the client has written an ENTER header. -/
def smuggled : Frame Byte := ⟨[2, 0, 253, 15], [3, 0, 0, 0] ++ List.replicate 4089 0⟩

theorem smuggled_valid : ∀ frame ∈ [smuggled], packetFormat.Valid frame := by
  intro frame hframe
  cases List.mem_singleton.mp hframe
  exact ⟨rfl, by decide +kernel⟩

def enterOnly : Dispatch Unit := fun app packet => (app, packet.type == PacketType.CLIENT_ENTER)

/-- The header is received alone; of the body, ENTER is handed over and the zeros
behind it are rejected. -/
theorem oversized_body_dispatched :
    (∀ frame ∈ [smuggled], packetFormat.Valid frame) ∧
      (hand enterOnly () (([smuggled].filter fits).map packetOf)).accepted = true ∧
      [smuggled.header, [3, 0, 0, 0], [0, 0, 0, 0]].flatten ++ List.replicate 4085 0 =
        encode [smuggled] ∧
      ∃ s, run (receive enterOnly) (Receiver.fresh ())
          [smuggled.header, [3, 0, 0, 0], [0, 0, 0, 0]] = some s ∧ s.rejected = true ∧
        ¬OnlyOversizedGivenUp [smuggled] s.dispatched (headersRead enterOnly (Receiver.fresh ()) 0
          [smuggled.header, [3, 0, 0, 0], [0, 0, 0, 0]]) := by
  have hrun : (run (receive enterOnly) (Receiver.fresh ())
      [smuggled.header, [3, 0, 0, 0], [0, 0, 0, 0]]).any fun s => decide (s.rejected = true ∧
        s.dispatched ≠ ([smuggled].filter fits).map packetOf) := by decide +kernel
  obtain ⟨s, hs, hends⟩ := (Option.any_eq_true _ _).mp hrun
  obtain ⟨hrejected, hdispatched⟩ := of_decide_eq_true hends
  have hzeros : List.replicate 4089 (0 : Byte) = [0, 0, 0, 0] ++ List.replicate 4085 0 :=
    List.replicate_add 4 4085 0
  have hstream : [smuggled.header, [3, 0, 0, 0], [0, 0, 0, 0]].flatten ++ List.replicate 4085 0 =
      encode [smuggled] := by
    simp only [List.flatten_cons, List.flatten_nil, List.append_nil, List.append_assoc, encode,
      List.flatMap_cons, List.flatMap_nil, Frame.bytes, smuggled, hzeros]
  exact ⟨smuggled_valid, by decide +kernel, hstream, s, hs, hrejected,
    fun hgiven => hdispatched hgiven.dispatched_eq⟩

/-- All but one byte of the same packet arrive with its header. -/
theorem oversized_given_up_iff_last :
    ∃ s, run (receive enterOnly) (Receiver.fresh ())
        [smuggled.header ++ smuggled.body.take 4092, smuggled.body.drop 4092] = some s ∧
      OnlyOversizedGivenUp [smuggled] s.dispatched (headersRead enterOnly (Receiver.fresh ()) 0
        [smuggled.header ++ smuggled.body.take 4092, smuggled.body.drop 4092]) := by
  have hrun : (run (receive enterOnly) (Receiver.fresh ())
      [smuggled.header ++ smuggled.body.take 4092, smuggled.body.drop 4092]).isSome := by
    decide +kernel
  obtain ⟨s, hs⟩ := Option.isSome_iff_exists.mp hrun
  have hstream : [smuggled.header ++ smuggled.body.take 4092, smuggled.body.drop 4092].flatten ++
      [] = encode [smuggled] := by
    simp only [List.flatten_cons, List.flatten_nil, List.append_nil, List.append_assoc,
      List.take_append_drop, encode, List.flatMap_cons, List.flatMap_nil, Frame.bytes]
  exact ⟨s, hs, (oversized_given_up_iff enterOnly () [smuggled] smuggled_valid
    (by decide +kernel) _ [] hstream s hs (.inr rfl)).mpr (.inr (by decide +kernel))⟩

end RoomServer
