import RoomServer.EchoLoop
import RoomServer.Library.Binary32
import RoomServer.Oversized
import RoomServer.Pipelining
import RoomServer.Wire

/-! The requests of the test clients, from `SendPacket` to what the server's handlers read in
them. -/
namespace RoomServer
open Library Library.Framing Library.LittleEndian Library.Transition

inductive ClientRequest where
  | echo (text : List Byte)
  | broadcast (text : List Byte)
  | enter
  | leave
  | move (posX posY : Binary32)
  deriving DecidableEq

namespace ClientRequest

def packetType : ClientRequest → PacketType
  | .echo _ => .CLIENT_ECHO
  | .broadcast _ => .CLIENT_BROADCAST
  | .enter => .CLIENT_ENTER
  | .leave => .CLIENT_LEAVE
  | .move _ _ => .CLIENT_MOVE

/-- The memory of the struct; an ENTER and a LEAVE have none. -/
def body : ClientRequest → List Byte
  | .echo text | .broadcast text => text
  | .enter | .leave => []
  | .move posX posY => uintBytes posX.bits ++ uintBytes posY.bits

/-- The texts fill their array. -/
def WellFormed : ClientRequest → Prop
  | .echo text | .broadcast text => text.length = 64
  | .enter | .leave | .move _ _ => True

def packet (request : ClientRequest) : Packet := ⟨request.packetType, request.body⟩

def coordinate (f : Binary32) : Room.Coordinate :=
  match f.value with
  | some x => .finite x
  | none => .notFinite

def asks (rand : Nat) : ClientRequest → ClientPacket
  | .echo text => .echo text
  | .broadcast text => .broadcast text
  | .enter => .enter rand
  | .leave => .leave
  | .move posX posY => .move (coordinate posX) (coordinate posY)

end ClientRequest

/-! ### The client and the server -/

structure RequestLink where
  /-- The request that `SendPacket` is at, and how much of it `send` has taken. -/
  request : Option ClientRequest
  sent : Nat
  /-- What `send` has taken and the server has not received. -/
  wire : List Byte
  receiver : Receiver Unit
  /-- History: the requests for which `SendPacket` has returned true. -/
  requested : List ClientRequest
  /-- History: whether a `SendPacket` has failed inside its packet. -/
  torn : Bool

def RequestLink.start : RequestLink := ⟨none, 0, [], .fresh (), [], false⟩

inductive RequestAct where
  | sendPacket (request : ClientRequest)
  | send (result : SocketResult)
  /-- A receive of the server completes with the next `n` bytes. -/
  | receive (n : Nat)

def RequestAct.WellFormed : RequestAct → Prop
  | .sendPacket request => request.WellFormed
  | .send _ | .receive _ => True

def RequestAct.sends : RequestAct → Bool
  | .send (.bytes (_ + 1)) => true
  | _ => false

def requestStep : Step RequestLink RequestAct
  | st, .sendPacket request =>
    if st.request = none then some { st with request := some request, sent := 0 } else none
  | st, .send result =>
    match st.request with
    | none => none
    | some request =>
      let buf := packetBytes request.packetType request.body
      if st.sent + result.count ≤ buf.length then
        match result with
        | .wouldBlock => some st
        -- the callers of `SendPacket` go on with their next request
        | .error | .bytes 0 =>
          some { st with request := none, torn := st.torn || decide (0 < st.sent) }
        | .bytes n =>
          let wire := st.wire ++ (buf.drop st.sent).take n
          if st.sent + n < buf.length then some { st with sent := st.sent + n, wire := wire }
          else some { st with
            request := none, wire := wire, requested := st.requested ++ [request] }
      else none
  | st, .receive n =>
    (receive verdict st.receiver (st.wire.take n)).map fun receiver =>
      { st with receiver := receiver, wire := st.wire.drop n }

/-! ### What the handlers read -/

theorem word_lt (b0 b1 b2 b3 : Byte) : ofBytes [b0, b1, b2, b3] < 4294967296 :=
  (ofBytes_lt [b0, b1, b2, b3]).trans_eq (by norm_num)

theorem readFloat_eq (b0 b1 b2 b3 : Byte) :
    readFloat b0 b1 b2 b3 = ClientRequest.coordinate (.ofBits (ofBytes [b0, b1, b2, b3])) := by
  have hbits : b0.toNat + 256 * (b1.toNat + 256 * (b2.toNat + 256 * b3.toNat)) =
      ofBytes [b0, b1, b2, b3] := rfl
  have hlt := word_lt b0 b1 b2 b3
  generalize ofBytes [b0, b1, b2, b3] = word at hbits hlt
  have hexponent : (Binary32.ofBits word).exponent = word / 8388608 % 256 := rfl
  have hfraction : (Binary32.ofBits word).fraction = word % 8388608 := rfl
  have hnegative : (Binary32.ofBits word).negative = decide (word / 2147483648 % 2 = 1) := rfl
  have hpow : (2 : Nat) ^ 23 = 8388608 ∧ (2 : Nat) ^ 8 = 256 ∧ (2 : Nat) ^ 31 = 2147483648 :=
    ⟨rfl, rfl, rfl⟩
  rw [readFloat, hbits, hpow.1, hpow.2.1, hpow.2.2, ClientRequest.coordinate, Binary32.value,
    hexponent]
  by_cases hlast : word / 8388608 % 256 = 255
  · rw [if_pos hlast, if_pos hlast]
  · rw [if_neg hlast, if_neg hlast, hfraction, hnegative]
    dsimp only
    rw [Binary32.scaled, Binary32.scaled_first]
    by_cases hsign : word / 2147483648 = 0
    · have hpositive : decide (word / 2147483648 % 2 = 1) = false := decide_eq_false (by omega)
      rw [if_pos hsign, hpositive, if_neg Bool.false_ne_true]
    · have hminus : decide (word / 2147483648 % 2 = 1) = true := decide_eq_true (by omega)
      rw [if_neg hsign, hminus, if_pos rfl]

theorem coordinate_bytes (f : Binary32) : ∃ b0 b1 b2 b3, uintBytes f.bits = [b0, b1, b2, b3] ∧
    readFloat b0 b1 b2 b3 = ClientRequest.coordinate f := by
  obtain ⟨b0, b1, b2, b3, hbytes⟩ : ∃ b0 b1 b2 b3, uintBytes f.bits = [b0, b1, b2, b3] :=
    ⟨_, _, _, _, rfl⟩
  refine ⟨b0, b1, b2, b3, hbytes, ?_⟩
  have hword : ofBytes [b0, b1, b2, b3] = f.bits := by
    rw [← hbytes]
    exact ofBytes_toBytes_of_lt f.bits_lt
  rw [readFloat_eq, hword, Binary32.ofBits_bits]

theorem dispatch_request {request : ClientRequest} (h : request.WellFormed) (rand : Nat) :
    PacketHandler.dispatch rand request.packet = some (request.asks rand) := by
  cases request with
  | echo text => exact if_pos h
  | broadcast text => exact if_pos h
  | enter => rfl
  | leave => rfl
  | move posX posY =>
    obtain ⟨x0, x1, x2, x3, hx, hposX⟩ := coordinate_bytes posX
    obtain ⟨y0, y1, y2, y3, hy, hposY⟩ := coordinate_bytes posY
    rw [ClientRequest.asks, ← hposX, ← hposY, ClientRequest.packet, ClientRequest.body, hx, hy]
    rfl

/-- What a handler accepts is a request; of an ENTER and a LEAVE it reads the header alone. -/
theorem dispatch_some {rand : Nat} {packet : Packet} {asked : ClientPacket}
    (h : PacketHandler.dispatch rand packet = some asked) :
    ∃ request : ClientRequest, request.WellFormed ∧ asked = request.asks rand ∧
      packet.type = request.packetType ∧
      (packet.body = request.body ∨ request = .enter ∨ request = .leave) := by
  unfold PacketHandler.dispatch at h
  split_ifs at h with hend hecho hbroadcast henter hleave hmove
  · obtain ⟨hlength, heq⟩ := Option.ite_none_right_eq_some.mp h
    exact ⟨.echo packet.body, hlength, (Option.some.inj heq).symm, hecho, .inl rfl⟩
  · obtain ⟨hlength, heq⟩ := Option.ite_none_right_eq_some.mp h
    exact ⟨.broadcast packet.body, hlength, (Option.some.inj heq).symm, hbroadcast, .inl rfl⟩
  · exact ⟨.enter, trivial, (Option.some.inj h).symm, henter, .inr (.inl rfl)⟩
  · exact ⟨.leave, trivial, (Option.some.inj h).symm, hleave, .inr (.inr rfl)⟩
  · unfold PacketHandler.HANDLE_CLIENT_MOVE at h
    split at h
    case h_2 => contradiction
    case h_1 x0 x1 x2 x3 y0 y1 y2 y3 hbody =>
      refine ⟨.move (.ofBits (ofBytes [x0, x1, x2, x3])) (.ofBits (ofBytes [y0, y1, y2, y3])),
        trivial, ?_, hmove, .inl ?_⟩
      · rw [← Option.some.inj h, readFloat_eq, readFloat_eq]
        rfl
      · have hbytes (b0 b1 b2 b3 : Byte) :
            uintBytes (Binary32.ofBits (ofBytes [b0, b1, b2, b3])).bits = [b0, b1, b2, b3] := by
          rw [Binary32.bits_ofBits (word_lt b0 b1 b2 b3)]
          exact toBytes_ofBytes [b0, b1, b2, b3]
        rw [hbody, ClientRequest.body, hbytes, hbytes]
        rfl

/-! ### What arrives -/

namespace ClientRequest

def frame (request : ClientRequest) : Frame Byte :=
  ⟨PacketID.bytes ⟨request.packetType, UInt16.ofNat request.body.length⟩, request.body⟩

theorem length_body {request : ClientRequest} (h : request.WellFormed) :
    request.body.length ≤ 64 := by
  cases request with
  | echo text => exact Nat.le_of_eq h
  | broadcast text => exact Nat.le_of_eq h
  | enter => exact Nat.zero_le _
  | leave => exact Nat.zero_le _
  | move posX posY =>
    rw [body, List.length_append, length_uintBytes, length_uintBytes]
    decide

theorem read_frame (request : ClientRequest) :
    PacketID.read request.frame.header =
      ⟨request.packetType, UInt16.ofNat request.body.length⟩ := by
  have hread := PacketID.read_bytes ⟨request.packetType, UInt16.ofNat request.body.length⟩ []
  rwa [List.append_nil] at hread

theorem frame_valid {request : ClientRequest} (h : request.WellFormed) :
    packetFormat.Valid request.frame := by
  refine ⟨PacketID.length_bytes _, ?_⟩
  have hlength := length_body h
  change request.body.length = (PacketID.read request.frame.header).size.toNat
  rw [read_frame]
  exact (UInt16.toNat_ofNat_of_lt' (Nat.lt_of_le_of_lt hlength (by decide))).symm

theorem packetOf_frame (request : ClientRequest) : packetOf request.frame = request.packet := by
  rw [packetOf, read_frame]
  rfl

end ClientRequest

/-- The beginning of a request, but not all of it. -/
def Part (part : List Byte) : Prop :=
  ∃ request : ClientRequest, request.WellFormed ∧ part <+: request.frame.bytes ∧
    part.length < request.frame.bytes.length

theorem part_nil : Part [] :=
  ⟨.enter, trivial, List.nil_prefix, by decide⟩

theorem part_take {request : ClientRequest} (h : request.WellFormed) {sent : Nat}
    (hlt : sent < request.frame.bytes.length) : Part (request.frame.bytes.take sent) := by
  refine ⟨request, h, List.take_prefix _ _, ?_⟩
  rw [List.length_take]
  omega

theorem part_header {request : ClientRequest} {part : List Byte}
    (h : part <+: request.frame.bytes) (hlong : PacketID_SIZE ≤ part.length) :
    part.take PacketID_SIZE = request.frame.header := by
  have hheader : request.frame.header.length = PacketID_SIZE := PacketID.length_bytes _
  obtain ⟨rest, hrest⟩ := h
  have htake := congrArg (List.take PacketID_SIZE) hrest
  rw [List.take_append_of_le_length hlong] at htake
  rw [htake, Frame.bytes, ← hheader, List.take_left]

theorem Part.incomplete {part : List Byte} (h : Part part) : packetFormat.Incomplete part := by
  obtain ⟨request, hwell, hpart, hlt⟩ := h
  by_cases hlong : PacketID_SIZE ≤ part.length
  · right
    obtain ⟨hheader, hbody⟩ := ClientRequest.frame_valid hwell
    have hframe : packetFormat.frameLength part = request.frame.bytes.length := by
      change PacketID_SIZE + packetFormat.bodyLength (part.take PacketID_SIZE) = _
      rw [part_header hpart hlong, ← hbody, Frame.bytes, List.length_append, hheader]
      rfl
    rwa [hframe]
  · exact .inl (Nat.lt_of_not_le hlong)

theorem Part.size {part : List Byte} (h : Part part) (hlong : PacketID_SIZE ≤ part.length) :
    (PacketID.read part).size.toNat ≤ largestBody := by
  obtain ⟨request, hwell, hpart, -⟩ := h
  have hbody : request.frame.body.length = (PacketID.read request.frame.header).size.toNat :=
    (ClientRequest.frame_valid hwell).2
  rw [← PacketID.read_take hlong, part_header hpart hlong, ← hbody]
  exact (ClientRequest.length_body hwell).trans (by decide)

/-- The stream of a client whose requests have all been sent. -/
def requestBytes (requested : List ClientRequest) : List Byte :=
  encode (requested.map ClientRequest.frame)

section Stream
variable {requested : List ClientRequest} (h : ∀ request ∈ requested, request.WellFormed)
include h

theorem frames_valid : ∀ frame ∈ requested.map ClientRequest.frame, packetFormat.Valid frame := by
  intro frame hframe
  obtain ⟨request, hrequest, rfl⟩ := List.mem_map.mp hframe
  exact ClientRequest.frame_valid (h request hrequest)

variable {part : List Byte} (hpart : Part part)
include hpart

theorem packets_requestBytes :
    packets (requestBytes requested ++ part) = requested.map ClientRequest.packet := by
  rw [packets, Format.frames, requestBytes,
    packetFormat.split_encode (frames_valid h) hpart.incomplete, List.map_map]
  exact List.map_congr_left fun request _ => request.packetOf_frame

theorem requestBytes_stream : PacketStream (requestBytes requested ++ part) := by
  refine ⟨requested.map ClientRequest.frame, part, rfl, fun frame hframe => ?_,
    hpart.incomplete, hpart.size⟩
  refine ⟨frames_valid h frame hframe, ?_⟩
  obtain ⟨request, hrequest, rfl⟩ := List.mem_map.mp hframe
  exact (ClientRequest.length_body (h request hrequest)).trans (by decide)

/-- The packets of what has arrived of a stream are the first requests, and all of them when
everything has arrived. -/
theorem packets_arrived {stream more : List Byte}
    (hstream : stream ++ more = requestBytes requested ++ part) :
    ∃ k ≤ requested.length, packets stream = (requested.take k).map ClientRequest.packet ∧
      (more = [] → k = requested.length) := by
  have hsplit := packets_append stream more
  rw [hstream, packets_requestBytes h hpart] at hsplit
  have hlength := congrArg List.length hsplit
  rw [List.length_map, List.length_append] at hlength
  refine ⟨(packets stream).length, by omega, ?_, ?_⟩
  · rw [List.map_take, hsplit, List.take_left]
  · rintro rfl
    rw [List.append_nil] at hstream
    rw [hstream, packets_requestBytes h hpart, List.length_map]

end Stream

def RequestLink.begun (st : RequestLink) : List Byte :=
  match st.request with
  | some request => request.frame.bytes.take st.sent
  | none => []

theorem begun_none {st : RequestLink} (h : st.request = none) : st.begun = [] := by
  rw [RequestLink.begun, h]

theorem begun_zero {st : RequestLink} (h : st.sent = 0) : st.begun = [] := by
  unfold RequestLink.begun
  split
  · rw [h, List.take_zero]
  · rfl

structure LinkInv (st : RequestLink) : Prop where
  wellFormed : ∀ request ∈ st.requested, request.WellFormed
  current : ∀ request, st.request = some request →
    request.WellFormed ∧ st.sent < request.frame.bytes.length
  cuts : ∃ cuts part, run (receive verdict) (.fresh ()) cuts = some st.receiver ∧
    cuts.flatten ++ st.wire = requestBytes st.requested ++ part ∧ Part part ∧
    (st.torn = false → part = st.begun)

theorem linkInv_bytes {st st' : RequestLink} {n : Nat} (hinv : LinkInv st)
    (hwhole : st.torn = false) {request : ClientRequest} (hrequest : st.request = some request)
    (hle : st.sent + n ≤ request.frame.bytes.length)
    (hstep : st' = if st.sent + n < request.frame.bytes.length then
        { st with sent := st.sent + n, wire := st.wire ++ (request.frame.bytes.drop st.sent).take n }
      else { st with
        request := none, wire := st.wire ++ (request.frame.bytes.drop st.sent).take n
        requested := st.requested ++ [request] }) : LinkInv st' := by
  obtain ⟨cuts, part, hrun, hstream, hpart, hbegun⟩ := hinv.cuts
  obtain ⟨hwell, _⟩ := hinv.current request hrequest
  have htaken : cuts.flatten ++ (st.wire ++ (request.frame.bytes.drop st.sent).take n) =
      requestBytes st.requested ++ request.frame.bytes.take (st.sent + n) := by
    rw [← List.append_assoc, hstream, hbegun hwhole, RequestLink.begun, hrequest, List.append_assoc,
      List.take_add]
  split at hstep
  case isTrue hmore =>
    subst hstep
    refine ⟨hinv.wellFormed, fun other hother => ?_, cuts, _, hrun, htaken,
      part_take hwell hmore, fun _ => ?_⟩
    · obtain rfl := Option.some.inj (hrequest.symm.trans hother)
      exact ⟨hwell, hmore⟩
    · rw [RequestLink.begun, hrequest]
  case isFalse hlast =>
    subst hstep
    have hall : st.sent + n = request.frame.bytes.length := by omega
    refine ⟨List.forall_mem_append.mpr ⟨hinv.wellFormed, List.forall_mem_singleton.mpr hwell⟩,
      fun _ hother => by contradiction, cuts, [], hrun, ?_, part_nil, fun _ => rfl⟩
    have hone : encode [request.frame] = request.frame.bytes := List.append_nil _
    rw [htaken, hall, List.take_length, List.append_nil, requestBytes, requestBytes, List.map_append,
      encode_append, List.map_singleton, hone]

theorem linkInv_step {st st' : RequestLink} {act : RequestAct} (hinv : LinkInv st)
    (hwell : act.WellFormed) (hwhole : (st.torn && act.sends) = false)
    (hstep : requestStep st act = some st') : LinkInv st' := by
  obtain ⟨cuts, part, hrun, hstream, hpart, hbegun⟩ := hinv.cuts
  cases act with
  | sendPacket request =>
    obtain ⟨hnone, hnext⟩ := Option.ite_none_right_eq_some.mp hstep
    obtain rfl := Option.some.inj hnext
    refine ⟨hinv.wellFormed, fun other hother => ?_, cuts, part, hrun, hstream, hpart,
      fun htorn => ?_⟩
    · obtain rfl := Option.some.inj hother
      refine ⟨hwell, ?_⟩
      rw [Frame.bytes, List.length_append]
      exact Nat.lt_of_lt_of_le packetFormat.headerLength_pos
        (Nat.le_add_right _ _)
    · rw [hbegun htorn, begun_none hnone, begun_zero rfl]
  | send result =>
    simp only [requestStep] at hstep
    split at hstep
    case h_1 => contradiction
    case h_2 request hrequest =>
      obtain ⟨hle, hnext⟩ := Option.ite_none_right_eq_some.mp hstep
      have hfailed : LinkInv { st with
          request := none, torn := st.torn || decide (0 < st.sent) } := by
        refine ⟨hinv.wellFormed, fun _ hother => by contradiction, cuts, part, hrun, hstream, hpart,
          fun htorn => ?_⟩
        obtain ⟨hwas, hsent⟩ := (Bool.or_eq_false_iff).mp htorn
        have hzero : st.sent = 0 := Nat.eq_zero_of_not_pos (of_decide_eq_false hsent)
        rw [hbegun hwas, begun_zero hzero, begun_none rfl]
      cases result with
      | wouldBlock =>
        obtain rfl := Option.some.inj hnext
        exact hinv
      | error =>
        obtain rfl := Option.some.inj hnext
        exact hfailed
      | bytes n =>
        cases n with
        | zero =>
          obtain rfl := Option.some.inj hnext
          exact hfailed
        | succ n =>
          have hopen : st.torn = false := by simpa [RequestAct.sends] using hwhole
          refine linkInv_bytes hinv hopen hrequest hle ?_
          change (if st.sent + (n + 1) < _ then some _ else some _) = _ at hnext
          split at hnext
          case isTrue hmore => exact (Option.some.inj hnext).symm.trans (if_pos hmore).symm
          case isFalse hlast => exact (Option.some.inj hnext).symm.trans (if_neg hlast).symm
  | receive n =>
    obtain ⟨receiver, hreceive, rfl⟩ := Option.map_eq_some_iff.mp hstep
    refine ⟨hinv.wellFormed, hinv.current, cuts ++ [st.wire.take n], part, ?_, ?_, hpart, hbegun⟩
    · rw [run_append, hrun, Option.bind_some, run_cons, hreceive]
      rfl
    · rw [List.flatten_append, List.flatten_singleton, List.append_assoc, List.take_append_drop]
      exact hstream

/-- However `send` splits them and however they are received, the requests arrive: at any moment
the server has handed the first of those for which `SendPacket` has returned true to their
handlers, in order and each once, all of them when nothing is under way; none is refused, and
each handler reads what was asked for. A packet that was broken off is not handed over, as
long as nothing is sent behind it. -/
theorem requests_arrive {st : RequestLink}
    (h : Reaches requestStep (fun st act => act.WellFormed ∧ (st.torn && act.sends) = false)
      .start st) :
    ∃ k ≤ st.requested.length,
      st.receiver.dispatched = (st.requested.take k).map ClientRequest.packet ∧
      st.receiver.rejected = false ∧
      (∀ rand, st.receiver.dispatched.map (PacketHandler.dispatch rand) =
        (st.requested.take k).map fun request => some (request.asks rand)) ∧
      (st.wire = [] → k = st.requested.length) := by
  have hstart : LinkInv .start :=
    ⟨fun _ hmem => absurd hmem List.not_mem_nil, fun _ hnone => by contradiction, [], [], rfl, rfl,
      part_nil, fun _ => rfl⟩
  have hinv : LinkInv st :=
    h.invariant hstart fun _ _ _ _ hinv hok hstep => linkInv_step hinv hok.1 hok.2 hstep
  obtain ⟨cuts, part, hrun, hstream, hpart, -⟩ := hinv.cuts
  obtain ⟨k, hk, hpackets, hall⟩ := packets_arrived hinv.wellFormed hpart hstream
  have htaken : ∀ request ∈ st.requested.take k, request.WellFormed := fun request hrequest =>
    hinv.wellFormed request (List.mem_of_mem_take hrequest)
  have hhanded : hand verdict () (packets cuts.flatten) = ⟨(), packets cuts.flatten, true⟩ := by
    apply hand_verdict
    intro packet hpacket
    rw [hpackets] at hpacket
    obtain ⟨request, hrequest, rfl⟩ := List.mem_map.mp hpacket
    rw [dispatch_request (htaken request hrequest)]
    rfl
  obtain ⟨a, hrefines, hreceived⟩ :=
    run_refined (hstream ▸ requestBytes_stream hinv.wellFormed hpart) hrun
  have hdispatched : st.receiver.dispatched = (st.requested.take k).map ClientRequest.packet := by
    rw [hrefines.dispatched_eq, hreceived.dispatched_eq, hhanded, hpackets]
  refine ⟨k, hk, hdispatched, ?_, fun rand => ?_, hall⟩
  · rw [hrefines.rejected_eq, hreceived.rejected_eq, hhanded]
    rfl
  · rw [hdispatched, List.map_map]
    exact List.map_congr_left fun request hrequest =>
      dispatch_request (htaken request hrequest) rand

def one : Binary32 := ⟨false, 127, 0, by decide, by decide⟩

def minusTwoAndAHalf : Binary32 := ⟨true, 128, 2097152, by decide, by decide⟩

/-- The MOVE is sent in two parts, and the first receive ends within it. Then an error comes
between two packets, and a last one within a packet. -/
def enterAndMove : List RequestAct :=
  [.sendPacket .enter, .send (.bytes 4), .sendPacket (.move one minusTwoAndAHalf),
    .send .wouldBlock, .send (.bytes 5), .receive 6, .send (.bytes 7), .receive 10,
    .sendPacket .leave, .send .error, .sendPacket .enter, .send (.bytes 4), .receive 4,
    .sendPacket .leave, .send (.bytes 3), .send .error, .receive 3]

theorem requests_arrive_move : ∃ st, run requestStep .start enterAndMove = some st ∧
    st.torn = true ∧ st.receiver.dispatched.map (PacketHandler.dispatch 3) =
      [some (.enter 3), some (.move (.finite 1) (.finite (-5 / 2))), some (.enter 3)] := by
  have hrun : (run (guarded requestStep fun st act => (st.torn && act.sends) = false) .start
      enterAndMove).any (fun st => decide (st.requested = [.enter, .move one minusTwoAndAHalf, .enter] ∧
        st.wire = [] ∧ st.torn = true)) = true := by decide +kernel
  obtain ⟨st, hst, hfinal⟩ := (Option.any_eq_true _ _).mp hrun
  obtain ⟨hrequested, hwire, htorn⟩ := of_decide_eq_true hfinal
  have hwell : ∀ act ∈ enterAndMove, act.WellFormed := by
    simp [enterAndMove, RequestAct.WellFormed, ClientRequest.WellFormed]
  obtain ⟨k, -, -, -, hasked, hall⟩ := requests_arrive
    (reaches_of_acts (fun _ _ htested hallowed => ⟨hallowed, htested⟩) enterAndMove hwell .start hst)
  refine ⟨st, run_of_guarded _ hst, htorn, ?_⟩
  have hcoordinates : ClientRequest.coordinate one = .finite 1 ∧
      ClientRequest.coordinate minusTwoAndAHalf = .finite (-5 / 2) := by decide +kernel
  rw [hasked, hall hwire, List.take_length, hrequested]
  simp [ClientRequest.asks, hcoordinates]

-- Sent behind the first half of a MOVE, two LEAVEs become its place.
example : ((run requestStep .start [.sendPacket (.move one one), .send (.bytes 4), .send .error,
    .sendPacket .leave, .send (.bytes 4), .sendPacket .leave, .send (.bytes 4),
    .receive 12]).map fun st => (st.requested, st.receiver.dispatched.map Packet.type)) =
      some ([.leave, .leave], [.CLIENT_MOVE]) := by decide +kernel

/-! ### What is accepted of any bytes -/

/-- The packet of a request; nothing is said of the body that an ENTER or a LEAVE came with. -/
def ClientRequest.Is (request : ClientRequest) (packet : Packet) : Prop :=
  request.WellFormed ∧ packet.type = request.packetType ∧
    (packet.body = request.body ∨ request = .enter ∨ request = .leave)

theorem ClientRequest.Is.dispatch {request : ClientRequest} {packet : Packet} (h : request.Is packet)
    (rand : Nat) : PacketHandler.dispatch rand packet = some (request.asks rand) := by
  obtain ⟨hwell, htype, hbody⟩ := h
  obtain ⟨type, body⟩ := packet
  change type = _ at htype
  change body = _ ∨ _ at hbody
  subst htype
  rcases hbody with rfl | rfl | rfl
  · exact dispatch_request hwell rand
  · rfl
  · rfl

/-- The packets that were handed over: of requests, and perhaps at last one that is refused. -/
structure Executed (requests : List ClientRequest) (dispatched : List Packet) (rejected : Bool) :
    Prop where
  packets : ∃ accepted last, dispatched = accepted ++ last ∧
    List.Forall₂ ClientRequest.Is requests accepted ∧
    if rejected then ∃ packet, last = [packet] ∧ ∀ rand, PacketHandler.dispatch rand packet = none
    else last = []

theorem dispatch_none {packet : Packet} (h : PacketHandler.dispatch 0 packet = none) (rand : Nat) :
    PacketHandler.dispatch rand packet = none := by
  cases hdispatch : PacketHandler.dispatch rand packet with
  | none => rfl
  | some asked =>
    obtain ⟨request, hwell, _, htype, hbody⟩ := dispatch_some hdispatch
    have hsome := ClientRequest.Is.dispatch ⟨hwell, htype, hbody⟩ 0
    rw [h] at hsome
    contradiction

theorem hand_executed (ps : List Packet) :
    ∃ requests, Executed requests (hand verdict () ps).packets (!(hand verdict () ps).accepted) := by
  induction ps with
  | nil => exact ⟨[], [], [], rfl, .nil, rfl⟩
  | cons packet rest ih =>
    obtain ⟨requests, accepted, last, hpackets, his, hlast⟩ := ih
    cases hdispatch : PacketHandler.dispatch 0 packet with
    | none =>
      have hhand : hand verdict () (packet :: rest) = ⟨(), [packet], false⟩ := by
        simp [hand, verdict, hdispatch]
      rw [hhand]
      exact ⟨[], [], [packet], rfl, .nil, packet, rfl, dispatch_none hdispatch⟩
    | some asked =>
      obtain ⟨request, hwell, _, htype, hbody⟩ := dispatch_some hdispatch
      have hhand : hand verdict () (packet :: rest) = ⟨(hand verdict () rest).app,
          packet :: (hand verdict () rest).packets, (hand verdict () rest).accepted⟩ := by
        simp [hand, verdict, hdispatch]
      rw [hhand]
      refine ⟨request :: requests, packet :: accepted, last, ?_, .cons ⟨hwell, htype, hbody⟩ his,
        hlast⟩
      rw [hpackets, List.cons_append]

theorem Executed.more {requests more : List ClientRequest} {dispatched next : List Packet}
    {rejected : Bool} (h : Executed requests dispatched false)
    (hmore : Executed more next rejected) :
    Executed (requests ++ more) (dispatched ++ next) rejected := by
  obtain ⟨accepted, last, rfl, his, hlast⟩ := h
  obtain ⟨accepted', last', rfl, his', hlast'⟩ := hmore
  obtain rfl : last = [] := hlast
  refine ⟨accepted ++ accepted', last', ?_, List.rel_append his his', hlast'⟩
  rw [List.append_nil, List.append_assoc]

theorem deframe_executed {cuts : List (List Byte)} {a a' : Deframer Unit}
    {requests : List ClientRequest}
    (h : Executed requests a.dispatched a.rejected)
    (hrun : run (deframe verdict) a cuts = some a') :
    ∃ requests, Executed requests a'.dispatched a'.rejected := by
  induction cuts generalizing a requests with
  | nil =>
    cases hrun
    exact ⟨requests, h⟩
  | cons data cuts ih =>
    obtain ⟨middle, hstep, hrest⟩ := Option.bind_eq_some_iff.mp hrun
    obtain ⟨⟨hopen, -⟩, hnext⟩ := Option.ite_none_right_eq_some.mp hstep
    obtain ⟨more, hmore⟩ := hand_executed (packets (a.pending ++ data))
    obtain rfl := Option.some.inj hnext
    rw [hopen] at h
    exact ih (h.more hmore) hrest

theorem asked_of_is {requests : List ClientRequest} {accepted : List Packet}
    (h : List.Forall₂ ClientRequest.Is requests accepted) (rand : Nat) :
    accepted.map (PacketHandler.dispatch rand) =
      requests.map fun request => some (request.asks rand) := by
  induction h with
  | nil => rfl
  | cons his _ ih => rw [List.map_cons, List.map_cons, his.dispatch rand, ih]

theorem Executed.read {requests : List ClientRequest} {dispatched : List Packet} {rejected : Bool}
    (h : Executed requests dispatched rejected) (rand : Nat) :
    dispatched.map (PacketHandler.dispatch rand) =
      (requests.map fun request => some (request.asks rand)) ++ if rejected then [none] else [] := by
  obtain ⟨accepted, last, rfl, his, hlast⟩ := h
  rw [List.map_append, asked_of_is his rand]
  cases rejected with
  | false =>
    obtain rfl : last = [] := hlast
    rfl
  | true =>
    obtain ⟨packet, rfl, hnone⟩ := hlast
    rw [List.map_singleton, hnone rand]
    rfl

/-- Whatever bytes arrive, and however: every packet that is handed over is that of a request,
which its handler reads, except perhaps a last one that no handler accepts. -/
theorem only_requests_executed {cuts : List (List Byte)} {s : Receiver Unit}
    (hrun : run (receive verdict) (.fresh ()) cuts = some s) :
    ∃ requests, Executed requests s.dispatched s.rejected ∧
      ∀ rand, s.dispatched.map (PacketHandler.dispatch rand) =
        (requests.map fun request => some (request.asks rand)) ++
          if s.rejected then [none] else [] := by
  have hrel := run_refines verdict () cuts
  rw [hrun] at hrel
  cases ha : run (deframe verdict) ⟨(), [], [], false⟩ cuts with
  | none => rw [ha] at hrel; contradiction
  | some a =>
    rw [ha] at hrel
    obtain ⟨hrefines⟩ := hrel
    rw [hrefines.dispatched_eq, hrefines.rejected_eq]
    have hfresh : Executed [] [] false := ⟨[], [], rfl, .nil, rfl⟩
    obtain ⟨requests, hexecuted⟩ := deframe_executed hfresh ha
    exact ⟨requests, hexecuted, hexecuted.read⟩

/-- An ENTER with a body, and a packet that only a server sends. -/
theorem only_requests_executed_refused :
    ∃ s requests, run (receive verdict) (.fresh ()) [[3, 0, 1], [0, 7, 100, 0, 0], [0]] = some s ∧
      s.rejected = true ∧ s.dispatched.length = 2 ∧ Executed requests s.dispatched true ∧
      s.dispatched.map (PacketHandler.dispatch 3) =
        (requests.map fun request => some (request.asks 3)) ++ [none] := by
  have hrun : (run (receive verdict) (.fresh ()) [[3, 0, 1], [0, 7, 100, 0, 0], [0]]).any (fun s =>
      decide (s.rejected = true ∧ s.dispatched.length = 2)) = true := by decide +kernel
  obtain ⟨s, hs, hfinal⟩ := (Option.any_eq_true _ _).mp hrun
  obtain ⟨hrejected, hlength⟩ := of_decide_eq_true hfinal
  obtain ⟨requests, hexecuted, hread⟩ := only_requests_executed hs
  rw [hrejected] at hexecuted hread
  exact ⟨s, requests, hs, hrejected, hlength, hexecuted, hread 3⟩

end RoomServer
