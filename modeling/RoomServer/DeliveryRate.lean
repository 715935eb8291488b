import RoomServer.Library.Broadcast
import RoomServer.LoadTestRoom
import RoomServer.Oversized

/-! What `LoadTestRoom.cpp Load` expects to be received, against what is: the room load test
and the rooms next to each other. `session` tells which session of the server a connection
is. -/
namespace RoomServer
open Library Library.Framing Library.Broadcast Library.Transition

namespace LoadTestRoom

/-- The worker that `Load` gives a connection to; the last one has those left over. -/
def workerOf (connections threadCount id : Nat) : Nat :=
  min (id / (connections / threadCount)) (threadCount - 1)

def LoadTest.total (st : LoadTest) (threadCount : Nat) (figure : Result → Nat) : Nat :=
  ((List.range threadCount).map fun t => figure (st.results t)).sum

def LoadTest.expected (st : LoadTest) (threadCount : Nat) : Nat :=
  ((List.range MAX_ROOMS).map fun r =>
    let m := st.roomMembers r
    if m > 1 then st.total threadCount (·.sentByRoom r) * (m - 1) else 0).sum

def Carries (float : ℚ → UInt32) (log : List (ServerPacket ℚ)) (bytes : List Byte) : Prop :=
  ∃ frames, List.Forall₂ ServerPacket.Framed (log.map (.encode float)) frames ∧
    bytes = frames.flatten

def handled (session : Nat) (acts : List HallAct) : List Packet :=
  acts.filterMap fun
    | .packet session' _ _ p => if session' = session then some p else none
    | _ => none

/-- Packets are handled, and what follows from them is done; every packet is made. -/
def PassesOn : HallAct → Prop
  | .packet _ _ _ _ | .push _ => True
  | .run _ mk _ | .tick _ mk _ => ∀ n, mk n = true
  | .accept _ | .fail _ | .stop => False

section Bytes
variable {float : ℚ → UInt32}

theorem Carries.eq {log : List (ServerPacket ℚ)} {bytes : List Byte}
    (h : Carries float log bytes) :
    bytes = encode ((log.map (ServerPacket.encode float)).map ServerPacket.frame) := by
  obtain ⟨frames, hframed, rfl⟩ := h
  exact ServerPacket.framed_stream hframed

theorem encode_chats {texts : List (List Byte)} (htexts : ∀ text ∈ texts, text.length = 64) :
    encode (((texts.map ServerPacket.broadcast).map (ServerPacket.encode float)).map
      ServerPacket.frame) = chats texts := by
  induction texts with
  | nil => rfl
  | cons text texts ih =>
    rw [List.forall_mem_cons] at htexts
    have hbody : (ServerPacket.broadcast text).body = text :=
      List.take_of_length_le (Nat.le_of_eq htexts.1)
    have hbytes : (ServerPacket.broadcast text).frame.bytes =
        packetBytes .SERVER_BROADCAST text := by
      rw [ServerPacket.frame, hbody]
      rfl
    have hcons : chats (text :: texts) = packetBytes .SERVER_BROADCAST text ++ chats texts := rfl
    rw [hcons, ← ih htexts.2, ← hbytes]
    rfl

theorem ackRoom_encode (packet : ServerPacket ℚ)
    (hrange : ∀ roomID, packet.admits = some roomID → 0 ≤ roomID ∧ roomID < MAX_ROOMS) :
    ackRoom ⟨(packet.encode float).packetType, (packet.encode float).body⟩ =
      packet.admits.map Int.toNat := by
  cases packet with
  | enter roomID seqID =>
    have hbody : (ServerPacket.enter roomID seqID : ServerPacket UInt32).body =
        intBytes roomID ++ uintBytes seqID := by
      apply List.take_of_length_le
      rw [ServerPacket.image, List.length_append, length_intBytes, length_uintBytes]
      exact Nat.le_refl 8
    have hlength : (intBytes roomID ++ uintBytes seqID).length = ENTER_ACK_BODY := by
      rw [List.length_append, length_intBytes, length_uintBytes]
      rfl
    rw [ServerPacket.encode, hbody, ackRoom, if_pos ⟨rfl, hlength⟩]
    dsimp only
    by_cases hroom : roomID = -1
    · subst hroom
      rw [readInt_append (by decide) (by decide)]
      rfl
    · have hadmits : (ServerPacket.enter roomID seqID : ServerPacket ℚ).admits = some roomID :=
        if_neg hroom
      have hbounds := hrange roomID hadmits
      have hmax : MAX_ROOMS = 64 := rfl
      rw [readInt_append (by omega) (by omega), if_pos hbounds, hadmits]
      rfl
  | echo text => exact if_neg fun h => by cases h.1
  | broadcast text => exact if_neg fun h => by cases h.1
  | spawn packet => exact if_neg fun h => by cases h.1
  | leave seqID => exact if_neg fun h => by cases h.1
  | move packet => exact if_neg fun h => by cases h.1

theorem Carries.ackRooms {log : List (ServerPacket ℚ)} {bytes : List Byte}
    (h : Carries float log bytes)
    (hrange : ∀ roomID ∈ log.filterMap ServerPacket.admits, 0 ≤ roomID ∧ roomID < MAX_ROOMS) :
    ackRooms bytes = (log.filterMap ServerPacket.admits).map Int.toNat ∧
      packetFormat.rest bytes = [] := by
  obtain ⟨hpackets, hrest⟩ := ServerPacket.packets_stream (log.map (ServerPacket.encode float))
  rw [h.eq]
  refine ⟨?_, hrest⟩
  rw [LoadTestRoom.ackRooms, hpackets, List.filterMap_map, List.filterMap_map, List.map_filterMap]
  apply List.filterMap_congr
  intro packet hpacket
  exact ackRoom_encode packet fun roomID hadmits =>
    hrange roomID (List.mem_filterMap.mpr ⟨packet, hpacket, hadmits⟩)

theorem packets_requests {bodies : List (List Byte)}
    (hbodies : ∀ body ∈ bodies, body.length = BROAD_BODY) :
    packets (requests bodies) = bodies.map fun body => ⟨.CLIENT_BROADCAST, body⟩ := by
  have hrequests : requests bodies = encode (bodies.map fun body =>
      ⟨PacketID.bytes ⟨.CLIENT_BROADCAST, UInt16.ofNat body.length⟩, body⟩) := by
    rw [encode, List.flatMap_map]
    rfl
  have hread (size : UInt16) : PacketID.read (PacketID.bytes ⟨.CLIENT_BROADCAST, size⟩) =
      ⟨.CLIENT_BROADCAST, size⟩ := by
    have hbytes := PacketID.read_bytes ⟨.CLIENT_BROADCAST, size⟩ []
    rwa [List.append_nil] at hbytes
  rw [hrequests, packets_encode, List.map_map]
  · apply List.map_congr_left
    intro body _
    rw [Function.comp_apply, packetOf, hread]
  · intro frame hframe
    obtain ⟨body, hbody, rfl⟩ := List.mem_map.mp hframe
    refine ⟨PacketID.length_bytes _, ?_⟩
    change body.length = (PacketID.read (PacketID.bytes _)).size.toNat
    rw [hread, hbodies body hbody]
    rfl

end Bytes

/-! ### When everybody has entered -/

theorem count_members {hall : Hall} (hflags : FlagsInv hall) (r s : Nat) :
    (hall.rooms r).room.sessions.count s =
      if (hall.sessions s).connected = true ∧ (hall.sessions s).roomID = r then 1 else 0 := by
  split
  case isTrue hhere =>
    obtain ⟨-, i, -, hroom, hmem⟩ := hflags.room_of_connected hhere.1
    obtain rfl : i = r := Int.ofNat_inj.mp (hroom.symm.trans hhere.2)
    exact List.count_eq_one_of_mem (hflags.sessions_nodup i) hmem
  case isFalse hnot =>
    refine List.count_eq_zero.mpr fun hmem => hnot ?_
    exact (hflags.member_room hmem).2

/-- What the workers know when the load begins. -/
structure Ready (session : Nat ≃ Nat) (entered : Hall) (ready : LoadTest) : Prop where
  conns : ∀ id, ready.conns id =
    { Conn.new with roomId := (entered.sessions (session id)).roomID }
  members : ∀ r, ready.roomMembers r = (entered.rooms r).room.sessions.length
  results : ∀ t, ∃ count, ready.results t = { Result.new with entered := count }
  asked : ready.asked = []
  wire : ∀ id, ready.wire id = []
  counted : ready.counted = []

section Ready
variable {worker : Nat → Nat} {session : Nat ≃ Nat} {entered : Hall} {ready : LoadTest}
  {float : ℚ → UInt32} {stream : Nat → List Byte}

theorem admits_range (hinv : EnterInv entered) (hrooms : entered.roomCount ≤ MAX_ROOMS) (s : Nat) :
    ∀ roomID ∈ (entered.enqueued s).filterMap ServerPacket.admits,
      0 ≤ roomID ∧ roomID < MAX_ROOMS := by
  intro roomID hroomID
  rw [hinv.acks s] at hroomID
  split at hroomID
  case isTrue hconnected =>
    obtain ⟨-, i, hi, hroom, -⟩ := hinv.flags.room_of_connected hconnected
    obtain rfl := List.mem_singleton.mp hroomID
    omega
  case isFalse => exact absurd hroomID List.not_mem_nil

theorem ackRooms_entered (hinv : EnterInv entered) (hrooms : entered.roomCount ≤ MAX_ROOMS)
    {id : Nat} (hread : Carries float (entered.enqueued (session id)) (stream id)) :
    ackRooms (stream id) = (if (entered.sessions (session id)).connected then
        [(entered.sessions (session id)).roomID.toNat] else []) ∧
      packetFormat.rest (stream id) = [] := by
  obtain ⟨hacks, hrest⟩ := hread.ackRooms (admits_range hinv hrooms (session id))
  refine ⟨?_, hrest⟩
  rw [hacks, hinv.acks]
  split <;> rfl

theorem Entering.done (h : Entering worker stream ready) (hinv : EnterInv entered)
    (hrooms : entered.roomCount ≤ MAX_ROOMS)
    (hread : ∀ id, Carries float (entered.enqueued (session id)) (stream id)) :
    Ready session entered ready := by
  refine ⟨fun id => ?_, fun r => ?_, fun t => ⟨_, h.results t⟩, h.asked, h.wire, h.counted⟩
  · obtain ⟨hacks, hrest⟩ := ackRooms_entered hinv hrooms (hread id)
    rw [h.conns id, hacks, hrest]
    split
    case isTrue hconnected =>
      obtain ⟨-, i, -, hroom, -⟩ := hinv.flags.room_of_connected hconnected
      rw [hroom]
      rfl
    case isFalse hout =>
      rw [hinv.flags.idle _ (Bool.eq_false_iff.mpr hout)]
      rfl
  · have hsame : ((ready.acks.filter fun ack => ack.2 = r).map Prod.fst).Perm
        ((entered.rooms r).room.sessions.map session.symm) := by
      rw [List.perm_iff_count]
      intro id
      have hacks : ((ready.acks.filter fun ack => ack.2 = r).map Prod.fst).count id =
          ((ready.acks.filter fun ack => ack.1 = id).map Prod.snd).count r := by
        simp only [List.count, List.countP_map, List.countP_filter]
        apply List.countP_congr
        simp [and_comm]
      have hmembers : ((entered.rooms r).room.sessions.map session.symm).count id =
          (entered.rooms r).room.sessions.count (session id) := by
        conv_lhs => rw [← session.symm_apply_apply id]
        exact List.count_map_of_injective _ _ session.symm.injective _
      rw [hacks, h.acks id, (ackRooms_entered hinv hrooms (hread id)).1, hmembers,
        count_members hinv.flags]
      by_cases hconnected : (entered.sessions (session id)).connected = true
      · obtain ⟨-, i, -, hroom, -⟩ := hinv.flags.room_of_connected hconnected
        simp only [hconnected, hroom, Int.toNat_natCast, if_true, true_and, List.count_singleton,
          beq_iff_eq, Int.natCast_inj]
      · simp [hconnected]
    rw [h.members, List.count, List.countP_map, List.countP_eq_length_filter,
      ← List.length_map session.symm, ← hsame.length_eq, List.length_map]
    rfl

theorem Ready.counting (h : Ready session entered ready) (texts : Nat → List (List Byte)) :
    Counting worker texts (fun _ => []) ready := by
  have hcount (id : Nat) : ready.counted.count id = 0 := by rw [h.counted, List.count_nil]
  have hresults (t : Nat) : (ready.results t).recved = 0 ∧ (ready.results t).broke = 0 ∧
      (ready.results t).mismatch = 0 := by
    obtain ⟨count, hresult⟩ := h.results t
    rw [hresult]
    exact ⟨rfl, rfl, rfl⟩
  refine ⟨fun id => ?_, fun id => ?_, fun id => ?_, fun id => ?_, fun t => ?_,
    fun t => (hresults t).2.1, fun t => (hresults t).2.2⟩
  · rw [h.conns id]
    rfl
  · rw [hcount]
    exact Nat.zero_le _
  · rw [hcount, h.conns id]
    rfl
  · rw [h.conns id]
    exact Nat.succ_pos _
  · rw [(hresults t).1, h.counted]
    rfl

theorem Ready.asking (h : Ready session entered ready) : Asking worker ready ready := by
  refine ⟨fun _ => rfl, rfl, fun ask hask => ?_, fun t => ?_, fun t r => ?_, fun id => ?_,
    fun id => ?_⟩
  · rw [h.asked] at hask
    exact absurd hask List.not_mem_nil
  · obtain ⟨count, hresult⟩ := h.results t
    rw [hresult, h.asked]
    rfl
  · obtain ⟨count, hresult⟩ := h.results t
    rw [hresult, h.asked]
    rfl
  · rw [h.conns id]
    exact Nat.le_refl 0
  · rw [h.wire id, h.conns id, h.asked]
    rfl

end Ready

/-! ### When nothing is on its way any more -/

def senders (acts : List HallAct) : List Nat :=
  acts.filterMap fun
    | .packet session _ _ _ => some session
    | _ => none

theorem count_senders (s : Nat) (acts : List HallAct) :
    (senders acts).count s = (handled s acts).length := by
  induction acts with
  | nil => rfl
  | cons act acts ih =>
    cases act with
    | packet session rand made p =>
      have hsenders : senders (.packet session rand made p :: acts) = session :: senders acts := rfl
      rw [hsenders]
      by_cases hs : session = s
      · subst hs
        simp [handled, ih]
      · simp [handled, ih, hs]
    | _ => exact ih

theorem length_sentIn (hall : Hall) (r : Nat) (acts : List HallAct) :
    (sentIn hall r acts).length =
      (senders acts).countP fun s => (hall.sessions s).roomID = r := by
  induction acts with
  | nil => rfl
  | cons act acts ih =>
    cases act with
    | packet session rand made p =>
      have hsenders : senders (.packet session rand made p :: acts) = session :: senders acts := rfl
      rw [hsenders, sentIn_cons, List.length_append, ih, List.countP_cons, Nat.add_comm]
      by_cases hr : (hall.sessions session).roomID = r <;> simp [sentIn, hr]
    | _ => exact ih

theorem said_of_sentIn {hall : Hall} (hflags : FlagsInv hall) {acts : List HallAct}
    (hchats : ∀ act ∈ acts, act.Chats hall) {r : Nat} {job : Job} (hjob : job ∈ sentIn hall r acts) :
    hall.Says r job ∧ job.text.length = 64 := by
  obtain ⟨act, hact, hsent⟩ := List.mem_filterMap.mp hjob
  cases act with
  | packet session rand made p =>
    obtain ⟨hconnected, hvalid⟩ := hchats _ hact
    obtain ⟨hroom, hsome⟩ := Option.ite_none_right_eq_some.mp hsent
    obtain ⟨-, i, hi, hi', hmem⟩ := hflags.room_of_connected hconnected
    obtain rfl : i = r := Int.ofNat_inj.mp (hi'.symm.trans hroom)
    obtain rfl := Option.some.inj hsome
    exact ⟨⟨rfl, hi, hmem⟩, hvalid.2⟩
  | _ => contradiction

section Delivery
variable {worker : Nat → Nat} {session : Nat ≃ Nat} {entered : Hall} {ready st : LoadTest}
  {chat : List HallAct}

theorem Asking.handles (h : Asking worker ready st) {id : Nat} (hflushed : (st.conns id).out = [])
    (hhandled : handled (session id) chat = packets (st.wire id)) :
    handled (session id) chat = ((st.asked.filter fun ask => ask.1 = id).map Prod.snd).map
      fun body => ⟨.CLIENT_BROADCAST, body⟩ := by
  have hwire := h.written id
  rw [hflushed, List.drop_nil, List.append_nil] at hwire
  rw [hhandled, hwire]
  apply packets_requests
  intro body hbody
  obtain ⟨ask, hask, rfl⟩ := List.mem_map.mp hbody
  exact (h.asked ask (List.mem_filter.mp hask).1).2

variable (hready : Ready session entered ready) (hasking : Asking worker ready st)
  (hflushed : ∀ id, (st.conns id).out = [])
  (hhandled : ∀ id, handled (session id) chat = packets (st.wire id))
include hready hasking hflushed hhandled

theorem chats_of_handled (hflags : FlagsInv entered) (hpasses : ∀ act ∈ chat, PassesOn act) :
    ∀ act ∈ chat, act.Chats entered := by
  intro act hact
  cases act with
  | packet s rand made p =>
    have hmine : p ∈ handled (session (session.symm s)) chat :=
      List.mem_filterMap.mpr ⟨_, hact, if_pos (session.apply_symm_apply s).symm⟩
    rw [hasking.handles (hflushed _) (hhandled _)] at hmine
    obtain ⟨body, hbody, rfl⟩ := List.mem_map.mp hmine
    obtain ⟨ask, hask, rfl⟩ := List.mem_map.mp hbody
    obtain ⟨hmem, hid⟩ := List.mem_filter.mp hask
    obtain ⟨hroom, hlength⟩ := hasking.asked ask hmem
    rw [of_decide_eq_true hid, hready.conns, session.apply_symm_apply] at hroom
    refine ⟨?_, rfl, hlength⟩
    by_contra hout
    rw [hflags.idle s (Bool.eq_false_iff.mpr hout)] at hroom
    contradiction
  | push k => trivial
  | run i mk nowTick => exact hpasses _ hact
  | tick i mk nowTick => exact hpasses _ hact
  | accept socket => exact hpasses _ hact
  | fail s => exact hpasses _ hact
  | stop => exact hpasses _ hact

theorem sentIn_asked (r : Nat) : (sentIn entered r chat).length =
    st.asked.countP fun ask => (ready.conns ask.1).roomId.toNat = r := by
  have hsame : ((senders chat).map session.symm).Perm (st.asked.map Prod.fst) := by
    rw [List.perm_iff_count]
    intro id
    have hsenders : ((senders chat).map session.symm).count id =
        (senders chat).count (session id) := by
      conv_lhs => rw [← session.symm_apply_apply id]
      exact List.count_map_of_injective _ _ session.symm.injective _
    rw [hsenders, count_senders, hasking.handles (hflushed id) (hhandled id), List.length_map,
      List.length_map, List.count, List.countP_map, List.countP_eq_length_filter]
    rfl
  have hcount := hsame.countP_eq fun id => decide ((entered.sessions (session id)).roomID = r)
  rw [List.countP_map, List.countP_map] at hcount
  rw [length_sentIn]
  calc (senders chat).countP (fun s => (entered.sessions s).roomID = r)
    _ = (senders chat).countP ((fun id => decide ((entered.sessions (session id)).roomID = r)) ∘
          session.symm) := by simp [Function.comp_def]
    _ = st.asked.countP fun ask => (entered.sessions (session ask.1)).roomID = r := hcount
    _ = st.asked.countP fun ask => (ready.conns ask.1).roomId.toNat = r := by
      apply List.countP_congr
      intro ask hask
      have hroom := (hasking.asked ask hask).1
      rw [hready.conns] at hroom ⊢
      change 0 ≤ (entered.sessions (session ask.1)).roomID at hroom
      simp only [decide_eq_true_eq]
      omega

end Delivery

def textsOf (entered : Hall) (done : Nat → List Job) (s : Nat) : List (List Byte) :=
  if (entered.sessions s).connected then
    ((done (entered.sessions s).roomID.toNat).filter (·.session ≠ s)).map Job.text
  else []

section Texts
variable {entered h : Hall} {sent done : Nat → List Job}

theorem enqueued_texts (hchat : Chatting entered sent done h) (hflags : FlagsInv entered)
    (s : Nat) :
    h.enqueued s = entered.enqueued s ++ (textsOf entered done s).map ServerPacket.broadcast := by
  unfold textsOf
  split
  case isTrue hconnected =>
    obtain ⟨-, i, -, hroom, hmem⟩ := hflags.room_of_connected hconnected
    rw [hchat.heard i s hmem, hroom, Int.toNat_natCast, List.map_map]
    rfl
  case isFalse hout =>
    rw [hchat.others s (Bool.eq_false_iff.mpr hout)]
    exact (List.append_nil _).symm

theorem textsOf_member (hflags : FlagsInv entered) {r s : Nat}
    (hs : s ∈ (entered.rooms r).room.sessions) :
    (textsOf entered done s).length = ((done r).map Job.session).countP fun x => x ≠ s := by
  obtain ⟨-, hconnected, hroom⟩ := hflags.member_room hs
  rw [textsOf, if_pos hconnected, hroom, Int.toNat_natCast, List.length_map, List.countP_map,
    List.countP_eq_length_filter]
  rfl

theorem textsOf_lengths (hdone : ∀ r, ∀ job ∈ done r, job.text.length = 64) (s : Nat) :
    ∀ text ∈ textsOf entered done s, text.length = 64 := by
  intro text htext
  unfold textsOf at htext
  split at htext
  case isTrue =>
    obtain ⟨job, hjob, rfl⟩ := List.mem_map.mp htext
    exact hdone _ job (List.mem_filter.mp hjob).1
  case isFalse => exact absurd htext List.not_mem_nil

end Texts

section Totals
variable {worker : Nat → Nat} {session : Nat ≃ Nat} {entered : Hall} {ready st : LoadTest}
  {done : Nat → List Job}

theorem counted_room (hready : Ready session entered ready) (hflags : FlagsInv entered)
    (hcounted : ∀ id, st.counted.count id = (textsOf entered done (session id)).length)
    {r : Nat} (hdone : ∀ job ∈ done r, job.session ∈ (entered.rooms r).room.sessions) :
    st.counted.countP (fun id => (ready.conns id).roomId.toNat = r) =
      (done r).length * ((entered.rooms r).room.sessions.length - 1) := by
  have hnodup := hflags.sessions_nodup r
  calc st.counted.countP (fun id => (ready.conns id).roomId.toNat = r)
    _ = st.counted.countP (fun id => session id ∈ (entered.rooms r).room.sessions) := by
      apply List.countP_congr
      intro id hid
      have hmine : (entered.sessions (session id)).connected = true := by
        by_contra hout
        have hnone := hcounted id
        rw [textsOf, if_neg hout] at hnone
        exact List.count_eq_zero.mp hnone hid
      obtain ⟨-, i, -, hroom, hmem⟩ := hflags.room_of_connected hmine
      rw [hready.conns, decide_eq_true_eq, decide_eq_true_eq]
      change (entered.sessions (session id)).roomID.toNat = r ↔ _
      rw [hroom, Int.toNat_natCast]
      constructor
      · rintro rfl
        exact hmem
      · intro hother
        exact Int.ofNat_inj.mp (hroom.symm.trans (hflags.member_room hother).2.2)
    _ = ((entered.rooms r).room.sessions.map fun s =>
          st.counted.countP fun id => session id = s).sum := countP_classes session hnodup _
    _ = ((entered.rooms r).room.sessions.map fun s =>
          ((done r).map Job.session).countP fun x => x ≠ s).sum := by
      congr 1
      apply List.map_congr_left
      intro s hs
      rw [← textsOf_member hflags hs, ← session.apply_symm_apply s, ← hcounted, List.count]
      apply List.countP_congr
      intro id _
      rw [decide_eq_true_eq, beq_iff_eq, session.apply_symm_apply, session.eq_symm_apply]
    _ = ((done r).map Job.session).length * ((entered.rooms r).room.sessions.length - 1) :=
      fanout hnodup fun x hx => by
        obtain ⟨job, hjob, rfl⟩ := List.mem_map.mp hx
        exact hdone job hjob
    _ = _ := by rw [List.length_map]

theorem total_of_countP {β : Type} {threadCount : Nat} (hworker : ∀ id, worker id < threadCount)
    {figure : Result → Nat} (connOf : β → Nat) (xs : List β)
    (hfigure : ∀ t, figure (st.results t) = xs.countP fun x => worker (connOf x) = t) :
    st.total threadCount figure = xs.length := by
  simp only [LoadTest.total, hfigure]
  exact length_classes (fun x => worker (connOf x)) List.nodup_range
    fun x _ => List.mem_range.mpr (hworker (connOf x))

theorem expected_eq {threadCount : Nat} (hworker : ∀ id, worker id < threadCount)
    (hready : Ready session entered ready) (hasking : Asking worker ready st) :
    st.expected threadCount = ((List.range MAX_ROOMS).map fun r =>
      (st.asked.countP fun ask => (ready.conns ask.1).roomId.toNat = r) *
        ((entered.rooms r).room.sessions.length - 1)).sum := by
  rw [LoadTest.expected]
  congr 1
  apply List.map_congr_left
  intro r _
  have hsent : st.total threadCount (·.sentByRoom r) =
      st.asked.countP fun ask => (ready.conns ask.1).roomId.toNat = r := by
    rw [List.countP_eq_length_filter]
    apply total_of_countP hworker Prod.fst
    intro t
    rw [hasking.sentByRoom, List.countP_filter]
    simp
  dsimp only
  rw [hsent, hasking.members, hready.members]
  split
  case isTrue => rfl
  case isFalse halone =>
    have hzero : (entered.rooms r).room.sessions.length - 1 = 0 := by omega
    rw [hzero, Nat.mul_zero]

end Totals

theorem workerOf_lt {connections threadCount : Nat} (hthreads : 1 ≤ threadCount) (id : Nat) :
    workerOf connections threadCount id < threadCount := by
  unfold workerOf
  omega

section Rate
variable {connections threadCount : Nat} {session : Nat ≃ Nat} {float : ℚ → UInt32}
  {entered h : Hall} {ready st : LoadTest} {chat : List HallAct} {acks load : List LoadTestAct}

theorem counted_all {worker : Nat → Nat} {texts : Nat → List (List Byte)} {stream : Nat → List Byte}
    (hcounting : Counting worker texts stream st)
    (htexts : ∀ i, ∀ text ∈ texts i, text.length = 64) (hall : ∀ i, stream i = chats (texts i))
    (id : Nat) : st.counted.count id = (texts id).length := by
  have hdue := hcounting.due id
  have horder := hcounting.order id
  have hshort := hcounting.short id
  have hsplit := congrArg chats (List.take_append_drop (st.counted.count id) (texts id))
  rw [hall, ← hsplit, chats_append, List.append_cancel_left_eq] at horder
  rw [← horder, length_chats fun text htext => htexts id text (List.mem_of_mem_drop htext),
    List.length_drop] at hshort
  have hsize : PacketID_SIZE + BROAD_BODY = 68 := rfl
  omega

/-- Where all have entered before the first BROADCAST, and everything that is sent arrives,
`Load` finds what it expects: each BROADCAST counts once for everybody else in its room. -/
theorem delivery_rate {roomCount : Nat} {nowNanos : Nat → Int64} (hthreads : 1 ≤ threadCount)
    (henter : Reaches hallStep (fun _ act => act.Enters) (.start roomCount) entered)
    (hrooms : entered.roomCount ≤ MAX_ROOMS) (hentered : entered.Quiet)
    (hpasses : ∀ act ∈ chat, PassesOn act) (hserver : run hallStep entered chat = some h)
    (hquiet : h.Quiet) (hacks : ∀ act ∈ acks, act.Awaits)
    (hready : run (loadTestStep (workerOf connections threadCount)) (.start nowNanos) acks =
      some ready)
    (hread : ∀ id, Carries float (entered.enqueued (session id)) (received id acks))
    (hfaultless : ∀ act ∈ load, act.Faultless)
    (hload : run (loadTestStep (workerOf connections threadCount)) ready load = some st)
    (hflushed : ∀ id, (st.conns id).out = [])
    (hhandled : ∀ id, handled (session id) chat = packets (st.wire id))
    (hheard : ∀ id, Carries float (h.enqueued (session id)) (received id (acks ++ load))) :
    st.total threadCount (·.recved) = st.expected threadCount ∧
      st.total threadCount (·.mismatch) = 0 ∧ st.total threadCount (·.broke) = 0 := by
  have hinv := enterInv_reaches henter
  have hworker := @workerOf_lt connections threadCount hthreads
  have hknown : Ready session entered ready :=
    ((entering_start _ nowNanos).steps hacks hready).done hinv hrooms hread
  have hasking : Asking (workerOf connections threadCount) ready st :=
    hknown.asking.steps hfaultless hload
  have hchats := chats_of_handled hknown hasking hflushed hhandled hinv.flags hpasses
  obtain ⟨done, hchat⟩ := (Chatting.start hinv hentered).steps hinv.flags hchats hserver
  have hsent (r : Nat) : (done r).Perm (sentIn entered r chat) := by
    have hbalance := hchat.balance r
    rwa [Hall.pending, hquiet.jobs, hquiet.pushes, bound, List.filter_nil, List.map_nil,
      List.append_nil, List.append_nil] at hbalance
  have hsaid {r : Nat} {job : Job} (hjob : job ∈ done r) :=
    said_of_sentIn hinv.flags hchats ((hsent r).mem_iff.mp hjob)
  have htexts := @textsOf_lengths entered done fun r job hjob => (hsaid hjob).2
  -- What is received under load is the BROADCASTs that the rooms have passed on.
  have hstream (id : Nat) : received id load = chats (textsOf entered done (session id)) := by
    have hall := (hheard id).eq
    rw [enqueued_texts hchat hinv.flags, received_append, (hread id).eq, List.map_append,
      List.map_append, encode_append] at hall
    exact (List.append_cancel_left hall).trans (encode_chats (htexts (session id)))
  have hcounting : Counting (workerOf connections threadCount)
      (fun id => textsOf entered done (session id)) (fun id => received id load) st :=
    (hknown.counting _).steps (fun id => htexts (session id)) hfaultless
      (fun id => hstream id ▸ List.prefix_rfl) hload
  have hcounted := counted_all hcounting (fun id => htexts (session id)) hstream
  refine ⟨?_, ?_, ?_⟩
  · calc st.total threadCount (·.recved)
      _ = st.counted.length := total_of_countP hworker id _ hcounting.recved
      _ = ((List.range MAX_ROOMS).map fun r =>
            st.counted.countP fun id => (ready.conns id).roomId.toNat = r).sum := by
        symm
        apply length_classes _ List.nodup_range
        intro id _
        rw [List.mem_range, hknown.conns]
        change (entered.sessions (session id)).roomID.toNat < MAX_ROOMS
        by_cases hmember : (entered.sessions (session id)).connected = true
        · obtain ⟨-, i, hi, hroom, -⟩ := hinv.flags.room_of_connected hmember
          omega
        · rw [hinv.flags.idle _ (Bool.eq_false_iff.mpr hmember)]
          decide
      _ = ((List.range MAX_ROOMS).map fun r =>
            (st.asked.countP fun ask => (ready.conns ask.1).roomId.toNat = r) *
              ((entered.rooms r).room.sessions.length - 1)).sum := by
        congr 1
        apply List.map_congr_left
        intro r _
        rw [counted_room hknown hinv.flags hcounted fun job hjob => (hsaid hjob).1.member,
          (hsent r).length_eq, sentIn_asked hknown hasking hflushed hhandled]
      _ = st.expected threadCount := (expected_eq hworker hknown hasking).symm
  · simp [LoadTest.total, hcounting.mismatch]
  · simp [LoadTest.total, hcounting.broke]

end Rate

def dispatched (s : Nat) (p : Packet) : List HallAct :=
  [.packet s 0 true p, .push 0, .push 0, dispatches 0]

def twoEnter : List HallAct :=
  .accept 100 :: .accept 101 :: (dispatched 0 (bare PacketType.CLIENT_ENTER) ++
    dispatched 1 (bare PacketType.CLIENT_ENTER))

def twoChat : List HallAct :=
  dispatched 1 ⟨.CLIENT_BROADCAST, broadcastBody 1 0⟩ ++
    dispatched 0 ⟨.CLIENT_BROADCAST, broadcastBody 0 0⟩

def announced (id other : Nat) : List (ServerPacket ℚ) :=
  [.enter 0 id, .spawn (DataList.empty.add ⟨other, 0, 0⟩).1]

def bytesOf (log : List (ServerPacket ℚ)) : List Byte :=
  log.flatMap fun packet =>
    let sent := packet.encode fun _ => 0
    packetBytes sent.packetType sent.body

def twoAcks : List LoadTestAct :=
  [.enter 0 (bytesOf (announced 0 1)), .enter 1 (bytesOf (announced 1 0))]

def twoLoad : List LoadTestAct :=
  [.pace 0, .send 0 (.bytes 68), .pace 1, .send 1 (.bytes 30), .send 1 .wouldBlock,
    .send 1 (.bytes 38), .recv 1 (chats [broadcastBody 0 0]),
    .recv 0 ((chats [broadcastBody 1 0]).take 5), .recv 0 ((chats [broadcastBody 1 0]).drop 5)]

theorem carries_typed {log : List (ServerPacket ℚ)}
    (h : ∀ packet ∈ log, (packet.encode fun _ => 0).Typed) :
    Carries (fun _ => 0) log (bytesOf log) := by
  refine ⟨_, ?_, List.flatMap_def⟩
  rw [List.forall₂_map_left_iff, List.forall₂_map_right_iff, List.forall₂_same]
  exact fun packet hpacket => (h packet hpacket).framed

theorem announced_typed (id other : Nat) (hid : id < 4294967296) (hother : other < 4294967296) :
    ∀ packet ∈ announced id other, (packet.encode fun _ => 0).Typed := by
  simp [announced, ServerPacket.Typed, ServerPacket.encode, DataList.add, DataList.empty,
    DataList.count, DataList.mapCoordinates, MaxSendSpawnCount, hid, hother]

theorem said_typed (connId : Nat) :
    ∀ packet ∈ [ServerPacket.broadcast (broadcastBody connId 0)],
      (packet.encode fun _ => 0).Typed := by
  rw [List.forall_mem_singleton]
  exact length_broadcastBody connId 0

set_option maxRecDepth 20000 in
theorem delivery_rate_two : ∃ entered h ready st,
    run hallStep (.start 1) twoEnter = some entered ∧ run hallStep entered twoChat = some h ∧
    run (loadTestStep (workerOf 2 2)) (.start fun _ => 0) twoAcks = some ready ∧
    run (loadTestStep (workerOf 2 2)) ready twoLoad = some st ∧
    st.total 2 (·.recved) = 2 ∧ st.total 2 (·.recved) = st.expected 2 := by
  have henters : ∀ act ∈ twoEnter, act.Enters := by
    simp [twoEnter, dispatched, dispatches, HallAct.Enters, bare]
  have hpasses : ∀ act ∈ twoChat, PassesOn act := by
    simp [twoChat, dispatched, dispatches, PassesOn]
  have hnone : Carries (fun _ => 0) [] [] := ⟨[], .nil, rfl⟩
  have htold (id other : Nat) (hid : id < 2) (hother : other < 2) :=
    announced_typed id other (by omega) (by omega)
  have hall (id other : Nat) (hid : id < 2) (hother : other < 2) :=
    carries_typed (List.forall_mem_append.mpr ⟨htold id other hid hother, said_typed other⟩)
  refine ⟨_, _, _, _, rfl, rfl, rfl, rfl, rfl, ?_⟩
  refine (@delivery_rate 2 2 (Equiv.refl Nat) (fun _ => 0) _ _ _ _ twoChat twoAcks twoLoad 1
    (fun _ => 0) (by decide)
    (reaches_of_acts (fun _ _ (_ : True) h => h) twoEnter henters .start rfl) ?_ ?_ hpasses rfl ?_
    ?_ rfl ?_ ?_ rfl ?_ ?_ ?_).1
  · exact Nat.le_of_ble_eq_true rfl
  · exact ⟨rfl, by rintro (_ | i) <;> rfl⟩
  · exact ⟨rfl, by rintro (_ | i) <;> rfl⟩
  · simp [twoAcks, LoadTestAct.Awaits]
  · rintro (_ | _ | id)
    · exact carries_typed (htold 0 1 (by decide) (by decide))
    · exact carries_typed (htold 1 0 (by decide) (by decide))
    · exact hnone
  · simp [twoLoad, LoadTestAct.Faultless]
  · rintro (_ | _ | id) <;> rfl
  · rintro (_ | _ | id) <;> rfl
  · rintro (_ | _ | id)
    · exact hall 0 1 (by decide) (by decide)
    · exact hall 1 0 (by decide) (by decide)
    · exact hnone

end LoadTestRoom
end RoomServer
