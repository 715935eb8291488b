import RoomServer.RoomViews

/-! The packets a room makes for everybody in it: which one a job makes, which ones
a tick makes, and to whom the job or the tick hands them. What a job hands to its own
session is for that session alone. -/
namespace RoomServer
open Library

/-- BROADCAST, the SPAWN of the entrant, or LEAVE: what the job has for the others. -/
def Job.roomWide (job : Job) (room : Room) (socket : Nat) (isConnected : Bool) :
    Option (ServerPacket ℚ) :=
  match job.kind with
  | .enter =>
    if isConnected || (room.roomUser.find socket).isSome then none
    else
      room.seqIDs.head?.map fun seqID =>
        .spawn ((DataList.empty : Server_Spawn ℚ).add
          (RoomUser.enter job.session 0 0 seqID).data).1
  | .leave =>
    if isConnected then (room.roomUser.find socket).map fun user => .leave user.seqID else none
  | .broadcast text => some (.broadcast text)
  | .move _ _ => none

namespace Room

def moveBatches (nowTick : Nat) : List RoomUser → Server_Move_Ack ℚ → List (Server_Move_Ack ℚ)
  | [], packet => if 0 < packet.count then [packet] else []
  | user :: rest, packet =>
    if user.isMove = false then moveBatches nowTick rest packet
    else
      let data := (movePosition user nowTick).data
      if (packet.add data).2 then moveBatches nowTick rest (packet.add data).1
      else
        packet :: moveBatches nowTick rest ((DataList.empty : Server_Move_Ack ℚ).add data).1

def snapshots (room : Room) (nowTick : Nat) : List (Server_Move_Ack ℚ) :=
  if room.lastTick + MinMoveTick ≤ nowTick then
    moveBatches nowTick room.roomUser.values .empty
  else []

theorem moveUsers_moveBatches {mk : Nat → Bool} (hmade : ∀ n, mk n = true)
    (users : List RoomUser) (nowTick : Nat) (rest : List RoomUser) (packet : Server_Move_Ack ℚ)
    (calls : Nat) :
    moveUsers users nowTick mk rest packet calls = (moveBatches nowTick rest packet).flatMap
      fun batch => users.map fun user => .insertSendQueue user.session (.move batch) := by
  induction rest generalizing packet calls with
  | nil =>
    rw [moveUsers, moveBatches, sendMoveData, if_pos (hmade calls)]
    split <;> simp
  | cons user rest ih =>
    rw [moveUsers, moveBatches]
    dsimp only
    split
    · exact ih packet calls
    · split
      · exact ih _ calls
      · rw [ih, sendMoveData, if_pos (hmade calls), List.flatMap_cons]

/-- A tick hands every batch to everybody, one batch after the other. -/
theorem tick_effects {mk : Nat → Bool} (hmade : ∀ n, mk n = true) (room : Room) (nowTick : Nat) :
    (room.tick nowTick mk).effects = (room.snapshots nowTick).flatMap
      fun batch => room.sessions.map fun s => .insertSendQueue s (.move batch) := by
  unfold tick snapshots
  split
  · simp only [moveCheckUsers, Outcome.effects, List.nil_append, moveUsers_moveBatches hmade,
      sessions, List.map_map]
    rfl
  · rfl

theorem sentTo_spawnUsers_self (session : Nat) (sendBroadCast : ServerPacket ℚ) (mk : Nat → Bool)
    (users : List RoomUser) (calls : Nat) :
    ∀ packet ∈ sentTo session (spawnUsers session sendBroadCast mk users .empty calls),
      ∃ batch, packet = .spawn batch := by
  obtain ⟨batches, hsent, _⟩ := spawnUsers_batches session sendBroadCast mk users .empty calls
  intro packet hpacket
  rw [hsent] at hpacket
  obtain ⟨batch, _, rfl⟩ := List.mem_map.mp hpacket
  exact ⟨batch, rfl⟩

theorem sentTo_sendOthers_self (room : Room) (session : Nat) (sendChunk : ServerPacket ℚ) :
    sentTo session (room.sendOthers session sendChunk) = [] := by
  rw [sendOthers, sentTo_map, List.count_eq_zero.mpr, List.replicate_zero]
  intro hmem
  obtain ⟨user, huser, hsession⟩ := List.mem_map.mp hmem
  simpa [hsession] using (List.mem_filter.mp huser).2

end Room

/-- What a session may be sent that nobody else is sent: the answers to its own requests. -/
def ServerPacket.own : ServerPacket ℚ → Bool
  | .echo _ | .enter _ _ | .spawn _ => true
  | .broadcast _ | .leave _ | .move _ => false

/-- A job hands its packet to everybody in the room but its own session. -/
structure RoomWideSpec (job : Job) (room : Room) (socket : Nat) (isConnected : Bool)
    (o : Outcome) : Prop where
  others : ∀ a, a ≠ job.session → sentTo a o.effects =
    (job.roomWide room socket isConnected).elim [] (List.replicate (room.sessions.count a))
  self : ∀ packet ∈ sentTo job.session o.effects, packet.own = true

namespace Room

theorem roomWide_idle {job : Job} {room room' : Room} {socket : Nat} {isConnected : Bool}
    (h : job.roomWide room socket isConnected = none) :
    RoomWideSpec job room socket isConnected (.idle room') := by
  refine ⟨fun a _ => ?_, fun packet hpacket => ?_⟩
  · rw [h]
    rfl
  · contradiction

theorem enter_roomWide {mk : Nat → Bool} (hmade : ∀ n, mk n = true) (room : Room)
    (session socket : Nat) (isConnected : Bool) :
    RoomWideSpec ⟨.enter, session⟩ room socket isConnected
      (room.enter session socket isConnected mk) := by
  unfold enter
  split
  case isTrue hconnected =>
    apply roomWide_idle
    simp [Job.roomWide, hconnected]
  case isFalse hconnected =>
    split
    case h_1 hfull =>
      -- the room is full, and the session alone is told so
      have hnone : (⟨.enter, session⟩ : Job).roomWide room socket isConnected = none := by
        simp [Job.roomWide, hfull]
      rw [if_pos (hmade 0)]
      refine ⟨fun a ha => ?_, fun packet hpacket => ?_⟩
      · rw [hnone]
        exact sentTo_other ha.symm _ []
      · rw [Outcome.effects, List.nil_append, sentTo_self] at hpacket
        cases List.mem_singleton.mp hpacket
        rfl
    case h_2 seqID seqIDs hfree =>
      simp only [hmade, Bool.true_and]
      split
      case isTrue hinserted =>
        have habsent := OrderedMap.find_of_insert hinserted
        have hpacket : (⟨.enter, session⟩ : Job).roomWide room socket isConnected =
            some (.spawn ((DataList.empty : Server_Spawn ℚ).add
              (RoomUser.enter session 0 0 seqID).data).1) := by
          simp [Job.roomWide, hconnected, habsent, hfree]
        refine ⟨fun a ha => ?_, fun packet hsent => ?_⟩
        · rw [hpacket, Outcome.effects, List.nil_append]
          change sentTo a (.insertSendQueue session _ :: spawnUsers session _ mk _ .empty 2) = _
          rw [sentTo_other ha.symm, sentTo_spawnUsers ha, count_insert hinserted ha]
          rfl
        · rw [Outcome.effects, List.nil_append] at hsent
          change packet ∈ sentTo session
            (.insertSendQueue session _ :: spawnUsers session _ mk _ .empty 2) at hsent
          rw [sentTo_self] at hsent
          rcases List.mem_cons.mp hsent with rfl | hsent
          · rfl
          · obtain ⟨batch, rfl⟩ := sentTo_spawnUsers_self session _ mk _ 2 packet hsent
            rfl
      case isFalse hpresent =>
        apply roomWide_idle
        have hsome : (room.roomUser.find socket).isSome = true := by
          by_contra hnone
          exact hpresent (by simp [OrderedMap.insert, hnone])
        simp [Job.roomWide, hsome]

theorem leave_roomWide {mk : Nat → Bool} (hmade : ∀ n, mk n = true) (room : Room)
    (session socket : Nat) (isConnected : Bool) :
    RoomWideSpec ⟨.leave, session⟩ room socket isConnected
      (room.leave session socket isConnected mk) := by
  unfold leave
  split
  case isTrue hconnected =>
    apply roomWide_idle
    simp [Job.roomWide, hconnected]
  case isFalse hconnected =>
    dsimp only
    split
    case h_1 hfind =>
      refine ⟨fun a _ => ?_, fun packet hpacket => ?_⟩
      · simp [Job.roomWide, hfind, Outcome.effects, sentTo]
      · simp [Outcome.effects, sentTo] at hpacket
    case h_2 user hfind =>
      rw [if_pos (hmade 0)]
      have hsent (a : Nat) : sentTo a ([.disConnected session, .setRoomID session (-1)] ++
          room.sendOthers session (.leave user.seqID) ++ [.closeSession session]) =
          sentTo a (room.sendOthers session (.leave user.seqID)) := by
        simp [sentTo]
      refine ⟨fun a ha => ?_, fun packet hpacket => ?_⟩
      · rw [Outcome.effects, hsent, room.sentTo_sendOthers session _ ha]
        simp [Job.roomWide, hconnected, hfind]
      · rw [Outcome.effects, hsent, sentTo_sendOthers_self] at hpacket
        contradiction

theorem broadCast_roomWide {mk : Nat → Bool} (hmade : ∀ n, mk n = true) (room : Room)
    (session socket : Nat) (isConnected : Bool) (text : List Byte) :
    RoomWideSpec ⟨.broadcast text, session⟩ room socket isConnected
      (room.broadCast session text mk) := by
  rw [broadCast, if_pos (hmade 0)]
  refine ⟨fun a ha => ?_, fun packet hpacket => ?_⟩
  · exact room.sentTo_sendOthers session _ ha
  · rw [Outcome.effects, List.nil_append, sentTo_sendOthers_self] at hpacket
    contradiction

theorem move_roomWide (room : Room) (session socket : Nat) (isConnected : Bool)
    (posX posY : Coordinate) (nowTick : Nat) :
    RoomWideSpec ⟨.move posX posY, session⟩ room socket isConnected
      (room.move socket isConnected posX posY nowTick) := by
  unfold move
  split
  · split
    · exact roomWide_idle rfl
    · split
      · exact roomWide_idle rfl
      · dsimp only
        split <;> exact roomWide_idle rfl
  · exact roomWide_idle rfl

end Room

theorem dispatch_roomWide {mk : Nat → Bool} (hmade : ∀ n, mk n = true) (job : Job) (room : Room)
    (socket : Nat) (isConnected : Bool) (nowTick : Nat) :
    RoomWideSpec job room socket isConnected
      (job.dispatch room socket isConnected mk nowTick) := by
  obtain ⟨kind, session⟩ := job
  cases kind with
  | enter => exact room.enter_roomWide hmade session socket isConnected
  | leave => exact room.leave_roomWide hmade session socket isConnected
  | broadcast text => exact room.broadCast_roomWide hmade session socket isConnected text
  | move posX posY => exact room.move_roomWide session socket isConnected posX posY nowTick

end RoomServer
