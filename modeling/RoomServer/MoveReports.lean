import RoomServer.Movement
import RoomServer.RoomWide
import RoomServer.Wire

/-! What one `MoveCheckUsers` tells the room: who is named in its MOVE packets, where, in
how many packets, and what is different in the room afterwards. -/
namespace RoomServer
open Library

def DataList.mapCoordinates (float : ι → κ) (list : DataList ι limit) : DataList κ limit :=
  ⟨list.data.map fun data => ⟨data.seqID, float data.posX, float data.posY⟩,
    (List.length_map _).trans_le list.bounded⟩

@[simp] theorem DataList.count_mapCoordinates (float : ι → κ) (list : DataList ι limit) :
    (list.mapCoordinates float).count = list.count := List.length_map _

/-- `GetSize` covers the count and the entries, all of them and nothing else. -/
structure DataList.SizeFits (list : DataList UInt32 limit) : Prop where
  size : list.getSize = 4 + SpawnData.size * list.count
  inStruct : list.getSize ≤ list.image.length
  body : list.image.take list.getSize = intBytes list.count ++ list.data.flatMap SpawnData.bytes

theorem DataList.sizeFits (list : DataList UInt32 limit) : list.SizeFits where
  size := rfl
  inStruct := list.length_image.symm ▸ list.getSize_le
  body := list.take_image

namespace Room

/-! ### The packets -/

theorem data_add_empty (data : SpawnData ℚ) :
    ((DataList.empty : Server_Move_Ack ℚ).add data).1.data = [data] := rfl

theorem full_of_refused {packet : Server_Move_Ack ℚ} {data : SpawnData ℚ}
    (h : ¬(packet.add data).2 = true) : packet.count = MaxSendMoveCount := by
  have hbounded : packet.count ≤ MaxSendMoveCount := packet.bounded
  unfold DataList.add at h
  split at h
  case isTrue => exact absurd rfl h
  case isFalse hfull => omega

theorem moveBatches_count (nowTick : Nat) (rest : List RoomUser) (packet : Server_Move_Ack ℚ) :
    ∀ batch ∈ moveBatches nowTick rest packet, 0 < batch.count := by
  induction rest generalizing packet with
  | nil =>
    rw [moveBatches]
    split
    case isTrue hpos =>
      intro batch hbatch
      rw [List.mem_singleton.mp hbatch]
      exact hpos
    case isFalse => exact fun batch hbatch => absurd hbatch List.not_mem_nil
  | cons user rest ih =>
    rw [moveBatches]
    dsimp only
    split
    case isTrue => exact ih packet
    case isFalse =>
      split
      case isTrue => exact ih _
      case isFalse hrefused =>
        intro batch hbatch
        rcases List.mem_cons.mp hbatch with rfl | hbatch
        · rw [full_of_refused hrefused]
          decide
        · exact ih _ batch hbatch

/-- Whatever `packet` already holds, the movers come after it, each once: the user that
finds it full begins the next batch. -/
theorem moveBatches_data (nowTick : Nat) (rest : List RoomUser) (packet : Server_Move_Ack ℚ) :
    (moveBatches nowTick rest packet).flatMap DataList.data = packet.data ++
      (rest.filter RoomUser.isMove).map fun user => (movePosition user nowTick).data := by
  induction rest generalizing packet with
  | nil =>
    rw [moveBatches, List.filter_nil, List.map_nil, List.append_nil]
    split
    case isTrue => exact List.append_nil _
    case isFalse hempty => exact (data_empty hempty).symm
  | cons user rest ih =>
    rw [moveBatches]
    dsimp only
    split
    case isTrue hrest =>
      rw [List.filter_cons_of_neg (by rw [hrest]; decide)]
      exact ih packet
    case isFalse hmoves =>
      rw [List.filter_cons_of_pos (by simpa using hmoves), List.map_cons]
      split
      case isTrue hadded =>
        rw [ih, data_add hadded, List.append_assoc]
        rfl
      case isFalse =>
        rw [List.flatMap_cons, ih, data_add_empty]
        rfl

theorem sentTo_moves {users : List RoomUser} {a : Nat}
    (hmember : (users.map RoomUser.session).count a = 1) (packets : List (Server_Move_Ack ℚ)) :
    sentTo a (packets.flatMap fun packet =>
      users.map fun user => .insertSendQueue user.session (.move packet)) =
        packets.map .move := by
  induction packets with
  | nil => rfl
  | cons packet packets ih =>
    rw [List.flatMap_cons, sentTo_append, ih, sentTo_map, hmember]
    rfl

/-! ### The room afterwards -/

/-- `after` is `user` but for what `MovePosition` writes. -/
def SameButMovement (user after : RoomUser) : Prop :=
  after = { user with
    posX := after.posX, posY := after.posY
    startMoveTick := after.startMoveTick, isMove := after.isMove }

theorem movePosition_sameButMovement (user : RoomUser) (nowTick : Nat) :
    SameButMovement user (movePosition user nowTick) := by
  unfold SameButMovement movePosition
  dsimp only
  (repeat' split) <;> rfl

structure PositionAt (user : RoomUser) (nowTick : Nat) (data : MoveData ℚ) : Prop where
  seqID : data.seqID = user.seqID
  arrived : user.endMoveTick ≤ nowTick → data.posX = user.destPosX ∧ data.posY = user.destPosY
  underway : user.startMoveTick ≤ nowTick → nowTick < user.endMoveTick →
    user.endMoveTick < 2 ^ 64 →
      data.posX = user.posX + (user.destPosX - user.posX) *
          (((nowTick : ℚ) - user.startMoveTick) / ((user.endMoveTick : ℚ) - user.startMoveTick)) ∧
        data.posY = user.posY + (user.destPosY - user.posY) *
          (((nowTick : ℚ) - user.startMoveTick) / ((user.endMoveTick : ℚ) - user.startMoveTick))

theorem movePosition_positionAt {user : RoomUser} (hmove : user.isMove = true) (nowTick : Nat) :
    PositionAt user nowTick (movePosition user nowTick).data where
  seqID := movePosition_seqID user nowTick
  arrived hend := by
    rw [movePosition_arrived hmove hend]
    exact ⟨rfl, rfl⟩
  underway hstart hend hfits := by
    rw [movePosition_onWay hmove hstart hend (by omega), Nat.cast_sub hstart,
      Nat.cast_sub (hstart.trans hend.le)]
    exact ⟨rfl, rfl⟩

/-- `packets` tell everybody in `room` who was moving and where, and `o` is that and the
movement of those who were. -/
structure Reported (room : Room) (nowTick : Nat) (packets : List (Server_Move_Ack ℚ))
    (o : Outcome) : Prop where
  effects : o.effects = packets.flatMap fun packet =>
    room.roomUser.values.map fun user => .insertSendQueue user.session (.move packet)
  received : ∀ a, room.sessions.count a = 1 → sentTo a o.effects = packets.map .move
  counts : ∀ packet ∈ packets, 1 ≤ packet.count ∧ packet.count ≤ 100
  sizes : ∀ packet ∈ packets, ∀ float : ℚ → UInt32, (packet.mapCoordinates float).SizeFits
  entries : packets.flatMap DataList.data =
    (room.roomUser.values.filter RoomUser.isMove).map fun user => (movePosition user nowTick).data
  positions : List.Forall₂ (fun user data => PositionAt user nowTick data)
    (room.roomUser.values.filter RoomUser.isMove) (packets.flatMap DataList.data)
  sockets : o.room.roomUser.entries.map Prod.fst = room.roomUser.entries.map Prod.fst
  users : ∀ socket user, room.roomUser.find socket = some user →
    ∃ after, o.room.roomUser.find socket = some after ∧ SameButMovement user after ∧
      (user.isMove = false → after = user)
  others : o.room.roomID = room.roomID ∧ o.room.seqIDs = room.seqIDs ∧
    o.room.lastTick = room.lastTick

/-- Every mover is reported once to everybody, in whatever state the room is. -/
theorem moveCheckUsers_reported {mk : Nat → Bool} (hmade : ∀ n, mk n = true) (room : Room)
    (nowTick : Nat) :
    ∃ packets, room.Reported nowTick packets (room.moveCheckUsers nowTick mk) := by
  have heffects : (room.moveCheckUsers nowTick mk).effects =
      (moveBatches nowTick room.roomUser.values .empty).flatMap fun packet =>
        room.roomUser.values.map fun user => .insertSendQueue user.session (.move packet) := by
    rw [← moveUsers_moveBatches hmade]
    rfl
  have hentries := moveBatches_data nowTick room.roomUser.values .empty
  rw [show (DataList.empty : Server_Move_Ack ℚ).data = [] from rfl, List.nil_append] at hentries
  refine ⟨_, heffects, ?_, ?_, ?_, hentries, ?_, ?_, ?_, rfl, rfl, rfl⟩
  · intro a ha
    rw [heffects]
    exact sentTo_moves ha _
  · intro packet hpacket
    exact ⟨moveBatches_count nowTick _ _ packet hpacket, packet.bounded⟩
  · intro packet _ float
    exact (packet.mapCoordinates float).sizeFits
  · rw [hentries, List.forall₂_map_right_iff, List.forall₂_same]
    intro user huser
    exact movePosition_positionAt (List.mem_filter.mp huser).2 nowTick
  · simp [moveCheckUsers, OrderedMap.mapValues]
  · intro socket user hfind
    refine ⟨movePosition user nowTick, ?_, movePosition_sameButMovement user nowTick, ?_⟩
    · change (room.roomUser.mapValues fun _ user => movePosition user nowTick).find socket = _
      rw [OrderedMap.find_mapValues, hfind]
      rfl
    · intro hrest
      exact movePosition_rest hrest nowTick

end Room

/-- Three users: one that arrives, one at rest, and one on its way. -/
def threeUsers : Room where
  roomUser := ⟨[(5, ⟨0, 0, 0, 0, true, 2, 0, 100, 600⟩), (6, ⟨1, 3, 3, 1, false, 0, 0, 0, 0⟩),
    (7, ⟨2, 0, 0, 2, true, 8, 0, 100, 1100⟩)], by decide⟩
  roomID := 0
  seqIDs := []
  lastTick := 0

/-- The first is at its destination, the third half of the way. -/
theorem moveCheckUsers_reported_three :
    ∃ packets, packets.flatMap DataList.data = [⟨0, 2, 0⟩, ⟨2, 4, 0⟩] ∧
      threeUsers.Reported 600 packets (threeUsers.moveCheckUsers 600 fun _ => true) := by
  obtain ⟨packets, hreported⟩ :=
    @Room.moveCheckUsers_reported (fun _ => true) (fun _ => rfl) threeUsers 600
  refine ⟨packets, ?_, hreported⟩
  rw [hreported.entries]
  decide +kernel

end RoomServer
