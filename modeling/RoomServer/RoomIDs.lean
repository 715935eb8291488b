import RoomServer.RoomMembers

/-! Who has which object ID. A job moves IDs between the free queue and the members,
and only a leave whose notification could not be built keeps one back. -/
namespace RoomServer
open Library

namespace Room

def memberIDs (room : Room) : List Nat := room.roomUser.values.map RoomUser.seqID

def ids (room : Room) : List Nat := room.seqIDs ++ room.memberIDs

theorem ids_new (roomID : Int) : (Room.new roomID).ids = List.range MaxRoomUserCount := by
  simp [ids, Room.new, memberIDs, OrderedMap.values, OrderedMap.empty]

@[simp] theorem movePosition_seqID (user : RoomUser) (nowTick : Nat) :
    (movePosition user nowTick).seqID = user.seqID := by
  unfold movePosition
  dsimp only
  split
  · rfl
  · split
    · rfl
    · split
      · rfl
      · split <;> rfl

end Room

/-- The ID that a job does not give back. -/
def Job.withheld (job : Job) (room : Room) (socket : Nat) (isConnected : Bool)
    (mk : Nat → Bool) : List Nat :=
  match job.kind with
  | .leave =>
    if isConnected && !mk 0 then (room.roomUser.find socket).toList.map RoomUser.seqID else []
  | _ => []

namespace Room

theorem enter_ids (room : Room) (session socket : Nat) (isConnected : Bool) (mk : Nat → Bool) :
    (room.enter session socket isConnected mk).room.ids.Perm room.ids := by
  unfold enter
  split
  · exact .refl _
  · split
    case h_1 => exact .refl _
    case h_2 seqID seqIDs hfree =>
      dsimp only
      split
      case isTrue hmade =>
        have hinserted := (Bool.and_eq_true_iff.mp hmade).2
        have hmembers := (OrderedMap.values_insert hinserted).map RoomUser.seqID
        rw [List.map_cons] at hmembers
        rw [ids, ids, hfree]
        exact (hmembers.append_left seqIDs).trans List.perm_middle
      case isFalse =>
        rw [ids, ids, hfree]
        exact (List.perm_append_singleton seqID seqIDs).append_right _

theorem leave_ids (room : Room) (session socket : Nat) (isConnected : Bool) (mk : Nat → Bool) :
    ((room.leave session socket isConnected mk).room.ids ++
      Job.withheld ⟨.leave, session⟩ room socket isConnected mk).Perm room.ids := by
  unfold leave Job.withheld
  dsimp only
  cases isConnected with
  | false =>
    rw [if_pos rfl]
    exact .of_eq (List.append_nil _)
  | true =>
    rw [if_neg (by decide), Bool.true_and]
    cases hfind : room.roomUser.find socket with
    | none =>
      dsimp only
      split <;> exact .of_eq (List.append_nil _)
    | some user =>
      have hmembers := (OrderedMap.values_erase hfind).map RoomUser.seqID
      rw [List.map_cons] at hmembers
      dsimp only
      cases mk 0 with
      | true =>
        -- the ID goes back
        rw [if_pos rfl, if_neg (by decide), List.append_nil, ids, ids, List.append_assoc]
        exact (hmembers.append_left room.seqIDs).symm
      | false =>
        rw [if_neg (by decide), if_pos (by decide), ids, ids, List.append_assoc]
        apply List.Perm.append_left
        exact (List.perm_append_singleton user.seqID _).trans hmembers.symm

theorem memberIDs_set {room : Room} {socket : Nat} {user user' : RoomUser}
    (hfind : room.roomUser.find socket = some user) (hsame : user'.seqID = user.seqID) :
    ({ room with roomUser := room.roomUser.set socket user' } : Room).memberIDs =
      room.memberIDs :=
  OrderedMap.map_values_set hfind hsame

theorem move_ids (room : Room) (socket : Nat) (isConnected : Bool) (posX posY : Coordinate)
    (nowTick : Nat) : (room.move socket isConnected posX posY nowTick).room.ids = room.ids := by
  unfold move
  split
  case h_1 =>
    split
    · rfl
    · split
      case h_1 => rfl
      case h_2 user hfind =>
        have hsame := movePosition_seqID user nowTick
        dsimp only
        split
        · exact congrArg (room.seqIDs ++ ·) (memberIDs_set hfind hsame)
        · exact congrArg (room.seqIDs ++ ·) (memberIDs_set hfind hsame)
  case h_2 => rfl

theorem moveCheckUsers_ids (room : Room) (nowTick : Nat) (mk : Nat → Bool) :
    (room.moveCheckUsers nowTick mk).room.ids = room.ids := by
  apply congrArg (room.seqIDs ++ ·)
  exact OrderedMap.map_values_mapValues (fun _ user => movePosition_seqID user nowTick) _

theorem tick_ids (room : Room) (nowTick : Nat) (mk : Nat → Bool) :
    (room.tick nowTick mk).room.ids = room.ids := by
  unfold tick
  split
  · exact moveCheckUsers_ids { room with lastTick := nowTick } nowTick mk
  · rfl

end Room

theorem dispatch_ids (job : Job) (room : Room) (socket : Nat) (isConnected : Bool)
    (mk : Nat → Bool) (nowTick : Nat) :
    ((job.dispatch room socket isConnected mk nowTick).room.ids ++
      job.withheld room socket isConnected mk).Perm room.ids := by
  obtain ⟨kind, session⟩ := job
  cases kind with
  | enter =>
    exact (List.Perm.of_eq (List.append_nil _)).trans
      (room.enter_ids session socket isConnected mk)
  | leave => exact room.leave_ids session socket isConnected mk
  | broadcast text => exact .of_eq (List.append_nil _)
  | move posX posY =>
    exact .of_eq ((List.append_nil _).trans (room.move_ids socket isConnected posX posY nowTick))

/-! ### Over every sequence of jobs -/

/-- One turn of the room thread. The session's socket and flag, what `MakeSendPacket`
answers and the clock are whatever the rest of the server makes them. -/
inductive RoomAct where
  | job (job : Job) (socket : Nat) (isConnected : Bool) (mk : Nat → Bool) (nowTick : Nat)
  | tick (nowTick : Nat) (mk : Nat → Bool)

structure Allocation where
  room : Room
  withheld : List Nat

namespace Allocation

def new (roomID : Int) : Allocation := ⟨.new roomID, []⟩

def step (st : Allocation) : RoomAct → Allocation
  | .job job socket isConnected made nowTick =>
    ⟨(job.dispatch st.room socket isConnected made nowTick).room,
      job.withheld st.room socket isConnected made ++ st.withheld⟩
  | .tick nowTick made => ⟨(st.room.tick nowTick made).room, st.withheld⟩

def ids (st : Allocation) : List Nat := st.room.ids ++ st.withheld

theorem step_ids (st : Allocation) (act : RoomAct) : (st.step act).ids.Perm st.ids := by
  cases act with
  | job job socket isConnected made nowTick =>
    have h := dispatch_ids job st.room socket isConnected made nowTick
    rw [ids, step, ← List.append_assoc]
    exact h.append_right st.withheld
  | tick nowTick made => exact .of_eq (congrArg (· ++ st.withheld) (st.room.tick_ids nowTick made))

theorem run_ids (acts : List RoomAct) (st : Allocation) : (acts.foldl step st).ids.Perm st.ids := by
  induction acts generalizing st with
  | nil => exact .refl _
  | cons act rest ih => exact (ih (st.step act)).trans (st.step_ids act)

end Allocation

theorem Allocation.ids_run (roomID : Int) (acts : List RoomAct) :
    (acts.foldl Allocation.step (.new roomID)).ids.Perm (List.range MaxRoomUserCount) := by
  have hstart : (Allocation.new roomID).ids = List.range MaxRoomUserCount := by
    rw [Allocation.ids, Allocation.new, Room.ids_new, List.append_nil]
  rw [← hstart]
  exact Allocation.run_ids acts _

/-- After every sequence of jobs and ticks the IDs are where they were, each once:
free, a member's, or withheld. -/
theorem ids_partition (roomID : Int) (acts : List RoomAct) :
    let st := acts.foldl Allocation.step (.new roomID)
    st.room.seqIDs.Nodup ∧ st.room.memberIDs.Nodup ∧
      List.Disjoint st.room.memberIDs st.room.seqIDs ∧
      (st.room.seqIDs ++ st.room.memberIDs ++ st.withheld).Perm (List.range MaxRoomUserCount) ∧
      st.room.roomUser.entries.length ≤ MaxRoomUserCount := by
  intro st
  have hperm : st.ids.Perm (List.range MaxRoomUserCount) := Allocation.ids_run roomID acts
  have hnodup : st.ids.Nodup := hperm.nodup_iff.mpr List.nodup_range
  obtain ⟨hknown, _, _⟩ := List.nodup_append'.mp hnodup
  obtain ⟨hfree, hmembers, hdisjoint⟩ := List.nodup_append'.mp hknown
  refine ⟨hfree, hmembers, fun _ hmember hid => hdisjoint hid hmember, hperm, ?_⟩
  have hlength := hperm.length_eq
  simp only [Allocation.ids, Room.ids, Room.memberIDs, OrderedMap.values, List.length_append,
    List.length_map, List.length_range] at hlength
  omega

end RoomServer
