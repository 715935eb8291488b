import RoomServer.RoomIDs

/-! In which order a room hands its object IDs out: `m_seqIDs` is a queue, so that an ID that is
given back waits for all that were free before it. -/
namespace RoomServer
open Library

def Job.takes (job : Job) (room : Room) (isConnected : Bool) : List Nat :=
  match job.kind with
  | .enter => if isConnected then [] else room.seqIDs.take 1
  | _ => []

/-- The ID that is put at its end: the one a leave gives back, or the one of an `Enter` that
does not let the session in. -/
def Job.gives (job : Job) (room : Room) (socket : Nat) (isConnected : Bool) (mk : Nat → Bool) :
    List Nat :=
  match job.kind with
  | .enter =>
    if isConnected || mk 0 && mk 1 && (room.roomUser.find socket).isNone then []
    else room.seqIDs.take 1
  | .leave =>
    if isConnected && mk 0 then (room.roomUser.find socket).toList.map RoomUser.seqID else []
  | _ => []

namespace Room

theorem enter_turns (room : Room) (session socket : Nat) (isConnected : Bool) (mk : Nat → Bool) :
    Job.takes ⟨.enter, session⟩ room isConnected ++
        (room.enter session socket isConnected mk).room.seqIDs =
      room.seqIDs ++ Job.gives ⟨.enter, session⟩ room socket isConnected mk := by
  unfold enter Job.takes Job.gives
  dsimp only
  cases isConnected with
  | true => simp [Outcome.idle]
  | false =>
    simp only [Bool.false_eq_true, if_false, Bool.false_or]
    split
    case h_1 hfull => simp [hfull]
    case h_2 seqID seqIDs hfree =>
      rw [hfree]
      simp only [OrderedMap.insert_new]
      split <;> simp_all [Outcome.idle]

theorem leave_turns (room : Room) (session socket : Nat) (isConnected : Bool) (mk : Nat → Bool) :
    (room.leave session socket isConnected mk).room.seqIDs =
      room.seqIDs ++ Job.gives ⟨.leave, session⟩ room socket isConnected mk := by
  unfold leave Job.gives
  dsimp only
  cases isConnected with
  | false => simp [Outcome.idle]
  | true =>
    rw [if_neg (by decide), Bool.true_and]
    cases hfind : room.roomUser.find socket with
    | none => simp
    | some user => cases hmade : mk 0 <;> simp

theorem move_seqIDs (room : Room) (socket : Nat) (isConnected : Bool) (posX posY : Coordinate)
    (nowTick : Nat) :
    (room.move socket isConnected posX posY nowTick).room.seqIDs = room.seqIDs := by
  unfold move
  split
  case h_2 => rfl
  case h_1 =>
    split
    · rfl
    · split
      · rfl
      · dsimp only
        split <;> rfl

theorem tick_seqIDs (room : Room) (nowTick : Nat) (mk : Nat → Bool) :
    (room.tick nowTick mk).room.seqIDs = room.seqIDs := by
  unfold tick
  split <;> rfl

end Room

/-- What is taken from the front and what is put at the end, by any job. -/
theorem dispatch_turns (job : Job) (room : Room) (socket : Nat) (isConnected : Bool)
    (mk : Nat → Bool) (nowTick : Nat) :
    job.takes room isConnected ++
        (job.dispatch room socket isConnected mk nowTick).room.seqIDs =
      room.seqIDs ++ job.gives room socket isConnected mk := by
  obtain ⟨kind, session⟩ := job
  cases kind with
  | enter => exact room.enter_turns session socket isConnected mk
  | leave => exact room.leave_turns session socket isConnected mk
  | broadcast text => exact (List.append_nil _).symm
  | move posX posY =>
    exact (room.move_seqIDs socket isConnected posX posY nowTick).trans (List.append_nil _).symm

namespace RoomAct

def takes (room : Room) : RoomAct → List Nat
  | .job asked _ isConnected _ _ => asked.takes room isConnected
  | .tick _ _ => []

def gives (room : Room) : RoomAct → List Nat
  | .job asked socket isConnected made _ => asked.gives room socket isConnected made
  | .tick _ _ => []

def isEnter : RoomAct → Bool
  | .job ⟨.enter, _⟩ _ _ _ _ => true
  | .job _ _ _ _ _ | .tick _ _ => false

theorem length_takes (room : Room) (act : RoomAct) :
    (act.takes room).length ≤ if act.isEnter then 1 else 0 := by
  cases act with
  | tick nowTick mk => exact Nat.zero_le _
  | job asked socket isConnected mk nowTick =>
    obtain ⟨kind, session⟩ := asked
    cases kind with
    | enter =>
      rw [takes, Job.takes, isEnter, if_pos rfl]
      dsimp only
      split
      · exact Nat.zero_le _
      · exact List.length_take_le _ _
    | leave => exact Nat.zero_le _
    | broadcast text => exact Nat.zero_le _
    | move posX posY => exact Nat.zero_le _

end RoomAct

namespace Allocation

def taken (st : Allocation) : List RoomAct → List Nat
  | [] => []
  | act :: acts => act.takes st.room ++ (st.step act).taken acts

def given (st : Allocation) : List RoomAct → List Nat
  | [] => []
  | act :: acts => act.gives st.room ++ (st.step act).given acts

theorem step_turns (st : Allocation) (act : RoomAct) :
    act.takes st.room ++ (st.step act).room.seqIDs = st.room.seqIDs ++ act.gives st.room := by
  cases act with
  | job job socket isConnected mk nowTick =>
    exact dispatch_turns job st.room socket isConnected mk nowTick
  | tick nowTick mk => exact (st.room.tick_seqIDs nowTick mk).trans (List.append_nil _).symm

/-- A run takes what was free, and then what it has given back itself, in this order. -/
theorem run_turns (acts : List RoomAct) (st : Allocation) :
    st.taken acts ++ (acts.foldl step st).room.seqIDs = st.room.seqIDs ++ st.given acts := by
  induction acts generalizing st with
  | nil => exact (List.append_nil _).symm
  | cons act acts ih =>
    calc st.taken (act :: acts) ++ ((act :: acts).foldl step st).room.seqIDs
      _ = act.takes st.room ++
            ((st.step act).taken acts ++ (acts.foldl step (st.step act)).room.seqIDs) :=
          List.append_assoc _ _ _
      _ = (act.takes st.room ++ (st.step act).room.seqIDs) ++ (st.step act).given acts := by
        rw [ih, List.append_assoc]
      _ = st.room.seqIDs ++ st.given (act :: acts) := by
        rw [step_turns, List.append_assoc]
        rfl

theorem length_taken (acts : List RoomAct) (st : Allocation) :
    (st.taken acts).length ≤ acts.countP RoomAct.isEnter := by
  induction acts generalizing st with
  | nil => exact Nat.le_refl 0
  | cons act acts ih =>
    rw [taken, List.length_append, List.countP_cons, Nat.add_comm]
    exact Nat.add_le_add (ih _) (act.length_takes st.room)

end Allocation

/-- What comes after `free` and `x` in a queue is not taken before them. -/
theorem taken_first {free taken queue put : List Nat} {x : Nat}
    (h : taken ++ queue = (free ++ [x]) ++ put) (hgone : x ∉ queue) :
    free ++ [x] <+: taken := by
  have hinitial : free ++ [x] <+: taken ++ queue := h ▸ List.prefix_append _ _
  rcases List.prefix_or_prefix_of_prefix hinitial (List.prefix_append taken queue) with
    hinside | ⟨left, hleft⟩
  · exact hinside
  · -- Had less been taken, `x` would be the last of what is left.
    rcases List.eq_nil_or_concat' left with rfl | ⟨most, last, rfl⟩
    · exact ⟨[], by rw [List.append_nil, ← hleft, List.append_nil]⟩
    · rw [← List.append_assoc] at hleft
      have hlast : last = x := (List.append_inj' hleft rfl).2 |> List.singleton_inj.mp
      rw [← hleft, List.append_assoc, List.append_assoc, List.append_cancel_left_eq] at h
      rw [h, hlast] at hgone
      exact absurd (List.mem_append_right _ List.mem_cons_self) hgone

/-- An ID that was given back last is not in use again before all that were free then have been
taken, in their order; that takes as many ENTERs as there were IDs neither in use nor withheld. -/
theorem id_in_turn {roomID : Int} {before after : List RoomAct} {left : Allocation}
    {free : List Nat} {x : Nat} (hleft : before.foldl Allocation.step (.new roomID) = left)
    (hgiven : left.room.seqIDs = free ++ [x])
    (hgone : x ∉ (after.foldl Allocation.step left).room.seqIDs) :
    free ++ [x] <+: left.taken after ∧
      MaxRoomUserCount ≤
        left.room.memberIDs.length + left.withheld.length + after.countP RoomAct.isEnter := by
  have hturns := left.run_turns after
  rw [hgiven] at hturns
  have hfirst := taken_first hturns hgone
  refine ⟨hfirst, ?_⟩
  have hperm := Allocation.ids_run roomID before
  rw [Allocation.ids, Room.ids, hleft] at hperm
  have htotal := hperm.length_eq
  have hlong := hfirst.length_le
  have henters := left.length_taken after
  simp only [hgiven, List.length_append, List.length_singleton, List.length_range] at htotal hlong
  omega

def comeAndGo (mk : Nat → Bool) : List RoomAct :=
  [.job ⟨.enter, 0⟩ 7 false (fun _ => true) 0, .job ⟨.leave, 0⟩ 7 true mk 0]

theorem comeAndGo_drains (roomID : Int) (lastTick : Nat) (ids withheld : List Nat) :
    (List.replicate ids.length (comeAndGo fun _ => false)).flatten.foldl Allocation.step
        ⟨⟨.empty, roomID, ids, lastTick⟩, withheld⟩ =
      ⟨⟨.empty, roomID, [], lastTick⟩, ids.reverse ++ withheld⟩ := by
  induction ids generalizing withheld with
  | nil => rfl
  | cons id ids ih =>
    have hone : (comeAndGo fun _ => false).foldl Allocation.step
        ⟨⟨.empty, roomID, id :: ids, lastTick⟩, withheld⟩ =
          ⟨⟨.empty, roomID, ids, lastTick⟩, id :: withheld⟩ := rfl
    rw [List.length_cons, List.replicate_succ, List.flatten_cons, List.foldl_append, hone, ih,
      List.reverse_cons, List.append_assoc]
    rfl

/-- ID 0 is given back once, and then every ID is lost. -/
theorem id_in_turn_drained : ∃ (left : Allocation) (after : List RoomAct),
    (comeAndGo fun _ => true).foldl Allocation.step (.new 0) = left ∧
      List.range' 1 999 ++ [0] <+: left.taken after ∧
      MaxRoomUserCount ≤ after.countP RoomAct.isEnter := by
  have hback (id : Nat) (ids : List Nat) : (comeAndGo fun _ => true).foldl Allocation.step
      ⟨⟨.empty, 0, id :: ids, 0⟩, []⟩ = ⟨⟨.empty, 0, ids ++ [id], 0⟩, []⟩ := rfl
  have hrange : List.range MaxRoomUserCount = 0 :: List.range' 1 999 :=
    List.range_eq_range'.trans List.range'_succ
  have hleft : (comeAndGo fun _ => true).foldl Allocation.step (.new 0) =
      ⟨⟨.empty, 0, List.range' 1 999 ++ [0], 0⟩, []⟩ := by
    rw [Allocation.new, Room.new, hrange]
    exact hback 0 (List.range' 1 999)
  generalize List.range' 1 999 = free at hleft ⊢
  have hlost := comeAndGo_drains 0 0 (free ++ [0]) []
  obtain ⟨htaken, henters⟩ := id_in_turn hleft rfl (by rw [hlost]; exact List.not_mem_nil)
  refine ⟨_, _, hleft, htaken, ?_⟩
  have hnobody (ids : List Nat) : (Room.mk .empty 0 ids 0).memberIDs.length = 0 := rfl
  rwa [hnobody, List.length_nil, Nat.zero_add] at henters

end RoomServer
