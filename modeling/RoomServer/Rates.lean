import Mathlib.Data.List.Perm.Subperm
import RoomServer.Library.Pacing
import RoomServer.LoadTestRoom
import RoomServer.Trajectory

/-! How often things happen at most: the ticks of a room, with the MOVE packets they make, and
the turns of a connection of the room load test. -/
namespace RoomServer
open Library Library.Pacing Library.Transition

/-! ### MOVE packets -/

def ServerPacket.isMove : ServerPacket ι → Bool
  | .move _ => true
  | _ => false

def Effect.isMove : Effect → Bool
  | .insertSendQueue _ sendChunk => sendChunk.isMove
  | _ => false

@[simp] theorem isMove_send (session : Nat) (sendChunk : ServerPacket ℚ) :
    Effect.isMove (.insertSendQueue session sendChunk) = sendChunk.isMove := rfl

@[simp] theorem isMove_spawn (packet : Server_Spawn ℚ) :
    (ServerPacket.spawn packet).isMove = false := rfl

def movesTo (socketOf : Nat → Nat) (a : Nat) (st : OneRoom) : List OneRoomAct → Nat
  | [] => 0
  | act :: acts =>
    (sentTo a (st.outcome socketOf act).effects).countP ServerPacket.isMove +
      movesTo socketOf a (st.finish (st.outcome socketOf act) act.nowTick) acts

/-- `StartJob` calls `MoveCheckUsers` when its test says so. -/
def OneRoomAct.Scheduled : OneRoomAct → Prop
  | .job _ _ _ | .tick _ _ => True
  | .moveCheckUsers _ _ => False

theorem countP_sentTo (a : Nat) (effects : List Effect) :
    (sentTo a effects).countP ServerPacket.isMove ≤ effects.countP Effect.isMove := by
  induction effects with
  | nil => exact Nat.le_refl 0
  | cons e effects ih =>
    cases e with
    | insertSendQueue session sendChunk =>
      rw [List.countP_cons]
      by_cases hs : session = a
      · subst hs
        rw [sentTo_self, List.countP_cons]
        exact Nat.add_le_add_right ih _
      · rw [sentTo_other hs]
        exact ih.trans (Nat.le_add_right _ _)
    | connect session => exact ih
    | disConnected session => exact ih
    | setRoomID session roomID => exact ih
    | closeSession session => exact ih

theorem spawnUsers_moves (session : Nat) {sendBroadCast : ServerPacket ℚ}
    (hspawn : sendBroadCast.isMove = false) (mk : Nat → Bool) (users : List RoomUser)
    (enterSpawn : Server_Spawn ℚ) (calls : Nat) :
    (Room.spawnUsers session sendBroadCast mk users enterSpawn calls).countP Effect.isMove = 0 := by
  induction users generalizing enterSpawn calls with
  | nil =>
    rw [Room.spawnUsers]
    split_ifs <;> rfl
  | cons user users ih =>
    rw [Room.spawnUsers]
    split_ifs <;> simp only [List.countP_cons, isMove_send, isMove_spawn, hspawn, ih,
      Bool.false_eq_true, if_false]

/-- A job makes no MOVE packet, not even that of a MOVE request. -/
theorem dispatch_moves (job : Job) (room : Room) (socket : Nat) (isConnected : Bool)
    (mk : Nat → Bool) (nowTick : Nat) :
    (job.dispatch room socket isConnected mk nowTick).effects.countP Effect.isMove = 0 := by
  have hothers (session : Nat) {sendChunk : ServerPacket ℚ} (h : sendChunk.isMove = false) :
      (room.sendOthers session sendChunk).countP Effect.isMove = 0 := by
    rw [Room.sendOthers, List.countP_map, List.countP_eq_zero]
    exact fun user _ => by simp [h]
  obtain ⟨kind, session⟩ := job
  cases kind with
  | enter =>
    change (room.enter session socket isConnected mk).effects.countP Effect.isMove = 0
    unfold Room.enter
    split
    · rfl
    · split
      · split <;> rfl
      · dsimp only
        split
        · exact spawnUsers_moves session rfl mk _ _ 2
        · rfl
  | leave =>
    change (room.leave session socket isConnected mk).effects.countP Effect.isMove = 0
    unfold Room.leave
    split
    · rfl
    · dsimp only
      split
      case h_1 => rfl
      case h_2 user hfind =>
        split
        · have hnone : (room.sendOthers session (.leave user.seqID)).countP Effect.isMove = 0 :=
            hothers session rfl
          rw [Outcome.effects, List.countP_append, List.countP_append, hnone]
          rfl
        · rfl
  | broadcast text =>
    change (room.broadCast session text mk).effects.countP Effect.isMove = 0
    unfold Room.broadCast
    split
    · exact hothers session rfl
    · rfl
  | move posX posY =>
    change (room.move socket isConnected posX posY nowTick).effects.countP Effect.isMove = 0
    unfold Room.move
    repeat' split
    all_goals try rfl
    all_goals dsimp only; split <;> rfl

/-- A tick makes a packet of every hundred users that move, and one of those left over; each
goes to the session once. -/
theorem moveUsers_moves {users : List RoomUser} {a : Nat}
    (honce : (users.map RoomUser.session).count a ≤ 1) (nowTick : Nat) (mk : Nat → Bool)
    (rest : List RoomUser) (packet : Server_Move_Ack ℚ) (calls : Nat) :
    100 * (sentTo a (Room.moveUsers users nowTick mk rest packet calls)).countP
        ServerPacket.isMove ≤ packet.count + rest.length + 99 := by
  have hsend (packet : Server_Move_Ack ℚ) (made : Bool) :
      (sentTo a (Room.sendMoveData users packet made)).countP ServerPacket.isMove ≤ 1 := by
    unfold Room.sendMoveData
    split
    · rw [sentTo_map, List.countP_replicate]
      split
      · exact honce
      · exact Nat.zero_le 1
    · exact Nat.zero_le 1
  induction rest generalizing packet calls with
  | nil =>
    rw [Room.moveUsers]
    split
    · have hone := hsend packet (mk calls)
      omega
    · simp
  | cons user rest ih =>
    rw [Room.moveUsers, List.length_cons]
    dsimp only
    split
    · have hrest := ih packet calls
      omega
    · split
      case isTrue hadded =>
        have hrest := ih (packet.add (Room.movePosition user nowTick).data).1 calls
        have hcount : (packet.add (Room.movePosition user nowTick).data).1.count =
            packet.count + 1 := by
          rw [DataList.count, Room.data_add hadded, List.length_append]
          rfl
        omega
      case isFalse hrefused =>
        have hrest := ih ((DataList.empty : Server_Move_Ack ℚ).add
          (Room.movePosition user nowTick).data).1 (calls + 1)
        have hfull : packet.count = 100 := Room.full_of_refused hrefused
        have hone := hsend packet (mk calls)
        have hfirst : ((DataList.empty : Server_Move_Ack ℚ).add
            (Room.movePosition user nowTick).data).1.count = 1 := rfl
        rw [sentTo_append, List.countP_append]
        omega

theorem dispatch_lastTick (job : Job) (room : Room) (socket : Nat) (isConnected : Bool)
    (mk : Nat → Bool) (nowTick : Nat) :
    (job.dispatch room socket isConnected mk nowTick).room.lastTick = room.lastTick := by
  unfold Job.dispatch Room.enter Room.leave Room.broadCast Room.move
  dsimp only [Outcome.idle]
  repeat' split
  all_goals rfl

section Rate
variable {socketOf : Nat → Nat} {roomID : Int} {st : OneRoom} {act : OneRoomAct} {a : Nat}

theorem ids_lt_reaches (h : Reaches (oneRoomStep socketOf) always (.new roomID) st) :
    ∀ id ∈ st.room.ids, id < MaxRoomUserCount := by
  have hstart : ∀ id ∈ (OneRoom.new roomID).room.ids, id < MaxRoomUserCount := by
    intro id hid
    rw [OneRoom.new, Room.ids_new] at hid
    exact List.mem_range.mp hid
  apply h.invariant hstart
  intro st act st' _ hinv _ hstep id hid
  cases hstep
  cases act with
  | job job made nowTick =>
    have hperm := dispatch_ids job st.room (socketOf job.session) (st.connected job.session) made
      nowTick
    exact hinv id (hperm.mem_iff.mp (List.mem_append_left _ hid))
  | tick nowTick made => exact hinv id (st.room.tick_ids nowTick made ▸ hid)
  | moveCheckUsers nowTick made => exact hinv id (st.room.moveCheckUsers_ids nowTick made ▸ hid)

theorem length_users (h : Reaches (oneRoomStep socketOf) always (.new roomID) st) :
    st.room.roomUser.values.length ≤ MaxRoomUserCount := by
  have hnodup : st.room.memberIDs.Nodup := (List.nodup_append.mp (viewInv_reaches h).ids).2.1
  have hsubset : st.room.memberIDs ⊆ List.range MaxRoomUserCount := fun id hid =>
    List.mem_range.mpr (ids_lt_reaches h id (List.mem_append_right _ hid))
  have hlength := (List.subperm_of_subset hnodup hsubset).length_le
  rwa [List.length_range, Room.memberIDs, List.length_map] at hlength

theorem outcome_moves (h : Reaches (oneRoomStep socketOf) always (.new roomID) st)
    (hscheduled : act.Scheduled) :
    (sentTo a (st.outcome socketOf act).effects).countP ServerPacket.isMove ≤
      if act.Ticks st then 10 else 0 := by
  cases act with
  | job job mk nowTick =>
    refine (countP_sentTo a _).trans ?_
    rw [OneRoom.outcome, dispatch_moves]
    exact Nat.zero_le _
  | moveCheckUsers nowTick mk => exact hscheduled.elim
  | tick nowTick mk =>
    have hticks : OneRoomAct.Ticks st (.tick nowTick mk) ↔
        st.room.lastTick + MinMoveTick ≤ nowTick := Iff.rfl
    rw [OneRoom.outcome, Room.tick]
    by_cases hdue : st.room.lastTick + MinMoveTick ≤ nowTick
    · rw [if_pos hdue, if_pos (hticks.mpr hdue), Outcome.effects, Room.moveCheckUsers,
        List.nil_append]
      have honce : (st.room.roomUser.values.map RoomUser.session).count a ≤ 1 :=
        List.nodup_iff_count_le_one.mp (viewInv_reaches h).sessions a
      have hmoves := moveUsers_moves honce nowTick mk st.room.roomUser.values .empty 0
      have hlength := length_users h
      have hempty : (DataList.empty : Server_Move_Ack ℚ).count = 0 := rfl
      have hmax : MaxRoomUserCount = 1000 := rfl
      change (sentTo a (Room.moveUsers st.room.roomUser.values nowTick mk st.room.roomUser.values
        .empty 0)).countP ServerPacket.isMove ≤ 10
      omega
    · rw [if_neg hdue, if_neg fun h => hdue (hticks.mp h)]
      exact Nat.le_refl 0

theorem movesTo_le {acts : List OneRoomAct}
    (h : Reaches (oneRoomStep socketOf) always (.new roomID) st)
    (hscheduled : ∀ act ∈ acts, act.Scheduled) :
    movesTo socketOf a st acts ≤ 10 * (ticksOf socketOf st acts).length := by
  induction acts generalizing st with
  | nil => exact Nat.le_refl 0
  | cons act acts ih =>
    rw [List.forall_mem_cons] at hscheduled
    have hfirst := outcome_moves (a := a) h hscheduled.1
    have hnext : Reaches (oneRoomStep socketOf) always (.new roomID)
        (st.finish (st.outcome socketOf act) act.nowTick) := .next act h trivial rfl
    have hrest := ih hnext hscheduled.2
    rw [movesTo, ticksOf]
    split at hfirst
    case isTrue hticks =>
      rw [if_pos hticks, List.length_cons]
      omega
    case isFalse hidle =>
      rw [if_neg hidle]
      omega

theorem due_of_ticks (hscheduled : act.Scheduled) (hticks : act.Ticks st) :
    st.room.lastTick + MinMoveTick ≤ act.nowTick := by
  cases act with
  | job job mk nowTick => exact hticks.elim
  | tick nowTick mk => exact hticks
  | moveCheckUsers nowTick mk => exact hscheduled.elim

theorem lastTick_finish (hscheduled : act.Scheduled) :
    (st.finish (st.outcome socketOf act) act.nowTick).room.lastTick =
      if act.Ticks st then act.nowTick else st.room.lastTick := by
  cases act with
  | job job mk nowTick => exact dispatch_lastTick job st.room _ _ mk nowTick
  | moveCheckUsers nowTick mk => exact hscheduled.elim
  | tick nowTick mk =>
    have hticks : OneRoomAct.Ticks st (.tick nowTick mk) ↔
        st.room.lastTick + MinMoveTick ≤ nowTick := Iff.rfl
    change (st.room.tick nowTick mk).room.lastTick = _
    rw [Room.tick]
    by_cases hdue : st.room.lastTick + MinMoveTick ≤ nowTick
    · rw [if_pos hdue, if_pos (hticks.mpr hdue)]
      rfl
    · rw [if_neg hdue, if_neg fun h => hdue (hticks.mp h)]
      rfl

theorem ticks_pass {acts : List OneRoomAct} {next : Nat}
    (hscheduled : ∀ act ∈ acts, act.Scheduled)
    (hclock : (st.clock :: acts.map OneRoomAct.nowTick).Pairwise (· ≤ ·))
    (hnext : next ≤ max st.clock (st.room.lastTick + MinMoveTick)) :
    ∃ last, Passes MinMoveTick next (ticksOf socketOf st acts) last := by
  induction acts generalizing st next with
  | nil => exact ⟨next, .nil (Nat.le_refl next)⟩
  | cons act acts ih =>
    rw [List.forall_mem_cons] at hscheduled
    rw [List.map_cons, List.pairwise_cons, List.forall_mem_cons] at hclock
    have hnow : st.clock ≤ act.nowTick := hclock.1.1
    have hlast := @lastTick_finish socketOf st act hscheduled.1
    have hclock' : (st.finish (st.outcome socketOf act) act.nowTick).clock = act.nowTick := rfl
    rw [ticksOf]
    split
    case isTrue hticks =>
      rw [if_pos hticks] at hlast
      have hdue : next ≤ act.nowTick :=
        hnext.trans (max_le hnow (due_of_ticks hscheduled.1 hticks))
      have hgap : act.nowTick + MinMoveTick ≤
          max (st.finish (st.outcome socketOf act) act.nowTick).clock
            ((st.finish (st.outcome socketOf act) act.nowTick).room.lastTick + MinMoveTick) := by
        rw [hlast]
        exact Nat.le_max_right _ _
      obtain ⟨last, hpasses⟩ := ih hscheduled.2 (hclock' ▸ hclock.2) hgap
      exact ⟨last, .cons hdue (Nat.add_le_add_right hdue _) hpasses⟩
    case isFalse hidle =>
      exact ih hscheduled.2 (hclock' ▸ hclock.2) (by rw [hlast, if_neg hidle, hclock']; omega)

/-- However many MOVE requests there are: a member is sent at most ten MOVE packets a tick, and in
any window of time ten for each `MinMoveTick` of it, and ten more. -/
theorem move_rate {acts : List OneRoomAct} {t : Nat}
    (h : Reaches (oneRoomStep socketOf) always (.new roomID) st)
    (hscheduled : ∀ act ∈ acts, act.Scheduled)
    (hclock : (st.clock :: acts.map OneRoomAct.nowTick).Pairwise (· ≤ ·))
    (hlast : ∀ act ∈ acts, act.nowTick ≤ t) :
    (ticksOf socketOf st acts).length ≤ (t - st.clock) / MinMoveTick + 1 ∧
      movesTo socketOf a st acts ≤ 10 * (ticksOf socketOf st acts).length ∧
      movesTo socketOf a st acts ≤ 10 * ((t - st.clock) / MinMoveTick + 1) := by
  have hticks : (ticksOf socketOf st acts).length ≤ (t - st.clock) / MinMoveTick + 1 := by
    obtain ⟨last, hpasses⟩ := @ticks_pass socketOf st acts st.clock hscheduled hclock
      (Nat.le_max_left _ _)
    cases hend : (ticksOf socketOf st acts).getLast? with
    | none =>
      rw [List.getLast?_eq_none_iff.mp hend]
      exact Nat.zero_le _
    | some tick =>
      have hmem := (ticksOf_sublist acts).subset (List.mem_of_getLast? hend)
      obtain ⟨act, hact, rfl⟩ := List.mem_map.mp hmem
      have hspread := hpasses.spread hend
      have hle := hlast act hact
      rw [Nat.nsmul_eq_mul, MinMoveTick] at hspread
      rw [MinMoveTick]
      omega
  have hmoves := movesTo_le (a := a) h hscheduled
  exact ⟨hticks, hmoves, hmoves.trans (Nat.mul_le_mul_left 10 hticks)⟩

end Rate

def pressing : List OneRoomAct :=
  [.tick 150 allMade, .job ⟨.move (.finite 5) (.finite 0), 0⟩ allMade 160, .tick 200 allMade,
    .tick 250 allMade, .job ⟨.move (.finite 0) (.finite 5), 0⟩ allMade 260, .tick 300 allMade,
    .tick 350 allMade]

theorem pressing_scheduled : ∀ act ∈ pressing, act.Scheduled := by
  simp [pressing, OneRoomAct.Scheduled]

theorem move_rate_pressing :
    ∃ st, Reaches (oneRoomStep id) always (.new 0) st ∧ st.clock = 100 ∧
      ((ticksOf id st pressing).length = 3 ∧ movesTo id 1 st pressing = 3) ∧
      (ticksOf id st pressing).length ≤ 250 / MinMoveTick + 1 ∧
      movesTo id 1 st pressing ≤ 10 * (ticksOf id st pressing).length ∧
      movesTo id 1 st pressing ≤ 10 * (250 / MinMoveTick + 1) := by
  have hstart : (run (guarded (oneRoomStep id) always) (.new 0) (walk.take 3)).any (fun st => decide
      (st.clock = 100 ∧ (ticksOf id st pressing).length = 3 ∧ movesTo id 1 st pressing = 3)) =
        true := by decide +kernel
  obtain ⟨st, hst, hends⟩ := (Option.any_eq_true _ _).mp hstart
  obtain ⟨hclock, hcounts⟩ := of_decide_eq_true hends
  have hreaches : Reaches (oneRoomStep id) always (.new 0) st :=
    reaches_of_run (walk.take 3) .start hst
  have hrate := @move_rate id 0 st 1 pressing 350 hreaches pressing_scheduled
    (by rw [hclock]; decide) (by decide)
  rw [hclock] at hrate
  exact ⟨st, hreaches, hclock, hcounts, hrate⟩

/-! ### The turns of a connection -/

namespace LoadTestRoom

def interval (ratePerSec : Int) : Int := if 0 < ratePerSec then 1000000000 / ratePerSec else 0

structure PacedTest where
  test : LoadTest
  nextSendAt : Nat → Int
  /-- History: when each connection had its turns. -/
  turns : Nat → List Int

/-- Each worker reads its own `startNs`; the connections start at different phases. -/
def firstSendAt (worker : Nat → Nat) (interval : Int) (startNs : Nat → Int)
    (totalConns id : Nat) : Int :=
  startNs (worker id) + if 0 < totalConns then interval * id / totalConns else 0

def PacedTest.start (worker : Nat → Nat) (test : LoadTest) (interval : Int) (startNs : Nat → Int)
    (totalConns : Nat) : PacedTest :=
  ⟨test, firstSendAt worker interval startNs totalConns, fun _ => []⟩

section
variable (worker : Nat → Nat) (interval : Int) (id : Nat) (now : Int)

/-- A turn; one that comes far too late is not made up for. -/
def PacedTest.turn (st : PacedTest) : PacedTest :=
  let next := st.nextSendAt id + interval
  let next := if interval * 8 < now - next then now + interval else next
  { test := st.test.pace worker id
    nextSendAt := Function.update st.nextSendAt id next
    turns := Function.update st.turns id (st.turns id ++ [now]) }

def turnLoop : Nat → PacedTest → PacedTest
  | 0, st => st
  | fuel + 1, st =>
    if 0 < interval ∧ st.nextSendAt id ≤ now then turnLoop fuel (st.turn worker interval id now)
    else st

end

inductive PacedAct where
  /-- The worker comes to the connection, at the time it has read before the poll. -/
  | poll (id : Nat) (now : Int)
  /-- Anything but a turn. -/
  | act (act : LoadTestAct)

def LoadTestAct.isPace : LoadTestAct → Bool
  | .pace _ => true
  | _ => false

/-- There are ten turns at most (`turnLoop_enough`). -/
def pacedStep (worker : Nat → Nat) (interval : Int) : Step PacedTest PacedAct
  | st, .poll id now =>
    if (st.test.conns id).dead ∨ (st.test.conns id).roomId < 0 then some st
    else some (turnLoop worker interval id now 10 st)
  | st, .act act =>
    if act.isPace then none
    else (loadTestStep worker st.test act).map fun test => { st with test := test }

def LoadTest.unsent (st : LoadTest) (id : Nat) : Nat :=
  (st.conns id).out.length - (st.conns id).outOff

def LoadTest.askedBy (st : LoadTest) (id : Nat) : Nat := st.asked.countP fun ask => ask.1 = id

/-- A poll is not later than the loop makes up for. -/
def Prompt (interval : Int) (st : PacedTest) : PacedAct → Prop
  | .poll id now => now ≤ st.nextSendAt id + 9 * interval
  | .act _ => True

section Turns
variable {worker : Nat → Nat} {interval now : Int} {id : Nat} {st : PacedTest}

@[simp] theorem turn_turns (worker : Nat → Nat) (interval now : Int) (id : Nat) (st : PacedTest) :
    (st.turn worker interval id now).turns =
      Function.update st.turns id (st.turns id ++ [now]) := rfl

@[simp] theorem turn_test (worker : Nat → Nat) (interval now : Int) (id : Nat) (st : PacedTest) :
    (st.turn worker interval id now).test = st.test.pace worker id := rfl

theorem turn_next (worker : Nat → Nat) (interval now : Int) (id : Nat) (st : PacedTest) :
    (st.turn worker interval id now).nextSendAt id =
      if interval * 8 < now - (st.nextSendAt id + interval) then now + interval
      else st.nextSendAt id + interval := by
  rw [PacedTest.turn]
  exact Function.update_self ..

theorem turn_other (worker : Nat → Nat) (interval now : Int) (st : PacedTest) {i : Nat}
    (h : i ≠ id) : (st.turn worker interval id now).nextSendAt i = st.nextSendAt i := by
  rw [PacedTest.turn]
  exact Function.update_of_ne h ..

theorem turn_later (hdue : st.nextSendAt id ≤ now) :
    st.nextSendAt id + interval ≤ (st.turn worker interval id now).nextSendAt id := by
  rw [turn_next]
  split_ifs <;> omega

theorem turnLoop_add (m n : Nat) (st : PacedTest) :
    turnLoop worker interval id now (m + n) st =
      turnLoop worker interval id now n (turnLoop worker interval id now m st) := by
  induction m generalizing st with
  | zero =>
    rw [Nat.zero_add]
    rfl
  | succ m ih =>
    rw [Nat.succ_add, turnLoop, turnLoop]
    split
    · exact ih _
    case isFalse hidle =>
      cases n with
      | zero => rfl
      | succ n => rw [turnLoop, if_neg hidle]

theorem turnLoop_idle (fuel : Nat) (h : now < st.nextSendAt id) :
    turnLoop worker interval id now fuel st = st := by
  cases fuel with
  | zero => rfl
  | succ fuel => exact if_neg fun hdue => absurd hdue.2 (by omega)

theorem turnLoop_within (hinterval : 0 < interval) (fuel : Nat)
    (h : now < st.nextSendAt id + fuel * interval) :
    now < (turnLoop worker interval id now fuel st).nextSendAt id := by
  induction fuel generalizing st with
  | zero => simpa [turnLoop] using h
  | succ fuel ih =>
    rw [turnLoop]
    split
    case isTrue hdue =>
      have hlater : st.nextSendAt id + interval ≤
          (st.turn worker interval id now).nextSendAt id := turn_later hdue.2
      apply ih
      rw [Nat.cast_succ, add_mul, one_mul] at h
      omega
    case isFalse hidle => exact not_le.mp fun hdue => hidle ⟨hinterval, hdue⟩

theorem turnLoop_ends (hinterval : 0 < interval) (st : PacedTest) :
    now < (turnLoop worker interval id now 10 st).nextSendAt id := by
  by_cases hlate : now < st.nextSendAt id + 10 * interval
  · exact turnLoop_within hinterval 10 hlate
  · have hnext : (st.turn worker interval id now).nextSendAt id = now + interval := by
      rw [turn_next, if_pos (by omega)]
    rw [turnLoop, if_pos ⟨hinterval, by omega⟩, turnLoop_idle _ (by omega), hnext]
    omega

/-- The loop of the source has no bound. -/
theorem turnLoop_enough (hinterval : 0 < interval) (fuel : Nat) (st : PacedTest) :
    turnLoop worker interval id now (10 + fuel) st = turnLoop worker interval id now 10 st := by
  rw [turnLoop_add, turnLoop_idle _ (turnLoop_ends hinterval st)]

theorem turnLoop_length (fuel : Nat) (st : PacedTest) :
    ((turnLoop worker interval id now fuel st).turns id).length ≤ (st.turns id).length + fuel := by
  induction fuel generalizing st with
  | zero => exact Nat.le_refl _
  | succ fuel ih =>
    rw [turnLoop]
    split
    · have hrest := ih (st.turn worker interval id now)
      rw [turn_turns, Function.update_self, List.length_append, List.length_singleton] at hrest
      omega
    · omega

structure Paced (interval : Int) (first : Nat → Int) (st : PacedTest) : Prop where
  passes : ∀ i, Passes interval (first i) (st.turns i) (st.nextSendAt i)
  asked : ∀ i, st.test.askedBy i ≤ (st.turns i).length
  unsent : ∀ i, st.test.unsent i < OUT_LIMIT + (PacketID_SIZE + BROAD_BODY)

theorem pace_askedBy (worker : Nat → Nat) (st : LoadTest) (id i : Nat) :
    (st.pace worker id).askedBy i ≤ st.askedBy i + if i = id then 1 else 0 := by
  unfold LoadTest.pace LoadTest.askedBy
  dsimp only
  split
  · rw [List.countP_append, List.countP_singleton]
    by_cases hi : i = id
    · subst hi
      simp
    · simp [hi, Ne.symm hi]
  · exact Nat.le_add_right _ _

theorem pace_unsent (worker : Nat → Nat) (st : LoadTest) (id i : Nat)
    (h : st.unsent i < OUT_LIMIT + (PacketID_SIZE + BROAD_BODY)) :
    (st.pace worker id).unsent i < OUT_LIMIT + (PacketID_SIZE + BROAD_BODY) := by
  unfold LoadTest.pace LoadTest.unsent at *
  dsimp only
  split
  case isTrue hfits =>
    by_cases hi : i = id
    · subst hi
      have hlength : (packetBytes .CLIENT_BROADCAST (broadcastBody i (st.nowNanos 0))).length =
          PacketID_SIZE + BROAD_BODY := by
        rw [length_packetBytes, length_broadcastBody]
      simp only [LoadTest.setResult, LoadTest.setConn_self, appendBroadcast, List.length_append,
        hlength]
      omega
    · simpa only [LoadTest.setResult, LoadTest.setConn_other _ hi, LoadTest.tick] using h
  case isFalse hfull => exact h

theorem Paced.turn {first : Nat → Int} (h : Paced interval first st)
    (hdue : st.nextSendAt id ≤ now) : Paced interval first (st.turn worker interval id now) where
  passes i := by
    by_cases hi : i = id
    · subst hi
      rw [turn_turns, Function.update_self]
      exact (h.passes i).snoc hdue (turn_later hdue)
    · rw [turn_turns, Function.update_of_ne hi, turn_other _ _ _ _ hi]
      exact h.passes i
  asked i := by
    have hasked := pace_askedBy worker st.test id i
    have hbefore := h.asked i
    rw [turn_turns, turn_test]
    by_cases hi : i = id
    · subst hi
      rw [Function.update_self, List.length_append, List.length_singleton]
      rw [if_pos rfl] at hasked
      omega
    · rw [Function.update_of_ne hi]
      rw [if_neg hi] at hasked
      omega
  unsent i := pace_unsent worker st.test id i (h.unsent i)

theorem Paced.turnLoop {first : Nat → Int} (h : Paced interval first st) (fuel : Nat) :
    Paced interval first (turnLoop worker interval id now fuel st) := by
  induction fuel generalizing st with
  | zero => exact h
  | succ fuel ih =>
    rw [LoadTestRoom.turnLoop]
    split
    case isTrue hdue => exact ih (h.turn hdue.2)
    case isFalse => exact h

/-- A connection's turns alone give it something to send. -/
theorem unpaced_kept {act : LoadTestAct} {test test' : LoadTest} (hact : act.isPace = false)
    (hstep : loadTestStep worker test act = some test') :
    test'.asked = test.asked ∧ ∀ i, test'.unsent i ≤ test.unsent i := by
  have hsame {test' : LoadTest} (hout : ∀ i, (test'.conns i).out = (test.conns i).out ∧
      (test'.conns i).outOff = (test.conns i).outOff) (i : Nat) :
      test'.unsent i ≤ test.unsent i := by
    rw [LoadTest.unsent, (hout i).1, (hout i).2]
    exact Nat.le_refl _
  have hfail (id i : Nat) : ((test.fail worker id).conns i).out = (test.conns i).out ∧
      ((test.fail worker id).conns i).outOff = (test.conns i).outOff := by
    by_cases hi : i = id
    · subst hi
      simp [LoadTest.fail, LoadTest.setResult, LoadTest.setConn]
    · simp [LoadTest.fail, LoadTest.setResult, LoadTest.setConn, hi]
  cases act with
  | pace id => contradiction
  | enter id bytes =>
    obtain ⟨-, hnext⟩ := Option.ite_none_right_eq_some.mp hstep
    rw [enterLoop_eq _ _ _ (Nat.le_refl _), takePackets_eq] at hnext
    obtain rfl := Option.some.inj hnext
    refine ⟨rfl, hsame fun i => ?_⟩
    by_cases hi : i = id
    · subst hi
      simp [LoadTest.setConn]
    · simp [LoadTest.setConn, hi]
  | recv id bytes =>
    have hkept := recv_kept hstep
    refine ⟨hkept.asked, hsame fun i => ?_⟩
    obtain ⟨input, dead, hconn⟩ := hkept.conns i
    rw [hconn]
    exact ⟨rfl, rfl⟩
  | hangUp id =>
    change (if _ then none else some _) = some test' at hstep
    obtain ⟨-, hnext⟩ := Option.ite_none_left_eq_some.mp hstep
    obtain rfl := Option.some.inj hnext
    exact ⟨rfl, hsame (hfail id)⟩
  | send id result =>
    by_cases hresult : result ≠ .error ∧ result ≠ .bytes 0
    · obtain rfl | ⟨n, c, -, -, -, hleft, rfl⟩ := send_cases hresult hstep
      · exact ⟨rfl, fun i => Nat.le_refl _⟩
      · refine ⟨rfl, fun i => ?_⟩
        by_cases hi : i = id
        · subst hi
          have hlength := congrArg List.length hleft
          rw [List.length_drop, List.length_drop] at hlength
          simp only [LoadTest.unsent, LoadTest.setConn_self]
          omega
        · simp [LoadTest.unsent, LoadTest.setConn_other _ hi]
    · obtain ⟨-, hnext⟩ := Option.ite_none_right_eq_some.mp hstep
      obtain rfl := Option.some.inj hnext
      obtain rfl | rfl : result = .error ∨ result = .bytes 0 := by
        by_contra hfine
        exact hresult (not_or.mp hfine)
      · exact ⟨rfl, hsame (hfail id)⟩
      · exact ⟨rfl, hsame (hfail id)⟩

theorem paced_start {test : LoadTest} (hasked : test.asked = []) (hunsent : ∀ i, test.unsent i = 0)
    (worker : Nat → Nat) (interval : Int) (startNs : Nat → Int) (totalConns : Nat) :
    Paced interval (firstSendAt worker interval startNs totalConns)
      (.start worker test interval startNs totalConns) where
  passes i := .nil le_rfl
  asked i := by simp [PacedTest.start, LoadTest.askedBy, hasked]
  unsent i := by
    rw [PacedTest.start, hunsent]
    decide

theorem Paced.step {first : Nat → Int} {act : PacedAct} {st' : PacedTest}
    (h : Paced interval first st) (hstep : pacedStep worker interval st act = some st') :
    Paced interval first st' := by
  cases act with
  | poll id now =>
    change (if _ then some st else some _) = some st' at hstep
    split at hstep
    · exact Option.some.inj hstep ▸ h
    · exact Option.some.inj hstep ▸ h.turnLoop 10
  | act act =>
    obtain ⟨hact, hstep⟩ := Option.ite_none_left_eq_some.mp hstep
    obtain ⟨test, htest, rfl⟩ := Option.map_eq_some_iff.mp hstep
    obtain ⟨hasked, hunsent⟩ := unpaced_kept (Bool.not_eq_true _ ▸ hact) htest
    refine ⟨h.passes, fun i => ?_, fun i => (hunsent i).trans_lt (h.unsent i)⟩
    have hbefore := h.asked i
    rwa [LoadTest.askedBy, ← hasked] at hbefore

/-- The turns are on the grid that the phase began. -/
def OnGrid (interval : Int) (first : Nat → Int) (st : PacedTest) : Prop :=
  ∀ i, st.nextSendAt i = first i + (st.turns i).length * interval

theorem OnGrid.turnLoop {first : Nat → Int} (h : OnGrid interval first st) (fuel : Nat)
    (hprompt : now ≤ st.nextSendAt id + 9 * interval) :
    OnGrid interval first (turnLoop worker interval id now fuel st) := by
  induction fuel generalizing st with
  | zero => exact h
  | succ fuel ih =>
    rw [LoadTestRoom.turnLoop]
    split
    case isFalse => exact h
    case isTrue hdue =>
      have hnext : (st.turn worker interval id now).nextSendAt id =
          st.nextSendAt id + interval := by
        rw [turn_next, if_neg (by omega)]
      apply ih
      · intro i
        by_cases hi : i = id
        · subst hi
          rw [hnext, h i, turn_turns, Function.update_self, List.length_append,
            List.length_singleton]
          push_cast
          ring
        · rw [turn_other _ _ _ _ hi, h i, turn_turns, Function.update_of_ne hi]
      · omega

theorem onGrid_reaches {test : LoadTest} {startNs : Nat → Int} {totalConns : Nat}
    (h : Reaches (pacedStep worker interval) (Prompt interval)
      (.start worker test interval startNs totalConns) st) :
    OnGrid interval (firstSendAt worker interval startNs totalConns) st := by
  apply h.invariant
  · intro i
    simp [PacedTest.start]
  · intro st act st' _ hgrid hprompt hstep
    cases act with
    | poll id now =>
      change (if _ then some st else some _) = some st' at hstep
      split at hstep
      · exact Option.some.inj hstep ▸ hgrid
      · exact Option.some.inj hstep ▸ hgrid.turnLoop 10 hprompt
    | act act =>
      obtain ⟨-, hstep⟩ := Option.ite_none_left_eq_some.mp hstep
      obtain ⟨test, -, rfl⟩ := Option.map_eq_some_iff.mp hstep
      exact hgrid

theorem paced_reaches {nowNanos : Nat → Int64} {startNs : Nat → Int} {totalConns : Nat}
    (h : Reaches (pacedStep worker interval) always
      (.start worker (.start nowNanos) interval startNs totalConns) st) :
    Paced interval (firstSendAt worker interval startNs totalConns) st :=
  h.invariant (paced_start rfl (fun _ => rfl) worker interval startNs totalConns)
    fun _ _ _ _ hpaced _ hstep => hpaced.step hstep

theorem Paced.length_le {first : Nat → Int} (h : Paced interval first st)
    (hinterval : 0 < interval) {t : Int} (hlast : ∀ turn ∈ st.turns id, turn ≤ t) :
    ((st.turns id).length : Int) ≤ max 0 ((t - first id) / interval + 1) := by
  cases hend : (st.turns id).getLast? with
  | none =>
    rw [List.getLast?_eq_none_iff.mp hend]
    exact Int.le_max_left _ _
  | some turn =>
    have hspread := (h.passes id).spread hend
    have hle := hlast turn (List.mem_of_getLast? hend)
    have hpos : 0 < (st.turns id).length :=
      List.length_pos_of_mem (List.mem_of_getLast? hend)
    rw [nsmul_eq_mul, Nat.cast_sub hpos, Nat.cast_one] at hspread
    refine le_max_of_le_right (sub_le_iff_le_add.mp ((Int.le_ediv_iff_mul_le hinterval).mpr ?_))
    omega

theorem mem_turnLoop {fuel : Nat} {turn : Int}
    (h : turn ∈ (turnLoop worker interval id now fuel st).turns id) :
    turn ∈ st.turns id ∨ turn = now := by
  induction fuel generalizing st with
  | zero => exact .inl h
  | succ fuel ih =>
    rw [turnLoop] at h
    split at h
    · have hbefore := ih h
      rw [turn_turns, Function.update_self, List.mem_append, List.mem_singleton] at hbefore
      tauto
    · exact .inl h

/-- However late the polls are, a connection never has more turns than its rate allows, ten at
most at one poll, and what waits to be sent stays less than a packet over `OUT_LIMIT`. Where no
poll is more than nine intervals late, it has had exactly the turns that are due. -/
theorem turns_paced {nowNanos : Nat → Int64} {startNs : Nat → Int} {totalConns : Nat}
    {st' : PacedTest} (hinterval : 0 < interval)
    (h : Reaches (pacedStep worker interval) always
      (.start worker (.start nowNanos) interval startNs totalConns) st)
    (hlast : ∀ turn ∈ st.turns id, turn ≤ now)
    (hturn : ¬((st.test.conns id).dead ∨ (st.test.conns id).roomId < 0))
    (hstep : pacedStep worker interval st (.poll id now) = some st') :
    let due := max 0 ((now - firstSendAt worker interval startNs totalConns id) / interval + 1)
    (∀ fuel, turnLoop worker interval id now (10 + fuel) st = st') ∧
      (st'.turns id).length ≤ due ∧ (st'.turns id).length ≤ (st.turns id).length + 10 ∧
      st'.test.askedBy id ≤ (st'.turns id).length ∧
      st'.test.unsent id < OUT_LIMIT + (PacketID_SIZE + BROAD_BODY) ∧
      (Reaches (pacedStep worker interval) (Prompt interval)
        (.start worker (.start nowNanos) interval startNs totalConns) st →
        Prompt interval st (.poll id now) → (st'.turns id).length = due) := by
  intro due
  have hpaced : Paced interval (firstSendAt worker interval startNs totalConns) st' :=
    paced_reaches (.next _ h trivial hstep)
  change (if _ then some st else some _) = some st' at hstep
  rw [if_neg hturn] at hstep
  obtain rfl := Option.some.inj hstep
  have hturns : ∀ turn ∈ (turnLoop worker interval id now 10 st).turns id, turn ≤ now :=
    fun turn hmem => (mem_turnLoop hmem).elim (hlast turn) le_of_eq
  have hdue := hpaced.length_le hinterval hturns
  refine ⟨fun fuel => turnLoop_enough hinterval fuel st, hdue, turnLoop_length 10 st,
    hpaced.asked id, hpaced.unsent id, ?_⟩
  intro hreaches hprompt
  have hgrid : OnGrid interval (firstSendAt worker interval startNs totalConns)
      (turnLoop worker interval id now 10 st) := (onGrid_reaches hreaches).turnLoop 10 hprompt
  have hends : now < (turnLoop worker interval id now 10 st).nextSendAt id :=
    turnLoop_ends hinterval st
  refine le_antisymm hdue (max_le (Int.natCast_nonneg _) (Int.add_one_le_iff.mpr ?_))
  rw [hgrid id] at hends
  exact (Int.ediv_lt_iff_lt_mul hinterval).mpr (by omega)

end Turns

def polls : List PacedAct :=
  [.act (.enter 1 (packetBytes .SERVER_ENTER (intBytes 3 ++ intBytes 0))), .poll 0 1000,
    .poll 1 1000, .poll 1 1050, .act (.send 1 (.bytes 20))]

instance (interval : Int) (st : PacedTest) (act : PacedAct) :
    Decidable (Prompt interval st act) :=
  match act with
  | .poll id now => inferInstanceAs (Decidable (now ≤ st.nextSendAt id + 9 * interval))
  | .act _ => inferInstanceAs (Decidable True)

theorem turns_paced_polls :
    ∃ st st', Reaches (pacedStep id 100) always (.start id (.start fun _ => 0) 100 (fun _ => 1000) 2) st ∧
      pacedStep id 100 st (.poll 1 1260) = some st' ∧ st'.turns 1 = [1050, 1260, 1260] ∧
      st'.test.askedBy 1 ≤ (st'.turns 1).length ∧
      ((st'.turns 1).length : Int) = max 0 ((1260 - 1050) / 100 + 1) := by
  have hstart : (run (guarded (pacedStep id 100) (Prompt 100))
      (.start id (.start fun _ => 0) 100 (fun _ => 1000) 2) polls).any (fun st => decide (st.turns 1 = [1050] ∧
        ¬((st.test.conns 1).dead ∨ (st.test.conns 1).roomId < 0) ∧
        Prompt 100 st (.poll 1 1260) ∧ (pacedStep id 100 st (.poll 1 1260)).any (fun st' =>
          decide (st'.turns 1 = [1050, 1260, 1260])) = true)) = true := by decide +kernel
  obtain ⟨st, hst, hends⟩ := (Option.any_eq_true _ _).mp hstart
  obtain ⟨hbefore, hturn, hprompt, hnext⟩ := of_decide_eq_true hends
  obtain ⟨st', hstep, hturns⟩ := (Option.any_eq_true _ _).mp hnext
  have hreaches := reaches_of_run polls .start hst
  obtain ⟨-, -, -, hasked, -, hdue⟩ := turns_paced (by decide) hreaches.any
    (by rw [hbefore]; decide) hturn hstep
  exact ⟨st, st', hreaches.any, hstep, of_decide_eq_true hturns, hasked, hdue hreaches hprompt⟩

end LoadTestRoom

end RoomServer
