import RoomServer.Movement

/-! The users of one room while they enter, leave, set out and are moved by the ticks.
A way takes as many ticks as it likes: the length is squared in this model, and its root
is rounded in the code. -/
namespace RoomServer
open Library Library.Transition

namespace Room

/-- The end of `Move`, after `MovePosition`. The arrival has to fit `m_endMoveTick`. -/
def setOut (travel : ℚ → Nat) (user : RoomUser) (posX posY : ℚ) (nowTick : Nat) :
    Option RoomUser :=
  let dx := posX - user.posX
  let dy := posY - user.posY
  let dist2 := dx * dx + dy * dy
  if dist2 ≤ 0 then some user
  else if 2 ^ 64 ≤ nowTick + travel dist2 then none
  else
    some { user with
      isMove := true, destPosX := posX, destPosY := posY
      startMoveTick := nowTick, endMoveTick := nowTick + travel dist2 }

/-- `Move`, where `travel` tells the ticks from the squared length of the way. -/
def moveTravel (travel : ℚ → Nat) (room : Room) (socket : Nat) (isConnected : Bool)
    (posX posY : Coordinate) (nowTick : Nat) : Option Outcome :=
  match posX, posY with
  | .finite posX, .finite posY =>
    if isConnected = false ∨ posX < 0 ∨ MaxX ≤ posX ∨ posY < 0 ∨ MaxY ≤ posY then
      some (.idle room)
    else
      match room.roomUser.find socket with
      | none => some (.idle room)
      | some user =>
        (setOut travel (movePosition user nowTick) posX posY nowTick).map fun user =>
          .idle { room with roomUser := room.roomUser.set socket user }
  | _, _ => some (.idle room)

theorem nowhere_to_go {x y posX posY : ℚ} :
    (posX - x) * (posX - x) + (posY - y) * (posY - y) ≤ 0 ↔ posX = x ∧ posY = y := by
  constructor
  · intro h
    have hx : posX - x = 0 := by nlinarith
    have hy : posY - y = 0 := by nlinarith
    exact ⟨sub_eq_zero.mp hx, sub_eq_zero.mp hy⟩
  · rintro ⟨rfl, rfl⟩
    rw [sub_self, sub_self, mul_zero, add_zero]

/-- With the ticks that `Move` computes this is `Move`. -/
theorem moveTravel_travelTick {room : Room} {socket : Nat} {isConnected : Bool}
    {posX posY : Coordinate} {nowTick : Nat} {o : Outcome}
    (h : room.moveTravel travelTick socket isConnected posX posY nowTick = some o) :
    room.move socket isConnected posX posY nowTick = o := by
  cases posX with
  | notFinite => exact Option.some.inj h
  | finite x =>
    cases posY with
    | notFinite => exact Option.some.inj h
    | finite y =>
      unfold moveTravel at h
      unfold move
      dsimp only at h ⊢
      by_cases hrefused : isConnected = false ∨ x < 0 ∨ MaxX ≤ x ∨ y < 0 ∨ MaxY ≤ y
      · rw [if_pos hrefused] at h ⊢
        exact Option.some.inj h
      · rw [if_neg hrefused] at h ⊢
        cases hfind : room.roomUser.find socket with
        | none =>
          rw [hfind] at h
          exact Option.some.inj h
        | some user =>
          rw [hfind] at h
          obtain ⟨after, hafter, rfl⟩ := Option.map_eq_some_iff.mp h
          unfold setOut at hafter
          dsimp only at hafter ⊢
          split at hafter
          case isTrue hhere => rw [if_pos hhere, Option.some.inj hafter]
          case isFalse hway =>
            split at hafter
            case isTrue => contradiction
            case isFalse => rw [if_neg hway, ← Option.some.inj hafter]

theorem setOut_cases {travel : ℚ → Nat} {user after : RoomUser} {posX posY : ℚ} {nowTick : Nat}
    (h : setOut travel user posX posY nowTick = some after) :
    (posX = user.posX ∧ posY = user.posY ∧ after = user) ∨
      ∃ ticks, nowTick + ticks < 2 ^ 64 ∧ after = { user with
        isMove := true, destPosX := posX, destPosY := posY
        startMoveTick := nowTick, endMoveTick := nowTick + ticks } := by
  unfold setOut at h
  dsimp only at h
  split at h
  case isTrue hhere =>
    obtain ⟨hx, hy⟩ := nowhere_to_go.mp hhere
    exact .inl ⟨hx, hy, (Option.some.inj h).symm⟩
  case isFalse =>
    split at h
    case isTrue => contradiction
    case isFalse hfits => exact .inr ⟨_, Nat.lt_of_not_le hfits, (Option.some.inj h).symm⟩

theorem setOut_here {travel : ℚ → Nat} {user after : RoomUser} {nowTick : Nat}
    (h : setOut travel user user.posX user.posY nowTick = some after) : after = user := by
  unfold setOut at h
  dsimp only at h
  rw [if_pos (nowhere_to_go.mpr ⟨rfl, rfl⟩)] at h
  exact (Option.some.inj h).symm

end Room

def Job.dispatchTravel (travel : ℚ → Nat) (job : Job) (room : Room) (socket : Nat)
    (isConnected : Bool) (mk : Nat → Bool) (nowTick : Nat) : Option Outcome :=
  match job.kind with
  | .move posX posY => room.moveTravel travel socket isConnected posX posY nowTick
  | .enter | .leave | .broadcast _ => some (job.dispatch room socket isConnected mk nowTick)

/-- The turns of the other modules are turns of this one. -/
theorem dispatchTravel_travelTick {job : Job} {room : Room} {socket : Nat} {isConnected : Bool}
    {mk : Nat → Bool} {nowTick : Nat} {o : Outcome}
    (h : job.dispatchTravel Room.travelTick room socket isConnected mk nowTick = some o) :
    job.dispatch room socket isConnected mk nowTick = o := by
  obtain ⟨kind, session⟩ := job
  cases kind with
  | enter => exact Option.some.inj h
  | leave => exact Option.some.inj h
  | broadcast text => exact Option.some.inj h
  | move posX posY => exact Room.moveTravel_travelTick h

/-! ### Runs of one room -/

structure MovingRoom where
  room : Room
  /-- The last `GetTickCount64` that was read. -/
  clock : Nat

inductive MovingAct where
  | job (job : Job) (socket : Nat) (isConnected : Bool) (mk : Nat → Bool) (nowTick : Nat)
    (travel : ℚ → Nat)
  | tick (nowTick : Nat) (mk : Nat → Bool)

def MovingAct.nowTick : MovingAct → Nat
  | .job _ _ _ _ nowTick _ | .tick nowTick _ => nowTick

def MovingRoom.new (roomID : Int) : MovingRoom := ⟨.new roomID, 0⟩

def movingStep : Step MovingRoom MovingAct
  | st, .job job socket isConnected mk nowTick travel =>
    (job.dispatchTravel travel st.room socket isConnected mk nowTick).map fun o => ⟨o.room, nowTick⟩
  | st, .tick nowTick mk => some ⟨(st.room.tick nowTick mk).room, nowTick⟩

def MovingRoom.OnTime (st : MovingRoom) (act : MovingAct) : Prop := st.clock ≤ act.nowTick

instance (st : MovingRoom) (act : MovingAct) : Decidable (st.OnTime act) :=
  inferInstanceAs (Decidable (_ ≤ _))

inductive MovingAct.Sends (socket : Nat) (x y : ℚ) : MovingAct → Prop where
  | job {session : Nat} {mk : Nat → Bool} {nowTick : Nat} {travel : ℚ → Nat} (inMap : InMap x y) :
      Sends socket x y (.job ⟨.move (.finite x) (.finite y), session⟩ socket true mk nowTick travel)

/-- What an act can make of the entry under `k`. -/
inductive MovingRoom.Entry (st : MovingRoom) (act : MovingAct) (k : Nat) :
    Option RoomUser → Prop where
  | kept : Entry st act k (st.room.roomUser.find k)
  | entered (session id : Nat) (absent : st.room.roomUser.find k = none) :
      Entry st act k (some (.enter session 0 0 id))
  | left (leaves : ∃ session mk nowTick travel,
      act = .job ⟨.leave, session⟩ k true mk nowTick travel) : Entry st act k none
  | ticked {user : RoomUser} (found : st.room.roomUser.find k = some user) :
      Entry st act k (some (Room.movePosition user act.nowTick))
  | sent {user after : RoomUser} {x y : ℚ} {travel : ℚ → Nat} (sends : act.Sends k x y)
      (found : st.room.roomUser.find k = some user)
      (goes : Room.setOut travel (Room.movePosition user act.nowTick) x y act.nowTick = some after) :
      Entry st act k (some after)

section Entry
variable {st st' : MovingRoom} {act : MovingAct}

theorem enter_entry (session socket : Nat) (isConnected : Bool) (mk : Nat → Bool) (k : Nat) :
    st.Entry act k ((st.room.enter session socket isConnected mk).room.roomUser.find k) := by
  unfold Room.enter
  split
  case isTrue => exact .kept
  case isFalse =>
    split
    case h_1 => exact .kept
    case h_2 seqID seqIDs hfree =>
      dsimp only
      split
      case isFalse => exact .kept
      case isTrue hall =>
        have hinserted := (Bool.and_eq_true_iff.mp hall).2
        dsimp only
        rw [OrderedMap.find_insert hinserted]
        split
        case isTrue hsocket =>
          exact .entered session seqID (hsocket ▸ OrderedMap.find_of_insert hinserted)
        case isFalse => exact .kept

theorem leave_entry (session socket : Nat) (isConnected : Bool) (mk : Nat → Bool)
    (nowTick : Nat) (travel : ℚ → Nat) (k : Nat) :
    st.Entry (.job ⟨.leave, session⟩ socket isConnected mk nowTick travel) k
      ((st.room.leave session socket isConnected mk).room.roomUser.find k) := by
  have herased (hconnected : isConnected = true) :
      st.Entry (.job ⟨.leave, session⟩ socket isConnected mk nowTick travel) k
        ((st.room.roomUser.erase socket).find k) := by
    rw [OrderedMap.find_erase]
    split
    case isTrue hsocket =>
      subst hsocket
      exact .left ⟨session, mk, nowTick, travel, by rw [hconnected]⟩
    case isFalse => exact .kept
  unfold Room.leave
  split
  case isTrue => exact .kept
  case isFalse hconnected =>
    rw [Bool.not_eq_false] at hconnected
    dsimp only
    split
    case h_1 => exact .kept
    case h_2 =>
      split
      case isTrue => exact herased hconnected
      case isFalse => exact herased hconnected

theorem move_entry {session socket : Nat} {isConnected : Bool} {mk : Nat → Bool}
    {posX posY : Room.Coordinate} {nowTick : Nat} {travel : ℚ → Nat} {o : Outcome}
    (h : st.room.moveTravel travel socket isConnected posX posY nowTick = some o) (k : Nat) :
    st.Entry (.job ⟨.move posX posY, session⟩ socket isConnected mk nowTick travel) k
      (o.room.roomUser.find k) := by
  cases posX with
  | notFinite =>
    cases h
    exact .kept
  | finite x =>
    cases posY with
    | notFinite =>
      cases h
      exact .kept
    | finite y =>
      unfold Room.moveTravel at h
      dsimp only at h
      split at h
      case isTrue =>
        cases h
        exact .kept
      case isFalse hvalid =>
        simp only [not_or, Bool.not_eq_false, not_lt, not_le] at hvalid
        obtain ⟨rfl, hx, hx', hy, hy'⟩ := hvalid
        cases hfind : st.room.roomUser.find socket with
        | none =>
          rw [hfind] at h
          cases h
          exact .kept
        | some user =>
          rw [hfind] at h
          obtain ⟨after, hafter, rfl⟩ := Option.map_eq_some_iff.mp h
          change st.Entry _ k ((st.room.roomUser.set socket after).find k)
          rw [OrderedMap.find_set]
          split
          case isTrue hsocket =>
            subst hsocket
            rw [hfind]
            exact .sent (.job ⟨hx, hx', hy, hy'⟩) hfind hafter
          case isFalse => exact .kept

theorem tick_entry (nowTick : Nat) (mk : Nat → Bool) (k : Nat) :
    st.Entry (.tick nowTick mk) k ((st.room.tick nowTick mk).room.roomUser.find k) := by
  unfold Room.tick
  split
  case isFalse => exact .kept
  case isTrue =>
    change st.Entry _ k ((st.room.roomUser.mapValues fun _ user =>
      Room.movePosition user nowTick).find k)
    rw [OrderedMap.find_mapValues]
    cases hfind : st.room.roomUser.find k with
    | none =>
      have hkept : st.Entry (.tick nowTick mk) k (st.room.roomUser.find k) := .kept
      rwa [hfind] at hkept
    | some user => exact .ticked hfind

theorem movingStep_entry (hstep : movingStep st act = some st') (k : Nat) :
    st.Entry act k (st'.room.roomUser.find k) := by
  cases act with
  | tick nowTick mk =>
    cases hstep
    exact tick_entry nowTick mk k
  | job job socket isConnected mk nowTick travel =>
    obtain ⟨o, ho, rfl⟩ := Option.map_eq_some_iff.mp hstep
    obtain ⟨kind, session⟩ := job
    cases kind with
    | enter =>
      cases ho
      exact enter_entry session socket isConnected mk k
    | leave =>
      cases ho
      exact leave_entry session socket isConnected mk nowTick travel k
    | broadcast text =>
      cases ho
      exact .kept
    | move posX posY => exact move_entry ho k

theorem movingStep_clock (hstep : movingStep st act = some st') : st'.clock = act.nowTick := by
  cases act with
  | tick nowTick mk =>
    cases hstep
    rfl
  | job job socket isConnected mk nowTick travel =>
    obtain ⟨o, _, rfl⟩ := Option.map_eq_some_iff.mp hstep
    rfl

theorem member_of_step {P : RoomUser → Prop} {k : Nat} {user : RoomUser}
    (hstep : movingStep st act = some st') (hfind : st'.room.roomUser.find k = some user)
    (kept : ∀ user, st.room.roomUser.find k = some user → P user)
    (entered : ∀ session id, P (.enter session 0 0 id))
    (moved : ∀ user, st.room.roomUser.find k = some user →
      P (Room.movePosition user act.nowTick))
    (sent : ∀ {user after : RoomUser} {x y : ℚ} {travel : ℚ → Nat}, InMap x y → P user →
      Room.setOut travel user x y act.nowTick = some after → P after) : P user := by
  have hentry := movingStep_entry hstep k
  rw [hfind] at hentry
  generalize hafter : some user = after at hentry
  cases hentry with
  | kept => exact kept user hafter.symm
  | entered session id absent =>
    cases hafter
    exact entered session id
  | left leaves => contradiction
  | ticked found =>
    cases hafter
    exact moved _ found
  | sent sends found goes =>
    cases hafter
    obtain ⟨hto⟩ := sends
    exact sent hto (moved _ found) goes

end Entry

/-! ### Well-formed movements -/

structure RoomUser.WellFormed (clock : Nat) (user : RoomUser) : Prop where
  placed : user.Placed clock
  dest : InMap user.destPosX user.destPosY
  fits : user.isMove = true → user.endMoveTick < 2 ^ 64

namespace Room

theorem isMove_of_movePosition {user : RoomUser} {nowTick : Nat}
    (h : (movePosition user nowTick).isMove = true) : user.isMove = true := by
  cases hmove : user.isMove with
  | true => rfl
  | false =>
    rw [movePosition_rest hmove, hmove] at h
    exact h

theorem enter_wellFormed (session id clock : Nat) :
    (RoomUser.enter session 0 0 id).WellFormed clock := by
  have hcorner : InMap 0 0 := by
    unfold InMap MaxX MaxY
    norm_num
  exact ⟨⟨hcorner, nofun, nofun, nofun, nofun⟩, hcorner, nofun⟩

theorem movePosition_wellFormed {clock nowTick : Nat} {user : RoomUser}
    (h : user.WellFormed clock) (hclock : clock ≤ nowTick) :
    (movePosition user nowTick).WellFormed nowTick := by
  refine ⟨movePosition_placed h.placed hclock, ?_, fun hmove => ?_⟩
  · rw [movePosition_destPosX, movePosition_destPosY]
    exact h.dest
  · rw [movePosition_endMoveTick]
    exact h.fits (isMove_of_movePosition hmove)

theorem setOut_wellFormed {travel : ℚ → Nat} {user after : RoomUser} {x y : ℚ} {nowTick : Nat}
    (h : user.WellFormed nowTick) (hto : InMap x y)
    (hgoes : setOut travel user x y nowTick = some after) : after.WellFormed nowTick := by
  rcases setOut_cases hgoes with ⟨_, _, rfl⟩ | ⟨ticks, hfits, rfl⟩
  · exact h
  · refine ⟨⟨h.placed.pos, fun _ => hto, fun _ => Nat.le_refl _, fun _ => Nat.le_add_right _ _,
      fun _ => ?_⟩, hto, fun _ => hfits⟩
    change nowTick + ticks < nowTick + 2 ^ 64
    omega

end Room

theorem RoomUser.WellFormed.later {clock clock' : Nat} {user : RoomUser}
    (h : user.WellFormed clock) (hle : clock ≤ clock') : user.WellFormed clock' :=
  ⟨h.placed.later hle, h.dest, h.fits⟩

theorem RoomUser.WellFormed.stage {clock nowTick : Nat} {user : RoomUser}
    (h : user.WellFormed clock) (hclock : clock ≤ nowTick) : user.Stage nowTick :=
  h.placed.stage hclock

def MovingRoom.AllFormed (st : MovingRoom) : Prop :=
  ∀ socket user, st.room.roomUser.find socket = some user → user.WellFormed st.clock

theorem allFormed_step {st st' : MovingRoom} {act : MovingAct} (h : st.AllFormed)
    (htime : st.OnTime act) (hstep : movingStep st act = some st') : st'.AllFormed := by
  intro k user hfind
  rw [movingStep_clock hstep]
  apply member_of_step hstep hfind
  · intro before found
    exact (h k before found).later htime
  · intro session id
    exact Room.enter_wellFormed session id act.nowTick
  · intro before found
    exact Room.movePosition_wellFormed (h k before found) htime
  · intro before after x y travel hto hformed goes
    exact Room.setOut_wellFormed hformed hto goes

theorem allFormed_reaches {roomID : Int} {st : MovingRoom}
    (h : Reaches movingStep MovingRoom.OnTime (.new roomID) st) : st.AllFormed := by
  apply h.invariant
  · intro k user hfind
    rw [MovingRoom.new, Room.new, OrderedMap.find_empty] at hfind
    contradiction
  · intro st act st' _ hformed htime hstep
    exact allFormed_step hformed htime hstep

/-- Members stay inside the map, and whatever `MovePosition` is next called with, its
subtractions do not wrap, its guards do not fire and its ratio is below one. -/
theorem movement_wellFormed {roomID : Int} {st : MovingRoom}
    (h : Reaches movingStep MovingRoom.OnTime (.new roomID) st) {socket : Nat} {user : RoomUser}
    (hfind : st.room.roomUser.find socket = some user) :
    InMap user.posX user.posY ∧ InMap user.destPosX user.destPosY ∧
    (user.isMove = true →
      user.startMoveTick ≤ user.endMoveTick ∧ user.startMoveTick ≤ st.clock) ∧
    ∀ nowTick, st.clock ≤ nowTick → user.isMove = true → nowTick < user.endMoveTick →
      uint64Sub nowTick user.startMoveTick = nowTick - user.startMoveTick ∧
      ¬user.endMoveTick < user.startMoveTick ∧
      uint64Sub user.endMoveTick user.startMoveTick ≠ 0 ∧
      0 ≤ (uint64Sub nowTick user.startMoveTick : ℚ) /
        uint64Sub user.endMoveTick user.startMoveTick ∧
      (uint64Sub nowTick user.startMoveTick : ℚ) /
        uint64Sub user.endMoveTick user.startMoveTick < 1 := by
  have hformed := allFormed_reaches h socket user hfind
  refine ⟨hformed.placed.pos, hformed.dest,
    fun hmove => ⟨hformed.placed.ends hmove, hformed.placed.started hmove⟩,
    fun nowTick hclock hmove hend => ?_⟩
  have hstarted := hformed.placed.started hmove
  have hfits := hformed.fits hmove
  have hpassed : uint64Sub nowTick user.startMoveTick = nowTick - user.startMoveTick :=
    Room.uint64Sub_eq (by omega) (by omega)
  have htotal : uint64Sub user.endMoveTick user.startMoveTick =
      user.endMoveTick - user.startMoveTick := Room.uint64Sub_eq (by omega) (by omega)
  rw [hpassed, htotal]
  have hpos : (0 : ℚ) < (user.endMoveTick - user.startMoveTick : Nat) :=
    Nat.cast_pos.mpr (by omega)
  refine ⟨rfl, by omega, by omega, by positivity, ?_⟩
  rw [div_lt_one hpos]
  exact Nat.cast_lt.mpr (by omega)

def outing : List MovingAct :=
  [.job ⟨.enter, 0⟩ 5 false allMade 100 fun _ => 0,
    .job ⟨.move (.finite 2) (.finite 0), 0⟩ 5 true allMade 200 fun _ => 2000,
    .tick 700 allMade]

theorem movement_wellFormed_outing :
    ∃ st user, Reaches movingStep MovingRoom.OnTime (.new 0) st ∧
      st.room.roomUser.find 5 = some user ∧ user.isMove = true ∧
      InMap user.posX user.posY ∧ user.startMoveTick ≤ user.endMoveTick ∧
      uint64Sub user.endMoveTick user.startMoveTick ≠ 0 := by
  have hrun : (run (guarded movingStep MovingRoom.OnTime) (.new 0) outing).any (fun st => decide
      ((st.room.roomUser.find 5).any (fun user => decide (user.isMove = true ∧
        st.clock < user.endMoveTick)) = true)) = true := by decide +kernel
  obtain ⟨st, hst, hends⟩ := (Option.any_eq_true _ _).mp hrun
  obtain ⟨user, huser, hmoving⟩ := (Option.any_eq_true _ _).mp (of_decide_eq_true hends)
  obtain ⟨hmove, hend⟩ := of_decide_eq_true hmoving
  have hreaches := reaches_of_run outing .start hst
  obtain ⟨hpos, _, hticks, hratio⟩ := movement_wellFormed hreaches huser
  exact ⟨st, user, hreaches, huser, hmove, hpos, (hticks hmove).1,
    (hratio st.clock (Nat.le_refl _) hmove hend).2.2.1⟩

/-! ### Where a user ends up -/

/-- The act leaves the entry of `socket` in the room and sends it nowhere else. -/
def MovingAct.Spares (socket : Nat) : MovingAct → Prop
  | .job ⟨.move _ _, _⟩ socket' _ _ _ _ => socket' ≠ socket
  | .job ⟨.leave, _⟩ socket' isConnected _ _ _ => socket' ≠ socket ∨ isConnected = false
  | .job ⟨.enter, _⟩ _ _ _ _ _ | .job ⟨.broadcast _, _⟩ _ _ _ _ _ | .tick _ _ => True

def MovingRoom.EndsAt (st : MovingRoom) (socket : Nat) (x y : ℚ) : Prop :=
  ∃ bound, ∀ st', Reaches movingStep (fun st act => st.OnTime act ∧ act.Spares socket) st st' →
    ∀ nowTick, bound ≤ nowTick → st'.clock ≤ nowTick →
      ∃ user, st'.room.roomUser.find socket = some user ∧
        (Room.movePosition user nowTick).posX = x ∧ (Room.movePosition user nowTick).posY = y ∧
          (Room.movePosition user nowTick).isMove = false

def RoomUser.Passes (user : RoomUser) (x y : ℚ) (nowTick : Nat) : Prop :=
  user.isMove = true ∧ nowTick < user.endMoveTick ∧
    x = user.posX + (user.destPosX - user.posX) * ((nowTick : ℚ) - user.startMoveTick) /
      ((user.endMoveTick : ℚ) - user.startMoveTick) ∧
    y = user.posY + (user.destPosY - user.posY) * ((nowTick : ℚ) - user.startMoveTick) /
      ((user.endMoveTick : ℚ) - user.startMoveTick) ∧
    ¬(x = user.destPosX ∧ y = user.destPosY)

/-- At rest in (x, y), or on its way there and in time for `bound`. -/
structure RoomUser.Bound (bound : Nat) (x y : ℚ) (user : RoomUser) : Prop where
  rests : user.isMove = false → user.posX = x ∧ user.posY = y
  goes : user.isMove = true → user.destPosX = x ∧ user.destPosY = y
  ends : user.isMove = true → user.endMoveTick ≤ bound

namespace Room

theorem movePosition_bound {bound clock nowTick : Nat} {x y : ℚ} {user : RoomUser}
    (hformed : user.WellFormed clock) (hclock : clock ≤ nowTick) (h : user.Bound bound x y) :
    (movePosition user nowTick).Bound bound x y := by
  cases hformed.stage hclock with
  | rest rests =>
    rw [movePosition_rest rests]
    exact h
  | arrived moves gone =>
    rw [movePosition_arrived moves gone]
    exact ⟨fun _ => h.goes moves, nofun, nofun⟩
  | onWay moves started ends short =>
    rw [movePosition_onWay moves started ends short]
    exact ⟨fun hrest => absurd (moves.symm.trans hrest) Bool.false_ne_true.symm,
      fun _ => h.goes moves, fun _ => h.ends moves⟩

theorem arrives_of_bound {bound nowTick : Nat} {x y : ℚ} {user : RoomUser}
    (h : user.Bound bound x y) (hbound : bound ≤ nowTick) :
    (movePosition user nowTick).posX = x ∧ (movePosition user nowTick).posY = y ∧
      (movePosition user nowTick).isMove = false := by
  cases hmove : user.isMove with
  | false =>
    rw [movePosition_rest hmove]
    exact ⟨(h.rests hmove).1, (h.rests hmove).2, hmove⟩
  | true =>
    rw [movePosition_arrived hmove ((h.ends hmove).trans hbound)]
    exact ⟨(h.goes hmove).1, (h.goes hmove).2, rfl⟩

theorem movePosition_passing {nowTick : Nat} {user : RoomUser} (hmove : user.isMove = true)
    (hstart : user.startMoveTick ≤ nowTick) (hend : nowTick < user.endMoveTick)
    (hshort : user.endMoveTick < user.startMoveTick + 2 ^ 64) :
    (movePosition user nowTick).posX = user.posX + (user.destPosX - user.posX) *
        ((nowTick : ℚ) - user.startMoveTick) / ((user.endMoveTick : ℚ) - user.startMoveTick) ∧
      (movePosition user nowTick).posY = user.posY + (user.destPosY - user.posY) *
        ((nowTick : ℚ) - user.startMoveTick) / ((user.endMoveTick : ℚ) - user.startMoveTick) := by
  rw [movePosition_onWay hmove hstart hend hshort, Nat.cast_sub hstart,
    Nat.cast_sub (hstart.trans hend.le), mul_div_assoc, mul_div_assoc]
  exact ⟨rfl, rfl⟩

theorem bound_of_here {clock nowTick : Nat} {x y : ℚ} {user : RoomUser}
    (hformed : user.WellFormed clock) (hclock : clock ≤ nowTick)
    (hpasses : ¬user.Passes x y nowTick) (hx : x = (movePosition user nowTick).posX)
    (hy : y = (movePosition user nowTick).posY) :
    (movePosition user nowTick).Bound user.endMoveTick x y := by
  refine ⟨fun _ => ⟨hx.symm, hy.symm⟩, fun hmoves => ?_, fun _ => ?_⟩
  · have hmove := isMove_of_movePosition hmoves
    have hend : nowTick < user.endMoveTick := by
      by_contra hgone
      rw [movePosition_arrived hmove (Nat.le_of_not_lt hgone)] at hmoves
      exact Bool.false_ne_true hmoves
    have hway := movePosition_passing hmove ((hformed.placed.started hmove).trans hclock) hend
      (hformed.placed.short hmove)
    rw [movePosition_destPosX, movePosition_destPosY]
    by_contra helse
    exact hpasses ⟨hmove, hend, hx.trans hway.1, hy.trans hway.2,
      fun hdest => helse ⟨hdest.1.symm, hdest.2.symm⟩⟩
  · rw [movePosition_endMoveTick]

end Room

section EndsAt
variable {st st' : MovingRoom} {act : MovingAct} {socket : Nat} {user : RoomUser} {x y : ℚ}

theorem bound_step {bound : Nat} (hformed : st.AllFormed)
    (hfind : st.room.roomUser.find socket = some user) (h : user.Bound bound x y)
    (htime : st.OnTime act) (hspares : act.Spares socket) (hstep : movingStep st act = some st') :
    ∃ after, st'.room.roomUser.find socket = some after ∧ after.Bound bound x y := by
  have hentry := movingStep_entry hstep socket
  generalize hafter : st'.room.roomUser.find socket = after at hentry
  cases hentry with
  | kept => exact ⟨user, hfind, h⟩
  | entered session id absent => exact absurd (absent.symm.trans hfind) (by simp)
  | left leaves =>
    obtain ⟨session, mk, nowTick, travel, rfl⟩ := leaves
    exact absurd hspares (by simp [MovingAct.Spares])
  | ticked found =>
    rw [hfind] at found
    cases found
    exact ⟨_, rfl, Room.movePosition_bound (hformed socket user hfind) htime h⟩
  | sent sends found goes =>
    obtain ⟨hto⟩ := sends
    exact absurd rfl hspares

theorem endsAt_of_bound {bound : Nat} (hformed : st.AllFormed)
    (hfind : st.room.roomUser.find socket = some user) (h : user.Bound bound x y) :
    st.EndsAt socket x y := by
  refine ⟨bound, fun st' hreaches nowTick hbound hclock => ?_⟩
  have hinv : st'.AllFormed ∧
      ∃ after, st'.room.roomUser.find socket = some after ∧ after.Bound bound x y := by
    apply hreaches.invariant ⟨hformed, user, hfind, h⟩
    rintro mid act next _ ⟨hmid, after, hafter, hboundMid⟩ ⟨htime, hspares⟩ hstep
    exact ⟨allFormed_step hmid htime hstep,
      bound_step hmid hafter hboundMid htime hspares hstep⟩
  obtain ⟨_, after, hafter, hboundAfter⟩ := hinv
  exact ⟨after, hafter, Room.arrives_of_bound hboundAfter hbound⟩

theorem move_goes {session nowTick : Nat} {mk : Nat → Bool} {travel : ℚ → Nat} (hto : InMap x y)
    (hfind : st.room.roomUser.find socket = some user)
    (hstep : movingStep st (.job ⟨.move (.finite x) (.finite y), session⟩ socket true mk nowTick
      travel) = some st') :
    ∃ after, st'.room.roomUser.find socket = some after ∧
      Room.setOut travel (Room.movePosition user nowTick) x y nowTick = some after := by
  obtain ⟨hx, hx', hy, hy'⟩ := hto
  obtain ⟨o, ho, rfl⟩ := Option.map_eq_some_iff.mp hstep
  change st.room.moveTravel travel socket true (.finite x) (.finite y) nowTick = some o at ho
  unfold Room.moveTravel at ho
  dsimp only at ho
  rw [if_neg (by simp [not_lt.mpr hx, not_le.mpr hx', not_lt.mpr hy, not_le.mpr hy']), hfind] at ho
  obtain ⟨after, hafter, rfl⟩ := Option.map_eq_some_iff.mp ho
  refine ⟨after, ?_, hafter⟩
  change (st.room.roomUser.set socket after).find socket = some after
  rw [OrderedMap.find_set, if_pos rfl, hfind]
  rfl

theorem sent_goes (hsends : act.Sends socket x y)
    (hfind : st.room.roomUser.find socket = some user) (hstep : movingStep st act = some st') :
    ∃ travel after, st'.room.roomUser.find socket = some after ∧
      Room.setOut travel (Room.movePosition user act.nowTick) x y act.nowTick = some after := by
  obtain ⟨hto⟩ := hsends
  exact ⟨_, move_goes hto hfind hstep⟩

/-- The last destination wins, but a request for the very place that the user is passing
is one that `Move` takes for done: the user goes on to where it was going. -/
theorem move_endsAt {roomID : Int} (h : Reaches movingStep MovingRoom.OnTime (.new roomID) st)
    (hfind : st.room.roomUser.find socket = some user) (htime : st.OnTime act)
    (hsends : act.Sends socket x y) (hstep : movingStep st act = some st') :
    (¬user.Passes x y act.nowTick → st'.EndsAt socket x y) ∧
      (user.Passes x y act.nowTick → st'.EndsAt socket user.destPosX user.destPosY) := by
  have hformed := allFormed_reaches h
  have hformed' := allFormed_step hformed htime hstep
  have huser := hformed socket user hfind
  obtain ⟨travel, after, hafter, hgoes⟩ := sent_goes hsends hfind hstep
  refine ⟨fun hpasses => ?_, fun hpasses => ?_⟩
  · rcases Room.setOut_cases hgoes with ⟨hx, hy, rfl⟩ | ⟨ticks, hfits, rfl⟩
    · exact endsAt_of_bound hformed' hafter (Room.bound_of_here huser htime hpasses hx hy)
    · apply endsAt_of_bound hformed' hafter
      exact RoomUser.Bound.mk nofun (fun _ => ⟨rfl, rfl⟩) fun _ => Nat.le_refl _
  · obtain ⟨hmove, hend, hx, hy, _⟩ := hpasses
    have hway := Room.movePosition_passing hmove ((huser.placed.started hmove).trans htime) hend
      (huser.placed.short hmove)
    rw [hx.trans hway.1.symm, hy.trans hway.2.symm] at hgoes
    rw [Room.setOut_here hgoes] at hafter
    have hbefore : user.Bound user.endMoveTick user.destPosX user.destPosY :=
      ⟨fun hrest => absurd (hmove.symm.trans hrest) Bool.false_ne_true.symm,
        fun _ => ⟨rfl, rfl⟩, fun _ => Nat.le_refl _⟩
    exact endsAt_of_bound hformed' hafter (Room.movePosition_bound huser htime hbefore)

end EndsAt

def redirect (x y : ℚ) : MovingAct :=
  .job ⟨.move (.finite x) (.finite y), 0⟩ 5 true allMade 1200 fun _ => 1000

/-- It turns around where it is. -/
theorem move_endsAt_redirected :
    ∃ st st' user, Reaches movingStep MovingRoom.OnTime (.new 0) st ∧
      st.room.roomUser.find 5 = some user ∧ user.isMove = true ∧
      movingStep st (redirect 0 0) = some st' ∧ st'.EndsAt 5 0 0 := by
  have hrun : (run (guarded movingStep MovingRoom.OnTime) (.new 0) outing).any (fun st => decide
      (st.clock ≤ 1200 ∧ (st.room.roomUser.find 5).any (fun user => decide (user.isMove = true ∧
        user.posX = 1 / 2 ∧ user.destPosX = 2 ∧ user.startMoveTick = 700 ∧
          user.endMoveTick = 2200)) = true ∧
        (movingStep st (redirect 0 0)).isSome = true)) = true := by decide +kernel
  obtain ⟨st, hst, hends⟩ := (Option.any_eq_true _ _).mp hrun
  obtain ⟨hclock, hfound, hstep⟩ := of_decide_eq_true hends
  obtain ⟨user, huser, hfields⟩ := (Option.any_eq_true _ _).mp hfound
  obtain ⟨hmove, hpos, hdest, hstart, hend⟩ := of_decide_eq_true hfields
  obtain ⟨st', hst'⟩ := Option.isSome_iff_exists.mp hstep
  have hreaches := reaches_of_run outing .start hst
  have htime : st.OnTime (redirect 0 0) := hclock
  refine ⟨st, st', user, hreaches, huser, hmove, hst',
    (move_endsAt hreaches huser htime (.job ?_) hst').1 ?_⟩
  · unfold InMap MaxX MaxY
    norm_num
  · rintro ⟨_, _, hx, _⟩
    rw [hpos, hdest, hstart, hend] at hx
    change (0 : ℚ) = 1 / 2 + (2 - 1 / 2) * ((1200 : Nat) - (700 : Nat)) /
      ((2200 : Nat) - (700 : Nat)) at hx
    norm_num at hx

/-- It asks for (1, 0), where it is, and goes on to (2, 0). -/
theorem passing_ignored :
    ∃ st st', Reaches movingStep MovingRoom.OnTime (.new 0) st ∧
      (st.room.roomUser.find 5).isSome = true ∧ st.OnTime (redirect 1 0) ∧
      (redirect 1 0).Sends 5 1 0 ∧ movingStep st (redirect 1 0) = some st' ∧
      ¬st'.EndsAt 5 1 0 := by
  have hrun : (run (guarded movingStep MovingRoom.OnTime) (.new 0) outing).any (fun st => decide
      (st.clock ≤ 1200 ∧ (st.room.roomUser.find 5).isSome = true ∧
        (movingStep st (redirect 1 0)).any (fun st' => decide
          ((st'.room.roomUser.find 5).any (fun user => decide (user.isMove = true ∧
            user.destPosX = 2 ∧ user.endMoveTick = 2200)) = true)) = true)) = true := by
    decide +kernel
  obtain ⟨st, hst, hends⟩ := (Option.any_eq_true _ _).mp hrun
  obtain ⟨hclock, hfound, hstep⟩ := of_decide_eq_true hends
  obtain ⟨st', hst', hafter⟩ := (Option.any_eq_true _ _).mp hstep
  obtain ⟨user, huser, hfields⟩ := (Option.any_eq_true _ _).mp (of_decide_eq_true hafter)
  obtain ⟨hmove, hdest, hend⟩ := of_decide_eq_true hfields
  refine ⟨st, st', reaches_of_run outing .start hst, hfound, hclock, .job ?_, hst', ?_⟩
  · unfold InMap MaxX MaxY
    norm_num
  · rintro ⟨bound, harrives⟩
    obtain ⟨other, hother, hx, _⟩ := harrives st' .start (max bound (max st'.clock 2200))
      (le_max_left _ _) ((le_max_left _ _).trans (le_max_right _ _))
    rw [huser] at hother
    cases hother
    have hgone : user.endMoveTick ≤ max bound (max st'.clock 2200) := by
      rw [hend]
      exact (le_max_right _ _).trans (le_max_right _ _)
    rw [Room.movePosition_arrived hmove hgone] at hx
    dsimp only at hx
    rw [hdest] at hx
    norm_num at hx

end RoomServer
