import Mathlib.Tactic.LinearCombination
import RoomServer.Library.Plane
import RoomServer.MovementRuns

/-! How far a user gets in a time. `Move` cuts the arrival to whole ticks, so that a user is
up to a tick ahead of `MoveSpeed` when it arrives; and every `Move` may put it ahead again. -/
namespace RoomServer
open Library Library.Transition Library.Plane

namespace RoomUser

def point (user : RoomUser) : Point := ⟨user.posX, user.posY⟩

def dest (user : RoomUser) : Point := ⟨user.destPosX, user.destPosY⟩

end RoomUser

noncomputable def atSpeed (distance : ℝ) : ℝ := 1000 / MoveSpeed * distance

namespace Room

noncomputable def headStart (dist2 : ℚ) : ℝ := atSpeed √dist2 - travelTick dist2

/-- The ticks that a user who is on its way will have gained when it arrives. -/
noncomputable def lead (user : RoomUser) : ℝ :=
  if user.isMove then
    atSpeed (user.point.distance user.dest) - ((user.endMoveTick : ℝ) - user.startMoveTick)
  else 0

theorem moveSpeed_pos : (0 : ℝ) < 1000 / MoveSpeed := by
  unfold MoveSpeed
  norm_num

theorem atSpeed_mono {near far : ℝ} (h : near ≤ far) : atSpeed near ≤ atSpeed far :=
  mul_le_mul_of_nonneg_left h moveSpeed_pos.le

theorem atSpeed_sqrt {dist2 : ℚ} :
    atSpeed √dist2 = √(dist2 / MoveSpeed ^ 2 * 1000 ^ 2 : ℚ) := by
  have hsquare : ((dist2 / MoveSpeed ^ 2 * 1000 ^ 2 : ℚ) : ℝ) =
      (1000 / MoveSpeed : ℝ) ^ 2 * dist2 := by
    push_cast
    ring
  rw [hsquare, Real.sqrt_mul (sq_nonneg _), Real.sqrt_sq moveSpeed_pos.le, atSpeed]

theorem headStart_bounds {dist2 : ℚ} (h : 0 ≤ dist2) : 0 ≤ headStart dist2 ∧ headStart dist2 < 1 := by
  have hscaled : 0 ≤ dist2 / MoveSpeed ^ 2 * 1000 ^ 2 := by
    unfold MoveSpeed
    positivity
  have hbelow : travelTick dist2 ^ 2 ≤ ⌊dist2 / MoveSpeed ^ 2 * 1000 ^ 2⌋₊ := Nat.sqrt_le' _
  have habove : ⌊dist2 / MoveSpeed ^ 2 * 1000 ^ 2⌋₊ < (travelTick dist2 + 1) ^ 2 :=
    Nat.lt_succ_sqrt' _
  rw [Nat.le_floor_iff hscaled] at hbelow
  rw [Nat.floor_lt hscaled] at habove
  have hbelow : (travelTick dist2 : ℝ) ^ 2 ≤ (dist2 / MoveSpeed ^ 2 * 1000 ^ 2 : ℚ) := by
    exact_mod_cast hbelow
  have habove : ((dist2 / MoveSpeed ^ 2 * 1000 ^ 2 : ℚ) : ℝ) < (travelTick dist2 + 1 : ℝ) ^ 2 := by
    exact_mod_cast habove
  rw [headStart, atSpeed_sqrt]
  constructor
  · rw [sub_nonneg]
    exact Real.le_sqrt_of_sq_le hbelow
  · rw [sub_lt_iff_lt_add']
    rwa [Real.sqrt_lt' (by positivity)]

/-! ### One call of `MovePosition` -/

section
variable {user : RoomUser} {clock nowTick : Nat}

theorem lead_rest (h : user.isMove = false) : lead user = 0 := by
  rw [lead, if_neg (by rw [h]; decide)]

theorem lead_moving (h : user.isMove = true) :
    lead user = atSpeed (user.point.distance user.dest) -
      ((user.endMoveTick : ℝ) - user.startMoveTick) := if_pos h

theorem movePosition_point_arrived (hmove : user.isMove = true)
    (hend : user.endMoveTick ≤ nowTick) : (movePosition user nowTick).point = user.dest := by
  rw [movePosition_arrived hmove hend]
  rfl

theorem lead_arrived (hmove : user.isMove = true) (hend : user.endMoveTick ≤ nowTick) :
    lead (movePosition user nowTick) = 0 := by
  rw [movePosition_arrived hmove hend]
  exact lead_rest rfl

theorem movePosition_point_onWay (hmove : user.isMove = true)
    (hstart : user.startMoveTick ≤ nowTick) (hend : nowTick < user.endMoveTick)
    (hshort : user.endMoveTick < user.startMoveTick + 2 ^ 64) :
    ∃ r : ℚ, 0 ≤ r ∧ r ≤ 1 ∧
      (r : ℝ) * ((user.endMoveTick : ℝ) - user.startMoveTick) = nowTick - user.startMoveTick ∧
      (movePosition user nowTick).point = user.point.towards user.dest r ∧
      lead (movePosition user nowTick) = (1 - r) * lead user := by
  have hpos : (0 : ℚ) < (user.endMoveTick - user.startMoveTick : Nat) :=
    Nat.cast_pos.mpr (by omega)
  have hle : nowTick - user.startMoveTick ≤ user.endMoveTick - user.startMoveTick := by omega
  have hshare : ((nowTick - user.startMoveTick : Nat) : ℚ) /
      (user.endMoveTick - user.startMoveTick : Nat) ≤ 1 :=
    div_le_one_of_le₀ (Nat.cast_le.mpr hle) (Nat.cast_nonneg _)
  have hscaled : (((nowTick - user.startMoveTick : Nat) /
      (user.endMoveTick - user.startMoveTick : Nat) : ℚ) : ℝ) *
        ((user.endMoveTick : ℝ) - user.startMoveTick) = nowTick - user.startMoveTick := by
    have hcast : ((user.endMoveTick - user.startMoveTick : Nat) : ℝ) ≠ 0 :=
      Nat.cast_ne_zero.mpr (by omega)
    rw [← Nat.cast_sub (hstart.trans hend.le), ← Nat.cast_sub hstart, Rat.cast_div,
      Rat.cast_natCast, Rat.cast_natCast, div_mul_cancel₀ _ hcast]
  refine ⟨_, by positivity, hshare, hscaled, ?_, ?_⟩
  · rw [movePosition_onWay hmove hstart hend hshort]
    rfl
  · have hmoving : (movePosition user nowTick).isMove = true := by
      rw [movePosition_onWay hmove hstart hend hshort]
      exact hmove
    rw [lead_moving hmoving, lead_moving hmove, movePosition_endMoveTick,
      movePosition_onWay hmove hstart hend hshort]
    change atSpeed ((user.point.towards user.dest _).distance user.dest) -
      ((user.endMoveTick : ℝ) - nowTick) = _
    rw [Point.towards_distance hshare, atSpeed, atSpeed]
    linear_combination -hscaled

/-- A user is as far as the time since its start allows, and as it was ahead. -/
theorem movePosition_advance (hformed : user.WellFormed clock) (hclock : clock ≤ nowTick)
    {since : Nat} (hsince : since ≤ nowTick)
    (hstart : user.isMove = true → since ≤ user.startMoveTick) :
    atSpeed (user.point.distance (movePosition user nowTick).point) +
      lead (movePosition user nowTick) ≤ lead user + ((nowTick : ℝ) - since) := by
  have hsince : (since : ℝ) ≤ nowTick := Nat.cast_le.mpr hsince
  cases hformed.stage hclock with
  | rest rests =>
    rw [movePosition_rest rests, Point.distance_self, lead_rest rests, atSpeed]
    linarith
  | arrived moves gone =>
    have hlater : (since : ℝ) ≤ user.startMoveTick := Nat.cast_le.mpr (hstart moves)
    have hgone : (user.endMoveTick : ℝ) ≤ nowTick := Nat.cast_le.mpr gone
    rw [movePosition_point_arrived moves gone, lead_arrived moves gone, lead_moving moves]
    linarith
  | onWay moves started ends short =>
    have hlater : (since : ℝ) ≤ user.startMoveTick := Nat.cast_le.mpr (hstart moves)
    obtain ⟨r, hr, _, hscaled, hpoint, hlead⟩ :=
      movePosition_point_onWay moves started ends short
    rw [hpoint, hlead, Point.distance_towards hr, lead_moving moves, atSpeed, atSpeed]
    linarith

theorem lead_movePosition (hformed : user.WellFormed clock) (hclock : clock ≤ nowTick)
    (h : 0 ≤ lead user ∧ lead user < 1) :
    0 ≤ lead (movePosition user nowTick) ∧ lead (movePosition user nowTick) < 1 := by
  cases hformed.stage hclock with
  | rest rests => rwa [movePosition_rest rests]
  | arrived moves gone =>
    rw [lead_arrived moves gone]
    exact ⟨le_refl 0, zero_lt_one⟩
  | onWay moves started ends short =>
    obtain ⟨r, hr, hr', _, _, hlead⟩ := movePosition_point_onWay moves started ends short
    have hr : (0 : ℝ) ≤ r := Rat.cast_nonneg.mpr hr
    have hr' : (r : ℝ) ≤ 1 := by exact_mod_cast hr'
    rw [hlead]
    constructor
    · exact mul_nonneg (sub_nonneg.mpr hr') h.1
    · nlinarith

/-- A call in between changes nothing for a later one. -/
theorem movePosition_later {later : Nat} (hformed : user.WellFormed clock)
    (hclock : clock ≤ nowTick) (hlater : nowTick ≤ later) :
    (movePosition (movePosition user nowTick) later).point = (movePosition user later).point ∧
      lead (movePosition (movePosition user nowTick) later) = lead (movePosition user later) := by
  cases hformed.stage hclock with
  | rest rests =>
    rw [movePosition_rest rests nowTick]
    exact ⟨rfl, rfl⟩
  | arrived moves gone =>
    have hgone := gone.trans hlater
    rw [movePosition_point_arrived moves hgone, lead_arrived moves hgone,
      movePosition_arrived moves gone, movePosition_rest rfl]
    exact ⟨rfl, lead_rest rfl⟩
  | onWay moves started ends short =>
    by_cases hend : later < user.endMoveTick
    · rw [movePosition_twice moves (hformed.fits moves) started hlater hend]
      exact ⟨rfl, rfl⟩
    · have hgone := Nat.le_of_not_lt hend
      have hmoving : (movePosition user nowTick).isMove = true := by
        rw [movePosition_onWay moves started ends short]
        exact moves
      have hgone' : (movePosition user nowTick).endMoveTick ≤ later := by
        rwa [movePosition_endMoveTick]
      rw [movePosition_point_arrived moves hgone, lead_arrived moves hgone,
        movePosition_point_arrived hmoving hgone', lead_arrived hmoving hgone',
        RoomUser.dest, movePosition_destPosX, movePosition_destPosY]
      exact ⟨rfl, rfl⟩

end

end Room

/-! ### Over a run -/

namespace MovingAct

def Exact : MovingAct → Prop
  | .job _ _ _ _ _ travel => travel = Room.travelTick
  | .tick _ _ => True

def Removes (socket : Nat) (act : MovingAct) : Prop :=
  ∃ session mk nowTick travel, act = .job ⟨.leave, session⟩ socket true mk nowTick travel

def way (socket : Nat) (user : RoomUser) : MovingAct → Option ℚ
  | .job ⟨.move (.finite x) (.finite y), _⟩ socket' isConnected _ nowTick _ =>
    if socket' = socket ∧ isConnected = true ∧ 0 ≤ x ∧ x < MaxX ∧ 0 ≤ y ∧ y < MaxY then
      some ((Room.movePosition user nowTick).point.dist2 ⟨x, y⟩)
    else none
  | _ => none

/-- What a new way gains, less what the way that it replaces had still to gain. -/
noncomputable def gain (socket : Nat) (user : RoomUser) (act : MovingAct) : ℝ :=
  match act.way socket user with
  | some dist2 =>
    if 0 < dist2 then
      Room.headStart dist2 - Room.lead (Room.movePosition user act.nowTick)
    else 0
  | none => 0

theorem way_some {socket : Nat} {user : RoomUser} {act : MovingAct} {dist2 : ℚ}
    (h : act.way socket user = some dist2) :
    ∃ x y session mk nowTick travel, InMap x y ∧
      act = .job ⟨.move (.finite x) (.finite y), session⟩ socket true mk nowTick travel ∧
      dist2 = (Room.movePosition user nowTick).point.dist2 ⟨x, y⟩ := by
  unfold way at h
  split at h
  case h_1 x y session socket' isConnected mk nowTick travel =>
    split at h
    case isTrue hheard =>
      obtain ⟨rfl, rfl, hto⟩ := hheard
      exact ⟨x, y, session, mk, nowTick, travel, hto, rfl, (Option.some.inj h).symm⟩
    case isFalse => contradiction
  case h_2 => contradiction

theorem Sends.way {socket : Nat} {x y : ℚ} {act : MovingAct} (h : act.Sends socket x y)
    (user : RoomUser) : act.way socket user ≠ none := by
  cases h with
  | job inMap => simp [MovingAct.way, inMap.1, inMap.2.1, inMap.2.2.1, inMap.2.2.2]

end MovingAct

inductive MovingAct.Fate (act : MovingAct) (socket : Nat) (user : RoomUser) :
    Option RoomUser → Prop where
  | kept (unasked : act.way socket user = none) : Fate act socket user (some user)
  | ticked (unasked : act.way socket user = none) :
      Fate act socket user (some (Room.movePosition user act.nowTick))
  | left (removes : act.Removes socket) : Fate act socket user none
  | sent {x y : ℚ} {after : RoomUser} (inMap : InMap x y)
      (asked : act.way socket user =
        some ((Room.movePosition user act.nowTick).point.dist2 ⟨x, y⟩))
      (goes : Room.setOut Room.travelTick (Room.movePosition user act.nowTick) x y act.nowTick =
        some after) : Fate act socket user (some after)

section Fate
variable {st st' : MovingRoom} {act : MovingAct} {socket : Nat} {user : RoomUser}

theorem movingStep_fate (hexact : act.Exact) (hfind : st.room.roomUser.find socket = some user)
    (hstep : movingStep st act = some st') :
    act.Fate socket user (st'.room.roomUser.find socket) := by
  cases hway : act.way socket user with
  | some dist2 =>
    obtain ⟨x, y, session, mk, nowTick, travel, hto, rfl, rfl⟩ := MovingAct.way_some hway
    obtain rfl : travel = Room.travelTick := hexact
    obtain ⟨after, hafter, hgoes⟩ := move_goes hto hfind hstep
    rw [hafter]
    exact .sent hto hway hgoes
  | none =>
    have hentry := movingStep_entry hstep socket
    generalize st'.room.roomUser.find socket = found at hentry
    cases hentry with
    | kept =>
      rw [hfind]
      exact .kept hway
    | entered session id absent => exact absurd (absent.symm.trans hfind) (by simp)
    | left leaves => exact .left leaves
    | ticked found =>
      rw [hfind] at found
      cases found
      exact .ticked hway
    | sent sends found goes => exact absurd hway (sends.way user)

theorem setOut_exact {x y : ℚ} {after : RoomUser} {nowTick : Nat}
    (h : Room.setOut Room.travelTick user x y nowTick = some after) :
    (¬0 < user.point.dist2 ⟨x, y⟩ ∧ after = user) ∨
      0 < user.point.dist2 ⟨x, y⟩ ∧ after.point = user.point ∧ after.startMoveTick = nowTick ∧
        Room.lead after = Room.headStart (user.point.dist2 ⟨x, y⟩) := by
  unfold Room.setOut at h
  dsimp only at h
  split at h
  case isTrue hhere => exact .inl ⟨not_lt.mpr hhere, (Option.some.inj h).symm⟩
  case isFalse hway =>
    split at h
    case isTrue => contradiction
    case isFalse =>
      obtain rfl := Option.some.inj h
      refine .inr ⟨not_le.mp hway, rfl, rfl, ?_⟩
      rw [Room.lead_moving rfl, Room.headStart]
      dsimp only
      rw [Nat.cast_add, add_sub_cancel_left]
      rfl

theorem gain_none (h : act.way socket user = none) : act.gain socket user = 0 := by
  rw [MovingAct.gain, h]

theorem gain_some {dist2 : ℚ} (h : act.way socket user = some dist2) (hpos : 0 < dist2) :
    act.gain socket user =
      Room.headStart dist2 - Room.lead (Room.movePosition user act.nowTick) := by
  rw [MovingAct.gain, h]
  exact if_pos hpos

theorem gain_here {dist2 : ℚ} (h : act.way socket user = some dist2) (hpos : ¬0 < dist2) :
    act.gain socket user = 0 := by
  rw [MovingAct.gain, h]
  exact if_neg hpos

end Fate

namespace MovingRoom

/-- Everybody will arrive too early, but by less than a tick. -/
def AllAhead (st : MovingRoom) : Prop :=
  ∀ socket user, st.room.roomUser.find socket = some user →
    0 ≤ Room.lead user ∧ Room.lead user < 1

/-- From now on the user is no farther from `origin` than `MoveSpeed` takes it in the time
since `since` and in `budget` ticks more, of which it keeps what it is still ahead. -/
def Within (st : MovingRoom) (socket : Nat) (origin : Point) (since : Nat) (budget : ℝ) : Prop :=
  ∃ user, st.room.roomUser.find socket = some user ∧ ∀ nowTick, st.clock ≤ nowTick →
    atSpeed (origin.distance (Room.movePosition user nowTick).point) +
      Room.lead (Room.movePosition user nowTick) ≤ (nowTick : ℝ) - since + budget

noncomputable def gained (socket : Nat) : MovingRoom → List MovingAct → ℝ
  | _, [] => 0
  | st, act :: rest =>
    ((st.room.roomUser.find socket).elim 0 fun user => act.gain socket user) +
      (movingStep st act).elim 0 fun st' => gained socket st' rest

end MovingRoom

section Run
variable {st st' : MovingRoom} {act : MovingAct} {socket : Nat} {user : RoomUser}

theorem entered_of_absent (hstep : movingStep st act = some st')
    (habsent : st.room.roomUser.find socket = none)
    (hfind : st'.room.roomUser.find socket = some user) :
    ∃ session id, user = .enter session 0 0 id := by
  have hentry := movingStep_entry hstep socket
  rw [hfind] at hentry
  generalize hafter : some user = after at hentry
  cases hentry with
  | kept =>
    rw [habsent] at hafter
    contradiction
  | entered session id absent => exact ⟨session, id, Option.some.inj hafter⟩
  | left leaves => contradiction
  | ticked found =>
    rw [habsent] at found
    contradiction
  | sent sends found goes =>
    rw [habsent] at found
    contradiction

theorem allAhead_step (hformed : st.AllFormed) (h : st.AllAhead) (htime : st.OnTime act)
    (hexact : act.Exact) (hstep : movingStep st act = some st') : st'.AllAhead := by
  intro k user hfind
  cases hbefore : st.room.roomUser.find k with
  | none =>
    obtain ⟨session, id, rfl⟩ := entered_of_absent hstep hbefore hfind
    rw [Room.lead_rest rfl]
    exact ⟨le_refl 0, zero_lt_one⟩
  | some before =>
    have hmoved := Room.lead_movePosition (hformed k before hbefore) htime (h k before hbefore)
    have hfate := movingStep_fate hexact hbefore hstep
    rw [hfind] at hfate
    generalize hafter : some user = after at hfate
    cases hfate with
    | kept unasked =>
      cases hafter
      exact h k user hbefore
    | ticked unasked =>
      cases hafter
      exact hmoved
    | left removes => contradiction
    | sent inMap asked goes =>
      cases hafter
      rcases setOut_exact goes with ⟨_, rfl⟩ | ⟨hpos, _, _, hlead⟩
      · exact hmoved
      · rw [hlead]
        exact Room.headStart_bounds hpos.le

theorem within_step {origin : Point} {since : Nat} {budget : ℝ} (hformed : st.AllFormed)
    (h : st.Within socket origin since budget) (htime : st.OnTime act) (hexact : act.Exact)
    (hstays : ¬act.Removes socket) (hstep : movingStep st act = some st') :
    st'.Within socket origin since
      (budget + (st.room.roomUser.find socket).elim 0 fun user => act.gain socket user) := by
  obtain ⟨user, hfind, hwithin⟩ := h
  have huser := hformed socket user hfind
  have hclock := movingStep_clock hstep
  have hmoved : act.gain socket user = 0 → ∀ nowTick, st'.clock ≤ nowTick →
      atSpeed (origin.distance
          (Room.movePosition (Room.movePosition user act.nowTick) nowTick).point) +
        Room.lead (Room.movePosition (Room.movePosition user act.nowTick) nowTick) ≤
          (nowTick : ℝ) - since + (budget + act.gain socket user) := by
    intro hnothing nowTick hnow
    rw [hclock] at hnow
    obtain ⟨hpoint, hlead⟩ := Room.movePosition_later huser htime hnow
    rw [hpoint, hlead, hnothing, add_zero]
    exact hwithin nowTick (htime.trans hnow)
  have hfate := movingStep_fate hexact hfind hstep
  rw [hfind, Option.elim_some]
  generalize hafter : st'.room.roomUser.find socket = found at hfate
  cases hfate with
  | kept unasked =>
    refine ⟨user, hafter, fun nowTick hnow => ?_⟩
    rw [gain_none unasked, add_zero]
    exact hwithin nowTick (htime.trans (hclock ▸ hnow))
  | ticked unasked => exact ⟨_, hafter, hmoved (gain_none unasked)⟩
  | left removes => exact absurd removes hstays
  | sent inMap asked goes =>
    rename_i x y after
    rcases setOut_exact goes with ⟨hhere, rfl⟩ | ⟨hpos, hpoint, hstart, hlead⟩
    · exact ⟨_, hafter, hmoved (gain_here asked hhere)⟩
    · refine ⟨after, hafter, fun nowTick hnow => ?_⟩
      rw [hclock] at hnow
      have hformed' := Room.setOut_wellFormed (Room.movePosition_wellFormed huser htime) inMap goes
      have hbefore := hwithin act.nowTick htime
      have hadvance := Room.movePosition_advance hformed' hnow hnow fun _ => hstart.ge
      have hturn := Room.atSpeed_mono (origin.distance_triangle after.point
        (Room.movePosition after nowTick).point)
      rw [atSpeed, atSpeed, mul_add] at hturn
      rw [hlead] at hadvance
      rw [← hpoint] at hbefore
      rw [gain_some asked hpos]
      unfold atSpeed at hadvance hbefore ⊢
      linarith

theorem within_run {origin : Point} {since : Nat} {budget : ℝ} {acts : List MovingAct}
    (hformed : st.AllFormed) (hahead : st.AllAhead) (h : st.Within socket origin since budget)
    (hacts : ∀ act ∈ acts, act.Exact ∧ ¬act.Removes socket)
    (hrun : run (guarded movingStep MovingRoom.OnTime) st acts = some st') :
    st'.AllFormed ∧ st'.AllAhead ∧
      st'.Within socket origin since (budget + MovingRoom.gained socket st acts) := by
  induction acts generalizing st budget with
  | nil =>
    obtain rfl := Option.some.inj hrun
    rw [MovingRoom.gained, add_zero]
    exact ⟨hformed, hahead, h⟩
  | cons act rest ih =>
    obtain ⟨middle, hguarded, hrest⟩ := Option.bind_eq_some_iff.mp hrun
    obtain ⟨htime, hstep⟩ := guarded_eq_some hguarded
    obtain ⟨hexact, hstays⟩ := hacts act List.mem_cons_self
    have hnext := within_step hformed h htime hexact hstays hstep
    rw [MovingRoom.gained, hstep, Option.elim_some, ← add_assoc]
    exact ih (allFormed_step hformed htime hstep)
      (allAhead_step hformed hahead htime hexact hstep) hnext
      (fun other hother => hacts other (List.mem_cons_of_mem _ hother)) hrest

theorem movePosition_startMoveTick {clock nowTick : Nat} (hformed : user.WellFormed clock)
    (hclock : clock ≤ nowTick) (h : (Room.movePosition user nowTick).isMove = true) :
    (Room.movePosition user nowTick).startMoveTick = nowTick := by
  cases hformed.stage hclock with
  | rest rests =>
    rw [Room.movePosition_rest rests, rests] at h
    exact absurd h Bool.false_ne_true
  | arrived moves gone =>
    rw [Room.movePosition_arrived moves gone] at h
    exact absurd h Bool.false_ne_true
  | onWay moves started ends short => rw [Room.movePosition_onWay moves started ends short]

theorem within_start {since : Nat} (hformed : st.AllFormed)
    (hfind : st.room.roomUser.find socket = some user) (hclock : st.clock ≤ since) :
    MovingRoom.Within ⟨st.room, since⟩ socket (Room.movePosition user since).point since
      (Room.lead (Room.movePosition user since)) := by
  have huser := hformed socket user hfind
  refine ⟨user, hfind, fun nowTick hnow => ?_⟩
  obtain ⟨hpoint, hlead⟩ := Room.movePosition_later huser hclock hnow
  have hadvance := Room.movePosition_advance (Room.movePosition_wellFormed huser hclock) hnow hnow
    fun hmoving => (movePosition_startMoveTick huser hclock hmoving).ge
  rw [hpoint, hlead] at hadvance
  linarith

theorem gained_none {acts : List MovingAct}
    (h : ∀ act ∈ acts, ∀ user, act.way socket user = none) (st : MovingRoom) :
    MovingRoom.gained socket st acts = 0 := by
  induction acts generalizing st with
  | nil => rfl
  | cons act rest ih =>
    have hfirst : ((st.room.roomUser.find socket).elim 0 fun user => act.gain socket user) = 0 := by
      cases st.room.roomUser.find socket with
      | none => rfl
      | some user => exact gain_none (h act List.mem_cons_self user)
    have hrest : ((movingStep st act).elim 0 fun st' => MovingRoom.gained socket st' rest) = 0 := by
      cases movingStep st act with
      | none => rfl
      | some st' => exact ih (fun other hother => h other (List.mem_cons_of_mem _ hother)) st'
    rw [MovingRoom.gained, hfirst, hrest, add_zero]

/-- The turns of a room whose ways take what `Move` computes, in the order of the clock. -/
def MovingRoom.Timed (st : MovingRoom) (act : MovingAct) : Prop := st.OnTime act ∧ act.Exact

theorem allAhead_reaches {roomID : Int}
    (h : Reaches movingStep MovingRoom.Timed (.new roomID) st) : st.AllFormed ∧ st.AllAhead := by
  apply h.invariant
  · exact ⟨allFormed_reaches .start, nofun⟩
  · rintro st act st' _ ⟨hformed, hahead⟩ ⟨htime, hexact⟩ hstep
    exact ⟨allFormed_step hformed htime hstep,
      allAhead_step hformed hahead htime hexact hstep⟩

/-- Between `t0` and `t1` a member goes as far as `MoveSpeed` takes it in that time and in
the ticks that it is ahead at `t0` or gains by its requests; so while these are one at most
it is no faster than the cut of a single arrival allows, and without a request they are. -/
theorem speed_bounded {roomID : Int}
    (h : Reaches movingStep MovingRoom.Timed (.new roomID) st)
    (hfind : st.room.roomUser.find socket = some user) {t0 t1 : Nat} (hclock : st.clock ≤ t0)
    {acts : List MovingAct} (hacts : ∀ act ∈ acts, act.Exact ∧ ¬act.Removes socket)
    (hrun : run (guarded movingStep MovingRoom.OnTime) ⟨st.room, t0⟩ acts = some st')
    (hlast : st'.clock ≤ t1) :
    ∃ after, st'.room.roomUser.find socket = some after ∧
      let distance := (Room.movePosition user t0).point.distance (Room.movePosition after t1).point
      let ahead := Room.lead (Room.movePosition user t0) +
        MovingRoom.gained socket ⟨st.room, t0⟩ acts
      distance ≤ (MoveSpeed : ℝ) * (t1 - t0) / 1000 + MoveSpeed / 1000 * ahead ∧
        (ahead ≤ 1 → distance ≤ (MoveSpeed : ℝ) * (t1 - t0) / 1000 + MoveSpeed / 1000) ∧
        ((∀ act ∈ acts, ∀ user, act.way socket user = none) → ahead ≤ 1) := by
  obtain ⟨hformed, hahead⟩ := allAhead_reaches h
  have hformed0 : MovingRoom.AllFormed ⟨st.room, t0⟩ := fun k other hother =>
    (hformed k other hother).later hclock
  obtain ⟨hformed', hahead', after, hafter, hwithin⟩ :=
    within_run hformed0 hahead (within_start hformed hfind hclock) hacts hrun
  have hlead := Room.lead_movePosition (hformed' socket after hafter) hlast
    (hahead' socket after hafter)
  have hbound := hwithin t1 hlast
  refine ⟨after, hafter, ?_⟩
  intro distance ahead
  have hspeed : (MoveSpeed : ℝ) = 1 := by
    unfold MoveSpeed
    norm_num
  have hdistance : distance ≤ (MoveSpeed : ℝ) * (t1 - t0) / 1000 + MoveSpeed / 1000 * ahead := by
    rw [atSpeed, hspeed] at hbound
    rw [hspeed]
    linarith [hlead.1]
  refine ⟨hdistance, fun hone => ?_, fun hnone => ?_⟩
  · rw [hspeed] at hdistance ⊢
    linarith
  · have hstart := Room.lead_movePosition (hformed socket user hfind) hclock
      (hahead socket user hfind)
    have hnothing := gained_none hnone ⟨st.room, t0⟩
    linarith [hstart.2]

end Run

def arrival : List MovingAct := [.job ⟨.enter, 0⟩ 5 false allMade 100 Room.travelTick]

def stroll : List MovingAct :=
  [.job ⟨.move (.finite 2) (.finite 0), 0⟩ 5 true allMade 200 Room.travelTick, .tick 700 allMade]

def twoSteps : List MovingAct :=
  [.job ⟨.move (.finite (1 / 1024)) (.finite 0), 0⟩ 5 true allMade 100 Room.travelTick,
    .job ⟨.move (.finite (2 / 1024)) (.finite 0), 0⟩ 5 true allMade 100 Room.travelTick]

theorem arrival_run :
    ∃ st, run (guarded movingStep MovingRoom.OnTime) (.new 0) arrival = some st ∧
      st.clock = 100 ∧ st.room.roomUser.find 5 = some (.enter 0 0 0 0) ∧
      (∃ st', run (guarded movingStep MovingRoom.OnTime) ⟨st.room, 100⟩ stroll = some st' ∧
        st'.clock = 700) ∧
      ∃ st', run (guarded movingStep MovingRoom.OnTime) ⟨st.room, 100⟩ twoSteps = some st' ∧
        st'.clock = 100 ∧ st'.room.roomUser.find 5 =
          some ⟨0, 1 / 1024, 0, 0, true, 2 / 1024, 0, 100, 100⟩ := by
  have hrun : (run (guarded movingStep MovingRoom.OnTime) (.new 0) arrival).any (fun st => decide
      (st.clock = 100 ∧ st.room.roomUser.find 5 = some (.enter 0 0 0 0) ∧
        (run (guarded movingStep MovingRoom.OnTime) ⟨st.room, 100⟩ stroll).any
          (fun st' => decide (st'.clock = 700)) = true ∧
        (run (guarded movingStep MovingRoom.OnTime) ⟨st.room, 100⟩ twoSteps).any
          (fun st' => decide (st'.clock = 100 ∧ st'.room.roomUser.find 5 =
            some ⟨0, 1 / 1024, 0, 0, true, 2 / 1024, 0, 100, 100⟩)) = true)) = true := by
    decide +kernel
  obtain ⟨st, hst, hends⟩ := (Option.any_eq_true _ _).mp hrun
  obtain ⟨hclock, hfind, hstroll, hsteps⟩ := of_decide_eq_true hends
  obtain ⟨strolled, hstrolled, htime⟩ := (Option.any_eq_true _ _).mp hstroll
  obtain ⟨stepped, hstepped, hplace⟩ := (Option.any_eq_true _ _).mp hsteps
  exact ⟨st, hst, hclock, hfind, ⟨strolled, hstrolled, of_decide_eq_true htime⟩,
    stepped, hstepped, of_decide_eq_true hplace⟩

/-- The way of 2 takes 2000 ticks exactly, and nothing is gained. -/
theorem speed_bounded_stroll :
    ∃ (st st' : MovingRoom) (after : RoomUser),
      run (guarded movingStep MovingRoom.OnTime) ⟨st.room, 100⟩ stroll = some st' ∧
      st'.room.roomUser.find 5 = some after ∧
      (Room.movePosition (.enter 0 0 0 0) 100).point.distance
          (Room.movePosition after 700).point ≤
        (MoveSpeed : ℝ) * ((700 : Nat) - (100 : Nat)) / 1000 + MoveSpeed / 1000 := by
  obtain ⟨st, hrun, hclock, hfind, ⟨st', hrun', hclock'⟩, _⟩ := arrival_run
  have hreaches : Reaches movingStep MovingRoom.Timed (.new 0) st := by
    apply reaches_of_acts (fun _ _ htime hexact => ⟨htime, hexact⟩) arrival ?_ .start hrun
    intro act hact
    rw [List.mem_singleton.mp hact]
    rfl
  have hacts : ∀ act ∈ stroll, act.Exact ∧ ¬act.Removes 5 := by
    intro act hact
    rcases List.mem_pair.mp hact with rfl | rfl
    · exact ⟨rfl, by simp [MovingAct.Removes]⟩
    · exact ⟨trivial, by simp [MovingAct.Removes]⟩
  obtain ⟨after, hafter, _, hbound, _⟩ :=
    speed_bounded hreaches hfind hclock.le hacts hrun' hclock'.le
  refine ⟨st, st', after, hrun', hafter, hbound ?_⟩
  have hrest : Room.lead (.enter 0 0 0 0) = 0 := Room.lead_rest rfl
  have hgain : MovingRoom.gained 5 ⟨st.room, 100⟩ stroll = Room.headStart 4 := by
    have hway : MovingAct.way 5 (.enter 0 0 0 0) (.job ⟨.move (.finite 2) (.finite 0), 0⟩ 5 true
        allMade 200 Room.travelTick) = some 4 := by decide +kernel
    have htick : ∀ mid, MovingRoom.gained 5 mid [.tick 700 allMade] = 0 := by
      apply gained_none
      intro act hact _
      rw [List.mem_singleton.mp hact]
      rfl
    rw [stroll, MovingRoom.gained, hfind, Option.elim_some, gain_some hway (by norm_num),
      Room.movePosition_rest rfl, hrest, sub_zero]
    cases movingStep _ _ with
    | none => exact add_zero _
    | some mid => rw [Option.elim_some, htick, add_zero]
  rw [hgain, Room.movePosition_rest rfl, hrest, zero_add]
  exact (Room.headStart_bounds (by norm_num)).2.le

/-- Two steps of 1/1024, for which no tick is taken, are more than one tick's way. -/
theorem two_steps_too_far :
    ∃ st st' user after, run (guarded movingStep MovingRoom.OnTime) (.new 0) arrival = some st ∧
      st.clock ≤ 100 ∧ st.room.roomUser.find 5 = some user ∧
      (∀ act ∈ arrival ++ twoSteps, act.Exact ∧ ¬act.Removes 5) ∧
      run (guarded movingStep MovingRoom.OnTime) ⟨st.room, 100⟩ twoSteps = some st' ∧
      st'.clock ≤ 100 ∧ st'.room.roomUser.find 5 = some after ∧
      ¬(Room.movePosition user 100).point.distance (Room.movePosition after 100).point ≤
        (MoveSpeed : ℝ) * ((100 : Nat) - (100 : Nat)) / 1000 + MoveSpeed / 1000 := by
  obtain ⟨st, hrun, hclock, hfind, _, st', hrun', hclock', hfind'⟩ := arrival_run
  refine ⟨st, st', _, _, hrun, hclock.le, hfind, ?_, hrun', hclock'.le, hfind', ?_⟩
  · intro act hact
    simp only [arrival, twoSteps, List.mem_append, List.mem_cons, List.not_mem_nil, or_false] at hact
    rcases hact with rfl | rfl | rfl
    · exact ⟨rfl, by simp [MovingAct.Removes]⟩
    · exact ⟨rfl, by simp [MovingAct.Removes]⟩
    · exact ⟨rfl, by simp [MovingAct.Removes]⟩
  · have hfrom : (Room.movePosition (.enter 0 0 0 0) 100).point = ⟨0, 0⟩ := by decide +kernel
    have hto : (Room.movePosition ⟨0, 1 / 1024, 0, 0, true, 2 / 1024, 0, 100, 100⟩ 100).point =
        ⟨2 / 1024, 0⟩ := by decide +kernel
    have hsquare : Point.dist2 ⟨0, 0⟩ ⟨2 / 1024, 0⟩ = (2 / 1024) ^ 2 := by decide +kernel
    rw [hfrom, hto, Point.distance, hsquare, Rat.cast_pow, Real.sqrt_sq (by norm_num)]
    unfold MoveSpeed
    norm_num

end RoomServer
