import RoomServer.MovementRuns
import RoomServer.RoomIDs

/-! Which positions an entrant is told. `Enter` copies `m_posX` and `m_posY` as they are, and
these are where `MovePosition` has left the user, which need not be where it is now. -/
namespace RoomServer
open Library Library.Transition

/-- What is stored is where the user is at `nowTick`. -/
def RoomUser.UpToDate (nowTick : Nat) (user : RoomUser) : Prop :=
  user.isMove = false ∨ user.startMoveTick = nowTick ∧ nowTick < user.endMoveTick

def RoomUser.Away (user : RoomUser) : Prop :=
  user.isMove = true → ¬(user.posX = user.destPosX ∧ user.posY = user.destPosY)

/-- `data` is a member's ID with the position that `MovePosition` gives it at `nowTick`. -/
def Room.Tells (room : Room) (nowTick : Nat) (data : SpawnData ℚ) : Prop :=
  ∃ user ∈ room.roomUser.values, data = (Room.movePosition user nowTick).data

namespace Room

theorem stands_still {p d r : ℚ} (hr : 0 < r) (h : p = p + (d - p) * r) : p = d := by
  have hstep : (d - p) * r = 0 := by linarith
  have hway := (mul_eq_zero.mp hstep).resolve_right hr.ne'
  linarith

theorem there_already {p d r : ℚ} (hr : r < 1) (h : p + (d - p) * r = d) : p = d := by
  have hrest : (d - p) * (1 - r) = 0 := by linarith
  have hway := (mul_eq_zero.mp hrest).resolve_right (sub_pos.mpr hr).ne'
  linarith

section Away
variable {user : RoomUser} {clock nowTick : Nat}

theorem movePosition_away (hformed : user.WellFormed clock) (hclock : clock ≤ nowTick)
    (haway : user.Away) : (movePosition user nowTick).Away := by
  cases hformed.stage hclock with
  | rest rests =>
    rw [movePosition_rest rests]
    exact haway
  | arrived moves gone =>
    rw [movePosition_arrived moves gone]
    exact nofun
  | onWay moves started ends short =>
    rw [movePosition_onWay moves started ends short]
    have hratio : ((nowTick - user.startMoveTick : Nat) : ℚ) /
        (user.endMoveTick - user.startMoveTick : Nat) < 1 := by
      rw [div_lt_one (Nat.cast_pos.mpr (by omega))]
      exact Nat.cast_lt.mpr (by omega)
    rintro _ ⟨hx, hy⟩
    exact haway moves ⟨there_already hratio hx, there_already hratio hy⟩

theorem setOut_away {travel : ℚ → Nat} {after : RoomUser} {x y : ℚ} (haway : user.Away)
    (h : setOut travel user x y nowTick = some after) : after.Away := by
  by_cases hhere : x = user.posX ∧ y = user.posY
  · obtain ⟨rfl, rfl⟩ := hhere
    rw [setOut_here h]
    exact haway
  · rcases setOut_cases h with ⟨hx, hy, _⟩ | ⟨ticks, _, rfl⟩
    · exact absurd ⟨hx, hy⟩ hhere
    · rintro _ ⟨hx, hy⟩
      exact hhere ⟨hx.symm, hy.symm⟩

theorem data_movePosition_iff (hformed : user.WellFormed clock) (hclock : clock ≤ nowTick)
    (haway : user.Away) :
    user.data = (movePosition user nowTick).data ↔ user.UpToDate nowTick := by
  unfold RoomUser.UpToDate
  cases hformed.stage hclock with
  | rest rests =>
    rw [movePosition_rest rests]
    exact iff_of_true rfl (.inl rests)
  | arrived moves gone =>
    rw [movePosition_arrived moves gone]
    constructor
    · intro hdata
      have hx := congrArg SpawnData.posX hdata
      have hy := congrArg SpawnData.posY hdata
      exact absurd ⟨hx, hy⟩ (haway moves)
    · rintro (hrests | ⟨_, hbefore⟩)
      · exact absurd (moves.symm.trans hrests) Bool.false_ne_true.symm
      · omega
  | onWay moves started ends short =>
    rw [movePosition_onWay moves started ends short]
    constructor
    · intro hdata
      refine .inr ⟨?_, ends⟩
      by_contra hlater
      have hratio : (0 : ℚ) < (nowTick - user.startMoveTick : Nat) /
          (user.endMoveTick - user.startMoveTick : Nat) :=
        div_pos (Nat.cast_pos.mpr (by omega)) (Nat.cast_pos.mpr (by omega))
      have hx := stands_still hratio (congrArg SpawnData.posX hdata)
      have hy := stands_still hratio (congrArg SpawnData.posY hdata)
      exact haway moves ⟨hx, hy⟩
    · rintro (hrests | ⟨hnow, _⟩)
      · exact absurd (moves.symm.trans hrests) Bool.false_ne_true.symm
      · simp [RoomUser.data, hnow]

end Away

/-- What a successful `Enter` tells the entrant: the stored positions of the others, of all of
them when every packet is made. -/
theorem enter_tells {room : Room} {session socket : Nat} {isConnected : Bool} {mk : Nat → Bool}
    (hentered : .connect session ∈ (room.enter session socket isConnected mk).effects) :
    let sent := sightings (sentTo session (room.enter session socket isConnected mk).effects)
    (∀ data ∈ sent, ∃ user ∈ room.roomUser.values, user.session ≠ session ∧ data = user.data) ∧
      ((∀ n, mk n = true) →
        ∀ user ∈ room.roomUser.values, user.session ≠ session → user.data ∈ sent) := by
  unfold enter at hentered ⊢
  split at hentered
  case isTrue => exact absurd hentered List.not_mem_nil
  case isFalse hfresh =>
    rw [if_neg hfresh]
    split at hentered
    case h_1 =>
      split at hentered
      case isTrue => simp [Outcome.effects] at hentered
      case isFalse => exact absurd hentered List.not_mem_nil
    case h_2 seqID seqIDs hfree =>
      dsimp only at hentered ⊢
      split at hentered
      case isFalse => exact absurd hentered List.not_mem_nil
      case isTrue hall =>
        have hinserted := (Bool.and_eq_true_iff.mp hall).2
        have hvalues := OrderedMap.values_insert hinserted
        obtain ⟨batches, hsent, hsub, hdata⟩ := spawnUsers_batches session
          (.spawn ((DataList.empty : Server_Spawn ℚ).add (RoomUser.enter session 0 0 seqID).data).1)
          mk (room.roomUser.insert socket (.enter session 0 0 seqID)).1.values .empty 2
        rw [if_pos hall, Outcome.effects, List.nil_append]
        have hseen : sightings (sentTo session (.connect session ::
            .setRoomID session room.roomID ::
              .insertSendQueue session (.enter room.roomID seqID) ::
                spawnUsers session (.spawn ((DataList.empty : Server_Spawn ℚ).add
                  (RoomUser.enter session 0 0 seqID).data).1) mk
                  (room.roomUser.insert socket (.enter session 0 0 seqID)).1.values .empty 2)) =
            batches.flatMap DataList.data := by
          change sightings (sentTo session (.insertSendQueue session _ :: _)) = _
          rw [sentTo_self, hsent, sightings, List.flatMap_cons]
          exact sightings_batches batches .spawn fun _ => rfl
        rw [hseen]
        constructor
        · intro data hmem
          have hfrom : data ∈ ((room.roomUser.insert socket (.enter session 0 0 seqID)).1.values.filter
              fun user => user.session ≠ session).map RoomUser.data := hsub.subset hmem
          obtain ⟨user, huser, rfl⟩ := List.mem_map.mp hfrom
          obtain ⟨huser, hother⟩ := List.mem_filter.mp huser
          have hother : user.session ≠ session := of_decide_eq_true hother
          rcases List.mem_cons.mp (hvalues.mem_iff.mp huser) with rfl | hold
          · exact absurd rfl hother
          · exact ⟨user, hold, hother, rfl⟩
        · intro hmade user huser hother
          rw [hdata hmade]
          apply List.mem_map_of_mem
          rw [List.mem_filter]
          exact ⟨hvalues.mem_iff.mpr (List.mem_cons_of_mem _ huser), decide_eq_true hother⟩

end Room

/-! ### Over every run -/

section
variable {st st' : MovingRoom} {act : MovingAct}

theorem moveTravel_ids {travel : ℚ → Nat} {room : Room} {socket : Nat} {isConnected : Bool}
    {posX posY : Room.Coordinate} {nowTick : Nat} {o : Outcome}
    (h : room.moveTravel travel socket isConnected posX posY nowTick = some o) :
    o.room.ids = room.ids := by
  unfold Room.moveTravel at h
  split at h
  case h_2 => exact Option.some.inj h ▸ rfl
  case h_1 =>
    split at h
    case isTrue => exact Option.some.inj h ▸ rfl
    case isFalse =>
      split at h
      case h_1 => exact Option.some.inj h ▸ rfl
      case h_2 user hfind =>
        obtain ⟨after, hafter, rfl⟩ := Option.map_eq_some_iff.mp h
        have hsame : after.seqID = user.seqID := by
          rcases Room.setOut_cases hafter with ⟨_, _, rfl⟩ | ⟨_, _, rfl⟩
          · exact Room.movePosition_seqID user nowTick
          · exact Room.movePosition_seqID user nowTick
        exact congrArg (room.seqIDs ++ ·) (Room.memberIDs_set hfind hsame)

theorem movingStep_ids (hstep : movingStep st act = some st') :
    ∃ withheld, (st'.room.ids ++ withheld).Perm st.room.ids := by
  cases act with
  | tick nowTick mk =>
    cases hstep
    exact ⟨[], .of_eq ((List.append_nil _).trans (st.room.tick_ids nowTick mk))⟩
  | job job socket isConnected mk nowTick travel =>
    obtain ⟨o, ho, rfl⟩ := Option.map_eq_some_iff.mp hstep
    obtain ⟨kind, session⟩ := job
    cases kind with
    | enter =>
      cases ho
      exact ⟨_, dispatch_ids ⟨.enter, session⟩ st.room socket isConnected mk nowTick⟩
    | leave =>
      cases ho
      exact ⟨_, dispatch_ids ⟨.leave, session⟩ st.room socket isConnected mk nowTick⟩
    | broadcast text =>
      cases ho
      exact ⟨[], .of_eq (List.append_nil _)⟩
    | move posX posY => exact ⟨[], .of_eq ((List.append_nil _).trans (moveTravel_ids ho))⟩

theorem ids_nodup_reaches {roomID : Int}
    (h : Reaches movingStep MovingRoom.OnTime (.new roomID) st) : st.room.ids.Nodup := by
  apply h.invariant
  · change (Room.new roomID).ids.Nodup
    rw [Room.ids_new]
    exact List.nodup_range
  · intro st act st' _ hnodup _ hstep
    obtain ⟨withheld, hperm⟩ := movingStep_ids hstep
    exact (List.nodup_append.mp (hperm.nodup_iff.mpr hnodup)).1

theorem away_reaches {roomID : Int}
    (h : Reaches movingStep MovingRoom.OnTime (.new roomID) st) :
    ∀ k user, st.room.roomUser.find k = some user → user.Away := by
  apply h.invariant nofun
  intro st act st' hreaches haway htime hstep k user hfind
  have hformed := allFormed_reaches hreaches
  apply member_of_step hstep hfind
  · exact haway k
  · intro session id
    exact nofun
  · intro before found
    exact Room.movePosition_away (hformed k before found) htime (haway k before found)
  · intro before after x y travel _ hbefore goes
    exact Room.setOut_away hbefore goes

/-- An entry is right just when its user is at rest or was moved at this very tick and is
still on its way; and with every packet made the entrant is told right about everybody just
when this is so for everybody. -/
theorem spawn_upToDate_iff {roomID : Int}
    (h : Reaches movingStep MovingRoom.OnTime (.new roomID) st) {nowTick : Nat}
    (hclock : st.clock ≤ nowTick) {session socket : Nat} {isConnected : Bool} {mk : Nat → Bool}
    (hentered : .connect session ∈ (st.room.enter session socket isConnected mk).effects) :
    let sent := sightings (sentTo session (st.room.enter session socket isConnected mk).effects)
    (∀ data ∈ sent, ∃ user ∈ st.room.roomUser.values, user.session ≠ session ∧
        data.seqID = user.seqID ∧ (st.room.Tells nowTick data ↔ user.UpToDate nowTick)) ∧
      ((∀ n, mk n = true) → ((∀ data ∈ sent, st.room.Tells nowTick data) ↔
        ∀ user ∈ st.room.roomUser.values, user.session ≠ session → user.UpToDate nowTick)) := by
  have hformed := allFormed_reaches h
  have haway := away_reaches h
  have hids : st.room.memberIDs.Nodup := (List.nodup_append.mp (ids_nodup_reaches h)).2.1
  -- nobody else has the ID of an entry
  have htells : ∀ user ∈ st.room.roomUser.values,
      (st.room.Tells nowTick user.data ↔ user.UpToDate nowTick) := by
    intro user huser
    obtain ⟨k, hk⟩ := OrderedMap.mem_values.mp huser
    rw [← Room.data_movePosition_iff (hformed k user hk) hclock (haway k user hk)]
    constructor
    · rintro ⟨other, hother, hdata⟩
      have hid : user.seqID = other.seqID :=
        (congrArg SpawnData.seqID hdata).trans (Room.movePosition_seqID other nowTick)
      obtain rfl := List.inj_on_of_nodup_map hids huser hother hid
      exact hdata
    · intro hdata
      exact ⟨user, huser, hdata⟩
  obtain ⟨hfrom, hall⟩ := Room.enter_tells hentered
  refine ⟨?_, ?_⟩
  · intro data hdata
    obtain ⟨user, huser, hother, rfl⟩ := hfrom data hdata
    exact ⟨user, huser, hother, rfl, htells user huser⟩
  · intro hmade
    constructor
    · intro hright user huser hother
      exact (htells user huser).mp (hright _ (hall hmade user huser hother))
    · intro hcurrent data hdata
      obtain ⟨user, huser, hother, rfl⟩ := hfrom data hdata
      exact (htells user huser).mpr (hcurrent user huser hother)

end

/-- Socket 5 sets out for (2, 0) and is moved by a tick when it has gone a quarter. -/
def quarterWay : List MovingAct :=
  [.job ⟨.enter, 0⟩ 5 false allMade 100 Room.travelTick,
    .job ⟨.move (.finite 2) (.finite 0), 0⟩ 5 true allMade 200 Room.travelTick,
    .tick 700 allMade]

theorem quarterWay_told :
    ∃ st, run (guarded movingStep MovingRoom.OnTime) (.new 0) quarterWay = some st ∧
      st.clock = 700 ∧ st.room.roomUser.values = [⟨0, 1 / 2, 0, 0, true, 2, 0, 700, 2200⟩] ∧
      .connect 1 ∈ (st.room.enter 1 6 false allMade).effects ∧
      sightings (sentTo 1 (st.room.enter 1 6 false allMade).effects) = [⟨0, 1 / 2, 0⟩] := by
  have hrun : (run (guarded movingStep MovingRoom.OnTime) (.new 0) quarterWay).any (fun st =>
      decide (st.clock = 700 ∧
        st.room.roomUser.values = [⟨0, 1 / 2, 0, 0, true, 2, 0, 700, 2200⟩] ∧
        .connect 1 ∈ (st.room.enter 1 6 false allMade).effects ∧
        sightings (sentTo 1 (st.room.enter 1 6 false allMade).effects) =
          [⟨0, 1 / 2, 0⟩])) = true := by decide +kernel
  obtain ⟨st, hst, hends⟩ := (Option.any_eq_true _ _).mp hrun
  exact ⟨st, hst, of_decide_eq_true hends⟩

/-- At the tick itself the entrant is told right. -/
theorem spawn_upToDate_iff_quarterWay :
    ∃ st, Reaches movingStep MovingRoom.OnTime (.new 0) st ∧
      .connect 1 ∈ (st.room.enter 1 6 false allMade).effects ∧
      ∀ data ∈ sightings (sentTo 1 (st.room.enter 1 6 false allMade).effects),
        st.room.Tells 700 data := by
  obtain ⟨st, hrun, hclock, hvalues, hentered, _⟩ := quarterWay_told
  have hreaches : Reaches movingStep MovingRoom.OnTime (.new 0) st :=
    reaches_of_run quarterWay .start hrun
  refine ⟨st, hreaches, hentered, ?_⟩
  apply ((spawn_upToDate_iff hreaches hclock.le hentered).2 fun _ => rfl).mpr
  intro user huser _
  rw [hvalues, List.mem_singleton] at huser
  subst huser
  exact .inr ⟨rfl, by decide⟩

/-- 50 ms later it is told where the tick was, and not where the user is. -/
theorem spawn_behind :
    ∃ st, run (guarded movingStep MovingRoom.OnTime) (.new 0) quarterWay = some st ∧
      st.clock ≤ 750 ∧ .connect 1 ∈ (st.room.enter 1 6 false allMade).effects ∧
      ¬∀ data ∈ sightings (sentTo 1 (st.room.enter 1 6 false allMade).effects),
        st.room.Tells 750 data := by
  obtain ⟨st, hrun, hclock, hvalues, hentered, hsent⟩ := quarterWay_told
  refine ⟨st, hrun, hclock.trans_le (by decide), hentered, fun hright => ?_⟩
  rw [hsent] at hright
  obtain ⟨user, huser, hdata⟩ := hright _ List.mem_cons_self
  rw [hvalues, List.mem_singleton] at huser
  subst huser
  have hplace : (Room.movePosition ⟨0, 1 / 2, 0, 0, true, 2, 0, 700, 2200⟩ 750).data =
      ⟨0, 11 / 20, 0⟩ := by decide +kernel
  rw [hplace] at hdata
  exact absurd (congrArg SpawnData.posX hdata) (by norm_num)

end RoomServer
