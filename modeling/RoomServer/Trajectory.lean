import RoomServer.MemberLog
import RoomServer.Movement

/-! What the members of a room see of one movement. They are told where the user is at every
tick up to the one that finds it arrived, and nothing more. -/
namespace RoomServer
open Library Library.Transition

/-! ### The course of one user -/

namespace RoomUser

/-- Where a user that moves is told to be by a tick at `t`, whatever ticks there were before. -/
def reportAt (user : RoomUser) (t : Nat) : MoveData ℚ :=
  if user.endMoveTick ≤ t then ⟨user.seqID, user.destPosX, user.destPosY⟩
  else
    let ratio : ℚ := (t - user.startMoveTick : Nat) / (user.endMoveTick - user.startMoveTick : Nat)
    ⟨user.seqID, user.posX + (user.destPosX - user.posX) * ratio,
      user.posY + (user.destPosY - user.posY) * ratio⟩

/-- The second place is on the way from the first to the destination. -/
def Onward (user : RoomUser) (data data' : MoveData ℚ) : Prop :=
  ∃ ratio : ℚ, 0 ≤ ratio ∧ ratio ≤ 1 ∧
    data'.posX = data.posX + (user.destPosX - data.posX) * ratio ∧
    data'.posY = data.posY + (user.destPosY - data.posY) * ratio

variable {user : RoomUser} {t t' : Nat}

theorem data_movePosition (hmove : user.isMove = true) (hstart : user.startMoveTick ≤ t)
    (hshort : user.endMoveTick < user.startMoveTick + 2 ^ 64) :
    (Room.movePosition user t).data = user.reportAt t := by
  unfold reportAt
  split
  case isTrue hend =>
    rw [Room.movePosition_arrived hmove hend]
    rfl
  case isFalse hend =>
    rw [Room.movePosition_onWay hmove hstart (Nat.lt_of_not_le hend) hshort]
    rfl

/-- A tick on the way does not change what the later ones tell. -/
theorem reportAt_movePosition (hmove : user.isMove = true) (hstart : user.startMoveTick ≤ t)
    (hshort : user.endMoveTick < user.startMoveTick + 2 ^ 64) (hend : t < user.endMoveTick)
    (hle : t ≤ t') : (Room.movePosition user t).reportAt t' = user.reportAt t' := by
  rw [Room.movePosition_onWay hmove hstart hend hshort, reportAt, reportAt]
  dsimp only
  split
  case isTrue => rfl
  case isFalse hend' =>
    rw [Room.interpolate_twice _ _ hstart hle (Nat.lt_of_not_le hend'),
      Room.interpolate_twice _ _ hstart hle (Nat.lt_of_not_le hend')]

/-- Who is still on the way after a tick was on the way before it, and started afresh there. -/
theorem underway_of_movePosition (hstart : user.isMove = true → user.startMoveTick ≤ t)
    (hshort : user.isMove = true → user.endMoveTick < user.startMoveTick + 2 ^ 64)
    (h : (Room.movePosition user t).isMove = true) :
    user.isMove = true ∧ (Room.movePosition user t).startMoveTick = t ∧ t < user.endMoveTick := by
  cases hmove : user.isMove with
  | false =>
    rw [Room.movePosition_rest hmove, hmove] at h
    contradiction
  | true =>
    by_cases hend : user.endMoveTick ≤ t
    · rw [Room.movePosition_arrived hmove hend] at h
      contradiction
    · have hbefore := Nat.lt_of_not_le hend
      rw [Room.movePosition_onWay hmove (hstart hmove) hbefore (hshort hmove)]
      exact ⟨rfl, rfl, hbefore⟩

theorem onward_reportAt (hstart : user.startMoveTick ≤ t) (hle : t ≤ t') :
    user.Onward (user.reportAt t) (user.reportAt t') := by
  by_cases hend' : user.endMoveTick ≤ t'
  · have harrived : user.reportAt t' = ⟨user.seqID, user.destPosX, user.destPosY⟩ := if_pos hend'
    refine ⟨1, zero_le_one, le_refl 1, ?_, ?_⟩ <;> rw [harrived] <;> ring
  · have hend : ¬user.endMoveTick ≤ t := fun hend => hend' (hend.trans hle)
    have hshare : t' - t ≤ user.endMoveTick - t := by omega
    refine ⟨(t' - t : Nat) / (user.endMoveTick - t : Nat), by positivity,
      div_le_one_of_le₀ (Nat.cast_le.mpr hshare) (Nat.cast_nonneg _), ?_, ?_⟩ <;>
      rw [reportAt, reportAt, if_neg hend, if_neg hend'] <;> dsimp only <;>
      rw [Room.interpolate_twice _ _ hstart hle (Nat.lt_of_not_le hend')]

end RoomUser

def reportTicks (endMoveTick : Nat) : List Nat → List Nat
  | [] => []
  | t :: ticks => t :: if endMoveTick ≤ t then [] else reportTicks endMoveTick ticks

theorem reportTicks_initial (endMoveTick : Nat) (ticks : List Nat) :
    reportTicks endMoveTick ticks <+: ticks := by
  induction ticks with
  | nil => exact List.prefix_rfl
  | cons t ticks ih =>
    rw [reportTicks, List.cons_prefix_cons]
    refine ⟨rfl, ?_⟩
    split
    · exact List.nil_prefix
    · exact ih

theorem reportTicks_last {endMoveTick t : Nat} {ticks : List Nat} (hmem : t ∈ ticks)
    (hend : endMoveTick ≤ t) :
    ∃ last, (reportTicks endMoveTick ticks).getLast? = some last ∧ endMoveTick ≤ last := by
  induction ticks with
  | nil => contradiction
  | cons first ticks ih =>
    rw [reportTicks]
    split
    case isTrue hfirst => exact ⟨first, rfl, hfirst⟩
    case isFalse hfirst =>
      have hrest : t ∈ ticks := (List.mem_cons.mp hmem).resolve_left fun heq => hfirst (heq ▸ hend)
      obtain ⟨last, hlast, hle⟩ := ih hrest
      refine ⟨last, ?_, hle⟩
      rw [List.getLast?_cons, hlast]
      rfl

/-! ### One act -/

namespace OneRoomAct

def Sends (session : Nat) : OneRoomAct → Prop
  | .job ⟨.move (.finite x) (.finite y), session'⟩ _ _ => session' = session ∧ InMap x y
  | _ => False

def Leaves (session : Nat) : OneRoomAct → Prop
  | .job ⟨.leave, session'⟩ _ _ => session' = session
  | _ => False

instance (st : OneRoom) (act : OneRoomAct) : Decidable (act.Ticks st) :=
  match act with
  | .tick _ _ => inferInstanceAs (Decidable (_ ≤ _))
  | .moveCheckUsers _ _ => inferInstanceAs (Decidable True)
  | .job _ _ _ => inferInstanceAs (Decidable False)

end OneRoomAct

namespace Room

theorem enter_find {room : Room} {k : Nat} {user : RoomUser}
    (hfind : room.roomUser.find k = some user) (session socket : Nat) (isConnected : Bool)
    (mk : Nat → Bool) :
    (room.enter session socket isConnected mk).room.roomUser.find k = some user := by
  unfold enter
  split
  case isTrue => exact hfind
  case isFalse =>
    split
    case h_1 => exact hfind
    case h_2 seqID seqIDs hfree =>
      dsimp only
      split
      case isFalse => exact hfind
      case isTrue hall =>
        have hinserted := (Bool.and_eq_true_iff.mp hall).2
        dsimp only
        rw [OrderedMap.find_insert hinserted]
        split
        case isTrue hsocket =>
          rw [hsocket, OrderedMap.find_of_insert hinserted] at hfind
          contradiction
        case isFalse => exact hfind

theorem leave_find {room : Room} {k : Nat} {user : RoomUser}
    (hfind : room.roomUser.find k = some user) {session socket : Nat} {isConnected : Bool}
    (hother : isConnected = true → k ≠ socket) (mk : Nat → Bool) :
    (room.leave session socket isConnected mk).room.roomUser.find k = some user := by
  unfold leave
  split
  case isTrue => exact hfind
  case isFalse hconnected =>
    have herased : (room.roomUser.erase socket).find k = some user := by
      rw [OrderedMap.find_erase, if_neg (hother (Bool.not_eq_false _ ▸ hconnected))]
      exact hfind
    dsimp only
    split
    case h_1 => exact hfind
    case h_2 => split <;> exact herased

end Room

section Step
variable {socketOf : Nat → Nat} {st st' : OneRoom} {act : OneRoomAct} {k a : Nat} {user : RoomUser}

structure OneRoomAct.Fate (st : OneRoom) (act : OneRoomAct) (user after : RoomUser) : Prop where
  session : after.session = user.session
  seqID : after.seqID = user.seqID
  same : ¬act.Sends user.session →
    after = if act.Ticks st then Room.movePosition user act.nowTick else user

theorem fate_waits (h : ¬act.Ticks st) : act.Fate st user user := ⟨rfl, rfl, fun _ => (if_neg h).symm⟩

theorem fate_ticks (h : act.Ticks st) : act.Fate st user (Room.movePosition user act.nowTick) :=
  ⟨Room.movePosition_session user _, Room.movePosition_seqID user _, fun _ => (if_pos h).symm⟩

theorem find_step (h : ViewInv socketOf st) (hfind : st.room.roomUser.find k = some user)
    (hstays : ¬act.Leaves user.session) (hstep : oneRoomStep socketOf st act = some st') :
    ∃ after, st'.room.roomUser.find k = some after ∧ act.Fate st user after := by
  cases hstep
  cases act with
  | moveCheckUsers nowTick mk =>
    have hticks : OneRoomAct.Ticks st (.moveCheckUsers nowTick mk) := trivial
    refine ⟨_, ?_, fate_ticks hticks⟩
    change (st.room.roomUser.mapValues fun _ user => Room.movePosition user nowTick).find k = _
    rw [OrderedMap.find_mapValues, hfind]
    rfl
  | tick nowTick mk =>
    by_cases hdue : OneRoomAct.Ticks st (.tick nowTick mk)
    · refine ⟨_, ?_, fate_ticks hdue⟩
      have hdue' : st.room.lastTick + MinMoveTick ≤ nowTick := hdue
      change (st.room.tick nowTick mk).room.roomUser.find k = _
      rw [Room.tick, if_pos hdue']
      change (st.room.roomUser.mapValues fun _ user => Room.movePosition user nowTick).find k = _
      rw [OrderedMap.find_mapValues, hfind]
      rfl
    · refine ⟨user, ?_, fate_waits hdue⟩
      have hdue' : ¬st.room.lastTick + MinMoveTick ≤ nowTick := hdue
      change (st.room.tick nowTick mk).room.roomUser.find k = _
      rw [Room.tick, if_neg hdue']
      exact hfind
  | job job mk nowTick =>
    have hidle : ¬OneRoomAct.Ticks st (.job job mk nowTick) := id
    have hself {session : Nat} (hconnected : st.connected session = true)
        (heq : k = socketOf session) : session = user.session := by
      have hmember := h.flags session hconnected
      rw [← heq, Room.member, hfind, Option.map_some] at hmember
      exact (Option.some.inj hmember).symm
    obtain ⟨kind, session⟩ := job
    cases kind with
    | enter => exact ⟨user, Room.enter_find hfind session _ _ mk, fate_waits hidle⟩
    | leave =>
      refine ⟨user, Room.leave_find hfind (fun hconnected heq => ?_) mk, fate_waits hidle⟩
      exact hstays (hself hconnected heq)
    | broadcast text => exact ⟨user, hfind, fate_waits hidle⟩
    | move posX posY =>
      have hspec := Room.move_position st.room (socketOf session) (st.connected session) posX posY
        nowTick
      change ∃ after, (st.room.move (socketOf session) (st.connected session) posX posY
        nowTick).room.roomUser.find k = some after ∧ _
      cases hspec with
      | idle outcome => exact ⟨user, outcome ▸ hfind, fate_waits hidle⟩
      | @moves mover x y connected reqX reqY inMap found outcome =>
        rw [outcome]
        change ∃ after, (st.room.roomUser.set _ _).find k = some after ∧ _
        rw [OrderedMap.find_set]
        split
        case isFalse => exact ⟨user, hfind, fate_waits hidle⟩
        case isTrue heq =>
          rw [← heq, hfind] at found ⊢
          obtain rfl := Option.some.inj found
          refine ⟨_, rfl, by simp, by simp, fun hsends => absurd ?_ hsends⟩
          subst reqX reqY
          exact ⟨hself connected heq, inMap⟩

theorem heard_step (h : ViewInv socketOf st) {id : Nat} (hmem : (a, id) ∈ st.room.roster)
    (hstep : oneRoomStep socketOf st act = some st') :
    st'.heard a = st.heard a ++ sentTo a (st.outcome socketOf act).effects := by
  cases hstep
  apply heard_finish
  cases act with
  | job job mk nowTick =>
    intro hconnect
    obtain ⟨hkind, rfl⟩ := connect_enter hconnect
    obtain ⟨kind, session⟩ := job
    cases hkind
    have hconnected := h.members _ _ hmem
    dsimp only at hconnected hconnect
    rw [OneRoom.outcome] at hconnect
    dsimp only at hconnect
    rw [hconnected] at hconnect
    exact absurd hconnect List.not_mem_nil
  | moveCheckUsers nowTick mk =>
    have hspec := st.room.moveCheckUsers_view nowTick mk
    rw [OneRoom.outcome, Outcome.effects, hspec.before]
    exact Room.no_connect hspec.sends_to a
  | tick nowTick mk =>
    rw [OneRoom.outcome, Room.tick]
    split
    · have hspec := { st.room with lastTick := nowTick }.moveCheckUsers_view nowTick mk
      rw [Outcome.effects, hspec.before]
      exact Room.no_connect hspec.sends_to a
    · exact List.not_mem_nil

theorem filter_movers {users : List RoomUser} (hnodup : (users.map RoomUser.seqID).Nodup)
    (hmem : user ∈ users) (nowTick : Nat) :
    ((users.filter RoomUser.isMove).map fun user => (Room.movePosition user nowTick).data).filter
        (fun data => data.seqID = user.seqID) =
      if user.isMove then [(Room.movePosition user nowTick).data] else [] := by
  rw [List.filter_map]
  have hsame : (users.filter RoomUser.isMove).filter ((fun data : MoveData ℚ =>
      decide (data.seqID = user.seqID)) ∘ fun user => (Room.movePosition user nowTick).data) =
      (users.filter fun other => decide (other.seqID = user.seqID)).filter RoomUser.isMove := by
    rw [List.filter_comm]
    congr 1
    apply List.filter_congr
    intro other _
    simp only [Function.comp_apply, RoomUser.data, Room.movePosition_seqID]
  have honly : users.filter (fun other => decide (other.seqID = user.seqID)) = [user] := by
    have hself : users.filter (fun other => decide (other.seqID = user.seqID)) =
        users.filter fun other => decide (other = user) := by
      apply List.filter_congr
      intro other hother
      rw [decide_eq_decide]
      exact ⟨List.inj_on_of_nodup_map hnodup hother hmem, congrArg RoomUser.seqID⟩
    rw [hself, List.filter_eq, List.count_eq_one_of_mem (List.Nodup.of_map _ hnodup) hmem]
    rfl
  rw [hsame, honly]
  cases hmove : user.isMove <;> simp [hmove]

theorem sightings_step (h : ViewInv socketOf st) (hmade : act.AllMade) {id : Nat}
    (hmem : (a, id) ∈ st.room.roster) (hfind : st.room.roomUser.find k = some user) :
    (sightings (sentTo a (st.outcome socketOf act).effects)).filter
        (fun data => data.seqID = user.seqID) =
      if act.Ticks st ∧ user.isMove = true then [(Room.movePosition user act.nowTick).data]
      else [] := by
  have hticks (room : Room) (hroom : room.roomUser = st.room.roomUser) (nowTick : Nat)
      (mk : Nat → Bool) (hmade : ∀ n, mk n = true) :
      (sightings (sentTo a (room.moveCheckUsers nowTick mk).effects)).filter
        (fun data => data.seqID = user.seqID) =
          if user.isMove then [(Room.movePosition user nowTick).data] else [] := by
    obtain ⟨packets, hreported⟩ := Room.moveCheckUsers_reported hmade room nowTick
    have hcount : room.sessions.count a = 1 := by
      rw [Room.sessions, hroom]
      exact h.count hmem
    rw [hreported.received a hcount, sightings_batches packets .move fun _ => rfl,
      hreported.entries, hroom]
    exact filter_movers (List.nodup_append.mp h.ids).2.1 (mem_values_of_find hfind) nowTick
  cases act with
  | moveCheckUsers nowTick mk =>
    rw [OneRoom.outcome, hticks st.room rfl nowTick mk hmade]
    simp [OneRoomAct.Ticks, OneRoomAct.nowTick]
  | tick nowTick mk =>
    rw [OneRoom.outcome, Room.tick]
    by_cases hdue : st.room.lastTick + MinMoveTick ≤ nowTick
    · rw [if_pos hdue, hticks { st.room with lastTick := nowTick } rfl nowTick mk hmade]
      simp [OneRoomAct.Ticks, OneRoomAct.nowTick, hdue]
    · rw [if_neg hdue]
      simp [OneRoomAct.Ticks, hdue, Outcome.idle, Outcome.effects, sightings]
  | job job mk nowTick =>
    have hidle : ¬(OneRoomAct.Ticks st (.job job mk nowTick) ∧ user.isMove = true) := fun h => h.1
    rw [if_neg hidle]
    have hmk : ∀ n, mk n = true := hmade
    have hspec := dispatch_position job st.room (socketOf job.session)
      (st.connected job.session) hmk nowTick
    change (sightings (sentTo a (job.dispatch st.room (socketOf job.session)
      (st.connected job.session) mk nowTick).effects)).filter _ = []
    cases hspec with
    | same roomUser silent others => rw [silent, List.filter_nil]
    | leaves roomUser silent others => rw [silent, List.filter_nil]
    | @enters id sends fresh free inserted roomUser effects others told tells =>
      have ha : a ≠ job.session := by
        rintro rfl
        have hconnected := h.members _ _ hmem
        rw [fresh] at hconnected
        contradiction
      have hconnect : sentTo a (.connect job.session :: sends) = sentTo a sends := rfl
      rw [effects, hconnect, told a ha, List.filter_eq_nil_iff]
      intro data hdata heq
      rw [List.eq_of_mem_replicate hdata] at heq
      have hfree := h.not_free (mem_roster (mem_values_of_find hfind))
      exact hfree (of_decide_eq_true heq ▸ free)
    | moves kind spec =>
      cases spec with
      | idle outcome =>
        rw [outcome]
        rfl
      | moves connected reqX reqY inMap found outcome =>
        rw [outcome]
        rfl

/-! ### Runs -/

def ticksOf (socketOf : Nat → Nat) (st : OneRoom) : List OneRoomAct → List Nat
  | [] => []
  | act :: rest =>
    let ticks := ticksOf socketOf (st.finish (st.outcome socketOf act) act.nowTick) rest
    if act.Ticks st then act.nowTick :: ticks else ticks

/-- The user moves on undisturbed while the member with session `a` watches. -/
structure Watching (socketOf : Nat → Nat) (st : OneRoom) (k : Nat) (user : RoomUser) (a : Nat) :
    Prop where
  view : ViewInv socketOf st
  found : st.room.roomUser.find k = some user
  started : user.isMove = true → user.startMoveTick ≤ st.clock
  short : user.isMove = true → user.endMoveTick < user.startMoveTick + 2 ^ 64
  watches : ∃ id, (a, id) ∈ st.room.roster

/-- Neither does the user set out anew, nor does one of the two leave. -/
structure OneRoomAct.Spares (mover a : Nat) (act : OneRoomAct) : Prop where
  made : act.AllMade
  goes : ¬act.Sends mover
  stays : ¬act.Leaves mover
  watches : ¬act.Leaves a

theorem roster_step (h : ViewInv socketOf st) {id : Nat} (hmem : (a, id) ∈ st.room.roster)
    (hstays : ¬act.Leaves a) (hstep : oneRoomStep socketOf st act = some st') :
    (a, id) ∈ st'.room.roster := by
  obtain ⟨user, huser, heq⟩ := List.mem_map.mp hmem
  cases heq
  obtain ⟨k, hfind⟩ := OrderedMap.mem_values.mp huser
  obtain ⟨after, hafter, hfate⟩ := find_step h hfind hstays hstep
  rw [← hfate.session, ← hfate.seqID]
  exact mem_roster (mem_values_of_find hafter)

theorem Watching.step (h : Watching socketOf st k user a) (hspares : act.Spares user.session a)
    (hclock : st.clock ≤ act.nowTick) (hstep : oneRoomStep socketOf st act = some st') :
    Watching socketOf st' k
        (if act.Ticks st then Room.movePosition user act.nowTick else user) a ∧
      ∃ sent, st'.heard a = st.heard a ++ sent ∧
        (sightings sent).filter (fun data => data.seqID = user.seqID) =
          if act.Ticks st ∧ user.isMove = true then [user.reportAt act.nowTick] else [] := by
  obtain ⟨id, hmem⟩ := h.watches
  obtain ⟨after, hafter, hfate⟩ := find_step h.view h.found hspares.stays hstep
  have hview := h.view.turn (turn_of_step h.view.flags hstep) (step_ids_nodup h.view.ids hstep)
  have hnext : st'.clock = act.nowTick := by
    cases hstep
    rfl
  have hreport : (Room.movePosition user act.nowTick).data =
      user.reportAt act.nowTick ∨ user.isMove = false := by
    cases hmove : user.isMove with
    | false => exact .inr rfl
    | true =>
      exact .inl (RoomUser.data_movePosition hmove ((h.started hmove).trans hclock) (h.short hmove))
  have hmoving := RoomUser.underway_of_movePosition (t := act.nowTick)
    (fun hmove => (h.started hmove).trans hclock) h.short
  refine ⟨⟨hview, hfate.same hspares.goes ▸ hafter, ?_, ?_,
    id, roster_step h.view hmem hspares.watches hstep⟩, _, heard_step h.view hmem hstep, ?_⟩
  · rw [hnext]
    split
    · exact fun hmove => (hmoving hmove).2.1.le
    · exact fun hmove => (h.started hmove).trans hclock
  · split
    · intro hmove
      obtain ⟨hmove', hstart, hend⟩ := hmoving hmove
      have hshort := h.short hmove'
      have hstarted := h.started hmove'
      rw [hstart, Room.movePosition_endMoveTick]
      omega
    · exact h.short
  · rw [sightings_step h.view hspares.made hmem h.found]
    split
    case isFalse => rfl
    case isTrue hmove =>
      rw [hreport.resolve_right (by rw [hmove.2]; exact Bool.noConfusion)]

/-! ### Every user is placed -/

def AllPlaced (st : OneRoom) : Prop :=
  ∀ k user, st.room.roomUser.find k = some user → user.Placed st.clock

theorem allPlaced_new (roomID : Int) : AllPlaced (.new roomID) := by
  intro k user hk
  change (OrderedMap.empty : OrderedMap Nat RoomUser).find k = some user at hk
  rw [OrderedMap.find_empty] at hk
  contradiction

theorem enter_placed (session id clock : Nat) : (RoomUser.enter session 0 0 id).Placed clock := by
  refine ⟨?_, nofun, nofun, nofun, nofun⟩
  simp [RoomUser.enter, InMap, MaxX, MaxY]

theorem allPlaced_step (h : AllPlaced st) (htime : InTime st act)
    (hstep : oneRoomStep socketOf st act = some st') : AllPlaced st' := by
  have hticks {room : Room} (hroom : room.roomUser = st.room.roomUser.mapValues fun _ user =>
      Room.movePosition user act.nowTick) {k : Nat} {user : RoomUser}
      (hk : room.roomUser.find k = some user) : user.Placed act.nowTick := by
    rw [hroom, OrderedMap.find_mapValues, Option.map_eq_some_iff] at hk
    obtain ⟨before, hbefore, rfl⟩ := hk
    exact Room.movePosition_placed (h k before hbefore) htime.1
  cases hstep
  intro k user hk
  cases act with
  | moveCheckUsers nowTick mk => exact hticks rfl hk
  | tick nowTick mk =>
    change (st.room.tick nowTick mk).room.roomUser.find k = some user at hk
    rw [Room.tick] at hk
    split at hk
    · exact hticks rfl hk
    · exact (h k user hk).later htime.1
  | job job mk nowTick =>
    have hmade : ∀ n, mk n = true := htime.2
    have hspec := dispatch_position job st.room (socketOf job.session) (st.connected job.session)
      hmade nowTick
    change (job.dispatch st.room (socketOf job.session) (st.connected job.session) mk
      nowTick).room.roomUser.find k = some user at hk
    change user.Placed nowTick
    cases hspec with
    | same roomUser =>
      rw [roomUser] at hk
      exact (h k user hk).later htime.1
    | enters fresh free inserted roomUser =>
      rw [roomUser, OrderedMap.find_insert inserted] at hk
      split at hk
      · cases hk
        exact enter_placed job.session _ nowTick
      · exact (h k user hk).later htime.1
    | leaves roomUser =>
      rw [roomUser, OrderedMap.find_erase] at hk
      split at hk
      · contradiction
      · exact (h k user hk).later htime.1
    | moves kind spec =>
      cases spec with
      | idle outcome =>
        rw [outcome] at hk
        exact (h k user hk).later htime.1
      | @moves mover x y connected reqX reqY inMap found outcome =>
        rw [outcome] at hk
        change (st.room.roomUser.set _ _).find k = some user at hk
        rw [OrderedMap.find_set] at hk
        split at hk
        · rw [found] at hk
          cases hk
          exact Room.moveTo_placed (Room.movePosition_placed (h _ mover found) htime.1) inMap
        · exact (h k user hk).later htime.1

theorem allPlaced_reaches {roomID : Int}
    (h : Reaches (oneRoomStep socketOf) InTime (.new roomID) st) : AllPlaced st := by
  apply h.invariant (allPlaced_new roomID)
  intro st act st' _ hplaced htime hstep
  exact allPlaced_step hplaced htime hstep

/-! ### What is seen of one movement -/

/-- The reports of a user that has a way to go, and of one that has none. -/
def RoomUser.reports (user : RoomUser) (ticks : List Nat) : List (MoveData ℚ) :=
  if user.isMove then (reportTicks user.endMoveTick ticks).map user.reportAt else []

theorem reports_movePosition {t : Nat} {ticks : List Nat}
    (hstart : user.isMove = true → user.startMoveTick ≤ t)
    (hshort : user.isMove = true → user.endMoveTick < user.startMoveTick + 2 ^ 64)
    (hticks : ∀ t' ∈ ticks, t ≤ t') :
    user.reports (t :: ticks) = (if user.isMove then [user.reportAt t] else []) ++
      (Room.movePosition user t).reports ticks := by
  cases hmove : user.isMove with
  | false => simp [RoomUser.reports, Room.movePosition_rest hmove, hmove]
  | true =>
    by_cases hend : user.endMoveTick ≤ t
    · simp [RoomUser.reports, Room.movePosition_arrived hmove hend, hmove, reportTicks, hend]
    · have hafter := Room.movePosition_onWay hmove (hstart hmove) (Nat.lt_of_not_le hend)
        (hshort hmove)
      have hstill : (Room.movePosition user t).isMove = true := by
        rw [hafter]
        exact hmove
      rw [RoomUser.reports, RoomUser.reports, if_pos hmove, if_pos hstill, if_pos rfl,
        Room.movePosition_endMoveTick, reportTicks, if_neg hend, List.map_cons,
        List.singleton_append, List.cons_inj_right]
      apply List.map_congr_left
      intro t' ht'
      have hle := hticks t' ((reportTicks_initial _ _).subset ht')
      exact (RoomUser.reportAt_movePosition hmove (hstart hmove) (hshort hmove)
        (Nat.lt_of_not_le hend) hle).symm

theorem ticksOf_sublist (acts : List OneRoomAct) :
    (ticksOf socketOf st acts).Sublist (acts.map OneRoomAct.nowTick) := by
  induction acts generalizing st with
  | nil => exact .slnil
  | cons act rest ih =>
    rw [ticksOf]
    split
    · exact ih.cons_cons _
    · exact ih.cons _

/-- The induction is over the acts from the front, since an act moves the user on. -/
theorem Watching.run (h : Watching socketOf st k user a) {acts : List OneRoomAct}
    (hspares : ∀ act ∈ acts, act.Spares user.session a)
    (hclock : (st.clock :: acts.map OneRoomAct.nowTick).Pairwise (· ≤ ·))
    (hrun : Transition.run (oneRoomStep socketOf) st acts = some st') :
    ∃ sent, st'.heard a = st.heard a ++ sent ∧
      (sightings sent).filter (fun data => data.seqID = user.seqID) =
        user.reports (ticksOf socketOf st acts) := by
  induction acts generalizing st user with
  | nil =>
    cases hrun
    refine ⟨[], (List.append_nil _).symm, ?_⟩
    simp [sightings, ticksOf, RoomUser.reports, reportTicks]
  | cons act rest ih =>
    rw [run_cons] at hrun
    obtain ⟨middle, hmiddle, hrest⟩ := Option.bind_eq_some_iff.mp hrun
    rw [List.map_cons, List.pairwise_cons] at hclock
    have hnow : st.clock ≤ act.nowTick := hclock.1 _ List.mem_cons_self
    obtain ⟨hwatching, first, hfirst, hseen⟩ := h.step (hspares act List.mem_cons_self) hnow hmiddle
    have hafter : middle = st.finish (st.outcome socketOf act) act.nowTick :=
      (Option.some.inj hmiddle).symm
    have hlater : (middle.clock :: rest.map OneRoomAct.nowTick).Pairwise (· ≤ ·) := by
      rw [hafter]
      exact hclock.2
    have hrestSpares : ∀ act ∈ rest, act.Spares user.session a := fun act hact =>
      hspares act (List.mem_cons_of_mem _ hact)
    rw [ticksOf, ← hafter]
    split at hwatching
    case isFalse hticks =>
      rw [if_neg fun h => hticks h.1] at hseen
      obtain ⟨sent, hsent, hreports⟩ := ih hwatching hrestSpares hlater hrest
      refine ⟨first ++ sent, by rw [hsent, hfirst, List.append_assoc], ?_⟩
      rw [sightings, List.flatMap_append, List.filter_append, if_neg hticks, ← hreports]
      exact congrArg (· ++ _) hseen
    case isTrue hticks =>
      rw [← Room.movePosition_session user act.nowTick] at hrestSpares
      obtain ⟨sent, hsent, hreports⟩ := ih hwatching hrestSpares hlater hrest
      rw [Room.movePosition_seqID] at hreports
      refine ⟨first ++ sent, by rw [hsent, hfirst, List.append_assoc], ?_⟩
      rw [sightings, List.flatMap_append, List.filter_append, if_pos hticks,
        reports_movePosition (fun hmove => (h.started hmove).trans hnow) h.short
          (fun t ht => (List.pairwise_cons.mp hclock.2).1 t ((ticksOf_sublist rest).subset ht)), ← hreports]
      simp only [hticks, true_and] at hseen
      exact congrArg (· ++ _) hseen

/-- What a member sees of a user that goes its way until `acts` are done, where `ticks` are
the times of their ticks. -/
structure RoomUser.Observed (user : RoomUser) (ticks : List Nat) (seen : List (MoveData ℚ)) :
    Prop where
  rests : user.isMove = false → seen = []
  /-- One report for each tick up to the arrival, none after it. -/
  reports : user.isMove = true → seen = (reportTicks user.endMoveTick ticks).map user.reportAt
  /-- Every place is on the way from each one before it to the destination. -/
  forward : seen.Pairwise user.Onward
  arrives : user.isMove = true → ∀ t ∈ ticks, user.endMoveTick ≤ t →
    seen.getLast? = some ⟨user.seqID, user.destPosX, user.destPosY⟩

theorem Watching.observed (h : Watching socketOf st k user a) {acts : List OneRoomAct}
    (hclock : (st.clock :: acts.map OneRoomAct.nowTick).Pairwise (· ≤ ·)) :
    user.Observed (ticksOf socketOf st acts) (user.reports (ticksOf socketOf st acts)) := by
  have hticks : (st.clock :: ticksOf socketOf st acts).Pairwise (· ≤ ·) :=
    hclock.sublist ((ticksOf_sublist acts).cons_cons _)
  obtain ⟨hlater, hsorted⟩ := List.pairwise_cons.mp hticks
  rw [RoomUser.reports]
  split
  case isFalse hmove => exact ⟨fun _ => rfl, fun h => absurd h hmove, .nil, fun h => absurd h hmove⟩
  case isTrue hmove =>
    have hinitial := reportTicks_initial user.endMoveTick (ticksOf socketOf st acts)
    refine ⟨fun h => ?_, fun _ => rfl, ?_, fun _ t ht hend => ?_⟩
    · rw [hmove] at h
      contradiction
    · rw [List.pairwise_map]
      apply (hsorted.sublist hinitial.sublist).imp_of_mem
      intro t t' ht _ hle
      exact RoomUser.onward_reportAt ((h.started hmove).trans (hlater t (hinitial.subset ht))) hle
    · obtain ⟨last, hlast, harrived⟩ := reportTicks_last ht hend
      rw [List.getLast?_map, hlast, Option.map_some, RoomUser.reportAt, if_pos harrived]

end Step

section
variable {socketOf : Nat → Nat} {roomID : Int} {st st' : OneRoom} {acts : List OneRoomAct}
  {k a id : Nat} {user : RoomUser}

/-- Until the user asks for a place on the map, or one of the two leaves, each member is told one
straight way at even speed, however the ticks fall and whatever the others do. -/
theorem trajectory (h : Reaches (oneRoomStep socketOf) InTime (.new roomID) st)
    (hfind : st.room.roomUser.find k = some user) (hmem : (a, id) ∈ st.room.roster)
    (hspares : ∀ act ∈ acts, act.Spares user.session a)
    (hclock : (st.clock :: acts.map OneRoomAct.nowTick).Pairwise (· ≤ ·))
    (hrun : run (oneRoomStep socketOf) st acts = some st') :
    ∃ sent, st'.heard a = st.heard a ++ sent ∧ user.Observed (ticksOf socketOf st acts)
      ((sightings sent).filter fun data => data.seqID = user.seqID) := by
  have hplaced := allPlaced_reaches h k user hfind
  have hwatching : Watching socketOf st k user a :=
    ⟨viewInv_reaches h.any, hfind, hplaced.started, hplaced.short, id, hmem⟩
  obtain ⟨sent, hsent, hreports⟩ := hwatching.run hspares hclock hrun
  exact ⟨sent, hsent, hreports ▸ hwatching.observed hclock⟩

end

/-! A walk to (1, 0) from 100 on, which takes 1000 ticks. A refused request and an entrant do
not disturb it, and the tick at 1300 has nothing more to tell. -/

def crossing : List OneRoomAct :=
  [.tick 1050 allMade, .job ⟨.move .notFinite (.finite 0), 0⟩ allMade 1060,
    .job ⟨.enter, 2⟩ allMade 1100, .tick 1150 allMade, .tick 1300 allMade]

theorem crossing_spares : ∀ act ∈ crossing, act.Spares 0 1 := by
  simp only [crossing, List.forall_mem_cons, List.not_mem_nil, false_implies, implies_true, and_true]
  refine ⟨?_, ?_, ?_, ?_, ?_⟩ <;> exact ⟨fun _ => rfl, id, id, id⟩

theorem trajectory_crossing :
    ∃ st st' sent, Reaches (oneRoomStep id) InTime (.new 0) st ∧
      run (oneRoomStep id) st crossing = some st' ∧ st'.heard 1 = st.heard 1 ++ sent ∧
      (sightings sent).filter (fun data => data.seqID = 0) = [⟨0, 19 / 20, 0⟩, ⟨0, 1, 0⟩] := by
  have hstart : (run (guarded (oneRoomStep id) fun st act => st.clock ≤ act.nowTick) (.new 0)
      (walk.take 3)).any (fun st => decide (st.clock = 100 ∧ (1, 1) ∈ st.room.roster ∧
        st.room.roomUser.find 0 = some ⟨0, 0, 0, 0, true, 1, 0, 100, 1100⟩ ∧
        ticksOf id st crossing = [1050, 1150, 1300] ∧
        (run (oneRoomStep id) st crossing).isSome = true)) = true := by decide +kernel
  obtain ⟨st, hst, hends⟩ := (Option.any_eq_true _ _).mp hstart
  obtain ⟨hclock, hmem, hfind, hticks, hsome⟩ := of_decide_eq_true hends
  obtain ⟨st', hrun⟩ := Option.isSome_iff_exists.mp hsome
  have hreaches : Reaches (oneRoomStep id) InTime (.new 0) st :=
    reaches_of_acts (fun _ _ htime hmade => ⟨htime, hmade⟩) (walk.take 3)
      (fun act hact => walk_made act (List.mem_of_mem_take hact)) .start hst
  obtain ⟨sent, hsent, hobserved⟩ := trajectory hreaches hfind hmem crossing_spares
    (by rw [hclock]; decide) hrun
  refine ⟨st, st', sent, hreaches, hrun, hsent, ?_⟩
  rw [hobserved.reports rfl, hticks]
  decide +kernel

end RoomServer
