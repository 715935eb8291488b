import Mathlib.Logic.Function.Basic
import RoomServer.Room

/-! What a job does, as far as members and flags go. A job either leaves both as
they are, or lets its session in, or takes it out; everything else it does is to
queue packets for members. -/
namespace RoomServer
open Library

def Room.member (room : Room) (socket : Nat) : Option Nat :=
  (room.roomUser.find socket).map RoomUser.session

@[simp] theorem Room.member_new (roomID : Int) (socket : Nat) :
    (Room.new roomID).member socket = none := rfl

theorem Room.session_of_values {room : Room} {user : RoomUser} (h : user ∈ room.roomUser.values) :
    ∃ socket, room.member socket = some user.session := by
  obtain ⟨socket, hsocket⟩ := OrderedMap.mem_values.mp h
  exact ⟨socket, by simp [member, hsocket]⟩

def SendsTo (p : Nat → Prop) (effects : List Effect) : Prop :=
  ∀ e ∈ effects, ∃ session sendChunk, e = .insertSendQueue session sendChunk ∧ p session

theorem sendsTo_nil (p : Nat → Prop) : SendsTo p [] := nofun

theorem sendsTo_cons {p : Nat → Prop} {session : Nat} {effects : List Effect} (h : p session)
    (sendChunk : ServerPacket ℚ) (hrest : SendsTo p effects) :
    SendsTo p (.insertSendQueue session sendChunk :: effects) := by
  intro e he
  cases he with
  | head => exact ⟨session, sendChunk, rfl, h⟩
  | tail _ he => exact hrest e he

theorem sendsTo_append {p : Nat → Prop} {first second : List Effect} (hfirst : SendsTo p first)
    (hsecond : SendsTo p second) : SendsTo p (first ++ second) := by
  intro e he
  cases List.mem_append.mp he with
  | inl he => exact hfirst e he
  | inr he => exact hsecond e he

theorem sendsTo_map {p : Nat → Prop} {users : List RoomUser} (sendChunk : ServerPacket ℚ)
    (h : ∀ user ∈ users, p user.session) :
    SendsTo p (users.map fun user => .insertSendQueue user.session sendChunk) := by
  intro e he
  obtain ⟨user, huser, rfl⟩ := List.mem_map.mp he
  exact ⟨user.session, sendChunk, rfl, h user huser⟩

theorem SendsTo.weaken {p q : Nat → Prop} {effects : List Effect} (h : SendsTo p effects)
    (hpq : ∀ session, p session → q session) : SendsTo q effects := by
  intro e he
  obtain ⟨session, sendChunk, heq, hp⟩ := h e he
  exact ⟨session, sendChunk, heq, hpq session hp⟩

def Room.Has (room : Room) (session : Nat) : Prop := ∃ socket, room.member socket = some session

inductive JobSpec (room : Room) (job : Job) (socket : Nat) (isConnected : Bool) (o : Outcome) :
    Prop where
  | stays (members : o.room.member = room.member) (before : o.before = [])
      (after : SendsTo (fun session => session = job.session ∨ room.Has session) o.after)
  | enters (kind : job.kind = .enter) (fresh : isConnected = false)
      (absent : room.member socket = none)
      (members : o.room.member = Function.update room.member socket (some job.session))
      (before : o.before = []) {sends : List Effect}
      (after : o.after = .connect job.session :: .setRoomID job.session room.roomID :: sends)
      (sends_to : SendsTo o.room.Has sends)
  | leaves (kind : job.kind = .leave) (connected : isConnected = true)
      (members : o.room.member = Function.update room.member socket none)
      {sends : List Effect}
      (before : o.before = .disConnected job.session :: .setRoomID job.session (-1) :: sends)
      (sends_to : SendsTo room.Has sends) (after : o.after = [.closeSession job.session])

namespace Room

theorem idle_spec (room room' : Room) (job : Job) (socket : Nat) (isConnected : Bool)
    (h : room'.member = room.member) : JobSpec room job socket isConnected (.idle room') :=
  .stays h rfl (sendsTo_nil _)

theorem sendOthers_sendsTo (room : Room) (session : Nat) (sendChunk : ServerPacket ℚ) :
    SendsTo room.Has (room.sendOthers session sendChunk) := by
  apply sendsTo_map
  intro user huser
  exact session_of_values (List.mem_of_mem_filter huser)

theorem spawnUsers_sendsTo {p : Nat → Prop} {session : Nat} (hsession : p session)
    (sendBroadCast : ServerPacket ℚ) (mk : Nat → Bool) (users : List RoomUser)
    (husers : ∀ user ∈ users, p user.session) (enterSpawn : Server_Spawn ℚ) (calls : Nat) :
    SendsTo p (spawnUsers session sendBroadCast mk users enterSpawn calls) := by
  induction users generalizing enterSpawn calls with
  | nil =>
    rw [spawnUsers]
    split
    · split
      · exact sendsTo_cons hsession _ (sendsTo_nil p)
      · exact sendsTo_nil p
    · exact sendsTo_nil p
  | cons user users ih =>
    have hrest := ih fun user huser => husers user (List.mem_cons_of_mem _ huser)
    rw [spawnUsers]
    split
    · exact hrest enterSpawn calls
    · apply sendsTo_cons (husers user List.mem_cons_self)
      split
      · exact hrest _ calls
      · split
        · exact sendsTo_cons hsession _ (hrest _ _)
        · exact hrest _ _

theorem member_insert {room : Room} {socket : Nat} {user : RoomUser}
    (h : (room.roomUser.insert socket user).2 = true) (seqIDs : List Nat) :
    ({ room with roomUser := (room.roomUser.insert socket user).1, seqIDs := seqIDs } : Room).member
      = Function.update room.member socket (some user.session) := by
  funext k
  simp only [member, OrderedMap.find_insert h, Function.update_apply]
  split <;> rfl

theorem member_erase (room : Room) (socket : Nat) (seqIDs : List Nat) :
    ({ room with roomUser := room.roomUser.erase socket, seqIDs := seqIDs } : Room).member =
      Function.update room.member socket none := by
  funext k
  simp only [member, OrderedMap.find_erase, Function.update_apply]
  split <;> rfl

theorem enter_spec (room : Room) (session socket : Nat) (isConnected : Bool) (mk : Nat → Bool) :
    JobSpec room ⟨.enter, session⟩ socket isConnected
      (room.enter session socket isConnected mk) := by
  unfold enter
  split
  case isTrue => exact idle_spec room room _ socket isConnected rfl
  case isFalse hconnected =>
    split
    case h_1 =>
      refine .stays rfl rfl ?_
      split
      · exact sendsTo_cons (.inl rfl) _ (sendsTo_nil _)
      · exact sendsTo_nil _
    case h_2 seqID seqIDs hseqIDs =>
      dsimp only
      split
      case isTrue hmade =>
        have hinserted := (Bool.and_eq_true_iff.mp hmade).2
        have hmember := member_insert hinserted seqIDs
        have habsent := OrderedMap.find_of_insert hinserted
        have hself := congrFun hmember socket
        rw [Function.update_self] at hself
        refine .enters rfl (by simpa using hconnected) (by simp [member, habsent]) hmember rfl
          rfl ?_
        apply sendsTo_cons ⟨socket, hself⟩
        apply spawnUsers_sendsTo ⟨socket, hself⟩
        intro user huser
        exact session_of_values huser
      case isFalse => exact idle_spec room _ _ socket isConnected rfl

theorem leave_spec (room : Room) (session socket : Nat) (isConnected : Bool) (mk : Nat → Bool) :
    JobSpec room ⟨.leave, session⟩ socket isConnected
      (room.leave session socket isConnected mk) := by
  unfold leave
  split
  case isTrue => exact idle_spec room room _ socket isConnected rfl
  case isFalse hconnected =>
    have hconnected : isConnected = true := by simpa using hconnected
    dsimp only
    split
    case h_1 hfind =>
      refine .leaves rfl hconnected ?_ rfl (sendsTo_nil _) rfl
      funext k
      simp only [Function.update_apply]
      split
      case isTrue hk => simp [member, hk, hfind]
      case isFalse => rfl
    case h_2 user hfind =>
      split
      · exact .leaves rfl hconnected (room.member_erase socket _) rfl (sendOthers_sendsTo room session _) rfl
      · exact .leaves rfl hconnected (room.member_erase socket _) rfl (sendsTo_nil _) rfl

theorem broadCast_spec (room : Room) (session socket : Nat) (isConnected : Bool)
    (text : List Byte) (mk : Nat → Bool) :
    JobSpec room ⟨.broadcast text, session⟩ socket isConnected
      (room.broadCast session text mk) := by
  unfold broadCast
  refine .stays rfl rfl ?_
  split
  · exact (sendOthers_sendsTo room session _).weaken fun _ h => .inr h
  · exact sendsTo_nil _

@[simp] theorem movePosition_session (user : RoomUser) (nowTick : Nat) :
    (movePosition user nowTick).session = user.session := by
  unfold movePosition
  dsimp only
  split
  · rfl
  · split
    · rfl
    · split
      · rfl
      · split <;> rfl

theorem member_set {room : Room} {socket : Nat} {user user' : RoomUser}
    (hfind : room.roomUser.find socket = some user) (hsession : user'.session = user.session) :
    ({ room with roomUser := room.roomUser.set socket user' } : Room).member = room.member := by
  funext k
  simp only [member, OrderedMap.find_set, hfind]
  split
  case isTrue hk => simp [hk, hfind, hsession]
  case isFalse => rfl

theorem move_spec (room : Room) (job : Job) (socket : Nat) (isConnected : Bool)
    (posX posY : Coordinate) (nowTick : Nat) :
    JobSpec room job socket isConnected (room.move socket isConnected posX posY nowTick) := by
  unfold move
  split
  case h_1 =>
    split
    · exact idle_spec room room job socket isConnected rfl
    · split
      case h_1 => exact idle_spec room room job socket isConnected rfl
      case h_2 user hfind =>
        dsimp only
        split
        · exact idle_spec room _ job socket isConnected
            (member_set hfind (movePosition_session user nowTick))
        · exact idle_spec room _ job socket isConnected
            (member_set hfind (movePosition_session user nowTick))
  case h_2 => exact idle_spec room room job socket isConnected rfl

theorem sendMoveData_sendsTo {p : Nat → Prop} {users : List RoomUser}
    (husers : ∀ user ∈ users, p user.session) (movePacket : Server_Move_Ack ℚ) (made : Bool) :
    SendsTo p (sendMoveData users movePacket made) := by
  unfold sendMoveData
  split
  · exact sendsTo_map _ husers
  · exact sendsTo_nil p

theorem moveUsers_sendsTo {p : Nat → Prop} {users : List RoomUser}
    (husers : ∀ user ∈ users, p user.session) (nowTick : Nat) (mk : Nat → Bool)
    (rest : List RoomUser) (packet : Server_Move_Ack ℚ) (calls : Nat) :
    SendsTo p (moveUsers users nowTick mk rest packet calls) := by
  induction rest generalizing packet calls with
  | nil =>
    rw [moveUsers]
    split
    · exact sendMoveData_sendsTo husers packet (mk calls)
    · exact sendsTo_nil p
  | cons user rest ih =>
    rw [moveUsers]
    dsimp only
    split
    · exact ih packet calls
    · split
      · exact ih _ calls
      · exact sendsTo_append (sendMoveData_sendsTo husers packet (mk calls)) (ih _ _)

structure TickSpec (room : Room) (o : Outcome) : Prop where
  members : o.room.member = room.member
  before : o.before = []
  after : SendsTo room.Has o.after
  roomID : o.room.roomID = room.roomID

theorem tick_spec (room : Room) (nowTick : Nat) (mk : Nat → Bool) :
    TickSpec room (room.tick nowTick mk) := by
  unfold tick
  split
  case isTrue =>
    refine ⟨?_, rfl, ?_, rfl⟩
    · funext k
      simp [moveCheckUsers, member, OrderedMap.find_mapValues, Function.comp_def]
    · apply moveUsers_sendsTo
      intro user huser
      exact session_of_values huser
  case isFalse => exact ⟨rfl, rfl, sendsTo_nil _, rfl⟩

theorem dispatch_roomID (job : Job) (room : Room) (socket : Nat) (isConnected : Bool)
    (mk : Nat → Bool) (nowTick : Nat) :
    (job.dispatch room socket isConnected mk nowTick).room.roomID = room.roomID := by
  unfold Job.dispatch enter leave broadCast move
  dsimp only [Outcome.idle]
  repeat' split
  all_goals rfl

end Room

theorem dispatch_spec (job : Job) (room : Room) (socket : Nat) (isConnected : Bool)
    (mk : Nat → Bool) (nowTick : Nat) :
    JobSpec room job socket isConnected (job.dispatch room socket isConnected mk nowTick) := by
  obtain ⟨kind, session⟩ := job
  cases kind with
  | enter => exact room.enter_spec session socket isConnected mk
  | leave => exact room.leave_spec session socket isConnected mk
  | broadcast text => exact room.broadCast_spec session socket isConnected text mk
  | move posX posY => exact room.move_spec _ socket isConnected posX posY nowTick

theorem JobSpec.has {room : Room} {job : Job} {socket : Nat} {isConnected : Bool} {o : Outcome}
    (h : JobSpec room job socket isConnected o) {s : Nat} (hs : o.room.Has s) :
    s = job.session ∨ room.Has s := by
  obtain ⟨k, hk⟩ := hs
  cases h with
  | stays members before after =>
    rw [members] at hk
    exact .inr ⟨k, hk⟩
  | enters kind fresh absent members before after sends_to =>
    rw [members, Function.update_apply] at hk
    split at hk
    · exact .inl (Option.some.inj hk).symm
    · exact .inr ⟨k, hk⟩
  | leaves kind connected members before sends_to after =>
    rw [members, Function.update_apply] at hk
    split at hk
    · contradiction
    · exact .inr ⟨k, hk⟩

theorem SendsTo.session {p : Nat → Prop} {effects : List Effect} (h : SendsTo p effects)
    {e : Effect} (he : e ∈ effects) : p e.session := by
  obtain ⟨session, sendChunk, rfl, hp⟩ := h e he
  exact hp

theorem JobSpec.before_session {room : Room} {job : Job} {socket : Nat} {isConnected : Bool}
    {o : Outcome} (h : JobSpec room job socket isConnected o) {e : Effect} (he : e ∈ o.before) :
    e.session = job.session ∨ room.Has e.session := by
  cases h with
  | stays members before after =>
    rw [before] at he
    contradiction
  | enters kind fresh absent members before after sends_to =>
    rw [before] at he
    contradiction
  | leaves kind connected members before sends_to after =>
    rw [before] at he
    rcases List.mem_cons.mp he with rfl | he
    · exact .inl rfl
    · rcases List.mem_cons.mp he with rfl | he
      · exact .inl rfl
      · exact .inr (sends_to.session he)

theorem JobSpec.after_session {room : Room} {job : Job} {socket : Nat} {isConnected : Bool}
    {o : Outcome} (h : JobSpec room job socket isConnected o) {e : Effect} (he : e ∈ o.after) :
    e.session = job.session ∨ o.room.Has e.session := by
  cases h with
  | stays members before after =>
    apply (after.session he).imp id
    intro hhas
    rwa [Room.Has, members]
  | enters kind fresh absent members before after sends_to =>
    rw [after] at he
    rcases List.mem_cons.mp he with rfl | he
    · exact .inl rfl
    · rcases List.mem_cons.mp he with rfl | he
      · exact .inl rfl
      · exact .inr (sends_to.session he)
  | leaves kind connected members before sends_to after =>
    rw [after] at he
    cases List.mem_singleton.mp he
    exact .inl rfl

end RoomServer
