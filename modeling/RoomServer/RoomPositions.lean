import Mathlib.Tactic.Linarith
import Mathlib.Tactic.Positivity
import RoomServer.RoomViews

/-! Where the clients believe a user to be, against where the server has it. A user
who moves is announced by the next tick; everybody else is where it was announced
last, unless `Move` itself let it arrive. -/
namespace RoomServer
open Library Library.Transition

/-! ### The last position in a log -/

def ServerPacket.sightings : ServerPacket ℚ → List (SpawnData ℚ)
  | .spawn packet => packet.data
  | .move packet => packet.data
  | .echo _ | .broadcast _ | .enter _ _ | .leave _ => []

def sightings (log : List (ServerPacket ℚ)) : List (SpawnData ℚ) :=
  log.flatMap ServerPacket.sightings

def lastOf (seen : List (SpawnData ℚ)) (id : Nat) : Option (ℚ × ℚ) :=
  (seen.reverse.find? fun data => data.seqID = id).map fun data => (data.posX, data.posY)

def lastHeard (log : List (ServerPacket ℚ)) (id : Nat) : Option (ℚ × ℚ) :=
  lastOf (sightings log) id

theorem lastOf_append (first second : List (SpawnData ℚ)) (id : Nat) :
    lastOf (first ++ second) id = (lastOf second id).or (lastOf first id) := by
  rw [lastOf, List.reverse_append, List.find?_append, Option.map_or]
  rfl

theorem lastOf_other {seen : List (SpawnData ℚ)} {id : Nat}
    (h : ∀ data ∈ seen, data.seqID ≠ id) : lastOf seen id = none := by
  rw [lastOf, Option.map_eq_none_iff, List.find?_eq_none]
  intro data hdata
  exact fun heq => h data (List.mem_reverse.mp hdata) (of_decide_eq_true heq)

theorem lastOf_mem {seen : List (SpawnData ℚ)} {data : SpawnData ℚ}
    (hnodup : (seen.map SpawnData.seqID).Nodup) (hmem : data ∈ seen) :
    lastOf seen data.seqID = some (data.posX, data.posY) := by
  induction seen with
  | nil => contradiction
  | cons first rest ih =>
    have hfirst := List.nodup_cons.mp hnodup
    rw [← List.singleton_append, lastOf_append]
    rcases List.mem_cons.mp hmem with rfl | hrest
    · rw [lastOf_other fun other hother heq => hfirst.1 (List.mem_map.mpr ⟨other, hother, heq⟩)]
      simp [lastOf]
    · rw [ih hfirst.2 hrest]
      rfl

theorem lastHeard_append (log sent : List (ServerPacket ℚ)) (id : Nat) :
    lastHeard (log ++ sent) id = (lastOf (sightings sent) id).or (lastHeard log id) := by
  rw [lastHeard, sightings, List.flatMap_append]
  exact lastOf_append _ _ id

theorem sightings_batches (batches : List (DataList ℚ limit)) (packet : DataList ℚ limit → ServerPacket ℚ)
    (h : ∀ batch, (packet batch).sightings = batch.data) :
    sightings (batches.map packet) = batches.flatMap DataList.data := by
  rw [sightings, List.flatMap_map]
  exact List.flatMap_congr fun batch _ => h batch

/-! ### A user's own course -/

def InMap (x y : ℚ) : Prop := 0 ≤ x ∧ x < MaxX ∧ 0 ≤ y ∧ y < MaxY

/-- What `Move` leaves of a user, as the clock goes on. -/
structure RoomUser.Placed (clock : Nat) (user : RoomUser) : Prop where
  pos : InMap user.posX user.posY
  dest : user.isMove = true → InMap user.destPosX user.destPosY
  started : user.isMove = true → user.startMoveTick ≤ clock
  ends : user.isMove = true → user.startMoveTick ≤ user.endMoveTick
  short : user.isMove = true → user.endMoveTick < user.startMoveTick + 2 ^ 64

/-- How `MovePosition` finds a user. -/
inductive RoomUser.Stage (nowTick : Nat) (user : RoomUser) : Prop where
  | rest (rests : user.isMove = false)
  | arrived (moves : user.isMove = true) (gone : user.endMoveTick ≤ nowTick)
  | onWay (moves : user.isMove = true) (started : user.startMoveTick ≤ nowTick)
      (ends : nowTick < user.endMoveTick) (short : user.endMoveTick < user.startMoveTick + 2 ^ 64)

theorem RoomUser.Placed.stage {clock nowTick : Nat} {user : RoomUser} (h : user.Placed clock)
    (hclock : clock ≤ nowTick) : user.Stage nowTick := by
  cases hmove : user.isMove with
  | false => exact .rest hmove
  | true =>
    by_cases hend : user.endMoveTick ≤ nowTick
    · exact .arrived hmove hend
    · exact .onWay hmove ((h.started hmove).trans hclock) (Nat.lt_of_not_le hend) (h.short hmove)

namespace Room

theorem movePosition_rest {user : RoomUser} (h : user.isMove = false) (nowTick : Nat) :
    movePosition user nowTick = user := if_pos h

theorem movePosition_arrived {user : RoomUser} {nowTick : Nat} (h : user.isMove = true)
    (hend : user.endMoveTick ≤ nowTick) :
    movePosition user nowTick =
      { user with
        posX := user.destPosX, posY := user.destPosY, startMoveTick := nowTick
        isMove := false } := by
  rw [movePosition, if_neg (by rw [h]; decide), if_pos hend]

theorem uint64Sub_eq {a b : Nat} (hle : b ≤ a) (hlt : a < b + 2 ^ 64) : uint64Sub a b = a - b := by
  rw [uint64Sub, Nat.add_comm, Nat.add_sub_assoc hle, Nat.add_mod_left, Nat.mod_eq_of_lt (by omega)]

theorem movePosition_onWay {nowTick : Nat} {user : RoomUser} (h : user.isMove = true)
    (hstart : user.startMoveTick ≤ nowTick) (hend : nowTick < user.endMoveTick)
    (hshort : user.endMoveTick < user.startMoveTick + 2 ^ 64) :
    movePosition user nowTick =
      { user with
        posX := user.posX + (user.destPosX - user.posX) *
          ((nowTick - user.startMoveTick : Nat) / (user.endMoveTick - user.startMoveTick : Nat))
        posY := user.posY + (user.destPosY - user.posY) *
          ((nowTick - user.startMoveTick : Nat) / (user.endMoveTick - user.startMoveTick : Nat))
        startMoveTick := nowTick } := by
  have htotal : uint64Sub user.endMoveTick user.startMoveTick =
      user.endMoveTick - user.startMoveTick := uint64Sub_eq (by omega) hshort
  have hpassed : uint64Sub nowTick user.startMoveTick = nowTick - user.startMoveTick :=
    uint64Sub_eq hstart (by omega)
  rw [movePosition, if_neg (by rw [h]; decide), if_neg (by omega), if_neg (by omega)]
  dsimp only
  rw [htotal, hpassed, if_neg (by omega)]

theorem movePosition_underway {nowTick : Nat} {user : RoomUser} (h : user.isMove = true)
    (hstart : user.startMoveTick ≤ nowTick) (hend : nowTick < user.endMoveTick)
    (hshort : user.endMoveTick < user.startMoveTick + 2 ^ 64) :
    ∃ ratio : ℚ, 0 ≤ ratio ∧ ratio ≤ 1 ∧ movePosition user nowTick =
      { user with
        posX := user.posX + (user.destPosX - user.posX) * ratio
        posY := user.posY + (user.destPosY - user.posY) * ratio
        startMoveTick := nowTick } := by
  have hle : nowTick - user.startMoveTick ≤ user.endMoveTick - user.startMoveTick := by omega
  exact ⟨(nowTick - user.startMoveTick : Nat) / (user.endMoveTick - user.startMoveTick : Nat),
    by positivity, div_le_one_of_le₀ (Nat.cast_le.mpr hle) (Nat.cast_nonneg _),
    movePosition_onWay h hstart hend hshort⟩

theorem between {x d r bound : ℚ} (hx : 0 ≤ x ∧ x < bound) (hd : 0 ≤ d ∧ d < bound)
    (hr : 0 ≤ r) (hr' : r ≤ 1) : 0 ≤ x + (d - x) * r ∧ x + (d - x) * r < bound := by
  have hsplit : x + (d - x) * r = x * (1 - r) + d * r := by ring
  rw [hsplit]
  have hrest : 0 ≤ 1 - r := by linarith
  constructor
  · exact add_nonneg (mul_nonneg hx.1 hrest) (mul_nonneg hd.1 hr)
  · rcases eq_or_lt_of_le hr with rfl | hpos
    · linarith
    · have hfirst : x * (1 - r) ≤ bound * (1 - r) := mul_le_mul_of_nonneg_right hx.2.le hrest
      have hsecond : d * r < bound * r := mul_lt_mul_of_pos_right hd.2 hpos
      linarith

theorem movePosition_placed {clock nowTick : Nat} {user : RoomUser} (hplaced : user.Placed clock)
    (hclock : clock ≤ nowTick) : (movePosition user nowTick).Placed nowTick := by
  cases hplaced.stage hclock with
  | rest rests =>
    rw [movePosition_rest rests]
    refine ⟨hplaced.pos, ?_, ?_, ?_, ?_⟩ <;> rw [rests] <;> nofun
  | arrived moves gone =>
    rw [movePosition_arrived moves gone]
    exact ⟨hplaced.dest moves, nofun, nofun, nofun, nofun⟩
  | onWay moves started ends short =>
    obtain ⟨ratio, hnonneg, hle, heq⟩ := movePosition_underway moves started ends short
    obtain ⟨hx, hx', hy, hy'⟩ := hplaced.pos
    obtain ⟨hdx, hdx', hdy, hdy'⟩ := hplaced.dest moves
    have hposX := between ⟨hx, hx'⟩ ⟨hdx, hdx'⟩ hnonneg hle
    have hposY := between ⟨hy, hy'⟩ ⟨hdy, hdy'⟩ hnonneg hle
    rw [heq]
    refine ⟨⟨hposX.1, hposX.2, hposY.1, hposY.2⟩, fun _ => hplaced.dest moves,
      fun _ => Nat.le_refl _, fun _ => ends.le, fun _ => ?_⟩
    change user.endMoveTick < nowTick + 2 ^ 64
    omega

theorem travelTick_lt {x y posX posY : ℚ} (hfrom : InMap x y) (hto : InMap posX posY) :
    travelTick ((posX - x) * (posX - x) + (posY - y) * (posY - y)) < 2 ^ 64 := by
  unfold InMap MaxX MaxY at hfrom hto
  have hdist : (posX - x) * (posX - x) + (posY - y) * (posY - y) ≤ 200000000 := by nlinarith
  have hscaled : ((posX - x) * (posX - x) + (posY - y) * (posY - y)) / MoveSpeed ^ 2 * 1000 ^ 2 ≤
      (200000000000000 : Nat) := by
    unfold MoveSpeed
    norm_num
    linarith
  have hfloor := Nat.floor_le_of_le hscaled
  have hsqrt := Nat.sqrt_le_self
    ⌊((posX - x) * (posX - x) + (posY - y) * (posY - y)) / MoveSpeed ^ 2 * 1000 ^ 2⌋₊
  unfold travelTick
  omega

/-! ### What a turn makes of the users and tells of them -/

def moveTo (user : RoomUser) (posX posY : ℚ) (nowTick : Nat) : RoomUser :=
  let dist2 := (posX - user.posX) * (posX - user.posX) + (posY - user.posY) * (posY - user.posY)
  if dist2 ≤ 0 then user
  else
    { user with
      isMove := true, destPosX := posX, destPosY := posY
      startMoveTick := nowTick, endMoveTick := nowTick + travelTick dist2 }

@[simp] theorem moveTo_session (user : RoomUser) (posX posY : ℚ) (nowTick : Nat) :
    (moveTo user posX posY nowTick).session = user.session := by
  unfold moveTo
  dsimp only
  split <;> rfl

@[simp] theorem moveTo_seqID (user : RoomUser) (posX posY : ℚ) (nowTick : Nat) :
    (moveTo user posX posY nowTick).seqID = user.seqID := by
  unfold moveTo
  dsimp only
  split <;> rfl

theorem moveTo_placed {user : RoomUser} {nowTick : Nat} (h : user.Placed nowTick) {posX posY : ℚ}
    (hto : InMap posX posY) : (moveTo user posX posY nowTick).Placed nowTick := by
  unfold moveTo
  dsimp only
  split
  · exact h
  · have htravel := travelTick_lt h.pos hto
    refine ⟨h.pos, fun _ => hto, fun _ => Nat.le_refl _, fun _ => Nat.le_add_right _ _, fun _ => ?_⟩
    exact Nat.add_lt_add_left htravel nowTick

inductive MoveSpec (room : Room) (socket : Nat) (isConnected : Bool) (posX posY : Coordinate)
    (nowTick : Nat) (o : Outcome) : Prop where
  | idle (outcome : o = .idle room)
  | moves {user : RoomUser} {x y : ℚ} (connected : isConnected = true) (reqX : posX = .finite x)
      (reqY : posY = .finite y) (inMap : InMap x y)
      (found : room.roomUser.find socket = some user)
      (outcome : o = .idle { room with
        roomUser := room.roomUser.set socket (moveTo (movePosition user nowTick) x y nowTick) })

theorem move_position (room : Room) (socket : Nat) (isConnected : Bool) (posX posY : Coordinate)
    (nowTick : Nat) :
    MoveSpec room socket isConnected posX posY nowTick
      (room.move socket isConnected posX posY nowTick) := by
  unfold move
  split
  case h_1 x y =>
    split
    case isTrue => exact .idle rfl
    case isFalse hvalid =>
      simp only [not_or, Bool.not_eq_false, not_lt, not_le] at hvalid
      obtain ⟨hconnected, hx, hx', hy, hy'⟩ := hvalid
      split
      case h_1 => exact .idle rfl
      case h_2 user hfind =>
        refine .moves hconnected rfl rfl ⟨hx, hx', hy, hy'⟩ hfind ?_
        unfold moveTo
        dsimp only
        split <;> rfl
  case h_2 => exact .idle rfl

theorem sightings_replicate (n : Nat) (packet : ServerPacket ℚ) {data : SpawnData ℚ}
    (h : packet.sightings = [data]) :
    sightings (List.replicate n packet) = List.replicate n data := by
  induction n with
  | zero => rfl
  | succ n ih =>
    rw [List.replicate_succ, sightings, List.flatMap_cons, h, List.replicate_succ]
    exact congrArg ([data] ++ ·) ih

inductive PositionSpec (room : Room) (job : Job) (socket : Nat) (isConnected : Bool)
    (nowTick : Nat) (o : Outcome) : Prop where
  | same (roomUser : o.room.roomUser = room.roomUser)
      (silent : ∀ a, sightings (sentTo a o.effects) = []) (others : ∀ a, .connect a ∉ o.effects)
  | enters {id : Nat} {sends : List Effect} (fresh : isConnected = false) (free : id ∈ room.seqIDs)
      (inserted : (room.roomUser.insert socket (.enter job.session 0 0 id)).2 = true)
      (roomUser : o.room.roomUser = (room.roomUser.insert socket (.enter job.session 0 0 id)).1)
      (effects : o.effects = .connect job.session :: sends) (others : ∀ a, .connect a ∉ sends)
      (told : ∀ a, a ≠ job.session →
        sightings (sentTo a sends) = List.replicate (room.sessions.count a) ⟨id, 0, 0⟩)
      (tells : sightings (sentTo job.session sends) =
        (o.room.roomUser.values.filter fun user => user.session ≠ job.session).map RoomUser.data)
  | leaves (roomUser : o.room.roomUser = room.roomUser.erase socket)
      (silent : ∀ a, sightings (sentTo a o.effects) = []) (others : ∀ a, .connect a ∉ o.effects)
  | moves {posX posY : Coordinate} (kind : job.kind = .move posX posY)
      (spec : MoveSpec room socket isConnected posX posY nowTick o)

theorem no_connect {p : Nat → Prop} {effects : List Effect} (h : SendsTo p effects) (a : Nat) :
    .connect a ∉ effects := by
  intro hmem
  obtain ⟨session, sendChunk, heq, _⟩ := h _ hmem
  contradiction

theorem silent_sendOthers (room : Room) (session : Nat) {sendChunk : ServerPacket ℚ}
    (h : sendChunk.sightings = []) (a : Nat) :
    sightings (sentTo a (room.sendOthers session sendChunk)) = [] := by
  rw [sendOthers, sentTo_map, sightings, List.flatMap_eq_nil_iff]
  intro packet hpacket
  rw [List.eq_of_mem_replicate hpacket, h]

theorem enter_position (room : Room) (session socket : Nat) (isConnected : Bool) {mk : Nat → Bool}
    (hmade : ∀ n, mk n = true) (nowTick : Nat) :
    PositionSpec room ⟨.enter, session⟩ socket isConnected nowTick
      (room.enter session socket isConnected mk) := by
  unfold enter
  split
  case isTrue => exact .same rfl (fun _ => rfl) nofun
  case isFalse hconnected =>
    split
    case h_1 =>
      rw [if_pos (hmade 0)]
      refine .same rfl (fun a => ?_) fun a => ?_
      · by_cases ha : session = a
        · subst ha
          exact congrArg sightings (sentTo_self _ _ [])
        · exact congrArg sightings (sentTo_other ha _ [])
      · exact no_connect (sendsTo_cons (p := fun _ => True) trivial _ (sendsTo_nil _)) a
    case h_2 seqID seqIDs hfree =>
      dsimp only
      split
      case isFalse => exact .same rfl (fun _ => rfl) nofun
      case isTrue hall =>
        have hinserted := (Bool.and_eq_true_iff.mp hall).2
        have hsends : SendsTo (fun _ => True) (.insertSendQueue session (.enter room.roomID seqID) ::
            spawnUsers session (.spawn ((DataList.empty : Server_Spawn ℚ).add
              (RoomUser.enter session 0 0 seqID).data).1) mk
              (room.roomUser.insert socket (.enter session 0 0 seqID)).1.values .empty 2) :=
          sendsTo_cons trivial _ (spawnUsers_sendsTo trivial _ mk _ (fun _ _ => trivial) _ _)
        refine .enters (by simpa using hconnected) (hfree ▸ List.mem_cons_self) hinserted rfl rfl
          (fun a hmem => ?_) (fun a ha => ?_) ?_
        · rcases List.mem_cons.mp hmem with heq | hmem
          · contradiction
          · exact no_connect hsends a hmem
        · have ha : session ≠ a := Ne.symm ha
          rw [sentTo_setRoomID, sentTo_other ha, sentTo_spawnUsers ha.symm,
            count_insert hinserted ha.symm]
          exact sightings_replicate _ _ rfl
        · obtain ⟨batches, hsent, _, hdata⟩ := spawnUsers_batches session
            (.spawn ((DataList.empty : Server_Spawn ℚ).add (RoomUser.enter session 0 0 seqID).data).1)
            mk (room.roomUser.insert socket (.enter session 0 0 seqID)).1.values .empty 2
          dsimp only
          rw [sentTo_setRoomID, sentTo_self, hsent, sightings, List.flatMap_cons]
          exact (sightings_batches batches .spawn fun _ => rfl).trans (hdata hmade)

theorem leave_position (room : Room) (session socket : Nat) (isConnected : Bool) (mk : Nat → Bool)
    (nowTick : Nat) :
    PositionSpec room ⟨.leave, session⟩ socket isConnected nowTick
      (room.leave session socket isConnected mk) := by
  unfold leave
  split
  · exact .same rfl (fun _ => rfl) nofun
  · dsimp only
    split
    case h_1 => exact .same rfl (fun _ => rfl) fun _ => by simp [Outcome.effects]
    case h_2 user hfind =>
      split
      case isFalse => exact .leaves rfl (fun _ => rfl) fun _ => by simp [Outcome.effects]
      case isTrue =>
        have hsends := sendOthers_sendsTo room session (.leave user.seqID)
        refine .leaves rfl (fun a => ?_) fun a => ?_
        · rw [Outcome.effects, sentTo_append, sentTo_append]
          exact (congrArg sightings (List.append_nil _)).trans
            (silent_sendOthers room session rfl a)
        · simp [Outcome.effects, no_connect hsends a]

theorem broadCast_position (room : Room) (session socket : Nat) (isConnected : Bool)
    (text : List Byte) (mk : Nat → Bool) (nowTick : Nat) :
    PositionSpec room ⟨.broadcast text, session⟩ socket isConnected nowTick
      (room.broadCast session text mk) := by
  unfold broadCast
  have hsends := sendOthers_sendsTo room session (.broadcast text)
  split
  · exact .same rfl (silent_sendOthers room session rfl) (no_connect hsends)
  · exact .same rfl (fun _ => rfl) nofun

theorem moveUsers_batches {users : List RoomUser} {a : Nat}
    (hmember : (users.map RoomUser.session).count a = 1) (nowTick : Nat) {mk : Nat → Bool}
    (hmade : ∀ n, mk n = true) (rest : List RoomUser) (packet : Server_Move_Ack ℚ) (calls : Nat) :
    ∃ batches : List (Server_Move_Ack ℚ),
      sentTo a (moveUsers users nowTick mk rest packet calls) = batches.map .move ∧
      batches.flatMap DataList.data = packet.data ++
        (rest.filter RoomUser.isMove).map fun user => (movePosition user nowTick).data := by
  have hsend (packet : Server_Move_Ack ℚ) (n : Nat) :
      sentTo a (sendMoveData users packet (mk n)) = [.move packet] := by
    rw [sendMoveData, if_pos (hmade n), sentTo_map, hmember]
    rfl
  induction rest generalizing packet calls with
  | nil =>
    rw [moveUsers, List.filter_nil, List.map_nil, List.append_nil]
    split
    case isTrue => exact ⟨[packet], hsend packet calls, List.append_nil _⟩
    case isFalse hempty => exact ⟨[], rfl, (data_empty hempty).symm⟩
  | cons user rest ih =>
    rw [moveUsers]
    dsimp only
    split
    case isTrue hrest =>
      rw [List.filter_cons_of_neg (by rw [hrest]; decide)]
      exact ih packet calls
    case isFalse hmoves =>
      rw [List.filter_cons_of_pos (by simpa using hmoves), List.map_cons]
      split
      case isTrue hadded =>
        have h := ih (packet.add (movePosition user nowTick).data).1 calls
        rwa [data_add hadded, List.append_assoc] at h
      case isFalse =>
        obtain ⟨batches, hsent, hdata⟩ :=
          ih ((DataList.empty : Server_Move_Ack ℚ).add (movePosition user nowTick).data).1 (calls + 1)
        refine ⟨packet :: batches, ?_, ?_⟩
        · rw [sentTo_append, hsend, hsent]
          rfl
        · rw [List.flatMap_cons, hdata]
          rfl

end Room

theorem dispatch_position (job : Job) (room : Room) (socket : Nat) (isConnected : Bool)
    {mk : Nat → Bool} (hmade : ∀ n, mk n = true) (nowTick : Nat) :
    Room.PositionSpec room job socket isConnected nowTick
      (job.dispatch room socket isConnected mk nowTick) := by
  obtain ⟨kind, session⟩ := job
  cases kind with
  | enter => exact room.enter_position session socket isConnected hmade nowTick
  | leave => exact room.leave_position session socket isConnected mk nowTick
  | broadcast text => exact room.broadCast_position session socket isConnected text mk nowTick
  | move posX posY => exact .moves rfl (room.move_position socket isConnected posX posY nowTick)

/-! ### The invariant -/

def Announced (st : OneRoom) (user other : RoomUser) : Prop :=
  lastHeard (st.heard other.session) user.seqID = some (user.posX, user.posY)

structure PositionInv (st : OneRoom) : Prop where
  placed : ∀ k user, st.room.roomUser.find k = some user → user.Placed st.clock
  told : ∀ k user k' other, st.room.roomUser.find k = some user →
    st.room.roomUser.find k' = some other → k ≠ k' →
    user.isMove = true ∨ Announced st user other

/-- The request asks a user, who has arrived since the last tick, to go where it is. -/
def ReachesAgain (socketOf : Nat → Nat) (st : OneRoom) : OneRoomAct → Prop
  | .job ⟨.move (.finite posX) (.finite posY), session⟩ _ nowTick =>
    st.connected session = true ∧ ∃ user ∈ st.room.roomUser.find (socketOf session),
      user.isMove = true ∧ user.endMoveTick ≤ nowTick ∧
      user.destPosX = posX ∧ user.destPosY = posY
  | _ => False

/-- The clock goes on, every packet is made, and no arrival is lost. -/
structure Orderly (socketOf : Nat → Nat) (st : OneRoom) (act : OneRoomAct) : Prop where
  clock : st.clock ≤ act.nowTick
  made : act.AllMade
  arrival : ¬ReachesAgain socketOf st act

section Step
variable {socketOf : Nat → Nat} {st st' : OneRoom} {act : OneRoomAct}

theorem mem_values_of_find {room : Room} {k : Nat} {user : RoomUser}
    (h : room.roomUser.find k = some user) : user ∈ room.roomUser.values :=
  OrderedMap.mem_values.mpr ⟨k, h⟩

theorem RoomUser.Placed.later {clock clock' : Nat} {user : RoomUser} (h : user.Placed clock)
    (hle : clock ≤ clock') : user.Placed clock' :=
  ⟨h.pos, h.dest, fun hmove => (h.started hmove).trans hle, h.ends, h.short⟩

theorem Announced.silent {user other : RoomUser} {sent : List (ServerPacket ℚ)}
    (hlog : st'.heard other.session = st.heard other.session ++ sent)
    (hsilent : lastOf (sightings sent) user.seqID = none) (h : Announced st user other) :
    Announced st' user other := by
  rw [Announced, hlog, lastHeard_append, hsilent]
  exact h

theorem heard_finish {a : Nat} {o : Outcome} (h : .connect a ∉ o.effects) (nowTick : Nat) :
    (st.finish o nowTick).heard a = st.heard a ++ sentTo a o.effects := foldl_heard h st

theorem heard_stays {s a : Nat} {o : Outcome} {sends : List Effect}
    (effects : o.effects = .connect s :: sends) (others : ∀ a, .connect a ∉ sends) (ha : a ≠ s)
    (nowTick : Nat) : (st.finish o nowTick).heard a = st.heard a ++ sentTo a sends := by
  have hconnect : .connect a ∉ o.effects := by
    rw [effects]
    intro hmem
    rcases List.mem_cons.mp hmem with heq | hmem
    · exact ha (Effect.connect.inj heq)
    · exact others a hmem
  rw [heard_finish hconnect, effects]
  rfl

theorem heard_entrant {s : Nat} {o : Outcome} {sends : List Effect}
    (effects : o.effects = .connect s :: sends) (others : ∀ a, .connect a ∉ sends) (nowTick : Nat) :
    (st.finish o nowTick).heard s = sentTo s sends := by
  change (o.effects.foldl OneRoom.apply st).heard s = _
  rw [effects, List.foldl_cons, foldl_heard (others s)]
  exact congrArg (· ++ _) (Function.update_self _ _ _)

theorem PositionInv.fewer (h : PositionInv st) {o : Outcome} {nowTick : Nat}
    (hclock : st.clock ≤ nowTick)
    (hfind : ∀ k user, o.room.roomUser.find k = some user → st.room.roomUser.find k = some user)
    (hsilent : ∀ a, sightings (sentTo a o.effects) = [])
    (hothers : ∀ a, .connect a ∉ o.effects) : PositionInv (st.finish o nowTick) where
  placed k user hk := (h.placed k user (hfind k user hk)).later hclock
  told k user k' other hk hk' hne := by
    apply (h.told k user k' other (hfind k user hk) (hfind k' other hk') hne).imp_right
    apply Announced.silent (heard_finish (hothers other.session) nowTick)
    rw [hsilent]
    rfl

theorem PositionInv.enters (h : PositionInv st) (hview : ViewInv socketOf st) {o : Outcome}
    {nowTick socket s id : Nat} {sends : List Effect} (hids : o.room.ids.Nodup)
    (hclock : st.clock ≤ nowTick) (fresh : st.connected s = false) (free : id ∈ st.room.seqIDs)
    (inserted : (st.room.roomUser.insert socket (.enter s 0 0 id)).2 = true)
    (roomUser : o.room.roomUser = (st.room.roomUser.insert socket (.enter s 0 0 id)).1)
    (effects : o.effects = .connect s :: sends) (others : ∀ a, .connect a ∉ sends)
    (told : ∀ a, a ≠ s →
      sightings (sentTo a sends) = List.replicate (st.room.sessions.count a) ⟨id, 0, 0⟩)
    (tells : sightings (sentTo s sends) =
      (o.room.roomUser.values.filter fun user => user.session ≠ s).map RoomUser.data) :
    PositionInv (st.finish o nowTick) := by
  have hfind (k : Nat) : o.room.roomUser.find k =
      if k = socket then some (.enter s 0 0 id) else st.room.roomUser.find k := by
    rw [roomUser]
    exact OrderedMap.find_insert inserted k
  have hold {k : Nat} {user : RoomUser} (hk : st.room.roomUser.find k = some user) :
      user.session ≠ s := by
    intro heq
    have hconnected := hview.members _ _ (mem_roster (mem_values_of_find hk))
    rw [heq, fresh] at hconnected
    contradiction
  have hsighting {k : Nat} {other : RoomUser} (hk : st.room.roomUser.find k = some other) :
      sightings (sentTo other.session sends) = [⟨id, 0, 0⟩] := by
    rw [told _ (hold hk), hview.count (mem_roster (mem_values_of_find hk))]
    rfl
  constructor
  · intro k user hk
    change o.room.roomUser.find k = some user at hk
    rw [hfind] at hk
    split at hk
    · cases hk
      refine ⟨?_, nofun, nofun, nofun, nofun⟩
      simp [RoomUser.enter, InMap, MaxX, MaxY]
    · exact (h.placed k user hk).later hclock
  · intro k user k' other hk hk' hne
    change o.room.roomUser.find k = some user at hk
    change o.room.roomUser.find k' = some other at hk'
    have huser := hk
    rw [hfind] at hk hk'
    split at hk'
    case isTrue hsocket' =>
      -- the entrant hears of everybody who was there
      cases hk'
      rw [if_neg fun hsocket => hne (hsocket.trans hsocket'.symm)] at hk
      right
      change lastHeard ((st.finish o nowTick).heard s) user.seqID = _
      rw [heard_entrant effects others, lastHeard, tells]
      have hmem : user.data ∈ (o.room.roomUser.values.filter
          (fun user => user.session ≠ s)).map RoomUser.data := by
        apply List.mem_map_of_mem
        exact List.mem_filter.mpr ⟨mem_values_of_find huser, by simpa using hold hk⟩
      refine lastOf_mem ?_ hmem
      rw [List.map_map]
      exact (List.nodup_append.mp hids).2.1.sublist (o.room.others_sublist s)
    case isFalse hsocket' =>
      split at hk
      case isTrue hsocket =>
        -- everybody hears of the entrant
        cases hk
        right
        change lastHeard ((st.finish o nowTick).heard other.session) id = some (0, 0)
        rw [heard_stays effects others (hold hk'), lastHeard_append, hsighting hk']
        simp [lastOf]
      case isFalse hsocket =>
        apply (h.told k user k' other hk hk' hne).imp_right
        apply Announced.silent (heard_stays effects others (hold hk') nowTick)
        rw [hsighting hk']
        apply lastOf_other
        intro data hdata heq
        cases List.mem_singleton.mp hdata
        have hfree := hview.not_free (mem_roster (mem_values_of_find hk))
        rw [← heq] at hfree
        exact hfree free

/-- Whom `Move` leaves at rest, it leaves as it was, unless it let the user arrive. -/
theorem Room.moveTo_stays {clock nowTick : Nat} {user : RoomUser} {x y : ℚ}
    (hplaced : user.Placed clock) (hclock : clock ≤ nowTick)
    (harrival : ¬(user.isMove = true ∧ user.endMoveTick ≤ nowTick ∧ user.destPosX = x ∧
      user.destPosY = y))
    (hrest : (moveTo (movePosition user nowTick) x y nowTick).isMove = false) :
    moveTo (movePosition user nowTick) x y nowTick = user := by
  unfold moveTo at hrest ⊢
  dsimp only at hrest ⊢
  split at hrest
  case isFalse => cases hrest
  case isTrue hdist =>
    rw [if_pos hdist]
    have hx : x - (movePosition user nowTick).posX = 0 := by nlinarith
    have hy : y - (movePosition user nowTick).posY = 0 := by nlinarith
    cases hplaced.stage hclock with
    | rest rests => exact movePosition_rest rests nowTick
    | arrived moves gone =>
      rw [movePosition_arrived moves gone] at hx hy
      exact absurd ⟨moves, gone, (sub_eq_zero.mp hx).symm, (sub_eq_zero.mp hy).symm⟩ harrival
    | onWay moves started ends short =>
      rw [movePosition_onWay moves started ends short] at hrest
      exact absurd (hrest.symm.trans moves) Bool.false_ne_true

theorem PositionInv.moves (h : PositionInv st) {nowTick s : Nat} {user : RoomUser} {x y : ℚ}
    (hclock : st.clock ≤ nowTick) (inMap : InMap x y)
    (found : st.room.roomUser.find (socketOf s) = some user)
    (harrival : ¬(user.isMove = true ∧ user.endMoveTick ≤ nowTick ∧ user.destPosX = x ∧
      user.destPosY = y)) :
    PositionInv (st.finish (.idle { st.room with
      roomUser := st.room.roomUser.set (socketOf s)
        (Room.moveTo (Room.movePosition user nowTick) x y nowTick) }) nowTick) := by
  have hplaced := h.placed _ user found
  have hmoved := Room.movePosition_placed hplaced hclock
  have hfind (k : Nat) : (st.room.roomUser.set (socketOf s)
      (Room.moveTo (Room.movePosition user nowTick) x y nowTick)).find k =
        if k = socketOf s then some (Room.moveTo (Room.movePosition user nowTick) x y nowTick)
        else st.room.roomUser.find k := by
    rw [OrderedMap.find_set, found]
    rfl
  -- the session under a key does not change
  have hsame {k : Nat} {other : RoomUser} (hk : (st.room.roomUser.set (socketOf s)
      (Room.moveTo (Room.movePosition user nowTick) x y nowTick)).find k = some other) :
      ∃ before, st.room.roomUser.find k = some before ∧ before.session = other.session := by
    rw [hfind] at hk
    split at hk
    case isTrue hsocket =>
      cases hk
      exact ⟨user, hsocket ▸ found, by simp⟩
    case isFalse => exact ⟨other, hk, rfl⟩
  constructor
  · intro k other hk
    change (st.room.roomUser.set _ _).find k = some other at hk
    rw [hfind] at hk
    split at hk
    · cases hk
      exact Room.moveTo_placed hmoved inMap
    · exact (h.placed k other hk).later hclock
  · intro k mover k' other hk hk' hne
    obtain ⟨before, hbefore, hsession⟩ := hsame hk'
    change mover.isMove = true ∨
      lastHeard (st.heard other.session) mover.seqID = some (mover.posX, mover.posY)
    rw [← hsession]
    change (st.room.roomUser.set _ _).find k = some mover at hk
    rw [hfind] at hk
    split at hk
    case isFalse => exact h.told k mover k' before hk hbefore hne
    case isTrue hsocket =>
      have htold := h.told k user k' before (hsocket ▸ found) hbefore hne
      cases hk
      by_cases hmove : (Room.moveTo (Room.movePosition user nowTick) x y nowTick).isMove = true
      · exact .inl hmove
      · rw [Room.moveTo_stays hplaced hclock harrival (Bool.eq_false_iff.mpr hmove)]
        exact htold

def Settled (st : OneRoom) : Prop :=
  ∀ k user k' other, st.room.roomUser.find k = some user →
    st.room.roomUser.find k' = some other → k ≠ k' → Announced st user other

/-- What a tick does, whatever it has written to `lastTick`. -/
abbrev Room.checked (room : Room) (lastTick nowTick : Nat) (made : Nat → Bool) : Outcome :=
  { room with lastTick := lastTick }.moveCheckUsers nowTick made

/-- The users who moved are announced to everybody; the others were before. -/
theorem PositionInv.ticks (h : PositionInv st) (hview : ViewInv socketOf st) (lastTick : Nat) {nowTick : Nat}
    {made : Nat → Bool} (hclock : st.clock ≤ nowTick) (hmade : ∀ n, made n = true) :
    PositionInv (st.finish (st.room.checked lastTick nowTick made) nowTick) ∧
      Settled (st.finish (st.room.checked lastTick nowTick made) nowTick) := by
  have hfind {k : Nat} {user : RoomUser}
      (hk : (st.room.roomUser.mapValues fun _ user => Room.movePosition user nowTick).find k =
        some user) :
      ∃ before, st.room.roomUser.find k = some before ∧
        user = Room.movePosition before nowTick := by
    rw [OrderedMap.find_mapValues] at hk
    obtain ⟨before, hbefore, rfl⟩ := Option.map_eq_some_iff.mp hk
    exact ⟨before, hbefore, rfl⟩
  have hnames : (((st.room.roomUser.values.filter RoomUser.isMove).map fun user =>
      (Room.movePosition user nowTick).data).map SpawnData.seqID).Nodup := by
    have hsame : (((st.room.roomUser.values.filter RoomUser.isMove).map fun user =>
        (Room.movePosition user nowTick).data).map SpawnData.seqID) =
          (st.room.roomUser.values.filter RoomUser.isMove).map RoomUser.seqID := by
      rw [List.map_map]
      exact List.map_congr_left fun user _ => Room.movePosition_seqID user nowTick
    rw [hsame]
    exact (List.nodup_append.mp hview.ids).2.1.sublist (List.filter_sublist.map _)
  have hsettled : Settled (st.finish (st.room.checked lastTick nowTick made) nowTick) := by
    intro k _ k' _ hk hk' hne
    obtain ⟨user, huser, rfl⟩ := hfind hk
    obtain ⟨other, hother, rfl⟩ := hfind hk'
    have hmember := hview.count (mem_roster (mem_values_of_find hother))
    obtain ⟨batches, hsent, hdata⟩ := Room.moveUsers_batches hmember nowTick hmade
      st.room.roomUser.values .empty 0
    have hsightings : sightings (sentTo other.session
        (st.room.checked lastTick nowTick made).effects) =
          (st.room.roomUser.values.filter RoomUser.isMove).map fun user =>
            (Room.movePosition user nowTick).data := by
      change sightings (sentTo other.session (Room.moveUsers _ nowTick made _ .empty 0)) = _
      rw [hsent, sightings_batches batches .move fun _ => rfl, hdata]
      rfl
    have hlog : (st.finish (st.room.checked lastTick nowTick made) nowTick).heard other.session =
        st.heard other.session ++
          sentTo other.session (st.room.checked lastTick nowTick made).effects := by
      apply heard_finish
      exact Room.no_connect (Room.moveUsers_sendsTo (p := fun _ => True) (fun _ _ => trivial)
        nowTick made _ _ _) _
    change lastHeard ((st.finish _ nowTick).heard (Room.movePosition other nowTick).session)
      (Room.movePosition user nowTick).seqID = _
    rw [Room.movePosition_session, Room.movePosition_seqID, hlog, lastHeard_append, hsightings]
    cases hmove : user.isMove with
    | true =>
      have hmem : (Room.movePosition user nowTick).data ∈
          (st.room.roomUser.values.filter RoomUser.isMove).map fun user =>
            (Room.movePosition user nowTick).data :=
        List.mem_map.mpr ⟨user, List.mem_filter.mpr ⟨mem_values_of_find huser, hmove⟩, rfl⟩
      have hlast := lastOf_mem hnames hmem
      rw [RoomUser.data, Room.movePosition_seqID] at hlast
      rw [hlast]
      rfl
    | false =>
      rw [lastOf_other, Room.movePosition_rest hmove]
      · have htold := h.told k user k' other huser hother hne
        rw [hmove] at htold
        exact htold.resolve_left Bool.false_ne_true
      · intro data hdata heq
        obtain ⟨mover, hmover, rfl⟩ := List.mem_map.mp hdata
        obtain ⟨hvalue, hmoves⟩ := List.mem_filter.mp hmover
        obtain ⟨socket, hsocket⟩ := OrderedMap.mem_values.mp hvalue
        rw [RoomUser.data, Room.movePosition_seqID] at heq
        have hkey := OrderedMap.key_eq_of_nodup (List.nodup_append.mp hview.ids).2.1
          hsocket huser heq
        rw [hkey, huser] at hsocket
        cases hsocket
        rw [hmove] at hmoves
        contradiction
  refine ⟨⟨fun k user hk => ?_, fun k user k' other hk hk' hne => ?_⟩, hsettled⟩
  · obtain ⟨before, hbefore, rfl⟩ := hfind hk
    exact Room.movePosition_placed (h.placed k before hbefore) hclock
  · exact .inr (hsettled k user k' other hk hk' hne)

theorem PositionInv.step (h : PositionInv st) (hview : ViewInv socketOf st)
    (hok : Orderly socketOf st act) (hstep : oneRoomStep socketOf st act = some st') :
    PositionInv st' := by
  have hids := step_ids_nodup hview.ids hstep
  cases hstep
  cases act with
  | job job made nowTick =>
    have hmade : ∀ n, made n = true := hok.made
    have hspec := dispatch_position job st.room (socketOf job.session) (st.connected job.session)
      hmade nowTick
    cases hspec with
    | same roomUser silent others =>
      exact h.fewer hok.clock (fun k user hk => roomUser ▸ hk) silent others
    | enters fresh free inserted roomUser effects others told tells =>
      exact h.enters hview hids hok.clock fresh free inserted roomUser effects others told tells
    | leaves roomUser silent others =>
      refine h.fewer hok.clock (fun k user hk => ?_) silent others
      change (st.outcome socketOf _).room.roomUser.find k = some user at hk
      rw [OneRoom.outcome, roomUser, OrderedMap.find_erase] at hk
      split at hk
      · contradiction
      · exact hk
    | @moves posX posY kind spec =>
      cases spec with
      | idle outcome =>
        rw [OneRoom.outcome, outcome]
        exact h.fewer hok.clock (fun _ _ hk => hk) (fun _ => rfl) nofun
      | @moves user x y connected reqX reqY inMap found outcome =>
        rw [OneRoom.outcome, outcome]
        apply h.moves hok.clock inMap found
        intro harrived
        apply hok.arrival
        obtain ⟨kind', session⟩ := job
        cases kind
        rw [reqX, reqY]
        exact ⟨connected, user, found, harrived⟩
  | tick nowTick made =>
    rw [OneRoom.outcome, Room.tick]
    split
    · exact (h.ticks hview nowTick hok.clock hok.made).1
    · exact h.fewer hok.clock (fun _ _ hk => hk) (fun _ => rfl) nofun
  | moveCheckUsers nowTick made =>
    exact (h.ticks hview st.room.lastTick hok.clock hok.made).1

end Step

def OneRoomAct.Ticks (st : OneRoom) : OneRoomAct → Prop
  | .tick nowTick _ => st.room.lastTick + MinMoveTick ≤ nowTick
  | .moveCheckUsers _ _ => True
  | .job _ _ _ => False

theorem positionInv_new (roomID : Int) : PositionInv (.new roomID) := by
  have hempty (k : Nat) : (OneRoom.new roomID).room.roomUser.find k = none :=
    OrderedMap.find_empty k
  constructor
  · intro k user hk
    rw [hempty] at hk
    contradiction
  · intro k user k' other hk
    rw [hempty] at hk
    contradiction

theorem positionInv_reaches {socketOf : Nat → Nat} {roomID : Int} {st : OneRoom}
    (h : Reaches (oneRoomStep socketOf) (Orderly socketOf) (.new roomID) st) : PositionInv st := by
  apply h.invariant (positionInv_new roomID)
  intro st act st' hreaches hinv hok hstep
  exact hinv.step (viewInv_reaches hreaches.any) hok hstep

/-- Immediately after every tick each member has last heard where every other member is. -/
theorem tick_settles {socketOf : Nat → Nat} {roomID : Int} {st st' : OneRoom}
    (h : Reaches (oneRoomStep socketOf) (Orderly socketOf) (.new roomID) st) {act : OneRoomAct}
    (hok : Orderly socketOf st act) (htick : act.Ticks st)
    (hstep : oneRoomStep socketOf st act = some st') : Settled st' := by
  have hinv := positionInv_reaches h
  have hview := viewInv_reaches h.any
  cases hstep
  cases act with
  | job job made nowTick => exact htick.elim
  | tick nowTick made =>
    have hdue : st.room.lastTick + MinMoveTick ≤ nowTick := htick
    rw [OneRoom.outcome, Room.tick, if_pos hdue]
    exact (hinv.ticks hview nowTick hok.clock hok.made).2
  | moveCheckUsers nowTick made =>
    exact (hinv.ticks hview st.room.lastTick hok.clock hok.made).2

/-! A walk to (1, 0), which takes 1000 ticks and is seen by a second member; the arrival
falls between two ticks. -/

def walk : List OneRoomAct :=
  [.job ⟨.enter, 0⟩ allMade 100, .job ⟨.enter, 1⟩ allMade 100,
    .job ⟨.move (.finite 1) (.finite 0), 0⟩ allMade 100, .tick 1050 allMade]

/-- The user asks once more for the place where it has just arrived. -/
def walkAgain : List OneRoomAct :=
  walk ++ [.job ⟨.move (.finite 1) (.finite 0), 0⟩ allMade 1120]

theorem walkAgain_made : ∀ act ∈ walkAgain, act.AllMade := by
  simp [walkAgain, walk, OneRoomAct.AllMade, OneRoomAct.made, allMade]

theorem walk_made : ∀ act ∈ walk, act.AllMade := fun act hact =>
  walkAgain_made act (List.mem_append_left _ hact)

/-- The clock goes on and every packet is made. -/
def InTime (st : OneRoom) (act : OneRoomAct) : Prop := st.clock ≤ act.nowTick ∧ act.AllMade

instance (socketOf : Nat → Nat) (st : OneRoom) (act : OneRoomAct) :
    Decidable (ReachesAgain socketOf st act) :=
  match act with
  | .job ⟨.move (.finite _) (.finite _), _⟩ _ _ => inferInstanceAs (Decidable (_ ∧ _))
  | .job ⟨.move (.finite _) .notFinite, _⟩ _ _ | .job ⟨.move .notFinite _, _⟩ _ _
  | .job ⟨.enter, _⟩ _ _ | .job ⟨.leave, _⟩ _ _ | .job ⟨.broadcast _, _⟩ _ _
  | .tick _ _ | .moveCheckUsers _ _ => inferInstanceAs (Decidable False)

/-- The tick at 1150 tells nobody: session 1 has last heard of (19/20, 0), and session 0
is at (1, 0). -/
theorem arrival_unannounced :
    ∃ st st', Reaches (oneRoomStep id) InTime (.new 0) st ∧
      InTime st (.tick 1150 allMade) ∧ (OneRoomAct.tick 1150 allMade).Ticks st ∧
      oneRoomStep id st (.tick 1150 allMade) = some st' ∧ ¬Settled st' := by
  have hrun : (run (guarded (oneRoomStep id) fun st act => st.clock ≤ act.nowTick) (.new 0)
      walkAgain).any (fun st => decide (st.clock ≤ 1150 ∧ st.room.lastTick + MinMoveTick ≤ 1150 ∧
        (oneRoomStep id st (.tick 1150 allMade)).any fun st' => decide
          ((st'.room.roomUser.find 0).map (fun user => (user.session, user.seqID, user.posX)) =
            some (0, 0, 1) ∧
          (st'.room.roomUser.find 1).map RoomUser.session = some 1 ∧
          lastHeard (st'.heard 1) 0 = some (19 / 20, 0)))) = true := by decide +kernel
  obtain ⟨st, hst, hends⟩ := (Option.any_eq_true _ _).mp hrun
  obtain ⟨hclock, hdue, htick⟩ := of_decide_eq_true hends
  obtain ⟨st', hst', hlast⟩ := (Option.any_eq_true _ _).mp htick
  obtain ⟨hmover, hother, hheard⟩ := of_decide_eq_true hlast
  refine ⟨st, st', reaches_of_acts (fun _ _ htime hmade => ⟨htime, hmade⟩) walkAgain
    walkAgain_made .start hst, ⟨hclock, fun _ => rfl⟩, hdue, hst', fun hsettled => ?_⟩
  obtain ⟨user, huser, hfields⟩ := Option.map_eq_some_iff.mp hmover
  obtain ⟨other, hfind, hsession⟩ := Option.map_eq_some_iff.mp hother
  simp only [Prod.mk.injEq] at hfields
  have hannounced := hsettled 0 user 1 other huser hfind (by decide)
  rw [Announced, hsession, hfields.2.1, hheard, hfields.2.2] at hannounced
  simp only [Option.some.injEq, Prod.mk.injEq] at hannounced
  norm_num at hannounced

/-- Without the second request the tick at 1150 announces the arrival. -/
theorem tick_settles_walk :
    ∃ st st', Reaches (oneRoomStep id) (Orderly id) (.new 0) st ∧
      oneRoomStep id st (.tick 1150 allMade) = some st' ∧
      (st'.room.roomUser.find 0).map (fun user => user.posX) = some 1 ∧ Settled st' := by
  have hrun : (run (guarded (oneRoomStep id) fun st act =>
      st.clock ≤ act.nowTick ∧ ¬ReachesAgain id st act) (.new 0) walk).any (fun st => decide
        (st.clock ≤ 1150 ∧ st.room.lastTick + MinMoveTick ≤ 1150 ∧
          (oneRoomStep id st (.tick 1150 allMade)).any fun st' => decide
            ((st'.room.roomUser.find 0).map (fun user => user.posX) = some 1))) = true := by
    decide +kernel
  obtain ⟨st, hst, hends⟩ := (Option.any_eq_true _ _).mp hrun
  obtain ⟨hclock, hdue, htick⟩ := of_decide_eq_true hends
  obtain ⟨st', hst', hlast⟩ := (Option.any_eq_true _ _).mp htick
  have hreaches : Reaches (oneRoomStep id) (Orderly id) (.new 0) st :=
    reaches_of_acts (fun _ _ htested hmade => ⟨htested.1, hmade, htested.2⟩) walk walk_made
      .start hst
  have horderly : Orderly id st (.tick 1150 allMade) := ⟨hclock, fun _ => rfl, nofun⟩
  exact ⟨st, st', hreaches, hst', of_decide_eq_true hlast,
    tick_settles hreaches horderly hdue hst'⟩

end RoomServer
