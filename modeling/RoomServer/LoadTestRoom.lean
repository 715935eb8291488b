import RoomServer.ClientRoom
import RoomServer.EchoLoop
import RoomServer.RoomLoad

/-! The clients of `LoadTestRoom.cpp load`: every worker first reads the acknowledgements of
its connections, and when all workers have, sends and counts BROADCASTs until the deadline.
`worker` tells which worker has a connection. -/
namespace RoomServer
open Library Library.Framing Library.LittleEndian Library.Transition

namespace LoadTestRoom

def MAX_SAMPLES : Nat := 200000
def IN_CAP : Nat := 1048576
def MAX_ROOMS : Nat := 64
def BROAD_BODY : Nat := 64
def ENTER_ACK_BODY : Nat := 8
def OUT_LIMIT : Nat := 64 * (PacketID_SIZE + BROAD_BODY)

structure Conn where
  roomId : Int
  /-- The first `inUsed` bytes of `in`. -/
  input : List Byte
  out : List Byte
  outOff : Nat
  dead : Bool

structure Result where
  sent : Nat
  recved : Nat
  skipped : Nat
  entered : Nat
  broke : Nat
  mismatch : Nat
  sentByRoom : Nat → Nat
  lat : List Int64

structure LoadTest where
  conns : Nat → Conn
  results : Nat → Result
  /-- `g_roomMembers`. -/
  roomMembers : Nat → Nat
  /-- What the calls of `NowNanos` are going to return, in turn. -/
  nowNanos : Nat → Int64
  /-- History: the connections that entered, with their rooms. -/
  acks : List (Nat × Nat)
  /-- History: the connections that a BROADCAST was appended for, with its body. -/
  asked : List (Nat × List Byte)
  /-- History: what `send` has taken of each connection. -/
  wire : Nat → List Byte
  /-- History: the connections that a BROADCAST was counted for. -/
  counted : List Nat

def Conn.new : Conn := ⟨-1, [], [], 0, false⟩

def Result.new : Result := ⟨0, 0, 0, 0, 0, 0, fun _ => 0, []⟩

def appendHeaderOnly (out : List Byte) (type : PacketType) : List Byte :=
  out ++ PacketID.bytes ⟨type, 0⟩

def broadcastBody (connId : Nat) (now : Int64) : List Byte :=
  int64Bytes now ++ intBytes connId ++ List.replicate (BROAD_BODY - 12) 0x78

def appendBroadcast (out : List Byte) (connId : Nat) (now : Int64) : List Byte :=
  out ++ packetBytes .CLIENT_BROADCAST (broadcastBody connId now)

namespace LoadTest

def start (nowNanos : Nat → Int64) : LoadTest :=
  ⟨fun _ => .new, fun _ => .new, fun _ => 0, nowNanos, [], [], fun _ => [], []⟩

def setConn (st : LoadTest) (id : Nat) (c : Conn) : LoadTest :=
  { st with conns := Function.update st.conns id c }

def setResult (st : LoadTest) (t : Nat) (result : Result) : LoadTest :=
  { st with results := Function.update st.results t result }

theorem setConn_self (st : LoadTest) (id : Nat) (c : Conn) : (st.setConn id c).conns id = c := by
  simp [setConn]

theorem setConn_other (st : LoadTest) {i id : Nat} (h : i ≠ id) (c : Conn) :
    (st.setConn id c).conns i = st.conns i := by
  simp [setConn, h]

def tick (st : LoadTest) : LoadTest := { st with nowNanos := fun i => st.nowNanos (i + 1) }

end LoadTest

section
variable (worker : Nat → Nat) (id : Nat)

def ackRoom (packet : Packet) : Option Nat :=
  if packet.type = .SERVER_ENTER ∧ packet.body.length = ENTER_ACK_BODY then
    let rid := readInt packet.body
    if 0 ≤ rid ∧ rid < MAX_ROOMS then some rid.toNat else none
  else none

def LoadTest.takePacket (st : LoadTest) (packet : Packet) : LoadTest :=
  match ackRoom packet with
  | none => st
  | some rid =>
    let result := st.results (worker id)
    { (st.setConn id { st.conns id with roomId := rid }).setResult (worker id)
        { result with entered := result.entered + 1 } with
      roomMembers := Function.update st.roomMembers rid (st.roomMembers rid + 1)
      acks := st.acks ++ [(id, rid)] }

/-- The loop while the acknowledgements are awaited, with the bytes it leaves. A round takes a
header at least, so the length is fuel enough. -/
def enterLoop : Nat → LoadTest → List Byte → LoadTest × List Byte
  | 0, st, input => (st, input)
  | fuel + 1, st, input =>
    if input.length < PacketID_SIZE then (st, input)
    else
      let h := PacketID.read input
      let total := PacketID_SIZE + h.size.toNat
      if input.length < total then (st, input)
      else
        let body := (input.drop PacketID_SIZE).take h.size.toNat
        enterLoop fuel (st.takePacket worker id ⟨h.type, body⟩) (input.drop total)

def LoadTest.fail (st : LoadTest) : LoadTest :=
  let result := st.results (worker id)
  (st.setConn id { st.conns id with dead := true }).setResult (worker id)
    { result with broke := result.broke + 1 }

def LoadTest.mismatch (st : LoadTest) : LoadTest :=
  let result := st.results (worker id)
  (st.setResult (worker id) { result with mismatch := result.mismatch + 1 }).fail worker id

/-- Nothing is measured any more when there are samples enough. -/
def LoadTest.measure (st : LoadTest) (sentAt : Int64) : LoadTest :=
  let result := st.results (worker id)
  if result.lat.length < MAX_SAMPLES then
    st.tick.setResult (worker id) { result with lat := result.lat ++ [st.nowNanos 0 - sentAt] }
  else st

def LoadTest.count (st : LoadTest) (sentAt : Int64) : LoadTest :=
  let measured := st.measure worker id sentAt
  let result := measured.results (worker id)
  { measured.setResult (worker id) { result with recved := result.recved + 1 } with
    counted := st.counted ++ [id] }

def loadLoop : Nat → LoadTest → List Byte → LoadTest × List Byte
  | 0, st, input => (st, input)
  | fuel + 1, st, input =>
    if input.length < PacketID_SIZE then (st, input)
    else
      let h := PacketID.read input
      if h.type ≠ .SERVER_BROADCAST ∨ h.size ≠ UInt16.ofNat BROAD_BODY then
        (st.mismatch worker id, input)
      else
        let total := PacketID_SIZE + h.size.toNat
        if input.length < total then (st, input)
        else loadLoop fuel (st.count worker id (readInt64 (input.drop PacketID_SIZE)))
          (input.drop total)

/-- A connection's turn to send has come; what is outstanding bounds what is appended. -/
def LoadTest.pace (st : LoadTest) : LoadTest :=
  let c := st.conns id
  let result := st.results (worker id)
  if c.out.length - c.outOff < OUT_LIMIT then
    let sentByRoom := Function.update result.sentByRoom c.roomId.toNat
      (result.sentByRoom c.roomId.toNat + 1)
    { (st.tick.setConn id { c with out := appendBroadcast c.out id (st.nowNanos 0) }).setResult
        (worker id) { result with sent := result.sent + 1, sentByRoom := sentByRoom } with
      asked := st.asked ++ [(id, broadcastBody id (st.nowNanos 0))] }
  else st.setResult (worker id) { result with skipped := result.skipped + 1 }

def LoadTest.send (st : LoadTest) : SocketResult → LoadTest
  | .wouldBlock => st
  | .error | .bytes 0 => st.fail worker id
  | .bytes n =>
    let c := st.conns id
    let sent :=
      if c.outOff + n = c.out.length then st.setConn id { c with out := [], outOff := 0 }
      else st.setConn id { c with outOff := c.outOff + n }
    { sent with
      wire := Function.update st.wire id (st.wire id ++ (c.out.drop c.outOff).take n) }

end

inductive LoadTestAct where
  /-- `recv` gives bytes while the acknowledgements are awaited. -/
  | enter (id : Nat) (bytes : List Byte)
  | pace (id : Nat)
  | send (id : Nat) (result : SocketResult)
  /-- `recv` gives bytes under load. -/
  | recv (id : Nat) (bytes : List Byte)
  /-- The other end has closed, or something has failed. -/
  | hangUp (id : Nat)

def Conn.Takes (c : Conn) (bytes : List Byte) : Prop :=
  c.dead = false ∧ bytes ≠ [] ∧ bytes.length ≤ IN_CAP - c.input.length

instance (c : Conn) (bytes : List Byte) : Decidable (c.Takes bytes) :=
  inferInstanceAs (Decidable (_ ∧ _))

def loadTestStep (worker : Nat → Nat) : Step LoadTest LoadTestAct
  | st, .enter id bytes =>
    let c := st.conns id
    if c.Takes bytes ∧ c.roomId < 0 then
      let input := c.input ++ bytes
      let parsed := enterLoop worker id input.length st input
      some (parsed.1.setConn id { parsed.1.conns id with input := parsed.2 })
    else none
  | st, .pace id =>
    if (st.conns id).dead = false ∧ 0 ≤ (st.conns id).roomId then some (st.pace worker id) else none
  | st, .send id result =>
    let c := st.conns id
    if c.dead = false ∧ c.outOff < c.out.length ∧ result.count ≤ c.out.length - c.outOff then
      some (st.send worker id result)
    else none
  | st, .recv id bytes =>
    let c := st.conns id
    if c.Takes bytes then
      let input := c.input ++ bytes
      let parsed := loadLoop worker id input.length st input
      some (parsed.1.setConn id { parsed.1.conns id with input := parsed.2 })
    else none
  | st, .hangUp id => if (st.conns id).dead then none else some (st.fail worker id)

/-! ### Reading the acknowledgements -/

section Enter
variable {worker : Nat → Nat} {id : Nat} {st : LoadTest}

theorem enterLoop_eq (fuel : Nat) (st : LoadTest) (input : List Byte)
    (hfuel : input.length ≤ fuel) :
    enterLoop worker id fuel st input =
      ((packets input).foldl (fun st packet => st.takePacket worker id packet) st,
        packetFormat.rest input) := by
  induction fuel generalizing st input with
  | zero =>
    obtain rfl := List.length_eq_zero_iff.mp (Nat.le_zero.mp hfuel)
    rfl
  | succ fuel ih =>
    by_cases hincomplete : packetFormat.Incomplete input
    · rw [packets, packetFormat.frames_incomplete hincomplete,
        packetFormat.rest_incomplete hincomplete, enterLoop]
      rw [format_incomplete] at hincomplete
      by_cases hheader : input.length < PacketID_SIZE
      · rw [if_pos hheader]
        rfl
      · rw [if_neg hheader]
        exact if_pos (by omega)
    · have hpos := packetFormat.frameLength_pos input
      have hle := packetFormat.frameLength_le hincomplete
      rw [packets, packetFormat.frames_complete hincomplete,
        packetFormat.rest_complete hincomplete, List.map_cons, List.foldl_cons]
      rw [format_incomplete] at hincomplete
      have hread : PacketID.read (input.take PacketID_SIZE) = PacketID.read input :=
        PacketID.read_take (by omega)
      have htotal : packetFormat.frameLength input =
          PacketID_SIZE + (PacketID.read input).size.toNat := by
        rw [← hread]
        rfl
      have hfirst : packetOf (packetFormat.first input) = ⟨(PacketID.read input).type,
          (input.drop PacketID_SIZE).take (PacketID.read input).size.toNat⟩ := by
        rw [← hread]
        rfl
      have hnext := ih (st.takePacket worker id (packetOf (packetFormat.first input)))
        (input.drop (packetFormat.frameLength input)) (by rw [List.length_drop]; omega)
      rw [enterLoop, if_neg (by omega)]
      rw [hfirst, htotal] at hnext ⊢
      rw [if_neg (by omega)]
      exact hnext

def ackRooms (stream : List Byte) : List Nat := (packets stream).filterMap ackRoom

def lastRoom (before : Int) (rooms : List Nat) : Int := rooms.getLast?.elim before fun rid => rid

theorem takePackets_eq (st : LoadTest) (ps : List Packet) :
    ps.foldl (fun st packet => st.takePacket worker id packet) st =
      { st with
        conns := Function.update st.conns id
          { st.conns id with roomId := lastRoom (st.conns id).roomId (ps.filterMap ackRoom) }
        results := Function.update st.results (worker id) { st.results (worker id) with
          entered := (st.results (worker id)).entered + (ps.filterMap ackRoom).length }
        roomMembers := fun r => st.roomMembers r + (ps.filterMap ackRoom).count r
        acks := st.acks ++ (ps.filterMap ackRoom).map fun rid => (id, rid) } := by
  induction ps generalizing st with
  | nil => simp [lastRoom]
  | cons packet ps ih =>
    rw [List.foldl_cons, ih, List.filterMap_cons]
    cases hroom : ackRoom packet with
    | none => simp [LoadTest.takePacket, hroom]
    | some rid =>
      have hmembers : (fun r => Function.update st.roomMembers rid (st.roomMembers rid + 1) r +
          (ps.filterMap ackRoom).count r) =
          fun r => st.roomMembers r + (rid :: ps.filterMap ackRoom).count r := by
        funext r
        by_cases hr : r = rid
        · subst hr
          rw [Function.update_self, List.count_cons_self]
          omega
        · rw [Function.update_of_ne hr, List.count_cons_of_ne (Ne.symm hr)]
      have hlast : lastRoom (rid : Int) (ps.filterMap ackRoom) =
          lastRoom (st.conns id).roomId (rid :: ps.filterMap ackRoom) := by
        rw [lastRoom, lastRoom, List.getLast?_cons]
        cases (ps.filterMap ackRoom).getLast? <;> rfl
      simp only [LoadTest.takePacket, hroom, LoadTest.setResult, LoadTest.setConn,
        Function.update_self, Function.update_idem, hmembers, hlast, List.map_cons,
        List.append_assoc, List.singleton_append, List.length_cons]
      congr 3
      omega

theorem ackRooms_append (stream more : List Byte) :
    ackRooms (stream ++ more) = ackRooms stream ++ ackRooms (packetFormat.rest stream ++ more) := by
  rw [ackRooms, packets_append, List.filterMap_append]
  rfl

theorem lastRoom_append (before : Int) (first second : List Nat) :
    lastRoom (lastRoom before first) second = lastRoom before (first ++ second) := by
  rw [lastRoom, lastRoom, lastRoom, List.getLast?_append]
  cases second.getLast? <;> rfl

def received (id : Nat) (acts : List LoadTestAct) : List Byte :=
  acts.flatMap fun
    | .enter id' bytes | .recv id' bytes => if id' = id then bytes else []
    | _ => []

/-- What the workers know of their connections, while they await acknowledgements. -/
structure Entering (worker : Nat → Nat) (stream : Nat → List Byte) (st : LoadTest) : Prop where
  conns : ∀ id, st.conns id = { Conn.new with
    roomId := lastRoom (-1) (ackRooms (stream id)), input := packetFormat.rest (stream id) }
  acks : ∀ id, (st.acks.filter fun ack => ack.1 = id).map Prod.snd = ackRooms (stream id)
  members : ∀ r, st.roomMembers r = (st.acks.map Prod.snd).count r
  results : ∀ t, st.results t =
    { Result.new with entered := st.acks.countP fun ack => worker ack.1 = t }
  asked : st.asked = []
  wire : ∀ id, st.wire id = []
  counted : st.counted = []

theorem entering_start (worker : Nat → Nat) (nowNanos : Nat → Int64) :
    Entering worker (fun _ => []) (.start nowNanos) :=
  ⟨fun _ => rfl, fun _ => rfl, fun _ => rfl, fun _ => rfl, rfl, fun _ => rfl, rfl⟩

theorem Entering.enter {stream : Nat → List Byte} {st' : LoadTest} {bytes : List Byte}
    (h : Entering worker stream st)
    (hstep : loadTestStep worker st (.enter id bytes) = some st') :
    Entering worker (fun i => stream i ++ received i [.enter id bytes]) st' := by
  obtain ⟨-, hnext⟩ := Option.ite_none_right_eq_some.mp hstep
  rw [enterLoop_eq _ _ _ (Nat.le_refl _), takePackets_eq] at hnext
  have hinput : (st.conns id).input = packetFormat.rest (stream id) := by rw [h.conns id]
  have hown : received id [.enter id bytes] = bytes := by simp [received]
  have hother {i : Nat} (hi : i ≠ id) : received i [.enter id bytes] = [] := by
    simp [received, Ne.symm hi]
  have hmore := ackRooms_append (stream id) bytes
  rw [hinput] at hnext
  change some _ = some st' at hnext
  obtain rfl := Option.some.inj hnext
  refine ⟨fun i => ?_, fun i => ?_, fun r => ?_, fun t => ?_, h.asked, h.wire, h.counted⟩
  · by_cases hi : i = id
    · subst hi
      rw [hown, hmore, packetFormat.rest_append (stream i), ← lastRoom_append]
      simp only [LoadTest.setConn, Function.update_self, h.conns i]
      rfl
    · rw [hother hi, List.append_nil]
      simp only [LoadTest.setConn, Function.update_of_ne hi, h.conns i]
  · change ((st.acks ++ _).filter _).map Prod.snd = _
    rw [List.filter_append, List.map_append, h.acks i]
    by_cases hi : i = id
    · subst hi
      rw [hown, hmore, List.filter_map]
      simp [Function.comp_def, ackRooms]
    · rw [hother hi, List.append_nil, List.filter_map]
      simp [Function.comp_def, Ne.symm hi]
  · change st.roomMembers r + _ = ((st.acks ++ _).map Prod.snd).count r
    rw [h.members, List.map_append, List.count_append, List.map_map]
    simp [Function.comp_def]
  · change Function.update st.results (worker id) _ t = _
    by_cases ht : t = worker id
    · subst ht
      rw [Function.update_self, h.results, LoadTest.setConn, List.countP_append, List.countP_map]
      simp [Function.comp_def]
    · rw [Function.update_of_ne ht, h.results, LoadTest.setConn, List.countP_append,
        List.countP_map]
      simp [Function.comp_def, Ne.symm ht]

def LoadTestAct.Awaits : LoadTestAct → Prop
  | .enter _ _ => True
  | .pace _ | .send _ _ | .recv _ _ | .hangUp _ => False

theorem Entering.steps {stream : Nat → List Byte} {st' : LoadTest} {acts : List LoadTestAct}
    (h : Entering worker stream st) (hawaits : ∀ act ∈ acts, act.Awaits)
    (hrun : run (loadTestStep worker) st acts = some st') :
    Entering worker (fun i => stream i ++ received i acts) st' := by
  induction acts generalizing st stream with
  | nil =>
    cases hrun
    simpa only [received, List.flatMap_nil, List.append_nil] using h
  | cons act acts ih =>
    rw [List.forall_mem_cons] at hawaits
    obtain ⟨middle, hmiddle, hrest⟩ := Option.bind_eq_some_iff.mp hrun
    cases act with
    | enter id bytes =>
      have hend := ih (h.enter hmiddle) hawaits.2 hrest
      simpa only [received, List.flatMap_cons, List.flatMap_nil, List.append_nil,
        List.append_assoc] using hend
    | pace id => exact hawaits.1.elim
    | send id result => exact hawaits.1.elim
    | recv id bytes => exact hawaits.1.elim
    | hangUp id => exact hawaits.1.elim

end Enter

/-! ### Under load -/

def chats (texts : List (List Byte)) : List Byte :=
  texts.flatMap fun text => packetBytes .SERVER_BROADCAST text

def requests (bodies : List (List Byte)) : List Byte :=
  bodies.flatMap fun body => packetBytes .CLIENT_BROADCAST body

theorem length_broadcastBody (connId : Nat) (now : Int64) :
    (broadcastBody connId now).length = BROAD_BODY := by
  rw [broadcastBody, int64Bytes, List.length_append, List.length_append, length_toBytes,
    length_intBytes, List.length_replicate]
  rfl

theorem chats_append (first second : List (List Byte)) :
    chats (first ++ second) = chats first ++ chats second := List.flatMap_append

theorem length_chats {texts : List (List Byte)} (h : ∀ text ∈ texts, text.length = 64) :
    (chats texts).length = 68 * texts.length := by
  induction texts with
  | nil => rfl
  | cons text texts ih =>
    rw [List.forall_mem_cons] at h
    have hcons : chats (text :: texts) = packetBytes .SERVER_BROADCAST text ++ chats texts := rfl
    rw [hcons, List.length_append, length_packetBytes, h.1, ih h.2, List.length_cons,
      PacketID_SIZE]
    omega

/-- What the loops under load leave of a connection's past. -/
structure Counting (worker : Nat → Nat) (texts : Nat → List (List Byte)) (stream : Nat → List Byte)
    (st : LoadTest) : Prop where
  alive : ∀ id, (st.conns id).dead = false
  due : ∀ id, st.counted.count id ≤ (texts id).length
  order : ∀ id, stream id = chats ((texts id).take (st.counted.count id)) ++ (st.conns id).input
  short : ∀ id, (st.conns id).input.length < PacketID_SIZE + BROAD_BODY
  recved : ∀ t, (st.results t).recved = st.counted.countP fun id => worker id = t
  broke : ∀ t, (st.results t).broke = 0
  mismatch : ∀ t, (st.results t).mismatch = 0

structure Asking (worker : Nat → Nat) (base st : LoadTest) : Prop where
  rooms : ∀ id, (st.conns id).roomId = (base.conns id).roomId
  members : st.roomMembers = base.roomMembers
  asked : ∀ ask ∈ st.asked, 0 ≤ (base.conns ask.1).roomId ∧ ask.2.length = BROAD_BODY
  sent : ∀ t, (st.results t).sent = st.asked.countP fun ask => worker ask.1 = t
  sentByRoom : ∀ t r, (st.results t).sentByRoom r =
    st.asked.countP fun ask => worker ask.1 = t ∧ (base.conns ask.1).roomId.toNat = r
  offset : ∀ id, (st.conns id).outOff ≤ (st.conns id).out.length
  written : ∀ id, st.wire id ++ (st.conns id).out.drop (st.conns id).outOff =
    requests ((st.asked.filter fun ask => ask.1 = id).map Prod.snd)

section Load
variable {worker : Nat → Nat} {id : Nat} {st : LoadTest}

theorem count_eq (worker : Nat → Nat) (id : Nat) (st : LoadTest) (sentAt : Int64) :
    ∃ lat nowNanos, st.count worker id sentAt = { st with
      results := Function.update st.results (worker id) { st.results (worker id) with
        recved := (st.results (worker id)).recved + 1, lat := lat }
      nowNanos := nowNanos, counted := st.counted ++ [id] } := by
  unfold LoadTest.count LoadTest.measure
  dsimp only
  split
  · refine ⟨(st.results (worker id)).lat ++ [st.nowNanos 0 - sentAt],
      fun i => st.nowNanos (i + 1), ?_⟩
    simp [LoadTest.setResult, LoadTest.tick]
  · exact ⟨(st.results (worker id)).lat, st.nowNanos, rfl⟩

/-- The loop counts the packets that have arrived whole. -/
structure Counts (worker : Nat → Nat) (id k : Nat) (st st' : LoadTest) : Prop where
  conns : st'.conns = st.conns
  roomMembers : st'.roomMembers = st.roomMembers
  acks : st'.acks = st.acks
  asked : st'.asked = st.asked
  wire : st'.wire = st.wire
  counted : st'.counted = st.counted ++ List.replicate k id
  results : ∀ t, ∃ lat, st'.results t = { st.results t with
    recved := (st.results t).recved + if worker id = t then k else 0, lat := lat }

theorem counts_none (worker : Nat → Nat) (id : Nat) (st : LoadTest) : Counts worker id 0 st st where
  conns := rfl
  roomMembers := rfl
  acks := rfl
  asked := rfl
  wire := rfl
  counted := (List.append_nil _).symm
  results t := ⟨(st.results t).lat, by rw [ite_self, Nat.add_zero]⟩

theorem Counts.after {k : Nat} {sentAt : Int64} {st' : LoadTest}
    (h : Counts worker id k (st.count worker id sentAt) st') : Counts worker id (k + 1) st st' := by
  obtain ⟨lat, nowNanos, hcount⟩ := count_eq worker id st sentAt
  rw [hcount] at h
  refine ⟨h.conns, h.roomMembers, h.acks, h.asked, h.wire, ?_, fun t => ?_⟩
  · rw [h.counted, List.replicate_succ, List.append_assoc, List.singleton_append]
  · obtain ⟨lat', ht⟩ := h.results t
    refine ⟨lat', ?_⟩
    rw [ht]
    by_cases hworker : worker id = t
    · subst hworker
      simp only [Function.update_self, if_true]
      congr 1
      omega
    · simp only [Function.update_of_ne (Ne.symm hworker), if_neg hworker]

theorem loadLoop_counts (fuel : Nat) (st : LoadTest) {input : List Byte} {texts : List (List Byte)}
    (hfuel : input.length ≤ fuel) (htexts : ∀ text ∈ texts, text.length = 64)
    (hinitial : input <+: chats texts) :
    ∃ k st' rest, loadLoop worker id fuel st input = (st', rest) ∧ Counts worker id k st st' ∧
      k ≤ texts.length ∧ input = chats (texts.take k) ++ rest ∧ rest.length < 68 := by
  induction fuel generalizing st input texts with
  | zero =>
    obtain rfl := List.length_eq_zero_iff.mp (Nat.le_zero.mp hfuel)
    exact ⟨0, st, [], rfl, counts_none worker id st, Nat.zero_le _, rfl, by decide⟩
  | succ fuel ih =>
    have hstop (hshort : input.length < 68)
        (hdone : loadLoop worker id (fuel + 1) st input = (st, input)) :
        ∃ k st' rest, loadLoop worker id (fuel + 1) st input = (st', rest) ∧
          Counts worker id k st st' ∧ k ≤ texts.length ∧ input = chats (texts.take k) ++ rest ∧
          rest.length < 68 :=
      ⟨0, st, input, hdone, counts_none worker id st, Nat.zero_le _, rfl, hshort⟩
    by_cases hheader : input.length < PacketID_SIZE
    · exact hstop (by rw [PacketID_SIZE] at hheader; omega) (by rw [loadLoop, if_pos hheader])
    cases texts with
    | nil =>
      obtain rfl := List.prefix_nil.mp hinitial
      exact absurd (Nat.succ_pos 3) hheader
    | cons text texts =>
      rw [List.forall_mem_cons] at htexts
      have hcons : chats (text :: texts) = packetBytes .SERVER_BROADCAST text ++ chats texts := rfl
      rw [hcons] at hinitial
      have hread : PacketID.read input = ⟨.SERVER_BROADCAST, UInt16.ofNat BROAD_BODY⟩ := by
        rw [header_arrived hinitial (Nat.le_of_not_lt hheader), htexts.1]
        rfl
      have hsize : (UInt16.ofNat BROAD_BODY).toNat = 64 := rfl
      have hround : loadLoop worker id (fuel + 1) st input = if input.length < 68 then (st, input)
          else loadLoop worker id fuel (st.count worker id (readInt64 (input.drop PacketID_SIZE)))
            (input.drop 68) := by
        rw [loadLoop, if_neg hheader]
        simp only [hread, hsize, PacketID_SIZE, ne_eq, not_true_eq_false, or_self, ↓reduceIte]
      by_cases hpacket : input.length < 68
      · exact hstop hpacket (by rw [hround, if_pos hpacket])
      have hfront : input = packetBytes .SERVER_BROADCAST text ++ input.drop 68 := by
        have hwhole := packet_arrived hinitial
          (by rw [htexts.1, PacketID_SIZE]; exact Nat.le_of_not_lt hpacket)
        rw [htexts.1] at hwhole
        exact hwhole
      have hrest : input.drop 68 <+: chats texts := by
        rw [hfront, List.prefix_append_right_inj] at hinitial
        exact hinitial
      obtain ⟨k, st', rest, hloop, hcounts, hle, heq, hshort⟩ :=
        ih (st.count worker id (readInt64 (input.drop PacketID_SIZE)))
          (by rw [List.length_drop]; omega) htexts.2 hrest
      refine ⟨k + 1, st', rest, ?_, hcounts.after, Nat.succ_le_succ hle, ?_, hshort⟩
      · rw [hround, if_neg hpacket, hloop]
      · have htake : chats ((text :: texts).take (k + 1)) =
            packetBytes .SERVER_BROADCAST text ++ chats (texts.take k) := rfl
        rw [htake, List.append_assoc, ← heq]
        exact hfront

/-- No connection breaks, and the acknowledgements have been read. -/
def LoadTestAct.Faultless : LoadTestAct → Prop
  | .pace _ | .recv _ _ => True
  | .send _ result => result ≠ .error ∧ result ≠ .bytes 0
  | .enter _ _ | .hangUp _ => False

variable {base st' : LoadTest} {texts : Nat → List (List Byte)} {stream : Nat → List Byte}

theorem Counting.recv {bytes : List Byte} (h : Counting worker texts stream st)
    (htexts : ∀ text ∈ texts id, text.length = 64)
    (hinitial : stream id ++ bytes <+: chats (texts id))
    (hstep : loadTestStep worker st (.recv id bytes) = some st') :
    Counting worker texts (fun i => stream i ++ received i [.recv id bytes]) st' := by
  obtain ⟨-, hnext⟩ := Option.ite_none_right_eq_some.mp hstep
  have hdue : (st.conns id).input ++ bytes <+:
      chats ((texts id).drop (st.counted.count id)) := by
    have hsplit := congrArg chats (List.take_append_drop (st.counted.count id) (texts id))
    rw [chats_append] at hsplit
    rwa [h.order id, List.append_assoc, ← hsplit, List.prefix_append_right_inj] at hinitial
  obtain ⟨k, counted, rest, hloop, hcounts, hle, heq, hshort⟩ :=
    @loadLoop_counts worker id _ st _ _ (Nat.le_refl _)
      (fun text htext => htexts text (List.mem_of_mem_drop htext)) hdue
  rw [hloop] at hnext
  change some _ = some st' at hnext
  obtain rfl := Option.some.inj hnext
  have hresults (t : Nat) : (counted.setConn id { counted.conns id with input := rest }).results t =
      counted.results t := rfl
  have hmore : counted.counted.count id = st.counted.count id + k := by
    rw [hcounts.counted, List.count_append, List.count_replicate_self]
  have hsame {i : Nat} (hi : i ≠ id) : counted.counted.count i = st.counted.count i := by
    rw [hcounts.counted, List.count_append, List.count_replicate]
    simp [Ne.symm hi]
  refine ⟨fun i => ?_, fun i => ?_, fun i => ?_, fun i => ?_, fun t => ?_, fun t => ?_, fun t => ?_⟩
  · by_cases hi : i = id
    · subst hi
      rw [LoadTest.setConn_self, hcounts.conns]
      exact h.alive i
    · rw [LoadTest.setConn_other _ hi, hcounts.conns]
      exact h.alive i
  · change counted.counted.count i ≤ _
    by_cases hi : i = id
    · subst hi
      rw [List.length_drop] at hle
      have hbefore := h.due i
      omega
    · rw [hsame hi]
      exact h.due i
  · change _ = chats ((texts i).take (counted.counted.count i)) ++ _
    by_cases hi : i = id
    · subst hi
      have hown : received i [.recv i bytes] = bytes := by simp [received]
      rw [hown, hmore, List.take_add, chats_append, h.order i, List.append_assoc, heq,
        LoadTest.setConn_self, List.append_assoc]
    · have hother : received i [.recv id bytes] = [] := by simp [received, Ne.symm hi]
      rw [hother, List.append_nil, hsame hi, h.order i, LoadTest.setConn_other _ hi,
        hcounts.conns]
  · by_cases hi : i = id
    · subst hi
      rw [LoadTest.setConn_self]
      exact hshort
    · rw [LoadTest.setConn_other _ hi, hcounts.conns]
      exact h.short i
  · obtain ⟨lat, ht⟩ := hcounts.results t
    change _ = counted.counted.countP _
    rw [hresults, ht, hcounts.counted, List.countP_append, List.countP_replicate, h.recved]
    simp
  · obtain ⟨lat, ht⟩ := hcounts.results t
    rw [hresults, ht]
    exact h.broke t
  · obtain ⟨lat, ht⟩ := hcounts.results t
    rw [hresults, ht]
    exact h.mismatch t

theorem Counting.apart (h : Counting worker texts stream st)
    (hconns : ∀ i, (st'.conns i).dead = (st.conns i).dead ∧ (st'.conns i).input = (st.conns i).input)
    (hresults : ∀ t, (st'.results t).recved = (st.results t).recved ∧
      (st'.results t).broke = (st.results t).broke ∧
      (st'.results t).mismatch = (st.results t).mismatch)
    (hcounted : st'.counted = st.counted) : Counting worker texts stream st' where
  alive i := (hconns i).1.trans (h.alive i)
  due i := by rw [hcounted]; exact h.due i
  order i := by rw [hcounted, (hconns i).2, h.order i]
  short i := by rw [(hconns i).2]; exact h.short i
  recved t := by rw [hcounted, (hresults t).1, h.recved t]
  broke t := (hresults t).2.1.trans (h.broke t)
  mismatch t := (hresults t).2.2.trans (h.mismatch t)

theorem requests_append (first second : List (List Byte)) :
    requests (first ++ second) = requests first ++ requests second := List.flatMap_append

theorem pace_conns (worker : Nat → Nat) (id : Nat) (st : LoadTest) (i : Nat) :
    ((st.pace worker id).conns i).dead = (st.conns i).dead ∧
      ((st.pace worker id).conns i).input = (st.conns i).input ∧
      ((st.pace worker id).conns i).roomId = (st.conns i).roomId := by
  unfold LoadTest.pace
  dsimp only
  split
  · by_cases hi : i = id
    · subst hi
      simp [LoadTest.setResult, LoadTest.setConn, LoadTest.tick]
    · simp [LoadTest.setResult, LoadTest.setConn, LoadTest.tick, hi]
  · exact ⟨rfl, rfl, rfl⟩

theorem pace_results (worker : Nat → Nat) (id : Nat) (st : LoadTest) (t : Nat) :
    ((st.pace worker id).results t).recved = (st.results t).recved ∧
      ((st.pace worker id).results t).broke = (st.results t).broke ∧
      ((st.pace worker id).results t).mismatch = (st.results t).mismatch := by
  unfold LoadTest.pace
  dsimp only
  split <;> by_cases ht : t = worker id
  · subst ht
    simp [LoadTest.setResult]
  · simp [LoadTest.setResult, LoadTest.setConn, LoadTest.tick, ht]
  · subst ht
    simp [LoadTest.setResult]
  · simp [LoadTest.setResult, ht]

theorem pace_counted (worker : Nat → Nat) (id : Nat) (st : LoadTest) :
    (st.pace worker id).counted = st.counted := by
  unfold LoadTest.pace
  dsimp only
  split <;> rfl

theorem Asking.pace (h : Asking worker base st) (hroom : 0 ≤ (st.conns id).roomId) :
    Asking worker base (st.pace worker id) := by
  have hrooms (i : Nat) : ((st.pace worker id).conns i).roomId = (base.conns i).roomId :=
    (pace_conns worker id st i).2.2.trans (h.rooms i)
  rw [h.rooms] at hroom
  unfold LoadTest.pace at hrooms ⊢
  dsimp only at hrooms ⊢
  split at hrooms
  case isFalse hfull =>
    rw [if_neg hfull]
    refine ⟨hrooms, h.members, h.asked, fun t => ?_, fun t r => ?_, h.offset, h.written⟩
    · by_cases ht : t = worker id
      · subst ht
        simpa [LoadTest.setResult] using h.sent (worker id)
      · simpa [LoadTest.setResult, ht] using h.sent t
    · by_cases ht : t = worker id
      · subst ht
        simpa [LoadTest.setResult] using h.sentByRoom (worker id) r
      · simpa [LoadTest.setResult, ht] using h.sentByRoom t r
  case isTrue hfits =>
    rw [if_pos hfits]
    refine ⟨hrooms, h.members, ?_, fun t => ?_, fun t r => ?_, fun i => ?_, fun i => ?_⟩
    · exact List.forall_mem_append.mpr ⟨h.asked,
        List.forall_mem_singleton.mpr ⟨hroom, length_broadcastBody id (st.nowNanos 0)⟩⟩
    · change _ = (st.asked ++ _).countP _
      rw [List.countP_append, ← h.sent t]
      by_cases ht : t = worker id
      · subst ht
        simp [LoadTest.setResult]
      · simp [LoadTest.setResult, LoadTest.setConn, LoadTest.tick, ht, Ne.symm ht]
    · change _ = (st.asked ++ _).countP _
      rw [List.countP_append, ← h.sentByRoom t r]
      by_cases ht : t = worker id
      · subst ht
        by_cases hr : r = (st.conns id).roomId.toNat
        · subst hr
          simp [LoadTest.setResult, h.rooms]
        · rw [h.rooms] at hr
          simp [LoadTest.setResult, h.rooms, hr, Ne.symm hr]
      · simp [LoadTest.setResult, LoadTest.setConn, LoadTest.tick, ht, Ne.symm ht]
    · by_cases hi : i = id
      · subst hi
        have hoffset := h.offset i
        simp only [LoadTest.setResult, LoadTest.setConn_self, appendBroadcast, List.length_append]
        omega
      · simpa only [LoadTest.setResult, LoadTest.setConn_other _ hi, LoadTest.tick] using h.offset i
    · change st.wire i ++ _ = requests (((st.asked ++ _).filter _).map Prod.snd)
      rw [List.filter_append, List.map_append, requests_append, ← h.written i]
      by_cases hi : i = id
      · subst hi
        simp only [LoadTest.setResult, LoadTest.setConn_self, appendBroadcast,
          List.drop_append_of_le_length (h.offset i), List.append_assoc]
        simp [requests]
      · simp [LoadTest.setResult, LoadTest.setConn_other _ hi, LoadTest.tick, Ne.symm hi, requests]

theorem send_cases {result : SocketResult} (hresult : result ≠ .error ∧ result ≠ .bytes 0)
    (hstep : loadTestStep worker st (.send id result) = some st') :
    st' = st ∨ ∃ n c, n ≤ (st.conns id).out.length - (st.conns id).outOff ∧
      c = { st.conns id with out := c.out, outOff := c.outOff } ∧ c.outOff ≤ c.out.length ∧
      c.out.drop c.outOff = (st.conns id).out.drop ((st.conns id).outOff + n) ∧
      st' = { st.setConn id c with
        wire := Function.update st.wire id
          (st.wire id ++ ((st.conns id).out.drop (st.conns id).outOff).take n) } := by
  obtain ⟨⟨-, hoff, hcount⟩, hnext⟩ := Option.ite_none_right_eq_some.mp hstep
  cases result with
  | error => exact absurd rfl hresult.1
  | wouldBlock => exact .inl (Option.some.inj hnext).symm
  | bytes n =>
    cases n with
    | zero => exact absurd rfl hresult.2
    | succ n =>
      change n + 1 ≤ _ at hcount
      right
      refine ⟨n + 1, if (st.conns id).outOff + (n + 1) = (st.conns id).out.length then
        { st.conns id with out := [], outOff := 0 }
        else { st.conns id with outOff := (st.conns id).outOff + (n + 1) }, hcount, ?_, ?_, ?_, ?_⟩
      · split <;> rfl
      · split
        · exact Nat.zero_le _
        · change (st.conns id).outOff + (n + 1) ≤ (st.conns id).out.length
          omega
      · split
        case isTrue hwhole =>
          rw [hwhole, List.drop_length]
          rfl
        case isFalse => rfl
      · rw [← Option.some.inj hnext, LoadTest.send]
        · dsimp only
          split <;> rfl
        · exact Nat.succ_ne_zero n

theorem Asking.send {result : SocketResult} (h : Asking worker base st)
    (hresult : result ≠ .error ∧ result ≠ .bytes 0)
    (hstep : loadTestStep worker st (.send id result) = some st') : Asking worker base st' := by
  rcases send_cases hresult hstep with rfl | ⟨n, c, hle, hc, hoffset, hdrop, rfl⟩
  · exact h
  · refine ⟨fun i => ?_, h.members, h.asked, h.sent, h.sentByRoom, fun i => ?_, fun i => ?_⟩
    · by_cases hi : i = id
      · subst hi
        rw [LoadTest.setConn_self, hc]
        exact h.rooms i
      · rw [LoadTest.setConn_other _ hi]
        exact h.rooms i
    · by_cases hi : i = id
      · subst hi
        rw [LoadTest.setConn_self]
        exact hoffset
      · rw [LoadTest.setConn_other _ hi]
        exact h.offset i
    · change Function.update st.wire id _ i ++
        ((st.setConn id c).conns i).out.drop ((st.setConn id c).conns i).outOff = _
      by_cases hi : i = id
      · subst hi
        rw [LoadTest.setConn_self, Function.update_self, hdrop, List.append_assoc,
          ← List.drop_drop, List.take_append_drop]
        exact h.written i
      · rw [LoadTest.setConn_other _ hi, Function.update_of_ne hi]
        exact h.written i

theorem send_conns {result : SocketResult} (hresult : result ≠ .error ∧ result ≠ .bytes 0)
    (hstep : loadTestStep worker st (.send id result) = some st') :
    (∀ i, (st'.conns i).dead = (st.conns i).dead ∧ (st'.conns i).input = (st.conns i).input) ∧
      st'.results = st.results ∧ st'.counted = st.counted := by
  rcases send_cases hresult hstep with rfl | ⟨n, c, hle, hc, hoffset, hdrop, rfl⟩
  · exact ⟨fun _ => ⟨rfl, rfl⟩, rfl, rfl⟩
  · refine ⟨fun i => ?_, rfl, rfl⟩
    by_cases hi : i = id
    · subst hi
      rw [LoadTest.setConn_self, hc]
      exact ⟨rfl, rfl⟩
    · rw [LoadTest.setConn_other _ hi]
      exact ⟨rfl, rfl⟩

/-- Nothing is sent, and nobody changes rooms. -/
structure Kept (st st' : LoadTest) : Prop where
  conns : ∀ i, ∃ input dead, st'.conns i = { st.conns i with input := input, dead := dead }
  members : st'.roomMembers = st.roomMembers
  asked : st'.asked = st.asked
  wire : st'.wire = st.wire
  results : ∀ t, (st'.results t).sent = (st.results t).sent ∧
    (st'.results t).sentByRoom = (st.results t).sentByRoom

theorem Kept.refl (st : LoadTest) : Kept st st :=
  ⟨fun i => ⟨(st.conns i).input, (st.conns i).dead, rfl⟩, rfl, rfl, rfl, fun _ => ⟨rfl, rfl⟩⟩

theorem Kept.trans {first second third : LoadTest} (h : Kept first second)
    (h' : Kept second third) : Kept first third where
  conns i := by
    obtain ⟨input, dead, hconn⟩ := h.conns i
    obtain ⟨input', dead', hconn'⟩ := h'.conns i
    exact ⟨input', dead', by rw [hconn', hconn]⟩
  members := h'.members.trans h.members
  asked := h'.asked.trans h.asked
  wire := h'.wire.trans h.wire
  results t := ⟨(h'.results t).1.trans (h.results t).1, (h'.results t).2.trans (h.results t).2⟩

theorem count_kept (worker : Nat → Nat) (id : Nat) (st : LoadTest) (sentAt : Int64) :
    Kept st (st.count worker id sentAt) := by
  obtain ⟨lat, nowNanos, hcount⟩ := count_eq worker id st sentAt
  rw [hcount]
  refine ⟨(Kept.refl st).conns, rfl, rfl, rfl, fun t => ?_⟩
  by_cases ht : t = worker id
  · subst ht
    simp
  · simp [ht]

theorem mismatch_kept (worker : Nat → Nat) (id : Nat) (st : LoadTest) :
    Kept st (st.mismatch worker id) := by
  refine ⟨fun i => ?_, rfl, rfl, rfl, fun t => ?_⟩
  · by_cases hi : i = id
    · subst hi
      exact ⟨(st.conns i).input, true, LoadTest.setConn_self _ i _⟩
    · exact ⟨(st.conns i).input, (st.conns i).dead, LoadTest.setConn_other _ hi _⟩
  · by_cases ht : t = worker id
    · subst ht
      simp [LoadTest.mismatch, LoadTest.fail, LoadTest.setResult]
    · simp [LoadTest.mismatch, LoadTest.fail, LoadTest.setResult, LoadTest.setConn, ht]

theorem loadLoop_kept (worker : Nat → Nat) (id fuel : Nat) (st : LoadTest) (input : List Byte) :
    Kept st (loadLoop worker id fuel st input).1 := by
  induction fuel generalizing st input with
  | zero => exact .refl st
  | succ fuel ih =>
    rw [loadLoop]
    dsimp only
    split_ifs
    · exact .refl st
    · exact mismatch_kept worker id st
    · exact .refl st
    · exact (count_kept worker id st _).trans (ih _ _)

theorem recv_kept {bytes : List Byte} (hstep : loadTestStep worker st (.recv id bytes) = some st') :
    Kept st st' := by
  obtain ⟨-, hnext⟩ := Option.ite_none_right_eq_some.mp hstep
  have hloop := loadLoop_kept worker id ((st.conns id).input ++ bytes).length st
    ((st.conns id).input ++ bytes)
  obtain rfl := Option.some.inj hnext
  apply hloop.trans
  refine ⟨fun i => ?_, rfl, rfl, rfl, fun _ => ⟨rfl, rfl⟩⟩
  by_cases hi : i = id
  · subst hi
    exact ⟨_, _, LoadTest.setConn_self _ i _⟩
  · exact ⟨_, _, LoadTest.setConn_other _ hi _⟩

theorem Asking.kept (h : Asking worker base st) (hkept : Kept st st') : Asking worker base st' where
  rooms i := by
    obtain ⟨input, dead, hconn⟩ := hkept.conns i
    rw [hconn]
    exact h.rooms i
  members := hkept.members.trans h.members
  asked := hkept.asked ▸ h.asked
  sent t := by rw [(hkept.results t).1, hkept.asked, h.sent]
  sentByRoom t r := by rw [(hkept.results t).2, hkept.asked, h.sentByRoom]
  offset i := by
    obtain ⟨input, dead, hconn⟩ := hkept.conns i
    rw [hconn]
    exact h.offset i
  written i := by
    obtain ⟨input, dead, hconn⟩ := hkept.conns i
    rw [hconn, hkept.wire, hkept.asked]
    exact h.written i

theorem Asking.steps {acts : List LoadTestAct} (h : Asking worker base st)
    (hfaultless : ∀ act ∈ acts, act.Faultless)
    (hrun : run (loadTestStep worker) st acts = some st') : Asking worker base st' := by
  induction acts generalizing st with
  | nil =>
    cases hrun
    exact h
  | cons act acts ih =>
    rw [List.forall_mem_cons] at hfaultless
    obtain ⟨middle, hmiddle, hrest⟩ := Option.bind_eq_some_iff.mp hrun
    refine ih ?_ hfaultless.2 hrest
    cases act with
    | enter id bytes => exact hfaultless.1.elim
    | hangUp id => exact hfaultless.1.elim
    | recv id bytes => exact h.kept (recv_kept hmiddle)
    | send id result => exact h.send hfaultless.1 hmiddle
    | pace id =>
      obtain ⟨⟨-, hroom⟩, hnext⟩ := Option.ite_none_right_eq_some.mp hmiddle
      obtain rfl := Option.some.inj hnext
      exact h.pace hroom

theorem Counting.step {act : LoadTestAct} (h : Counting worker texts stream st)
    (htexts : ∀ i, ∀ text ∈ texts i, text.length = 64) (hfaultless : act.Faultless)
    (hinitial : ∀ i, stream i ++ received i [act] <+: chats (texts i))
    (hstep : loadTestStep worker st act = some st') :
    Counting worker texts (fun i => stream i ++ received i [act]) st' := by
  cases act with
  | enter id bytes => exact hfaultless.elim
  | hangUp id => exact hfaultless.elim
  | recv id bytes =>
    have hown : received id [.recv id bytes] = bytes := by simp [received]
    have hdue := hinitial id
    rw [hown] at hdue
    exact h.recv (htexts id) hdue hstep
  | pace id =>
    obtain ⟨-, hnext⟩ := Option.ite_none_right_eq_some.mp hstep
    obtain rfl := Option.some.inj hnext
    simp only [received, List.flatMap_cons, List.flatMap_nil, List.append_nil]
    exact h.apart (fun i => ⟨(pace_conns worker id st i).1, (pace_conns worker id st i).2.1⟩)
      (pace_results worker id st) (pace_counted worker id st)
  | send id result =>
    obtain ⟨hconns, hresults, hcounted⟩ := send_conns hfaultless hstep
    simp only [received, List.flatMap_cons, List.flatMap_nil, List.append_nil]
    refine h.apart hconns (fun t => ?_) hcounted
    rw [hresults]
    exact ⟨rfl, rfl, rfl⟩

theorem received_append (id : Nat) (first second : List LoadTestAct) :
    received id (first ++ second) = received id first ++ received id second :=
  List.flatMap_append

theorem Counting.steps {acts : List LoadTestAct} (h : Counting worker texts stream st)
    (htexts : ∀ i, ∀ text ∈ texts i, text.length = 64) (hfaultless : ∀ act ∈ acts, act.Faultless)
    (hinitial : ∀ i, stream i ++ received i acts <+: chats (texts i))
    (hrun : run (loadTestStep worker) st acts = some st') :
    Counting worker texts (fun i => stream i ++ received i acts) st' := by
  induction acts generalizing st stream with
  | nil =>
    cases hrun
    simpa only [received, List.flatMap_nil, List.append_nil] using h
  | cons act acts ih =>
    rw [List.forall_mem_cons] at hfaultless
    obtain ⟨middle, hmiddle, hrest⟩ := Option.bind_eq_some_iff.mp hrun
    have hcons (i : Nat) : received i (act :: acts) = received i [act] ++ received i acts :=
      received_append i [act] acts
    simp only [hcons, ← List.append_assoc] at hinitial ⊢
    have hfirst (i : Nat) : stream i ++ received i [act] <+: chats (texts i) :=
      (List.prefix_append _ _).trans (hinitial i)
    exact ih (h.step htexts hfaultless.1 hfirst hmiddle) hfaultless.2 hinitial hrest

end Load

end LoadTestRoom
end RoomServer
