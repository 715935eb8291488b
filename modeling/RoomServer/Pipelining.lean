import RoomServer.Broadcasts
import RoomServer.HallClosed
import RoomServer.Segmentation

/-! A client that does not wait for the answer to ENTER. Its packets are handled one
after the other, and each leads to the room that `GetRoomID` names by then; that is
the room of the Enter job only once this job has run. -/
namespace RoomServer
open Library.Framing Library.Transition Library.Threads

def verdict : Dispatch Unit := fun app packet => (app, (PacketHandler.dispatch 0 packet).isSome)

def ValidBroadcast (packet : Packet) : Prop :=
  packet.type = PacketType.CLIENT_BROADCAST ∧ packet.body.length = 64

def ValidMove (packet : Packet) : Prop :=
  packet.type = PacketType.CLIENT_MOVE ∧ packet.body.length = 8

/-- An ENTER, then valid BROADCAST and MOVE packets, then perhaps the beginning of one more. -/
structure PipelinedStream (stream : List Byte) : Prop where
  framed : PacketStream stream
  packets : ∃ first rest, packets stream = first :: rest ∧ first.type = PacketType.CLIENT_ENTER ∧
    ∀ packet ∈ rest, ValidBroadcast packet ∨ ValidMove packet

def Packet.job (session : Nat) (packet : Packet) : Option Job :=
  match PacketHandler.dispatch 0 packet with
  | some (.broadcast text) => some ⟨.broadcast text, session⟩
  | some (.enter _) => some ⟨.enter, session⟩
  | some .leave => some ⟨.leave, session⟩
  | some (.move posX posY) => some ⟨.move posX posY, session⟩
  | _ => none

def HallAct.isStop : HallAct → Bool
  | .stop => true
  | _ => false

/-- A session's stream next to the rooms. -/
structure Pipeline where
  hall : Hall
  receiver : Receiver Unit
  /-- What the client has sent and the server has not received. -/
  wire : List Byte
  /-- How many of the received packets were handed to `Dispatch`. -/
  handled : Nat
  /-- History: the session's jobs in the order of `PushJob`, with the rooms they were given to. -/
  handed : List (Nat × Job)

def Pipeline.start (hall : Hall) (stream : List Byte) : Pipeline :=
  ⟨hall, .fresh (), stream, 0, []⟩

inductive PipelineAct where
  /-- A receive of the session completes with the next `n` bytes. -/
  | receive (n : Nat)
  /-- The worker hands the next packet to `PacketHandler::Dispatch`. -/
  | handle (rand : Nat) (made : Bool)
  /-- Anything else that happens in the server. -/
  | other (act : HallAct)

def Push.target (p : Push) : Nat × Job := (p.index.toNat, p.job)

def inFlight (session : Nat) (pushes : List Push) : List (Nat × Job) :=
  (pushes.filter fun p => p.job.session == session).map Push.target

def handedBy (session : Nat) (h : Hall) : HallAct → List (Nat × Job)
  | .push k =>
    match h.pushes[k]? with
    | some (.pushJob job i) => if job.session == session then [(i, job)] else []
    | _ => []
  | _ => []

/-- The worker is back from `PushJobByRooms` before it goes on in the stream. -/
def pipelineStep (session : Nat) : Step Pipeline PipelineAct
  | st, .receive n =>
    if st.handled = st.receiver.dispatched.length ∧ inFlight session st.hall.pushes = [] then
      (receive verdict st.receiver (st.wire.take n)).map fun receiver =>
        { st with receiver := receiver, wire := st.wire.drop n }
    else none
  | st, .handle rand made =>
    if inFlight session st.hall.pushes = [] then
      st.receiver.dispatched[st.handled]?.bind fun packet =>
        (hallStep st.hall (.packet session rand made packet)).map fun hall =>
          { st with hall := hall, handled := st.handled + 1 }
    else none
  | st, .other act =>
    if act.caller = some session ∨ act.isStop = true then none
    else
      (hallStep st.hall act).map fun hall =>
        { st with hall := hall, handed := st.handed ++ handedBy session st.hall act }

/-- The session is open, and the packets handled so far have led, in order, to one
room, which is the one it is in if it is in any. -/
structure HandsOver (session : Nat) (st : Pipeline) : Prop where
  opened : st.hall.closed session = false
  handed : ∃ i : Nat,
    ((st.hall.sessions session).roomID = -1 ∨ (st.hall.sessions session).roomID = i) ∧
    (st.handed ++ inFlight session st.hall.pushes).map (Prod.map id some) =
      (st.receiver.dispatched.take st.handled).map fun packet => (i, packet.job session)

/-- A packet that is routed by `GetRoomID` is handled when the Enter job has set it. -/
def handledInRoom (session : Nat) (st : Pipeline) : PipelineAct → Bool
  | .handle _ _ =>
    st.receiver.dispatched[st.handled]?.all fun packet =>
      packet.type == PacketType.CLIENT_ENTER || decide (0 ≤ (st.hall.sessions session).roomID)
  | _ => true

/-! ### What is on its way -/

theorem inFlight_append (session : Nat) (first second : List Push) :
    inFlight session (first ++ second) = inFlight session first ++ inFlight session second := by
  rw [inFlight, List.filter_append, List.map_append]
  rfl

theorem inFlight_own {session : Nat} {p : Push} (h : p.job.session = session) :
    inFlight session [p] = [p.target] := by
  simp [inFlight, h]

theorem inFlight_other {session : Nat} {p : Push} (h : p.job.session ≠ session) :
    inFlight session [p] = [] := by
  simp [inFlight, h]

theorem inFlight_splice (session : Nat) {k : Nat} {pushes : List Push} {p : Push}
    (next : List Push)
    (hplace : pushes[k]? = some p) :
    inFlight session pushes = inFlight session (pushes.take k) ++ (inFlight session [p] ++
        inFlight session (pushes.drop (k + 1))) ∧
      inFlight session (splice pushes k next) = inFlight session (pushes.take k) ++
        (inFlight session next ++ inFlight session (pushes.drop (k + 1))) := by
  constructor
  · have hsplit := congrArg (inFlight session) (split_at hplace)
    rwa [← List.singleton_append, inFlight_append, inFlight_append] at hsplit
  · rw [splice, inFlight_append, inFlight_append, List.append_assoc]

/-- The session's worker goes on; it is the only one that has a job of the session. -/
theorem inFlight_splice_own {session k : Nat} {pushes : List Push} {p : Push} (next : List Push)
    (hplace : pushes[k]? = some p) (hown : p.job.session = session)
    (hsingle : (inFlight session pushes).length ≤ 1) :
    inFlight session pushes = [p.target] ∧
      inFlight session (splice pushes k next) = inFlight session next := by
  obtain ⟨hold, hnew⟩ := inFlight_splice session next hplace
  rw [inFlight_own hown] at hold
  rw [hold] at hsingle
  simp only [List.length_append, List.length_singleton] at hsingle
  have hbefore : inFlight session (pushes.take k) = [] := List.length_eq_zero_iff.mp (by omega)
  have hafter : inFlight session (pushes.drop (k + 1)) = [] := List.length_eq_zero_iff.mp (by omega)
  rw [hold, hnew, hbefore, hafter]
  simp

theorem inFlight_splice_other {session k : Nat} {pushes : List Push} {p : Push} {next : List Push}
    (hplace : pushes[k]? = some p) (hother : p.job.session ≠ session)
    (hnext : inFlight session next = []) :
    inFlight session (splice pushes k next) = inFlight session pushes := by
  obtain ⟨hold, hnew⟩ := inFlight_splice session next hplace
  rw [hold, hnew, hnext, inFlight_other hother]

/-! ### One room -/

/-- What is on its way for the session leads to room `i`, and no other room has heard of
the session. -/
structure Routed (h : Hall) (session i : Nat) : Prop where
  known : session < h.accepted
  opened : h.closed session = false
  inRange : i < h.roomCount
  running : h.stop = false
  ids : ∀ j, (h.rooms j).room.roomID = j
  room : (h.sessions session).roomID = -1 ∨ (h.sessions session).roomID = i
  pushes : ∀ p ∈ h.pushes, p.job.session = session → p.index = i ∧ p.job.kind ≠ .leave
  jobs : ∀ j, ∀ job ∈ (h.rooms j).jobQueue, job.session = session → j = i ∧ job.kind ≠ .leave

theorem Routed.outOfRange {h : Hall} {session i : Nat} (hrouted : Routed h session i) {job : Job}
    {index : Int} (hpush : .pushJobByRooms job index ∈ h.pushes) (hown : job.session = session) :
    h.outOfRange index = false := by
  have hindex : index = i := (hrouted.pushes _ hpush hown).1
  have hrange := hrouted.inRange
  simp only [Hall.outOfRange, hrouted.running, hindex, Bool.false_or, Bool.or_eq_false_iff,
    decide_eq_false_iff_not]
  omega

theorem inFlight_step {h h' : Hall} {act : HallAct} {session i : Nat}
    (hstep : hallStep h act = some h') (hrouted : Routed h session i)
    (hother : act.caller ≠ some session) (hsingle : (inFlight session h.pushes).length ≤ 1) :
    handedBy session h act ++ inFlight session h'.pushes = inFlight session h.pushes := by
  have hpushes := stepPushes_of_step hstep
  cases act with
  | push k =>
    obtain ⟨p, hplace, rfl⟩ := Option.map_eq_some_iff.mp hstep
    by_cases hown : p.job.session = session
    · cases p with
      | pushJobByRooms job index =>
        have hin := hrouted.outOfRange (List.mem_of_getElem? hplace) hown
        obtain ⟨hold, hnew⟩ := inFlight_splice_own [.pushJob job index.toNat] hplace hown hsingle
        simp only [handedBy, hplace, Hall.advance, hin, Bool.false_eq_true, ↓reduceIte,
          List.nil_append]
        rw [hold, hnew, inFlight_own (p := .pushJob job index.toNat) hown]
        rfl
      | pushJob job j =>
        obtain ⟨hold, hnew⟩ := inFlight_splice_own [] hplace hown hsingle
        have hself : (job.session == session) = true := beq_iff_eq.mpr hown
        simp only [handedBy, hplace, hself, ↓reduceIte, Hall.advance, Hall.setRoom]
        rw [hold, hnew]
        rfl
    · have hnone : handedBy session h (.push k) = [] := by
        cases p with
        | pushJobByRooms job index => simp only [handedBy, hplace]
        | pushJob job j =>
          have hne : (job.session == session) = false := beq_eq_false_iff_ne.mpr hown
          simp only [handedBy, hplace, hne, Bool.false_eq_true, ↓reduceIte]
      rw [hnone, List.nil_append]
      cases p with
      | pushJobByRooms job index =>
        simp only [Hall.advance]
        split
        · exact inFlight_splice_other hplace hown rfl
        · exact inFlight_splice_other hplace hown (inFlight_other hown)
      | pushJob job j => exact inFlight_splice_other hplace hown rfl
  | _ =>
    cases hpushes with
    | same pushes => rw [pushes]; rfl
    | @calls _ _ job index caller own pushes =>
      have hne : job.session ≠ session := fun hown => hother (caller.trans (congrArg some hown))
      rw [pushes, inFlight_append, inFlight_other (p := .pushJobByRooms job index) hne]
      exact List.append_nil _

theorem Routed.pushes_step {h h' : Hall} {act : HallAct} {session i : Nat}
    (hrouted : Routed h session i) (hstep : StepPushes h act h') (hother : act.caller ≠ some session)
    (p : Push) (hp : p ∈ h'.pushes) (hown : p.job.session = session) :
    p.index = i ∧ p.job.kind ≠ .leave := by
  cases hstep with
  | same pushes => exact hrouted.pushes p (pushes ▸ hp) hown
  | calls caller own pushes =>
    rw [pushes] at hp
    rcases List.mem_append.mp hp with hp | hp
    · exact hrouted.pushes p hp hown
    · cases List.mem_singleton.mp hp
      exact absurd (hown ▸ caller) hother
  | @advances k q place =>
    have hq := List.mem_of_getElem? place
    cases q with
    | pushJobByRooms job index =>
      simp only [Hall.advance] at hp
      split at hp
      · exact hrouted.pushes p ((mem_splice hp).resolve_left List.not_mem_nil) hown
      · rcases mem_splice hp with hp | hp
        · cases List.mem_singleton.mp hp
          obtain ⟨hindex, hkind⟩ := hrouted.pushes _ hq hown
          refine ⟨?_, hkind⟩
          simp only [Push.index] at hindex ⊢
          omega
        · exact hrouted.pushes p hp hown
    | pushJob job j =>
      exact hrouted.pushes p ((mem_splice hp).resolve_left List.not_mem_nil) hown

theorem Routed.room_step {h : Hall} {session i : Nat} (hrouted : Routed h session i) {j : Nat}
    {room : Room} {member : Nat → Option Nat} (hsame : SameRoom h j room member)
    {jobQueue : List Job} (hjobs : ∀ job ∈ jobQueue, job ∈ (h.rooms j).jobQueue) :
    (∀ k, ((h.setRoom j room jobQueue).rooms k).room.roomID = k) ∧
      ∀ k, ∀ job ∈ ((h.setRoom j room jobQueue).rooms k).jobQueue, job.session = session →
        k = i ∧ job.kind ≠ .leave :=
  ⟨setRoom_ids hrouted.ids hsame.roomID jobQueue,
    fun k job hjob => hrouted.jobs k job (setRoom_jobs room hjobs k job hjob)⟩

/-- Others come, go and talk; the session's own Enter job lets it into room `i`. -/
theorem Routed.step {h h' : Hall} {act : HallAct} {session i : Nat} (hrouted : Routed h session i)
    (hstep : hallStep h act = some h') (hother : act.caller ≠ some session)
    (hstop : act.isStop = false) : Routed h' session i := by
  have hpushes := hrouted.pushes_step (stepPushes_of_step hstep) hother
  have hrouted' := hrouted
  obtain ⟨known, opened, inRange, running, ids, room, pushes, jobs⟩ := hrouted'
  cases moves_of_step hstep with
  | accepts =>
    have hne : session ≠ h.accepted := by omega
    refine ⟨Nat.lt_succ_of_lt known, opened, inRange, running, ids, ?_, hpushes, jobs⟩
    simp only [Hall.setSession, Function.update_of_ne hne]
    exact room
  | calls | replies => exact ⟨known, opened, inRange, running, ids, room, hpushes, jobs⟩
  | @closes k job index place out =>
    have hne : session ≠ job.session := by
      intro hown
      rw [hrouted.outOfRange (List.mem_of_getElem? place) hown.symm] at out
      contradiction
    refine ⟨known, ?_, inRange, running, ids, room, hpushes, jobs⟩
    simp only [Hall.closeSession, Function.update_of_ne hne]
    exact opened
  | passes => exact ⟨known, opened, inRange, running, ids, room, hpushes, jobs⟩
  | @queues k job j place =>
    refine ⟨known, opened, inRange, running, ?_, room, hpushes, ?_⟩
    · exact setRoom_ids (h := { h with pushes := _ }) ids rfl _
    · intro l other hjob hown
      rcases queued_jobs _ place l other hjob with hjob | hpush
      · exact jobs l other hjob hown
      · obtain ⟨hindex, hkind⟩ := pushes _ hpush hown
        exact ⟨Int.ofNat.inj hindex, hkind⟩
  | @stays act j room' jobQueue enqueued same hjobs =>
    obtain ⟨hids, hqueues⟩ := hrouted.room_step same hjobs
    exact ⟨known, opened, inRange, running, hids, room, hpushes, hqueues⟩
  | @enters mk nowTick enqueued j other room' jobQueue hj hjobs fresh absent same =>
    obtain ⟨hids, hqueues⟩ := hrouted.room_step same (mem_of_tail hjobs)
    refine ⟨known, opened, inRange, running, hids, ?_, hpushes, hqueues⟩
    by_cases hne : session = other
    · subst hne
      have hown := jobs j ⟨.enter, session⟩ (by rw [hjobs]; exact List.mem_cons_self) rfl
      right
      simp only [Hall.setSession, Hall.setRoom, Function.update_self, ids, hown.1]
    · simp only [Hall.setSession, Hall.setRoom, Function.update_of_ne hne]
      exact room
  | @leaves mk nowTick enqueued j other room' jobQueue hjobs connected same =>
    obtain ⟨hids, hqueues⟩ := hrouted.room_step same (mem_of_tail hjobs)
    have hne : session ≠ other := by
      rintro rfl
      exact (jobs j ⟨.leave, session⟩ (by rw [hjobs]; exact List.mem_cons_self) rfl).2 rfl
    refine ⟨known, ?_, inRange, running, hids, ?_, hpushes, hqueues⟩
    · simp only [Hall.closeSession, Hall.setSession, Hall.setRoom, Function.update_of_ne hne]
      exact opened
    · simp only [Hall.closeSession, Hall.setSession, Hall.setRoom, Function.update_of_ne hne]
      exact room
  | stops => contradiction

theorem Routed.call {h : Hall} {session i : Nat} (hrouted : Routed h session i) {job : Job}
    (hkind : job.kind ≠ .leave) :
    Routed { h with pushes := h.pushes ++ [.pushJobByRooms job i] } session i := by
  refine { hrouted with pushes := fun p hp hown => ?_ }
  rcases List.mem_append.mp hp with hp | hp
  · exact hrouted.pushes p hp hown
  · cases List.mem_singleton.mp hp
    exact ⟨rfl, hkind⟩

/-! ### The packets of the stream -/

theorem dispatch_enter {packet : Packet} (htype : packet.type = PacketType.CLIENT_ENTER)
    (rand : Nat) : PacketHandler.dispatch rand packet = some (.enter rand) := by
  unfold PacketHandler.dispatch
  rw [htype]
  rfl

theorem dispatch_broadcast {packet : Packet} (hvalid : ValidBroadcast packet) (rand : Nat) :
    PacketHandler.dispatch rand packet = some (.broadcast packet.body) := by
  unfold PacketHandler.dispatch
  rw [hvalid.1]
  exact if_pos hvalid.2

theorem dispatch_move {packet : Packet} (hvalid : ValidMove packet) :
    ∃ posX posY, ∀ rand, PacketHandler.dispatch rand packet = some (.move posX posY) := by
  obtain ⟨type, body⟩ := packet
  obtain ⟨htype, hlength⟩ := hvalid
  match body, hlength with
  | [x0, x1, x2, x3, y0, y1, y2, y3], _ =>
    refine ⟨readFloat x0 x1 x2 x3, readFloat y0 y1 y2 y3, fun rand => ?_⟩
    unfold PacketHandler.dispatch
    rw [htype]
    rfl

theorem handled_enter {h : Hall} {session : Nat} (hknown : session < h.accepted) {packet : Packet}
    (htype : packet.type = PacketType.CLIENT_ENTER) (rand : Nat) (made : Bool) :
    packet.job session = some ⟨.enter, session⟩ ∧
      hallStep h (.packet session rand made packet) = some { h with
        pushes := h.pushes ++ [.pushJobByRooms ⟨.enter, session⟩ (rand % 5 : Nat)] } := by
  constructor
  · simp only [Packet.job, dispatch_enter htype]
  · simp only [hallStep, hknown, ↓reduceIte, dispatch_enter htype]
    rfl

theorem handled_valid {h : Hall} {session : Nat} (hknown : session < h.accepted) {packet : Packet}
    (hvalid : ValidBroadcast packet ∨ ValidMove packet) (rand : Nat) (made : Bool) :
    ∃ job, packet.job session = some job ∧ job.session = session ∧ job.kind ≠ .leave ∧
      hallStep h (.packet session rand made packet) = some { h with
        pushes := h.pushes ++ [.pushJobByRooms job (h.sessions session).roomID] } := by
  rcases hvalid with hvalid | hvalid
  · refine ⟨⟨.broadcast packet.body, session⟩, ?_, rfl, by simp, ?_⟩
    · simp only [Packet.job, dispatch_broadcast hvalid]
    · simp only [hallStep, hknown, ↓reduceIte, dispatch_broadcast hvalid]
      rfl
  · obtain ⟨posX, posY, hdispatch⟩ := dispatch_move hvalid
    refine ⟨⟨.move posX posY, session⟩, ?_, rfl, by simp, ?_⟩
    · simp only [Packet.job, hdispatch]
    · simp only [hallStep, hknown, ↓reduceIte, hdispatch]
      rfl

theorem hand_verdict {packets : List Packet}
    (h : ∀ packet ∈ packets, (PacketHandler.dispatch 0 packet).isSome = true) :
    hand verdict () packets = ⟨(), packets, true⟩ := by
  induction packets with
  | nil => rfl
  | cons packet rest ih =>
    rw [List.forall_mem_cons] at h
    simp only [hand, verdict, h.1]
    rw [ih h.2]

theorem PipelinedStream.accepted {stream : List Byte} (h : PipelinedStream stream) :
    ∀ packet ∈ RoomServer.packets stream, (PacketHandler.dispatch 0 packet).isSome = true := by
  obtain ⟨first, rest, heq, htype, hvalid⟩ := h.packets
  rw [heq, List.forall_mem_cons]
  refine ⟨by rw [dispatch_enter htype]; rfl, fun packet hpacket => ?_⟩
  rcases hvalid packet hpacket with hvalid | hvalid
  · rw [dispatch_broadcast hvalid]
    rfl
  · obtain ⟨posX, posY, hdispatch⟩ := dispatch_move hvalid
    rw [hdispatch]
    rfl

/-- What was received is the beginning of the stream, whatever the cuts. -/
structure ReceivedOf (stream : List Byte) (st : Pipeline) : Prop where
  cuts : ∃ cuts, run (receive verdict) (.fresh ()) cuts = some st.receiver ∧
    cuts.flatten ++ st.wire = stream

theorem ReceivedOf.dispatched {stream : List Byte} {st : Pipeline} (h : ReceivedOf stream st)
    (hstream : PipelinedStream stream) :
    ∃ more, packets stream = st.receiver.dispatched ++ more := by
  obtain ⟨cuts, hrun, hcuts⟩ := h.cuts
  have hrel := run_refines verdict () cuts
  rw [hrun] at hrel
  cases ha : run (deframe verdict) ⟨(), [], [], false⟩ cuts with
  | none => rw [ha] at hrel; contradiction
  | some a =>
    rw [ha] at hrel
    obtain ⟨hrefines⟩ := hrel
    have hbound := hstream.framed.bounded
    rw [← hcuts] at hbound
    have hreceived := run_received cuts (received_nil verdict ()) hbound.left ha
    rw [List.nil_append] at hreceived
    have hsplit := packets_append cuts.flatten st.wire
    rw [hcuts] at hsplit
    have haccepted : ∀ packet ∈ packets cuts.flatten,
        (PacketHandler.dispatch 0 packet).isSome = true := fun packet hpacket =>
      hstream.accepted packet (hsplit ▸ List.mem_append_left _ hpacket)
    rw [hrefines.dispatched_eq, hreceived.dispatched_eq, hand_verdict haccepted]
    exact ⟨_, hsplit⟩

theorem ReceivedOf.receives {stream : List Byte} {st : Pipeline} (h : ReceivedOf stream st) {n : Nat}
    {receiver : Receiver Unit} (hstep : receive verdict st.receiver (st.wire.take n) = some receiver) :
    ReceivedOf stream { st with receiver := receiver, wire := st.wire.drop n } := by
  obtain ⟨cuts, hrun, hcuts⟩ := h.cuts
  refine ⟨cuts ++ [st.wire.take n], ?_, ?_⟩
  · rw [run_append, hrun, Option.bind_some, run_cons, hstep]
    rfl
  · rw [List.flatten_append, List.flatten_singleton, List.append_assoc, List.take_append_drop, hcuts]

theorem receive_dispatched {receiver receiver' : Receiver Unit} {data : List Byte}
    (hstep : receive verdict receiver data = some receiver') :
    ∃ more, receiver'.dispatched = receiver.dispatched ++ more := by
  unfold receive at hstep
  split at hstep
  · obtain ⟨r, _, rfl⟩ := Option.map_eq_some_iff.mp hstep
    exact ⟨r.dispatched, rfl⟩
  · contradiction

/-! ### The whole run -/

structure PipelineInv (session : Nat) (stream : List Byte) (st : Pipeline) : Prop where
  received : ReceivedOf stream st
  single : (inFlight session st.hall.pushes).length ≤ 1
  /-- Before the ENTER any room may become the session's. -/
  untouched : st.handled = 0 → ∀ i < 5, Routed st.hall session i
  routed : ∃ i < 5, Routed st.hall session i ∧
    (st.handed ++ inFlight session st.hall.pushes).map (Prod.map id some) =
      (st.receiver.dispatched.take st.handled).map fun packet => (i, packet.job session)

variable {session : Nat} {stream : List Byte} {st st' : Pipeline}

theorem PipelineInv.handsOver (h : PipelineInv session stream st) : HandsOver session st := by
  obtain ⟨i, _, hrouted, hhanded⟩ := h.routed
  exact ⟨hrouted.opened, i, hrouted.room, hhanded⟩

theorem pipelineInv_receive (h : PipelineInv session stream st) {n : Nat}
    (hstep : pipelineStep session st (.receive n) = some st') : PipelineInv session stream st' := by
  simp only [pipelineStep, Option.ite_none_right_eq_some] at hstep
  obtain ⟨⟨hall, _⟩, hstep⟩ := hstep
  obtain ⟨receiver, hreceive, rfl⟩ := Option.map_eq_some_iff.mp hstep
  obtain ⟨more, hmore⟩ := receive_dispatched hreceive
  obtain ⟨i, hi, hrouted, hhanded⟩ := h.routed
  refine ⟨h.received.receives hreceive, h.single, h.untouched, i, hi, hrouted, ?_⟩
  rw [hhanded, hmore, List.take_append_of_le_length hall.le]

theorem pipelineInv_other (h : PipelineInv session stream st) {act : HallAct}
    (hstep : pipelineStep session st (.other act) = some st') : PipelineInv session stream st' := by
  simp only [pipelineStep, Option.ite_none_left_eq_some, not_or] at hstep
  obtain ⟨⟨hother, hstop⟩, hstep⟩ := hstep
  rw [Bool.not_eq_true] at hstop
  obtain ⟨hall, hact, rfl⟩ := Option.map_eq_some_iff.mp hstep
  obtain ⟨i, hi, hrouted, hhanded⟩ := h.routed
  have hflight := inFlight_step hact hrouted hother h.single
  refine ⟨⟨h.received.cuts⟩, ?_, ?_, i, hi, hrouted.step hact hother hstop, ?_⟩
  · have hlength := congrArg List.length hflight
    have hsingle := h.single
    rw [List.length_append] at hlength
    change (inFlight session hall.pushes).length ≤ 1
    omega
  · intro hnone j hj
    exact (h.untouched hnone j hj).step hact hother hstop
  · rw [List.append_assoc, hflight]
    exact hhanded

theorem PipelineInv.handles (h : PipelineInv session stream st)
    (hidle : inFlight session st.hall.pushes = []) {packet : Packet}
    (hnext : st.receiver.dispatched[st.handled]? = some packet) {i : Nat} (hi : i < 5)
    (hrouted : Routed st.hall session i)
    (hhanded : (st.handed ++ inFlight session st.hall.pushes).map (Prod.map id some) =
      (st.receiver.dispatched.take st.handled).map fun packet => (i, packet.job session))
    {job : Job} (hjob : packet.job session = some job) (hown : job.session = session)
    (hkind : job.kind ≠ .leave) :
    PipelineInv session stream { st with
      hall := { st.hall with pushes := st.hall.pushes ++ [.pushJobByRooms job i] }
      handled := st.handled + 1 } := by
  have hflight : inFlight session (st.hall.pushes ++ [.pushJobByRooms job i]) = [(i, job)] := by
    rw [inFlight_append, hidle, inFlight_own (p := .pushJobByRooms job i) hown]
    rfl
  refine ⟨⟨h.received.cuts⟩, ?_, nofun, i, hi, hrouted.call hkind, ?_⟩
  · rw [hflight]
    exact le_refl 1
  · rw [hidle, List.append_nil] at hhanded
    rw [hflight, List.map_append, hhanded, List.take_add_one, hnext, List.map_append]
    simp only [Option.toList_some, List.map_singleton, hjob]
    rfl

theorem pipelineInv_handle (hstream : PipelinedStream stream) (h : PipelineInv session stream st)
    {rand : Nat} {made : Bool} (hok : handledInRoom session st (.handle rand made) = true)
    (hstep : pipelineStep session st (.handle rand made) = some st') :
    PipelineInv session stream st' := by
  simp only [pipelineStep, Option.ite_none_right_eq_some] at hstep
  obtain ⟨hidle, hstep⟩ := hstep
  obtain ⟨packet, hnext, hstep⟩ := Option.bind_eq_some_iff.mp hstep
  obtain ⟨hall, hact, rfl⟩ := Option.map_eq_some_iff.mp hstep
  obtain ⟨i, hi, hrouted, hhanded⟩ := h.routed
  obtain ⟨more, hmore⟩ := h.received.dispatched hstream
  obtain ⟨first, rest, hpackets, htype, hvalid⟩ := hstream.packets
  have hplace : (packets stream)[st.handled]? = some packet := by
    rw [hmore, List.getElem?_append_left (List.getElem?_eq_some_iff.mp hnext).1, hnext]
  rw [hpackets] at hplace
  cases hhandled : st.handled with
  | zero =>
    rw [hhandled, List.getElem?_cons_zero] at hplace
    cases Option.some.inj hplace
    obtain ⟨hjob, henter⟩ := handled_enter hrouted.known htype rand made
    cases Option.some.inj (hact.symm.trans henter)
    have hi' : rand % 5 < 5 := Nat.mod_lt _ (by omega)
    rw [hhandled, List.take_zero, List.map_nil, List.map_eq_nil_iff] at hhanded
    have hnone := h.handles hidle hnext hi' (h.untouched hhandled _ hi')
      (by rw [hhanded, hhandled]; rfl) hjob rfl nofun
    rwa [hhandled] at hnone
  | succ n =>
    rw [hhandled, List.getElem?_cons_succ] at hplace
    have hvalid := hvalid packet (List.mem_of_getElem? hplace)
    obtain ⟨job, hjob, hown, hkind, hpush⟩ := handled_valid hrouted.known hvalid rand made
    cases Option.some.inj (hact.symm.trans hpush)
    -- the Enter job has run
    have hroom : (st.hall.sessions session).roomID = i := by
      have hnonneg : 0 ≤ (st.hall.sessions session).roomID := by
        have hne : packet.type ≠ PacketType.CLIENT_ENTER := by
          rcases hvalid with hvalid | hvalid
          · rw [hvalid.1]; decide
          · rw [hvalid.1]; decide
        simpa [handledInRoom, hnext, hne] using hok
      exact hrouted.room.resolve_left (by omega)
    rw [← hhandled, hroom]
    exact h.handles hidle hnext hi hrouted hhanded hjob hown hkind

theorem pipelineInv_reaches (hstream : PipelinedStream stream) {start : Pipeline}
    (hstart : PipelineInv session stream start)
    (hr : Reaches (pipelineStep session) (fun st act => handledInRoom session st act = true) start
      st) : PipelineInv session stream st := by
  apply hr.invariant hstart
  intro st act st' _ hinv hok hstep
  cases act with
  | receive n => exact pipelineInv_receive hinv hstep
  | handle rand made => exact pipelineInv_handle hstream hinv hok hstep
  | other act => exact pipelineInv_other hinv hstep

/-! ### The session is accepted -/

structure RunningHall (roomCount : Nat) (h : Hall) : Prop where
  count : h.roomCount = roomCount
  running : h.stop = false
  ids : ∀ i, (h.rooms i).room.roomID = i
  closed : ∀ s, h.closed s = true → s < h.accepted

theorem closed_closeSession {h : Hall} {session : Nat}
    (hclosed : ∀ s, h.closed s = true → s < h.accepted) (hknown : session < h.accepted) (s : Nat)
    (hs : (h.closeSession session).closed s = true) : s < h.accepted := by
  by_cases hne : s = session
  · exact hne ▸ hknown
  · simp only [Hall.closeSession, Function.update_of_ne hne] at hs
    exact hclosed s hs

theorem runningHall_moves {roomCount : Nat} {h h' : Hall} {act : HallAct} (hknown : KnownInv h)
    (hinv : RunningHall roomCount h) (hstop : act.isStop = false) (hmove : Moves h act h') :
    RunningHall roomCount h' := by
  obtain ⟨count, running, ids, closed⟩ := hinv
  cases hmove with
  | accepts => exact ⟨count, running, ids, fun s hs => Nat.lt_succ_of_lt (closed s hs)⟩
  | calls | replies | passes => exact ⟨count, running, ids, closed⟩
  | closes place out =>
    exact ⟨count, running, ids,
      closed_closeSession closed (hknown.pushes _ (List.mem_of_getElem? place))⟩
  | queues place =>
    exact ⟨count, running, setRoom_ids (h := { h with pushes := _ }) ids rfl _, closed⟩
  | stays same => exact ⟨count, running, setRoom_ids ids same.roomID _, closed⟩
  | enters mk nowTick enqueued inRange jobs fresh absent same =>
    exact ⟨count, running, setRoom_ids ids same.roomID _, closed⟩
  | @leaves mk nowTick enqueued i session room jobQueue jobs connected same =>
    have hleaver := hknown.jobs i ⟨.leave, session⟩ (by rw [jobs]; exact List.mem_cons_self)
    exact ⟨count, running, setRoom_ids ids same.roomID _, closed_closeSession closed hleaver⟩
  | stops => contradiction

theorem runningHall_reaches {roomCount : Nat} {h : Hall}
    (hr : Reaches hallStep (fun _ act => act.isStop = false) (.start roomCount) h) :
    RunningHall roomCount h := by
  apply hr.invariant ⟨rfl, rfl, fun _ => rfl, nofun⟩
  intro h act h' hr hinv hstop hstep
  exact runningHall_moves (knownInv_reaches hr) hinv hstop (moves_of_step hstep)

theorem routed_accepted {roomCount socket : Nat} {h hall : Hall} (hcount : 5 ≤ roomCount)
    (hr : Reaches hallStep (fun _ act => act.isStop = false) (.start roomCount) h)
    (haccept : hallStep h (.accept socket) = some hall) (i : Nat) (hi : i < 5) :
    Routed hall h.accepted i := by
  obtain ⟨count, running, ids, closed⟩ := runningHall_reaches hr
  have hknown := knownInv_reaches hr
  simp only [hallStep, Option.ite_none_left_eq_some] at haccept
  cases haccept.2
  refine ⟨Nat.lt_succ_self _, ?_, ?_, running, ids, .inl ?_, ?_, ?_⟩
  · rw [← Bool.not_eq_true]
    exact fun hclosed => Nat.lt_irrefl _ (closed _ hclosed)
  · change i < h.roomCount
    omega
  · simp [Hall.setSession, Connection.reset]
  · intro p hp hown
    have hbelow := hknown.pushes p hp
    omega
  · intro j job hjob hown
    have hbelow := hknown.jobs j job hjob
    omega

theorem pipelineInv_start {roomCount socket : Nat} {h hall : Hall} (hcount : 5 ≤ roomCount)
    (hr : Reaches hallStep (fun _ act => act.isStop = false) (.start roomCount) h)
    (haccept : hallStep h (.accept socket) = some hall) (stream : List Byte) :
    PipelineInv h.accepted stream (.start hall stream) := by
  have hrouted := routed_accepted hcount hr haccept
  have hnone : inFlight h.accepted hall.pushes = [] := by
    have hknown := knownInv_reaches hr
    simp only [hallStep, Option.ite_none_left_eq_some] at haccept
    cases haccept.2
    rw [inFlight, List.map_eq_nil_iff, List.filter_eq_nil_iff]
    intro p hp hown
    have hbelow := hknown.pushes p hp
    rw [beq_iff_eq.mp hown] at hbelow
    exact Nat.lt_irrefl _ hbelow
  refine ⟨⟨[], rfl, rfl⟩, ?_, fun _ => hrouted, 0, by omega, hrouted 0 (by omega), ?_⟩
  · simp [Pipeline.start, hnone]
  · simp [Pipeline.start, hnone]

/-- However the stream is cut and whatever else happens, the packets that follow an
ENTER lead to the room of its Enter job, in order, and close nothing, if each of them
is handled when that job has run. -/
theorem pipelined_handed {roomCount socket : Nat} {h hall : Hall} (hcount : 5 ≤ roomCount)
    (hr : Reaches hallStep (fun _ act => act.isStop = false) (.start roomCount) h)
    (haccept : hallStep h (.accept socket) = some hall) {stream : List Byte}
    (hstream : PipelinedStream stream) {st : Pipeline}
    (hrun : Reaches (pipelineStep h.accepted)
      (fun st act => handledInRoom h.accepted st act = true) (.start hall stream) st) :
    HandsOver h.accepted st :=
  (pipelineInv_reaches hstream (pipelineInv_start hcount hr haccept stream) hrun).handsOver

def enterThenChat : List Byte := [3, 0, 0, 0, 2, 0, 64, 0] ++ List.replicate 64 0

theorem enterThenChat_pipelined : PipelinedStream enterThenChat := by
  refine ⟨⟨[⟨[3, 0, 0, 0], []⟩, ⟨[2, 0, 64, 0], List.replicate 64 0⟩], [], by decide, ?_, by decide,
    by decide⟩, bare PacketType.CLIENT_ENTER, [chat], by decide +kernel, rfl, ?_⟩
  · intro frame hframe
    rcases List.mem_cons.mp hframe with rfl | hframe
    · exact ⟨⟨rfl, rfl⟩, by decide⟩
    · cases List.mem_singleton.mp hframe
      exact ⟨⟨rfl, by decide⟩, by decide⟩
  · intro packet hpacket
    cases List.mem_singleton.mp hpacket
    exact .inl ⟨rfl, rfl⟩

def enterFirst : List PipelineAct :=
  [.receive 6, .handle 2 true, .other (.push 0), .other (.push 0)]

theorem pipelined_handed_chat :
    ∃ hall st, hallStep (.start 5) (.accept 100) = some hall ∧
      run (pipelineStep 0) (.start hall enterThenChat)
        (enterFirst ++ [.other (dispatches 2), .receive 66, .handle 0 true, .other (.push 0),
          .other (.push 0)]) = some st ∧
      st.handled = 2 ∧ HandsOver 0 st := by
  obtain ⟨hall, haccept⟩ := Option.isSome_iff_exists.mp
    (show (hallStep (.start 5) (.accept 100)).isSome = true by decide)
  have hrun : ((hallStep (.start 5) (.accept 100)).bind fun hall =>
      run (guarded (pipelineStep 0) fun st act => handledInRoom 0 st act = true)
        (.start hall enterThenChat) (enterFirst ++ [.other (dispatches 2), .receive 66,
          .handle 0 true, .other (.push 0), .other (.push 0)])).any
      (fun st => st.handled == 2) = true := by decide +kernel
  rw [haccept, Option.bind_some] at hrun
  obtain ⟨st, hrun, hhandled⟩ := (Option.any_eq_true _ _).mp hrun
  have hcount : 5 ≤ 5 := le_refl 5
  exact ⟨hall, st, haccept, run_of_guarded _ hrun, beq_iff_eq.mp hhandled,
    pipelined_handed hcount .start haccept enterThenChat_pipelined
      (reaches_of_run _ .start hrun)⟩

/-- The BROADCAST is handled before the room thread runs. -/
theorem pipelined_chat_closes :
    ∃ hall st, hallStep (.start 5) (.accept 100) = some hall ∧ PipelinedStream enterThenChat ∧
      run (pipelineStep 0) (.start hall enterThenChat)
        (enterFirst ++ [.receive 66, .handle 0 true, .other (.push 0)]) = some st ∧
      ¬HandsOver 0 st := by
  obtain ⟨hall, haccept⟩ := Option.isSome_iff_exists.mp
    (show (hallStep (.start 5) (.accept 100)).isSome = true by decide)
  have hrun : ((hallStep (.start 5) (.accept 100)).bind fun hall =>
      run (pipelineStep 0) (.start hall enterThenChat)
        (enterFirst ++ [.receive 66, .handle 0 true, .other (.push 0)])).any
      (fun st => st.hall.closed 0) = true := by decide +kernel
  rw [haccept, Option.bind_some] at hrun
  obtain ⟨st, hrun, hclosed⟩ := (Option.any_eq_true _ _).mp hrun
  refine ⟨hall, st, haccept, enterThenChat_pipelined, hrun, ?_⟩
  intro hhands
  rw [hhands.opened] at hclosed
  contradiction

end RoomServer
