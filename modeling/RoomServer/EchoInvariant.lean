import RoomServer.EchoSession

/-! What holds in every run of an echo session without failures: every request is in
one place, in the stream, in the handler or among the chunks of the send side. -/
namespace RoomServer
open Library.Framing Library.Transition Library.Threads ChunkRun

/-! ### The stream of the client -/

def echoPacket (text : List Byte) : Packet := ⟨.CLIENT_ECHO, text⟩

def requests (texts : List (List Byte)) : List Byte :=
  texts.flatMap fun text => packetBytes .CLIENT_ECHO text

def replies (texts : List (List Byte)) : List Byte :=
  texts.flatMap fun text => packetBytes .SERVER_ECHO text

def requestFrame (text : List Byte) : Frame Byte :=
  ⟨PacketID.bytes ⟨.CLIENT_ECHO, UInt16.ofNat text.length⟩, text⟩

theorem read_requestFrame (text : List Byte) :
    PacketID.read (requestFrame text).header = ⟨.CLIENT_ECHO, UInt16.ofNat text.length⟩ := by
  have hread := PacketID.read_bytes ⟨.CLIENT_ECHO, UInt16.ofNat text.length⟩ []
  rwa [List.append_nil] at hread

theorem requestFrame_valid {text : List Byte} (h : text.length = 64) :
    packetFormat.Valid (requestFrame text) := by
  refine ⟨PacketID.length_bytes _, ?_⟩
  change text.length = (PacketID.read (requestFrame text).header).size.toNat
  rw [read_requestFrame, h]
  rfl

theorem packetOf_requestFrame (text : List Byte) :
    packetOf (requestFrame text) = echoPacket text := by
  rw [packetOf, read_requestFrame]
  rfl

theorem requests_cons (text : List Byte) (rest : List (List Byte)) :
    requests (text :: rest) = (requestFrame text).bytes ++ requests rest := rfl

theorem requests_first {texts : List (List Byte)} (htexts : ∀ text ∈ texts, text.length = 64)
    {pending wire : List Byte} (h : pending ++ wire = requests texts)
    (hcomplete : ¬packetFormat.Incomplete pending) :
    ∃ text rest, texts = text :: rest ∧ packetOf (packetFormat.first pending) = echoPacket text ∧
      pending.drop (packetFormat.frameLength pending) ++ wire = requests rest := by
  obtain ⟨hmore, hfirst, hlength⟩ := packetFormat.append_complete wire hcomplete
  cases texts with
  | nil =>
    have hnil : pending = [] := (List.append_eq_nil_iff.mp h).1
    rw [hnil] at hcomplete
    exact absurd (.inl packetFormat.headerLength_pos) hcomplete
  | cons text rest =>
    have hvalid := requestFrame_valid (htexts text List.mem_cons_self)
    have hsplit := packetFormat.split_cons hvalid (requests rest)
    rw [← requests_cons, ← h, packetFormat.split_complete hmore, hfirst] at hsplit
    have hframe : packetFormat.first pending = requestFrame text :=
      (List.cons.inj (Prod.ext_iff.mp hsplit).1).1
    have hsize : packetFormat.frameLength pending = (requestFrame text).bytes.length := by
      have hheader : pending.take packetFormat.headerLength = (requestFrame text).header :=
        congrArg Frame.header hframe
      rw [Format.frameLength, hheader, ← hvalid.body_length, ← hvalid.header_length, Frame.bytes,
        List.length_append]
    refine ⟨text, rest, rfl, by rw [hframe, packetOf_requestFrame], ?_⟩
    have hdrop := congrArg (List.drop (packetFormat.frameLength pending)) h
    rw [List.drop_append_of_le_length (packetFormat.frameLength_le hcomplete), requests_cons,
      List.drop_left' hsize.symm] at hdrop
    exact hdrop

/-- What has arrived is never taken for an oversized packet. -/
theorem requests_keep {texts : List (List Byte)} (htexts : ∀ text ∈ texts, text.length = 64)
    {pending wire : List Byte} (h : pending ++ wire = requests texts) :
    keep pending = pending := by
  refine if_neg fun habandoned => ?_
  obtain ⟨hlong, hbig⟩ := habandoned
  cases texts with
  | nil =>
    have hnil : pending = [] := (List.append_eq_nil_iff.mp h).1
    rw [hnil] at hlong
    exact absurd hlong (by decide)
  | cons text rest =>
    have hheader : (requestFrame text).header.length = PacketID_SIZE := PacketID.length_bytes _
    have htake : pending.take PacketID_SIZE = (requestFrame text).header := by
      have htake := congrArg (List.take PacketID_SIZE) h
      rw [List.take_append_of_le_length hlong, requests_cons, Frame.bytes, List.append_assoc,
        List.take_left' hheader] at htake
      exact htake
    rw [← PacketID.read_take hlong, htake, read_requestFrame,
      htexts text List.mem_cons_self] at hbig
    exact absurd hbig (by decide)

theorem requests_nil_of_incomplete {texts : List (List Byte)}
    (htexts : ∀ text ∈ texts, text.length = 64) {pending : List Byte}
    (h : pending = requests texts) (hincomplete : packetFormat.Incomplete pending) :
    texts = [] := by
  cases texts with
  | nil => rfl
  | cons text rest =>
    have hvalid := requestFrame_valid (htexts text List.mem_cons_self)
    have hsplit := packetFormat.split_cons hvalid (requests rest)
    rw [← requests_cons, ← h, packetFormat.split_incomplete hincomplete] at hsplit
    cases hsplit

/-! ### The send side -/

section
variable {γ : Type}

def SendRun.inserting (st : SendRun γ) : List γ := st.threads.filterMap SendPc.inserting

def SendRun.given (st : SendRun γ) : List γ := st.enqueued ++ st.inserting

theorem inserting_splice {st : SendRun γ} {i : Nat} {pc : SendPc γ} (h : st.threads[i]? = some pc)
    (next : List (SendPc γ)) :
    st.inserting = (st.threads.take i).filterMap SendPc.inserting ++ (pc.inserting.toList ++
        (st.threads.drop (i + 1)).filterMap SendPc.inserting) ∧
      (splice st.threads i next).filterMap SendPc.inserting =
        (st.threads.take i).filterMap SendPc.inserting ++ (next.filterMap SendPc.inserting ++
          (st.threads.drop (i + 1)).filterMap SendPc.inserting) := by
  constructor
  · have hsplit := congrArg (List.filterMap SendPc.inserting) (split_at h)
    rw [List.filterMap_append, List.filterMap_cons] at hsplit
    rw [SendRun.inserting, hsplit]
    cases pc.inserting <;> rfl
  · rw [splice, List.filterMap_append, List.filterMap_append, List.append_assoc]

theorem inserting_next (s : SendState γ) (accepted : Bool) (pc : SendPc γ) :
    (pc.next s accepted).2.filterMap SendPc.inserting = [] := by
  cases pc with
  | insertSendQueue sendChunk =>
    simp only [SendPc.next]
    split <;> rfl
  | testEmpty =>
    simp only [SendPc.next]
    split <;> rfl
  | post => cases accepted <;> rfl
  | checkSendComplete =>
    simp only [SendPc.next]
    split <;> rfl
  | _ => rfl

theorem threads_advance (st : SendRun γ) (i : Nat) (accepted : Bool) (pc : SendPc γ) :
    (st.advance i accepted pc).threads =
      splice st.threads i (pc.next st.session accepted).2 := by
  cases pc with
  | post => cases accepted <;> rfl
  | _ => rfl

theorem session_advance (st : SendRun γ) (i : Nat) (accepted : Bool) (pc : SendPc γ) :
    (st.advance i accepted pc).session = (pc.next st.session accepted).1 := by
  cases pc with
  | post => cases accepted <;> rfl
  | _ => rfl

theorem enqueued_advance (st : SendRun γ) (i : Nat) (accepted : Bool) (pc : SendPc γ) :
    (st.advance i accepted pc).enqueued = st.enqueued ++ pc.inserting.toList := by
  cases pc with
  | insertSendQueue sendChunk => rfl
  | post => cases accepted <;> exact (List.append_nil _).symm
  | _ => exact (List.append_nil _).symm

/-- With one chunk on its way at most, its section changes nothing in the order. -/
theorem given_advance {st : SendRun γ} (hone : st.inserting.length ≤ 1) {i : Nat} {pc : SendPc γ}
    (h : st.threads[i]? = some pc) (accepted : Bool) :
    (st.advance i accepted pc).given = st.given ∧
      (st.advance i accepted pc).inserting.length ≤ st.inserting.length := by
  obtain ⟨hold, hnew⟩ := inserting_splice h (pc.next st.session accepted).2
  rw [inserting_next, List.nil_append] at hnew
  have hinserting : (st.advance i accepted pc).inserting =
      (st.threads.take i).filterMap SendPc.inserting ++
        (st.threads.drop (i + 1)).filterMap SendPc.inserting := by
    rw [SendRun.inserting, threads_advance, hnew]
  rw [SendRun.given, SendRun.given, enqueued_advance, hinserting, hold]
  cases hpc : pc.inserting with
  | none => exact ⟨by rw [Option.toList_none, List.append_nil, List.nil_append], Nat.le_refl _⟩
  | some sendChunk =>
    rw [hold, hpc] at hone
    simp only [List.length_append, Option.toList_some, List.length_singleton] at hone
    have hbefore := List.length_eq_zero_iff.mp (show
      ((st.threads.take i).filterMap SendPc.inserting).length = 0 by omega)
    have hafter := List.length_eq_zero_iff.mp (show
      ((st.threads.drop (i + 1)).filterMap SendPc.inserting).length = 0 by omega)
    rw [hbefore, hafter]
    exact ⟨by simp, Nat.zero_le _⟩

end

theorem holds_nil {next : List (SendPc SendChunk)} (h : next.filterMap SendPc.inserting = [])
    (c : SendChunk) : total (SendPc.holds c) next = 0 := by
  apply total_of_forall
  intro pc hpc
  have hnone : pc.inserting = none := List.filterMap_eq_nil_iff.mp h pc hpc
  rw [SendPc.holds, hnone]
  rfl

theorem holds_next (s : SendState SendChunk) (accepted : Bool) (pc : SendPc SendChunk)
    (c : SendChunk) :
    (pc.next s accepted).1.sendQueue.count c + (pc.next s accepted).1.sendChunks.count c ≤
      s.sendQueue.count c + s.sendChunks.count c + pc.holds c := by
  cases pc with
  | insertSendQueue sendChunk =>
    have hqueue : (s.insertSendQueue sendChunk).1.sendQueue = s.sendQueue ++ [sendChunk] ∧
        (s.insertSendQueue sendChunk).1.sendChunks = s.sendChunks := by
      cases hflag : s.sendFlag with
      | true => rw [SendState.insertSendQueue_busy hflag]; exact ⟨rfl, rfl⟩
      | false => rw [SendState.insertSendQueue_idle hflag]; exact ⟨rfl, rfl⟩
    simp only [SendPc.next, hqueue, List.count_append, SendPc.holds, SendPc.inserting,
      Option.toList_some]
    omega
  | drain =>
    simp only [SendPc.next, SendState.drain_eq, List.count_append, List.count_nil]
    omega
  | testEmpty =>
    simp only [SendPc.next, SendState.testEmpty]
    split <;> exact Nat.le_add_right _ _
  | checkSendComplete =>
    simp only [SendPc.next, SendState.checkSendComplete]
    split <;> exact Nat.le_add_right _ _
  | send | refused | execute | failed =>
    simp only [SendPc.next, SendState.clear, List.count_nil]
    omega
  | post | releaseFlag => exact Nat.le_add_right _ _

theorem holds_advance (st : SendRun SendChunk) {i : Nat} {pc : SendPc SendChunk}
    (h : st.threads[i]? = some pc) (accepted : Bool) (c : SendChunk) :
    (st.advance i accepted pc).holds c ≤ st.holds c := by
  have hmove := total_splice (SendPc.holds c) (pc.next st.session accepted).2 h
  have hnext := holds_next st.session accepted pc c
  have hnone := holds_nil (inserting_next st.session accepted pc) c
  rw [SendRun.holds, SendRun.holds, threads_advance, session_advance]
  omega

theorem holds_complete (st : SendRun SendChunk) (k : Nat) (success : Bool) (c : SendChunk) :
    SendRun.holds { st with
      outstanding := st.outstanding.eraseIdx k
      threads := st.threads ++ [if success then .execute else .failed] } c = st.holds c := by
  cases success <;> simp [SendRun.holds, SendPc.holds, SendPc.inserting]

/-! ### The invariant -/

/-- `done` was handed to `Dispatch`; what has arrived beyond it, `incoming` bytes of which
the buffer does not count yet, and what is on the wire are the requests of `rest`. -/
structure Unread (texts : List (List Byte)) (buffer : RecvBuffer) (wire : List Byte)
    (incoming : Nat) (done rest : List (List Byte)) (pending : List Byte) : Prop where
  texts : texts = done ++ rest
  window : Window buffer incoming pending
  stream : pending ++ wire = requests rest

theorem Unread.lengths {texts : List (List Byte)} {buffer : RecvBuffer} {wire : List Byte}
    {incoming : Nat} {done rest : List (List Byte)} {pending : List Byte}
    (h : Unread texts buffer wire incoming done rest pending)
    (htexts : ∀ text ∈ texts, text.length = 64) : ∀ text ∈ rest, text.length = 64 := by
  intro text hmem
  apply htexts
  rw [h.texts]
  exact List.mem_append_right done hmem

def MakePc.Answers (request : SendRequest) (pc : MakePc) : Prop :=
  pc.request = some request ∨ pc = .returned none ∨
    ∃ chunk, pc = .returned (some chunk) ∧ chunk.request = request

def SendChunk.packet (chunk : SendChunk) : List Byte :=
  packetBytes chunk.request.packetType chunk.body

namespace EchoRun

def Reading (texts : List (List Byte)) (st : EchoRun) : Prop :=
  match st.recv with
  | .waiting => ∃ done rest pending, Unread texts st.buffer st.wire 0 done rest pending ∧
      packetFormat.Incomplete pending ∧ st.dispatched = done.map echoPacket
  | .divideBuffer _ divideByte => ∃ done rest pending,
      Unread texts st.buffer st.wire divideByte done rest pending ∧
      st.dispatched = done.map echoPacket
  | .makeSendPacket _ | .insertSendQueue _ | .setReadPos _ => ∃ done text rest pending,
      Unread texts st.buffer st.wire 0 done (text :: rest) pending ∧
      ¬packetFormat.Incomplete pending ∧ st.buffer.packetHeader = PacketID.read pending ∧
      st.dispatched = (done ++ [text]).map echoPacket
  | .rejected => False

def calls (st : EchoRun) : List SendRequest :=
  st.dispatched.map fun packet => echoCall packet.body

def Asked (st : EchoRun) : Prop :=
  match st.recv with
  | .makeSendPacket t => ∃ thread request, st.world.threads[t]? = some thread ∧
      thread.pc.Answers request ∧ st.send.inserting = [] ∧
      st.send.given.map (·.request) ++ [request] = st.calls
  | .insertSendQueue _ =>
    st.send.inserting.length ≤ 1 ∧ st.send.given.map (·.request) = st.calls
  | _ => st.send.inserting = [] ∧ st.send.given.map (·.request) = st.calls

end EchoRun

structure EchoInv (poolSize : Nat) (texts : List (List Byte)) (st : EchoRun) : Prop where
  world : Reaches chunkStep always (.start poolSize) st.world
  send : Reaches sendStep accepting .start st.send
  reading : st.Reading texts
  asked : st.Asked
  held : ∀ c, st.holds c ≤ st.world.chunks.count c
  worker : ∀ t, st.recv.worker = some t → ∃ thread, st.world.threads[t]? = some thread ∧
    (st.recv = .makeSendPacket t ∨ thread.pc.request = none)
  posted : st.posted = st.send.posted.flatMap SendChunk.packet

theorem echoInv_start (poolSize : Nat) (texts : List (List Byte)) :
    EchoInv poolSize texts (.start poolSize (requests texts)) := by
  refine ⟨.start, .start, ?_, ⟨rfl, rfl⟩, fun c => Nat.le_refl _, nofun, rfl⟩
  exact ⟨[], texts, [], ⟨rfl, window_fresh, rfl⟩, .inl packetFormat.headerLength_pos, rfl⟩

theorem echoInv_receive {poolSize : Nat} {texts : List (List Byte)} {st st' : EchoRun}
    (h : EchoInv poolSize texts st) {t n : Nat} (hstep : echoStep st (.receive t n) = some st') :
    EchoInv poolSize texts st' := by
  simp only [echoStep] at hstep
  split at hstep
  case isFalse => cases hstep
  case isTrue henabled =>
    cases hstep
    obtain ⟨hrecv, hthread, _, hwire, hroom⟩ := henabled
    have hreading := h.reading
    have hasked := h.asked
    simp only [EchoRun.Reading, hrecv] at hreading
    simp only [EchoRun.Asked, hrecv] at hasked
    obtain ⟨done, rest, pending, hunread, _, hdispatched⟩ := hreading
    have hlength : (st.wire.take n).length = n := List.length_take_of_le hwire
    have hfull := hunread.window.length_le
    rw [hunread.window.getWriteBufferSize] at hroom
    refine ⟨h.world, h.send, ?_, hasked, ?_, ?_, h.posted⟩
    · refine ⟨done, rest, pending ++ st.wire.take n, ⟨hunread.texts, ?_, ?_⟩, hdispatched⟩
      · have hfill : Window (st.buffer.fill (st.wire.take n)) (st.wire.take n).length
            (pending ++ st.wire.take n) := window_fill hunread.window (by omega)
        rwa [hlength] at hfill
      · rw [List.append_assoc, List.take_append_drop]
        exact hunread.stream
    · intro c
      have hheld := h.held c
      simp only [EchoRun.holds, EchoRun.made, hrecv] at hheld ⊢
      exact hheld
    · intro worker hworker
      cases hworker
      obtain ⟨thread, ht, hpc⟩ := (Option.any_eq_true _ _).mp hthread
      exact ⟨thread, ht, .inr (Option.isNone_iff_eq_none.mp hpc)⟩

/-! ### The steps of `Recv` -/

section
variable {poolSize : Nat} {texts : List (List Byte)} {st st' : EchoRun} {t : Nat}

theorem worker_free (h : EchoInv poolSize texts st) (hworker : st.recv.worker = some t)
    (hrecv : st.recv ≠ .makeSendPacket t) :
    ∃ thread, st.world.threads[t]? = some thread ∧ thread.pc.request = none := by
  obtain ⟨thread, ht, hpc⟩ := h.worker t hworker
  exact ⟨thread, ht, hpc.resolve_left hrecv⟩

theorem recvStep_call {st : EchoRun} {t : Nat} (hrecv : st.recv = .makeSendPacket t)
    {thread : MakeThread} {request : SendRequest} (ht : st.world.threads[t]? = some thread)
    (hcall : thread.pc.request = some request) :
    st.recvStep =
      (chunkStep st.world (.advance t)).map fun world => { st with world := world } := by
  obtain ⟨lSendBuffer, pc⟩ := thread
  simp only [EchoRun.recvStep, hrecv, ht, Option.bind_some]
  cases pc with
  | returned result => cases hcall
  | _ => rfl

theorem inserting_none {st : SendRun SendChunk}
    (h : ¬st.threads.any (·.inserting.isSome) = true) : st.inserting = [] := by
  rw [SendRun.inserting, List.filterMap_eq_nil_iff]
  intro pc hpc
  cases hinserting : pc.inserting with
  | none => rfl
  | some chunk =>
    refine absurd (List.any_eq_true.mpr ⟨pc, hpc, ?_⟩) h
    rw [hinserting]
    rfl

theorem dispatch_echo {text : List Byte} (h : text.length = 64) :
    PacketHandler.dispatch 0 (echoPacket text) = some (.echo text) :=
  if_pos h

theorem echoInv_divide (htexts : ∀ text ∈ texts, text.length = 64)
    (h : EchoInv poolSize texts st) {n : Nat} (hrecv : st.recv = .divideBuffer t n)
    (hstep : st.recvStep = some st') : EchoInv poolSize texts st' := by
  have hreading := h.reading
  have hasked := h.asked
  have hheld := h.held
  simp only [EchoRun.Reading, hrecv] at hreading
  simp only [EchoRun.Asked, hrecv] at hasked
  simp only [EchoRun.holds, EchoRun.made, hrecv] at hheld
  simp only [EchoRun.recvStep, hrecv] at hstep
  obtain ⟨done, rest, pending, hunread, hdispatched⟩ := hreading
  have hrest := hunread.lengths htexts
  by_cases hinc : packetFormat.Incomplete pending
  · obtain ⟨b', hdivide, hb'⟩ := divide_incomplete hunread.window hinc
    rw [requests_keep hrest hunread.stream] at hb'
    rw [hdivide] at hstep
    cases hstep
    exact ⟨h.world, h.send, ⟨done, rest, pending, ⟨hunread.texts, hb', hunread.stream⟩, hinc,
      hdispatched⟩, hasked, hheld, nofun, h.posted⟩
  · obtain ⟨b', hdivide, hb', hheader⟩ := divide_complete hunread.window hinc
    obtain ⟨text, others, rfl, hfirst, _⟩ := requests_first hrest hunread.stream hinc
    have hpacket := (packet_window hb' hinc hheader).1
    rw [hdivide] at hstep
    simp only [↓reduceIte, hpacket, hfirst, EchoRun.dispatch,
      dispatch_echo (hrest text List.mem_cons_self)] at hstep
    obtain ⟨world, hworld, rfl⟩ := Option.map_eq_some_iff.mp hstep
    obtain ⟨thread, ht, rfl⟩ := makeSendPacket_cases hworld
    have hcalled := move_self ht { thread with pc := .testBuffer (echoCall text) }
    refine ⟨.next _ h.world trivial hworld, h.send, ⟨done, text, others, pending,
      ⟨hunread.texts, hb', hunread.stream⟩, hinc, hheader, ?_⟩, ⟨_, echoCall text, hcalled,
      .inl rfl, hasked.1, ?_⟩, fun c => ?_, ?_, h.posted⟩
    · rw [List.map_append, hdispatched]
      rfl
    · rw [hasked.2, EchoRun.calls, EchoRun.calls, List.map_append]
      rfl
    · have hnone : (st.world.move t { thread with pc := .testBuffer (echoCall text) }).returned t =
          none := by rw [ChunkRun.returned, hcalled]
      simp only [EchoRun.holds, EchoRun.made, hnone]
      exact hheld c
    · rintro worker ⟨⟩
      exact ⟨_, hcalled, .inl rfl⟩

theorem echoInv_call (h : EchoInv poolSize texts st) (hrecv : st.recv = .makeSendPacket t)
    {thread : MakeThread} {request : SendRequest} (ht : st.world.threads[t]? = some thread)
    (hcall : thread.pc.request = some request) (hinserting : st.send.inserting = [])
    (hcalls : st.send.given.map (·.request) ++ [request] = st.calls) {world : ChunkRun}
    (hworld : chunkStep st.world (.advance t) = some world) :
    EchoInv poolSize texts { st with world := world } := by
  have hreaches := Reaches.next _ h.world trivial hworld
  obtain ⟨found, hfound, hadvance⟩ := Option.bind_eq_some_iff.mp hworld
  cases ht.symm.trans hfound
  have hheld := h.held
  have hbefore : st.world.returned t = none := by
    obtain ⟨lSendBuffer, pc⟩ := thread
    rw [ChunkRun.returned, ht]
    cases pc with
    | returned result => cases hcall
    | _ => rfl
  simp only [EchoRun.holds, EchoRun.made, hrecv, hbefore] at hheld
  have hafter : ∀ {moved : MakeThread}, world.threads[t]? = some moved →
      moved.pc.Answers request → (∀ c, st.send.holds c + (world.returned t).toList.count c ≤
        world.chunks.count c) → EchoInv poolSize texts { st with world := world } := by
    intro moved hmoved hanswers hcount
    refine ⟨hreaches, h.send, h.reading, ?_, fun c => ?_, ?_, h.posted⟩
    · simp only [EchoRun.Asked, hrecv]
      exact ⟨moved, request, hmoved, hanswers, hinserting, hcalls⟩
    · simp only [EchoRun.holds, EchoRun.made, hrecv]
      exact hcount c
    · intro worker hworker
      rw [hrecv] at hworker
      cases hworker
      exact ⟨moved, hmoved, .inl hrecv⟩
  cases callStep_of_advance ht hcall hadvance with
  | continues moved place call rank chunks =>
    refine hafter place (.inl call) fun c => ?_
    have hnone : world.returned t = none := by
      obtain ⟨lSendBuffer, pc⟩ := moved
      rw [ChunkRun.returned, place]
      cases pc with
      | returned result => cases call
      | _ => rfl
    rw [hnone, chunks]
    exact hheld c
  | fails lSendBuffer place chunks =>
    refine hafter place (.inr (.inl rfl)) fun c => ?_
    have hnone : world.returned t = none := by rw [ChunkRun.returned, place]
    rw [hnone, chunks]
    exact hheld c
  | returns lSendBuffer chunk place call chunks =>
    refine hafter place (.inr (.inr ⟨chunk, rfl, call⟩)) fun c => ?_
    have hsome : world.returned t = some chunk := by rw [ChunkRun.returned, place]
    have hc := hheld c
    simp only [Option.toList_none, List.count_nil, Nat.add_zero] at hc
    simp only [hsome, chunks, Option.toList_some, List.count_cons, List.count_nil]
    omega

theorem echoInv_made (h : EchoInv poolSize texts st) (hrecv : st.recv = .makeSendPacket t)
    {lSendBuffer : Option Nat} {chunk : SendChunk}
    (ht : st.world.threads[t]? = some ⟨lSendBuffer, .returned (some chunk)⟩)
    (hinserting : st.send.inserting = [])
    (hcalls : st.send.given.map (·.request) ++ [chunk.request] = st.calls) {send : SendRun SendChunk}
    (hsend : sendStep st.send (.call chunk) = some send) :
    EchoInv poolSize texts { st with send := send, recv := .insertSendQueue t } := by
  have hreaches : Reaches sendStep accepting .start send := .next (.call chunk) h.send trivial hsend
  cases Option.some.inj hsend
  have hreading := h.reading
  have hheld := h.held
  have hsome : st.world.returned t = some chunk := by rw [ChunkRun.returned, ht]
  simp only [EchoRun.Reading, hrecv] at hreading
  simp only [EchoRun.holds, EchoRun.made, hrecv, hsome] at hheld
  have hnow : (st.send.threads ++ [SendPc.insertSendQueue chunk]).filterMap SendPc.inserting =
      [chunk] := by
    rw [List.filterMap_append]
    exact congrArg (· ++ [chunk]) hinserting
  refine ⟨h.world, hreaches, hreading, ⟨?_, ?_⟩, fun c => ?_, ?_, h.posted⟩
  · exact Nat.le_of_eq (congrArg List.length hnow)
  · have hgiven : st.send.enqueued.map (·.request) = st.send.given.map (·.request) := by
      rw [SendRun.given, hinserting, List.append_nil]
    change (st.send.enqueued ++ (st.send.threads ++ [SendPc.insertSendQueue chunk]).filterMap
      SendPc.inserting).map (·.request) = st.calls
    rw [hnow, List.map_append, hgiven]
    exact hcalls
  · have hc := hheld c
    simp only [Option.toList_some] at hc
    have hone : SendPc.holds c (.insertSendQueue chunk) = [chunk].count c := rfl
    simp only [EchoRun.holds, EchoRun.made, SendRun.holds, total_append, total_cons, total_nil, hone,
      Option.toList_none, List.count_nil] at hc ⊢
    omega
  · rintro worker ⟨⟩
    exact ⟨_, ht, .inr rfl⟩

theorem echoInv_make (h : EchoInv poolSize texts st) (hrecv : st.recv = .makeSendPacket t)
    (hok : unfailing st .recv = true) (hstep : st.recvStep = some st') :
    EchoInv poolSize texts st' := by
  have hasked := h.asked
  simp only [EchoRun.Asked, hrecv] at hasked
  obtain ⟨thread, request, ht, hanswers, hinserting, hcalls⟩ := hasked
  rcases hanswers with hcall | hfailed | ⟨chunk, hchunk, hrequest⟩
  · rw [recvStep_call hrecv ht hcall] at hstep
    obtain ⟨world, hworld, rfl⟩ := Option.map_eq_some_iff.mp hstep
    exact echoInv_call h hrecv ht hcall hinserting hcalls hworld
  · simp [unfailing, hrecv, ht, hfailed] at hok
  · obtain ⟨lSendBuffer, pc⟩ := thread
    obtain rfl : pc = .returned (some chunk) := hchunk
    simp only [EchoRun.recvStep, hrecv, ht, Option.bind_some] at hstep
    obtain ⟨send, hsend, rfl⟩ := Option.map_eq_some_iff.mp hstep
    exact echoInv_made h hrecv ht hinserting (hrequest ▸ hcalls) hsend

theorem echoInv_insert (h : EchoInv poolSize texts st) (hrecv : st.recv = .insertSendQueue t)
    (hstep : st.recvStep = some st') : EchoInv poolSize texts st' := by
  have hreading := h.reading
  have hasked := h.asked
  have hheld := h.held
  simp only [EchoRun.Reading, hrecv] at hreading
  simp only [EchoRun.Asked, hrecv] at hasked
  simp only [EchoRun.holds, EchoRun.made, hrecv] at hheld
  simp only [EchoRun.recvStep, hrecv] at hstep
  split at hstep
  case isTrue => cases hstep
  case isFalse hnone =>
    cases hstep
    refine ⟨h.world, h.send, hreading, ⟨inserting_none hnone, hasked.2⟩, hheld, ?_, h.posted⟩
    rintro worker ⟨⟩
    obtain ⟨thread, ht, hfree⟩ := worker_free h (by rw [hrecv]; rfl) (by simp [hrecv])
    exact ⟨thread, ht, .inr hfree⟩

theorem echoInv_setReadPos (htexts : ∀ text ∈ texts, text.length = 64)
    (h : EchoInv poolSize texts st) (hrecv : st.recv = .setReadPos t)
    (hstep : st.recvStep = some st') : EchoInv poolSize texts st' := by
  have hreading := h.reading
  have hasked := h.asked
  have hheld := h.held
  simp only [EchoRun.Reading, hrecv] at hreading
  simp only [EchoRun.Asked, hrecv] at hasked
  simp only [EchoRun.holds, EchoRun.made, hrecv] at hheld
  simp only [EchoRun.recvStep, hrecv] at hstep
  cases hstep
  obtain ⟨done, text, rest, pending, hunread, hcomplete, hheader, hdispatched⟩ := hreading
  have hlength := (packet_window hunread.window hcomplete hheader).2
  obtain ⟨_, _, heq, _, hstream⟩ := requests_first (hunread.lengths htexts) hunread.stream hcomplete
  cases heq
  refine ⟨h.world, h.send, ⟨done ++ [text], rest, _, ⟨?_, ?_, hstream⟩, hdispatched⟩, hasked,
    hheld, ?_, h.posted⟩
  · rw [hunread.texts, List.append_assoc]
    rfl
  · rw [hlength]
    exact setReadPos_window hunread.window (packetFormat.frameLength_pos pending)
      (packetFormat.frameLength_le hcomplete)
  · rintro worker ⟨⟩
    obtain ⟨thread, ht, hfree⟩ := worker_free h (by rw [hrecv]; rfl) (by simp [hrecv])
    exact ⟨thread, ht, .inr hfree⟩

theorem echoInv_recv (htexts : ∀ text ∈ texts, text.length = 64) (h : EchoInv poolSize texts st)
    (hok : unfailing st .recv = true) (hstep : st.recvStep = some st') :
    EchoInv poolSize texts st' := by
  cases hrecv : st.recv with
  | waiting | rejected =>
    simp only [EchoRun.recvStep, hrecv] at hstep
    cases hstep
  | divideBuffer t n => exact echoInv_divide htexts h hrecv hstep
  | makeSendPacket t => exact echoInv_make h hrecv hok hstep
  | insertSendQueue t => exact echoInv_insert h hrecv hstep
  | setReadPos t => exact echoInv_setReadPos htexts h hrecv hstep

/-! ### The other steps -/

theorem held_bytes (h : EchoInv poolSize texts st) {c : SendChunk} (hc : 0 < st.send.holds c) :
    c.bytes st.world.buffers = c.packet := by
  have hheld := h.held c
  have hlive : c ∈ st.world.chunks := by
    apply List.count_pos_iff.mp
    unfold EchoRun.holds at hheld
    omega
  have hledger := ledger_reaches h.world
  exact (hledger.exact _ c (hledger.recorded c hlive)).2.bytes

theorem asked_send (h : st.Asked) {send : SendRun SendChunk} {posted : List Byte}
    (hgiven : st.send.inserting.length ≤ 1 → send.given = st.send.given ∧
      send.inserting.length ≤ st.send.inserting.length) :
    EchoRun.Asked { st with send := send, posted := posted } := by
  have hnone : st.send.inserting = [] → send.inserting = [] ∧ send.given = st.send.given := by
    intro hinserting
    rw [hinserting] at hgiven
    obtain ⟨hsame, hle⟩ := hgiven (Nat.zero_le 1)
    exact ⟨List.length_eq_zero_iff.mp (Nat.le_zero.mp hle), hsame⟩
  cases hrecv : st.recv with
  | makeSendPacket t =>
    simp only [EchoRun.Asked, hrecv] at h ⊢
    obtain ⟨thread, request, ht, hanswers, hinserting, hcalls⟩ := h
    obtain ⟨hinserting, hsame⟩ := hnone hinserting
    exact ⟨thread, request, ht, hanswers, hinserting, hsame ▸ hcalls⟩
  | insertSendQueue t =>
    simp only [EchoRun.Asked, hrecv] at h ⊢
    obtain ⟨hsame, hle⟩ := hgiven h.1
    exact ⟨Nat.le_trans hle h.1, hsame ▸ h.2⟩
  | _ =>
    simp only [EchoRun.Asked, hrecv] at h ⊢
    obtain ⟨hinserting, hsame⟩ := hnone h.1
    exact ⟨hinserting, hsame ▸ h.2⟩

theorem posted_sendBy (h : EchoInv poolSize texts st) {i : Nat} {pc : SendPc SendChunk}
    (hi : st.send.threads[i]? = some pc) :
    st.posted ++ st.postedBy (.advance i true) =
      (st.send.advance i true pc).posted.flatMap SendChunk.packet := by
  cases pc with
  | post =>
    have hbytes : st.send.session.sendChunks.flatMap (·.bytes st.world.buffers) =
        st.send.session.sendChunks.flatMap SendChunk.packet := by
      apply List.flatMap_congr
      intro c hmem
      apply held_bytes h
      have hcount := List.count_pos_iff.mpr hmem
      unfold SendRun.holds
      omega
    rw [EchoRun.postedBy, if_pos hi, hbytes, h.posted, ← List.flatMap_append]
    rfl
  | _ =>
    rw [EchoRun.postedBy, hi, if_neg (by simp), List.append_nil]
    exact h.posted

theorem echoInv_advance (h : EchoInv poolSize texts st) {i : Nat}
    (hstep : st.sendBy (.advance i true) = some st') : EchoInv poolSize texts st' := by
  obtain ⟨send, hsend, rfl⟩ := Option.map_eq_some_iff.mp hstep
  have hok : accepting st.send (.advance i true) := rfl
  have hreaches := Reaches.next _ h.send hok hsend
  obtain ⟨pc, hi, rfl⟩ := Option.map_eq_some_iff.mp hsend
  refine ⟨h.world, hreaches, h.reading, ?_, fun c => ?_, h.worker, posted_sendBy h hi⟩
  · exact asked_send h.asked fun hone => given_advance hone hi true
  · have hheld := h.held c
    have hadvance := holds_advance st.send hi true c
    exact Nat.le_trans (Nat.add_le_add_right hadvance _) hheld

theorem echoInv_complete (h : EchoInv poolSize texts st) {k : Nat}
    (hstep : st.sendBy (.complete k true) = some st') : EchoInv poolSize texts st' := by
  obtain ⟨send, hsend, rfl⟩ := Option.map_eq_some_iff.mp hstep
  have hok : accepting st.send (.complete k true) := rfl
  have hreaches := Reaches.next _ h.send hok hsend
  simp only [sendStep] at hsend
  split at hsend
  case isFalse => cases hsend
  case isTrue =>
    cases hsend
    refine ⟨h.world, hreaches, h.reading, ?_, fun c => ?_, h.worker, ?_⟩
    · refine asked_send h.asked fun _ => ?_
      have hsame : (st.send.threads ++ [SendPc.execute]).filterMap SendPc.inserting =
          st.send.inserting := by
        rw [List.filterMap_append]
        exact List.append_nil _
      exact ⟨congrArg (st.send.enqueued ++ ·) hsame, Nat.le_of_eq (congrArg List.length hsame)⟩
    · have hheld := h.held c
      have hsame := holds_complete st.send k true c
      unfold EchoRun.holds at hheld ⊢
      rw [← hsame] at hheld
      exact hheld
    · exact (List.append_nil _).trans h.posted

theorem leaves_worker {act : ChunkAct} (h : st.leaves act = true) (hworker : st.recv.worker = some t) :
    act.thread? ≠ some t := by
  intro hthread
  cases act with
  | makeSendPacket | advance | exit =>
    cases hthread
    simp [EchoRun.leaves, ChunkAct.thread?, hworker] at h
  | _ => cases hthread

theorem count_other {act : ChunkAct} {world : ChunkRun} (hleaves : st.leaves act = true)
    (hworld : chunkStep st.world act = some world) {c : SendChunk}
    (hheld : st.holds c ≤ st.world.chunks.count c) : st.holds c ≤ world.chunks.count c := by
  by_cases hdrop : ∃ k, act = .dropChunk k
  · obtain ⟨k, rfl⟩ := hdrop
    obtain ⟨chunk, hk, rfl⟩ := Option.map_eq_some_iff.mp hworld
    rw [dropped_chunks]
    have hspare : st.holds chunk < st.world.chunks.count chunk := by
      simpa [EchoRun.leaves, hk] using hleaves
    obtain ⟨hlt, hchunk⟩ := List.getElem?_eq_some_iff.mp hk
    have hperm := (List.getElem_cons_eraseIdx_perm hlt).count_eq c
    rw [hchunk, List.count_cons] at hperm
    by_cases heq : chunk = c
    · subst heq
      rw [beq_self_eq_true, if_pos rfl] at hperm
      change _ ≤ (st.world.chunks.eraseIdx k).count chunk
      omega
    · rw [if_neg (by simpa using heq)] at hperm
      change _ ≤ (st.world.chunks.eraseIdx k).count c
      omega
  · exact Nat.le_trans hheld (count_step hworld (fun k heq => hdrop ⟨k, heq⟩) c)

theorem echoInv_other (h : EchoInv poolSize texts st) {act : ChunkAct}
    (hstep : echoStep st (.other act) = some st') : EchoInv poolSize texts st' := by
  simp only [echoStep] at hstep
  split at hstep
  case isFalse => cases hstep
  case isTrue hleaves =>
    obtain ⟨world, hworld, rfl⟩ := Option.map_eq_some_iff.mp hstep
    have hstays : ∀ {t thread}, st.recv.worker = some t → st.world.threads[t]? = some thread →
        world.threads[t]? = some thread := fun hworker ht =>
      thread_stays hworld ht (leaves_worker hleaves hworker)
    have hasked := h.asked
    refine ⟨.next _ h.world trivial hworld, h.send, h.reading, ?_, fun c => ?_, ?_, h.posted⟩
    · cases hrecv : st.recv with
      | makeSendPacket t =>
        simp only [EchoRun.Asked, hrecv] at hasked ⊢
        obtain ⟨thread, request, ht, hrest⟩ := hasked
        exact ⟨thread, request, hstays (by rw [hrecv]; rfl) ht, hrest⟩
      | _ =>
        simp only [EchoRun.Asked, hrecv] at hasked ⊢
        exact hasked
    · have hmade : EchoRun.made { st with world := world } = st.made := by
        cases hrecv : st.recv with
        | makeSendPacket t =>
          simp only [EchoRun.Asked, hrecv] at hasked
          obtain ⟨thread, request, ht, _⟩ := hasked
          have hnow := hstays (by rw [hrecv]; rfl) ht
          simp only [EchoRun.made, hrecv, ChunkRun.returned, ht, hnow]
        | _ => simp only [EchoRun.made, hrecv]
      have hcount := count_other hleaves hworld (h.held c)
      unfold EchoRun.holds at hcount ⊢
      rw [hmade]
      exact hcount
    · intro t hworker
      obtain ⟨thread, ht, hpc⟩ := h.worker t hworker
      exact ⟨thread, hstays hworker ht, hpc⟩

theorem echoInv_step (htexts : ∀ text ∈ texts, text.length = 64) (h : EchoInv poolSize texts st)
    {act : EchoAct} (hok : unfailing st act = true) (hstep : echoStep st act = some st') :
    EchoInv poolSize texts st' := by
  cases act with
  | receive t n => exact echoInv_receive h hstep
  | recv => exact echoInv_recv htexts h hok hstep
  | advance i accepted =>
    obtain rfl : accepted = true := hok
    exact echoInv_advance h hstep
  | complete i success =>
    obtain rfl : success = true := hok
    exact echoInv_complete h hstep
  | other act => exact echoInv_other h hstep

theorem echoInv_reaches (htexts : ∀ text ∈ texts, text.length = 64)
    (h : Reaches echoStep (fun st act => unfailing st act = true)
      (.start poolSize (requests texts)) st) : EchoInv poolSize texts st :=
  h.invariant (echoInv_start poolSize texts) fun _ _ _ _ hinv hok hstep =>
    echoInv_step htexts hinv hok hstep

end

end RoomServer
