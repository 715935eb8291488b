import RoomServer.EchoInvariant
import RoomServer.ReceiveRounds

/-! Echo is the identity on the requests: what is posted is always the replies to the
first of them, the session's own steps come to an end, and then it is all of them. -/
namespace RoomServer
open Library.Framing Library.Transition Library.Threads ChunkRun

/-! ### What is posted -/

theorem dispatched_requests {texts : List (List Byte)} {st : EchoRun} (h : st.Reading texts) :
    ∃ done rest, texts = done ++ rest ∧ st.dispatched = done.map echoPacket := by
  unfold EchoRun.Reading at h
  split at h
  · obtain ⟨done, rest, _, hunread, _, hdispatched⟩ := h
    exact ⟨done, rest, hunread.texts, hdispatched⟩
  · obtain ⟨done, rest, _, hunread, hdispatched⟩ := h
    exact ⟨done, rest, hunread.texts, hdispatched⟩
  iterate 3
    obtain ⟨done, text, rest, _, hunread, _, _, hdispatched⟩ := h
    refine ⟨done ++ [text], rest, ?_, hdispatched⟩
    rw [hunread.texts, List.append_assoc]
    rfl
  · contradiction

theorem calls_requests {done : List (List Byte)} {st : EchoRun}
    (h : st.dispatched = done.map echoPacket) : st.calls = done.map echoCall := by
  rw [EchoRun.calls, h, List.map_map]
  rfl

theorem given_requests {texts : List (List Byte)} {st : EchoRun} (hreading : st.Reading texts)
    (hasked : st.Asked) : ∃ rest, texts.map echoCall = st.send.given.map (·.request) ++ rest := by
  obtain ⟨done, rest, htexts, hdispatched⟩ := dispatched_requests hreading
  have hcalls := calls_requests hdispatched
  rw [htexts, List.map_append, ← hcalls]
  unfold EchoRun.Asked at hasked
  split at hasked
  · obtain ⟨_, request, _, _, _, hrequests⟩ := hasked
    exact ⟨[request] ++ rest.map echoCall, by rw [← hrequests, List.append_assoc]⟩
  · exact ⟨rest.map echoCall, by rw [hasked.2]⟩
  · exact ⟨rest.map echoCall, by rw [hasked.2]⟩

theorem packets_replies {chunks : List SendChunk} {texts : List (List Byte)}
    (htexts : ∀ text ∈ texts, text.length = 64)
    (h : chunks.map (·.request) = texts.map echoCall) :
    chunks.flatMap SendChunk.packet = replies texts := by
  induction chunks generalizing texts with
  | nil =>
    cases texts with
    | nil => rfl
    | cons text rest => cases h
  | cons chunk chunks ih =>
    cases texts with
    | nil => cases h
    | cons text rest =>
      rw [List.forall_mem_cons] at htexts
      rw [List.map_cons, List.map_cons, List.cons.injEq] at h
      have hpacket : chunk.packet = packetBytes .SERVER_ECHO text := by
        rw [SendChunk.packet, SendChunk.body, h.1]
        exact congrArg (packetBytes PacketType.SERVER_ECHO)
          (List.take_of_length_le (Nat.le_of_eq htexts.1))
      rw [List.flatMap_cons, hpacket, ih htexts.2 h.2]
      rfl

structure EchoRun.Done (st : EchoRun) : Prop where
  recv : st.recv = .waiting
  wire : st.wire = []
  threads : st.send.threads = []
  outstanding : st.send.outstanding = []

section
variable {poolSize : Nat} {texts : List (List Byte)} {st : EchoRun}

theorem posted_in_order (htexts : ∀ text ∈ texts, text.length = 64)
    (h : EchoInv poolSize texts st) : ∃ n, st.posted = replies (texts.take n) := by
  have horder := (sendInv_reaches h.send.any).order (sendLive_reaches h.send).refusedOnce
  obtain ⟨rest, hgiven⟩ := given_requests h.reading h.asked
  refine ⟨st.send.posted.length, ?_⟩
  rw [h.posted]
  apply packets_replies (fun text hmem => htexts text (List.mem_of_mem_take hmem))
  have htake := congrArg (List.take st.send.posted.length) hgiven
  rw [← List.map_take, SendRun.given, ← horder] at htake
  rw [htake]
  simp

theorem posted_at_rest {send : SendRun SendChunk} (h : Reaches sendStep accepting .start send)
    (hthreads : send.threads = []) (houtstanding : send.outstanding = []) :
    send.posted = send.enqueued := by
  have hlive := sendLive_reaches h
  have horder := (sendInv_reaches h.any).order hlive.refusedOnce
  have hflag : send.session.sendFlag = false := by
    have htoken := hlive.token
    rw [SendRun.tokens, hthreads, houtstanding] at htoken
    cases hflag : send.session.sendFlag with
    | false => rfl
    | true =>
      rw [hflag] at htoken
      cases htoken
  rwa [SendRun.drained, hthreads, hlive.idle hflag, List.any_nil, if_neg Bool.false_ne_true,
    List.append_nil, List.append_nil] at horder

theorem posted_all (htexts : ∀ text ∈ texts, text.length = 64) (h : EchoInv poolSize texts st)
    (hdone : st.Done) : st.posted = replies texts := by
  have hreading := h.reading
  have hasked := h.asked
  simp only [EchoRun.Reading, hdone.recv] at hreading
  simp only [EchoRun.Asked, hdone.recv] at hasked
  obtain ⟨done, rest, pending, hunread, hincomplete, hdispatched⟩ := hreading
  have hstream := hunread.stream
  rw [hdone.wire, List.append_nil] at hstream
  have hnil : rest = [] :=
    requests_nil_of_incomplete (hunread.lengths htexts) hstream hincomplete
  have hwhole : texts = done := by rw [hunread.texts, hnil, List.append_nil]
  rw [h.posted, posted_at_rest h.send hdone.threads hdone.outstanding]
  apply packets_replies htexts
  rw [hwhole, ← calls_requests hdispatched, ← hasked.2, SendRun.given, hasked.1, List.append_nil]

end
/-! ### The session comes to an end -/

/-- A bound on the steps that a thread has before it, until it queues, posts or ends. -/
def SendPc.work : SendPc γ → Nat
  | .insertSendQueue _ => 11
  | .send => 2
  | .drain => 1
  | .testEmpty => 7
  | .post => 6
  | .execute => 4
  | .checkSendComplete => 3
  | .refused | .releaseFlag | .failed => 0

/-- A queued chunk stands for the `Send` that is to take it, and a posted one for its completion. -/
def SendRun.work (st : SendRun γ) : Nat :=
  total SendPc.work st.threads + 8 * st.session.sendQueue.length + 5 * st.outstanding.length

theorem work_advance {st : SendRun γ} (hinv : SendInv st) (hlive : SendLive st) {i : Nat}
    {pc : SendPc γ} (hi : st.threads[i]? = some pc) : (st.advance i true pc).work < st.work := by
  have hmem := List.mem_of_getElem? hi
  have hfact := hinv.facts pc hmem
  have hregular := hlive.regular pc hmem
  have hmove := total_splice SendPc.work (pc.next st.session true).2 hi
  rw [SendRun.work, SendRun.work, threads_advance, session_advance]
  cases pc with
  | insertSendQueue sendChunk =>
    cases hflag : st.session.sendFlag with
    | true =>
      simp only [SendPc.next, SendState.insertSendQueue_busy hflag, Bool.false_eq_true, ↓reduceIte,
        SendRun.advance, SendPc.work, total_nil, List.length_append, List.length_singleton] at hmove ⊢
      omega
    | false =>
      simp only [SendPc.next, SendState.insertSendQueue_idle hflag, ↓reduceIte, SendRun.advance,
        SendPc.work, total_nil, total_cons, List.length_append, List.length_singleton] at hmove ⊢
      omega
  | send =>
    simp only [SendPc.next, SendState.clear, SendRun.advance, SendPc.work, total_nil,
      total_cons] at hmove ⊢
    omega
  | drain =>
    have hlength := List.length_pos_iff.mpr hfact.1
    simp only [SendPc.next, SendState.drain_eq, SendRun.advance, SendPc.work, total_nil, total_cons,
      List.length_nil] at hmove ⊢
    omega
  | testEmpty =>
    simp only [SendPc.next, SendState.testEmpty_full hfact, Bool.false_eq_true, ↓reduceIte,
      SendRun.advance, SendPc.work, total_nil, total_cons] at hmove ⊢
    omega
  | post =>
    simp only [SendPc.next, ↓reduceIte, SendRun.advance, SendPc.work, total_nil, List.length_append,
      List.length_singleton] at hmove ⊢
    omega
  | refused | releaseFlag | failed => cases hregular
  | execute =>
    simp only [SendPc.next, SendState.clear, SendRun.advance, SendPc.work, total_nil,
      total_cons] at hmove ⊢
    omega
  | checkSendComplete =>
    by_cases hqueue : st.session.sendQueue = []
    · simp only [SendPc.next, SendState.checkSendComplete_empty hqueue, Bool.false_eq_true,
        ↓reduceIte, SendRun.advance, SendPc.work, total_nil] at hmove ⊢
      omega
    · simp only [SendPc.next, SendState.checkSendComplete_full hqueue, ↓reduceIte, SendRun.advance,
        SendPc.work, total_nil, total_cons] at hmove ⊢
      omega

namespace EchoRun

/-- The same for `Recv`, with the steps of its chunk on the send side. -/
def recvWork (st : EchoRun) : Nat :=
  match st.recv with
  | .waiting | .rejected => 0
  | .divideBuffer _ _ => 1
  | .makeSendPacket t => 15 + (st.world.threads[t]?.elim 0 fun thread => thread.pc.rank)
  | .insertSendQueue _ => 3
  | .setReadPos _ => 2

/-- Every byte on the wire stands for a receive, and every packet to come for all its steps. -/
def work (total : Nat) (st : EchoRun) : Nat :=
  2 * st.wire.length + 40 * (total - st.dispatched.length) + st.recvWork + st.send.work

end EchoRun

def EchoAct.own : EchoAct → Bool
  | .other _ => false
  | _ => true

section
variable {poolSize : Nat} {texts : List (List Byte)} {st st' : EchoRun}

theorem dispatched_le (h : EchoInv poolSize texts st) : st.dispatched.length ≤ texts.length := by
  obtain ⟨done, rest, htexts, hdispatched⟩ := dispatched_requests h.reading
  rw [hdispatched, htexts, List.length_map, List.length_append]
  omega

theorem rank_pos {pc : MakePc} {request : SendRequest} (h : pc.request = some request) :
    0 < pc.rank := by
  cases pc with
  | returned result => cases h
  | testBuffer called => exact Nat.succ_pos 6
  | getSendBuffer called retry | assign called retry sendBuffer | copyBuffer called retry =>
    cases retry <;> exact Nat.succ_pos _

theorem dispatch_cases {packet : Packet} {t : Nat} (hstep : st.dispatch t packet = some st') :
    st' = { st with recv := .rejected } ∨
      ∃ text thread, st.world.threads[t]? = some thread ∧
        st' = { st with
          world := st.world.move t { thread with pc := .testBuffer (echoCall text) }
          recv := .makeSendPacket t } := by
  unfold EchoRun.dispatch at hstep
  split at hstep
  · exact .inl (Option.some.inj hstep).symm
  · obtain ⟨world, hworld, rfl⟩ := Option.map_eq_some_iff.mp hstep
    obtain ⟨thread, ht, rfl⟩ := makeSendPacket_cases hworld
    exact .inr ⟨_, thread, ht, rfl⟩
  · cases hstep

theorem work_divide (h' : EchoInv poolSize texts st') {t n : Nat}
    (hrecv : st.recv = .divideBuffer t n) (hstep : st.recvStep = some st') :
    st'.work texts.length < st.work texts.length := by
  have hle := dispatched_le h'
  have hwork : st.recvWork = 1 := by simp only [EchoRun.recvWork, hrecv]
  simp only [EchoRun.recvStep, hrecv] at hstep
  split at hstep
  case isFalse =>
    cases hstep
    simp only [EchoRun.work, hwork]
    simp only [EchoRun.recvWork]
    omega
  case isTrue =>
    obtain ⟨buffer, packet, hstep⟩ : ∃ buffer packet, EchoRun.dispatch { st with
        buffer := buffer
        recv := .divideBuffer t n
        dispatched := st.dispatched ++ [packet] } t packet = some st' := ⟨_, _, hstep⟩
    rcases dispatch_cases hstep with rfl | ⟨text, thread, ht, rfl⟩
    · simp only [EchoRun.work, hwork, List.length_append, List.length_singleton] at hle ⊢
      simp only [EchoRun.recvWork]
      omega
    · simp only [EchoRun.work, hwork, List.length_append, List.length_singleton] at hle ⊢
      simp only [EchoRun.recvWork, move_self ht, Option.elim_some, MakePc.rank]
      omega

theorem work_make (h : EchoInv poolSize texts st) {t : Nat} (hrecv : st.recv = .makeSendPacket t)
    (hok : unfailing st .recv = true) (hstep : st.recvStep = some st') :
    st'.work texts.length < st.work texts.length := by
  have hasked := h.asked
  simp only [EchoRun.Asked, hrecv] at hasked
  obtain ⟨thread, request, ht, hanswers, _, _⟩ := hasked
  have hwork : st.recvWork = 15 + thread.pc.rank := by
    simp only [EchoRun.recvWork, hrecv, ht, Option.elim_some]
  rcases hanswers with hcall | hfailed | ⟨chunk, hchunk, _⟩
  · rw [recvStep_call hrecv ht hcall] at hstep
    obtain ⟨world, hworld, rfl⟩ := Option.map_eq_some_iff.mp hstep
    obtain ⟨found, hfound, hadvance⟩ := Option.bind_eq_some_iff.mp hworld
    cases ht.symm.trans hfound
    have hpos := rank_pos hcall
    have hless : ∀ {moved : MakeThread}, world.threads[t]? = some moved →
        moved.pc.rank < thread.pc.rank →
        EchoRun.work texts.length { st with world := world } < st.work texts.length := by
      intro moved hmoved hrank
      have hnow : EchoRun.recvWork { st with world := world } = 15 + moved.pc.rank := by
        simp only [EchoRun.recvWork, hrecv, hmoved, Option.elim_some]
      simp only [EchoRun.work, hwork, hnow]
      omega
    cases callStep_of_advance ht hcall hadvance with
    | continues moved place call rank chunks => exact hless place rank
    | fails lSendBuffer place chunks => exact hless place hpos
    | returns lSendBuffer chunk place call chunks => exact hless place hpos
  · simp [unfailing, hrecv, ht, hfailed] at hok
  · obtain ⟨lSendBuffer, pc⟩ := thread
    obtain rfl : pc = .returned (some chunk) := hchunk
    simp only [EchoRun.recvStep, hrecv, ht, Option.bind_some] at hstep
    obtain ⟨send, hsend, rfl⟩ := Option.map_eq_some_iff.mp hstep
    cases Option.some.inj hsend
    simp only [EchoRun.work, hwork, SendRun.work, total_append, total_cons, total_nil, SendPc.work]
    simp only [EchoRun.recvWork]
    omega

theorem work_recv (h : EchoInv poolSize texts st) (h' : EchoInv poolSize texts st')
    (hok : unfailing st .recv = true) (hstep : st.recvStep = some st') :
    st'.work texts.length < st.work texts.length := by
  cases hrecv : st.recv with
  | waiting | rejected =>
    simp only [EchoRun.recvStep, hrecv] at hstep
    cases hstep
  | divideBuffer t n => exact work_divide h' hrecv hstep
  | makeSendPacket t => exact work_make h hrecv hok hstep
  | insertSendQueue t =>
    have hwork : st.recvWork = 3 := by simp only [EchoRun.recvWork, hrecv]
    simp only [EchoRun.recvStep, hrecv] at hstep
    split at hstep
    · cases hstep
    · cases hstep
      simp only [EchoRun.work, hwork]
      simp only [EchoRun.recvWork]
      omega
  | setReadPos t =>
    have hwork : st.recvWork = 2 := by simp only [EchoRun.recvWork, hrecv]
    simp only [EchoRun.recvStep, hrecv] at hstep
    cases hstep
    simp only [EchoRun.work, hwork]
    simp only [EchoRun.recvWork]
    omega

theorem work_receive {t n : Nat} (hstep : echoStep st (.receive t n) = some st') :
    st'.work texts.length < st.work texts.length := by
  simp only [echoStep] at hstep
  split at hstep
  case isFalse => cases hstep
  case isTrue henabled =>
    cases hstep
    obtain ⟨hrecv, _, hpos, hwire, _⟩ := henabled
    have hwork : st.recvWork = 0 := by simp only [EchoRun.recvWork, hrecv]
    simp only [EchoRun.work, hwork, List.length_drop]
    simp only [EchoRun.recvWork]
    omega

/-- What other threads do is no step towards the end, and none away from it. -/
theorem work_other {act : ChunkAct} (hstep : echoStep st (.other act) = some st')
    (h : EchoInv poolSize texts st) : st'.work texts.length = st.work texts.length := by
  simp only [echoStep] at hstep
  split at hstep
  case isFalse => cases hstep
  case isTrue hleaves =>
    obtain ⟨world, hworld, rfl⟩ := Option.map_eq_some_iff.mp hstep
    have hsame : EchoRun.recvWork { st with world := world } = st.recvWork := by
      cases hrecv : st.recv with
      | makeSendPacket t =>
        have hworker : st.recv.worker = some t := by rw [hrecv]; rfl
        obtain ⟨thread, ht, _⟩ := h.worker t hworker
        have hnow := thread_stays hworld ht (leaves_worker hleaves hworker)
        simp only [EchoRun.recvWork, hrecv, ht, hnow]
      | _ => simp only [EchoRun.recvWork, hrecv]
    simp only [EchoRun.work, hsame]

theorem work_step (h : EchoInv poolSize texts st) (h' : EchoInv poolSize texts st') {act : EchoAct}
    (hok : unfailing st act = true) (hstep : echoStep st act = some st') :
    st'.work texts.length + (if act.own then 1 else 0) ≤ st.work texts.length := by
  cases act with
  | receive t n => exact work_receive hstep
  | recv => exact work_recv h h' hok hstep
  | advance i accepted =>
    obtain rfl : accepted = true := hok
    obtain ⟨send, hsend, rfl⟩ := Option.map_eq_some_iff.mp hstep
    obtain ⟨pc, hi, rfl⟩ := Option.map_eq_some_iff.mp hsend
    have hless := work_advance (sendInv_reaches h.send.any) (sendLive_reaches h.send) hi
    simp only [EchoAct.own, ↓reduceIte, EchoRun.work, EchoRun.recvWork]
    omega
  | complete k success =>
    obtain rfl : success = true := hok
    obtain ⟨send, hsend, rfl⟩ := Option.map_eq_some_iff.mp hstep
    simp only [sendStep] at hsend
    split at hsend
    case isFalse => cases hsend
    case isTrue hk =>
      cases hsend
      simp only [EchoAct.own, ↓reduceIte, EchoRun.work, EchoRun.recvWork, SendRun.work, total_append,
        total_cons, total_nil, SendPc.work, List.length_eraseIdx_of_lt hk]
      omega
  | other act => exact Nat.le_of_eq (work_other hstep h)

/-- The session can take no more steps than its work, whatever others do between them. -/
theorem work_run (htexts : ∀ text ∈ texts, text.length = 64) (h : EchoInv poolSize texts st)
    {acts : List EchoAct}
    (hrun : run (guarded echoStep fun st act => unfailing st act = true) st acts = some st') :
    st'.work texts.length + acts.countP EchoAct.own ≤ st.work texts.length := by
  induction acts generalizing st with
  | nil =>
    cases hrun
    exact Nat.le_refl _
  | cons act rest ih =>
    obtain ⟨middle, hguarded, hrest⟩ := Option.bind_eq_some_iff.mp hrun
    obtain ⟨hok, hstep⟩ := guarded_eq_some hguarded
    have hinv := echoInv_step htexts h hok hstep
    have hless := work_step h hinv hok hstep
    have hbound := ih hinv hrest
    rw [List.countP_cons]
    omega

end
/-! ### The session is never stuck -/

namespace ChunkRun

theorem ready_step {st st' : ChunkRun} {act : ChunkAct} (hstep : chunkStep st act = some st')
    {other : MakeThread} (hmem : other ∈ st'.threads) : other ∈ st.threads ∨ other.Ready := by
  cases act with
  | thread =>
    cases hstep
    rcases List.mem_append.mp hmem with hmem | hmem
    · exact .inl hmem
    · cases List.mem_singleton.mp hmem
      exact .inr nofun
  | makeSendPacket t request =>
    obtain ⟨thread, _, rfl⟩ := makeSendPacket_cases hstep
    rcases List.mem_or_eq_of_mem_set hmem with hmem | rfl
    · exact .inl hmem
    · exact .inr nofun
  | advance t =>
    obtain ⟨thread, _, hstep⟩ := Option.bind_eq_some_iff.mp hstep
    obtain ⟨moved, hthreads, hready⟩ := advance_moves hstep
    rw [hthreads] at hmem
    rcases List.mem_or_eq_of_mem_set hmem with hmem | rfl
    · exact .inl hmem
    · exact .inr hready
  | copyChunk k =>
    obtain ⟨chunk, _, rfl⟩ := Option.map_eq_some_iff.mp hstep
    exact .inl hmem
  | dropChunk k =>
    obtain ⟨chunk, _, rfl⟩ := Option.map_eq_some_iff.mp hstep
    rw [dropped_threads] at hmem
    exact .inl hmem
  | push k =>
    obtain ⟨b, _, rfl⟩ := Option.map_eq_some_iff.mp hstep
    rw [push_threads] at hmem
    exact .inl hmem
  | exit t =>
    obtain ⟨thread, _, rfl⟩ := exit_cases hstep
    rw [dropped_threads] at hmem
    rcases List.mem_or_eq_of_mem_set hmem with hmem | rfl
    · exact .inl hmem
    · exact .inr nofun

theorem ready_reaches {poolSize : Nat} {st : ChunkRun}
    (h : Reaches chunkStep always (start poolSize) st) : ∀ thread ∈ st.threads, thread.Ready :=
  h.invariant (I := fun st => ∀ thread ∈ st.threads, thread.Ready) (fun _ hmem => by cases hmem)
    fun _ _ _ _ hready _ hstep other hmem => (ready_step hstep hmem).elim (hready other) id

theorem call_goes_on {poolSize : Nat} {st : ChunkRun}
    (h : Reaches chunkStep always (start poolSize) st) {t : Nat} {thread : MakeThread}
    (ht : st.threads[t]? = some thread) {packetType : PacketType} {sendData : List Byte} {size : Nat}
    (hcall : thread.pc.request = some ⟨packetType, sendData, size⟩) (hdata : size ≤ sendData.length)
    (hsize : size < 65536) : ∃ st', chunkStep st (.advance t) = some st' := by
  have hready := ready_reaches h thread (List.mem_of_getElem? ht)
  have hadvance : chunkStep st (.advance t) = st.advance t thread := by
    simp only [chunkStep, ht]
    rfl
  rw [hadvance]
  cases hpc : thread.pc with
  | returned result =>
    rw [hpc] at hcall
    cases hcall
  | testBuffer request | getSendBuffer request retry | assign request retry sendBuffer =>
    simp only [advance, hpc]
    exact ⟨_, rfl⟩
  | copyBuffer request retry =>
    rw [hpc] at hcall
    cases hcall
    obtain ⟨b, hb⟩ := Option.isSome_iff_exists.mp (hready _ retry hpc)
    obtain ⟨result, hcopy⟩ := SendBuffer.copyBuffer_defined packetType
      ((ledger_reaches h).bounded b) hdata hsize
    simp only [advance, hpc, copy, hb, Option.bind_eq_bind, Option.bind_some, hcopy, Option.map_some]
    exact ⟨_, rfl⟩

end ChunkRun

def EchoRun.Starved (st : EchoRun) : Prop :=
  st.recv = .waiting ∧ ∀ thread ∈ st.world.threads, thread.pc.request ≠ none

section
variable {poolSize : Nat} {texts : List (List Byte)} {st : EchoRun} {t : Nat}

theorem receive_goes_on (htexts : ∀ text ∈ texts, text.length = 64)
    (h : EchoInv poolSize texts st) (hrecv : st.recv = .waiting) (hwire : st.wire ≠ [])
    {thread : MakeThread} (ht : st.world.threads[t]? = some thread)
    (hfree : thread.pc.request = none) : ∃ st', echoStep st (.receive t 1) = some st' := by
  have hreading := h.reading
  simp only [EchoRun.Reading, hrecv] at hreading
  obtain ⟨done, rest, pending, hunread, hincomplete, _⟩ := hreading
  have hroom : pending.length < PACKET_SIZE := by
    have hlength := keep_rest_length pending
    rwa [packetFormat.rest_incomplete hincomplete,
      requests_keep (hunread.lengths htexts) hunread.stream] at hlength
  have hsize := hunread.window.getWriteBufferSize
  have hsome := List.length_pos_iff.mpr hwire
  refine ⟨_, if_pos ⟨hrecv, ?_, Nat.le_refl 1, hsome, by omega⟩⟩
  rw [ht, Option.any_some, hfree]
  rfl

theorem dispatch_goes_on {text : List Byte} (hlength : text.length = 64) {thread : MakeThread}
    (ht : st.world.threads[t]? = some thread) (hfree : thread.pc.request = none) :
    ∃ st', st.dispatch t (echoPacket text) = some st' := by
  have hcall : chunkStep st.world (.makeSendPacket t (echoCall text)) =
      some (st.world.move t { thread with pc := .testBuffer (echoCall text) }) := by
    simp only [chunkStep, ht, Option.bind_eq_bind, Option.bind_some, hfree, ↓reduceIte]
  simp only [EchoRun.dispatch, dispatch_echo hlength, hcall]
  exact ⟨_, rfl⟩

theorem divide_goes_on (htexts : ∀ text ∈ texts, text.length = 64) (h : EchoInv poolSize texts st)
    {n : Nat} (hrecv : st.recv = .divideBuffer t n) : ∃ st', st.recvStep = some st' := by
  have hreading := h.reading
  simp only [EchoRun.Reading, hrecv] at hreading
  obtain ⟨done, rest, pending, hunread, _⟩ := hreading
  by_cases hincomplete : packetFormat.Incomplete pending
  · obtain ⟨b', hdivide, _⟩ := divide_incomplete hunread.window hincomplete
    simp only [EchoRun.recvStep, hrecv, hdivide]
    exact ⟨_, rfl⟩
  · have hrest := hunread.lengths htexts
    obtain ⟨b', hdivide, hb', hheader⟩ := divide_complete hunread.window hincomplete
    obtain ⟨text, others, rfl, hfirst, _⟩ := requests_first hrest hunread.stream hincomplete
    have hpacket := (packet_window hb' hincomplete hheader).1
    obtain ⟨thread, ht, hfree⟩ := worker_free h (by rw [hrecv]; rfl) (by simp [hrecv])
    simp only [EchoRun.recvStep, hrecv, hdivide, ↓reduceIte, hpacket, hfirst]
    exact dispatch_goes_on (hrest text List.mem_cons_self) ht hfree

theorem asked_request (htexts : ∀ text ∈ texts, text.length = 64) (h : EchoInv poolSize texts st)
    (hrecv : st.recv = .makeSendPacket t) : ∃ thread text, st.world.threads[t]? = some thread ∧
      thread.pc.Answers (echoCall text) ∧ text.length = 64 := by
  have hreading := h.reading
  have hasked := h.asked
  simp only [EchoRun.Reading, hrecv] at hreading
  simp only [EchoRun.Asked, hrecv] at hasked
  obtain ⟨done, text, rest, _, hunread, _, _, hdispatched⟩ := hreading
  obtain ⟨thread, request, ht, hanswers, _, hcalls⟩ := hasked
  rw [calls_requests hdispatched, List.map_append] at hcalls
  have hrequest : [request] = [echoCall text] := (List.append_inj' hcalls rfl).2
  cases hrequest
  refine ⟨thread, text, ht, hanswers, htexts text ?_⟩
  rw [hunread.texts]
  exact List.mem_append_right done List.mem_cons_self

theorem make_goes_on (htexts : ∀ text ∈ texts, text.length = 64) (h : EchoInv poolSize texts st)
    (hrecv : st.recv = .makeSendPacket t) (hok : unfailing st .recv = true) :
    ∃ st', st.recvStep = some st' := by
  obtain ⟨thread, text, ht, hanswers, hlength⟩ := asked_request htexts h hrecv
  rcases hanswers with hcall | hfailed | ⟨chunk, hchunk, _⟩
  · obtain ⟨world, hworld⟩ := call_goes_on h.world ht hcall (Nat.le_of_eq hlength.symm) (by decide)
    rw [recvStep_call hrecv ht hcall, hworld]
    exact ⟨_, rfl⟩
  · simp [unfailing, hrecv, ht, hfailed] at hok
  · simp only [EchoRun.recvStep, hrecv, ht, Option.bind_some, hchunk, sendStep, Option.map_some]
    exact ⟨_, rfl⟩

theorem sendBy_goes_on {act : SendAct SendChunk} {send : SendRun SendChunk}
    (h : sendStep st.send act = some send) : ∃ st', st.sendBy act = some st' :=
  ⟨_, congrArg (Option.map _) h⟩

/-- Until it is done, the session waits for nobody but a thread to take its receive. -/
theorem session_goes_on (htexts : ∀ text ∈ texts, text.length = 64)
    (h : EchoInv poolSize texts st) (hok : unfailing st .recv = true) :
    st.Done ∨ st.Starved ∨
      ∃ act st', act.own = true ∧ unfailing st act = true ∧ echoStep st act = some st' := by
  cases hthreads : st.send.threads with
  | cons pc rest =>
    have hsend : sendStep st.send (.advance 0 true) = some (st.send.advance 0 true pc) := by
      rw [sendStep, hthreads]
      rfl
    obtain ⟨st', hstep⟩ := sendBy_goes_on hsend
    exact .inr (.inr ⟨.advance 0 true, st', rfl, rfl, hstep⟩)
  | nil =>
    cases houtstanding : st.send.outstanding with
    | cons chunks rest =>
      have hcount : 0 < st.send.outstanding.length := by
        rw [houtstanding]
        exact Nat.succ_pos _
      obtain ⟨send, hsend⟩ : ∃ send, sendStep st.send (.complete 0 true) = some send :=
        ⟨_, if_pos hcount⟩
      obtain ⟨st', hstep⟩ := sendBy_goes_on hsend
      exact .inr (.inr ⟨.complete 0 true, st', rfl, rfl, hstep⟩)
    | nil =>
      have hgoes : (∃ st', st.recvStep = some st') → st.Done ∨ st.Starved ∨
          ∃ act st', act.own = true ∧ unfailing st act = true ∧ echoStep st act = some st' := by
        rintro ⟨st', hstep⟩
        exact .inr (.inr ⟨.recv, st', rfl, hok, hstep⟩)
      cases hrecv : st.recv with
      | rejected =>
        have hreading := h.reading
        simp only [EchoRun.Reading, hrecv] at hreading
      | divideBuffer t n => exact hgoes (divide_goes_on htexts h hrecv)
      | makeSendPacket t => exact hgoes (make_goes_on htexts h hrecv hok)
      | insertSendQueue t =>
        apply hgoes
        simp only [EchoRun.recvStep, hrecv, hthreads, List.any_nil, Bool.false_eq_true, ↓reduceIte]
        exact ⟨_, rfl⟩
      | setReadPos t =>
        apply hgoes
        simp only [EchoRun.recvStep, hrecv]
        exact ⟨_, rfl⟩
      | waiting =>
        by_cases hwire : st.wire = []
        · exact .inl ⟨hrecv, hwire, hthreads, houtstanding⟩
        by_cases hfree : ∃ thread ∈ st.world.threads, thread.pc.request = none
        · obtain ⟨thread, hmem, hfree⟩ := hfree
          obtain ⟨t, ht⟩ := List.mem_iff_getElem?.mp hmem
          obtain ⟨st', hstep⟩ := receive_goes_on htexts h hrecv hwire ht hfree
          exact .inr (.inr ⟨.receive t 1, st', rfl, rfl, hstep⟩)
        · exact .inr (.inl ⟨hrecv, fun thread hmem hnone => hfree ⟨thread, hmem, hnone⟩⟩)

end

structure EchoRun.Echoes (texts : List (List Byte)) (st : EchoRun) : Prop where
  in_order : ∃ n, st.posted = replies (texts.take n)
  complete : st.Done → st.posted = replies texts
  goes_on : unfailing st .recv = true → st.Done ∨ st.Starved ∨
    ∃ act st', act.own = true ∧ unfailing st act = true ∧ echoStep st act = some st'
  /-- Whatever others do between them, the session's own steps come to an end. -/
  ends : ∀ acts st',
    run (guarded echoStep fun st act => unfailing st act = true) st acts = some st' →
      acts.countP EchoAct.own ≤ st.work texts.length

theorem echo_identity {poolSize : Nat} {texts : List (List Byte)} {st : EchoRun}
    (htexts : ∀ text ∈ texts, text.length = 64)
    (h : Reaches echoStep (fun st act => unfailing st act = true)
      (.start poolSize (requests texts)) st) : st.Echoes texts := by
  have hinv := echoInv_reaches htexts h
  refine ⟨posted_in_order htexts hinv, posted_all htexts hinv, session_goes_on htexts hinv, ?_⟩
  intro acts st' hrun
  have hbound := work_run htexts hinv hrun
  omega

/-- Two requests in two receives, cut in the second body; both replies go out in one send. -/
theorem echo_identity_batch :
    ∃ st, Reaches echoStep (fun st act => unfailing st act = true)
        (.start 1 (requests [List.replicate 64 7, List.replicate 64 9])) st ∧ st.Done ∧
      st.posted = replies [List.replicate 64 7, List.replicate 64 9] := by
  have hrun : (run (guarded echoStep fun st act => unfailing st act = true)
      (.start 1 (requests [List.replicate 64 7, List.replicate 64 9]))
      ([.other .thread, .receive 0 100] ++ List.replicate 6 .recv ++ [.advance 0 true] ++
        List.replicate 3 .recv ++ [.receive 0 36] ++ List.replicate 4 .recv ++
        [.advance 1 true] ++ List.replicate 4 (.advance 0 true) ++ List.replicate 3 .recv ++
        [.complete 0 true, .advance 0 true, .advance 0 true])).any (fun st => decide (
          st.recv = .waiting ∧ st.wire = [] ∧ st.send.threads = [] ∧
            st.send.outstanding = [])) = true := by
    decide +kernel
  obtain ⟨st, hst, hends⟩ := (Option.any_eq_true _ _).mp hrun
  obtain ⟨hrecv, hwire, hthreads, houtstanding⟩ := of_decide_eq_true hends
  have hreaches := reaches_of_run _ .start hst
  have hdone : st.Done := ⟨hrecv, hwire, hthreads, houtstanding⟩
  exact ⟨st, hreaches, hdone, (echo_identity (by decide) hreaches).complete hdone⟩

end RoomServer
