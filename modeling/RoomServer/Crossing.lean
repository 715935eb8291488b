import RoomServer.Recycling

/-! Whether packets cross from one connection to the next through a reused session
object. `Reset` clears `m_SendFlag` and leaves `m_SendQueue` as it is, so what was
still queued when the last reference went away is sent to the next client. Where
the queue is empty at every `Reset`, nothing crosses. -/
namespace RoomServer
open Library Library.Threads Library.Transition

/-- Every chunk that was posted was queued for the connection it was posted on. -/
def Server.NoCrossing (st : Server) : Prop :=
  ∀ s owner connection chunks, .wsaSend s owner connection chunks ∈ st.log →
    ∀ chunk ∈ chunks, chunk.connection = connection

/-- The step is not a `Reset` that leaves packets in the queue. -/
def resetsEmpty (st : Server) : ServerAct → Bool
  | .advance t _ =>
    match st.threads[t]? with
    | some (.pushSession s :: _) => (st.sessions s).send.sendQueue.isEmpty
    | _ => true
  | _ => true

/-- The chunks a section is about to handle are of the present connection. -/
def SendPc.Tagged (connection : Nat) (send : SendState Chunk) : SendPc Chunk → Prop
  | .insertSendQueue sendChunk => sendChunk.connection = connection
  | .drain => send.sendChunks = []
  | .testEmpty | .post => ∀ chunk ∈ send.sendChunks, chunk.connection = connection
  | _ => True

structure TagInv (st : Server) : Prop where
  queue : ∀ s, ∀ chunk ∈ (st.sessions s).send.sendQueue, chunk.connection = st.connection s
  entries : ∀ s pc, Entry st.threads (.sending s pc) →
    pc.Tagged (st.connection s) (st.sessions s).send
  log : st.NoCrossing

section
variable {c : Choice} {st : Server} {instr : Instr} {s t : Nat} {rest : List Instr}

theorem tagged_next {connection : Nat} {pc : SendPc Chunk} {send : SendState Chunk}
    (accepted : Bool) (hqueue : ∀ chunk ∈ send.sendQueue, chunk.connection = connection)
    (hpc : pc.Tagged connection send) :
    (∀ chunk ∈ (pc.next send accepted).1.sendQueue, chunk.connection = connection) ∧
      ∀ pc' ∈ (pc.next send accepted).2, pc'.Tagged connection (pc.next send accepted).1 := by
  cases pc with
  | insertSendQueue sendChunk =>
    have hnew : ∀ chunk ∈ send.sendQueue ++ [sendChunk], chunk.connection = connection := by
      intro chunk hchunk
      rcases List.mem_append.mp hchunk with hchunk | hchunk
      · exact hqueue chunk hchunk
      · cases List.mem_singleton.mp hchunk
        exact hpc
    cases hflag : send.sendFlag with
    | true =>
      rw [SendPc.next, SendState.insertSendQueue_busy hflag]
      refine ⟨hnew, ?_⟩
      intro pc' hpc'
      contradiction
    | false =>
      rw [SendPc.next, SendState.insertSendQueue_idle hflag]
      refine ⟨hnew, ?_⟩
      intro pc' hpc'
      cases List.mem_singleton.mp hpc'
      trivial
  | send =>
    refine ⟨hqueue, ?_⟩
    intro pc' hpc'
    cases List.mem_singleton.mp hpc'
    rfl
  | drain =>
    rw [SendPc.next, SendState.drain_eq, show send.sendChunks = [] from hpc]
    constructor
    · intro chunk hchunk
      contradiction
    · intro pc' hpc'
      cases List.mem_singleton.mp hpc'
      exact hqueue
  | testEmpty =>
    by_cases hchunks : send.sendChunks = []
    · simp [SendPc.next, SendState.testEmpty, hchunks]
      exact hqueue
    · rw [SendPc.next, SendState.testEmpty_full hchunks]
      refine ⟨hqueue, ?_⟩
      intro pc' hpc'
      cases List.mem_singleton.mp hpc'
      exact hpc
  | checkSendComplete =>
    by_cases hempty : send.sendQueue = []
    · rw [SendPc.next, SendState.checkSendComplete_empty hempty]
      refine ⟨hqueue, ?_⟩
      intro pc' hpc'
      contradiction
    · rw [SendPc.next, SendState.checkSendComplete_full hempty]
      refine ⟨hqueue, ?_⟩
      intro pc' hpc'
      cases List.mem_singleton.mp hpc'
      trivial
  | post =>
    refine ⟨hqueue, ?_⟩
    intro pc' hpc'
    cases accepted with
    | true => contradiction
    | false =>
      cases List.mem_singleton.mp hpc'
      trivial
  | _ =>
    refine ⟨hqueue, ?_⟩
    intro pc' hpc'
    first
      | contradiction
      | (cases List.mem_singleton.mp hpc'; trivial)

/-- Only the holder of the token touches the chunks. -/
theorem next_chunks {pc : SendPc Chunk} (h : pc.token = 0) (send : SendState Chunk)
    (accepted : Bool) : (pc.next send accepted).1.sendChunks = send.sendChunks := by
  cases pc with
  | insertSendQueue sendChunk =>
    cases hflag : send.sendFlag with
    | true => rw [SendPc.next, SendState.insertSendQueue_busy hflag]
    | false => rw [SendPc.next, SendState.insertSendQueue_idle hflag]
  | _ => contradiction

theorem tagged_congr {connection : Nat} {pc : SendPc Chunk} {send send' : SendState Chunk}
    (h : send'.sendChunks = send.sendChunks) (hpc : pc.Tagged connection send) :
    pc.Tagged connection send' := by
  cases pc with
  | insertSendQueue sendChunk => exact hpc
  | drain => exact h.trans hpc
  | testEmpty =>
    intro chunk hchunk
    rw [h] at hchunk
    exact hpc chunk hchunk
  | post =>
    intro chunk hchunk
    rw [h] at hchunk
    exact hpc chunk hchunk
  | _ => trivial

/-- Beside the holder of the token nobody stands where the chunks matter. -/
theorem tagged_of_token {connection : Nat} {pc : SendPc Chunk} {send send' : SendState Chunk}
    (h : pc.token = 0) (hpc : pc.Tagged connection send) : pc.Tagged connection send' := by
  cases pc with
  | insertSendQueue sendChunk => exact hpc
  | _ => contradiction

theorem sending_send (c : Choice) (st : Server) (s : Nat) (pc : SendPc Chunk) :
    ((st.exec c (.sending s pc)).1.sessions s).send =
      (pc.next (st.sessions s).send (st.accepted c s)).1 := by
  simp [Server.exec, Server.sending, Server.setSession]

theorem tagInv_queue (hinv : TagInv st) (hentry : Entry st.threads instr)
    (hok : ∀ s, instr = .pushSession s → (st.sessions s).send.sendQueue = []) (s : Nat) :
    ∀ chunk ∈ ((st.exec c instr).1.sessions s).send.sendQueue,
      chunk.connection = (st.exec c instr).1.connection s := by
  by_cases hsending : ∃ pc, instr = .sending s pc
  · obtain ⟨pc, rfl⟩ := hsending
    rw [sending_send]
    exact (tagged_next _ (hinv.queue s) (hinv.entries s pc hentry)).1
  · have hqueue := (exec_queue c st fun pc h => hsending ⟨pc, h⟩).1
    rw [hqueue]
    by_cases hpush : instr = .pushSession s
    · rw [hok s hpush]
      exact nofun
    · rw [exec_connection c st hpush]
      exact hinv.queue s

theorem tagged_stays (hserver : ServerInv st) (hinv : TagInv st) (hentry : Entry st.threads instr)
    {pc : SendPc Chunk} (hbeside : Beside st.threads instr (.sending s pc)) :
    pc.Tagged ((st.exec c instr).1.connection s) ((st.exec c instr).1.sessions s).send := by
  have hpc := hinv.entries s pc hbeside.entry
  have hpush : instr ≠ .pushSession s := by
    rintro rfl
    have hfree := free_of_entry hserver hentry (s := s) (by simp [Instr.returning])
    exact hfree (needs_holds hserver hbeside.entry rfl)
  rw [exec_connection c st hpush]
  by_cases hsending : ∃ pc, instr = .sending s pc
  · obtain ⟨pc', rfl⟩ := hsending
    rw [sending_send]
    by_cases htoken : pc'.token = 0
    · exact tagged_congr (next_chunks htoken _ _) hpc
    · apply tagged_of_token _ hpc
      have hle := hbeside.weight (Instr.token s)
      have htokens := hserver.tokens s
      have hflag := Bool.toNat_lt (st.sessions s).send.sendFlag
      simp only [Instr.token, if_true] at hle
      omega
  · exact tagged_congr (exec_queue c st fun pc h => hsending ⟨pc, h⟩).2 hpc

theorem tagged_new (hinv : TagInv st) (hentry : Entry st.threads instr) {pc : SendPc Chunk}
    (h : Next c st instr (.sending s pc)) :
    pc.Tagged ((st.exec c instr).1.connection s) ((st.exec c instr).1.sessions s).send := by
  cases h with
  | sendFailed => trivial
  | sendExecute => trivial
  | @sending _ pc' _ hpc =>
    rw [sending_send]
    exact (tagged_next _ (hinv.queue s) (hinv.entries s pc' hentry)).2 pc hpc
  | insertSendQueue sendChunk => rfl

theorem noCrossing_exec (hinv : TagInv st) (hentry : Entry st.threads instr) :
    (st.exec c instr).1.NoCrossing := by
  intro s owner connection chunks hcall
  rcases exec_log hcall with hcall | hcall
  · exact hinv.log s owner connection chunks hcall
  · cases hcall with
    | send haccepted => exact hinv.entries s .post hentry

theorem tagInv_advance (hserver : ServerInv st) (hinv : TagInv st)
    (h : st.threads[t]? = some (instr :: rest))
    (hok : ∀ s, instr = .pushSession s → (st.sessions s).send.sendQueue = []) :
    TagInv (st.advance t c instr rest) where
  queue := tagInv_queue hinv (entry_head h) hok
  entries := by
    intro s pc hpc
    have hentry := entry_head h
    rcases advance_entry h hpc with ⟨s', hs'⟩ | hpc | hpc
    · contradiction
    · exact tagged_new hinv hentry (exec_next hpc)
    · exact tagged_stays hserver hinv hentry hpc
  log := noCrossing_exec hinv (entry_head h)

theorem spawned_ne_sending {x : Instr} (h : Spawned st x) (s : Nat) (pc : SendPc Chunk) :
    x ≠ .sending s pc := by
  cases h with
  | @handler op _ completion => cases op <;> cases completion <;> nofun
  | _ => nofun

theorem tagInv_step {act : ServerAct} {st' : Server} (hserver : ServerInv st) (hinv : TagInv st)
    (hok : resetsEmpty st act = true) (h : serverStep st act = some st') : TagInv st' := by
  cases steps_of_step h with
  | advance c hthread =>
    apply tagInv_advance hserver hinv hthread
    rintro s rfl
    simpa [resetsEmpty, hthread] using hok
  | spawn act hposted hnew =>
    refine ⟨hinv.queue, ?_, hinv.log⟩
    intro s pc hpc
    obtain ⟨thread, hthread, hpc⟩ := hpc
    rcases List.mem_append.mp hthread with hthread | hthread
    · exact hinv.entries s pc ⟨thread, hthread, hpc⟩
    · cases List.mem_singleton.mp hthread
      exact absurd rfl (spawned_ne_sending (hnew _ hpc) s pc)

theorem tagInv_start (roomCount poolSize acceptCount : Nat) :
    TagInv (.start roomCount poolSize acceptCount) := by
  refine ⟨nofun, ?_, nofun⟩
  intro s pc hpc
  rcases start_entry hpc with ⟨i, hi⟩ | ⟨a, ha⟩ <;> contradiction

end

/-- In every run in which each `Reset` finds the queue empty, no packet crosses. -/
theorem queue_empty_noCrossing {st : Server} {roomCount poolSize acceptCount : Nat}
    (h : Reaches serverStep (fun st act => resetsEmpty st act = true)
      (.start roomCount poolSize acceptCount) st) : st.NoCrossing := by
  have hinv : TagInv st := by
    apply h.invariant (tagInv_start roomCount poolSize acceptCount)
    intro st act st' hr hinv hok hstep
    exact tagInv_step (serverInv_reaches hr) hinv hok hstep
  exact hinv.log

def echoed (connection : Nat) : Chunk := ⟨.echo (List.replicate 64 0), connection⟩

theorem queue_empty_noCrossing_answered :
    ∃ st : Server, .wsaSend 0 (some 0) 1 [echoed 1] ∈ st.log ∧ st.NoCrossing := by
  have h : (run (guarded serverStep fun st act => resetsEmpty st act = true) (.start 1 1 1)
      answeredThenReused).any
      (fun st => decide (.wsaSend 0 (some 0) 1 [echoed 1] ∈ st.log)) = true := by decide +kernel
  obtain ⟨st, hrun, hst⟩ := (Option.any_eq_true _ _).mp h
  exact ⟨st, of_decide_eq_true hst, queue_empty_noCrossing (reaches_of_run _ .start hrun)⟩

/-- Two requests come at once and the send of the first answer fails: the second answer
stays in the queue and goes to the next client, before that client's own. -/
def failedThenReused : List ServerAct :=
  advances 1 5 ++ [.complete 0 (.data [])] ++ advances 2 10 ++
    [.complete 0 (.data [echoRequest, echoRequest])] ++ advances 3 14 ++ [.complete 0 .failed] ++
    advances 4 7 ++ [.complete 0 .failed] ++ advances 5 18 ++
    [.complete 0 (.data [])] ++ advances 6 10 ++ [.complete 0 (.data [echoRequest])] ++
    advances 7 11

theorem failed_send_crosses :
    ∃ st, run serverStep (.start 1 1 1) failedThenReused = some st ∧
      .wsaSend 0 (some 0) 1 [echoed 0, echoed 1] ∈ st.log ∧ ¬ st.NoCrossing := by
  have h : (run serverStep (.start 1 1 1) failedThenReused).any
      (fun st => decide (.wsaSend 0 (some 0) 1 [echoed 0, echoed 1] ∈ st.log)) = true := by
    decide +kernel
  obtain ⟨st, hrun, hst⟩ := (Option.any_eq_true _ _).mp h
  have hsent := of_decide_eq_true hst
  refine ⟨st, hrun, hsent, ?_⟩
  intro hno
  exact Nat.zero_ne_one (hno 0 (some 0) 1 _ hsent (echoed 0) List.mem_cons_self)

end RoomServer
