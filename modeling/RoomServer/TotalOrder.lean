import RoomServer.Deliveries

/-! A room is a totally ordered broadcast to its members. What goes to a session on one
connection is one stream: what is posted, what the sender has drained, what is queued. A
packet that a room makes for everybody comes once on the stream of each session that was
in the room then, but for the session whose job made it, and in the order in which the
room made them. -/
namespace RoomServer
open Library Library.Broadcast Library.Threads Library.Transition

/-! ### A session's stream -/

def Call.chunksOn (s k : Nat) : Call → List Chunk
  | .wsaSend s' _ k' chunks => if s' = s ∧ k' = k then chunks else []
  | _ => []

def Instr.drained (s : Nat) : Instr → Bool
  | .sending s' pc => decide (s' = s) && pc.drained
  | _ => false

def Server.drained (st : Server) (s : Nat) : List Chunk :=
  if st.threads.any fun thread => thread.any (Instr.drained s) then
    (st.sessions s).send.sendChunks
  else []

/-- What session `s` sends on its connection `k`; only the present one has a queue. -/
def Server.stream (st : Server) (s k : Nat) : List Chunk :=
  st.log.flatMap (Call.chunksOn s k) ++
    if st.connection s = k then st.drained s ++ (st.sessions s).send.sendQueue else []

/-- Totally ordered broadcast, in one state. -/
structure TotallyOrdered (j : Journal) : Prop where
  /-- The record tells what is on a stream, chunk by chunk. -/
  stream : ∀ s k, j.server.stream s k = (j.labelled s k).map Prod.fst
  carried : ∀ s, ∀ e ∈ j.entered s, j.Carried e.1.packet e.2
  /-- Everybody gets what was made for it, once and in order, and nobody anything else. -/
  delivered : ∀ i s k, j.numbers i s k ++ j.awaited i s k = due (s, k) (j.produced i)
  /-- Nothing is awaited any more when the room's thread comes round. -/
  settled : ∀ i, j.server.threads[i]? = some [.startJob i] → ∀ s k, j.awaited i s k = []
  /-- Two streams have two packets of a room in the same order. -/
  agree : ∀ i s k s' k' n m, [n, m].Sublist (j.numbers i s k) → n ∈ j.numbers i s' k' →
    m ∈ j.numbers i s' k' → [n, m].Sublist (j.numbers i s' k')

/-! ### Streams -/

section
variable {st : Server} {s : Nat}

/-- Each session's side of the protocol, with what the record says went into its queue. -/
structure StreamInv (j : Journal) : Prop where
  views : ∀ s, ∃ sent, SendView s j.server sent ∧ sent.enqueued = (j.entered s).map Prod.fst
  tags : TagInv j.server

theorem entered_step {j j' : Journal} {act : ServerAct} (h : journalStep j act = some j')
    (s : Nat) : (j'.entered s).map Prod.fst =
      (j.entered s).map Prod.fst ++ j.server.enters s act := by
  cases act with
  | advance t c =>
    simp only [journalStep] at h
    split at h
    case h_1 instr rest hthread =>
      cases h
      simp [Server.enters, hthread, Journal.advance, Journal.record, Function.comp_def]
    case h_2 => contradiction
  | complete k completion =>
    obtain ⟨server, _, rfl⟩ := Option.map_eq_some_iff.mp h
    exact (List.append_nil _).symm
  | shutdown =>
    cases h
    exact (List.append_nil _).symm

theorem resetsEmpty_of_views {j : Journal} (hserver : ServerInv j.server) (hinv : StreamInv j)
    (act : ServerAct) : resetsEmpty j.server act = true := by
  cases act with
  | advance t c =>
    simp only [resetsEmpty]
    split
    case h_1 s rest hthread =>
      obtain ⟨sent, hview, _⟩ := hinv.views s
      have hfree := free_of_entry hserver (entry_head hthread) (s := s) (by simp [Instr.returning])
      rw [sendQueue_of_free hserver hview hfree]
      rfl
    case h_2 => rfl
  | _ => rfl

theorem streamInv_step {j j' : Journal} {act : ServerAct} (hserver : ServerInv j.server)
    (hinv : StreamInv j) (hok : sendsSucceed j.server act = true)
    (h : journalStep j act = some j') : StreamInv j' := by
  have hstep := server_of_journalStep h
  constructor
  · intro s
    obtain ⟨sent, hview, henqueued⟩ := hinv.views s
    obtain ⟨sent', hview', henqueued'⟩ := sendView_step hserver hview hok hstep
    refine ⟨sent', hview', ?_⟩
    rw [henqueued', henqueued, entered_step h]
  · exact tagInv_step hserver hinv.tags (resetsEmpty_of_views hserver hinv act) hstep

theorem drained_eq {sent : SendRun Chunk} (hview : SendView s st sent) :
    sent.drained = st.drained s := by
  have hany : sent.threads.any SendPc.drained =
      st.threads.any fun thread => thread.any (Instr.drained s) := by
    rw [Bool.eq_iff_iff]
    simp only [List.any_eq_true]
    constructor
    · rintro ⟨pc, hpc, hdrained⟩
      obtain ⟨x, ⟨thread, hthread, hx⟩, hsend⟩ :=
        mem_gather.mp (hview.threads.mem_iff.mp hpc)
      refine ⟨thread, hthread, x, hx, ?_⟩
      cases x with
      | sending s' pc' =>
        simp only [Instr.sendPc, Option.ite_none_right_eq_some, Option.some.injEq] at hsend
        simp [Instr.drained, hsend, hdrained]
      | sendExecute s' transferred =>
        simp only [Instr.sendPc, Option.ite_none_right_eq_some, Option.some.injEq] at hsend
        rw [← hsend.2] at hdrained
        cases transferred <;> contradiction
      | _ => contradiction
    · rintro ⟨thread, hthread, x, hx, hdrained⟩
      cases x with
      | sending s' pc =>
        simp only [Instr.drained, Bool.and_eq_true, decide_eq_true_eq] at hdrained
        refine ⟨pc, mem_sendPc hview ⟨thread, hthread, hx⟩ ?_, hdrained.2⟩
        simp [Instr.sendPc, hdrained.1]
      | _ => contradiction
  unfold SendRun.drained Server.drained
  rw [hany, hview.session]

theorem tagged_drained (htags : TagInv st) {chunk : Chunk}
    (h : chunk ∈ st.drained s ++ (st.sessions s).send.sendQueue) :
    chunk.connection = st.connection s := by
  rcases List.mem_append.mp h with h | h
  · unfold Server.drained at h
    split at h
    case isTrue hany =>
      simp only [List.any_eq_true] at hany
      obtain ⟨thread, hthread, x, hx, hdrained⟩ := hany
      cases x with
      | sending s' pc =>
        simp only [Instr.drained, Bool.and_eq_true, decide_eq_true_eq] at hdrained
        obtain ⟨rfl, hdrained⟩ := hdrained
        have htagged := htags.entries s' pc ⟨thread, hthread, hx⟩
        cases pc with
        | testEmpty => exact htagged chunk h
        | post => exact htagged chunk h
        | _ => contradiction
      | _ => contradiction
    case isFalse => contradiction
  · exact htags.queue s chunk h

theorem chunks_filter (h : st.NoCrossing) (s k : Nat) :
    (st.log.flatMap (Call.chunks s)).filter (fun chunk => chunk.connection = k) =
      st.log.flatMap (Call.chunksOn s k) := by
  rw [List.filter_flatMap]
  apply List.flatMap_congr
  intro call hcall
  cases call with
  | wsaSend s' owner k' chunks =>
    have htag := h s' owner k' chunks hcall
    simp only [Call.chunks, Call.chunksOn]
    by_cases hs : s' = s
    · by_cases hk : k' = k
      · rw [if_pos hs, if_pos ⟨hs, hk⟩, List.filter_eq_self]
        intro chunk hchunk
        exact decide_eq_true ((htag chunk hchunk).trans hk)
      · rw [if_pos hs, if_neg fun h => hk h.2, List.filter_eq_nil_iff]
        intro chunk hchunk hconnection
        exact hk ((htag chunk hchunk).symm.trans (of_decide_eq_true hconnection))
    · rw [if_neg hs, if_neg fun h => hs h.1]
      rfl
  | _ => rfl

theorem stream_labelled {j : Journal} (hinv : StreamInv j) (s k : Nat) :
    j.server.stream s k = (j.labelled s k).map Prod.fst := by
  obtain ⟨sent, hview, henqueued⟩ := hinv.views s
  have horder := (sendInv_reaches hview.reached).order (sendLive_reaches hview.reached).refusedOnce
  rw [hview.posted, drained_eq hview, hview.session, henqueued, List.append_assoc] at horder
  have hlabelled : (j.labelled s k).map Prod.fst =
      ((j.entered s).map Prod.fst).filter fun chunk => chunk.connection = k := by
    rw [List.filter_map]
    rfl
  rw [hlabelled, ← horder, List.filter_append, chunks_filter hinv.tags.log, Server.stream]
  congr 1
  symm
  split
  case isTrue hk =>
    rw [List.filter_eq_self]
    intro chunk hchunk
    exact decide_eq_true ((tagged_drained hinv.tags hchunk).trans hk)
  case isFalse hk =>
    rw [List.filter_eq_nil_iff]
    intro chunk hchunk hconnection
    exact hk ((tagged_drained hinv.tags hchunk).symm.trans (of_decide_eq_true hconnection))

/-! ### Every run -/

structure JournalInv (j : Journal) : Prop where
  delivered : j.Delivered
  carry : CarryInv j
  streams : StreamInv j

theorem journalInv_start (roomCount poolSize acceptCount : Nat) :
    JournalInv (.start roomCount poolSize acceptCount) := by
  refine ⟨?_, ⟨nofun, nofun⟩, ?_, tagInv_start roomCount poolSize acceptCount⟩
  · intro i s k
    simp [Journal.start, Journal.numbers, Journal.labelled, Journal.awaited, numbersOf, due]
  · intro s
    exact ⟨.start, sendView_start roomCount poolSize acceptCount s, rfl⟩

theorem journalInv_reaches {roomCount poolSize acceptCount : Nat} {j : Journal}
    (h : Reaches journalStep undisturbed (.start roomCount poolSize acceptCount) j) :
    JournalInv j := by
  apply h.invariant (journalInv_start roomCount poolSize acceptCount)
  intro j act j' hr hinv hok hstep
  have hreaches := server_reaches hr
  have hserver := serverInv_reaches hreaches
  have hhands := handInv_reaches hr
  have hmove := journalMove_of_step hstep
  exact ⟨delivered_step hserver (placeInv_reaches hreaches) (tidy_reaches hreaches)
      hinv.streams.tags hhands hinv.delivered hok.1 hmove,
    carryInv_step hhands hinv.carry hok.1 hmove,
    streamInv_step hserver hinv.streams hok.2 hstep⟩

theorem numbers_sorted {j : Journal} (h : j.Delivered) (i s k : Nat) :
    (j.numbers i s k).Pairwise (· < ·) := by
  apply List.Pairwise.sublist _ (due_sorted (s, k) (j.produced i))
  rw [← h i s k]
  exact List.sublist_append_left _ _

end

/-- In every run in which `MakeSendPacket` and `WSASend` do not fail. -/
theorem room_totally_ordered {j : Journal} {roomCount poolSize acceptCount : Nat}
    (h : Reaches journalStep undisturbed (.start roomCount poolSize acceptCount) j) :
    TotallyOrdered j := by
  have hinv := journalInv_reaches h
  refine ⟨stream_labelled hinv.streams, hinv.carry.entered, hinv.delivered, ?_, ?_⟩
  · intro i hthread s k
    have hpending := (pending_nil (handInv_reaches h) (tidy_reaches (server_reaches h)) hthread
      rfl).2
    rw [Journal.awaited, hpending]
    split <;> rfl
  · intro i s k s' k' n m
    exact order_agrees (numbers_sorted hinv.delivered i s k) (numbers_sorted hinv.delivered i s' k')

def enterAndChat : List ServerAct :=
  advances 1 5 ++ List.replicate 5 (.advance 1 { goOn with socket := 200 }) ++
    [.complete 0 (.data []), .complete 0 (.data [])] ++ advances 2 3 ++ advances 3 3 ++
    [.complete 0 (.data [⟨⟨PacketType.CLIENT_ENTER, []⟩, 0, true⟩, echoRequest,
      ⟨⟨PacketType.CLIENT_BROADCAST, List.replicate 64 0⟩, 0, true⟩])] ++ advances 4 4 ++
    [.complete 0 (.data [⟨⟨PacketType.CLIENT_ENTER, []⟩, 0, true⟩])] ++ advances 5 4 ++
    advances 0 32 ++ advances 4 6 ++ advances 0 9

theorem advances_allMade (t n : Nat) : ∀ act ∈ advances t n, act.AllMade := by
  intro act hact
  rw [List.eq_of_mem_replicate hact]
  exact fun _ => rfl

theorem enterAndChat_allMade : ∀ act ∈ enterAndChat, act.AllMade := by
  have hsecond : ∀ act ∈ List.replicate 5 (ServerAct.advance 1 { goOn with socket := 200 }),
      act.AllMade := by
    intro act hact
    rw [List.eq_of_mem_replicate hact]
    exact fun _ => rfl
  simp only [enterAndChat, List.forall_mem_append]
  repeat' apply And.intro
  all_goals first
    | exact advances_allMade _ _
    | exact hsecond
    | simp [ServerAct.AllMade]

/-- Session 1 hears that 0 came, which 0 does not; 0 hears what 1 says, which 1 does not. -/
theorem room_totally_ordered_chat :
    ∃ j, run journalStep (.start 1 2 2) enterAndChat = some j ∧ j.numbers 0 1 0 = [1] ∧
      j.numbers 0 0 0 = [2] ∧ TotallyOrdered j := by
  have h : (run (guarded journalStep fun j act => sendsSucceed j.server act = true) (.start 1 2 2)
      enterAndChat).any (fun j => decide (j.numbers 0 1 0 = [1] ∧ j.numbers 0 0 0 = [2])) =
        true := by
    decide +kernel
  obtain ⟨j, hrun, hj⟩ := (Option.any_eq_true _ _).mp h
  obtain ⟨hone, hzero⟩ := of_decide_eq_true hj
  refine ⟨j, run_of_guarded _ hrun, hone, hzero, ?_⟩
  exact room_totally_ordered (reaches_of_acts (fun _ _ hsends hmade => ⟨hmade, hsends⟩)
    enterAndChat enterAndChat_allMade .start hrun)

end RoomServer
