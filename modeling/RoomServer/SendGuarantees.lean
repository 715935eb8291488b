import RoomServer.SendProtocol

/-! What a session's stream can rely on: with every `WSASend` accepted and
completed, nothing is lost, reordered or stranded; with refusals, exactly the
failure branch of `Send` breaks that. -/
namespace RoomServer
open Library.Transition Library.Threads

/-! ### Runs without failures -/

/-- Every `WSASend` is accepted and completes successfully. -/
def accepting (_ : SendRun γ) : SendAct γ → Prop
  | .call _ => True
  | .advance _ accepted => accepted = true
  | .complete _ success => success = true

instance : (st : SendRun γ) → (act : SendAct γ) → Decidable (accepting st act)
  | _, .call _ => inferInstanceAs (Decidable True)
  | _, .advance _ accepted => inferInstanceAs (Decidable (accepted = true))
  | _, .complete _ success => inferInstanceAs (Decidable (success = true))

def SendPc.inSend : SendPc γ → Bool
  | .send | .drain | .testEmpty | .post => true
  | _ => false

def SendPc.ofFailure : SendPc γ → Bool
  | .refused | .releaseFlag | .failed => true
  | _ => false

/-- Without failures the token exists exactly while the flag is set. -/
structure SendLive (st : SendRun γ) : Prop where
  token : st.tokens = st.session.sendFlag.toNat
  idle : st.session.sendFlag = false → st.session.sendQueue = []
  regular : ∀ pc ∈ st.threads, pc.ofFailure = false
  refusedOnce : st.refusedOnce = false

theorem sendLive_start : SendLive (SendRun.start : SendRun γ) :=
  ⟨rfl, fun _ => rfl, nofun, rfl⟩

theorem sendLive_call {st : SendRun γ} (h : SendLive st) (sendChunk : γ) :
    SendLive { st with threads := st.threads ++ [.insertSendQueue sendChunk] } := by
  refine ⟨?_, h.idle, ?_, h.refusedOnce⟩
  · have := h.token
    simpa [SendRun.tokens, SendPc.token] using this
  · intro pc hpc
    rcases List.mem_append.mp hpc with hpc | hpc
    · exact h.regular pc hpc
    · cases List.mem_singleton.mp hpc
      rfl

theorem sendLive_complete {st : SendRun γ} (h : SendLive st) {i : Nat}
    (hi : i < st.outstanding.length) :
    SendLive { st with
      outstanding := st.outstanding.eraseIdx i
      threads := st.threads ++ [.execute] } := by
  refine ⟨?_, h.idle, ?_, h.refusedOnce⟩
  · have htoken := h.token
    simp only [SendRun.tokens, total_append, total_cons, total_nil, SendPc.token,
      List.length_eraseIdx_of_lt hi] at htoken ⊢
    omega
  · intro pc hpc
    rcases List.mem_append.mp hpc with hpc | hpc
    · exact h.regular pc hpc
    · cases List.mem_singleton.mp hpc
      rfl

/-- A move is checked by what it does to the flag, the queue and the token count. -/
theorem sendLive_move {st : SendRun γ} (h : SendLive st) {i : Nat} {pc : SendPc γ}
    (hi : st.threads[i]? = some pc) {s : SendState γ} {next : List (SendPc γ)}
    {outstanding : List (List γ)} {enqueued posted : List γ}
    (htoken : st.session.sendFlag.toNat + total SendPc.token next + outstanding.length =
      s.sendFlag.toNat + pc.token + st.outstanding.length)
    (hidle : s.sendFlag = false → s.sendQueue = [])
    (hregular : ∀ pc ∈ next, pc.ofFailure = false) :
    SendLive ⟨s, splice st.threads i next, outstanding, enqueued, posted, st.refusedOnce⟩ := by
  refine ⟨?_, hidle, ?_, h.refusedOnce⟩
  · have hmove := total_splice SendPc.token next hi
    have hold := h.token
    simp only [SendRun.tokens] at hold ⊢
    omega
  · intro u hu
    rcases mem_splice hu with hu | hu
    · exact hregular u hu
    · exact h.regular u hu

theorem sendLive_advance {st : SendRun γ} (hinv : SendInv st) (h : SendLive st) {i : Nat}
    {pc : SendPc γ} (hi : st.threads[i]? = some pc) : SendLive (st.advance i true pc) := by
  have hmem := List.mem_of_getElem? hi
  have hfact := hinv.facts pc hmem
  have hregular := h.regular pc hmem
  cases pc with
  | insertSendQueue sendChunk =>
    cases hflag : st.session.sendFlag with
    | true =>
      simp only [SendRun.advance, SendPc.next, SendState.insertSendQueue_busy hflag,
        Bool.false_eq_true, ↓reduceIte]
      exact sendLive_move h hi (by simp [SendPc.token]) (by simp [hflag]) (by simp)
    | false =>
      simp only [SendRun.advance, SendPc.next, SendState.insertSendQueue_idle hflag, ↓reduceIte]
      exact sendLive_move h hi (by simp [SendPc.token, hflag]) (by simp) (by simp [SendPc.ofFailure])
  | send =>
    exact sendLive_move h hi (by simp [SendPc.next, SendState.clear, SendPc.token]) h.idle
      (by simp [SendPc.next, SendPc.ofFailure])
  | drain =>
    simp only [SendRun.advance, SendPc.next, SendState.drain_eq]
    exact sendLive_move h hi (by simp [SendPc.token]) (fun _ => rfl) (by simp [SendPc.ofFailure])
  | testEmpty =>
    simp only [SendRun.advance, SendPc.next, SendState.testEmpty_full hfact, Bool.false_eq_true,
      ↓reduceIte]
    exact sendLive_move h hi (by simp [SendPc.token]) h.idle (by simp [SendPc.ofFailure])
  | post =>
    exact sendLive_move h hi (by simp [SendPc.next, SendPc.token]; omega) h.idle
      (by simp [SendPc.next])
  | refused | releaseFlag | failed => contradiction
  | execute =>
    exact sendLive_move h hi (by simp [SendPc.next, SendState.clear, SendPc.token]) h.idle
      (by simp [SendPc.next, SendPc.ofFailure])
  | checkSendComplete =>
    have halone := alone hinv hi rfl
    by_cases hqueue : st.session.sendQueue = []
    · simp only [SendRun.advance, SendPc.next, SendState.checkSendComplete_empty hqueue,
        Bool.false_eq_true, ↓reduceIte]
      exact sendLive_move h hi (by simp [SendPc.token, halone.flag]) (fun _ => hqueue) (by simp)
    · simp only [SendRun.advance, SendPc.next, SendState.checkSendComplete_full hqueue, ↓reduceIte]
      exact sendLive_move h hi (by simp [SendPc.token]) h.idle (by simp [SendPc.ofFailure])

theorem sendLive_reaches {st : SendRun γ} (h : Reaches sendStep accepting .start st) :
    SendLive st := by
  refine h.invariant sendLive_start fun st act st' hr hlive hok hstep => ?_
  cases act with
  | call sendChunk =>
    cases Option.some.inj hstep
    exact sendLive_call hlive sendChunk
  | advance i accepted =>
    obtain rfl : accepted = true := hok
    obtain ⟨pc, hi, rfl⟩ := Option.map_eq_some_iff.mp hstep
    exact sendLive_advance (sendInv_reaches hr) hlive hi
  | complete i success =>
    obtain rfl : success = true := hok
    simp only [sendStep] at hstep
    split at hstep
    case isTrue hi =>
      cases Option.some.inj hstep
      exact sendLive_complete hlive hi
    case isFalse => contradiction

/-- The guarantees of the send protocol in one state. -/
structure SendSafe (st : SendRun γ) : Prop where
  one_outstanding : st.outstanding.length ≤ 1
  one_sender : st.threads.countP SendPc.inSend ≤ 1
  sender_excludes : 0 < st.threads.countP SendPc.inSend → st.outstanding = []
  /-- `Send` is entered with something to send. -/
  entered_full : .send ∈ st.threads → st.session.sendQueue ≠ []
  /-- The branch on `m_Send.Empty()` is not taken. -/
  never_empty : .testEmpty ∈ st.threads → st.session.sendChunks ≠ []
  in_order : st.posted ++ st.drained ++ st.session.sendQueue = st.enqueued
  quiescent : st.threads = [] → st.outstanding = [] →
    st.session.sendQueue = [] ∧ st.session.sendFlag = false

theorem countP_inSend_le (threads : List (SendPc γ)) :
    threads.countP SendPc.inSend ≤ total SendPc.token threads := by
  induction threads with
  | nil => exact Nat.le_refl 0
  | cons pc threads ih =>
    rw [total_cons, List.countP_cons]
    cases pc <;> simp only [SendPc.inSend, SendPc.token, ↓reduceIte, Bool.false_eq_true] <;> omega

theorem send_loses_nothing {st : SendRun γ} (h : Reaches sendStep accepting .start st) :
    SendSafe st := by
  have hinv := sendInv_reaches h
  have hlive := sendLive_reaches h
  have hcount := countP_inSend_le st.threads
  have htoken := hlive.token
  have hflag := Bool.toNat_le st.session.sendFlag
  unfold SendRun.tokens at htoken
  refine ⟨by omega, by omega, ?_, ?_, ?_, hinv.order hlive.refusedOnce, ?_⟩
  · intro hsender
    exact List.length_eq_zero_iff.mp (by omega)
  · intro hmem
    exact hinv.facts _ hmem
  · intro hmem
    exact hinv.facts _ hmem
  · intro hthreads houtstanding
    rw [hthreads, houtstanding] at htoken
    have hoff : st.session.sendFlag = false := by
      cases hf : st.session.sendFlag with
      | true => simp [hf] at htoken
      | false => rfl
    exact ⟨hlive.idle hoff, hoff⟩

/-- Chunk 2 is queued while chunk 1 is being posted. -/
theorem send_loses_nothing_while_posting :
    SendSafe (⟨⟨[2], [1], true⟩, [], [[1]], [1, 2], [1], false⟩ : SendRun Nat) :=
  send_loses_nothing (reaches_of_run
    [.call 1, .advance 0 true, .advance 0 true, .advance 0 true, .call 2, .advance 1 true,
      .advance 0 true, .advance 0 true] .start (by decide))

/-! ### Runs with refusals -/

/-- Nothing is accepted after a refusal, and the failure branch clears the flag
only when nothing was queued meanwhile. -/
def keepsOrder (st : SendRun γ) : SendAct γ → Bool
  | .advance i accepted =>
    match st.threads[i]? with
    | some .post => !(accepted && st.refusedOnce)
    | some .releaseFlag => st.session.sendQueue.isEmpty
    | _ => true
  | _ => true

/-- No hole in what was sent, nothing stranded. -/
structure NoHole (st : SendRun γ) : Prop where
  sent_prefix : st.posted <+: st.enqueued
  not_stranded : st.session.sendFlag = false → st.threads = [] → st.session.sendQueue = []

structure RefusedInv (st : SendRun γ) : Prop where
  sent_prefix : st.refusedOnce = true → st.posted <+: st.enqueued
  idle : st.session.sendFlag = false → st.session.sendQueue = []

theorem sent_prefix_of_inv {st : SendRun γ} (hinv : SendInv st) (h : RefusedInv st) :
    st.posted <+: st.enqueued := by
  cases hrefused : st.refusedOnce with
  | true => exact h.sent_prefix hrefused
  | false =>
    rw [← hinv.order hrefused, List.append_assoc]
    exact List.prefix_append _ _

theorem refusedInv_advance {st : SendRun γ} (hinv : SendInv st) (h : RefusedInv st) {i : Nat}
    {accepted : Bool} {pc : SendPc γ} (hi : st.threads[i]? = some pc)
    (hok : keepsOrder st (.advance i accepted) = true) :
    RefusedInv (st.advance i accepted pc) := by
  have hfact := hinv.facts pc (List.mem_of_getElem? hi)
  simp only [keepsOrder, hi] at hok
  cases pc with
  | insertSendQueue sendChunk =>
    refine ⟨fun hrefused => (h.sent_prefix hrefused).trans (List.prefix_append _ _), ?_⟩
    cases hflag : st.session.sendFlag with
    | true => simp [SendRun.advance, SendPc.next, SendState.insertSendQueue_busy hflag, hflag]
    | false => simp [SendRun.advance, SendPc.next, SendState.insertSendQueue_idle hflag]
  | send | refused | execute | failed => exact ⟨h.sent_prefix, h.idle⟩
  | drain =>
    refine ⟨h.sent_prefix, fun _ => ?_⟩
    simp [SendRun.advance, SendPc.next]
  | testEmpty =>
    simp only [SendRun.advance, SendPc.next, SendState.testEmpty_full hfact]
    exact ⟨h.sent_prefix, h.idle⟩
  | post =>
    cases accepted with
    | true =>
      refine ⟨fun hrefused => ?_, h.idle⟩
      have hfirst : st.refusedOnce = false := by simpa using hok
      have hrefused : st.refusedOnce = true := hrefused
      rw [hfirst] at hrefused
      contradiction
    | false =>
      have hprefix := sent_prefix_of_inv hinv h
      exact ⟨fun _ => hprefix, h.idle⟩
  | releaseFlag =>
    have hempty : st.session.sendQueue = [] := by simpa using hok
    exact ⟨h.sent_prefix, fun _ => hempty⟩
  | checkSendComplete =>
    by_cases hqueue : st.session.sendQueue = []
    · simp only [SendRun.advance, SendPc.next, SendState.checkSendComplete_empty hqueue]
      exact ⟨h.sent_prefix, fun _ => hqueue⟩
    · simp only [SendRun.advance, SendPc.next, SendState.checkSendComplete_full hqueue]
      exact ⟨h.sent_prefix, h.idle⟩

theorem refusedInv_reaches {st : SendRun γ}
    (h : Reaches sendStep (fun st act => keepsOrder st act = true) .start st) :
    RefusedInv st := by
  refine h.invariant ⟨nofun, fun _ => rfl⟩ fun st act st' hr hinv hok hstep => ?_
  cases act with
  | call sendChunk =>
    cases Option.some.inj hstep
    exact ⟨hinv.sent_prefix, hinv.idle⟩
  | advance i accepted =>
    obtain ⟨pc, hi, rfl⟩ := Option.map_eq_some_iff.mp hstep
    exact refusedInv_advance (sendInv_reaches hr) hinv hi hok
  | complete i success =>
    simp only [sendStep] at hstep
    split at hstep
    case isTrue hi =>
      cases Option.some.inj hstep
      exact ⟨hinv.sent_prefix, hinv.idle⟩
    case isFalse => contradiction

theorem refused_send_noHole {st : SendRun γ}
    (h : Reaches sendStep (fun st act => keepsOrder st act = true) .start st) : NoHole st := by
  have hrefused := refusedInv_reaches h
  exact ⟨sent_prefix_of_inv (sendInv_reaches h) hrefused, fun hflag _ => hrefused.idle hflag⟩

def steps (n : Nat) (accepted : Bool) : List (SendAct Nat) :=
  List.replicate n (.advance 0 accepted)

/-- A refused `WSASend` that is the last thing on the connection. -/
theorem refused_send_noHole_at_end :
    NoHole (⟨⟨[], [], false⟩, [], [], [1, 2], [1], true⟩ : SendRun Nat) :=
  refused_send_noHole (reaches_of_run
    (.call 1 :: steps 5 true ++ .complete 0 true :: steps 2 true ++ .call 2 :: steps 7 false)
    .start (by decide))

/-- Chunk 1 is refused and dropped, chunk 2 is sent after it; and a chunk queued
while the refused `WSASend` was under way stays in the queue of an idle session. -/
theorem refused_send_hole :
    (∃ st, run sendStep .start
        (.call 1 :: steps 7 false ++ .call 2 :: steps 5 true) = some st ∧
      st.posted = [2] ∧ st.enqueued = [1, 2] ∧ ¬st.posted <+: st.enqueued) ∧
    (∃ st, run sendStep .start
        (.call 1 :: steps 3 true ++ [.call 2, .advance 1 true] ++ steps 4 false) = some st ∧
      st.session.sendFlag = false ∧ st.threads = [] ∧ st.session.sendQueue = [2]) := by
  constructor
  · exact ⟨_, rfl, by decide⟩
  · exact ⟨_, rfl, by decide⟩

end RoomServer
