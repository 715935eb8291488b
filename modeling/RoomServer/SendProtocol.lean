import RoomServer.Library.Transition
import RoomServer.Library.Threads
import RoomServer.SendQueue

/-! One session's sends under any number of threads, interleaved at the sections
of `m_SendLock` and the calls between them. `m_SendFlag` stands for a single
token: it is held by the thread inside `Send`, by the posted `WSASend`, or by
the thread that handles its completion. -/
namespace RoomServer
open Library.Transition Library.Threads

inductive SendPc (γ : Type) where
  /-- `InsertSendQueue` was called; its section is next. -/
  | insertSendQueue (sendChunk : γ)
  /-- `Send` was entered; `m_Send.Clear()` is next. -/
  | send
  | drain
  | testEmpty
  /-- The `WSASend` call is next. -/
  | post
  /-- `WSASend` was refused; `m_Send.Clear()` is next. -/
  | refused
  | releaseFlag
  /-- A successful completion was dequeued; `Clear()` of `SendObject::Execute` is next. -/
  | execute
  | checkSendComplete
  /-- A failed completion was dequeued. Its `Clear()` is all it does to the send side: the
  flag stays set, and the token is gone. -/
  | failed
  deriving DecidableEq

structure SendRun (γ : Type) where
  session : SendState γ
  threads : List (SendPc γ)
  /-- The `WSASend`s accepted and not yet completed. -/
  outstanding : List (List γ)
  /-- History: every chunk enqueued, in lock order. -/
  enqueued : List γ
  /-- History: the chunks of the accepted `WSASend`s, concatenated. -/
  posted : List γ
  /-- History: whether some `WSASend` was refused. -/
  refusedOnce : Bool
  deriving DecidableEq

def SendRun.start : SendRun γ := ⟨.empty, [], [], [], [], false⟩

inductive SendAct (γ : Type) where
  | call (sendChunk : γ)
  /-- Thread `i` takes its next step; a `WSASend` call is accepted or refused. -/
  | advance (i : Nat) (accepted : Bool)
  /-- The completion of an outstanding `WSASend` is dequeued. -/
  | complete (i : Nat) (success : Bool)

def SendPc.next (s : SendState γ) (accepted : Bool) : SendPc γ → SendState γ × List (SendPc γ)
  | .insertSendQueue sendChunk =>
    let r := s.insertSendQueue sendChunk
    (r.1, if r.2 then [.send] else [])
  | .send => (s.clear, [.drain])
  | .drain => (s.drain, [.testEmpty])
  | .testEmpty =>
    let r := s.testEmpty
    (r.1, if r.2 then [] else [.post])
  | .post => (s, if accepted then [] else [.refused])
  | .refused => (s.clear, [.releaseFlag])
  | .releaseFlag => (s.releaseFlag, [])
  | .execute => (s.clear, [.checkSendComplete])
  | .checkSendComplete =>
    let r := s.checkSendComplete
    (r.1, if r.2 then [.send] else [])
  | .failed => (s.clear, [])

def SendRun.advance (st : SendRun γ) (i : Nat) (accepted : Bool) (pc : SendPc γ) : SendRun γ :=
  let r := pc.next st.session accepted
  let st := { st with session := r.1, threads := splice st.threads i r.2 }
  match pc with
  | .insertSendQueue sendChunk => { st with enqueued := st.enqueued ++ [sendChunk] }
  | .post =>
    if accepted then
      { st with
        outstanding := st.outstanding ++ [st.session.sendChunks]
        posted := st.posted ++ st.session.sendChunks }
    else { st with refusedOnce := true }
  | _ => st

def sendStep : Step (SendRun γ) (SendAct γ)
  | st, .call sendChunk => some { st with threads := st.threads ++ [.insertSendQueue sendChunk] }
  | st, .advance i accepted => st.threads[i]?.map (st.advance i accepted)
  | st, .complete i success =>
    if i < st.outstanding.length then
      some { st with
        outstanding := st.outstanding.eraseIdx i
        threads := st.threads ++ [if success then .execute else .failed] }
    else none

/-! ### The token -/

def SendPc.token : SendPc γ → Nat
  | .insertSendQueue _ => 0
  | _ => 1

def SendRun.tokens (st : SendRun γ) : Nat :=
  total SendPc.token st.threads + st.outstanding.length

/-- What the holder may rely on. -/
def SendPc.Fact (s : SendState γ) : SendPc γ → Prop
  | .send => s.sendQueue ≠ []
  | .drain => s.sendQueue ≠ [] ∧ s.sendChunks = []
  | .testEmpty | .post => s.sendChunks ≠ []
  | _ => True

def SendPc.drained : SendPc γ → Bool
  | .testEmpty | .post => true
  | _ => false

def SendRun.drained (st : SendRun γ) : List γ :=
  if st.threads.any SendPc.drained then st.session.sendChunks else []

/-- What holds in every run, whatever is refused or fails. -/
structure SendInv (st : SendRun γ) : Prop where
  token : st.tokens ≤ st.session.sendFlag.toNat
  facts : ∀ pc ∈ st.threads, pc.Fact st.session
  /-- Nothing is lost before the first refusal. -/
  order : st.refusedOnce = false →
    st.posted ++ st.drained ++ st.session.sendQueue = st.enqueued

theorem fact_of_token {pc : SendPc γ} (h : pc.token = 0) (s : SendState γ) : pc.Fact s := by
  cases pc with
  | insertSendQueue => trivial
  | _ => contradiction

theorem drained_of_token (pc : SendPc γ) (h : pc.token = 0) : pc.drained = false := by
  cases pc with
  | insertSendQueue => rfl
  | _ => contradiction

theorem sendInv_start : SendInv (SendRun.start : SendRun γ) :=
  ⟨Nat.le_refl 0, nofun, fun _ => rfl⟩

theorem sendInv_call {st : SendRun γ} (h : SendInv st) (sendChunk : γ) :
    SendInv { st with threads := st.threads ++ [.insertSendQueue sendChunk] } := by
  refine ⟨?_, ?_, ?_⟩
  · have := h.token
    simpa [SendRun.tokens, SendPc.token] using this
  · intro pc hpc
    rcases List.mem_append.mp hpc with hpc | hpc
    · exact h.facts pc hpc
    · cases List.mem_singleton.mp hpc
      trivial
  · intro hrefused
    have := h.order hrefused
    simpa [SendRun.drained, SendPc.drained] using this

theorem sendInv_complete {st : SendRun γ} (h : SendInv st) {i : Nat} (success : Bool)
    (hi : i < st.outstanding.length) :
    SendInv { st with
      outstanding := st.outstanding.eraseIdx i
      threads := st.threads ++ [if success then .execute else .failed] } := by
  refine ⟨?_, ?_, ?_⟩
  · have htoken := h.token
    have hone : SendPc.token (if success then (.execute : SendPc γ) else .failed) = 1 := by
      cases success <;> rfl
    simp only [SendRun.tokens, total_append, total_cons, total_nil, hone,
      List.length_eraseIdx_of_lt hi] at htoken ⊢
    omega
  · intro pc hpc
    rcases List.mem_append.mp hpc with hpc | hpc
    · exact h.facts pc hpc
    · cases List.mem_singleton.mp hpc
      cases success <;> trivial
  · intro hrefused
    have := h.order hrefused
    cases success <;> simpa [SendRun.drained, SendPc.drained] using this

theorem fact_insert {pc : SendPc γ} {s : SendState γ} (h : pc.Fact s) (sendChunk : γ) :
    pc.Fact (s.insertSendQueue sendChunk).1 := by
  unfold SendState.insertSendQueue
  cases hflag : s.sendFlag <;> cases pc <;> simp_all [SendPc.Fact]

theorem sendInv_insert {st : SendRun γ} (h : SendInv st) {i : Nat} {sendChunk : γ}
    (hi : st.threads[i]? = some (.insertSendQueue sendChunk)) :
    SendInv { st with
      session := (st.session.insertSendQueue sendChunk).1
      threads := splice st.threads i
        (if (st.session.insertSendQueue sendChunk).2 then [.send] else [])
      enqueued := st.enqueued ++ [sendChunk] } := by
  have htoken := h.token
  have hfacts (pc : SendPc γ) (hpc : pc ∈ st.threads) := fact_insert (h.facts pc hpc) sendChunk
  have horder := h.order
  unfold SendRun.tokens at htoken
  cases hflag : st.session.sendFlag with
  | true =>
    rw [SendState.insertSendQueue_busy hflag] at hfacts ⊢
    refine ⟨?_, ?_, ?_⟩
    · have hmove := total_splice SendPc.token [] hi
      simp only [SendPc.token, total_nil] at hmove
      simp only [SendRun.tokens, Bool.false_eq_true, ↓reduceIte]
      omega
    · intro pc hpc
      rcases mem_splice hpc with hpc | hpc
      · contradiction
      · exact hfacts pc hpc
    · intro hrefused
      have hany : (splice st.threads i []).any SendPc.drained = st.threads.any SendPc.drained :=
        any_splice hi rfl rfl
      simp only [SendRun.drained, Bool.false_eq_true, ↓reduceIte, hany, ← horder hrefused,
        List.append_assoc]
  | false =>
    rw [SendState.insertSendQueue_idle hflag] at hfacts ⊢
    refine ⟨?_, ?_, ?_⟩
    · have hmove := total_splice SendPc.token [.send] hi
      simp only [SendPc.token, total_nil, total_cons] at hmove
      rw [hflag] at htoken
      simp only [Bool.toNat_false] at htoken
      simp only [SendRun.tokens, ↓reduceIte, Bool.toNat_true]
      omega
    · intro pc hpc
      rcases mem_splice hpc with hpc | hpc
      · cases List.mem_singleton.mp hpc
        simp [SendPc.Fact]
      · exact hfacts pc hpc
    · intro hrefused
      have hany : (splice st.threads i [.send]).any SendPc.drained =
          st.threads.any SendPc.drained := any_splice hi rfl rfl
      simp only [SendRun.drained, ↓reduceIte, hany, ← horder hrefused, List.append_assoc]

/-! ### The holder's steps -/

structure Alone (st : SendRun γ) (pc : SendPc γ) : Prop where
  all : total SendPc.token st.threads ≤ pc.token
  outstanding : st.outstanding = []
  flag : st.session.sendFlag = true
  drained : st.drained = if pc.drained then st.session.sendChunks else []

theorem alone {st : SendRun γ} (h : SendInv st) {i : Nat} {pc : SendPc γ}
    (hi : st.threads[i]? = some pc) (hpc : pc.token = 1) : Alone st pc := by
  have htoken := h.token
  have hle := le_total SendPc.token (List.mem_of_getElem? hi)
  have hflag := Bool.toNat_le st.session.sendFlag
  unfold SendRun.tokens at htoken
  have hall : total SendPc.token st.threads ≤ pc.token := by omega
  refine ⟨hall, List.length_eq_zero_iff.mp (by omega), ?_, ?_⟩
  · cases hf : st.session.sendFlag with
    | true => rfl
    | false =>
      rw [hf, Bool.toNat_false] at htoken
      omega
  · unfold SendRun.drained
    rw [any_of_holder SendPc.token hi hall drained_of_token]

/-- What has to be checked when the holder moves: only its own new position. -/
theorem sendInv_holder {st : SendRun γ} (h : SendInv st) {i : Nat} {pc : SendPc γ}
    (hi : st.threads[i]? = some pc) (hpc : pc.token = 1) {s : SendState γ}
    {next : List (SendPc γ)} {outstanding : List (List γ)} {posted : List γ} {refusedOnce : Bool}
    (htoken : total SendPc.token next + outstanding.length ≤ s.sendFlag.toNat)
    (hfacts : ∀ pc ∈ next, pc.Fact s)
    (horder : refusedOnce = false →
      posted ++ (if next.any SendPc.drained then s.sendChunks else []) ++ s.sendQueue =
        st.enqueued) :
    SendInv ⟨s, splice st.threads i next, outstanding, st.enqueued, posted, refusedOnce⟩ := by
  have halone := alone h hi hpc
  refine ⟨?_, ?_, ?_⟩
  · have hmove := total_splice SendPc.token next hi
    have hall := halone.all
    simp only [SendRun.tokens]
    omega
  · intro u hu
    rcases mem_splice_of_holder SendPc.token hi halone.all hu with hu | ⟨_, hzero⟩
    · exact hfacts u hu
    · exact fact_of_token hzero s
  · unfold SendRun.drained
    rw [any_splice_of_holder SendPc.token next hi halone.all drained_of_token]
    exact horder

theorem sendInv_advance {st st' : SendRun γ} (h : SendInv st) {i : Nat} {accepted : Bool}
    (hstep : sendStep st (.advance i accepted) = some st') : SendInv st' := by
  obtain ⟨pc, hi, hstep⟩ := Option.map_eq_some_iff.mp hstep
  subst hstep
  have hfact := h.facts pc (List.mem_of_getElem? hi)
  have horder := h.order
  cases pc with
  | insertSendQueue sendChunk =>
    exact sendInv_insert h hi
  | send =>
    have halone := alone h hi rfl
    rw [halone.drained] at horder
    refine sendInv_holder h hi rfl ?_ ?_ horder
    · simp [SendPc.next, SendState.clear, halone.flag, halone.outstanding, SendPc.token]
    · intro u hu
      cases List.mem_singleton.mp hu
      exact ⟨hfact, rfl⟩
  | drain =>
    have halone := alone h hi rfl
    rw [halone.drained] at horder
    simp only [SendRun.advance, SendPc.next, SendState.drain_eq, hfact.2, List.nil_append]
    refine sendInv_holder h hi rfl ?_ ?_ ?_
    · simp [halone.flag, halone.outstanding, SendPc.token]
    · intro u hu
      cases List.mem_singleton.mp hu
      exact hfact.1
    · intro hrefused
      simpa [SendPc.drained] using horder hrefused
  | testEmpty =>
    have halone := alone h hi rfl
    rw [halone.drained] at horder
    simp only [SendRun.advance, SendPc.next, SendState.testEmpty_full hfact, Bool.false_eq_true, ↓reduceIte]
    refine sendInv_holder h hi rfl ?_ ?_ horder
    · simp [halone.flag, halone.outstanding, SendPc.token]
    · intro u hu
      cases List.mem_singleton.mp hu
      exact hfact
  | post =>
    have halone := alone h hi rfl
    rw [halone.drained] at horder
    cases accepted with
    | true =>
      refine sendInv_holder h hi rfl ?_ ?_ ?_
      · simp [SendPc.next, halone.flag, halone.outstanding]
      · intro u hu
        contradiction
      · intro hrefused
        simpa [SendPc.drained, SendPc.next] using horder hrefused
    | false =>
      refine sendInv_holder h hi rfl ?_ ?_ nofun
      · simp [SendPc.next, halone.flag, halone.outstanding, SendPc.token]
      · intro u hu
        cases List.mem_singleton.mp hu
        trivial
  | refused =>
    have halone := alone h hi rfl
    rw [halone.drained] at horder
    refine sendInv_holder h hi rfl ?_ ?_ horder
    · simp [SendPc.next, SendState.clear, halone.flag, halone.outstanding, SendPc.token]
    · intro u hu
      cases List.mem_singleton.mp hu
      trivial
  | releaseFlag =>
    have halone := alone h hi rfl
    rw [halone.drained] at horder
    refine sendInv_holder h hi rfl ?_ ?_ horder
    · simp [SendPc.next, halone.outstanding]
    · intro u hu
      contradiction
  | execute =>
    have halone := alone h hi rfl
    rw [halone.drained] at horder
    refine sendInv_holder h hi rfl ?_ ?_ horder
    · simp [SendPc.next, SendState.clear, halone.flag, halone.outstanding, SendPc.token]
    · intro u hu
      cases List.mem_singleton.mp hu
      trivial
  | checkSendComplete =>
    have halone := alone h hi rfl
    rw [halone.drained] at horder
    by_cases hqueue : st.session.sendQueue = []
    · simp only [SendRun.advance, SendPc.next, SendState.checkSendComplete_empty hqueue, Bool.false_eq_true,
        ↓reduceIte]
      refine sendInv_holder h hi rfl ?_ ?_ horder
      · simp [halone.outstanding]
      · intro u hu
        contradiction
    · simp only [SendRun.advance, SendPc.next, SendState.checkSendComplete_full hqueue, ↓reduceIte]
      refine sendInv_holder h hi rfl ?_ ?_ horder
      · simp [halone.flag, halone.outstanding, SendPc.token]
      · intro u hu
        cases List.mem_singleton.mp hu
        exact hqueue
  | failed =>
    have halone := alone h hi rfl
    rw [halone.drained] at horder
    refine sendInv_holder h hi rfl ?_ ?_ horder
    · simp [SendPc.next, halone.outstanding]
    · intro u hu
      contradiction

theorem sendInv_step {st st' : SendRun γ} {act : SendAct γ} (h : SendInv st)
    (hstep : sendStep st act = some st') : SendInv st' := by
  cases act with
  | call sendChunk =>
    cases Option.some.inj hstep
    exact sendInv_call h sendChunk
  | advance i accepted => exact sendInv_advance h hstep
  | complete i success =>
    simp only [sendStep] at hstep
    split at hstep
    case isTrue hi =>
      cases Option.some.inj hstep
      exact sendInv_complete h success hi
    case isFalse => contradiction

theorem sendInv_reaches {ok : SendRun γ → SendAct γ → Prop} {st : SendRun γ}
    (h : Reaches sendStep ok .start st) : SendInv st :=
  h.invariant sendInv_start fun _ _ _ _ hinv _ hstep => sendInv_step hinv hstep

end RoomServer
