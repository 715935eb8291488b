import RoomServer.ServerInvariant

/-! A session object is never recycled while the kernel still has something of it. -/
namespace RoomServer
open Library Library.Threads Library.Transition

/-- A receive or a send of `s`, or an AcceptEx for it, is posted and not yet completed. -/
def Server.Outstanding (st : Server) (s : Nat) : Prop :=
  .recv s ∈ st.posted ∨ .send s ∈ st.posted ∨
    ∃ a s', .accept a s' ∈ st.posted ∧ (s' = s ∨ st.accepting a = some s)

section
variable {st : Server} {s : Nat} {ok : Server → ServerAct → Prop}
variable {roomCount poolSize acceptCount : Nat}

theorem outstanding_holds (hinv : ServerInv st) (h : st.Outstanding s) : Holds st s := by
  rcases h with h | h | ⟨a, s', h, rfl | haccepting⟩
  · exact .recv (hinv.posted _ h)
  · exact .send (hinv.posted _ h)
  · exact accepting_holds (hinv.posted _ h).1
  · exact accepting_holds haccepting

theorem total_receive (s : Nat) (posted : List Posted) :
    total (Posted.receive s) posted = posted.count (.recv s) := by
  induction posted with
  | nil => rfl
  | cons op posted ih =>
    rw [total_cons, ih, List.count_cons, Nat.add_comm]
    cases op <;> simp [Posted.receive]

theorem total_token (s : Nat) (posted : List Posted) :
    total (Posted.token s) posted = posted.count (.send s) := by
  induction posted with
  | nil => rfl
  | cons op posted ih =>
    rw [total_cons, ih, List.count_cons, Nat.add_comm]
    cases op <;> simp [Posted.token]

/-- In every run: what the kernel still has is held, out of the pool and not popped,
and it has at most one receive and one send of a session. -/
theorem outstanding_never_recycled
    (h : Reaches serverStep always (.start roomCount poolSize acceptCount) st) (s : Nat) :
    (st.Outstanding s →
        0 < st.useCount s ∧ s ∉ st.pool.pools ∧ st.popSession.2 ≠ some s) ∧
      st.posted.count (.recv s) ≤ 1 ∧ st.posted.count (.send s) ≤ 1 := by
  have hinv := serverInv_reaches h
  refine ⟨?_, ?_, ?_⟩
  · intro houtstanding
    have hholds := outstanding_holds hinv houtstanding
    refine ⟨Holds.iff.mpr hholds, ?_, ?_⟩
    · intro hmem
      have hpos := List.count_pos_iff.mpr hmem
      exact free_of_returning hinv (by omega) hholds
    · intro hpop
      have hpops : st.Pops s .rePop := hpop
      exact free_of_pops hinv hpops hholds
  · have hreceives := hinv.receives s
    rw [total_receive] at hreceives
    omega
  · have htokens := hinv.tokens s
    have hflag := Bool.toNat_lt (st.sessions s).send.sendFlag
    rw [total_token] at htokens
    omega

end

/-! A connection whose first packet is echoed: its next receive and the send of the
answer are with the kernel at once. -/

def goOn : Choice := ⟨true, 100, fun _ => true, 0⟩

def advances (t n : Nat) : List ServerAct := List.replicate n (.advance t goOn)

def echoRequest : Request := ⟨⟨PacketType.CLIENT_ECHO, List.replicate 64 0⟩, 0, true⟩

/-- The client is answered and leaves; the next client gets the same object and the same
number, and is answered too. -/
def answeredThenReused : List ServerAct :=
  advances 1 5 ++ [.complete 0 (.data [])] ++ advances 2 10 ++
    [.complete 0 (.data [echoRequest])] ++ advances 3 11 ++ [.complete 0 (.data [])] ++
    advances 4 4 ++ [.complete 0 .zero] ++ advances 5 18 ++
    [.complete 0 (.data [])] ++ advances 6 10 ++ [.complete 0 (.data [echoRequest])] ++
    advances 7 11

def acceptAndEcho : List ServerAct :=
  advances 1 5 ++ [.complete 0 (.data [])] ++ advances 2 10 ++
    [.complete 0 (.data [echoRequest])] ++ advances 3 10

theorem acceptAndEcho_outstanding :
    ∃ st, run (guarded serverStep always) (.start 1 1 1) acceptAndEcho = some st ∧
      .recv 0 ∈ st.posted ∧ .send 0 ∈ st.posted := by
  have h : (run (guarded serverStep always) (.start 1 1 1) acceptAndEcho).any
      (fun st => decide (.recv 0 ∈ st.posted ∧ .send 0 ∈ st.posted)) = true := by decide +kernel
  obtain ⟨st, hrun, hst⟩ := (Option.any_eq_true _ _).mp h
  exact ⟨st, hrun, of_decide_eq_true hst⟩

theorem outstanding_never_recycled_echo :
    ∃ st, Reaches serverStep always (.start 1 1 1) st ∧ .send 0 ∈ st.posted ∧
      0 < st.useCount 0 ∧ 0 ∉ st.pool.pools ∧ st.popSession.2 ≠ some 0 := by
  obtain ⟨st, hrun, _, hsend⟩ := acceptAndEcho_outstanding
  have hreaches : Reaches serverStep always (.start 1 1 1) st := reaches_of_run _ .start hrun
  exact ⟨st, hreaches, hsend, (outstanding_never_recycled hreaches 0).1 (.inr (.inl hsend))⟩

end RoomServer
