import RoomServer.Shutdown

/-! What is left behind `ServiceManager::Shutdown`: the calls that no worker takes any more,
a process in which nothing is used after it is gone, and the last line of the monitor. -/
namespace RoomServer
open Library Library.Threads Library.Transition Library.WorkerPool

section
variable {st st' : Process} {act : ProcessAct}
  {roomCount poolSize acceptCount : Nat} {threadCount : Port → Nat}

/-! ### What the workers leave -/

def ProcessAct.takes (p : Port) : ProcessAct → Bool
  | .take q _ _ _ => decide (q = p)
  | _ => false

def Posted.session : Posted → Nat
  | .accept _ s | .recv s | .send s => s

def ProcessAct.leaves (posted : List Posted) : ProcessAct → List Posted
  | .take _ _ k _ => posted.eraseIdx k
  | _ => posted

/-- The calls of `posted` that no worker dequeues in the run. -/
def untaken (posted : List Posted) (acts : List ProcessAct) : List Posted :=
  acts.foldl ProcessAct.leaves posted

theorem threadCount_step (hstep : processStep st act = some st') :
    st'.threadCount = st.threadCount := by
  cases process_cases hstep with
  | monitor timedOut _ h =>
    obtain ⟨monitor, reports, rfl⟩ := monitor_frame h
    rfl
  | @main ok step main _ hmain h =>
    cases step with
    | shutdown | stop | post =>
      simp only [Process.mainStep, Process.poolAct] at h
      obtain ⟨_, _, rfl⟩ := Option.map_eq_some_iff.mp h
      rfl
    | startMonitor =>
      cases h
      dsimp only
      split <;> rfl
    | _ =>
      simp only [Process.mainStep] at h
      repeat' split at h
      all_goals first | contradiction | (cases h; rfl)
  | _ => rfl

theorem main_pool (hpools : PoolsInv st) {p : Port} (hstop : (st.pools p).stop = true) {ok : Bool}
    (hmain : st.main = step :: main) (h : st.mainStep ok step = some st') :
    (st'.pools p).stop = true ∧ (st'.pools p).allowance = (st.pools p).allowance := by
  have hprogram : step :: main <:+ Process.program st.threadCount := hmain ▸ hpools.program
  have hgone : .stop p ∉ st.main := fun hmem => by
    rw [(hpools.running p hmem).1] at hstop
    contradiction
  have hsame {q : Port} {pool : Pool Nat} (hpool : q = p → pool.stop = true ∧
      pool.allowance = (st.pools p).allowance) : ((st.setPool q pool).pools p).stop = true ∧
        ((st.setPool q pool).pools p).allowance = (st.pools p).allowance := by
    by_cases hqp : q = p
    · subst hqp
      simpa [Process.setPool] using hpool rfl
    · simp [Process.setPool, Ne.symm hqp, hstop]
  cases hpool : step.ofPool with
  | false =>
    rw [(main_frame h hpool).1]
    exact ⟨hstop, rfl⟩
  | true =>
    cases step with
    | start q =>
      cases h
      apply hsame
      rintro rfl
      have hlater := later hprogram (x := .stop q) (of_port_mem_program q).2.1 (by cases q <;> decide)
      exact absurd (hmain ▸ List.mem_cons_of_mem _ hlater) hgone
    | stop q =>
      cases h
      apply hsame
      rintro rfl
      exact absurd (hmain ▸ List.mem_cons_self) hgone
    | post q =>
      simp only [Process.mainStep, Process.poolAct] at h
      obtain ⟨pool, hpost, rfl⟩ := Option.map_eq_some_iff.mp h
      apply hsame
      rintro rfl
      simp only [poolStep] at hpost
      split at hpost
      case isFalse => contradiction
      case isTrue =>
        cases hpost
        exact ⟨hstop, rfl⟩
    | join q w =>
      simp only [Process.mainStep] at h
      split at h
      · cases h
        exact ⟨hstop, rfl⟩
      · contradiction
    | closeHandle q =>
      cases h
      exact ⟨hstop, rfl⟩
    | _ => contradiction

theorem allowance_step (hpools : PoolsInv st) {p : Port} (hstop : (st.pools p).stop = true)
    (hstep : processStep st act = some st') :
    (st'.pools p).stop = true ∧
      (st'.pools p).allowance + (act.takes p).toNat = (st.pools p).allowance := by
  have hworker {q : Port} {poolAct : WorkerAct Nat} {pool : Pool Nat}
      (hact : poolAct.ofWorker = true) (htake : ∀ w job, poolAct ≠ .take w job)
      (hstep : poolStep (st.pools q) poolAct = some pool) :
      ((st.setPool q pool).pools p).stop = true ∧
        ((st.setPool q pool).pools p).allowance = (st.pools p).allowance := by
    by_cases hqp : q = p
    · subst hqp
      simpa [Process.setPool] using And.intro ((worker_step hact hstep).1.trans hstop)
        (effort_step hstop hact htake hstep).2
    · simp [Process.setPool, Ne.symm hqp, hstop]
  cases process_cases hstep with
  | signal | run => exact ⟨hstop, rfl⟩
  | test q w h | takeNull q w _ h | finish q w _ _ h => exact hworker rfl (by simp) h
  | @take q w k completion server pool _ _ _ h =>
    by_cases hqp : q = p
    · subst hqp
      have htaken := allowance_take (hpools.sound q) hstop h
      have hkept := (worker_step rfl h).1.trans hstop
      simpa [Process.setPool, ProcessAct.takes] using And.intro hkept htaken
    · simp [Process.setPool, ProcessAct.takes, hqp, Ne.symm hqp, hstop]
  | main ok hmain h =>
    have hpool := main_pool hpools hstop hmain h
    exact hpool
  | monitor timedOut _ h =>
    obtain ⟨monitor, reports, rfl⟩ := monitor_frame h
    exact ⟨hstop, rfl⟩

theorem posted_step (hstep : processStep st act = some st') :
    act.leaves st.server.posted <+: st'.server.posted := by
  cases process_cases hstep with
  | signal | test | takeNull | finish => exact ⟨[], List.append_nil _⟩
  | monitor timedOut _ h =>
    obtain ⟨monitor, reports, rfl⟩ := monitor_frame h
    exact ⟨[], List.append_nil _⟩
  | main ok hmain h =>
    refine ⟨[], (List.append_nil _).trans ?_⟩
    rcases main_server h with hsame | hshutdown
    · exact congrArg Server.posted hsame.symm
    · simp only [serverStep, Option.some.injEq] at hshutdown
      dsimp only
      rw [← hshutdown]
      rfl
  | run t c _ h =>
    obtain ⟨instr, rest, _, rfl⟩ := advance_cases h
    obtain ⟨more, hposted⟩ := exec_posted_append c st.server instr
    exact ⟨more, hposted.symm⟩
  | take p w k completion _ _ h _ =>
    obtain ⟨op, _, rfl⟩ := Option.map_eq_some_iff.mp h
    exact ⟨[], List.append_nil _⟩

theorem leaves_append {old posted : List Posted} (h : old <+: posted) :
    act.leaves old <+: act.leaves posted := by
  cases act with
  | take p w k completion =>
    obtain ⟨more, rfl⟩ := h
    by_cases hk : k < old.length
    · exact ⟨more, (List.eraseIdx_append_of_lt_length hk more).symm⟩
    · have hle : old.length ≤ k := Nat.le_of_not_lt hk
      exact ⟨more.eraseIdx (k - old.length), by
        rw [ProcessAct.leaves, ProcessAct.leaves, List.eraseIdx_of_length_le hle,
          List.eraseIdx_append_of_length_le hle]⟩
  | _ => exact h

theorem untaken_run {acts : List ProcessAct} {old : List Posted} (h : old <+: st.server.posted)
    (hrun : run processStep st acts = some st') : untaken old acts <+: st'.server.posted := by
  induction acts generalizing st old with
  | nil =>
    cases hrun
    exact h
  | cons act acts ih =>
    obtain ⟨middle, hstep, hrest⟩ := Option.bind_eq_some_iff.mp hrun
    exact ih ((leaves_append h).trans (posted_step hstep)) hrest

theorem untaken_sublist (posted : List Posted) (acts : List ProcessAct) :
    (untaken posted acts).Sublist posted := by
  induction acts generalizing posted with
  | nil => exact .refl _
  | cons act acts ih =>
    refine (ih _).trans ?_
    cases act with
    | take p w k completion => exact List.eraseIdx_sublist posted k
    | _ => exact .refl _

/-- A worker takes one call, and of its own port. -/
theorem leaves_count {p : Port} {old : List Posted} (h : old <+: st.server.posted)
    (hstep : processStep st act = some st') :
    old.countP (fun op => op.port = p) ≤
      (act.leaves old).countP (fun op => op.port = p) + (act.takes p).toNat := by
  cases process_cases hstep with
  | @take q w k completion server pool _ hport _ _ =>
    simp only [ProcessAct.leaves, ProcessAct.takes]
    by_cases hk : k < old.length
    · have hperm := (List.getElem_cons_eraseIdx_perm hk).countP_eq fun op => op.port = p
      obtain ⟨more, hposted⟩ := h
      rw [← hposted, List.getElem?_append_left hk, List.getElem?_eq_getElem hk] at hport
      rw [List.countP_cons, of_decide_eq_true hport] at hperm
      rw [← hperm]
      by_cases hqp : q = p <;> simp [hqp]
    · rw [List.eraseIdx_of_length_le (Nat.le_of_not_lt hk)]
      exact Nat.le_add_right _ _
  | _ => exact Nat.le_add_right _ _

theorem untaken_count {p : Port} {acts : List ProcessAct} {old : List Posted}
    (h : old <+: st.server.posted) (hrun : run processStep st acts = some st') :
    old.countP (fun op => op.port = p) ≤
      (untaken old acts).countP (fun op => op.port = p) + acts.countP (ProcessAct.takes p) := by
  induction acts generalizing st old with
  | nil => exact Nat.le_add_right _ _
  | cons act acts ih =>
    obtain ⟨middle, hstep, hrest⟩ := Option.bind_eq_some_iff.mp hrun
    have hfirst := leaves_count (p := p) h hstep
    have hothers := ih ((leaves_append h).trans (posted_step hstep)) hrest
    have hboth : (act.takes p).toNat + acts.countP (ProcessAct.takes p) =
        (act :: acts).countP (ProcessAct.takes p) := by
      rw [List.countP_cons]
      cases act.takes p <;> simp [Nat.add_comm]
    change _ ≤ (untaken (act.leaves old) acts).countP _ + _
    omega

theorem takes_run (h : Reaches processStep always (.start roomCount poolSize acceptCount threadCount) st)
    {p : Port} (hstop : (st.pools p).stop = true) {acts : List ProcessAct}
    (hrun : run processStep st acts = some st') :
    acts.countP (ProcessAct.takes p) ≤ (st.pools p).allowance := by
  induction acts generalizing st with
  | nil => exact Nat.zero_le _
  | cons act acts ih =>
    obtain ⟨middle, hstep, hrest⟩ := Option.bind_eq_some_iff.mp hrun
    obtain ⟨hkept, hallowance⟩ := allowance_step (poolsInv_reaches h) hstop hstep
    have htaken := ih (.next act h trivial hstep) hkept hrest
    rw [List.countP_cons]
    cases htakes : act.takes p <;> simp only [htakes, Bool.toNat_true, Bool.toNat_false] at * <;>
      simp <;> omega

theorem posted_out {server : Server} (hinv : ServerInv server) {op : Posted}
    (hop : op ∈ server.posted) : op.session ∉ server.pool.pools := by
  have hholds : Holds server op.session := by
    have hfact := hinv.posted op hop
    cases op with
    | accept a s => exact accepting_holds hfact.1
    | recv s => exact .recv hfact
    | send s => exact .send hfact
  have hreturns := hinv.returns op.session
  rw [if_pos (Holds.iff.mpr hholds)] at hreturns
  rw [← List.count_eq_zero]
  omega

/-- From the moment a port is told to stop its workers dequeue no more than one completion
each. Whatever else was outstanding then stays outstanding to the end, and keeps its session
out of the pool all the while. -/
theorem left_behind
    (h : Reaches processStep always (.start roomCount poolSize acceptCount threadCount) st)
    {p : Port} (hstop : (st.pools p).stop = true) {acts : List ProcessAct}
    (hrun : run processStep st acts = some st') :
    acts.countP (ProcessAct.takes p) ≤ threadCount p ∧
      st.server.posted.countP (fun op => op.port = p) ≤
        (untaken st.server.posted acts).countP (fun op => op.port = p) + threadCount p ∧
      ∀ before after middle, acts = before ++ after → run processStep st before = some middle →
        (untaken st.server.posted acts).Sublist middle.server.posted ∧
          ∀ op ∈ untaken st.server.posted acts, op.session ∉ middle.server.pool.pools := by
  have hcount : st.threadCount = threadCount := by
    apply h.invariant (I := fun st => st.threadCount = threadCount) rfl
    intro st act st' _ hinv _ hstep
    exact (threadCount_step hstep).trans hinv
  have hbound : (st.pools p).allowance ≤ threadCount p := by
    have hpools := poolsInv_reaches h
    have hgone : .start p ∉ st.main := fun hmem => by
      have hstops : .stop p ∈ st.main := by
        by_contra hgone
        exact passed hpools.program (of_port_mem_program p).2.1 hgone (by cases p <;> decide) hmem
      rw [(hpools.running p hstops).1] at hstop
      contradiction
    rw [← hcount, ← hpools.started p hgone]
    exact allowance_le _
  have htaken : acts.countP (ProcessAct.takes p) ≤ threadCount p :=
    Nat.le_trans (takes_run h hstop hrun) hbound
  have hkept := untaken_count (p := p) (List.prefix_refl st.server.posted) hrun
  refine ⟨htaken, by omega, fun before after middle hacts hbefore => ?_⟩
  have hstill : (untaken st.server.posted acts).Sublist middle.server.posted := by
    rw [hacts, untaken, List.foldl_append]
    exact (untaken_sublist _ after).trans (untaken_run (List.prefix_refl _) hbefore).sublist
  have hinv := serverInv_reaches (process_reaches (h.run hbefore))
  exact ⟨hstill, fun op hop => posted_out hinv (hstill.subset hop)⟩

theorem left_behind_joined :
    ∃ st st', Reaches processStep always (.start 1 2 1 fun _ => 1) st ∧
      run processStep st joined = some st' ∧ st'.main = [] ∧
      untaken st.server.posted joined = [.recv 1, .accept 0 0] ∧
      ∀ op ∈ [Posted.recv 1, .accept 0 0], op.session ∉ st'.server.pool.pools := by
  have hrun : (run (guarded processStep always) (.start 1 2 1 fun _ => 1)
      (serving ++ shuttingDown)).any (fun st => (st.pools .service).stop &&
        (run processStep st joined).any fun st' => decide (st'.main = [] ∧
          untaken st.server.posted joined = [.recv 1, .accept 0 0])) = true := by decide +kernel
  obtain ⟨st, hst, hends⟩ := (Option.any_eq_true _ _).mp hrun
  obtain ⟨hstop, hends⟩ := (Bool.and_eq_true _ _).mp hends
  obtain ⟨st', hst', hends⟩ := (Option.any_eq_true _ _).mp hends
  obtain ⟨hmain, hleft⟩ := of_decide_eq_true hends
  have hreaches : Reaches processStep always (.start 1 2 1 fun _ => 1) st :=
    reaches_of_run _ .start hst
  have hbehind := (left_behind hreaches hstop hst').2.2 joined [] st' (List.append_nil _).symm hst'
  exact ⟨st, st', hreaches, hst', hmain, hleft, hleft ▸ hbehind.2⟩

/-! ### Nothing is used after it is gone -/

theorem other_still (hstill : st.Still) {t : Nat} (hne : st.closing ≠ some t)
    {thread : List Instr} (hthread : st.server.threads[t]? = some thread) : thread = [] := by
  have hdone := hstill.threads t (List.getElem?_eq_some_iff.mp hthread).1 hne
  rw [done_iff, hthread] at hdone
  exact Option.some.inj hdone

/-- Behind the join of the monitor only the handler of the console, `main` and the thread of
`Shutdown` still take steps. -/
theorem still_cases (hpools : PoolsInv st) (hthreads : ThreadsInv st) (hmonitor : MonitorInv st)
    (hjoined : .joinMonitor ∉ st.main) (hstep : processStep st act = some st') :
    (act = .signal ∧ st' = { st with shutdownEvent := true }) ∨
      (∃ ok step main next, st.main = step :: main ∧ st.mainStep ok step = some next ∧
        st' = { next with main := main }) ∨
      ∃ t c server, st.closing = some t ∧ serverStep st.server (.advance t c) = some server ∧
        st' = { st with server := server } := by
  have hstill := still_of_joined hpools hthreads
    (passed hpools.program (mem_program (by decide)) hjoined (by decide))
  have hworker {p : Port} {w : Nat} {place : Place Nat}
      (hplace : (st.pools p).places[w]? = some place) (hne : place ≠ .ended) : False :=
    hne (hstill.workers p w place hplace)
  cases process_cases hstep with
  | signal => exact .inl ⟨rfl, rfl⟩
  | main ok hmain h => exact .inr (.inl ⟨ok, _, _, _, hmain, h, rfl⟩)
  | run t c _ hserver =>
    obtain ⟨instr, rest, hthread, _⟩ := advance_cases hserver
    have hclosing : st.closing = some t := by
      by_contra hne
      exact absurd (other_still hstill hne hthread) (List.cons_ne_nil instr rest)
    exact .inr (.inr ⟨t, c, _, hclosing, hserver, rfl⟩)
  | test p w hpool | take p w k completion _ _ _ hpool | takeNull p w _ hpool =>
    simp only [poolStep] at hpool
    split at hpool
    case h_2 => contradiction
    case h_1 hplace => exact (hworker hplace (by simp)).elim
  | finish p w hwork _ _ => exact (hworker hwork (by simp)).elim
  | monitor timedOut hpc h =>
    rw [hmonitor.joined hjoined _ hpc] at h
    contradiction

/-- When `main` has returned no thread of the server is left. -/
theorem threads_of_returned (hpools : PoolsInv st) (hthreads : ThreadsInv st)
    (hreturned : .returned ∉ st.main) {t : Nat} {thread : List Instr}
    (hthread : st.server.threads[t]? = some thread) : thread = [] := by
  have hdone := hthreads.done_of_returned hpools hreturned t
    (List.getElem?_eq_some_iff.mp hthread).1
  rw [done_iff, hthread] at hdone
  exact Option.some.inj hdone

/-- A worker waits on an open port and the monitor on an open event; and when the singletons
are deleted and `main` returns, nothing but the handler of the console still runs. -/
theorem released_alone
    (h : Reaches processStep always (.start roomCount poolSize acceptCount threadCount) st) :
    (∀ (p : Port) (w : Nat), (st.pools p).places[w]? = some .wait → st.handle p = true) ∧
      (st.monitor = some .wait → st.monitorStop ≠ none) ∧
      (.release ∉ st.main → ∀ act, act ≠ .signal → processStep st act = none) := by
  have hpools := poolsInv_reaches h
  have hthreads := threadsInv_reaches h
  have hmonitor := monitorInv_reaches h
  refine ⟨fun p w hwait => ?_, fun hwait => hmonitor.running _ hwait (by simp), fun hgone act hact => ?_⟩
  · by_contra hclosed
    have hjoins := hpools.closed p (Bool.not_eq_true _ ▸ hclosed)
    have hlt := (List.getElem?_eq_some_iff.mp hwait).1
    have hstarted : .start p ∉ st.main := fun hmem => by
      rw [hpools.unstarted p hmem] at hwait
      contradiction
    rw [hpools.started p hstarted] at hlt
    have hended := hpools.joined p w hlt (hjoins w hlt)
    exact absurd (hwait.symm.trans hended) (by simp)
  · have hpassed {x : MainStep} (hlt : x.order < MainStep.release.order) : x ∉ st.main :=
      passed hpools.program (mem_program (by decide)) hgone hlt
    rw [← Option.not_isSome_iff_eq_none, Option.isSome_iff_exists]
    rintro ⟨st', hstep⟩
    rcases still_cases hpools hthreads hmonitor (hpassed (by decide)) hstep with
      ⟨hsignal, _⟩ | ⟨ok, step, main, next, hmain, _⟩ | ⟨t, c, server, _, hserver, _⟩
    · exact hact hsignal
    · have hmem : step ∈ st.main := hmain ▸ List.mem_cons_self
      by_cases hrelease : step = .release
      · exact hgone (hrelease ▸ hmem)
      · apply hpassed _ hmem
        cases step with
        | release => contradiction
        | start p | stop p | post p | join p | closeHandle p => cases p <;> simp [MainStep.order]
        | _ => simp [MainStep.order]
    · obtain ⟨instr, rest, hthread, _⟩ := advance_cases hserver
      exact absurd (threads_of_returned hpools hthreads (hpassed (by decide)) hthread) (by simp)

theorem released_alone_joined :
    ∃ st, Reaches processStep always (.start 1 2 1 fun _ => 1) st ∧ st.monitor = some .ended ∧
      ∀ act, act ≠ .signal → processStep st act = none := by
  have hrun : (run (guarded processStep always) (.start 1 2 1 fun _ => 1)
      (serving ++ shuttingDown ++ joined)).any (fun st => decide (st.main = [] ∧
        st.monitor = some .ended)) = true := by decide +kernel
  obtain ⟨st, hst, hends⟩ := (Option.any_eq_true _ _).mp hrun
  obtain ⟨hmain, hended⟩ := of_decide_eq_true hends
  have hreaches : Reaches processStep always (.start 1 2 1 fun _ => 1) st :=
    reaches_of_run _ .start hst
  refine ⟨st, hreaches, hended, (released_alone hreaches).2.2 ?_⟩
  rw [hmain]
  exact List.not_mem_nil

/-! ### The last line of the monitor -/

/-- The vector is the last to let the client's session go. -/
def released : List ProcessAct := mains 1 ++ runs 3 4 0 ++ mains 2

end
end RoomServer
