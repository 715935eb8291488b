import RoomServer.ProcessMonitor

/-! `ServiceManager::Shutdown` comes to its end: nobody that `main` waits for stays away, and
no schedule of the threads is endless. -/
namespace RoomServer
open Library Library.Threads Library.Transition Library.WorkerPool Library.Descent

/-- Not a completion from the kernel, a signal or the passing of time. -/
def ProcessAct.own : ProcessAct → Bool
  | .signal | .take _ _ _ _ => false
  | .monitor timedOut => !timedOut
  | _ => true

def ProcessAct.calm : ProcessAct → Bool
  | .signal => false
  | .monitor timedOut => !timedOut
  | _ => true

section
variable {st st' : Process} {act : ProcessAct} {step : MainStep} {main : List MainStep}
  {roomCount poolSize acceptCount : Nat} {threadCount : Port → Nat}

/-! ### Whoever is waited for goes on -/

theorem main_goes (ok : Bool) (hmain : st.main = step :: main)
    (hstep : (st.mainStep ok step).isSome = true) :
    ∃ act, act.own = true ∧ (processStep st act).isSome = true :=
  ⟨.main ok, rfl, by simpa only [processStep, hmain, Option.isSome_map] using hstep⟩

/-- A thread that is not done can go on, or it waits for the rooms and one of them can. -/
theorem thread_goes (hpools : PoolsInv st) (hthreads : ThreadsInv st) {t : Nat}
    (ht : t < st.server.threads.length) (hdone : ¬ st.server.done t = true)
    (hroom : st.server.roomCount ≤ t) (hkeeps : st.keepsVector t = false) :
    ∃ act, act.own = true ∧ (processStep st act).isSome = true := by
  have hruns {u : Nat} (hu : u < st.server.threads.length) (hundone : ¬ st.server.done u = true)
      (hmay : st.mayRun u = true) : ∃ act, act.own = true ∧ (processStep st act).isSome = true := by
    obtain ⟨thread, hthread⟩ : ∃ thread, st.server.threads[u]? = some thread :=
      ⟨_, List.getElem?_eq_getElem hu⟩
    cases thread with
    | nil => exact absurd (done_iff.mpr hthread) hundone
    | cons instr rest =>
      refine ⟨.run u ⟨true, 0, fun _ => true, 0⟩, rfl, ?_⟩
      simp [processStep, hmay, serverStep, hthread]
  by_cases hmay : st.mayRun t = true
  · exact hruns ht hdone hmay
  · -- it is the one behind the joins of the rooms
    simp only [Process.mayRun, hkeeps, Bool.not_false, and_true, Bool.and_eq_true, Bool.or_eq_true,
      decide_eq_true_eq, hroom, true_or, true_and, not_or, Bool.not_eq_true', Bool.not_eq_false]
      at hmay
    obtain ⟨hrooms, hafter⟩ := hmay
    obtain ⟨thread, hthread⟩ : ∃ thread, st.server.threads[t]? = some thread :=
      ⟨_, List.getElem?_eq_getElem ht⟩
    have hclosing : st.closing = some t := by
      apply hthreads.joins t thread hthread
      rw [hthread] at hafter
      cases thread with
      | nil => contradiction
      | cons instr rest => exact ⟨instr, List.mem_cons_self, hafter⟩
    have hshutdown : .shutdown ∉ st.main := fun hmem => by
      rw [hthreads.unshut hmem] at hclosing
      contradiction
    have hstarted : .startRooms ∉ st.main :=
      passed hpools.program (mem_program (by decide)) hshutdown (by decide)
    obtain ⟨i, hi, hundone⟩ : ∃ i < st.server.roomCount, ¬ st.server.done i = true := by
      by_contra hall
      apply hrooms
      rw [Server.roomsDone, List.all_eq_true]
      intro i hi
      by_contra hundone
      exact hall ⟨i, List.mem_range.mp hi, hundone⟩
    have hlt : i < st.server.threads.length := Nat.lt_trans hi hthreads.size
    apply hruns hlt hundone
    have hbefore : ((st.server.threads[i]?.bind List.head?).any Instr.afterJoin) = false := by
      by_contra hany
      rw [Bool.not_eq_false, Option.any_eq_true] at hany
      obtain ⟨instr, hinstr, hafter⟩ := hany
      obtain ⟨thread, hthread, hhead⟩ := Option.bind_eq_some_iff.mp hinstr
      have hself := hthreads.joins i thread hthread ⟨instr, List.mem_of_head? hhead, hafter⟩
      have hgt := (hthreads.closing i hself).lt
      omega
    have hother : st.closing ≠ some i := fun hi' => by
      have hgt := (hthreads.closing i hi').lt
      omega
    simp [Process.mayRun, Process.keepsVector, hstarted, hbefore, hother]

/-- What `main` is at tells who can go on. -/
theorem somebody_goes (hpools : PoolsInv st) (hthreads : ThreadsInv st) (hmonitor : MonitorInv st)
    (hmain : st.main ≠ [])
    (hwait : st.main.head? = some .waitShutdown → st.shutdownEvent = true) :
    ∃ act, act.own = true ∧ (processStep st act).isSome = true := by
  obtain ⟨step, main, hsteps⟩ := List.exists_cons_of_ne_nil hmain
  have hprogram : step :: main <:+ Process.program st.threadCount := hsteps ▸ hpools.program
  cases step with
  | accepted =>
    by_cases hdone : st.server.done st.server.roomCount = true
    · exact main_goes true hsteps (by simp [Process.mainStep, hdone])
    · refine thread_goes hpools hthreads hthreads.size hdone (Nat.le_refl _) ?_
      have hother : st.closing ≠ some st.server.roomCount := fun h =>
        Nat.lt_irrefl _ (hthreads.closing _ h).lt
      simp [Process.keepsVector, hother]
  | waitShutdown =>
    have hsignal := hwait (by rw [hsteps]; rfl)
    exact main_goes true hsteps (by simp [Process.mainStep, hsignal])
  | closed =>
    have hshutdown : .shutdown ∉ st.main := hsteps ▸ earlier hprogram (by decide)
    obtain ⟨t, ht⟩ := hthreads.shut hshutdown
    have hclosing := hthreads.closing t ht
    by_cases hends : st.server.letsGo t = true
    · exact main_goes true hsteps (by simp [Process.mainStep, ht, hends])
    · exact thread_goes hpools hthreads hclosing.lt_length (fun hdone => hends (letsGo_done hdone))
        (Nat.le_of_lt hclosing.lt) (by simp [Process.keepsVector, hends])
  | returned =>
    have hshutdown : .shutdown ∉ st.main := hsteps ▸ earlier hprogram (by decide)
    obtain ⟨t, ht⟩ := hthreads.shut hshutdown
    have hclosing := hthreads.closing t ht
    by_cases hdone : st.server.done t = true
    · exact main_goes true hsteps (by simp [Process.mainStep, ht, hdone])
    · exact thread_goes hpools hthreads hclosing.lt_length hdone (Nat.le_of_lt hclosing.lt)
        (by simp [Process.keepsVector, hsteps])
  | post p =>
    have hstopped : .stop p ∉ st.main := hsteps ▸ earlier hprogram (by cases p <;> decide)
    have howed := (hpools.stopped p hstopped).2
    rw [hsteps, List.count_cons_self] at howed
    have hpos : 0 < (st.pools p).owed := by omega
    exact main_goes true hsteps (by simp [Process.mainStep, Process.poolAct, poolStep, hpos])
  | join p w =>
    have hearlier {x : MainStep} (hlt : x.order < (MainStep.join p w).order) : x ∉ st.main :=
      hsteps ▸ earlier hprogram hlt
    have hw : w < st.threadCount p := by
      have hmem := hprogram.subset List.mem_cons_self
      cases p <;> simpa [Process.program, Process.opening, Process.stopping, Process.joining] using hmem
    obtain ⟨hstop, howed⟩ := hpools.stopped p (hearlier (by cases p <;> simp [MainStep.order]))
    have hposts : .post p ∉ st.main := hearlier (by cases p <;> simp [MainStep.order])
    rw [List.count_eq_zero.mpr hposts] at howed
    have hlength := hpools.started p (hearlier (by cases p <;> simp [MainStep.order]))
    have hplace := List.getElem?_eq_getElem (hlength ▸ hw)
    rcases (hpools.sound p).goes_on hstop howed hplace with hended | ⟨t, hwork⟩ | ⟨pool, htest | hnull⟩
    · rw [hended] at hplace
      exact main_goes true hsteps (by simp [Process.mainStep, hplace])
    · rw [hwork] at hplace
      obtain ⟨hgt, hlt⟩ := hthreads.works p w t hplace
      by_cases hdone : st.server.done t = true
      · exact ⟨.finish p w, rfl, by simp [processStep, hplace, hdone, Process.poolAct, poolStep]⟩
      · refine thread_goes hpools hthreads hlt hdone (Nat.le_of_lt hgt) ?_
        simp [Process.keepsVector, hthreads.apart p w t hplace]
    · exact ⟨.test p w, rfl, by simp [processStep, Process.poolAct, htest]⟩
    · have hhandle : st.handle p = true := by
        by_contra hclosed
        refine hpools.closed p (Bool.not_eq_true _ ▸ hclosed) w hw ?_
        rw [hsteps]
        exact List.mem_cons_self
      exact ⟨.takeNull p w, rfl, by simp [processStep, hhandle, Process.poolAct, hnull]⟩
  | joinMonitor =>
    have hset : .setEvent ∉ st.main := hsteps ▸ earlier hprogram (by decide)
    by_cases hnone : st.monitorStop = none
    · exact main_goes true hsteps (by simp [Process.mainStep, hnone])
    · obtain ⟨set, hset'⟩ := Option.ne_none_iff_exists'.mp hnone
      obtain ⟨pc, hpc⟩ := Option.ne_none_iff_exists'.mp (hmonitor.started hnone)
      cases set with
      | false => exact absurd hset' (hmonitor.set hset)
      | true =>
        cases pc with
        | ended => exact main_goes true hsteps (by simp [Process.mainStep, hpc])
        | wait => exact ⟨.monitor false, rfl, by simp [processStep, hpc, Process.monitorStep, hset']⟩
        | count signalled => exact ⟨.monitor false, rfl, by simp [processStep, hpc, Process.monitorStep]⟩
        | print signalled n =>
          exact ⟨.monitor false, rfl, by simp [processStep, hpc, Process.monitorStep]⟩
  | shutdown => exact main_goes true hsteps (by simp [Process.mainStep, serverStep])
  | stop p =>
    exact main_goes true hsteps (by simp [Process.mainStep, Process.poolAct, poolStep])
  | _ => exact main_goes true hsteps (by simp [Process.mainStep])

/-- Wherever `main` waits, but for the signal, somebody can go on without one, without a
completion from the kernel and without the time that a wait of the monitor may take. -/
theorem main_goes_on
    (h : Reaches processStep always (.start roomCount poolSize acceptCount threadCount) st)
    (hmain : st.main ≠ [])
    (hwait : st.main.head? = some .waitShutdown → st.shutdownEvent = true) :
    ∃ act, act.own = true ∧ (processStep st act).isSome = true :=
  somebody_goes (poolsInv_reaches h) (threadsInv_reaches h) (monitorInv_reaches h) hmain hwait

/-! A client is let in and the second AcceptObject's session is posted; then the process is
told to end. -/

def runs (t n socket : Nat) : List ProcessAct :=
  List.replicate n (.run t ⟨true, socket, fun _ => true, 0⟩)

def mains (n : Nat) : List ProcessAct := List.replicate n (.main true)

def serving : List ProcessAct :=
  runs 1 5 100 ++ mains 5 ++ [.test .service 0, .test .listen 0, .take .listen 0 0 (.data [])] ++
    runs 2 9 101 ++ [.finish .listen 0, .test .listen 0, .signal]

/-- Up to the end of the loop over `CloseSession`; the room ends while `Join` waits for it. -/
def closing : List ProcessAct := mains 2 ++ runs 3 4 0 ++ runs 0 4 0 ++ runs 3 3 0

/-- Up to the posts of `IOCP::Stop`. -/
def shuttingDown : List ProcessAct := closing ++ mains 5

def joining : List ProcessAct :=
  [.takeNull .service 0, .test .service 0, .takeNull .listen 0, .test .listen 0] ++ mains 5 ++
    [.monitor false, .monitor false, .monitor false] ++ mains 1

/-- What the vector still holds goes; the client's receive is still posted. -/
def joined : List ProcessAct := joining ++ mains 1 ++ runs 3 1 0 ++ mains 2

theorem main_goes_on_joining :
    ∃ st, Reaches processStep always (.start 1 2 1 fun _ => 1) st ∧
      st.main.head? = some (.join .service 0) ∧
      ∃ act, act.own = true ∧ (processStep st act).isSome = true := by
  have hrun : (run (guarded processStep always) (.start 1 2 1 fun _ => 1)
      (serving ++ shuttingDown)).any (fun st => st.main.head? = some (.join .service 0)) = true := by
    decide +kernel
  obtain ⟨st, hst, hhead⟩ := (Option.any_eq_true _ _).mp hrun
  have hreaches : Reaches processStep always (.start 1 2 1 fun _ => 1) st :=
    reaches_of_run _ .start hst
  rw [decide_eq_true_eq] at hhead
  refine ⟨st, hreaches, hhead, main_goes_on hreaches ?_ ?_⟩
  · intro hnil
    rw [hnil] at hhead
    exact absurd hhead (by simp)
  · intro hwait
    rw [hhead] at hwait
    exact absurd hwait (by simp)

/-! ### The end comes -/

def MonitorPc.effort : MonitorPc → Nat
  | .count false => 5
  | .print false _ => 4
  | .wait => 3
  | .count true => 2
  | .print true _ => 1
  | .ended => 0

/-- What is left to do besides the handlers. -/
def Process.effort (st : Process) : Nat :=
  (st.pools .service).effort + (st.pools .listen).effort + st.main.length +
    (st.monitor.map MonitorPc.effort).getD 0

def Process.allowance (st : Process) : Nat :=
  (st.pools .service).allowance + (st.pools .listen).allowance

/-- What may still be taken, then what the handlers do, then the rest. -/
def Process.measure (st : Process) : Nat × (Multiset Nat × Nat) :=
  (st.allowance, ranks Instr.rank st.server.threads, st.effort)

def Process.Lower : Nat × (Multiset Nat × Nat) → Nat × (Multiset Nat × Nat) → Prop :=
  Prod.Lex (· < ·) (Prod.Lex Multiset.IsDershowitzMannaLT (· < ·))

theorem lower_wellFounded : WellFounded Process.Lower :=
  WellFounded.prod_lex wellFounded_lt
    (WellFounded.prod_lex Multiset.wellFounded_isDershowitzMannaLT wellFounded_lt)

def Process.Stopped (st : Process) : Prop := ∀ p, (st.pools p).stop = true

/-- Behind `Shutdown`'s part of the server nobody re-arms, and no room is left. -/
theorem settling_of_stopped (hinv : ServerInv st.server) (hpools : PoolsInv st)
    (hthreads : ThreadsInv st) (hstop : st.Stopped) : st.server.Settling := by
  have hgone : .stop .listen ∉ st.main := fun hmem => by
    have hrunning := (hpools.running .listen hmem).1
    rw [hstop .listen] at hrunning
    contradiction
  have hpassed {x : MainStep} (hlt : x.order < (MainStep.stop .listen).order) : x ∉ st.main :=
    passed hpools.program (mem_program (by decide)) hgone hlt
  obtain ⟨t, ht⟩ := hthreads.shut (hpassed (by decide))
  obtain ⟨hlisten, hrooms⟩ := (hthreads.shutting t ht).closed_server (hthreads.closing t ht)
    (hpassed (by decide))
  refine ⟨hlisten, fun x hx => ?_⟩
  obtain ⟨thread, hthread, hx⟩ := hx
  obtain ⟨u, hu⟩ := List.mem_iff_getElem?.mp hthread
  cases hroom : x.room? with
  | none => rfl
  | some i =>
    have hhome := (hinv.home u thread hu x hx i hroom).2
    have hnil := List.all_eq_true.mp hrooms u (List.mem_range.mpr hhome)
    rw [done_iff, hu] at hnil
    cases hnil
    exact absurd hx List.not_mem_nil

theorem stopped_step (hstop : st.Stopped) (hpools : PoolsInv st)
    (hstep : processStep st act = some st') : st'.Stopped := by
  have hkept {p : Port} {poolAct : WorkerAct Nat} {pool : Pool Nat} (hact : poolAct.ofWorker = true)
      (hstep : poolStep (st.pools p) poolAct = some pool) : (st.setPool p pool).Stopped :=
    setPool_cases (P := fun _ pool => pool.stop = true)
      ((worker_step hact hstep).1.trans (hstop p)) fun q _ => hstop q
  have hpassed (p : Port) : .stop p ∉ st.main := fun hmem => by
    have hrunning := (hpools.running p hmem).1
    rw [hstop p] at hrunning
    contradiction
  cases process_cases hstep with
  | signal | run => exact hstop
  | test p w h | takeNull p w _ h | finish p w _ _ h => exact hkept rfl h
  | take p w k completion _ _ _ h => exact hkept rfl h
  | monitor timedOut _ h =>
    obtain ⟨monitor, reports, rfl⟩ := monitor_frame h
    exact hstop
  | @main ok step main _ hmain h =>
    cases hpool : step.ofPool with
    | false =>
      intro p
      exact (main_frame h hpool).1 ▸ hstop p
    | true =>
      have hinv := poolsInv_main hpools hmain h hpool
      intro p
      refine (hinv.stopped p fun hmem => hpassed p ?_).1
      rw [hmain]
      exact List.mem_cons_of_mem _ hmem

theorem lower_of_effort (hallowance : st'.allowance = st.allowance)
    (hthreads : st'.server.threads = st.server.threads) (heffort : st'.effort < st.effort) :
    Process.Lower st'.measure st.measure := by
  unfold Process.measure
  rw [hallowance, hthreads]
  exact Prod.Lex.right _ (Prod.Lex.right _ heffort)

theorem worker_lower (hstop : st.Stopped) {p : Port} {poolAct : WorkerAct Nat} {pool : Pool Nat}
    (hact : poolAct.ofWorker = true) (htake : ∀ w job, poolAct ≠ .take w job)
    (hstep : poolStep (st.pools p) poolAct = some pool) :
    Process.Lower (st.setPool p pool).measure st.measure := by
  obtain ⟨heffort, hallowance⟩ := effort_step (hstop p) hact htake hstep
  apply lower_of_effort
  · cases p <;> simp [Process.allowance, Process.setPool, hallowance]
  · rfl
  · cases p <;> simp [Process.effort, Process.setPool] <;> omega

theorem monitor_lower (hmonitor : MonitorInv st) {pc : MonitorPc} (hpc : st.monitor = some pc)
    (h : st.monitorStep false pc = some st') : Process.Lower st'.measure st.measure := by
  cases pc with
  | wait =>
    simp only [Process.monitorStep] at h
    split at h
    case h_1 =>
      cases h
      apply lower_of_effort
      · rfl
      · rfl
      · simp [Process.effort, hpc, MonitorPc.effort]
    case h_2 => contradiction
    case h_3 hnone => exact absurd hnone (hmonitor.running _ hpc (by simp))
  | count signalled =>
    cases h
    apply lower_of_effort
    · rfl
    · rfl
    · cases signalled <;> simp [Process.effort, hpc, MonitorPc.effort]
  | print signalled connCount =>
    cases h
    apply lower_of_effort
    · rfl
    · rfl
    · cases signalled <;> simp [Process.effort, hpc, MonitorPc.effort]
  | ended => contradiction

/-- Behind the stops `main` has only the ends to wait for. -/
theorem main_stopped (hpools : PoolsInv st) (hstop : st.Stopped) {ok : Bool}
    (hmain : st.main = step :: main) (h : st.mainStep ok step = some st') :
    st'.server = st.server ∧ st'.monitor = st.monitor ∧
      ∀ p, (st'.pools p).places = (st.pools p).places ∧ (st'.pools p).late = (st.pools p).late := by
  have hgone : .stop .listen ∉ st.main := fun hmem => by
    have hrunning := (hpools.running .listen hmem).1
    rw [hstop .listen] at hrunning
    contradiction
  have hlate {x : MainStep} (hx : step = x)
      (hle : x.order < (MainStep.stop .listen).order) : False := by
    refine passed hpools.program (mem_program (by decide)) hgone hle ?_
    rw [hmain, hx]
    exact List.mem_cons_self
  cases step with
  | accepted | startRooms | startMonitor | waitShutdown | shutdown | closed =>
    exact (hlate rfl (by decide)).elim
  | start p => exact (hlate rfl (by cases p <;> decide)).elim
  | stop p =>
    cases p with
    | service => exact (hlate rfl (by decide)).elim
    | listen => exact absurd (hmain ▸ List.mem_cons_self) hgone
  | post p =>
    simp only [Process.mainStep, Process.poolAct] at h
    obtain ⟨pool, hpost, rfl⟩ := Option.map_eq_some_iff.mp h
    simp only [poolStep] at hpost
    split at hpost
    case isFalse => contradiction
    case isTrue =>
      cases hpost
      exact ⟨rfl, rfl, setPool_cases (P := fun q pool => pool.places = (st.pools q).places ∧
        pool.late = (st.pools q).late) ⟨rfl, rfl⟩ fun _ _ => ⟨rfl, rfl⟩⟩
  | _ =>
    simp only [Process.mainStep] at h
    repeat' split at h
    all_goals first | contradiction | (cases h; exact ⟨rfl, rfl, fun _ => ⟨rfl, rfl⟩⟩)

theorem measure_step (hinv : ServerInv st.server) (hpools : PoolsInv st) (hthreads : ThreadsInv st)
    (hmonitor : MonitorInv st) (hstop : st.Stopped) (hcalm : act.calm = true)
    (hstep : processStep st act = some st') : Process.Lower st'.measure st.measure := by
  cases process_cases hstep with
  | signal => contradiction
  | test p w h | takeNull p w _ h | finish p w _ _ h => exact worker_lower hstop rfl (by simp) h
  | @take p w k completion server pool _ _ _ h =>
    have htaken := allowance_take (hpools.sound p) (hstop p) h
    apply Prod.Lex.left
    change (st.setPool p pool).allowance < st.allowance
    cases p <;> simp [Process.allowance, Process.setPool] <;> omega
  | run t c _ hserver =>
    have hsettling := settling_of_stopped hinv hpools hthreads hstop
    obtain ⟨instr, rest, hthread, rfl⟩ := advance_cases hserver
    exact Prod.Lex.right _ (Prod.Lex.left _ _ (advance_lower hsettling hthread))
  | monitor timedOut hpc h =>
    have htimed : timedOut = false := by simpa [ProcessAct.calm] using hcalm
    subst htimed
    exact monitor_lower hmonitor hpc h
  | main ok hmain h =>
    obtain ⟨hserver, hmonitor, hpool⟩ := main_stopped hpools hstop hmain h
    apply lower_of_effort
    · simp only [Process.allowance, Pool.allowance, (hpool _).1, (hpool _).2]
    · rw [hserver]
    · simp only [Process.effort, Pool.effort, (hpool _).1, hmonitor, hmain, List.length_cons]
      omega

theorem calm_of_own (h : act.own = true) : act.calm = true := by
  cases act with
  | signal | take => contradiction
  | monitor timedOut => exact h
  | _ => rfl

/-- Once both ports are told to stop every run comes to its end, whatever the workers still
take and however the threads are interleaved; and it ends where `main` has returned. -/
theorem shutdown_ends
    (h : Reaches processStep always (.start roomCount poolSize acceptCount threadCount) st)
    (hstop : st.Stopped) :
    ¬Endless processStep (fun _ act => act.calm = true) st ∧
      ∀ st', Reaches processStep (fun _ act => act.calm = true) st st' →
        (∀ act, act.calm = true → processStep st' act = none) → st'.main = [] := by
  constructor
  · apply not_endless lower_wellFounded Process.measure (I := fun st =>
      Reaches processStep always (.start roomCount poolSize acceptCount threadCount) st ∧ st.Stopped)
    · exact ⟨h, hstop⟩
    · intro st act st' hinv hcalm hstep
      have hpools := poolsInv_reaches hinv.1
      refine ⟨⟨.next act hinv.1 trivial hstep, stopped_step hinv.2 hpools hstep⟩, ?_⟩
      exact measure_step (serverInv_reaches (process_reaches hinv.1)) hpools
        (threadsInv_reaches hinv.1) (monitorInv_reaches hinv.1) hinv.2 hcalm hstep
  · intro st' hreaches hnone
    have hinv : Reaches processStep always (.start roomCount poolSize acceptCount threadCount) st' ∧
        st'.Stopped := by
      apply hreaches.invariant (I := fun st =>
        Reaches processStep always (.start roomCount poolSize acceptCount threadCount) st ∧
          st.Stopped) ⟨h, hstop⟩
      intro st act st' _ hinv _ hstep
      exact ⟨.next act hinv.1 trivial hstep, stopped_step hinv.2 (poolsInv_reaches hinv.1) hstep⟩
    have hpools := poolsInv_reaches hinv.1
    by_contra hmain
    obtain ⟨act, hown, hsome⟩ := somebody_goes hpools (threadsInv_reaches hinv.1)
      (monitorInv_reaches hinv.1) hmain (by
        intro hhead
        obtain ⟨rest, hrest⟩ := List.head?_eq_some_iff.mp hhead
        -- the wait for the signal is long over
        have hlater := later (hrest ▸ hpools.program) (x := .stop .service)
          (mem_program (by decide)) (by decide)
        have hrunning := (hpools.running .service (hrest ▸ List.mem_cons_of_mem _ hlater)).1
        rw [hinv.2 .service] at hrunning
        contradiction)
    rw [hnone act (calm_of_own hown)] at hsome
    contradiction

theorem shutdown_ends_joining :
    ∃ st, Reaches processStep always (.start 1 2 1 fun _ => 1) st ∧ st.server.posted.length = 2 ∧
      ¬Endless processStep (fun _ act => act.calm = true) st := by
  have hrun : (run (guarded processStep always) (.start 1 2 1 fun _ => 1)
      (serving ++ shuttingDown)).any (fun st => decide (st.server.posted.length = 2 ∧
        (st.pools .service).stop = true ∧ (st.pools .listen).stop = true)) = true := by
    decide +kernel
  obtain ⟨st, hst, hends⟩ := (Option.any_eq_true _ _).mp hrun
  obtain ⟨hposted, hservice, hlisten⟩ := of_decide_eq_true hends
  have hreaches : Reaches processStep always (.start 1 2 1 fun _ => 1) st :=
    reaches_of_run _ .start hst
  have hstop : st.Stopped := by
    intro p
    cases p with
    | service => exact hservice
    | listen => exact hlisten
  exact ⟨st, hreaches, hposted, (shutdown_ends hreaches hstop).1⟩

end
end RoomServer
