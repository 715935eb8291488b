import RoomServer.Conservation
import RoomServer.ProcessInvariant

/-! The monitor next to the shutdown: it is told to stop when everybody else has, and its
last line is printed after that. -/
namespace RoomServer
open Library Library.Threads Library.Transition Library.WorkerPool

section
variable {st st' : Process} {act : ProcessAct} {step : MainStep} {main : List MainStep}

def MonitorPc.signalled : MonitorPc → Bool
  | .wait => false
  | .count signalled | .print signalled _ => signalled
  | .ended => true

structure MonitorInv (st : Process) : Prop where
  unstarted : .startMonitor ∈ st.main → st.monitor = none ∧ st.monitorStop = none
  started : st.monitorStop ≠ none → st.monitor ≠ none
  running : ∀ pc, st.monitor = some pc → pc ≠ .ended → st.monitorStop ≠ none
  unset : .setEvent ∈ st.main →
    st.monitorStop ≠ some true ∧ ∀ pc, st.monitor = some pc → pc.signalled = false
  set : .setEvent ∉ st.main → st.monitorStop ≠ some false
  joined : .joinMonitor ∉ st.main → ∀ pc, st.monitor = some pc → pc = .ended
  counted : ∀ connCount, st.monitor = some (.print true connCount) →
    connCount = st.server.userSession.values.length
  printed : .closeEvent ∈ st.main → st.monitor = some .ended →
    st.reports.getLast? = some (st.report st.server.userSession.values.length)

theorem monitorInv_start (roomCount poolSize acceptCount : Nat) (threadCount : Port → Nat) :
    MonitorInv (.start roomCount poolSize acceptCount threadCount) where
  unstarted _ := ⟨rfl, rfl⟩
  started hne := absurd rfl hne
  running _ hpc := absurd hpc (by simp [Process.start])
  unset _ := ⟨by simp [Process.start], fun _ hpc => absurd hpc (by simp [Process.start])⟩
  set hgone := absurd (mem_program (by decide)) hgone
  joined hgone := absurd (mem_program (by decide)) hgone
  counted _ hpc := absurd hpc (by simp [Process.start])
  printed _ hpc := absurd hpc (by simp [Process.start])

theorem MonitorInv.open (h : MonitorInv st) (hpools : PoolsInv st) {pc : MonitorPc}
    (hpc : st.monitor = some pc) (hne : pc ≠ .ended) : .closeEvent ∈ st.main := by
  by_contra hgone
  exact hne (h.joined (passed hpools.program (mem_program (by decide)) hgone (by decide)) pc hpc)

/-- A step that is not the monitor's, and that does not change the server once the monitor
has seen the event and before `StopMonitor` returns. -/
theorem MonitorInv.frame (h : MonitorInv st) (hpools : PoolsInv st)
    (hmonitor : st'.monitor = st.monitor)
    (hstop : st'.monitorStop = st.monitorStop) (hreports : st'.reports = st.reports)
    (hserver : .setEvent ∉ st.main → .closeEvent ∈ st.main → st'.server = st.server)
    (hmain : ∀ x ∈ [MainStep.startMonitor, .setEvent, .joinMonitor, .closeEvent],
      x ∈ st'.main ↔ x ∈ st.main) : MonitorInv st' := by
  have hserver {pc : MonitorPc} (hpc : st.monitor = some pc) (hsignalled : pc.signalled = true)
      (hopen : .closeEvent ∈ st.main) : st'.server = st.server := by
    refine hserver (fun hmem => ?_) hopen
    rw [(h.unset hmem).2 pc hpc] at hsignalled
    contradiction
  refine ⟨?_, ?_, ?_, ?_, ?_, ?_, fun connCount hpc => ?_, fun hopen hpc => ?_⟩
  · rw [hmonitor, hstop, hmain _ (by simp)]
    exact h.unstarted
  · rw [hmonitor, hstop]
    exact h.started
  · rw [hmonitor, hstop]
    exact h.running
  · rw [hmonitor, hstop, hmain _ (by simp)]
    exact h.unset
  · rw [hstop, hmain _ (by simp)]
    exact h.set
  · rw [hmonitor, hmain _ (by simp)]
    exact h.joined
  · rw [hmonitor] at hpc
    rw [hserver hpc rfl (h.open hpools hpc (by simp))]
    exact h.counted connCount hpc
  · rw [hmonitor] at hpc
    rw [hmain _ (by simp)] at hopen
    have hsame := hserver hpc rfl hopen
    have hreport : st'.report = st.report := by
      unfold Process.report
      rw [hsame]
    rw [hreports, hreport, hsame]
    exact h.printed hopen hpc

theorem monitorInv_monitor (h : MonitorInv st) {timedOut : Bool} {pc : MonitorPc}
    (hpc : st.monitor = some pc) (hstep : st.monitorStep timedOut pc = some st') :
    MonitorInv st' := by
  have hstarted : .startMonitor ∉ st.main := fun hmem => by
    rw [(h.unstarted hmem).1] at hpc
    contradiction
  have hjoining (hne : pc ≠ .ended) : .joinMonitor ∈ st.main := by
    by_contra hgone
    exact hne (h.joined hgone pc hpc)
  cases pc with
  | wait =>
    have hopen := h.running _ hpc (by simp)
    simp only [Process.monitorStep] at hstep
    split at hstep
    case h_1 hset =>
      cases hstep
      refine ⟨fun hmem => absurd hmem hstarted, fun _ => by simp, fun _ _ _ => hopen,
        fun hmem => absurd hset (h.unset hmem).1, h.set, fun hgone => absurd (hjoining (by simp)) hgone,
        by simp, by simp⟩
    case h_2 hunset =>
      split at hstep
      case isFalse => contradiction
      case isTrue =>
        cases hstep
        refine ⟨fun hmem => absurd hmem hstarted, fun _ => by simp, fun _ _ _ => hopen,
          fun hmem => ⟨(h.unset hmem).1, fun pc hpc => ?_⟩, h.set,
          fun hgone => absurd (hjoining (by simp)) hgone, by simp, by simp⟩
        cases hpc
        rfl
    case h_3 hnone => exact absurd hnone hopen
  | count signalled =>
    cases hstep
    have hopen := h.running _ hpc (by simp)
    refine ⟨fun hmem => absurd hmem hstarted, fun _ => by simp, fun _ _ _ => hopen,
      fun hmem => ⟨(h.unset hmem).1, fun pc hnew => ?_⟩, h.set,
      fun hgone => absurd (hjoining (by simp)) hgone, fun connCount hnew => ?_, by simp⟩
    · have hfalse : signalled = false := (h.unset hmem).2 _ hpc
      cases hnew
      exact hfalse
    · cases hnew
      rfl
  | print signalled connCount =>
    cases hstep
    have hopen := h.running _ hpc (by simp)
    refine ⟨fun hmem => absurd hmem hstarted, fun _ => by simp, fun _ _ _ => hopen,
      fun hmem => ⟨(h.unset hmem).1, fun pc hnew => ?_⟩, h.set,
      fun hgone => absurd (hjoining (by simp)) hgone, fun n hnew => ?_, fun _ hnew => ?_⟩
    · have hfalse : signalled = false := (h.unset hmem).2 _ hpc
      rw [hfalse] at hnew
      cases hnew
      rfl
    · dsimp only at hnew
      split at hnew <;> cases hnew
    · cases signalled with
      | false => cases hnew
      | true =>
        have hcount := h.counted connCount hpc
        rw [List.getLast?_append, List.getLast?_singleton, Option.some_or, hcount]
        rfl
  | ended => contradiction

theorem monitorInv_main (hpools : PoolsInv st) (h : MonitorInv st)
    (hmain : st.main = step :: main) {ok : Bool} (hstep : st.mainStep ok step = some st')
    (hserver : .setEvent ∉ st.main → .closeEvent ∈ st.main → st'.server = st.server) :
    MonitorInv { st' with main := main } := by
  have hprogram : step :: main <:+ Process.program st.threadCount := hmain ▸ hpools.program
  have hkept {x : MainStep} (hne : x ≠ step) : x ∈ main ↔ x ∈ st.main := by
    rw [hmain, List.mem_cons]
    exact ⟨.inr, fun hmem => hmem.resolve_left hne⟩
  cases step with
  | startMonitor =>
    have hnone := h.unstarted (hmain ▸ List.mem_cons_self)
    have hset : .setEvent ∈ main := later hprogram (mem_program (by decide)) (by decide)
    have hjoin : .joinMonitor ∈ main := later hprogram (mem_program (by decide)) (by decide)
    cases hstep
    cases ok with
    | true =>
      refine ⟨fun hmem => absurd hmem (once hprogram rfl), fun _ => by simp, fun _ _ _ => by simp,
        fun _ => ⟨by simp, fun pc hpc => ?_⟩, fun hgone => absurd hset hgone,
        fun hgone => absurd hjoin hgone, by simp, by simp⟩
      cases hpc
      rfl
    | false =>
      refine ⟨fun _ => hnone, h.started, h.running, fun _ => h.unset ((hkept (by simp)).mp hset),
        fun hgone => absurd hset hgone, fun hgone => absurd hjoin hgone, h.counted,
        fun hopen => h.printed ((hkept (by simp)).mp hopen)⟩
  | setEvent =>
    cases hstep
    refine ⟨fun hmem => h.unstarted ((hkept (by simp)).mp hmem) |>.imp_right fun hnone => ?_,
      fun hne => h.started fun hnone => ?_, fun pc hpc hne hnone => ?_,
      fun hmem => absurd hmem (once hprogram rfl), fun _ => ?_,
      fun hgone => h.joined ((hkept (by simp)).not.mp hgone), h.counted,
      fun hopen => h.printed ((hkept (by simp)).mp hopen)⟩
    · simp [hnone]
    · simp [hnone] at hne
    · exact h.running pc hpc hne (Option.map_eq_none_iff.mp hnone)
    · cases st.monitorStop <;> simp
  | joinMonitor =>
    simp only [Process.mainStep] at hstep
    split at hstep
    case isFalse => contradiction
    case isTrue hdone =>
      cases hstep
      refine ⟨fun hmem => h.unstarted ((hkept (by simp)).mp hmem), h.started, h.running,
        fun hmem => h.unset ((hkept (by simp)).mp hmem),
        fun hgone => h.set ((hkept (by simp)).not.mp hgone), fun _ pc hpc => ?_, h.counted,
        fun hopen => h.printed ((hkept (by simp)).mp hopen)⟩
      simp only [Bool.or_eq_true, decide_eq_true_eq] at hdone
      rcases hdone with hnone | hended
      · by_contra hne
        exact h.running pc hpc hne hnone
      · exact Option.some.inj (hpc.symm.trans hended)
  | closeEvent =>
    cases hstep
    have hjoined : .joinMonitor ∉ st.main := hmain ▸ earlier hprogram (by decide)
    have hset : .setEvent ∉ st.main := hmain ▸ earlier hprogram (by decide)
    have hstarted : .startMonitor ∉ st.main := hmain ▸ earlier hprogram (by decide)
    refine ⟨fun hmem => absurd ((hkept (by simp)).mp hmem) hstarted, fun hne => absurd rfl hne,
      fun pc hpc hne => absurd (h.joined hjoined pc hpc) hne,
      fun hmem => absurd ((hkept (by simp)).mp hmem) hset, fun _ => by simp,
      fun _ => h.joined hjoined, h.counted, fun hopen => absurd hopen (once hprogram rfl)⟩
  | _ =>
    obtain ⟨hmonitor, hstop, hreports⟩ : st'.monitor = st.monitor ∧
        st'.monitorStop = st.monitorStop ∧ st'.reports = st.reports := by
      simp only [Process.mainStep, Process.poolAct] at hstep
      first
        | (obtain ⟨_, _, rfl⟩ := Option.map_eq_some_iff.mp hstep; exact ⟨rfl, rfl, rfl⟩)
        | (repeat' split at hstep
           all_goals first | contradiction | (cases hstep; exact ⟨rfl, rfl, rfl⟩))
    refine h.frame hpools hmonitor hstop hreports hserver fun x hx => hkept ?_
    simp only [List.mem_cons, List.not_mem_nil, or_false] at hx
    rcases hx with rfl | rfl | rfl | rfl <;> simp

theorem monitorInv_step (hpools : PoolsInv st) (hthreads : ThreadsInv st) (h : MonitorInv st)
    (hstep : processStep st act = some st') : MonitorInv st' := by
  have hserver (hgone : .setEvent ∉ st.main) (hopen : .closeEvent ∈ st.main) :
      st'.server = st.server :=
    still_step hpools hthreads
      (passed hpools.program (mem_program (by decide)) hgone (by decide)) hopen hstep
  cases process_cases hstep with
  | signal => exact h.frame hpools rfl rfl rfl (fun _ _ => rfl) fun _ _ => Iff.rfl
  | main ok hmain hmainStep => exact monitorInv_main hpools h hmain hmainStep hserver
  | run | test | takeNull | finish | take =>
    exact h.frame hpools rfl rfl rfl hserver fun _ _ => Iff.rfl
  | monitor timedOut hpc hmonitor => exact monitorInv_monitor h hpc hmonitor

theorem monitorInv_reaches {roomCount poolSize acceptCount : Nat} {threadCount : Port → Nat}
    {ok : Process → ProcessAct → Prop}
    (h : Reaches processStep ok (.start roomCount poolSize acceptCount threadCount) st) :
    MonitorInv st := by
  apply h.invariant (monitorInv_start roomCount poolSize acceptCount threadCount)
  intro st act st' hreaches hinv _ hstep
  exact monitorInv_step (poolsInv_reaches hreaches) (threadsInv_reaches hreaches) hinv hstep

end
end RoomServer
