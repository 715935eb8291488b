import RoomServer.Server

/-! `JobQueue`, and the thread of one room that empties it. A section of `m_Lock` is one
step: the jobs are pushed by any number of threads, and `PopAll` is the section that finds
something to take, or times out. -/
namespace RoomServer
open Library Library.Transition

namespace JobQueue

def push (q : JobQueue) (job : Job) : JobQueue := { q with jobs := q.jobs ++ [job] }

def setStop (q : JobQueue) : JobQueue := { q with stop := true }

/-- What `PopAll` waits for. -/
def ready (q : JobQueue) : Bool := q.stop || !q.jobs.isEmpty

def popAll (q : JobQueue) (jobqueue : List Job) : JobQueue × List Job × Bool :=
  if q.jobs.isEmpty then (q, jobqueue, q.stop) else ({ q with jobs := jobqueue }, q.jobs, q.stop)

theorem popAll_nil (q : JobQueue) : q.popAll [] = ({ q with jobs := [] }, q.jobs, q.stop) := by
  unfold popAll
  split
  case isTrue hempty =>
    have hjobs := List.isEmpty_iff.mp hempty
    obtain ⟨jobs, stop⟩ := q
    cases hjobs
    rfl
  case isFalse => rfl

end JobQueue

theorem exec_startJob (c : Choice) (st : Server) (i : Nat) :
    (st.exec c (.startJob i)).1.jobQueues i = ((st.jobQueues i).popAll []).1 ∧
      (st.exec c (.startJob i)).2 = [.dispatch i ((st.jobQueues i).popAll []).2.1
        ((st.jobQueues i).popAll []).2.2] := by
  rw [JobQueue.popAll_nil]
  exact ⟨Function.update_self .., rfl⟩

/-- Where the room thread is: before `PopAll`, in its wait, in the loop over the jobs,
after that loop, or out of `Work`. -/
inductive RoomPc where
  | popAll
  | waiting
  | dispatching
  | tick
  | exited
  deriving DecidableEq

structure RoomRun where
  jobQueue : JobQueue
  pc : RoomPc
  /-- The local queue of `StartJob`. -/
  jobqueue : List Job
  /-- What `PopAll` returned. -/
  stop : Bool
  /-- History: the jobs in the order in which `Push` had the lock. -/
  pushed : List Job
  /-- History: what was pushed when `Stop` had the lock. -/
  beforeStop : Option (List Job)
  dispatched : List Job

inductive TurnAct where
  | popAll
  /-- The wait ends: after its time, or because it was notified, or for no reason. -/
  | wake (timedOut : Bool)
  | dispatch
  | tick

inductive RoomRunAct where
  | push (job : Job)
  | stop
  | turn (act : TurnAct)

namespace RoomRun

def start : RoomRun := ⟨⟨[], false⟩, .popAll, [], false, [], none, []⟩

def push (st : RoomRun) (job : Job) : RoomRun :=
  { st with jobQueue := st.jobQueue.push job, pushed := st.pushed ++ [job] }

def setStop (st : RoomRun) : RoomRun :=
  { st with jobQueue := st.jobQueue.setStop, beforeStop := st.beforeStop.or (some st.pushed) }

def take (st : RoomRun) : RoomRun :=
  let popped := st.jobQueue.popAll st.jobqueue
  { st with jobQueue := popped.1, pc := .dispatching, jobqueue := popped.2.1, stop := popped.2.2 }

def turn (st : RoomRun) : TurnAct → Option RoomRun
  | .popAll =>
    if st.pc = .popAll then some (if st.jobQueue.ready then st.take else { st with pc := .waiting })
    else none
  | .wake timedOut =>
    if st.pc = .waiting then some (if timedOut || st.jobQueue.ready then st.take else st) else none
  | .dispatch =>
    if st.pc = .dispatching then
      match st.jobqueue with
      | [] => some { st with pc := .tick }
      | job :: jobqueue =>
        some { st with jobqueue := jobqueue, dispatched := st.dispatched ++ [job] }
    else none
  | .tick =>
    if st.pc = .tick then
      -- the next `StartJob` has a queue of its own
      some { st with pc := if st.stop then .exited else .popAll, jobqueue := [] }
    else none

def Last (st : RoomRun) : Prop :=
  st.stop = true ∧ (st.pc = .dispatching ∨ st.pc = .tick) ∨ st.pc = .exited

end RoomRun

def roomRunStep : Step RoomRun RoomRunAct
  | st, .push job => some (st.push job)
  | st, .stop => some st.setStop
  | st, .turn act => st.turn act

/-! ### What a turn can do -/

inductive TurnSpec (st : RoomRun) : RoomRun → Prop where
  | takes (pc : st.pc = .popAll ∨ st.pc = .waiting) : TurnSpec st st.take
  | waits (pc : st.pc = .popAll ∨ st.pc = .waiting) : TurnSpec st { st with pc := .waiting }
  | dispatches {job : Job} {jobqueue : List Job} (pc : st.pc = .dispatching)
      (front : st.jobqueue = job :: jobqueue) :
      TurnSpec st { st with jobqueue := jobqueue, dispatched := st.dispatched ++ [job] }
  | dispatched (pc : st.pc = .dispatching) (empty : st.jobqueue = []) :
      TurnSpec st { st with pc := .tick }
  | ticks (pc : st.pc = .tick) :
      TurnSpec st { st with pc := if st.stop then .exited else .popAll, jobqueue := [] }

theorem turn_cases {st st' : RoomRun} {act : TurnAct} (h : st.turn act = some st') :
    TurnSpec st st' := by
  cases act with
  | popAll =>
    simp only [RoomRun.turn] at h
    split at h
    case isFalse => contradiction
    case isTrue hpc =>
      cases h
      split
      · exact .takes (.inl hpc)
      · exact .waits (.inl hpc)
  | wake timedOut =>
    simp only [RoomRun.turn] at h
    split at h
    case isFalse => contradiction
    case isTrue hpc =>
      cases h
      split
      · exact .takes (.inr hpc)
      · have hsame : st = { st with pc := .waiting } := by rw [← hpc]
        rw [hsame]
        exact .waits (.inr rfl)
  | dispatch =>
    simp only [RoomRun.turn] at h
    split at h
    case isFalse => contradiction
    case isTrue hpc =>
      split at h
      case h_1 hempty =>
        cases h
        exact .dispatched hpc hempty
      case h_2 job jobqueue hfront =>
        cases h
        exact .dispatches hpc hfront
  | tick =>
    simp only [RoomRun.turn] at h
    split at h
    case isFalse => contradiction
    case isTrue hpc =>
      cases h
      exact .ticks hpc

/-! ### The invariant -/

structure RoomRunInv (st : RoomRun) : Prop where
  kept : st.dispatched ++ st.jobqueue ++ st.jobQueue.jobs = st.pushed
  fresh : st.pc ≠ .dispatching → st.jobqueue = []
  stopped : st.jobQueue.stop = true → ∃ before, st.beforeStop = some before
  before : ∀ before, st.beforeStop = some before → before <+: st.pushed
  /-- Nothing that was pushed before `Stop` is behind the last `PopAll`. -/
  last : st.Last → ∃ before, st.beforeStop = some before ∧ before <+: st.dispatched ++ st.jobqueue

theorem roomRunInv_start : RoomRunInv .start :=
  ⟨rfl, fun _ => rfl, nofun, nofun, by
    rintro (⟨hstop, _⟩ | hpc)
    · exact absurd hstop Bool.false_ne_true
    · contradiction⟩

section
variable {st st' : RoomRun}

theorem roomRunInv_push (h : RoomRunInv st) (job : Job) : RoomRunInv (st.push job) where
  kept := by
    change st.dispatched ++ st.jobqueue ++ (st.jobQueue.jobs ++ [job]) = st.pushed ++ [job]
    rw [← List.append_assoc, h.kept]
  fresh := h.fresh
  stopped := h.stopped
  before before hbefore := (h.before before hbefore).trans (List.prefix_append _ _)
  last := h.last

theorem roomRunInv_setStop (h : RoomRunInv st) : RoomRunInv st.setStop := by
  have hsome : ∀ before, st.beforeStop = some before → st.setStop.beforeStop = some before := by
    intro before hbefore
    simp [RoomRun.setStop, hbefore]
  refine ⟨h.kept, h.fresh, fun _ => ?_, fun before hbefore => ?_, fun hlast => ?_⟩
  · cases hbefore : st.beforeStop with
    | none => exact ⟨st.pushed, by simp [RoomRun.setStop, hbefore]⟩
    | some before => exact ⟨before, hsome before hbefore⟩
  · cases hold : st.beforeStop with
    | none =>
      simp only [RoomRun.setStop, hold, Option.none_or, Option.some.injEq] at hbefore
      rw [← hbefore]
      exact List.prefix_refl _
    | some old =>
      have hsame : old = before := Option.some.inj ((hsome old hold).symm.trans hbefore)
      exact hsame ▸ h.before old hold
  · obtain ⟨before, hbefore, hprefix⟩ := h.last hlast
    exact ⟨before, hsome before hbefore, hprefix⟩

theorem roomRunInv_take (h : RoomRunInv st) (hpc : st.pc = .popAll ∨ st.pc = .waiting) :
    RoomRunInv st.take := by
  have hempty : st.jobqueue = [] := h.fresh (by rcases hpc with hpc | hpc <;> rw [hpc] <;> decide)
  have hkept := h.kept
  rw [hempty, List.append_nil] at hkept
  have htake : st.take =
      { st with
        jobQueue := { st.jobQueue with jobs := [] }
        pc := .dispatching, jobqueue := st.jobQueue.jobs, stop := st.jobQueue.stop } := by
    rw [RoomRun.take, hempty, JobQueue.popAll_nil]
  rw [htake]
  refine ⟨?_, fun hne => absurd rfl hne, h.stopped, h.before, ?_⟩
  · rw [List.append_nil]
    exact hkept
  · rintro (⟨hstop, _⟩ | hexited)
    · obtain ⟨before, hbefore⟩ := h.stopped hstop
      refine ⟨before, hbefore, ?_⟩
      change before <+: st.dispatched ++ st.jobQueue.jobs
      rw [hkept]
      exact h.before before hbefore
    · contradiction

theorem roomRunInv_turn {act : TurnAct} (h : RoomRunInv st) (hturn : st.turn act = some st') :
    RoomRunInv st' := by
  cases turn_cases hturn with
  | takes pc => exact roomRunInv_take h pc
  | waits pc =>
    have hempty : st.jobqueue = [] := h.fresh (by rcases pc with hpc | hpc <;> rw [hpc] <;> decide)
    refine ⟨h.kept, fun _ => hempty, h.stopped, h.before, ?_⟩
    rintro (⟨_, hpc | hpc⟩ | hpc) <;> contradiction
  | @dispatches job jobqueue pc front =>
    have hmove : st.dispatched ++ [job] ++ jobqueue = st.dispatched ++ st.jobqueue := by
      rw [front, List.append_assoc]
      rfl
    refine ⟨?_, fun hne => absurd pc hne, h.stopped, h.before, fun hlast => ?_⟩
    · change st.dispatched ++ [job] ++ jobqueue ++ st.jobQueue.jobs = st.pushed
      rw [hmove]
      exact h.kept
    · change ∃ before, st.beforeStop = some before ∧ before <+: st.dispatched ++ [job] ++ jobqueue
      rw [hmove]
      exact h.last hlast
  | dispatched pc empty =>
    refine ⟨h.kept, fun _ => empty, h.stopped, h.before, fun hlast => h.last ?_⟩
    rcases hlast with ⟨hstop, _⟩ | hexited
    · exact .inl ⟨hstop, .inl pc⟩
    · contradiction
  | ticks pc =>
    have hempty : st.jobqueue = [] := h.fresh (by rw [pc]; decide)
    refine ⟨?_, fun _ => rfl, h.stopped, h.before, fun hlast => ?_⟩
    · rw [← h.kept, hempty]
    · have hstop : st.stop = true := by
        by_contra hgoes
        rcases hlast with ⟨hstop, _⟩ | hexited
        · exact hgoes hstop
        · dsimp only at hexited
          rw [if_neg hgoes] at hexited
          contradiction
      obtain ⟨before, hbefore, hprefix⟩ := h.last (.inl ⟨hstop, .inr pc⟩)
      rw [hempty] at hprefix
      exact ⟨before, hbefore, hprefix⟩

theorem roomRunInv_reaches (h : Reaches roomRunStep always .start st) : RoomRunInv st := by
  apply h.invariant roomRunInv_start
  intro st act st' _ hinv _ hstep
  cases act with
  | push job =>
    cases hstep
    exact roomRunInv_push hinv job
  | stop =>
    cases hstep
    exact roomRunInv_setStop hinv
  | turn act => exact roomRunInv_turn hinv hstep

/-- At every moment what was dispatched, what is left of the drained queue and what is in
`m_JobQueue` are the jobs in the order of their pushes, and a room thread that is out of
`Work` has dispatched what was pushed before `Stop`. -/
theorem jobs_in_order (h : Reaches roomRunStep always .start st) :
    st.dispatched ++ st.jobqueue ++ st.jobQueue.jobs = st.pushed ∧
      (st.pc = .exited → ∃ before, st.beforeStop = some before ∧ before <+: st.dispatched) := by
  have hinv := roomRunInv_reaches h
  refine ⟨hinv.kept, fun hexited => ?_⟩
  have hempty : st.jobqueue = [] := hinv.fresh (by rw [hexited]; decide)
  have hlast := hinv.last (.inr hexited)
  rwa [hempty, List.append_nil] at hlast

end

/-- A job that is taken while the room is stopped, and one that is pushed too late. -/
theorem jobs_in_order_late :
    ∃ st, Reaches roomRunStep always .start st ∧ st.pc = .exited ∧
      st.dispatched = [⟨.enter, 0⟩] ∧ st.jobQueue.jobs = [⟨.leave, 0⟩] ∧
      st.dispatched ++ st.jobqueue ++ st.jobQueue.jobs = st.pushed := by
  have hrun : (run (guarded roomRunStep always) .start
      [.turn .popAll, .push ⟨.enter, 0⟩, .turn (.wake false), .stop, .turn .dispatch,
        .turn .dispatch, .turn .tick, .turn .popAll, .turn .dispatch, .turn .tick,
        .push ⟨.leave, 0⟩]).any (fun st => decide (st.pc = .exited ∧
          st.dispatched = [⟨.enter, 0⟩] ∧ st.jobQueue.jobs = [⟨.leave, 0⟩])) = true := by
    decide +kernel
  obtain ⟨st, hst, hends⟩ := (Option.any_eq_true _ _).mp hrun
  obtain ⟨hexited, hdispatched, hjobs⟩ := of_decide_eq_true hends
  have hreaches : Reaches roomRunStep always .start st := reaches_of_run _ .start hst
  exact ⟨st, hreaches, hexited, hdispatched, hjobs, (jobs_in_order hreaches).1⟩

end RoomServer
