import RoomServer.Library.Threads
import RoomServer.RoomThread

/-! `RoomManager::Join` while workers are inside `PushJobByRooms`. The test of `m_Stop`
and the push are two steps, and between them the room's thread may take its jobs for the
last time. -/
namespace RoomServer
open Library Library.Threads Library.Transition

inductive PushStep where
  | test (job : Job) (index : Int)
  | closeSession (job : Job) (index : Int)
  | push (job : Job) (i : Nat)
  deriving DecidableEq

inductive JoinStep where
  | exchange
  | stop (i : Nat)
  | join (i : Nat)
  deriving DecidableEq

structure Joining where
  roomCount : Nat
  /-- `m_Stop`. -/
  stop : Bool
  rooms : Nat → RoomRun
  workers : List PushStep
  joining : List JoinStep
  /-- History: the calls of `PushJobByRooms`, and those that closed their session. -/
  given : List (Job × Int)
  closed : List (Job × Int)

inductive JoiningAct where
  | call (job : Job) (index : Int)
  | worker (k : Nat)
  | room (i : Nat) (act : TurnAct)
  | join

namespace Joining

def join (roomCount : Nat) : List JoinStep :=
  .exchange :: ((List.range roomCount).map .stop ++ (List.range roomCount).map .join)

def start (roomCount : Nat) : Joining :=
  ⟨roomCount, false, fun _ => .start, [], join roomCount, [], []⟩

def closes (st : Joining) (index : Int) : Bool :=
  st.stop || index < 0 || st.roomCount ≤ index

def setRoom (st : Joining) (i : Nat) (room : RoomRun) : Joining :=
  { st with rooms := Function.update st.rooms i room }

def tested (st : Joining) (job : Job) (index : Int) : PushStep :=
  if st.closes index then .closeSession job index else .push job index.toNat

def work (st : Joining) (k : Nat) : PushStep → Joining
  | .test job index => { st with workers := splice st.workers k [st.tested job index] }
  | .closeSession job index =>
    { st with workers := splice st.workers k [], closed := st.closed ++ [(job, index)] }
  | .push job i => { st.setRoom i ((st.rooms i).push job) with workers := splice st.workers k [] }

end Joining

def joiningStep : Step Joining JoiningAct
  | st, .call job index =>
    some { st with
      workers := st.workers ++ [.test job index], given := st.given ++ [(job, index)] }
  | st, .worker k => st.workers[k]?.map (st.work k)
  | st, .room i act =>
    if i < st.roomCount then ((st.rooms i).turn act).map (st.setRoom i) else none
  | st, .join =>
    match st.joining with
    | [] => none
    | .exchange :: rest => some { st with stop := true, joining := rest }
    | .stop i :: rest => some { st.setRoom i (st.rooms i).setStop with joining := rest }
    | .join i :: rest => if (st.rooms i).pc = .exited then some { st with joining := rest } else none

theorem outOfRange_closes (st : Server) (index : Int) :
    st.outOfRange index = Joining.closes
      ⟨st.roomCount, st.roomStop, fun _ => .start, [], [], [], []⟩ index := rfl

/-- The room's `PopAll` is not the last one, or no worker has passed the test and not pushed. -/
def NoneBetween (st : Joining) : JoiningAct → Prop
  | .room i .popAll | .room i (.wake _) =>
    (st.rooms i).jobQueue.stop = true → ∀ job, .push job i ∉ st.workers
  | .room _ .dispatch | .room _ .tick | .call _ _ | .worker _ | .join => True

/-- Once everybody has returned, each call has either closed its session or given a job to
its room that was dispatched, and nothing is left in a queue. -/
def Joining.NoneStranded (st : Joining) : Prop :=
  st.joining = [] → st.workers = [] →
    (∀ job index, st.given.count (job, index) = st.closed.count (job, index) +
      if 0 ≤ index ∧ index < st.roomCount then (st.rooms index.toNat).dispatched.count job else 0) ∧
    ∀ i < st.roomCount, (st.rooms i).jobQueue.jobs = [] ∧ (st.rooms i).jobqueue = []

/-! ### The calls -/

def PushStep.holds (job : Job) (index : Int) : PushStep → Nat
  | .test job' index' | .closeSession job' index' =>
    if (job', index') = (job, index) then 1 else 0
  | .push job' i => if (job', (i : Int)) = (job, index) then 1 else 0

def Joining.pushedTo (st : Joining) (job : Job) (index : Int) : Nat :=
  if 0 ≤ index ∧ index < st.roomCount then (st.rooms index.toNat).pushed.count job else 0

structure CallInv (st : Joining) : Prop where
  given : ∀ job index, st.given.count (job, index) =
    st.closed.count (job, index) + total (PushStep.holds job index) st.workers +
      st.pushedTo job index
  inRange : ∀ job i, .push job i ∈ st.workers → i < st.roomCount

section
variable {st st' : Joining} {act : JoiningAct}

theorem pushedTo_congr {st st' : Joining} (hcount : st'.roomCount = st.roomCount)
    (hpushed : ∀ i, (st'.rooms i).pushed = (st.rooms i).pushed) (job : Job) (index : Int) :
    st'.pushedTo job index = st.pushedTo job index := by
  rw [Joining.pushedTo, Joining.pushedTo, hcount, hpushed]

theorem setRoom_pushed {room : RoomRun} {i : Nat} (h : room.pushed = (st.rooms i).pushed)
    (j : Nat) : ((st.setRoom i room).rooms j).pushed = (st.rooms j).pushed := by
  by_cases hij : j = i
  · subst hij
    simp [Joining.setRoom, h]
  · simp [Joining.setRoom, hij]

theorem turn_pushed {st st' : RoomRun} {act : TurnAct} (h : st.turn act = some st') :
    st'.pushed = st.pushed := by
  cases turn_cases h <;> rfl

theorem push_pushedTo {i : Nat} (hi : i < st.roomCount) (job job' : Job) (index : Int) :
    (st.setRoom i ((st.rooms i).push job')).pushedTo job index =
      st.pushedTo job index + (PushStep.push job' i).holds job index := by
  unfold Joining.pushedTo PushStep.holds
  change (if 0 ≤ index ∧ index < st.roomCount then _ else 0) = _
  split
  case isTrue hindex =>
    by_cases hsame : index.toNat = i
    · have heq : (i : Int) = index := by omega
      simp [Joining.setRoom, hsame, RoomRun.push, List.count_append, List.count_singleton, heq]
    · have hne : (i : Int) ≠ index := by omega
      simp [Joining.setRoom, hsame, hne]
  case isFalse hindex =>
    have hne : (i : Int) ≠ index := by omega
    simp [hne]

theorem closes_false {index : Int} (h : st.closes index = false) :
    st.stop = false ∧ 0 ≤ index ∧ index < st.roomCount := by
  simpa [Joining.closes, and_assoc] using h

theorem tested_holds (job job' : Job) (index index' : Int) :
    (st.tested job' index').holds job index = (PushStep.test job' index').holds job index := by
  unfold Joining.tested
  split
  case isTrue => rfl
  case isFalse hgoes =>
    have hrange := closes_false (Bool.not_eq_true _ ▸ hgoes)
    have hindex : ((index'.toNat : Nat) : Int) = index' := Int.toNat_of_nonneg hrange.2.1
    rw [PushStep.holds, PushStep.holds, hindex]

theorem tested_push {job job' : Job} {index : Int} {i : Nat} (h : st.tested job' index = .push job i) :
    st.closes index = false ∧ i = index.toNat := by
  unfold Joining.tested at h
  split at h
  case isTrue => contradiction
  case isFalse hgoes =>
    cases h
    exact ⟨Bool.not_eq_true _ ▸ hgoes, rfl⟩

theorem tested_inRange {job job' : Job} {index : Int} {i : Nat}
    (h : st.tested job' index = .push job i) : i < st.roomCount := by
  obtain ⟨hgoes, rfl⟩ := tested_push h
  have hrange := closes_false hgoes
  omega

theorem callInv_work (h : CallInv st) {k : Nat} {step : PushStep}
    (hstep : st.workers[k]? = some step) : CallInv (st.work k step) := by
  have hmem {next : List PushStep} {job : Job} {i : Nat}
      (hmem : .push job i ∈ splice st.workers k next) (hnext : .push job i ∉ next) :
      i < st.roomCount :=
    h.inRange job i ((mem_splice hmem).resolve_left hnext)
  cases step with
  | test job' index' =>
    refine ⟨fun job index => ?_, fun job i hpush => ?_⟩
    · have hsplice := total_splice (PushStep.holds job index) [st.tested job' index'] hstep
      have hgiven := h.given job index
      change st.given.count _ = st.closed.count _ +
        total _ (splice st.workers k [st.tested job' index']) + st.pushedTo job index
      rw [total_cons, total_nil, tested_holds] at hsplice
      omega
    · by_cases hnew : .push job i = st.tested job' index'
      · exact tested_inRange hnew.symm
      · exact hmem hpush fun hnext => hnew (List.mem_singleton.mp hnext)
  | closeSession job' index' =>
    refine ⟨fun job index => ?_, fun job i hpush => hmem hpush List.not_mem_nil⟩
    have hsplice := total_splice (PushStep.holds job index) [] hstep
    have hgiven := h.given job index
    change st.given.count _ = (st.closed ++ [(job', index')]).count _ +
      total _ (splice st.workers k []) + st.pushedTo job index
    simp only [total_nil, PushStep.holds, List.count_append, List.count_singleton, beq_iff_eq]
      at hsplice ⊢
    omega
  | push job' j =>
    have hj : j < st.roomCount := h.inRange job' j (List.mem_of_getElem? hstep)
    refine ⟨fun job index => ?_, fun job i hpush => hmem hpush List.not_mem_nil⟩
    have hsplice := total_splice (PushStep.holds job index) [] hstep
    have hgiven := h.given job index
    have hpushed : (st.setRoom j ((st.rooms j).push job')).pushedTo job index = _ :=
      push_pushedTo hj job job' index
    change st.given.count _ = st.closed.count _ + total _ (splice st.workers k []) +
      (st.setRoom j ((st.rooms j).push job')).pushedTo job index
    rw [total_nil] at hsplice
    omega

theorem callInv_step (h : CallInv st) (hstep : joiningStep st act = some st') : CallInv st' := by
  -- everything but the calls themselves leaves the histories as they are
  have hsame {st' : Joining} (hgiven : st'.given = st.given) (hclosed : st'.closed = st.closed)
      (hworkers : st'.workers = st.workers) (hcount : st'.roomCount = st.roomCount)
      (hpushed : ∀ i, (st'.rooms i).pushed = (st.rooms i).pushed) : CallInv st' := by
    refine ⟨fun job index => ?_, fun job i hpush => ?_⟩
    · rw [hgiven, hclosed, hworkers, pushedTo_congr hcount hpushed]
      exact h.given job index
    · rw [hcount]
      exact h.inRange job i (hworkers ▸ hpush)
  cases act with
  | call job' index' =>
    cases hstep
    refine ⟨fun job index => ?_, fun job i hpush => ?_⟩
    · have hgiven := h.given job index
      change (st.given ++ [(job', index')]).count _ = st.closed.count _ +
        total _ (st.workers ++ [.test job' index']) + st.pushedTo job index
      simp only [List.count_append, List.count_singleton, beq_iff_eq, total_append, total_cons,
        total_nil, PushStep.holds]
      omega
    · rcases List.mem_append.mp hpush with hold | hnew
      · exact h.inRange job i hold
      · exact absurd (List.mem_singleton.mp hnew) (by simp)
  | worker k =>
    obtain ⟨step, hworker, rfl⟩ := Option.map_eq_some_iff.mp hstep
    exact callInv_work h hworker
  | room i act =>
    simp only [joiningStep] at hstep
    split at hstep
    case isFalse => contradiction
    case isTrue =>
      obtain ⟨room, hroom, rfl⟩ := Option.map_eq_some_iff.mp hstep
      exact hsame rfl rfl rfl rfl (setRoom_pushed (turn_pushed hroom))
  | join =>
    simp only [joiningStep] at hstep
    split at hstep
    case h_1 => contradiction
    case h_2 =>
      cases hstep
      exact hsame rfl rfl rfl rfl fun _ => rfl
    case h_3 i rest hjoining =>
      cases hstep
      exact hsame rfl rfl rfl rfl (setRoom_pushed rfl)
    case h_4 i rest hjoining =>
      split at hstep
      case isFalse => contradiction
      case isTrue =>
        cases hstep
        exact hsame rfl rfl rfl rfl fun _ => rfl

/-! ### The rooms -/

/-- A turn is the last `PopAll`, or it leaves a thread no closer to its end than it was. -/
theorem turn_last {st st' : RoomRun} {act : TurnAct} (h : st.turn act = some st')
    (hlast : st'.Last) :
    ((act = .popAll ∨ ∃ timedOut, act = .wake timedOut) ∧ st' = st.take) ∨
      st.Last ∧ st'.jobQueue = st.jobQueue := by
  cases turn_cases h with
  | takes pc =>
    left
    refine ⟨?_, rfl⟩
    cases act with
    | popAll => exact .inl rfl
    | wake timedOut => exact .inr ⟨timedOut, rfl⟩
    | dispatch =>
      simp only [RoomRun.turn] at h
      rcases pc with hpc | hpc <;> simp [hpc] at h
    | tick =>
      simp only [RoomRun.turn] at h
      rcases pc with hpc | hpc <;> simp [hpc] at h
  | waits pc => rcases hlast with ⟨_, hpc | hpc⟩ | hpc <;> contradiction
  | dispatches pc front => exact .inr ⟨hlast, rfl⟩
  | dispatched pc empty =>
    rcases hlast with ⟨hstop, _⟩ | hexited
    · exact .inr ⟨.inl ⟨hstop, .inl pc⟩, rfl⟩
    · contradiction
  | ticks pc =>
    right
    refine ⟨.inl ⟨?_, .inr pc⟩, rfl⟩
    by_contra hgoes
    rcases hlast with ⟨hstop, _⟩ | hexited
    · exact hgoes hstop
    · dsimp only at hexited
      rw [if_neg hgoes] at hexited
      contradiction

theorem turn_exited {st : RoomRun} (act : TurnAct) (h : st.pc = .exited) : st.turn act = none := by
  cases act <;> simp [RoomRun.turn, h]

theorem turn_stop {st st' : RoomRun} {act : TurnAct} (h : st.turn act = some st') :
    st'.jobQueue.stop = st.jobQueue.stop := by
  cases turn_cases h with
  | takes pc =>
    simp only [RoomRun.take, JobQueue.popAll]
    split <;> rfl
  | _ => rfl

structure JoinInv (st : Joining) : Prop where
  rooms : ∀ i, RoomRunInv (st.rooms i)
  suffix : st.joining <:+ Joining.join st.roomCount
  begun : st.joining ≠ Joining.join st.roomCount → st.stop = true
  stops : ∀ i, (st.rooms i).jobQueue.stop = true → st.stop = true
  joined : ∀ i < st.roomCount, .join i ∈ st.joining ∨ (st.rooms i).pc = .exited
  /-- Behind the last `PopAll` nothing comes into the queue. -/
  quiet : ∀ i, (st.rooms i).Last →
    st.stop = true ∧ (st.rooms i).jobQueue.jobs = [] ∧ ∀ job, .push job i ∉ st.workers

theorem joinInv_start (roomCount : Nat) : JoinInv (.start roomCount) where
  rooms _ := roomRunInv_start
  suffix := List.suffix_refl _
  begun hne := absurd rfl hne
  stops _ hstop := absurd hstop Bool.false_ne_true
  joined i hi := .inl (by simpa [Joining.start, Joining.join] using hi)
  quiet i hlast := by
    rcases hlast with ⟨hstop, _⟩ | hexited
    · exact absurd hstop Bool.false_ne_true
    · contradiction

theorem setRoom_cases {P : RoomRun → Prop} {i : Nat} {room : RoomRun} (j : Nat)
    (hroom : j = i → P room) (hother : j ≠ i → P (st.rooms j)) :
    P ((st.setRoom i room).rooms j) := by
  by_cases hij : j = i
  · subst hij
    simpa [Joining.setRoom] using hroom rfl
  · simpa [Joining.setRoom, hij] using hother hij

theorem joinInv_work (h : JoinInv st) {k : Nat} {step : PushStep}
    (hstep : st.workers[k]? = some step) : JoinInv (st.work k step) := by
  -- a worker that leaves has left no push behind
  have hgone {i : Nat} (hlast : (st.rooms i).Last) (job : Job) :
      .push job i ∉ splice st.workers k [] := fun hmem =>
    (h.quiet i hlast).2.2 job ((mem_splice hmem).resolve_left List.not_mem_nil)
  cases step with
  | test job' index =>
    refine ⟨h.rooms, h.suffix, h.begun, h.stops, h.joined, fun i hlast => ?_⟩
    obtain ⟨hstop, hjobs, hpush⟩ := h.quiet i hlast
    refine ⟨hstop, hjobs, fun job hmem => ?_⟩
    rcases mem_splice hmem with hnew | hold
    · have hgoes := closes_false (tested_push (List.mem_singleton.mp hnew).symm).1
      exact Bool.false_ne_true (hgoes.1.symm.trans hstop)
    · exact hpush job hold
  | closeSession job' index =>
    refine ⟨h.rooms, h.suffix, h.begun, h.stops, h.joined, fun i hlast => ?_⟩
    exact ⟨(h.quiet i hlast).1, (h.quiet i hlast).2.1, hgone hlast⟩
  | push job' j =>
    have hmem : .push job' j ∈ st.workers := List.mem_of_getElem? hstep
    refine ⟨fun i => ?_, h.suffix, h.begun, fun i => ?_, fun i hi => ?_, fun i => ?_⟩
    · apply setRoom_cases (P := RoomRunInv) i
      · rintro rfl
        exact roomRunInv_push (h.rooms i) job'
      · exact fun _ => h.rooms i
    · apply setRoom_cases (P := fun room => room.jobQueue.stop = true → st.stop = true) i
      · rintro rfl
        exact h.stops i
      · exact fun _ => h.stops i
    · apply setRoom_cases (P := fun room => .join i ∈ st.joining ∨ room.pc = .exited) i
      · rintro rfl
        exact h.joined i hi
      · exact fun _ => h.joined i hi
    · apply setRoom_cases (P := fun room => room.Last → st.stop = true ∧ room.jobQueue.jobs = [] ∧
          ∀ job, .push job i ∉ splice st.workers k []) i
      · rintro rfl hlast
        exact absurd hmem ((h.quiet i hlast).2.2 job')
      · intro _ hlast
        exact ⟨(h.quiet i hlast).1, (h.quiet i hlast).2.1, hgone hlast⟩

theorem joinInv_room (h : JoinInv st) {i : Nat} {act : TurnAct} {room : RoomRun}
    (hturn : (st.rooms i).turn act = some room) (hok : NoneBetween st (.room i act)) :
    JoinInv (st.setRoom i room) := by
  refine ⟨fun j => ?_, h.suffix, h.begun, fun j => ?_, fun j hj => ?_, fun j => ?_⟩
  · apply setRoom_cases (P := RoomRunInv) j
    · rintro rfl
      exact roomRunInv_turn (h.rooms j) hturn
    · exact fun _ => h.rooms j
  · apply setRoom_cases (P := fun room => room.jobQueue.stop = true → st.stop = true) j
    · rintro rfl
      rw [turn_stop hturn]
      exact h.stops j
    · exact fun _ => h.stops j
  · apply setRoom_cases (P := fun room => .join j ∈ st.joining ∨ room.pc = .exited) j
    · rintro rfl
      rcases h.joined j hj with hjoining | hexited
      · exact .inl hjoining
      · rw [turn_exited act hexited] at hturn
        contradiction
    · exact fun _ => h.joined j hj
  · apply setRoom_cases (P := fun room => room.Last → st.stop = true ∧ room.jobQueue.jobs = [] ∧
        ∀ job, .push job j ∉ st.workers) j
    · rintro rfl hlast
      rcases turn_last hturn hlast with ⟨hact, rfl⟩ | ⟨hbefore, hqueue⟩
      · -- this is the last `PopAll`
        have hstop : (st.rooms j).jobQueue.stop = true := by
          rcases hlast with ⟨hstop, _⟩ | hexited
          · simp only [RoomRun.take, JobQueue.popAll] at hstop
            split at hstop <;> exact hstop
          · contradiction
        have hnone : ∀ job, .push job j ∉ st.workers := by
          rcases hact with rfl | ⟨timedOut, rfl⟩
          · exact hok hstop
          · exact hok hstop
        refine ⟨h.stops j hstop, ?_, hnone⟩
        have hfresh : (st.rooms j).jobqueue = [] := by
          apply (h.rooms j).fresh
          intro hpc
          rcases hact with rfl | ⟨timedOut, rfl⟩ <;> simp [RoomRun.turn, hpc] at hturn
        rw [RoomRun.take, hfresh, JobQueue.popAll_nil]
      · rw [hqueue]
        exact h.quiet j hbefore
    · exact fun _ => h.quiet j

theorem joinInv_join (h : JoinInv st) (hstep : joiningStep st .join = some st') : JoinInv st' := by
  simp only [joiningStep] at hstep
  -- what is left after the first step is not the whole of `Join`
  have hrest {step : JoinStep} {rest : List JoinStep} (hjoining : st.joining = step :: rest) :
      rest <:+ Joining.join st.roomCount ∧ rest ≠ Joining.join st.roomCount := by
    have hsuffix := h.suffix
    rw [hjoining] at hsuffix
    refine ⟨(List.suffix_cons step rest).trans hsuffix, fun heq => ?_⟩
    have hle := hsuffix.length_le
    rw [heq, List.length_cons] at hle
    omega
  have hstays {step : JoinStep} {rest : List JoinStep} (hjoining : st.joining = step :: rest)
      (hstep : ∀ i, step ≠ .join i) (i : Nat) (hi : i < st.roomCount) :
      .join i ∈ rest ∨ (st.rooms i).pc = .exited := by
    have hjoined := h.joined i hi
    rw [hjoining, List.mem_cons] at hjoined
    rcases hjoined with (hhead | hmem) | hexited
    · exact absurd hhead.symm (hstep i)
    · exact .inl hmem
    · exact .inr hexited
  split at hstep
  case h_1 => contradiction
  case h_2 rest hjoining =>
    cases hstep
    exact ⟨h.rooms, (hrest hjoining).1, fun _ => rfl, fun _ _ => rfl,
      hstays hjoining (by simp), fun i hlast => ⟨rfl, (h.quiet i hlast).2⟩⟩
  case h_3 j rest hjoining =>
    cases hstep
    have hstop : st.stop = true := by
      apply h.begun
      rw [hjoining]
      simp [Joining.join]
    refine ⟨fun i => ?_, (hrest hjoining).1, fun _ => hstop, fun _ _ => hstop, fun i hi => ?_,
      fun i => ?_⟩
    · apply setRoom_cases (P := RoomRunInv) i
      · rintro rfl
        exact roomRunInv_setStop (h.rooms i)
      · exact fun _ => h.rooms i
    · apply setRoom_cases (P := fun room => .join i ∈ rest ∨ room.pc = .exited) i
      · rintro rfl
        exact hstays hjoining (by simp) i hi
      · exact fun _ => hstays hjoining (by simp) i hi
    · apply setRoom_cases (P := fun room => room.Last → st.stop = true ∧ room.jobQueue.jobs = [] ∧
          ∀ job, .push job i ∉ st.workers) i
      · rintro rfl
        exact h.quiet i
      · exact fun _ => h.quiet i
  case h_4 j rest hjoining =>
    split at hstep
    case isFalse => contradiction
    case isTrue hexited =>
      cases hstep
      have hstop : st.stop = true := by
        apply h.begun
        rw [hjoining]
        simp [Joining.join]
      refine ⟨h.rooms, (hrest hjoining).1, fun _ => hstop, h.stops, fun i hi => ?_, h.quiet⟩
      have hjoined := h.joined i hi
      rw [hjoining, List.mem_cons] at hjoined
      rcases hjoined with (hhead | hmem) | hdone
      · cases hhead
        exact .inr hexited
      · exact .inl hmem
      · exact .inr hdone

theorem joinInv_step (h : JoinInv st) (hok : NoneBetween st act)
    (hstep : joiningStep st act = some st') : JoinInv st' := by
  cases act with
  | call job index =>
    cases hstep
    refine ⟨h.rooms, h.suffix, h.begun, h.stops, h.joined, fun i hlast => ?_⟩
    obtain ⟨hstop, hjobs, hpush⟩ := h.quiet i hlast
    refine ⟨hstop, hjobs, fun job' hmem => ?_⟩
    rcases List.mem_append.mp hmem with hold | hnew
    · exact hpush job' hold
    · exact absurd (List.mem_singleton.mp hnew) (by simp)
  | worker k =>
    obtain ⟨step, hworker, rfl⟩ := Option.map_eq_some_iff.mp hstep
    exact joinInv_work h hworker
  | room i act =>
    simp only [joiningStep] at hstep
    split at hstep
    case isFalse => contradiction
    case isTrue =>
      obtain ⟨room, hroom, rfl⟩ := Option.map_eq_some_iff.mp hstep
      exact joinInv_room h hroom hok
  | join => exact joinInv_join h hstep

end

/-- In every run in which no worker stands between the test and the push when its room
takes jobs for the last time. -/
theorem none_stranded {st : Joining} {roomCount : Nat}
    (h : Reaches joiningStep NoneBetween (.start roomCount) st) : st.NoneStranded := by
  have hcalls : CallInv st := by
    apply h.invariant
    · refine ⟨fun job index => ?_, fun job i hpush => absurd hpush List.not_mem_nil⟩
      have hnone : (Joining.start roomCount).pushedTo job index = 0 := ite_self 0
      rw [hnone]
      rfl
    · intro st act st' _ hinv _ hstep
      exact callInv_step hinv hstep
  have hjoins : JoinInv st := by
    apply h.invariant (joinInv_start roomCount)
    intro st act st' _ hinv hok hstep
    exact joinInv_step hinv hok hstep
  intro hjoining hworkers
  have hexited (i : Nat) (hi : i < st.roomCount) : (st.rooms i).pc = .exited := by
    rcases hjoins.joined i hi with hmem | hexited
    · rw [hjoining] at hmem
      exact absurd hmem List.not_mem_nil
    · exact hexited
  have hempty (i : Nat) (hi : i < st.roomCount) :
      (st.rooms i).jobQueue.jobs = [] ∧ (st.rooms i).jobqueue = [] := by
    refine ⟨(hjoins.quiet i (.inr (hexited i hi))).2.1, (hjoins.rooms i).fresh ?_⟩
    rw [hexited i hi]
    decide
  refine ⟨fun job index => ?_, hempty⟩
  have hgiven := hcalls.given job index
  rw [hworkers, total_nil, Nat.add_zero, Joining.pushedTo] at hgiven
  rw [hgiven]
  split
  case isFalse => rfl
  case isTrue hindex =>
    have hroom := hempty index.toNat (by omega)
    have hkept := (hjoins.rooms index.toNat).kept
    rw [hroom.1, hroom.2, List.append_nil, List.append_nil] at hkept
    rw [hkept]

/-! One room: a job that is dispatched, one for a room that does not exist, and one that
comes after `m_Stop`. -/

def JoiningAct.turns : JoiningAct → Bool
  | .room _ _ => true
  | .call _ _ | .worker _ | .join => false

theorem noneBetween_idle {st : Joining} {act : JoiningAct}
    (h : act.turns = true → st.workers = []) : NoneBetween st act := by
  cases act with
  | room i act =>
    have hnone : ∀ job, .push job i ∉ st.workers := fun job hmem => by
      rw [h rfl] at hmem
      exact absurd hmem List.not_mem_nil
    cases act with
    | popAll => exact fun _ => hnone
    | wake timedOut => exact fun _ => hnone
    | dispatch => trivial
    | tick => trivial
  | call job index => trivial
  | worker k => trivial
  | join => trivial

def orderlyJoin : List JoiningAct :=
  [.call ⟨.enter, 0⟩ 0, .worker 0, .worker 0, .room 0 .popAll, .room 0 .dispatch, .room 0 .dispatch,
    .room 0 .tick, .call ⟨.enter, 1⟩ 7, .worker 0, .worker 0, .join, .join, .call ⟨.leave, 0⟩ 0,
    .worker 0, .worker 0, .room 0 .popAll, .room 0 .dispatch, .room 0 .tick, .join]

theorem none_stranded_orderly :
    ∃ st, Reaches joiningStep NoneBetween (.start 1) st ∧ st.joining = [] ∧ st.workers = [] ∧
      (st.rooms 0).dispatched = [⟨.enter, 0⟩] ∧ st.closed = [(⟨.enter, 1⟩, 7), (⟨.leave, 0⟩, 0)] ∧
      st.NoneStranded := by
  have hrun : (run (guarded joiningStep fun st act => act.turns = true → st.workers = []) (.start 1)
      orderlyJoin).any (fun st => decide (st.joining = [] ∧ st.workers = [] ∧
        (st.rooms 0).dispatched = [⟨.enter, 0⟩] ∧
        st.closed = [(⟨.enter, 1⟩, 7), (⟨.leave, 0⟩, 0)])) = true := by decide +kernel
  obtain ⟨st, hst, hends⟩ := (Option.any_eq_true _ _).mp hrun
  obtain ⟨hjoining, hworkers, hdispatched, hclosed⟩ := of_decide_eq_true hends
  have hreaches : Reaches joiningStep NoneBetween (.start 1) st :=
    (reaches_of_run orderlyJoin .start hst).weaken fun _ _ => noneBetween_idle
  exact ⟨st, hreaches, hjoining, hworkers, hdispatched, hclosed, none_stranded hreaches⟩

/-- The worker passes the test, `Join` stops and joins the room, and the worker pushes. -/
def lateJoin : List JoiningAct :=
  [.call ⟨.leave, 0⟩ 0, .worker 0, .join, .join, .room 0 .popAll, .room 0 .dispatch, .room 0 .tick,
    .join, .worker 0]

theorem late_push_stranded :
    ∃ st, Reaches joiningStep always (.start 1) st ∧ ¬st.NoneStranded := by
  have hrun : (run (guarded joiningStep always) (.start 1) lateJoin).any (fun st => decide
      (st.roomCount = 1 ∧ st.joining = [] ∧ st.workers = [] ∧
        (st.rooms 0).jobQueue.jobs = [⟨.leave, 0⟩])) = true := by decide +kernel
  obtain ⟨st, hst, hends⟩ := (Option.any_eq_true _ _).mp hrun
  obtain ⟨hcount, hjoining, hworkers, hjobs⟩ := of_decide_eq_true hends
  refine ⟨st, reaches_of_run _ .start hst, fun hnone => ?_⟩
  have hempty := ((hnone hjoining hworkers).2 0 (by omega)).1
  rw [hjobs] at hempty
  exact absurd hempty (List.cons_ne_nil _ _)

end RoomServer
