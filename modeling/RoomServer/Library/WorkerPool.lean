import Mathlib.Data.Finset.Card
import Mathlib.Data.Finset.Range
import Mathlib.Logic.Function.Basic
import RoomServer.Library.Threads
import RoomServer.Library.Transition

/-! Workers that loop on a stop flag around a blocking wait for work, and the way
such a pool is stopped: the flag first, then one wake-up without work for each
worker. What the workers wait for is a parameter. -/
namespace Library.WorkerPool
open Library.Threads Library.Transition

inductive Place (ω : Type) where
  /-- The test of the flag is next. -/
  | test
  | wait
  | work (job : ω)
  | ended
  deriving DecidableEq

structure Pool (ω : Type) where
  stop : Bool
  places : List (Place ω)
  /-- The wake-ups that nobody has taken. -/
  pills : Nat
  /-- The wake-ups that the stopping thread has still to post. -/
  owed : Nat
  /-- History: how much work a worker has taken since the flag was set. -/
  late : Nat → Nat

inductive WorkerAct (ω : Type) where
  | test (w : Nat)
  | take (w : Nat) (job : ω)
  | takePill (w : Nat)
  | finish (w : Nat)
  | halt
  | post

variable {ω : Type}

def Place.waiting : Place ω → Bool
  | .wait => true
  | _ => false

namespace Pool

def start (workers : Nat) : Pool ω := ⟨false, List.replicate workers .test, 0, 0, fun _ => 0⟩

def move (p : Pool ω) (w : Nat) (place : Place ω) : Pool ω :=
  { p with places := p.places.set w place }

end Pool

def poolStep : Step (Pool ω) (WorkerAct ω)
  | p, .test w =>
    match p.places[w]? with
    | some .test => some (p.move w (if p.stop then .ended else .wait))
    | _ => none
  | p, .take w job =>
    match p.places[w]? with
    | some .wait =>
      some { p.move w (.work job) with
        late := if p.stop then Function.update p.late w (p.late w + 1) else p.late }
    | _ => none
  | p, .takePill w =>
    match p.places[w]? with
    | some .wait =>
      if 0 < p.pills then some { p.move w .test with pills := p.pills - 1 } else none
    | _ => none
  | p, .finish w =>
    match p.places[w]? with
    | some (.work _) => some (p.move w .test)
    | _ => none
  | p, .halt => some { p with stop := true, owed := p.owed + p.places.length }
  | p, .post => if 0 < p.owed then some { p with pills := p.pills + 1, owed := p.owed - 1 } else none

/-- Whoever waits after the flag was set will be woken, and takes work at most once. -/
structure Sound (p : Pool ω) : Prop where
  enough : p.stop = true → p.places.countP Place.waiting ≤ p.pills + p.owed
  early : p.stop = false → ∀ w, p.late w = 0
  fresh : ∀ w, p.places[w]? = some .wait → p.late w = 0
  once : ∀ w, p.late w ≤ 1

theorem sound_start (workers : Nat) : Sound (Pool.start workers : Pool ω) :=
  ⟨nofun, fun _ _ => rfl, fun _ _ => rfl, fun _ => Nat.zero_le 1⟩

section
variable {p p' : Pool ω} {w : Nat} {place place' : Place ω}

theorem waiting_move (h : p.places[w]? = some place) (place' : Place ω) :
    (p.move w place').places.countP Place.waiting + place.waiting.toNat =
      p.places.countP Place.waiting + place'.waiting.toNat := by
  obtain ⟨hw, rfl⟩ := List.getElem?_eq_some_iff.mp h
  have hpos : Place.waiting p.places[w] = true → 0 < p.places.countP Place.waiting := fun hwait =>
    List.countP_pos_iff.mpr ⟨_, List.getElem_mem hw, hwait⟩
  rw [Pool.move, List.countP_set hw]
  cases hold : Place.waiting p.places[w] <;> cases hnew : place'.waiting <;> simp
  · have := hpos hold
    omega
  · have := hpos hold
    omega

theorem place_move {v : Nat} (hv : (p.move w place').places[v]? = some place) :
    v = w ∧ place = place' ∨ v ≠ w ∧ p.places[v]? = some place := by
  rw [Pool.move, List.getElem?_set] at hv
  split at hv
  case isTrue hw =>
    split at hv
    · cases hv
      exact .inl ⟨hw.symm, rfl⟩
    · contradiction
  case isFalse hw => exact .inr ⟨Ne.symm hw, hv⟩

theorem sound_test (h : Sound p) (hstep : poolStep p (.test w) = some p') : Sound p' := by
  simp only [poolStep] at hstep
  split at hstep
  case h_2 => contradiction
  case h_1 hplace =>
    cases hstep
    cases hstop : p.stop with
    | true =>
      have hcount := waiting_move hplace Place.ended
      have henough := h.enough hstop
      refine ⟨fun _ => ?_, fun hrun => absurd (hstop.symm.trans hrun) (by simp), fun v hv => ?_,
        h.once⟩
      · simp only [Place.waiting, Bool.toNat_false, Nat.add_zero] at hcount
        simp only [if_true, hcount]
        exact henough
      · rcases place_move hv with ⟨_, hplace⟩ | ⟨_, hv⟩
        · cases hplace
        · exact h.fresh v hv
    | false =>
      refine ⟨fun hstopped => absurd (hstop.symm.trans hstopped) (by simp), fun _ => h.early hstop,
        fun v _ => h.early hstop v, h.once⟩

theorem sound_take (h : Sound p) {job : ω} (hstep : poolStep p (.take w job) = some p') :
    Sound p' := by
  simp only [poolStep] at hstep
  split at hstep
  case h_2 => contradiction
  case h_1 hplace =>
    cases hstep
    have hcount := waiting_move hplace (.work job)
    have hzero := h.fresh w hplace
    simp only [Place.waiting, Bool.toNat_true, Bool.toNat_false, Nat.add_zero] at hcount
    refine ⟨fun hstop => ?_, fun hrun => ?_, fun v hv => ?_, fun v => ?_⟩
    · have henough := h.enough hstop
      change (p.move w (.work job)).places.countP Place.waiting ≤ p.pills + p.owed
      omega
    · change p.stop = false at hrun
      rw [if_neg (by simp [hrun])]
      exact h.early hrun
    · rcases place_move hv with ⟨_, hplace⟩ | ⟨hne, hv⟩
      · cases hplace
      · have hfresh := h.fresh v hv
        dsimp only
        split
        · rw [Function.update_of_ne hne]
          exact hfresh
        · exact hfresh
    · dsimp only
      split
      · rw [Function.update_apply]
        split
        · omega
        · exact h.once v
      · exact h.once v

theorem sound_takePill (h : Sound p) (hstep : poolStep p (.takePill w) = some p') : Sound p' := by
  simp only [poolStep] at hstep
  split at hstep
  case h_2 => contradiction
  case h_1 hplace =>
    split at hstep
    case isFalse => contradiction
    case isTrue hpills =>
      cases hstep
      have hcount := waiting_move hplace Place.test
      simp only [Place.waiting, Bool.toNat_true, Bool.toNat_false, Nat.add_zero] at hcount
      refine ⟨fun hstop => ?_, h.early, fun v hv => ?_, h.once⟩
      · have henough := h.enough hstop
        change (p.move w .test).places.countP Place.waiting ≤ p.pills - 1 + p.owed
        omega
      · rcases place_move hv with ⟨_, hplace⟩ | ⟨_, hv⟩
        · cases hplace
        · exact h.fresh v hv

theorem sound_finish (h : Sound p) (hstep : poolStep p (.finish w) = some p') : Sound p' := by
  simp only [poolStep] at hstep
  split at hstep
  case h_2 => contradiction
  case h_1 job hplace =>
    cases hstep
    have hcount := waiting_move hplace Place.test
    simp only [Place.waiting, Bool.toNat_false, Nat.add_zero] at hcount
    refine ⟨fun hstop => ?_, h.early, fun v hv => ?_, h.once⟩
    · rw [hcount]
      exact h.enough hstop
    · rcases place_move hv with ⟨_, hplace⟩ | ⟨_, hv⟩
      · cases hplace
      · exact h.fresh v hv

theorem sound_step {act : WorkerAct ω} (h : Sound p) (hstep : poolStep p act = some p') :
    Sound p' := by
  cases act with
  | test w => exact sound_test h hstep
  | take w job => exact sound_take h hstep
  | takePill w => exact sound_takePill h hstep
  | finish w => exact sound_finish h hstep
  | halt =>
    cases hstep
    refine ⟨fun _ => ?_, nofun, h.fresh, h.once⟩
    have hle := List.countP_le_length (p := Place.waiting) (l := p.places)
    dsimp only
    omega
  | post =>
    simp only [poolStep] at hstep
    split at hstep
    case isFalse => contradiction
    case isTrue howed =>
      cases hstep
      refine ⟨fun hstop => ?_, h.early, h.fresh, h.once⟩
      have henough := h.enough hstop
      dsimp only
      omega

/-- Nobody who waits for the end of a stopped pool waits for a worker in vain. -/
theorem Sound.goes_on (h : Sound p) (hstop : p.stop = true) (howed : p.owed = 0)
    (hplace : p.places[w]? = some place) :
    place = .ended ∨ (∃ job, place = .work job) ∨
      ∃ p', poolStep p (.test w) = some p' ∨ poolStep p (.takePill w) = some p' := by
  cases place with
  | ended => exact .inl rfl
  | work job => exact .inr (.inl ⟨job, rfl⟩)
  | test =>
    refine .inr (.inr ⟨p.move w (if p.stop then .ended else .wait), .inl ?_⟩)
    simp only [poolStep, hplace]
  | wait =>
    have henough := h.enough hstop
    have hpos : 0 < p.places.countP Place.waiting :=
      List.countP_pos_iff.mpr ⟨_, List.mem_of_getElem? hplace, rfl⟩
    have hpills : 0 < p.pills := by omega
    refine .inr (.inr ⟨{ p.move w .test with pills := p.pills - 1 }, .inr ?_⟩)
    simp only [poolStep, hplace, if_pos hpills]

theorem working_step {act : WorkerAct ω} (hstep : poolStep p act = some p') {job : ω}
    (hwork : p'.places[w]? = some (.work job)) :
    p.places[w]? = some (.work job) ∧ act ≠ .finish w ∨ act = .take w job := by
  cases act with
  | test v =>
    simp only [poolStep] at hstep
    split at hstep
    case h_2 => contradiction
    case h_1 =>
      cases hstep
      rcases place_move hwork with ⟨_, hplace⟩ | ⟨_, hplace⟩
      · split at hplace <;> contradiction
      · exact .inl ⟨hplace, by simp⟩
  | takePill v =>
    simp only [poolStep] at hstep
    split at hstep
    case h_2 => contradiction
    case h_1 =>
      split at hstep
      case isFalse => contradiction
      case isTrue =>
        cases hstep
        rcases place_move hwork with ⟨_, hplace⟩ | ⟨_, hplace⟩
        · contradiction
        · exact .inl ⟨hplace, by simp⟩
  | finish v =>
    simp only [poolStep] at hstep
    split at hstep
    case h_2 => contradiction
    case h_1 =>
      cases hstep
      rcases place_move hwork with ⟨_, hplace⟩ | ⟨hne, hplace⟩
      · contradiction
      · exact .inl ⟨hplace, by simpa using Ne.symm hne⟩
  | take v job' =>
    simp only [poolStep] at hstep
    split at hstep
    case h_2 => contradiction
    case h_1 =>
      cases hstep
      rcases place_move hwork with ⟨rfl, hplace⟩ | ⟨hne, hplace⟩
      · cases hplace
        exact .inr rfl
      · exact .inl ⟨hplace, by simp⟩
  | halt =>
    cases hstep
    exact .inl ⟨hwork, by simp⟩
  | post =>
    simp only [poolStep] at hstep
    split at hstep
    · cases hstep
      exact .inl ⟨hwork, by simp⟩
    · contradiction

def WorkerAct.ofWorker : WorkerAct ω → Bool
  | .halt | .post => false
  | _ => true

theorem worker_step {act : WorkerAct ω} (hact : act.ofWorker = true)
    (hstep : poolStep p act = some p') : p'.stop = p.stop ∧ p'.owed = p.owed := by
  cases act with
  | halt | post => contradiction
  | _ =>
    simp only [poolStep] at hstep
    repeat' split at hstep
    all_goals first | contradiction | (cases hstep; exact ⟨rfl, rfl⟩)

/-- A worker that has ended, or is at work and does not finish, stays where it is. -/
theorem worker_stays {act : WorkerAct ω} (hstep : poolStep p act = some p')
    (hplace : p.places[w]? = some place)
    (hrest : place = .ended ∨ (∃ job, place = .work job) ∧ act ≠ .finish w) :
    p'.places[w]? = some place := by
  have hmove {v : Nat} (hne : v ≠ w) (moved : Place ω) :
      (p.move v moved).places[w]? = some place := by
    rw [Pool.move, List.getElem?_set_ne hne]
    exact hplace
  cases act with
  | halt =>
    cases hstep
    exact hplace
  | post =>
    simp only [poolStep] at hstep
    split at hstep
    · cases hstep
      exact hplace
    · contradiction
  | finish v =>
    simp only [poolStep] at hstep
    split at hstep
    case h_2 => contradiction
    case h_1 hv =>
      cases hstep
      apply hmove
      rintro rfl
      cases hplace.symm.trans hv
      rcases hrest with hended | ⟨_, hact⟩
      · contradiction
      · exact hact rfl
  | test v | take v job | takePill v =>
    simp only [poolStep] at hstep
    split at hstep
    case h_2 => contradiction
    case h_1 hv =>
      have hne : v ≠ w := by
        rintro rfl
        cases hplace.symm.trans hv
        rcases hrest with hended | ⟨⟨_, hwork⟩, _⟩ <;> contradiction
      repeat' split at hstep
      all_goals first | contradiction | (cases hstep; exact hmove hne _)

theorem length_step {act : WorkerAct ω} (hstep : poolStep p act = some p') :
    p'.places.length = p.places.length := by
  cases act with
  | halt =>
    cases hstep
    rfl
  | _ =>
    simp only [poolStep] at hstep
    repeat' split at hstep
    all_goals first | contradiction | (cases hstep; simp [Pool.move])

/-! ### How long a stopped pool lasts -/

/-- What the workers may still take once the flag is set. -/
def Pool.allowance (p : Pool ω) : Nat :=
  ((Finset.range p.places.length).filter fun w => p.late w = 0).card

def Place.effort : Place ω → Nat
  | .test => 1
  | .wait | .work _ => 2
  | .ended => 0

def Pool.effort (p : Pool ω) : Nat := total Place.effort p.places

theorem effort_move (h : p.places[w]? = some place) (place' : Place ω) :
    (p.move w place').effort + place.effort = p.effort + place'.effort :=
  total_set Place.effort place' h

/-- Whatever else a worker of a stopped pool does brings it closer to its end. -/
theorem effort_step {act : WorkerAct ω} (hstop : p.stop = true) (hact : act.ofWorker = true)
    (htake : ∀ w job, act ≠ .take w job) (hstep : poolStep p act = some p') :
    p'.effort < p.effort ∧ p'.allowance = p.allowance := by
  have hlength := length_step hstep
  cases act with
  | halt | post => contradiction
  | take w job => exact absurd rfl (htake w job)
  | test w =>
    simp only [poolStep] at hstep
    split at hstep
    case h_2 => contradiction
    case h_1 hplace =>
      rw [if_pos hstop] at hstep
      cases hstep
      have hmove := effort_move hplace .ended
      simp only [Place.effort] at hmove
      refine ⟨by omega, ?_⟩
      unfold Pool.allowance
      rw [hlength]
      rfl
  | takePill w =>
    simp only [poolStep] at hstep
    split at hstep
    case h_2 => contradiction
    case h_1 hplace =>
      split at hstep
      case isFalse => contradiction
      case isTrue =>
        cases hstep
        have hmove := effort_move hplace .test
        simp only [Place.effort] at hmove
        refine ⟨?_, ?_⟩
        · change (p.move w .test).effort < p.effort
          omega
        · unfold Pool.allowance
          rw [hlength]
          rfl
  | finish w =>
    simp only [poolStep] at hstep
    split at hstep
    case h_2 => contradiction
    case h_1 job hplace =>
      cases hstep
      have hmove := effort_move hplace .test
      simp only [Place.effort] at hmove
      refine ⟨by omega, ?_⟩
      unfold Pool.allowance
      rw [hlength]
      rfl

/-- What a worker takes after the flag was set is the only thing it takes. -/
theorem allowance_take (h : Sound p) (hstop : p.stop = true) {job : ω}
    (hstep : poolStep p (.take w job) = some p') : p'.allowance + 1 = p.allowance := by
  have hlength := length_step hstep
  simp only [poolStep] at hstep
  split at hstep
  case h_2 => contradiction
  case h_1 hplace =>
    rw [if_pos hstop] at hstep
    cases hstep
    have hw : w < p.places.length := (List.getElem?_eq_some_iff.mp hplace).1
    have hzero := h.fresh w hplace
    have herase : (Finset.range p.places.length).filter
        (fun v => Function.update p.late w (p.late w + 1) v = 0) =
          ((Finset.range p.places.length).filter fun v => p.late v = 0).erase w := by
      ext v
      by_cases hv : v = w
      · simp [hv]
      · simp [hv]
    unfold Pool.allowance
    rw [hlength, herase]
    exact Finset.card_erase_add_one (by simp [hw, hzero])

theorem allowance_le (p : Pool ω) : p.allowance ≤ p.places.length := by
  have hle := Finset.card_filter_le (Finset.range p.places.length) fun w => p.late w = 0
  rwa [Finset.card_range] at hle

end
end Library.WorkerPool
