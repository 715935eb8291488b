import RoomServer.Process
import RoomServer.Settling

/-! What holds of the process whatever its threads do: where `main` is tells which workers
wait, which have ended and what is still open. -/
namespace RoomServer
open Library Library.Threads Library.Transition Library.WorkerPool

/-! ### The order of `main` -/

def MainStep.order : MainStep → Nat
  | .accepted => 0
  | .start .listen => 1
  | .startRooms => 2
  | .start .service => 3
  | .startMonitor => 4
  | .waitShutdown => 5
  | .shutdown => 6
  | .closed => 7
  | .stop .service => 8
  | .post .service => 9
  | .stop .listen => 10
  | .post .listen => 11
  | .join .service _ => 12
  | .closeHandle .service => 13
  | .join .listen _ => 14
  | .closeHandle .listen => 15
  | .setEvent => 16
  | .joinMonitor => 17
  | .closeEvent => 18
  | .returned => 19
  | .release => 20

def MainStep.isPost : MainStep → Bool
  | .post _ => true
  | _ => false

/-- Only the completions of `IOCP::Stop` are posted more than once. -/
def MainStep.Before (first second : MainStep) : Prop :=
  first.order ≤ second.order ∧ (first = second → first.isPost = true)

instance : DecidableRel MainStep.Before := fun _ _ => inferInstanceAs (Decidable (_ ∧ _))

section
variable {threadCount : Port → Nat} {step x y : MainStep} {main : List MainStep}

theorem before_of_lt (h : x.order < y.order) : x.Before y :=
  ⟨Nat.le_of_lt h, fun heq => absurd (heq ▸ h) (Nat.lt_irrefl _)⟩

theorem sorted_append {first second : List MainStep} (k : Nat)
    (hfirst : first.Pairwise MainStep.Before) (hsecond : second.Pairwise MainStep.Before)
    (hlow : ∀ x ∈ first, x.order < k) (hhigh : ∀ y ∈ second, k ≤ y.order) :
    (first ++ second).Pairwise MainStep.Before := by
  refine List.pairwise_append.mpr ⟨hfirst, hsecond, fun x hx y hy => ?_⟩
  exact before_of_lt (Nat.lt_of_lt_of_le (hlow x hx) (hhigh y hy))

theorem stopping_order (threadCount : Port → Nat) (p : Port) : ∀ x ∈ Process.stopping threadCount p,
    (MainStep.stop p).order ≤ x.order ∧ x.order ≤ (MainStep.post p).order := by
  intro x hx
  rcases List.mem_cons.mp hx with rfl | hx
  · cases p <;> decide
  · rw [(List.mem_replicate.mp hx).2]
    cases p <;> decide

theorem joining_order (threadCount : Port → Nat) (p : Port) : ∀ x ∈ Process.joining threadCount p,
    (MainStep.join p 0).order ≤ x.order ∧ x.order ≤ (MainStep.closeHandle p).order := by
  intro x hx
  rcases List.mem_append.mp hx with hx | hx
  · obtain ⟨w, _, rfl⟩ := List.mem_map.mp hx
    cases p <;> exact ⟨Nat.le_refl _, Nat.le_succ _⟩
  · rw [List.mem_singleton.mp hx]
    cases p <;> decide

theorem stopping_sorted (p : Port) :
    (Process.stopping threadCount p).Pairwise MainStep.Before := by
  refine List.pairwise_cons.mpr ⟨fun x hx => ?_, ?_⟩
  · rw [(List.mem_replicate.mp hx).2]
    cases p <;> decide
  · exact List.pairwise_replicate.mpr (.inr ⟨Nat.le_refl _, fun _ => rfl⟩)

theorem joining_sorted (p : Port) :
    (Process.joining threadCount p).Pairwise MainStep.Before := by
  refine List.pairwise_append.mpr ⟨?_, by simp, fun x hx y hy => ?_⟩
  · rw [List.pairwise_map]
    apply List.pairwise_lt_range.imp
    intro w w' hlt
    refine ⟨by cases p <;> exact Nat.le_refl _, fun heq => ?_⟩
    cases heq
    exact absurd hlt (Nat.lt_irrefl _)
  · obtain ⟨w, _, rfl⟩ := List.mem_map.mp hx
    cases List.mem_singleton.mp hy
    apply before_of_lt
    cases p <;> exact Nat.lt_succ_self _

theorem program_sorted (threadCount : Port → Nat) :
    (Process.program threadCount).Pairwise MainStep.Before := by
  have hlow {l : List MainStep} {lo hi : Nat} (k : Nat)
      (h : ∀ x ∈ l, lo ≤ x.order ∧ x.order ≤ hi) (hk : hi < k) : ∀ x ∈ l, x.order < k :=
    fun x hx => Nat.lt_of_le_of_lt (h x hx).2 hk
  have hhigh {l tail : List MainStep} {lo hi : Nat} (k k' : Nat)
      (h : ∀ x ∈ l, lo ≤ x.order ∧ x.order ≤ hi) (hk : k ≤ lo) (htail : ∀ x ∈ tail, k' ≤ x.order)
      (hk' : k ≤ k') : ∀ x ∈ l ++ tail, k ≤ x.order :=
    List.forall_mem_append.mpr
      ⟨fun x hx => Nat.le_trans hk (h x hx).1, fun x hx => Nat.le_trans hk' (htail x hx)⟩
  have hending : ∀ x ∈ [MainStep.setEvent, .joinMonitor, .closeEvent, .returned, .release],
      16 ≤ x.order := by
    decide
  have hclose := hhigh 14 16 (joining_order threadCount .listen) (by decide)
    hending (by decide)
  have hjoin := hhigh 12 14 (joining_order threadCount .service) (by decide)
    hclose (by decide)
  have hpost := hhigh 10 12 (stopping_order threadCount .listen) (by decide)
    hjoin (by decide)
  have hstop := hhigh 8 10 (stopping_order threadCount .service) (by decide)
    hpost (by decide)
  apply sorted_append 8 (by decide) _ (by decide) hstop
  apply sorted_append 10 (stopping_sorted _) _ (hlow 10 (stopping_order _ _) (by decide)) hpost
  apply sorted_append 12 (stopping_sorted _) _ (hlow 12 (stopping_order _ _) (by decide)) hjoin
  apply sorted_append 14 (joining_sorted _) _ (hlow 14 (joining_order _ _) (by decide)) hclose
  exact sorted_append 16 (joining_sorted _) (by decide) (hlow 16 (joining_order _ _) (by decide))
    hending

/-- What stands before something that is done is done. -/
theorem passed (h : main <:+ Process.program threadCount) (hx : x ∈ Process.program threadCount)
    (hgone : x ∉ main) (hlt : y.order < x.order) : y ∉ main := by
  intro hy
  obtain ⟨before, hprogram⟩ := h
  have hsorted := program_sorted threadCount
  rw [← hprogram] at hx hsorted
  have hbefore := (List.mem_append.mp hx).resolve_right hgone
  have hle := ((List.pairwise_append.mp hsorted).2.2 x hbefore y hy).1
  omega

theorem later (h : step :: main <:+ Process.program threadCount)
    (hx : x ∈ Process.program threadCount) (hlt : step.order < x.order) : x ∈ main := by
  by_contra hgone
  have hne : x ≠ step := by
    rintro rfl
    exact Nat.lt_irrefl _ hlt
  exact passed h hx (by simp [hne, hgone]) hlt List.mem_cons_self

theorem earlier (h : step :: main <:+ Process.program threadCount) (hlt : x.order < step.order) :
    x ∉ step :: main := by
  intro hx
  obtain ⟨before, hprogram⟩ := h
  have hsorted := program_sorted threadCount
  rw [← hprogram] at hsorted
  have hhead := List.pairwise_cons.mp (List.pairwise_append.mp hsorted).2.1
  rcases List.mem_cons.mp hx with rfl | hx
  · exact Nat.lt_irrefl _ hlt
  · have hle := (hhead.1 x hx).1
    omega

theorem once (h : step :: main <:+ Process.program threadCount) (hpost : step.isPost = false) :
    step ∉ main := by
  intro hx
  obtain ⟨before, hprogram⟩ := h
  have hsorted := program_sorted threadCount
  rw [← hprogram] at hsorted
  have hhead := List.pairwise_cons.mp (List.pairwise_append.mp hsorted).2.1
  rw [(hhead.1 step hx).2 rfl] at hpost
  contradiction

theorem mem_program (hx : x ∈ [MainStep.accepted, .start .listen, .startRooms, .start .service,
    .startMonitor, .waitShutdown, .shutdown, .closed, .stop .service, .stop .listen,
    .closeHandle .service, .closeHandle .listen, .setEvent, .joinMonitor, .closeEvent, .returned,
    .release]) :
    x ∈ Process.program threadCount := by
  simp only [Process.program, Process.opening, Process.stopping, Process.joining, List.mem_append,
    List.mem_cons, List.not_mem_nil, or_false] at hx ⊢
  tauto

theorem join_mem_program {p : Port} {w : Nat} (hw : w < threadCount p) :
    .join p w ∈ Process.program threadCount := by
  cases p <;> simp [Process.program, Process.joining, hw]

theorem of_port_mem_program (p : Port) : .start p ∈ Process.program threadCount ∧
    .stop p ∈ Process.program threadCount ∧ .closeHandle p ∈ Process.program threadCount := by
  cases p <;> exact ⟨mem_program (by decide), mem_program (by decide), mem_program (by decide)⟩

theorem count_post {p : Port} (h : .stop p :: main <:+ Process.program threadCount) :
    main.count (.post p) = threadCount p := by
  have hcount : (Process.program threadCount).count (.post p) = threadCount p := by
    have hjoins (q : Port) : ((List.range (threadCount q)).map (MainStep.join q)).count (.post p) =
        0 := List.count_eq_zero.mpr (by simp)
    cases p <;> simp [Process.program, Process.opening, Process.stopping, Process.joining, hjoins,
      List.count_append, List.count_replicate]
  obtain ⟨before, hprogram⟩ := h
  have hsorted := program_sorted threadCount
  rw [← hprogram] at hcount hsorted
  have hnone : before.count (.post p) = 0 := by
    rw [List.count_eq_zero]
    intro hmem
    have hle := ((List.pairwise_append.mp hsorted).2.2 _ hmem _ List.mem_cons_self).1
    cases p <;> exact absurd hle (by decide)
  rw [List.count_append, hnone, Nat.zero_add, List.count_cons_of_ne (by simp)] at hcount
  exact hcount

end

/-! ### The workers -/

structure PoolsInv (st : Process) : Prop where
  program : st.main <:+ Process.program st.threadCount
  sound : ∀ p, Sound (st.pools p)
  unstarted : ∀ p, .start p ∈ st.main → (st.pools p).places = []
  started : ∀ p, .start p ∉ st.main → (st.pools p).places.length = st.threadCount p
  running : ∀ p, .stop p ∈ st.main → (st.pools p).stop = false ∧ (st.pools p).owed = 0
  stopped : ∀ p, .stop p ∉ st.main →
    (st.pools p).stop = true ∧ (st.pools p).owed = st.main.count (.post p)
  joined : ∀ p w, w < st.threadCount p → .join p w ∉ st.main →
    (st.pools p).places[w]? = some .ended
  opened : ∀ p, .closeHandle p ∈ st.main → st.handle p = true
  closed : ∀ p, st.handle p = false → ∀ w < st.threadCount p, .join p w ∉ st.main

theorem poolsInv_start (roomCount poolSize acceptCount : Nat) (threadCount : Port → Nat) :
    PoolsInv (.start roomCount poolSize acceptCount threadCount) where
  program := List.suffix_refl _
  sound _ := sound_start 0
  unstarted _ _ := rfl
  started p hgone := absurd (of_port_mem_program p).1 hgone
  running _ _ := ⟨rfl, rfl⟩
  stopped p hgone := absurd (of_port_mem_program p).2.1 hgone
  joined _ _ hw hgone := absurd (join_mem_program hw) hgone
  opened _ _ := rfl
  closed _ hclosed := absurd hclosed (by simp [Process.start])

def MainStep.ofPool : MainStep → Bool
  | .start _ | .stop _ | .post _ | .join _ _ | .closeHandle _ => true
  | _ => false

section
variable {st st' : Process} {act : ProcessAct} {step : MainStep} {main : List MainStep}

theorem PoolsInv.frame (h : PoolsInv st) (hprogram : st'.main <:+ Process.program st.threadCount)
    (hpools : st'.pools = st.pools) (hcount : st'.threadCount = st.threadCount)
    (hhandle : st'.handle = st.handle)
    (hmain : ∀ x, x.ofPool = true → st'.main.count x = st.main.count x) : PoolsInv st' := by
  have hmem {x : MainStep} (hx : x.ofPool = true) : x ∈ st'.main ↔ x ∈ st.main := by
    rw [← List.count_pos_iff, ← List.count_pos_iff, hmain x hx]
  refine ⟨hcount ▸ hprogram, hpools ▸ h.sound, fun p hp => ?_, fun p hp => ?_, fun p hp => ?_,
    fun p hp => ?_, fun p w hw hjoin => ?_, fun p hp => ?_, fun p hclosed w hw => ?_⟩
  · rw [hpools]
    exact h.unstarted p ((hmem rfl).mp hp)
  · rw [hpools, hcount]
    exact h.started p ((hmem rfl).not.mp hp)
  · rw [hpools]
    exact h.running p ((hmem rfl).mp hp)
  · rw [hpools, hmain _ rfl]
    exact h.stopped p ((hmem rfl).not.mp hp)
  · rw [hpools]
    exact h.joined p w (hcount ▸ hw) ((hmem rfl).not.mp hjoin)
  · rw [hhandle]
    exact h.opened p ((hmem rfl).mp hp)
  · exact (hmem rfl).not.mpr (h.closed p (hhandle ▸ hclosed) w (hcount ▸ hw))

theorem setPool_cases {P : Port → Pool Nat → Prop} {p : Port} {pool : Pool Nat} (hp : P p pool)
    (hq : ∀ q, q ≠ p → P q (st.pools q)) (q : Port) : P q ((st.setPool p pool).pools q) := by
  by_cases hqp : q = p
  · subst hqp
    simpa [Process.setPool] using hp
  · simpa [Process.setPool, hqp] using hq q hqp

theorem poolsInv_worker (h : PoolsInv st) {p : Port} {act : WorkerAct Nat} {pool : Pool Nat}
    (hact : act.ofWorker = true) (hstep : poolStep (st.pools p) act = some pool) :
    PoolsInv (st.setPool p pool) := by
  obtain ⟨hstop, howed⟩ := worker_step hact hstep
  have hlength := length_step hstep
  refine ⟨h.program, ?_, ?_, ?_, ?_, ?_, ?_, h.opened, h.closed⟩
  · exact setPool_cases (P := fun _ pool => Sound pool) (sound_step (h.sound p) hstep) fun q _ => h.sound q
  · apply setPool_cases (P := fun q pool => .start q ∈ st.main → pool.places = [])
    · intro hp
      rw [← List.length_eq_zero_iff, hlength, h.unstarted p hp]
      rfl
    · exact fun q _ => h.unstarted q
  · apply setPool_cases (P := fun q pool => .start q ∉ st.main → pool.places.length = st.threadCount q)
    · exact fun hp => hlength.trans (h.started p hp)
    · exact fun q _ => h.started q
  · apply setPool_cases (P := fun q pool => .stop q ∈ st.main → pool.stop = false ∧ pool.owed = 0)
    · rw [hstop, howed]
      exact h.running p
    · exact fun q _ => h.running q
  · apply setPool_cases (P := fun q pool => .stop q ∉ st.main →
      pool.stop = true ∧ pool.owed = st.main.count (.post q))
    · rw [hstop, howed]
      exact h.stopped p
    · exact fun q _ => h.stopped q
  · apply setPool_cases (P := fun q pool => ∀ w, w < st.threadCount q → .join q w ∉ st.main →
      pool.places[w]? = some .ended)
    · exact fun w hw hjoin => worker_stays hstep (h.joined p w hw hjoin) (.inl rfl)
    · exact fun q _ => h.joined q

theorem notMem_pop {x : MainStep} (hne : x ≠ step) (hgone : x ∉ main) : x ∉ step :: main := by
  simp [hne, hgone]

theorem PoolsInv.port (h : PoolsInv st) (hmain : st.main = step :: main) {p : Port}
    {pool : Pool Nat} (hstep : step = .start p ∨ step = .stop p ∨ step = .post p)
    (hsound : Sound pool) (hunstarted : .start p ∈ main → pool.places = [])
    (hstarted : .start p ∉ main → pool.places.length = st.threadCount p)
    (hrunning : .stop p ∈ main → pool.stop = false ∧ pool.owed = 0)
    (hstopped : .stop p ∉ main → pool.stop = true ∧ pool.owed = main.count (.post p))
    (hjoined : ∀ w < st.threadCount p, .join p w ∉ main → pool.places[w]? = some .ended) :
    PoolsInv { st.setPool p pool with main := main } := by
  have hrest : main <:+ Process.program st.threadCount :=
    (List.suffix_cons step main).trans (hmain ▸ h.program)
  have hkept {x : MainStep} (hx : x ∈ main) : x ∈ st.main := hmain ▸ List.mem_cons_of_mem step hx
  have hgone {x : MainStep} (hne : x ≠ step) (hx : x ∉ main) : x ∉ st.main := by
    rw [hmain]
    exact notMem_pop hne hx
  have hjoin (q : Port) (w : Nat) : MainStep.join q w ≠ step := by
    rcases hstep with rfl | rfl | rfl <;> simp
  refine ⟨hrest, ?_, ?_, ?_, ?_, ?_, ?_, fun q hq => h.opened q (hkept hq),
    fun q hclosed w hw hq => h.closed q hclosed w hw (hkept hq)⟩
  · exact setPool_cases (P := fun _ pool => Sound pool) hsound fun q _ => h.sound q
  · exact setPool_cases (P := fun q pool => .start q ∈ main → pool.places = []) hunstarted
      fun q _ hq => h.unstarted q (hkept hq)
  · refine setPool_cases (P := fun q pool => .start q ∉ main →
      pool.places.length = st.threadCount q) hstarted fun q hne hq => h.started q (hgone ?_ hq)
    rcases hstep with rfl | rfl | rfl <;> simp [hne]
  · exact setPool_cases (P := fun q pool => .stop q ∈ main → pool.stop = false ∧ pool.owed = 0)
      hrunning fun q _ hq => h.running q (hkept hq)
  · refine setPool_cases (P := fun q pool => .stop q ∉ main →
      pool.stop = true ∧ pool.owed = main.count (.post q)) hstopped fun q hne hq => ?_
    have hwas := h.stopped q (hgone (by rcases hstep with rfl | rfl | rfl <;> simp [hne]) hq)
    rwa [hmain, List.count_cons_of_ne (by rcases hstep with rfl | rfl | rfl <;> simp [Ne.symm hne])]
      at hwas
  · exact setPool_cases (P := fun q pool => ∀ w < st.threadCount q, .join q w ∉ main →
      pool.places[w]? = some .ended) hjoined
      fun q _ w hw hq => h.joined q w hw (hgone (hjoin q w) hq)

theorem poolsInv_main (h : PoolsInv st) (hmain : st.main = step :: main) {ok : Bool}
    (hstep : st.mainStep ok step = some st') (hpool : step.ofPool = true) :
    PoolsInv { st' with main := main } := by
  have hprogram : step :: main <:+ Process.program st.threadCount := hmain ▸ h.program
  have hrest : main <:+ Process.program st.threadCount :=
    (List.suffix_cons step main).trans hprogram
  have hkept {x : MainStep} (hx : x ∈ main) : x ∈ st.main := hmain ▸ List.mem_cons_of_mem step hx
  have hgone {x : MainStep} (hne : x ≠ step) (hx : x ∉ main) : x ∉ st.main := by
    rw [hmain]
    exact notMem_pop hne hx
  cases step with
  | start p =>
    cases hstep
    have hstop : .stop p ∈ main :=
      later hprogram (of_port_mem_program p).2.1 (by cases p <;> decide)
    have hjoin (w : Nat) (hw : w < st.threadCount p) : .join p w ∈ main :=
      later hprogram (join_mem_program hw) (by cases p <;> simp [MainStep.order])
    exact h.port hmain (.inl rfl) (sound_start _) (fun hp => absurd hp (once hprogram rfl))
      (fun _ => List.length_replicate) (fun _ => ⟨rfl, rfl⟩) (fun hp => absurd hstop hp)
      fun w hw hp => absurd (hjoin w hw) hp
  | stop p =>
    simp only [Process.mainStep, Process.poolAct, poolStep, Option.map_some, Option.some.injEq]
      at hstep
    subst hstep
    have hhalt : poolStep (st.pools p) .halt = some _ := rfl
    have hstarted := h.started p (hmain ▸ earlier hprogram (by cases p <;> decide))
    have howed := (h.running p (hmain ▸ List.mem_cons_self)).2
    refine h.port hmain (.inr (.inl rfl)) (sound_step (h.sound p) hhalt)
      (fun hp => h.unstarted p (hkept hp)) (fun _ => hstarted)
      (fun hp => absurd hp (once hprogram rfl)) (fun _ => ⟨rfl, ?_⟩)
      fun w hw hp => h.joined p w hw (hgone (by simp) hp)
    rw [count_post hprogram, howed, Nat.zero_add]
    exact hstarted
  | post p =>
    simp only [Process.mainStep, Process.poolAct] at hstep
    obtain ⟨pool, hpost, rfl⟩ := Option.map_eq_some_iff.mp hstep
    have hsound := sound_step (h.sound p) hpost
    simp only [poolStep] at hpost
    split at hpost
    case isFalse => contradiction
    case isTrue howed =>
      cases hpost
      -- nothing is owed before the flag is set
      have hstopped : .stop p ∉ st.main := by
        intro hp
        rw [(h.running p hp).2] at howed
        exact Nat.lt_irrefl 0 howed
      obtain ⟨hstop, howes⟩ := h.stopped p hstopped
      rw [hmain, List.count_cons_self] at howes
      refine h.port hmain (.inr (.inr rfl)) hsound (fun hp => h.unstarted p (hkept hp))
        (fun hp => h.started p (hgone (by simp) hp)) (fun hp => absurd (hkept hp) hstopped)
        (fun _ => ⟨hstop, ?_⟩) fun w hw hp => h.joined p w hw (hgone (by simp) hp)
      dsimp only
      omega
  | join p w =>
    simp only [Process.mainStep] at hstep
    split at hstep
    case isFalse => contradiction
    case isTrue hended =>
      cases hstep
      refine ⟨hrest, h.sound, fun q hq => h.unstarted q (hkept hq),
        fun q hq => h.started q (hgone (by simp) hq), fun q hq => h.running q (hkept hq),
        fun q hq => ?_, fun q v hv hq => ?_, fun q hq => h.opened q (hkept hq),
        fun q hclosed v hv hq => h.closed q hclosed v hv (hkept hq)⟩
      · have hwas := h.stopped q (hgone (by simp) hq)
        rw [hmain, List.count_cons_of_ne (by simp)] at hwas
        exact hwas
      · by_cases hsame : MainStep.join q v = .join p w
        · cases hsame
          exact hended
        · exact h.joined q v hv (hgone hsame hq)
  | closeHandle p =>
    cases hstep
    refine ⟨hrest, h.sound, fun q hq => h.unstarted q (hkept hq),
      fun q hq => h.started q (hgone (by simp) hq), fun q hq => h.running q (hkept hq),
      fun q hq => ?_, fun q v hv hq => h.joined q v hv (hgone (by simp) hq), fun q hq => ?_,
      fun q hclosed v hv hq => ?_⟩
    · have hwas := h.stopped q (hgone (by simp) hq)
      rw [hmain, List.count_cons_of_ne (by simp)] at hwas
      exact hwas
    · have hne : q ≠ p := by
        rintro rfl
        exact once hprogram rfl hq
      simpa [hne] using h.opened q (hkept hq)
    · by_cases hqp : q = p
      · subst hqp
        have hbefore := earlier (x := .join q v) hprogram (by cases q <;> simp [MainStep.order])
        exact hbefore (List.mem_cons_of_mem _ hq)
      · exact h.closed q (by simpa [hqp] using hclosed) v hv (hkept hq)
  | _ => contradiction

theorem main_frame {ok : Bool} (hstep : st.mainStep ok step = some st')
    (hpool : step.ofPool = false) :
    st'.pools = st.pools ∧ st'.threadCount = st.threadCount ∧ st'.handle = st.handle := by
  cases step with
  | start | stop | post | join | closeHandle => contradiction
  | shutdown =>
    simp only [Process.mainStep] at hstep
    obtain ⟨server, _, rfl⟩ := Option.map_eq_some_iff.mp hstep
    exact ⟨rfl, rfl, rfl⟩
  | startMonitor =>
    cases hstep
    split <;> exact ⟨rfl, rfl, rfl⟩
  | _ =>
    simp only [Process.mainStep] at hstep
    repeat' split at hstep
    all_goals first | contradiction | (cases hstep; exact ⟨rfl, rfl, rfl⟩)

theorem monitor_frame {timedOut : Bool} {pc : MonitorPc}
    (hstep : st.monitorStep timedOut pc = some st') :
    ∃ monitor reports, st' = { st with monitor := monitor, reports := reports } := by
  cases pc with
  | wait =>
    simp only [Process.monitorStep] at hstep
    repeat' split at hstep
    all_goals first | contradiction | (cases hstep; exact ⟨_, st.reports, rfl⟩)
  | count signalled =>
    cases hstep
    exact ⟨_, st.reports, rfl⟩
  | print signalled connCount =>
    cases hstep
    exact ⟨_, _, rfl⟩
  | ended => contradiction

theorem poolsInv_step (h : PoolsInv st) (hstep : processStep st act = some st') : PoolsInv st' := by
  have hsame {st' : Process} (hmain : st'.main = st.main) (hpools : st'.pools = st.pools)
      (hcount : st'.threadCount = st.threadCount) (hhandle : st'.handle = st.handle) :
      PoolsInv st' :=
    h.frame (hmain ▸ h.program) hpools hcount hhandle fun x _ => by rw [hmain]
  cases process_cases hstep with
  | signal => exact hsame rfl rfl rfl rfl
  | @main ok step main _ hmain hmainStep =>
    cases hpool : step.ofPool with
    | true => exact poolsInv_main h hmain hmainStep hpool
    | false =>
      obtain ⟨hpools, hcount, hhandle⟩ := main_frame hmainStep hpool
      refine h.frame ?_ hpools hcount hhandle fun x hx => ?_
      · exact (List.suffix_cons step main).trans (hmain ▸ h.program)
      · have hne : step ≠ x := by
          rintro rfl
          rw [hx] at hpool
          contradiction
        rw [hmain, List.count_cons_of_ne hne]
  | run => exact hsame rfl rfl rfl rfl
  | test p w hpool | takeNull p w _ hpool | finish p w _ _ hpool =>
    exact poolsInv_worker h rfl hpool
  | take p w k completion _ _ _ hpool =>
    have htaken := poolsInv_worker h rfl hpool
    exact htaken.frame htaken.program rfl rfl rfl fun _ _ => rfl
  | monitor timedOut _ hmonitor =>
    obtain ⟨monitor, reports, rfl⟩ := monitor_frame hmonitor
    exact hsame rfl rfl rfl rfl

theorem poolsInv_reaches {roomCount poolSize acceptCount : Nat} {threadCount : Port → Nat}
    {ok : Process → ProcessAct → Prop}
    (h : Reaches processStep ok (.start roomCount poolSize acceptCount threadCount) st) :
    PoolsInv st := by
  apply h.invariant (poolsInv_start roomCount poolSize acceptCount threadCount)
  intro st act st' _ hinv _ hstep
  exact poolsInv_step hinv hstep

/-! ### The threads of the server -/

end

section
variable {st st' : Server} {act : ServerAct} {c : Choice} {instr x : Instr} {t u : Nat}
  {rest thread : List Instr}

theorem done_iff : st.done t = true ↔ st.threads[t]? = some [] := by
  unfold Server.done
  split
  case h_1 h => simp [h]
  case h_2 h => simpa using h

inductive ThreadsSpec (st : Server) : ServerAct → Server → Prop where
  | advance (t : Nat) (c : Choice) {instr : Instr} {rest : List Instr}
      (h : st.threads[t]? = some (instr :: rest)) :
      ThreadsSpec st (.advance t c) (st.advance t c instr rest)
  | spawn {act : ServerAct} {st' : Server} (thread : List Instr)
      (hthreads : st'.threads = st.threads ++ [thread]) (hstop : st'.listenStop = st.listenStop)
      (hcount : st'.roomCount = st.roomCount)
      (hthread : (∃ op ∈ st.posted, ∃ completion, thread = [op.handler completion]) ∨
        act = .shutdown ∧ .listenShutdown ∈ thread ∧ .snapshot ∈ thread) :
      ThreadsSpec st act st'

theorem advance_cases (h : serverStep st (.advance t c) = some st') :
    ∃ instr rest, st.threads[t]? = some (instr :: rest) ∧ st' = st.advance t c instr rest := by
  simp only [serverStep] at h
  split at h
  · rename_i instr rest hthread
    exact ⟨instr, rest, hthread, (Option.some.inj h).symm⟩
  · contradiction

theorem threads_cases (h : serverStep st act = some st') : ThreadsSpec st act st' := by
  cases act with
  | advance t c =>
    obtain ⟨instr, rest, hthread, rfl⟩ := advance_cases h
    exact .advance t c hthread
  | complete k completion =>
    obtain ⟨op, hop, rfl⟩ := Option.map_eq_some_iff.mp h
    exact .spawn _ rfl rfl rfl (.inl ⟨op, List.mem_of_getElem? hop, completion, rfl⟩)
  | shutdown =>
    cases h
    refine .spawn _ rfl rfl rfl (.inr ⟨rfl, List.mem_cons_self, ?_⟩)
    simp

theorem advance_thread_ne (hne : u ≠ t) :
    (st.advance t c instr rest).threads[u]? = st.threads[u]? :=
  List.getElem?_set_ne (Ne.symm hne)

theorem advance_thread (h : st.threads[t]? = some (instr :: rest)) :
    ∃ next, (st.advance t c instr rest).threads[t]? = some (next ++ rest) ∧
      ∀ x ∈ next, (∃ s, x = .pushSession s) ∨ x ∈ (st.exec c instr).2 := by
  obtain ⟨released, hthreads, hreleased⟩ := advance_threads st t c instr rest
  refine ⟨released ++ (st.exec c instr).2, ?_, fun x hx => ?_⟩
  · rw [hthreads, List.getElem?_set_self (List.getElem?_eq_some_iff.mp h).1]
  · rcases List.mem_append.mp hx with hx | hx
    · exact .inl (hreleased x hx)
    · exact .inr hx

theorem roomCount_step (h : serverStep st act = some st') : st'.roomCount = st.roomCount := by
  cases threads_cases h with
  | advance t c hthread => exact exec_sizes.1
  | spawn _ _ _ hcount _ => exact hcount

theorem length_le_step (h : serverStep st act = some st') :
    st.threads.length ≤ st'.threads.length := by
  cases threads_cases h with
  | advance t c hthread => exact Nat.le_of_eq List.length_set.symm
  | spawn _ hthreads _ _ _ =>
    rw [hthreads, List.length_append]
    exact Nat.le_add_right _ _

theorem done_step (h : serverStep st act = some st') (hdone : st.done t = true) :
    st'.done t = true := by
  rw [done_iff] at hdone ⊢
  cases threads_cases h with
  | @advance u c instr rest hthread =>
    have hne : t ≠ u := by
      rintro rfl
      exact absurd (hthread.symm.trans hdone) (by simp)
    rw [advance_thread_ne hne, hdone]
  | spawn _ hthreads _ _ _ =>
    rw [hthreads, List.getElem?_append_left (List.getElem?_eq_some_iff.mp hdone).1, hdone]

theorem roomsDone_step (h : serverStep st act = some st') (hdone : st.roomsDone = true) :
    st'.roomsDone = true := by
  unfold Server.roomsDone at hdone ⊢
  rw [roomCount_step h]
  rw [List.all_eq_true] at hdone ⊢
  exact fun i hi => done_step h (hdone i hi)

theorem next_afterJoin (hx : x ∈ (st.exec c instr).2) : x.afterJoin = false := by
  cases exec_next hx <;> rfl

end

/-- What has been done of `Shutdown` by the thread that stands for it. -/
structure Closing (st : Server) (t : Nat) : Prop where
  lt : st.roomCount < t
  lt_length : t < st.threads.length
  listen : ∀ thread, st.threads[t]? = some thread →
    .listenShutdown ∈ thread ∨ st.listenStop = true
  rooms : ∀ thread, st.threads[t]? = some thread → .snapshot ∈ thread ∨ st.roomsDone = true

/-- What the last reference to a session sets going. -/
def Instr.ofDrop : Instr → Bool
  | .drop _ | .pushSession _ | .poolPush _ | .reWaiting => true
  | _ => false

/-- That thread behind the loop over `CloseSession`: it keeps the vector until `Shutdown`
returns. -/
structure Shutting (main : List MainStep) (st : Server) (t : Nat) : Prop where
  closed : .closed ∉ main → ∀ thread, st.threads[t]? = some thread →
    ∀ x ∈ thread, x.ofDrop = true
  held : .closed ∉ main → .closeEvent ∈ main → st.letsGo t = true
  returned : .returned ∉ main → st.done t = true

/-- Each thread of the server that is not done is `main`'s, a room's or a worker's. -/
structure ThreadsInv (st : Process) : Prop where
  size : st.server.roomCount < st.server.threads.length
  accepted : .accepted ∉ st.main → st.server.done st.server.roomCount = true
  unshut : .shutdown ∈ st.main → st.closing = none
  shut : .shutdown ∉ st.main → ∃ t, st.closing = some t
  closing : ∀ t, st.closing = some t → Closing st.server t
  shutting : ∀ t, st.closing = some t → Shutting st.main st.server t
  joins : ∀ t thread, st.server.threads[t]? = some thread →
    (∃ x ∈ thread, x.afterJoin = true) → st.closing = some t
  jobs : ∀ t, st.server.roomCount < t → t < st.server.threads.length →
    st.server.done t = false → st.closing = some t ∨
      ∃ (p : Port) (w : Nat), (st.pools p).places[w]? = some (.work t)
  works : ∀ (p : Port) (w t : Nat), (st.pools p).places[w]? = some (.work t) →
    st.server.roomCount < t ∧ t < st.server.threads.length
  apart : ∀ (p : Port) (w t : Nat), (st.pools p).places[w]? = some (.work t) → st.closing ≠ some t

theorem letsGo_iff {st : Server} {t : Nat} : st.letsGo t = true ↔
    ∃ thread, st.threads[t]? = some thread ∧ ∀ x ∈ thread, x.isDrop = true := by
  unfold Server.letsGo
  split
  case h_1 thread h => simp [h]
  case h_2 h => simp [h]

theorem letsGo_done {st : Server} {t : Nat} (h : st.done t = true) : st.letsGo t = true :=
  letsGo_iff.mpr ⟨[], done_iff.mp h, fun _ hx => absurd hx List.not_mem_nil⟩

section
variable {st st' : Process} {act : ProcessAct} {step : MainStep} {main : List MainStep}

/-- Another thread goes on, or `main` behind the loop. -/
theorem Shutting.frame {server server' : Server} {main' : List MainStep} {t : Nat}
    (h : Shutting main server t) (hsame : server'.threads[t]? = server.threads[t]?)
    (hclosed : .closed ∉ main' → .closed ∈ main → server.letsGo t = true)
    (hmain : .closeEvent ∈ main' → .closeEvent ∈ main)
    (hreturned : .returned ∉ main' → .returned ∈ main → server.done t = true) :
    Shutting main' server' t := by
  have hletsGo : server'.letsGo t = server.letsGo t := by rw [Server.letsGo, hsame]; rfl
  refine ⟨fun hgone thread hthread x hx => ?_, fun hgone hmem => ?_, fun hgone => ?_⟩
  · rw [hsame] at hthread
    by_cases hbefore : .closed ∈ main
    · obtain ⟨_, hother, hdrops⟩ := letsGo_iff.mp (hclosed hgone hbefore)
      cases hthread.symm.trans hother
      have hdrop := hdrops x hx
      cases x <;> first | rfl | contradiction
    · exact h.closed hbefore thread hthread x hx
  · rw [hletsGo]
    by_cases hbefore : .closed ∈ main
    · exact hclosed hgone hbefore
    · exact h.held hbefore (hmain hmem)
  · rw [done_iff, hsame, ← done_iff]
    by_cases hbefore : .returned ∈ main
    · exact hreturned hgone hbefore
    · exact h.returned hbefore

theorem exec_ofDrop {server : Server} {c : Choice} {instr x : Instr}
    (hstop : server.listenStop = true) (hinstr : instr.ofDrop = true)
    (hx : x ∈ (server.exec c instr).2) : x.ofDrop = true := by
  cases instr with
  | drop s => exact absurd hx List.not_mem_nil
  | pushSession s =>
    simp only [Server.exec, List.mem_cons, List.not_mem_nil, or_false] at hx
    rcases hx with rfl | rfl <;> rfl
  | poolPush s => exact absurd hx List.not_mem_nil
  | reWaiting =>
    rw [Server.exec, hstop, if_pos rfl] at hx
    exact absurd hx List.not_mem_nil
  | _ => contradiction

/-- The thread itself goes on, when `Shutdown` returns. -/
theorem Shutting.advance {server : Server} {t : Nat} {c : Choice} {instr : Instr}
    {rest : List Instr} (h : Shutting main server t) (hclosing : Closing server t)
    (hthread : server.threads[t]? = some (instr :: rest))
    (hgoes : .closed ∉ main → .closeEvent ∉ main) :
    Shutting main (server.advance t c instr rest) t := by
  refine ⟨fun hgone thread hnext x hx => ?_, fun hgone hmem => absurd hmem (hgoes hgone),
    fun hgone => ?_⟩
  · have hall := h.closed hgone _ hthread
    have hstop : server.listenStop = true := by
      refine (hclosing.listen _ hthread).resolve_left fun hmem => ?_
      have hlisten := hall _ hmem
      contradiction
    obtain ⟨next, hthread', hnew⟩ := advance_thread (c := c) hthread
    cases hthread'.symm.trans hnext
    rcases List.mem_append.mp hx with hx | hx
    · rcases hnew x hx with ⟨s, rfl⟩ | hx
      · rfl
      · exact exec_ofDrop hstop (hall instr List.mem_cons_self) hx
    · exact hall x (List.mem_cons_of_mem _ hx)
  · have hdone := done_iff.mp (h.returned hgone)
    exact absurd (hthread.symm.trans hdone) (by simp)

theorem held_waits (hpools : PoolsInv st) {t : Nat} (h : Shutting st.main st.server t)
    (hclosed : .closed ∉ st.main) (hopen : .closeEvent ∈ st.main) (ht : st.closing = some t) :
    st.mayRun t = false := by
  have hkeeps : st.keepsVector t = true := by
    have hhead : st.main.head? ≠ some .returned := by
      intro hhead
      obtain ⟨main, hmain⟩ := List.head?_eq_some_iff.mp hhead
      exact earlier (hmain ▸ hpools.program) (by decide) (hmain ▸ hopen)
    simp [Process.keepsVector, ht, h.held hclosed hopen, hhead]
  rw [Process.mayRun, hkeeps, Bool.not_true, Bool.and_false]

theorem Closing.advance {server : Server} {t u : Nat} {c : Choice}
    {instr : Instr} {rest : List Instr} (h : Closing server t)
    (hthread : server.threads[u]? = some (instr :: rest))
    (hjoin : instr.afterJoin = true → server.roomsDone = true) :
    Closing (server.advance u c instr rest) t := by
  have hstep : serverStep server (.advance u c) = some (server.advance u c instr rest) := by
    simp only [serverStep, hthread]
  refine ⟨(roomCount_step hstep).symm ▸ h.lt, Nat.lt_of_lt_of_le h.lt_length (length_le_step hstep),
    fun thread ht => ?_, fun thread ht => ?_⟩
  · by_cases htu : t = u
    · subst htu
      obtain ⟨next, hnext, _⟩ := advance_thread (c := c) hthread
      cases hnext.symm.trans ht
      rcases h.listen _ hthread with hmem | hstop
      · rcases List.mem_cons.mp hmem with rfl | hmem
        · exact .inr rfl
        · exact .inl (List.mem_append_right _ hmem)
      · exact .inr (stop_stays hstop)
    · rw [advance_thread_ne htu] at ht
      exact (h.listen thread ht).imp_right stop_stays
  · by_cases htu : t = u
    · subst htu
      obtain ⟨next, hnext, _⟩ := advance_thread (c := c) hthread
      cases hnext.symm.trans ht
      rcases h.rooms _ hthread with hmem | hdone
      · rcases List.mem_cons.mp hmem with rfl | hmem
        · exact .inr (roomsDone_step hstep (hjoin rfl))
        · exact .inl (List.mem_append_right _ hmem)
      · exact .inr (roomsDone_step hstep hdone)
    · rw [advance_thread_ne htu] at ht
      exact (h.rooms thread ht).imp_right (roomsDone_step hstep)

theorem Closing.spawn {server server' : Server} {act : ServerAct} {t : Nat} {thread : List Instr}
    (h : Closing server t) (hstep : serverStep server act = some server')
    (hthreads : server'.threads = server.threads ++ [thread])
    (hstop : server'.listenStop = server.listenStop) : Closing server' t := by
  have hsame : server'.threads[t]? = server.threads[t]? := by
    rw [hthreads, List.getElem?_append_left h.lt_length]
  refine ⟨(roomCount_step hstep).symm ▸ h.lt, Nat.lt_of_lt_of_le h.lt_length (length_le_step hstep),
    fun thread ht => ?_, fun thread ht => ?_⟩
  · rw [hstop]
    exact h.listen thread (hsame ▸ ht)
  · exact (h.rooms thread (hsame ▸ ht)).imp_right (roomsDone_step hstep)

theorem threadsInv_run (hpools : PoolsInv st) (h : ThreadsInv st) {t : Nat} {c : Choice}
    {server : Server} (hrun : st.mayRun t = true) (hstep : serverStep st.server (.advance t c) = some server) :
    ThreadsInv { st with server := server } := by
  have hcount := roomCount_step hstep
  have hjoin {instr : Instr} {rest : List Instr}
      (hthread : st.server.threads[t]? = some (instr :: rest))
      (hafter : instr.afterJoin = true) : st.server.roomsDone = true := by
    have hjoins := ((Bool.and_eq_true _ _).mp ((Bool.and_eq_true _ _).mp hrun).1).2
    rw [hthread] at hjoins
    simpa [hafter] using hjoins
  obtain ⟨instr, rest, hthread, rfl⟩ := advance_cases hstep
  have hlength : (st.server.advance t c instr rest).threads.length = st.server.threads.length :=
    List.length_set
  refine ⟨?_, fun haccepted => ?_, h.unshut, h.shut, fun u hu => ?_, fun u hu => ?_,
    fun u thread hu hafter => ?_, fun u hlt hlength' hdone => ?_, fun p w u hwork => ?_, h.apart⟩
  · rw [hlength, hcount]
    exact h.size
  · dsimp only
    rw [hcount]
    exact done_step hstep (h.accepted haccepted)
  · exact (h.closing u hu).advance hthread (hjoin hthread)
  · by_cases hut : u = t
    · subst hut
      refine (h.shutting u hu).advance (h.closing u hu) hthread fun hgone hmem => ?_
      rw [held_waits hpools (h.shutting u hu) hgone hmem hu] at hrun
      contradiction
    · exact (h.shutting u hu).frame (advance_thread_ne hut) (fun hgone hmem => absurd hmem hgone)
        id fun hgone hmem => absurd hmem hgone
  · by_cases hut : u = t
    · subst hut
      obtain ⟨next, hnext, hnew⟩ := advance_thread (c := c) hthread
      cases hnext.symm.trans hu
      obtain ⟨x, hx, hafter⟩ := hafter
      apply h.joins u _ hthread
      rcases List.mem_append.mp hx with hx | hx
      · rcases hnew x hx with ⟨s, rfl⟩ | hx
        · contradiction
        · rw [next_afterJoin hx] at hafter
          contradiction
      · exact ⟨x, List.mem_cons_of_mem _ hx, hafter⟩
    · rw [advance_thread_ne hut] at hu
      exact h.joins u thread hu hafter
  · rw [hlength] at hlength'
    dsimp only at hlt
    rw [hcount] at hlt
    apply h.jobs u hlt hlength'
    by_contra hnot
    rw [Bool.not_eq_false] at hnot
    rw [done_step hstep hnot] at hdone
    contradiction
  · have hwas := h.works p w u hwork
    dsimp only
    rw [hcount, hlength]
    exact hwas

theorem ThreadsInv.spawn (h : ThreadsInv st) {serverAct : ServerAct} {thread : List Instr}
    (hstep : serverStep st.server serverAct = some st'.server)
    (hthreads : st'.server.threads = st.server.threads ++ [thread])
    (hstop : st'.server.listenStop = st.server.listenStop)
    (haccepted : .accepted ∉ st'.main → .accepted ∉ st.main)
    (hunshut : .shutdown ∈ st'.main → st'.closing = none)
    (hshut : .shutdown ∉ st'.main → ∃ t, st'.closing = some t)
    (hclosing : st'.closing = st.closing ∧ st'.main = st.main ∨ st.closing = none ∧
      st'.closing = some st.server.threads.length ∧ .listenShutdown ∈ thread ∧
      .snapshot ∈ thread ∧ .closed ∈ st'.main ∧ .returned ∈ st'.main ∧ st'.pools = st.pools)
    (hjoins : (∃ x ∈ thread, x.afterJoin = true) → st'.closing = some st.server.threads.length)
    (hjobs : st'.closing = some st.server.threads.length ∨
      ∃ (p : Port) (w : Nat), (st'.pools p).places[w]? = some (.work st.server.threads.length))
    (hkept : ∀ (p : Port) (w t : Nat), (st.pools p).places[w]? = some (.work t) →
      (st'.pools p).places[w]? = some (.work t))
    (hworks : ∀ (p : Port) (w t : Nat), (st'.pools p).places[w]? = some (.work t) →
      (st.pools p).places[w]? = some (.work t) ∨ t = st.server.threads.length) :
    ThreadsInv st' := by
  have hcount := roomCount_step hstep
  have hlength : st'.server.threads.length = st.server.threads.length + 1 := by
    rw [hthreads, List.length_append]
    rfl
  have hclosingLt : st.closing ≠ some st.server.threads.length := fun heq =>
    Nat.lt_irrefl _ (h.closing _ heq).lt_length
  have hclosingStays {t : Nat} (ht : st.closing = some t) : st'.closing = some t := by
    rcases hclosing with ⟨hsame, _⟩ | ⟨hnone, _⟩
    · exact hsame.trans ht
    · rw [hnone] at ht
      contradiction
  refine ⟨?_, fun hgone => ?_, hunshut, hshut, fun t ht => ?_, fun t ht => ?_,
    fun t thread' ht hafter => ?_, fun t hlt hlt' hdone => ?_, fun p w t hwork => ?_,
    fun p w t hwork => ?_⟩
  · rw [hcount, hlength]
    exact Nat.lt_succ_of_lt h.size
  · rw [hcount]
    exact done_step hstep (h.accepted (haccepted hgone))
  · rcases hclosing with ⟨hsame, _⟩ | ⟨_, hnew, hlisten, hsnapshot, _⟩
    · exact (h.closing t (hsame ▸ ht)).spawn hstep hthreads hstop
    · cases hnew.symm.trans ht
      have hself : st'.server.threads[st.server.threads.length]? = some thread := by
        rw [hthreads, List.getElem?_concat_length]
      refine ⟨hcount.symm ▸ h.size, by omega, fun thread' ht' => .inl ?_, fun thread' ht' => .inl ?_⟩
      · cases hself.symm.trans ht'
        exact hlisten
      · cases hself.symm.trans ht'
        exact hsnapshot
  · rcases hclosing with ⟨hsame, hmain⟩ | ⟨_, _, _, _, hclosed, hreturned, _⟩
    · have hold : st'.server.threads[t]? = st.server.threads[t]? := by
        rw [hthreads, List.getElem?_append_left (h.closing t (hsame ▸ ht)).lt_length]
      rw [hmain]
      exact (h.shutting t (hsame ▸ ht)).frame hold (fun hgone hmem => absurd hmem hgone) id
        fun hgone hmem => absurd hmem hgone
    · exact ⟨fun hgone => absurd hclosed hgone, fun hgone => absurd hclosed hgone,
        fun hgone => absurd hreturned hgone⟩
  · rw [hthreads, List.getElem?_append] at ht
    split at ht
    case isTrue hlt => exact hclosingStays (h.joins t thread' ht hafter)
    case isFalse hge =>
      rw [List.getElem?_singleton] at ht
      split at ht
      case isFalse => contradiction
      case isTrue hzero =>
        cases ht
        have htlast : t = st.server.threads.length := by omega
        rw [htlast]
        exact hjoins hafter
  · rw [hlength] at hlt'
    by_cases hlast : t = st.server.threads.length
    · rw [hlast]
      exact hjobs
    · have hbefore : st.server.done t = false := by
        by_contra hnot
        rw [Bool.not_eq_false] at hnot
        rw [done_step hstep hnot] at hdone
        contradiction
      rcases h.jobs t (hcount ▸ hlt) (by omega) hbefore with hwas | ⟨p, w, hwork⟩
      · exact .inl (hclosingStays hwas)
      · exact .inr ⟨p, w, hkept p w t hwork⟩
  · rw [hcount, hlength]
    rcases hworks p w t hwork with hwas | rfl
    · have hwas := h.works p w t hwas
      omega
    · have hsize := h.size
      omega
  · rcases hclosing with ⟨hsame, _⟩ | ⟨_, hnew, _, _, _, _, hpools⟩
    · rw [hsame]
      rcases hworks p w t hwork with hwas | rfl
      · exact h.apart p w t hwas
      · exact hclosingLt
    · rw [hnew]
      rw [hpools] at hwork
      have hlt := (h.works p w t hwork).2
      exact fun heq => Nat.lt_irrefl _ (Option.some.inj heq ▸ hlt)

theorem ThreadsInv.frame (h : ThreadsInv st) (hserver : st'.server = st.server)
    (hclosing : st'.closing = st.closing)
    (haccepted : .accepted ∉ st'.main → st.server.done st.server.roomCount = true)
    (hshutdown : .shutdown ∈ st'.main ↔ .shutdown ∈ st.main)
    (hshutting : ∀ t, st.closing = some t → Shutting st'.main st.server t)
    (hkept : ∀ (p : Port) (w t : Nat), (st.pools p).places[w]? = some (.work t) →
      st.server.done t = true ∨ (st'.pools p).places[w]? = some (.work t))
    (hworks : ∀ (p : Port) (w t : Nat), (st'.pools p).places[w]? = some (.work t) →
      (st.pools p).places[w]? = some (.work t)) : ThreadsInv st' := by
  refine ⟨hserver ▸ h.size, hserver ▸ haccepted, fun hmem => ?_, fun hgone => ?_, ?_, ?_, ?_,
    fun t hlt hlength hdone => ?_, fun p w t hwork => ?_, fun p w t hwork => ?_⟩
  · exact hclosing.trans (h.unshut (hshutdown.mp hmem))
  · rw [hclosing]
    exact h.shut (hshutdown.not.mp hgone)
  · rw [hclosing, hserver]
    exact h.closing
  · rw [hclosing, hserver]
    exact hshutting
  · rw [hclosing, hserver]
    exact h.joins
  · rw [hclosing]
    rw [hserver] at hlt hlength hdone
    rcases h.jobs t hlt hlength hdone with hwas | ⟨p, w, hwork⟩
    · exact .inl hwas
    · rcases hkept p w t hwork with hdone' | hstays
      · rw [hdone] at hdone'
        contradiction
      · exact .inr ⟨p, w, hstays⟩
  · rw [hserver]
    exact h.works p w t (hworks p w t hwork)
  · rw [hclosing]
    exact h.apart p w t (hworks p w t hwork)

theorem setPool_places {p q : Port} {pool : Pool Nat} {w : Nat} {place : Place Nat}
    (h : ((st.setPool p pool).pools q).places[w]? = some place) :
    q = p ∧ pool.places[w]? = some place ∨ q ≠ p ∧ (st.pools q).places[w]? = some place := by
  by_cases hqp : q = p
  · subst hqp
    exact .inl ⟨rfl, by simpa [Process.setPool] using h⟩
  · exact .inr ⟨hqp, by simpa [Process.setPool, hqp] using h⟩

theorem threadsInv_worker (h : ThreadsInv st) {p : Port} {act : WorkerAct Nat} {pool : Pool Nat}
    (hstep : poolStep (st.pools p) act = some pool) (htake : ∀ w job, act ≠ .take w job)
    (hfinish : ∀ w t, act = .finish w → (st.pools p).places[w]? = some (.work t) →
      st.server.done t = true) : ThreadsInv (st.setPool p pool) := by
  refine h.frame rfl rfl h.accepted Iff.rfl h.shutting (fun q w t hwork => ?_) fun q w t hwork => ?_
  · by_cases hact : q = p ∧ act = .finish w
    · obtain ⟨rfl, rfl⟩ := hact
      exact .inl (hfinish w t rfl hwork)
    · right
      apply setPool_cases (P := fun q pool => (st.pools q).places[w]? = some (.work t) →
        ¬(q = p ∧ act = .finish w) → pool.places[w]? = some (.work t)) _ _ q hwork hact
      · exact fun hwork hact => worker_stays hstep hwork (.inr ⟨⟨t, rfl⟩, fun heq => hact ⟨rfl, heq⟩⟩)
      · exact fun q _ hwork _ => hwork
  · rcases setPool_places hwork with ⟨rfl, hnew⟩ | ⟨_, hother⟩
    · rcases working_step hstep hnew with ⟨hwas, _⟩ | hact
      · exact hwas
      · exact absurd hact (htake w t)
    · exact hother

theorem threadsInv_main (hpools : PoolsInv st) (h : ThreadsInv st) (hmain : st.main = step :: main)
    {ok : Bool} (hstep : st.mainStep ok step = some st') : ThreadsInv { st' with main := main } := by
  have hprogram : step :: main <:+ Process.program st.threadCount := hmain ▸ hpools.program
  have hgone {x : MainStep} (hne : x ≠ step) (hx : x ∉ main) : x ∉ st.main := by
    rw [hmain]
    exact notMem_pop hne hx
  have hshutdown (hne : .shutdown ≠ step) : MainStep.shutdown ∈ main ↔ .shutdown ∈ st.main := by
    rw [hmain, List.mem_cons]
    exact ⟨.inr, fun hmem => hmem.resolve_left hne⟩
  have hshutting (hclosed : ∀ t, st.closing = some t → step = .closed → st.server.letsGo t = true)
      (hreturned : ∀ t, st.closing = some t → step = .returned → st.server.done t = true) (t : Nat)
      (ht : st.closing = some t) : Shutting main st.server t := by
    refine (h.shutting t ht).frame rfl (fun hgone hmem => hclosed t ht ?_)
      (fun hmem => hmain ▸ List.mem_cons_of_mem step hmem) fun hgone hmem => hreturned t ht ?_
    · exact ((List.mem_cons.mp (hmain ▸ hmem)).resolve_right hgone).symm
    · exact ((List.mem_cons.mp (hmain ▸ hmem)).resolve_right hgone).symm
  cases step with
  | accepted =>
    simp only [Process.mainStep] at hstep
    split at hstep
    case isFalse => contradiction
    case isTrue hdone =>
      cases hstep
      exact h.frame rfl rfl (fun _ => hdone) (hshutdown (by simp))
        (hshutting (by simp) (by simp)) (fun _ _ _ => .inr) fun _ _ _ => id
  | closed | returned =>
    simp only [Process.mainStep] at hstep
    split at hstep
    case isFalse => contradiction
    case isTrue hends =>
      cases hstep
      refine h.frame rfl rfl (fun hx => h.accepted (hgone (by simp) hx)) (hshutdown (by simp))
        (hshutting (fun t ht heq => ?_) fun t ht heq => ?_) (fun _ _ _ => .inr) fun _ _ _ => id
      all_goals first
        | contradiction
        | (rw [ht] at hends
           exact hends)
  | shutdown =>
    simp only [Process.mainStep] at hstep
    obtain ⟨server, hserver, rfl⟩ := Option.map_eq_some_iff.mp hstep
    have hnone := h.unshut (hmain ▸ List.mem_cons_self)
    have hspawn := hserver
    cases hspawn
    have hlater {x : MainStep} (hx : x ∈ Process.program st.threadCount)
        (hlt : MainStep.shutdown.order < x.order) : x ∈ main := later hprogram hx hlt
    exact h.spawn hserver rfl rfl (hgone (by simp)) (fun hx => absurd hx (once hprogram rfl))
      (fun _ => ⟨_, rfl⟩)
      (.inr ⟨hnone, rfl, List.mem_cons_self, by simp, hlater (mem_program (by decide)) (by decide),
        hlater (mem_program (by decide)) (by decide), rfl⟩)
      (fun _ => rfl) (.inl rfl) (fun _ _ _ => id) fun _ _ _ => .inl
  | start p =>
    cases hstep
    have hnone : (st.pools p).places = [] := hpools.unstarted p (hmain ▸ List.mem_cons_self)
    refine h.frame rfl rfl (fun hx => h.accepted (hgone (by simp) hx)) (hshutdown (by simp))
      (hshutting (by simp) (by simp)) (fun q w t hwork => .inr ?_) fun q w t hwork => ?_
    · have hne : q ≠ p := by
        rintro rfl
        rw [hnone] at hwork
        contradiction
      simpa [Process.setPool, hne] using hwork
    · rcases setPool_places hwork with ⟨rfl, hnew⟩ | ⟨_, hother⟩
      · have hmem := List.mem_replicate.mp (List.mem_of_getElem? hnew)
        exact absurd hmem.2 (by simp)
      · exact hother
  | stop p | post p =>
    simp only [Process.mainStep, Process.poolAct] at hstep
    obtain ⟨pool, hpool, rfl⟩ := Option.map_eq_some_iff.mp hstep
    have hworker := threadsInv_worker h hpool (by simp) (by simp)
    exact hworker.frame rfl rfl (fun hx => h.accepted (hgone (by simp) hx)) (hshutdown (by simp))
      (hshutting (by simp) (by simp)) (fun _ _ _ => .inr) fun _ _ _ => id
  | _ =>
    obtain ⟨hserver, hclosing, hpools⟩ : st'.server = st.server ∧ st'.closing = st.closing ∧
        st'.pools = st.pools := by
      simp only [Process.mainStep] at hstep
      repeat' split at hstep
      all_goals first | contradiction | (cases hstep; exact ⟨rfl, rfl, rfl⟩)
    refine h.frame hserver hclosing (fun hx => h.accepted (hgone (by simp) hx)) (hshutdown (by simp))
      (hshutting (by simp) (by simp)) (fun p w t hwork => .inr ?_) fun p w t hwork => ?_
    · dsimp only
      rw [hpools]
      exact hwork
    · dsimp only at hwork
      rwa [hpools] at hwork

theorem threadsInv_step (hpools : PoolsInv st) (h : ThreadsInv st)
    (hstep : processStep st act = some st') : ThreadsInv st' := by
  have hsame {st' : Process} (hserver : st'.server = st.server) (hclosing : st'.closing = st.closing)
      (hmain : st'.main = st.main) (hpools : st'.pools = st.pools) : ThreadsInv st' := by
    refine h.frame hserver hclosing (hmain ▸ h.accepted) (by rw [hmain]) (hmain ▸ h.shutting)
      (fun p w t hwork => .inr (hpools ▸ hwork)) fun p w t hwork => hpools ▸ hwork
  cases process_cases hstep with
  | signal => exact hsame rfl rfl rfl rfl
  | main ok hmain hmainStep => exact threadsInv_main hpools h hmain hmainStep
  | run t c hrun hserver => exact threadsInv_run hpools h hrun hserver
  | test p w hpool => exact threadsInv_worker h hpool (by simp) (by simp)
  | takeNull p w _ hpool => exact threadsInv_worker h hpool (by simp) (by simp)
  | @finish p w t _ hwork hdone hpool =>
    refine threadsInv_worker h hpool (by simp) fun v u heq hv => ?_
    cases heq
    cases hwork.symm.trans hv
    exact hdone
  | @take p w k completion server pool _ _ hserver hpool =>
    obtain ⟨op, _, hop⟩ := Option.map_eq_some_iff.mp hserver
    have hlast : pool.places[w]? = some (.work st.server.threads.length) := by
      simp only [poolStep] at hpool
      split at hpool
      case h_2 => contradiction
      case h_1 hwait =>
        cases hpool
        exact List.getElem?_set_self (List.getElem?_eq_some_iff.mp hwait).1
    cases hop
    refine h.spawn hserver rfl rfl id h.unshut h.shut
      (.inl ⟨rfl, rfl⟩) ?_ (.inr ⟨p, w, ?_⟩) (fun q v t hwork => ?_)
      fun q v t hwork => ?_
    · rintro ⟨x, hx, hafter⟩
      cases List.mem_singleton.mp hx
      cases op <;> cases completion <;> contradiction
    · simpa [Process.setPool] using hlast
    · apply setPool_cases (P := fun q pool => (st.pools q).places[v]? = some (.work t) →
        pool.places[v]? = some (.work t)) _ _ q hwork
      · exact fun hwork => worker_stays hpool hwork (.inr ⟨⟨t, rfl⟩, by simp⟩)
      · exact fun q _ hwork => hwork
    · rcases setPool_places hwork with ⟨rfl, hnew⟩ | ⟨_, hother⟩
      · rcases working_step hpool hnew with ⟨hwas, _⟩ | hact
        · exact .inl hwas
        · cases hact
          exact .inr rfl
      · exact .inl hother
  | monitor timedOut _ hmonitor =>
    obtain ⟨monitor, reports, rfl⟩ := monitor_frame hmonitor
    exact hsame rfl rfl rfl rfl

theorem threadsInv_start (roomCount poolSize acceptCount : Nat) (threadCount : Port → Nat) :
    ThreadsInv (.start roomCount poolSize acceptCount threadCount) where
  size := by simp [Process.start, Server.start]
  accepted hgone := absurd (mem_program (by decide)) hgone
  unshut _ := rfl
  shut hgone := absurd (mem_program (by decide)) hgone
  closing _ ht := absurd ht (by simp [Process.start])
  shutting _ ht := absurd ht (by simp [Process.start])
  joins t thread ht := by
    rintro ⟨x, hx, hafter⟩
    rcases start_entry ⟨thread, List.mem_of_getElem? ht, hx⟩ with ⟨i, rfl⟩ | ⟨a, rfl⟩ <;> contradiction
  jobs t hlt hlength := by
    simp only [Process.start, Server.start, List.length_append, List.length_map, List.length_range,
      List.length_singleton] at hlt hlength
    omega
  works _ _ _ hwork := absurd (List.mem_of_getElem? hwork) List.not_mem_nil
  apart _ _ _ _ := by simp [Process.start]

theorem threadsInv_reaches {roomCount poolSize acceptCount : Nat} {threadCount : Port → Nat}
    {ok : Process → ProcessAct → Prop}
    (h : Reaches processStep ok (.start roomCount poolSize acceptCount threadCount) st) :
    ThreadsInv st := by
  apply h.invariant (threadsInv_start roomCount poolSize acceptCount threadCount)
  intro st act st' hreaches hinv _ hstep
  exact threadsInv_step (poolsInv_reaches hreaches) hinv hstep

/-! ### Behind the joins -/

/-- No worker is left, and no thread of the server has anything to do but the one that keeps
the vector of `Shutdown`. -/
structure Process.Still (st : Process) : Prop where
  workers : ∀ (p : Port) (w : Nat) (place : Place Nat),
    (st.pools p).places[w]? = some place → place = .ended
  threads : ∀ t < st.server.threads.length, st.closing ≠ some t → st.server.done t = true

theorem Shutting.closed_server {server : Server} {t : Nat} (h : Shutting main server t)
    (hclosing : Closing server t) (hgone : .closed ∉ main) :
    server.listenStop = true ∧ server.roomsDone = true := by
  have hthread := List.getElem?_eq_getElem hclosing.lt_length
  have hall := h.closed hgone _ hthread
  constructor
  · refine (hclosing.listen _ hthread).resolve_left fun hmem => ?_
    have hdrop := hall _ hmem
    contradiction
  · refine (hclosing.rooms _ hthread).resolve_left fun hmem => ?_
    have hdrop := hall _ hmem
    contradiction

theorem still_of_joined (hpools : PoolsInv st) (hthreads : ThreadsInv st)
    (hjoined : .closeHandle .listen ∉ st.main) : st.Still := by
  have hpassed {x : MainStep} (hlt : x.order < (MainStep.closeHandle .listen).order) :
      x ∉ st.main := passed hpools.program (mem_program (by decide)) hjoined hlt
  have hended (p : Port) (w : Nat) (hw : w < st.threadCount p) :
      (st.pools p).places[w]? = some .ended :=
    hpools.joined p w hw (hpassed (by cases p <;> simp [MainStep.order]))
  have hworkers (p : Port) (w : Nat) (place : Place Nat)
      (hplace : (st.pools p).places[w]? = some place) : place = .ended := by
    have hlt := (List.getElem?_eq_some_iff.mp hplace).1
    rw [hpools.started p (hpassed (by cases p <;> decide))] at hlt
    exact Option.some.inj (hplace.symm.trans (hended p w hlt))
  obtain ⟨u, hu⟩ := hthreads.shut (hpassed (by decide))
  have hrooms := ((hthreads.shutting u hu).closed_server (hthreads.closing u hu)
    (hpassed (by decide))).2
  refine ⟨hworkers, fun t ht hne => ?_⟩
  rcases Nat.lt_trichotomy t st.server.roomCount with hlt | rfl | hgt
  · exact List.all_eq_true.mp hrooms t (List.mem_range.mpr hlt)
  · exact hthreads.accepted (hpassed (by decide))
  · by_contra hnot
    rcases hthreads.jobs t hgt ht (Bool.not_eq_true _ ▸ hnot) with hclosing | ⟨p, w, hwork⟩
    · exact hne hclosing
    · exact absurd (hworkers p w _ hwork) (by simp)

/-- When `Shutdown` has returned nothing is left to do. -/
theorem ThreadsInv.done_of_returned (h : ThreadsInv st) (hpools : PoolsInv st)
    (hreturned : .returned ∉ st.main) : ∀ t < st.server.threads.length, st.server.done t = true := by
  intro t ht
  by_cases hclosing : st.closing = some t
  · exact (h.shutting t hclosing).returned hreturned
  · have hjoined : .closeHandle .listen ∉ st.main :=
      passed hpools.program (mem_program (by decide)) hreturned (by decide)
    exact (still_of_joined hpools h hjoined).threads t ht hclosing

/-- Between the joins and the end of `StopMonitor` only `main` and the monitor go on. -/
theorem still_step (hpools : PoolsInv st) (hthreads : ThreadsInv st)
    (hjoined : .closeHandle .listen ∉ st.main) (hopen : .closeEvent ∈ st.main)
    (hstep : processStep st act = some st') : st'.server = st.server := by
  have hstill := still_of_joined hpools hthreads hjoined
  have hpassed {x : MainStep} (hx : x.order < (MainStep.closeHandle .listen).order) :
      x ∉ st.main := passed hpools.program (mem_program (by decide)) hjoined hx
  cases process_cases hstep with
  | signal | test | takeNull | finish => rfl
  | @main ok step main _ hmain hmainStep =>
    rcases main_server hmainStep with hsame | hserver
    · exact hsame
    · cases step with
      | shutdown => exact absurd (hmain ▸ List.mem_cons_self) (hpassed (by decide))
      | stop p | post p =>
        simp only [Process.mainStep, Process.poolAct] at hmainStep
        obtain ⟨pool, _, rfl⟩ := Option.map_eq_some_iff.mp hmainStep
        rfl
      | startMonitor =>
        cases hmainStep
        dsimp only
        split <;> rfl
      | _ =>
        simp only [Process.mainStep] at hmainStep
        repeat' split at hmainStep
        all_goals first | contradiction | (cases hmainStep; rfl)
  | run t c hrun hserver =>
    obtain ⟨instr, rest, hthread, _⟩ := advance_cases hserver
    by_cases ht : st.closing = some t
    · rw [held_waits hpools (hthreads.shutting t ht) (hpassed (by decide)) hopen ht] at hrun
      contradiction
    · have hdone := hstill.threads t (List.getElem?_eq_some_iff.mp hthread).1 ht
      rw [done_iff, hthread] at hdone
      exact absurd hdone (by simp)
  | take p w k completion _ _ _ hpool =>
    simp only [poolStep] at hpool
    split at hpool
    case h_2 => contradiction
    case h_1 hwait => exact absurd (hstill.workers p w _ hwait) (by simp)
  | monitor timedOut _ hmonitor =>
    obtain ⟨monitor, reports, rfl⟩ := monitor_frame hmonitor
    rfl

end
end RoomServer
