import Mathlib.Data.Option.Basic

/-! Finite runs of a system whose moves are a partial function of the state and
an action. `Reaches` keeps a side condition on every step taken, so that one
definition serves both "in every run" and "in every run whose steps satisfy
`ok`". -/
namespace Library.Transition

/-- The move an action makes from a state; `none` where it is not enabled. -/
abbrev Step (σ α : Type) := σ → α → Option σ

def run (step : Step σ α) : σ → List α → Option σ
  | s, [] => some s
  | s, a :: rest => (step s a).bind fun s' => run step s' rest

@[simp] theorem run_nil (step : Step σ α) (s : σ) : run step s [] = some s := rfl

theorem run_cons (step : Step σ α) (s : σ) (a : α) (rest : List α) :
    run step s (a :: rest) = (step s a).bind fun s' => run step s' rest := rfl

theorem run_append (step : Step σ α) (s : σ) (first second : List α) :
    run step s (first ++ second) = (run step s first).bind fun s' => run step s' second := by
  induction first generalizing s with
  | nil => rfl
  | cons a rest ih =>
    rw [List.cons_append, run_cons, run_cons]
    cases step s a with
    | none => rfl
    | some s' => exact ih s'

/-- States reached from `init` by enabled steps that all satisfy `ok`. -/
inductive Reaches (step : Step σ α) (ok : σ → α → Prop) (init : σ) : σ → Prop where
  | start : Reaches step ok init init
  | next {s s' : σ} (a : α) : Reaches step ok init s → ok s a → step s a = some s' →
      Reaches step ok init s'

def always (_ : σ) (_ : α) : Prop := True

/-- The induction rule, with the reached state itself available to the step:
an invariant may use the ones proved before it. -/
theorem Reaches.invariant {step : Step σ α} {ok : σ → α → Prop} {init s : σ} {I : σ → Prop}
    (h : Reaches step ok init s) (start : I init)
    (next : ∀ s a s', Reaches step ok init s → I s → ok s a → step s a = some s' → I s') : I s := by
  induction h with
  | start => exact start
  | next a hr hok hs ih => exact next _ a _ hr ih hok hs

theorem Reaches.weaken {step : Step σ α} {ok ok' : σ → α → Prop} {init s : σ}
    (h : Reaches step ok init s) (weaker : ∀ s a, ok s a → ok' s a) : Reaches step ok' init s := by
  induction h with
  | start => exact .start
  | next a _ hok hs ih => exact .next a ih (weaker _ _ hok) hs

theorem Reaches.any {step : Step σ α} {ok : σ → α → Prop} {init s : σ}
    (h : Reaches step ok init s) : Reaches step always init s :=
  h.weaken fun _ _ _ => trivial

theorem Reaches.run {step : Step σ α} {init s s' : σ} {acts : List α}
    (h : Reaches step always init s) (hrun : Transition.run step s acts = some s') :
    Reaches step always init s' := by
  induction acts generalizing s with
  | nil => exact Option.some.inj hrun ▸ h
  | cons a rest ih =>
    obtain ⟨middle, hstep, hrest⟩ := Option.bind_eq_some_iff.mp hrun
    exact ih (.next a h trivial hstep) hrest

/-- Steps outside a decidable condition are switched off. -/
def guarded (step : Step σ α) (ok : σ → α → Prop) [∀ s a, Decidable (ok s a)] : Step σ α :=
  fun s a => if ok s a then step s a else none

theorem guarded_eq_some {step : Step σ α} {ok : σ → α → Prop} [∀ s a, Decidable (ok s a)] {s s' : σ}
    {a : α} (h : guarded step ok s a = some s') : ok s a ∧ step s a = some s' := by
  unfold guarded at h
  split at h
  · rename_i hok
    exact ⟨hok, h⟩
  · contradiction

theorem reaches_of_run {step : Step σ α} {ok : σ → α → Prop} [∀ s a, Decidable (ok s a)]
    {init s s' : σ} (acts : List α) (h : Reaches step ok init s)
    (hrun : run (guarded step ok) s acts = some s') : Reaches step ok init s' := by
  induction acts generalizing s with
  | nil => exact Option.some.inj hrun ▸ h
  | cons a rest ih =>
    obtain ⟨middle, hguarded, hrest⟩ := Option.bind_eq_some_iff.mp hrun
    obtain ⟨hok, hstep⟩ := guarded_eq_some hguarded
    exact ih (.next a h hok hstep) hrest

/-- For a condition of which only the part about states is tested on the way. -/
theorem reaches_of_acts {step : Step σ α} {ok tested : σ → α → Prop}
    [∀ s a, Decidable (tested s a)] {allowed : α → Prop}
    (hok : ∀ s a, tested s a → allowed a → ok s a) {init s s' : σ} (acts : List α)
    (hallowed : ∀ a ∈ acts, allowed a) (h : Reaches step ok init s)
    (hrun : run (guarded step tested) s acts = some s') : Reaches step ok init s' := by
  induction acts generalizing s with
  | nil => exact Option.some.inj hrun ▸ h
  | cons a rest ih =>
    obtain ⟨middle, hguarded, hrest⟩ := Option.bind_eq_some_iff.mp hrun
    obtain ⟨htested, hstep⟩ := guarded_eq_some hguarded
    have hnext := hok s a htested (hallowed a List.mem_cons_self)
    exact ih (fun b hb => hallowed b (List.mem_cons_of_mem _ hb)) (.next a h hnext hstep) hrest

theorem run_of_guarded {step : Step σ α} {ok : σ → α → Prop} [∀ s a, Decidable (ok s a)]
    {s s' : σ} (acts : List α) (hrun : run (guarded step ok) s acts = some s') :
    run step s acts = some s' := by
  induction acts generalizing s with
  | nil => exact hrun
  | cons a rest ih =>
    obtain ⟨middle, hguarded, hrest⟩ := Option.bind_eq_some_iff.mp hrun
    rw [run_cons, (guarded_eq_some hguarded).2]
    exact ih hrest

instance (s : σ) (a : α) : Decidable (always s a) := inferInstanceAs (Decidable True)

/-! ### Simulation -/

/-- Both systems take the same actions, and end up related again. -/
def Simulates (R : σ → τ → Prop) (step : Step σ α) (step' : Step τ α) : Prop :=
  ∀ s t a, R s t → Option.Rel R (step s a) (step' t a)

theorem Simulates.run {R : σ → τ → Prop} {step : Step σ α} {step' : Step τ α}
    (h : Simulates R step step') {s : σ} {t : τ} (hrel : R s t) (acts : List α) :
    Option.Rel R (run step s acts) (Transition.run step' t acts) := by
  induction acts generalizing s t with
  | nil => exact .some hrel
  | cons a rest ih =>
    rw [run_cons, run_cons]
    cases hs : step s a with
    | none =>
      have hnext := h s t a hrel
      rw [hs] at hnext
      cases ht : step' t a with
      | none => exact .none
      | some t' => rw [ht] at hnext; contradiction
    | some s' =>
      have hnext := h s t a hrel
      rw [hs] at hnext
      cases ht : step' t a with
      | none => rw [ht] at hnext; contradiction
      | some t' =>
        rw [ht] at hnext
        cases hnext with
        | some hnext => exact ih hnext

end Library.Transition
