import Mathlib.Data.Finset.Basic
import Mathlib.Tactic.Common

/-! A set that is known only by its changes. Replaying the log yields the set; a
clean log adds nothing that is there already. -/
namespace Library.Replay

inductive Change (α : Type) where
  | add (x : α)
  | remove (x : α)
  deriving DecidableEq

variable [DecidableEq α]

def Change.apply (view : Finset α) : Change α → Finset α
  | .add x => insert x view
  | .remove x => view.erase x

def replay (log : List (Change α)) : Finset α := log.foldl Change.apply ∅

/-- No element is added twice without a removal in between. -/
def Clean (log : List (Change α)) : Prop :=
  ∀ before x after, log = before ++ .add x :: after → x ∉ replay before

@[simp] theorem replay_nil : replay ([] : List (Change α)) = ∅ := rfl

theorem replay_snoc (log : List (Change α)) (change : Change α) :
    replay (log ++ [change]) = change.apply (replay log) := List.foldl_concat _ _ _ _

theorem clean_nil : Clean ([] : List (Change α)) := by
  intro before x after h
  simp at h

theorem clean_snoc {log : List (Change α)} {change : Change α} (h : Clean log)
    (hnew : ∀ x, change = .add x → x ∉ replay log) : Clean (log ++ [change]) := by
  intro before x after heq
  rcases List.eq_nil_or_concat after with rfl | ⟨middle, last, rfl⟩
  · obtain ⟨rfl, hlast⟩ := List.append_inj' heq rfl
    exact hnew x (List.singleton_inj.mp hlast)
  · rw [List.concat_eq_append, ← List.cons_append, ← List.append_assoc] at heq
    exact h before x middle (List.append_inj' heq rfl).1

/-! ### A batch of additions -/

theorem mem_replay_adds (log : List (Change α)) (xs : List α) (y : α) :
    y ∈ replay (log ++ xs.map .add) ↔ y ∈ replay log ∨ y ∈ xs := by
  induction xs generalizing log with
  | nil => simp
  | cons x xs ih =>
    rw [List.map_cons, ← List.singleton_append, ← List.append_assoc, ih, replay_snoc]
    simp only [Change.apply, Finset.mem_insert, List.mem_cons]
    tauto

theorem clean_adds {log : List (Change α)} {xs : List α} (h : Clean log) (hxs : xs.Nodup)
    (hnew : ∀ x ∈ xs, x ∉ replay log) : Clean (log ++ xs.map .add) := by
  induction xs generalizing log with
  | nil => simpa using h
  | cons x xs ih =>
    have hfirst := List.nodup_cons.mp hxs
    rw [List.map_cons, ← List.singleton_append, ← List.append_assoc]
    apply ih (clean_snoc h fun y hy => ?_) hfirst.2
    · intro y hy
      rw [replay_snoc]
      simp only [Change.apply, Finset.mem_insert, not_or]
      exact ⟨fun heq => hfirst.1 (heq ▸ hy), hnew y (List.mem_cons_of_mem _ hy)⟩
    · cases hy
      exact hnew _ List.mem_cons_self

end Library.Replay
