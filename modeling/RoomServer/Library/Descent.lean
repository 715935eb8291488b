import Mathlib.Data.Multiset.DershowitzManna
import Mathlib.Order.WellFounded
import RoomServer.Library.Threads
import RoomServer.Library.Transition

/-! Runs that cannot go on forever: a step that lowers a well-founded measure, and
threads whose entries make place for entries of a lower rank. -/
namespace Library.Descent
open Library.Threads Library.Transition

/-- A run without end all of whose steps satisfy `ok`. -/
def Endless (step : Step σ α) (ok : σ → α → Prop) (init : σ) : Prop :=
  ∃ states : Nat → σ, states 0 = init ∧
    ∀ n, ∃ a, ok (states n) a ∧ step (states n) a = some (states (n + 1))

theorem not_endless {step : Step σ α} {ok : σ → α → Prop} {init : σ} {I : σ → Prop}
    {lower : μ → μ → Prop} (wellFounded : WellFounded lower) (measure : σ → μ) (start : I init)
    (next : ∀ s a s', I s → ok s a → step s a = some s' →
      I s' ∧ lower (measure s') (measure s)) : ¬Endless step ok init := by
  rintro ⟨states, rfl, hsteps⟩
  have hkept : ∀ n, I (states n) := by
    intro n
    induction n with
    | zero => exact start
    | succ n ih =>
      obtain ⟨a, hok, hstep⟩ := hsteps n
      exact (next _ a _ ih hok hstep).1
  have hlower : ∀ n, lower (measure (states (n + 1))) (measure (states n)) := by
    intro n
    obtain ⟨a, hok, hstep⟩ := hsteps n
    exact (next _ a _ (hkept n) hok hstep).2
  exact (wellFounded_iff_isEmpty_descending_chain.mp wellFounded).false
    ⟨fun n => measure (states n), hlower⟩

section
variable {α : Type} (rank : α → Nat)

def ranks (threads : List (List α)) : Multiset Nat := (threads.flatten.map rank : List Nat)

variable {rank} {threads : List (List α)} {t : Nat} {x : α} {rest next : List α}

theorem ranks_set (rank : α → Nat) (h : threads[t]? = some (x :: rest)) (next : List α) :
    ∃ others : Multiset Nat, ranks rank threads = others + {rank x} ∧
      ranks rank (threads.set t (next ++ rest)) = others + (next.map rank : List Nat) := by
  have hlt : t < threads.length := (List.getElem?_eq_some_iff.mp h).1
  have hsplit := split_at h
  refine ⟨(((threads.take t).flatten ++ rest ++ (threads.drop (t + 1)).flatten).map rank :
    List Nat), ?_, ?_⟩
  · have hflat : threads.flatten =
        (threads.take t).flatten ++ (x :: rest ++ (threads.drop (t + 1)).flatten) := by
      conv_lhs => rw [hsplit]
      simp
    rw [ranks, hflat, ← Multiset.coe_singleton, Multiset.coe_add, Multiset.coe_eq_coe]
    simp only [List.map_append, List.map_cons, List.cons_append, List.append_assoc]
    exact List.perm_middle.trans (List.perm_append_singleton _ _).symm |>.trans (by simp)
  · have hflat : (threads.set t (next ++ rest)).flatten =
        (threads.take t).flatten ++ (next ++ rest ++ (threads.drop (t + 1)).flatten) := by
      rw [List.set_eq_take_append_cons_drop, if_pos hlt]
      simp
    rw [ranks, hflat, Multiset.coe_add, Multiset.coe_eq_coe, ← List.map_append]
    apply List.Perm.map
    simp only [List.append_assoc]
    apply List.Perm.append_left
    exact List.perm_append_comm.trans (by simp [List.append_assoc])

/-- The head of a thread makes place for entries below it. -/
theorem ranks_lower (h : threads[t]? = some (x :: rest)) (hnext : ∀ y ∈ next, rank y < rank x) :
    (ranks rank (threads.set t (next ++ rest))).IsDershowitzMannaLT (ranks rank threads) := by
  obtain ⟨others, hbefore, hafter⟩ := ranks_set rank h next
  refine ⟨others, _, {rank x}, by simp, hafter, hbefore, ?_⟩
  intro r hr
  obtain ⟨y, hy, rfl⟩ := List.mem_map.mp (Multiset.mem_coe.mp hr)
  exact ⟨rank x, Multiset.mem_singleton_self _, hnext y hy⟩

end
end Library.Descent
