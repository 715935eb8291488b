import Mathlib.Algebra.Order.Monoid.Unbundled.Basic
import Mathlib.Algebra.Order.Monoid.Defs
import Mathlib.Tactic.Abel

/-! Something that is let through when its time has come, and then not before a gap has passed:
how often that can be. -/
namespace Library.Pacing

/-- Passes at the times `ts`; `next` is when the first can be, `last` when the one after them
can be. -/
inductive Passes {T : Type} [Add T] [LE T] (gap : T) : T → List T → T → Prop where
  | nil {next last : T} (h : next ≤ last) : Passes gap next [] last
  | cons {next t next' last : T} {ts : List T} (due : next ≤ t) (shut : next + gap ≤ next')
      (rest : Passes gap next' ts last) : Passes gap next (t :: ts) last

variable {T : Type} [AddCommMonoid T] [PartialOrder T] [IsOrderedAddMonoid T]
  {gap next last t : T} {ts : List T}

theorem Passes.snoc {last' : T} (h : Passes gap next ts last) (due : last ≤ t)
    (shut : last + gap ≤ last') : Passes gap next (ts ++ [t]) last' := by
  induction h with
  | nil hlast =>
    have hshut := (add_le_add_left hlast gap).trans shut
    exact .cons (hlast.trans due) hshut (.nil le_rfl)
  | cons hdue hshut _ ih => exact .cons hdue hshut (ih due shut)

theorem Passes.spread (h : Passes gap next ts last) (hlast : ts.getLast? = some t) :
    next + (ts.length - 1) • gap ≤ t := by
  induction h with
  | nil => contradiction
  | @cons next t' next' last ts due shut rest ih =>
    cases ts with
    | nil =>
      obtain rfl : t' = t := Option.some.inj hlast
      simpa using due
    | cons first ts =>
      have hrest := ih hlast
      calc next + ((t' :: first :: ts).length - 1) • gap
        _ = next + gap + ((first :: ts).length - 1) • gap := by
          rw [List.length_cons, List.length_cons, Nat.add_sub_cancel, Nat.add_sub_cancel,
            succ_nsmul']
          abel
        _ ≤ next' + ((first :: ts).length - 1) • gap := add_le_add_left shut _
        _ ≤ t := hrest

end Library.Pacing
