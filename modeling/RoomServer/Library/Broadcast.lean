import Mathlib.Algebra.BigOperators.Group.List.Basic
import Mathlib.Algebra.Ring.Nat
import Mathlib.Data.List.Sort
import Mathlib.Tactic.Common

/-! Packets that are each made for some receivers, one after the other. What a
receiver is due is the numbers of the packets made for it, in the order in which
they were made; two receivers that are handed what they are due cannot disagree
about the order of two packets. -/
namespace Library.Broadcast

structure Production (α ρ : Type) where
  packet : α
  recipients : List ρ
  deriving DecidableEq

variable {α ρ : Type} [DecidableEq ρ]

def dueFrom (r : ρ) (n : Nat) (made : List (Production α ρ)) : List Nat :=
  (made.zipIdx n).filterMap fun e => if r ∈ e.1.recipients then some e.2 else none

def due (r : ρ) (made : List (Production α ρ)) : List Nat := dueFrom r 0 made

@[simp] theorem dueFrom_nil (r : ρ) (n : Nat) : dueFrom r n ([] : List (Production α ρ)) = [] :=
  rfl

theorem dueFrom_cons (r : ρ) (n : Nat) (p : Production α ρ) (made : List (Production α ρ)) :
    dueFrom r n (p :: made) =
      (if r ∈ p.recipients then [n] else []) ++ dueFrom r (n + 1) made := by
  unfold dueFrom
  rw [List.zipIdx_cons, List.filterMap_cons]
  split <;> rename_i h <;> split at h <;> simp_all

theorem due_append (r : ρ) (made more : List (Production α ρ)) :
    due r (made ++ more) = due r made ++ dueFrom r made.length more := by
  unfold due dueFrom
  rw [List.zipIdx_append, List.filterMap_append, Nat.zero_add]

theorem dueFrom_absent {r : ρ} {made : List (Production α ρ)}
    (h : ∀ p ∈ made, r ∉ p.recipients) (n : Nat) : dueFrom r n made = [] := by
  induction made generalizing n with
  | nil => rfl
  | cons p made ih =>
    rw [List.forall_mem_cons] at h
    rw [dueFrom_cons, if_neg h.1, ih h.2, List.nil_append]

theorem due_sorted (r : ρ) (made : List (Production α ρ)) :
    (due r made).Pairwise (· < ·) := by
  have hnumbers : ((made.zipIdx 0).map Prod.snd).Pairwise (· < ·) := by
    rw [List.zipIdx_map_snd]
    exact List.pairwise_lt_range'
  apply List.Pairwise.filterMap _ _ (List.pairwise_map.mp hnumbers)
  intro e e' hlt n hn n' hn'
  simp only [Option.ite_none_right_eq_some, Option.some.injEq] at hn hn'
  omega

/-- Two numbers that a receiver has in one order, another one that has both has in the
same order. -/
theorem order_agrees {mine yours : List Nat} (hmine : mine.Pairwise (· < ·))
    (hyours : yours.Pairwise (· < ·)) {n m : Nat} (horder : [n, m].Sublist mine)
    (hn : n ∈ yours) (hm : m ∈ yours) : [n, m].Sublist yours := by
  have hlt : n < m := by
    have hpair := hmine.sublist horder
    simpa using hpair
  obtain ⟨before, after, rfl⟩ := List.append_of_mem hn
  apply List.Sublist.trans _ (List.sublist_append_right before _)
  apply List.Sublist.cons_cons
  rw [List.singleton_sublist]
  rcases List.mem_append.mp hm with hm | hm
  · have hback := (List.pairwise_append.mp hyours).2.2 m hm n List.mem_cons_self
    omega
  · rcases List.mem_cons.mp hm with rfl | hm
    · omega
    · exact hm

/-! ### How much there is to hand over -/

theorem sum_indicator {β : Type} (p : β → Bool) (xs : List β) :
    (xs.map fun x => if p x then 1 else 0).sum = xs.countP p := by
  induction xs with
  | nil => rfl
  | cons x xs ih => rw [List.map_cons, List.sum_cons, ih, List.countP_cons, Nat.add_comm]

theorem countP_classes {β κ : Type} [DecidableEq κ] (f : β → κ) {classes : List κ}
    (hnodup : classes.Nodup) (xs : List β) :
    xs.countP (fun x => f x ∈ classes) =
      (classes.map fun c => xs.countP fun x => f x = c).sum := by
  induction xs with
  | nil => simp
  | cons x xs ih =>
    have hclass : classes.countP (fun c => f x = c) = if f x ∈ classes then 1 else 0 := by
      have hcount : classes.countP (fun c => f x = c) = classes.count (f x) := by
        rw [List.count]
        congr 1
        funext c
        rw [Bool.eq_iff_iff, beq_iff_eq, decide_eq_true_eq, eq_comm]
      rw [hcount]
      split
      case isTrue hmem => exact List.count_eq_one_of_mem hnodup hmem
      case isFalse hnot => exact List.count_eq_zero.mpr hnot
    simp only [List.countP_cons, List.sum_map_add, ← ih]
    rw [sum_indicator (fun c => f x = c), hclass]
    simp only [decide_eq_true_eq]

theorem length_classes {β κ : Type} [DecidableEq κ] (f : β → κ) {classes : List κ}
    (hnodup : classes.Nodup) {xs : List β} (hall : ∀ x ∈ xs, f x ∈ classes) :
    (classes.map fun c => xs.countP fun x => f x = c).sum = xs.length := by
  rw [← countP_classes f hnodup, List.countP_eq_length]
  exact fun x hx => decide_eq_true (hall x hx)

theorem others_of_nodup {members : List ρ} (hnodup : members.Nodup) {s : ρ} (hs : s ∈ members) :
    members.countP (fun r => s ≠ r) = members.length - 1 := by
  rw [← List.length_erase_of_mem hs, hnodup.erase_eq_filter, List.countP_eq_length_filter]
  congr 2
  funext r
  rw [Bool.eq_iff_iff, bne_iff_ne, decide_eq_true_eq, ne_comm]

/-- What each sender says goes to every member but itself. -/
theorem fanout {members senders : List ρ} (hnodup : members.Nodup)
    (hmember : ∀ s ∈ senders, s ∈ members) :
    (members.map fun r => senders.countP fun s => s ≠ r).sum =
      senders.length * (members.length - 1) := by
  induction senders with
  | nil => simp
  | cons s senders ih =>
    rw [List.forall_mem_cons] at hmember
    simp only [List.countP_cons, List.sum_map_add, ih hmember.2, List.length_cons]
    rw [sum_indicator (fun r => s ≠ r), others_of_nodup hnodup hmember.1, Nat.succ_mul]

end Library.Broadcast
