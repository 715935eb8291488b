import Mathlib.Data.List.Basic
import Mathlib.Tactic.Common

/-! `ObjectPool`: the storage is `maxSize` objects, an object is its index, and
an index from `maxSize` on stands for a pointer outside the storage. -/
namespace RoomServer

structure ObjectPool where
  maxSize : Nat
  /-- `m_Pools`, its top first. -/
  pools : List Nat
  isUse : Nat → Bool
  freeCount : Int

namespace ObjectPool

/-- `InitObjectPool`: the last object is on top. -/
def init (poolSize : Nat) : ObjectPool :=
  ⟨poolSize, (List.range poolSize).reverse, fun _ => false, poolSize⟩

def pop (p : ObjectPool) : ObjectPool × Option Nat :=
  match p.pools with
  | [] => (p, none)
  | object :: pools =>
    if object < p.maxSize && !p.isUse object then
      ({ p with
        pools := pools
        isUse := Function.update p.isUse object true
        freeCount := p.freeCount - 1 }, some object)
    else (p, none)

/-- Without the `Reset` of an accepted object, which is its caller's here. -/
def push (p : ObjectPool) (object : Nat) : ObjectPool × Bool :=
  if object < p.maxSize && p.isUse object then
    ({ p with
      pools := object :: p.pools
      isUse := Function.update p.isUse object false
      freeCount := p.freeCount + 1 }, true)
  else (p, false)

theorem pop_some {p p' : ObjectPool} {object : Nat} (h : p.pop = (p', some object)) :
    p.pools = object :: p'.pools ∧ p'.maxSize = p.maxSize := by
  unfold pop at h
  split at h
  · cases h
  · rename_i object' pools hpools
    split at h
    · cases h
      exact ⟨hpools, rfl⟩
    · cases h

theorem pop_none {p p' : ObjectPool} (h : p.pop = (p', none)) : p' = p := by
  unfold pop at h
  split at h
  · cases h
    rfl
  · split at h
    · cases h
    · cases h
      rfl

theorem push_pools (p : ObjectPool) (object : Nat) :
    (p.push object).1.pools = object :: p.pools ∧ (p.push object).2 = true ∧
        object < p.maxSize ∨
      (p.push object).1 = p ∧ (p.push object).2 = false := by
  unfold push
  split
  case isTrue hused =>
    have hlt := (Bool.and_eq_true_iff.mp hused).1
    exact .inl ⟨rfl, rfl, of_decide_eq_true hlt⟩
  case isFalse => exact .inr ⟨rfl, rfl⟩

@[simp] theorem push_maxSize (p : ObjectPool) (object : Nat) :
    (p.push object).1.maxSize = p.maxSize := by
  unfold push
  split <;> rfl

/-- What the storage and the stack of the pool agree on between two calls. -/
structure Sound (p : ObjectPool) : Prop where
  nodup : p.pools.Nodup
  free : ∀ object ∈ p.pools, object < p.maxSize ∧ p.isUse object = false

theorem init_sound (poolSize : Nat) : (init poolSize).Sound := by
  refine ⟨(List.reverse_perm _).nodup_iff.mpr List.nodup_range, fun object hobject => ?_⟩
  exact ⟨List.mem_range.mp (List.mem_reverse.mp hobject), rfl⟩

theorem Sound.pop_cases {p : ObjectPool} (h : p.Sound) :
    (p.pools = [] ∧ p.pop = (p, none)) ∨ ∃ object pools, p.pools = object :: pools ∧
      p.pop = ({ p with
        pools := pools
        isUse := Function.update p.isUse object true
        freeCount := p.freeCount - 1 }, some object) := by
  unfold pop
  split
  case h_1 hpools => exact .inl ⟨hpools, rfl⟩
  case h_2 object pools hpools =>
    have hfree := h.free object (hpools ▸ List.mem_cons_self)
    rw [if_pos (by simp [hfree])]
    exact .inr ⟨object, pools, hpools, rfl⟩

theorem pop_sound {p : ObjectPool} (h : p.Sound) : p.pop.1.Sound := by
  rcases h.pop_cases with ⟨_, hpop⟩ | ⟨object, pools, hpools, hpop⟩
  · rw [hpop]
    exact h
  · rw [hpop]
    have hnodup := h.nodup
    rw [hpools, List.nodup_cons] at hnodup
    refine ⟨hnodup.2, fun other hother => ?_⟩
    have hne : other ≠ object := fun heq => hnodup.1 (heq ▸ hother)
    have hfree := h.free other (hpools ▸ List.mem_cons_of_mem _ hother)
    exact ⟨hfree.1, (Function.update_of_ne hne _ _).trans hfree.2⟩

theorem push_sound {p : ObjectPool} (h : p.Sound) (object : Nat) : (p.push object).1.Sound := by
  unfold push
  split
  case isFalse => exact h
  case isTrue hused =>
    simp only [Bool.and_eq_true, decide_eq_true_eq] at hused
    refine ⟨List.nodup_cons.mpr ⟨fun hmem => ?_, h.nodup⟩, fun other hother => ?_⟩
    · exact Bool.false_ne_true ((h.free object hmem).2.symm.trans hused.2)
    · by_cases heq : other = object
      · rw [heq]
        exact ⟨hused.1, Function.update_self ..⟩
      · have hfree := h.free other ((List.mem_cons.mp hother).resolve_left heq)
        exact ⟨hfree.1, (Function.update_of_ne heq _ _).trans hfree.2⟩

/-- What is not on the stack is what `GetFreeCount` does not count. -/
theorem Sound.missing {p : ObjectPool} (h : p.Sound) (count : p.freeCount = p.pools.length)
    (inUse : Nat → Bool) (hout : ∀ s < p.maxSize, s ∉ p.pools ↔ inUse s = true) :
    (p.maxSize : Int) - p.freeCount = (List.range p.maxSize).countP inUse := by
  have hlength : p.pools.length =
      (List.range p.maxSize).countP fun s => decide (s ∈ p.pools) := by
    rw [List.countP_eq_length_filter]
    apply List.Perm.length_eq
    apply (List.perm_ext_iff_of_nodup h.nodup (List.nodup_range.filter _)).mpr
    intro s
    rw [List.mem_filter, List.mem_range, decide_eq_true_eq]
    exact ⟨fun hmem => ⟨(h.free s hmem).1, hmem⟩, And.right⟩
  have hothers : (List.range p.maxSize).countP inUse =
      (List.range p.maxSize).countP fun s => !decide (s ∈ p.pools) := by
    apply List.countP_congr
    intro s hs
    rw [← hout s (List.mem_range.mp hs)]
    simp
  have hsplit := List.length_eq_countP_add_countP (fun s => decide (s ∈ p.pools))
    (l := List.range p.maxSize)
  rw [List.length_range] at hsplit
  have hnot : (List.range p.maxSize).countP (fun s => !decide (s ∈ p.pools)) =
      (List.range p.maxSize).countP fun s => decide ¬decide (s ∈ p.pools) = true := by
    apply List.countP_congr
    intro s _
    simp
  rw [count, hlength, hothers, hnot]
  omega

end ObjectPool
end RoomServer
