import Mathlib.Data.List.Induction
import RoomServer.ObjectPool

/-! Every sequence of `Pop` and `Push` calls on one pool. A pointer is its distance from
the storage in objects, so that it may also lie before the storage. -/
namespace RoomServer

namespace ObjectPool

/-- `Push` of the pointer at `offset`, a foreign one included. -/
def pushPointer (p : ObjectPool) (offset : Int) : ObjectPool × Bool :=
  if 0 > offset || offset > (p.maxSize : Int) - 1 then (p, false)
  else if 0 ≤ offset && offset < p.maxSize && p.isUse offset.toNat then
    ({ p with
      pools := offset.toNat :: p.pools
      isUse := Function.update p.isUse offset.toNat false
      freeCount := p.freeCount + 1 }, true)
  else (p, false)

@[simp] theorem pushPointer_natCast (p : ObjectPool) (object : Nat) :
    p.pushPointer object = p.push object := by
  unfold pushPointer push
  have hnonneg : ¬(0 > (object : Int)) := by omega
  by_cases hlt : object < p.maxSize
  · have hin : ¬((object : Int) > (p.maxSize : Int) - 1) := by omega
    simp [hlt, hin, hnonneg]
  · have hout : (object : Int) > (p.maxSize : Int) - 1 := by omega
    simp [hlt, hout]

theorem pushPointer_cases (p : ObjectPool) (offset : Int) :
    (∃ object : Nat, offset = object ∧ object < p.maxSize ∧ p.isUse object = true ∧
      p.pushPointer offset = ({ p with
        pools := object :: p.pools
        isUse := Function.update p.isUse object false
        freeCount := p.freeCount + 1 }, true)) ∨
    (∀ object : Nat, offset = object → object < p.maxSize → p.isUse object = false) ∧
      p.pushPointer offset = (p, false) := by
  rcases offset with object | before
  · rw [Int.ofNat_eq_natCast, pushPointer_natCast]
    unfold push
    by_cases hused : (object < p.maxSize && p.isUse object) = true
    · rw [if_pos hused]
      simp only [Bool.and_eq_true, decide_eq_true_eq] at hused
      exact .inl ⟨object, rfl, hused.1, hused.2, rfl⟩
    · rw [if_neg hused]
      refine .inr ⟨?_, rfl⟩
      intro other hother hlt
      obtain rfl := Int.ofNat.inj hother
      simpa [hlt] using hused
  · refine .inr ⟨?_, ?_⟩
    · intro object hobject
      omega
    · have hbefore : (0 : Int) > Int.negSucc before := Int.negSucc_lt_zero before
      simp [pushPointer, hbefore]

end ObjectPool

inductive PoolAct where
  | pop
  | push (offset : Int)
  deriving DecidableEq, Repr

/-- A pool with the objects that `Pop` returned and no accepted `Push` gave back since. -/
structure UsedPool where
  pool : ObjectPool
  handedOut : List Nat

namespace UsedPool

def step (st : UsedPool) : PoolAct → UsedPool
  | .pop =>
    match st.pool.pop with
    | (pool, some object) => ⟨pool, object :: st.handedOut⟩
    | (pool, none) => ⟨pool, st.handedOut⟩
  | .push offset =>
    match st.pool.pushPointer offset with
    | (pool, true) => ⟨pool, st.handedOut.erase offset.toNat⟩
    | (pool, false) => ⟨pool, st.handedOut⟩

def after (poolSize : Nat) (acts : List PoolAct) : UsedPool :=
  acts.foldl step ⟨.init poolSize, []⟩

/-- The stack, the bitmap and the counter say the same, and it is the truth. -/
structure Agrees (poolSize : Nat) (st : UsedPool) : Prop where
  sound : st.pool.Sound
  size : st.pool.maxSize = poolSize
  complete : ∀ object < poolSize, st.pool.isUse object = false → object ∈ st.pool.pools
  count : st.pool.freeCount = st.pool.pools.length
  nodup : st.handedOut.Nodup
  used : ∀ object, object ∈ st.handedOut ↔ object < poolSize ∧ st.pool.isUse object = true

variable {poolSize : Nat} {st : UsedPool}

theorem agrees_init (poolSize : Nat) : Agrees poolSize ⟨.init poolSize, []⟩ where
  sound := ObjectPool.init_sound poolSize
  size := rfl
  complete := fun _ hlt _ => List.mem_reverse.mpr (List.mem_range.mpr hlt)
  count := by simp [ObjectPool.init]
  nodup := List.nodup_nil
  used := by simp [ObjectPool.init]

theorem agrees_pop (h : Agrees poolSize st) : Agrees poolSize (st.step .pop) := by
  have hsound := ObjectPool.pop_sound h.sound
  rcases h.sound.pop_cases with ⟨_, hpop⟩ | ⟨object, pools, hpools, hpop⟩
  · simp only [step, hpop]
    exact h
  · rw [hpop] at hsound
    obtain ⟨hlt, hfree⟩ := h.sound.free object (hpools ▸ List.mem_cons_self)
    have hnot : object ∉ st.handedOut := by simp [h.used, hfree]
    simp only [step, hpop]
    refine ⟨hsound, h.size, ?_, ?_, List.nodup_cons.mpr ⟨hnot, h.nodup⟩, ?_⟩
    · intro other hother huse
      have hne : other ≠ object := fun heq => by simp [heq] at huse
      have hstill := (Function.update_of_ne hne _ _).symm.trans huse
      have hmem := h.complete other hother hstill
      rw [hpools] at hmem
      exact (List.mem_cons.mp hmem).resolve_left hne
    · have hcount := h.count
      rw [hpools, List.length_cons] at hcount
      dsimp only
      omega
    · intro other
      by_cases heq : other = object
      · simp [heq, ← h.size, hlt]
      · simp [heq, h.used]

theorem agrees_push (h : Agrees poolSize st) (offset : Int) :
    Agrees poolSize (st.step (.push offset)) := by
  rcases st.pool.pushPointer_cases offset with ⟨object, rfl, hlt, huse, hpush⟩ | ⟨_, hpush⟩
  · have hsound := ObjectPool.push_sound h.sound object
    rw [← ObjectPool.pushPointer_natCast, hpush] at hsound
    simp only [step, hpush, Int.toNat_natCast]
    refine ⟨hsound, h.size, ?_, ?_, h.nodup.erase object, ?_⟩
    · intro other hother huse
      by_cases heq : other = object
      · exact heq ▸ List.mem_cons_self
      · have hfree := (Function.update_of_ne heq _ _).symm.trans huse
        exact List.mem_cons_of_mem _ (h.complete other hother hfree)
    · rw [h.count, List.length_cons]
      push_cast
      rfl
    · intro other
      rw [h.nodup.mem_erase_iff]
      by_cases heq : other = object
      · simp [heq]
      · simp [heq, h.used]
  · simp only [step, hpush]
    exact h

theorem agrees_after (poolSize : Nat) (acts : List PoolAct) :
    Agrees poolSize (after poolSize acts) := by
  unfold after
  induction acts using List.reverseRecOn with
  | nil => exact agrees_init poolSize
  | append_singleton acts a ih =>
    rw [List.foldl_append, List.foldl_cons, List.foldl_nil]
    cases a with
    | pop => exact agrees_pop ih
    | push offset => exact agrees_push ih offset

namespace Agrees
variable (h : Agrees poolSize st)
include h

theorem mem_pools (object : Nat) :
    object ∈ st.pool.pools ↔ object < poolSize ∧ st.pool.isUse object = false := by
  constructor
  · intro hmem
    rw [← h.size]
    exact h.sound.free object hmem
  · rintro ⟨hlt, hfree⟩
    exact h.complete object hlt hfree

theorem pop_none_iff : st.pool.pop.2 = none ↔ ∀ object < poolSize, object ∈ st.handedOut := by
  rcases h.sound.pop_cases with ⟨hnil, hpop⟩ | ⟨object, pools, hpools, hpop⟩
  · simp only [hpop, true_iff]
    intro object hlt
    by_contra hnot
    have hmem := h.complete object hlt (by simpa [h.used, hlt] using hnot)
    rw [hnil] at hmem
    exact List.not_mem_nil hmem
  · obtain ⟨hlt, hfree⟩ := (h.mem_pools object).mp (hpools ▸ List.mem_cons_self)
    simp only [hpop, reduceCtorEq, false_iff]
    intro hall
    have hused := ((h.used object).mp (hall object hlt)).2
    rw [hfree] at hused
    exact Bool.false_ne_true hused

theorem pop_some_fresh {object : Nat} (hpop : st.pool.pop.2 = some object) :
    object < poolSize ∧ object ∉ st.handedOut := by
  have hresult : st.pool.pop = (st.pool.pop.1, some object) := Prod.ext rfl hpop
  have hpools := (ObjectPool.pop_some hresult).1
  obtain ⟨hlt, hfree⟩ := (h.mem_pools object).mp (hpools ▸ List.mem_cons_self)
  exact ⟨hlt, by simp [h.used, hfree]⟩

theorem pushPointer_true_iff (offset : Int) :
    (st.pool.pushPointer offset).2 = true ↔ ∃ object ∈ st.handedOut, offset = object := by
  rcases st.pool.pushPointer_cases offset with ⟨object, rfl, hlt, huse, hpush⟩ | ⟨hnot, hpush⟩
  · simp only [hpush, true_iff]
    exact ⟨object, (h.used object).mpr ⟨h.size ▸ hlt, huse⟩, rfl⟩
  · simp only [hpush, Bool.false_eq_true, false_iff]
    rintro ⟨object, hmem, rfl⟩
    obtain ⟨hlt, huse⟩ := (h.used object).mp hmem
    rw [hnot object rfl (h.size.symm ▸ hlt)] at huse
    exact Bool.false_ne_true huse

end Agrees

theorem push_false_unchanged (p : ObjectPool) (offset : Int)
    (hpush : (p.pushPointer offset).2 = false) : (p.pushPointer offset).1 = p := by
  rcases p.pushPointer_cases offset with ⟨object, _, _, _, htrue⟩ | ⟨_, hfalse⟩
  · rw [htrue] at hpush
    exact absurd hpush.symm Bool.false_ne_true
  · rw [hfalse]

/-- After any calls on a pool of any size, whatever pointers were pushed: the free stack is
the free objects once each, the next `Pop` returns one of them or finds all of them handed
out, and `Push` accepts exactly what is handed out and otherwise does nothing. -/
theorem never_hands_out_twice (poolSize : Nat) (acts : List PoolAct) :
    let st := after poolSize acts
    st.pool.pools.Nodup ∧
      (∀ object, object ∈ st.pool.pools ↔
        object < poolSize ∧ st.pool.isUse object = false) ∧
      st.pool.freeCount = st.pool.pools.length ∧
      st.handedOut.Nodup ∧
      (∀ object, object ∈ st.handedOut ↔
        object < poolSize ∧ st.pool.isUse object = true) ∧
      (st.pool.pop.2 = none ↔ ∀ object < poolSize, object ∈ st.handedOut) ∧
      (∀ object, st.pool.pop.2 = some object → object < poolSize ∧ object ∉ st.handedOut) ∧
      (∀ offset, (st.pool.pushPointer offset).2 = true ↔
        ∃ object ∈ st.handedOut, offset = object) ∧
      ∀ offset, (st.pool.pushPointer offset).2 = false →
        (st.pool.pushPointer offset).1 = st.pool := by
  have h := agrees_after poolSize acts
  refine ⟨h.sound.nodup, h.mem_pools, h.count, h.nodup, h.used, h.pop_none_iff, ?_,
    h.pushPointer_true_iff, push_false_unchanged _⟩
  intro object hpop
  exact h.pop_some_fresh hpop

end UsedPool

/-- Two objects: both are popped, a third `Pop` fails, the first returns, and the same
pointer again and two foreign ones are refused. -/
example :
    let st := UsedPool.after 2 [.pop, .pop, .pop, .push 1, .push 1, .push (-1), .push 2]
    st.handedOut = [0] ∧ st.pool.pools = [1] ∧ st.pool.freeCount = 1 := by decide

end RoomServer
