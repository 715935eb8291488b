import Mathlib.Data.List.Basic
import Mathlib.Tactic.Common

/-! A block of memory as a function from offsets, written a run of values at a
time. What a read returns after a write is decided by the two ranges. -/
namespace Library.Memory

def write (memory : Nat → β) (offset : Nat) (values : List β) : Nat → β := fun i =>
  if offset ≤ i then (values[i - offset]?).getD (memory i) else memory i

def read (memory : Nat → β) (offset size : Nat) : List β :=
  (List.range size).map fun i => memory (offset + i)

def Apart (offset size offset' size' : Nat) : Prop :=
  offset + size ≤ offset' ∨ offset' + size' ≤ offset

@[simp] theorem length_read (memory : Nat → β) (offset size : Nat) :
    (read memory offset size).length = size := by
  rw [read, List.length_map, List.length_range]

@[simp] theorem write_nil (memory : Nat → β) (offset : Nat) : write memory offset [] = memory := by
  funext i
  simp [write]

theorem read_congr {memory memory' : Nat → β} {offset size : Nat}
    (h : ∀ i, offset ≤ i → i < offset + size → memory i = memory' i) :
    read memory offset size = read memory' offset size := by
  apply List.map_congr_left
  intro i hi
  have hlt := List.mem_range.mp hi
  exact h (offset + i) (by omega) (by omega)

theorem write_outside (memory : Nat → β) (offset : Nat) (values : List β) {i : Nat}
    (h : i < offset ∨ offset + values.length ≤ i) : write memory offset values i = memory i := by
  unfold write
  split
  case isTrue hle => rw [List.getElem?_eq_none (by omega), Option.getD_none]
  case isFalse => rfl

theorem read_write (memory : Nat → β) (offset : Nat) (values : List β) :
    read (write memory offset values) offset values.length = values := by
  apply List.ext_getElem?
  intro i
  rw [read, List.getElem?_map]
  by_cases hi : i < values.length
  · rw [List.getElem?_range hi, List.getElem?_eq_getElem hi, Option.map_some]
    simp [write, hi]
  · have hlength : (List.range values.length).length ≤ i := by
      rw [List.length_range]
      omega
    rw [List.getElem?_eq_none hlength, List.getElem?_eq_none (by omega), Option.map_none]

theorem read_write_apart (memory : Nat → β) {offset : Nat} {values : List β} {offset' size : Nat}
    (h : Apart offset values.length offset' size) :
    read (write memory offset values) offset' size = read memory offset' size := by
  apply read_congr
  intro i hle hlt
  apply write_outside
  unfold Apart at h
  omega

theorem write_append (memory : Nat → β) (offset : Nat) (first second : List β) :
    write (write memory offset first) (offset + first.length) second =
      write memory offset (first ++ second) := by
  funext i
  unfold write
  by_cases hle : offset ≤ i
  · by_cases hsecond : offset + first.length ≤ i
    · rw [if_pos hsecond, if_pos hle, if_pos hle, List.getElem?_append_right (by omega),
        List.getElem?_eq_none (l := first) (by omega), Option.getD_none, Nat.sub_sub]
    · rw [if_neg hsecond, if_pos hle, if_pos hle, List.getElem?_append_left (by omega)]
  · rw [if_neg (by omega), if_neg hle, if_neg hle]

end Library.Memory
