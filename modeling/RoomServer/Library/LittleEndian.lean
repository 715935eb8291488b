import Mathlib.Data.List.Basic
import Mathlib.Tactic.Common
import Mathlib.Tactic.Ring

/-! Naturals as a fixed number of bytes, the least significant byte first. -/
namespace Library.LittleEndian

/-- What does not fit in `width` bytes is dropped. -/
def toBytes : Nat → Nat → List UInt8
  | 0, _ => []
  | width + 1, value => UInt8.ofNat value :: toBytes width (value / 256)

def ofBytes : List UInt8 → Nat
  | [] => 0
  | byte :: bytes => byte.toNat + 256 * ofBytes bytes

@[simp] theorem length_toBytes (width value : Nat) : (toBytes width value).length = width := by
  induction width generalizing value with
  | zero => rfl
  | succ width ih => rw [toBytes, List.length_cons, ih]

theorem ofBytes_toBytes (width value : Nat) :
    ofBytes (toBytes width value) = value % 256 ^ width := by
  induction width generalizing value with
  | zero => rw [toBytes, ofBytes, Nat.pow_zero, Nat.mod_one]
  | succ width ih =>
    have hbyte : (UInt8.ofNat value).toNat = value % 256 := UInt8.toNat_ofNat'
    rw [toBytes, ofBytes, ih, hbyte, Nat.pow_succ', Nat.mod_mul]

theorem ofBytes_toBytes_of_lt {width value : Nat} (h : value < 256 ^ width) :
    ofBytes (toBytes width value) = value := by
  rw [ofBytes_toBytes, Nat.mod_eq_of_lt h]

theorem ofBytes_lt (bytes : List UInt8) : ofBytes bytes < 256 ^ bytes.length := by
  induction bytes with
  | nil => exact Nat.one_pos
  | cons byte bytes ih =>
    have hbyte := byte.toNat_lt
    rw [ofBytes, List.length_cons, Nat.pow_succ']
    omega

theorem toBytes_ofBytes (bytes : List UInt8) : toBytes bytes.length (ofBytes bytes) = bytes := by
  induction bytes with
  | nil => rfl
  | cons byte bytes ih =>
    have hbyte := byte.toNat_lt
    have hfirst : UInt8.ofNat (byte.toNat + 256 * ofBytes bytes) = byte := by
      rw [← UInt8.toNat_inj, UInt8.toNat_ofNat']
      omega
    have hrest : (byte.toNat + 256 * ofBytes bytes) / 256 = ofBytes bytes := by omega
    rw [List.length_cons, toBytes, ofBytes, hfirst, hrest, ih]

/-! ### Cells of one width -/

theorem drop_cells {cell : α → List β} {width : Nat} (hwidth : ∀ x, (cell x).length = width)
    (xs : List α) (rest : List β) {index : Nat} (h : index < xs.length) :
    (xs.flatMap cell ++ rest).drop (width * index) =
      cell xs[index] ++ ((xs.drop (index + 1)).flatMap cell ++ rest) := by
  induction xs generalizing index with
  | nil => exact absurd h (Nat.not_lt_zero _)
  | cons x xs ih =>
    rw [List.flatMap_cons, List.append_assoc]
    cases index with
    | zero => rfl
    | succ index =>
      have hsplit : width * (index + 1) = (cell x).length + width * index := by
        rw [hwidth, Nat.mul_succ, Nat.add_comm]
      rw [hsplit, List.drop_length_add_append, ih (Nat.lt_of_succ_lt_succ h)]
      rfl

theorem length_cells {cell : α → List β} {width : Nat} (hwidth : ∀ x, (cell x).length = width)
    (xs : List α) : (xs.flatMap cell).length = width * xs.length := by
  induction xs with
  | nil => rfl
  | cons x xs ih =>
    rw [List.flatMap_cons, List.length_append, ih, hwidth, List.length_cons, Nat.mul_succ,
      Nat.add_comm]

end Library.LittleEndian
