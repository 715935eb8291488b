import Mathlib.Algebra.Order.Floor.Ring
import Mathlib.Algebra.Ring.Int.Parity
import Mathlib.Data.Int.Log
import Mathlib.Data.Rat.Floor
import Mathlib.Tactic.Linarith
import Mathlib.Tactic.Positivity
import Mathlib.Tactic.Ring

/-! Binary rounding to nearest, ties to even, of non-negative rationals: `p` bits are kept
behind the first. The exponent has no bounds here. -/
namespace Library.Rounding

def Down (q : ℚ) : Prop := Int.fract q < 1 / 2 ∨ Int.fract q = 1 / 2 ∧ Even ⌊q⌋

instance (q : ℚ) : Decidable (Down q) := inferInstanceAs (Decidable (_ ∨ _))

def nearestEven (q : ℚ) : ℤ := if Down q then ⌊q⌋ else ⌊q⌋ + 1

/-- The distance of neighbours among the numbers that are kept, where `x` is. -/
def spacing (p : Nat) (x : ℚ) : ℚ := 2 ^ (Int.log 2 x - p)

def roundTo (p : Nat) (x : ℚ) : ℚ := nearestEven (x / spacing p x) * spacing p x

def offset (p : Nat) (x : ℚ) : ℚ :=
  let q := x / spacing p x
  (if Down q then Int.fract q else Int.fract q - 1) * spacing p x

def Representable (p : Nat) (y : ℚ) : Prop :=
  ∃ (m : Nat) (j : ℤ), m ≤ 2 ^ (p + 1) ∧ y = m * 2 ^ j

/-! ### To an integer -/

section Integer
variable {q : ℚ} {n : ℤ}

theorem half_le_of_not_down (h : ¬Down q) : 1 / 2 ≤ Int.fract q := by
  by_contra hlt
  exact h (.inl (not_le.mp hlt))

theorem le_half_of_down (h : Down q) : Int.fract q ≤ 1 / 2 := by
  rcases h with h | h
  · exact h.le
  · exact h.1.le

theorem abs_sub_nearestEven (q : ℚ) : |q - nearestEven q| ≤ 1 / 2 := by
  have hq := Int.floor_add_fract q
  unfold nearestEven
  split
  case isTrue hdown =>
    have hhalf := le_half_of_down hdown
    have hnonneg := Int.fract_nonneg q
    rw [abs_le]
    constructor <;> linarith
  case isFalse hup =>
    have hhalf := half_le_of_not_down hup
    have hone := Int.fract_lt_one q
    rw [abs_le, Int.cast_add, Int.cast_one]
    constructor <;> linarith

theorem le_nearestEven (h : n ≤ q) : n ≤ nearestEven q := by
  have hfloor := Int.le_floor.mpr h
  unfold nearestEven
  split <;> omega

theorem nearestEven_le (h : q ≤ n) : nearestEven q ≤ n := by
  unfold nearestEven
  split
  case isTrue => exact Int.cast_le.mp ((Int.floor_le q).trans h)
  case isFalse hup =>
    -- `q` is no integer
    have hhalf := half_le_of_not_down hup
    have hq := Int.floor_add_fract q
    have hlt : (⌊q⌋ : ℚ) < n := by linarith
    have hlt := Int.cast_lt.mp hlt
    omega

/-- Where the next integer begins. -/
theorem succ_le_nearestEven_iff (h : n ≤ q) :
    n + 1 ≤ nearestEven q ↔ n + 1 / 2 < q ∨ q = n + 1 / 2 ∧ Odd n := by
  by_cases hnext : ((n + 1 : ℤ) : ℚ) ≤ q
  · have hfar : (n : ℚ) + 1 / 2 < q := by
      push_cast at hnext
      linarith
    exact iff_of_true (le_nearestEven hnext) (.inl hfar)
  · have hfloor : ⌊q⌋ = n := by
      rw [Int.floor_eq_iff]
      push_cast at hnext
      exact ⟨h, not_le.mp hnext⟩
    have hq := Int.floor_add_fract q
    rw [hfloor] at hq
    unfold nearestEven
    split
    case isTrue hdown =>
      rw [hfloor]
      constructor
      · intro hle
        omega
      · rintro (hfar | ⟨hhalf, hodd⟩)
        · have hle := le_half_of_down hdown
          linarith
        · rcases hdown with hlt | ⟨_, heven⟩
          · linarith
          · rw [hfloor] at heven
            exact absurd heven (Int.not_even_iff_odd.mpr hodd)
    case isFalse hup =>
      rw [hfloor]
      constructor
      · intro _
        have hhalf := half_le_of_not_down hup
        rcases hhalf.lt_or_eq with hlt | heq
        · left
          linarith
        · right
          refine ⟨by linarith, ?_⟩
          by_contra heven
          exact hup (.inr ⟨heq.symm, hfloor ▸ Int.not_odd_iff_even.mp heven⟩)
      · intro _
        exact le_refl _

/-- The half before an even integer is rounded up to it. -/
theorem nearestEven_lt_iff (hn : Even n) : nearestEven q < n ↔ q < n - 1 / 2 := by
  by_cases hbefore : ((n - 1 : ℤ) : ℚ) ≤ q
  · have hodd : Odd (n - 1) := hn.sub_odd odd_one
    have hnext := succ_le_nearestEven_iff hbefore
    push_cast at hnext
    rw [sub_add_cancel] at hnext
    rw [← not_le, hnext, not_or, not_lt, not_and_or]
    constructor
    · rintro ⟨hle, hne⟩
      have hne := hne.resolve_right (not_not.mpr hodd)
      have hlt := lt_of_le_of_ne hle hne
      linarith
    · intro hlt
      exact ⟨by linarith, .inl (by linarith)⟩
  · have hbefore := not_le.mp hbefore
    have hle := nearestEven_le hbefore.le
    push_cast at hbefore
    exact iff_of_true (by omega) (by linarith)

end Integer

/-! ### To a number of bits -/

section Bits
variable {p : Nat} {x y d : ℚ}

theorem spacing_pos (p : Nat) (x : ℚ) : 0 < spacing p x := zpow_pos two_pos _

theorem pow_mul_spacing (p k : Nat) (x : ℚ) : 2 ^ k * spacing p x = 2 ^ (Int.log 2 x - p + k) := by
  rw [spacing, zpow_add₀ two_ne_zero, zpow_natCast, mul_comm]

theorem lt_scaled (p : Nat) (x : ℚ) : x < 2 ^ (p + 1) * spacing p x := by
  have hlt : x < (2 : ℚ) ^ (Int.log 2 x + 1) := by
    exact_mod_cast Int.lt_zpow_succ_log_self one_lt_two x
  rw [pow_mul_spacing]
  convert hlt using 2
  push_cast
  ring

theorem first_le (hx : 0 < x) : 2 ^ p * spacing p x ≤ x := by
  have hle : (2 : ℚ) ^ Int.log 2 x ≤ x := by
    exact_mod_cast Int.zpow_log_le_self one_lt_two hx
  rw [pow_mul_spacing]
  convert hle using 2
  ring

theorem log_eq {k : ℤ} (hle : 2 ^ k ≤ x) (hlt : x < 2 ^ (k + 1)) : Int.log 2 x = k := by
  have hx : 0 < x := (zpow_pos two_pos k).trans_le hle
  have hlog : k ≤ Int.log 2 x := (Int.zpow_le_iff_le_log one_lt_two hx).mp (by exact_mod_cast hle)
  have hlog' : Int.log 2 x < k + 1 :=
    (Int.lt_zpow_iff_log_lt one_lt_two hx).mp (by exact_mod_cast hlt)
  omega

theorem roundTo_add_offset (p : Nat) (x : ℚ) : roundTo p x + offset p x = x := by
  have hq := Int.floor_add_fract (x / spacing p x)
  have hx := div_mul_cancel₀ x (spacing_pos p x).ne'
  unfold roundTo offset nearestEven
  dsimp only
  rw [← add_mul]
  split
  · rw [hq, hx]
  · rw [Int.cast_add, Int.cast_one, add_add_sub_cancel, hq, hx]

theorem abs_offset_le (p : Nat) (x : ℚ) : |offset p x| ≤ spacing p x / 2 := by
  have hpos := spacing_pos p x
  have hx := div_mul_cancel₀ x hpos.ne'
  have hoffset : offset p x = (x / spacing p x - nearestEven (x / spacing p x)) * spacing p x := by
    rw [sub_mul, hx, eq_sub_iff_add_eq', ← roundTo]
    exact roundTo_add_offset p x
  have hhalf := mul_le_mul_of_nonneg_right (abs_sub_nearestEven (x / spacing p x)) hpos.le
  rw [hoffset, abs_mul, abs_of_pos hpos]
  linarith

/-- A multiple of the spacing is not passed. -/
theorem multiple_le_roundTo {n : ℤ} (h : n * spacing p x ≤ x) : n * spacing p x ≤ roundTo p x := by
  have hpos := spacing_pos p x
  apply mul_le_mul_of_nonneg_right _ hpos.le
  exact Int.cast_le.mpr (le_nearestEven ((le_div_iff₀ hpos).mpr h))

theorem roundTo_le_multiple {n : ℤ} (h : x ≤ n * spacing p x) : roundTo p x ≤ n * spacing p x := by
  have hpos := spacing_pos p x
  apply mul_le_mul_of_nonneg_right _ hpos.le
  exact Int.cast_le.mpr (nearestEven_le ((div_le_iff₀ hpos).mpr h))

/-- A number that is kept is a multiple of the spacing at `x`, or not above the first
number that has it. -/
theorem Representable.multiple (h : Representable p y) (x : ℚ) :
    (∃ n : ℤ, y = n * spacing p x) ∨ y ≤ 2 ^ p * spacing p x := by
  obtain ⟨m, j, hm, rfl⟩ := h
  by_cases hfine : Int.log 2 x - p ≤ j
  · left
    refine ⟨m * 2 ^ (j - (Int.log 2 x - p)).toNat, ?_⟩
    have hj : j = ((j - (Int.log 2 x - p)).toNat : ℤ) + (Int.log 2 x - p) := by omega
    rw [spacing]
    push_cast
    rw [mul_assoc, ← zpow_natCast, ← zpow_add₀ two_ne_zero, ← hj]
  · right
    have hm : (m : ℚ) ≤ 2 ^ (p + 1) := by exact_mod_cast hm
    have hj : j + (p + 1 : Nat) ≤ Int.log 2 x - p + p := by
      push_cast
      omega
    rw [pow_mul_spacing]
    calc (m : ℚ) * 2 ^ j ≤ 2 ^ (p + 1) * 2 ^ j :=
          mul_le_mul_of_nonneg_right hm (zpow_pos two_pos j).le
      _ = 2 ^ (j + (p + 1 : Nat)) := by rw [zpow_add₀ two_ne_zero, zpow_natCast, mul_comm]
      _ ≤ 2 ^ (Int.log 2 x - p + p) := zpow_le_zpow_right₀ one_le_two hj

theorem le_roundTo (hy : Representable p y) (hx : 0 < x) (h : y ≤ x) : y ≤ roundTo p x := by
  rcases hy.multiple x with ⟨n, rfl⟩ | hle
  · exact multiple_le_roundTo h
  · have hfirst : (((2 ^ p : Nat) : ℤ) : ℚ) * spacing p x ≤ x := by exact_mod_cast first_le hx
    exact hle.trans (by exact_mod_cast multiple_le_roundTo hfirst)

theorem roundTo_le (hy : Representable p y) (hx : 0 < x) (h : x ≤ y) : roundTo p x ≤ y := by
  rcases hy.multiple x with ⟨n, rfl⟩ | hle
  · exact roundTo_le_multiple h
  · have hfirst : x ≤ (((2 ^ p : Nat) : ℤ) : ℚ) * spacing p x := by exact_mod_cast h.trans hle
    have hround := roundTo_le_multiple hfirst
    exact hround.trans ((by exact_mod_cast first_le hx : _ ≤ x).trans h)

theorem roundTo_eq (hx : 0 < x) (h : Representable p x) : roundTo p x = x :=
  le_antisymm (roundTo_le h hx le_rfl) (le_roundTo h hx le_rfl)

theorem representable_multiple {n : ℤ} (hlow : 0 ≤ n) (hhigh : n ≤ 2 ^ (p + 1)) (x : ℚ) :
    Representable p (n * spacing p x) := by
  have hnat : ((n.toNat : ℤ) : ℚ) = n := by rw [Int.toNat_of_nonneg hlow]
  have hle : (n.toNat : ℤ) ≤ ((2 ^ (p + 1) : Nat) : ℤ) := by
    push_cast
    omega
  refine ⟨n.toNat, Int.log 2 x - p, Int.ofNat_le.mp hle, ?_⟩
  rw [spacing, ← hnat]
  rfl

theorem representable_roundTo (hx : 0 ≤ x) : Representable p (roundTo p x) := by
  have hpos := spacing_pos p x
  have hlow : (0 : ℤ) ≤ nearestEven (x / spacing p x) :=
    le_nearestEven (by exact_mod_cast div_nonneg hx hpos.le)
  have hhigh : nearestEven (x / spacing p x) ≤ 2 ^ (p + 1) := by
    apply nearestEven_le
    rw [div_le_iff₀ hpos]
    exact_mod_cast (lt_scaled p x).le
  exact representable_multiple hlow hhigh x

/-- From the first number with `p` bits before the point on, nothing is left behind it. -/
theorem roundTo_int (h : 2 ^ p ≤ x) : ∃ n : ℤ, roundTo p x = n := by
  have hx : 0 < x := (by positivity : (0 : ℚ) < 2 ^ p).trans_le h
  have hlog : (p : ℤ) ≤ Int.log 2 x :=
    (Int.zpow_le_iff_le_log one_lt_two hx).mp (by exact_mod_cast h)
  refine ⟨nearestEven (x / spacing p x) * 2 ^ (Int.log 2 x - p).toNat, ?_⟩
  have hexp : Int.log 2 x - p = ((Int.log 2 x - p).toNat : ℤ) := by omega
  rw [roundTo, spacing, hexp, zpow_natCast]
  push_cast
  rfl

/-- Below a power of two the spacing is the one of the numbers before it. -/
theorem spacing_le {k : ℤ} (hx : 0 < x) (h : x < 2 ^ k) : spacing p x ≤ 2 ^ (k - 1 - p) := by
  have hlog : Int.log 2 x < k := (Int.lt_zpow_iff_log_lt one_lt_two hx).mp (by exact_mod_cast h)
  exact zpow_le_zpow_right₀ one_le_two (by omega)

theorem representable_pow (p : Nat) (k : ℤ) : Representable p (2 ^ k) :=
  ⟨1, k, Nat.one_le_two_pow, by rw [Nat.cast_one, one_mul]⟩

/-- Half of the last spacing before a power of two is rounded up to it. -/
theorem roundTo_lt_pow_iff {k : ℤ} (hx : 0 < x) :
    roundTo p x < 2 ^ k ↔ x < 2 ^ k - 2 ^ (k - 1 - p) / 2 := by
  have hlast : (2 : ℚ) ^ (k - 1 - p) ≤ 2 ^ (k - 1) := zpow_le_zpow_right₀ one_le_two (by omega)
  have hdouble : (2 : ℚ) ^ k = 2 * 2 ^ (k - 1) := by
    rw [← zpow_one_add₀ two_ne_zero]
    congr 1
    ring
  have hstep : (0 : ℚ) < 2 ^ (k - 1 - p) := zpow_pos two_pos _
  by_cases hbefore : x < 2 ^ (k - 1)
  · have hround := roundTo_le (representable_pow p (k - 1)) hx hbefore.le
    constructor
    · intro _
      linarith
    · intro _
      linarith [zpow_pos (two_pos : (0 : ℚ) < 2) (k - 1)]
  · by_cases hafter : x < 2 ^ k
    · have hlog : Int.log 2 x = k - 1 := log_eq (not_lt.mp hbefore) (by rwa [sub_add_cancel])
      have hspacing : spacing p x = 2 ^ (k - 1 - p) := by rw [spacing, hlog]
      have hpow : (2 : ℚ) ^ k = (2 ^ (p + 1) : ℤ) * spacing p x := by
        push_cast
        rw [pow_mul_spacing, hlog]
        congr 1
        push_cast
        ring
      have heven : Even (2 ^ (p + 1) : ℤ) := Int.even_pow.mpr ⟨even_two, p.succ_ne_zero⟩
      have hpos := spacing_pos p x
      rw [← hspacing, hpow, roundTo, mul_lt_mul_iff_left₀ hpos, Int.cast_lt,
        nearestEven_lt_iff heven, div_lt_iff₀ hpos, sub_mul]
      ring_nf
    · have hround := le_roundTo (representable_pow p k) hx (not_lt.mp hafter)
      constructor
      · intro hlt
        linarith
      · intro hlt
        linarith

/-- Rounded down, `x` lies between its rounding and the next number that is kept. -/
theorem roundTo_of_offset_pos (hdown : 0 < offset p x) :
    roundTo p x = ⌊x / spacing p x⌋ * spacing p x ∧ roundTo p x < x ∧
      x < roundTo p x + spacing p x := by
  have hpos := spacing_pos p x
  have hsum := roundTo_add_offset p x
  have hD : Down (x / spacing p x) := by
    by_contra hup
    have hneg : (Int.fract (x / spacing p x) - 1) * spacing p x < 0 :=
      mul_neg_of_neg_of_pos (sub_neg.mpr (Int.fract_lt_one _)) hpos
    rw [offset, if_neg hup] at hdown
    exact absurd hdown hneg.not_gt
  have hround : roundTo p x = ⌊x / spacing p x⌋ * spacing p x := by
    rw [roundTo, nearestEven, if_pos hD]
  have hhalf := (abs_le.mp (abs_offset_le p x)).2
  exact ⟨hround, by linarith, by linarith⟩

/-- Between a multiple of the spacing and the next one the spacing is the same. -/
theorem spacing_between {n : ℤ} (hfirst : 2 ^ p ≤ n) (hlast : n + 1 ≤ 2 ^ (p + 1)) (hd : 0 ≤ d)
    (h : n * spacing p x + d < (n + 1) * spacing p x) :
    spacing p (n * spacing p x + d) = spacing p x := by
  have hpos := spacing_pos p x
  have hstart := pow_mul_spacing p p x
  have hend := pow_mul_spacing p (p + 1) x
  rw [sub_add_cancel] at hstart
  rw [Nat.cast_add, Nat.cast_one, ← add_assoc, sub_add_cancel] at hend
  have hlow : 2 ^ p * spacing p x ≤ n * spacing p x :=
    mul_le_mul_of_nonneg_right (by exact_mod_cast hfirst) hpos.le
  have hhigh : (n + 1) * spacing p x ≤ 2 ^ (p + 1) * spacing p x :=
    mul_le_mul_of_nonneg_right (by exact_mod_cast hlast) hpos.le
  have hlog : Int.log 2 (n * spacing p x + d) = Int.log 2 x := by
    apply log_eq
    · linarith
    · linarith
  rw [spacing, hlog, ← spacing]

/-- Above a multiple of the spacing, a multiple is reached by reaching the next one. -/
theorem le_multiple_iff {n m : ℤ} (hlow : n * spacing p x < x)
    (hhigh : x < n * spacing p x + spacing p x) : x ≤ m * spacing p x ↔ n + 1 ≤ m := by
  have hpos := spacing_pos p x
  constructor
  · intro hle
    have hlt := (mul_lt_mul_iff_left₀ hpos).mp (hlow.trans_le hle)
    exact Int.add_one_le_iff.mpr (Int.cast_lt.mp hlt)
  · intro hle
    have hle : (n : ℚ) + 1 ≤ m := by exact_mod_cast hle
    have hscaled := mul_le_mul_of_nonneg_right hle hpos.le
    linarith

/-- A sum gets back to `x` when it is over half of the way to the next number that is kept. -/
theorem le_roundTo_add_iff (hx : 0 < x) (hd : 0 ≤ d) (hdown : 0 < offset p x) :
    x ≤ roundTo p (roundTo p x + d) ↔
      spacing p x < 2 * d ∨ spacing p x = 2 * d ∧ Odd ⌊x / spacing p x⌋ := by
  have hpos := spacing_pos p x
  obtain ⟨hround, hlow, hhigh⟩ := roundTo_of_offset_pos hdown
  generalize hn : ⌊x / spacing p x⌋ = n at hround ⊢
  have hfirst : (2 : ℤ) ^ p ≤ n := by
    rw [← hn, Int.le_floor, le_div_iff₀ hpos]
    exact_mod_cast first_le hx
  have hlast : n + 1 ≤ (2 : ℤ) ^ (p + 1) := by
    rw [← hn, Int.add_one_le_iff, Int.floor_lt, div_lt_iff₀ hpos]
    exact_mod_cast lt_scaled p x
  have hnonneg : 0 < n := (by positivity : (0 : ℤ) < 2 ^ p).trans_le hfirst
  rw [hround] at hlow hhigh ⊢
  by_cases hnear : n * spacing p x + d < (n + 1) * spacing p x
  · have hquotient : (n * spacing p x + d) / spacing p x = n + d / spacing p x := by
      rw [add_div, mul_div_cancel_right₀ _ hpos.ne']
    have hshare : (n : ℚ) ≤ n + d / spacing p x :=
      le_add_of_nonneg_right (div_nonneg hd hpos.le)
    rw [roundTo, spacing_between hfirst hlast hd hnear, hquotient, le_multiple_iff hlow hhigh,
      succ_le_nearestEven_iff hshare, add_lt_add_iff_left, add_right_inj, lt_div_iff₀ hpos,
      div_eq_iff hpos.ne']
    constructor
    · rintro (hfar | ⟨hhalf, hodd⟩)
      · exact .inl (by linarith)
      · exact .inr ⟨by linarith, hodd⟩
    · rintro (hfar | ⟨hhalf, hodd⟩)
      · exact .inl (by linarith)
      · exact .inr ⟨by linarith, hodd⟩
  · -- the sum has passed the next number that is kept
    have hkept := representable_multiple (by omega) hlast x
    push_cast at hkept
    have hstart : 0 < n * spacing p x := mul_pos (Int.cast_pos.mpr hnonneg) hpos
    have hsum := le_roundTo hkept (add_pos_of_pos_of_nonneg hstart hd) (not_lt.mp hnear)
    exact iff_of_true (by linarith) (.inl (by linarith))

end Bits
end Library.Rounding
