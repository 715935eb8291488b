import Mathlib.Analysis.Complex.Norm

/-! Distances between points of the plane that have rational coordinates. -/
namespace Library.Plane

structure Point where
  x : ℚ
  y : ℚ
  deriving DecidableEq

namespace Point

def dist2 (p q : Point) : ℚ := (q.x - p.x) * (q.x - p.x) + (q.y - p.y) * (q.y - p.y)

noncomputable def distance (p q : Point) : ℝ := √(p.dist2 q : ℝ)

def towards (p q : Point) (r : ℚ) : Point := ⟨p.x + (q.x - p.x) * r, p.y + (q.y - p.y) * r⟩

@[simp] theorem distance_self (p : Point) : p.distance p = 0 := by
  simp [distance, dist2]

theorem distance_eq_norm (p q : Point) :
    p.distance q = ‖(⟨q.x - p.x, q.y - p.y⟩ : ℂ)‖ := by
  rw [distance, dist2, Complex.norm_def, Complex.normSq_apply]
  push_cast
  rfl

theorem distance_triangle (p q s : Point) : p.distance s ≤ p.distance q + q.distance s := by
  have hsum : (⟨s.x - p.x, s.y - p.y⟩ : ℂ) =
      ⟨q.x - p.x, q.y - p.y⟩ + ⟨s.x - q.x, s.y - q.y⟩ := by
    apply Complex.ext
    · change (s.x - p.x : ℝ) = (q.x - p.x) + (s.x - q.x)
      ring
    · change (s.y - p.y : ℝ) = (q.y - p.y) + (s.y - q.y)
      ring
  rw [distance_eq_norm, distance_eq_norm, distance_eq_norm, hsum]
  exact norm_add_le _ _

theorem distance_towards {p q : Point} {r : ℚ} (hr : 0 ≤ r) :
    p.distance (p.towards q r) = r * p.distance q := by
  have hsquare : p.dist2 (p.towards q r) = r ^ 2 * p.dist2 q := by
    unfold dist2 towards
    ring
  have hr : (0 : ℝ) ≤ r := Rat.cast_nonneg.mpr hr
  rw [distance, hsquare, distance, Rat.cast_mul, Rat.cast_pow,
    Real.sqrt_mul (sq_nonneg _), Real.sqrt_sq hr]

theorem towards_distance {p q : Point} {r : ℚ} (hr : r ≤ 1) :
    (p.towards q r).distance q = (1 - r) * p.distance q := by
  have hsquare : (p.towards q r).dist2 q = (1 - r) ^ 2 * p.dist2 q := by
    unfold dist2 towards
    ring
  have hr : (0 : ℝ) ≤ ((1 - r : ℚ) : ℝ) := Rat.cast_nonneg.mpr (sub_nonneg.mpr hr)
  rw [distance, hsquare, distance, Rat.cast_mul, Rat.cast_pow,
    Real.sqrt_mul (sq_nonneg _), Real.sqrt_sq hr, Rat.cast_sub, Rat.cast_one]

end Point
end Library.Plane
