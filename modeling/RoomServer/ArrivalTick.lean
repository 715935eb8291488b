import RoomServer.Library.Rounding
import RoomServer.Room

/-! `m_endMoveTick = nowTick + ( dist / MoveSpeed ) * 1000` as it is evaluated. The second
summand is a `float`, so the clock becomes one too, and so does the sum before it is cut to
a `uint64`. -/
namespace RoomServer
open Library.Rounding

/-- The nearest `float`: 23 bits behind the first one. -/
def toFloat (x : ℚ) : ℚ := roundTo 23 x

/-- The arrival after the travel time `d`, where the sum fits a `uint64`. -/
def arrivalTick (nowTick : Nat) (d : ℚ) : Option Nat :=
  let sum := toFloat (toFloat nowTick + d)
  if sum < 2 ^ 64 then some ⌊sum⌋₊ else none

/-- The arrival is not in the past, and less than `MinMoveTick` off. -/
def ArrivesRight (nowTick : Nat) (d : ℚ) : Prop :=
  ∃ endMoveTick, arrivalTick nowTick d = some endMoveTick ∧ nowTick ≤ endMoveTick ∧
    |(endMoveTick : ℚ) - (nowTick + d)| < MinMoveTick

/-- What `d` is added to: the multiple of its spacing that is nearest to `nowTick`. -/
def floatTick (nowTick : Nat) : ℚ := nowTick - offset 23 nowTick

/-- In terms of how far `nowTick` and the sum are from the multiples of their spacings. -/
structure Accurate (nowTick : Nat) (d : ℚ) : Prop where
  notBefore : offset 23 nowTick ≤ 0 ∨ spacing 23 nowTick < 2 * d ∨
    spacing 23 nowTick = 2 * d ∧ Odd ⌊(nowTick : ℚ) / spacing 23 nowTick⌋
  close : floatTick nowTick + d < 2 ^ 30 ∨
    |offset 23 nowTick + offset 23 (floatTick nowTick + d)| < MinMoveTick
  fits : floatTick nowTick + d < 2 ^ 64 - 2 ^ 39

section
variable {nowTick : Nat} {d : ℚ}

theorem toFloat_nowTick (nowTick : Nat) : toFloat nowTick = floatTick nowTick := by
  rw [floatTick, toFloat, eq_sub_iff_add_eq]
  exact roundTo_add_offset 23 nowTick

theorem representable_floatTick (nowTick : Nat) : Representable 23 (floatTick nowTick) := by
  rw [← toFloat_nowTick]
  exact representable_roundTo (Nat.cast_nonneg nowTick)

theorem representable_natCast {n : Nat} (h : n ≤ 2 ^ 24) : Representable 23 n :=
  ⟨n, 0, h, by rw [zpow_zero, mul_one]⟩

theorem floatTick_nonneg (nowTick : Nat) : 0 ≤ floatTick nowTick := by
  obtain ⟨m, j, _, hfloat⟩ := representable_floatTick nowTick
  rw [hfloat]
  exact mul_nonneg (Nat.cast_nonneg m) (zpow_pos two_pos j).le

theorem sum_pos (nowTick : Nat) (hd : 0 < d) : 0 < floatTick nowTick + d :=
  add_pos_of_nonneg_of_pos (floatTick_nonneg nowTick) hd

theorem toFloat_sum_nonneg (nowTick : Nat) (hd : 0 < d) :
    0 ≤ toFloat (floatTick nowTick + d) :=
  le_roundTo (representable_natCast (Nat.zero_le _)) (sum_pos nowTick hd) (sum_pos nowTick hd).le

theorem offset_zero : offset 23 0 = 0 := by
  simp [offset, Down]

/-! ### The three conditions -/

theorem sum_fits_iff (hd : 0 < d) :
    toFloat (floatTick nowTick + d) < 2 ^ 64 ↔ floatTick nowTick + d < 2 ^ 64 - 2 ^ 39 := by
  have hiff := roundTo_lt_pow_iff (p := 23) (k := 64) (sum_pos nowTick hd)
  norm_num at hiff ⊢
  exact hiff

theorem notBefore_iff (hd : 0 < d) :
    nowTick ≤ ⌊toFloat (floatTick nowTick + d)⌋₊ ↔
      offset 23 nowTick ≤ 0 ∨ spacing 23 nowTick < 2 * d ∨
        spacing 23 nowTick = 2 * d ∧ Odd ⌊(nowTick : ℚ) / spacing 23 nowTick⌋ := by
  rw [Nat.le_floor_iff (toFloat_sum_nonneg nowTick hd)]
  by_cases hup : offset 23 nowTick ≤ 0
  · have hle : (nowTick : ℚ) ≤ floatTick nowTick := by
      rw [floatTick]
      linarith
    have hkept := le_roundTo (representable_floatTick nowTick) (sum_pos nowTick hd)
      (le_add_of_nonneg_right hd.le)
    exact iff_of_true (hle.trans hkept) (.inl hup)
  · have hdown := not_le.mp hup
    have hpos : (0 : ℚ) < nowTick := by
      rcases Nat.eq_zero_or_pos nowTick with rfl | hpos
      · rw [Nat.cast_zero, offset_zero] at hdown
        exact absurd hdown (lt_irrefl 0)
      · exact Nat.cast_pos.mpr hpos
    have hiff := le_roundTo_add_iff hpos hd.le hdown
    rw [← toFloat, ← toFloat, toFloat_nowTick] at hiff
    rw [hiff]
    simp only [hup, false_or]

/-- Both roundings move by 32 ticks at most. -/
theorem offsets_early (hd : 0 < d) (h : floatTick nowTick + d < 2 ^ 30) :
    |offset 23 nowTick| ≤ 32 ∧ |offset 23 (floatTick nowTick + d)| ≤ 32 := by
  have hhalf {x : ℚ} (hx : 0 < x) (hlt : x < 2 ^ 30) : |offset 23 x| ≤ 32 := by
    have hspacing : spacing 23 x ≤ 2 ^ (30 - 1 - (23 : Nat) : ℤ) :=
      spacing_le hx (by exact_mod_cast hlt)
    norm_num at hspacing
    have hoffset := abs_offset_le 23 x
    linarith
  refine ⟨?_, hhalf (sum_pos nowTick hd) h⟩
  rcases Nat.eq_zero_or_pos nowTick with rfl | hpos
  · rw [Nat.cast_zero, offset_zero, abs_zero]
    norm_num
  · have hnow : (0 : ℚ) < nowTick := Nat.cast_pos.mpr hpos
    apply hhalf hnow
    by_contra hlate
    have hkept : (2 : ℚ) ^ (30 : ℤ) ≤ toFloat nowTick :=
      le_roundTo (representable_pow 23 30) hnow (by exact_mod_cast not_lt.mp hlate)
    rw [toFloat_nowTick] at hkept
    norm_num at hkept h
    linarith

theorem close_iff (hd : 0 < d) :
    |((⌊toFloat (floatTick nowTick + d)⌋₊ : Nat) : ℚ) - (nowTick + d)| < MinMoveTick ↔
      floatTick nowTick + d < 2 ^ 30 ∨
        |offset 23 nowTick + offset 23 (floatTick nowTick + d)| < MinMoveTick := by
  have hsum : toFloat (floatTick nowTick + d) + offset 23 (floatTick nowTick + d) =
      floatTick nowTick + d := roundTo_add_offset 23 _
  have hnow : floatTick nowTick = nowTick - offset 23 nowTick := rfl
  by_cases hearly : floatTick nowTick + d < 2 ^ 30
  · refine iff_of_true ?_ (.inl hearly)
    obtain ⟨hfirst, hsecond⟩ := offsets_early hd hearly
    have hfloor := Nat.floor_le (toFloat_sum_nonneg nowTick hd)
    have hfloor' := Nat.lt_floor_add_one (toFloat (floatTick nowTick + d))
    rw [abs_le] at hfirst hsecond
    rw [abs_lt, MinMoveTick]
    push_cast
    constructor <;> linarith
  · -- nothing is cut off any more
    obtain ⟨n, hn⟩ := roundTo_int (p := 23) (x := floatTick nowTick + d) (by
      have hlate := not_lt.mp hearly
      norm_num at hlate ⊢
      linarith)
    have hexact : ((⌊toFloat (floatTick nowTick + d)⌋₊ : Nat) : ℚ) =
        toFloat (floatTick nowTick + d) := by
      have hnonneg := toFloat_sum_nonneg nowTick hd
      rw [toFloat, hn] at hnonneg ⊢
      have hnonneg : 0 ≤ n := by exact_mod_cast hnonneg
      rw [natCast_floor_eq_intCast_floor (by exact_mod_cast hnonneg), Int.floor_intCast]
    have herror : toFloat (floatTick nowTick + d) - (nowTick + d) =
        -(offset 23 nowTick + offset 23 (floatTick nowTick + d)) := by
      linarith
    rw [hexact, herror, abs_neg]
    simp only [hearly, false_or]

/-- For every clock value and every travel time: in `close` no more than the two remainders
is left of the rounding, and the last condition is that the sum is rounded below 2 ^ 64. -/
theorem arrivesRight_iff (hd : 0 < d) : ArrivesRight nowTick d ↔ Accurate nowTick d := by
  have hdefined (endMoveTick : Nat) : arrivalTick nowTick d = some endMoveTick ↔
      toFloat (floatTick nowTick + d) < 2 ^ 64 ∧
        ⌊toFloat (floatTick nowTick + d)⌋₊ = endMoveTick := by
    rw [arrivalTick, toFloat_nowTick]
    split
    case isTrue hfits => simp [hfits]
    case isFalse hfits => simp [hfits]
  constructor
  · rintro ⟨endMoveTick, harrival, hbefore, hclose⟩
    obtain ⟨hfits, rfl⟩ := (hdefined endMoveTick).mp harrival
    exact ⟨(notBefore_iff hd).mp hbefore, (close_iff hd).mp hclose, (sum_fits_iff hd).mp hfits⟩
  · rintro ⟨hbefore, hclose, hfits⟩
    exact ⟨_, (hdefined _).mpr ⟨(sum_fits_iff hd).mpr hfits, rfl⟩, (notBefore_iff hd).mpr hbefore,
      (close_iff hd).mpr hclose⟩

end

/-- Ten hours after the machine was started, a way of a second. -/
theorem arrivesRight_iff_tenHours : ArrivesRight 36000001 1000 := by
  refine (arrivesRight_iff (by norm_num)).mpr ⟨?_, .inl ?_, ?_⟩ <;> decide +kernel

/-- 49 days after the machine was started, a way of 255 ms: it is stored as over since 255 ms. -/
theorem arrival_in_the_past :
    2 ^ 32 + 255 < 2 ^ 63 ∧ (1 : ℚ) ≤ 255 ∧ Representable 23 255 ∧
      arrivalTick (2 ^ 32 + 255) 255 = some (2 ^ 32) ∧ ¬ArrivesRight (2 ^ 32 + 255) 255 := by
  have harrival : arrivalTick (2 ^ 32 + 255) 255 = some (2 ^ 32) := by decide +kernel
  refine ⟨by norm_num, by norm_num, representable_natCast (by norm_num), harrival, ?_⟩
  rintro ⟨endMoveTick, hstored, hbefore, _⟩
  rw [harrival] at hstored
  cases hstored
  omega

/-! ### The room's whole ticks -/

theorem travelTick_square {length : ℚ} (h : 0 ≤ length) :
    Room.travelTick (length * length) = ⌊length / MoveSpeed * 1000⌋₊ := by
  have hnonneg : 0 ≤ length / MoveSpeed * 1000 := by
    unfold MoveSpeed
    positivity
  have hsquare : length * length / MoveSpeed ^ 2 * 1000 ^ 2 =
      (length / MoveSpeed * 1000) * (length / MoveSpeed * 1000) := by
    unfold MoveSpeed
    ring
  rw [Room.travelTick, hsquare]
  have hlow := Nat.floor_le hnonneg
  have hhigh := Nat.lt_floor_add_one (length / MoveSpeed * 1000)
  symm
  rw [Nat.eq_sqrt]
  constructor
  · rw [Nat.le_floor_iff (mul_self_nonneg _), Nat.cast_mul]
    exact mul_self_le_mul_self (Nat.cast_nonneg _) hlow
  · rw [Nat.floor_lt (mul_self_nonneg _)]
    push_cast
    exact mul_self_lt_mul_self hnonneg hhigh

theorem floatTick_early {nowTick : Nat} (h : nowTick ≤ 2 ^ 24) : floatTick nowTick = nowTick := by
  rcases Nat.eq_zero_or_pos nowTick with rfl | hpos
  · rw [floatTick, Nat.cast_zero, offset_zero, sub_zero]
  · rw [← toFloat_nowTick]
    exact roundTo_eq (Nat.cast_pos.mpr hpos) (representable_natCast h)

theorem arrivalTick_early {nowTick : Nat} {length : ℚ} (hlength : 0 < length)
    (h : nowTick + length / MoveSpeed * 1000 < 2 ^ 24) :
    arrivalTick nowTick (length / MoveSpeed * 1000) =
        some (nowTick + Room.travelTick (length * length)) ∨
      arrivalTick nowTick (length / MoveSpeed * 1000) =
        some (nowTick + Room.travelTick (length * length) + 1) := by
  have htravel : 0 < length / MoveSpeed * 1000 := by
    unfold MoveSpeed
    positivity
  rw [travelTick_square hlength.le]
  generalize length / MoveSpeed * 1000 = d at h htravel ⊢
  have hnow : (nowTick : ℚ) < (2 ^ 24 : Nat) := by
    push_cast
    linarith
  have hnow := Nat.cast_lt.mp hnow
  -- the whole ticks before and after the sum are kept
  have hlow := Nat.floor_le htravel.le
  have hhigh := Nat.lt_floor_add_one d
  have hlast : nowTick + ⌊d⌋₊ + 1 ≤ 2 ^ 24 := by
    have hlt : ((nowTick + ⌊d⌋₊ : Nat) : ℚ) < (2 ^ 24 : Nat) := by
      push_cast
      linarith
    exact Nat.cast_lt.mp hlt
  have hsum : (0 : ℚ) < nowTick + d := add_pos_of_nonneg_of_pos (Nat.cast_nonneg _) htravel
  have hbelow : ((nowTick + ⌊d⌋₊ : Nat) : ℚ) ≤ toFloat (nowTick + d) :=
    le_roundTo (representable_natCast (by omega)) hsum (by push_cast; linarith)
  have habove : toFloat (nowTick + d) ≤ ((nowTick + ⌊d⌋₊ + 1 : Nat) : ℚ) :=
    roundTo_le (representable_natCast hlast) hsum (by push_cast; linarith)
  have hfits : toFloat (nowTick + d) < 2 ^ 64 := by
    have hlast : ((nowTick + ⌊d⌋₊ + 1 : Nat) : ℚ) ≤ (2 ^ 24 : Nat) := Nat.cast_le.mpr hlast
    push_cast at hlast habove
    linarith
  rw [arrivalTick, toFloat_nowTick, floatTick_early hnow.le, if_pos hfits]
  rcases habove.lt_or_eq with hlt | heq
  · left
    congr 1
    rw [Nat.floor_eq_iff ((Nat.cast_nonneg _).trans hbelow)]
    exact ⟨hbelow, by exact_mod_cast hlt⟩
  · right
    rw [heq, Nat.floor_natCast]

end RoomServer
