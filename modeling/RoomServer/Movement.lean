import Mathlib.Tactic.FieldSimp
import RoomServer.RoomPositions

/-! One movement under any number of calls of `MovePosition`. Each call overwrites the
stored position and start tick, and still the position is a function of the time of
the last call alone. -/
namespace RoomServer
namespace Room

def movePositions (user : RoomUser) (ticks : List Nat) : RoomUser := ticks.foldl movePosition user

theorem movePositions_snoc (user : RoomUser) (ticks : List Nat) (last : Nat) :
    movePositions user (ticks ++ [last]) = movePosition (movePositions user ticks) last := by
  rw [movePositions, List.foldl_append]
  rfl

@[simp] theorem movePosition_destPosX (user : RoomUser) (nowTick : Nat) :
    (movePosition user nowTick).destPosX = user.destPosX := by
  unfold movePosition
  dsimp only
  (repeat' split) <;> rfl

@[simp] theorem movePosition_destPosY (user : RoomUser) (nowTick : Nat) :
    (movePosition user nowTick).destPosY = user.destPosY := by
  unfold movePosition
  dsimp only
  (repeat' split) <;> rfl

@[simp] theorem movePosition_endMoveTick (user : RoomUser) (nowTick : Nat) :
    (movePosition user nowTick).endMoveTick = user.endMoveTick := by
  unfold movePosition
  dsimp only
  (repeat' split) <;> rfl

@[simp] theorem movePositions_destPosX (user : RoomUser) (ticks : List Nat) :
    (movePositions user ticks).destPosX = user.destPosX := by
  induction ticks using List.reverseRecOn with
  | nil => rfl
  | append_singleton rest last ih => rw [movePositions_snoc, movePosition_destPosX, ih]

@[simp] theorem movePositions_destPosY (user : RoomUser) (ticks : List Nat) :
    (movePositions user ticks).destPosY = user.destPosY := by
  induction ticks using List.reverseRecOn with
  | nil => rfl
  | append_singleton rest last ih => rw [movePositions_snoc, movePosition_destPosY, ih]

@[simp] theorem movePositions_endMoveTick (user : RoomUser) (ticks : List Nat) :
    (movePositions user ticks).endMoveTick = user.endMoveTick := by
  induction ticks using List.reverseRecOn with
  | nil => rfl
  | append_singleton rest last ih => rw [movePositions_snoc, movePosition_endMoveTick, ih]

/-- The share of the way gone by `t'`, from the share gone by `t`. -/
theorem interpolate_twice {start t t' finish : Nat} (p d : ℚ) (hstart : start ≤ t) (hle : t ≤ t')
    (hend : t' < finish) :
    p + (d - p) * ((t - start : Nat) / (finish - start : Nat)) +
        (d - (p + (d - p) * ((t - start : Nat) / (finish - start : Nat)))) *
          ((t' - t : Nat) / (finish - t : Nat)) =
      p + (d - p) * ((t' - start : Nat) / (finish - start : Nat)) := by
  have hall : ((finish - start : Nat) : ℚ) ≠ 0 := Nat.cast_ne_zero.mpr (by omega)
  have hrest : ((finish - t : Nat) : ℚ) ≠ 0 := Nat.cast_ne_zero.mpr (by omega)
  have hsum : ((finish - start : Nat) : ℚ) = (t - start : Nat) + (finish - t : Nat) := by
    rw [← Nat.cast_add]
    congr 1
    omega
  have hpassed : ((t' - start : Nat) : ℚ) = (t - start : Nat) + (t' - t : Nat) := by
    rw [← Nat.cast_add]
    congr 1
    omega
  rw [hpassed]
  field_simp
  rw [hsum]
  ring

section
variable {user : RoomUser} {ticks : List Nat} {t t' last : Nat}

theorem movePosition_twice (hmove : user.isMove = true) (hend64 : user.endMoveTick < 2 ^ 64)
    (hstart : user.startMoveTick ≤ t) (hle : t ≤ t') (hend : t' < user.endMoveTick) :
    movePosition (movePosition user t) t' = movePosition user t' := by
  have hfirst := movePosition_onWay hmove hstart (by omega) (by omega)
  have hall := movePosition_onWay hmove (hstart.trans hle) hend (by omega)
  have hmoving : (movePosition user t).isMove = true := by
    rw [hfirst]
    exact hmove
  have hstarted : (movePosition user t).startMoveTick = t := by rw [hfirst]
  rw [movePosition_onWay hmoving (hstarted.trans_le hle) (by rwa [movePosition_endMoveTick])
    (by rw [movePosition_endMoveTick, hstarted]; omega), hfirst, hall]
  dsimp only
  rw [interpolate_twice _ _ hstart hle hend, interpolate_twice _ _ hstart hle hend]

/-- Before the arrival only the last call counts. -/
theorem movePositions_underway (hmove : user.isMove = true) (hend64 : user.endMoveTick < 2 ^ 64)
    (hticks : (user.startMoveTick :: (ticks ++ [last])).Pairwise (· ≤ ·))
    (hend : last < user.endMoveTick) :
    movePositions user (ticks ++ [last]) = movePosition user last := by
  induction ticks using List.reverseRecOn generalizing last with
  | nil => rfl
  | append_singleton rest t ih =>
    rw [← List.cons_append, List.pairwise_append] at hticks
    obtain ⟨hearlier, _, hlast⟩ := hticks
    have hle : t ≤ last := hlast t (by simp) last List.mem_cons_self
    have hstart : user.startMoveTick ≤ t := (List.pairwise_cons.mp hearlier).1 t (by simp)
    rw [movePositions_snoc, ih hearlier (by omega),
      movePosition_twice hmove hend64 hstart hle hend]

/-- From the arrival on the user rests at its destination. -/
theorem movePositions_arrived (hmove : user.isMove = true) (hend64 : user.endMoveTick < 2 ^ 64)
    (hticks : (user.startMoveTick :: (ticks ++ [last])).Pairwise (· ≤ ·))
    (hend : user.endMoveTick ≤ last) :
    (movePositions user (ticks ++ [last])).posX = user.destPosX ∧
      (movePositions user (ticks ++ [last])).posY = user.destPosY ∧
        (movePositions user (ticks ++ [last])).isMove = false := by
  induction ticks using List.reverseRecOn generalizing last with
  | nil =>
    rw [List.nil_append, movePositions, List.foldl_cons, List.foldl_nil,
      movePosition_arrived hmove hend]
    exact ⟨rfl, rfl, rfl⟩
  | append_singleton rest t ih =>
    rw [← List.cons_append, List.pairwise_append] at hticks
    have hearlier := hticks.1
    rw [movePositions_snoc]
    by_cases hbefore : t < user.endMoveTick
    · have hstart : user.startMoveTick ≤ t := (List.pairwise_cons.mp hearlier).1 t (by simp)
      have hmoving : (movePosition user t).isMove = true := by
        rw [movePosition_onWay hmove hstart hbefore (by omega)]
        exact hmove
      rw [movePositions_underway hmove hend64 hearlier hbefore,
        movePosition_arrived hmoving (by rwa [movePosition_endMoveTick])]
      exact ⟨movePosition_destPosX user t, movePosition_destPosY user t, rfl⟩
    · obtain ⟨hx, hy, hrest⟩ := ih hearlier (Nat.le_of_not_lt hbefore)
      rw [movePosition_rest hrest]
      exact ⟨hx, hy, hrest⟩

theorem movePosition_forward (hend64 : user.endMoveTick < 2 ^ 64)
    (hstart : user.isMove = true → user.startMoveTick ≤ t) :
    ∃ r : ℚ, 0 ≤ r ∧ r ≤ 1 ∧
      (movePosition user t).posX = user.posX + (user.destPosX - user.posX) * r ∧
        (movePosition user t).posY = user.posY + (user.destPosY - user.posY) * r := by
  cases hmove : user.isMove with
  | false =>
    rw [movePosition_rest hmove]
    exact ⟨0, le_refl 0, zero_le_one, by ring, by ring⟩
  | true =>
    by_cases hend : user.endMoveTick ≤ t
    · rw [movePosition_arrived hmove hend]
      exact ⟨1, zero_le_one, le_refl 1, by dsimp only; ring, by dsimp only; ring⟩
    · have hle := hstart hmove
      have hshare : t - user.startMoveTick ≤ user.endMoveTick - user.startMoveTick := by omega
      rw [movePosition_onWay hmove hle (Nat.lt_of_not_le hend) (by omega)]
      exact ⟨(t - user.startMoveTick : Nat) / (user.endMoveTick - user.startMoveTick : Nat),
        by positivity, div_le_one_of_le₀ (Nat.cast_le.mpr hshare) (Nat.cast_nonneg _), rfl, rfl⟩

/-- A user still moving after a call has started again there. -/
theorem movePositions_started (hmove : user.isMove = true) (hend64 : user.endMoveTick < 2 ^ 64)
    (hticks : (user.startMoveTick :: (ticks ++ [last])).Pairwise (· ≤ ·))
    (h : (movePositions user (ticks ++ [last])).isMove = true) :
    (movePositions user (ticks ++ [last])).startMoveTick = last := by
  have hstart : user.startMoveTick ≤ last := (List.pairwise_cons.mp hticks).1 last (by simp)
  by_cases hend : last < user.endMoveTick
  · rw [movePositions_underway hmove hend64 hticks hend,
      movePosition_onWay hmove hstart hend (by omega)]
  · have hrest := (movePositions_arrived hmove hend64 hticks (Nat.le_of_not_lt hend)).2.2
    exact absurd (hrest.symm.trans h) Bool.false_ne_true

/-- Where a moving user is depends on the time of the last call alone, and it never turns back. -/
theorem schedule_independent (hmove : user.isMove = true) (hend64 : user.endMoveTick < 2 ^ 64)
    (hticks : (user.startMoveTick :: (ticks ++ [last])).Pairwise (· ≤ ·)) :
    (user.endMoveTick ≤ last →
      (movePositions user (ticks ++ [last])).posX = user.destPosX ∧
        (movePositions user (ticks ++ [last])).posY = user.destPosY ∧
          (movePositions user (ticks ++ [last])).isMove = false) ∧
    (last < user.endMoveTick →
      (movePositions user (ticks ++ [last])).posX = user.posX + (user.destPosX - user.posX) *
          ((last : ℚ) - user.startMoveTick) / ((user.endMoveTick : ℚ) - user.startMoveTick) ∧
        (movePositions user (ticks ++ [last])).posY = user.posY + (user.destPosY - user.posY) *
            ((last : ℚ) - user.startMoveTick) / ((user.endMoveTick : ℚ) - user.startMoveTick) ∧
          (movePositions user (ticks ++ [last])).isMove = true) ∧
    (∀ others, (user.startMoveTick :: (others ++ [last])).Pairwise (· ≤ ·) →
      (movePositions user (others ++ [last])).posX =
          (movePositions user (ticks ++ [last])).posX ∧
        (movePositions user (others ++ [last])).posY =
          (movePositions user (ticks ++ [last])).posY) ∧
    ∀ next, last ≤ next → ∃ r : ℚ, 0 ≤ r ∧ r ≤ 1 ∧
      (movePositions user (ticks ++ [last] ++ [next])).posX =
          (movePositions user (ticks ++ [last])).posX +
            (user.destPosX - (movePositions user (ticks ++ [last])).posX) * r ∧
        (movePositions user (ticks ++ [last] ++ [next])).posY =
          (movePositions user (ticks ++ [last])).posY +
            (user.destPosY - (movePositions user (ticks ++ [last])).posY) * r := by
  have hstart : user.startMoveTick ≤ last := (List.pairwise_cons.mp hticks).1 last (by simp)
  refine ⟨movePositions_arrived hmove hend64 hticks, fun hend => ?_, fun others hothers => ?_,
    fun next hnext => ?_⟩
  · rw [movePositions_underway hmove hend64 hticks hend,
      movePosition_onWay hmove hstart hend (by omega), Nat.cast_sub hstart,
      Nat.cast_sub (hstart.trans hend.le), mul_div_assoc, mul_div_assoc]
    exact ⟨rfl, rfl, hmove⟩
  · by_cases hend : last < user.endMoveTick
    · rw [movePositions_underway hmove hend64 hothers hend,
        movePositions_underway hmove hend64 hticks hend]
      exact ⟨rfl, rfl⟩
    · have hgone := Nat.le_of_not_lt hend
      obtain ⟨hx, hy, _⟩ := movePositions_arrived hmove hend64 hticks hgone
      obtain ⟨hx', hy', _⟩ := movePositions_arrived hmove hend64 hothers hgone
      exact ⟨hx'.trans hx.symm, hy'.trans hy.symm⟩
  · rw [movePositions_snoc]
    have hend64' : (movePositions user (ticks ++ [last])).endMoveTick < 2 ^ 64 := by
      rwa [movePositions_endMoveTick]
    obtain ⟨r, hr⟩ := movePosition_forward hend64' fun h =>
      (movePositions_started hmove hend64 hticks h).trans_le hnext
    rw [movePositions_destPosX, movePositions_destPosY] at hr
    exact ⟨r, hr⟩

/-- From (0, 0) to (2, 0), which takes 2000 ticks, looked at after 500 and after 1000. -/
theorem schedule_independent_halfway :
    (movePositions ⟨7, 0, 0, 3, true, 2, 0, 100, 2100⟩ ([600] ++ [1100])).posX = 1 ∧
      (movePositions ⟨7, 0, 0, 3, true, 2, 0, 100, 2100⟩ ([] ++ [1100])).posX = 1 := by
  have hticks : (100 :: ([600] ++ [1100])).Pairwise (· ≤ ·) := by decide
  have h := @schedule_independent ⟨7, 0, 0, 3, true, 2, 0, 100, 2100⟩ [600] 1100 rfl
    (by decide) hticks
  have hhalf := (h.2.1 (by decide)).1
  have hother := (h.2.2.1 [] (by decide)).1
  have hone : (0 : ℚ) + (2 - 0) * ((1100 : Nat) - (100 : Nat)) / ((2100 : Nat) - (100 : Nat)) = 1 := by
    norm_num
  exact ⟨hhalf.trans hone, (hother.trans hhalf).trans hone⟩

end

end Room
end RoomServer
