import Mathlib.Tactic

/-!
# Midpoints of a bisection

The midpoints that a search meets while only its lower end moves: each of them halves what is left to the upper one.
-/

namespace Bisection

/-- The `k`-th midpoint below `u`, counted from zero. -/
def midpoint (l u : ℤ) (k : ℕ) : ℤ := u + (l - u) / 2 ^ (k + 1)

variable {l u : ℤ} {k : ℕ}

theorem midpoint_zero : midpoint l u 0 = (l + u) / 2 := by
  unfold midpoint
  omega

/-- The quotient towards zero lies between the ends, too. -/
theorem tdiv_between (h : l < u) : l ≤ (l + u).tdiv 2 ∧ (l + u).tdiv 2 ≤ u := by
  rw [Int.tdiv_eq_ediv, show Int.sign 2 = 1 from rfl]
  split <;> omega

theorem tdiv_eq_midpoint (h : 0 ≤ l + u) : (l + u).tdiv 2 = midpoint l u 0 := by
  rw [midpoint_zero, Int.tdiv_eq_ediv_of_nonneg h]

/-- After the lower end has moved to the midpoint the others are the same. -/
theorem midpoint_succ : midpoint l u (k + 1) = midpoint (midpoint l u 0) u k := by
  unfold midpoint
  rw [zero_add, pow_one, add_sub_cancel_left, Int.ediv_ediv_of_nonneg (by norm_num), ← pow_succ']

theorem midpoint_lt (h : l < u) : midpoint l u k < u := by
  have hneg : (l - u) / 2 ^ (k + 1) < 0 := Int.ediv_neg_of_neg_of_pos (by omega) (by positivity)
  unfold midpoint
  omega

theorem midpoint_zero_le : ∀ {k : ℕ} {l : ℤ}, l ≤ u → midpoint l u 0 ≤ midpoint l u k
  | 0, _, _ => le_rfl
  | k + 1, l, h => by
    have hle : midpoint l u 0 ≤ u := by
      rw [midpoint_zero]
      omega
    have h0 : midpoint l u 0 ≤ midpoint (midpoint l u 0) u 0 := by
      rw [midpoint_zero (l := midpoint l u 0)]
      omega
    rw [midpoint_succ]
    exact h0.trans (midpoint_zero_le hle)

end Bisection
