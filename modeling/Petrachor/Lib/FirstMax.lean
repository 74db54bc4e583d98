import Mathlib.Order.Basic
import Mathlib.Order.Defs.LinearOrder
import Mathlib.Tactic

/-!
# The first of the greatest elements of a list

A fold that replaces its candidate by every strictly greater element ends with the first of the
greatest.
-/

/-- `x` is greatest in the list, and everything before it is strictly below it. -/
def IsFirstMax {α κ : Type*} [LinearOrder κ] (rank : α → κ) (l : List α) (x : α) : Prop :=
  ∃ l₁ l₂, l = l₁ ++ x :: l₂ ∧ (∀ y ∈ l₁, rank y < rank x) ∧ ∀ y ∈ l₂, rank y ≤ rank x

namespace IsFirstMax

variable {α κ : Type*} [LinearOrder κ] {rank rank' : α → κ} {l : List α} {x y : α}

theorem singleton (x : α) : IsFirstMax rank [x] x :=
  ⟨[], [], rfl, by simp, by simp⟩

theorem mem (h : IsFirstMax rank l x) : x ∈ l := by
  obtain ⟨l₁, l₂, rfl, -⟩ := h
  simp

theorem le (h : IsFirstMax rank l x) {z : α} (hz : z ∈ l) : rank z ≤ rank x := by
  obtain ⟨l₁, l₂, rfl, h₁, h₂⟩ := h
  rcases List.mem_append.1 hz with hz | hz
  · exact (h₁ z hz).le
  · rcases List.mem_cons.1 hz with rfl | hz
    · exact le_rfl
    · exact h₂ z hz

theorem congr (h : IsFirstMax rank l x) (he : ∀ z ∈ l, rank' z = rank z) :
    IsFirstMax rank' l x := by
  have hx := he x h.mem
  obtain ⟨l₁, l₂, rfl, h₁, h₂⟩ := h
  refine ⟨l₁, l₂, rfl, fun z hz => ?_, fun z hz => ?_⟩
  · rw [hx, he z (by simp [hz])]
    exact h₁ z hz
  · rw [hx, he z (by simp [hz])]
    exact h₂ z hz

/-- An element that is not greater than the candidate changes nothing. -/
theorem append_of_le (h : IsFirstMax rank l x) (hy : rank y ≤ rank x) :
    IsFirstMax rank (l ++ [y]) x := by
  obtain ⟨l₁, l₂, rfl, h₁, h₂⟩ := h
  refine ⟨l₁, l₂ ++ [y], by simp, h₁, fun z hz => ?_⟩
  rcases List.mem_append.1 hz with hz | hz
  · exact h₂ z hz
  · rw [List.mem_singleton.1 hz]
    exact hy

/-- A strictly greater element takes over. -/
theorem append_of_lt (h : IsFirstMax rank l x) (hy : rank x < rank y) :
    IsFirstMax rank (l ++ [y]) y :=
  ⟨l, [], by simp, fun _ hz => (h.le hz).trans_lt hy, by simp⟩

end IsFirstMax
