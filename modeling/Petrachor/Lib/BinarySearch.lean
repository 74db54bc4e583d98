import Mathlib.Data.List.Basic
import Mathlib.Tactic

/-!
# Binary search in a sorted list

`lowerBound` halves a range of `count` entries from `first` on, as `std::lower_bound` does.
-/

namespace BinarySearch

variable {α : Type*} [LinearOrder α]

/-- The first entry of the range that is not below `x`. -/
def lowerBound (l : List α) (x : α) (first count : ℕ) : ℕ :=
  if _h : count = 0 then first
  else
    let step := count / 2
    match l[first + step]? with
    | none => first
    | some y =>
      if y < x then lowerBound l x (first + step + 1) (count - (step + 1))
      else lowerBound l x first step
  termination_by count
  decreasing_by all_goals omega

/-- `std::binary_search` of the whole list. -/
def binarySearch (l : List α) (x : α) : Bool :=
  match l[lowerBound l x 0 l.length]? with
  | none => false
  | some y => !(x < y : Bool)

variable {l : List α} {x : α}

theorem lowerBound_zero (first : ℕ) : lowerBound l x first 0 = first := by
  unfold lowerBound
  exact dif_pos rfl

/-- In a sorted list the search ends between the entries below `x` and the others. -/
theorem lowerBound_spec (hl : l.Pairwise (· < ·)) :
    ∀ {first count : ℕ}, first + count ≤ l.length →
      (∀ i (h : i < l.length), i < first → l[i] < x) →
      (∀ i (h : i < l.length), first + count ≤ i → x ≤ l[i]) →
      ∀ i (h : i < l.length), (i < lowerBound l x first count → l[i] < x) ∧
        (lowerBound l x first count ≤ i → x ≤ l[i]) := by
  intro first count
  induction count using Nat.strong_induction_on generalizing first with
  | _ count ih =>
    intro hle hlo hhi i hi
    by_cases h0 : count = 0
    · subst h0
      rw [lowerBound_zero]
      exact ⟨hlo i hi, hhi i hi⟩
    · have hmid : first + count / 2 < l.length := by omega
      rw [lowerBound, dif_neg h0]
      dsimp only
      rw [List.getElem?_eq_getElem hmid]
      dsimp only
      have hmono := List.pairwise_iff_getElem.1 hl
      split
      · rename_i hy
        refine ih (count - (count / 2 + 1)) (by omega) (by omega) (fun j hj hlt => ?_)
          (fun j hj hle => hhi j hj (by omega)) i hi
        rcases Nat.lt_or_eq_of_le (Nat.le_of_lt_succ hlt) with hlt | rfl
        · exact (hmono j _ hj hmid hlt).trans hy
        · exact hy
      · rename_i hy
        refine ih (count / 2) (by omega) (by omega) hlo (fun j hj hle => ?_) i hi
        rcases Nat.lt_or_eq_of_le hle with hlt | rfl
        · exact (not_lt.1 hy).trans (hmono _ j hmid hj hlt).le
        · exact not_lt.1 hy

/-- In a sorted list the search finds what is there and nothing else. -/
theorem binarySearch_eq_true (hl : l.Pairwise (· < ·)) : binarySearch l x = true ↔ x ∈ l := by
  have hspec : ∀ i (h : i < l.length), (i < lowerBound l x 0 l.length → l[i] < x) ∧
      (lowerBound l x 0 l.length ≤ i → x ≤ l[i]) :=
    lowerBound_spec hl (by omega) (fun i _ h => by omega) (fun i h h' => by omega)
  unfold binarySearch
  constructor
  · intro h
    split at h
    · cases h
    · rename_i y hy
      obtain ⟨hi, rfl⟩ := List.getElem?_eq_some_iff.1 hy
      have hle := (hspec _ hi).2 le_rfl
      have hge : ¬x < l[lowerBound l x 0 l.length] := by simpa using h
      rw [le_antisymm hle (not_lt.1 hge)]
      exact List.getElem_mem hi
  · intro h
    obtain ⟨i, hi, rfl⟩ := List.mem_iff_getElem.1 h
    have hub : lowerBound l l[i] 0 l.length ≤ i := by
      by_contra hlt
      exact lt_irrefl _ ((hspec i hi).1 (not_le.1 hlt))
    have hlt : lowerBound l l[i] 0 l.length < l.length := lt_of_le_of_lt hub hi
    rw [List.getElem?_eq_getElem hlt]
    have hle := (hspec _ hlt).2 le_rfl
    have : ¬l[i] < l[lowerBound l l[i] 0 l.length] := by
      rcases Nat.lt_or_eq_of_le hub with h' | h'
      · exact not_lt.2 (List.pairwise_iff_getElem.1 hl _ _ hlt hi h').le
      · simp only [h']
        exact lt_irrefl _
    simpa using this

end BinarySearch
