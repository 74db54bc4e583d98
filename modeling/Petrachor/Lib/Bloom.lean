import Mathlib.Data.BitVec

/-!
# Bloom filters

A filter contains another one if it has every bit of it. What a filter was made of by `|||`, it contains.
-/

namespace Bloom

variable {w : ℕ} {α : Type*}

/-- `a` has every bit of `b`. -/
def Contains (a b : BitVec w) : Prop := a &&& b = b

instance (a b : BitVec w) : Decidable (Contains a b) := inferInstanceAs (Decidable (_ = _))

variable {a b c d : BitVec w} {f : α → BitVec w} {x : α} {l : List α}

theorem contains_iff : Contains a b ↔ ∀ i, b.getLsbD i = true → a.getLsbD i = true := by
  constructor
  · intro h i hi
    rw [← h, BitVec.getLsbD_and, Bool.and_eq_true] at hi
    exact hi.1
  · intro h
    apply BitVec.eq_of_getLsbD_eq
    intro i _
    rw [BitVec.getLsbD_and]
    cases hb : b.getLsbD i with
    | false => exact Bool.and_false _
    | true => rw [h i hb, Bool.and_true]

@[refl] theorem Contains.refl (a : BitVec w) : Contains a a := BitVec.and_self

theorem Contains.trans (hab : Contains a b) (hbc : Contains b c) : Contains a c := by
  rw [contains_iff] at *
  exact fun i hi => hab i (hbc i hi)

theorem contains_zero (a : BitVec w) : Contains a 0 := BitVec.and_zero

/-- A union is contained if its parts are. -/
theorem contains_or_iff : Contains a (b ||| c) ↔ Contains a b ∧ Contains a c := by
  simp only [contains_iff, BitVec.getLsbD_or, Bool.or_eq_true]
  constructor
  · exact fun h => ⟨fun i hi => h i (.inl hi), fun i hi => h i (.inr hi)⟩
  · rintro ⟨hb, hc⟩ i (hi | hi)
    · exact hb i hi
    · exact hc i hi

theorem Contains.or_left (h : Contains a b) : Contains (a ||| c) b := by
  rw [contains_iff] at *
  intro i hi
  rw [BitVec.getLsbD_or, h i hi, Bool.true_or]

theorem Contains.or_right (h : Contains a b) : Contains (c ||| a) b := by
  rw [BitVec.or_comm]
  exact h.or_left

/-- A filter that is made of many. -/
theorem contains_foldl_iff :
    Contains a (l.foldl (fun b x => b ||| f x) b) ↔ Contains a b ∧ ∀ x ∈ l, Contains a (f x) := by
  induction l generalizing b with
  | nil => simp
  | cons x l ih => rw [List.foldl_cons, ih, contains_or_iff, List.forall_mem_cons, and_assoc]

theorem foldl_contains_left : Contains (l.foldl (fun b x => b ||| f x) b) b :=
  (contains_foldl_iff.1 (Contains.refl _)).1

theorem foldl_contains (h : x ∈ l) : Contains (l.foldl (fun b x => b ||| f x) b) (f x) :=
  (contains_foldl_iff.1 (Contains.refl _)).2 x h

end Bloom
