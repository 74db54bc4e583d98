import Mathlib.Algebra.BigOperators.Group.Finset.Piecewise
import Mathlib.Algebra.Order.BigOperators.Group.Finset

/-!
# Ledgers

A ledger gives every account of a finite type an amount. Amounts are credited, debited, moved and
cleared, and each of these changes the total by what it says.
-/

namespace Ledger

section

variable {A : Type*} [DecidableEq A] (f : A → ℕ)

def credit (a : A) (v : ℕ) : A → ℕ := Function.update f a (f a + v)

def debit (a : A) (v : ℕ) : A → ℕ := Function.update f a (f a - v)

def move (a b : A) (v : ℕ) : A → ℕ := credit (debit f a v) b v

def clear (a : A) : A → ℕ := Function.update f a 0

def clearAll (l : List A) : A → ℕ := l.foldl clear f

theorem credit_apply (a : A) (v : ℕ) (c : A) : credit f a v c = f c + if c = a then v else 0 := by
  by_cases h : c = a
  · subst h
    simp [credit]
  · simp [credit, h]

theorem debit_apply (a : A) (v : ℕ) (c : A) : debit f a v c = f c - if c = a then v else 0 := by
  by_cases h : c = a
  · subst h
    simp [debit]
  · simp [debit, h]

theorem debit_add {a : A} {v : ℕ} (h : v ≤ f a) (c : A) :
    debit f a v c + (if c = a then v else 0) = f c := by
  rw [debit_apply]
  by_cases hc : c = a
  · subst hc
    simp [h]
  · simp [hc]

theorem debit_zero (a : A) : debit f a 0 = f := by
  funext c
  simp [debit_apply]

/-- What is moved is lost to one account and gained by the other. -/
theorem move_add {a : A} (b : A) {v : ℕ} (h : v ≤ f a) (c : A) :
    move f a b v c + (if c = a then v else 0) = f c + if c = b then v else 0 := by
  calc move f a b v c + (if c = a then v else 0)
      = debit f a v c + (if c = b then v else 0) + (if c = a then v else 0) := by rw [move, credit_apply]
    _ = debit f a v c + (if c = a then v else 0) + (if c = b then v else 0) := add_right_comm _ _ _
    _ = f c + if c = b then v else 0 := by rw [debit_add f h]

theorem clear_apply (a c : A) : clear f a c = if c = a then 0 else f c := by
  by_cases h : c = a
  · subst h
    simp [clear]
  · simp [clear, h]

theorem clearAll_apply (l : List A) (c : A) : clearAll f l c = if c ∈ l then 0 else f c := by
  induction l generalizing f with
  | nil => simp [clearAll]
  | cons a l ih =>
    change clearAll (clear f a) l c = _
    rw [ih, clear_apply]
    by_cases hl : c ∈ l <;> by_cases ha : c = a <;> simp [hl, ha]

end

section

variable {A : Type*} [Fintype A] (f : A → ℕ)

def total : ℕ := ∑ a, f a

theorem le_total (a : A) : f a ≤ total f := Finset.single_le_sum_of_canonicallyOrdered (Finset.mem_univ a)

variable [DecidableEq A]

/-- The other accounts, and the one. -/
theorem total_update (a : A) (v : ℕ) : total (Function.update f a v) + f a = total f + v := by
  have hsplit : total f = ∑ b ∈ Finset.univ \ {a}, f b + f a := by
    calc total f = ∑ b ∈ Finset.univ \ {a}, f b + ∑ b ∈ {a}, f b :=
          (Finset.sum_sdiff (Finset.subset_univ {a})).symm
      _ = ∑ b ∈ Finset.univ \ {a}, f b + f a := by rw [Finset.sum_singleton]
  have hupdate : total (Function.update f a v) = v + ∑ b ∈ Finset.univ \ {a}, f b :=
    Finset.sum_update_of_mem (Finset.mem_univ a) f v
  omega

theorem total_credit (a : A) (v : ℕ) : total (credit f a v) = total f + v := by
  have := total_update f a (f a + v)
  unfold credit
  omega

theorem total_debit {a : A} {v : ℕ} (h : v ≤ f a) : total (debit f a v) + v = total f := by
  have := total_update f a (f a - v)
  unfold debit
  omega

theorem total_move {a : A} (b : A) {v : ℕ} (h : v ≤ f a) : total (move f a b v) = total f := by
  rw [move, total_credit, total_debit f h]

theorem total_clear (a : A) : total (clear f a) + f a = total f := total_update f a 0

/-- Two accounts hold no more than all of them. -/
theorem add_le_total {a b : A} (h : a ≠ b) : f a + f b ≤ total f := by
  have hb := le_total (clear f a) b
  rw [clear_apply, if_neg (Ne.symm h)] at hb
  have := total_clear f a
  omega

/-- Clearing accounts takes away what they hold. -/
theorem total_clearAll (l : List A) :
    total (clearAll f l) + ∑ a ∈ l.toFinset, f a = total f := by
  have hleft : total (clearAll f l) = ∑ a, if a ∈ l then 0 else f a :=
    Finset.sum_congr rfl fun a _ => clearAll_apply f l a
  have htaken : ∑ a ∈ l.toFinset, f a = ∑ a, if a ∈ l then f a else 0 := by
    rw [Finset.sum_ite, Finset.sum_const_zero, add_zero]
    exact Finset.sum_congr (by ext; simp) fun _ _ => rfl
  calc total (clearAll f l) + ∑ a ∈ l.toFinset, f a
      = ∑ a, ((if a ∈ l then 0 else f a) + if a ∈ l then f a else 0) := by
        rw [hleft, htaken, Finset.sum_add_distrib]
    _ = total f := Finset.sum_congr rfl fun a _ => by split <;> simp

end

end Ledger
