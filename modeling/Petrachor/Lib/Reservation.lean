import Mathlib.Data.Finset.Basic
import Mathlib.Data.List.Nodup

/-!
# Numbers that are reserved

A set of numbers that are taken, beside a table of the owners and the numbers each of them took. The two are
in step when every number that is taken has one owner; an owner gives back its numbers, and a number that
is free may be taken. A number that is struck out of the set alone leaves an owner behind, but whatever is
done, no number stays taken without an owner.
-/

structure Reservation (ι : Type*) where
  taken : Finset ℕ
  owners : List (ι × List ℕ)

namespace Reservation

variable {ι : Type*}

def empty : Reservation ι := ⟨∅, []⟩

/-- The owners of a kind give back what they took. -/
def release (P : ι → Bool) (r : Reservation ι) : Reservation ι :=
  ⟨r.taken \ ((r.owners.filter fun o => P o.1).flatMap Prod.snd).toFinset, r.owners.filter fun o => !P o.1⟩

/-- An owner takes numbers; the entry that it had is replaced. -/
def take [DecidableEq ι] (p : ι) (numbers : List ℕ) (r : Reservation ι) : Reservation ι :=
  ⟨r.taken ∪ numbers.toFinset, (p, numbers) :: r.owners.filter fun o => o.1 ≠ p⟩

/-- A number is struck out of the set, whoever took it. -/
def strike (n : ℕ) (r : Reservation ι) : Reservation ι := { r with taken := r.taken.erase n }

structure InStep (r : Reservation ι) : Prop where
  nodup : (r.owners.flatMap Prod.snd).Nodup
  nonempty : ∀ o ∈ r.owners, o.2 ≠ []
  mem_taken : ∀ n, n ∈ r.taken ↔ n ∈ r.owners.flatMap Prod.snd

/-- Every number that is taken has an owner. -/
def Covered (r : Reservation ι) : Prop := ∀ n ∈ r.taken, n ∈ r.owners.flatMap Prod.snd

variable {r : Reservation ι} {P : ι → Bool} {n : ℕ}

theorem inStep_empty : (empty : Reservation ι).InStep := by
  refine ⟨List.nodup_nil, ?_, ?_⟩
  · intro o ho
    cases ho
  · intro n
    simp [empty]

/-- Nobody took anything exactly when no number is taken. -/
theorem InStep.owners_eq_nil_iff (h : r.InStep) : r.owners = [] ↔ r.taken = ∅ := by
  rw [Finset.eq_empty_iff_forall_notMem]
  constructor
  · intro hnil n hn
    rw [h.mem_taken, hnil] at hn
    cases hn
  · intro hnone
    cases howners : r.owners with
    | nil => rfl
    | cons o owners =>
      have ho : o ∈ r.owners := howners ▸ List.mem_cons_self
      obtain ⟨n, hn⟩ := List.exists_mem_of_ne_nil _ (h.nonempty o ho)
      exact absurd ((h.mem_taken n).2 (List.mem_flatMap.2 ⟨o, ho, hn⟩)) (hnone n)

theorem not_of_mem_release {o : ι × List ℕ} (ho : o ∈ (r.release P).owners) : P o.1 = false := by
  have hkept := (List.mem_filter.1 ho).2
  rwa [Bool.not_eq_true'] at hkept

theorem InStep.release (h : r.InStep) (P : ι → Bool) : (r.release P).InStep := by
  have hsplit : (r.owners.flatMap Prod.snd).Perm
      ((r.owners.filter fun o => P o.1).flatMap Prod.snd ++
        (r.owners.filter fun o => !P o.1).flatMap Prod.snd) := by
    rw [← List.flatMap_append]
    exact (List.filter_append_perm _ _).symm.flatMap_right _
  have hnodup := hsplit.nodup_iff.1 h.nodup
  refine ⟨(List.nodup_append.1 hnodup).2.1, ?_, ?_⟩
  · intro o ho
    exact h.nonempty o (List.mem_filter.1 ho).1
  · intro n
    unfold Reservation.release
    rw [Finset.mem_sdiff, h.mem_taken, hsplit.mem_iff, List.mem_append, List.mem_toFinset]
    constructor
    · rintro ⟨hn | hn, hnot⟩
      · exact absurd hn hnot
      · exact hn
    · intro hn
      exact ⟨.inr hn, fun hreleased => (List.nodup_append.1 hnodup).2.2 n hreleased n hn rfl⟩

/-- An owner without an entry takes numbers that are free. -/
theorem InStep.take [DecidableEq ι] (h : r.InStep) {p : ι} {numbers : List ℕ} (hp : ∀ o ∈ r.owners, o.1 ≠ p)
    (hne : numbers ≠ []) (hnodup : numbers.Nodup) (hfree : ∀ n ∈ numbers, n ∉ r.taken) :
    (r.take p numbers).InStep := by
  have howners : (r.owners.filter fun o => o.1 ≠ p) = r.owners :=
    List.filter_eq_self.2 fun o ho => decide_eq_true (hp o ho)
  unfold Reservation.take
  rw [howners]
  refine ⟨?_, ?_, ?_⟩
  · rw [List.flatMap_cons, List.nodup_append]
    refine ⟨hnodup, h.nodup, ?_⟩
    rintro n hn m hm rfl
    exact hfree n hn ((h.mem_taken n).2 hm)
  · intro o ho
    rcases List.mem_cons.1 ho with rfl | ho
    · exact hne
    · exact h.nonempty o ho
  · intro n
    rw [Finset.mem_union, h.mem_taken, List.mem_toFinset, List.flatMap_cons, List.mem_append]
    exact or_comm

/-- Nothing happens when a number that is free is struck out. -/
theorem strike_eq_self (hn : n ∉ r.taken) : r.strike n = r := by
  unfold strike
  rw [Finset.erase_eq_of_notMem hn]

/-- A number may be struck out just when nobody took it. -/
theorem InStep.strike_iff (h : r.InStep) : (r.strike n).InStep ↔ n ∉ r.taken := by
  constructor
  · intro hstruck hn
    have htaken := (hstruck.mem_taken n).2 ((h.mem_taken n).1 hn)
    exact Finset.notMem_erase n r.taken htaken
  · intro hn
    rw [strike_eq_self hn]
    exact h

/-! ## Numbers without an owner -/

theorem covered_empty : (empty : Reservation ι).Covered := by
  intro n hn
  exact absurd hn (Finset.notMem_empty n)

theorem Covered.release (h : r.Covered) (P : ι → Bool) : (r.release P).Covered := by
  intro n hn
  obtain ⟨htaken, hkept⟩ := Finset.mem_sdiff.1 hn
  obtain ⟨o, ho, hno⟩ := List.mem_flatMap.1 (h n htaken)
  refine List.mem_flatMap.2 ⟨o, List.mem_filter.2 ⟨ho, ?_⟩, hno⟩
  rw [Bool.not_eq_true', ← Bool.not_eq_true]
  intro hP
  exact hkept (List.mem_toFinset.2 (List.mem_flatMap.2 ⟨o, List.mem_filter.2 ⟨ho, hP⟩, hno⟩))

theorem Covered.take [DecidableEq ι] (h : r.Covered) {p : ι} (numbers : List ℕ) (hp : ∀ o ∈ r.owners, o.1 ≠ p) :
    (r.take p numbers).Covered := by
  intro n hn
  unfold Reservation.take
  rw [List.filter_eq_self.2 fun o ho => decide_eq_true (hp o ho), List.flatMap_cons, List.mem_append]
  rcases Finset.mem_union.1 hn with hn | hn
  · exact .inr (h n hn)
  · exact .inl (List.mem_toFinset.1 hn)

theorem Covered.strike (h : r.Covered) (n : ℕ) : (r.strike n).Covered := by
  intro m hm
  exact h m (Finset.mem_of_mem_erase hm)

/-! ## What owners keep -/

/-- A condition that is kept as long as owners only give back what they took, and take what is free. -/
structure Kept [DecidableEq ι] (Q : Reservation ι → Prop) : Prop where
  release : ∀ r P, Q r → Q (Reservation.release P r)
  take : ∀ r p numbers, Q r → (∀ o ∈ r.owners, o.1 ≠ p) → numbers ≠ [] → numbers.Nodup →
    (∀ n ∈ numbers, n ∉ r.taken) → Q (Reservation.take p numbers r)

theorem kept_inStep [DecidableEq ι] : Kept (InStep : Reservation ι → Prop) where
  release _ P h := h.release P
  take _ _ _ h hp hne hnodup hfree := h.take hp hne hnodup hfree

theorem kept_covered [DecidableEq ι] : Kept (Covered : Reservation ι → Prop) where
  release _ P h := h.release P
  take _ _ numbers h hp _ _ _ := h.take numbers hp

end Reservation
