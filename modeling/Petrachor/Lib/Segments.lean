import Mathlib.Data.List.Forall2

/-!
# Items kept in segments

Items with consecutive numbers are kept together, under the number of the first of them. `Holds` is what is
kept; it does not depend on how the items are divided into segments.
-/

namespace Segments

variable {α : Type*} {l m : List (ℕ × List α)} {e f : ℕ × List α} {n k top : ℕ} {x y : α}

def Holds (l : List (ℕ × List α)) (n : ℕ) (x : α) : Prop := ∃ e ∈ l, ∃ i, n = e.1 + i ∧ e.2[i]? = some x

/-- The segments follow each other without overlap and end by `top`; none is empty. -/
structure Apart (top : ℕ) (l : List (ℕ × List α)) : Prop where
  pairwise : l.Pairwise fun e f => e.1 + e.2.length ≤ f.1
  nonempty : ∀ e ∈ l, e.2 ≠ []
  end_le : ∀ e ∈ l, e.1 + e.2.length ≤ top

/-- At least one number is between two segments. -/
structure Spaced (top : ℕ) (l : List (ℕ × List α)) : Prop extends Apart top l where
  gap : l.Pairwise fun e f => e.1 + e.2.length < f.1

/-- A segment that lost items at its end. -/
def Shorter (e f : ℕ × List α) : Prop := e.1 = f.1 ∧ e.2 <+: f.2 ∧ e.2 ≠ []

/-- Some segments are left, each whole or without the items at its end. -/
abbrev Cut (l m : List (ℕ × List α)) : Prop := List.SublistForall₂ Shorter l m

/-! ## What is kept -/

theorem holds_nil : ¬Holds ([] : List (ℕ × List α)) n x := by
  rintro ⟨e, he, -⟩
  cases he

theorem holds_append : Holds (l ++ m) n x ↔ Holds l n x ∨ Holds m n x := by
  constructor
  · rintro ⟨e, he, h⟩
    rcases List.mem_append.1 he with he | he
    · exact .inl ⟨e, he, h⟩
    · exact .inr ⟨e, he, h⟩
  · rintro (⟨e, he, h⟩ | ⟨e, he, h⟩)
    · exact ⟨e, List.mem_append_left _ he, h⟩
    · exact ⟨e, List.mem_append_right _ he, h⟩

theorem holds_cons : Holds (e :: l) n x ↔ Holds [e] n x ∨ Holds l n x := by
  rw [← List.singleton_append, holds_append]

theorem holds_singleton : Holds [e] n x ↔ ∃ i, n = e.1 + i ∧ e.2[i]? = some x := by
  constructor
  · rintro ⟨f, hf, h⟩
    rw [List.mem_singleton] at hf
    exact hf ▸ h
  · exact fun h => ⟨e, List.mem_singleton_self e, h⟩

/-- A segment that ends where the next one starts makes one segment with it. -/
theorem holds_glue {v w : List α} :
    Holds [(k, v ++ w)] n x ↔ Holds [(k, v)] n x ∨ Holds [(k + v.length, w)] n x := by
  simp only [holds_singleton]
  constructor
  · rintro ⟨i, hn, hi⟩
    rcases Nat.lt_or_ge i v.length with hlt | hge
    · exact .inl ⟨i, hn, by rwa [List.getElem?_append_left hlt] at hi⟩
    · refine .inr ⟨i - v.length, by omega, ?_⟩
      rwa [List.getElem?_append_right hge] at hi
  · rintro (⟨i, hn, hi⟩ | ⟨i, hn, hi⟩)
    · refine ⟨i, hn, ?_⟩
      rw [List.getElem?_append_left (List.getElem?_eq_some_iff.1 hi).1]
      exact hi
    · refine ⟨v.length + i, by omega, ?_⟩
      rw [List.getElem?_append_right (by omega), Nat.add_sub_cancel_left]
      exact hi

theorem holds_one : Holds [(k, [x])] n y ↔ n = k ∧ y = x := by
  rw [holds_singleton]
  constructor
  · rintro ⟨i, hn, hi⟩
    cases i with
    | zero => exact ⟨hn, (Option.some.inj hi).symm⟩
    | succ i => cases hi
  · rintro ⟨rfl, rfl⟩
    exact ⟨0, rfl, rfl⟩

/-! ## Fewer items -/

theorem Shorter.refl (h : e.2 ≠ []) : Shorter e e := ⟨rfl, List.prefix_rfl, h⟩

theorem Cut.exists_mem (h : Cut l m) (he : e ∈ l) : ∃ f ∈ m, Shorter e f := by
  induction h with
  | nil => cases he
  | cons hshort _ ih =>
    rcases List.mem_cons.1 he with rfl | he
    · exact ⟨_, List.mem_cons_self, hshort⟩
    · obtain ⟨f, hf, hef⟩ := ih he
      exact ⟨f, List.mem_cons_of_mem _ hf, hef⟩
  | cons_right _ ih =>
    obtain ⟨f, hf, hef⟩ := ih he
    exact ⟨f, List.mem_cons_of_mem _ hf, hef⟩

/-- Segments that are cut short stay as far from each other. -/
theorem Cut.pairwise {d : ℕ} (h : Cut l m) (hm : m.Pairwise fun e f => e.1 + e.2.length + d ≤ f.1) :
    l.Pairwise fun e f => e.1 + e.2.length + d ≤ f.1 := by
  induction h with
  | nil => exact List.Pairwise.nil
  | @cons e f l m hshort hrest ih =>
    obtain ⟨hhead, htail⟩ := List.pairwise_cons.1 hm
    refine List.pairwise_cons.2 ⟨?_, ih htail⟩
    intro e' he'
    obtain ⟨f', hf', hfst, -⟩ := Cut.exists_mem hrest he'
    have hle := hhead f' hf'
    have hlen := hshort.2.1.length_le
    have := hshort.1
    omega
  | cons_right _ ih => exact ih (List.pairwise_cons.1 hm).2

theorem Apart.cut (hm : Apart top m) (h : Cut l m) : Apart top l := by
  refine ⟨h.pairwise (d := 0) hm.pairwise, ?_, ?_⟩
  · intro e he
    obtain ⟨f, -, hshort⟩ := h.exists_mem he
    exact hshort.2.2
  · intro e he
    obtain ⟨f, hf, hfst, hprefix, -⟩ := h.exists_mem he
    have hend := hm.end_le f hf
    have hlen := hprefix.length_le
    omega

theorem Spaced.cut (hm : Spaced top m) (h : Cut l m) : Spaced top l :=
  ⟨hm.toApart.cut h, h.pairwise (d := 1) hm.gap⟩

theorem cut_refl (h : ∀ e ∈ l, e.2 ≠ []) : Cut l l := by
  induction l with
  | nil => exact .nil
  | cons e l ih =>
    exact .cons (Shorter.refl (h e List.mem_cons_self)) (ih fun f hf => h f (List.mem_cons_of_mem _ hf))

theorem Cut.append {l' m' : List (ℕ × List α)} (h : Cut l m) (h' : Cut l' m') : Cut (l ++ l') (m ++ m') := by
  induction h with
  | @nil m =>
    induction m with
    | nil => exact h'
    | cons e m ih => exact .cons_right ih
  | cons hshort _ ih => exact .cons hshort ih
  | cons_right _ ih => exact .cons_right ih

theorem Cut.of_sublist (h : l.Sublist m) (hm : ∀ e ∈ m, e.2 ≠ []) : Cut l m := by
  induction h with
  | slnil => exact .nil
  | cons e _ ih => exact .cons_right (ih fun f hf => hm f (List.mem_cons_of_mem _ hf))
  | cons_cons e _ ih =>
    exact .cons (Shorter.refl (hm e List.mem_cons_self)) (ih fun f hf => hm f (List.mem_cons_of_mem _ hf))

/-! ## Which segments may have an item -/

theorem Apart.sublist (hm : Apart top m) (h : l.Sublist m) : Apart top l := hm.cut (Cut.of_sublist h hm.nonempty)

/-- What is before a segment ends by its start, and what is behind it starts from its end on. -/
theorem Apart.exists_split (h : Apart top l) (he : e ∈ l) : ∃ s t, l = s ++ e :: t ∧
    (∀ f ∈ s, f.1 + f.2.length ≤ e.1) ∧ ∀ f ∈ t, e.1 + e.2.length ≤ f.1 := by
  obtain ⟨s, t, rfl⟩ := List.append_of_mem he
  obtain ⟨-, hright, hcross⟩ := List.pairwise_append.1 h.pairwise
  refine ⟨s, t, rfl, ?_, (List.pairwise_cons.1 hright).1⟩
  intro f hf
  exact hcross f hf e List.mem_cons_self

/-- Only one segment has the number. -/
theorem Apart.eq_of_has (h : Apart top l) (he : e ∈ l) (hf : f ∈ l) (hen : e.1 ≤ n ∧ n < e.1 + e.2.length)
    (hfn : f.1 ≤ n ∧ n < f.1 + f.2.length) : e = f := by
  obtain ⟨s, t, rfl, hs, ht⟩ := h.exists_split he
  rcases List.mem_append.1 hf with hf | hf
  · have := hs f hf
    omega
  · rcases List.mem_cons.1 hf with rfl | hf
    · rfl
    · have := ht f hf
      omega

/-- An item next to another one is in the same segment. -/
theorem Spaced.same_segment (h : Spaced top l) (he : e ∈ l) (hn : e.1 ≤ n ∧ n < e.1 + e.2.length)
    (hnext : Holds l (n + 1) x) : n + 1 < e.1 + e.2.length := by
  obtain ⟨f, hf, j, hj, hx⟩ := hnext
  have hjlt := (List.getElem?_eq_some_iff.1 hx).1
  by_contra hend
  obtain ⟨s, t, rfl⟩ := List.append_of_mem he
  obtain ⟨-, hright, hcross⟩ := List.pairwise_append.1 h.gap
  rcases List.mem_append.1 hf with hf | hf
  · have := hcross f hf e List.mem_cons_self
    omega
  · rcases List.mem_cons.1 hf with rfl | hf
    · omega
    · have := (List.pairwise_cons.1 hright).1 f hf
      omega

end Segments
