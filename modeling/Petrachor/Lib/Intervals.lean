import Mathlib.Data.Finset.Sort
import Mathlib.Order.Interval.Finset.Nat
import Mathlib.Tactic
import Petrachor.Lib.SortedMap

/-!
# Families of intervals

A set of points kept as a map from the start of each of its intervals to the end of it, which is left out. The map is
in order, no interval is empty and between two of them there is a gap, so that a set has one such map.
-/

namespace Intervals

section Order

variable {α : Type*} [LinearOrder α]

/-- The point is in one of the intervals. -/
def Covers (l : List (α × α)) (n : α) : Prop := ∃ e ∈ l, e.1 ≤ n ∧ n < e.2

/-- The intervals are in order, none is empty, and no two of them touch. -/
structure Separated (l : List (α × α)) : Prop where
  ascending : SortedMap.Ascending l
  lt : ∀ e ∈ l, e.1 < e.2
  gap : ∀ e ∈ l, ∀ f ∈ l, e.1 < f.1 → e.2 < f.1

/-- All intervals lie between two points. -/
def Inside (g : α × α) (l : List (α × α)) : Prop := ∀ e ∈ l, g.1 ≤ e.1 ∧ e.2 ≤ g.2

/-- The first interval that starts after the point. -/
def after (i : α) (l : List (α × α)) : Option (α × α) := l.find? fun e => i < e.1

/-- The last interval that does not. -/
def before (i : α) (l : List (α × α)) : Option (α × α) := (l.filter fun e => e.1 ≤ i).getLast?

variable {l m : List (α × α)} {e f g : α × α} {a b i n : α}

theorem Separated.nil : Separated ([] : List (α × α)) where
  ascending := SortedMap.ascending_nil
  lt _ he := absurd he List.not_mem_nil
  gap _ he := absurd he List.not_mem_nil

@[simp] theorem not_covers_nil : ¬ Covers ([] : List (α × α)) n := by
  rintro ⟨e, he, -⟩
  exact List.not_mem_nil he

theorem covers_cons : Covers (e :: l) n ↔ (e.1 ≤ n ∧ n < e.2) ∨ Covers l n := by
  constructor
  · rintro ⟨f, hf, hn⟩
    rcases List.mem_cons.1 hf with rfl | hf
    · exact .inl hn
    · exact .inr ⟨f, hf, hn⟩
  · rintro (hn | ⟨f, hf, hn⟩)
    · exact ⟨e, List.mem_cons_self, hn⟩
    · exact ⟨f, List.mem_cons_of_mem _ hf, hn⟩

theorem separated_cons : Separated (e :: l) ↔ e.1 < e.2 ∧ (∀ f ∈ l, e.2 < f.1) ∧ Separated l := by
  constructor
  · intro h
    obtain ⟨he, hl⟩ := SortedMap.ascending_cons.1 h.ascending
    refine ⟨h.lt e List.mem_cons_self, fun f hf => ?_, hl, fun f hf => ?_, fun f hf f' hf' => ?_⟩
    · exact h.gap e List.mem_cons_self f (List.mem_cons_of_mem _ hf) (he f hf)
    · exact h.lt f (List.mem_cons_of_mem _ hf)
    · exact h.gap f (List.mem_cons_of_mem _ hf) f' (List.mem_cons_of_mem _ hf')
  · rintro ⟨hlt, hgap, hl⟩
    refine ⟨SortedMap.ascending_cons.2 ⟨fun f hf => hlt.trans (hgap f hf), hl.ascending⟩, fun f hf => ?_, ?_⟩
    · rcases List.mem_cons.1 hf with rfl | hf
      · exact hlt
      · exact hl.lt f hf
    · intro f hf f' hf' hff
      rcases List.mem_cons.1 hf with rfl | hfl
      · rcases List.mem_cons.1 hf' with rfl | hfl'
        · exact absurd hff (lt_irrefl _)
        · exact hgap f' hfl'
      · rcases List.mem_cons.1 hf' with rfl | hfl'
        · have hback : f'.1 < f.1 := hlt.trans (hgap f hfl)
          exact absurd (hff.trans hback) (lt_irrefl _)
        · exact hl.gap f hfl f' hfl' hff

theorem inside_cons : Inside g (e :: l) ↔ (g.1 ≤ e.1 ∧ e.2 ≤ g.2) ∧ Inside g l := List.forall_mem_cons

theorem Inside.covers (h : Inside g l) (hn : Covers l n) : g.1 ≤ n ∧ n < g.2 := by
  obtain ⟨e, he, h1, h2⟩ := hn
  exact ⟨(h e he).1.trans h1, h2.trans_le (h e he).2⟩

/-! ### Neighbours -/

theorem after_eq_some (hl : SortedMap.Ascending l) (h : after i l = some e) :
    e ∈ l ∧ i < e.1 ∧ ∀ f ∈ l, f.1 ≤ i ∨ e.1 ≤ f.1 := by
  obtain ⟨hi, as, bs, rfl, has⟩ := List.find?_eq_some_iff_append.1 h
  refine ⟨by simp, by simpa using hi, fun f hf => ?_⟩
  rcases List.mem_append.1 hf with hf | hf
  · exact .inl (by simpa using has f hf)
  · rcases List.mem_cons.1 hf with rfl | hf
    · exact .inr le_rfl
    · unfold SortedMap.Ascending at hl
      rw [List.map_append, List.pairwise_append] at hl
      have htail := (SortedMap.ascending_cons.1 hl.2.1).1
      exact .inr (htail f hf).le

theorem after_eq_none (h : after i l = none) : ∀ f ∈ l, f.1 ≤ i := by
  intro f hf
  have hnot := List.find?_eq_none.1 h f hf
  simpa using hnot

theorem before_eq_some (hl : SortedMap.Ascending l) (h : before i l = some e) :
    e ∈ l ∧ e.1 ≤ i ∧ ∀ f ∈ l, i < f.1 ∨ f.1 ≤ e.1 := by
  have hmem := List.mem_filter.1 (List.mem_of_getLast? h)
  refine ⟨hmem.1, by simpa using hmem.2, fun f hf => ?_⟩
  by_cases hfi : f.1 ≤ i
  · have hasc : SortedMap.Ascending (l.filter fun e => e.1 ≤ i) :=
      List.Pairwise.sublist (List.filter_sublist.map Prod.fst) hl
    exact .inr (hasc.le_getLast h (List.mem_filter.2 ⟨hf, by simpa using hfi⟩))
  · exact .inl (not_le.1 hfi)

theorem before_eq_none (h : before i l = none) : ∀ f ∈ l, i < f.1 := by
  intro f hf
  by_contra hfi
  have hmem : f ∈ l.filter fun e => e.1 ≤ i := List.mem_filter.2 ⟨hf, by simpa using hfi⟩
  rw [List.getLast?_eq_none_iff.1 h] at hmem
  exact List.not_mem_nil hmem

/-! ### One interval put in the place of those it meets -/

/-- `m` is `l` with `[a, b)` in the place of the intervals that meet or touch it. -/
structure Absorbs (a b : α) (l m : List (α × α)) : Prop where
  ascending : SortedMap.Ascending m
  mem : ∀ e, e ∈ m ↔ e = (a, b) ∨ e ∈ l ∧ (e.2 < a ∨ b < e.1)
  lt : a < b
  within : ∀ e ∈ l, e.2 < a ∨ b < e.1 ∨ a ≤ e.1 ∧ e.2 ≤ b

theorem Absorbs.separated (h : Absorbs a b l m) (hl : Separated l) : Separated m := by
  refine ⟨h.ascending, fun e he => ?_, fun e he f hf hlt => ?_⟩
  · rcases (h.mem e).1 he with rfl | ⟨he, -⟩
    · exact h.lt
    · exact hl.lt e he
  · rcases (h.mem e).1 he with rfl | ⟨he, hea⟩
    · rcases (h.mem f).1 hf with rfl | ⟨hf, hfa⟩
      · exact absurd hlt (lt_irrefl _)
      · have hfl := hl.lt f hf
        rcases hfa with hfa | hfa
        · exact absurd (hlt.trans (hfl.trans hfa)) (lt_irrefl _)
        · exact hfa
    · rcases (h.mem f).1 hf with rfl | ⟨hf, -⟩
      · rcases hea with hea | hea
        · exact hea
        · exact absurd (hlt.trans (h.lt.trans hea)) (lt_irrefl _)
      · exact hl.gap e he f hf hlt

theorem Absorbs.covers (h : Absorbs a b l m) : Covers m n ↔ Covers l n ∨ (a ≤ n ∧ n < b) := by
  constructor
  · rintro ⟨e, he, hn⟩
    rcases (h.mem e).1 he with rfl | ⟨he, -⟩
    · exact .inr hn
    · exact .inl ⟨e, he, hn⟩
  · rintro (⟨e, he, hn⟩ | hn)
    · have hkept : e.2 < a ∨ b < e.1 → Covers m n := fun hea => ⟨e, (h.mem e).2 (.inr ⟨he, hea⟩), hn⟩
      rcases h.within e he with hea | hea | hea
      · exact hkept (.inl hea)
      · exact hkept (.inr hea)
      · exact ⟨(a, b), (h.mem _).2 (.inl rfl), hea.1.trans hn.1, hn.2.trans_le hea.2⟩
    · exact ⟨(a, b), (h.mem _).2 (.inl rfl), hn⟩

theorem Absorbs.inside (h : Absorbs a b l m) (hl : Inside g l) (ha : g.1 ≤ a) (hb : b ≤ g.2) : Inside g m := by
  intro e he
  rcases (h.mem e).1 he with rfl | ⟨he, -⟩
  · exact ⟨ha, hb⟩
  · exact hl e he

/-- One entry was written, over the interval that starts where it does if there is one. -/
theorem Separated.absorbs_set (hl : Separated l) (hab : a < b)
    (h : ∀ e ∈ l, e.1 = a ∧ e.2 ≤ b ∨ e.1 ≠ a ∧ (e.2 < a ∨ b < e.1)) : Absorbs a b l (SortedMap.set a b l) where
  ascending := hl.ascending.set a b
  lt := hab
  mem e := by
    rw [SortedMap.mem_set hl.ascending]
    constructor
    · rintro (rfl | ⟨he, hne⟩)
      · exact .inl rfl
      · rcases h e he with ⟨heq, -⟩ | ⟨-, hout⟩
        · exact absurd heq hne
        · exact .inr ⟨he, hout⟩
    · rintro (rfl | ⟨he, hout⟩)
      · exact .inl rfl
      · refine .inr ⟨he, ?_⟩
        rintro rfl
        rcases hout with hout | hout
        · exact absurd ((hl.lt e he).trans hout) (lt_irrefl _)
        · exact absurd (hab.trans hout) (lt_irrefl _)
  within e he := by
    rcases h e he with ⟨rfl, hle⟩ | ⟨-, hout | hout⟩
    · exact .inr (.inr ⟨le_rfl, hle⟩)
    · exact .inl hout
    · exact .inr (.inl hout)

/-- Two intervals were joined: the end of the second was written to the entry of the first, or to a new one. -/
theorem Separated.absorbs_set_erase (hl : Separated l) (hf : f ∈ l) (haf : a < f.1)
    (h : ∀ e ∈ l, e.1 = a ∧ e.2 ≤ f.2 ∨ e.1 = f.1 ∨ e.1 ≠ a ∧ e.1 ≠ f.1 ∧ (e.2 < a ∨ f.2 < e.1)) :
    Absorbs a f.2 l (SortedMap.erase f.1 (SortedMap.set a f.2 l)) where
  ascending := (hl.ascending.set a f.2).erase f.1
  lt := haf.trans (hl.lt f hf)
  mem e := by
    rw [SortedMap.mem_erase, SortedMap.mem_set hl.ascending]
    constructor
    · rintro ⟨rfl | ⟨he, hne⟩, hnf⟩
      · exact .inl rfl
      · rcases h e he with ⟨heq, -⟩ | heq | ⟨-, -, hout⟩
        · exact absurd heq hne
        · exact absurd heq hnf
        · exact .inr ⟨he, hout⟩
    · rintro (rfl | ⟨he, hout⟩)
      · exact ⟨.inl rfl, haf.ne⟩
      · have hlt := hl.lt e he
        refine ⟨.inr ⟨he, ?_⟩, ?_⟩
        · rintro rfl
          rcases hout with hout | hout
          · exact absurd (hlt.trans hout) (lt_irrefl _)
          · exact absurd ((haf.trans (hl.lt f hf)).trans hout) (lt_irrefl _)
        · intro heq
          rcases hout with hout | hout
          · exact absurd ((hlt.trans hout).trans haf) (heq ▸ lt_irrefl _)
          · exact absurd ((hl.lt f hf).trans hout) (heq ▸ lt_irrefl _)
  within e he := by
    rcases h e he with ⟨rfl, hle⟩ | heq | ⟨-, -, hout | hout⟩
    · exact .inr (.inr ⟨le_rfl, hle⟩)
    · obtain rfl := hl.ascending.eq_of_fst he hf heq
      exact .inr (.inr ⟨haf.le, le_rfl⟩)
    · exact .inl hout
    · exact .inr (.inl hout)

/-! ### What is left between two points -/

/-- The intervals from `a` on and up to `b` that the family leaves out. -/
def gaps (a b : α) : List (α × α) → List (α × α)
  | [] => if a ≠ b then [(a, b)] else []
  | e :: l => if e.1 ≠ a then (a, e.1) :: gaps e.2 b l else gaps e.2 b l

theorem gaps_spec (hl : Separated l) (hin : Inside (a, b) l) (hab : a ≤ b) :
    Separated (gaps a b l) ∧ Inside (a, b) (gaps a b l) ∧
      ∀ n, Covers (gaps a b l) n ↔ (a ≤ n ∧ n < b) ∧ ¬ Covers l n := by
  induction l generalizing a with
  | nil =>
    unfold gaps
    split
    · rename_i hne
      refine ⟨separated_cons.2 ⟨lt_of_le_of_ne hab hne, by simp, .nil⟩, by simp [Inside], fun n => ?_⟩
      rw [covers_cons]
      simp
    · rename_i heq
      obtain rfl := not_not.1 heq
      refine ⟨.nil, by simp [Inside], fun n => ?_⟩
      have hnot : ¬ (a ≤ n ∧ n < a) := fun h => absurd (h.1.trans_lt h.2) (lt_irrefl _)
      simp [hnot]
  | cons e l ih =>
    obtain ⟨hlt, hgap, hl⟩ := separated_cons.1 hl
    obtain ⟨⟨hae, heb⟩, hin⟩ := inside_cons.1 hin
    obtain ⟨hsep, hins, hcov⟩ := ih (a := e.2) hl (fun f hf => ⟨(hgap f hf).le, (hin f hf).2⟩) heb
    have hrest : ∀ n, ¬ (a ≤ n ∧ n < e.1) → (Covers (gaps e.2 b l) n ↔ (a ≤ n ∧ n < b) ∧ ¬ Covers (e :: l) n) := by
      intro n hn
      rw [hcov, covers_cons]
      constructor
      · rintro ⟨⟨h1, h2⟩, h3⟩
        refine ⟨⟨(hae.trans hlt.le).trans h1, h2⟩, ?_⟩
        rintro (⟨-, h4⟩ | h4)
        · exact absurd (h1.trans_lt h4) (lt_irrefl _)
        · exact h3 h4
      · rintro ⟨⟨h1, h2⟩, h3⟩
        refine ⟨⟨?_, h2⟩, fun h4 => h3 (.inr h4)⟩
        by_contra h4
        exact h3 (.inl ⟨not_lt.1 fun h5 => hn ⟨h1, h5⟩, not_le.1 h4⟩)
    unfold gaps
    split
    · rename_i hne
      have hlow : a < e.1 := lt_of_le_of_ne hae (Ne.symm hne)
      refine ⟨separated_cons.2 ⟨hlow, fun f hf => hlt.trans_le (hins f hf).1, hsep⟩, ?_, fun n => ?_⟩
      · refine inside_cons.2 ⟨⟨le_rfl, hlt.le.trans heb⟩, fun f hf => ?_⟩
        exact ⟨(hae.trans hlt.le).trans (hins f hf).1, (hins f hf).2⟩
      · rw [covers_cons]
        by_cases hn : a ≤ n ∧ n < e.1
        · refine ⟨fun _ => ⟨⟨hn.1, hn.2.trans_le (hlt.le.trans heb)⟩, ?_⟩, fun _ => .inl hn⟩
          rw [covers_cons]
          rintro (⟨h1, -⟩ | ⟨f, hf, h1, -⟩)
          · exact absurd (h1.trans_lt hn.2) (lt_irrefl _)
          · exact absurd ((hlt.trans (hgap f hf)).trans_le h1) hn.2.not_gt
        · rw [← hrest n hn]
          exact ⟨fun h => h.resolve_left hn, .inr⟩
    · rename_i heq
      have heq := not_not.1 heq
      refine ⟨hsep, fun f hf => ⟨(hae.trans hlt.le).trans (hins f hf).1, (hins f hf).2⟩, fun n => ?_⟩
      exact hrest n fun h => absurd (h.1.trans_lt h.2) (heq ▸ lt_irrefl _)

end Order

/-! ### Counting -/

section Points

variable {l : List (ℕ × ℕ)} {e g : ℕ × ℕ} {n k t stop : ℕ}

/-- The points of the intervals, in their order. -/
def points (l : List (ℕ × ℕ)) : List ℕ := l.flatMap fun e => List.range' e.1 (e.2 - e.1)

theorem points_cons : points (e :: l) = List.range' e.1 (e.2 - e.1) ++ points l := List.flatMap_cons

theorem mem_points : n ∈ points l ↔ Covers l n := by
  unfold points Covers
  rw [List.mem_flatMap]
  refine exists_congr fun e => and_congr_right fun _ => ?_
  rw [List.mem_range'_1]
  omega

theorem Separated.pairwise_points (h : Separated l) : (points l).Pairwise (· < ·) := by
  induction l with
  | nil => exact List.Pairwise.nil
  | cons e l ih =>
    obtain ⟨hlt, hgap, hl⟩ := separated_cons.1 h
    rw [points_cons, List.pairwise_append]
    refine ⟨List.pairwise_lt_range', ih hl, fun n hn n' hn' => ?_⟩
    obtain ⟨f, hf, h1, -⟩ := mem_points.1 hn'
    have hef := hgap f hf
    rw [List.mem_range'_1] at hn
    omega

/-- The points, listed as the elements of a finite set are. -/
theorem Separated.sort_points (h : Separated l) : (points l).toFinset.sort (· ≤ ·) = points l := by
  have hnodup : (points l).Nodup := h.pairwise_points.imp fun hlt => hlt.ne
  exact (List.toFinset_sort _ hnodup).2 (h.pairwise_points.imp fun hlt => hlt.le)

/-- The intervals of the first `k` points. -/
def firstPoints : ℕ → List (ℕ × ℕ) → List (ℕ × ℕ)
  | _, [] => []
  | k, e :: l =>
    if k = 0 then [] else (e.1, min (e.1 + k) e.2) :: firstPoints (k - (min (e.1 + k) e.2 - e.1)) l

theorem mem_firstPoints (he : e ∈ firstPoints k l) : ∃ f ∈ l, f.1 = e.1 ∧ e.2 ≤ f.2 := by
  induction l generalizing k with
  | nil => exact absurd he List.not_mem_nil
  | cons f l ih =>
    unfold firstPoints at he
    split at he
    · exact absurd he List.not_mem_nil
    · rcases List.mem_cons.1 he with rfl | he
      · exact ⟨f, List.mem_cons_self, rfl, min_le_right _ _⟩
      · obtain ⟨f', hf', h⟩ := ih he
        exact ⟨f', List.mem_cons_of_mem _ hf', h⟩

theorem Separated.firstPoints (h : Separated l) (k : ℕ) : Separated (firstPoints k l) := by
  induction l generalizing k with
  | nil => exact .nil
  | cons e l ih =>
    obtain ⟨hlt, hgap, hl⟩ := separated_cons.1 h
    unfold Intervals.firstPoints
    split
    · exact .nil
    · refine separated_cons.2 ⟨by show e.1 < min (e.1 + k) e.2; omega, fun f hf => ?_, ih hl _⟩
      obtain ⟨f', hf', heq, -⟩ := mem_firstPoints hf
      have := hgap f' hf'
      show min (e.1 + k) e.2 < f.1
      omega

theorem Inside.firstPoints (h : Inside g l) (k : ℕ) : Inside g (firstPoints k l) := by
  intro e he
  obtain ⟨f, hf, heq, hle⟩ := mem_firstPoints he
  exact ⟨heq ▸ (h f hf).1, hle.trans (h f hf).2⟩

theorem points_firstPoints (h : Separated l) (k : ℕ) : points (firstPoints k l) = (points l).take k := by
  induction l generalizing k with
  | nil => exact (List.take_nil).symm
  | cons e l ih =>
    obtain ⟨hlt, -, hl⟩ := separated_cons.1 h
    unfold firstPoints
    split
    · rename_i hk
      rw [hk, List.take_zero]
      rfl
    · rw [points_cons, ih hl, points_cons, List.take_append, List.length_range']
      rcases le_total (e.1 + k) e.2 with hle | hle
      · have hk : k - (min (e.1 + k) e.2 - e.1) = 0 := by omega
        have hk' : k - (e.2 - e.1) = 0 := by omega
        have hlen : min (e.1 + k) e.2 - e.1 = k := by omega
        rw [hk, hk', List.take_zero, List.take_range'_of_length_ge (by omega)]
        show List.range' e.1 (min (e.1 + k) e.2 - e.1) ++ [] = _
        rw [hlen]
      · have hk : k - (min (e.1 + k) e.2 - e.1) = k - (e.2 - e.1) := by omega
        have hlen : min (e.1 + k) e.2 - e.1 = e.2 - e.1 := by omega
        rw [hk, List.take_range'_of_length_le (by omega)]
        show List.range' e.1 (min (e.1 + k) e.2 - e.1) ++ _ = _
        rw [hlen]

/-- The first of the points that is past `t`. -/
theorem Separated.find_points (h : Separated l) (hn : Covers l n) (htn : t < n)
    (hleast : ∀ m, Covers l m → t < m → n ≤ m) : (points l).find? (fun m => t < m) = some n := by
  obtain ⟨as, bs, heq⟩ := List.append_of_mem (mem_points.2 hn)
  refine List.find?_eq_some_iff_append.2 ⟨by simpa using htn, as, bs, heq, fun a ha => ?_⟩
  have hpair := h.pairwise_points
  rw [heq, List.pairwise_append] at hpair
  have hlt : a < n := hpair.2.2 a ha n List.mem_cons_self
  have hmem : a ∈ points l := heq ▸ List.mem_append_left _ ha
  have hta : ¬ t < a := fun hta => absurd (hleast a (mem_points.1 hmem) hta) (not_le.2 hlt)
  simpa using hta

/-- The search that looks at the interval before the next number and at the one after it. -/
theorem Separated.next_spec (h : Separated l) :
    (if ∃ e, before (t + 1) l = some e ∧ t + 1 < e.2 then t + 1
      else ((after (t + 1) l).map Prod.fst).getD stop) = ((points l).find? fun m => t < m).getD stop := by
  split
  · rename_i hbefore
    obtain ⟨e, he, hlt⟩ := hbefore
    obtain ⟨hmem, hle, -⟩ := before_eq_some h.ascending he
    rw [h.find_points ⟨e, hmem, hle, hlt⟩ (Nat.lt_succ_self t) fun m _ htm => htm]
    rfl
  · rename_i hbefore
    -- nothing covers the next number, so that an interval past it is the next to be met
    have hpast : ∀ f ∈ l, f.1 ≤ t + 1 → f.2 ≤ t + 1 := by
      intro f hf hfle
      by_contra hcon
      cases hb : before (t + 1) l with
      | none => exact absurd (before_eq_none hb f hf) (not_lt.2 hfle)
      | some e =>
        obtain ⟨hmem, hle, hlast⟩ := before_eq_some h.ascending hb
        have hfe : f.1 ≤ e.1 := (hlast f hf).resolve_left (not_lt.2 hfle)
        have hend : ¬ t + 1 < e.2 := fun hlt => hbefore ⟨e, hb, hlt⟩
        rcases hfe.lt_or_eq with hfe | hfe
        · have := h.gap f hf e hmem hfe
          omega
        · obtain rfl := h.ascending.eq_of_fst hf hmem hfe
          omega
    cases ha : after (t + 1) l with
    | none =>
      have hnone : (points l).find? (fun m => t < m) = none := by
        refine List.find?_eq_none.2 fun m hm => ?_
        obtain ⟨f, hf, hfm, hmf⟩ := mem_points.1 hm
        have := hpast f hf (after_eq_none ha f hf)
        have hle : ¬ t < m := by omega
        simpa using hle
      rw [hnone]
      rfl
    | some e =>
      obtain ⟨hmem, hlt, hfirst⟩ := after_eq_some h.ascending ha
      have hleast : ∀ m, Covers l m → t < m → e.1 ≤ m := by
        rintro m ⟨f, hf, hfm, hmf⟩ htm
        rcases hfirst f hf with hfle | hfle
        · have := hpast f hf hfle
          omega
        · exact hfle.trans hfm
      rw [h.find_points ⟨e, hmem, le_rfl, h.lt e hmem⟩ (by omega) hleast]
      rfl

end Points

end Intervals
