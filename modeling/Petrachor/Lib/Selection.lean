import Petrachor.Lib.SortedMap

/-!
# The nearest items

Items are collected by a key, as lists in the order of the keys, and the first of them are taken. What is taken are
the nearest items of all exactly if for each item that was not collected enough of those that were are as near.
-/

namespace Selection

variable {κ α : Type*} [LinearOrder κ]

open SortedMap

/-- An item is put behind those with its key. -/
def push (k : κ) (x : α) (m : List (κ × List α)) : List (κ × List α) := set k ((m.lookup k).getD [] ++ [x]) m

/-- The items of the list are in the map, each under its key. -/
structure Collects (key : α → κ) (m : List (κ × List α)) (l : List α) : Prop where
  ascending : Ascending m
  keyed : ∀ e ∈ m, ∀ x ∈ e.2, key x = e.1
  perm : (m.flatMap Prod.snd).Perm l

/-- So many items of a list, or all of them, that none of those left out is nearer than one of them. -/
def Nearest (key : α → κ) (k : ℕ) (all l : List α) : Prop :=
  ∃ left, (l ++ left).Perm all ∧ l.length = min k all.length ∧ ∀ x ∈ l, ∀ y ∈ left, key x ≤ key y

variable {key : α → κ} {m : List (κ × List α)} {l rest all : List α} {k : κ} {n : ℕ} {x : α}

theorem collects_nil : Collects key ([] : List (κ × List α)) [] := by
  refine ⟨ascending_nil, ?_, List.Perm.refl _⟩
  intro e he
  cases he

theorem Collects.congr {l' : List α} (h : Collects key m l) (hl : l.Perm l') : Collects key m l' :=
  ⟨h.ascending, h.keyed, h.perm.trans hl⟩

theorem perm_push (h : Ascending m) (k : κ) (x : α) :
    ((push k x m).flatMap Prod.snd).Perm (m.flatMap Prod.snd ++ [x]) := by
  unfold push
  induction m with
  | nil => exact List.Perm.refl _
  | cons e m ih =>
    obtain ⟨he, hm⟩ := ascending_cons.1 h
    rw [List.lookup_cons, SortedMap.set]
    rcases lt_trichotomy k e.1 with hlt | rfl | hgt
    · have hnone : m.lookup k = none := by
        rw [List.lookup_eq_none_iff]
        intro y hy
        exact bne_iff_ne.2 (hlt.trans (he y hy)).ne
      rw [beq_eq_false_iff_ne.2 hlt.ne, if_pos hlt, hnone]
      exact List.perm_append_comm
    · rw [beq_self_eq_true, if_neg (lt_irrefl _), if_pos rfl, List.flatMap_cons, List.flatMap_cons]
      dsimp only [Option.getD_some]
      rw [List.append_assoc, List.append_assoc]
      exact List.Perm.append_left _ List.perm_append_comm
    · rw [beq_eq_false_iff_ne.2 hgt.ne', if_neg hgt.not_gt, if_neg hgt.ne', List.flatMap_cons, List.flatMap_cons,
        List.append_assoc]
      exact (ih hm).append_left _

theorem Collects.push (h : Collects key m l) (x : α) : Collects key (push (key x) x m) (l ++ [x]) := by
  refine ⟨h.ascending.set _ _, ?_, (perm_push h.ascending _ _).trans (h.perm.append_right _)⟩
  intro e he y hy
  rcases (mem_set h.ascending).1 he with rfl | ⟨hmem, -⟩
  · rcases List.mem_append.1 hy with hy | hy
    · cases hold : m.lookup (key x) with
      | none =>
        rw [hold] at hy
        cases hy
      | some old =>
        rw [hold] at hy
        exact h.keyed _ (mem_of_lookup hold) y hy
    · rw [List.mem_singleton.1 hy]
  · exact h.keyed e hmem y hy

/-- The items come in the order of their keys. -/
theorem Collects.pairwise (h : Collects key m l) : (m.flatMap Prod.snd).Pairwise fun x y => key x ≤ key y := by
  rw [List.pairwise_flatMap]
  refine ⟨?_, ?_⟩
  · intro e he
    refine List.Pairwise.imp_of_mem (R := fun _ _ => True) (fun hx hy _ => ?_)
      (List.pairwise_of_forall fun _ _ => trivial)
    rw [h.keyed e he _ hx, h.keyed e he _ hy]
  · refine List.Pairwise.imp_of_mem (fun {e f} he hf hlt x hx y hy => ?_) (List.pairwise_map.1 h.ascending)
    rw [h.keyed e he x hx, h.keyed f hf y hy]
    exact le_of_lt hlt

/-- The first items are the nearest of all exactly if as many of those that they are taken from are as near as any
other one. -/
theorem nearest_take_iff (hl : l.Pairwise fun x y => key x ≤ key y) (hall : (l ++ rest).Perm all) :
    Nearest key n all (l.take n) ↔ ∀ y ∈ rest, n ≤ l.countP fun x => key x ≤ key y := by
  have hsplit : (l.take n ++ (l.drop n ++ rest)).Perm all := by rwa [← List.append_assoc, List.take_append_drop]
  have hlen := hall.length_eq
  rw [List.length_append] at hlen
  constructor
  · rintro ⟨left, hperm, hcount, hnear⟩ y hy
    have hleft : left.Perm (l.drop n ++ rest) := (List.perm_append_left_iff _).1 (hperm.trans hsplit.symm)
    have hpos := List.length_pos_of_mem hy
    have hy' : y ∈ left := hleft.mem_iff.2 (List.mem_append_right _ hy)
    have hall' : (l.take n).countP (fun x => key x ≤ key y) = (l.take n).length :=
      List.countP_eq_length.2 fun x hx => decide_eq_true (hnear x hx y hy')
    have hsub := (List.take_sublist n l).countP_le (p := fun x => decide (key x ≤ key y))
    rw [List.length_take] at hcount hall'
    omega
  · intro hrest
    refine ⟨l.drop n ++ rest, hsplit, ?_, ?_⟩
    · rw [List.length_take]
      cases rest with
      | nil => rw [← hlen, List.length_nil, Nat.add_zero]
      | cons y rest =>
        have henough := hrest y List.mem_cons_self
        have hle : l.countP (fun x => decide (key x ≤ key y)) ≤ l.length := List.countP_le_length
        omega
    · intro x hx y hy
      have hsorted : (l.take n ++ l.drop n).Pairwise fun x y => key x ≤ key y := by rwa [List.take_append_drop]
      have hcross := (List.pairwise_append.1 hsorted).2.2
      rcases List.mem_append.1 hy with hy | hy
      · exact hcross x hx y hy
      · by_contra hlt
        have henough := hrest y hy
        have hdrop : (l.drop n).countP (fun z => decide (key z ≤ key y)) = 0 := by
          refine List.countP_eq_zero.2 fun z hz => ?_
          rw [decide_eq_true_iff]
          exact fun hle => hlt ((hcross x hx z hz).trans hle)
        have htake : (l.take n).countP (fun z => decide (key z ≤ key y)) < (l.take n).length := by
          refine lt_of_le_of_ne List.countP_le_length fun heq => ?_
          exact hlt (of_decide_eq_true (List.countP_eq_length.1 heq x hx))
        rw [← List.take_append_drop n l, List.countP_append, hdrop] at henough
        have hle := List.length_take_le n l
        omega

end Selection
