import Petrachor.BlockChainSync.Items
import Mathlib.Logic.Function.Basic
import Mathlib.Tactic.Common

/-!
# The maps of items over a run

Items are put into a map and taken out of it in any order. The segments stay apart, with a number that has no item
between any two of them. The map answers as the partial function from numbers to items that the operations stand for as
long as `removeItem` is called for no item that another one follows: it takes the rest of the segment too.
-/

namespace Petrachor

namespace BlockChainSync

open Segments

inductive ItemOp (α : Type) where
  | mergeInto (n : ℕ) (data : α)
  | removeItem (n : ℕ)
  | removeAllStartingWith (n : ℕ)
  deriving DecidableEq, Repr

namespace ItemOp

variable {α : Type}

def apply (c : Items α) : ItemOp α → Items α
  | mergeInto n data => BlockChainSync.mergeInto c n data
  | removeItem n => BlockChainSync.removeItem c n
  | removeAllStartingWith n => BlockChainSync.removeAllStartingWith c n

/-- What the operation is to do to the partial function. -/
def denote (f : ℕ → Option α) : ItemOp α → ℕ → Option α
  | mergeInto n data => Function.update f n (some data)
  | removeItem n => Function.update f n none
  | removeAllStartingWith n => fun m => if m < n then f m else none

/-- Numbers are below the last one, and what is merged is not there; `mergeInto` asserts it. -/
def Legal (c : Items α) : ItemOp α → Prop
  | mergeInto n _ => n < 2 ^ 32 - 1 ∧ haveItem c n = false
  | removeItem n => n < 2 ^ 32 - 1
  | removeAllStartingWith n => n < 2 ^ 32 - 1

instance (c : Items α) : (op : ItemOp α) → Decidable (op.Legal c)
  | mergeInto n _ => inferInstanceAs (Decidable (n < 2 ^ 32 - 1 ∧ haveItem c n = false))
  | removeItem n => inferInstanceAs (Decidable (n < 2 ^ 32 - 1))
  | removeAllStartingWith n => inferInstanceAs (Decidable (n < 2 ^ 32 - 1))

/-- An item that is removed is the last one of its segment. -/
def RemovesLast (c : Items α) : ItemOp α → Prop
  | removeItem n => haveItem c n = false ∨ haveItem c (n + 1) = false
  | _ => True

end ItemOp

section

variable {α : Type} {c : Items α} {f : ℕ → Option α} {op : ItemOp α} {ops : List (ItemOp α)}

def runItems (c : Items α) (ops : List (ItemOp α)) : Items α := ops.foldl ItemOp.apply c

def denoteAll (f : ℕ → Option α) (ops : List (ItemOp α)) : ℕ → Option α := ops.foldl ItemOp.denote f

/-- The condition holds of each operation in the map that it finds. -/
def Throughout (P : Items α → ItemOp α → Prop) : Items α → List (ItemOp α) → Prop
  | _, [] => True
  | c, op :: ops => P c op ∧ Throughout P (op.apply c) ops

/-- The segments are not empty, and do neither overlap nor touch. -/
abbrev WellFormed (c : Items α) : Prop := Spaced (2 ^ 32 - 1) c

/-- `haveItem` and `findItem` answer as the partial function. -/
def Answers (c : Items α) (f : ℕ → Option α) : Prop := ∀ n, findItem c n = f n ∧ haveItem c n = (f n).isSome

theorem wellFormed_nil : WellFormed ([] : Items α) := ⟨⟨List.Pairwise.nil, by simp, by simp⟩, List.Pairwise.nil⟩

theorem WellFormed.answers_iff (hc : WellFormed c) : Answers c f ↔ ∀ n x, Holds c n x ↔ f n = some x := by
  constructor
  · intro h n x
    rw [← findItem_eq_some_iff hc.toApart, (h n).1]
  · intro h n
    have hfind : findItem c n = f n := Option.ext fun x => by rw [findItem_eq_some_iff hc.toApart, h]
    rw [haveItem_eq_isSome hc.toApart, hfind]
    exact ⟨rfl, rfl⟩

theorem WellFormed.apply (hc : WellFormed c) (h : op.Legal c) : WellFormed (op.apply c) := by
  cases op with
  | mergeInto n data => exact spaced_mergeInto hc h.2 h.1 (by decide)
  | removeItem n => exact hc.cut (cut_removeItem hc.toApart)
  | removeAllStartingWith n => exact hc.cut (cut_removeAllStartingWith hc.toApart)

/-- One operation does what it is to do exactly if no item follows the one that it removes. -/
theorem WellFormed.answers_apply_iff (hc : WellFormed c) (h : op.Legal c) (hf : Answers c f) :
    Answers (op.apply c) (op.denote f) ↔ op.RemovesLast c := by
  rw [(hc.apply h).answers_iff]
  rw [hc.answers_iff] at hf
  cases op with
  | mergeInto n data =>
    refine iff_of_true (fun m x => ?_) trivial
    have hlt := h.1
    rw [ItemOp.apply, holds_mergeInto hc.toApart h.2 (by omega), ItemOp.denote, hf]
    by_cases hm : m = n
    · have hnone : f n ≠ some x := by
        intro hsome
        have hnot := h.2
        rw [(haveItem_iff hc.toApart).2 ⟨x, (hf n x).2 hsome⟩] at hnot
        cases hnot
      subst hm
      rw [Function.update_self, Option.some.injEq]
      constructor
      · rintro (⟨-, rfl⟩ | hsome)
        · rfl
        · exact absurd hsome hnone
      · rintro rfl
        exact .inl ⟨rfl, rfl⟩
    · rw [Function.update_of_ne hm]
      exact or_iff_right fun h => hm h.1
  | removeItem n =>
    refine Iff.trans ?_ (removeItem_exact_iff hc)
    refine forall_congr' fun m => forall_congr' fun x => ?_
    rw [ItemOp.apply, ItemOp.denote, hf]
    by_cases hm : m = n
    · subst hm
      simp
    · rw [Function.update_of_ne hm]
      simp [hm]
  | removeAllStartingWith n =>
    refine iff_of_true (fun m x => ?_) trivial
    rw [ItemOp.apply, holds_removeAllStartingWith hc.toApart, ItemOp.denote, hf]
    by_cases hm : m < n
    · simp [hm]
    · simp [hm]

theorem WellFormed.runItems (hc : WellFormed c) (h : Throughout ItemOp.Legal c ops) : WellFormed (runItems c ops) := by
  induction ops generalizing c with
  | nil => exact hc
  | cons op ops ih => exact ih (hc.apply h.1) h.2

theorem Throughout.take {P : Items α → ItemOp α → Prop} (h : Throughout P c ops) (k : ℕ) :
    Throughout P c (ops.take k) := by
  induction ops generalizing c k with
  | nil => rwa [List.take_nil]
  | cons op ops ih =>
    cases k with
    | zero => trivial
    | succ k => exact ⟨h.1, ih h.2 k⟩

theorem WellFormed.answers_run_iff (hc : WellFormed c) (h : Throughout ItemOp.Legal c ops) (hf : Answers c f) :
    (∀ k, Answers (BlockChainSync.runItems c (ops.take k)) (denoteAll f (ops.take k))) ↔
      Throughout ItemOp.RemovesLast c ops := by
  induction ops generalizing c f with
  | nil =>
    refine iff_of_true (fun k => ?_) trivial
    rw [List.take_nil]
    exact hf
  | cons op ops ih =>
    have hstep := hc.answers_apply_iff h.1 hf
    constructor
    · intro hall
      have hfirst := hall 1
      rw [List.take_succ_cons, List.take_zero] at hfirst
      exact ⟨hstep.1 hfirst, (ih (hc.apply h.1) h.2 hfirst).1 fun k => hall (k + 1)⟩
    · rintro ⟨hlast, hrest⟩ k
      cases k with
      | zero => exact hf
      | succ k => exact (ih (hc.apply h.1) h.2 (hstep.2 hlast)).2 hrest k

/-- In every run the segments stay well formed, and after every step of it the map answers as the partial function that
the operations stand for, exactly if each item that is removed is the last one of its segment. -/
theorem items_answer_iff (h : Throughout ItemOp.Legal ([] : Items α) ops) :
    (∀ k, WellFormed (runItems [] (ops.take k))) ∧
      ((∀ k, Answers (runItems [] (ops.take k)) (denoteAll (fun _ => none) (ops.take k))) ↔
        Throughout ItemOp.RemovesLast [] ops) := by
  exact ⟨fun k => wellFormed_nil.runItems (h.take k), wellFormed_nil.answers_run_iff h fun n => ⟨rfl, rfl⟩⟩

theorem items_answer_pair :
    (∀ k, WellFormed (runItems [] ([ItemOp.mergeInto 5 'a', .mergeInto 6 'b', .removeItem 6].take k))) ∧
      ∀ k, Answers (runItems [] ([ItemOp.mergeInto 5 'a', .mergeInto 6 'b', .removeItem 6].take k))
        (denoteAll (fun _ => none) ([ItemOp.mergeInto 5 'a', .mergeInto 6 'b', .removeItem 6].take k)) := by
  have h := @items_answer_iff Char [ItemOp.mergeInto 5 'a', .mergeInto 6 'b', .removeItem 6]
    ⟨by decide, by decide, by decide, trivial⟩
  exact ⟨h.1, h.2.2 ⟨trivial, trivial, .inr (by decide), trivial⟩⟩

/-- Removing the first of two items removes both. -/
theorem removeItem_takes_next :
    ∃ ops : List (ItemOp Char), Throughout ItemOp.Legal [] ops ∧
      ¬Answers (runItems [] ops) (denoteAll (fun _ => none) ops) := by
  refine ⟨[.mergeInto 5 'a', .mergeInto 6 'b', .removeItem 5],
    ⟨by decide, by decide, by decide, trivial⟩, fun h => ?_⟩
  exact absurd (h 6).1 (by decide)

end

end BlockChainSync

end Petrachor
