import Petrachor.Common
import Petrachor.Lib.Segments
import Mathlib.Data.List.TakeWhile

/-!
# Headers and bodies by number

The headers and bodies that were downloaded are in `std::map`s from the first number of a run of items to the
items. `lower_bound` divides such a map in what is before it and the rest.
-/

namespace Petrachor

namespace BlockChainSync

/-- `std::map<unsigned, std::vector<T>>`. -/
abbrev Items (α : Type) := List (ℕ × List α)

section

variable {α : Type}

/-- `begin()` to `lower_bound(n)`. -/
def before (c : Items α) (n : ℕ) : Items α := c.takeWhile (·.1 < n)

/-- `lower_bound(n)` to `end()`. -/
def rest (c : Items α) (n : ℕ) : Items α := c.dropWhile (·.1 < n)

/-- `lower_bound` finds the number itself. -/
def startsAt (c : Items α) (n : ℕ) : Bool := (rest c n).head?.any fun lower => lower.1 = n

/-- The segment reaches the number. -/
def reaches (lower : ℕ × List α) (n : ℕ) : Bool := lower.1 ≤ n && n < lower.1 + lower.2.length

def haveItem (c : Items α) (n : ℕ) : Bool :=
  startsAt c n || (before c n).getLast?.any fun lower => reaches lower n

def findItem (c : Items α) (n : ℕ) : Option α :=
  if startsAt c n then (rest c n).head?.bind fun lower => lower.2.head?
  else (before c n).getLast?.bind fun lower =>
    if reaches lower n then lower.2[n - lower.1]? else none

/-- What is before the number; of the last segment the items from the number on are erased. -/
def cutBefore (c : Items α) (n : ℕ) : Items α :=
  match (before c n).getLast? with
  | none => []
  | some lower =>
    (before c n).dropLast ++ [if reaches lower n then (lower.1, lower.2.take (n - lower.1)) else lower]

/-- The items behind the number in its segment go with it. -/
def removeItem (c : Items α) (n : ℕ) : Items α :=
  if startsAt c n then before c n ++ (rest c n).tail else cutBefore c n ++ rest c n

def removeAllStartingWith (c : Items α) (n : ℕ) : Items α :=
  if startsAt c n then before c n else cutBefore c n

/-- A segment before the next ones; one that starts with the number is appended to it. -/
def mergeNext (chunk : ℕ × List α) (n : ℕ) : Items α → Items α
  | [] => [chunk]
  | next :: c => if next.1 = n then (chunk.1, chunk.2 ++ next.2) :: c else chunk :: next :: c

/-- A new chunk; `insert` leaves a segment that starts with its number. -/
def insertChunk (c : Items α) (n : ℕ) (data : α) : Items α :=
  match rest c n with
  | [] => before c n ++ [(n, [data])]
  | lower :: c' =>
    if lower.1 = n then before c n ++ mergeNext lower ((n + 1) % 2 ^ 32) c'
    else before c n ++ mergeNext (n, [data]) ((n + 1) % 2 ^ 32) (lower :: c')

def mergeInto (c : Items α) (n : ℕ) (data : α) : Items α :=
  -- `lower` is moved back unless it is `begin()`
  let front := (before c n).dropLast
  match (before c n).getLast?.toList ++ rest c n with
  | [] => insertChunk c n data
  | lower :: c' =>
    if lower.1 + lower.2.length = n then
      front ++ mergeNext (lower.1, lower.2 ++ [data]) (lower.1 + (lower.2.length + 1)) c'
    else insertChunk c n data

end

/-! ## Around a number -/

section

open Segments

variable {α : Type} {top : ℕ} {c s t : Items α} {n m k : ℕ} {x y : α} {e lower : ℕ × List α}

theorem before_append_rest (c : Items α) (n : ℕ) : before c n ++ rest c n = c := List.takeWhile_append_dropWhile

theorem lt_of_mem_before (he : e ∈ before c n) : e.1 < n :=
  of_decide_eq_true (List.mem_takeWhile_imp (p := fun e : ℕ × List α => decide (e.1 < n)) he)

theorem mem_of_before (hmem : e ∈ before c n) : e ∈ c := by
  rw [← before_append_rest c n]
  exact List.mem_append_left _ hmem

theorem mem_of_rest (hmem : e ∈ rest c n) : e ∈ c := by
  rw [← before_append_rest c n]
  exact List.mem_append_right _ hmem

theorem before_append (hs : ∀ e ∈ s, e.1 < n) (ht : ∀ e ∈ t, n ≤ e.1) : before (s ++ t) n = s := by
  unfold before
  rw [List.takeWhile_append_of_pos fun e he => decide_eq_true (hs e he)]
  cases t with
  | nil => rw [List.takeWhile_nil, List.append_nil]
  | cons e t =>
    have hle := ht e List.mem_cons_self
    rw [List.takeWhile_cons_of_neg (by simpa using hle), List.append_nil]

theorem rest_append (hs : ∀ e ∈ s, e.1 < n) (ht : ∀ e ∈ t, n ≤ e.1) : rest (s ++ t) n = t := by
  have h := before_append_rest (s ++ t) n
  rw [before_append hs ht] at h
  exact List.append_cancel_left h

theorem le_of_mem_rest (hc : Apart top c) (he : e ∈ rest c n) : n ≤ e.1 := by
  have hhead := List.head?_dropWhile_not (fun e : ℕ × List α => e.1 < n) c
  have happart : Apart top (rest c n) := hc.sublist (List.dropWhile_sublist _)
  unfold rest at he happart
  cases hrest : c.dropWhile (fun e => decide (e.1 < n)) with
  | nil =>
    rw [hrest] at he
    cases he
  | cons lower t =>
    rw [hrest] at he hhead happart
    have hlower : n ≤ lower.1 := not_lt.1 (of_decide_eq_false hhead)
    rcases List.mem_cons.1 he with rfl | he
    · exact hlower
    · have := (List.pairwise_cons.1 happart.pairwise).1 e he
      omega

theorem reaches_iff : reaches e n = true ↔ e.1 ≤ n ∧ n < e.1 + e.2.length := by
  unfold reaches
  rw [Bool.and_eq_true, decide_eq_true_iff, decide_eq_true_iff]

/-- `lower_bound` finds the segment that has the number if it starts with it, else the one behind it. -/
theorem around_of_reaches (hc : Apart top (s ++ e :: t)) (hn : reaches e n = true) :
    (e.1 = n ∧ before (s ++ e :: t) n = s ∧ rest (s ++ e :: t) n = e :: t) ∨
      (e.1 < n ∧ before (s ++ e :: t) n = s ++ [e] ∧ rest (s ++ e :: t) n = t) := by
  rw [reaches_iff] at hn
  obtain ⟨-, hright, hcross⟩ := List.pairwise_append.1 hc.pairwise
  have hs : ∀ f ∈ s, f.1 < e.1 := by
    intro f hf
    have hpos := List.length_pos_iff.2 (hc.nonempty f (List.mem_append_left _ hf))
    have := hcross f hf e List.mem_cons_self
    omega
  have ht : ∀ f ∈ t, n < f.1 := fun f hf => hn.2.trans_le ((List.pairwise_cons.1 hright).1 f hf)
  rcases hn.1.eq_or_lt with rfl | hlt
  · have hrest : ∀ f ∈ e :: t, e.1 ≤ f.1 := by
      intro f hf
      rcases List.mem_cons.1 hf with rfl | hf
      · exact le_rfl
      · exact (ht f hf).le
    exact .inl ⟨rfl, before_append hs hrest, rest_append hs hrest⟩
  · have hbefore : ∀ f ∈ s ++ [e], f.1 < n := by
      intro f hf
      rcases List.mem_append.1 hf with hf | hf
      · exact (hs f hf).trans hlt
      · rwa [List.mem_singleton.1 hf]
    rw [List.append_cons]
    exact .inr ⟨hlt, before_append hbefore fun f hf => (ht f hf).le, rest_append hbefore fun f hf => (ht f hf).le⟩

theorem startsAt_eq_false (hc : ∀ e ∈ c, e.2 ≠ []) (h : ∀ e ∈ c, reaches e n = false) : startsAt c n = false := by
  unfold startsAt
  cases hrest : rest c n with
  | nil => rfl
  | cons e t =>
    have he : e ∈ c := mem_of_rest (n := n) (hrest ▸ List.mem_cons_self)
    have hpos := List.length_pos_iff.2 (hc e he)
    have hnot := h e he
    rw [List.head?_cons, Option.any_some, decide_eq_false_iff_not]
    rintro rfl
    rw [reaches_iff.2 ⟨le_rfl, by omega⟩] at hnot
    cases hnot

theorem startsAt_of_rest (hrest : rest c n = e :: t) : startsAt c n = decide (e.1 = n) := by
  unfold startsAt
  rw [hrest, List.head?_cons, Option.any_some]

/-- A map whose segments are apart has one segment with the number, or none. -/
theorem reaches_or_not (hc : Apart top c) (n : ℕ) :
    (∃ s e t, c = s ++ e :: t ∧ reaches e n = true) ∨ ∀ e ∈ c, reaches e n = false := by
  by_cases h : ∃ e ∈ c, reaches e n = true
  · obtain ⟨e, he, hn⟩ := h
    obtain ⟨s, t, rfl⟩ := List.append_of_mem he
    exact .inl ⟨s, e, t, rfl, hn⟩
  · refine .inr fun e he => ?_
    rw [Bool.eq_false_iff]
    exact fun hn => h ⟨e, he, hn⟩

theorem last_not_reaches (h : ∀ e ∈ c, reaches e n = false) (hlast : (before c n).getLast? = some lower) :
    reaches lower n = false := h lower (mem_of_before (n := n) (List.mem_of_getLast? hlast))

theorem startsAt_of_lt (ht : ∀ e ∈ rest c n, n < e.1) : startsAt c n = false := by
  cases hrest : rest c n with
  | nil => rw [startsAt, hrest, List.head?_nil, Option.any_none]
  | cons e t =>
    rw [startsAt_of_rest hrest, decide_eq_false_iff_not]
    exact (ht e (hrest ▸ List.mem_cons_self)).ne'

theorem lt_of_mem_behind (hc : Apart top (s ++ e :: t)) (hn : reaches e n = true) {f : ℕ × List α} (hf : f ∈ t) :
    n < f.1 :=
  (reaches_iff.1 hn).2.trans_le ((List.pairwise_cons.1 (List.pairwise_append.1 hc.pairwise).2.1).1 f hf)

/-! ## Lookup -/

theorem haveItem_of_not_reaches (hc : Apart top c) (h : ∀ e ∈ c, reaches e n = false) : haveItem c n = false := by
  unfold haveItem
  rw [startsAt_eq_false hc.nonempty h, Bool.false_or]
  cases hlast : (before c n).getLast? with
  | none => rfl
  | some lower => rw [Option.any_some, last_not_reaches h hlast]

theorem findItem_of_not_reaches (hc : Apart top c) (h : ∀ e ∈ c, reaches e n = false) : findItem c n = none := by
  unfold findItem
  rw [startsAt_eq_false hc.nonempty h, if_neg Bool.false_ne_true]
  cases hlast : (before c n).getLast? with
  | none => rfl
  | some lower => rw [Option.bind_some, last_not_reaches h hlast, if_neg Bool.false_ne_true]

theorem findItem_of_reaches (hc : Apart top (s ++ e :: t)) (hn : reaches e n = true) :
    haveItem (s ++ e :: t) n = true ∧ findItem (s ++ e :: t) n = e.2[n - e.1]? := by
  unfold haveItem findItem
  rcases around_of_reaches hc hn with ⟨rfl, hbefore, hrest⟩ | ⟨hlt, hbefore, hrest⟩
  · rw [startsAt_of_rest hrest, hrest, decide_eq_true rfl, if_pos rfl, Nat.sub_self, List.head?_cons, Option.bind_some,
      List.head?_eq_getElem?]
    exact ⟨rfl, rfl⟩
  · have hstarts : startsAt (s ++ e :: t) n = false := by
      refine startsAt_of_lt fun f hf => ?_
      rw [hrest] at hf
      exact lt_of_mem_behind hc hn hf
    rw [hstarts, if_neg Bool.false_ne_true, hbefore, List.getLast?_concat, Option.any_some, Option.bind_some, hn,
      if_pos rfl]
    exact ⟨rfl, rfl⟩

theorem holds_of_reaches (hc : Apart top (s ++ e :: t)) (hn : reaches e n = true) :
    Holds (s ++ e :: t) n x ↔ e.2[n - e.1]? = some x := by
  have hmem : e ∈ s ++ e :: t := List.mem_append_right _ List.mem_cons_self
  have hspan := reaches_iff.1 hn
  constructor
  · rintro ⟨f, hf, i, hi, hx⟩
    have hlt := (List.getElem?_eq_some_iff.1 hx).1
    obtain rfl : e = f := hc.eq_of_has hmem hf hspan (by omega)
    rwa [hi, Nat.add_sub_cancel_left]
  · exact fun hx => ⟨e, hmem, n - e.1, by omega, hx⟩

theorem not_holds_of_not_reaches (h : ∀ e ∈ c, reaches e n = false) : ¬Holds c n x := by
  rintro ⟨e, he, i, hi, hx⟩
  have hlt := (List.getElem?_eq_some_iff.1 hx).1
  have hnot := h e he
  rw [reaches_iff.2 (by omega)] at hnot
  cases hnot

/-- `findItem` finds what is held. -/
theorem findItem_eq_some_iff (hc : Apart top c) : findItem c n = some x ↔ Holds c n x := by
  rcases reaches_or_not hc n with ⟨s, e, t, rfl, hn⟩ | h
  · rw [(findItem_of_reaches hc hn).2, holds_of_reaches hc hn]
  · rw [findItem_of_not_reaches hc h]
    exact iff_of_false (Option.some_ne_none x).symm (not_holds_of_not_reaches h)

theorem haveItem_eq_isSome (hc : Apart top c) (n : ℕ) : haveItem c n = (findItem c n).isSome := by
  rcases reaches_or_not hc n with ⟨s, e, t, rfl, hn⟩ | h
  · have hlt := (reaches_iff.1 hn).2
    have hle := (reaches_iff.1 hn).1
    rw [(findItem_of_reaches hc hn).1, (findItem_of_reaches hc hn).2,
      List.getElem?_eq_getElem (show n - e.1 < e.2.length by omega)]
    rfl
  · rw [haveItem_of_not_reaches hc h, findItem_of_not_reaches hc h]
    rfl

theorem haveItem_iff (hc : Apart top c) : haveItem c n = true ↔ ∃ x, Holds c n x := by
  rw [haveItem_eq_isSome hc, Option.isSome_iff_exists]
  exact exists_congr fun x => findItem_eq_some_iff hc

/-! ## Removal -/

theorem removeItem_of_not_reaches (hc : Apart top c) (h : ∀ e ∈ c, reaches e n = false) : removeItem c n = c := by
  unfold removeItem cutBefore
  rw [startsAt_eq_false hc.nonempty h, if_neg Bool.false_ne_true]
  conv_rhs => rw [← before_append_rest c n]
  rcases List.eq_nil_or_concat (before c n) with hnil | ⟨front, lower, hbefore⟩
  · rw [hnil]
    rfl
  · rw [List.concat_eq_append] at hbefore
    have hlast : (before c n).getLast? = some lower := by rw [hbefore, List.getLast?_concat]
    rw [hbefore, List.getLast?_concat, List.dropLast_concat]
    dsimp only
    rw [last_not_reaches h hlast, if_neg Bool.false_ne_true]

theorem removeItem_of_reaches (hc : Apart top (s ++ e :: t)) (hn : reaches e n = true) :
    removeItem (s ++ e :: t) n = s ++ (if e.1 = n then [] else [(e.1, e.2.take (n - e.1))]) ++ t := by
  unfold removeItem cutBefore
  rcases around_of_reaches hc hn with ⟨rfl, hbefore, hrest⟩ | ⟨hlt, hbefore, hrest⟩
  · rw [startsAt_of_rest hrest, decide_eq_true rfl, if_pos rfl, if_pos rfl, hbefore, hrest, List.tail_cons,
      List.append_nil]
  · have hstarts : startsAt (s ++ e :: t) n = false := by
      refine startsAt_of_lt fun f hf => ?_
      rw [hrest] at hf
      exact lt_of_mem_behind hc hn hf
    rw [hstarts, if_neg Bool.false_ne_true, if_neg hlt.ne, hbefore, hrest, List.getLast?_concat]
    dsimp only
    rw [List.dropLast_concat, hn, if_pos rfl]

theorem removeAllStartingWith_of_reaches (hc : Apart top (s ++ e :: t)) (hn : reaches e n = true) :
    removeAllStartingWith (s ++ e :: t) n = s ++ (if e.1 = n then [] else [(e.1, e.2.take (n - e.1))]) := by
  unfold removeAllStartingWith cutBefore
  rcases around_of_reaches hc hn with ⟨rfl, hbefore, hrest⟩ | ⟨hlt, hbefore, hrest⟩
  · rw [startsAt_of_rest hrest, decide_eq_true rfl, if_pos rfl, if_pos rfl, hbefore, List.append_nil]
  · have hstarts : startsAt (s ++ e :: t) n = false := by
      refine startsAt_of_lt fun f hf => ?_
      rw [hrest] at hf
      exact lt_of_mem_behind hc hn hf
    rw [hstarts, if_neg Bool.false_ne_true, if_neg hlt.ne, hbefore, List.getLast?_concat]
    dsimp only
    rw [List.dropLast_concat, hn, if_pos rfl]

theorem removeAllStartingWith_of_not_reaches (hc : Apart top c) (h : ∀ e ∈ c, reaches e n = false) :
    removeAllStartingWith c n = before c n := by
  have hsame := removeItem_of_not_reaches hc h
  unfold removeItem at hsame
  unfold removeAllStartingWith
  rw [startsAt_eq_false hc.nonempty h, if_neg Bool.false_ne_true] at hsame ⊢
  conv_rhs at hsame => rw [← before_append_rest c n]
  exact List.append_cancel_right hsame

/-- What is left of the segment that is cut. -/
theorem cut_segment (hc : Apart top (s ++ e :: t)) (hn : reaches e n = true) :
    Cut (if e.1 = n then [] else [(e.1, e.2.take (n - e.1))]) [e] := by
  split
  · exact .cons_right .nil
  · refine .cons ⟨rfl, List.take_prefix _ _, ?_⟩ .nil
    intro hnil
    have hne : e.2 ≠ [] := hc.nonempty e (List.mem_append_right _ List.mem_cons_self)
    have hle := (reaches_iff.1 hn).1
    rcases List.take_eq_nil_iff.1 hnil with h | h
    · omega
    · exact hne h

theorem cut_removeItem (hc : Apart top c) : Cut (removeItem c n) c := by
  rcases reaches_or_not hc n with ⟨s, e, t, rfl, hn⟩ | h
  · rw [removeItem_of_reaches hc hn, List.append_assoc]
    refine (cut_refl fun f hf => hc.nonempty f (List.mem_append_left _ hf)).append ?_
    refine (cut_segment hc hn).append (m := [e]) (cut_refl fun f hf => hc.nonempty f ?_)
    exact List.mem_append_right _ (List.mem_cons_of_mem _ hf)
  · rw [removeItem_of_not_reaches hc h]
    exact cut_refl hc.nonempty

theorem cut_removeAllStartingWith (hc : Apart top c) : Cut (removeAllStartingWith c n) c := by
  rcases reaches_or_not hc n with ⟨s, e, t, rfl, hn⟩ | h
  · rw [removeAllStartingWith_of_reaches hc hn]
    refine (cut_refl fun f hf => hc.nonempty f (List.mem_append_left _ hf)).append ?_
    have hnil : Cut ([] : Items α) t := .nil
    have hall := (cut_segment hc hn).append hnil
    rwa [List.append_nil] at hall
  · rw [removeAllStartingWith_of_not_reaches hc h]
    exact Cut.of_sublist (List.takeWhile_sublist _) hc.nonempty

/-- What is held of the segment that is cut. -/
theorem holds_cut_segment (hn : reaches e n = true) :
    Holds (if e.1 = n then [] else [(e.1, e.2.take (n - e.1))]) m y ↔ m < n ∧ Holds [e] m y := by
  rw [reaches_iff] at hn
  rw [holds_singleton]
  split
  · rename_i heq
    refine iff_of_false holds_nil ?_
    rintro ⟨hm, i, hi, -⟩
    omega
  · rw [holds_singleton]
    constructor
    · rintro ⟨i, hi, hy⟩
      have hlt := (List.getElem?_eq_some_iff.1 hy).1
      rw [List.length_take] at hlt
      rw [List.getElem?_take_of_lt (by omega)] at hy
      exact ⟨by omega, i, hi, hy⟩
    · rintro ⟨hm, i, hi, hy⟩
      refine ⟨i, hi, ?_⟩
      rwa [List.getElem?_take_of_lt (by omega)]

theorem lt_of_holds (h : Holds s m y) (hs : ∀ f ∈ s, f.1 + f.2.length ≤ n) : m < n := by
  obtain ⟨f, hf, i, hi, hy⟩ := h
  have hlt := (List.getElem?_eq_some_iff.1 hy).1
  have := hs f hf
  omega

theorem le_of_holds (h : Holds s m y) (hs : ∀ f ∈ s, n ≤ f.1) : n ≤ m := by
  obtain ⟨f, hf, i, hi, hy⟩ := h
  have := hs f hf
  omega

/-- Exactly the items from the number on are removed. -/
theorem holds_removeAllStartingWith (hc : Apart top c) :
    Holds (removeAllStartingWith c n) m y ↔ m < n ∧ Holds c m y := by
  rcases reaches_or_not hc n with ⟨s, e, t, rfl, hn⟩ | h
  · obtain ⟨-, hright, hcross⟩ := List.pairwise_append.1 hc.pairwise
    rw [removeAllStartingWith_of_reaches hc hn, holds_append, holds_cut_segment hn, holds_append, holds_cons (l := t)]
    have hs : Holds s m y → m < n := fun hm =>
      (lt_of_holds hm fun f hf => hcross f hf e List.mem_cons_self).trans_le (reaches_iff.1 hn).1
    have ht : Holds t m y → n < m := fun hm =>
      le_of_holds (n := n + 1) hm fun f hf => lt_of_mem_behind hc hn hf
    constructor
    · rintro (hm | ⟨hlt, hm⟩)
      · exact ⟨hs hm, .inl hm⟩
      · exact ⟨hlt, .inr (.inl hm)⟩
    · rintro ⟨hlt, hm | hm | hm⟩
      · exact .inl hm
      · exact .inr ⟨hlt, hm⟩
      · exact absurd hlt (ht hm).le.not_gt
  · rw [removeAllStartingWith_of_not_reaches hc h]
    conv_rhs => rw [← before_append_rest c n, holds_append]
    have hbefore : Holds (before c n) m y → m < n := by
      refine fun hm => lt_of_holds hm fun f hf => ?_
      have hlt := lt_of_mem_before hf
      have hnot := h f (mem_of_before hf)
      by_contra hgt
      rw [reaches_iff.2 (by omega)] at hnot
      cases hnot
    have hrest : Holds (rest c n) m y → n ≤ m := fun hm =>
      le_of_holds hm fun f hf => le_of_mem_rest hc hf
    constructor
    · exact fun hm => ⟨hbefore hm, .inl hm⟩
    · rintro ⟨hlt, hm | hm⟩
      · exact hm
      · exact absurd hlt (hrest hm).not_gt

/-- The items behind the number in its segment go with it. -/
theorem holds_removeItem (hc : Apart top (s ++ e :: t)) (hn : reaches e n = true) :
    Holds (removeItem (s ++ e :: t) n) m y ↔ Holds (s ++ e :: t) m y ∧ (n ≤ m → reaches e m = false) := by
  obtain ⟨-, hright, hcross⟩ := List.pairwise_append.1 hc.pairwise
  have hspan := reaches_iff.1 hn
  have hs : Holds s m y → m < e.1 := fun hm =>
    lt_of_holds hm fun f hf => hcross f hf e List.mem_cons_self
  have ht : Holds t m y → e.1 + e.2.length ≤ m := fun hm =>
    le_of_holds hm (List.pairwise_cons.1 hright).1
  have he : Holds [e] m y → reaches e m = true := by
    intro hm
    obtain ⟨i, hi, hy⟩ := holds_singleton.1 hm
    have hlt := (List.getElem?_eq_some_iff.1 hy).1
    exact reaches_iff.2 (by omega)
  rw [removeItem_of_reaches hc hn, holds_append, holds_append, holds_cut_segment hn, holds_append, holds_cons (l := t)]
  constructor
  · rintro ((hm | ⟨hlt, hm⟩) | hm)
    · have := hs hm
      exact ⟨.inl hm, fun hle => by omega⟩
    · exact ⟨.inr (.inl hm), fun hle => by omega⟩
    · refine ⟨.inr (.inr hm), fun _ => ?_⟩
      have hle := ht hm
      rw [Bool.eq_false_iff, Ne, reaches_iff]
      omega
  · rintro ⟨hm | hm | hm, hnot⟩
    · exact .inl (.inl hm)
    · refine .inl (.inr ⟨?_, hm⟩)
      by_contra hle
      rw [he hm] at hnot
      cases hnot (not_lt.1 hle)
    · exact .inr hm

/-- `removeItem` removes exactly the item of its number if the one behind it is not there either. -/
theorem removeItem_exact_iff (hc : Spaced top c) :
    (∀ m y, Holds (removeItem c n) m y ↔ m ≠ n ∧ Holds c m y) ↔ haveItem c n = false ∨ haveItem c (n + 1) = false := by
  rcases reaches_or_not hc.toApart n with ⟨s, e, t, rfl, hn⟩ | h
  · have hspan := reaches_iff.1 hn
    have hmem : e ∈ s ++ e :: t := List.mem_append_right _ List.mem_cons_self
    rw [(findItem_of_reaches hc.toApart hn).1, Bool.eq_false_iff (b := haveItem _ (n + 1)), Ne, haveItem_iff hc.toApart]
    constructor
    · intro hexact
      right
      rintro ⟨z, hz⟩
      have hlt := hc.same_segment hmem hspan hz
      have hleft := (hexact (n + 1) z).2 ⟨n.succ_ne_self, hz⟩
      rw [holds_removeItem hc.toApart hn, reaches_iff.2 (by omega)] at hleft
      cases hleft.2 n.le_succ
    · rintro (hnot | hnext) m y
      · cases hnot
      · rw [holds_removeItem hc.toApart hn]
        have hend : e.1 + e.2.length = n + 1 := by
          by_contra hne
          have hlt : n + 1 - e.1 < e.2.length := by omega
          refine hnext ⟨e.2[n + 1 - e.1], e, hmem, n + 1 - e.1, by omega, ?_⟩
          rw [List.getElem?_eq_getElem hlt]
        constructor
        · rintro ⟨hm, hnot⟩
          refine ⟨?_, hm⟩
          rintro rfl
          rw [hn] at hnot
          cases hnot le_rfl
        · rintro ⟨hne, hm⟩
          refine ⟨hm, fun hle => ?_⟩
          rw [Bool.eq_false_iff, Ne, reaches_iff]
          omega
  · rw [haveItem_of_not_reaches hc.toApart h, removeItem_of_not_reaches hc.toApart h]
    refine iff_of_true (fun m y => ?_) (.inl rfl)
    constructor
    · intro hm
      refine ⟨?_, hm⟩
      rintro rfl
      exact not_holds_of_not_reaches h hm
    · exact fun hm => hm.2

/-! ## Insertion -/

/-- Merging two segments does not change what is held. -/
theorem holds_mergeNext {chunk : ℕ × List α} (hk : chunk.1 + chunk.2.length = k) :
    Holds (mergeNext chunk k c) m y ↔ Holds [chunk] m y ∨ Holds c m y := by
  cases c with
  | nil =>
    unfold mergeNext
    simp [holds_nil]
  | cons next c =>
    dsimp only [mergeNext]
    split
    · rename_i hnext
      rw [holds_cons, holds_glue, holds_cons (e := next), or_assoc]
      rw [show (chunk.1 + chunk.2.length, next.2) = next by rw [hk, ← hnext]]
    · rw [holds_cons]

/-- A chunk between two parts of a map, one that ends before it and one that starts from its end on. -/
theorem spaced_mergeNext {chunk : ℕ × List α} (hk : chunk.1 + chunk.2.length = k) (hc : Spaced top (s ++ t))
    (hs : ∀ f ∈ s, f.1 + f.2.length < chunk.1) (ht : ∀ f ∈ t, k ≤ f.1) (hne : chunk.2 ≠ []) (htop : k ≤ top) :
    Spaced top (s ++ mergeNext chunk k t) := by
  have hpos := List.length_pos_iff.2 hne
  obtain ⟨hgaps, hgapt, hcross⟩ := List.pairwise_append.1 hc.gap
  suffices h : ∃ chunk' t', mergeNext chunk k t = chunk' :: t' ∧ chunk'.1 = chunk.1 ∧ chunk'.2 ≠ [] ∧
      chunk'.1 + chunk'.2.length ≤ top ∧ (∀ f ∈ t', chunk'.1 + chunk'.2.length < f.1) ∧ t'.Sublist t by
    obtain ⟨chunk', t', heq, hfst, hne', hend, hgap', hsub⟩ := h
    have hgap : (s ++ mergeNext chunk k t).Pairwise fun e f => e.1 + e.2.length < f.1 := by
      rw [heq, List.pairwise_append, List.pairwise_cons]
      refine ⟨hgaps, ⟨hgap', hgapt.sublist hsub⟩, ?_⟩
      intro e he f hf
      rcases List.mem_cons.1 hf with rfl | hf
      · rw [hfst]
        exact hs e he
      · exact hcross e he f (hsub.subset hf)
    refine ⟨⟨hgap.imp fun h => h.le, ?_, ?_⟩, hgap⟩
    all_goals
      intro e he
      rw [heq] at he
      rcases List.mem_append.1 he with he | he
      · first | exact hc.nonempty e (List.mem_append_left _ he) | exact hc.end_le e (List.mem_append_left _ he)
      · rcases List.mem_cons.1 he with rfl | he
        · assumption
        · have hmem : e ∈ s ++ t := List.mem_append_right _ (hsub.subset he)
          first | exact hc.nonempty e hmem | exact hc.end_le e hmem
  cases t with
  | nil => exact ⟨chunk, [], rfl, rfl, hne, by omega, by simp, List.Sublist.refl _⟩
  | cons next t =>
    have hnext := ht next List.mem_cons_self
    have hgapnext := (List.pairwise_cons.1 hgapt).1
    dsimp only [mergeNext]
    by_cases heq : next.1 = k
    · have hend := hc.end_le next (List.mem_append_right _ List.mem_cons_self)
      refine ⟨(chunk.1, chunk.2 ++ next.2), t, if_pos heq, rfl, List.append_ne_nil_of_left_ne_nil hne _, ?_, ?_,
        List.sublist_cons_self next t⟩
      · rw [List.length_append]
        dsimp only
        omega
      · intro f hf
        have := hgapnext f hf
        rw [List.length_append]
        dsimp only
        omega
    · refine ⟨chunk, next :: t, if_neg heq, rfl, hne, by omega, ?_, List.Sublist.refl _⟩
      intro f hf
      rcases List.mem_cons.1 hf with rfl | hf
      · omega
      · have := hgapnext f hf
        omega

theorem lt_of_mem_rest (hc : Apart top c) (hn : haveItem c n = false) {f : ℕ × List α} (hf : f ∈ rest c n) :
    n < f.1 := by
  refine (le_of_mem_rest hc hf).lt_of_ne ?_
  rintro rfl
  have hmem : f ∈ c := mem_of_rest hf
  have hpos := List.length_pos_iff.2 (hc.nonempty f hmem)
  obtain ⟨s, t, rfl⟩ := List.append_of_mem hmem
  rw [(findItem_of_reaches hc (reaches_iff.2 ⟨le_rfl, by omega⟩)).1] at hn
  cases hn

theorem end_le_of_mem_before (hc : Apart top c) (hn : haveItem c n = false) {f : ℕ × List α} (hf : f ∈ before c n) :
    f.1 + f.2.length ≤ n := by
  by_contra hlt
  have hstart := lt_of_mem_before hf
  obtain ⟨s, t, rfl⟩ := List.append_of_mem (mem_of_before hf)
  rw [(findItem_of_reaches hc (reaches_iff.2 (by omega))).1] at hn
  cases hn

theorem insertChunk_eq (hc : Apart top c) (hn : haveItem c n = false) (hlt : n + 1 < 2 ^ 32) :
    insertChunk c n x = before c n ++ mergeNext (n, [x]) (n + 1) (rest c n) := by
  unfold insertChunk
  cases hrest : rest c n with
  | nil => rfl
  | cons lower t =>
    have hlower := lt_of_mem_rest hc hn (hrest ▸ List.mem_cons_self)
    dsimp only
    rw [if_neg hlower.ne', Nat.mod_eq_of_lt hlt]

/-- The segment that ends by the number is extended, or a new one is put between what is before the number and what is
behind it. -/
theorem mergeInto_cases (hc : Apart top c) (hn : haveItem c n = false) (hlt : n + 1 < 2 ^ 32) :
    (∃ s lower, before c n = s ++ [lower] ∧ lower.1 + lower.2.length = n ∧
      mergeInto c n x = s ++ mergeNext (lower.1, lower.2 ++ [x]) (n + 1) (rest c n)) ∨
    ((∀ f ∈ before c n, f.1 + f.2.length < n) ∧
      mergeInto c n x = before c n ++ mergeNext (n, [x]) (n + 1) (rest c n)) := by
  rw [← insertChunk_eq hc hn hlt]
  unfold mergeInto
  rcases List.eq_nil_or_concat (before c n) with hnil | ⟨s, lower, hbefore⟩
  · right
    rw [hnil]
    refine ⟨by simp, ?_⟩
    cases hrest : rest c n with
    | nil => rfl
    | cons lower t =>
      have hlower := lt_of_mem_rest hc hn (hrest ▸ List.mem_cons_self)
      simp only [List.getLast?_nil, Option.toList_none, List.nil_append]
      rw [if_neg (by omega)]
  · rw [List.concat_eq_append] at hbefore
    have hend := end_le_of_mem_before hc hn (f := lower) (by simp [hbefore])
    simp only [hbefore, List.getLast?_concat, Option.toList_some, List.singleton_append, List.dropLast_concat]
    by_cases heq : lower.1 + lower.2.length = n
    · left
      refine ⟨s, lower, rfl, heq, ?_⟩
      rw [if_pos heq, ← Nat.add_assoc, heq]
    · right
      refine ⟨?_, if_neg heq⟩
      intro f hf
      rcases List.mem_append.1 hf with hf | hf
      · have hapart : Apart top (s ++ [lower]) := hbefore ▸ hc.sublist (List.takeWhile_sublist _)
        have hle := (List.pairwise_append.1 hapart.pairwise).2.2 f hf lower (List.mem_singleton_self lower)
        have hlower := lt_of_mem_before (c := c) (n := n) (e := lower) (by simp [hbefore])
        omega
      · rw [List.mem_singleton.1 hf]
        omega

theorem spaced_mergeInto (hc : Spaced top c) (hn : haveItem c n = false) (hlt : n < top) (htop : top < 2 ^ 32) :
    Spaced top (mergeInto c n x) := by
  have hrest : ∀ f ∈ rest c n, n + 1 ≤ f.1 := fun f hf => lt_of_mem_rest hc.toApart hn hf
  have hsplit : Spaced top (before c n ++ rest c n) := by rwa [before_append_rest]
  rcases mergeInto_cases (x := x) hc.toApart hn (by omega) with ⟨s, lower, hbefore, hend, heq⟩ | ⟨hbefore, heq⟩
  · rw [hbefore] at hsplit
    have hgap := (List.pairwise_append.1 (List.pairwise_append.1 hsplit.gap).1).2.2
    have hlen : (lower.2 ++ [x]).length = lower.2.length + 1 := by rw [List.length_append, List.length_singleton]
    rw [heq]
    refine spaced_mergeNext ?_ (hsplit.cut ?_) ?_ hrest (List.append_ne_nil_of_right_ne_nil _ (List.cons_ne_nil x _))
      hlt
    · dsimp only
      omega
    · refine Cut.of_sublist ?_ hsplit.nonempty
      exact (List.sublist_append_left s [lower]).append (List.Sublist.refl _)
    · exact fun f hf => hgap f hf lower (List.mem_singleton_self lower)
  · rw [heq]
    exact spaced_mergeNext rfl hsplit hbefore hrest (List.cons_ne_nil x _) hlt

/-- Exactly the item is added. -/
theorem holds_mergeInto (hc : Apart top c) (hn : haveItem c n = false) (hlt : n + 1 < 2 ^ 32) :
    Holds (mergeInto c n x) m y ↔ (m = n ∧ y = x) ∨ Holds c m y := by
  conv_rhs => rw [← before_append_rest c n, holds_append]
  rcases mergeInto_cases (x := x) hc hn hlt with ⟨s, lower, hbefore, hend, heq⟩ | ⟨-, heq⟩
  · have hlen : (lower.2 ++ [x]).length = lower.2.length + 1 := by rw [List.length_append, List.length_singleton]
    rw [heq, holds_append, holds_mergeNext (by dsimp only; omega), holds_glue, hend, holds_one, hbefore, holds_append]
    tauto
  · rw [heq, holds_append, holds_mergeNext (k := n + 1) rfl, holds_one]
    tauto

end

end BlockChainSync

end Petrachor
