import Petrachor.Lib.Intervals
import Petrachor.Lib.PartialRun

/-!
# Range masks

A set of unsigned integers inside a ground range, as a map from the begin of each of its ranges to the end. A union
merges a range into the map in place, and a difference is made of two complements and a union, which takes the union of
the ground ranges too.
-/

namespace Petrachor

open Intervals

/-- The range from the first number on and up to the second. -/
abbrev UnsignedRange := ℕ × ℕ

/-- The difference of two unsigned integers, which wraps. -/
def unsignedSub (a b : ℕ) : ℕ := (a + 2 ^ 32 - b) % 2 ^ 32

structure RangeMask where
  m_all : UnsignedRange
  m_ranges : List UnsignedRange
  deriving DecidableEq, Inhabited

namespace RangeMask

/-- An empty mask with an empty ground range. -/
def empty : RangeMask := ⟨(0, 0), []⟩

def ofRange (c : UnsignedRange) : RangeMask := ⟨c, []⟩

def lowestLoop : List UnsignedRange → ℕ → List UnsignedRange → List UnsignedRange
  | [], _, ret => ret
  | i :: l, items, ret =>
    if items = 0 then ret
    else
      let stop := min ((i.1 + items) % 2 ^ 32) i.2
      lowestLoop l (unsignedSub items (unsignedSub stop i.1)) (SortedMap.set i.1 stop ret)

def lowest (r : RangeMask) (items : ℕ) : RangeMask := ⟨r.m_all, lowestLoop r.m_ranges items []⟩

def invertedLoop : List UnsignedRange → ℕ → List UnsignedRange → ℕ × List UnsignedRange
  | [], last, ret => (last, ret)
  | i :: l, last, ret => invertedLoop l i.2 (if i.1 ≠ last then SortedMap.set last i.1 ret else ret)

def inverted (r : RangeMask) : RangeMask :=
  let (last, ret) := invertedLoop r.m_ranges r.m_all.1 []
  ⟨r.m_all, if last ≠ r.m_all.2 then SortedMap.set last r.m_all.2 ret else ret⟩

/-- The range before does not reach `i`: a new range is made, or the next higher one extended down. -/
def unionBelow (stop i : ℕ) (l : List UnsignedRange) : Option ℕ × List UnsignedRange :=
  match after i l with
  | none => (none, SortedMap.set i stop l)
  | some rangeAfter =>
    if stop < rangeAfter.1 then (none, SortedMap.set i stop l)
    else if rangeAfter.1 = i then (some rangeAfter.2, l)
    else (some rangeAfter.2, SortedMap.erase rangeAfter.1 (SortedMap.set i rangeAfter.2 l))

/-- One round of the loop: where it goes on, unless it breaks, and the ranges. -/
def unionStep (stop i : ℕ) (l : List UnsignedRange) : Option ℕ × List UnsignedRange :=
  match before i l with
  | none => unionBelow stop i l
  | some it =>
    if it.2 < i then unionBelow stop i l
    else if it.2 = i then
      match after i l with
      | none => (none, SortedMap.set it.1 stop l)
      | some rangeAfter =>
        if stop < rangeAfter.1 then (none, SortedMap.set it.1 stop l)
        else (some rangeAfter.2, SortedMap.erase rangeAfter.1 (SortedMap.set it.1 rangeAfter.2 l))
    else (some it.2, l)

/-- The loop of the union, by the numbers left to go through. An assertion that fails ends it. -/
def unionLoop (all : UnsignedRange) (stop : ℕ) : ℕ → ℕ → List UnsignedRange → Option (List UnsignedRange)
  | 0, i, l => if i < stop then none else some l
  | fuel + 1, i, l =>
    if i < stop then
      if i < all.1 ∨ all.2 ≤ i then none
      else
        match unionStep stop i l with
        | (none, l') => some l'
        | (some i', l') => unionLoop all stop fuel i' l'
    else some l

/-- `unionWith(Range)`. -/
def unionWithRange (r : RangeMask) (m : UnsignedRange) : Option RangeMask :=
  (unionLoop r.m_all m.2 (m.2 - m.1) m.1 r.m_ranges).map fun l => ⟨r.m_all, l⟩

/-- `unionWith(unsigned)`. -/
def unionWithOne (r : RangeMask) (i : ℕ) : Option RangeMask := r.unionWithRange (i, (i + 1) % 2 ^ 32)

/-- `unionWith(RangeMask)`. -/
def unionWith (r m : RangeMask) : Option RangeMask :=
  m.m_ranges.foldlM unionWithRange ⟨(min m.m_all.1 r.m_all.1, max m.m_all.2 r.m_all.2), r.m_ranges⟩

/-- `operator-=` for a range, a number and another mask. -/
def minusRange (r : RangeMask) (m : UnsignedRange) : Option RangeMask := (r.inverted.unionWithRange m).map inverted

def minusOne (r : RangeMask) (i : ℕ) : Option RangeMask := (r.inverted.unionWithOne i).map inverted

def minus (r m : RangeMask) : Option RangeMask := (r.inverted.unionWith m).map inverted

def contains (r : RangeMask) (i : ℕ) : Bool := (before i r.m_ranges).any fun it => i < it.2

def extendAll (r : RangeMask) (i : ℕ) : RangeMask :=
  { r with m_all := (min r.m_all.1 i, max r.m_all.2 ((i + 1) % 2 ^ 32)) }

def clear (r : RangeMask) : RangeMask := { r with m_ranges := [] }

/-- The smallest element that is larger than `t`, or the end of the ground range. -/
def next (r : RangeMask) (t : ℕ) : ℕ :=
  let t := (t + 1) % 2 ^ 32
  if ∃ it, before t r.m_ranges = some it ∧ t < it.2 then t
  else ((after t r.m_ranges).map Prod.fst).getD r.m_all.2

def size (r : RangeMask) : ℕ := r.m_ranges.foldl (fun c e => c + unsignedSub e.2 e.1) 0

/-- What an iterator is at from `begin` on. -/
def first (r : RangeMask) : ℕ := (r.m_ranges.head?.map Prod.fst).getD r.m_all.2

/-- What the iteration yields from a value on, unless it takes more than `fuel` steps to the end. -/
def iterateFrom (r : RangeMask) : ℕ → ℕ → Option (List ℕ)
  | 0, v => if v = r.m_all.2 then some [] else none
  | fuel + 1, v => if v = r.m_all.2 then some [] else (r.iterateFrom fuel (r.next v)).map (v :: ·)

/-! ## Masks that are well formed -/

/-- The ground range is one, and the ranges are separated and inside it. -/
structure WellFormed (r : RangeMask) : Prop where
  le : r.m_all.1 ≤ r.m_all.2
  lt : r.m_all.2 < 2 ^ 32
  separated : Separated r.m_ranges
  inside : Inside r.m_all r.m_ranges

/-- What the mask stands for. -/
def elements (r : RangeMask) : Finset ℕ := (points r.m_ranges).toFinset

variable {r m : RangeMask} {a : UnsignedRange} {i n t stop last fuel items : ℕ} {l ret : List UnsignedRange}

theorem mem_elements : n ∈ r.elements ↔ Covers r.m_ranges n := by
  rw [elements, List.mem_toFinset, mem_points]

theorem WellFormed.ground (h : r.WellFormed) (hn : n ∈ r.elements) : r.m_all.1 ≤ n ∧ n < r.m_all.2 :=
  h.inside.covers (mem_elements.1 hn)

theorem WellFormed.sort_elements (h : r.WellFormed) : r.elements.sort (· ≤ ·) = points r.m_ranges :=
  h.separated.sort_points

/-! ### Union with a range -/

/-- A round either adds all that is left of the range, or goes on past what is covered of it. -/
structure Merges (a : UnsignedRange) (stop i : ℕ) (l : List UnsignedRange) (o : Option ℕ × List UnsignedRange) :
    Prop where
  separated : Separated o.2
  inside : Inside a l → a.1 ≤ i → stop ≤ a.2 → Inside a o.2
  done : o.1 = none → ∀ n, Covers o.2 n ↔ Covers l n ∨ (i ≤ n ∧ n < stop)
  goes : ∀ j, o.1 = some j → i < j ∧
    ∀ n, (Covers o.2 n ∨ (j ≤ n ∧ n < stop)) ↔ Covers l n ∨ (i ≤ n ∧ n < stop)

theorem merges_last {b : ℕ} {l' : List UnsignedRange} (hl : Separated l) (h : Absorbs b stop l l') (hb : b ≤ i)
    (hbi : ∀ n, b ≤ n → n < i → Covers l n) (hin : Inside a l → a.1 ≤ i → a.1 ≤ b) :
    Merges a stop i l (none, l') where
  separated := h.separated hl
  inside hi h1 h2 := h.inside hi (hin hi h1) h2
  done _ n := by
    show Covers l' n ↔ _
    rw [h.covers]
    constructor
    · rintro (hn | ⟨h1, h2⟩)
      · exact .inl hn
      · by_cases hni : n < i
        · exact .inl (hbi n h1 hni)
        · exact .inr ⟨not_lt.1 hni, h2⟩
    · rintro (hn | ⟨h1, h2⟩)
      · exact .inl hn
      · exact .inr ⟨hb.trans h1, h2⟩
  goes j hj := by cases hj

theorem merges_next {b : ℕ} {f : UnsignedRange} {l' : List UnsignedRange} (hl : Separated l) (hf : f ∈ l)
    (h : Absorbs b f.2 l l') (hb : b ≤ i) (hif : i < f.1) (hfs : f.1 ≤ stop)
    (hbi : ∀ n, b ≤ n → n < i → Covers l n) (hin : Inside a l → a.1 ≤ i → a.1 ≤ b) :
    Merges a stop i l (some f.2, l') where
  separated := h.separated hl
  inside hi h1 _ := h.inside hi (hin hi h1) (hi f hf).2
  done hj := by cases hj
  goes j hj := by
    obtain rfl := Option.some.inj hj
    refine ⟨hif.trans (hl.lt f hf), fun n => ?_⟩
    show Covers l' n ∨ _ ↔ _
    rw [h.covers]
    constructor
    · rintro ((hn | ⟨h1, h2⟩) | ⟨h1, h2⟩)
      · exact .inl hn
      · by_cases hni : n < i
        · exact .inl (hbi n h1 hni)
        · by_cases hnf : f.1 ≤ n
          · exact .inl ⟨f, hf, hnf, h2⟩
          · exact .inr ⟨not_lt.1 hni, (not_le.1 hnf).trans_le hfs⟩
      · exact .inr ⟨(hif.trans (hl.lt f hf)).le.trans h1, h2⟩
    · rintro (hn | ⟨h1, h2⟩)
      · exact .inl (.inl hn)
      · by_cases hnf : n < f.2
        · exact .inl (.inr ⟨hb.trans h1, hnf⟩)
        · exact .inr ⟨not_lt.1 hnf, h2⟩

theorem unionBelow_spec (hl : Separated l) (his : i < stop) (hbelow : ∀ f ∈ l, f.1 ≤ i → f.2 < i) :
    Merges a stop i l (unionBelow stop i l) := by
  have hnone : ∀ n, i ≤ n → n < i → Covers l n := fun n h1 h2 => absurd h1 h2.not_ge
  have hnew : (∀ f ∈ l, f.1 ≤ i ∨ stop < f.1) → Absorbs i stop l (SortedMap.set i stop l) := by
    intro h
    refine hl.absorbs_set his fun e he => .inr ?_
    have hlt := hl.lt e he
    rcases h e he with hle | hgt
    · have hei := hbelow e he hle
      exact ⟨(hlt.trans hei).ne, .inl hei⟩
    · exact ⟨(his.trans hgt).ne', .inr hgt⟩
  unfold unionBelow
  cases hafter : after i l with
  | none =>
    have hall := after_eq_none hafter
    exact merges_last hl (hnew fun f hf => .inl (hall f hf)) le_rfl hnone fun _ h => h
  | some f =>
    obtain ⟨hf, hif, hfirst⟩ := after_eq_some hl.ascending hafter
    show Merges a stop i l (if stop < f.1 then _ else if f.1 = i then _ else _)
    split
    · rename_i hsf
      refine merges_last hl (hnew fun e he => ?_) le_rfl hnone fun _ h => h
      exact (hfirst e he).imp id fun hle => hsf.trans_le hle
    · rename_i hsf
      rw [if_neg hif.ne']
      refine merges_next hl hf (hl.absorbs_set_erase hf hif fun e he => ?_) le_rfl hif (not_lt.1 hsf) hnone fun _ h => h
      have hlt := hl.lt e he
      rcases hfirst e he with hle | hge
      · have hei := hbelow e he hle
        exact .inr (.inr ⟨(hlt.trans hei).ne, (hle.trans_lt hif).ne, .inl hei⟩)
      · rcases hge.lt_or_eq with hgt | heq
        · exact .inr (.inr ⟨(hif.trans hgt).ne', hgt.ne', .inr (hl.gap f hf e he hgt)⟩)
        · exact .inr (.inl heq.symm)

/-- One round of the loop keeps the ranges separated, and loses and adds nothing. -/
theorem unionStep_spec (hl : Separated l) (his : i < stop) : Merges a stop i l (unionStep stop i l) := by
  unfold unionStep
  cases hbefore : before i l with
  | none => exact unionBelow_spec hl his fun f hf hle => absurd (before_eq_none hbefore f hf) hle.not_gt
  | some it =>
    obtain ⟨hit, hle, hlast⟩ := before_eq_some hl.ascending hbefore
    have hitlt := hl.lt it hit
    -- a range that starts no later than the one before ends before that one starts
    have hprev : ∀ f ∈ l, f.1 ≤ i → f ≠ it → f.2 < it.1 := by
      intro f hf hfi hne
      have hfle : f.1 ≤ it.1 := (hlast f hf).resolve_left hfi.not_gt
      refine hl.gap f hf it hit (lt_of_le_of_ne hfle fun heq => hne ?_)
      exact hl.ascending.eq_of_fst hf hit heq
    show Merges a stop i l (if it.2 < i then _ else if it.2 = i then _ else _)
    split
    · rename_i hlt
      refine unionBelow_spec hl his fun f hf hfi => ?_
      by_cases hne : f = it
      · rwa [hne]
      · exact (hprev f hf hfi hne).trans (hitlt.trans hlt)
    · rename_i hge
      split
      · rename_i heq
        have hcov : ∀ n, it.1 ≤ n → n < i → Covers l n := fun n h1 h2 => ⟨it, hit, h1, heq ▸ h2⟩
        have hin : Inside a l → a.1 ≤ i → a.1 ≤ it.1 := fun h _ => (h it hit).1
        have hgrow : (∀ f ∈ l, f.1 ≤ i ∨ stop < f.1) → Absorbs it.1 stop l (SortedMap.set it.1 stop l) := by
          intro h
          refine hl.absorbs_set (by omega) fun e he => ?_
          by_cases hne : e = it
          · subst hne
            exact .inl ⟨rfl, by omega⟩
          · have hlt := hl.lt e he
            rcases h e he with hle' | hgt
            · have hei := hprev e he hle' hne
              exact .inr ⟨(hlt.trans hei).ne, .inl hei⟩
            · exact .inr ⟨by omega, .inr hgt⟩
        cases hafter : after i l with
        | none =>
          have hall := after_eq_none hafter
          exact merges_last hl (hgrow fun f hf => .inl (hall f hf)) hle hcov hin
        | some f =>
          obtain ⟨hf, hif, hfirst⟩ := after_eq_some hl.ascending hafter
          show Merges a stop i l (if stop < f.1 then _ else _)
          split
          · rename_i hsf
            refine merges_last hl (hgrow fun e he => ?_) hle hcov hin
            exact (hfirst e he).imp id fun hle => hsf.trans_le hle
          · rename_i hsf
            refine merges_next hl hf (hl.absorbs_set_erase hf (hle.trans_lt hif) fun e he => ?_) hle hif
              (not_lt.1 hsf) hcov hin
            have hlt := hl.lt e he
            have hflt := hl.lt f hf
            by_cases hne : e = it
            · subst hne
              exact .inl ⟨rfl, by omega⟩
            · rcases hfirst e he with hle' | hge'
              · have hei := hprev e he hle' hne
                exact .inr (.inr ⟨by omega, by omega, .inl hei⟩)
              · rcases hge'.lt_or_eq with hgt | heq'
                · exact .inr (.inr ⟨by omega, hgt.ne', .inr (hl.gap f hf e he hgt)⟩)
                · exact .inr (.inl heq'.symm)
      · rename_i hne
        refine ⟨hl, fun h _ _ => h, fun h => absurd h (Option.some_ne_none _), fun j hj => ?_⟩
        obtain rfl := Option.some.inj hj
        refine ⟨by omega, fun n => ?_⟩
        show Covers l n ∨ _ ↔ _
        constructor
        · rintro (hn | ⟨h1, h2⟩)
          · exact .inl hn
          · exact .inr ⟨by omega, h2⟩
        · rintro (hn | ⟨h1, h2⟩)
          · exact .inl hn
          · by_cases hni : n < it.2
            · exact .inl ⟨it, hit, hle.trans h1, hni⟩
            · exact .inr ⟨not_lt.1 hni, h2⟩

theorem unionLoop_spec (hl : Separated l) (hin : Inside a l) (hlow : a.1 ≤ i) (hhigh : stop ≤ a.2)
    (hfuel : stop - i ≤ fuel) : ∃ l', unionLoop a stop fuel i l = some l' ∧ Separated l' ∧ Inside a l' ∧
      ∀ n, Covers l' n ↔ Covers l n ∨ (i ≤ n ∧ n < stop) := by
  have hend : ¬ i < stop → ∀ n, Covers l n ↔ Covers l n ∨ (i ≤ n ∧ n < stop) := by
    intro his n
    exact ⟨.inl, fun h => h.resolve_right fun hn => his (hn.1.trans_lt hn.2)⟩
  induction fuel generalizing i l with
  | zero =>
    have his : ¬ i < stop := by omega
    exact ⟨l, by rw [unionLoop, if_neg his], hl, hin, hend his⟩
  | succ fuel ih =>
    unfold unionLoop
    split
    · rename_i his
      rw [if_neg (by omega)]
      have hM := unionStep_spec (a := a) hl his
      have hin' := hM.inside hin hlow hhigh
      rcases hstep : unionStep stop i l with ⟨o, l'⟩
      rw [hstep] at hM hin'
      cases o with
      | none => exact ⟨l', rfl, hM.separated, hin', hM.done rfl⟩
      | some j =>
        obtain ⟨hij, hcov⟩ := hM.goes j rfl
        have hend' : ¬ j < stop → ∀ n, Covers l' n ↔ Covers l' n ∨ (j ≤ n ∧ n < stop) := by
          intro hjs n
          exact ⟨.inl, fun h => h.resolve_right fun hn => hjs (hn.1.trans_lt hn.2)⟩
        obtain ⟨l₁, heq, hsep, hins, hcov₁⟩ := ih hM.separated hin' (by omega) (by omega) hend'
        exact ⟨l₁, heq, hsep, hins, fun n => (hcov₁ n).trans (hcov n)⟩
    · rename_i his
      exact ⟨l, rfl, hl, hin, hend his⟩

theorem unionWithRange_spec (h : r.WellFormed) (ha : a.1 < a.2 → r.m_all.1 ≤ a.1 ∧ a.2 ≤ r.m_all.2) :
    ∃ r', r.unionWithRange a = some r' ∧ r'.WellFormed ∧ r'.m_all = r.m_all ∧
      r'.elements = r.elements ∪ Finset.Ico a.1 a.2 := by
  by_cases hlt : a.1 < a.2
  · obtain ⟨l, heq, hsep, hin, hcov⟩ :=
      unionLoop_spec h.separated h.inside (ha hlt).1 (ha hlt).2 (le_refl (a.2 - a.1))
    refine ⟨⟨r.m_all, l⟩, by rw [unionWithRange, heq]; rfl, ⟨h.le, h.lt, hsep, hin⟩, rfl, ?_⟩
    ext n
    rw [Finset.mem_union, mem_elements, mem_elements, Finset.mem_Ico]
    exact hcov n
  · have hzero : a.2 - a.1 = 0 := by omega
    refine ⟨r, ?_, h, rfl, ?_⟩
    · rw [unionWithRange, hzero, unionLoop, if_neg hlt]
      rfl
    · rw [Finset.Ico_eq_empty hlt, Finset.union_empty]

theorem unionWithOne_spec (h : r.WellFormed) (hi : r.m_all.1 ≤ i ∧ i < r.m_all.2) :
    ∃ r', r.unionWithOne i = some r' ∧ r'.WellFormed ∧ r'.m_all = r.m_all ∧ r'.elements = insert i r.elements := by
  have hlt := h.lt
  have hmod : (i + 1) % 2 ^ 32 = i + 1 := Nat.mod_eq_of_lt (by omega)
  obtain ⟨r', heq, hwf, hall, hel⟩ := unionWithRange_spec (a := (i, i + 1)) h fun _ => ⟨hi.1, hi.2⟩
  refine ⟨r', by rw [unionWithOne, hmod]; exact heq, hwf, hall, ?_⟩
  rw [hel]
  ext n
  rw [Finset.mem_union, Finset.mem_Ico, Finset.mem_insert, or_comm]
  exact or_congr_left (by show i ≤ n ∧ n < i + 1 ↔ n = i; omega)

/-- The union of the ground ranges. -/
def hull (r m : RangeMask) : UnsignedRange := (min m.m_all.1 r.m_all.1, max m.m_all.2 r.m_all.2)

theorem foldlM_unionWithRange (hr : r.WellFormed) (hl : Inside r.m_all l) :
    ∃ r', l.foldlM unionWithRange r = some r' ∧ r'.WellFormed ∧ r'.m_all = r.m_all ∧
      r'.elements = r.elements ∪ (points l).toFinset := by
  induction l generalizing r with
  | nil => exact ⟨r, rfl, hr, rfl, (Finset.union_empty _).symm⟩
  | cons e l ih =>
    obtain ⟨he, hl⟩ := inside_cons.1 hl
    obtain ⟨r₁, heq, hwf, hall, hel⟩ := unionWithRange_spec (a := e) hr fun _ => he
    obtain ⟨r₂, heq₂, hwf₂, hall₂, hel₂⟩ := ih hwf (hall ▸ hl)
    refine ⟨r₂, ?_, hwf₂, hall₂.trans hall, ?_⟩
    · rw [List.foldlM_cons, heq]
      exact heq₂
    · rw [hel₂, hel, points_cons, List.toFinset_append, Finset.union_assoc]
      congr 2
      ext n
      rw [Finset.mem_Ico, List.mem_toFinset, List.mem_range'_1]
      omega

theorem WellFormed.hulled (h : r.WellFormed) (hm : m.WellFormed) : WellFormed ⟨r.hull m, r.m_ranges⟩ where
  le := by
    have h1 := h.le
    show min m.m_all.1 r.m_all.1 ≤ max m.m_all.2 r.m_all.2
    omega
  lt := by
    have h1 := h.lt
    have h2 := hm.lt
    show max m.m_all.2 r.m_all.2 < 2 ^ 32
    omega
  separated := h.separated
  inside e he := ⟨(min_le_right _ _).trans (h.inside e he).1, (h.inside e he).2.trans (le_max_right _ _)⟩

theorem unionWith_spec (h : r.WellFormed) (hm : m.WellFormed) :
    ∃ r', r.unionWith m = some r' ∧ r'.WellFormed ∧ r'.m_all = r.hull m ∧ r'.elements = r.elements ∪ m.elements := by
  have hin : Inside (r.hull m) m.m_ranges := fun e he =>
    ⟨(min_le_left _ _).trans (hm.inside e he).1, (hm.inside e he).2.trans (le_max_left _ _)⟩
  exact foldlM_unionWithRange (h.hulled hm) hin

/-! ### Complement and difference -/

theorem invertedLoop_eq (hl : Separated l) (hlow : ∀ e ∈ l, last ≤ e.1) (hret : ∀ e ∈ ret, e.1 < last) :
    (if (invertedLoop l last ret).1 ≠ stop then
        SortedMap.set (invertedLoop l last ret).1 stop (invertedLoop l last ret).2
      else (invertedLoop l last ret).2) = ret ++ gaps last stop l := by
  induction l generalizing last ret with
  | nil =>
    unfold invertedLoop gaps
    split
    · exact SortedMap.set_of_forall_lt hret
    · exact (List.append_nil ret).symm
  | cons e l ih =>
    obtain ⟨hlt, hgap, hl⟩ := separated_cons.1 hl
    have hle := hlow e List.mem_cons_self
    unfold invertedLoop gaps
    split
    · have hret' : ∀ x ∈ SortedMap.set last e.1 ret, x.1 < e.2 := by
        rw [SortedMap.set_of_forall_lt hret]
        intro x hx
        rcases List.mem_append.1 hx with hx | hx
        · exact (hret x hx).trans (hle.trans_lt hlt)
        · rw [List.mem_singleton.1 hx]
          exact hle.trans_lt hlt
      rw [ih hl (fun f hf => (hgap f hf).le) hret', SortedMap.set_of_forall_lt hret, List.append_assoc]
      rfl
    · exact ih hl (fun f hf => (hgap f hf).le) fun x hx => (hret x hx).trans (hle.trans_lt hlt)

theorem inverted_ranges (h : r.WellFormed) : r.inverted.m_ranges = gaps r.m_all.1 r.m_all.2 r.m_ranges :=
  invertedLoop_eq h.separated (fun e he => (h.inside e he).1) fun _ he => absurd he List.not_mem_nil

theorem inverted_spec (h : r.WellFormed) : r.inverted.WellFormed ∧ r.inverted.m_all = r.m_all ∧
    r.inverted.elements = Finset.Ico r.m_all.1 r.m_all.2 \ r.elements := by
  obtain ⟨hsep, hin, hcov⟩ := gaps_spec h.separated h.inside h.le
  rw [← inverted_ranges h] at hsep hin hcov
  refine ⟨⟨h.le, h.lt, hsep, hin⟩, rfl, ?_⟩
  ext n
  rw [Finset.mem_sdiff, Finset.mem_Ico, mem_elements, mem_elements]
  exact hcov n

theorem minusRange_spec (h : r.WellFormed) (ha : a.1 < a.2 → r.m_all.1 ≤ a.1 ∧ a.2 ≤ r.m_all.2) :
    ∃ r', r.minusRange a = some r' ∧ r'.WellFormed ∧ r'.m_all = r.m_all ∧
      r'.elements = r.elements \ Finset.Ico a.1 a.2 := by
  obtain ⟨hinv, hall, hel⟩ := inverted_spec h
  obtain ⟨r₁, heq, hwf, hall₁, hel₁⟩ := unionWithRange_spec (a := a) hinv (by rwa [hall])
  obtain ⟨hwf₂, hall₂, hel₂⟩ := inverted_spec hwf
  refine ⟨r₁.inverted, by rw [minusRange, heq]; rfl, hwf₂, hall₂.trans (hall₁.trans hall), ?_⟩
  rw [hel₂, hel₁, hel, hall₁, hall]
  ext n
  have := h.ground (n := n)
  simp only [Finset.mem_sdiff, Finset.mem_union, Finset.mem_Ico]
  tauto

theorem minusOne_spec (h : r.WellFormed) (hi : r.m_all.1 ≤ i ∧ i < r.m_all.2) :
    ∃ r', r.minusOne i = some r' ∧ r'.WellFormed ∧ r'.m_all = r.m_all ∧ r'.elements = r.elements.erase i := by
  obtain ⟨hinv, hall, hel⟩ := inverted_spec h
  obtain ⟨r₁, heq, hwf, hall₁, hel₁⟩ := unionWithOne_spec (i := i) hinv (by rwa [hall])
  obtain ⟨hwf₂, hall₂, hel₂⟩ := inverted_spec hwf
  refine ⟨r₁.inverted, by rw [minusOne, heq]; rfl, hwf₂, hall₂.trans (hall₁.trans hall), ?_⟩
  rw [hel₂, hel₁, hel, hall₁, hall]
  ext n
  have := h.ground (n := n)
  simp only [Finset.mem_sdiff, Finset.mem_insert, Finset.mem_Ico, Finset.mem_erase]
  tauto

/-- What the code takes for the difference of two masks. -/
theorem minus_spec (h : r.WellFormed) (hm : m.WellFormed) : ∃ r', r.minus m = some r' ∧ r'.WellFormed ∧
    r'.m_all = r.hull m ∧
    r'.elements = Finset.Ico (r.hull m).1 (r.hull m).2 \
      ((Finset.Ico r.m_all.1 r.m_all.2 \ r.elements) ∪ m.elements) := by
  obtain ⟨hinv, hall, hel⟩ := inverted_spec h
  obtain ⟨r₁, heq, hwf, hall₁, hel₁⟩ := unionWith_spec hinv hm
  obtain ⟨hwf₂, hall₂, hel₂⟩ := inverted_spec hwf
  have hhull : r.inverted.hull m = r.hull m := by rw [hull, hull, hall]
  refine ⟨r₁.inverted, by rw [minus, heq]; rfl, hwf₂, hall₂.trans (hall₁.trans hhull), ?_⟩
  calc r₁.inverted.elements = Finset.Ico r₁.m_all.1 r₁.m_all.2 \ r₁.elements := hel₂
    _ = Finset.Ico (r.hull m).1 (r.hull m).2 \ (r.inverted.elements ∪ m.elements) := by
        rw [hall₁, hhull, hel₁]
    _ = Finset.Ico (r.hull m).1 (r.hull m).2 \
          ((Finset.Ico r.m_all.1 r.m_all.2 \ r.elements) ∪ m.elements) := by rw [hel]

/-- The right operand holds every number of the joint ground range that is outside the left one's. -/
def FillsGround (r m : RangeMask) : Prop :=
  ∀ n, (r.hull m).1 ≤ n → n < (r.hull m).2 → n < r.m_all.1 ∨ r.m_all.2 ≤ n → n ∈ m.elements

theorem minus_iff (h : r.WellFormed) (hm : m.WellFormed) {r' : RangeMask} (heq : r.minus m = some r') :
    r'.elements = r.elements \ m.elements ↔ r.FillsGround m := by
  obtain ⟨r₁, heq₁, -, -, hel⟩ := minus_spec h hm
  obtain rfl := Option.some.inj (heq₁.symm.trans heq)
  rw [hel]
  constructor
  · intro hset n h1 h2 hout
    by_contra hn
    have hmem : n ∈ r.elements \ m.elements := by
      rw [← hset, Finset.mem_sdiff, Finset.mem_Ico, Finset.mem_union, Finset.mem_sdiff, Finset.mem_Ico]
      refine ⟨⟨h1, h2⟩, ?_⟩
      rintro (⟨hin, -⟩ | hin)
      · omega
      · exact hn hin
    have := h.ground (Finset.mem_sdiff.1 hmem).1
    omega
  · intro hfill
    ext n
    have hground := h.ground (n := n)
    have hfill := hfill n
    have hhull : r.m_all.1 ≤ n ∧ n < r.m_all.2 → (r.hull m).1 ≤ n ∧ n < (r.hull m).2 := by
      unfold hull
      omega
    simp only [Finset.mem_sdiff, Finset.mem_union, Finset.mem_Ico]
    constructor
    · rintro ⟨⟨h1, h2⟩, h3⟩
      refine ⟨?_, fun hm => h3 (.inr hm)⟩
      by_contra hn
      by_cases hin : r.m_all.1 ≤ n ∧ n < r.m_all.2
      · exact h3 (.inl ⟨hin, hn⟩)
      · exact h3 (.inr (hfill h1 h2 (by omega)))
    · rintro ⟨h1, h2⟩
      refine ⟨hhull (hground h1), ?_⟩
      rintro (⟨-, h3⟩ | h3)
      · exact h3 h1
      · exact h2 h3

end RangeMask

end Petrachor
