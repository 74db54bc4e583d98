import Petrachor.RangeMask

/-!
# Range masks as sets

What the queries of a well-formed mask say of the set it stands for, and what a program that works on several masks
leaves in each of them. The difference is right if the right operand holds all of the joint ground range that the left
one's leaves out, and the lowest elements are right if no sum with the number of them that is left wraps.
-/

namespace Petrachor

open Intervals

namespace RangeMask

variable {r m : RangeMask} {a : UnsignedRange} {i n t stop last fuel items : ℕ} {l ret : List UnsignedRange}

/-! ### Queries -/

theorem contains_iff (h : r.WellFormed) : r.contains i = true ↔ i ∈ r.elements := by
  rw [mem_elements]
  unfold contains
  cases hb : before i r.m_ranges with
  | none =>
    refine iff_of_false (by simp) ?_
    rintro ⟨e, he, hle, -⟩
    exact absurd (before_eq_none hb e he) hle.not_gt
  | some e =>
    obtain ⟨he, hle, hlast⟩ := before_eq_some h.separated.ascending hb
    show decide (i < e.2) = true ↔ _
    rw [decide_eq_true_eq]
    constructor
    · exact fun hlt => ⟨e, he, hle, hlt⟩
    · rintro ⟨f, hf, hfi, hif⟩
      have hfe : f.1 ≤ e.1 := (hlast f hf).resolve_left hfi.not_gt
      rcases hfe.lt_or_eq with hlt | heq
      · have := h.separated.gap f hf e he hlt
        omega
      · rwa [h.separated.ascending.eq_of_fst hf he heq] at hif

theorem unsignedSub_of_le {a b : ℕ} (hba : b ≤ a) (ha : a < 2 ^ 32) : unsignedSub a b = a - b := by
  unfold unsignedSub
  omega

theorem foldl_size (hl : Separated l) (hlt : ∀ e ∈ l, e.2 < 2 ^ 32) (c : ℕ) :
    l.foldl (fun c e => c + unsignedSub e.2 e.1) c = c + (points l).length := by
  induction l generalizing c with
  | nil => rfl
  | cons e l ih =>
    obtain ⟨he, -, hl⟩ := separated_cons.1 hl
    have hsub := unsignedSub_of_le he.le (hlt e List.mem_cons_self)
    rw [List.foldl_cons, ih hl (fun f hf => hlt f (List.mem_cons_of_mem _ hf)), hsub, points_cons, List.length_append,
      List.length_range', Nat.add_assoc]

theorem size_eq (h : r.WellFormed) : r.size = r.elements.card := by
  have hlt : ∀ e ∈ r.m_ranges, e.2 < 2 ^ 32 := fun e he => (h.inside e he).2.trans_lt h.lt
  have hcard : r.elements.card = (points r.m_ranges).length := by
    rw [← Finset.length_sort (· ≤ ·), h.sort_elements]
  rw [size, foldl_size h.separated hlt, hcard, Nat.zero_add]

theorem next_eq (h : r.WellFormed) (ht : t + 1 < 2 ^ 32) :
    r.next t = ((r.elements.sort (· ≤ ·)).find? fun n => t < n).getD r.m_all.2 := by
  rw [h.sort_elements, ← h.separated.next_spec, next, Nat.mod_eq_of_lt ht]

/-- After the last of all numbers the search begins anew. -/
theorem next_last (h : r.WellFormed) : r.next (2 ^ 32 - 1) = r.m_all.2 ↔ r.elements = ∅ := by
  have hzero : (2 ^ 32 - 1 + 1) % 2 ^ 32 = 0 := by norm_num
  unfold next
  rw [hzero]
  constructor
  · intro heq
    rw [Finset.eq_empty_iff_forall_notMem]
    intro n hn
    obtain ⟨e, he, hen, hne⟩ := mem_elements.1 hn
    have hlow := h.inside e he
    have hlt := h.separated.lt e he
    dsimp only at heq
    split at heq
    · rename_i hb
      obtain ⟨f, hf, hpos⟩ := hb
      have := (h.inside f (before_eq_some h.separated.ascending hf).1).2
      omega
    · rename_i hb
      cases ha : after 0 r.m_ranges with
      | none =>
        have hzero := after_eq_none ha
        cases hbef : before 0 r.m_ranges with
        | none =>
          have := before_eq_none hbef e he
          have := hzero e he
          omega
        | some f =>
          have hf := (before_eq_some h.separated.ascending hbef).1
          have := h.separated.lt f hf
          exact hb ⟨f, hbef, by omega⟩
      | some f =>
        rw [ha] at heq
        have hf := (after_eq_some h.separated.ascending ha).1
        have := h.separated.lt f hf
        have := (h.inside f hf).2
        have heq : f.1 = r.m_all.2 := heq
        omega
  · intro hempty
    have hnil : r.m_ranges = [] := by
      refine List.eq_nil_iff_forall_not_mem.2 fun e he => ?_
      have hmem : e.1 ∈ r.elements := mem_elements.2 ⟨e, he, le_rfl, h.separated.lt e he⟩
      rw [hempty] at hmem
      exact Finset.notMem_empty _ hmem
    rw [hnil]
    rfl

/-! ### Iteration -/

theorem first_eq (h : r.WellFormed) : r.first = (points r.m_ranges).head?.getD r.m_all.2 := by
  unfold first
  rcases hr : r.m_ranges with _ | ⟨e, l⟩
  · rfl
  · have hlt : e.1 < e.2 := h.separated.lt e (by rw [hr]; exact List.mem_cons_self)
    obtain ⟨k, hk⟩ : ∃ k, e.2 - e.1 = k + 1 := ⟨e.2 - e.1 - 1, by omega⟩
    rw [points_cons, hk]
    rfl

theorem iterateFrom_eq (h : r.WellFormed) {l bs : List ℕ} (hp : points r.m_ranges = l ++ bs) :
    r.iterateFrom bs.length (bs.head?.getD r.m_all.2) = some bs := by
  induction bs generalizing l with
  | nil => exact if_pos rfl
  | cons b bs ih =>
    have hmem : b ∈ r.elements := mem_elements.2 (mem_points.1 (by rw [hp]; simp))
    have hb := h.ground hmem
    have hlt := h.lt
    have hnext : r.next b = bs.head?.getD r.m_all.2 := by
      rw [next_eq h (by omega), h.sort_elements, hp]
      have hpair := h.separated.pairwise_points
      rw [hp, List.pairwise_append] at hpair
      obtain ⟨-, hbs, has⟩ := hpair
      have hskip : l.find? (fun n => b < n) = none := List.find?_eq_none.2 fun n hn => by
        have := has n hn b List.mem_cons_self
        simpa using this.le
      rw [List.find?_append, hskip, Option.none_or, List.find?_cons_of_neg (by simp)]
      rcases bs with _ | ⟨c, bs⟩
      · rfl
      · have hbc : b < c := (List.pairwise_cons.1 hbs).1 c List.mem_cons_self
        rw [List.find?_cons_of_pos (by simpa using hbc)]
        rfl
    have hrest := ih (l := l ++ [b]) (by rw [hp, List.append_assoc]; rfl)
    show r.iterateFrom (bs.length + 1) b = _
    rw [iterateFrom, if_neg (by omega), hnext, hrest]
    rfl

theorem iterate_eq (h : r.WellFormed) : r.iterateFrom r.size r.first = some (r.elements.sort (· ≤ ·)) := by
  rw [size_eq h, ← Finset.length_sort (· ≤ ·), h.sort_elements, first_eq h]
  exact iterateFrom_eq h (l := []) rfl

/-! ### The lowest elements -/

/-- No sum of the begin of a range and the number of elements still to be taken wraps. -/
def NoWrap (l : List UnsignedRange) (items : ℕ) : Prop :=
  ∀ e ∈ l, (points l).countP (· < e.1) < items → e.1 + (items - (points l).countP (· < e.1)) < 2 ^ 32

theorem countP_points_cons {e f : UnsignedRange} (hef : e.2 < f.1) (hlt : e.1 < e.2) :
    (points (e :: l)).countP (· < f.1) = (e.2 - e.1) + (points l).countP (· < f.1) := by
  have hall : (List.range' e.1 (e.2 - e.1)).countP (· < f.1) = e.2 - e.1 := by
    have hcount : (List.range' e.1 (e.2 - e.1)).countP (· < f.1) = (List.range' e.1 (e.2 - e.1)).length := by
      refine List.countP_eq_length.2 fun n hn => ?_
      rw [List.mem_range'_1] at hn
      simp only [decide_eq_true_eq]
      omega
    rw [hcount, List.length_range']
  rw [points_cons, List.countP_append, hall]

theorem lowestLoop_eq (hl : Separated l) (hlt : ∀ e ∈ l, e.2 < 2 ^ 32) (hitems : items < 2 ^ 32)
    (hw : NoWrap l items) (hret : ∀ x ∈ ret, ∀ e ∈ l, x.1 < e.1) :
    lowestLoop l items ret = ret ++ firstPoints items l := by
  induction l generalizing items ret with
  | nil => exact (List.append_nil ret).symm
  | cons e l ih =>
    obtain ⟨he, hgap, hl⟩ := separated_cons.1 hl
    have he32 := hlt e List.mem_cons_self
    unfold lowestLoop firstPoints
    split
    · exact (List.append_nil ret).symm
    · rename_i hpos
      have hzero : (points (e :: l)).countP (· < e.1) = 0 := by
        refine List.countP_eq_zero.2 fun n hn => ?_
        obtain ⟨f, hf, hfn, -⟩ := mem_points.1 hn
        simp only [decide_eq_true_eq]
        rcases List.mem_cons.1 hf with rfl | hf
        · omega
        · have := hgap f hf
          omega
      have hnowrap : e.1 + items < 2 ^ 32 := by
        have := hw e List.mem_cons_self
        rw [hzero] at this
        exact this (by omega)
      have hstop : min ((e.1 + items) % 2 ^ 32) e.2 = min (e.1 + items) e.2 := by
        rw [Nat.mod_eq_of_lt hnowrap]
      have hsub : unsignedSub (min (e.1 + items) e.2) e.1 = min (e.1 + items) e.2 - e.1 :=
        unsignedSub_of_le (by omega) (by omega)
      have hleft : unsignedSub items (min (e.1 + items) e.2 - e.1) = items - (min (e.1 + items) e.2 - e.1) :=
        unsignedSub_of_le (by omega) hitems
      have hset : SortedMap.set e.1 (min (e.1 + items) e.2) ret = ret ++ [(e.1, min (e.1 + items) e.2)] :=
        SortedMap.set_of_forall_lt fun x hx => hret x hx e List.mem_cons_self
      dsimp only
      rw [hstop, hsub, hleft, hset, ih hl (fun f hf => hlt f (List.mem_cons_of_mem _ hf)) (by omega), List.append_assoc]
      · rfl
      · intro f hf hk
        have hw' := hw f (List.mem_cons_of_mem _ hf)
        rw [countP_points_cons (hgap f hf) he] at hw'
        omega
      · intro x hx f hf
        rcases List.mem_append.1 hx with hx | hx
        · exact hret x hx f (List.mem_cons_of_mem _ hf)
        · rw [List.mem_singleton.1 hx]
          exact he.trans (hgap f hf)

theorem lowest_spec (h : r.WellFormed) (hitems : items < 2 ^ 32) (hw : NoWrap r.m_ranges items) :
    (r.lowest items).WellFormed ∧ (r.lowest items).m_all = r.m_all ∧
      (r.lowest items).elements = ((r.elements.sort (· ≤ ·)).take items).toFinset := by
  have heq : (r.lowest items).m_ranges = firstPoints items r.m_ranges :=
    lowestLoop_eq h.separated (fun e he => (h.inside e he).2.trans_lt h.lt) hitems hw
      fun _ hx => absurd hx List.not_mem_nil
  refine ⟨⟨h.le, h.lt, ?_, ?_⟩, rfl, ?_⟩
  · rw [heq]
    exact h.separated.firstPoints items
  · rw [heq]
    exact h.inside.firstPoints items
  · rw [elements, heq, points_firstPoints h.separated, h.sort_elements]

end RangeMask

/-! ## Programs on several masks -/

/-- A set of unsigned integers relative to a ground range. -/
structure RangeSet where
  ground : UnsignedRange
  elements : Finset ℕ

namespace RangeSet

def empty : RangeSet := ⟨(0, 0), ∅⟩

/-- The elements in ascending order. -/
def list (s : RangeSet) : List ℕ := s.elements.sort (· ≤ ·)

def hull (s t : RangeSet) : UnsignedRange := (min t.ground.1 s.ground.1, max t.ground.2 s.ground.2)

def union (s t : RangeSet) : RangeSet := ⟨s.hull t, s.elements ∪ t.elements⟩

def diff (s t : RangeSet) : RangeSet := ⟨s.hull t, s.elements \ t.elements⟩

def compl (s : RangeSet) : RangeSet := ⟨s.ground, Finset.Ico s.ground.1 s.ground.2 \ s.elements⟩

def lowest (s : RangeSet) (n : ℕ) : RangeSet := ⟨s.ground, (s.list.take n).toFinset⟩

end RangeSet

/-- What is done with the masks of a program, which it names by numbers. -/
inductive MaskOp
  | construct (x : ℕ) (b e : UInt32)
  | copy (x y : ℕ)
  | addRange (x : ℕ) (b e : UInt32)
  | addOne (x : ℕ) (i : UInt32)
  | add (x y : ℕ)
  | subRange (x : ℕ) (b e : UInt32)
  | subOne (x : ℕ) (i : UInt32)
  | sub (x y : ℕ)
  | plus (x y z : ℕ)
  | minus (x y z : ℕ)
  | invert (x : ℕ)
  | complement (x y : ℕ)
  | lowest (x y : ℕ) (n : UInt32)
  | extendAll (x : ℕ) (i : UInt32)
  | clear (x : ℕ)
  | reset (x : ℕ)

namespace MaskOp

open RangeMask Function

/-- An operation on the masks. Where it is an operator with an assignment, the right operand is read in the course of
it, and may be the left one. -/
def apply (s : ℕ → RangeMask) : MaskOp → Option (ℕ → RangeMask)
  | construct x b e => some (update s x (ofRange (b.toNat, e.toNat)))
  | copy x y => some (update s x (s y))
  | addRange x b e => ((s x).unionWithRange (b.toNat, e.toNat)).map (update s x)
  | addOne x i => ((s x).unionWithOne i.toNat).map (update s x)
  | add x y => ((s x).unionWith (s y)).map (update s x)
  | subRange x b e => ((s x).minusRange (b.toNat, e.toNat)).map (update s x)
  | subOne x i => ((s x).minusOne i.toNat).map (update s x)
  | sub x y =>
    let s' := update s x (s x).inverted
    ((s' x).unionWith (s' y)).map fun r => update s' x r.inverted
  | plus x y z => ((s y).unionWith (s z)).map (update s x)
  | minus x y z => ((s y).minus (s z)).map (update s x)
  | invert x => some (update s x (s x).inverted)
  | complement x y => some (update s x (s y).inverted)
  | lowest x y n => some (update s x ((s y).lowest n.toNat))
  | extendAll x i => some (update s x ((s x).extendAll i.toNat))
  | clear x => some (update s x (s x).clear)
  | reset x => some (update s x RangeMask.empty)

/-- The same on sets. -/
def denote (s : ℕ → RangeSet) : MaskOp → ℕ → RangeSet
  | construct x b e => update s x ⟨(b.toNat, e.toNat), ∅⟩
  | copy x y => update s x (s y)
  | addRange x b e => update s x ⟨(s x).ground, (s x).elements ∪ Finset.Ico b.toNat e.toNat⟩
  | addOne x i => update s x ⟨(s x).ground, insert i.toNat (s x).elements⟩
  | add x y => update s x ((s x).union (s y))
  | subRange x b e => update s x ⟨(s x).ground, (s x).elements \ Finset.Ico b.toNat e.toNat⟩
  | subOne x i => update s x ⟨(s x).ground, (s x).elements.erase i.toNat⟩
  | sub x y => update s x ((s x).diff (s y))
  | plus x y z => update s x ((s y).union (s z))
  | minus x y z => update s x ((s y).diff (s z))
  | invert x => update s x (s x).compl
  | complement x y => update s x (s y).compl
  | lowest x y n => update s x ((s y).lowest n.toNat)
  | extendAll x i => update s x
      ⟨(min (s x).ground.1 i.toNat, max (s x).ground.2 ((i.toNat + 1) % 2 ^ 32)), (s x).elements⟩
  | clear x => update s x ⟨(s x).ground, ∅⟩
  | reset x => update s x RangeSet.empty

/-- A range is inside the ground range, as a union with it asks for, and the same of a number. -/
def InGround (r : RangeMask) (b e : UInt32) : Prop := b.toNat < e.toNat → r.m_all.1 ≤ b.toNat ∧ e.toNat ≤ r.m_all.2

/-- A ground range is one, what is added or taken away by itself is in the ground range, a difference of masks fills up
the joint ground range, and of a mask with itself is that of an empty one, and the count of the lowest elements does
not wrap. -/
def Meets (s : ℕ → RangeMask) : MaskOp → Prop
  | construct _ b e => b.toNat ≤ e.toNat
  | addRange x b e => InGround (s x) b e
  | addOne x i => (s x).m_all.1 ≤ i.toNat ∧ i.toNat < (s x).m_all.2
  | subRange x b e => InGround (s x) b e
  | subOne x i => (s x).m_all.1 ≤ i.toNat ∧ i.toNat < (s x).m_all.2
  | sub x y => if x = y then (s x).elements = ∅ else (s x).FillsGround (s y)
  | minus _ y z => (s y).FillsGround (s z)
  | lowest _ y n => NoWrap (s y).m_ranges n.toNat
  | _ => True

/-- The mask is well formed and stands for the set. -/
structure Shows (r : RangeMask) (t : RangeSet) : Prop where
  wellFormed : r.WellFormed
  ground : r.m_all = t.ground
  elements : r.elements = t.elements

variable {s s' : ℕ → RangeMask} {t : ℕ → RangeSet} {r : RangeMask} {u : RangeSet} {op : MaskOp} {x y : ℕ}

theorem shows_empty : Shows RangeMask.empty RangeSet.empty :=
  ⟨⟨le_rfl, by decide, .nil, fun _ he => absurd he List.not_mem_nil⟩, rfl, rfl⟩

theorem Shows.hull {m : RangeMask} {v : RangeSet} (h : Shows r u) (hm : Shows m v) : r.hull m = u.hull v := by
  unfold RangeMask.hull RangeSet.hull
  rw [h.ground, hm.ground]

theorem shows_update (h : ∀ z, Shows (s z) (t z)) (hr : Shows r u) (z : ℕ) :
    Shows (update s x r z) (update t x u z) := by
  by_cases hz : z = x
  · rw [hz, update_self, update_self]
    exact hr
  · rw [update_of_ne hz, update_of_ne hz]
    exact h z

theorem Shows.inverted (h : Shows r u) : Shows r.inverted u.compl := by
  obtain ⟨hwf, hall, hel⟩ := inverted_spec h.wellFormed
  refine ⟨hwf, hall.trans h.ground, ?_⟩
  rw [hel, h.ground, h.elements]
  rfl

theorem Shows.unionWith {m : RangeMask} {v : RangeSet} (h : Shows r u) (hm : Shows m v) :
    ∃ r', r.unionWith m = some r' ∧ Shows r' (u.union v) := by
  obtain ⟨r', heq, hwf, hall, hel⟩ := unionWith_spec h.wellFormed hm.wellFormed
  refine ⟨r', heq, hwf, hall.trans (h.hull hm), ?_⟩
  rw [hel, h.elements, hm.elements]
  rfl

theorem Shows.minus {m : RangeMask} {v : RangeSet} (h : Shows r u) (hm : Shows m v) (hfill : r.FillsGround m) :
    ∃ r', r.minus m = some r' ∧ Shows r' (u.diff v) := by
  obtain ⟨r', heq, hwf, hall, -⟩ := minus_spec h.wellFormed hm.wellFormed
  refine ⟨r', heq, hwf, hall.trans (h.hull hm), ?_⟩
  rw [(minus_iff h.wellFormed hm.wellFormed heq).2 hfill, h.elements, hm.elements]
  rfl

/-- A mask minus itself, which has become its own complement when it is read. -/
theorem inverted_unionWith_self (h : r.WellFormed) :
    ∃ r', r.inverted.unionWith r.inverted = some r' ∧ r'.inverted.WellFormed ∧ r'.inverted.m_all = r.m_all ∧
      r'.inverted.elements = r.elements := by
  obtain ⟨hinv, hall, hel⟩ := inverted_spec h
  obtain ⟨r', heq, hwf, hall', hel'⟩ := unionWith_spec hinv hinv
  obtain ⟨hwf₂, hall₂, hel₂⟩ := inverted_spec hwf
  have hhull : r.inverted.hull r.inverted = r.m_all := by
    unfold RangeMask.hull
    rw [min_self, max_self, hall]
  have hground : r'.inverted.m_all = r.m_all := by
    calc r'.inverted.m_all = r'.m_all := hall₂
      _ = r.inverted.hull r.inverted := hall'
      _ = r.m_all := hhull
  refine ⟨r', heq, hwf₂, hground, ?_⟩
  rw [hel₂, hel', hel, hall', hhull, Finset.union_self]
  ext n
  have := h.ground (n := n)
  rw [Finset.mem_sdiff, Finset.mem_sdiff, Finset.mem_Ico]
  tauto

/-- One operation keeps every mask at the set it stands for. -/
theorem apply_shows (h : ∀ z, Shows (s z) (t z)) (hop : op.Meets s) :
    ∃ s', op.apply s = some s' ∧ ∀ z, Shows (s' z) (op.denote t z) := by
  have hmap : ∀ {o : Option RangeMask} {x : ℕ} {u : RangeSet}, (∃ r, o = some r ∧ Shows r u) →
      ∃ s', o.map (update s x) = some s' ∧ ∀ z, Shows (s' z) (update t x u z) := by
    rintro _ x u ⟨r, rfl, hr⟩
    exact ⟨_, rfl, shows_update h hr⟩
  cases op with
  | construct x b e =>
    refine ⟨_, rfl, shows_update h ⟨⟨hop, e.toNat_lt, .nil, ?_⟩, rfl, rfl⟩⟩
    exact fun _ he => absurd he List.not_mem_nil
  | copy x y => exact ⟨_, rfl, shows_update h (h y)⟩
  | addRange x b e =>
    obtain ⟨r, heq, hwf, hall, hel⟩ := unionWithRange_spec (a := (b.toNat, e.toNat)) (h x).wellFormed hop
    exact hmap ⟨r, heq, hwf, hall.trans (h x).ground, by rw [hel, (h x).elements]⟩
  | addOne x i =>
    obtain ⟨r, heq, hwf, hall, hel⟩ := unionWithOne_spec (h x).wellFormed hop
    exact hmap ⟨r, heq, hwf, hall.trans (h x).ground, by rw [hel, (h x).elements]⟩
  | add x y => exact hmap ((h x).unionWith (h y))
  | subRange x b e =>
    obtain ⟨r, heq, hwf, hall, hel⟩ := minusRange_spec (a := (b.toNat, e.toNat)) (h x).wellFormed hop
    exact hmap ⟨r, heq, hwf, hall.trans (h x).ground, by rw [hel, (h x).elements]⟩
  | subOne x i =>
    obtain ⟨r, heq, hwf, hall, hel⟩ := minusOne_spec (h x).wellFormed hop
    exact hmap ⟨r, heq, hwf, hall.trans (h x).ground, by rw [hel, (h x).elements]⟩
  | sub x y =>
    have hinv : ∀ r, update (update s x (s x).inverted) x r = update s x r := fun r => update_idem _ _ _
    by_cases hxy : x = y
    · subst hxy
      have hempty : (s x).elements = ∅ := by simpa [Meets] using hop
      obtain ⟨r, heq, hwf, hall, hel⟩ := inverted_unionWith_self (h x).wellFormed
      refine ⟨update s x r.inverted, ?_, shows_update h ⟨hwf, ?_, ?_⟩⟩
      · simp only [apply, update_self, heq, Option.map_some, hinv]
      · rw [hall, (h x).ground]
        exact Prod.ext (min_self _).symm (max_self _).symm
      · rw [hel, hempty]
        exact (Finset.sdiff_self _).symm
    · have hfill : (s x).FillsGround (s y) := by simpa [Meets, hxy] using hop
      obtain ⟨r, heq, hr⟩ := (h x).minus (h y) hfill
      unfold RangeMask.minus at heq
      obtain ⟨r₁, heq₁, rfl⟩ := Option.map_eq_some_iff.1 heq
      refine ⟨update s x r₁.inverted, ?_, shows_update h hr⟩
      simp only [apply, update_self, update_of_ne (Ne.symm hxy), heq₁, Option.map_some, hinv]
  | plus x y z => exact hmap ((h y).unionWith (h z))
  | minus x y z => exact hmap ((h y).minus (h z) hop)
  | invert x => exact ⟨_, rfl, shows_update h (h x).inverted⟩
  | complement x y => exact ⟨_, rfl, shows_update h (h y).inverted⟩
  | lowest x y n =>
    obtain ⟨hwf, hall, hel⟩ := lowest_spec (h y).wellFormed n.toNat_lt hop
    refine ⟨_, rfl, shows_update h ⟨hwf, hall.trans (h y).ground, ?_⟩⟩
    rw [hel, (h y).elements]
    rfl
  | extendAll x i =>
    have hx := (h x).wellFormed
    have hlow : (s x).m_all.1 ≤ (s x).m_all.2 := hx.le
    have hmod := Nat.mod_lt (i.toNat + 1) (show 0 < 2 ^ 32 by norm_num)
    refine ⟨_, rfl, shows_update h ⟨⟨?_, ?_, hx.separated, fun e he => ?_⟩, ?_, (h x).elements⟩⟩
    · show min (s x).m_all.1 i.toNat ≤ max (s x).m_all.2 ((i.toNat + 1) % 2 ^ 32)
      calc min (s x).m_all.1 i.toNat ≤ (s x).m_all.1 := min_le_left _ _
        _ ≤ (s x).m_all.2 := hlow
        _ ≤ max (s x).m_all.2 ((i.toNat + 1) % 2 ^ 32) := le_max_left _ _
    · exact max_lt hx.lt hmod
    · exact ⟨(min_le_left _ _).trans (hx.inside e he).1, (hx.inside e he).2.trans (le_max_left _ _)⟩
    · show (min (s x).m_all.1 i.toNat, max (s x).m_all.2 _) = _
      rw [(h x).ground]
  | clear x =>
    have hx := (h x).wellFormed
    exact ⟨_, rfl, shows_update h ⟨⟨hx.le, hx.lt, .nil, fun _ he => absurd he List.not_mem_nil⟩, (h x).ground, rfl⟩⟩
  | reset x => exact ⟨_, rfl, shows_update h shows_empty⟩

/-- A program whose operations all meet their conditions keeps every mask at the set it stands for. -/
theorem run_shows {ops : List MaskOp} (h : ∀ z, Shows (s z) (t z))
    (hops : PartialRun.Along apply (fun s op => op.Meets s) s ops) :
    ∃ s', ops.foldlM apply s = some s' ∧ ∀ z, Shows (s' z) (ops.foldl denote t z) := by
  induction ops generalizing s t with
  | nil => exact ⟨s, rfl, h⟩
  | cons op ops ih =>
    obtain ⟨s₁, heq, h₁⟩ := apply_shows h hops.1
    obtain ⟨s₂, heq₂, h₂⟩ := ih h₁ (hops.2 s₁ heq)
    refine ⟨s₂, ?_, h₂⟩
    rw [List.foldlM_cons, heq]
    exact heq₂

/-- In a program whose operations all meet their conditions every mask is well formed and answers as its set. -/
theorem masks_answer_as_sets {ops : List MaskOp}
    (hops : PartialRun.Along apply (fun s op => op.Meets s) (fun _ => RangeMask.empty) ops) :
    ∃ s, ops.foldlM apply (fun _ => RangeMask.empty) = some s ∧ ∀ x,
      let u := ops.foldl denote (fun _ => RangeSet.empty) x
      (s x).WellFormed ∧ (s x).m_all = u.ground ∧ (s x).elements = u.elements ∧
        (∀ i : UInt32, (s x).contains i.toNat = true ↔ i.toNat ∈ u.elements) ∧
        (s x).size = u.elements.card ∧
        (∀ i : UInt32, i.toNat + 1 < 2 ^ 32 ∨ u.elements = ∅ →
          (s x).next i.toNat = (u.list.find? fun n => i.toNat < n).getD u.ground.2) ∧
        (s x).iterateFrom (s x).size (s x).first = some u.list := by
  obtain ⟨s, heq, hs⟩ := run_shows (fun _ => shows_empty) hops
  refine ⟨s, heq, fun x => ?_⟩
  intro u
  obtain ⟨hwf, hground, hel⟩ : Shows (s x) u := hs x
  refine ⟨hwf, hground, hel, fun i => ?_, ?_, fun i hi => ?_, ?_⟩
  · rw [contains_iff hwf, hel]
  · rw [size_eq hwf, hel]
  · by_cases hlt : i.toNat + 1 < 2 ^ 32
    · rw [next_eq hwf hlt, hel, hground]
      rfl
    · have hempty := hi.resolve_left hlt
      have hlast : i.toNat = 2 ^ 32 - 1 := by
        have := i.toNat_lt
        omega
      have hnil : u.list = [] := by
        unfold RangeSet.list
        rw [hempty, Finset.sort_empty]
      rw [hlast, (next_last hwf).2 (hel.trans hempty), hnil, hground]
      rfl
  · rw [iterate_eq hwf, hel]
    rfl

/-- The masks of a program that takes one number away from two, in one ground range. -/
theorem masks_answer_as_sets_minus :
    PartialRun.Along apply (fun s op => op.Meets s) (fun _ => RangeMask.empty)
        [.construct 0 0 10, .addRange 0 2 4, .copy 1 0, .minus 2 0 1] ∧
      ∃ s, [construct 0 0 10, addRange 0 2 4, copy 1 0, minus 2 0 1].foldlM apply (fun _ => RangeMask.empty) = some s ∧
        (s 2).elements = ∅ := by
  have hops : PartialRun.Along apply (fun s op => op.Meets s) (fun _ => RangeMask.empty)
      [.construct 0 0 10, .addRange 0 2 4, .copy 1 0, .minus 2 0 1] := by
    refine ⟨show (0 : UInt32).toNat ≤ (10 : UInt32).toNat by decide, ?_⟩
    rintro _ ⟨⟩
    refine ⟨fun _ => ⟨by decide, by decide⟩, ?_⟩
    rintro _ ⟨⟩
    refine ⟨trivial, ?_⟩
    rintro _ ⟨⟩
    refine ⟨?_, fun _ _ => trivial⟩
    intro n hlow hhigh hout
    change 0 ≤ n at hlow
    change n < 10 at hhigh
    change n < 0 ∨ 10 ≤ n at hout
    omega
  refine ⟨hops, ?_⟩
  obtain ⟨s, heq, hs⟩ := masks_answer_as_sets hops
  obtain ⟨-, -, hel, -⟩ := hs 2
  refine ⟨s, heq, ?_⟩
  rw [hel]
  exact Finset.sdiff_self _

/-- Nothing is in two masks, and what is in their difference is the part of the one's ground range that the other's
leaves out. -/
theorem minus_adds : ∃ s,
    [construct 0 0 10, construct 1 0 20, minus 2 0 1].foldlM apply (fun _ => RangeMask.empty) = some s ∧
    (s 0).elements = ∅ ∧ (s 2).elements = Finset.Ico 10 20 := by
  refine ⟨_, rfl, rfl, ?_⟩
  decide

end MaskOp

end Petrachor
