import Mathlib
import Petrachor.Lib.SortedMap

/-!
# Items in groups

Items are in groups, each of which is a map in the order of its keys. A group is made when its first item is put
into it, and should go with its last one.
-/

namespace Grouped

variable {κ α : Type*} [DecidableEq κ]

abbrev Groups (κ α : Type*) [DecidableEq κ] := AList fun _ : κ => List (ℕ × α)

/-- The items of a group, if there is one. -/
def group (g : Groups κ α) (k : κ) : List (ℕ × α) := (g.lookup k).getD []

def find (g : Groups κ α) (k : κ) (n : ℕ) : Option α := (group g k).lookup n

def put (g : Groups κ α) (k : κ) (n : ℕ) (x : α) : Groups κ α := g.insert k (SortedMap.set n x (group g k))

/-- An item is taken out; the group goes with its last one. -/
def remove (g : Groups κ α) (k : κ) (n : ℕ) : Groups κ α :=
  let l := (group g k).filter fun e => e.1 ≠ n
  if l = [] then g.erase k else g.insert k l

/-- The number of items. -/
def size (g : Groups κ α) : ℕ := (g.entries.map fun e => e.2.length).sum

/-- Groups are in order, and none is empty. -/
structure Tidy (g : Groups κ α) : Prop where
  ascending : ∀ k, SortedMap.Ascending (group g k)
  nonempty : ∀ k l, g.lookup k = some l → l ≠ []

variable {g : Groups κ α} {k k' : κ} {n n' : ℕ} {x y : α} {l : List (ℕ × α)}

@[simp] theorem group_insert_self : group (g.insert k l) k = l := by
  unfold group
  rw [AList.lookup_insert, Option.getD_some]

theorem group_insert_ne (h : k' ≠ k) : group (g.insert k l) k' = group g k' := by
  unfold group
  rw [AList.lookup_insert_ne h]

@[simp] theorem group_erase_self : group (g.erase k) k = [] := by
  unfold group
  rw [AList.lookup_erase]
  rfl

theorem group_erase_ne (h : k' ≠ k) : group (g.erase k) k' = group g k' := by
  unfold group
  rw [AList.lookup_erase_ne h]

theorem tidy_empty : Tidy (∅ : Groups κ α) := by
  constructor
  · exact fun k => SortedMap.ascending_nil
  · intro k l hl
    rw [AList.lookup_empty] at hl
    cases hl

theorem find_eq_some_iff (hg : Tidy g) : find g k n = some x ↔ (n, x) ∈ group g k :=
  (hg.ascending k).lookup_eq_some_iff

theorem Tidy.group_eq_nil_iff (hg : Tidy g) : group g k = [] ↔ g.lookup k = none := by
  unfold group
  cases hl : g.lookup k with
  | none => simp
  | some l => simp [hg.nonempty k l hl]

/-- The first entry of a group has its lowest key. -/
theorem head_spec (hg : Tidy g) (h : (group g k).head?.map Prod.fst = some n) :
    (∃ x, find g k n = some x) ∧ ∀ n' x, find g k n' = some x → n ≤ n' := by
  cases hl : group g k with
  | nil =>
    rw [hl] at h
    cases h
  | cons e l =>
    rw [hl] at h
    obtain rfl : e.1 = n := Option.some.inj h
    have hasc := hg.ascending k
    rw [hl] at hasc
    refine ⟨⟨e.2, (find_eq_some_iff hg).2 (hl ▸ List.mem_cons_self)⟩, ?_⟩
    intro n' x hx
    have hmem := (find_eq_some_iff hg).1 hx
    rw [hl] at hmem
    rcases List.mem_cons.1 hmem with rfl | hmem
    · exact le_rfl
    · exact ((SortedMap.ascending_cons.1 hasc).1 _ hmem).le

/-! ## Putting in and taking out -/

theorem group_remove_self : group (remove g k n) k = (group g k).filter fun e => e.1 ≠ n := by
  unfold remove
  dsimp only
  split
  · rename_i hnil
    rw [group_erase_self, hnil]
  · rw [group_insert_self]

theorem group_remove_ne (h : k' ≠ k) : group (remove g k n) k' = group g k' := by
  unfold remove
  dsimp only
  split
  · exact group_erase_ne h
  · exact group_insert_ne h

theorem group_put_self : group (put g k n x) k = SortedMap.set n x (group g k) := group_insert_self

theorem group_put_ne (h : k' ≠ k) : group (put g k n x) k' = group g k' := group_insert_ne h

/-- A group that is in order and not empty replaces another. -/
theorem Tidy.insert (hg : Tidy g) (hl : SortedMap.Ascending l) (hne : l ≠ []) : Tidy (g.insert k l) := by
  constructor
  · intro j
    by_cases hj : j = k
    · rw [hj, group_insert_self]
      exact hl
    · rw [group_insert_ne hj]
      exact hg.ascending j
  · intro j m hm
    by_cases hj : j = k
    · rw [hj, AList.lookup_insert] at hm
      exact Option.some.inj hm ▸ hne
    · rw [AList.lookup_insert_ne hj] at hm
      exact hg.nonempty j m hm

theorem Tidy.erase (hg : Tidy g) : Tidy (g.erase k) := by
  constructor
  · intro j
    by_cases hj : j = k
    · rw [hj, group_erase_self]
      exact SortedMap.ascending_nil
    · rw [group_erase_ne hj]
      exact hg.ascending j
  · intro j m hm
    by_cases hj : j = k
    · rw [hj, AList.lookup_erase] at hm
      cases hm
    · rw [AList.lookup_erase_ne hj] at hm
      exact hg.nonempty j m hm

theorem Tidy.put (hg : Tidy g) : Tidy (put g k n x) := by
  refine hg.insert ((hg.ascending k).set n x) ?_
  intro hnil
  have hmem : (n, x) ∈ SortedMap.set n x (group g k) := (SortedMap.mem_set (hg.ascending k)).2 (.inl rfl)
  rw [hnil] at hmem
  cases hmem

theorem Tidy.remove (hg : Tidy g) : Tidy (remove g k n) := by
  unfold Grouped.remove
  dsimp only
  split
  · exact hg.erase
  · rename_i hne
    refine hg.insert ?_ hne
    exact (hg.ascending k).sublist (List.filter_sublist.map _)

theorem find_put (hg : Tidy g) :
    find (put g k n x) k' n' = some y ↔
      (k' = k ∧ n' = n ∧ y = x) ∨ (¬(k' = k ∧ n' = n) ∧ find g k' n' = some y) := by
  rw [find_eq_some_iff hg.put, find_eq_some_iff hg]
  by_cases hk : k' = k
  · subst hk
    rw [group_put_self, SortedMap.mem_set (hg.ascending k'), Prod.mk.injEq]
    tauto
  · rw [group_put_ne hk]
    tauto

theorem find_remove (hg : Tidy g) :
    find (remove g k n) k' n' = some y ↔ ¬(k' = k ∧ n' = n) ∧ find g k' n' = some y := by
  rw [find_eq_some_iff hg.remove, find_eq_some_iff hg]
  by_cases hk : k' = k
  · subst hk
    rw [group_remove_self, List.mem_filter, decide_eq_true_iff]
    tauto
  · rw [group_remove_ne hk]
    tauto

/-! ## Size -/

theorem sum_lookup_kerase : ∀ (l : List (Σ _ : κ, List (ℕ × α))), l.NodupKeys →
    (l.map fun e => e.2.length).sum =
      ((l.dlookup k).getD []).length + ((l.kerase k).map fun e => e.2.length).sum
  | [], _ => rfl
  | e :: l, h => by
    have hl := List.nodupKeys_of_nodupKeys_cons h
    by_cases hk : k = e.1
    · subst hk
      rw [List.dlookup_cons_eq, List.kerase_cons_eq rfl, List.map_cons, List.sum_cons, Option.getD_some]
    · rw [List.dlookup_cons_ne _ _ hk, List.kerase_cons_ne hk, List.map_cons, List.map_cons, List.sum_cons,
        List.sum_cons, sum_lookup_kerase l hl]
      omega

theorem size_eq (g : Groups κ α) (k : κ) : size g = (group g k).length + size (g.erase k) :=
  sum_lookup_kerase g.entries g.nodupKeys

theorem size_insert : size (g.insert k l) = l.length + size (g.erase k) := by
  unfold size
  rw [AList.entries_insert, List.map_cons, List.sum_cons]
  rfl

theorem size_remove (hg : Tidy g) (hx : find g k n = some x) : size (remove g k n) + 1 = size g := by
  have hmem := (find_eq_some_iff hg).1 hx
  have hlen : ((group g k).filter fun e => e.1 ≠ n).length + 1 = (group g k).length := by
    have hone : ((group g k).filter fun e => e.1 = n).length = 1 := by
      have hsingle : ((group g k).filter fun e => e.1 = n) = [(n, x)] := by
        have hasc : SortedMap.Ascending ((group g k).filter fun e => e.1 = n) :=
          (hg.ascending k).sublist (List.filter_sublist.map _)
        have hall : ∀ e ∈ (group g k).filter fun e => e.1 = n, e = (n, x) := by
          intro e he
          obtain ⟨he, hn⟩ := List.mem_filter.1 he
          exact (hg.ascending k).eq_of_fst he hmem (of_decide_eq_true hn)
        have hin : (n, x) ∈ (group g k).filter fun e => e.1 = n := List.mem_filter.2 ⟨hmem, decide_eq_true rfl⟩
        cases hf : (group g k).filter fun e => e.1 = n with
        | nil =>
          rw [hf] at hin
          cases hin
        | cons e m =>
          rw [hf] at hasc hall
          have he : e = (n, x) := hall e List.mem_cons_self
          cases m with
          | nil => rw [he]
          | cons e' m =>
            have he' : e' = (n, x) := hall e' (List.mem_cons_of_mem _ List.mem_cons_self)
            have hlt := (SortedMap.ascending_cons.1 hasc).1 e' List.mem_cons_self
            rw [he, he'] at hlt
            exact absurd hlt (lt_irrefl n)
      rw [hsingle]
      rfl
    have hsplit := List.length_eq_length_filter_add (l := group g k) fun e => decide (e.1 = n)
    simp only [decide_not]
    omega
  rw [size_eq g k, ← hlen]
  unfold remove
  dsimp only
  split
  · rename_i hnil
    rw [hnil, List.length_nil]
    omega
  · rw [size_insert]
    omega

theorem length_set_of_notMem : ∀ {l : List (ℕ × α)}, (∀ e ∈ l, e.1 ≠ n) → (SortedMap.set n x l).length = l.length + 1
  | [], _ => rfl
  | e :: l, h => by
    have hne : n ≠ e.1 := fun heq => h e List.mem_cons_self heq.symm
    unfold SortedMap.set
    split
    · rfl
    · rw [List.length_cons, List.length_cons,
        length_set_of_notMem fun e he => h e (List.mem_cons_of_mem _ he)]

theorem size_put (hg : Tidy g) (hn : find g k n = none) : size (put g k n x) = size g + 1 := by
  have hnot : ∀ e ∈ group g k, e.1 ≠ n := by
    rintro ⟨m, y⟩ he rfl
    rw [(find_eq_some_iff hg).2 he] at hn
    cases hn
  unfold put
  rw [size_insert, length_set_of_notMem hnot, size_eq g k]
  omega

end Grouped
