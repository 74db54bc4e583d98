import Mathlib.Data.List.Induction
import Mathlib.Data.List.Sort

/-!
# Maps in the order of their keys

A map that is gone through in the order of its keys, as the list of its entries.
-/

namespace SortedMap

variable {κ α : Type*} [LinearOrder κ]

/-- The keys ascend. -/
def Ascending (l : List (κ × α)) : Prop := (l.map Prod.fst).Pairwise (· < ·)

/-- The entry of a key is put in its place, or replaced. -/
def set (k : κ) (v : α) : List (κ × α) → List (κ × α)
  | [] => [(k, v)]
  | e :: l => if k < e.1 then (k, v) :: e :: l else if k = e.1 then (k, v) :: l else e :: set k v l

variable {k : κ} {v : α} {x y e : κ × α} {l m : List (κ × α)}

theorem ascending_nil : Ascending ([] : List (κ × α)) := List.Pairwise.nil

theorem ascending_cons : Ascending (e :: l) ↔ (∀ x ∈ l, e.1 < x.1) ∧ Ascending l := by
  unfold Ascending
  rw [List.map_cons, List.pairwise_cons, List.forall_mem_map]

/-- A key has one entry. -/
theorem Ascending.eq_of_fst (h : Ascending l) (hx : x ∈ l) (hy : y ∈ l) (heq : x.1 = y.1) : x = y := by
  induction l with
  | nil => cases hx
  | cons e l ih =>
    obtain ⟨he, hl⟩ := ascending_cons.1 h
    rcases List.mem_cons.1 hx with rfl | hx'
    · rcases List.mem_cons.1 hy with rfl | hy'
      · rfl
      · exact absurd heq (he y hy').ne
    · rcases List.mem_cons.1 hy with rfl | hy'
      · exact absurd heq (he x hx').ne'
      · exact ih hl hx' hy'

theorem mem_of_lookup (h : l.lookup k = some v) : (k, v) ∈ l := by
  induction l with
  | nil => cases h
  | cons e l ih =>
    rw [List.lookup_cons] at h
    split at h
    · rename_i heq
      have hkey : k = e.1 := eq_of_beq heq
      rw [hkey, ← Option.some.inj h]
      exact List.mem_cons_self
    · exact List.mem_cons_of_mem _ (ih h)

theorem Ascending.lookup_eq_some_iff (h : Ascending l) : l.lookup k = some v ↔ (k, v) ∈ l := by
  refine ⟨mem_of_lookup, ?_⟩
  induction l with
  | nil => exact fun hmem => absurd hmem List.not_mem_nil
  | cons e l ih =>
    obtain ⟨he, hl⟩ := ascending_cons.1 h
    intro hmem
    rw [List.lookup_cons]
    rcases List.mem_cons.1 hmem with rfl | hmem
    · rw [beq_self_eq_true]
    · have hne : k ≠ e.1 := (he (k, v) hmem).ne'
      rw [beq_eq_false_iff_ne.2 hne]
      exact ih hl hmem

/-- What a map holds after an entry was put into it. -/
theorem mem_set (h : Ascending l) : x ∈ set k v l ↔ x = (k, v) ∨ x ∈ l ∧ x.1 ≠ k := by
  induction l with
  | nil => simp [set]
  | cons e l ih =>
    obtain ⟨he, hl⟩ := ascending_cons.1 h
    unfold set
    split
    · rename_i hlt
      constructor
      · intro hx
        rcases List.mem_cons.1 hx with rfl | hx
        · exact .inl rfl
        · refine .inr ⟨hx, ?_⟩
          rcases List.mem_cons.1 hx with rfl | hx
          · exact hlt.ne'
          · exact (hlt.trans (he x hx)).ne'
      · rintro (rfl | ⟨hx, -⟩)
        · exact List.mem_cons_self
        · exact List.mem_cons_of_mem _ hx
    · split
      · rename_i heq
        constructor
        · intro hx
          rcases List.mem_cons.1 hx with rfl | hx
          · exact .inl rfl
          · exact .inr ⟨List.mem_cons_of_mem _ hx, heq ▸ (he x hx).ne'⟩
        · rintro (rfl | ⟨hx, hne⟩)
          · exact List.mem_cons_self
          · rcases List.mem_cons.1 hx with rfl | hx
            · exact absurd heq.symm hne
            · exact List.mem_cons_of_mem _ hx
      · rename_i hne
        rw [List.mem_cons, List.mem_cons, ih hl]
        constructor
        · rintro (rfl | rfl | ⟨hx, hk⟩)
          · exact .inr ⟨.inl rfl, fun h => hne h.symm⟩
          · exact .inl rfl
          · exact .inr ⟨.inr hx, hk⟩
        · rintro (rfl | ⟨rfl | hx, hk⟩)
          · exact .inr (.inl rfl)
          · exact .inl rfl
          · exact .inr (.inr ⟨hx, hk⟩)

theorem Ascending.set (h : Ascending l) (k : κ) (v : α) : Ascending (set k v l) := by
  induction l with
  | nil => exact ascending_cons.2 ⟨fun x hx => (by cases hx), ascending_nil⟩
  | cons e l ih =>
    obtain ⟨he, hl⟩ := ascending_cons.1 h
    unfold SortedMap.set
    split
    · rename_i hlt
      refine ascending_cons.2 ⟨fun x hx => ?_, h⟩
      rcases List.mem_cons.1 hx with rfl | hx
      · exact hlt
      · exact hlt.trans (he x hx)
    · rename_i hle
      split
      · rename_i heq
        exact ascending_cons.2 ⟨fun x hx => heq ▸ he x hx, hl⟩
      · rename_i hne
        refine ascending_cons.2 ⟨fun x hx => ?_, ih hl⟩
        rcases (mem_set hl).1 hx with rfl | ⟨hx, -⟩
        · exact lt_of_le_of_ne (not_lt.1 hle) fun h => hne h.symm
        · exact he x hx

theorem Ascending.lookup_set (h : Ascending l) (k k' : κ) (v : α) :
    (SortedMap.set k v l).lookup k' = if k' = k then some v else l.lookup k' := by
  refine Option.ext fun w => ?_
  rw [(h.set k v).lookup_eq_some_iff, mem_set h]
  split
  · rename_i heq
    subst heq
    simp [eq_comm]
  · rename_i hne
    rw [h.lookup_eq_some_iff]
    simp [hne]

/-- A key past all others goes to the end. -/
theorem set_of_forall_lt (h : ∀ x ∈ l, x.1 < k) : set k v l = l ++ [(k, v)] := by
  induction l with
  | nil => rfl
  | cons e l ih =>
    have he : e.1 < k := h e List.mem_cons_self
    unfold set
    rw [if_neg he.not_gt, if_neg he.ne', ih fun x hx => h x (List.mem_cons_of_mem _ hx)]
    rfl

/-! ### Entries put in one after the other -/

/-- The map that entries make, the later ones over the earlier ones of a key. -/
def ofList (l : List (κ × α)) : List (κ × α) := l.foldl (fun m e => set e.1 e.2 m) []

theorem ofList_concat (l : List (κ × α)) (e : κ × α) : ofList (l ++ [e]) = set e.1 e.2 (ofList l) := by
  unfold ofList
  rw [List.foldl_append]
  rfl

theorem ascending_ofList (l : List (κ × α)) : Ascending (ofList l) := by
  induction l using List.reverseRecOn with
  | nil => exact ascending_nil
  | append_singleton l e ih =>
    rw [ofList_concat]
    exact ih.set _ _

theorem mem_of_mem_ofList {l : List (κ × α)} (hx : x ∈ ofList l) : x ∈ l := by
  induction l using List.reverseRecOn with
  | nil => exact hx
  | append_singleton l e ih =>
    rw [ofList_concat, mem_set (ascending_ofList l)] at hx
    rcases hx with rfl | ⟨hx, -⟩
    · exact List.mem_append_right _ (List.mem_singleton_self _)
    · exact List.mem_append_left _ (ih hx)

/-- Entries that are in order already are put in at the end. -/
theorem Ascending.ofList_eq (h : Ascending l) : ofList l = l := by
  induction l using List.reverseRecOn with
  | nil => rfl
  | append_singleton l e ih =>
    unfold Ascending at h
    rw [List.map_append, List.pairwise_append] at h
    rw [ofList_concat, ih h.1]
    exact set_of_forall_lt fun x hx => h.2.2 x.1 (List.mem_map_of_mem hx) e.1 (by simp)

theorem isSome_lookup_ofList {l : List (κ × α)} : ((ofList l).lookup k).isSome ↔ k ∈ l.map Prod.fst := by
  induction l using List.reverseRecOn with
  | nil => simp [ofList]
  | append_singleton l e ih =>
    have hasc := (ascending_ofList l).set e.1 e.2
    have hlook : ∀ {m : List (κ × α)}, Ascending m → ((m.lookup k).isSome ↔ ∃ v, (k, v) ∈ m) := fun hm => by
      rw [Option.isSome_iff_exists]
      exact exists_congr fun v => hm.lookup_eq_some_iff
    rw [hlook (ascending_ofList l)] at ih
    rw [ofList_concat, hlook hasc, List.map_append, List.mem_append, ← ih]
    simp only [mem_set (ascending_ofList l), List.map_cons, List.map_nil, List.mem_singleton]
    constructor
    · rintro ⟨v, h | ⟨h, -⟩⟩
      · exact .inr (congrArg Prod.fst h)
      · exact .inl ⟨v, h⟩
    · rintro (⟨v, h⟩ | h)
      · by_cases hk : k = e.1
        · exact ⟨e.2, .inl (by rw [hk])⟩
        · exact ⟨v, .inr ⟨h, hk⟩⟩
      · exact ⟨e.2, .inl (by rw [h])⟩

/-! ### Entries taken out -/

/-- The entry of a key is taken out. -/
def erase (k : κ) (l : List (κ × α)) : List (κ × α) := l.filter fun e => e.1 ≠ k

theorem mem_erase : x ∈ erase k l ↔ x ∈ l ∧ x.1 ≠ k := by
  rw [erase, List.mem_filter, decide_eq_true_eq]

theorem Ascending.erase (h : Ascending l) (k : κ) : Ascending (erase k l) :=
  List.Pairwise.sublist (List.filter_sublist.map Prod.fst) h

theorem erase_eq_self (h : ∀ x ∈ l, x.1 ≠ k) : erase k l = l :=
  List.filter_eq_self.2 fun x hx => decide_eq_true (h x hx)

theorem Ascending.ne_of_lookup_eq_none (h : Ascending l) (hk : l.lookup k = none) : ∀ x ∈ l, x.1 ≠ k := by
  rintro ⟨k', v⟩ hx rfl
  rw [h.lookup_eq_some_iff.2 hx] at hk
  cases hk

/-- How many entries have a property, without the one of a key. -/
theorem Ascending.countP_eq (h : Ascending l) (hk : l.lookup k = some v) (p : κ × α → Bool) :
    l.countP p = (SortedMap.erase k l).countP p + if p (k, v) then 1 else 0 := by
  induction l with
  | nil => cases hk
  | cons e l ih =>
    obtain ⟨he, hl⟩ := ascending_cons.1 h
    rcases List.mem_cons.1 (mem_of_lookup hk) with rfl | hmem
    · have hl' : SortedMap.erase k l = l := erase_eq_self fun x hx => (he x hx).ne'
      rw [List.countP_cons, SortedMap.erase, List.filter_cons_of_neg (by simp)]
      exact congrArg (fun m => List.countP p m + _) hl'.symm
    · have hne : e.1 ≠ k := (he _ hmem).ne
      have hk' : l.lookup k = some v := hl.lookup_eq_some_iff.2 hmem
      rw [List.countP_cons, ih hl hk', SortedMap.erase, SortedMap.erase, List.filter_cons_of_pos (by simpa using hne),
        List.countP_cons]
      omega

/-- Maps with the same entries are the same. -/
theorem Ascending.eq_of_mem_iff (hl : Ascending l) (hm : Ascending m) (h : ∀ x, x ∈ l ↔ x ∈ m) : l = m := by
  have hl' := List.pairwise_map.1 hl
  have hm' := List.pairwise_map.1 hm
  have hne : ∀ a b : κ × α, a.1 < b.1 → a ≠ b := fun a b hlt heq => absurd hlt (heq ▸ lt_irrefl _)
  have hperm : l.Perm m :=
    (List.perm_ext_iff_of_nodup (hl'.imp fun h => hne _ _ h) (hm'.imp fun h => hne _ _ h)).2 h
  exact hperm.eq_of_pairwise (fun x y _ _ h1 h2 => absurd (h1.trans h2) (lt_irrefl x.1)) hl' hm'

theorem Ascending.countP_set (h : Ascending l) (k : κ) (v : α) (p : κ × α → Bool) :
    (SortedMap.set k v l).countP p = (SortedMap.erase k l).countP p + if p (k, v) then 1 else 0 := by
  have hset : (SortedMap.set k v l).lookup k = some v :=
    (h.set k v).lookup_eq_some_iff.2 ((mem_set h).2 (.inl rfl))
  have herase : SortedMap.erase k (SortedMap.set k v l) = SortedMap.erase k l := by
    have hmem : ∀ x, x ∈ SortedMap.erase k (SortedMap.set k v l) ↔ x ∈ SortedMap.erase k l := by
      intro x
      rw [mem_erase, mem_erase, mem_set h]
      constructor
      · rintro ⟨rfl | ⟨hx, hne⟩, hne'⟩
        · exact absurd rfl hne'
        · exact ⟨hx, hne⟩
      · rintro ⟨hx, hne⟩
        exact ⟨.inr ⟨hx, hne⟩, hne⟩
    exact ((h.set k v).erase k).eq_of_mem_iff (h.erase k) hmem
  rw [(h.set k v).countP_eq hset, herase]

/-- The last entry has the highest key. -/
theorem Ascending.le_getLast (h : Ascending l) (hy : l.getLast? = some y) (hx : x ∈ l) : x.1 ≤ y.1 := by
  obtain ⟨m, rfl⟩ := List.getLast?_eq_some_iff.1 hy
  unfold Ascending at h
  rw [List.map_append, List.pairwise_append] at h
  rcases List.mem_append.1 hx with hx | hx
  · exact (h.2.2 x.1 (List.mem_map_of_mem hx) y.1 (by simp)).le
  · rw [List.mem_singleton.1 hx]

/-- The search for a key stops at its entry. -/
theorem Ascending.dropWhile_ne {n : ℕ} {x : α} : ∀ {l : List (ℕ × α)}, Ascending l → (n, x) ∈ l →
    ∃ m, l.dropWhile (fun e => e.1 ≠ n) = (n, x) :: m
  | e :: l, hl, hmem => by
    by_cases he : e.1 = n
    · obtain rfl := hl.eq_of_fst List.mem_cons_self hmem he
      exact ⟨l, List.dropWhile_cons_of_neg (by simp)⟩
    · have htail : (n, x) ∈ l := by
        rcases List.mem_cons.1 hmem with rfl | hmem
        · exact absurd rfl he
        · exact hmem
      obtain ⟨m, hm⟩ := Ascending.dropWhile_ne (ascending_cons.1 hl).2 htail
      refine ⟨m, ?_⟩
      rw [List.dropWhile_cons_of_pos (by simpa using he), hm]

/-- What is left when the lower keys are passed. -/
theorem Ascending.le_of_mem_dropWhile {n : ℕ} {e : ℕ × α} : ∀ {l : List (ℕ × α)}, Ascending l →
    e ∈ l.dropWhile (fun e => e.1 < n) → n ≤ e.1
  | d :: l, hl, hmem => by
    obtain ⟨hhead, htail⟩ := ascending_cons.1 hl
    by_cases hd : d.1 < n
    · rw [List.dropWhile_cons_of_pos (by simpa using hd)] at hmem
      exact htail.le_of_mem_dropWhile hmem
    · rw [List.dropWhile_cons_of_neg (by simpa using hd)] at hmem
      rcases List.mem_cons.1 hmem with rfl | hmem
      · exact not_lt.1 hd
      · exact (not_lt.1 hd).trans (hhead e hmem).le

end SortedMap
