import Mathlib.Logic.Function.Iterate
import Mathlib.Data.Set.Insert
import Mathlib.Tactic

/-!
# Rooted trees given by a parent function

A set of nodes with a parent function and a height that grows by one along every edge, up to a
root of height zero. `lineage h` is the set of nodes from `h` to the root; `Route a b c i j` says
that the ways from `a` and from `b` to the root first meet in `c`, after `i` and `j` steps.
-/

namespace ParentTree

variable {α : Type*}

/-- The first `n` nodes of the way from `h` to the root. -/
def path (parent : α → α) : ℕ → α → List α
  | 0, _ => []
  | n + 1, h => h :: path parent n (parent h)

theorem mem_path {parent : α → α} {x : α} :
    ∀ {n : ℕ} {h : α}, x ∈ path parent n h ↔ ∃ k < n, parent^[k] h = x
  | 0, h => by simp [path]
  | n + 1, h => by
    rw [path, List.mem_cons, mem_path]
    constructor
    · rintro (rfl | ⟨k, hk, rfl⟩)
      · exact ⟨0, by omega, rfl⟩
      · exact ⟨k + 1, by omega, Function.iterate_succ_apply _ _ _⟩
    · rintro ⟨_ | k, hk, rfl⟩
      · exact .inl rfl
      · exact .inr ⟨k, by omega, (Function.iterate_succ_apply _ _ _).symm⟩

theorem path_add {parent : α → α} (m : ℕ) :
    ∀ (n : ℕ) (h : α), path parent (n + m) h = path parent n h ++ path parent m (parent^[n] h)
  | 0, h => by simp [path]
  | n + 1, h => by
    rw [show n + 1 + m = n + m + 1 by omega, path, path, path_add m n, List.cons_append,
      Function.iterate_succ_apply]

@[simp] theorem length_path {parent : α → α} :
    ∀ (n : ℕ) (h : α), (path parent n h).length = n
  | 0, _ => rfl
  | n + 1, h => by rw [path, List.length_cons, length_path]

theorem getElem_path {parent : α → α} :
    ∀ {n k : ℕ} {h : α}, k < n → (path parent n h)[k]? = some (parent^[k] h)
  | n + 1, 0, h, _ => by simp [path]
  | n + 1, k + 1, h, hk => by
    rw [path, List.getElem?_cons_succ, getElem_path (by omega), Function.iterate_succ_apply]

/-- Every node of `S` but the root has its parent in `S`, one level below. -/
structure IsTree (S : Set α) (root : α) (parent : α → α) (height : α → ℕ) : Prop where
  root_mem : root ∈ S
  height_root : height root = 0
  parent_mem : ∀ h ∈ S, h ≠ root → parent h ∈ S
  height_parent : ∀ h ∈ S, h ≠ root → height h = height (parent h) + 1

/-- The nodes from `h` to the root. -/
def lineage (parent : α → α) (height : α → ℕ) (h : α) : Set α :=
  {x | ∃ k ≤ height h, parent^[k] h = x}

namespace IsTree

variable {S : Set α} {root : α} {parent : α → α} {height : α → ℕ}
  (hT : IsTree S root parent height)

include hT

theorem eq_root {h : α} (hh : h ∈ S) (h0 : height h = 0) : h = root := by
  by_contra hne
  have := hT.height_parent h hh hne
  omega

theorem ne_root {h : α} (h0 : 0 < height h) : h ≠ root := by
  rintro rfl
  have := hT.height_root
  omega

theorem iterate {h : α} (hh : h ∈ S) :
    ∀ {k : ℕ}, k ≤ height h → parent^[k] h ∈ S ∧ height (parent^[k] h) + k = height h
  | 0, _ => ⟨hh, rfl⟩
  | k + 1, hk => by
    obtain ⟨hm, he⟩ := iterate hh (show k ≤ height h by omega)
    have hne := hT.ne_root (show 0 < height (parent^[k] h) by omega)
    have hp := hT.height_parent _ hm hne
    rw [Function.iterate_succ_apply']
    exact ⟨hT.parent_mem _ hm hne, by omega⟩

theorem iterate_mem {h : α} {k : ℕ} (hh : h ∈ S) (hk : k ≤ height h) : parent^[k] h ∈ S :=
  (hT.iterate hh hk).1

theorem height_iterate {h : α} {k : ℕ} (hh : h ∈ S) (hk : k ≤ height h) :
    height (parent^[k] h) + k = height h :=
  (hT.iterate hh hk).2

theorem iterate_height {h : α} (hh : h ∈ S) : parent^[height h] h = root := by
  have := hT.height_iterate hh le_rfl
  exact hT.eq_root (hT.iterate_mem hh le_rfl) (by omega)

theorem mem_of_mem_lineage {x h : α} (hh : h ∈ S) (hx : x ∈ lineage parent height h) : x ∈ S := by
  obtain ⟨k, hk, rfl⟩ := hx
  exact hT.iterate_mem hh hk

theorem height_le_of_mem_lineage {x h : α} (hh : h ∈ S) (hx : x ∈ lineage parent height h) :
    height x ≤ height h := by
  obtain ⟨k, hk, rfl⟩ := hx
  have := hT.height_iterate hh hk
  omega

/-- An ancestor is determined by its height. -/
theorem iterate_of_mem_lineage {x h : α} (hh : h ∈ S) (hx : x ∈ lineage parent height h) :
    parent^[height h - height x] h = x := by
  obtain ⟨k, hk, rfl⟩ := hx
  have := hT.height_iterate hh hk
  rw [show height h - height (parent^[k] h) = k by omega]

theorem root_mem_lineage {h : α} (hh : h ∈ S) : root ∈ lineage parent height h :=
  ⟨height h, le_rfl, hT.iterate_height hh⟩

theorem lineage_subset_of_mem {x h : α} (hh : h ∈ S) (hx : x ∈ lineage parent height h) :
    lineage parent height x ⊆ lineage parent height h := by
  rintro y ⟨l, hl, rfl⟩
  obtain ⟨k, hk, rfl⟩ := hx
  have := hT.height_iterate hh hk
  exact ⟨l + k, by omega, Function.iterate_add_apply _ _ _ _⟩

/-- Two ancestors at one height are the same. -/
theorem eq_of_mem_lineage {x y h : α} (hh : h ∈ S) (hx : x ∈ lineage parent height h)
    (hy : y ∈ lineage parent height h) (hxy : height x = height y) : x = y := by
  rw [← hT.iterate_of_mem_lineage hh hx, ← hT.iterate_of_mem_lineage hh hy, hxy]

/-- The lineages of two nodes share their nodes from a common one on. -/
theorem mem_lineage_of_height_le {x y h : α} (hh : h ∈ S) (hx : x ∈ lineage parent height h)
    (hy : y ∈ lineage parent height h) (hxy : height x ≤ height y) :
    x ∈ lineage parent height y := by
  have hx' := hT.iterate_of_mem_lineage hh hx
  have hy' := hT.iterate_of_mem_lineage hh hy
  have hle := hT.height_le_of_mem_lineage hh hy
  refine ⟨height y - height x, by omega, ?_⟩
  rw [← hy', ← Function.iterate_add_apply, hy',
    show height y - height x + (height h - height y) = height h - height x by omega, hx']

end IsTree

/-! ## Growing a tree -/

section Grow

variable {S : Set α} {root x p : α} {parent parent' : α → α} {height height' : α → ℕ}
  (hT : IsTree S root parent height) (hp : ∀ h ∈ S, parent' h = parent h)
  (hh : ∀ h ∈ S, height' h = height h)

include hT hp hh

theorem IsTree.congr : IsTree S root parent' height' where
  root_mem := hT.root_mem
  height_root := by rw [hh _ hT.root_mem, hT.height_root]
  parent_mem h hm hne := by rw [hp h hm]; exact hT.parent_mem h hm hne
  height_parent h hm hne := by
    rw [hp h hm, hh h hm, hh _ (hT.parent_mem h hm hne), hT.height_parent h hm hne]

/-- A node put under a node of the tree. -/
theorem IsTree.grow (hpS : p ∈ S) (hx : parent' x = p) (hxh : height' x = height p + 1) :
    IsTree (insert x S) root parent' height' := by
  have hT' := hT.congr hp hh
  refine ⟨Or.inr hT.root_mem, hT'.height_root, ?_, ?_⟩
  · rintro h (rfl | hm) hne
    · rw [hx]; exact Or.inr hpS
    · exact Or.inr (hT'.parent_mem h hm hne)
  · rintro h (rfl | hm) hne
    · rw [hx, hxh, hh p hpS]
    · exact hT'.height_parent h hm hne

omit hh in
theorem IsTree.iterate_congr {h : α} (hm : h ∈ S) :
    ∀ {k : ℕ}, k ≤ height h → parent'^[k] h = parent^[k] h
  | 0, _ => rfl
  | k + 1, hk => by
    rw [Function.iterate_succ_apply', Function.iterate_succ_apply',
      IsTree.iterate_congr hm (show k ≤ height h by omega),
      hp _ (hT.iterate_mem hm (by omega))]

omit hh in
theorem IsTree.path_congr {h : α} (hm : h ∈ S) {n : ℕ} (hn : n ≤ height h + 1) :
    path parent' n h = path parent n h := by
  refine List.ext_getElem? fun k => ?_
  by_cases hk : k < n
  · rw [getElem_path hk, getElem_path hk, hT.iterate_congr hp hm (by omega)]
  · rw [List.getElem?_eq_none (by rw [length_path]; omega),
      List.getElem?_eq_none (by rw [length_path]; omega)]

theorem IsTree.lineage_congr {h : α} (hm : h ∈ S) :
    lineage parent' height' h = lineage parent height h := by
  ext y
  constructor
  · rintro ⟨k, hk, rfl⟩
    rw [hh h hm] at hk
    exact ⟨k, hk, (hT.iterate_congr hp hm hk).symm⟩
  · rintro ⟨k, hk, rfl⟩
    exact ⟨k, by rw [hh h hm]; exact hk, hT.iterate_congr hp hm hk⟩

/-- The lineage of the new node is that of its parent with the node in front. -/
theorem IsTree.lineage_insert (hpS : p ∈ S) (hx : parent' x = p) (hxh : height' x = height p + 1) :
    lineage parent' height' x = insert x (lineage parent height p) := by
  rw [← hT.lineage_congr hp hh hpS]
  ext y
  constructor
  · rintro ⟨_ | k, hk, rfl⟩
    · exact Or.inl rfl
    · rw [Function.iterate_succ_apply, hx]
      exact Or.inr ⟨k, by rw [hh p hpS]; omega, rfl⟩
  · rintro (rfl | ⟨k, hk, rfl⟩)
    · exact ⟨0, by omega, rfl⟩
    · rw [hh p hpS] at hk
      exact ⟨k + 1, by omega, by rw [Function.iterate_succ_apply, hx]⟩

end Grow

/-! ## The route between two nodes -/

/-- The ways from `a` and `b` to the root first meet in `c`, `i` and `j` steps away. -/
structure Route (parent : α → α) (height : α → ℕ) (a b c : α) (i j : ℕ) : Prop where
  left : parent^[i] a = c
  right : parent^[j] b = c
  left_le : i ≤ height a
  right_le : j ≤ height b
  disjoint : ∀ k < i, ∀ l ≤ height b, parent^[k] a ≠ parent^[l] b

namespace Route

variable {S : Set α} {root a b c : α} {parent : α → α} {height : α → ℕ} {i j : ℕ}

theorem refl (a : α) : Route parent height a a a 0 0 :=
  ⟨rfl, rfl, Nat.zero_le _, Nat.zero_le _, fun _ hk => absurd hk (Nat.not_lt_zero _)⟩

variable (hT : IsTree S root parent height) (ha : a ∈ S) (hb : b ∈ S)

include hT ha hb

/-- One step up on both sides, from two nodes of one height. -/
theorem step (hab : a ≠ b) (heq : height a = height b) (hroot : a ≠ root) (hroot' : b ≠ root)
    (r : Route parent height (parent a) (parent b) c i j) :
    Route parent height a b c (i + 1) (j + 1) := by
  have h1 := hT.height_parent a ha hroot
  have h2 := hT.height_parent b hb hroot'
  refine ⟨r.left, r.right, ?_, ?_, ?_⟩
  · have := r.left_le; omega
  · have := r.right_le; omega
  · intro k hk l hl he
    have hka : k ≤ height a := by have := r.left_le; omega
    have h3 := hT.height_iterate ha hka
    have h4 := hT.height_iterate hb hl
    rw [he] at h3
    obtain rfl : k = l := by omega
    rcases k with _ | k
    · exact hab he
    · exact r.disjoint k (by omega) k (by omega) he

/-- Steps on the left side alone, down to the height of the other. -/
theorem up {n : ℕ} (hn : n ≤ height a) (heq : height a = height b + n)
    (r : Route parent height (parent^[n] a) b c i j) :
    Route parent height a b c (i + n) j := by
  have h1 := hT.height_iterate ha hn
  refine ⟨?_, r.right, ?_, r.right_le, ?_⟩
  · rw [Function.iterate_add_apply]; exact r.left
  · have := r.left_le; omega
  · intro k hk l hl he
    by_cases hkn : k < n
    · have h3 := hT.height_iterate ha (show k ≤ height a by omega)
      have h4 := hT.height_iterate hb hl
      rw [he] at h3
      omega
    · refine r.disjoint (k - n) (by omega) l hl ?_
      rw [← Function.iterate_add_apply, show k - n + n = k by omega]
      exact he

theorem symm (r : Route parent height a b c i j) : Route parent height b a c j i := by
  refine ⟨r.right, r.left, r.right_le, r.left_le, ?_⟩
  intro l hl k hk he
  by_cases hki : k < i
  · exact r.disjoint k hki l (by have := r.right_le; omega) he.symm
  · have h1 := hT.height_iterate hb r.right_le
    have h2 := hT.height_iterate hb (show l ≤ height b by have := r.right_le; omega)
    have h3 := hT.height_iterate ha r.left_le
    have h4 := hT.height_iterate ha hk
    rw [r.right] at h1
    rw [r.left] at h3
    rw [he] at h2
    omega

omit hb in
/-- From a node to itself there is nowhere to go. -/
theorem of_self (r : Route parent height a a c i j) : i = 0 ∧ j = 0 := by
  have hi : i = 0 := by
    by_contra hi
    exact r.disjoint 0 (Nat.pos_of_ne_zero hi) 0 (Nat.zero_le _) rfl
  have h1 := hT.height_iterate ha r.right_le
  have h2 := r.right_le
  subst hi
  rw [r.right, ← r.left, Function.iterate_zero, id] at h1
  exact ⟨rfl, by omega⟩

omit hb in
/-- Nothing above the meeting point is on both ways. -/
theorem height_le {x : α} (r : Route parent height a b c i j) (hxa : x ∈ lineage parent height a)
    (hxb : x ∈ lineage parent height b) : height x ≤ height c := by
  obtain ⟨k, hk, rfl⟩ := hxa
  obtain ⟨l, hl, he⟩ := hxb
  have hca := hT.height_iterate ha r.left_le
  have hka := hT.height_iterate ha hk
  rw [r.left] at hca
  by_cases hki : k < i
  · exact absurd he.symm (r.disjoint k hki l hl)
  · omega

/-- What changes in the lineage from `a` to `b`: the nodes of the one way are left, those of the
other are taken in. -/
theorem lineage_eq (r : Route parent height a b c i j) :
    lineage parent height b =
      (lineage parent height a \ {x | x ∈ path parent i a}) ∪ {x | x ∈ path parent j b} := by
  have hca := hT.height_iterate ha r.left_le
  have hcb := hT.height_iterate hb r.right_le
  rw [r.left] at hca
  rw [r.right] at hcb
  -- a node below the meeting point is reached from it, and so from both sides
  have below : ∀ {n : ℕ}, n ≤ height c → parent^[n] c = parent^[n + i] a ∧
      parent^[n] c = parent^[n + j] b := fun {n} _ => by
    constructor
    · rw [Function.iterate_add_apply, r.left]
    · rw [Function.iterate_add_apply, r.right]
  ext x
  simp only [Set.mem_union, Set.mem_sdiff, Set.mem_ofPred_eq, mem_path]
  constructor
  · rintro ⟨l, hl, rfl⟩
    by_cases hlj : l < j
    · exact .inr ⟨l, hlj, rfl⟩
    · obtain ⟨h1, h2⟩ := below (n := l - j) (by omega)
      rw [show l - j + j = l by omega] at h2
      refine .inl ⟨⟨l - j + i, by omega, by rw [← h1, h2]⟩, ?_⟩
      rintro ⟨k, hk, he⟩
      exact r.disjoint k hk l hl he
  · rintro (⟨⟨k, hk, rfl⟩, hnot⟩ | ⟨l, hl, rfl⟩)
    · have hki : i ≤ k := by
        by_contra hlt
        exact hnot ⟨k, by omega, rfl⟩
      obtain ⟨h1, h2⟩ := below (n := k - i) (by omega)
      rw [show k - i + i = k by omega] at h1
      exact ⟨k - i + j, by omega, by rw [← h2, h1]⟩
    · exact ⟨l, by have := r.right_le; omega, rfl⟩

end Route

end ParentTree
