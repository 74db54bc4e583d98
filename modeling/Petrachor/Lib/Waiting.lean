import Mathlib.Data.List.Basic
import Mathlib.Data.List.Perm.Basic
import Mathlib.Algebra.Order.Group.Multiset

/-!
# Items that wait for a name

Items have a name and wait for another. Releasing a name takes out the items that wait for it, then
those that wait for them, breadth first.
-/

namespace Waiting

variable {α β K : Type*} [DecidableEq K] (after name : α → K)

/-- The items that a list of names releases, in order, and those that stay. -/
def release : ℕ → List K → List α → List α × List α
  | fuel + 1, k :: keys, u =>
    let removed := u.filter (after · = k)
    let r := release fuel (keys ++ removed.map name) (u.filter (after · ≠ k))
    (removed ++ r.1, r.2)
  | _, _, u => ([], u)

/-- Each item waits for one of the names or for an item before it. -/
def Sourced : List K → List α → Prop
  | _, [] => True
  | keys, x :: l => after x ∈ keys ∧ Sourced (name x :: keys) l

/-- What a release of these names may do: nothing stays that waits for them, or for an item that was
released. -/
structure Released (keys : List K) (u : Multiset α) (out : List α) (stay : Multiset α) : Prop where
  eq : u = (↑out : Multiset α) + stay
  sourced : Sourced after name keys out
  after_notMem : ∀ e ∈ stay, after e ∉ keys
  after_ne : ∀ e ∈ stay, ∀ x ∈ out, after e ≠ name x

variable {after name}

section

omit [DecidableEq K]

theorem Sourced.mono {keys keys' : List K} {l : List α} (h : Sourced after name keys l)
    (hsub : keys ⊆ keys') : Sourced after name keys' l := by
  induction l generalizing keys keys' with
  | nil => trivial
  | cons x l ih =>
    constructor
    · exact hsub h.1
    · apply ih h.2
      exact List.cons_subset_cons _ hsub

theorem Sourced.append {keys keys' : List K} {l l' : List α} (h : Sourced after name keys l)
    (h' : Sourced after name keys' l') (hsub : keys' ⊆ keys ++ l.map name) :
    Sourced after name keys (l ++ l') := by
  induction l generalizing keys with
  | nil =>
    apply h'.mono
    simpa using hsub
  | cons x l ih =>
    constructor
    · exact h.1
    · apply ih h.2
      intro k hk
      have hk' := hsub hk
      simp only [List.map_cons, List.mem_append, List.mem_cons] at hk' ⊢
      tauto

theorem sourced_of_forall {keys : List K} {l : List α} (h : ∀ x ∈ l, after x ∈ keys) :
    Sourced after name keys l := by
  induction l generalizing keys with
  | nil => trivial
  | cons x l ih =>
    obtain ⟨hx, hl⟩ := List.forall_mem_cons.1 h
    constructor
    · exact hx
    · apply ih
      intro y hy
      exact List.mem_cons_of_mem _ (hl y hy)

theorem Sourced.map (f : α → β) {after' name' : β → K} (ha : ∀ x, after' (f x) = after x)
    (hn : ∀ x, name' (f x) = name x) {keys : List K} {l : List α} (h : Sourced after name keys l) :
    Sourced after' name' keys (l.map f) := by
  induction l generalizing keys with
  | nil => trivial
  | cons x l ih =>
    rw [List.map_cons, Sourced, ha, hn]
    exact ⟨h.1, ih h.2⟩

/-- Whatever holds of the names and goes from an item's predecessor to the item holds of all. -/
theorem Sourced.forall {P : K → Prop} {keys : List K} {l : List α}
    (h : Sourced after name keys l) (hkeys : ∀ k ∈ keys, P k)
    (hstep : ∀ x ∈ l, P (after x) → P (name x)) : ∀ x ∈ l, P (name x) := by
  induction l generalizing keys with
  | nil => simp
  | cons x l ih =>
    have hx : P (name x) := hstep x List.mem_cons_self (hkeys _ h.1)
    rw [List.forall_mem_cons]
    refine ⟨hx, ih h.2 ?_ fun y hy => hstep y (List.mem_cons_of_mem _ hy)⟩
    intro k hk
    rcases List.mem_cons.1 hk with rfl | hk
    · exact hx
    · exact hkeys k hk

/-- Items with names of their own, none of them among the names they wait for at first, stand behind
the items they wait for. -/
theorem Sourced.pairwise {keys : List K} {l : List α} (h : Sourced after name keys l)
    (hnodup : (l.map name).Nodup) (hkeys : ∀ x ∈ l, name x ∉ keys) :
    l.Pairwise fun x y => after x ≠ name y := by
  induction l generalizing keys with
  | nil => exact List.Pairwise.nil
  | cons x l ih =>
    rw [List.map_cons, List.nodup_cons] at hnodup
    obtain ⟨hx, hl⟩ := List.forall_mem_cons.1 hkeys
    rw [List.pairwise_cons]
    constructor
    · intro y hy heq
      apply hl y hy
      rw [← heq]
      exact h.1
    · apply ih h.2 hnodup.2
      intro y hy hmem
      rcases List.mem_cons.1 hmem with heq | hmem
      · apply hnodup.1
        rw [← heq]
        exact List.mem_map_of_mem hy
      · exact hl y hy hmem

theorem Released.refl {u : Multiset α} : Released after name [] u [] u :=
  ⟨by simp, trivial, by simp, by simp⟩

/-- One release after the other. -/
theorem Released.trans {keys keys' : List K} {u stay stay' : Multiset α} {out out' : List α}
    (h : Released after name keys u out stay) (h' : Released after name keys' stay out' stay') :
    Released after name (keys ++ keys') u (out ++ out') stay' := by
  have hsub : ∀ e ∈ stay', e ∈ stay := by
    intro e he
    rw [h'.eq]
    exact Multiset.mem_add.2 (.inr he)
  constructor
  · calc u = (out : Multiset α) + stay := h.eq
      _ = out + (out' + stay') := congrArg _ h'.eq
      _ = ↑(out ++ out') + stay' := by rw [← add_assoc, Multiset.coe_add]
  · apply (h.sourced.mono (List.subset_append_left _ _)).append h'.sourced
    intro k hk
    simp [hk]
  · intro e he hmem
    rcases List.mem_append.1 hmem with hk | hk
    · exact h.after_notMem e (hsub e he) hk
    · exact h'.after_notMem e he hk
  · intro e he x hx
    rcases List.mem_append.1 hx with hx | hx
    · exact h.after_ne e (hsub e he) x hx
    · exact h'.after_ne e he x hx

theorem Released.map (f : α → β) {after' name' : β → K} (ha : ∀ x, after' (f x) = after x)
    (hn : ∀ x, name' (f x) = name x) {keys : List K} {u stay : Multiset α} {out : List α}
    (h : Released after name keys u out stay) :
    Released after' name' keys (u.map f) (out.map f) (stay.map f) := by
  constructor
  · rw [h.eq, Multiset.map_add, Multiset.map_coe]
  · exact h.sourced.map f ha hn
  · intro e he
    obtain ⟨x, hx, rfl⟩ := Multiset.mem_map.1 he
    rw [ha]
    exact h.after_notMem x hx
  · intro e he y hy
    obtain ⟨x, hx, rfl⟩ := Multiset.mem_map.1 he
    obtain ⟨z, hz, rfl⟩ := List.mem_map.1 hy
    rw [ha, hn]
    exact h.after_ne x hx z hz

end

theorem filter_append_filter_ne (u : List α) (k : K) :
    (u.filter (after · = k) ++ u.filter (after · ≠ k)).Perm u := by
  have h := List.filter_append_perm (fun e => decide (after e = k)) u
  simpa using h

/-- Taking out what waits for one name, and then for the names of what was taken out. -/
theorem Released.cons {k : K} {keys : List K} {u out : List α} {stay : Multiset α}
    (h : Released after name (keys ++ (u.filter (after · = k)).map name)
      ↑(u.filter (after · ≠ k)) out stay) :
    Released after name (k :: keys) ↑u (u.filter (after · = k) ++ out) stay := by
  have hk : ∀ x ∈ u.filter (after · = k), after x = k := fun x hx => by
    simpa using (List.mem_filter.1 hx).2
  have hstay : ∀ e ∈ stay, after e ≠ k := by
    intro e he
    have hmem : e ∈ (↑(u.filter (after · ≠ k)) : Multiset α) := by
      rw [h.eq]
      exact Multiset.mem_add.2 (.inr he)
    simpa using (List.mem_filter.1 (Multiset.mem_coe.1 hmem)).2
  constructor
  · rw [← Multiset.coe_add, add_assoc, ← h.eq, Multiset.coe_add, Multiset.coe_eq_coe]
    exact (filter_append_filter_ne u k).symm
  · apply Sourced.append (sourced_of_forall fun x hx => by simp [hk x hx]) h.sourced
    intro x hx
    simp only [List.mem_append, List.mem_cons] at hx ⊢
    tauto
  · intro e he hmem
    rcases List.mem_cons.1 hmem with heq | hmem
    · exact hstay e he heq
    · exact h.after_notMem e he (List.mem_append_left _ hmem)
  · intro e he x hx heq
    rcases List.mem_append.1 hx with hx | hx
    · apply h.after_notMem e he
      rw [heq]
      exact List.mem_append_right _ (List.mem_map_of_mem hx)
    · exact h.after_ne e he x hx heq

/-- With fuel for every name and every item the loop is a release. -/
theorem released_release {fuel : ℕ} {keys : List K} {u : List α}
    (hfuel : keys.length + u.length ≤ fuel) :
    Released after name keys ↑u (release after name fuel keys u).1
      ↑(release after name fuel keys u).2 := by
  induction fuel generalizing keys u with
  | zero =>
    obtain rfl : keys = [] := List.length_eq_zero_iff.1 (by omega)
    exact Released.refl
  | succ fuel ih =>
    cases keys with
    | nil => exact Released.refl
    | cons k keys =>
      apply Released.cons
      apply ih
      have hperm : (u.filter (after · = k) ++ u.filter (after · ≠ k)).Perm u :=
        filter_append_filter_ne u k
      have hlen := hperm.length_eq
      rw [List.length_append] at hlen
      rw [List.length_append, List.length_map]
      rw [List.length_cons] at hfuel
      omega

end Waiting
