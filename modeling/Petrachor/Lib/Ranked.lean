import Mathlib.Data.List.TakeWhile
import Mathlib.Data.List.Pairwise

/-!
# Lists ranked from a floor

Items have owners and levels. They are ranked by how far they are above the floor of their owner, the lowest level
the owner has in the list, and among equals by price, the highest first. A list that is ranked from one floor
is ranked from another one where both agree, or where all items have one owner.
-/

namespace Ranked

variable {α κ : Type*} (owner : α → κ) (level price : α → ℕ)

/-- Every level is on or above the floor of its owner, and some item is on it. -/
def IsFloor (l : List α) (f : κ → ℕ) : Prop :=
  ∀ x ∈ l, f (owner x) ≤ level x ∧ ∃ y ∈ l, owner y = owner x ∧ level y = f (owner x)

def rank (f : κ → ℕ) (x : α) : ℕ := level x - f (owner x)

def Before (f : κ → ℕ) (x y : α) : Prop :=
  rank owner level f x < rank owner level f y ∨
    rank owner level f x = rank owner level f y ∧ price y < price x

def Sorted (f : κ → ℕ) (l : List α) : Prop := l.Pairwise fun x y => ¬Before owner level price f y x

variable {owner level price} {f g : κ → ℕ} {l m : List α} {x y z : α}

theorem IsFloor.eq_of_mem (hf : IsFloor owner level l f) (hg : IsFloor owner level l g) (hx : x ∈ l) :
    f (owner x) = g (owner x) := by
  obtain ⟨-, y, hy, hown, hlevel⟩ := hf x hx
  obtain ⟨-, z, hz, hown', hlevel'⟩ := hg x hx
  have hle := (hg y hy).1
  have hle' := (hf z hz).1
  rw [hown, hlevel] at hle
  rw [hown', hlevel'] at hle'
  exact Nat.le_antisymm hle' hle

theorem Sorted.sublist (hl : Sorted owner level price f l) (hm : m.Sublist l) : Sorted owner level price f m :=
  List.Pairwise.sublist hm hl

/-- Floors that agree on the owners in the list. -/
theorem Sorted.congr (hl : Sorted owner level price f l) (h : ∀ x ∈ l, f (owner x) = g (owner x)) :
    Sorted owner level price g l := by
  refine List.Pairwise.imp_of_mem ?_ hl
  intro x y hx hy hxy
  unfold Before rank at hxy ⊢
  rw [← h x hx, ← h y hy]
  exact hxy

/-- Where all have one owner, ranks are levels up to a constant. -/
theorem Sorted.shift (hl : Sorted owner level price f l) {a : κ} (hone : ∀ x ∈ l, owner x = a)
    (hf : ∀ x ∈ l, f a ≤ level x) (hg : ∀ x ∈ l, g a ≤ level x) : Sorted owner level price g l := by
  refine List.Pairwise.imp_of_mem ?_ hl
  intro x y hx hy hxy
  unfold Before rank at hxy ⊢
  rw [hone x hx, hone y hy] at hxy ⊢
  have hfx := hf x hx
  have hfy := hf y hy
  have hgx := hg x hx
  have hgy := hg y hy
  omega

theorem Before.trans_not (hxy : Before owner level price f x y) (hyz : ¬Before owner level price f z y) :
    Before owner level price f x z := by
  unfold Before at hxy hyz ⊢
  omega

/-- The list is divided by the place of a new item. -/
theorem Sorted.divide (hl : Sorted owner level price f l) (p : α → Bool)
    (hp : ∀ y ∈ l, p y = true ↔ Before owner level price f x y) :
    ∃ a b, l = a ++ b ∧ (∀ y ∈ a, p y = false) ∧ ∀ y ∈ b, p y = true := by
  induction l with
  | nil => exact ⟨[], [], rfl, by simp, by simp⟩
  | cons y l ih =>
    obtain ⟨hhead, htail⟩ := List.pairwise_cons.1 hl
    cases hpy : p y with
    | true =>
      refine ⟨[], y :: l, rfl, by simp, ?_⟩
      intro z hz
      rcases List.mem_cons.1 hz with rfl | hz'
      · exact hpy
      · exact (hp z hz).2 (((hp y List.mem_cons_self).1 hpy).trans_not (hhead z hz'))
    | false =>
      obtain ⟨a, b, rfl, ha, hb⟩ := ih htail fun z hz => hp z (List.mem_cons_of_mem _ hz)
      refine ⟨y :: a, b, rfl, ?_, hb⟩
      intro z hz
      rcases List.mem_cons.1 hz with rfl | hz
      · exact hpy
      · exact ha z hz

theorem Before.asymm (h : Before owner level price f x y) : ¬Before owner level price f y x := by
  unfold Before at h ⊢
  omega

/-- A new item between those it does not come before and those it does. -/
theorem Sorted.insert (hl : Sorted owner level price f (l ++ m)) (hle : ∀ y ∈ l, ¬Before owner level price f x y)
    (hlt : ∀ y ∈ m, Before owner level price f x y) : Sorted owner level price f (l ++ x :: m) := by
  obtain ⟨hl, hm, hlm⟩ := List.pairwise_append.1 hl
  refine List.pairwise_append.2 ⟨hl, List.pairwise_cons.2 ⟨fun y hy => (hlt y hy).asymm, hm⟩, ?_⟩
  intro y hy z hz
  rcases List.mem_cons.1 hz with rfl | hz
  · exact hle y hy
  · exact hlm y hy z hz

/-- Nobody is above the last item of a sorted list. -/
theorem Sorted.le_last (hl : Sorted owner level price f l) (hlast : l.getLast? = some x) (hy : y ∈ l) :
    rank owner level f y ≤ rank owner level f x := by
  obtain ⟨m, rfl⟩ := List.getLast?_eq_some_iff.1 hlast
  obtain ⟨-, -, hall⟩ := List.pairwise_append.1 hl
  rcases List.mem_append.1 hy with hy | hy
  · have hnot := hall y hy x List.mem_cons_self
    unfold Before at hnot
    omega
  · rw [List.mem_singleton.1 hy]

/-- Items of one owner stand in the order of their levels. -/
theorem Sorted.levels (hl : Sorted owner level price f l) (hf : ∀ x ∈ l, f (owner x) ≤ level x) :
    l.Pairwise fun x y => owner x = owner y → level x ≤ level y := by
  refine List.Pairwise.imp_of_mem ?_ hl
  intro x y hx hy hxy hown
  have hfx := hf x hx
  have hfy := hf y hy
  unfold Before rank at hxy
  rw [hown] at hxy hfx
  omega

end Ranked
