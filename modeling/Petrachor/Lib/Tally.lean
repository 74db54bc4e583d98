import Mathlib

/-!
# Tallies of entries

What a program does to a store, as a list of acts that each enter something or strike it out again. A list of acts
turns one multiset of entries into another one; whatever relates a store to the entries it has, and is kept by every
act, holds after all of them.
-/

namespace Tally

inductive Act (α : Type*)
  | enter (a : α)
  | strike (a : α)

namespace Act

/-- The entry that is made. -/
def entered {α : Type*} : Act α → Option α
  | enter a => some a
  | strike _ => none

theorem mem_filterMap_entered {α : Type*} {l : List (Act α)} {a : α} : a ∈ l.filterMap entered ↔ .enter a ∈ l := by
  rw [List.mem_filterMap]
  constructor
  · rintro ⟨_ | _, hx, h⟩
    · cases h
      exact hx
    · cases h
  · exact fun h => ⟨_, h, rfl⟩

/-- Whether a function tells the entries apart is settled by going through them. -/
theorem injOn_iff {α β : Type*} {f : α → β} {l : List (Act α)} : Set.InjOn f {a | .enter a ∈ l} ↔
    ∀ a ∈ l.filterMap entered, ∀ b ∈ l.filterMap entered, f a = f b → a = b := by
  simp only [mem_filterMap_entered]
  exact ⟨fun h a ha b hb => h ha hb, fun h a ha b hb => h a ha b hb⟩

end Act

/-- The acts turn `A` into `B`, and what is struck is there. -/
inductive Turns {α : Type*} : List (Act α) → Multiset α → Multiset α → Prop
  | nil (A : Multiset α) : Turns [] A A
  | enter {a : α} {l : List (Act α)} {A B : Multiset α} : Turns l (a ::ₘ A) B → Turns (.enter a :: l) A B
  | strike {a : α} {l : List (Act α)} {A B : Multiset α} : Turns l A B → Turns (.strike a :: l) (a ::ₘ A) B

namespace Turns

variable {α σ : Type*} {l m : List (Act α)} {A B C : Multiset α}

theorem append (h : Turns l A B) (h' : Turns m B C) : Turns (l ++ m) A C := by
  induction h with
  | nil A => exact h'
  | enter _ ih => exact .enter (ih h')
  | strike _ ih => exact .strike (ih h')

/-- Other entries are left alone. -/
theorem frame (h : Turns l A B) (F : Multiset α) : Turns l (A + F) (B + F) := by
  induction h with
  | nil A => exact .nil _
  | enter _ ih =>
    rw [Multiset.cons_add] at ih
    exact .enter ih
  | strike _ ih =>
    rw [Multiset.cons_add]
    exact .strike ih

end Turns

end Tally
