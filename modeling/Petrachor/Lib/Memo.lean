import Mathlib.Data.List.AList

/-!
# A memo of bounded size

Values of a function that were computed before, by key. A memo that is full first loses an entry
picked at random. Whatever is lost, what the memo still has is right.
-/

structure Memo (κ ν : Type*) where
  table : AList fun _ : κ => ν
  /-- The keys that will be picked, in order. -/
  picks : ℕ → κ

namespace Memo

variable {κ ν : Type*} [DecidableEq κ]

def lookup (m : Memo κ ν) (k : κ) : Option ν := m.table.lookup k

def store (bound : ℕ) (m : Memo κ ν) (k : κ) (v : ν) : Memo κ ν :=
  if bound ≤ m.table.keys.length then
    ⟨(m.table.erase (m.picks 0)).insert k v, fun n => m.picks (n + 1)⟩
  else ⟨m.table.insert k v, m.picks⟩

/-- Every value is the one the function has. -/
def Sound (f : κ → ν) (m : Memo κ ν) : Prop := ∀ k v, m.lookup k = some v → v = f k

variable {f : κ → ν} {m : Memo κ ν}

theorem Sound.empty (picks : ℕ → κ) : Sound f ⟨∅, picks⟩ := by
  intro k v h
  rw [lookup, AList.lookup_empty] at h
  cases h

theorem Sound.store {bound : ℕ} {k : κ} {v : ν} (h : m.Sound f) (hv : v = f k) :
    (m.store bound k v).Sound f := by
  intro j w hj
  by_cases hjk : j = k
  · subst hjk
    have hw : some v = some w := by
      rw [← hj, Memo.store, lookup]
      by_cases hb : bound ≤ m.table.keys.length
      · rw [if_pos hb, AList.lookup_insert]
      · rw [if_neg hb, AList.lookup_insert]
    cases hw
    exact hv
  · apply h
    rw [Memo.store, lookup] at hj
    by_cases hb : bound ≤ m.table.keys.length
    · rw [if_pos hb, AList.lookup_insert_ne hjk] at hj
      by_cases hg : j = m.picks 0
      · rw [hg, AList.lookup_erase] at hj
        cases hj
      · rwa [AList.lookup_erase_ne hg] at hj
    · rwa [if_neg hb, AList.lookup_insert_ne hjk] at hj

/-- Looking first in the memo gives what the function gives. -/
theorem Sound.getD (h : m.Sound f) (k : κ) : (m.lookup k).getD (f k) = f k := by
  cases hk : m.lookup k with
  | none => rfl
  | some v => exact h k v hk

end Memo
