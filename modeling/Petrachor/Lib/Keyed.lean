import Mathlib.Data.List.AList

/-!
# Stores with one cell for each key

A store is read one key at a time, and an action on a key changes the cell of that key only. What a
journal of such actions does to one cell is what the entries of its key do; what writing back a
finite map does to one cell is what the entry of its key does.
-/

namespace Keyed

section

variable {σ E K C : Type*} [DecidableEq K]

/-- The cells of a store, and what an action on a key does to them. -/
structure Store (σ E K C : Type*) [DecidableEq K] where
  get : σ → K → E
  act : σ → K → C → σ
  cell : C → E → E
  get_act_self : ∀ s k c, get (act s k c) k = cell c (get s k)
  get_act_ne : ∀ s k c j, j ≠ k → get (act s k c) j = get s j

/-- The entries of one key in a journal. -/
def entriesOf (k : K) (l : List (K × C)) : List C := (l.filter (fun e => e.1 = k)).map Prod.snd

@[simp] theorem entriesOf_nil (k : K) : entriesOf k ([] : List (K × C)) = [] := rfl

theorem entriesOf_cons_self (k : K) (c : C) (l : List (K × C)) :
    entriesOf k ((k, c) :: l) = c :: entriesOf k l := by
  simp [entriesOf]

theorem entriesOf_cons_ne {k j : K} (h : j ≠ k) (c : C) (l : List (K × C)) :
    entriesOf k ((j, c) :: l) = entriesOf k l := by
  simp [entriesOf, h]

theorem entriesOf_append (k : K) (l m : List (K × C)) :
    entriesOf k (l ++ m) = entriesOf k l ++ entriesOf k m := by
  simp [entriesOf]

namespace Store

variable (S : Store σ E K C)

/-- Acting on the keys of a journal, one entry after the other. -/
def actAll (s : σ) (l : List (K × C)) : σ := l.foldl (fun s e => S.act s e.1 e.2) s

/-- What a list of actions does to one cell. -/
def cellAll (e : E) (l : List C) : E := l.foldl (fun e c => S.cell c e) e

@[simp] theorem cellAll_nil (e : E) : S.cellAll e [] = e := rfl

@[simp] theorem cellAll_cons (e : E) (c : C) (l : List C) :
    S.cellAll e (c :: l) = S.cellAll (S.cell c e) l := rfl

theorem cellAll_append (e : E) (l m : List C) :
    S.cellAll e (l ++ m) = S.cellAll (S.cellAll e l) m := List.foldl_append

theorem get_actAll (s : σ) (l : List (K × C)) (k : K) :
    S.get (S.actAll s l) k = S.cellAll (S.get s k) (entriesOf k l) := by
  induction l generalizing s with
  | nil => rfl
  | cons e l ih =>
    obtain ⟨j, c⟩ := e
    rw [actAll, List.foldl_cons, ← actAll, ih]
    by_cases h : j = k
    · subst h
      rw [S.get_act_self, entriesOf_cons_self, cellAll_cons]
    · rw [S.get_act_ne _ _ _ _ (Ne.symm h), entriesOf_cons_ne h]

/-- Two cells that are alike up to what is still to be done to them end up alike. -/
theorem cellAll_rel (R : List C → E → E → Prop)
    (step : ∀ c l e f, R (c :: l) e f → R l (S.cell c e) (S.cell c f)) :
    ∀ (l : List C) {e f : E}, R l e f → R [] (S.cellAll e l) (S.cellAll f l) := by
  intro l
  induction l with
  | nil => exact fun h => h
  | cons c l ih => exact fun h => ih (step c l _ _ h)

end Store

/-- Writing back the entries of a finite map, in any order. -/
def writeBack (S : Store σ E K C) (s : σ) (m : AList (fun _ : K => C)) : σ :=
  S.actAll s (m.entries.map fun e => (e.1, e.2))

theorem entriesOf_of_nodup {k : K} :
    ∀ {l : List (Σ _ : K, C)}, l.NodupKeys →
      entriesOf k (l.map fun e => (e.1, e.2)) = (l.dlookup k).toList
  | [], _ => rfl
  | ⟨j, c⟩ :: l, h => by
    have hl := entriesOf_of_nodup (k := k) (List.nodupKeys_of_nodupKeys_cons h)
    rw [List.map_cons]
    by_cases hj : j = k
    · subst hj
      have hnone : l.dlookup j = none :=
        List.dlookup_eq_none.2 (List.notMem_keys_of_nodupKeys_cons h)
      rw [entriesOf_cons_self, hl, hnone, List.dlookup_cons_eq]
      rfl
    · rw [entriesOf_cons_ne hj, hl, List.dlookup_cons_ne _ _ (Ne.symm hj)]

theorem get_writeBack (S : Store σ E K C) (s : σ) (m : AList (fun _ : K => C)) (k : K) :
    S.get (writeBack S s m) k = (m.lookup k).elim (S.get s k) (fun c => S.cell c (S.get s k)) := by
  rw [writeBack, S.get_actAll, entriesOf_of_nodup m.nodupKeys]
  change S.cellAll _ ((m.lookup k).toList) = _
  cases m.lookup k <;> rfl

end

section

variable {K A B : Type*} [DecidableEq K]

/-- Applies a function to every value of a finite map. -/
def mapValues (f : A → B) (m : AList (fun _ : K => A)) : AList (fun _ : K => B) :=
  ⟨m.entries.map (Sigma.map id fun _ => f), m.nodupKeys.map₂ _ _⟩

@[simp] theorem lookup_mapValues (f : A → B) (m : AList (fun _ : K => A)) (k : K) :
    (mapValues f m).lookup k = (m.lookup k).map f :=
  List.dlookup_map₂ k

end

end Keyed
