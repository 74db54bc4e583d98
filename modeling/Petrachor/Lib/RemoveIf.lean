import Mathlib.Data.List.Basic
import Mathlib.Data.List.TakeWhile

/-!
# Removal in place

Removal in place shifts the elements to keep to the front of a sequence and leaves the rest of it
behind. An element that is shifted leaves a moved-from element in its place, so what is left behind
are the removed elements only if they stood at the end.
-/

namespace RemoveIf

variable {α : Type*} (p : α → Bool) (moved : α → α)

/-- The loop over the elements: those kept so far, and what stands between them and the next element.
One that is kept goes to the first place of the gap, and its own place joins the gap. -/
def shift (kept gap : List α) : List α → List α × List α
  | [] => (kept, gap)
  | e :: rest =>
    if p e then shift kept (gap ++ [e]) rest
    else match gap with
      | [] => shift (kept ++ [e]) [] rest
      | _ :: gap => shift (kept ++ [e]) (gap ++ [moved e]) rest

/-- The elements kept, and what is left behind. -/
def removeIf (l : List α) : List α × List α := shift p moved [] [] l

/-- The elements to remove are at the end. -/
def Trailing (l : List α) : Prop := ∀ e ∈ l.dropWhile (!p ·), p e = true

instance (l : List α) : Decidable (Trailing p l) := by
  unfold Trailing
  infer_instance

variable {p moved}

theorem shift_fst (kept gap l : List α) :
    (shift p moved kept gap l).1 = kept ++ l.filter (!p ·) := by
  induction l generalizing kept gap with
  | nil => simp [shift]
  | cons e l ih =>
    unfold shift
    by_cases he : p e = true
    · rw [if_pos he, ih]
      simp [he]
    · rw [if_neg he]
      cases gap with
      | nil => simp [ih, he]
      | cons _ gap => simp [ih, he]

/-- What is kept is what was to be kept, in its order. -/
theorem removeIf_fst (l : List α) : (removeIf p moved l).1 = l.filter (!p ·) :=
  shift_fst [] [] l

theorem length_shift (kept gap l : List α) :
    (shift p moved kept gap l).1.length + (shift p moved kept gap l).2.length =
      kept.length + gap.length + l.length := by
  induction l generalizing kept gap with
  | nil => simp [shift]
  | cons e l ih =>
    unfold shift
    by_cases he : p e = true
    · rw [if_pos he, ih]
      simp only [List.length_append, List.length_cons, List.length_nil]
      omega
    · rw [if_neg he]
      cases gap with
      | nil =>
        rw [ih]
        simp only [List.length_append, List.length_cons, List.length_nil]
        omega
      | cons _ gap =>
        rw [ih]
        simp only [List.length_append, List.length_cons, List.length_nil]
        omega

/-- As much is left behind as is removed. -/
theorem length_removeIf (l : List α) :
    (l.filter (!p ·)).length + (removeIf p moved l).2.length = l.length := by
  have h : (shift p moved [] [] l).1.length + (shift p moved [] [] l).2.length = _ :=
    length_shift [] [] l
  rw [shift_fst] at h
  simpa [removeIf] using h

/-- Nothing is left behind if nothing is removed. -/
theorem removeIf_snd_eq_nil (l : List α) :
    (removeIf p moved l).2 = [] ↔ ∀ e ∈ l, p e = false := by
  have h : (l.filter (!p ·)).length + (removeIf p moved l).2.length = l.length := length_removeIf l
  rw [← List.length_eq_zero_iff]
  constructor
  · intro h0 e he
    have hall := List.length_filter_eq_length_iff.1 (show (l.filter (!p ·)).length = l.length by omega)
    simpa using hall e he
  · intro hall
    have := List.length_filter_eq_length_iff.2 (show ∀ e ∈ l, (!p e) = true by simpa using hall)
    omega

theorem shift_of_all (kept gap l : List α) (h : ∀ e ∈ l, p e = true) :
    shift p moved kept gap l = (kept, gap ++ l) := by
  induction l generalizing gap with
  | nil => simp [shift]
  | cons e l ih =>
    obtain ⟨he, hl⟩ := List.forall_mem_cons.1 h
    unfold shift
    rw [if_pos he, ih _ hl, List.append_assoc, List.singleton_append]

theorem shift_of_trailing (kept l : List α) (h : Trailing p l) :
    (shift p moved kept [] l).2 = l.filter p := by
  induction l generalizing kept with
  | nil => rfl
  | cons e l ih =>
    by_cases he : p e = true
    · -- from here on all are to be removed
      have hall : ∀ x ∈ e :: l, p x = true := by
        intro x hx
        apply h
        rw [List.dropWhile_cons_of_neg (by simp [he])]
        exact hx
      rw [shift_of_all _ _ _ hall, List.nil_append, List.filter_eq_self.2 hall]
    · have ht : Trailing p l := by
        intro x hx
        apply h
        rw [List.dropWhile_cons_of_pos (by simp [he])]
        exact hx
      rw [shift, if_neg he, ih _ ht, List.filter_cons_of_neg he]

/-- Elements at the end are left behind as they are. -/
theorem removeIf_snd {l : List α} (h : Trailing p l) : (removeIf p moved l).2 = l.filter p :=
  shift_of_trailing [] l h

/-! ## A predicate that reads the sequence -/

section Reading

variable (moved) (r : List α → α → Bool)

/-- The loop with a predicate that reads the whole sequence as it stands. -/
def shiftIn (kept gap : List α) : List α → List α × List α
  | [] => (kept, gap)
  | e :: rest =>
    if r (kept ++ gap ++ e :: rest) e then shiftIn kept (gap ++ [e]) rest
    else match gap with
      | [] => shiftIn (kept ++ [e]) [] rest
      | _ :: gap => shiftIn (kept ++ [e]) (gap ++ [moved e]) rest

def removeIfIn (l : List α) : List α × List α := shiftIn moved r [] [] l

variable {r moved} {done kept gap : List α}

/-- What the places hold that the loop has been to: elements it has seen, and moved-from ones. -/
structure Stage (moved : α → α) (done kept gap : List α) : Prop where
  kept : ∀ x ∈ kept, x ∈ done
  gap : ∀ x ∈ gap, x ∈ done ∨ ∃ y ∈ done, x = moved y

theorem Stage.remove (h : Stage moved done kept gap) (e : α) :
    Stage moved (done ++ [e]) kept (gap ++ [e]) where
  kept x hx := List.mem_append_left _ (h.kept x hx)
  gap x hx := by
    rcases List.mem_append.1 hx with hx | hx
    · rcases h.gap x hx with hx | ⟨y, hy, rfl⟩
      · exact .inl (List.mem_append_left _ hx)
      · exact .inr ⟨y, List.mem_append_left _ hy, rfl⟩
    · exact .inl (List.mem_append_right _ hx)

theorem Stage.keep (h : Stage moved done kept []) (e : α) : Stage moved (done ++ [e]) (kept ++ [e]) [] where
  kept x hx := by
    rcases List.mem_append.1 hx with hx | hx
    · exact List.mem_append_left _ (h.kept x hx)
    · exact List.mem_append_right _ hx
  gap x hx := by cases hx

theorem Stage.move {g : α} (h : Stage moved done kept (g :: gap)) (e : α) :
    Stage moved (done ++ [e]) (kept ++ [e]) (gap ++ [moved e]) where
  kept x hx := by
    rcases List.mem_append.1 hx with hx | hx
    · exact List.mem_append_left _ (h.kept x hx)
    · exact List.mem_append_right _ hx
  gap x hx := by
    rcases List.mem_append.1 hx with hx | hx
    · rcases h.gap x (List.mem_cons_of_mem _ hx) with hx | ⟨y, hy, rfl⟩
      · exact .inl (List.mem_append_left _ hx)
      · exact .inr ⟨y, List.mem_append_left _ hy, rfl⟩
    · exact .inr ⟨e, List.mem_append_right _ (List.mem_singleton_self e), List.mem_singleton.1 hx⟩

/-- If what the predicate reads never changes its answer, the loop is the plain one. -/
theorem shiftIn_eq {l : List α}
    (hr : ∀ done kept gap e rest, l = done ++ e :: rest → Stage moved done kept gap →
      r (kept ++ gap ++ e :: rest) e = p e) :
    ∀ rest done kept gap, l = done ++ rest → Stage moved done kept gap →
      shiftIn moved r kept gap rest = shift p moved kept gap rest := by
  intro rest
  induction rest with
  | nil => exact fun done kept gap _ _ => rfl
  | cons e rest ih =>
    intro done kept gap hl h
    have hl' : l = done ++ [e] ++ rest := by rw [hl, List.append_assoc, List.singleton_append]
    unfold shiftIn shift
    rw [hr done kept gap e rest hl h]
    split
    · exact ih _ _ _ hl' (h.remove e)
    · cases gap with
      | nil => exact ih _ _ _ hl' (h.keep e)
      | cons g gap => exact ih _ _ _ hl' (h.move e)

theorem removeIfIn_eq {l : List α}
    (hr : ∀ done kept gap e rest, l = done ++ e :: rest → Stage moved done kept gap →
      r (kept ++ gap ++ e :: rest) e = p e) : removeIfIn moved r l = removeIf p moved l :=
  shiftIn_eq hr l [] [] [] rfl ⟨fun x hx => (by cases hx), fun x hx => (by cases hx)⟩

/-- An element that is kept was refused by the predicate, whatever it read. -/
theorem mem_shiftIn {x : α} : ∀ rest kept gap, x ∈ (shiftIn moved r kept gap rest).1 →
    x ∈ kept ∨ x ∈ rest ∧ ∃ l, r l x = false := by
  intro rest
  induction rest with
  | nil => exact fun kept gap h => .inl h
  | cons e rest ih =>
    intro kept gap h
    unfold shiftIn at h
    split at h
    · rcases ih _ _ h with h | ⟨h, hr⟩
      · exact .inl h
      · exact .inr ⟨List.mem_cons_of_mem _ h, hr⟩
    · rename_i he
      have hkept : x ∈ kept ++ [e] ∨ x ∈ rest ∧ (∃ l, r l x = false) →
          x ∈ kept ∨ x ∈ e :: rest ∧ ∃ l, r l x = false := by
        rintro (h | ⟨h, hr⟩)
        · rcases List.mem_append.1 h with h | h
          · exact .inl h
          · rw [List.mem_singleton.1 h]
            exact .inr ⟨List.mem_cons_self, _, Bool.not_eq_true _ ▸ he⟩
        · exact .inr ⟨List.mem_cons_of_mem _ h, hr⟩
      cases gap with
      | nil => exact hkept (ih _ _ h)
      | cons g gap => exact hkept (ih _ _ h)

end Reading

end RemoveIf
