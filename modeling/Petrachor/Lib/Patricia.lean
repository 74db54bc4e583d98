import Mathlib.Data.List.FinRange
import Mathlib.Data.List.Infix
import Mathlib.Tactic

/-!
# Patricia tries

A trie over words in which no word is a proper prefix of another: a run of letters that all words share is the
path of one node, and where words part there is a branch with a child for each letter. A trie in this form is
determined by the words that are found in it.
-/

/-- Tries over words of `n` letters. -/
inductive Patricia (n : ℕ) (ν : Type*)
  | empty
  | leaf (path : List (Fin n)) (value : ν)
  | ext (path : List (Fin n)) (child : Patricia n ν)
  | branch (children : Fin n → Patricia n ν)

namespace Patricia

section

variable {ι : Type*} [DecidableEq ι]

/-- The length of the longest common prefix. -/
def shared : List ι → List ι → ℕ
  | a :: k, b :: l => if a = b then shared k l + 1 else 0
  | _, _ => 0

end

variable {n : ℕ} {ν : Type*}

def isEmpty : Patricia n ν → Bool
  | empty => true
  | _ => false

def isBranch : Patricia n ν → Bool
  | branch _ => true
  | _ => false

/-- A path that leads to a node. -/
def lead (p : List (Fin n)) : Patricia n ν → Patricia n ν
  | empty => empty
  | leaf q v => leaf (p ++ q) v
  | ext q t => ext (p ++ q) t
  | branch c => if p.isEmpty then branch c else ext p (branch c)

/-- Paths are as long as they can be, and every branch parts words. -/
def Canonical : Patricia n ν → Prop
  | empty => True
  | leaf _ _ => True
  | ext p t => p ≠ [] ∧ t.isBranch = true ∧ t.Canonical
  | branch c => (∃ i j, i ≠ j ∧ (c i).isEmpty = false ∧ (c j).isEmpty = false) ∧ ∀ i, (c i).Canonical

def find : Patricia n ν → List (Fin n) → Option ν
  | empty, _ => none
  | leaf p v, k => if k = p then some v else none
  | ext p t, k => if p <+: k then t.find (k.drop p.length) else none
  | branch _, [] => none
  | branch c, i :: k => (c i).find k

/-- A branch with two children. -/
def fork (a : Fin n) (s : Patricia n ν) (b : Fin n) (t : Patricia n ν) : Patricia n ν :=
  branch fun i => if i = b then t else if i = a then s else empty

/-- A node with a path in front of it, and a word that leaves the path. -/
def part (p : List (Fin n)) (t : Patricia n ν) (k : List (Fin n)) (v : ν) : Patricia n ν :=
  match p.drop (shared k p), k.drop (shared k p) with
  | a :: q, b :: l => lead (p.take (shared k p)) (fork a (lead q t) b (leaf l v))
  | _, _ => lead p t

def insert : Patricia n ν → List (Fin n) → ν → Patricia n ν
  | empty, k, v => leaf k v
  | leaf p w, k, v => if k = p then leaf p v else part p (leaf [] w) k v
  | ext p t, k, v => if p <+: k then ext p (t.insert (k.drop p.length) v) else part p t k v
  | branch c, [], _ => branch c
  | branch c, i :: k, v => branch fun j => if j = i then (c i).insert k v else c j

/-- The letters with a child. -/
def used (c : Fin n → Patricia n ν) : List (Fin n) := (List.finRange n).filter fun i => !(c i).isEmpty

/-- The letter of the only child. -/
def only (c : Fin n → Patricia n ν) : Option (Fin n) :=
  match used c with
  | [i] => some i
  | _ => none

/-- A branch that may have lost a child. -/
def close (c : Fin n → Patricia n ν) : Patricia n ν :=
  match only c with
  | some i => lead [i] (c i)
  | none => branch c

/-- The trie without a word; nothing if it does not have the word. -/
def remove : Patricia n ν → List (Fin n) → Option (Patricia n ν)
  | empty, _ => none
  | leaf p _, k => if k = p then some empty else none
  | ext p t, k => if p <+: k then (t.remove (k.drop p.length)).map (lead p) else none
  | branch _, [] => none
  | branch c, i :: k => ((c i).remove k).map fun t => close fun j => if j = i then t else c j

/-! ## Common prefixes -/

section

variable {ι : Type*} [DecidableEq ι]

theorem shared_nil_left (l : List ι) : shared [] l = 0 := by
  unfold shared
  rfl

theorem shared_cons (a : ι) (k l : List ι) : shared (a :: k) (a :: l) = shared k l + 1 := if_pos rfl

theorem shared_comm : ∀ k l : List ι, shared k l = shared l k
  | [], [] => rfl
  | [], _ :: _ => rfl
  | _ :: _, [] => rfl
  | a :: k, b :: l => by
    unfold shared
    rw [shared_comm k l]
    by_cases h : a = b
    · rw [if_pos h, if_pos h.symm]
    · rw [if_neg h, if_neg (Ne.symm h)]

theorem take_shared : ∀ k l : List ι, k.take (shared k l) = l.take (shared k l)
  | [], [] => rfl
  | [], _ :: _ => rfl
  | _ :: _, [] => rfl
  | a :: k, b :: l => by
    unfold shared
    by_cases h : a = b
    · rw [if_pos h, List.take_succ_cons, List.take_succ_cons, take_shared k l, h]
    · rw [if_neg h]
      rfl

theorem shared_le_left : ∀ k l : List ι, shared k l ≤ k.length
  | [], _ => Nat.zero_le _
  | _ :: _, [] => Nat.zero_le _
  | a :: k, b :: l => by
    unfold shared
    by_cases h : a = b
    · rw [if_pos h]
      exact Nat.succ_le_succ (shared_le_left k l)
    · rw [if_neg h]
      exact Nat.zero_le _

theorem shared_le_right (k l : List ι) : shared k l ≤ l.length := shared_comm k l ▸ shared_le_left l k

theorem shared_eq_length_iff : ∀ {k l : List ι}, shared k l = l.length ↔ l <+: k
  | _, [] => by
    cases ‹List ι› <;> simp [shared]
  | [], b :: l => by simp [shared]
  | a :: k, b :: l => by
    unfold shared
    rw [List.cons_prefix_cons]
    by_cases h : a = b
    · rw [if_pos h, List.length_cons, Nat.succ_inj, shared_eq_length_iff]
      exact ⟨fun hl => ⟨h.symm, hl⟩, And.right⟩
    · rw [if_neg h]
      exact iff_of_false (Nat.succ_ne_zero _).symm fun hl => h hl.1.symm

/-- Behind the common prefix two words go on with different letters. -/
theorem ne_of_drop_shared : ∀ {k l : List ι} {a b : ι} {q m : List ι}, k.drop (shared k l) = a :: q →
    l.drop (shared k l) = b :: m → a ≠ b
  | [], _, _, _, _, _, hk, _ => by simp at hk
  | _ :: _, [], _, _, _, _, _, hl => by simp at hl
  | x :: k, y :: l, a, b, q, m, hk, hl => by
    unfold shared at hk hl
    by_cases h : x = y
    · rw [if_pos h, List.drop_succ_cons] at hk hl
      exact ne_of_drop_shared hk hl
    · rw [if_neg h, List.drop_zero, List.cons.injEq] at hk hl
      rwa [← hk.1, ← hl.1]

/-- Two words of which neither is a prefix of the other part. -/
theorem exists_part {k p : List ι} (hk : ¬k <+: p) (hp : ¬p <+: k) :
    ∃ s a q b l, p = s ++ a :: q ∧ k = s ++ b :: l ∧ a ≠ b ∧ shared k p = s.length := by
  have h1 : shared k p < p.length :=
    lt_of_le_of_ne (shared_le_right k p) fun h => hp (shared_eq_length_iff.1 h)
  have h2 : shared k p < k.length := by
    refine lt_of_le_of_ne (shared_le_left k p) fun h => hk (shared_eq_length_iff.1 ?_)
    rw [shared_comm, h]
  obtain ⟨a, q, hq⟩ := List.exists_cons_of_ne_nil (List.ne_nil_of_length_pos (l := p.drop (shared k p))
    (by rw [List.length_drop]; omega))
  obtain ⟨b, l, hl⟩ := List.exists_cons_of_ne_nil (List.ne_nil_of_length_pos (l := k.drop (shared k p))
    (by rw [List.length_drop]; omega))
  refine ⟨k.take (shared k p), a, q, b, l, ?_, ?_, (ne_of_drop_shared hl hq).symm, ?_⟩
  · rw [take_shared, ← hq, List.take_append_drop]
  · rw [← hl, List.take_append_drop]
  · rw [List.length_take, min_eq_left h2.le]

theorem length_le_shared (s k l : List ι) : s.length ≤ shared (s ++ k) (s ++ l) := by
  induction s with
  | nil => exact Nat.zero_le _
  | cons a s ih =>
    rw [List.cons_append, List.cons_append, shared_cons]
    exact Nat.succ_le_succ ih

theorem shared_append {s q l : List ι} {a b : ι} (h : a ≠ b) : shared (s ++ b :: l) (s ++ a :: q) = s.length := by
  induction s with
  | nil => exact if_neg (Ne.symm h)
  | cons x s ih => rw [List.cons_append, List.cons_append, shared_cons, ih, List.length_cons]

end

section

variable {ι : Type*}

theorem append_prefix_iff {p q k : List ι} : p ++ q <+: k ↔ p <+: k ∧ q <+: k.drop p.length := by
  constructor
  · rintro ⟨r, rfl⟩
    rw [List.append_assoc, List.drop_left]
    exact ⟨List.prefix_append .., List.prefix_append ..⟩
  · rintro ⟨⟨r, rfl⟩, h⟩
    rw [List.drop_left] at h
    exact (List.prefix_append_right_inj p).2 h

theorem eq_append_iff {p q k : List ι} : k = p ++ q ↔ p <+: k ∧ k.drop p.length = q := by
  constructor
  · rintro rfl
    exact ⟨List.prefix_append .., List.drop_left⟩
  · rintro ⟨⟨r, rfl⟩, h⟩
    rw [List.drop_left] at h
    rw [h]

end

/-! ## Words of a trie -/

variable {t s : Patricia n ν} {c : Fin n → Patricia n ν} {p k l : List (Fin n)} {i : Fin n} {v w : ν}

theorem find_lead (p : List (Fin n)) (t : Patricia n ν) (k : List (Fin n)) :
    (lead p t).find k = if p <+: k then t.find (k.drop p.length) else none := by
  cases t with
  | empty => exact (ite_self _).symm
  | leaf q v =>
    rw [lead, find, find, ← ite_and]
    exact if_congr eq_append_iff rfl rfl
  | ext q t =>
    rw [lead, find, find, List.length_append, ← List.drop_drop, ← ite_and]
    exact if_congr append_prefix_iff rfl rfl
  | branch c =>
    cases p with
    | nil => rw [if_pos List.nil_prefix]; rfl
    | cons a p => rfl

theorem isEmpty_lead (p : List (Fin n)) (t : Patricia n ν) : (lead p t).isEmpty = t.isEmpty := by
  cases t with
  | branch c => cases p <;> rfl
  | _ => rfl

theorem lead_lead (p q : List (Fin n)) (t : Patricia n ν) : lead p (lead q t) = lead (p ++ q) t := by
  cases t with
  | branch c =>
    cases q with
    | nil =>
      rw [List.append_nil]
      rfl
    | cons a q => cases p <;> rfl
  | _ => simp [lead]

theorem lead_of_isBranch (h : t.isBranch = true) (hp : p ≠ []) : lead p t = ext p t := by
  cases t with
  | branch c =>
    cases p with
    | nil => exact absurd rfl hp
    | cons a p => rfl
  | _ => cases h

theorem isEmpty_of_isBranch (h : t.isBranch = true) : t.isEmpty = false := by
  cases t with
  | branch c => rfl
  | _ => cases h

theorem canonical_lead (h : t.Canonical) : (lead p t).Canonical := by
  cases t with
  | empty => trivial
  | leaf q v => trivial
  | ext q t => exact ⟨List.append_ne_nil_of_right_ne_nil p h.1, h.2⟩
  | branch c =>
    cases p with
    | nil => exact h
    | cons a p => exact ⟨List.cons_ne_nil a p, rfl, h⟩

/-- A trie that is not empty has a word. -/
theorem Canonical.exists_find (h : t.Canonical) (hne : t.isEmpty = false) : ∃ k v, t.find k = some v := by
  induction t with
  | empty => cases hne
  | leaf p v => exact ⟨p, v, if_pos rfl⟩
  | ext p t ih =>
    obtain ⟨k, v, hk⟩ := ih h.2.2 (isEmpty_of_isBranch h.2.1)
    refine ⟨p ++ k, v, ?_⟩
    rw [find, if_pos (List.prefix_append ..), List.drop_left, hk]
  | branch c ih =>
    obtain ⟨i, -, -, hi, -⟩ := h.1
    obtain ⟨k, v, hk⟩ := ih i (h.2 i) hi
    exact ⟨i :: k, v, hk⟩

/-- No word of the trie is a proper prefix of this one or the other way around. -/
def Free (t : Patricia n ν) (k : List (Fin n)) : Prop :=
  ∀ l v, t.find l = some v → k <+: l ∨ l <+: k → l = k

theorem Free.of_append (h : Free (lead p t) (p ++ k)) : Free t k := by
  intro l v hl hpre
  have hfind : (lead p t).find (p ++ l) = some v := by
    rw [find_lead, if_pos (List.prefix_append ..), List.drop_left, hl]
  refine List.append_cancel_left (h (p ++ l) v hfind ?_)
  rwa [List.prefix_append_right_inj, List.prefix_append_right_inj]

theorem Free.child (h : Free (branch c) (i :: k)) : Free (c i) k := by
  intro l v hl hpre
  have heq := h (i :: l) v hl ?_
  · exact (List.cons.inj heq).2
  · rwa [List.cons_prefix_cons, List.cons_prefix_cons, and_iff_right rfl, and_iff_right rfl]

/-- A path and a word that is free part, or the word goes on behind the path. -/
theorem Free.not_prefix (h : Free (lead p t) k) (ht : t.Canonical) (hne : t.isEmpty = false) (hk : ¬p <+: k) :
    ¬k <+: p := by
  intro hkp
  obtain ⟨l, v, hl⟩ := ht.exists_find hne
  have hfind : (lead p t).find (p ++ l) = some v := by
    rw [find_lead, if_pos (List.prefix_append ..), List.drop_left, hl]
  have heq := h (p ++ l) v hfind (.inl (hkp.trans (List.prefix_append ..)))
  exact hk (heq ▸ List.prefix_append ..)

theorem not_free_nil (h : (branch c).Canonical) : ¬Free (branch c) [] := by
  intro hfree
  obtain ⟨l, v, hl⟩ := h.exists_find rfl
  have heq := hfree l v hl (.inl List.nil_prefix)
  rw [heq] at hl
  cases hl

/-! ## Inserting a word -/

theorem part_eq {q : List (Fin n)} {a b : Fin n} (hab : a ≠ b) (s l : List (Fin n)) :
    part (s ++ a :: q) t (s ++ b :: l) v = lead s (fork a (lead q t) b (leaf l v)) := by
  unfold part
  rw [shared_append hab, List.drop_left, List.drop_left, List.take_left]

theorem find_part {q l : List (Fin n)} {a b : Fin n} (hab : a ≠ b) (s k : List (Fin n)) :
    (lead s (fork a (lead q t) b (leaf l v))).find k =
      if k = s ++ b :: l then some v else (lead (s ++ a :: q) t).find k := by
  rw [find_lead, find_lead]
  by_cases hs : s <+: k
  · obtain ⟨k, rfl⟩ := hs
    rw [if_pos (List.prefix_append ..), List.drop_left, List.length_append, ← List.drop_drop, List.drop_left]
    simp only [List.append_cancel_left_eq, List.prefix_append_right_inj]
    cases k with
    | nil => rfl
    | cons i k =>
      simp only [List.cons_prefix_cons, List.length_cons, List.drop_succ_cons, List.cons.injEq]
      show (if i = b then leaf l v else if i = a then lead q t else empty).find k = _
      by_cases hb : i = b
      · rw [if_pos hb, find, hb, if_neg (fun h : a = b ∧ q <+: k => hab h.1)]
        simp only [true_and]
      · rw [if_neg hb, if_neg fun h : i = b ∧ k = l => hb h.1]
        by_cases ha : i = a
        · rw [if_pos ha, find_lead, ha]
          simp only [true_and]
        · rw [if_neg ha, if_neg (fun h : a = i ∧ q <+: k => ha h.1.symm)]
          rfl
  · rw [if_neg hs, if_neg, if_neg]
    · exact fun h => hs ((List.prefix_append ..).trans h)
    · exact fun h => hs (h ▸ List.prefix_append ..)

theorem canonical_part {q l : List (Fin n)} {a b : Fin n} (hab : a ≠ b) (ht : t.Canonical)
    (hne : t.isEmpty = false) (s : List (Fin n)) :
    (lead s (fork a (lead q t) b (leaf l v))).Canonical := by
  refine canonical_lead ⟨⟨a, b, hab, ?_, ?_⟩, fun i => ?_⟩
  · show (if a = b then leaf l v else if a = a then lead q t else empty).isEmpty = false
    rw [if_neg hab, if_pos rfl, isEmpty_lead, hne]
  · show (if b = b then leaf l v else if b = a then lead q t else empty).isEmpty = false
    rw [if_pos rfl]
    rfl
  · show (if i = b then leaf l v else if i = a then lead q t else empty).Canonical
    by_cases hb : i = b
    · rw [if_pos hb]
      trivial
    · rw [if_neg hb]
      by_cases ha : i = a
      · rw [if_pos ha]
        exact canonical_lead ht
      · rw [if_neg ha]
        trivial

/-- What an insertion does: a word that is free is added or replaced, and the form is kept. -/
theorem insert_spec (ht : t.Canonical) (hk : Free t k) (v : ν) : (t.insert k v).Canonical ∧
    (t.insert k v).isEmpty = false ∧ (t.isBranch = true → (t.insert k v).isBranch = true) ∧
      ∀ l, (t.insert k v).find l = if l = k then some v else t.find l := by
  induction t generalizing k with
  | empty => exact ⟨trivial, rfl, fun h => absurd h Bool.false_ne_true, fun l => rfl⟩
  | leaf p w =>
    rw [insert]
    by_cases hp : k = p
    · rw [if_pos hp]
      refine ⟨trivial, rfl, fun h => absurd h Bool.false_ne_true, fun l => ?_⟩
      rw [find, find, hp]
      by_cases hl : l = p
      · rw [if_pos hl, if_pos hl]
      · rw [if_neg hl, if_neg hl, if_neg hl]
    · rw [if_neg hp]
      have hlead : lead p (leaf [] w) = leaf p w := by rw [lead, List.append_nil]
      rw [← hlead] at hk ⊢
      have hpk : ¬p <+: k := by
        intro h
        refine hp (hk p w ?_ (.inr h)).symm
        rw [hlead, find, if_pos rfl]
      have hkp := hk.not_prefix trivial rfl hpk
      obtain ⟨s, a, q, b, l, rfl, rfl, hab, -⟩ := exists_part hkp hpk
      rw [part_eq hab]
      refine ⟨canonical_part (t := leaf [] w) hab trivial rfl s, ?_, fun h => ?_, find_part hab s⟩
      · rw [isEmpty_lead]
        rfl
      · rw [hlead] at h
        cases h
  | ext p t ih =>
    rw [insert]
    have hlead : lead p t = ext p t := lead_of_isBranch ht.2.1 ht.1
    by_cases hp : p <+: k
    · obtain ⟨k, rfl⟩ := hp
      rw [if_pos (List.prefix_append ..), List.drop_left]
      rw [← hlead] at hk
      obtain ⟨hc, -, hb, hf⟩ := ih ht.2.2 hk.of_append
      refine ⟨⟨ht.1, hb ht.2.1, hc⟩, rfl, fun h => absurd h Bool.false_ne_true, fun l => ?_⟩
      rw [find, find]
      by_cases hl : p <+: l
      · obtain ⟨l, rfl⟩ := hl
        rw [if_pos (List.prefix_append ..), if_pos (List.prefix_append ..), List.drop_left, hf]
        simp only [List.append_cancel_left_eq]
      · rw [if_neg hl, if_neg hl, if_neg fun h : l = p ++ k => hl (h ▸ List.prefix_append ..)]
    · rw [if_neg hp]
      rw [← hlead] at hk ⊢
      have hne := isEmpty_of_isBranch ht.2.1
      have hkp := hk.not_prefix ht.2.2 hne hp
      obtain ⟨s, a, q, b, l, rfl, rfl, hab, -⟩ := exists_part hkp hp
      rw [part_eq hab]
      refine ⟨canonical_part hab ht.2.2 hne s, ?_, fun h => ?_, find_part hab s⟩
      · rw [isEmpty_lead]
        rfl
      · rw [hlead] at h
        cases h
  | branch c ih =>
    cases k with
    | nil => exact absurd hk (not_free_nil ht)
    | cons i k =>
      obtain ⟨hc, hne, -, hf⟩ := ih i (ht.2 i) hk.child
      obtain ⟨⟨x, y, hxy, hx, hy⟩, hall⟩ := ht
      have hkept : ∀ j, (c j).isEmpty = false → (if j = i then (c i).insert k v else c j).isEmpty = false := by
        intro j hj
        by_cases hji : j = i
        · rwa [if_pos hji]
        · rwa [if_neg hji]
      refine ⟨⟨⟨x, y, hxy, hkept x hx, hkept y hy⟩, fun j => ?_⟩, rfl, fun _ => rfl, fun l => ?_⟩
      · show (if j = i then (c i).insert k v else c j).Canonical
        by_cases hji : j = i
        · rwa [if_pos hji]
        · rw [if_neg hji]
          exact hall j
      · cases l with
        | nil => rfl
        | cons j l =>
          show (if j = i then (c i).insert k v else c j).find l = if j :: l = i :: k then some v else (c j).find l
          simp only [List.cons.injEq]
          by_cases hji : j = i
          · subst hji
            rw [if_pos rfl, hf]
            simp only [true_and]
          · rw [if_neg hji, if_neg fun h : j = i ∧ l = k => hji h.1]

/-! ## Removing a word -/

theorem mem_used : i ∈ used c ↔ (c i).isEmpty = false := by
  unfold used
  rw [List.mem_filter, Bool.not_eq_true', and_iff_right (List.mem_finRange i)]

theorem nodup_used (c : Fin n → Patricia n ν) : (used c).Nodup := (List.nodup_finRange n).filter _

theorem only_eq_some_iff : only c = some i ↔ used c = [i] := by
  unfold only
  split
  · rename_i j hj
    rw [hj, Option.some.injEq, List.cons.injEq, and_iff_left rfl]
  · rename_i hne
    exact iff_of_false (by rintro ⟨⟩) (hne i)

theorem find_close (c : Fin n → Patricia n ν) (l : List (Fin n)) : (close c).find l = (branch c).find l := by
  unfold close
  split
  · rename_i i hi
    rw [only_eq_some_iff] at hi
    rw [find_lead]
    cases l with
    | nil => rfl
    | cons j l =>
      show (if [i] <+: j :: l then (c i).find l else none) = (c j).find l
      by_cases hij : i = j
      · subst hij
        rw [if_pos (List.cons_prefix_cons.2 ⟨rfl, List.nil_prefix⟩)]
      · rw [if_neg fun h => hij (List.cons_prefix_cons.1 h).1]
        have hj : (c j).isEmpty = true := by
          rw [← Bool.not_eq_false, ← mem_used, hi, List.mem_singleton]
          exact Ne.symm hij
        cases hc : c j with
        | empty => rfl
        | _ => rw [hc] at hj; cases hj
  · rfl

theorem canonical_close (hall : ∀ j, (c j).Canonical) (hi : (c i).isEmpty = false) :
    (close c).Canonical ∧ (close c).isEmpty = false := by
  unfold close
  split
  · rename_i j hj
    rw [only_eq_some_iff] at hj
    have hne : (c j).isEmpty = false := by
      rw [← mem_used, hj]
      exact List.mem_singleton_self j
    exact ⟨canonical_lead (hall j), by rw [isEmpty_lead, hne]⟩
  · rename_i hnone
    refine ⟨⟨?_, hall⟩, rfl⟩
    have hnodup := nodup_used c
    have hmem := mem_used.2 hi
    match hused : used c with
    | [] => rw [hused] at hmem; cases hmem
    | [j] =>
      rw [only_eq_some_iff.2 hused] at hnone
      cases hnone
    | x :: y :: r =>
      rw [hused] at hnodup
      have hxy : x ≠ y := fun h => (List.nodup_cons.1 hnodup).1 (h ▸ List.mem_cons_self)
      refine ⟨x, y, hxy, mem_used.1 (hused ▸ List.mem_cons_self), mem_used.1 (hused ▸ ?_)⟩
      exact List.mem_cons_of_mem _ List.mem_cons_self

/-- What a removal does: nothing if the trie does not have the word, else the word is gone and the form is kept. -/
theorem remove_spec (ht : t.Canonical) (k : List (Fin n)) : match t.remove k with
    | none => t.find k = none
    | some s => s.Canonical ∧ (t.isBranch = true → s.isEmpty = false) ∧ (∃ v, t.find k = some v) ∧
      ∀ l, s.find l = if l = k then none else t.find l := by
  induction t generalizing k with
  | empty => rfl
  | leaf p w =>
    rw [remove]
    by_cases hp : k = p
    · rw [if_pos hp]
      refine ⟨trivial, fun h => absurd h Bool.false_ne_true, ⟨w, if_pos hp⟩, fun l => ?_⟩
      rw [find, find, hp]
      by_cases hl : l = p
      · rw [if_pos hl]
      · rw [if_neg hl, if_neg hl]
    · rw [if_neg hp]
      exact if_neg hp
  | ext p t ih =>
    rw [remove]
    by_cases hp : p <+: k
    · obtain ⟨k, rfl⟩ := hp
      have hk := ih ht.2.2 k
      rw [if_pos (List.prefix_append ..), List.drop_left]
      have hfind : (ext p t).find (p ++ k) = t.find k := by
        rw [find, if_pos (List.prefix_append ..), List.drop_left]
      cases hr : t.remove k with
      | none =>
        rw [hr] at hk
        exact hfind.trans hk
      | some s =>
        rw [hr] at hk
        obtain ⟨hs, hne, ⟨v, hv⟩, hf⟩ := hk
        refine ⟨canonical_lead hs, fun h => absurd h Bool.false_ne_true, ⟨v, hfind.trans hv⟩, fun l => ?_⟩
        rw [find_lead, find]
        by_cases hl : p <+: l
        · obtain ⟨l, rfl⟩ := hl
          rw [if_pos (List.prefix_append ..), if_pos (List.prefix_append ..), List.drop_left, hf]
          simp only [List.append_cancel_left_eq]
        · rw [if_neg hl, if_neg hl, ite_self]
    · rw [if_neg hp]
      exact if_neg hp
  | branch c ih =>
    cases k with
    | nil => rfl
    | cons i k =>
      rw [remove]
      have hk := ih i (ht.2 i) k
      cases hr : (c i).remove k with
      | none =>
        rw [hr] at hk
        exact hk
      | some s =>
        rw [hr] at hk
        obtain ⟨hs, -, hv, hf⟩ := hk
        obtain ⟨⟨x, y, hxy, hx, hy⟩, hall⟩ := ht
        have hall' : ∀ j, (if j = i then s else c j).Canonical := by
          intro j
          by_cases hji : j = i
          · rwa [if_pos hji]
          · rw [if_neg hji]
            exact hall j
        obtain ⟨z, hz⟩ : ∃ z, (if z = i then s else c z).isEmpty = false := by
          by_cases hxi : x = i
          · exact ⟨y, by rwa [if_neg (hxi ▸ Ne.symm hxy)]⟩
          · exact ⟨x, by rwa [if_neg hxi]⟩
        obtain ⟨hclose, hne⟩ := canonical_close hall' hz
        refine ⟨hclose, fun _ => hne, hv, fun l => ?_⟩
        rw [find_close]
        cases l with
        | nil => rfl
        | cons j l =>
          show (if j = i then s else c j).find l = if j :: l = i :: k then none else (c j).find l
          simp only [List.cons.injEq]
          by_cases hji : j = i
          · subst hji
            rw [if_pos rfl, hf]
            simp only [true_and]
          · rw [if_neg hji, if_neg fun h : j = i ∧ l = k => hji h.1]

/-! ## The form is determined by the words -/

/-- Of two words under a branch, one does not start with a given letter. -/
theorem Canonical.exists_ne (h : (branch c).Canonical) (i : Fin n) :
    ∃ j k v, j ≠ i ∧ (branch c).find (j :: k) = some v := by
  obtain ⟨⟨x, y, hxy, hx, hy⟩, hall⟩ := h
  by_cases hxi : x = i
  · obtain ⟨k, v, hk⟩ := (hall y).exists_find hy
    exact ⟨y, k, v, hxi ▸ Ne.symm hxy, hk⟩
  · obtain ⟨k, v, hk⟩ := (hall x).exists_find hx
    exact ⟨x, k, v, hxi, hk⟩

/-- All words of a trie start with its path, and none of their other letters is common to them. -/
theorem prefix_of_agree {p q : List (Fin n)} (hs : s.isBranch = true) (hc : s.Canonical)
    (h : ∀ k v, (lead p s).find k = some v → q <+: k) : q <+: p := by
  cases s with
  | branch c =>
    have hword : ∀ j k v, (branch c).find (j :: k) = some v → q <+: p ++ j :: k := by
      intro j k v hk
      refine h _ v ?_
      rw [find_lead, if_pos (List.prefix_append ..), List.drop_left, hk]
    obtain ⟨x, k, v, -, hk⟩ : ∃ j k v, j = j ∧ (branch c).find (j :: k) = some v := by
      obtain ⟨i, -, -, hi, -⟩ := hc.1
      obtain ⟨k, v, hk⟩ := (hc.2 i).exists_find hi
      exact ⟨i, k, v, rfl, hk⟩
    obtain ⟨y, m, w, hyx, hm⟩ := hc.exists_ne x
    rcases List.prefix_or_prefix_of_prefix (hword x k v hk) (List.prefix_append p (x :: k)) with hqp | ⟨r, rfl⟩
    · exact hqp
    · -- a letter behind the path would be the first of both words
      cases r with
      | nil => rw [List.append_nil]
      | cons z r =>
        have hx := (List.prefix_append_right_inj p).1 (hword x k v hk)
        have hy := (List.prefix_append_right_inj p).1 (hword y m w hm)
        exact absurd ((List.cons_prefix_cons.1 hy).1.symm.trans (List.cons_prefix_cons.1 hx).1) hyx
  | _ => cases hs

theorem find_ext_prefix {t : Patricia n ν} (h : (ext p t).find k = some v) : p <+: k := by
  rw [find] at h
  by_cases hp : p <+: k
  · exact hp
  · rw [if_neg hp] at h
    cases h

/-- A trie with more than one word. -/
theorem Canonical.exists_two (h : t.Canonical) (hne : t.isEmpty = false) (hleaf : ∀ p v, t ≠ leaf p v) :
    ∃ k l v w, k ≠ l ∧ t.find k = some v ∧ t.find l = some w := by
  have hbranch : ∀ c : Fin n → Patricia n ν, (branch c).Canonical → ∃ k l v w, k ≠ l ∧
      (branch c).find k = some v ∧ (branch c).find l = some w := by
    intro c hc
    obtain ⟨i, -, -, hi, -⟩ := hc.1
    obtain ⟨k, v, hk⟩ := (hc.2 i).exists_find hi
    obtain ⟨j, l, w, hji, hl⟩ := hc.exists_ne i
    exact ⟨i :: k, j :: l, v, w, fun heq => hji (List.cons.inj heq).1.symm, hk, hl⟩
  cases t with
  | empty => cases hne
  | leaf p v => exact absurd rfl (hleaf p v)
  | ext p t =>
    cases t with
    | branch c =>
      obtain ⟨k, l, v, w, hkl, hk, hl⟩ := hbranch c h.2.2
      refine ⟨p ++ k, p ++ l, v, w, fun heq => hkl (List.append_cancel_left heq), ?_, ?_⟩
      · rw [find, if_pos (List.prefix_append ..), List.drop_left, hk]
      · rw [find, if_pos (List.prefix_append ..), List.drop_left, hl]
    | _ => cases h.2.1
  | branch c => exact hbranch c h

theorem Canonical.not_isEmpty_of_find (ht : t.Canonical) (h : ∀ k, t.find k = s.find k) (hne : t.isEmpty = false) :
    s.isEmpty = false := by
  obtain ⟨k, v, hk⟩ := ht.exists_find hne
  cases s with
  | empty =>
    rw [h] at hk
    cases hk
  | _ => rfl

/-- A trie with one word is a leaf. -/
theorem Canonical.eq_leaf_of_find (ht : t.Canonical) (h : ∀ k, t.find k = (leaf p v).find k) : t = leaf p v := by
  have hne : t.isEmpty = false := not_isEmpty_of_find (t := leaf p v) trivial (fun k => (h k).symm) rfl
  have hword : ∀ m z, t.find m = some z → m = p ∧ z = v := by
    intro m z hm
    rw [h, find] at hm
    by_cases hmp : m = p
    · rw [if_pos hmp, Option.some.injEq] at hm
      exact ⟨hmp, hm.symm⟩
    · rw [if_neg hmp] at hm
      cases hm
  by_cases hleaf : ∃ q w, t = leaf q w
  · obtain ⟨q, w, rfl⟩ := hleaf
    obtain ⟨rfl, rfl⟩ := hword q w (if_pos rfl)
    rfl
  · obtain ⟨k, l, x, y, hkl, hk, hl⟩ := ht.exists_two hne fun q w heq => hleaf ⟨q, w, heq⟩
    exact absurd ((hword k x hk).1.trans (hword l y hl).1.symm) hkl

/-- Tries with the same words are the same. -/
theorem Canonical.eq_of_find (ht : t.Canonical) (hs : s.Canonical) (h : ∀ k, t.find k = s.find k) : t = s := by
  have hpath : ∀ {p : List (Fin n)} {t u : Patricia n ν}, t.isBranch = true → t.Canonical →
      (∀ k, (ext p u).find k = (lead [] t).find k) → p = [] := by
    intro p t u hb ht h
    refine List.prefix_nil.1 (prefix_of_agree hb ht fun k v hk => ?_)
    rw [← h] at hk
    exact find_ext_prefix hk
  induction t generalizing s with
  | empty =>
    cases s with
    | empty => rfl
    | _ => cases hs.not_isEmpty_of_find (fun k => (h k).symm) rfl
  | leaf p v => exact (hs.eq_leaf_of_find fun k => (h k).symm).symm
  | ext p t ih =>
    cases s with
    | empty => cases ht.not_isEmpty_of_find h rfl
    | leaf q w => exact ht.eq_leaf_of_find h
    | ext q s =>
      have htl := lead_of_isBranch ht.2.1 ht.1
      have hsl := lead_of_isBranch hs.2.1 hs.1
      have hp : p <+: q := by
        refine prefix_of_agree hs.2.1 hs.2.2 fun k v hk => ?_
        rw [hsl, ← h] at hk
        exact find_ext_prefix hk
      have hq : q <+: p := by
        refine prefix_of_agree ht.2.1 ht.2.2 fun k v hk => ?_
        rw [htl, h] at hk
        exact find_ext_prefix hk
      obtain rfl : p = q := hp.eq_of_length_le hq.length_le
      have hfind : ∀ k, t.find k = s.find k := by
        intro k
        have hk := h (p ++ k)
        rwa [find, find, if_pos (List.prefix_append ..), if_pos (List.prefix_append ..), List.drop_left] at hk
      rw [ih ht.2.2 hs.2.2 hfind]
    | branch c => exact absurd (hpath (t := branch c) rfl hs h) ht.1
  | branch c ih =>
    cases s with
    | empty => cases ht.not_isEmpty_of_find h rfl
    | leaf q w => exact ht.eq_leaf_of_find h
    | ext q s => exact absurd (hpath (t := branch c) rfl ht fun k => (h k).symm) hs.1
    | branch d => exact congrArg branch (funext fun i => ih i (ht.2 i) (hs.2 i) fun k => h (i :: k))

/-! ## Words in order -/

/-- The words with their values, in lexicographic order. -/
def entries : Patricia n ν → List (List (Fin n) × ν)
  | empty => []
  | leaf p v => [(p, v)]
  | ext p t => t.entries.map fun e => (p ++ e.1, e.2)
  | branch c => (List.finRange n).flatMap fun i => (c i).entries.map fun e => (i :: e.1, e.2)

theorem mem_entries {t : Patricia n ν} : (k, v) ∈ t.entries ↔ t.find k = some v := by
  induction t generalizing k with
  | empty => exact iff_of_false List.not_mem_nil (by rintro ⟨⟩)
  | leaf p w =>
    rw [entries, find, List.mem_singleton, Prod.mk.injEq]
    by_cases hp : k = p
    · rw [if_pos hp, Option.some.injEq, and_iff_right hp]
      exact eq_comm
    · rw [if_neg hp]
      exact iff_of_false (fun h => hp h.1) (by rintro ⟨⟩)
  | ext p t ih =>
    rw [entries, find, List.mem_map]
    constructor
    · rintro ⟨⟨l, w⟩, he, heq⟩
      obtain ⟨rfl, rfl⟩ := Prod.mk.inj heq
      rw [if_pos (List.prefix_append ..), List.drop_left]
      exact ih.1 he
    · intro h
      by_cases hp : p <+: k
      · obtain ⟨l, rfl⟩ := hp
        rw [if_pos (List.prefix_append ..), List.drop_left] at h
        exact ⟨(l, v), ih.2 h, rfl⟩
      · rw [if_neg hp] at h
        cases h
  | branch c ih =>
    rw [entries, List.mem_flatMap]
    constructor
    · rintro ⟨i, -, hi⟩
      obtain ⟨⟨l, w⟩, he, heq⟩ := List.mem_map.1 hi
      obtain ⟨rfl, rfl⟩ := Prod.mk.inj heq
      exact (ih i).1 he
    · intro h
      cases k with
      | nil => cases h
      | cons i k => exact ⟨i, List.mem_finRange i, List.mem_map.2 ⟨(k, v), (ih i).2 h, rfl⟩⟩

theorem pairwise_entries (t : Patricia n ν) : t.entries.Pairwise fun a b => a.1 < b.1 := by
  induction t with
  | empty => exact .nil
  | leaf p v => exact List.pairwise_singleton _ _
  | ext p t ih => exact List.pairwise_map.2 (ih.imp fun h => List.append_left_lt h)
  | branch c ih =>
    refine List.pairwise_flatMap.2 ⟨fun i _ => ?_, ?_⟩
    · refine List.pairwise_map.2 ((ih i).imp fun h => ?_)
      exact List.cons_lt_cons_iff.2 (.inr ⟨rfl, h⟩)
    · refine (List.pairwise_lt_finRange n).imp fun hij x hx y hy => ?_
      obtain ⟨a, -, rfl⟩ := List.mem_map.1 hx
      obtain ⟨b, -, rfl⟩ := List.mem_map.1 hy
      exact List.cons_lt_cons_iff.2 (.inl hij)

/-- The entries below a branch that begin with one letter. -/
theorem flatMap_single {α : Type*} {l : List (Fin n)} (hl : l.Nodup) {i : Fin n} (hi : i ∈ l) (f : Fin n → List α) :
    (l.flatMap fun j => if j = i then f j else []) = f i := by
  have hnil : ∀ {l : List (Fin n)}, i ∉ l → (l.flatMap fun j => if j = i then f j else []) = [] := by
    intro l hl
    refine List.flatMap_eq_nil_iff.2 fun j hj => if_neg ?_
    rintro rfl
    exact hl hj
  induction l with
  | nil => cases hi
  | cons a l ih =>
    rw [List.nodup_cons] at hl
    rw [List.flatMap_cons]
    by_cases ha : a = i
    · subst ha
      rw [if_pos rfl, hnil hl.1, List.append_nil]
    · rw [if_neg ha, List.nil_append]
      exact ih hl.2 ((List.mem_cons.1 hi).resolve_left (Ne.symm ha))

theorem entries_eq_nil_iff {t : Patricia n ν} (ht : t.Canonical) : t.entries = [] ↔ t.isEmpty = true := by
  constructor
  · intro h
    rw [← Bool.not_eq_false]
    intro hne
    obtain ⟨k, v, hk⟩ := ht.exists_find hne
    rw [← mem_entries, h] at hk
    cases hk
  · intro h
    cases t with
    | empty => rfl
    | _ => cases h

end Patricia
