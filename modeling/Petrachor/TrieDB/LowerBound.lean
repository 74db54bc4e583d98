import Petrachor.TrieDB.Iterator

/-!
# Iterators from a lower bound

`next(_key)` looks for the first entry that is not before a key, and once the key is used up it is `next()`. An iterator
from a lower bound comes by the entries that are not before it, in the order of their keys.
-/

namespace Petrachor

open NibbleSlice RLPStream

namespace GenericTrieDB

/-! ## Without a key -/

section

variable {δ : Type} [NodeDB δ] {t : GenericTrieDB δ} {b : IterNode} {trail : List IterNode} {k key : NibbleSlice}

theorem spells_clear (k : NibbleSlice) : k.clear.Spells [] := ⟨by simp [clear], by simp [clear], rfl⟩

theorem shared_of_nil (hk : k.Spells []) (key : NibbleSlice) : k.shared key = 0 := by
  have hin := hk.inside
  have hfits := hk.fits
  have hlen := hk.length_eq
  rw [List.length_nil] at hlen
  have hoff : (k.offset + 0) % 2 ^ 32 - k.offset = 0 := by omega
  unfold NibbleSlice.shared sharedNibbles
  rw [hk.size_eq, List.length_nil, hoff]
  rfl

theorem isEarlierThan_of_nil (hk : k.Spells []) (key : NibbleSlice) : k.isEarlierThan key = decide (0 < key.size) := by
  unfold isEarlierThan
  cases hsize : key.size with
  | zero => rw [isEarlierFrom, hsize]
  | succ n =>
    rw [isEarlierFrom, hk.size_eq, List.length_nil, if_neg (Nat.lt_irrefl 0), hsize]

theorem keyAt_nil (hk : k.Spells []) (child c : ℕ) : (keyAt k child c).Spells [] := by
  unfold keyAt
  split
  · exact hk
  · exact spells_clear k

/-- With no key left, a pass of `next(_key)` is one of `next()`. -/
theorem passKey_of_nil (trail : List IterNode) (b : IterNode) (hk : k.Spells []) :
    ∃ k', k'.Spells [] ∧ passKey t b trail k = (pass t b trail).map (Pass.withKey k') := by
  have hearlier : ∀ key : NibbleSlice, (!k.contains key && !k.isEarlierThan key) = false := by
    intro key
    unfold contains
    rw [shared_of_nil hk, isEarlierThan_of_nil hk]
    cases key.size <;> rfl
  have hshort : ∀ key : NibbleSlice, ((if (!k.contains key) = true then k.clear else k).mid
      (min (if (!k.contains key) = true then k.clear else k).size key.size)).Spells [] := by
    intro key
    have hnil : (if (!k.contains key) = true then k.clear else k).Spells [] := by
      split
      · exact spells_clear k
      · exact hk
    rw [hnil.size_eq, List.length_nil, Nat.zero_min]
    exact hnil.mid le_rfl
  unfold passKey pass
  cases rlp b.rlp with
  | error e => exact ⟨k, hk, rfl⟩
  | ok r =>
    simp only [ok_bind]
    by_cases h255 : b.child = 255
    · rw [if_pos h255, if_pos h255]
      by_cases hempty : r.isEmpty = true
      · rw [if_pos hempty, if_pos hempty]
        exact ⟨_, spells_clear k, rfl⟩
      · rw [if_neg hempty, if_neg hempty]
        cases r.itemCount with
        | error e => exact ⟨k, hk, rfl⟩
        | ok count =>
          have hcond : (!(r.isList && (decide (count = 2) || decide (count = 17)))) =
              (!r.isList || (decide (count ≠ 2) && decide (count ≠ 17))) := by
            simp [Bool.not_and, Bool.not_or]
          simp only [ok_bind, hcond]
          cases hbroken : (!r.isList || (decide (count ≠ 2) && decide (count ≠ 17))) with
          | true => exact ⟨k, hk, rfl⟩
          | false =>
            rw [if_neg Bool.false_ne_true, if_neg Bool.false_ne_true]
            by_cases htwo : count = 2
            · rw [if_pos htwo, if_pos htwo]
              cases keyOfItem r with
              | error e => exact ⟨k, hk, rfl⟩
              | ok key =>
                simp only [ok_bind, hearlier key]
                have hmid := hshort key
                generalize NibbleSlice.mid _ _ = k' at hmid ⊢
                cases isLeaf r with
                | error e => exact ⟨k, hk, rfl⟩
                | ok leaf =>
                  cases leaf with
                  | true =>
                    have hempty : k'.empty = true := decide_eq_true (hmid.size_eq)
                    simp only [ok_bind, hempty]
                    exact ⟨k, hk, rfl⟩
                  | false =>
                    simp only [ok_bind]
                    cases r.get 1 with
                    | error e => exact ⟨k, hk, rfl⟩
                    | ok item =>
                      simp only [ok_bind]
                      cases deref t.m_db item with
                      | error e => exact ⟨k, hk, rfl⟩
                      | ok bytes => exact ⟨k', hmid, rfl⟩
            · rw [if_neg htwo, if_neg htwo]
              simp only [hk.size_eq, List.length_nil, ne_eq, not_true_eq_false, if_false]
              cases advance t r b trail 16 with
              | error e => exact ⟨k, hk, rfl⟩
              | ok a => exact ⟨_, keyAt_nil hk 16 a.1, rfl⟩
    · rw [if_neg h255, if_neg h255]
      cases r.itemCount with
      | error e => exact ⟨k, hk, rfl⟩
      | ok count =>
        simp only [ok_bind]
        cases (!(r.isList && decide (count = 17))) with
        | true => exact ⟨_, spells_clear k, rfl⟩
        | false =>
          rw [if_neg Bool.false_ne_true, if_neg Bool.false_ne_true]
          cases advance t r b trail (incrementChild b.child) with
          | error e => exact ⟨k, hk, rfl⟩
          | ok a => exact ⟨_, keyAt_nil hk _ a.1, rfl⟩

/-- With no key left, `next(_key)` is `next()`. -/
theorem nextKeyFrom_of_nil {fuel : ℕ} (hk : k.Spells []) : nextKeyFrom t fuel trail k = nextFrom t fuel trail := by
  induction fuel generalizing trail k with
  | zero => rfl
  | succ fuel ih =>
    cases trail with
    | nil => rfl
    | cons b trail =>
      obtain ⟨k', hk', hpass⟩ := passKey_of_nil (t := t) trail b hk
      rw [nextKeyFrom, nextFrom, hpass]
      cases pass t b trail with
      | error e => rfl
      | ok p =>
        cases p with
        | again trail' _ => exact ih hk'
        | found trail' => rfl
        | broken => rfl

end

/-! ## The order of words -/

section

variable {α : Type} [LinearOrder α] {p u x : List α}

theorem append_lt_append_left : p ++ x < p ++ u ↔ x < u := by
  induction p with
  | nil => rfl
  | cons a p ih =>
    rw [List.cons_append, List.cons_append, List.cons_lt_cons_iff, ih]
    simp

theorem lt_append_of_lt (h : u < p) : u < p ++ x := by
  induction p generalizing u with
  | nil => cases h
  | cons a p ih =>
    cases u with
    | nil => exact List.nil_lt_cons a _
    | cons b u =>
      rw [List.cons_append, List.cons_lt_cons_iff]
      exact (List.cons_lt_cons_iff.1 h).imp_right fun h => ⟨h.1, ih h.2⟩

theorem append_lt_of_lt (hp : ¬p <+: u) (h : p < u) : p ++ x < u := by
  induction p generalizing u with
  | nil => exact absurd List.nil_prefix hp
  | cons a p ih =>
    cases u with
    | nil => cases h
    | cons b u =>
      rw [List.cons_append, List.cons_lt_cons_iff]
      refine (List.cons_lt_cons_iff.1 h).imp_right fun h => ⟨h.1, ih (fun hpre => hp ?_) h.2⟩
      rw [h.1]
      exact List.cons_prefix_cons.2 ⟨rfl, hpre⟩

end

section

variable {s k : NibbleSlice} {u p : List (Fin 16)}

theorem isEarlierFrom_iff (hs : s.Spells u) (hk : k.Spells p) : ∀ {count i : ℕ}, i + count = p.length → i ≤ u.length →
    (s.isEarlierFrom k count i = true ↔ u.drop i < p.drop i)
  | 0, i, hi, hu => by
    have hend : ¬i < p.length := by omega
    rw [isEarlierFrom, hk.size_eq, List.drop_eq_nil_of_le (show p.length ≤ i by omega), decide_eq_true_iff]
    exact iff_of_false hend (List.not_lt_nil _)
  | count + 1, i, hi, hu => by
    have hip : i < p.length := by omega
    have hp : p.drop i = p.get ⟨i, hip⟩ :: p.drop (i + 1) := List.drop_eq_getElem_cons hip
    rw [isEarlierFrom, hs.size_eq]
    by_cases hlt : i < u.length
    · have ih := @isEarlierFrom_iff hs hk count (i + 1) (by omega) hlt
      have hd : u.drop i = u.get ⟨i, hlt⟩ :: u.drop (i + 1) := List.drop_eq_getElem_cons hlt
      rw [if_pos hlt, hs.get_eq hlt, hk.get_eq hip, hp, hd, List.cons_lt_cons_iff]
      generalize u.get ⟨i, hlt⟩ = x
      generalize p.get ⟨i, hip⟩ = y
      rcases lt_trichotomy x y with h | rfl | h
      · rw [if_pos (show x.val < y.val from h)]
        exact iff_of_true rfl (.inl h)
      · rw [if_neg (Nat.lt_irrefl _), if_neg (Nat.lt_irrefl _), ih]
        simp
      · rw [if_neg (Nat.not_lt.2 (show y.val ≤ x.val from h.le)), if_pos (show x.val > y.val from h)]
        refine iff_of_false Bool.false_ne_true ?_
        rintro (h' | ⟨h', -⟩)
        · exact absurd h' h.not_gt
        · exact absurd h' h.ne'
    · rw [if_neg hlt, hk.size_eq, List.drop_eq_nil_of_le (show u.length ≤ i by omega), hp, decide_eq_true_iff]
      exact iff_of_true hip (List.nil_lt_cons _ _)

theorem isEarlierThan_iff (hs : s.Spells u) (hk : k.Spells p) : s.isEarlierThan k = true ↔ u < p := by
  unfold isEarlierThan
  rw [hk.size_eq]
  exact isEarlierFrom_iff hs hk (Nat.zero_add _) (Nat.zero_le _)

end

/-! ## Looking for a key -/

section

variable {δ : Type} [NodeDB δ] {c : Crypto} {g : GenericTrieDB δ} {t : Trie} {ch : Fin 16 → Trie}
  {w p u : List (Fin 16)} {a : Fin 16} {e v : Bytes} {leaf : Bool} {trail : List IterNode} {k : NibbleSlice}

/-- A node with a later key than the one that is looked for is skipped. -/
theorem passKey_skip (hpair : Paired p e) (hk : k.Spells u) (hpre : ¬p <+: u) (hlt : ¬u < p) :
    passKey g ⟨pair p leaf e, path w, 255⟩ trail k = .ok (.again trail k.clear) := by
  obtain ⟨s, hkey, hs⟩ := hpair.keyOfItem leaf
  have hcontains : k.contains s = false := by
    rw [← Bool.not_eq_true, hk.contains_iff hs]
    exact hpre
  have hearlier : k.isEarlierThan s = false := by
    rw [← Bool.not_eq_true, isEarlierThan_iff hk hs]
    exact hlt
  unfold passKey
  dsimp only
  rw [rlp_item (hpair.isItem leaf)]
  simp only [ok_bind, if_true, hpair.isEmpty, hpair.itemCount, hpair.isList, hkey, hcontains, hearlier]
  rfl

/-- The key of a pair is taken off, or what is left of the one that is looked for is before all that follows. -/
theorem passKey_pair (trail : List IterNode) (leaf : Bool) (hpair : Paired p e) (hk : k.Spells u)
    (hlen : (w ++ p).length + 1 < 2 ^ 31) (hkeep : p <+: u ∨ u < p) :
    ∃ k', k'.Spells (if p <+: u then u.drop p.length else []) ∧
      passKey g ⟨pair p leaf e, path w, 255⟩ trail k =
        if leaf then
          if k'.empty then .ok (.found (⟨pair p leaf e, path (w ++ p), 0⟩ :: trail)) else .ok (.again trail k'.clear)
        else do return .again (⟨← deref g.m_db ⟨e⟩, path (w ++ p), 255⟩ :: trail) k' := by
  obtain ⟨s, hkey, hs⟩ := hpair.keyOfItem leaf
  have hskip : (!k.contains s && !k.isEarlierThan s) = false := by
    rw [Bool.and_eq_false_iff, Bool.not_eq_false', Bool.not_eq_false', hk.contains_iff hs, isEarlierThan_iff hk hs]
    exact hkeep
  have hmid : ((if (!k.contains s) = true then k.clear else k).mid
      (min (if (!k.contains s) = true then k.clear else k).size s.size)).Spells
        (if p <+: u then u.drop p.length else []) := by
    by_cases hpre : p <+: u
    · rw [(hk.contains_iff hs).2 hpre, if_pos hpre, hs.size_eq]
      simp only [Bool.not_true, Bool.false_eq_true, if_false, hk.size_eq, Nat.min_eq_right hpre.length_le]
      exact hk.mid hpre.length_le
    · have hcontains : k.contains s = false := by
        rw [← Bool.not_eq_true, hk.contains_iff hs]
        exact hpre
      rw [hcontains, if_neg hpre]
      simp only [Bool.not_false, if_true, (spells_clear k).size_eq, List.length_nil, Nat.zero_min]
      exact (spells_clear k).mid le_rfl
  refine ⟨_, hmid, ?_⟩
  unfold passKey
  dsimp only
  rw [rlp_item (hpair.isItem leaf)]
  simp only [ok_bind, if_true, hpair.isEmpty, hpair.itemCount, hpair.isList, hkey, hskip, hpair.isLeaf,
    path_append hs hlen, hpair.get_one]
  cases leaf <;> rfl

theorem exists_split (a : Fin 16) : ∃ pre js, List.finRange 16 = pre ++ a :: js :=
  List.append_of_mem (List.mem_finRange a)

theorem passKey_branch (trail : List IterNode) {pre js : List (Fin 16)} (ht : (Patricia.branch ch).Canonical)
    (hreach : Reach w (.branch ch))
    (hdb : Holds c g.m_db (kids c (.branch ch))) (hk : k.Spells (a :: u)) (hsplit : List.finRange 16 = pre ++ a :: js) :
    ∃ k', k'.Spells (if (ch a).isEmpty then [] else u) ∧ passKey g ⟨encode c (.branch ch), path w, 255⟩ trail k =
      .ok (.again (descended c ch w trail (first ch (a :: js))) k') := by
  have hbranch : Branched fun i => refer c (encode c (ch i)) := branched c ht hreach.fits
  have hlen := congrArg List.length hsplit
  rw [List.length_finRange, List.length_append] at hlen
  have hseek := seek_eq (c := c) (n := 18) ht hreach.fits hsplit (by omega)
  have hadvance := advance_eq trail 255 ht hreach hdb hseek
  have hget : k.get 0 = firstPlace (a :: js) := hk.get_eq (i := 0) (by simp)
  have hsize : k.size ≠ 0 := by
    rw [hk.size_eq, List.length_cons]
    omega
  refine ⟨keyAt (k.mid 1) (firstPlace (a :: js)) ((first ch (a :: js)).elim 17 fun r => r.1), ?_, ?_⟩
  · unfold keyAt
    cases hempty : (ch a).isEmpty with
    | false =>
      have h17 : a.val ≠ 17 := by omega
      rw [first, hempty, if_neg Bool.false_ne_true, Option.elim_some, if_pos ⟨rfl, h17⟩, if_neg Bool.false_ne_true]
      exact hk.mid (by simp)
    | true =>
      rw [if_pos rfl, if_neg]
      · exact spells_clear _
      · rintro ⟨hplace, h17⟩
        cases hfirst : first ch (a :: js) with
        | none =>
          rw [hfirst] at h17
          exact h17 rfl
        | some r =>
          rw [hfirst] at hplace
          obtain rfl : r.1 = a := Fin.val_injective hplace
          rw [isEmpty_of_first hfirst] at hempty
          cases hempty
  · unfold passKey
    rw [encode] at hadvance ⊢
    rw [rlp_item hbranch.isItem]
    simp only [ok_bind, if_true, hbranch.isEmpty, hbranch.itemCount, hbranch.isList, if_pos hsize, hget, hadvance]
    rfl

/-- The entries that are not before a bound. -/
def fromBound (u : List (Fin 16)) (l : List (List (Fin 16) × Bytes)) : List (List (Fin 16) × Bytes) :=
  l.filter fun e => ¬e.1 < u

theorem fromBound_nil (l : List (List (Fin 16) × Bytes)) : fromBound [] l = l :=
  List.filter_eq_self.2 fun e _ => decide_eq_true (List.not_lt_nil e.1)

theorem fromBound_under (w u : List (Fin 16)) (l : List (List (Fin 16) × Bytes)) :
    fromBound u (under w l) = under w (l.filter fun e => ¬w ++ e.1 < u) := by
  unfold fromBound under
  rw [List.filter_map]
  rfl

theorem fromBound_under_all (h : ∀ x, ¬w ++ x < u) (l : List (List (Fin 16) × Bytes)) :
    fromBound u (under w l) = under w l := by
  rw [fromBound_under, List.filter_eq_self.2 fun e _ => decide_eq_true (h e.1)]

theorem fromBound_under_none (h : ∀ x, w ++ x < u) (l : List (List (Fin 16) × Bytes)) :
    fromBound u (under w l) = [] := by
  rw [fromBound_under, List.filter_eq_nil_iff.2 fun e _ => by simpa using h e.1]
  rfl

theorem fromBound_pair (p u : List (Fin 16)) (l : List (List (Fin 16) × Bytes)) : fromBound u (under p l) =
    if p <+: u ∨ u < p then under p (fromBound (if p <+: u then u.drop p.length else []) l) else [] := by
  by_cases hpre : p <+: u
  · obtain ⟨u, rfl⟩ := hpre
    rw [if_pos (.inl (List.prefix_append ..)), if_pos (List.prefix_append ..), List.drop_left, fromBound_under]
    simp only [append_lt_append_left]
    rfl
  · rw [if_neg hpre, fromBound_nil]
    by_cases hlt : u < p
    · rw [if_pos (.inr hlt), fromBound_under_all fun x => (lt_append_of_lt hlt).not_gt]
    · have hne : p ≠ u := fun heq => hpre (heq ▸ List.prefix_rfl)
      rw [if_neg (not_or.2 ⟨hpre, hlt⟩),
        fromBound_under_none fun x => append_lt_of_lt hpre (lt_of_le_of_ne (not_lt.1 hlt) hne)]

theorem fromBound_branch {pre js : List (Fin 16)} (hsplit : List.finRange 16 = pre ++ a :: js) :
    fromBound (a :: u) (Patricia.branch ch).entries =
      under [a] (fromBound u (ch a).entries) ++ js.flatMap fun j => under [j] (ch j).entries := by
  have hsorted : (List.finRange 16).Pairwise (· < ·) := List.pairwise_lt_finRange 16
  rw [hsplit, List.pairwise_append] at hsorted
  obtain ⟨-, hjs, hpre⟩ := hsorted
  rw [List.pairwise_cons] at hjs
  have hbefore : ∀ l : List (Fin 16), (∀ i ∈ l, i < a) →
      fromBound (a :: u) (l.flatMap fun i => under [i] (ch i).entries) = [] := by
    intro l hl
    unfold fromBound
    rw [List.filter_flatMap, List.flatMap_eq_nil_iff]
    exact fun i hi => fromBound_under_none (fun x => List.cons_lt_cons_iff.2 (.inl (hl i hi))) _
  have hafter : ∀ l : List (Fin 16), (∀ i ∈ l, a < i) →
      fromBound (a :: u) (l.flatMap fun i => under [i] (ch i).entries) =
        l.flatMap fun i => under [i] (ch i).entries := by
    intro l hl
    unfold fromBound
    rw [List.filter_flatMap]
    refine List.flatMap_congr fun i hi => fromBound_under_all (fun x hx => ?_) _
    rcases List.cons_lt_cons_iff.1 hx with hlt | ⟨heq, -⟩
    · exact hlt.asymm (hl i hi)
    · exact (hl i hi).ne' heq
  have hself : fromBound (a :: u) (under [a] (ch a).entries) = under [a] (fromBound u (ch a).entries) := by
    rw [fromBound_under]
    simp [fromBound]
  calc fromBound (a :: u) (Patricia.branch ch).entries
      = fromBound (a :: u) (pre.flatMap fun i => under [i] (ch i).entries) ++
          (fromBound (a :: u) (under [a] (ch a).entries) ++
            fromBound (a :: u) (js.flatMap fun i => under [i] (ch i).entries)) := by
        rw [entries_branch, hsplit, List.flatMap_append, List.flatMap_cons]
        unfold fromBound
        rw [List.filter_append, List.filter_append]
    _ = [] ++ (under [a] (fromBound u (ch a).entries) ++ js.flatMap fun j => under [j] (ch j).entries) := by
        rw [hbefore pre fun i hi => hpre i hi a List.mem_cons_self, hself, hafter js hjs.1]
    _ = under [a] (fromBound u (ch a).entries) ++ js.flatMap fun j => under [j] (ch j).entries := List.nil_append _

theorem nextKeyFrom_again {b : IterNode} {trail' : List IterNode} {k' : NibbleSlice} {fuel : ℕ}
    (h : passKey g b trail k = .ok (.again trail' k')) :
    nextKeyFrom g (fuel + 1) (b :: trail) k = nextKeyFrom g fuel trail' k' := by
  rw [nextKeyFrom, h]
  rfl

/-- Nothing is found at an empty node. -/
theorem nextKeyFrom_empty {R : List (List (Fin 16) × Bytes)} {n fuel : ℕ} (hrest : Awaits c g.m_db trail R n)
    (hfuel : passes .empty + n < fuel) :
    Leads c g (nextKeyFrom g fuel (⟨encode c .empty, path w, 255⟩ :: trail) k) (passes .empty + n)
      (under w (fromBound u (Patricia.empty : Trie).entries) ++ R) := by
  rw [passes] at hfuel ⊢
  obtain ⟨fuel, rfl⟩ := Nat.exists_eq_add_of_le' (show 1 ≤ fuel by omega)
  have hpass : passKey g ⟨encode c .empty, path w, 255⟩ trail k = .ok (.again trail k.clear) := by
    have hempty : (RLP.mk RLPNull).isEmpty = true := rfl
    unfold passKey
    rw [encode, rlp_item ⟨_, isItem_null⟩]
    simp only [ok_bind, if_true, hempty]
    rfl
  rw [nextKeyFrom_again hpass, nextKeyFrom_of_nil (spells_clear k)]
  exact (nextFrom_spec hrest (by omega)).mono (by omega)

/-- The entry of a leaf is found, if it is not before the key. -/
theorem nextKeyFrom_leaf {R : List (List (Fin 16) × Bytes)} {p : List (Fin 16)} {v : Bytes} {n fuel : ℕ}
    (hreach : Reach w (.leaf p v)) (hk : k.Spells u) (hrest : Awaits c g.m_db trail R n)
    (hfuel : passes (.leaf p v) + n < fuel) :
    Leads c g (nextKeyFrom g fuel (⟨encode c (.leaf p v), path w, 255⟩ :: trail) k) (passes (.leaf p v) + n)
      (under w (fromBound u (Patricia.leaf p v).entries) ++ R) := by
  rw [passes] at hfuel ⊢
  obtain ⟨fuel, rfl⟩ := Nat.exists_eq_add_of_le' (show 1 ≤ fuel by omega)
  have hpair : Paired p (encodeBytes v) := paired_leaf hreach.fits
  have hentries : (Patricia.leaf p v).entries = under p [([], v)] := by
    rw [under, List.map_singleton, List.append_nil]
    rfl
  have hskipped := (nextFrom_spec hrest (show n < fuel by omega)).mono (show n ≤ 2 + n by omega)
  rw [hentries, fromBound_pair]
  by_cases hkeep : p <+: u ∨ u < p
  · obtain ⟨k', hk', hpass⟩ := passKey_pair (g := g) trail true hpair hk (hreach p v (if_pos rfl)).1 hkeep
    rw [if_pos rfl] at hpass
    rw [if_pos hkeep]
    generalize (if p <+: u then u.drop p.length else []) = u' at hk'
    cases u' with
    | nil =>
      have hempty : k'.empty = true := decide_eq_true hk'.size_eq
      rw [hempty, if_pos rfl] at hpass
      rw [fromBound_nil, under_under, nextKeyFrom, encode, hpass]
      rw [under, List.map_singleton, List.append_nil]
      exact ⟨_, n + 1, rfl, ⟨p, trail, rfl, hreach.fits⟩, .leaf hreach.fits hrest, by omega⟩
    | cons a u' =>
      have hempty : k'.empty = false := by
        refine decide_eq_false ?_
        rw [hk'.size_eq, List.length_cons]
        omega
      have hnone : fromBound (a :: u') [(([] : List (Fin 16)), v)] = [] := by
        simp [fromBound]
      rw [hempty, if_neg Bool.false_ne_true] at hpass
      rw [hnone, encode, nextKeyFrom_again hpass, nextKeyFrom_of_nil (spells_clear k')]
      exact hskipped
  · rw [if_neg hkeep]
    rw [not_or] at hkeep
    rw [encode, nextKeyFrom_again (passKey_skip hpair hk hkeep.1 hkeep.2), nextKeyFrom_of_nil (spells_clear k)]
    exact hskipped

/-- `next(_key)`, about to enter a node, comes by the first entry that is not before the key. -/
theorem nextKeyFrom_spec {R : List (List (Fin 16) × Bytes)} {n fuel : ℕ} (ht : t.Canonical) (hreach : Reach w t)
    (hdb : Holds c g.m_db (own c t)) (hk : k.Spells u) (hrest : Awaits c g.m_db trail R n)
    (hfuel : passes t + n < fuel) : Leads c g (nextKeyFrom g fuel (⟨encode c t, path w, 255⟩ :: trail) k) (passes t + n)
      (under w (fromBound u t.entries) ++ R) := by
  induction t generalizing w u trail k R n fuel with
  | empty => exact nextKeyFrom_empty hrest hfuel
  | leaf p v => exact nextKeyFrom_leaf hreach hk hrest hfuel
  | ext p t ih =>
    rw [passes] at hfuel ⊢
    obtain ⟨fuel, rfl⟩ := Nat.exists_eq_add_of_le' (show 1 ≤ fuel by omega)
    have hpair : Paired p (refer c (encode c t)) := paired_ext c ht hreach.fits
    have hne := Patricia.isEmpty_of_isBranch ht.2.1
    have hown : Holds c g.m_db (own c t) := hdb.mono (Multiset.le_add_left _ _)
    rw [entries_ext, fromBound_pair]
    by_cases hkeep : p <+: u ∨ u < p
    · obtain ⟨k', hk', hpass⟩ := passKey_pair (g := g) trail false hpair hk
        (hreach.ext.lt ht.2.2 hne) hkeep
      rw [if_neg Bool.false_ne_true, deref_refer ht.2.2 hreach.ext.fits hne hown] at hpass
      rw [if_pos hkeep, under_under, encode, nextKeyFrom_again hpass]
      exact (ih ht.2.2 hreach.ext hown hk' hrest (by omega)).mono (by omega)
    · rw [if_neg hkeep]
      rw [not_or] at hkeep
      rw [encode, nextKeyFrom_again (passKey_skip hpair hk hkeep.1 hkeep.2), nextKeyFrom_of_nil (spells_clear k)]
      exact (nextFrom_spec hrest (by omega)).mono (by omega)
  | branch ch ih =>
    have hkids : Holds c g.m_db (kids c (.branch ch)) := hdb.mono (Multiset.le_add_left _ _)
    cases u with
    | nil =>
      rw [nextKeyFrom_of_nil hk, fromBound_nil]
      exact nextFrom_spec (.entering ht hreach hdb hrest) hfuel
    | cons a u =>
      rw [passes_branch] at hfuel ⊢
      obtain ⟨fuel, rfl⟩ := Nat.exists_eq_add_of_le' (show 1 ≤ fuel by omega)
      obtain ⟨pre, js, hsplit⟩ := exists_split a
      obtain ⟨k', hk', hpass⟩ := passKey_branch trail ht hreach hkids hk hsplit
      have hpasses : passesOf ch (a :: js) ≤ passesOf ch (List.finRange 16) := by
        unfold passesOf
        rw [hsplit, List.map_append, List.sum_append]
        exact Nat.le_add_left _ _
      rw [nextKeyFrom_again hpass, fromBound_branch hsplit, under_append, under_under, under_flatMap]
      cases hempty : (ch a).isEmpty with
      | true =>
        rw [hempty, if_pos rfl] at hk'
        obtain ⟨n', hn', hawaits⟩ := awaits_descended ht hreach hkids hsplit hrest
        have hnone : under (w ++ [a]) (fromBound u (ch a).entries) = under (w ++ [a]) (ch a).entries := by
          rw [entries_of_isEmpty hempty]
          rfl
        rw [nextKeyFrom_of_nil hk', hnone]
        exact (nextFrom_spec hawaits (by omega)).mono (by omega)
      | false =>
        rw [hempty, if_neg Bool.false_ne_true] at hk'
        have hfirst : first ch (a :: js) = some (a, js) := by
          rw [first, hempty]
          rfl
        have hcost := passes_of_first hfirst
        rw [hfirst, List.append_assoc]
        exact (ih a (ht.2 a) (hreach.child a) (hkids.mono (own_le_kids c ch a)) hk'
          (.branch ht hreach hkids hsplit hrest) (by omega)).mono (by omega)

end

/-! ## After a run -/

theorem word_lt : ∀ {k l : Bytes}, word k < word l ↔ k < l
  | [], [] => iff_of_false (List.lt_irrefl _) (List.lt_irrefl _)
  | [], y :: l => iff_of_true (List.nil_lt_cons _ _) (List.nil_lt_cons _ _)
  | x :: k, [] => iff_of_false (List.not_lt_nil _) (List.not_lt_nil _)
  | x :: k, y :: l => by
    have hx := x.toNat_lt
    have hy := y.toNat_lt
    have hlt : ∀ m n : ℕ, m < 16 → n < 16 → (Fin.ofNat 16 m < Fin.ofNat 16 n ↔ m < n) := by
      intro m n hm hn
      rw [Fin.lt_def, Fin.val_ofNat, Fin.val_ofNat, Nat.mod_eq_of_lt hm, Nat.mod_eq_of_lt hn]
    have heq : ∀ m n : ℕ, m < 16 → n < 16 → (Fin.ofNat 16 m = Fin.ofNat 16 n ↔ m = n) := by
      intro m n hm hn
      rw [Fin.ext_iff, Fin.val_ofNat, Fin.val_ofNat, Nat.mod_eq_of_lt hm, Nat.mod_eq_of_lt hn]
    have hnibbles : word (x :: k) < word (y :: l) ↔ x.toNat / 16 < y.toNat / 16 ∨
        x.toNat / 16 = y.toNat / 16 ∧ (x.toNat % 16 < y.toNat % 16 ∨ x.toNat % 16 = y.toNat % 16 ∧ k < l) := by
      rw [word_cons, word_cons, List.cons_lt_cons_iff, List.cons_lt_cons_iff, word_lt (k := k) (l := l),
        hlt _ _ (by omega) (by omega), hlt _ _ (by omega) (by omega), heq _ _ (by omega) (by omega),
        heq _ _ (by omega) (by omega)]
    have hbytes : x :: k < y :: l ↔ x.toNat < y.toNat ∨ x.toNat = y.toNat ∧ k < l := by
      rw [List.cons_lt_cons_iff, UInt8.lt_iff_toNat_lt, ← UInt8.toNat_inj]
    rw [hnibbles, hbytes]
    constructor
    · rintro (h | ⟨h, h' | ⟨h', hrest⟩⟩)
      · exact .inl (by omega)
      · exact .inl (by omega)
      · exact .inr ⟨by omega, hrest⟩
    · rintro (h | ⟨h, hrest⟩)
      · by_cases hhigh : x.toNat / 16 < y.toNat / 16
        · exact .inl hhigh
        · exact .inr ⟨by omega, .inl (by omega)⟩
      · exact .inr ⟨by omega, .inr ⟨by omega, hrest⟩⟩

section

variable {c : Crypto} {K : Set Bytes} {t : Trie} {m : Bytes → Option Bytes} {δ : Type} [NodeDB δ] [LawfulNodeDB δ]
  {db : δ}

/-- The entries of a trie under their keys, in the order of the keys. -/
theorem exists_entries (h : Shows K t m) : ∃ es : List (Bytes × Bytes), t.entries = es.map (fun e => (word e.1, e.2)) ∧
    es.Pairwise (fun a b => a.1 < b.1) ∧ ∀ key v, (key, v) ∈ es ↔ m key = some v := by
  have hrange : t.entries ∈ Set.range (List.map fun e : Bytes × Bytes => (word e.1, e.2)) := by
    rw [Set.range_list_map]
    rintro ⟨w, v⟩ he
    obtain ⟨key, -, rfl, -⟩ := h.words w v (Patricia.mem_entries.1 he)
    exact ⟨(key, v), rfl⟩
  obtain ⟨es, hes⟩ := hrange
  have hsorted := Patricia.pairwise_entries t
  rw [← hes, List.pairwise_map] at hsorted
  refine ⟨es, hes.symm, hsorted.imp word_lt.1, fun key v => ?_⟩
  rw [← h.find, ← Patricia.mem_entries, ← hes, List.mem_map]
  constructor
  · exact fun he => ⟨(key, v), he, rfl⟩
  · rintro ⟨⟨key', v'⟩, he, heq⟩
    obtain ⟨hkey, rfl⟩ := Prod.mk.inj heq
    rwa [← word_inj.1 hkey]

theorem fromBound_words (key : Bytes) (es : List (Bytes × Bytes)) :
    fromBound (word key) (es.map fun e => (word e.1, e.2)) =
      (es.filter fun e => ¬e.1 < key).map fun e => (word e.1, e.2) := by
  unfold fromBound
  rw [List.filter_map]
  congr 2
  funext e
  exact decide_eq_decide.2 (not_congr word_lt)

variable {g : GenericTrieDB δ} {es : List (Bytes × Bytes)} {fuel : ℕ}

omit [LawfulNodeDB δ] in
theorem rootTrail_eq (hnode : node g.m_db g.m_root = encode c t) : rootTrail g = [⟨encode c t, path [], 255⟩] := by
  unfold rootTrail
  rw [hnode]
  rfl

omit [LawfulNodeDB δ] in
/-- A loop from the beginning comes by all entries. -/
theorem begin_eq (hK : KeySet K) (h : Shows K t m) (hnode : node g.m_db g.m_root = encode c t)
    (hown : Holds c g.m_db (own c t)) (hes : t.entries = es.map fun e => (word e.1, e.2)) (hpasses : passes t < fuel)
    (hlen : es.length < fuel) : (begin g fuel >>= fun it => it.toList fuel fuel) = .ok es := by
  have hreach : Reach [] t := h.fits hK
  have hleads := nextFrom_spec (.entering h.canonical hreach hown .nil) (show passes t + 0 < fuel by omega)
  rw [hes, List.append_nil, under_nil_left] at hleads
  unfold begin
  rw [rootTrail_eq hnode]
  exact toList_of_leads hleads (by omega) hlen

omit [LawfulNodeDB δ] in
/-- A loop from a lower bound comes by the entries whose keys are not before it. -/
theorem lowerBound_eq (hK : KeySet K) (h : Shows K t m) (hnode : node g.m_db g.m_root = encode c t)
    (hown : Holds c g.m_db (own c t)) (hes : t.entries = es.map fun e => (word e.1, e.2)) (hpasses : passes t < fuel)
    (hlen : es.length < fuel) {key : Bytes} (hkey : key.length < 2 ^ 30) :
    (lowerBound g fuel key >>= fun it => it.toList fuel fuel) = .ok (es.filter fun e => ¬e.1 < key) := by
  have hreach : Reach [] t := h.fits hK
  have hleads :=
    nextKeyFrom_spec h.canonical hreach hown (spells_word hkey) .nil (show passes t + 0 < fuel by omega)
  rw [hes, fromBound_words, List.append_nil, under_nil_left] at hleads
  have hle := List.length_filter_le (fun e : Bytes × Bytes => decide (¬e.1 < key)) es
  unfold lowerBound
  rw [rootTrail_eq hnode]
  exact toList_of_leads hleads (by omega) (by omega)

/-- After any run an iterator from the beginning comes by all entries in the order of their keys, and an iterator from
a lower bound by those with keys that are not before it. -/
theorem run_iterates (hK : KeySet K) (ops : List Op) (hops : ∀ op ∈ ops, op.Valid K) (h : Start c db ops) :
    ∃ g es n, Op.run c (init c db) ops = .ok g ∧ es.Pairwise (fun a b => a.1 < b.1) ∧
      (∀ key v, (key, v) ∈ es ↔ ops.foldl Op.entries (fun _ => none) key = some v) ∧
      ∀ fuel ≥ n, (begin g fuel >>= fun it => it.toList fuel fuel) = .ok es ∧
        ∀ key : Bytes, key.length < 2 ^ 30 →
          (lowerBound g fuel key >>= fun it => it.toList fuel fuel) = .ok (es.filter fun e => ¬e.1 < key) := by
  obtain ⟨g, hrun, -, hstored, hshows⟩ := run_init hK ops hops h.ready
  generalize ops.foldl Op.after .empty = t at hstored hshows
  obtain ⟨es, hes, hsorted, hmem⟩ := exists_entries hshows
  have hnode := node_root hshows hK hstored.root hstored.all
  have hown : Holds c g.m_db (own c t) := hstored.all.mono (own_le_all c t)
  refine ⟨g, es, max (passes t) es.length + 1, hrun, hsorted, hmem, fun fuel hfuel => ⟨?_, fun key hkey => ?_⟩⟩
  · exact begin_eq hK hshows hnode hown hes (by omega) (by omega)
  · exact lowerBound_eq hK hshows hnode hown hes (by omega) (by omega) hkey

theorem run_iterates_trial : ∃ g n, Op.run rolling (init rolling MemoryDB.new) trial = .ok g ∧
    ∀ fuel ≥ n,
      (begin g fuel >>= fun it => it.toList fuel fuel) = .ok [([1, 3], List.replicate 40 8), ([2, 5, 6], [9])] ∧
        (lowerBound g fuel [1, 4] >>= fun it => it.toList fuel fuel) = .ok [([2, 5, 6], [9])] := by
  obtain ⟨g, es, n, hrun, hsorted, hmem, hlist⟩ := run_iterates keySet_trial trial valid_trial start_trial
  have hne : ∀ a b : Bytes × Bytes, a.1 < b.1 → a ≠ b := fun a b hlt heq => List.lt_irrefl b.1 (heq ▸ hlt)
  have hperm : es.Perm [([1, 3], List.replicate 40 8), ([2, 5, 6], [9])] :=
    (List.perm_ext_iff_of_nodup (hsorted.imp (hne _ _)) (by decide)).2 fun e => (hmem e.1 e.2).trans mem_trial.symm
  obtain rfl : es = [([1, 3], List.replicate 40 8), ([2, 5, 6], [9])] :=
    hperm.eq_of_pairwise (fun a b _ _ h h' => absurd (List.lt_trans h h') (List.lt_irrefl a.1)) hsorted (by decide)
  exact ⟨g, n, hrun, fun fuel hfuel => ⟨(hlist fuel hfuel).1, (hlist fuel hfuel).2 [1, 4] (by decide)⟩⟩

end

end GenericTrieDB

end Petrachor
