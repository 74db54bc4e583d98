import Petrachor.Lib.Patricia
import Petrachor.TrieCommon

/-!
# Views on the nibbles of a key

A slice is a view on the nibbles of a byte string from an offset on. Slices are compared nibble by nibble; what
they say is the list of nibbles behind the offset, as long as positions fit in 32 bits.
-/

namespace Petrachor

/-- The loop of `sharedNibbles`, as long as there are nibbles in the first range. -/
def sharedNibblesFrom (first second : Bytes) (endSecond : ℕ) : ℕ → ℕ → ℕ → ℕ
  | 0, _, _ => 0
  | count + 1, beginFirst, beginSecond =>
    if beginSecond < endSecond ∧ nibble first beginFirst = nibble second beginSecond then
      sharedNibblesFrom first second endSecond count (beginFirst + 1) (beginSecond + 1) + 1
    else 0

def sharedNibbles (first : Bytes) (beginFirst endFirst : ℕ) (second : Bytes) (beginSecond endSecond : ℕ) : ℕ :=
  sharedNibblesFrom first second endSecond (endFirst - beginFirst) beginFirst beginSecond

namespace NibbleSlice

def empty (s : NibbleSlice) : Bool := s.size = 0

def mid (s : NibbleSlice) (index : ℕ) : NibbleSlice := ⟨s.data, (s.offset + index) % 2 ^ 32⟩

def clear (_ : NibbleSlice) : NibbleSlice := ⟨[], 0⟩

def shared (s k : NibbleSlice) : ℕ :=
  sharedNibbles s.data s.offset ((s.offset + s.size) % 2 ^ 32) k.data k.offset ((k.offset + k.size) % 2 ^ 32)

def contains (s k : NibbleSlice) : Bool := s.shared k = k.size

/-- `operator==`. -/
def eq (s k : NibbleSlice) : Bool := k.size = s.size && s.shared k = k.size

/-- The loop of `isEarlierThan`, from position `i` on. -/
def isEarlierFrom (s k : NibbleSlice) : ℕ → ℕ → Bool
  | 0, i => i < k.size
  | count + 1, i =>
    if i < s.size then
      if s.get i < k.get i then true
      else if s.get i > k.get i then false
      else isEarlierFrom s k count (i + 1)
    else i < k.size

def isEarlierThan (s k : NibbleSlice) : Bool := s.isEarlierFrom k k.size 0

/-! ## What slices say -/

/-- The nibbles of a word. -/
def nats (w : List (Fin 16)) : List ℕ := w.map Fin.val

/-- The slice is the view on a word, with positions that fit. -/
structure Spells (s : NibbleSlice) (w : List (Fin 16)) : Prop where
  inside : s.offset ≤ s.data.length * 2
  fits : s.data.length * 2 < 2 ^ 32
  rest : s.rest = nats w

variable {s t : NibbleSlice} {v w : List (Fin 16)}

@[simp] theorem length_nats (w : List (Fin 16)) : (nats w).length = w.length := List.length_map _

theorem nats_lt (w : List (Fin 16)) : ∀ n ∈ nats w, n < 16 := by
  intro n hn
  obtain ⟨x, -, rfl⟩ := List.mem_map.1 hn
  exact x.isLt

theorem nats_inj : nats v = nats w ↔ v = w := (List.map_injective_iff.2 Fin.val_injective).eq_iff

theorem shared_nats (v w : List (Fin 16)) : Patricia.shared (nats v) (nats w) = Patricia.shared v w := by
  induction v generalizing w with
  | nil => cases w <;> rfl
  | cons a v ih =>
    cases w with
    | nil => rfl
    | cons b w =>
      show (if a.val = b.val then Patricia.shared (nats v) (nats w) + 1 else 0) =
        if a = b then Patricia.shared v w + 1 else 0
      rw [ih]
      exact if_congr Fin.val_inj rfl rfl

theorem Spells.length_eq (h : s.Spells w) : s.data.length * 2 - s.offset = w.length := by
  rw [← s.length_rest, h.rest, length_nats]

theorem Spells.size_eq (h : s.Spells w) : s.size = w.length := by
  have hlen := h.length_eq
  have hin := h.inside
  have hfits := h.fits
  unfold size toUnsigned
  omega

theorem Spells.lt (h : s.Spells w) : w.length < 2 ^ 32 := by
  have hlen := h.length_eq
  have hfits := h.fits
  omega

theorem Spells.nibble_eq (h : s.Spells w) {i : ℕ} (hi : i < w.length) :
    nibble s.data (s.offset + i) = (w.get ⟨i, hi⟩).val := by
  have hrest := h.rest
  rw [s.rest_eq, h.length_eq] at hrest
  have hget := congrArg (fun l => l[i]?) hrest
  simpa [nats, hi] using hget

theorem Spells.get_eq (h : s.Spells w) {i : ℕ} (hi : i < w.length) : s.get i = (w.get ⟨i, hi⟩).val := by
  have hlen := h.length_eq
  have hfits := h.fits
  have hin := h.inside
  rw [get, Nat.mod_eq_of_lt (by omega), h.nibble_eq hi]

theorem Spells.mid (h : s.Spells w) {n : ℕ} (hn : n ≤ w.length) : (s.mid n).Spells (w.drop n) := by
  have hlen := h.length_eq
  have hfits := h.fits
  have hin := h.inside
  have hoff : (s.offset + n) % 2 ^ 32 = s.offset + n := Nat.mod_eq_of_lt (by omega)
  refine ⟨?_, hfits, ?_⟩
  · show (s.offset + n) % 2 ^ 32 ≤ s.data.length * 2
    omega
  · have hrest := h.rest
    unfold NibbleSlice.rest at hrest ⊢
    show (Crypto.asNibbles s.data).drop ((s.offset + n) % 2 ^ 32) = _
    rw [hoff, ← List.drop_drop, hrest, nats, nats, List.map_drop]

/-- The slice of a whole key. -/
theorem spells_key {key : Bytes} (h : key.length * 2 < 2 ^ 32) (hw : Crypto.asNibbles key = nats w) :
    (NibbleSlice.mk key 0).Spells w := ⟨Nat.zero_le _, h, hw⟩

theorem sharedNibblesFrom_eq {endSecond : ℕ} (a b : Bytes) : ∀ count i j : ℕ,
    sharedNibblesFrom a b endSecond count i j =
      Patricia.shared ((List.range' i count).map (nibble a)) ((List.range' j (endSecond - j)).map (nibble b))
  | 0, i, j => by
    rw [sharedNibblesFrom]
    cases (List.range' j (endSecond - j)).map (nibble b) <;> rfl
  | count + 1, i, j => by
    rw [sharedNibblesFrom, List.range'_succ, List.map_cons]
    by_cases hj : j < endSecond
    · rw [show endSecond - j = endSecond - (j + 1) + 1 by omega, List.range'_succ, List.map_cons]
      show _ = if nibble a i = nibble b j then _ else 0
      rw [sharedNibblesFrom_eq a b count (i + 1) (j + 1)]
      exact if_congr (and_iff_right hj) rfl rfl
    · rw [if_neg fun h => hj h.1, show endSecond - j = 0 by omega]
      rfl

theorem Spells.shared_eq (hs : s.Spells v) (ht : t.Spells w) : s.shared t = Patricia.shared v w := by
  have hs1 := hs.length_eq
  have hs2 := hs.fits
  have hs3 := hs.inside
  have ht1 := ht.length_eq
  have ht2 := ht.fits
  have ht3 := ht.inside
  have hends : (s.offset + s.size) % 2 ^ 32 = s.data.length * 2 := by
    rw [hs.size_eq]
    omega
  have hendt : (t.offset + t.size) % 2 ^ 32 = t.data.length * 2 := by
    rw [ht.size_eq]
    omega
  unfold NibbleSlice.shared sharedNibbles
  rw [sharedNibblesFrom_eq, hends, hendt, ← s.rest_eq, ← t.rest_eq, hs.rest, ht.rest, shared_nats]

theorem Spells.contains_iff (hs : s.Spells v) (ht : t.Spells w) : s.contains t = true ↔ w <+: v := by
  unfold contains
  rw [decide_eq_true_iff, hs.shared_eq ht, ht.size_eq, Patricia.shared_eq_length_iff]

theorem Spells.eq_iff (hs : s.Spells v) (ht : t.Spells w) : s.eq t = true ↔ v = w := by
  unfold eq
  rw [Bool.and_eq_true, decide_eq_true_iff, decide_eq_true_iff, hs.shared_eq ht, ht.size_eq, hs.size_eq,
    Patricia.shared_eq_length_iff]
  constructor
  · rintro ⟨hlen, hpre⟩
    exact (hpre.eq_of_length hlen).symm
  · rintro rfl
    exact ⟨rfl, List.prefix_rfl⟩

end NibbleSlice

end Petrachor
