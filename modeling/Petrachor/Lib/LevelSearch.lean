import Mathlib.Data.List.Flatten
import Mathlib.Tactic

/-!
# Searching an index of several levels

Entry `i` of a level stands for the `k` entries from `k * i` on of the level below, and those of level 0 for the
numbers. `search` descends from one entry to the numbers of a range, by the entries that pass a test. It finds the
numbers under the entry whose entries pass at every level on the way, and they come out in their order.
-/

namespace LevelSearch

variable {V : Type*} (k : ℕ) (p : V → Bool) (e : ℕ → ℕ → V) (lo hi : ℕ)

/-- Where in bunch `idx` of the level entries are that pass, and not out of range for certain. -/
def offsets (level idx : ℕ) : List ℕ :=
  let first := if idx = lo / k ^ (level + 1) then lo / k ^ level % k else 0
  let last := if idx = hi / k ^ (level + 1) then hi / k ^ level % k + 1 else k
  (List.range' first (last - first)).filter fun o => p (e level (o + idx * k))

/-- The numbers found under bunch `idx` of the level. -/
def search : ℕ → ℕ → List ℕ
  | 0, idx => (offsets k p e lo hi 0 idx).map fun o => o + idx * k
  | level + 1, idx => (offsets k p e lo hi (level + 1) idx).flatMap fun o => search level (o + idx * k)

variable {k p e lo hi} {level idx n o : ℕ}

theorem mem_offsets (hk : 0 < k) : o ∈ offsets k p e lo hi level idx ↔
    o < k ∧ (idx = lo / k ^ (level + 1) → lo / k ^ level % k ≤ o) ∧
      (idx = hi / k ^ (level + 1) → o ≤ hi / k ^ level % k) ∧ p (e level (o + idx * k)) = true := by
  have hmod : hi / k ^ level % k < k := Nat.mod_lt _ hk
  have hfirst : (if idx = lo / k ^ (level + 1) then lo / k ^ level % k else 0) ≤ o ↔
      (idx = lo / k ^ (level + 1) → lo / k ^ level % k ≤ o) := by
    split <;> simp_all
  have hlast : o < (if idx = hi / k ^ (level + 1) then hi / k ^ level % k + 1 else k) ↔
      o < k ∧ (idx = hi / k ^ (level + 1) → o ≤ hi / k ^ level % k) := by
    split
    · rename_i h
      simp only [h, true_implies]
      omega
    · rename_i h
      simp only [h, false_implies, and_true]
  unfold offsets
  rw [List.mem_filter, List.mem_range'_1]
  constructor
  · rintro ⟨⟨h1, h2⟩, hp⟩
    have h3 := hlast.1 (by omega)
    exact ⟨h3.1, hfirst.1 h1, h3.2, hp⟩
  · rintro ⟨ho, h1, h2, hp⟩
    have h3 := hfirst.2 h1
    have h4 := hlast.2 ⟨ho, h2⟩
    exact ⟨⟨h3, by omega⟩, hp⟩

theorem pairwise_offsets : (offsets k p e lo hi level idx).Pairwise (· < ·) :=
  List.Pairwise.filter _ List.pairwise_lt_range'

/-- A digit, and what is left of the number. -/
theorem div_pow_eq (k n l : ℕ) : n / k ^ l = n / k ^ l % k + n / k ^ (l + 1) * k := by
  rw [pow_succ, ← Nat.div_div_eq_div_mul, Nat.mul_comm]
  exact (Nat.mod_add_div _ _).symm

/-- Two numbers that agree above a digit compare by the digit, and where it is the same by what is below. -/
theorem digit_le_iff {a b l : ℕ} (h : a / k ^ (l + 1) = b / k ^ (l + 1)) :
    (a / k ^ l % k ≤ b / k ^ l % k ∧ (a / k ^ l = b / k ^ l → a ≤ b)) ↔ a ≤ b := by
  have ha := div_pow_eq k a l
  have hb := div_pow_eq k b l
  rw [h] at ha
  constructor
  · rintro ⟨hle, heq⟩
    by_cases hab : a / k ^ l = b / k ^ l
    · exact heq hab
    · by_contra hlt
      have := Nat.div_le_div_right (c := k ^ l) (not_le.1 hlt).le
      omega
  · intro hle
    have := Nat.div_le_div_right (c := k ^ l) hle
    exact ⟨by omega, fun _ => hle⟩

/-- The bound a digit sets where the numbers agree above it, and the one on what is below. -/
theorem bound_iff {a b l : ℕ} :
    ((a / k ^ (l + 1) = b / k ^ (l + 1) → a / k ^ l % k ≤ b / k ^ l % k) ∧ (a / k ^ l = b / k ^ l → a ≤ b)) ↔
      (a / k ^ (l + 1) = b / k ^ (l + 1) → a ≤ b) := by
  by_cases h : a / k ^ (l + 1) = b / k ^ (l + 1)
  · simp only [h, true_implies]
    exact digit_le_iff h
  · refine ⟨fun _ he => absurd he h, fun _ => ⟨fun he => absurd he h, fun he => absurd ?_ h⟩⟩
    rw [pow_succ, ← Nat.div_div_eq_div_mul, ← Nat.div_div_eq_div_mul, he]

/-- The entry of a number is one of those of a bunch. -/
theorem exists_offset (hk : 0 < k) : (∃ o ∈ offsets k p e lo hi level idx, o + idx * k = n / k ^ level) ↔
    n / k ^ (level + 1) = idx ∧ (idx = lo / k ^ (level + 1) → lo / k ^ level % k ≤ n / k ^ level % k) ∧
      (idx = hi / k ^ (level + 1) → n / k ^ level % k ≤ hi / k ^ level % k) ∧ p (e level (n / k ^ level)) = true := by
  have hdigit := div_pow_eq k n level
  constructor
  · rintro ⟨o, ho, hn⟩
    rw [mem_offsets hk, hn] at ho
    obtain ⟨hlt, h1, h2, hp⟩ := ho
    have hidx : n / k ^ (level + 1) = idx := by
      calc n / k ^ (level + 1) = n / k ^ level / k := by rw [pow_succ, Nat.div_div_eq_div_mul]
        _ = (o + idx * k) / k := by rw [hn]
        _ = o / k + idx := Nat.add_mul_div_right _ _ hk
        _ = idx := by rw [Nat.div_eq_of_lt hlt, Nat.zero_add]
    have ho : n / k ^ level % k = o := by
      calc n / k ^ level % k = (o + idx * k) % k := by rw [hn]
        _ = o % k := Nat.add_mul_mod_self_right _ _ _
        _ = o := Nat.mod_eq_of_lt hlt
    rw [ho]
    exact ⟨hidx, h1, h2, hp⟩
  · rintro ⟨rfl, h1, h2, hp⟩
    refine ⟨n / k ^ level % k, (mem_offsets hk).2 ⟨Nat.mod_lt _ hk, h1, h2, ?_⟩, hdigit.symm⟩
    rwa [← hdigit]

/-- The numbers found are those under the bunch, in range as far as the range begins or ends there, whose entries
pass at every level. -/
theorem mem_search (hk : 0 < k) : ∀ {level idx : ℕ}, n ∈ search k p e lo hi level idx ↔
    n / k ^ (level + 1) = idx ∧ (idx = lo / k ^ (level + 1) → lo ≤ n) ∧ (idx = hi / k ^ (level + 1) → n ≤ hi) ∧
      ∀ l ≤ level, p (e l (n / k ^ l)) = true
  | 0, idx => by
    have h : (∃ o ∈ offsets k p e lo hi 0 idx, o + idx * k = n / k ^ 0) ↔ _ := exists_offset hk
    rw [pow_zero, Nat.div_one, Nat.div_one, Nat.div_one] at h
    rw [search, List.mem_map, h]
    have hlo := bound_iff (k := k) (a := lo) (b := n) (l := 0)
    have hhi := bound_iff (k := k) (a := n) (b := hi) (l := 0)
    simp only [pow_zero, Nat.div_one, and_iff_left (fun h : lo = n => h.le), and_iff_left (fun h : n = hi => h.le)]
      at hlo hhi
    refine and_congr_right fun hn => ?_
    rw [← hn, eq_comm, hlo, hhi, eq_comm]
    simp
  | level + 1, idx => by
    have hlo := bound_iff (k := k) (a := lo) (b := n) (l := level + 1)
    have hhi := bound_iff (k := k) (a := n) (b := hi) (l := level + 1)
    have hall : (∀ l ≤ level + 1, p (e l (n / k ^ l)) = true) ↔
        p (e (level + 1) (n / k ^ (level + 1))) = true ∧ ∀ l ≤ level, p (e l (n / k ^ l)) = true := by
      refine ⟨fun h => ⟨h _ le_rfl, fun l hl => h l (hl.trans (Nat.le_succ _))⟩, fun h l hl => ?_⟩
      rcases Nat.of_le_succ hl with hl | rfl
      · exact h.2 l hl
      · exact h.1
    rw [search, List.mem_flatMap, hall]
    simp only [mem_search hk]
    constructor
    · rintro ⟨o, ho, hn, h1, h2, hp⟩
      obtain ⟨hidx, h3, h4, hp'⟩ := (exists_offset hk).1 ⟨o, ho, hn.symm⟩
      rw [← hn] at h1 h2
      subst hidx
      exact ⟨rfl, fun h => hlo.1 ⟨fun h => h3 h.symm, fun h => h1 h.symm⟩ h.symm, fun h => hhi.1 ⟨h4, h2⟩ h, hp', hp⟩
    · rintro ⟨hidx, h1, h2, hp', hp⟩
      subst hidx
      obtain ⟨h3, h5⟩ := hlo.2 fun h => h1 h.symm
      obtain ⟨h4, h6⟩ := hhi.2 h2
      obtain ⟨o, ho, hn⟩ := (exists_offset hk).2 ⟨rfl, fun h => h3 h.symm, h4, hp'⟩
      exact ⟨o, ho, hn.symm, fun h => h5 (h.symm.trans hn), fun h => h6 (hn.symm.trans h), hp⟩

/-- They come out in their order. -/
theorem pairwise_search (hk : 0 < k) : ∀ {level idx : ℕ}, (search k p e lo hi level idx).Pairwise (· < ·)
  | 0, idx => by
    rw [search, List.pairwise_map]
    exact pairwise_offsets.imp fun h => Nat.add_lt_add_right h _
  | level + 1, idx => by
    rw [search, List.pairwise_flatMap]
    refine ⟨fun o _ => pairwise_search hk, pairwise_offsets.imp fun {o o'} hlt x hx y hy => ?_⟩
    -- what is found under an entry lies below what is found under a later one
    have hx' := ((mem_search hk).1 hx).1
    have hy' := ((mem_search hk).1 hy).1
    by_contra hle
    have := Nat.div_le_div_right (c := k ^ (level + 1)) (not_lt.1 hle)
    omega

end LevelSearch
