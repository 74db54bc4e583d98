import Petrachor.BlockChain.Run
import Petrachor.Lib.Bloom
import Petrachor.Lib.LevelSearch

/-!
# Searching the blooms of the canonical blocks

Level 0 of the index has a bloom for each number, level 1 one for each chunk of the level below. `withBlockBloom`
descends from level 1 by the entries that contain a bloom. Its range of chunks ends one too late unless the range of
numbers ends with a chunk, and nothing bounds the numbers of that last chunk.
-/

namespace Petrachor

/-- The loop squares: for an exponent above two the result is not the power. -/
def upow (a b : ℕ) : ℕ := if b = 0 then 1 else (fun x => x * x % 2 ^ 32)^[b - 1] a

def ceilDiv (n d : ℕ) : ℕ := (n + d - 1) % 2 ^ 32 / d

namespace BlockChain

/-- Where in a chunk the loop of `withBlockBloom` finds the bloom. -/
def bloomOffsets (bc : BlockChain) (b : LogBloom) (earliest latest level index : ℕ) : List ℕ :=
  let uCourse := upow c_bloomIndexSize (level + 1)
  let uFine := upow c_bloomIndexSize level
  let obegin := if index = earliest / uCourse then earliest / uFine % c_bloomIndexSize else 0
  let oend := if index = latest / uCourse then latest / uFine % c_bloomIndexSize + 1 else c_bloomIndexSize
  (List.range' obegin (oend - obegin)).filter fun o => Bloom.Contains (bc.blocksBlooms (chunkId level index) o) b

/-- `withBlockBloom(b, earliest, latest, level, index)`. -/
def withBlockBloomAt (bc : BlockChain) (b : LogBloom) (earliest latest : ℕ) : ℕ → ℕ → List ℕ
  | 0, index =>
    (bc.bloomOffsets b earliest latest 0 index).map fun o => (o + index * c_bloomIndexSize) % 2 ^ 32
  | level + 1, index =>
    (bc.bloomOffsets b earliest latest (level + 1) index).flatMap fun o =>
      bc.withBlockBloomAt b earliest latest level ((o + index * c_bloomIndexSize) % 2 ^ 32)

/-- `withBlockBloom(b, earliest, latest)`: the chunks at the top. -/
def withBlockBloom (bc : BlockChain) (b : LogBloom) (earliest latest : ℕ) : List ℕ :=
  let u := upow c_bloomIndexSize c_bloomIndexLevels
  (List.range' (earliest / u) (ceilDiv latest u + 1 - earliest / u)).flatMap
    (bc.withBlockBloomAt b earliest latest (c_bloomIndexLevels - 1))

/-- Entry `k` of a level. -/
def bloomAt (bc : BlockChain) (level k : ℕ) : LogBloom :=
  bc.blocksBlooms (chunkId level (k / c_bloomIndexSize)) (k % c_bloomIndexSize)

/-- Every entry of level 1 contains the entries of level 0 below it. -/
def Covered (bc : BlockChain) : Prop :=
  ∀ n < 2 ^ 32, Bloom.Contains (bc.bloomAt 1 (n / c_bloomIndexSize)) (bc.bloomAt 0 n)

section

variable {bc : BlockChain} {b : LogBloom} {earliest latest level index n : ℕ}

theorem bloomOffsets_eq (hl : level ≤ 1) : bc.bloomOffsets b earliest latest level index =
    LevelSearch.offsets 16 (fun v => Bloom.Contains v b) bc.bloomAt earliest latest level index := by
  have hpow : upow 16 level = 16 ^ level ∧ upow 16 (level + 1) = 16 ^ (level + 1) := by
    interval_cases level <;> decide
  unfold bloomOffsets LevelSearch.offsets c_bloomIndexSize
  rw [hpow.1, hpow.2]
  refine List.filter_congr fun o ho => ?_
  have hlt : o < 16 := by
    rw [List.mem_range'_1] at ho
    have : latest / 16 ^ level % 16 < 16 := Nat.mod_lt _ (by decide)
    split at ho <;> split at ho <;> omega
  rw [bloomAt, c_bloomIndexSize, Nat.add_mul_div_right _ _ (by decide), Nat.div_eq_of_lt hlt, Nat.zero_add,
    Nat.add_mul_mod_self_right, Nat.mod_eq_of_lt hlt]

/-- As long as the numbers under a chunk of level 0 are in range, none wraps. -/
theorem withBlockBloomAt_zero (hi : index < 2 ^ 28) : bc.withBlockBloomAt b earliest latest 0 index =
    LevelSearch.search 16 (fun v => Bloom.Contains v b) bc.bloomAt earliest latest 0 index := by
  rw [withBlockBloomAt, LevelSearch.search, bloomOffsets_eq (Nat.zero_le 1)]
  refine List.map_congr_left fun o ho => Nat.mod_eq_of_lt ?_
  have hlt := ((LevelSearch.mem_offsets (by decide)).1 ho).1
  unfold c_bloomIndexSize
  omega

theorem withBlockBloomAt_one (hi : index < 2 ^ 24) : bc.withBlockBloomAt b earliest latest 1 index =
    LevelSearch.search 16 (fun v => Bloom.Contains v b) bc.bloomAt earliest latest 1 index := by
  rw [withBlockBloomAt, LevelSearch.search, bloomOffsets_eq le_rfl]
  refine List.flatMap_congr fun o ho => ?_
  have hlt := ((LevelSearch.mem_offsets (by decide)).1 ho).1
  have hwrap : (o + index * c_bloomIndexSize) % 2 ^ 32 = o + index * 16 := by
    unfold c_bloomIndexSize
    omega
  have hchunk : o + index * 16 < 2 ^ 28 := by omega
  rw [hwrap, withBlockBloomAt_zero hchunk]

theorem ceilDiv_lt (n : ℕ) : ceilDiv n 256 < 2 ^ 24 := by
  unfold ceilDiv
  omega

/-- The chunks at the top, each searched by its levels. -/
theorem withBlockBloom_eq : bc.withBlockBloom b earliest latest =
    (List.range' (earliest / 256) (ceilDiv latest 256 + 1 - earliest / 256)).flatMap
      (LevelSearch.search 16 (fun v => Bloom.Contains v b) bc.bloomAt earliest latest 1) := by
  unfold withBlockBloom
  rw [show upow c_bloomIndexSize c_bloomIndexLevels = 256 by decide]
  refine List.flatMap_congr fun index hi => ?_
  rw [List.mem_range'_1] at hi
  have := ceilDiv_lt latest
  exact withBlockBloomAt_one (by omega)

/-- What is returned: the numbers of the range from `earliest` to the end of the last chunk, without those behind
`latest` in the chunk of `latest`, whose entries at both levels contain the bloom. -/
theorem mem_withBlockBloom : n ∈ bc.withBlockBloom b earliest latest ↔
    earliest ≤ n ∧ n / 256 ≤ ceilDiv latest 256 ∧ (n / 256 = latest / 256 → n ≤ latest) ∧
      Bloom.Contains (bc.bloomAt 0 n) b ∧ Bloom.Contains (bc.bloomAt 1 (n / 16)) b := by
  have hlevels : (∀ l ≤ 1, decide (Bloom.Contains (bc.bloomAt l (n / 16 ^ l)) b) = true) ↔
      Bloom.Contains (bc.bloomAt 0 n) b ∧ Bloom.Contains (bc.bloomAt 1 (n / 16)) b := by
    simp only [decide_eq_true_eq]
    constructor
    · intro h
      have h0 := h 0 (Nat.zero_le 1)
      rw [pow_zero, Nat.div_one] at h0
      exact ⟨h0, h 1 le_rfl⟩
    · rintro ⟨h0, h1⟩ l hl
      interval_cases l
      · simpa only [pow_zero, Nat.div_one] using h0
      · exact h1
  rw [withBlockBloom_eq, List.mem_flatMap]
  simp only [LevelSearch.mem_search (show 0 < 16 by decide), List.mem_range'_1, hlevels]
  constructor
  · rintro ⟨index, hrange, rfl, hlo, hhi, hpass⟩
    refine ⟨?_, by omega, hhi, hpass⟩
    by_cases h : n / 16 ^ (1 + 1) = earliest / 16 ^ (1 + 1)
    · exact hlo h
    · omega
  · rintro ⟨hle, hlast, hhi, hpass⟩
    have hdiv := Nat.div_le_div_right (c := 256) hle
    exact ⟨n / 256, by omega, rfl, fun _ => hle, hhi, hpass⟩

theorem pairwise_withBlockBloom : (bc.withBlockBloom b earliest latest).Pairwise (· < ·) := by
  rw [withBlockBloom_eq, List.pairwise_flatMap]
  refine ⟨fun index _ => LevelSearch.pairwise_search (by decide), ?_⟩
  refine List.Pairwise.imp (fun {i j} hij x hx y hy => ?_) List.pairwise_lt_range'
  have hx' := ((LevelSearch.mem_search (by decide)).1 hx).1
  have hy' := ((LevelSearch.mem_search (by decide)).1 hy).1
  by_contra hle
  have := Nat.div_le_div_right (c := 16 ^ (1 + 1)) (not_lt.1 hle)
  omega

/-- Up to `latest` nothing is missed, and nothing is found that does not contain the bloom. -/
theorem mem_withBlockBloom_of_le (hl : latest + 255 < 2 ^ 32) (hn : n ≤ latest) :
    n ∈ bc.withBlockBloom b earliest latest ↔
      earliest ≤ n ∧ Bloom.Contains (bc.bloomAt 0 n) b ∧ Bloom.Contains (bc.bloomAt 1 (n / 16)) b := by
  have hdiv := Nat.div_le_div_right (c := 256) hn
  have hceil : latest / 256 ≤ ceilDiv latest 256 := by
    unfold ceilDiv
    omega
  rw [mem_withBlockBloom, and_congr_right_iff]
  intro _
  exact ⟨fun h => h.2.2, fun h => ⟨hdiv.trans hceil, fun _ => hn, h⟩⟩

end

end BlockChain

end Petrachor
