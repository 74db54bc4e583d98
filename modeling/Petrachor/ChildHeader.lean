import Petrachor.Devnet
import Petrachor.SealEngine

/-!
# Difficulty and gas limit of a child

The difficulty of a block follows from its parent and the seconds between them; the gas limit is set by the
producer within bounds that every node checks again. All arithmetic on gas limits is modulo `2 ^ 256`.
-/

namespace Petrachor

namespace Ethash

variable {p : ChainOperationParams} {h h' parent parent' : BlockHeader} {d d' target : U256}

/-! ## The difficulty -/

/-- The difficulty before it is kept between the minimum and the greatest number. -/
def targetDifficulty (p : ChainOperationParams) (parentDifficulty : ℕ) (timestampDiff : ℤ) : ℤ :=
  parentDifficulty + (parentDifficulty * max (p.targetBlockInterval.toNat - timestampDiff) (-99 * 128)).tdiv
    (p.difficultyBoundDivisor.toNat : ℤ)

theorem calculateDifficulty_eq (hb : p.difficultyBoundDivisor ≠ 0) (hn : h.number ≠ 0) :
    calculateDifficulty p h parent = .ok (BitVec.ofInt 256 (min (max (p.minimumDifficulty.toNat : ℤ)
      (targetDifficulty p parent.difficulty.toNat (h.timestamp - parent.timestamp))) (2 ^ 256 - 1))) := by
  unfold calculateDifficulty
  rw [throwIf_neg hn]
  simp only [throwIf_neg hb]
  rfl

/-- The clamped difficulty is the number it is meant to be. -/
theorem toNat_of_calculateDifficulty (hb : p.difficultyBoundDivisor ≠ 0) (hn : h.number ≠ 0)
    (hd : calculateDifficulty p h parent = .ok d) :
    (d.toNat : ℤ) = min (max (p.minimumDifficulty.toNat : ℤ)
      (targetDifficulty p parent.difficulty.toNat (h.timestamp - parent.timestamp))) (2 ^ 256 - 1) := by
  rw [calculateDifficulty_eq hb hn] at hd
  cases hd
  have hmin := p.minimumDifficulty.isLt
  rw [BitVec.toNat_ofInt]
  omega

/-- A longer interval does not raise the target. -/
theorem targetDifficulty_antitone {n : ℕ} {x y : ℤ} (hb : p.difficultyBoundDivisor ≠ 0) (hxy : x ≤ y) :
    targetDifficulty p n y ≤ targetDifficulty p n x := by
  have hpos : (0 : ℤ) < p.difficultyBoundDivisor.toNat := by
    have := BitVec.toNat_ne_iff_ne.2 hb
    simp at this
    omega
  have hfactor : max (p.targetBlockInterval.toNat - y) (-99 * 128) ≤
      max (p.targetBlockInterval.toNat - x) (-99 * 128) := by omega
  have hmul := mul_le_mul_of_nonneg_left hfactor (Int.natCast_nonneg n)
  exact add_le_add_right (Int.tdiv_le_tdiv hpos hmul) _

/-- What a share of more than the whole takes away leaves nothing. -/
theorem share_ge {n k b : ℕ} (hb : 0 < b) (h : b ≤ k) : n ≤ n * k / b := by
  rw [Nat.le_div_iff_mul_le hb]
  exact Nat.mul_le_mul_left n h

/-- A share of no more than the whole grows no faster than what it is taken of. -/
theorem share_le {n m k b : ℕ} (hb : 0 < b) (h : k ≤ b) (hnm : n ≤ m) : m * k / b ≤ n * k / b + (m - n) := by
  have hsplit : m * k ≤ n * k + (m - n) * b := by
    have hmk : m * k = n * k + (m - n) * k := by
      rw [← Nat.add_mul, Nat.add_sub_cancel' hnm]
    rw [hmk]
    exact Nat.add_le_add_left (Nat.mul_le_mul_left _ h) _
  calc m * k / b ≤ (n * k + (m - n) * b) / b := Nat.div_le_div_right hsplit
    _ = n * k / b + (m - n) := Nat.add_mul_div_right _ _ hb

/-- A greater parent's difficulty does not lower the target, as long as that is not negative. -/
theorem max_targetDifficulty_mono {n m : ℕ} {x : ℤ} (hb : p.difficultyBoundDivisor ≠ 0) (hnm : n ≤ m) :
    max (p.minimumDifficulty.toNat : ℤ) (targetDifficulty p n x) ≤
      max (p.minimumDifficulty.toNat : ℤ) (targetDifficulty p m x) := by
  have hpos : 0 < p.difficultyBoundDivisor.toNat := by
    have := BitVec.toNat_ne_iff_ne.2 hb
    simp at this
    omega
  unfold targetDifficulty
  generalize p.difficultyBoundDivisor.toNat = b at hpos
  generalize max (p.targetBlockInterval.toNat - x) (-99 * 128) = a
  rcases Int.le_total 0 a with ha | ha
  · -- the target grows by a part of the difficulty
    have hmul : (n : ℤ) * a ≤ m * a := mul_le_mul_of_nonneg_right (by exact_mod_cast hnm) ha
    have hdiv := Int.tdiv_le_tdiv (Int.natCast_pos.2 hpos) hmul
    omega
  · -- a part of the difficulty is taken away, or more than the whole
    obtain ⟨k, rfl⟩ : ∃ k : ℕ, a = -k := ⟨a.natAbs, by omega⟩
    have hshare : ∀ l : ℕ, ((l : ℤ) * -k).tdiv b = -((l * k / b : ℕ) : ℤ) := by
      intro l
      rw [Int.mul_neg, Int.neg_tdiv, ← Int.natCast_mul, ← Int.ofNat_tdiv]
    rw [hshare, hshare]
    rcases Nat.le_total k b with hk | hk
    · have := share_le hpos hk hnm
      omega
    · have hn := share_ge (n := n) hpos hk
      omega

theorem targetDifficulty_self {n : ℕ} : targetDifficulty p n p.targetBlockInterval.toNat = n := by
  unfold targetDifficulty
  rw [sub_self, max_eq_left (by decide), mul_zero, Int.zero_tdiv, add_zero]

/-- The difficulty of a block that is not the genesis block lies between the minimum and the greatest number,
does not grow with its timestamp nor shrink with its parent's difficulty, and stays when the interval is the
one aimed at. -/
theorem calculateDifficulty_rule (hb : p.difficultyBoundDivisor ≠ 0) (hn : h.number ≠ 0) :
    ∃ d, calculateDifficulty p h parent = .ok d ∧ p.minimumDifficulty ≤ d ∧ d.toNat ≤ 2 ^ 256 - 1 ∧
      (∀ h' d', h'.number ≠ 0 → h.timestamp ≤ h'.timestamp → calculateDifficulty p h' parent = .ok d' →
        d' ≤ d) ∧
      (∀ parent' d', parent'.timestamp = parent.timestamp → parent.difficulty ≤ parent'.difficulty →
        calculateDifficulty p h parent' = .ok d' → d ≤ d') ∧
      (p.minimumDifficulty ≤ parent.difficulty →
        h.timestamp - parent.timestamp = p.targetBlockInterval.toNat → d = parent.difficulty) := by
  obtain ⟨d, hd⟩ : ∃ d, calculateDifficulty p h parent = .ok d := ⟨_, calculateDifficulty_eq hb hn⟩
  have hval := toNat_of_calculateDifficulty hb hn hd
  refine ⟨d, hd, ?_, Nat.le_sub_one_of_lt (BitVec.isLt _), ?_, ?_, ?_⟩
  · have hmin := p.minimumDifficulty.isLt
    rw [BitVec.le_def]
    omega
  · intro h' d' hn' hle hd'
    have hval' := toNat_of_calculateDifficulty hb hn' hd'
    have hanti := targetDifficulty_antitone (n := parent.difficulty.toNat) hb
      (Int.sub_le_sub_right hle parent.timestamp)
    rw [BitVec.le_def]
    omega
  · intro parent' d' htime hle hd'
    have hval' := toNat_of_calculateDifficulty hb hn hd'
    have hmono := max_targetDifficulty_mono (x := h.timestamp - parent.timestamp) hb (BitVec.le_def.1 hle)
    rw [htime] at hval'
    rw [BitVec.le_def]
    omega
  · intro hmin htime
    rw [htime, targetDifficulty_self] at hval
    have hlt := parent.difficulty.isLt
    rw [BitVec.le_def] at hmin
    apply BitVec.eq_of_toNat_eq
    omega

/-- The development network with a minimum of its own and a finer divisor. -/
def steadyParams : ChainOperationParams :=
  { Devnet.params with minimumDifficulty := 1000, difficultyBoundDivisor := 2048 }

/-- A block above the minimum. -/
def steadyParent : BlockHeader := { BlockHeader.empty with number := 6, timestamp := 40, difficulty := 4096 }

/-- A child that comes in time, or some seconds after that. -/
def steadyChild (late : ℕ) : BlockHeader :=
  { BlockHeader.empty with number := 7, timestamp := 40 + Devnet.interval + late }

/-- In time the difficulty stays, three seconds late it goes down, and with a heavier parent it is greater. -/
theorem calculateDifficulty_steady : ∃ d late heavy,
    calculateDifficulty steadyParams (steadyChild 0) steadyParent = .ok d ∧ d = 4096 ∧
      calculateDifficulty steadyParams (steadyChild 3) steadyParent = .ok late ∧ late = 4090 ∧ late ≤ d ∧
      calculateDifficulty steadyParams (steadyChild 0) { steadyParent with difficulty := 5000 } = .ok heavy ∧
      heavy = 5000 ∧ d ≤ heavy := by
  obtain ⟨d, hd, -, -, hlate, hheavy, hstays⟩ :=
    @calculateDifficulty_rule steadyParams (steadyChild 0) steadyParent (by decide) (by decide)
  have hmin : steadyParams.minimumDifficulty ≤ steadyParent.difficulty := by decide +kernel
  have h3 : calculateDifficulty steadyParams (steadyChild 3) steadyParent = .ok 4090 := by
    decide +kernel
  have h5 : calculateDifficulty steadyParams (steadyChild 0) { steadyParent with difficulty := 5000 } = .ok 5000 := by
    decide +kernel
  exact ⟨d, 4090, 5000, hd, hstays hmin (by decide +kernel), h3, rfl,
    hlate (steadyChild 3) 4090 (by decide) (by decide) h3,
    h5, rfl, hheavy { steadyParent with difficulty := 5000 } 5000 rfl (by decide +kernel) h5⟩

/-! ## The gas limit -/

def Invalid256 : U256 := BitVec.allOnes 256

/-- The target, or the default if none is given. -/
def gasFloorTarget (target : U256) : U256 := if target = Invalid256 then c_gasFloorTarget else target

/-- `childGasLimit(_bi, _gasFloorTarget)`; `childGasLimit` is the case without a target. -/
def childGasLimitTowards (p : ChainOperationParams) (h : BlockHeader) (target : U256) : Except Exception U256 :=
  if h.gasLimit < gasFloorTarget target then do
    let raised := h.gasLimit + (← div h.gasLimit p.gasLimitBoundDivisor) - 1
    return if raised < gasFloorTarget target then raised else gasFloorTarget target
  else do
    let lowered := h.gasLimit - (← div h.gasLimit p.gasLimitBoundDivisor) + 1 +
      (← div (h.gasUsed * 6 / 5) p.gasLimitBoundDivisor)
    return if gasFloorTarget target < lowered then lowered else gasFloorTarget target

theorem childGasLimit_eq (p : ChainOperationParams) (h : BlockHeader) :
    childGasLimit p h = childGasLimitTowards p h Invalid256 := rfl

/-- What `verify` asks of the gas limit of a child. -/
def checkGasLimit (p : ChainOperationParams) (gasLimit : U256) (parent : BlockHeader) : Except Exception Unit := do
  throwIf (gasLimit < p.minGasLimit) .InvalidGasLimit
  throwIf (p.maxGasLimit < gasLimit) .InvalidGasLimit
  let margin ← div parent.gasLimit p.gasLimitBoundDivisor
  throwIf (gasLimit ≤ parent.gasLimit - margin ∨ parent.gasLimit + margin ≤ gasLimit) .InvalidGasLimit

theorem checkGasLimit_eq_ok {g : U256} : checkGasLimit p g parent = .ok () ↔
    p.minGasLimit ≤ g ∧ g ≤ p.maxGasLimit ∧ p.gasLimitBoundDivisor ≠ 0 ∧
      parent.gasLimit - parent.gasLimit / p.gasLimitBoundDivisor < g ∧
      g < parent.gasLimit + parent.gasLimit / p.gasLimitBoundDivisor := by
  unfold checkGasLimit div
  rw [unit_bind_eq_ok, unit_bind_eq_ok, throwIf_eq_ok, throwIf_eq_ok, BitVec.not_lt, BitVec.not_lt]
  refine and_congr_right fun _ => and_congr_right fun _ => ?_
  by_cases hb : p.gasLimitBoundDivisor = 0
  · rw [if_pos hb, error_bind]
    exact iff_of_false (fun h => by cases h) fun h => h.1 hb
  · rw [if_neg hb, ok_bind, throwIf_eq_ok, not_or, BitVec.not_le, BitVec.not_le]
    exact (and_iff_right hb).symm

/-- The checks of `verify` on a header and against its parent come down to that of the gas limit, and to what
is asked of difficulty and extra data. -/
theorem verify_gasLimit_iff : (verifyFields p h = .ok () ∧ verifyAgainstParent p h parent = .ok ()) ↔
    checkGasLimit p h.gasLimit parent = .ok () ∧ p.minimumDifficulty ≤ h.difficulty ∧
      calculateDifficulty p h parent = .ok h.difficulty ∧
      ¬(h.number ≠ 0 ∧ p.maximumExtraDataSize.toNat < h.extraData.length) := by
  rw [checkGasLimit_eq_ok]
  have hfields : verifyFields p h = .ok () ↔ p.minimumDifficulty ≤ h.difficulty ∧ p.minGasLimit ≤ h.gasLimit ∧
      h.gasLimit ≤ p.maxGasLimit ∧ ¬(h.number ≠ 0 ∧ p.maximumExtraDataSize.toNat < h.extraData.length) := by
    unfold verifyFields
    rw [unit_bind_eq_ok, unit_bind_eq_ok, unit_bind_eq_ok, throwIf_eq_ok, throwIf_eq_ok, throwIf_eq_ok,
      throwIf_eq_ok, BitVec.not_lt, BitVec.not_lt, BitVec.not_lt]
  have hparent : verifyAgainstParent p h parent = .ok () ↔ calculateDifficulty p h parent = .ok h.difficulty ∧
      p.gasLimitBoundDivisor ≠ 0 ∧ p.minGasLimit ≤ h.gasLimit ∧ h.gasLimit ≤ p.maxGasLimit ∧
      parent.gasLimit - parent.gasLimit / p.gasLimitBoundDivisor < h.gasLimit ∧
      h.gasLimit < parent.gasLimit + parent.gasLimit / p.gasLimitBoundDivisor := by
    unfold verifyAgainstParent div
    rw [bind_eq_ok]
    constructor
    · rintro ⟨expected, hexpected, h⟩
      rw [unit_bind_eq_ok, throwIf_eq_ok, not_not] at h
      by_cases hb : p.gasLimitBoundDivisor = 0
      · rw [if_pos hb, error_bind] at h
        cases h.2
      · rw [if_neg hb, ok_bind, throwIf_eq_ok, not_or, not_or, not_or, BitVec.not_lt, BitVec.not_lt,
          BitVec.not_le, BitVec.not_le] at h
        exact ⟨h.1 ▸ hexpected, hb, h.2⟩
    · rintro ⟨hexpected, hb, h⟩
      refine ⟨_, hexpected, ?_⟩
      rw [unit_bind_eq_ok, throwIf_eq_ok, not_not, if_neg hb, ok_bind, throwIf_eq_ok, not_or, not_or, not_or,
        BitVec.not_lt, BitVec.not_lt, BitVec.not_le, BitVec.not_le]
      exact ⟨rfl, h⟩
  rw [hfields, hparent]
  constructor
  · rintro ⟨⟨hd, hmin, hmax, hextra⟩, hexpected, hb, -, -, hlow, hhigh⟩
    exact ⟨⟨hmin, hmax, hb, hlow, hhigh⟩, hd, hexpected, hextra⟩
  · rintro ⟨⟨hmin, hmax, hb, hlow, hhigh⟩, hd, hexpected, hextra⟩
    exact ⟨⟨hd, hmin, hmax, hextra⟩, hexpected, hb, hmin, hmax, hlow, hhigh⟩

/-- The step by which the limit may change is not zero, and if the limit is not to be raised, the usage adds
less than twice the step and does not lead beyond the maximum. Behind `2 ^ 256` the sums start over. -/
def GasLimitCloses (p : ChainOperationParams) (parent : BlockHeader) (target : U256) : Prop :=
  let g := parent.gasLimit.toNat
  let floor := (gasFloorTarget target).toNat
  let step := g / p.gasLimitBoundDivisor.toNat
  let usage := parent.gasUsed.toNat * 6 % 2 ^ 256 / 5 / p.gasLimitBoundDivisor.toNat
  0 < step ∧
    if g + step < 2 ^ 256 then
      floor ≤ g →
        if g + 1 + usage < 2 ^ 256 + step then 1 + usage < 2 * step ∧ g + 1 + usage ≤ p.maxGasLimit.toNat + step
        else g < floor + step
    else p.gasLimitBoundDivisor = 1 ∧
      if g < floor then 2 ^ 256 + 1 + p.minGasLimit.toNat ≤ 2 * g ∧ 2 ^ 256 + 1 < 2 * g
      else 2 ^ 256 + floor < 2 * g ∧ 2 ^ 256 + 1 + usage < 2 * g

instance : Decidable (GasLimitCloses p parent target) := by
  unfold GasLimitCloses
  infer_instance

theorem childGasLimitTowards_eq (hb : p.gasLimitBoundDivisor ≠ 0) : childGasLimitTowards p parent target =
    .ok (if parent.gasLimit < gasFloorTarget target then
      if parent.gasLimit + parent.gasLimit / p.gasLimitBoundDivisor - 1 < gasFloorTarget target then
        parent.gasLimit + parent.gasLimit / p.gasLimitBoundDivisor - 1 else gasFloorTarget target
    else if gasFloorTarget target < parent.gasLimit - parent.gasLimit / p.gasLimitBoundDivisor + 1 +
        parent.gasUsed * 6 / 5 / p.gasLimitBoundDivisor then
      parent.gasLimit - parent.gasLimit / p.gasLimitBoundDivisor + 1 +
        parent.gasUsed * 6 / 5 / p.gasLimitBoundDivisor else gasFloorTarget target) := by
  unfold childGasLimitTowards div
  rw [if_neg hb, if_neg hb]
  split <;> rfl

section

variable {g step usage floor low high b limit : ℕ}

/-- The limit is raised. -/
theorem raised_iff (hmin : low ≤ g) (hmax : g ≤ high) (hlow : low ≤ floor) (hlt : high < 2 ^ 256) (hstep : step ≤ g)
    (hhalf : b ≠ 1 → 2 * step ≤ g) (hone : b = 1 → step = g) (hfloor : g < floor) (hhigh : floor ≤ high) {raised : ℕ}
    (hraised : raised = (2 ^ 256 - 1 + (g + step) % 2 ^ 256) % 2 ^ 256)
    (hlimit : limit = if raised < floor then raised else floor) :
    (low ≤ limit ∧ limit ≤ high ∧ g - step < limit ∧ limit < (g + step) % 2 ^ 256) ↔
      0 < step ∧ (¬g + step < 2 ^ 256 → b = 1 ∧ 2 ^ 256 + 1 + low ≤ 2 * g ∧ 2 ^ 256 + 1 < 2 * g) := by
  by_cases hcarry : g + step < 2 ^ 256
  · rw [Nat.mod_eq_of_lt hcarry] at hraised
    rw [Nat.mod_eq_of_lt hcarry, and_iff_left fun h => absurd hcarry h]
    rcases Nat.eq_zero_or_pos (g + step) with h0 | hpos
    · omega
    · have heq : raised = g + step - 1 := by
        rw [hraised, show 2 ^ 256 - 1 + (g + step) = g + step - 1 + 2 ^ 256 by omega, Nat.add_mod_right]
        exact Nat.mod_eq_of_lt (by omega)
      split at hlimit <;> omega
  · rw [imp_iff_right hcarry]
    by_cases hb : b = 1
    · have := hone hb
      split at hlimit <;> omega
    · have := hhalf hb
      split at hlimit <;> omega

/-- The limit is lowered, or kept up by the usage. -/
theorem lowered_iff (hmax : g ≤ high) (hlow : low ≤ floor) (hhigh : floor ≤ high) (hlt : high < 2 ^ 256)
    (hstep : step ≤ g) (hhalf : b ≠ 1 → 2 * step ≤ g) (hone : b = 1 → step = g) (husage : 5 * usage < 2 ^ 256)
    (hfloor : floor ≤ g) {lowered : ℕ} (hlowered : lowered = ((g - step + 1) % 2 ^ 256 + usage) % 2 ^ 256)
    (hlimit : limit = if floor < lowered then lowered else floor) :
    (low ≤ limit ∧ limit ≤ high ∧ g - step < limit ∧ limit < (g + step) % 2 ^ 256) ↔
      0 < step ∧ if g + step < 2 ^ 256 then
          if g + 1 + usage < 2 ^ 256 + step then 1 + usage < 2 * step ∧ g + 1 + usage ≤ high + step
          else g < floor + step
        else b = 1 ∧ 2 ^ 256 + floor < 2 * g ∧ 2 ^ 256 + 1 + usage < 2 * g := by
  by_cases hcarry : g + step < 2 ^ 256
  · rw [if_pos hcarry, Nat.mod_eq_of_lt hcarry]
    rcases Nat.eq_zero_or_pos step with h0 | hpos
    · split at hlimit <;> split <;> omega
    · rw [Nat.mod_eq_of_lt (show g - step + 1 < 2 ^ 256 by omega)] at hlowered
      split at hlimit <;> split <;> omega
  · rw [if_neg hcarry]
    by_cases hb : b = 1
    · have := hone hb
      split at hlimit <;> omega
    · have := hhalf hb
      split at hlimit <;> omega

end

theorem checked_iff (hmin : p.minGasLimit ≤ parent.gasLimit) (hmax : parent.gasLimit ≤ p.maxGasLimit)
    (hlow : p.minGasLimit ≤ gasFloorTarget target) (hhigh : gasFloorTarget target ≤ p.maxGasLimit) :
    (∃ limit, childGasLimitTowards p parent target = .ok limit ∧ checkGasLimit p limit parent = .ok ()) ↔
      GasLimitCloses p parent target := by
  by_cases hb : p.gasLimitBoundDivisor = 0
  · refine iff_of_false ?_ fun h => ?_
    · rintro ⟨limit, -, h⟩
      exact (checkGasLimit_eq_ok.1 h).2.2.1 hb
    · have hstep := h.1
      rw [hb, show (0 : U256).toNat = 0 from rfl, Nat.div_zero] at hstep
      cases hstep
  -- the step, and the arithmetic of limits as numbers
  have hone : p.gasLimitBoundDivisor.toNat = 1 → parent.gasLimit.toNat / p.gasLimitBoundDivisor.toNat =
      parent.gasLimit.toNat := fun h => by rw [h, Nat.div_one]
  have hhalf : p.gasLimitBoundDivisor.toNat ≠ 1 → 2 * (parent.gasLimit.toNat / p.gasLimitBoundDivisor.toNat) ≤
      parent.gasLimit.toNat := by
    intro h
    have hne : p.gasLimitBoundDivisor.toNat ≠ 0 := fun h0 => hb (BitVec.eq_of_toNat_eq h0)
    calc 2 * (parent.gasLimit.toNat / p.gasLimitBoundDivisor.toNat)
        ≤ p.gasLimitBoundDivisor.toNat * (parent.gasLimit.toNat / p.gasLimitBoundDivisor.toNat) :=
          Nat.mul_le_mul_right _ (by omega)
      _ ≤ parent.gasLimit.toNat := Nat.mul_div_le _ _
  have hstep : parent.gasLimit.toNat / p.gasLimitBoundDivisor.toNat ≤ parent.gasLimit.toNat := Nat.div_le_self _ _
  have husage : 5 * (parent.gasUsed.toNat * 6 % 2 ^ 256 / 5 / p.gasLimitBoundDivisor.toNat) < 2 ^ 256 := by
    have h := Nat.div_le_self (parent.gasUsed.toNat * 6 % 2 ^ 256 / 5) p.gasLimitBoundDivisor.toNat
    have hlt := Nat.mod_lt (parent.gasUsed.toNat * 6) (show 0 < 2 ^ 256 by decide)
    omega
  have hdiv : p.gasLimitBoundDivisor = 1 ↔ p.gasLimitBoundDivisor.toNat = 1 := by
    rw [← BitVec.toNat_inj]
    rfl
  have hsub : (parent.gasLimit - parent.gasLimit / p.gasLimitBoundDivisor).toNat =
      parent.gasLimit.toNat - parent.gasLimit.toNat / p.gasLimitBoundDivisor.toNat := by
    rw [BitVec.toNat_sub_of_le (by rw [BitVec.le_def, BitVec.toNat_udiv]; exact hstep), BitVec.toNat_udiv]
  have hadd : (parent.gasLimit + parent.gasLimit / p.gasLimitBoundDivisor).toNat =
      (parent.gasLimit.toNat + parent.gasLimit.toNat / p.gasLimitBoundDivisor.toNat) % 2 ^ 256 := by
    rw [BitVec.toNat_add, BitVec.toNat_udiv]
  rw [childGasLimitTowards_eq hb]
  simp only [Except.ok.injEq, exists_eq_left', checkGasLimit_eq_ok, ne_eq, hb, not_false_eq_true, true_and,
    BitVec.le_def, BitVec.lt_def, hsub, hadd]
  rw [BitVec.le_def] at hmin hmax hlow hhigh
  unfold GasLimitCloses
  rw [hdiv]
  by_cases hfloor : parent.gasLimit.toNat < (gasFloorTarget target).toNat
  · simp only [if_pos hfloor]
    rw [raised_iff hmin hmax hlow p.maxGasLimit.isLt hstep hhalf hone hfloor hhigh rfl (by
      rw [apply_ite BitVec.toNat, BitVec.toNat_sub, hadd]
      rfl)]
    refine and_congr_right fun _ => ?_
    split
    · rename_i hcarry
      exact iff_of_true (fun h => absurd hcarry h) fun h => absurd h (Nat.not_le.2 hfloor)
    · rename_i hcarry
      exact imp_iff_right hcarry
  · simp only [if_neg hfloor]
    have hle := Nat.not_lt.1 hfloor
    rw [lowered_iff hmax hlow hhigh p.maxGasLimit.isLt hstep hhalf hone husage hle rfl (by
      rw [apply_ite BitVec.toNat, BitVec.toNat_add, BitVec.toNat_add, hsub, BitVec.toNat_udiv, BitVec.toNat_udiv,
        BitVec.toNat_mul]
      rfl)]
    refine and_congr_right fun _ => ?_
    split
    · exact (imp_iff_right hle).symm
    · rfl

/-- The limit that is put into the child is one that is accepted: with it, `verify` asks of the child no more than
its difficulty and the length of its extra data. -/
theorem childGasLimit_closes_iff (hmin : p.minGasLimit ≤ parent.gasLimit) (hmax : parent.gasLimit ≤ p.maxGasLimit)
    (hlow : p.minGasLimit ≤ gasFloorTarget target) (hhigh : gasFloorTarget target ≤ p.maxGasLimit) :
    ((∃ limit, childGasLimitTowards p parent target = .ok limit ∧ checkGasLimit p limit parent = .ok ()) ↔
      GasLimitCloses p parent target) ∧
    ∀ h : BlockHeader, childGasLimitTowards p parent target = .ok h.gasLimit →
      (verifyFields p h = .ok () ∧ verifyAgainstParent p h parent = .ok () ↔
        GasLimitCloses p parent target ∧ p.minimumDifficulty ≤ h.difficulty ∧
          calculateDifficulty p h parent = .ok h.difficulty ∧
          ¬(h.number ≠ 0 ∧ p.maximumExtraDataSize.toNat < h.extraData.length)) := by
  have hcloses := checked_iff hmin hmax hlow hhigh
  refine ⟨hcloses, fun h hlimit => ?_⟩
  rw [verify_gasLimit_iff, ← hcloses, hlimit]
  simp only [Except.ok.injEq, exists_eq_left']

/-- A block that used up the greatest limit, on the development network. -/
def fullParent : BlockHeader :=
  { BlockHeader.empty with gasLimit := Devnet.params.maxGasLimit, gasUsed := Devnet.params.maxGasLimit }

/-- A block that used half of its limit. -/
def halfParent : BlockHeader := { BlockHeader.empty with gasLimit := 10000000, gasUsed := 5000000 }

theorem childGasLimit_half : ∃ limit, childGasLimit Devnet.params halfParent = .ok limit ∧
    checkGasLimit Devnet.params limit halfParent = .ok () := by
  simp only [childGasLimit_eq]
  exact (childGasLimit_closes_iff (by decide) (by decide) (by decide) (by decide)).1.2 (by decide)

/-- The usage leads beyond the maximum. -/
theorem childGasLimit_full : ¬∀ (p : ChainOperationParams) (parent : BlockHeader) (target : U256),
    p.minGasLimit ≤ parent.gasLimit → parent.gasLimit ≤ p.maxGasLimit → parent.gasUsed ≤ parent.gasLimit →
      p.minGasLimit ≤ gasFloorTarget target → gasFloorTarget target ≤ p.maxGasLimit →
        ∃ limit, childGasLimitTowards p parent target = .ok limit ∧ checkGasLimit p limit parent = .ok () := by
  intro h
  obtain ⟨limit, hlimit, hcheck⟩ := h Devnet.params fullParent Invalid256 (by decide) (by decide) (by decide)
    (by decide) (by decide)
  have hchild : childGasLimitTowards Devnet.params fullParent Invalid256 = .ok 0x8006666666666667 := by
    rw [childGasLimitTowards_eq (by decide)]
    decide
  rw [hchild] at hlimit
  obtain rfl := Except.ok.inj hlimit
  exact absurd (checkGasLimit_eq_ok.1 hcheck).2.1 (by decide)

end Ethash

end Petrachor
