import Petrachor.RLPCanon

/-!
# The precompiled contract `modexp`

The input has three lengths of 32 bytes, then base, exponent and modulus; what it is short of counts as zero. The
price is computed from the lengths and the exponent's first word, and the executor asserts that no length
is too large for the memory, since that should be too expensive.
-/

namespace Petrachor

namespace Precompiled

/-! ## The code -/

/-- `numeric_limits<size_t>::max() / 8`. -/
def maxCount : ℕ := (2 ^ 64 - 1) / 8

def parseBigEndianRightPadded (b : Bytes) (begin count : ℕ) : Except Exception ℕ :=
  if b.length < begin then .ok 0
  else do
    throwIf (maxCount < count) .abort
    let cropped := cropped b begin (min count (b.length - begin))
    throwIf (maxCount < count - cropped.length) .abort
    return fromBigEndian cropped * 2 ^ (8 * (count - cropped.length))

/-- The executor. -/
def modexp (b : Bytes) : Except Exception (Bool × Bytes) := do
  let baseLength ← parseBigEndianRightPadded b 0 32
  let expLength ← parseBigEndianRightPadded b 32 32
  let modLength ← parseBigEndianRightPadded b 64 32
  throwIf (maxCount < modLength) .abort
  throwIf (maxCount < baseLength) .abort
  if modLength = 0 ∧ baseLength = 0 then return (true, [])
  throwIf (maxCount < expLength) .abort
  let base ← parseBigEndianRightPadded b 96 baseLength
  let exp ← parseBigEndianRightPadded b (96 + baseLength) expLength
  let mod ← parseBigEndianRightPadded b (96 + baseLength + expLength) modLength
  let result := if mod ≠ 0 then base ^ exp % mod else 0
  return (true, toBigEndian modLength result)

/-- The position of the highest bit, and 0 for zero. -/
def msb (n : ℕ) : ℕ := if n ≠ 0 then Nat.log2 n else 0

def expLengthAdjust (expOffset expLength : ℕ) (b : Bytes) : Except Exception ℕ :=
  if expLength ≤ 32 then do return msb (← parseBigEndianRightPadded b expOffset expLength)
  else do
    let expFirstWord ← parseBigEndianRightPadded b expOffset 32
    return 8 * (expLength - 32) + msb expFirstWord

def multComplexity (x : ℕ) : ℕ :=
  if x ≤ 64 then x * x
  else if x ≤ 1024 then x * x / 4 + 96 * x - 3072
  else x * x / 16 + 480 * x - 199680

/-- The pricer. -/
def modexpPrice (b : Bytes) : Except Exception ℕ := do
  let baseLength ← parseBigEndianRightPadded b 0 32
  let expLength ← parseBigEndianRightPadded b 32 32
  let modLength ← parseBigEndianRightPadded b 64 32
  let maxLength := max modLength baseLength
  let adjustedExpLength ← expLengthAdjust (baseLength + 96) expLength b
  return multComplexity maxLength * max adjustedExpLength 1 / 20

/-! ## What it should compute -/

/-- The bytes from one position on, with zeros behind the input. -/
def slice (b : Bytes) (begin count : ℕ) : Bytes := (List.range' begin count).map fun i => b.getD i 0

def declared (b : Bytes) (begin count : ℕ) : ℕ := fromBigEndian (slice b begin count)

def baseLength (b : Bytes) : ℕ := declared b 0 32
def expLength (b : Bytes) : ℕ := declared b 32 32
def modLength (b : Bytes) : ℕ := declared b 64 32

def base (b : Bytes) : ℕ := declared b 96 (baseLength b)
def exp (b : Bytes) : ℕ := declared b (96 + baseLength b) (expLength b)
def mod (b : Bytes) : ℕ := declared b (96 + baseLength b + expLength b) (modLength b)

/-- The exponent's highest bit, as if all behind its leading 32 bytes were part of its length only. -/
def adjustedExponentLength (b : Bytes) : ℕ :=
  8 * (expLength b - 32) + msb (declared b (96 + baseLength b) (min (expLength b) 32))

def price (b : Bytes) : ℕ :=
  multComplexity (max (modLength b) (baseLength b)) * max (adjustedExponentLength b) 1 / 20

/-- The power, in as many bytes as were declared for the modulus. -/
def Computes (b : Bytes) : Prop :=
  ∃ out, modexp b = .ok (true, out) ∧ out.length = modLength b ∧
    fromBigEndian out = if mod b = 0 then 0 else base b ^ exp b % mod b

/-! ## Reading the input -/

section

variable {b : Bytes} {begin count : ℕ}

theorem fromBigEndian_replicate (k : ℕ) : fromBigEndian (List.replicate k 0) = 0 := by
  induction k with
  | zero => rfl
  | succ k ih =>
    rw [List.replicate_succ', fromBigEndian_append_singleton, ih]
    rfl

theorem length_slice : (slice b begin count).length = count := by
  unfold slice
  rw [List.length_map, List.length_range']

theorem slice_of_le (h : begin ≤ b.length) :
    slice b begin count =
      (b.drop begin).take (min count (b.length - begin)) ++
        List.replicate (count - (b.length - begin)) 0 := by
  apply List.ext_getElem?
  intro i
  unfold slice
  rw [List.getElem?_map, List.getElem?_append, List.length_take, List.length_drop]
  rcases Nat.lt_or_ge i count with hi | hi
  · rw [List.getElem?_range' hi, Nat.one_mul, Option.map_some]
    split
    · rename_i hlt
      rw [List.getElem?_take_of_lt (by omega), List.getElem?_drop, List.getD_eq_getElem?_getD,
        List.getElem?_eq_getElem (by omega), Option.getD_some]
    · rename_i hge
      rw [List.getElem?_replicate_of_lt (by omega), List.getD_eq_getElem?_getD,
        List.getElem?_eq_none (by omega), Option.getD_none]
  · rw [List.getElem?_eq_none (by rw [List.length_range']; exact hi), Option.map_none]
    split
    · omega
    · rw [List.getElem?_eq_none (by rw [List.length_replicate]; omega)]

/-- Nothing is read behind the input. -/
theorem declared_of_length_le (h : b.length ≤ begin) : declared b begin count = 0 := by
  unfold declared slice
  have hzero : ((List.range' begin count).map fun i => b.getD i 0) = List.replicate count 0 := by
    rw [List.eq_replicate_iff]
    constructor
    · rw [List.length_map, List.length_range']
    · intro x hx
      obtain ⟨i, hi, rfl⟩ := List.mem_map.1 hx
      have := (List.mem_range'_1.1 hi).1
      rw [List.getD_eq_getElem?_getD, List.getElem?_eq_none (by omega), Option.getD_none]
  rw [hzero, fromBigEndian_replicate]

theorem declared_lt : declared b begin count < 256 ^ count := by
  have hlt := fromBigEndian_lt (slice b begin count)
  rwa [length_slice] at hlt

/-- The code reads what was declared, unless it asserts that it is too long. -/
theorem parse_eq (h : count ≤ maxCount) : parseBigEndianRightPadded b begin count = .ok (declared b begin count) := by
  unfold parseBigEndianRightPadded
  split
  · rename_i hlt
    rw [declared_of_length_le hlt.le]
  · rename_i hge
    have hbegin : begin ≤ b.length := not_lt.1 hge
    have hcropped : cropped b begin (min count (b.length - begin)) =
        (b.drop begin).take (min count (b.length - begin)) := by
      unfold cropped
      rw [if_pos ⟨hbegin, by omega, by omega⟩]
    have hlength : ((b.drop begin).take (min count (b.length - begin))).length =
        min count (b.length - begin) := by
      rw [List.length_take, List.length_drop]
      omega
    rw [throwIf_neg (not_lt.2 h), ok_bind, hcropped]
    dsimp only
    rw [hlength, throwIf_neg (by omega), ok_bind]
    unfold declared
    rw [slice_of_le hbegin, fromBigEndian_append, fromBigEndian_replicate, List.length_replicate, Nat.add_zero,
      pow_mul, show count - min count (b.length - begin) = count - (b.length - begin) by omega]
    rfl

theorem parse_word : parseBigEndianRightPadded b begin 32 = .ok (declared b begin 32) := parse_eq (by decide)

/-! ## Price and power -/

theorem expLengthAdjust_eq :
    expLengthAdjust (baseLength b + 96) (expLength b) b = .ok (adjustedExponentLength b) := by
  unfold expLengthAdjust adjustedExponentLength
  rw [Nat.add_comm (baseLength b) 96]
  split
  · rename_i hle
    have hcount : expLength b ≤ maxCount := hle.trans (by decide)
    rw [parse_eq hcount, ok_bind, Nat.sub_eq_zero_of_le hle, Nat.mul_zero, Nat.zero_add, Nat.min_eq_left hle]
    rfl
  · rename_i hgt
    rw [parse_word, ok_bind, Nat.min_eq_right (not_le.1 hgt).le]
    rfl

/-- The price is the one that was asked for, of every input. -/
theorem modexpPrice_eq (b : Bytes) : modexpPrice b = .ok (price b) := by
  unfold modexpPrice
  rw [parse_word, ok_bind, parse_word, ok_bind, parse_word, ok_bind]
  dsimp only
  rw [show declared b 0 32 = baseLength b from rfl, show declared b 32 32 = expLength b from rfl,
    show declared b 64 32 = modLength b from rfl, expLengthAdjust_eq, ok_bind]
  rfl

theorem le_multComplexity {x : ℕ} (hx : maxCount < x) : 20 * 2 ^ 63 ≤ multComplexity x := by
  have hmax : maxCount = 2 ^ 61 - 1 := by decide
  unfold multComplexity
  rw [if_neg (by omega), if_neg (by omega)]
  omega

/-- A price that can be paid leaves room for base and modulus. -/
theorem length_le_of_price (hprice : price b ≤ 2 ^ 63 - 1) : max (modLength b) (baseLength b) ≤ maxCount := by
  by_contra hgt
  have hmult := le_multComplexity (not_le.1 hgt)
  have hprod : 20 * 2 ^ 63 * 1 ≤
      multComplexity (max (modLength b) (baseLength b)) * max (adjustedExponentLength b) 1 :=
    Nat.mul_le_mul hmult (le_max_right _ _)
  have hpast : 2 ^ 63 ≤ price b := by
    calc 2 ^ 63 = 20 * 2 ^ 63 * 1 / 20 := by norm_num
      _ ≤ price b := Nat.div_le_div_right hprod
  omega

/-- What the executor does with lengths that fit: only that of the exponent is left to be asserted. -/
theorem modexp_eq (hlength : max (modLength b) (baseLength b) ≤ maxCount) : modexp b =
    if modLength b = 0 ∧ baseLength b = 0 then .ok (true, [])
    else if maxCount < expLength b then .error .abort
    else .ok (true, toBigEndian (modLength b) (if mod b ≠ 0 then base b ^ exp b % mod b else 0)) := by
  have hmod : modLength b ≤ maxCount := (le_max_left _ _).trans hlength
  have hbase : baseLength b ≤ maxCount := (le_max_right _ _).trans hlength
  unfold modexp
  rw [parse_word, ok_bind, parse_word, ok_bind, parse_word, ok_bind]
  rw [show declared b 0 32 = baseLength b from rfl, show declared b 32 32 = expLength b from rfl,
    show declared b 64 32 = modLength b from rfl, throwIf_neg (not_lt.2 hmod), ok_bind,
    throwIf_neg (not_lt.2 hbase), ok_bind]
  split
  · rfl
  · rcases Nat.lt_or_ge maxCount (expLength b) with hexp | hexp
    · rw [if_pos hexp]
      unfold throwIf
      rw [if_pos hexp]
      rfl
    · rw [if_neg (not_lt.2 hexp), throwIf_neg (not_lt.2 hexp), ok_bind, parse_eq hbase, ok_bind, parse_eq hexp,
        ok_bind, parse_eq hmod, ok_bind]
      rfl

/-- An input whose price can be paid is executed as it should exactly if it declares no exponent that is too
long for the memory, unless base and modulus have no length. -/
theorem modexp_iff {p : ℕ} (hprice : modexpPrice b = .ok p) (hp : p ≤ 2 ^ 63 - 1) :
    (Computes b ∧ p = price b) ↔ (modLength b = 0 ∧ baseLength b = 0) ∨ expLength b ≤ maxCount := by
  have hpb : p = price b := by
    rw [modexpPrice_eq] at hprice
    exact (Except.ok.inj hprice).symm
  have hcode := modexp_eq (length_le_of_price (hpb ▸ hp))
  constructor
  · rintro ⟨⟨out, hout, -⟩, -⟩
    by_contra hnot
    rw [not_or, not_le] at hnot
    rw [hcode, if_neg hnot.1, if_pos hnot.2] at hout
    cases hout
  · intro hcond
    refine ⟨?_, hpb⟩
    by_cases hempty : modLength b = 0 ∧ baseLength b = 0
    · refine ⟨[], ?_, hempty.1.symm, ?_⟩
      · rw [hcode, if_pos hempty]
      · have hmod : mod b = 0 := by
          have hlt : mod b < 256 ^ modLength b := declared_lt
          rw [hempty.1, pow_zero] at hlt
          omega
        rw [if_pos hmod]
        rfl
    · have hexp : ¬maxCount < expLength b := not_lt.2 (hcond.resolve_left hempty)
      refine ⟨toBigEndian (modLength b) (if mod b ≠ 0 then base b ^ exp b % mod b else 0), ?_,
        length_toBigEndian _ _, ?_⟩
      · rw [hcode, if_neg hempty, if_neg hexp]
      · rw [fromBigEndian_toBigEndian]
        by_cases hmod : mod b = 0
        · rw [if_neg (not_not.2 hmod), if_pos hmod, Nat.zero_mod]
        · rw [if_pos hmod, if_neg hmod]
          have hlt : mod b < 256 ^ modLength b := declared_lt
          exact Nat.mod_eq_of_lt ((Nat.mod_lt _ (Nat.pos_of_ne_zero hmod)).trans hlt)

end

/-! ## Examples -/

/-- `3 ^ 2 mod 5`, in a byte each. -/
def square : Bytes :=
  toBigEndian 32 1 ++ toBigEndian 32 1 ++ toBigEndian 32 1 ++ [3, 2, 5]

theorem modexp_square : Computes square ∧ 0 = price square :=
  (modexp_iff (b := square) (p := 0) (by decide) (by decide)).2 (.inr (by decide))

/-- No base to speak of, no modulus, and an exponent of `2 ^ 61` bytes. -/
def longExponent : Bytes := toBigEndian 32 1 ++ toBigEndian 32 (2 ^ 61) ++ toBigEndian 32 0

theorem modexp_aborts :
    ∃ p, modexpPrice longExponent = .ok p ∧ p ≤ 2 ^ 63 - 1 ∧ modexp longExponent = .error .abort :=
  ⟨8 * (2 ^ 61 - 32) / 20, by decide, by decide, by decide⟩

end Precompiled

end Petrachor
