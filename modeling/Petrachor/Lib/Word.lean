import Mathlib.Data.BitVec
import Mathlib.Tactic

/-!
# Two's complement words

What masks and shifts on a word of `w` bits mean for the number it spells.
-/

namespace Word

variable {w : ℕ}

/-- Setting all bits from `t` on, or clearing them, as the bit `t` says, extends the sign of the low
`t + 1` bits. -/
theorem extend_eq (x : BitVec w) {t : ℕ} (ht : t < w) :
    (if x.getLsbD t then x ||| ~~~(1#w <<< t - 1#w) else x &&& (1#w <<< t - 1#w)) =
      (x.setWidth (t + 1)).signExtend w := by
  have hmask : ∀ i < w, (1#w <<< t - 1#w).getLsbD i = decide (i < t) := by
    intro i hi
    have hpow : 1#w <<< t - 1#w = BitVec.ofNat w (2 ^ t - 1) := by
      apply BitVec.eq_of_toNat_eq
      have h2 : 2 ^ t < 2 ^ w := Nat.pow_lt_pow_right (by omega) ht
      have h1 : 1 ≤ 2 ^ t := Nat.one_le_two_pow
      have hw : 1 < 2 ^ w := by omega
      have hone : (1#w).toNat = 1 := by rw [BitVec.toNat_ofNat, Nat.mod_eq_of_lt hw]
      have hshift : (1#w <<< t).toNat = 2 ^ t := by
        rw [BitVec.toNat_shiftLeft, hone, Nat.shiftLeft_eq, Nat.one_mul, Nat.mod_eq_of_lt h2]
      calc (1#w <<< t - 1#w).toNat = (2 ^ w - 1 + 2 ^ t) % 2 ^ w := by rw [BitVec.toNat_sub, hshift, hone]
        _ = (2 ^ w + (2 ^ t - 1)) % 2 ^ w := by rw [show 2 ^ w - 1 + 2 ^ t = 2 ^ w + (2 ^ t - 1) by omega]
        _ = (2 ^ t - 1) % 2 ^ w := Nat.add_mod_left _ _
        _ = (BitVec.ofNat w (2 ^ t - 1)).toNat := (BitVec.toNat_ofNat _ _).symm
    rw [hpow, BitVec.getLsbD_ofNat, Nat.testBit_two_pow_sub_one]
    simp [hi]
  have hmsb : (x.setWidth (t + 1)).msb = x.getLsbD t := by
    rw [BitVec.msb_eq_getLsbD_last, BitVec.getLsbD_setWidth]
    simp
  apply BitVec.eq_of_getLsbD_eq
  intro i hi
  rw [BitVec.getLsbD_signExtend, hmsb, BitVec.getLsbD_setWidth]
  cases hbit : x.getLsbD t with
  | true =>
    rw [if_pos rfl, BitVec.getLsbD_or, BitVec.getLsbD_not, hmask i hi]
    rcases Nat.lt_trichotomy i t with h | rfl | h
    · simp [hi, h, show i < t + 1 by omega]
    · simp [hi, hbit]
    · simp [hi, show ¬i < t by omega, show ¬i < t + 1 by omega]
  | false =>
    rw [if_neg (by decide), BitVec.getLsbD_and, hmask i hi]
    rcases Nat.lt_trichotomy i t with h | rfl | h
    · simp [hi, h, show i < t + 1 by omega]
    · simp [hbit]
    · simp [show ¬i < t by omega, show ¬i < t + 1 by omega]

/-- Setting the bits a shift to the right has emptied, if the sign bit is set, divides the signed
number, rounding down. -/
theorem shift_eq (x : BitVec w) {n : ℕ} (hn : n < w) :
    (if x.msb then x >>> n ||| BitVec.allOnes w <<< (w - n) else x >>> n) =
      BitVec.ofInt w (x.toInt / 2 ^ n) := by
  have hs : BitVec.ofInt w (x.toInt / 2 ^ n) = x.sshiftRight n := by
    rw [BitVec.sshiftRight, Int.shiftRight_eq_div_pow]
    norm_cast
  rw [hs]
  apply BitVec.eq_of_getLsbD_eq
  intro i hi
  rw [BitVec.getLsbD_sshiftRight]
  cases hm : x.msb with
  | true =>
    rw [if_pos rfl, BitVec.getLsbD_or, BitVec.getLsbD_ushiftRight, BitVec.getLsbD_shiftLeft,
      BitVec.getLsbD_allOnes]
    by_cases h : n + i < w
    · simp [hi, h, show i < w - n by omega, show ¬w ≤ i by omega]
    · have hx : x.getLsbD (n + i) = false := BitVec.getLsbD_of_ge _ _ (by omega)
      simp [hi, h, hx, show ¬i < w - n by omega, show ¬w ≤ i by omega, show i - (w - n) < w by omega]
  | false =>
    rw [if_neg (by decide), BitVec.getLsbD_ushiftRight]
    by_cases h : n + i < w
    · simp [h, show ¬w ≤ i by omega]
    · have hx : x.getLsbD (n + i) = false := BitVec.getLsbD_of_ge _ _ (by omega)
      simp [h, hx]

/-! ## Exponentiation by squaring -/

/-- A power by the bits of the exponent, lowest first. -/
theorem pow_step {M : Type*} [CommMonoid M] (b r : M) (e : ℕ) :
    (if e % 2 = 1 then r * b else r) * (b * b) ^ (e / 2) = r * b ^ e := by
  have hsq : (b * b) ^ (e / 2) = b ^ (2 * (e / 2)) := by rw [← pow_two, ← pow_mul]
  rw [hsq]
  split
  · rename_i h
    rw [mul_assoc, ← pow_succ', show 2 * (e / 2) + 1 = e by omega]
  · rw [show 2 * (e / 2) = e by omega]

theorem pow_eq_ofNat (b : BitVec w) (n : ℕ) : b ^ n = BitVec.ofNat w (b.toNat ^ n) := by
  induction n with
  | zero => rw [pow_zero, pow_zero]; rfl
  | succ n ih => rw [pow_succ, pow_succ, ih, BitVec.ofNat_mul, BitVec.ofNat_toNat, BitVec.setWidth_eq]

end Word
