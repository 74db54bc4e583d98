import Petrachor.SealEngine

/-!
# Stake and the boundary

A seal is accepted if the hash of its stake signature does not exceed the boundary, which should grow with
the minter's balance and shrink as the difficulty grows. The product is cut to 256 bits, so it does as
long as it fits.
-/

namespace Petrachor

namespace Ethash

section

variable {c : Crypto} {h parent : BlockHeader} {br br' : BalanceRetriever} {pub : G2} {stakeSig : G1}
  {d d' b b' v v' : U256}

/-! ## The boundary -/

theorem toNat_boundary (hd : d ≠ 0) :
    (boundary d b).toNat = 2 ^ 256 / d.toNat * b.toNat % 2 ^ 256 := by
  unfold boundary
  rw [if_neg hd, BitVec.toNat_ofNat]

@[simp] theorem boundary_zero (d : U256) : boundary d 0 = 0 := by
  unfold boundary
  split <;> simp

theorem toNat_boundary_of_lt (hd : d ≠ 0) (hfits : 2 ^ 256 / d.toNat * b.toNat < 2 ^ 256) :
    (boundary d b).toNat = 2 ^ 256 / d.toNat * b.toNat := by
  rw [toNat_boundary hd, Nat.mod_eq_of_lt hfits]

theorem toNat_pos (hd : d ≠ 0) : 0 < d.toNat := by
  rcases Nat.eq_zero_or_pos d.toNat with hzero | hpos
  · exact absurd (BitVec.eq_of_toNat_eq hzero) hd
  · exact hpos

/-- More balance or less difficulty does not lower the boundary, if the product fits. -/
theorem boundary_le (hd : d ≠ 0) (hd' : d' ≠ 0) (hdd : d' ≤ d) (hbb : b ≤ b')
    (hfits : 2 ^ 256 / d'.toNat * b'.toNat < 2 ^ 256) : boundary d b ≤ boundary d' b' := by
  have hquot : 2 ^ 256 / d.toNat ≤ 2 ^ 256 / d'.toNat := Nat.div_le_div_left hdd (toNat_pos hd')
  have hprod : 2 ^ 256 / d.toNat * b.toNat ≤ 2 ^ 256 / d'.toNat * b'.toNat := Nat.mul_le_mul hquot hbb
  rw [BitVec.le_def, toNat_boundary_of_lt hd (hprod.trans_lt hfits), toNat_boundary_of_lt hd' hfits]
  exact hprod

/-- The first balance whose product does not fit has a lower boundary than the balance before it. -/
theorem exists_boundary_lt (hd : 2 ≤ d.toNat) (hwraps : 2 ^ 256 ≤ 2 ^ 256 / d.toNat * b.toNat) :
    ∃ b₁ b₂ : U256, b₁ ≤ b₂ ∧ b₂ ≤ b ∧ boundary d b₂ < boundary d b₁ := by
  obtain ⟨q, hq⟩ : ∃ q, q = 2 ^ 256 / d.toNat := ⟨_, rfl⟩
  have hd0 : d ≠ 0 := by
    rintro rfl
    exact absurd hd (by decide)
  have hqlt : q < 2 ^ 256 := hq ▸ Nat.div_lt_self (by decide) hd
  have hex : ∃ n, 2 ^ 256 ≤ q * n := ⟨b.toNat, hq ▸ hwraps⟩
  obtain ⟨n, hn⟩ : ∃ n, n = Nat.find hex := ⟨_, rfl⟩
  have hnwraps : 2 ^ 256 ≤ q * n := hn ▸ Nat.find_spec hex
  have hnb : n ≤ b.toNat := hn ▸ Nat.find_min' hex (hq ▸ hwraps)
  have hn2 : 2 ≤ n := by
    by_contra hlt
    have : q * n ≤ q * 1 := Nat.mul_le_mul_left q (by omega)
    omega
  have hbefore : q * (n - 1) < 2 ^ 256 := by
    have hmin := Nat.find_min hex (m := n - 1) (by omega)
    omega
  have hnext : q * n = q * (n - 1) + q := by
    rw [← Nat.mul_succ]
    congr 1
    omega
  have hmod : q * n % 2 ^ 256 = q * n - 2 ^ 256 := by
    rw [Nat.mod_eq_sub_mod hnwraps, Nat.mod_eq_of_lt (by omega)]
  have hpos : q ≤ q * (n - 1) := Nat.le_mul_of_pos_right q (by omega)
  have hblt := b.isLt
  refine ⟨BitVec.ofNat 256 (n - 1), BitVec.ofNat 256 n, ?_, ?_, ?_⟩
  · rw [BitVec.le_def, BitVec.toNat_ofNat, BitVec.toNat_ofNat, Nat.mod_eq_of_lt (by omega),
      Nat.mod_eq_of_lt (by omega)]
    omega
  · rw [BitVec.le_def, BitVec.toNat_ofNat, Nat.mod_eq_of_lt (by omega)]
    exact hnb
  · have hstake : ∀ m < 2 ^ 256, (boundary d (BitVec.ofNat 256 m)).toNat = q * m % 2 ^ 256 := by
      intro m hm
      rw [toNat_boundary hd0, BitVec.toNat_ofNat, Nat.mod_eq_of_lt hm, hq]
    rw [BitVec.lt_def]
    calc (boundary d (BitVec.ofNat 256 n)).toNat = q * n % 2 ^ 256 := hstake n (by omega)
      _ = q * n - 2 ^ 256 := hmod
      _ < q * (n - 1) := by omega
      _ = q * (n - 1) % 2 ^ 256 := (Nat.mod_eq_of_lt hbefore).symm
      _ = (boundary d (BitVec.ofNat 256 (n - 1))).toNat := (hstake (n - 1) (by omega)).symm

/-! ## Accepted seals -/

theorem verifyStake_eq_true : verifyStake c h parent br pub stakeSig = .ok true ↔
    ∃ balance modifier,
      getAgedBalance (c.publicToAddress pub) (toUnsigned parent.number) br = .ok balance ∧
      stakeModifier parent = .ok modifier ∧
      stakeModifier h = .ok (computeChildStakeModifier c modifier pub stakeSig) ∧
      computeStakeSignatureHash c stakeSig ≤ boundary h.difficulty balance ∧
      c.verify pub stakeSig (computeStakeMessage c modifier h.timestamp) = true := by
  unfold verifyStake
  simp only [bind_eq_ok]
  constructor
  · rintro ⟨balance, hbalance, modifier, hmodifier, child, hchild, hall⟩
    have hall := Except.ok.inj hall
    rw [Bool.and_eq_true, Bool.and_eq_true, decide_eq_true_iff, decide_eq_true_iff] at hall
    exact ⟨balance, modifier, hbalance, hmodifier, hall.1.2 ▸ hchild, hall.1.1, hall.2⟩
  · rintro ⟨balance, modifier, hbalance, hmodifier, hchild, hle, hverified⟩
    refine ⟨balance, hbalance, modifier, hmodifier, _, hchild, congrArg Except.ok ?_⟩
    rw [hverified, decide_eq_true hle, decide_eq_true rfl]
    rfl

/-- Only the stake is looked at with a balance. -/
theorem verifySeal_congr
    (hstake : ∀ stakeSig, publicKey h = .ok pub → verifyStake c h parent br pub stakeSig = .ok true →
      verifyStake c h parent br' pub stakeSig = .ok true)
    (hpub : publicKey h = .ok pub) (hseal : verifySeal c h parent br = .ok true) :
    verifySeal c h parent br' = .ok true := by
  unfold verifySeal at hseal ⊢
  rw [bind_eq_ok] at hseal
  obtain ⟨stakeSig, hsig, hseal⟩ := hseal
  rw [hpub, ok_bind, bind_eq_ok] at hseal
  obtain ⟨blockSig, hblock, hseal⟩ := hseal
  rw [hsig, ok_bind, hpub, ok_bind, hblock, ok_bind]
  dsimp only at hseal ⊢
  by_cases hset : parent.isSet = true
  · rw [if_pos hset] at hseal ⊢
    by_cases hnumber : h.number ≠ parent.number + 1
    · rw [if_pos hnumber] at hseal
      cases hseal
    · rw [if_neg hnumber, bind_eq_ok] at hseal
      obtain ⟨ok, hok, hand⟩ := hseal
      have hand := Except.ok.inj hand
      rw [Bool.and_eq_true] at hand
      rw [hand.1] at hok
      rw [if_neg hnumber, hstake stakeSig hpub hok, ok_bind, hand.2]
      rfl
  · rw [if_neg hset] at hseal ⊢
    exact hseal

/-- The hash of the stake signature of a seal that was accepted with a balance. -/
theorem stakeSignatureHash_le (hset : parent.isSet = true) (hpub : publicKey h = .ok pub)
    (hsig : stakeSignature h = .ok stakeSig)
    (hbalance : getAgedBalance (c.publicToAddress pub) (toUnsigned parent.number) br = .ok b)
    (hseal : verifySeal c h parent br = .ok true) :
    computeStakeSignatureHash c stakeSig ≤ boundary h.difficulty b := by
  unfold verifySeal at hseal
  rw [hsig, ok_bind, hpub, ok_bind, bind_eq_ok] at hseal
  obtain ⟨blockSig, -, hseal⟩ := hseal
  simp only [hset, if_true] at hseal
  split at hseal
  · cases hseal
  · rw [bind_eq_ok] at hseal
    obtain ⟨ok, hok, hand⟩ := hseal
    have hand := Except.ok.inj hand
    rw [Bool.and_eq_true] at hand
    rw [hand.1, verifyStake_eq_true] at hok
    obtain ⟨balance, modifier, hbalance', -, -, hle, -⟩ := hok
    rw [hbalance] at hbalance'
    rw [Except.ok.inj hbalance']
    exact hle

/-- A seal is accepted with every balance that has no lower boundary. -/
theorem verifySeal_of_boundary_le (hpub : publicKey h = .ok pub)
    (hbalance : getAgedBalance (c.publicToAddress pub) (toUnsigned parent.number) br = .ok v)
    (hbalance' : getAgedBalance (c.publicToAddress pub) (toUnsigned parent.number) br' = .ok v')
    (hle : boundary h.difficulty v ≤ boundary h.difficulty v')
    (hseal : verifySeal c h parent br = .ok true) : verifySeal c h parent br' = .ok true := by
  refine verifySeal_congr ?_ hpub hseal
  intro stakeSig _ hstake
  rw [verifyStake_eq_true] at hstake ⊢
  obtain ⟨balance, modifier, hb, hmodifier, hchild, hmeets, hverified⟩ := hstake
  rw [hbalance] at hb
  have hmeets : computeStakeSignatureHash c stakeSig ≤ boundary h.difficulty v' := by
    rw [← Except.ok.inj hb] at hmeets
    exact BitVec.le_trans hmeets hle
  exact ⟨v', modifier, hbalance', hmodifier, hchild, hmeets, hverified⟩

end

/-! ## Monotonicity -/

/-- Up to a balance, and from a difficulty on, the boundary grows with the balance and shrinks as the
difficulty grows; a seal that is accepted is accepted with more balance, and without balance only if the
hash of its stake signature is zero. -/
structure StakeMonotone (d b : U256) : Prop where
  balance : ∀ b₁ b₂, b₁ ≤ b₂ → b₂ ≤ b → boundary d b₁ ≤ boundary d b₂
  difficulty : ∀ d₁ d₂, d ≤ d₁ → d₁ ≤ d₂ → boundary d₂ b ≤ boundary d₁ b
  accepted : ∀ c h parent br br' pub b₁ b₂, h.difficulty = d → publicKey h = .ok pub →
    getAgedBalance (c.publicToAddress pub) (toUnsigned parent.number) br = .ok b₁ →
    getAgedBalance (c.publicToAddress pub) (toUnsigned parent.number) br' = .ok b₂ → b₁ ≤ b₂ → b₂ ≤ b →
    verifySeal c h parent br = .ok true → verifySeal c h parent br' = .ok true
  zero : ∀ c h parent br pub stakeSig, h.difficulty = d → parent.isSet = true → publicKey h = .ok pub →
    stakeSignature h = .ok stakeSig →
    getAgedBalance (c.publicToAddress pub) (toUnsigned parent.number) br = .ok 0 →
    verifySeal c h parent br = .ok true → computeStakeSignatureHash c stakeSig = 0

/-- The stake of a minter counts as it should exactly as far as the product is no more than 256 bits. -/
theorem stakeMonotone_iff {d : U256} (hd : d ≠ 0) (b : U256) :
    StakeMonotone d b ↔ 2 ^ 256 / d.toNat * b.toNat < 2 ^ 256 := by
  constructor
  · intro hmono
    by_contra hwraps
    rw [not_lt] at hwraps
    rcases Nat.lt_or_ge 1 d.toNat with htwo | hone
    · obtain ⟨b₁, b₂, hle, hb, hlt⟩ := exists_boundary_lt htwo hwraps
      exact absurd (hmono.balance b₁ b₂ hle hb) (BitVec.not_le.2 hlt)
    · -- at difficulty one every product is cut to zero, at the highest none is
      have hd1 : d = 1 := by
        have := toNat_pos hd
        exact BitVec.eq_of_toNat_eq (show d.toNat = 1 by omega)
      subst hd1
      have hle := hmono.difficulty 1 (BitVec.allOnes 256) (BitVec.le_refl _) (BitVec.le_def.2 (by decide))
      rw [BitVec.le_def, toNat_boundary (by decide), toNat_boundary (by decide)] at hle
      have hq : 2 ^ 256 / (BitVec.allOnes 256).toNat = 1 := by decide
      rw [hq, Nat.one_mul, Nat.mod_eq_of_lt b.isLt, show 2 ^ 256 / (1 : U256).toNat = 2 ^ 256 from rfl,
        Nat.mul_mod_right] at hle
      rw [Nat.le_zero.1 hle] at hwraps
      omega
  · intro hfits
    have hbalance : ∀ b₁ b₂, b₁ ≤ b₂ → b₂ ≤ b → boundary d b₁ ≤ boundary d b₂ := by
      intro b₁ b₂ hle hb
      refine boundary_le hd hd (BitVec.le_refl d) hle ?_
      calc 2 ^ 256 / d.toNat * b₂.toNat ≤ 2 ^ 256 / d.toNat * b.toNat := Nat.mul_le_mul_left _ hb
        _ < 2 ^ 256 := hfits
    refine ⟨hbalance, ?_, ?_, ?_⟩
    · intro d₁ d₂ hd₁ hle
      have hne : ∀ e : U256, d ≤ e → e ≠ 0 := by
        rintro e he rfl
        have := toNat_pos hd
        have hzero : d.toNat ≤ 0 := he
        omega
      refine boundary_le (hne d₂ (BitVec.le_trans hd₁ hle)) (hne d₁ hd₁) hle (BitVec.le_refl b) ?_
      calc 2 ^ 256 / d₁.toNat * b.toNat ≤ 2 ^ 256 / d.toNat * b.toNat :=
            Nat.mul_le_mul_right _ (Nat.div_le_div_left hd₁ (toNat_pos hd))
        _ < 2 ^ 256 := hfits
    · rintro c h parent br br' pub b₁ b₂ rfl hpub hb₁ hb₂ hle hb hseal
      exact verifySeal_of_boundary_le hpub hb₁ hb₂ (hbalance b₁ b₂ hle hb) hseal
    · intro c h parent br pub stakeSig _ hset hpub hsig hzero hseal
      have hle := stakeSignatureHash_le hset hpub hsig hzero hseal
      rw [boundary_zero] at hle
      exact BitVec.eq_of_toNat_eq (Nat.le_zero.1 hle)

theorem stakeMonotone_two : StakeMonotone 2 1 := (stakeMonotone_iff (d := 2) (by decide) 1).2 (by decide)

/-- Twice the balance, and the boundary is zero. -/
theorem stake_not_monotone : (1 : U256) ≤ 2 ∧ ¬boundary 2 1 ≤ boundary 2 2 := by
  constructor
  · decide
  · decide

end Ethash

end Petrachor
