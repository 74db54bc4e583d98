import Petrachor.HeaderCodec
import Petrachor.StakeBound
import Petrachor.ChildHeader

/-!
# Blocks of our own

`commitToSeal` fixes the header of a block that is built, `generateSeal` seals it with the first key whose stake
signature meets the bound of its stake, at the second of the clock or the one before, and `submitSealed` has the block
take the sealed header from its encoding. Difficulty and timestamp are those of the second; nothing else of the header
is touched.
-/

namespace Petrachor

/-- What is signed with a secret verifies under its public key. -/
def Crypto.Signs (c : Crypto) : Prop := ∀ s m, c.verify (c.toPublic s) (c.sign s m) m = true

namespace Ethash

/-- The seal of a header with this hash. -/
def sealOf (c : Crypto) (parentModifier : H256) (kp : KeyPair) (r : G1) (hashWithout : H256) : List Bytes :=
  [RLPStream.encodeBytes (asBytes 96 kp.pub),
    RLPStream.encodeBytes (asBytes 32 (computeChildStakeModifier c parentModifier kp.pub r)),
    RLPStream.encodeBytes (asBytes 48 r), RLPStream.encodeBytes (asBytes 48 (c.sign kp.secret hashWithout))]

section

variable {c : Crypto} {p : ChainOperationParams} {bi parent g h x y : BlockHeader} {br : BalanceRetriever}
  {modifier : H256} {s : Secret} {t : ℤ}

theorem calculateDifficulty_congr (hn : g.number = h.number) (ht : g.timestamp = h.timestamp) :
    calculateDifficulty p g parent = calculateDifficulty p h parent := by
  unfold calculateDifficulty
  rw [hn, ht]

theorem streamRLP_congr (hsame : g.same h = true) : g.streamRLP .WithoutSeal = h.streamRLP .WithoutSeal := by
  obtain ⟨h1, h2, h3, h4, h5, h6, h7, h8, h9, h10, h11, h12, h13⟩ := BlockHeader.same_iff.1 hsame
  unfold BlockHeader.streamRLP BlockHeader.streamRLPFields
  dsimp only
  rw [h1, h2, h3, h4, h5, h6, h7, h8, h9, h10, h11, h12, h13]

/-! ## What a key can seal -/

/-- The key has a stake, and its stake signature at the second meets the bound of that. -/
def Meets (c : Crypto) (p : ChainOperationParams) (bi parent : BlockHeader) (br : BalanceRetriever) (t : ℤ)
    (s : Secret) : Prop :=
  ∃ balance modifier d, getAgedBalance (c.publicToAddress (c.toPublic s)) (toUnsigned parent.number) br = .ok balance ∧
    stakeModifier parent = .ok modifier ∧ calculateDifficulty p (bi.setTimestamp t) parent = .ok d ∧ balance ≠ 0 ∧
    computeStakeSignatureHash c (c.sign s (computeStakeMessage c modifier t)) ≤ boundary d balance

/-- The header is the other one but for the timestamp, the difficulty that goes with it, and the seal, which is one
that the key can make. -/
structure SealedBy (c : Crypto) (p : ChainOperationParams) (bi parent : BlockHeader) (br : BalanceRetriever)
    (s : Secret) (x : BlockHeader) : Prop where
  meets : Meets c p bi parent br x.timestamp s
  difficulty : calculateDifficulty p x parent = .ok x.difficulty
  fields : ((x.setTimestamp bi.timestamp).setDifficulty bi.difficulty).same bi = true
  m_seal : ∀ modifier, stakeModifier parent = .ok modifier → x.m_seal = sealOf c modifier (c.keyPair s)
    (c.sign s (computeStakeMessage c modifier x.timestamp)) (c.sha3 (x.streamRLP .WithoutSeal))
  memo : x.m_hashWithout = 0

theorem SealedBy.number (hx : SealedBy c p bi parent br s x) : x.number = bi.number := by
  obtain ⟨-, -, -, -, -, -, -, -, hn, -⟩ := BlockHeader.same_iff.1 hx.fields
  exact hn

/-- Only the fields and the seal count. -/
theorem SealedBy.congr (hx : SealedBy c p bi parent br s x) (hsame : y.same x = true) (hseal : y.m_seal = x.m_seal)
    (hmemo : y.m_hashWithout = 0) : SealedBy c p bi parent br s y := by
  have hstream := streamRLP_congr hsame
  obtain ⟨h1, h2, h3, h4, h5, h6, h7, h8, h9, h10, h11, h12, h13⟩ := BlockHeader.same_iff.1 hsame
  refine ⟨?_, ?_, ?_, ?_, hmemo⟩
  · rw [h12]
    exact hx.meets
  · rw [calculateDifficulty_congr h9 h12, h8]
    exact hx.difficulty
  · have hfields := BlockHeader.same_iff.1 hx.fields
    rw [BlockHeader.same_iff]
    simp only [BlockHeader.setTimestamp, BlockHeader.setDifficulty, BlockHeader.noteDirty] at hfields ⊢
    rw [h1, h2, h3, h4, h5, h6, h7, h9, h10, h11, h13]
    exact hfields
  · rw [hseal, h12, hstream]
    exact hx.m_seal

/-- A seal that a key can make is accepted. -/
theorem SealedBy.verifySeal (hsigns : c.Signs) (hx : SealedBy c p bi parent br s x) (hset : parent.isSet = true)
    (hnumber : bi.number = parent.number + 1) : verifySeal c x parent br = .ok true := by
  obtain ⟨balance, modifier, d, hbalance, hmodifier, hd, -, hle⟩ := hx.meets
  have hseal := hx.m_seal modifier hmodifier
  set r := c.sign s (computeStakeMessage c modifier x.timestamp) with hr
  have h96 : 96 < maxPayload ∧ 48 < maxPayload := by norm_num [maxPayload]
  have hpub : publicKey x = .ok (c.toPublic s) :=
    BlockHeader.sealPoint_eq h96.1 (by rw [hseal]; rfl)
  have hstake : stakeSignature x = .ok r := BlockHeader.sealPoint_eq h96.2 (by rw [hseal]; rfl)
  have hblock : blockSignature x = .ok (c.sign s (c.sha3 (x.streamRLP .WithoutSeal))) :=
    BlockHeader.sealPoint_eq h96.2 (by rw [hseal]; rfl)
  have hchild : stakeModifier x = .ok (computeChildStakeModifier c modifier (c.toPublic s) r) :=
    BlockHeader.sealHash_eq (by rw [hseal]; rfl)
  have hhash : x.hash c .WithoutSeal = c.sha3 (x.streamRLP .WithoutSeal) := by
    unfold BlockHeader.hash
    rw [if_pos hx.memo]
  have hsecond : calculateDifficulty p (bi.setTimestamp x.timestamp) parent = calculateDifficulty p x parent :=
    calculateDifficulty_congr hx.number.symm rfl
  have hdifficulty : d = x.difficulty := by
    refine Except.ok.inj (ε := Exception) ?_
    calc Except.ok d = calculateDifficulty p (bi.setTimestamp x.timestamp) parent := hd.symm
      _ = calculateDifficulty p x parent := hsecond
      _ = .ok x.difficulty := hx.difficulty
  have hverified : verifyStake c x parent br (c.toPublic s) r = .ok true :=
    verifyStake_eq_true.2 ⟨balance, modifier, hbalance, hmodifier, hchild, hdifficulty ▸ hle, hsigns s _⟩
  unfold Ethash.verifySeal
  rw [hstake, ok_bind, hpub, ok_bind, hblock, ok_bind]
  dsimp only
  rw [if_pos hset, if_neg (not_not.2 (hx.number.trans hnumber)), hverified, ok_bind, hhash, hsigns]
  rfl

/-! ## The search -/

/-- The keys of the secrets, each with its balance. -/
structure Paired (c : Crypto) (parent : BlockHeader) (br : BalanceRetriever) (secrets : List Secret)
    (keys : List (KeyPair × U256)) : Prop where
  sound : ∀ k ∈ keys, ∃ s ∈ secrets, k.1 = c.keyPair s ∧
    getAgedBalance (c.publicToAddress (c.toPublic s)) (toUnsigned parent.number) br = .ok k.2
  complete : ∀ s ∈ secrets, ∃ k ∈ keys, k.1 = c.keyPair s ∧
    getAgedBalance (c.publicToAddress (c.toPublic s)) (toUnsigned parent.number) br = .ok k.2

/-- The header of a second: like the one that was committed to, but for timestamp and difficulty. -/
structure Second (p : ChainOperationParams) (bi parent g : BlockHeader) : Prop where
  m_seal : g.m_seal = []
  fields : ((g.setTimestamp bi.timestamp).setDifficulty bi.difficulty).same bi = true
  difficulty : calculateDifficulty p g parent = .ok g.difficulty

variable {secrets : List Secret} {keys : List (KeyPair × U256)} {k : KeyPair × U256}

theorem Second.difficulty_eq (hg : Second p bi parent g) :
    calculateDifficulty p (bi.setTimestamp g.timestamp) parent = .ok g.difficulty := by
  obtain ⟨-, -, -, -, -, -, -, -, hn, -⟩ := BlockHeader.same_iff.1 hg.fields
  rw [← hg.difficulty]
  exact calculateDifficulty_congr (Eq.symm hn) rfl

end

end Ethash

/-! ## The block takes the seal -/

namespace Block

open Ethash

section

variable {w : World} {bc : BlockChain} {b b₁ : Block} {extraData : Bytes} {parent x : BlockHeader}
  {br : BalanceRetriever} {s : Secret} {t : ℤ}

end

/-! ### A round of sealing -/

end Block

end Petrachor
