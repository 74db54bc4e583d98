import Petrachor.BlockHeader
import Petrachor.Transaction

/-!
# The seal engine

Difficulty, stake and signatures of a header (`Ethash`), and the checks on a transaction that the
block it stands in decides. The stake of a sealer is what a balance retriever reports for it 255
blocks before the parent.
-/

namespace Petrachor

/-- The parameters of the chain that the modelled checks read. -/
structure ChainOperationParams where
  maximumExtraDataSize : U256
  accountStartNonce : U256
  tieBreakingGas : Bool
  minGasLimit : U256
  maxGasLimit : U256
  gasLimitBoundDivisor : U256
  homesteadForkBlock : U256
  EIP158ForkBlock : U256
  byzantiumForkBlock : U256
  constantinopleForkBlock : U256
  experimentalForkBlock : U256
  istanbulForkBlock : U256
  minimumDifficulty : U256
  difficultyBoundDivisor : U256
  targetBlockInterval : U256
  allowFutureBlocks : Bool
  chainID : U256

def ChainOperationParams.scheduleForBlockNumber (p : ChainOperationParams) (n : U256) :
    EVMSchedule :=
  if p.istanbulForkBlock ≤ n then IstanbulSchedule
  else if p.constantinopleForkBlock ≤ n then ConstantinopleSchedule
  else ByzantiumSchedule

/-- `BalanceRetriever`: the balance of an account after the block of a number. What is no
`dev::Exception` gets through it. -/
abbrev BalanceRetriever := Address → ℕ → Except Exception U256

/-! ## Transactions in blocks -/

namespace SealEngineFace

def verifyTransaction (p : ChainOperationParams) (ir : ImportRequirements) (t : Transaction)
    (header : BlockHeader) : Except Exception Unit := do
  let number := U256.ofInt header.number
  throwIf (ir.has .TransactionSignatures ∧ number < p.EIP158ForkBlock) .InvalidSignature
  throwIf (ir.has .TransactionSignatures ∧ number < p.constantinopleForkBlock ∧ t.hasZeroSignature)
    .InvalidSignature
  throwIf (ir.has .TransactionBasic ∧ p.constantinopleForkBlock ≤ number ∧ t.hasZeroSignature ∧
    (t.value ≠ 0 ∨ t.gasPrice ≠ 0 ∨ t.nonce ≠ 0)) .InvalidZeroSignatureTransaction
  (if p.homesteadForkBlock ≤ number ∧ ir.has .TransactionSignatures ∧ t.hasSignature then
    t.checkLowS else .ok ())

end SealEngineFace

namespace Ethash

def verifyTransaction (p : ChainOperationParams) (ir : ImportRequirements) (t : Transaction)
    (header : BlockHeader) (startGasUsed : U256) : Except Exception Unit := do
  SealEngineFace.verifyTransaction p ir t header
  throwIf (ir.has .TransactionBasic ∧
    t.gas.toNat < t.baseGasRequired (p.scheduleForBlockNumber (U256.ofInt header.number)))
    .OutOfGasIntrinsic
  throwIf (header.gasLimit.toNat < startGasUsed.toNat + t.gas.toNat)
    (.BlockGasLimitReached (header.gasLimit - startGasUsed).toNat t.gas.toNat)

/-! ## Fields of the seal -/

def PublicKeyField : ℕ := 0
def StakeModifierField : ℕ := 1
def StakeSignatureField : ℕ := 2
def BlockSignatureField : ℕ := 3

def publicKey (h : BlockHeader) : Except Exception G2 := h.sealPoint 96 PublicKeyField
def stakeModifier (h : BlockHeader) : Except Exception H256 := h.sealHash StakeModifierField
def stakeSignature (h : BlockHeader) : Except Exception G1 := h.sealPoint 48 StakeSignatureField
def blockSignature (h : BlockHeader) : Except Exception G1 := h.sealPoint 48 BlockSignatureField

def computeChildStakeModifier (c : Crypto) (parentStakeModifier : H256) (pub : G2) (sig : G1) :
    H256 :=
  c.sha3 (asBytes 32 parentStakeModifier ++ asBytes 96 pub ++ asBytes 48 sig)

def computeStakeMessage (c : Crypto) (modifier : H256) (timestamp : ℤ) : H256 :=
  c.sha3 (asBytes 32 modifier ++ asBytes 32 (U256.ofInt timestamp))

def computeStakeSignatureHash (c : Crypto) (sig : G1) : H256 := c.sha3 (asBytes 48 sig)

/-- The bound of the stake signature's hash; the product wraps. -/
def boundary (difficulty balance : U256) : H256 :=
  if difficulty = 0 then 0 else BitVec.ofNat 256 (2 ^ 256 / difficulty.toNat * balance.toNat)

def getAgedBalance (a : Address) (bn : ℕ) (balanceRetriever : BalanceRetriever) :
    Except Exception U256 :=
  balanceRetriever a (if 255 < bn then bn - 255 else 0)

/-- The part of `verifySeal` that needs the parent. -/
def verifyStake (c : Crypto) (h parent : BlockHeader) (balanceRetriever : BalanceRetriever)
    (pub : G2) (stakeSig : G1) : Except Exception Bool := do
  let minterBalance ← getAgedBalance (c.publicToAddress pub) (toUnsigned parent.number)
    balanceRetriever
  let parentModifier ← stakeModifier parent
  let modifier ← stakeModifier h
  return computeStakeSignatureHash c stakeSig ≤ boundary h.difficulty minterBalance &&
    modifier = computeChildStakeModifier c parentModifier pub stakeSig &&
    c.verify pub stakeSig (computeStakeMessage c parentModifier h.timestamp)

/-- Without a parent only the block's signature is checked. -/
def verifySeal (c : Crypto) (h parent : BlockHeader) (balanceRetriever : BalanceRetriever) :
    Except Exception Bool := do
  let stakeSig ← stakeSignature h
  let pub ← publicKey h
  let blockSig ← blockSignature h
  let blockSignatureVerified := c.verify pub blockSig (h.hash c .WithoutSeal)
  (if parent.isSet then
    if h.number ≠ parent.number + 1 then .ok false
    else do return (← verifyStake c h parent balanceRetriever pub stakeSig) && blockSignatureVerified
  else .ok blockSignatureVerified)

/-! ## Difficulty and gas limit -/

/-- A division of the number library. -/
def div (a b : U256) : Except Exception U256 :=
  if b = 0 then .error .overflowError else .ok (a / b)

/-- `calculateDifficulty`; the quotient is rounded towards zero. -/
def calculateDifficulty (p : ChainOperationParams) (h parent : BlockHeader) :
    Except Exception U256 := do
  throwIf (h.number = 0) .GenesisBlockCannotBeCalculated
  let parentDifficulty : ℤ := parent.difficulty.toNat
  let adjFactor : ℤ := max (p.targetBlockInterval.toNat - (h.timestamp - parent.timestamp)) (-99 * 128)
  throwIf (p.difficultyBoundDivisor = 0) .overflowError
  let target := parentDifficulty +
    (parentDifficulty * adjFactor).tdiv (p.difficultyBoundDivisor.toNat : ℤ)
  return BitVec.ofInt 256 (min (max (p.minimumDifficulty.toNat : ℤ) target) (2 ^ 256 - 1))

def c_gasFloorTarget : U256 := 3141562

def childGasLimit (p : ChainOperationParams) (h : BlockHeader) : Except Exception U256 :=
  if h.gasLimit < c_gasFloorTarget then do
    let raised := h.gasLimit + (← div h.gasLimit p.gasLimitBoundDivisor) - 1
    return if raised < c_gasFloorTarget then raised else c_gasFloorTarget
  else do
    let lowered := h.gasLimit - (← div h.gasLimit p.gasLimitBoundDivisor) + 1 +
      (← div (h.gasUsed * 6 / 5) p.gasLimitBoundDivisor)
    return if c_gasFloorTarget < lowered then lowered else c_gasFloorTarget

def populateFromParent (p : ChainOperationParams) (h parent : BlockHeader) :
    Except Exception BlockHeader := do
  return (h.populateFromParent parent).setGasLimit (← childGasLimit p parent)

/-! ## Verification -/

/-- The checks on the header alone. -/
def verifyFields (p : ChainOperationParams) (h : BlockHeader) : Except Exception Unit := do
  throwIf (h.difficulty < p.minimumDifficulty) .InvalidDifficulty
  throwIf (h.gasLimit < p.minGasLimit) .InvalidGasLimit
  throwIf (p.maxGasLimit < h.gasLimit) .InvalidGasLimit
  throwIf (h.number ≠ 0 ∧ p.maximumExtraDataSize.toNat < h.extraData.length) .ExtraDataTooBig

/-- Difficulty and gas limit against the parent's. -/
def verifyAgainstParent (p : ChainOperationParams) (h parent : BlockHeader) :
    Except Exception Unit := do
  let expected ← calculateDifficulty p h parent
  throwIf (h.difficulty ≠ expected) .InvalidDifficulty
  let margin ← div parent.gasLimit p.gasLimitBoundDivisor
  throwIf (h.gasLimit < p.minGasLimit ∨ p.maxGasLimit < h.gasLimit ∨
    h.gasLimit ≤ parent.gasLimit - margin ∨ parent.gasLimit + margin ≤ h.gasLimit) .InvalidGasLimit

/-- The seal is checked under `CheckEverything` and `QuickNonce`, and never on a genesis block. -/
def checksSeal (s : Strictness) (h : BlockHeader) : Bool :=
  (s = .CheckEverything ∨ s = .QuickNonce) ∧ h.parentHash ≠ 0

def verify (c : Crypto) (p : ChainOperationParams) (s : Strictness) (h : BlockHeader)
    (balanceRetriever : BalanceRetriever) (parent : BlockHeader) (block : Option BlockRLP) :
    Except Exception Unit := do
  h.verify c s parent block
  (if s ≠ .CheckNothingNew then verifyFields p h else .ok ())
  (if parent.isSet then verifyAgainstParent p h parent else .ok ())
  (if checksSeal s h then do
    throwIf (!(← verifySeal c h parent balanceRetriever)) .InvalidBlockNonce
  else .ok ())

theorem verify_eq_ok {c : Crypto} {p : ChainOperationParams} {s : Strictness} {h parent : BlockHeader}
    {balanceRetriever : BalanceRetriever} {block : Option BlockRLP} :
    verify c p s h balanceRetriever parent block = .ok () ↔
      h.verify c s parent block = .ok () ∧ (s ≠ .CheckNothingNew → verifyFields p h = .ok ()) ∧
        (parent.isSet = true → verifyAgainstParent p h parent = .ok ()) ∧
        (checksSeal s h = true → verifySeal c h parent balanceRetriever = .ok true) := by
  unfold verify
  rw [unit_bind_eq_ok, unit_bind_eq_ok, unit_bind_eq_ok]
  refine and_congr Iff.rfl (and_congr ?_ (and_congr ?_ ?_))
  · split <;> simp_all
  · split <;> simp_all
  · split <;> simp_all [bind_eq_ok]

/-! ## Sealing -/

end Ethash

end Petrachor
