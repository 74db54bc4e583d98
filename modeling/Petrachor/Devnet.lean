import Petrachor.HeaderRead
import Petrachor.BlockChain.EmptyBlock

/-!
# A development network

A world to build chains in: every signature verifies, the hash of a string is its last 32 bytes, and
two authors mine empty blocks for a reward of one. A block is given by the way it was mined from the
genesis block: its hash, which its block signature spells, its author, the seconds behind its parent,
and its stake signature. Within the target interval the difficulty is the parent's times the seconds
that are left of it.
-/

namespace Petrachor

namespace Devnet

def crypto : Crypto where
  sha3 b := BitVec.ofNat 256 (fromBigEndian b)
  toPublic s := s.setWidth 768
  sign _ m := m.setWidth 384
  verify _ _ _ := true

/-- The seconds a block may take without a loss of difficulty. -/
def interval : ℕ := 2 ^ 30

def params : ChainOperationParams :=
  { maximumExtraDataSize := 32, accountStartNonce := 0, tieBreakingGas := false,
    minGasLimit := 0x1388, maxGasLimit := 0x7fffffffffffffff, gasLimitBoundDivisor := 0x400,
    homesteadForkBlock := 0, EIP158ForkBlock := 0, byzantiumForkBlock := 0,
    constantinopleForkBlock := BitVec.allOnes 256, experimentalForkBlock := BitVec.allOnes 256,
    istanbulForkBlock := BitVec.allOnes 256, minimumDifficulty := 1, difficultyBoundDivisor := 1,
    targetBlockInterval := BitVec.ofNat 256 interval, allowFutureBlocks := false, chainID := 1 }

/-! ## Accounts -/

/-- The addresses of the two authors. -/
def address : Bool → Address
  | false => 0xa
  | true => 0xb

def account (balance : ℕ) : Option AccountData :=
  if balance = 0 then none else some ⟨0, BitVec.ofNat 256 balance, crypto.EmptyTrie, []⟩

/-- The state in which the authors have these balances. -/
def accounts (x y : ℕ) : AccountTrie := fun a =>
  if a = address false then account x else if a = address true then account y else none

def balanceOf (t : AccountTrie) (a : Address) : ℕ := (t a).elim 0 fun d => d.balance.toNat

/-- The balances side by side. -/
def root (t : AccountTrie) : H256 :=
  BitVec.ofNat 256 (1 + balanceOf t (address false) + 2 ^ 64 * balanceOf t (address true))

def tries : TrieDB := ⟨root, fun _ _ => 0, fun r _ => r⟩

/-! ## Blocks -/

/-- How a block was mined on its parent. -/
structure Move where
  id : H256
  author : Bool
  dt : ℕ
  stake : G1
  deriving DecidableEq

/-- The hash of the block these moves lead to, the last of them first. -/
def hash : List Move → H256
  | [] => 1
  | m :: _ => m.id

def difficulty : List Move → ℕ
  | [] => 1
  | m :: l => difficulty l * (interval + 1 - m.dt)

def timestamp : List Move → ℕ
  | [] => 0
  | m :: l => timestamp l + m.dt

/-- The rewards of an author. -/
def earned (a : Bool) : List Move → ℕ
  | [] => 0
  | m :: l => earned a l + if m.author = a then 1 else 0

def state (l : List Move) : AccountTrie := accounts (earned false l) (earned true l)

/-- The public key that has the author's address. -/
def publicKey : List Move → G2
  | [] => 0
  | m :: _ => (address m.author).setWidth 768

def stake : List Move → G1
  | [] => 0
  | m :: _ => m.stake

def sealFields (l : List Move) : List Bytes :=
  [RLPStream.encodeBytes (asBytes 96 (publicKey l)),
    RLPStream.encodeBytes (asBytes 32 ((stake l).setWidth 256)),
    RLPStream.encodeBytes (asBytes 48 (stake l)),
    RLPStream.encodeBytes (asBytes 48 ((hash l).setWidth 384))]

def parentHash : List Move → H256
  | [] => 0
  | _ :: l => hash l

def author : List Move → Address
  | [] => 0
  | m :: _ => address m.author

def header (l : List Move) : BlockHeader :=
  { parentHash := parentHash l, sha3Uncles := crypto.EmptyListSHA3, author := author l,
    stateRoot := root (state l),
    transactionsRoot := crypto.EmptyTrie, receiptsRoot := crypto.EmptyTrie, logBloom := 0,
    difficulty := BitVec.ofNat 256 (difficulty l), number := l.length, gasLimit := 0x100000,
    gasUsed := 0, timestamp := timestamp l, extraData := [], m_seal := sealFields l,
    m_hash := hash l, m_hashWithout := 0 }

def block (l : List Move) : BlockRLP :=
  { info := header l, header := (header l).wire l.length (timestamp l), transactions := [],
    uncles := [], unclesData := RLPStream.encodeList [] }

/-- The block on the wire. -/
def bytes (l : List Move) : Bytes :=
  RLPStream.encodeList [(header l).wire l.length (timestamp l), RLPStream.encodeList [],
    RLPStream.encodeList []]

def verified (l : List Move) : VerifiedBlock := ⟨block l, header l, []⟩

/-- The world of the network. -/
def world : World :=
  { crypto, params, tries, vm := fun _ _ _ => .exit, precompiled := fun _ => none,
    blockReward := fun n => if n = 0 then 0 else 1, genesisBlock := block [] }

/-- The moves are within the target interval, and give the block a hash of its own. -/
def Sound : List Move → Prop
  | [] => True
  | m :: l => m.id ≠ 0 ∧ m.id ≠ 1 ∧ 1 ≤ m.dt ∧ m.dt ≤ interval ∧ difficulty (m :: l) < 2 ^ 256 ∧
      l.length + 1 < 2 ^ 32 ∧ Sound l

instance decidableSound : ∀ l, Decidable (Sound l)
  | [] => .isTrue trivial
  | m :: l =>
    have := decidableSound l
    inferInstanceAs (Decidable (m.id ≠ 0 ∧ m.id ≠ 1 ∧ 1 ≤ m.dt ∧ m.dt ≤ interval ∧
      difficulty (m :: l) < 2 ^ 256 ∧ l.length + 1 < 2 ^ 32 ∧ Sound l))

/-! ## The reward -/

theorem earned_le (a : Bool) : ∀ l, earned a l ≤ l.length
  | [] => le_rfl
  | m :: l => by
    have := earned_le a l
    rw [earned, List.length_cons]
    split <;> omega

theorem account_of_ne {k : ℕ} (h : k ≠ 0) :
    account k = some ⟨0, BitVec.ofNat 256 k, crypto.EmptyTrie, []⟩ := if_neg h

theorem state_address (a : Bool) (l : List Move) : state l (address a) = account (earned a l) := by
  cases a <;> simp [state, accounts, address]

theorem commit_reward {t : AccountTrie} {a : Address} {k : ℕ} (ht : t a = account k)
    (hk : k + 1 < 2 ^ 256) :
    (((State.ofTrie t 0).addBalance crypto.EmptyTrie a 1).commit crypto.EmptyTrie tries
      .RemoveEmptyAccounts).m_state = Function.update t a (account (k + 1)) := by
  have hbal : BitVec.ofNat 256 k + 1 = BitVec.ofNat 256 (k + 1) := by
    rw [BitVec.ofNat_add]
    rfl
  have hne : BitVec.ofNat 256 (k + 1) ≠ 0 := by
    intro h
    have := congrArg BitVec.toNat h
    rw [BitVec.toNat_ofNat, Nat.mod_eq_of_lt hk] at this
    simp at this
  obtain ⟨-, hstate, hcache⟩ := State.addBalance_spec crypto.EmptyTrie (State.ofTrie t 0) a 1
  have hacc : (State.ofTrie t 0).account a = (account k).map Account.ofData := by
    rw [← ht]
    rfl
  funext x
  show (((State.ofTrie t 0).addBalance crypto.EmptyTrie a 1).removeEmptyAccounts crypto.EmptyTrie).written tries x = _
  unfold State.written State.removeEmptyAccounts
  dsimp only
  rw [hstate, hcache, hacc]
  by_cases hx : x = a
  · subst hx
    rw [Function.update_self, Function.update_self]
    rw [account_of_ne (Nat.succ_ne_zero k)]
    by_cases h0 : k = 0
    · subst h0
      rfl
    · rw [account_of_ne h0]
      have hempty : ((Account.ofData ⟨0, BitVec.ofNat 256 k, crypto.EmptyTrie, []⟩).addBalance 1
          ).isEmpty = false := by
        rw [← hbal] at hne
        simpa [Account.isEmpty, Account.addBalance, Account.ofData] using hne
      simp only [Option.map_some, Option.elim_some, hempty, Bool.and_false, Bool.false_eq_true,
        if_false]
      rw [← hbal]
      rfl
  · rw [Function.update_of_ne hx, Function.update_of_ne hx]
    rfl

theorem update_accounts_false (x y k : ℕ) :
    Function.update (accounts x y) (address false) (account k) = accounts k y := by
  funext a
  by_cases h : a = address false
  · simp [h, accounts]
  · simp [accounts, h]

theorem update_accounts_true (x y k : ℕ) :
    Function.update (accounts x y) (address true) (account k) = accounts x k := by
  funext a
  by_cases h : a = address true
  · subst h
    simp [accounts, address]
  · simp [accounts, h]

/-- A block leaves the state its moves say. -/
theorem rewarded_eq (m : Move) {l : List Move} (h : l.length + 1 < 2 ^ 32) :
    Block.rewarded world 0 (header (m :: l)) (state l) = state (m :: l) := by
  have hreward : world.blockReward ((header (m :: l)).number % 2 ^ 64).toNat = 1 := by
    have hnum : ((header (m :: l)).number % 2 ^ 64).toNat = l.length + 1 := by
      change (((l.length + 1 : ℕ) : ℤ) % 2 ^ 64).toNat = _
      omega
    rw [hnum]
    rfl
  have hb : State.commitBehaviour world (U256.ofInt (header (m :: l)).number) =
      .RemoveEmptyAccounts := if_pos (BitVec.le_def.2 (Nat.zero_le _))
  have hle : ∀ a, earned a l + 1 < 2 ^ 256 := fun a => by
    have := earned_le a l
    omega
  unfold Block.rewarded
  rw [hreward, hb]
  cases ha : m.author with
  | false =>
    have := commit_reward (state_address false l) (hle false)
    rw [show (header (m :: l)).author = address false by rw [← ha]; rfl]
    refine this.trans ?_
    unfold state
    rw [update_accounts_false]
    simp [earned, ha]
  | true =>
    have := commit_reward (state_address true l) (hle true)
    rw [show (header (m :: l)).author = address true by rw [← ha]; rfl]
    refine this.trans ?_
    unfold state
    rw [update_accounts_true]
    simp [earned, ha]

/-- The balances are read off the root. -/
theorem state_eq_of_root_eq {l l' : List Move} (h : l.length < 2 ^ 32) (h' : l'.length < 2 ^ 32)
    (he : root (state l) = root (state l')) : state l = state l' := by
  have hbal : ∀ (a : Bool) (l : List Move), l.length < 2 ^ 32 →
      balanceOf (state l) (address a) = earned a l := by
    intro a l hl
    have hle := earned_le a l
    unfold balanceOf
    rw [state_address, account]
    split
    · rename_i h0
      exact h0.symm
    · change (BitVec.ofNat 256 (earned a l)).toNat = _
      rw [BitVec.toNat_ofNat, Nat.mod_eq_of_lt (by omega)]
  have h1 := earned_le false l
  have h2 := earned_le true l
  have h3 := earned_le false l'
  have h4 := earned_le true l'
  have hn := congrArg BitVec.toNat he
  unfold root at hn
  rw [hbal _ l h, hbal _ l h, hbal _ l' h', hbal _ l' h', BitVec.toNat_ofNat, BitVec.toNat_ofNat,
    Nat.mod_eq_of_lt (by omega), Nat.mod_eq_of_lt (by omega)] at hn
  unfold state
  rw [show earned false l = earned false l' by omega, show earned true l = earned true l' by omega]

/-! ## The hash -/

/-- Only the last 32 bytes count. -/
theorem sha3_append {a b : Bytes} (h : 32 ≤ b.length) : crypto.sha3 (a ++ b) = crypto.sha3 b := by
  change BitVec.ofNat 256 _ = BitVec.ofNat 256 _
  apply BitVec.eq_of_toNat_eq
  rw [BitVec.toNat_ofNat, BitVec.toNat_ofNat, fromBigEndian_append,
    show b.length = 32 + (b.length - 32) by omega, pow_add]
  rw [show (256 : ℕ) ^ 32 = 2 ^ 256 by norm_num, ← mul_assoc, mul_right_comm, Nat.mul_add_mod_self_right]

theorem sha3_asBytes {w n : ℕ} (h : 32 ≤ n) (v : BitVec w) :
    crypto.sha3 (asBytes n v) = v.setWidth 256 := by
  change BitVec.ofNat 256 (fromBigEndian (toBigEndian n v.toNat)) = _
  apply BitVec.eq_of_toNat_eq
  rw [fromBigEndian_toBigEndian, BitVec.toNat_ofNat, BitVec.toNat_setWidth]
  refine Nat.mod_mod_of_dvd _ ?_
  rw [show 2 ^ 256 = 256 ^ 32 by norm_num]
  exact pow_dvd_pow _ h

theorem length_asBytes {w : ℕ} (n : ℕ) (v : BitVec w) : (asBytes n v).length = n :=
  length_toBigEndian _ _

theorem publicToAddress_publicKey (m : Move) (l : List Move) :
    crypto.publicToAddress (publicKey (m :: l)) = address m.author := by
  unfold Crypto.publicToAddress
  rw [sha3_asBytes (by decide), right160, publicKey]
  cases m.author <;> decide

/-! ## Seals -/

section Seal

variable (l : List Move)

theorem stakeSignature_header : Ethash.stakeSignature (header l) = .ok (stake l) :=
  BlockHeader.sealPoint_eq (by norm_num [maxPayload]) rfl

theorem publicKey_header : Ethash.publicKey (header l) = .ok (publicKey l) :=
  BlockHeader.sealPoint_eq (by norm_num [maxPayload]) rfl

theorem blockSignature_header : Ethash.blockSignature (header l) = .ok ((hash l).setWidth 384) :=
  BlockHeader.sealPoint_eq (by norm_num [maxPayload]) rfl

theorem stakeModifier_header : Ethash.stakeModifier (header l) = .ok ((stake l).setWidth 256) :=
  BlockHeader.sealHash_eq rfl

end Seal

/-- The stake a block needs: every other check of the seal passes. -/
def StakeOk (l : List Move) (balance : U256) : Prop :=
  (stake l).setWidth 256 ≤ Ethash.boundary (BitVec.ofNat 256 (difficulty l)) balance

instance (l : List Move) (balance : U256) : Decidable (StakeOk l balance) := by
  unfold StakeOk
  infer_instance

/-- The checks of a seal that come before the stake's pass. -/
theorem verifySeal_header (m : Move) (l : List Move) (balanceRetriever : BalanceRetriever) :
    Ethash.verifySeal crypto (header (m :: l)) (header l) balanceRetriever =
      Ethash.verifyStake crypto (header (m :: l)) (header l) balanceRetriever (publicKey (m :: l))
        (stake (m :: l)) := by
  have hset : (header l).isSet = true := by
    have : (header l).timestamp ≠ -1 := by
      change ((timestamp l : ℕ) : ℤ) ≠ -1
      omega
    simp [BlockHeader.isSet, this]
  have hnum : ¬(header (m :: l)).number ≠ (header l).number + 1 := by
    rw [not_not]
    rfl
  unfold Ethash.verifySeal
  rw [stakeSignature_header, ok_bind, publicKey_header, ok_bind, blockSignature_header, ok_bind]
  simp only
  rw [hset, if_pos rfl, if_neg hnum]
  cases Ethash.verifyStake crypto (header (m :: l)) (header l) balanceRetriever (publicKey (m :: l))
    (stake (m :: l)) with
  | error e => rfl
  | ok b => simp [bind, Except.bind, pure, Except.pure, crypto]

theorem verifySeal_eq (m : Move) (l : List Move) {balanceRetriever : BalanceRetriever} {v : U256}
    (hv : Ethash.getAgedBalance (address m.author) (toUnsigned l.length) balanceRetriever = .ok v) :
    Ethash.verifySeal crypto (header (m :: l)) (header l) balanceRetriever =
      .ok (decide (StakeOk (m :: l) v)) := by
  rw [verifySeal_header]
  unfold Ethash.verifyStake
  rw [publicToAddress_publicKey, show toUnsigned (header l).number = toUnsigned l.length from rfl, hv,
    ok_bind, stakeModifier_header, ok_bind, stakeModifier_header, ok_bind]
  have hchild : ∀ x, Ethash.computeChildStakeModifier crypto x (publicKey (m :: l))
      (stake (m :: l)) = (stake (m :: l)).setWidth 256 := fun x => by
    unfold Ethash.computeChildStakeModifier
    rw [sha3_append (by rw [length_asBytes]; decide), sha3_asBytes (by decide)]
  have hsig : Ethash.computeStakeSignatureHash crypto (stake (m :: l)) =
      (stake (m :: l)).setWidth 256 := sha3_asBytes (by decide) _
  rw [hchild, hsig]
  simp [StakeOk, crypto, header, pure, Except.pure]

/-! ## Verification -/

theorem Sound.tail {m : Move} {l : List Move} (h : Sound (m :: l)) : Sound l := h.2.2.2.2.2.2

theorem Sound.hash_ne_zero : ∀ {l : List Move}, Sound l → hash l ≠ 0
  | [], _ => by decide
  | _ :: _, h => h.1

theorem Sound.difficulty_pos : ∀ {l : List Move}, Sound l → 1 ≤ difficulty l
  | [], _ => le_rfl
  | m :: l, h => by
    have := h.tail.difficulty_pos
    have hdt := h.2.2.2.1
    rw [difficulty]
    exact Nat.mul_pos this (by omega)

theorem Sound.difficulty_lt : ∀ {l : List Move}, Sound l → difficulty l < 2 ^ 256
  | [], _ => by norm_num [difficulty]
  | _ :: _, h => h.2.2.2.2.1

theorem Sound.length_lt : ∀ {l : List Move}, Sound l → l.length < 2 ^ 32
  | [], _ => by norm_num
  | _ :: _, h => h.2.2.2.2.2.1

theorem Sound.timestamp_le : ∀ {l : List Move}, Sound l → timestamp l ≤ l.length * interval
  | [], _ => Nat.zero_le _
  | m :: l, h => by
    have := h.tail.timestamp_le
    have hdt := h.2.2.2.1
    rw [timestamp, List.length_cons, Nat.succ_mul]
    omega

theorem isSet_header (l : List Move) : (header l).isSet = true := by
  have : (header l).timestamp ≠ -1 := by
    change ((timestamp l : ℕ) : ℤ) ≠ -1
    omega
  simp [BlockHeader.isSet, this]

theorem toNat_difficulty {l : List Move} (h : Sound l) :
    (header l).difficulty.toNat = difficulty l := by
  change (BitVec.ofNat 256 (difficulty l)).toNat = _
  rw [BitVec.toNat_ofNat, Nat.mod_eq_of_lt h.difficulty_lt]

/-- A block has the difficulty that its parent calls for. -/
theorem calculateDifficulty_header {m : Move} {l : List Move} (h : Sound (m :: l)) :
    Ethash.calculateDifficulty params (header (m :: l)) (header l) =
      .ok (header (m :: l)).difficulty := by
  have hpos := h.difficulty_pos
  have hlt := h.difficulty_lt
  have hdt := h.2.2.2.1
  have hadj : max ((params.targetBlockInterval.toNat : ℤ) -
      ((header (m :: l)).timestamp - (header l).timestamp)) (-99 * 128) =
        ((interval - m.dt : ℕ) : ℤ) := by
    have h1 : (header (m :: l)).timestamp = (header l).timestamp + m.dt := by
      change ((timestamp l + m.dt : ℕ) : ℤ) = (timestamp l : ℤ) + m.dt
      push_cast
      rfl
    have h2 : params.targetBlockInterval.toNat = interval := by decide
    rw [h1, h2]
    omega
  have hval : difficulty (m :: l) = difficulty l + difficulty l * (interval - m.dt) := by
    rw [difficulty, show interval + 1 - m.dt = 1 + (interval - m.dt) by omega, Nat.mul_add,
      Nat.mul_one]
  unfold Ethash.calculateDifficulty
  rw [throwIf_neg (show ¬(header (m :: l)).number = 0 by
    change ¬((l.length + 1 : ℕ) : ℤ) = 0
    omega), ok_bind, throwIf_neg (show ¬params.difficultyBoundDivisor = 0 by decide), ok_bind]
  simp only
  rw [hadj, toNat_difficulty h.tail]
  have htarget : ((difficulty l : ℕ) : ℤ) + ((difficulty l : ℤ) * ((interval - m.dt : ℕ) : ℤ)).tdiv
      (params.difficultyBoundDivisor.toNat : ℤ) = (difficulty (m :: l) : ℕ) := by
    rw [show params.difficultyBoundDivisor.toNat = 1 by decide, Nat.cast_one, Int.tdiv_one, hval]
    push_cast
    rfl
  have hmin : min (max ((params.minimumDifficulty.toNat : ℕ) : ℤ) (difficulty (m :: l) : ℕ))
      (2 ^ 256 - 1) = ((difficulty (m :: l) : ℕ) : ℤ) := by
    rw [show params.minimumDifficulty.toNat = 1 by decide]
    omega
  rw [htarget, hmin]
  exact congrArg Except.ok (BitVec.ofInt_natCast 256 _)

theorem verifyFields_header {l : List Move} (h : Sound l) :
    Ethash.verifyFields params (header l) = .ok () := by
  have h1 : ¬(header l).difficulty < params.minimumDifficulty := by
    rw [BitVec.lt_def, toNat_difficulty h, show params.minimumDifficulty.toNat = 1 by decide, not_lt]
    exact h.difficulty_pos
  have h2 : ¬(header l).gasLimit < params.minGasLimit := show ¬(0x100000 : U256) < 0x1388 by decide
  have h3 : ¬params.maxGasLimit < (header l).gasLimit :=
    show ¬(0x7fffffffffffffff : U256) < 0x100000 by decide
  unfold Ethash.verifyFields
  rw [throwIf_neg h1, ok_bind, throwIf_neg h2, ok_bind, throwIf_neg h3, ok_bind,
    throwIf_neg fun he => Nat.not_lt_zero _ he.2]

theorem verifyAgainstParent_header {m : Move} {l : List Move} (h : Sound (m :: l)) :
    Ethash.verifyAgainstParent params (header (m :: l)) (header l) = .ok () := by
  unfold Ethash.verifyAgainstParent
  have hdiv : Ethash.div (header l).gasLimit params.gasLimitBoundDivisor = .ok 0x400 :=
    show Ethash.div 0x100000 0x400 = .ok 0x400 by decide
  rw [calculateDifficulty_header h, ok_bind, throwIf_neg (not_not.2 rfl), ok_bind, hdiv, ok_bind]
  exact throwIf_neg (show ¬((0x100000 : U256) < 0x1388 ∨ (0x7fffffffffffffff : U256) < 0x100000 ∨
    (0x100000 : U256) ≤ 0x100000 - 0x400 ∨ (0x100000 : U256) + 0x400 ≤ 0x100000) by decide)

/-- The checks of the header itself, with the parent or without one. -/
theorem verify_header {s : Strictness} {l : List Move} (h : Sound l) {parent : BlockHeader}
    (hp : parent.isSet = true → ∃ m l', l = m :: l' ∧ parent = header l') :
    (header l).verify crypto s parent (some (block l)) = .ok () := by
  refine BlockHeader.verify_eq_ok.2 ⟨?_, fun _ => ?_, fun hset => ?_, fun b hb => ?_⟩
  · have := h.length_lt
    change ((l.length : ℕ) : ℤ) ≤ _
    omega
  · change (0 : U256) ≤ 0x100000
    decide
  · obtain ⟨m, l', rfl, rfl⟩ := hp hset
    refine BlockHeader.verifyParent_eq_ok.2 ⟨fun _ => ?_, ?_, ?_⟩
    · exact if_neg h.tail.hash_ne_zero
    · have := h.2.2.1
      change ((timestamp l' : ℕ) : ℤ) < ((timestamp l' + m.dt : ℕ) : ℤ)
      omega
    · rfl
  · cases hb
    exact BlockHeader.verifyBody_eq_ok.2 ⟨rfl, rfl⟩

/-- Out of order a block is accepted. -/
theorem verify_alone {s : Strictness} {l : List Move} (h : Sound l)
    (balanceRetriever : BalanceRetriever) :
    Ethash.verify crypto params s (header l) balanceRetriever .empty (some (block l)) = .ok () := by
  refine Ethash.verify_eq_ok.2 ⟨verify_header h fun hs => absurd hs (by decide),
    fun _ => verifyFields_header h, fun hs => absurd hs (by decide), fun _ => ?_⟩
  unfold Ethash.verifySeal
  rw [stakeSignature_header, ok_bind, publicKey_header, ok_bind, blockSignature_header, ok_bind]
  rfl

/-- On its parent a block is judged by its seal. -/
theorem verify_inOrder {m : Move} {l : List Move} (h : Sound (m :: l))
    (balanceRetriever : BalanceRetriever) :
    Ethash.verify crypto params .QuickNonce (header (m :: l)) balanceRetriever (header l)
        (some (block (m :: l))) =
      (do throwIf (!(← Ethash.verifySeal crypto (header (m :: l)) (header l) balanceRetriever))
            .InvalidBlockNonce) := by
  have hseal : Ethash.checksSeal .QuickNonce (header (m :: l)) = true :=
    decide_eq_true ⟨.inr rfl, h.tail.hash_ne_zero⟩
  unfold Ethash.verify
  rw [verify_header h fun _ => ⟨m, l, rfl, rfl⟩, ok_bind, if_pos (by decide), verifyFields_header h,
    ok_bind, isSet_header, if_pos rfl, verifyAgainstParent_header h, ok_bind,
    hseal, if_pos rfl]

/-- The checks that need no parent pass, whichever are asked for. -/
theorem verifyBlock_alone (bc : BlockChain) {m : Move} {l : List Move} (h : Sound (m :: l))
    (balanceRetriever : BalanceRetriever) {ir : ImportRequirements} (hir : ir.has .Parent = false) :
    bc.verifyBlock world (block (m :: l)) balanceRetriever ir = .ok (verified (m :: l)) := by
  have hgen : ¬(ir.has .PostGenesis = true ∧
      ((block (m :: l)).info.parentHash = 0 ∨ (block (m :: l)).info.number = 0)) := by
    rintro ⟨-, h0 | h0⟩
    · exact h.tail.hash_ne_zero h0
    · change ((l.length + 1 : ℕ) : ℤ) = 0 at h0
      omega
  have hver : bc.verifyHeader world (block (m :: l)) balanceRetriever ir = .ok () := by
    unfold BlockChain.verifyHeader
    rw [throwIf_neg hgen, ok_bind, BlockChain.parentHeader, hir, if_neg (by simp), ok_bind]
    exact verify_alone h balanceRetriever
  unfold BlockChain.verifyBlock
  rw [hver, ok_bind]
  split <;> split <;> rfl

theorem verifyHeader_block {bc : BlockChain} {m : Move} {l : List Move} (h : Sound (m :: l))
    (hl : bc.block world (hash l) = some (block l)) (balanceRetriever : BalanceRetriever) :
    bc.verifyHeader world (block (m :: l)) balanceRetriever .InOrderChecks =
      (do throwIf (!(← Ethash.verifySeal crypto (header (m :: l)) (header l) balanceRetriever))
            .InvalidBlockNonce) := by
  have hpar : bc.parentHeader world (ImportRequirements.InOrderChecks.has .Parent)
      (block (m :: l)).info .InvalidParentHash = .ok (header l) := by
    rw [BlockChain.parentHeader, if_pos (by decide), BlockChain.headerData,
      show (block (m :: l)).info.parentHash = hash l from rfl, hl]
    simp only [Option.map_some]
    rw [if_neg h.tail.hash_ne_zero]
    rfl
  unfold BlockChain.verifyHeader
  rw [throwIf_neg (fun hgen => absurd hgen.1 (by decide)), ok_bind, hpar, ok_bind]
  exact verify_inOrder h balanceRetriever

/-- The checks in order pass if the stake is right. -/
theorem verifyBlock_inOrder {bc : BlockChain} {m : Move} {l : List Move} (h : Sound (m :: l))
    (hl : bc.block world (hash l) = some (block l)) {balanceRetriever : BalanceRetriever} {v : U256}
    (hv : Ethash.getAgedBalance (address m.author) (toUnsigned l.length) balanceRetriever = .ok v) :
    bc.verifyBlock world (block (m :: l)) balanceRetriever .InOrderChecks =
      if StakeOk (m :: l) v then .ok (verified (m :: l)) else .error .InvalidBlockNonce := by
  unfold BlockChain.verifyBlock
  rw [verifyHeader_block h hl, verifySeal_eq m l hv, ok_bind]
  by_cases hs : StakeOk (m :: l) v
  · rw [throwIf_neg (by simp [hs]), ok_bind, if_pos hs]
    rfl
  · rw [if_neg hs, throwIf, if_pos (by simp [hs])]
    rfl

/-- The stake of a block is asked for at the number 255 below its parent's. -/
theorem asksStake_eq {bc : BlockChain} {m : Move} {l : List Move} (h : Sound (m :: l))
    (hl : bc.block world (hash l) = some (block l)) :
    bc.asksStake world (block (m :: l)) = some (l.length - 255) := by
  have hlt := h.tail.length_lt
  have hn : toUnsigned (header l).number = l.length := by
    change toUnsigned ((l.length : ℕ) : ℤ) = l.length
    rw [toUnsigned]
    omega
  have hask : Ethash.verifyStake crypto (header (m :: l)) (header l)
      (fun _ n => .error (.InvalidNonce n 0)) (publicKey (m :: l)) (stake (m :: l)) =
        .error (.InvalidNonce (l.length - 255 : ℕ) 0) := by
    unfold Ethash.verifyStake Ethash.getAgedBalance
    rw [hn, show (if 255 < l.length then l.length - 255 else 0) = l.length - 255 by split <;> omega]
    rfl
  have hver : bc.verifyHeader world (block (m :: l)) (fun _ n => .error (.InvalidNonce n 0))
      .InOrderChecks = .error (.InvalidNonce (l.length - 255 : ℕ) 0) := by
    rw [verifyHeader_block h hl, verifySeal_header, hask]
    rfl
  unfold BlockChain.asksStake
  rw [hver]
  exact congrArg some (Int.toNat_natCast _)

/-! ## Blocks on the wire -/

theorem length_encodeBytes_le {b : Bytes} (h : b.length < maxPayload) :
    (RLPStream.encodeBytes b).length ≤ b.length + 9 := by
  have h8 : bytesRequired b.length ≤ 8 := bytesRequired_le (by
    unfold maxPayload at h
    omega)
  unfold RLPStream.encodeBytes
  split
  · omega
  · rw [lengthPrefix_append]
    split
    · rw [List.length_cons]
      omega
    · rw [List.length_cons, List.length_append, length_toBigEndian]
      omega

theorem length_encodeBytes_asBytes {w n : ℕ} (hn : n ≤ 256) (v : BitVec w) :
    (RLPStream.encodeBytes (asBytes n v)).length ≤ 265 := by
  have := length_asBytes n v
  have hle := length_encodeBytes_le (b := asBytes n v) (by
    rw [this, maxPayload]
    omega)
  omega

theorem length_encodeInt_le {n : ℕ} (h : n < 2 ^ 256) : (RLPStream.encodeInt n).length ≤ 265 := by
  have h32 : bytesRequired n ≤ 32 := bytesRequired_le (by omega)
  have hlen := length_toBigEndian (bytesRequired n) n
  rw [encodeInt_eq]
  have := length_encodeBytes_le (b := toBigEndian (bytesRequired n) n) (by
    rw [hlen, maxPayload]
    omega)
  omega

theorem length_encodeList_le {items : List Bytes} (h : items.flatten.length < maxPayload) :
    (RLPStream.encodeList items).length ≤ items.flatten.length + 9 := by
  have h8 : bytesRequired items.flatten.length ≤ 8 := bytesRequired_le (by
    unfold maxPayload at h
    omega)
  unfold RLPStream.encodeList
  rw [lengthPrefix_append]
  split
  · rw [List.length_cons]
    omega
  · rw [List.length_cons, List.length_append, length_toBigEndian]
    omega

theorem length_flatten_le {k : ℕ} : ∀ {items : List Bytes}, (∀ e ∈ items, e.length ≤ k) →
    items.flatten.length ≤ items.length * k
  | [], _ => Nat.zero_le _
  | e :: items, h => by
    have h1 := h e List.mem_cons_self
    have h2 := length_flatten_le fun x hx => h x (List.mem_cons_of_mem _ hx)
    rw [List.flatten_cons, List.length_append, List.length_cons, Nat.succ_mul]
    omega

/-! ### Headers with a seal of the network -/

section Sealed

variable {h : BlockHeader} {l : List Move} {n t : ℕ} (hextra : h.extraData = []) (hseal : h.m_seal = sealFields l)

include hextra hseal

theorem length_fields_le (hn : n < 2 ^ 256) (ht : t < 2 ^ 256) :
    (h.wireFields n t ++ h.m_seal).flatten.length ≤ 17 * 265 := by
  have hempty : (RLPStream.encodeBytes h.extraData).length ≤ 265 := by
    rw [hextra]
    decide
  rw [hseal]
  refine length_flatten_le ?_
  unfold BlockHeader.wireFields sealFields
  simp only [List.cons_append, List.nil_append, List.forall_mem_cons]
  refine ⟨?_, ?_, ?_, ?_, ?_, ?_, ?_, length_encodeInt_le (BitVec.isLt _), length_encodeInt_le hn,
    length_encodeInt_le (BitVec.isLt _), length_encodeInt_le (BitVec.isLt _),
    length_encodeInt_le ht, hempty, ?_, ?_, ?_, ?_, by simp⟩ <;>
    exact length_encodeBytes_asBytes (by decide) _

theorem encodable_of_sealed (hn : n < 2 ^ 63) (ht : t < 2 ^ 63) : h.Encodable n t where
  items_seal := by
    have hb : ∀ {w : ℕ} (n : ℕ) (v : BitVec w), n ≤ 96 →
        ∃ p, IsItem (RLPStream.encodeBytes (asBytes n v)) p := fun n v hn =>
      ⟨_, isItem_encodeBytes (by rw [length_asBytes, maxPayload]; omega)⟩
    rw [hseal]
    unfold Items sealFields
    simp only [List.forall_mem_cons]
    exact ⟨hb 96 _ (by decide), hb 32 _ (by decide), hb 48 _ (by decide), hb 48 _ (by decide),
      by simp⟩
  number_lt := hn
  timestamp_lt := ht
  size := by
    have := length_fields_le hextra hseal (hn.trans (by norm_num)) (ht.trans (by norm_num))
    unfold maxPayload
    omega

omit hextra hseal in
theorem encodeList_append_singleton (items : List Bytes) (e : Bytes) :
    ∃ pre, RLPStream.encodeList (items ++ [e]) = pre ++ e := by
  refine ⟨RLPStream.lengthPrefix (items ++ [e]).flatten.length c_rlpListStart c_rlpListIndLenZero ++
    items.flatten, ?_⟩
  rw [RLPStream.encodeList, List.append_assoc, List.flatten_append, List.flatten_singleton]

omit hextra in
/-- The hash of a header is what its block signature spells. -/
theorem sha3_wire_of_sealed : crypto.sha3 (h.wire n t) = hash l := by
  have hlast : h.wireFields n t ++ h.m_seal =
      (h.wireFields n t ++ (sealFields l).take 3) ++
        [RLPStream.encodeBytes (asBytes 48 ((hash l).setWidth 384))] := by
    rw [hseal, List.append_assoc]
    rfl
  have henc : RLPStream.encodeBytes (asBytes 48 ((hash l).setWidth 384)) =
      RLPStream.lengthPrefix 48 c_rlpDataImmLenStart c_rlpDataIndLenZero ++
        asBytes 48 ((hash l).setWidth 384) := by
    rw [RLPStream.encodeBytes, length_asBytes, if_neg fun he => absurd he.1 (by decide)]
  obtain ⟨pre, hpre⟩ := encodeList_append_singleton (h.wireFields n t ++ (sealFields l).take 3)
    (RLPStream.encodeBytes (asBytes 48 ((hash l).setWidth 384)))
  have hwire : h.wire n t = pre ++
      (RLPStream.lengthPrefix 48 c_rlpDataImmLenStart c_rlpDataIndLenZero ++
        asBytes 48 ((hash l).setWidth 384)) := by
    rw [← henc, ← hpre, ← hlast]
    rfl
  rw [hwire, ← List.append_assoc, sha3_append (by rw [length_asBytes]; decide),
    sha3_asBytes (by decide), BitVec.setWidth_setWidth_of_le _ (by decide), BitVec.setWidth_eq]

end Sealed

section Wire

variable {l : List Move} (h : Sound l)

include h

theorem length_header_le : ((header l).wireFields l.length (timestamp l) ++
    (header l).m_seal).flatten.length ≤ 17 * 265 := by
  have ht : timestamp l < 2 ^ 256 := by
    have h1 := h.timestamp_le
    have h2 := h.length_lt
    unfold interval at h1
    omega
  exact length_fields_le rfl rfl (h.length_lt.trans (by norm_num)) ht

theorem encodable_header : (header l).Encodable l.length (timestamp l) := by
  have ht : timestamp l < 2 ^ 63 := by
    have h1 := h.timestamp_le
    have h2 := h.length_lt
    unfold interval at h1
    omega
  exact encodable_of_sealed rfl rfl (h.length_lt.trans (by norm_num)) ht

omit h in
theorem sha3_wire (l : List Move) : crypto.sha3 ((header l).wire l.length (timestamp l)) = hash l :=
  sha3_wire_of_sealed rfl

/-- The blocks of the network are read back. -/
theorem ofBytes_bytes : BlockRLP.ofBytes crypto (bytes l) = .ok (block l) := by
  have hE := encodable_header h
  have hlen : ((header l).wire l.length (timestamp l)).length ≤ 17 * 265 + 9 := by
    have h1 := length_header_le h
    exact (length_encodeList_le (by
      unfold maxPayload
      omega)).trans (Nat.add_le_add_right h1 9)
  have hnil : Items [] := by simp [Items]
  have hread := BlockRLP.ofBytes_encodeList crypto hE hnil hnil rfl (by
      have h0 : (RLPStream.encodeList []).length = 1 := by decide
      simp only [List.flatten_cons, List.flatten_nil, List.length_append, h0, maxPayload,
        List.length_nil]
      omega)
  refine hread.trans ?_
  rw [sha3_wire]
  rfl

end Wire

/-! ## Chains of the network -/

/-- Ways of mining, each with those it goes on from, that their hashes tell apart. -/
structure Branches where
  ways : Set (List Move)
  nil_mem : [] ∈ ways
  tail_mem : ∀ {m l}, m :: l ∈ ways → l ∈ ways
  sound : ∀ {l}, l ∈ ways → Sound l
  hash_inj : ∀ {l l'}, l ∈ ways → l' ∈ ways → hash l = hash l' → l = l'

theorem hash_ne_genesis {m : Move} {l : List Move} (h : Sound (m :: l)) :
    hash (m :: l) ≠ BlockChain.genesisHash world := h.2.1

/-- The blocks of some branches. -/
def Branches.blockSet (F : Branches) : BlockSet world where
  carrier := {b | ∃ m l, m :: l ∈ F.ways ∧ b = block (m :: l)}
  hash_ne_zero := by
    rintro _ ⟨m, l, hl, rfl⟩
    exact (F.sound hl).hash_ne_zero
  hash_ne_genesis := by
    rintro _ ⟨m, l, hl, rfl⟩
    exact hash_ne_genesis (F.sound hl)
  hash_inj := by
    rintro _ ⟨m, l, hl, rfl⟩ _ ⟨m', l', hl', rfl⟩ he
    rw [F.hash_inj hl hl' he]

theorem world_valid : world.Valid :=
  ⟨by decide, rfl, le_rfl, rfl⟩

/-- The invariant of the chains of the network: each block's state is at hand. -/
structure Mined (F : Branches) (bc : BlockChain) : Prop extends
    BlockChain.ChainInv world F.blockSet bc where
  stateDB_eq : ∀ {l}, l ∈ F.ways → hash l ∈ bc.recorded →
    bc.stateDB (root (state l)) = some (state l)

section Mined

variable {F : Branches} {bc : BlockChain} (hM : Mined F bc)

include hM

theorem Mined.block_eq {l : List Move} (hl : l ∈ F.ways) (hm : hash l ∈ bc.recorded) :
    bc.block world (hash l) = some (block l) := by
  cases l with
  | nil => exact if_pos rfl
  | cons m l =>
    have hg := hash_ne_genesis (F.sound hl)
    obtain ⟨b, hb, hh, -⟩ := hM.blocks _ hm hg
    obtain ⟨m', l', hl', rfl⟩ := hM.mem hb
    rw [hM.coherent.block_eq hg, hb, F.hash_inj hl hl' hh.symm]

theorem Mined.exists_way {h : H256} (hm : h ∈ bc.recorded) : ∃ l ∈ F.ways, hash l = h := by
  by_cases hg : h = BlockChain.genesisHash world
  · exact ⟨[], F.nil_mem, hg.symm⟩
  · obtain ⟨b, hb, hh, -⟩ := hM.blocks _ hm hg
    obtain ⟨m, l, hl, rfl⟩ := hM.mem hb
    exact ⟨m :: l, hl, hh⟩

theorem Mined.parentOf_eq {m : Move} {l : List Move} (hl : m :: l ∈ F.ways)
    (hm : hash (m :: l) ∈ bc.recorded) : bc.parentOf (hash (m :: l)) = hash l := by
  obtain ⟨b, hb, hh, hp, -⟩ := hM.blocks _ hm (hash_ne_genesis (F.sound hl))
  obtain ⟨m', l', hl', rfl⟩ := hM.mem hb
  rw [← hp]
  cases F.hash_inj hl hl' hh.symm
  rfl

theorem Mined.parent_mem {m : Move} {l : List Move} (hl : m :: l ∈ F.ways)
    (hm : hash (m :: l) ∈ bc.recorded) : hash l ∈ bc.recorded := by
  rw [← hM.parentOf_eq hl hm]
  exact hM.tree.parent_mem _ hm (hash_ne_genesis (F.sound hl))

theorem Mined.heightOf_eq {l : List Move} (hl : l ∈ F.ways) (hm : hash l ∈ bc.recorded) :
    bc.heightOf (hash l) = l.length := by
  cases l with
  | nil => exact hM.tree.height_root
  | cons m l =>
    obtain ⟨b, hb, hh, -, hn⟩ := hM.blocks _ hm (hash_ne_genesis (F.sound hl))
    obtain ⟨m', l', hl', rfl⟩ := hM.mem hb
    cases F.hash_inj hl hl' hh.symm
    change (((m :: l).length : ℕ) : ℤ) = _ at hn
    omega

theorem Mined.info_eq {l : List Move} (hl : l ∈ F.ways) (hm : hash l ∈ bc.recorded) :
    bc.info world (hash l) = .ok (header l) := by
  rw [BlockChain.info, hM.block_eq hl hm]
  rfl

theorem Mined.onParent {m : Move} {l : List Move} (hl : m :: l ∈ F.ways)
    (hm : hash l ∈ bc.recorded) :
    Block.OnParent world bc (header (m :: l)) (header l) (state l) := by
  have hlt := (F.sound hl).length_lt
  rw [List.length_cons] at hlt
  have hfork : ∀ n : ℕ, n < 2 ^ 33 → U256.ofInt n < world.params.constantinopleForkBlock := by
    intro n hn
    change BitVec.ofInt 256 n < BitVec.allOnes 256
    rw [BitVec.ofInt_natCast, BitVec.lt_def, BitVec.toNat_ofNat, BitVec.toNat_allOnes,
      Nat.mod_eq_of_lt (by omega)]
    omega
  refine
    { info := hM.info_eq (F.tail_mem hl) hm, hash := rfl, hash_ne_zero := (F.sound hl).tail.hash_ne_zero
      grandparent := fun hn => ?_, state := hM.stateDB_eq (F.tail_mem hl) hm, number := rfl
      bound := ?_, timestamp := Int.natCast_nonneg _, later := ?_
      fork := hfork (l.length + 1) (by omega), fork_next := hfork (l.length + 2) (by omega) }
  · cases l with
    | nil => exact absurd rfl hn
    | cons m' l' =>
      have hl' := F.tail_mem hl
      exact ⟨_, hM.info_eq (F.tail_mem hl') (hM.parent_mem hl' hm)⟩
  · change (((l.length + 1 : ℕ)) : ℤ) ≤ _
    omega
  · have := (F.sound hl).2.2.1
    change ((timestamp l : ℕ) : ℤ) < ((timestamp l + m.dt : ℕ) : ℤ)
    omega

end Mined

theorem emptyHeader {m : Move} {l : List Move} (h : Sound (m :: l)) :
    Block.EmptyHeader world (header (m :: l)) (state l) :=
  ⟨rfl, rfl, rfl, (congrArg root (rewarded_eq m h.length_lt)).symm⟩

/-! ## Stakes -/

section Stakes

variable {F : Branches} {bc : BlockChain} (hM : Mined F bc)

include hM

/-- The balances after a known block are those of its state. -/
theorem Mined.balanceRetriever_eq {n : ℕ} {l : List Move} (hl : l ∈ F.ways)
    (hn : bc.numberHash world n = hash l) (hk : bc.isKnown world (hash l) true = true) (now : ℤ)
    (a : Address) :
    bc.balanceRetriever world now a n = .ok ((state l a).elim 0 AccountData.balance) := by
  have hm := hM.recorded_of_isKnown hk
  have hpop : ∃ s, (Block.new world 0).populateFromChain world bc (hash l) .None now = .ok s ∧
      s.m_state.m_state = state l ∧ s.m_state.m_cache = fun _ => none := by
    cases l with
    | nil =>
      have hdb : bc.stateDB world.genesisBlock.info.stateRoot = some (state []) :=
        hM.stateDB_eq F.nil_mem hm
      obtain ⟨s, hs, hst⟩ := Block.populateFromChain_genesis (w := world) (by decide) rfl le_rfl hdb
        (by decide)
      exact ⟨s, hs, by rw [hst]; rfl, by rw [hst]; rfl⟩
    | cons m l =>
      have hS := F.sound hl
      have hver := verifyBlock_alone bc hS (fun _ _ => .ok 0)
        (show (ImportRequirements.None ||| .TransactionBasic : ImportRequirements).has .Parent = false
          by decide)
      have hP : Block.OnParent world bc (verified (m :: l)).info (header l) (state l) :=
        hM.onParent hl (hM.parent_mem hl hm)
      obtain ⟨s, hs, h1, h2⟩ := Block.populateFromChain_empty (by decide) hP hk (hM.block_eq hl hm)
        rfl (Int.natCast_ne_zero.2 (Nat.succ_ne_zero l.length)) rfl rfl (emptyHeader hS) hver
      exact ⟨s, hs, h1.trans (rewarded_eq m hS.length_lt), h2⟩
  obtain ⟨s, hs, h1, h2⟩ := hpop
  unfold BlockChain.balanceRetriever
  rw [hn, hs]
  simp only [State.balance, State.account, h1, h2]
  cases state l a <;> rfl

theorem Mined.balanceRetriever_ok (now : ℤ) (a : Address) (n : ℕ) :
    ∃ v, bc.balanceRetriever world now a n = .ok v := by
  cases hk : bc.isKnown world (bc.numberHash world n) true with
  | true =>
    obtain ⟨l, hl, hh⟩ := hM.exists_way (hM.recorded_of_isKnown hk)
    exact ⟨_, hM.balanceRetriever_eq hl hh.symm (by rw [hh]; exact hk) now a⟩
  | false =>
    refine ⟨0, ?_⟩
    unfold BlockChain.balanceRetriever Block.populateFromChain
    rw [hk]
    rfl

end Stakes

/-! ## Imports -/

/-- Without a stake signature the boundary is always met. -/
theorem stakeOk_zero {m : Move} (h : m.stake = 0) (l : List Move) (v : U256) :
    StakeOk (m :: l) v := by
  have h0 : (stake (m :: l)).setWidth 256 = 0 := by
    rw [show stake (m :: l) = 0#384 from h, BitVec.setWidth_zero]
    rfl
  unfold StakeOk
  rw [h0, BitVec.le_def]
  exact Nat.zero_le _

section Imports

variable {F : Branches} {bc bc' : BlockChain} {m : Move} {l : List Move} (hl : m :: l ∈ F.ways)

include hl

/-- A block with its parent in the chain is inserted, once its state has been committed. -/
theorem Mined.importBlock_eq (hM : Mined F bc) (hm : hash l ∈ bc.recorded) {mustBeNew : Bool}
    (hnew : mustBeNew = true → bc.isKnown world m.id true = false) {now : ℤ}
    (hnow : (timestamp (m :: l) : ℤ) ≤ now)
    (hstake : ∀ v, Ethash.getAgedBalance (address m.author) (toUnsigned l.length)
      (bc.balanceRetriever world now) = .ok v → StakeOk (m :: l) v) :
    ∃ bc1, BlockChain.StakeChecked world (block (m :: l)) bc bc1 ∧
      (∀ n h, bc.m_blockHashes n = some h → bc1.m_blockHashes n = some h) ∧ Mined F bc1 ∧
      bc1.stateDB (root (state (m :: l))) = some (state (m :: l)) ∧
      BlockChain.Insertable world bc1 (block (m :: l)) ∧
      bc.importBlock world (verified (m :: l)) mustBeNew now =
        bc1.insertBlockAndExtras world (verified (m :: l)) (RLPStream.encodeList [])
          ((bc.details (hash l)).totalDifficulty + (header (m :: l)).difficulty) := by
  have hS := F.sound hl
  obtain ⟨v, hv⟩ : ∃ v, Ethash.getAgedBalance (address m.author) (toUnsigned l.length)
      (bc.balanceRetriever world now) = .ok v := hM.balanceRetriever_ok now _ _
  have hver := verifyBlock_inOrder hS (hM.block_eq (F.tail_mem hl) hm) hv
  rw [if_pos (hstake v hv)] at hver
  have hplace : bc.checkPlace world (verified (m :: l)).info mustBeNew = .ok () := by
    refine hM.checkPlace_eq_ok hm fun hb => ?_
    rw [BlockChain.hash_eq (w := world) (show (verified (m :: l)).info.m_hash ≠ 0 from hS.1)]
    exact hnew hb
  have hP : Block.OnParent world bc (verified (m :: l)).info (header l) (state l) :=
    hM.onParent hl hm
  have himp := BlockChain.importBlock_empty (by decide) hP rfl rfl (emptyHeader hS) hplace hnow hver
  have hrew : Block.rewarded world world.params.accountStartNonce (verified (m :: l)).info (state l) =
      state (m :: l) := rewarded_eq m hS.length_lt
  rw [hrew] at himp
  have hstate := BlockChain.stakeChecked_touchStake world (block (m :: l)) bc
    (Function.update bc.stateDB (root (state (m :: l))) (some (state (m :: l))))
  have hI1 := hstate.chainInv hM.toChainInv
  have hM1 : Mined F { bc.touchStake world (block (m :: l)) with
      stateDB := Function.update bc.stateDB (root (state (m :: l))) (some (state (m :: l))) } := by
    refine ⟨hI1, fun {l'} hl' hm' => ?_⟩
    have hm0 : hash l' ∈ bc.recorded := by
      obtain ⟨_, _, _, he, -⟩ := hstate
      rw [he] at hm'
      exact hm'
    change Function.update bc.stateDB (root (state (m :: l))) (some (state (m :: l)))
      (root (state l')) = _
    by_cases hr : root (state l') = root (state (m :: l))
    · rw [hr, Function.update_self, state_eq_of_root_eq (F.sound hl').length_lt hS.length_lt hr]
    · rw [Function.update_of_ne hr]
      exact hM.stateDB_eq hl' hm0
  refine ⟨_, hstate, fun _ _ => BlockChain.touchStake_keeps world _ bc, hM1,
    Function.update_self .., ?_, ?_⟩
  · have hm1 : hash l ∈ BlockChain.recorded { bc.touchStake world (block (m :: l)) with
        stateDB := Function.update bc.stateDB (root (state (m :: l))) (some (state (m :: l))) } := by
      obtain ⟨_, _, _, he, -⟩ := hstate
      rw [he]
      exact hm
    refine hI1.insertable ⟨m, l, hl, rfl⟩ hm1 ?_
    rw [show (block (m :: l)).info.parentHash = hash l from rfl, hM1.heightOf_eq (F.tail_mem hl) hm1]
    rfl
  · exact himp

/-- Below the reserved number the insertion succeeds and leaves a chain of the network. -/
theorem Mined.insertBlockAndExtras (hM : Mined F bc)
    (hdb : bc.stateDB (root (state (m :: l))) = some (state (m :: l)))
    (hP : BlockChain.Insertable world bc (block (m :: l))) (hne : l.length + 1 ≠ c_invalidNumber)
    {td : U256} {r : Except Exception ImportRoute}
    (h : bc.insertBlockAndExtras world (verified (m :: l)) (RLPStream.encodeList []) td = (r, bc')) :
    (∃ route, r = .ok route) ∧ Mined F bc' ∧ bc'.recorded = insert m.id bc.recorded := by
  have hI := BlockChain.chainInv_insertBlockAndExtras hM.toChainInv rfl ⟨m, l, hl, rfl⟩ hP
    (fun hn => hne (by
      change ((l.length + 1 : ℕ) : ℤ) = _ at hn
      omega)) (Int.natCast_nonneg _) h
  have hmine : ∀ {td}, BlockChain.Stored bc bc' (block (m :: l)) td → Mined F bc' ∧
      bc'.recorded = insert m.id bc.recorded := by
    intro td hS
    refine ⟨⟨hI, fun {l'} hl' hm' => ?_⟩, hS.recorded_eq⟩
    rw [hS.stateDB]
    rw [hS.recorded_eq] at hm'
    rcases hm' with he | hm'
    · rw [F.hash_inj hl' hl he]
      exact hdb
    · exact hM.stateDB_eq hl' hm'
  rcases BlockChain.insertBlockAndExtras_cases hM.toTreeInv rfl hP h with
    ⟨e, he, -⟩ | ⟨rfl, -, hS, -⟩ | ⟨_, _, _, _, rfl, -, hS, -⟩
  · rw [BlockChain.receiptBlooms_nil] at he
    cases he
  · exact ⟨⟨_, rfl⟩, hmine hS⟩
  · exact ⟨⟨_, rfl⟩, hmine hS⟩

end Imports

/-- The chain the network starts from. -/
def genesis : BlockChain := .openFresh world (state [])

theorem mined_genesis (F : Branches) : Mined F genesis := by
  have hI := BlockChain.chainInv_openFresh world_valid F.blockSet (state [])
  refine ⟨hI, fun {l} hl hm => ?_⟩
  have hroot : hash l = hash [] := by
    change (genesis.detailsDB (hash l)).isSome at hm
    simp only [genesis, BlockChain.openFresh, Function.update_apply] at hm
    split at hm
    · assumption
    · simp at hm
  rw [F.hash_inj hl F.nil_mem hroot]
  change Function.update (fun _ => none) (root (state [])) (some (state [])) (root (state [])) = _
  rw [Function.update_self]

end Devnet

end Petrachor
