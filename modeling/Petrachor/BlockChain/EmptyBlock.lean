import Petrachor.BlockChain.Run

/-!
# Empty blocks

A block without transactions and uncles whose header is right is taken by every chain that holds its
parent and the parent's state: nothing but the reward changes the state, and no check is left that
depends on the rest of the chain.
-/

namespace Petrachor

theorem Ethash.childGasLimit_ok {p : ChainOperationParams} (h : p.gasLimitBoundDivisor ≠ 0)
    (hdr : BlockHeader) : ∃ g, childGasLimit p hdr = .ok g := by
  have hdiv : ∀ a, div a p.gasLimitBoundDivisor = .ok (a / p.gasLimitBoundDivisor) := fun a =>
    if_neg h
  unfold childGasLimit
  split
  · rw [hdiv]
    exact ⟨_, rfl⟩
  · rw [hdiv, hdiv]
    exact ⟨_, rfl⟩

/-- Apart from the log, an added balance changes one entry of the cache. -/
theorem State.addBalance_spec (emptyTrie : H256) (s : State) (a : Address) (v : U256) :
    (s.addBalance emptyTrie a v).m_accountStartNonce = s.m_accountStartNonce ∧
      (s.addBalance emptyTrie a v).m_state = s.m_state ∧
      (s.addBalance emptyTrie a v).m_cache = Function.update s.m_cache a
        (some ((s.account a).elim (Account.new emptyTrie s.m_accountStartNonce v)
          fun x => x.addBalance v)) := by
  unfold addBalance
  cases s.account a with
  | none => simp only; split <;> exact ⟨rfl, rfl, rfl⟩
  | some x =>
    simp only
    split <;> split <;> exact ⟨rfl, rfl, rfl⟩

theorem State.commit_startNonce (emptyTrie : H256) (t : TrieDB) (s : State) (b : CommitBehaviour) :
    (s.commit emptyTrie t b).m_accountStartNonce = s.m_accountStartNonce := by
  unfold commit
  cases b <;> rfl

namespace Block

variable {w : World}

theorem updateBlockhashContract_eq {b : Block} (h : b.number < w.params.constantinopleForkBlock) :
    b.updateBlockhashContract w = .ok b := by
  rw [BitVec.lt_def] at h
  unfold updateBlockhashContract
  rw [if_neg (fun he => by rw [he] at h; omega), ok_bind,
    if_neg (by rw [BitVec.le_def]; omega)]

/-- A block that was reset to its parent's state, with this header to be filled. -/
def started (b : Block) (trie : AccountTrie) (cur : BlockHeader) : Block :=
  { b with
    m_transactions := [], m_receipts := [], m_currentBlock := cur, m_currentBytes := []
    m_state := State.ofTrie trie b.m_state.m_accountStartNonce
    m_precommit := State.ofTrie trie b.m_state.m_accountStartNonce
    m_committedToSeal := false }

/-- Before the fork of the block hash contract a reset only loads the state. -/
theorem resetCurrent_eq {stateDB : H256 → Option AccountTrie} {b : Block} {trie : AccountTrie}
    (hdiv : w.params.gasLimitBoundDivisor ≠ 0)
    (htrie : stateDB b.m_previousBlock.stateRoot = some trie)
    (hfork : U256.ofInt (b.m_previousBlock.number + 1) < w.params.constantinopleForkBlock)
    (timestamp : ℤ) :
    ∃ cur, b.resetCurrent w stateDB timestamp = .ok (b.started trie cur) ∧
      cur.parentHash = b.m_previousBlock.m_hash := by
  obtain ⟨g, hg⟩ := Ethash.childGasLimit_ok hdiv b.m_previousBlock
  refine ⟨(((BlockHeader.empty.setAuthor b.m_author).setTimestamp
    (max (b.m_previousBlock.timestamp + 1) timestamp)).populateFromParent
      b.m_previousBlock).setGasLimit g, ?_, rfl⟩
  simp only [resetCurrent, Ethash.populateFromParent, hg, ok_bind, trieAt, htrie, pure_bind]
  exact updateBlockhashContract_eq hfork

/-- The trie after the reward of an empty block. -/
def rewarded (w : World) (startNonce : U256) (h : BlockHeader) (trie : AccountTrie) : AccountTrie :=
  (((State.ofTrie trie startNonce).addBalance w.crypto.EmptyTrie h.author
    (w.blockReward (h.number % 2 ^ 64).toNat)).commit w.crypto.EmptyTrie w.tries
      (State.commitBehaviour w (U256.ofInt h.number))).m_state

/-- What the header of an empty block says of the block. -/
structure EmptyHeader (w : World) (h : BlockHeader) (trie : AccountTrie) : Prop where
  receiptsRoot : h.receiptsRoot = w.crypto.orderedTrieRoot []
  logBloom : h.logBloom = 0
  gasUsed : h.gasUsed = 0
  stateRoot : h.stateRoot = w.tries.root (rewarded w w.params.accountStartNonce h trie)

theorem checkReceipts_eq {b : Block} (hr : b.m_receipts = [])
    (h1 : b.m_currentBlock.receiptsRoot = w.crypto.orderedTrieRoot [])
    (h2 : b.m_currentBlock.logBloom = 0) : b.checkReceipts w = .ok () := by
  unfold checkReceipts
  rw [hr, List.map_nil, throwIf_neg (not_not.2 h1.symm), ok_bind, logBloom, hr, List.foldl_nil,
    throwIf_neg (not_not.2 h2)]

/-- An empty block is enacted on its parent's state if its root is the one it leaves, or the
parent's. -/
theorem enact_empty_of_root (bc : BlockChain) {b : Block} {vb : VerifiedBlock} {trie : AccountTrie}
    {cur : BlockHeader} (hnonce : b.m_state.m_accountStartNonce = w.params.accountStartNonce)
    (hcur : cur.parentHash = b.m_previousBlock.m_hash) (h0 : b.m_previousBlock.m_hash ≠ 0)
    (htxs : vb.transactions = []) (huncles : vb.block.uncles = [])
    (hreceipts : vb.info.receiptsRoot = w.crypto.orderedTrieRoot []) (hbloom : vb.info.logBloom = 0)
    (hgas : vb.info.gasUsed = 0)
    (hroots : vb.info.stateRoot = b.m_previousBlock.stateRoot ∨
      vb.info.stateRoot = w.tries.root (rewarded w w.params.accountStartNonce vb.info trie)) :
    ∃ s, enact w bc (b.started trie cur) vb = .ok (vb.info.difficulty, s) ∧
      s.m_currentBlock = vb.info ∧ s.m_receipts = [] ∧
      s.m_state.m_state = rewarded w w.params.accountStartNonce vb.info trie ∧
      s.m_state.m_accountStartNonce = w.params.accountStartNonce := by
  have hroot : ((({ b.started trie cur with m_currentBlock := vb.info } : Block).applyRewardsAndCommit
      w []).m_state).m_state = rewarded w w.params.accountStartNonce vb.info trie := by
    rw [← hnonce]
    rfl
  refine ⟨({ b.started trie cur with m_currentBlock := vb.info } : Block).applyRewardsAndCommit w [],
    ?_, rfl, rfl, hroot, ?_⟩
  · unfold enact
    have hprev : (b.started trie cur).m_previousBlock.hash w.crypto .WithSeal =
        b.m_previousBlock.m_hash := if_neg h0
    rw [hprev, throwIf_neg (not_not.2 (show (b.started trie cur).m_currentBlock.parentHash = _ from
      hcur)), ok_bind, htxs]
    simp only [executeAll, ok_bind]
    have hrec : ({ b.started trie cur with m_currentBlock := vb.info } : Block).checkReceipts w =
        .ok () := checkReceipts_eq rfl hreceipts hbloom
    rw [hrec, ok_bind, huncles, throwIf_neg (by decide), ok_bind, checkUncles, ok_bind]
    have hstate : w.tries.root (rewarded w w.params.accountStartNonce vb.info trie) =
        (({ b.started trie cur with
          m_currentBlock := vb.info } : Block).applyRewardsAndCommit w []).rootHash w := by
      rw [rootHash, State.rootHash, hroot]
    have hgas' : vb.info.gasUsed = (({ b.started trie cur with
        m_currentBlock := vb.info } : Block).applyRewardsAndCommit w []).gasUsed := hgas
    rw [throwIf_neg (fun hne => hroots.elim hne.1 fun h => hne.2 (h.trans hstate)), ok_bind,
      throwIf_neg (not_not.2 hgas'), ok_bind]
    rfl
  · rw [← hnonce]
    exact (State.commit_startNonce ..).trans (State.addBalance_spec ..).1

/-- An empty block is enacted on its parent's state. -/
theorem enact_empty (bc : BlockChain) {b : Block} {vb : VerifiedBlock} {trie : AccountTrie}
    {cur : BlockHeader} (hnonce : b.m_state.m_accountStartNonce = w.params.accountStartNonce)
    (hcur : cur.parentHash = b.m_previousBlock.m_hash) (h0 : b.m_previousBlock.m_hash ≠ 0)
    (htxs : vb.transactions = []) (huncles : vb.block.uncles = [])
    (hh : EmptyHeader w vb.info trie) :
    ∃ s, enact w bc (b.started trie cur) vb = .ok (vb.info.difficulty, s) ∧
      s.m_currentBlock = vb.info ∧ s.m_receipts = [] ∧
      s.m_state.m_state = rewarded w w.params.accountStartNonce vb.info trie ∧
      s.m_state.m_accountStartNonce = w.params.accountStartNonce :=
  enact_empty_of_root bc hnonce hcur h0 htxs huncles hh.receiptsRoot hh.logBloom hh.gasUsed
    (.inr hh.stateRoot)

/-- A header stands on its parent in the chain, whose state is at hand, and the fork of the block
hash contract is further than a block away. -/
structure OnParent (w : World) (bc : BlockChain) (h p : BlockHeader) (trie : AccountTrie) : Prop where
  info : bc.info w h.parentHash = .ok p
  hash : p.m_hash = h.parentHash
  hash_ne_zero : h.parentHash ≠ 0
  grandparent : p.number ≠ 0 → ∃ g, bc.info w p.parentHash = .ok g
  state : bc.stateDB p.stateRoot = some trie
  number : h.number = p.number + 1
  bound : h.number ≤ 2 ^ 32 - 1
  timestamp : 0 ≤ p.timestamp
  later : p.timestamp < h.timestamp
  fork : U256.ofInt h.number < w.params.constantinopleForkBlock
  fork_next : U256.ofInt (h.number + 1) < w.params.constantinopleForkBlock

section

variable {bc : BlockChain} {vb : VerifiedBlock} {p : BlockHeader} {trie : AccountTrie}
  (hdiv : w.params.gasLimitBoundDivisor ≠ 0) (hP : OnParent w bc vb.info p trie)

include hdiv hP

/-- A fresh block is taken to the parent, whether its header is given or not. -/
theorem sync_new {bi : BlockHeader} (hbi : bi = .empty ∨ bi = p) (now : ℤ) :
    ∃ cur, (new w 0).sync w bc vb.info.parentHash bi now =
        .ok ((({ new w 0 with m_previousBlock := p } : Block)).started trie cur) ∧
      cur.parentHash = p.m_hash := by
  have hsame : p.same (.clear w.crypto) = false := by
    have ht : p.timestamp ≠ -1 := by
      have := hP.timestamp
      omega
    simp [BlockHeader.same, BlockHeader.clear, BlockHeader.empty, ht]
  have hfork : U256.ofInt (p.number + 1) < w.params.constantinopleForkBlock := by
    rw [← hP.number]
    exact hP.fork
  obtain ⟨cur, hcur, hpar⟩ := resetCurrent_eq (b := { new w 0 with m_previousBlock := p }) hdiv
    hP.state hfork now
  refine ⟨cur, ?_, hpar⟩
  have hset : (if bi.isSet = true then .ok bi else bc.info w vb.info.parentHash) = .ok p := by
    rcases hbi with rfl | rfl
    · exact hP.info
    · rw [hP.info, ite_self]
  unfold sync
  rw [hset, ok_bind]
  change (if p.same (.clear w.crypto) = true then _
    else if p.same (.clear w.crypto) = true then _ else _) = _
  rw [hsame, if_neg (by simp), if_neg (by simp), throwIf_neg (by rw [hP.state]; simp), ok_bind, hcur]

/-- An empty block with the right header is enacted, and the state it leaves can be cleaned up. -/
theorem enactOn_empty (htxs : vb.transactions = []) (huncles : vb.block.uncles = [])
    (hh : EmptyHeader w vb.info trie) (now : ℤ) :
    ∃ s, (new w 0).enactOn w bc vb now = .ok (vb.info.difficulty, s) ∧ s.m_receipts = [] ∧
      s.committedDB w bc.stateDB = Function.update bc.stateDB vb.info.stateRoot
        (some (rewarded w w.params.accountStartNonce vb.info trie)) ∧
      ∃ s', s.cleanup w (s.committedDB w bc.stateDB) now = .ok s' := by
  have hver : vb.info.verify w.crypto .CheckNothingNew p none = .ok () := by
    refine BlockHeader.verify_eq_ok.2 ⟨hP.bound, fun h => absurd rfl h, fun _ => ?_, fun _ h => nomatch h⟩
    refine BlockHeader.verifyParent_eq_ok.2 ⟨fun _ => ?_, hP.later, hP.number⟩
    rw [BlockHeader.hash, if_neg (by rw [hP.hash]; exact hP.hash_ne_zero), hP.hash]
  have hgrand : ∃ g, (if p.number ≠ 0 then bc.info w p.parentHash else .ok .empty) = .ok g := by
    by_cases hn : p.number = 0
    · exact ⟨_, if_neg (not_not.2 hn)⟩
    · obtain ⟨g, hg⟩ := hP.grandparent hn
      exact ⟨g, (if_pos hn).trans hg⟩
  obtain ⟨g, hgrand⟩ := hgrand
  obtain ⟨cur, hsync, -⟩ := sync_new hdiv hP (.inl rfl) now
  have hfork : U256.ofInt (p.number + 1) < w.params.constantinopleForkBlock := by
    rw [← hP.number]
    exact hP.fork
  obtain ⟨cur', hreset, hcur'⟩ := resetCurrent_eq
    (b := ({ new w 0 with m_previousBlock := p } : Block).started trie cur) hdiv hP.state hfork now
  obtain ⟨s, hs, hscur, hsrec, hstate, hnonce⟩ := enact_empty (b := { new w 0 with m_previousBlock := p })
    bc rfl hcur' (by rw [hP.hash]; exact hP.hash_ne_zero) htxs huncles hh
  have hroot : s.rootHash w = vb.info.stateRoot := by
    rw [rootHash, State.rootHash, hstate, hh.stateRoot]
  have hdb : s.committedDB w bc.stateDB = Function.update bc.stateDB vb.info.stateRoot
      (some (rewarded w w.params.accountStartNonce vb.info trie)) := by
    rw [committedDB, hroot, hstate]
  refine ⟨s, ?_, hsrec, hdb, ?_⟩
  · unfold enactOn
    rw [hP.info, ok_bind, hver, ok_bind, hgrand, ok_bind, hsync, ok_bind, hreset, ok_bind]
    exact hs
  · obtain ⟨lim, hlim⟩ := Ethash.childGasLimit_ok hdiv vb.info
    unfold cleanup Ethash.populateFromParent
    rw [hscur, hlim, ok_bind, hdb]
    have hat : Function.update bc.stateDB vb.info.stateRoot
        (some (rewarded w w.params.accountStartNonce vb.info trie)) vb.info.stateRoot = some _ :=
      Function.update_self ..
    obtain ⟨cur'', hclean, -⟩ := resetCurrent_eq
      (b := { s with m_previousBlock := vb.info
                     m_currentBlock := (vb.info.populateFromParent vb.info).setGasLimit lim })
      hdiv hat hP.fork_next now
    exact ⟨_, hclean⟩

/-- The state after an empty block of the chain, by enacting it again. -/
theorem populateFromChain_empty {h : H256} {ir : ImportRequirements} {now : ℤ}
    (hknown : bc.isKnown w h true = true) (hblock : bc.block w h = some vb.block)
    (hv : vb.info = vb.block.info) (hnum : vb.info.number ≠ 0) (htxs : vb.transactions = [])
    (huncles : vb.block.uncles = []) (hh : EmptyHeader w vb.info trie)
    (hver : bc.verifyBlock w vb.block (fun _ _ => .ok 0) (ir ||| .TransactionBasic) = .ok vb) :
    ∃ s, (new w 0).populateFromChain w bc h ir now = .ok s ∧
      s.m_state.m_state = rewarded w w.params.accountStartNonce vb.info trie ∧
      s.m_state.m_cache = fun _ => none := by
  obtain ⟨cur, hsync, hcur⟩ := sync_new hdiv hP (.inr rfl) now
  obtain ⟨s, hs, -, -, hstate, -⟩ := enact_empty
    (b := { new w 0 with m_previousBlock := p, m_author := vb.info.author }) bc rfl hcur
    (by rw [hP.hash]; exact hP.hash_ne_zero) htxs huncles hh
  refine ⟨s, ?_, hstate, ?_⟩
  · unfold populateFromChain
    rw [hknown, throwIf_neg (by simp), ok_bind, hblock]
    simp only
    rw [if_pos (by rw [← hv]; exact hnum), ← hv, hP.info, ok_bind, hsync, ok_bind, hver, ok_bind]
    exact congrArg (fun r : Except Exception (U256 × Block) => r >>= fun r => .ok r.2) hs
  · unfold enact at hs
    simp only [bind_eq_ok] at hs
    obtain ⟨_, -, _, -, _, -, _, -, _, -, _, -, _, -, hs⟩ := hs
    cases hs
    rfl

end

/-- The state after the genesis block is the one it commits to. -/
theorem populateFromChain_genesis {bc : BlockChain} {trie : AccountTrie} {ir : ImportRequirements}
    {now : ℤ} (hdiv : w.params.gasLimitBoundDivisor ≠ 0) (hnum : w.genesisBlock.info.number = 0)
    (ht : 0 ≤ w.genesisBlock.info.timestamp)
    (hstate : bc.stateDB w.genesisBlock.info.stateRoot = some trie)
    (hfork : 1 < w.params.constantinopleForkBlock) :
    ∃ s, (new w 0).populateFromChain w bc (BlockChain.genesisHash w) ir now = .ok s ∧
      s.m_state = State.ofTrie trie w.params.accountStartNonce := by
  have htime : w.genesisBlock.info.timestamp ≠ -1 := by omega
  have hsame : w.genesisBlock.info.same (.clear w.crypto) = false := by
    simp [BlockHeader.same, BlockHeader.clear, BlockHeader.empty, htime]
  have hset : w.genesisBlock.info.isSet = true := by simp [BlockHeader.isSet, htime]
  obtain ⟨cur, hreset, -⟩ := resetCurrent_eq (b := { new w 0 with
      m_previousBlock := w.genesisBlock.info
      m_state := State.ofTrie (fun _ => none) w.params.accountStartNonce }) hdiv hstate
    (by rw [hnum]; exact hfork) now
  have hpop : (new w 0).populateFromChain w bc (BlockChain.genesisHash w) ir now =
      .ok (({ new w 0 with
        m_previousBlock := w.genesisBlock.info
        m_state := State.ofTrie (fun _ => none) w.params.accountStartNonce } : Block).started trie
          cur) := by
    unfold populateFromChain
    rw [throwIf_neg (by simp [BlockChain.isKnown]), ok_bind,
      show bc.block w (BlockChain.genesisHash w) = some w.genesisBlock from if_pos rfl]
    simp only
    rw [if_neg (by rw [hnum]; simp)]
    unfold sync
    rw [hset, if_pos rfl, ok_bind]
    change (if w.genesisBlock.info.same (.clear w.crypto) = true then _
      else if w.genesisBlock.info.same (.clear w.crypto) = true then _ else _) = _
    rw [hsame, if_neg (by simp), if_neg (by simp), throwIf_neg (by rw [hstate]; simp), ok_bind]
    exact hreset
  exact ⟨_, hpop, rfl⟩

end Block

namespace BlockChain

variable {w : World} {bc : BlockChain}

/-- The stake check changes at most the cache of the block hashes. -/
theorem touchStake_eq (w : World) (bc : BlockChain) (b : BlockRLP) :
    ∃ m u, bc.touchStake w b = { bc with m_blockHashes := m, m_cacheUsage := u } := by
  unfold touchStake touch
  split
  · split
    · exact ⟨_, _, rfl⟩
    · exact ⟨_, _, rfl⟩
  · exact ⟨_, _, rfl⟩

/-- An empty block that passes the checks in order is inserted. -/
theorem importBlock_empty {vb vb' : VerifiedBlock} {p : BlockHeader} {trie : AccountTrie} {now : ℤ}
    {mustBeNew : Bool} (hdiv : w.params.gasLimitBoundDivisor ≠ 0)
    (hP : Block.OnParent w bc vb.info p trie) (htxs : vb.transactions = [])
    (huncles : vb.block.uncles = []) (hh : Block.EmptyHeader w vb.info trie)
    (hplace : bc.checkPlace w vb.info mustBeNew = .ok ()) (hnow : vb.info.timestamp ≤ now)
    (hver : bc.verifyBlock w vb.block (bc.balanceRetriever w now) .InOrderChecks = .ok vb') :
    bc.importBlock w vb mustBeNew now =
      ({ bc.touchStake w vb.block with
        stateDB := Function.update bc.stateDB vb.info.stateRoot
          (some (Block.rewarded w w.params.accountStartNonce vb.info trie)) } : BlockChain
        ).insertBlockAndExtras w vb (RLPStream.encodeList [])
          ((bc.details vb.info.parentHash).totalDifficulty + vb.info.difficulty) := by
  obtain ⟨m, u, hT⟩ := touchStake_eq w bc vb.block
  have hP' : Block.OnParent w (bc.touchStake w vb.block) vb.info p trie := by
    rw [hT]
    exact ⟨hP.info, hP.hash, hP.hash_ne_zero, hP.grandparent, hP.state, hP.number, hP.bound,
      hP.timestamp, hP.later, hP.fork, hP.fork_next⟩
  have hdb : (bc.touchStake w vb.block).stateDB = bc.stateDB := by rw [hT]
  obtain ⟨s, hs, hrec, hcommit, s', hclean⟩ := Block.enactOn_empty hdiv hP' htxs huncles hh now
  rw [hdb] at hcommit hclean
  have htime : checkBlockTimestamp w vb.info now = .ok () := throwIf_neg fun h => by omega
  unfold importBlock
  simp only [hplace, htime, hver, hs, hdb, hclean, hrec, List.map_nil]
  rw [hcommit]

/-- Without receipts there are no blooms. -/
theorem receiptBlooms_nil : receiptBlooms (RLPStream.encodeList []) = .ok [] := rfl

end BlockChain

end Petrachor
