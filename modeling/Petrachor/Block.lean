import Petrachor.BlockChain.Store

/-!
# Blocks being built and enacted

`Block` is the state at the end of a block together with the header, transactions and receipts of
the block that is built on it. A block of others is enacted by executing its transactions under its
own header; a block of our own is built by executing transactions, `commitToSeal` and `sealBlock`.
-/

namespace Petrachor

structure Block where
  m_state : State
  /-- The state before rewards. -/
  m_precommit : State
  m_transactions : List Transaction
  m_receipts : List TransactionReceipt
  m_previousBlock : BlockHeader
  m_currentBlock : BlockHeader
  /-- Not empty in a sealed block. -/
  m_currentBytes : Bytes
  m_committedToSeal : Bool
  m_currentTxs : Bytes
  m_currentUncles : Bytes
  m_author : Address

def c_blockhashContractAddress : Address := 0xf0

def c_blockhashContractCode : Bytes := fromHex <|
  "600073fffffffffffffffffffffffffffffffffffffffe33141561005957600143035b60011561005357600035610100" ++
  "820683015561010081061561004057005b6101008104905061010082019150610022565b506100e0565b4360003512156" ++
  "100d4576000356001814303035b61010081121515610085576000610100830614610088565b60005b156100a7576101008" ++
  "3019250610100820491506101008104905061006d565b610100811215156100bd57600060a052602060a0f35b610100820" ++
  "683015460c052602060c0f350506100df565b600060e052602060e0f35b5b50"

namespace Block

section

variable (w : World)

/-- `Block(bc, db)`, noted to the chain. -/
def new (author : Address) : Block :=
  let s := State.ofTrie (fun _ => none) w.params.accountStartNonce
  { m_state := s, m_precommit := s, m_transactions := [], m_receipts := [],
    m_previousBlock := .clear w.crypto, m_currentBlock := .clear w.crypto, m_currentBytes := [],
    m_committedToSeal := false, m_currentTxs := [], m_currentUncles := [], m_author := author }

def isSealed (b : Block) : Bool := b.m_currentBytes ≠ []

/-- The gas used by the transactions so far. -/
def gasUsed (b : Block) : U256 := (b.m_receipts.getLast?).elim 0 TransactionReceipt.cumulativeGasUsed

def logBloom (b : Block) : LogBloom := b.m_receipts.foldl (fun r i => r ||| i.bloom) 0

def rootHash (b : Block) : H256 := b.m_state.rootHash w.tries

def number (b : Block) : U256 := U256.ofInt b.m_currentBlock.number

/-! ## Starting on a parent -/

/-- The contents of the trie of a root; the empty one needs not be stored. -/
def trieAt (stateDB : H256 → Option AccountTrie) (root : H256) : Except Exception AccountTrie :=
  match stateDB root with
  | some t => .ok t
  | none => if root = w.crypto.EmptyTrie then .ok fun _ => none else .error .RootNotFound

def commitState (b : Block) (behaviour : CommitBehaviour) : Block :=
  { b with m_state := b.m_state.commit w.crypto.EmptyTrie w.tries behaviour }

/-- A call out of the executive, without the state that comes with an exception. -/
def dropState {α : Type} : Except (Exception × State) α → Except Exception α
  | .ok a => .ok a
  | .error e => .error e.1

/-- The system call that stores the parent's hash. -/
def storeBlockhash (b : Block) : Except Exception Block := do
  let e := Executive.new b.m_state ⟨b.m_currentBlock, .ok [], 0, w.params.chainID⟩
  let parentHash := b.m_previousBlock.hash w.crypto .WithSeal
  let e ← dropState (e.call w c_blockhashContractAddress SystemAddress 0 0 (asBytes 32 parentHash)
    1000000)
  let e ← dropState (e.go w)
  let r ← dropState (e.finalize w)
  return commitState w { b with m_state := r.2.m_s } .RemoveEmptyAccounts

/-- The contract is deployed at the block of the fork. -/
def deployBlockhash (b : Block) : Except Exception Block := do
  let tr := w.crypto.EmptyTrie
  let s ← b.m_state.createContract tr c_blockhashContractAddress
  let s ← s.setCode tr c_blockhashContractAddress c_blockhashContractCode
    (w.params.scheduleForBlockNumber b.number).accountVersion
  return commitState w { b with m_state := s } .KeepEmptyAccounts

def updateBlockhashContract (b : Block) : Except Exception Block := do
  let b ← (if b.number = w.params.constantinopleForkBlock then b.deployBlockhash w else .ok b)
  (if w.params.constantinopleForkBlock ≤ b.number then b.storeBlockhash w else .ok b)

/-- `resetCurrent(timestamp)`: an empty block on the previous one. -/
def resetCurrent (stateDB : H256 → Option AccountTrie) (b : Block) (timestamp : ℤ) :
    Except Exception Block := do
  let current := (BlockHeader.empty.setAuthor b.m_author).setTimestamp
    (max (b.m_previousBlock.timestamp + 1) timestamp)
  let current ← Ethash.populateFromParent w.params current b.m_previousBlock
  let trie ← trieAt w stateDB b.m_previousBlock.stateRoot
  let s := State.ofTrie trie b.m_state.m_accountStartNonce
  updateBlockhashContract w
    { b with m_transactions := [], m_receipts := [], m_currentBlock := current,
             m_currentBytes := [], m_state := s, m_precommit := s, m_committedToSeal := false }

/-- `sync(bc, block, bi)`. -/
def sync (bc : BlockChain) (b : Block) (hash : H256) (bi : BlockHeader) (now : ℤ) :
    Except Exception Block := do
  let bi ← (if bi.isSet then .ok bi else bc.info w hash)
  (if bi.same b.m_currentBlock then
    resetCurrent w bc.stateDB { b with m_previousBlock := b.m_currentBlock } now
  else if bi.same b.m_previousBlock then .ok b
  else do
    throwIf (bc.stateDB bi.stateRoot).isNone .InvalidStateRoot
    resetCurrent w bc.stateDB { b with m_previousBlock := bi } now)

/-! ## Executing transactions -/

def uncommitToSeal (b : Block) : Block :=
  if b.m_committedToSeal then { b with m_state := b.m_precommit, m_committedToSeal := false } else b

/-- The environment of the next transaction. -/
def envInfo (lastHashes : Except Exception (List H256)) (b : Block) : EnvInfo :=
  ⟨b.m_currentBlock, lastHashes, b.gasUsed, w.params.chainID⟩

/-- `execute(lastHashes, t, permanence)`; an exception leaves the block without the transaction. -/
def execute (lastHashes : Except Exception (List H256)) (b : Block) (t : Transaction)
    (p : State.Permanence) : Except (Exception × Block) Block :=
  if b.isSealed then .error (.InvalidOperationOnSealedBlock, b)
  else
    let b := b.uncommitToSeal
    match b.m_state.execute w (b.envInfo w lastHashes) t p with
    | .error (x, s) => .error (x, { b with m_state := s })
    | .ok (receipt, s) =>
      let b := { b with m_state := s }
      if p = .Committed then
        .ok { b with m_transactions := b.m_transactions ++ [t], m_receipts := b.m_receipts ++ [receipt] }
      else .ok b

/-- The share of an uncle's author; the product wraps. -/
def uncleReward (blockReward : U256) (current uncle : BlockHeader) : U256 :=
  blockReward * U256.ofInt (8 + uncle.number - current.number) / 8

def applyRewards (b : Block) (uncles : List BlockHeader) (blockReward : U256) : Block :=
  let tr := w.crypto.EmptyTrie
  let s := uncles.foldl
    (fun s i => s.addBalance tr i.author (uncleReward blockReward b.m_currentBlock i)) b.m_state
  let r := uncles.foldl (fun r _ => r + blockReward / 32) blockReward
  { b with m_state := s.addBalance tr b.m_currentBlock.author r }

/-- `blockReward((unsigned long long) number)`. -/
def reward (b : Block) : U256 := w.blockReward (b.m_currentBlock.number % 2 ^ 64).toNat

/-! ## Enacting a block -/

/-- The loop over the transactions. -/
def executeAll (lastHashes : Except Exception (List H256)) :
    List Transaction → Block → Except Exception Block
  | [], b => .ok b
  | t :: ts, b =>
    match b.execute w lastHashes t .Committed with
    | .ok b => executeAll lastHashes ts b
    | .error (x, _) => .error x

/-- `n` steps to the parent, by the details. -/
def nthParent (bc : BlockChain) : ℕ → H256 → H256
  | 0, h => h
  | n + 1, h => nthParent bc n (bc.details h).parent

/-- The checks on one uncle, behind the one that it is not excluded. -/
def checkUncle (bc : BlockChain) (current uncle : BlockHeader) : Except Exception Unit := do
  throwIf (!bc.isKnown w uncle.parentHash true) .UnknownParent
  let uncleParent ← bc.info w uncle.parentHash
  let depth := current.number - uncle.number
  throwIf (6 < depth) .UncleTooOld
  throwIf (depth < 1) .UncleIsBrother
  throwIf (nthParent bc (depth.toNat - 1) (bc.details current.parentHash).parent ≠
    uncleParent.hash w.crypto .WithSeal) .UncleParentNotInChain
  uncle.verify w.crypto .CheckNothingNew uncleParent none

/-- The loop over the uncles; each is excluded for those behind it. -/
def checkUncles (bc : BlockChain) (current : BlockHeader) :
    List H256 → List BlockHeader → Except Exception Unit
  | _, [] => .ok ()
  | excluded, uncle :: uncles => do
    throwIf (uncle.m_hash ∈ excluded) .UncleInChain
    checkUncle w bc current uncle
    checkUncles bc current (uncle.m_hash :: excluded) uncles

/-- The checks of the receipts against the header. -/
def checkReceipts (b : Block) : Except Exception Unit := do
  throwIf (w.crypto.orderedTrieRoot (b.m_receipts.map TransactionReceipt.streamRLP) ≠
    b.m_currentBlock.receiptsRoot) .InvalidReceiptsStateRoot
  throwIf (b.m_currentBlock.logBloom ≠ b.logBloom) .InvalidLogBloom

def commitBehaviour (b : Block) : CommitBehaviour := State.commitBehaviour w b.number

/-- Rewards and commit, after the transactions. -/
def applyRewardsAndCommit (b : Block) (uncles : List BlockHeader) : Block :=
  commitState w (b.applyRewards w uncles (b.reward w)) (b.commitBehaviour w)

/-- `enact`, on a block that was reset to the parent: returns the increase of the total
difficulty. -/
def enact (bc : BlockChain) (b : Block) (vb : VerifiedBlock) : Except Exception (U256 × Block) := do
  throwIf (b.m_currentBlock.parentHash ≠ b.m_previousBlock.hash w.crypto .WithSeal)
    .InvalidParentHash
  let b := { b with m_currentBlock := vb.info }
  let b ← executeAll w (bc.lastBlockHashes w vb.info.parentHash) vb.transactions b
  b.checkReceipts w
  throwIf (2 < vb.block.uncles.length) .TooManyUncles
  checkUncles w bc vb.info (vb.info.hash w.crypto .WithSeal :: bc.allKinFrom w 6 vb.info.parentHash)
    vb.block.uncles
  let b := b.applyRewardsAndCommit w vb.block.uncles
  throwIf (vb.info.stateRoot ≠ b.m_previousBlock.stateRoot ∧ vb.info.stateRoot ≠ b.rootHash w)
    .InvalidStateRoot
  throwIf (vb.info.gasUsed ≠ b.gasUsed) .InvalidGasUsed
  return (vb.info.difficulty, b)

/-- `enactOn`, of a fresh block on the parent. -/
def enactOn (bc : BlockChain) (b : Block) (vb : VerifiedBlock) (now : ℤ) :
    Except Exception (U256 × Block) := do
  let biParent ← bc.info w vb.info.parentHash
  vb.info.verify w.crypto .CheckNothingNew biParent none
  let _ ← (if biParent.number ≠ 0 then bc.info w biParent.parentHash else .ok .empty)
  let b ← b.sync w bc vb.info.parentHash .empty now
  let b ← b.resetCurrent w bc.stateDB now
  enact w bc { b with m_previousBlock := biParent } vb

/-- The state database once `cleanup` has committed to it. -/
def committedDB (stateDB : H256 → Option AccountTrie) (b : Block) : H256 → Option AccountTrie :=
  Function.update stateDB (b.rootHash w) (some b.m_state.m_state)

/-- `cleanup`, on the database it has committed to. -/
def cleanup (stateDB : H256 → Option AccountTrie) (b : Block) (now : ℤ) :
    Except Exception Block := do
  let current ← Ethash.populateFromParent w.params b.m_currentBlock b.m_currentBlock
  resetCurrent w stateDB { b with m_previousBlock := b.m_currentBlock, m_currentBlock := current } now

/-- `populateFromChain`: the state after a block of the chain, by enacting it again. The block is
verified without its parent, so that no stake is asked for. -/
def populateFromChain (bc : BlockChain) (b : Block) (h : H256) (ir : ImportRequirements)
    (now : ℤ) : Except Exception Block := do
  throwIf (!bc.isKnown w h true) .BlockNotFound
  match bc.block w h with
  | none => .error .BadRLP
  | some block =>
    if block.info.number ≠ 0 then do
      let bip ← bc.info w block.info.parentHash
      let b ← b.sync w bc block.info.parentHash bip now
      let vb ← bc.verifyBlock w block (fun _ _ => .ok 0) (ir ||| .TransactionBasic)
      return (← enact w bc { b with m_author := block.info.author } vb).2
    else
      let s := State.ofTrie (fun _ => none) b.m_state.m_accountStartNonce
      sync w bc { b with m_state := s } h block.info now

/-! ## Sealing -/

/-- The children of one ancestor that may be cited, at most `room` of them. -/
def pickUncles : ℕ → List H256 → List H256 → List H256
  | 0, _, _ => []
  | _, _, [] => []
  | room + 1, excluded, u :: us =>
    if u ∈ excluded then pickUncles (room + 1) excluded us
    else u :: pickUncles room (u :: excluded) us

/-- The walk of `commitToSeal` up the generations: at each ancestor from the grandparent on, the
children that are no kin yet. It asserts that every ancestor lists a child. -/
def selectUncles (bc : BlockChain) : ℕ → ℕ → List H256 → H256 → Except Exception (List H256)
  | 0, _, _, _ => .ok []
  | gen + 1, room, excluded, p =>
    if p = BlockChain.genesisHash w ∨ room = 0 then .ok []
    else do
      throwIf ((bc.details p).children = []) .abort
      let us := pickUncles room excluded (bc.details p).children
      return us ++
        (← selectUncles bc gen (room - us.length) (us ++ excluded) (bc.details p).parent)

/-- The uncles a block on this one's parent cites. -/
def unclesToCite (bc : BlockChain) (b : Block) : Except Exception (List H256) :=
  if b.m_previousBlock.number ≠ 0 then
    selectUncles w bc 6 2 (bc.allKinFrom w 6 b.m_currentBlock.parentHash)
      b.m_previousBlock.parentHash
  else .ok []

/-- The blocks of these hashes; one that is not there throws. -/
def citedBlocks (bc : BlockChain) (us : List H256) : Except Exception (List BlockRLP) :=
  us.mapM fun u => match bc.block w u with
    | some x => .ok x
    | none => .error .BadRLP

/-- The header once everything it commits to is known. -/
def sealedFields (b : Block) (txs : List Bytes) (uncles extraData : Bytes) : BlockHeader :=
  let h := b.m_currentBlock.setLogBloom b.logBloom
  let h := h.setGasUsed b.gasUsed
  let h := h.setRoots (w.crypto.orderedTrieRoot txs)
    (w.crypto.orderedTrieRoot (b.m_receipts.map TransactionReceipt.streamRLP)) (w.crypto.sha3 uncles)
    (b.rootHash w)
  let h := h.setParentHash (b.m_previousBlock.hash w.crypto .WithSeal)
  h.setExtraData (extraData.take 32)

def commitToSeal (bc : BlockChain) (b : Block) (extraData : Bytes) : Except Exception Block := do
  throwIf b.isSealed .InvalidOperationOnSealedBlock
  let b := if b.m_committedToSeal then b.uncommitToSeal else { b with m_precommit := b.m_state }
  let cited ← citedBlocks w bc (← unclesToCite w bc b)
  let txs ← b.m_transactions.mapM fun t => t.streamRLP .WithSignature
  let b := { b with m_currentTxs := RLPStream.encodeList txs
                    m_currentUncles := RLPStream.encodeList (cited.map BlockRLP.header) }
  let b := b.applyRewardsAndCommit w (cited.map BlockRLP.info)
  return { b with m_currentBlock := b.sealedFields w txs b.m_currentUncles extraData
                  m_committedToSeal := true }

end

end Block

end Petrachor
