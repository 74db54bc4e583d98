import Petrachor.Executive

/-!
# The block chain database

Blocks and their extras lie in databases with caches in front of them. A lookup takes the cached
entry first; one that finds an entry in the database only also puts it into the cache, which is a
step of its own here (`touch`), so that lookups are functions of the chain.
-/

namespace Petrachor

structure BlockDetails where
  number : ℕ
  totalDifficulty : U256
  parent : H256
  children : List H256
  deriving DecidableEq

def c_invalidNumber : ℕ := 2 ^ 32 - 1

def NullBlockDetails : BlockDetails := ⟨c_invalidNumber, BitVec.allOnes 256, 0, []⟩

def BlockDetails.isNull (d : BlockDetails) : Bool := d.number = c_invalidNumber

structure TransactionAddress where
  blockHash : H256
  index : ℕ
  deriving DecidableEq

def NullTransactionAddress : TransactionAddress := ⟨0, 0⟩

def c_bloomIndexSize : ℕ := 16
def c_bloomIndexLevels : ℕ := 2

/-- `BlocksBlooms`, `c_bloomIndexSize` of them. -/
abbrev BlocksBlooms := ℕ → LogBloom

/-- What a cache entry is of: a block, or an extra of one of the kinds. -/
inductive Extra
  | Block | Details | BlockHash | TransactionAddress | LogBlooms | Receipts | BlocksBlooms
  deriving DecidableEq

abbrev CacheID := H256 × Extra

def c_collectionQueueSize : ℕ := 20

structure BlockChain where
  blocksDB : H256 → Option BlockRLP
  detailsDB : H256 → Option BlockDetails
  blockHashDB : ℕ → Option H256
  transactionAddressDB : H256 → Option TransactionAddress
  logBloomsDB : H256 → Option (List LogBloom)
  receiptsDB : H256 → Option Bytes
  blocksBloomsDB : H256 → Option BlocksBlooms
  m_blocks : H256 → Option BlockRLP
  m_details : H256 → Option BlockDetails
  m_blockHashes : ℕ → Option H256
  m_transactionAddresses : H256 → Option TransactionAddress
  m_logBlooms : H256 → Option (List LogBloom)
  m_receipts : H256 → Option Bytes
  m_blocksBlooms : H256 → Option BlocksBlooms
  m_cacheUsage : List (List CacheID)
  m_lastBlockHash : H256
  m_lastBlockNumber : ℕ
  /-- The state database: the contents of the tries it holds the root of. -/
  stateDB : H256 → Option AccountTrie

namespace BlockChain

section

variable (w : World)

def genesisHash : H256 := w.genesisBlock.info.m_hash

/-- The chain a fresh database is opened to: only the genesis block, and the state it commits to. -/
def openFresh (genesisState : AccountTrie) : BlockChain :=
  let details : H256 → Option BlockDetails := Function.update (fun _ => none) (genesisHash w)
    (some ⟨0, w.genesisBlock.info.difficulty, 0, []⟩)
  { blocksDB := fun _ => none, detailsDB := details, blockHashDB := fun _ => none,
    transactionAddressDB := fun _ => none, logBloomsDB := fun _ => none,
    receiptsDB := fun _ => none, blocksBloomsDB := fun _ => none, m_blocks := fun _ => none,
    m_details := details, m_blockHashes := fun _ => none, m_transactionAddresses := fun _ => none,
    m_logBlooms := fun _ => none, m_receipts := fun _ => none, m_blocksBlooms := fun _ => none,
    m_cacheUsage := List.replicate c_collectionQueueSize [], m_lastBlockHash := genesisHash w,
    m_lastBlockNumber := 0,
    stateDB := Function.update (fun _ => none) w.genesisBlock.info.stateRoot (some genesisState) }

/-! ## Lookups -/

/-- A lookup: the cache, then the database. -/
def lookup {K V : Type} (cache db : K → Option V) (k : K) : Option V :=
  (cache k).orElse fun _ => db k

def block (bc : BlockChain) (h : H256) : Option BlockRLP :=
  if h = genesisHash w then some w.genesisBlock else lookup bc.m_blocks bc.blocksDB h

def details (bc : BlockChain) (h : H256) : BlockDetails :=
  (lookup bc.m_details bc.detailsDB h).getD NullBlockDetails

/-- `info`; a block that is not there throws. -/
def info (bc : BlockChain) (h : H256) : Except Exception BlockHeader :=
  match bc.block w h with
  | some b => .ok b.info
  | none => .error .BadRLP

/-- The header of `headerData(h)` read back, with the hash it was asked for. -/
def headerData (bc : BlockChain) (h : H256) : Option BlockHeader :=
  (bc.block w h).map fun b => if h = 0 then b.info else { b.info with m_hash := h }

def numberHash (bc : BlockChain) (n : ℕ) : H256 :=
  if n = 0 then genesisHash w else (lookup bc.m_blockHashes bc.blockHashDB n).getD 0

def transactionAddress (bc : BlockChain) (t : H256) : TransactionAddress :=
  (lookup bc.m_transactionAddresses bc.transactionAddressDB t).getD NullTransactionAddress

def isKnownTransaction (bc : BlockChain) (t : H256) : Bool := (bc.transactionAddress t).blockHash ≠ 0

def transactionLocation (bc : BlockChain) (t : H256) : H256 × ℕ :=
  let ta := bc.transactionAddress t
  if ta.blockHash = 0 then (0, 0) else (ta.blockHash, ta.index)

def blocksBlooms (bc : BlockChain) (id : H256) : BlocksBlooms :=
  (lookup bc.m_blocksBlooms bc.blocksBloomsDB id).getD fun _ => 0

def number (bc : BlockChain) : ℕ := bc.m_lastBlockNumber

def currentHash (bc : BlockChain) : H256 := bc.m_lastBlockHash

/-- `isKnown`; a block above the head's number is known only if it need not be current. -/
def isKnown (bc : BlockChain) (h : H256) (isCurrent : Bool) : Bool :=
  h = genesisHash w ∨
    ((lookup bc.m_blocks bc.blocksDB h).isSome ∧ (lookup bc.m_details bc.detailsDB h).isSome ∧
      (isCurrent → (bc.details h).number ≤ bc.m_lastBlockNumber))

/-- The blocks a child of `p` may not cite as uncles: its ancestors over some generations, and the
uncles these cited. -/
def allKinFrom (bc : BlockChain) : ℕ → H256 → List H256
  | 0, p => [p]
  | generations + 1, p =>
    if p = genesisHash w then [p]
    else
      p :: ((bc.block w p).elim [] fun b => b.uncles.map BlockHeader.m_hash) ++
        allKinFrom bc generations (bc.details p).parent

/-- `h` and the `count` hashes behind it, each the parent of the one before; zeros behind the
genesis block. -/
def precedingHashes (bc : BlockChain) : ℕ → H256 → Except Exception (List H256)
  | 0, h => .ok [h]
  | count + 1, h =>
    if h = 0 then do return h :: (← bc.precedingHashes count 0)
    else do
      let i ← bc.info w h
      return h :: (← bc.precedingHashes count i.parentHash)

def lastBlockHashes (bc : BlockChain) (h : H256) : Except Exception (List H256) :=
  bc.precedingHashes w 255 h

/-! ## Filling and collecting the caches -/

def noteUsed (bc : BlockChain) (id : CacheID) : BlockChain :=
  { bc with m_cacheUsage := match bc.m_cacheUsage with
      | u0 :: u1 :: rest => (id :: u0) :: u1.filter (· ≠ id) :: rest
      | u => u }

/-- An entry of the database, put into the cache if the cache has none. -/
def filled {K V : Type} [DecidableEq K] (cache db : K → Option V) (k : K) : K → Option V :=
  Function.update cache k (lookup cache db k)

/-- A query that may leave an entry in a cache. -/
inductive Query
  | block (h : H256)
  | details (h : H256)
  | numberHash (n : ℕ)
  | transactionAddress (t : H256)
  | logBlooms (h : H256)
  | receipts (h : H256)
  | blocksBlooms (id : H256)

def Query.id : Query → CacheID
  | .block h => (h, .Block)
  | .details h => (h, .Details)
  | .numberHash n => (BitVec.ofNat 256 n, .BlockHash)
  | .transactionAddress t => (t, .TransactionAddress)
  | .logBlooms h => (h, .LogBlooms)
  | .receipts h => (h, .Receipts)
  | .blocksBlooms id => (id, .BlocksBlooms)

/-- Whether the query reads the database and finds an entry there. -/
def hitsDB (bc : BlockChain) : Query → Bool
  | .block h => h ≠ genesisHash w ∧ (bc.m_blocks h).isNone ∧ (bc.blocksDB h).isSome
  | .details h => (bc.m_details h).isNone ∧ (bc.detailsDB h).isSome
  | .numberHash n => n ≠ 0 ∧ (bc.m_blockHashes n).isNone ∧ (bc.blockHashDB n).isSome
  | .transactionAddress t =>
    (bc.m_transactionAddresses t).isNone ∧ (bc.transactionAddressDB t).isSome
  | .logBlooms h => (bc.m_logBlooms h).isNone ∧ (bc.logBloomsDB h).isSome
  | .receipts h => (bc.m_receipts h).isNone ∧ (bc.receiptsDB h).isSome
  | .blocksBlooms id => (bc.m_blocksBlooms id).isNone ∧ (bc.blocksBloomsDB id).isSome

/-- The entry a query read from its database goes to its cache. -/
def fill (bc : BlockChain) : Query → BlockChain
  | .block h => { bc with m_blocks := filled bc.m_blocks bc.blocksDB h }
  | .details h => { bc with m_details := filled bc.m_details bc.detailsDB h }
  | .numberHash n => { bc with m_blockHashes := filled bc.m_blockHashes bc.blockHashDB n }
  | .transactionAddress t =>
    { bc with
      m_transactionAddresses := filled bc.m_transactionAddresses bc.transactionAddressDB t }
  | .logBlooms h => { bc with m_logBlooms := filled bc.m_logBlooms bc.logBloomsDB h }
  | .receipts h => { bc with m_receipts := filled bc.m_receipts bc.receiptsDB h }
  | .blocksBlooms id => { bc with m_blocksBlooms := filled bc.m_blocksBlooms bc.blocksBloomsDB id }

/-- What a query does to the chain. -/
def touch (bc : BlockChain) (q : Query) : BlockChain :=
  if bc.hitsDB w q then (bc.fill q).noteUsed q.id else bc

/-- One entry leaves its cache; the cached block hashes are never collected. -/
def evict (bc : BlockChain) : CacheID → BlockChain
  | (h, .Block) => { bc with m_blocks := Function.update bc.m_blocks h none }
  | (h, .Details) => { bc with m_details := Function.update bc.m_details h none }
  | (_, .BlockHash) => bc
  | (h, .TransactionAddress) =>
    { bc with m_transactionAddresses := Function.update bc.m_transactionAddresses h none }
  | (h, .LogBlooms) => { bc with m_logBlooms := Function.update bc.m_logBlooms h none }
  | (h, .Receipts) => { bc with m_receipts := Function.update bc.m_receipts h none }
  | (h, .BlocksBlooms) => { bc with m_blocksBlooms := Function.update bc.m_blocksBlooms h none }

/-- `garbageCollect`, when the time since the last collection and the memory in use let it run:
what was last used a whole queue of collections ago is evicted. -/
def garbageCollect (bc : BlockChain) : BlockChain :=
  let bc' := (bc.m_cacheUsage.getLast?.getD []).foldl evict bc
  { bc' with m_cacheUsage := [] :: bc'.m_cacheUsage.dropLast }

/-! ## Verification -/

end

end BlockChain

/-- `VerifiedBlockRef`. -/
structure VerifiedBlock where
  block : BlockRLP
  info : BlockHeader
  transactions : List Transaction

namespace BlockChain

section

variable (w : World)

/-- The header a check reads the parent from; it is not set when the requirements leave the parent
out. -/
def parentHeader (bc : BlockChain) (required : Bool) (h : BlockHeader) (missing : Exception) :
    Except Exception BlockHeader :=
  if required then
    match bc.headerData w h.parentHash with
    | some p => .ok p
    | none => .error missing
  else .ok .empty

def verifyHeader (bc : BlockChain) (b : BlockRLP) (balanceRetriever : BalanceRetriever)
    (ir : ImportRequirements) : Except Exception Unit := do
  throwIf (ir.has .PostGenesis ∧ (b.info.parentHash = 0 ∨ b.info.number = 0)) .InvalidParentHash
  let parent ← bc.parentHeader w (ir.has .Parent) b.info .InvalidParentHash
  Ethash.verify w.crypto w.params (if ir.has .ValidSeal then .CheckEverything else .QuickNonce)
    b.info balanceRetriever parent (some b)

def verifyUncle (bc : BlockChain) (balanceRetriever : BalanceRetriever) (ir : ImportRequirements)
    (uncle : BlockHeader) : Except Exception Unit := do
  let parent ← bc.parentHeader w (ir.has .UncleParent) uncle .InvalidUncleParentHash
  Ethash.verify w.crypto w.params (if ir.has .UncleSeals then .CheckEverything else .IgnoreSeal)
    uncle balanceRetriever parent none

def verifyTransaction (ir : ImportRequirements) (h : BlockHeader) (d : Bytes) :
    Except Exception Transaction := do
  let t ← Transaction.ofBytes d (if ir.has .TransactionSignatures then .Everything else .None)
  Ethash.verifyTransaction w.params ir t h 0
  return t

/-- `verifyBlock`, of the header, the uncles and the transactions, each as far as required. -/
def verifyBlock (bc : BlockChain) (b : BlockRLP) (balanceRetriever : BalanceRetriever)
    (ir : ImportRequirements) : Except Exception VerifiedBlock := do
  bc.verifyHeader w b balanceRetriever ir
  (if ir.has (.UncleBasic ||| .UncleParent ||| .UncleSeals) then
    b.uncles.forM (bc.verifyUncle w balanceRetriever ir) else .ok ())
  let transactions ← (if ir.has (.TransactionBasic ||| .TransactionSignatures) then
    b.transactions.mapM (verifyTransaction w ir b.info) else .ok [])
  return ⟨b, b.info, transactions⟩

end

end BlockChain

end Petrachor
