import Mathlib
import Petrachor.Block

/-!
# Inserting blocks into the chain

`insertBlockAndExtras` writes a block with its extras and, if it is better than the head, makes it
the head: the route from the old head is walked by the details, the number and transaction records
of the blocks that come in are written, and the route is handed to the subscribers. An exception
leaves what was changed before it, so the operations return the chain beside their result.
-/

namespace Petrachor

structure ImportRoute where
  deadBlocks : List H256
  liveBlocks : List H256
  goodTransactions : List Transaction

namespace BlockChain

/-! ## The route between two blocks -/

/-- `n` steps to the parent: the blocks left behind, and the one reached. -/
def walkUp (bc : BlockChain) : ℕ → H256 → List H256 × H256
  | 0, h => ([], h)
  | n + 1, h =>
    let r := bc.walkUp n (bc.details h).parent
    (h :: r.1, r.2)

/-- The loop of `treeRoute` that takes both sides to the parent until they meet: what it appends to
the route and to its way back, and where they meet. It asserts that neither side runs out of
parents, which the numbers keep it from doing for more than `2 ^ 32` steps. -/
def meet (bc : BlockChain) (common pre post : Bool) :
    ℕ → H256 → H256 → Except Exception (List H256 × List H256 × H256)
  | 0, _, _ => .error .abort
  | fuel + 1, a, b =>
    let ret := if pre && (a ≠ b || common) then [a] else []
    let back := if post && (a ≠ b || (!pre && common)) then [b] else []
    if a = b then .ok (ret, back, a)
    else if a = 0 ∨ b = 0 then .error .abort
    else do
      let r ← bc.meet common pre post fuel (bc.details a).parent (bc.details b).parent
      return (ret ++ r.1, back ++ r.2.1, r.2.2)

/-- `treeRoute(from, to, common, pre, post)`. -/
def treeRoute (bc : BlockChain) (src dst : H256) (common pre post : Bool) :
    Except Exception (List H256 × H256 × ℕ) :=
  if src = 0 ∨ dst = 0 ∨ (bc.details src).isNull ∨ (bc.details dst).isNull then .ok ([], 0, 0)
  else do
    let fn := (bc.details src).number
    let tn := (bc.details dst).number
    let up := bc.walkUp (fn - tn) src
    let down := bc.walkUp (tn - fn) dst
    let m ← bc.meet common pre post (2 ^ 32) up.2 down.2
    let ret := (if pre then up.1 else []) ++ m.1
    let back := (if post then down.1 else []) ++ m.2.1
    let i := ret.length - if common ∧ ret ≠ [] ∧ back ≠ [] then 1 else 0
    return (ret ++ back.reverse, m.2.2, i)

/-! ## Blooms -/

def chunkId (level index : ℕ) : H256 := BitVec.ofNat 256 ((index * 0xff + level) % 2 ^ 32)

/-- Sets one bloom of a memoised chunk. -/
def setBloom (bc : BlockChain) (id : H256) (offset : ℕ) (b : LogBloom) : BlockChain :=
  { bc with m_blocksBlooms :=
      Function.update bc.m_blocksBlooms id (some (Function.update (bc.blocksBlooms id) offset b)) }

/-- The unsigned numbers from `start` to `stop`, excluded, wrapping if need be. -/
def wrappedRange (start stop : ℕ) : List ℕ :=
  (List.range ((stop + 2 ^ 32 - start) % 2 ^ 32)).map fun i => (start + i) % 2 ^ 32

/-- One level of `clearBlockBlooms`: the blooms are rebuilt from the level below. -/
def clearLevel (bc : BlockChain) (level : ℕ) (items : List ℕ) : BlockChain :=
  items.foldl (fun bc item =>
    let acc := if level = 0 then 0 else
      (List.range c_bloomIndexSize).foldl
        (fun acc i => acc ||| bc.blocksBlooms (chunkId (level - 1) item) i) (0 : LogBloom)
    bc.setBloom (chunkId level (item / c_bloomIndexSize)) (item % c_bloomIndexSize) acc) bc

def clearBlockBlooms (bc : BlockChain) (start stop : ℕ) : BlockChain :=
  let bc := bc.clearLevel 0 (wrappedRange start stop)
  bc.clearLevel 1 (wrappedRange (start / c_bloomIndexSize)
    (((stop + 2 ^ 32 - 1) % 2 ^ 32 / c_bloomIndexSize + 1) % 2 ^ 32))

/-- Forgets what the caches hold of the blocks from `firstInvalid` to the head. -/
def clearCachesDuringChainReversion (bc : BlockChain) (firstInvalid : ℕ) : BlockChain :=
  let stop := (bc.number + 1) % 2 ^ 32
  let bc := { bc with
    m_blockHashes := fun i => if firstInvalid ≤ i ∧ i < stop then none else bc.m_blockHashes i
    m_transactionAddresses := fun _ => none }
  bc.clearBlockBlooms firstInvalid stop

section

variable (w : World)

/-- The levels of `index` of a block's number, with its chunk and its place in there. -/
def bloomPlaces (number : ℕ) : List (H256 × ℕ) :=
  (List.range c_bloomIndexLevels).map fun level =>
    let index := number / c_bloomIndexSize ^ level
    (chunkId level (index / c_bloomIndexSize), index % c_bloomIndexSize)

/-- A block that becomes canonical adds its bloom at every level, in the cache and the database. -/
def addBlooms (bc : BlockChain) (tbi : BlockHeader) : BlockChain :=
  let blockBloom := tbi.logBloom ||| bloomBits (w.crypto.sha3 (asBytes 20 tbi.author))
  let places := bloomPlaces (toUnsigned tbi.number)
  let bc := places.foldl (fun bc p => bc.setBloom p.1 p.2 (bc.blocksBlooms p.1 p.2 ||| blockBloom)) bc
  let put (db : H256 → Option BlocksBlooms) (p : H256 × ℕ) : H256 → Option BlocksBlooms :=
    Function.update db p.1 (some (bc.blocksBlooms p.1))
  let db := places.foldl put bc.blocksBloomsDB
  { bc with blocksBloomsDB := db }

/-! ## Canonical records -/

/-- The location of every transaction of a block. -/
def addTransactionAddresses (bc : BlockChain) (b : BlockRLP) (hash : H256) : BlockChain :=
  let put (db : H256 → Option TransactionAddress) (t : Bytes × ℕ) : H256 → Option TransactionAddress :=
    Function.update db (w.crypto.sha3 t.1) (some ⟨hash, t.2⟩)
  let db := b.transactions.zipIdx.foldl put bc.transactionAddressDB
  { bc with transactionAddressDB := db }

/-- The record of a block's number; a negative one is never looked up. -/
def addBlockHash (bc : BlockChain) (tbi : BlockHeader) (hash : H256) : BlockChain :=
  if 0 ≤ tbi.number then
    { bc with blockHashDB := Function.update bc.blockHashDB tbi.number.toNat (some hash) }
  else bc

/-- What one block of the route that becomes canonical has written. -/
def makeCanonical (bc : BlockChain) (b : BlockRLP) : BlockChain :=
  let hash := b.info.hash w.crypto .WithSeal
  (addTransactionAddresses w (bc.addBlooms w b.info) b hash).addBlockHash b.info hash

/-- The loop over the route from the new head back to the common block; `b` is the new block, which
is not in the database yet. -/
def makeRouteCanonical (b : BlockRLP) (common : H256) :
    List H256 → BlockChain → Except Exception Unit × BlockChain
  | [], bc => (.ok (), bc)
  | h :: rest, bc =>
    if h = common then (.ok (), bc)
    else if h = b.info.hash w.crypto .WithSeal then
      makeRouteCanonical b common rest (bc.makeCanonical w b)
    else match bc.block w h with
      | some x => makeRouteCanonical b common rest (bc.makeCanonical w x)
      | none => (.error .BadRLP, bc)

/-- Whether a block of this difficulty and gas is better than the head. -/
def isBest (bc : BlockChain) (td : U256) (b : BlockHeader) : Except Exception Bool :=
  let last := (bc.details bc.currentHash).totalDifficulty
  if last < td then .ok true
  else if w.params.tieBreakingGas ∧ td = last then do
    return (← bc.info w bc.currentHash).gasUsed < b.gasUsed
  else .ok false

/-- The blocks of a route before and behind the common one, which are the dead and the live. -/
def splitRoute (route : List H256) (common : H256) : List H256 × List H256 :=
  (route.takeWhile (· ≠ common), (route.dropWhile (· ≠ common)).filter (· ≠ common))

/-- The block is appended to its parent's children, in the cache. -/
def addChild (bc : BlockChain) (parent child : H256) : BlockChain :=
  let d := bc.details parent
  { bc with m_details :=
      Function.update bc.m_details parent (some { d with children := d.children ++ [child] }) }

/-- The batches that hold the block itself and its extras. -/
def writeBlock (bc : BlockChain) (b : BlockRLP) (hash : H256) (d : BlockDetails)
    (blooms : List LogBloom) (receipts : Bytes) : BlockChain :=
  { bc with
    blocksDB := Function.update bc.blocksDB hash (some b)
    detailsDB := Function.update
      (Function.update bc.detailsDB b.info.parentHash (some (bc.details b.info.parentHash)))
      hash (some d)
    logBloomsDB := Function.update bc.logBloomsDB hash (some blooms)
    receiptsDB := Function.update bc.receiptsDB hash (some receipts) }

def setHead (bc : BlockChain) (hash : H256) (number : ℕ) : BlockChain :=
  if bc.m_lastBlockHash ≠ hash then
    { bc with m_lastBlockHash := hash, m_lastBlockNumber := number }
  else bc

/-- The blooms of receipts in their encoding. -/
def receiptBlooms (receipts : Bytes) : Except Exception (List LogBloom) := do
  let items ← (← RLP.ofBytes receipts RLP.VeryStrict).toList
  items.mapM fun i => do return (← TransactionReceipt.ofBytes i.data).bloom

/-- The batch of the extras goes unwritten: their databases stay as they were in `db`. -/
def dropBatch (bc db : BlockChain) : BlockChain :=
  { bc with
    blockHashDB := db.blockHashDB
    transactionAddressDB := db.transactionAddressDB
    blocksBloomsDB := db.blocksBloomsDB }

/-- The reorganisation to a better block: the caches, the canonical records, the route and the
common block. An exception on the way leaves what the caches have by then. -/
def reorganise (bc : BlockChain) (b : BlockRLP) :
    Except Exception (List H256 × H256) × BlockChain :=
  let last := bc.currentHash
  match bc.treeRoute last b.info.parentHash true true true with
  | .error e => (.error e, bc)
  | .ok (route, common, _) =>
    let route := route ++ [b.info.hash w.crypto .WithSeal]
    let bc := if common ≠ last then
      bc.clearCachesDuringChainReversion (((bc.details common).number + 1) % 2 ^ 32) else bc
    match makeRouteCanonical w b common route.reverse bc with
    | (.error e, bc') => (.error e, bc'.dropBatch bc)
    | (.ok (), bc) => (.ok (route, common), bc)

/-- `insertBlockAndExtras`. -/
def insertBlockAndExtras (bc : BlockChain) (vb : VerifiedBlock) (receipts : Bytes) (td : U256) :
    Except Exception ImportRoute × BlockChain :=
  let b := vb.block
  let hash := vb.info.hash w.crypto .WithSeal
  let d : BlockDetails := ⟨toUnsigned vb.info.number, td, vb.info.parentHash, []⟩
  let bc := bc.addChild vb.info.parentHash hash
  match receiptBlooms receipts with
  | .error e => (.error e, bc)
  | .ok blooms =>
    match bc.isBest w td vb.info with
    | .error e => (.error e, bc)
    | .ok false => (.ok ⟨[], [], vb.transactions⟩, bc.writeBlock b hash d blooms receipts)
    | .ok true =>
      match bc.reorganise w b with
      | (.error e, bc) => (.error e, bc)
      | (.ok (route, common), bc) =>
        let bc := (bc.writeBlock b hash d blooms receipts).setHead hash (toUnsigned vb.info.number)
        let r := splitRoute route common
        (.ok ⟨r.1, r.2, vb.transactions⟩, bc)

/-! ## Import -/

/-- The balance retriever of `verifyBlock`: the state after the canonical block of the number. -/
def balanceRetriever (bc : BlockChain) (now : ℤ) : BalanceRetriever := fun a n =>
  match (Block.new w 0).populateFromChain w bc (bc.numberHash w n) .None now with
  | .ok b => .ok (b.m_state.balance a)
  | .error .overflowError => .error .overflowError
  | .error .abort => .error .abort
  | .error _ => .ok 0

/-- The number the stake of a block is asked for, if verification in order comes to ask for it: it
does when a retriever that fails makes it fail. -/
def asksStake (bc : BlockChain) (b : BlockRLP) : Option ℕ :=
  match bc.verifyHeader w b (fun _ n => .error (.InvalidNonce n 0)) .InOrderChecks with
  | .error (.InvalidNonce n _) => some n.toNat
  | _ => none

/-- What the stake check leaves in the cache of the block hashes. -/
def touchStake (bc : BlockChain) (b : BlockRLP) : BlockChain :=
  match bc.asksStake w b with
  | some n => bc.touch w (.numberHash n)
  | none => bc

def checkBlockIsNew (bc : BlockChain) (info : BlockHeader) : Except Exception Unit :=
  throwIf (bc.isKnown w (info.hash w.crypto .WithSeal) true) .AlreadyHaveBlock

def checkBlockTimestamp (info : BlockHeader) (now : ℤ) : Except Exception Unit :=
  throwIf (now < info.timestamp ∧ !w.params.allowFutureBlocks) .FutureTime

/-- The checks of `import` and `insert` before verification; a known parent without details ends the
process. -/
def checkPlace (bc : BlockChain) (info : BlockHeader) (mustBeNew : Bool) : Except Exception Unit := do
  (if mustBeNew then bc.checkBlockIsNew w info else .ok ())
  throwIf (!bc.isKnown w info.parentHash false) .UnknownParent
  throwIf (bc.details info.parentHash).isNull .abort

/-- `import` of a verified block. -/
def importBlock (bc : BlockChain) (vb : VerifiedBlock) (mustBeNew : Bool) (now : ℤ) :
    Except Exception ImportRoute × BlockChain :=
  match bc.checkPlace w vb.info mustBeNew with
  | .error e => (.error e, bc)
  | .ok () =>
  let pd := bc.details vb.info.parentHash
  match checkBlockTimestamp w vb.info now with
  | .error e => (.error e, bc)
  | .ok () =>
  let verified := bc.verifyBlock w vb.block (bc.balanceRetriever w now) .InOrderChecks
  let bc := bc.touchStake w vb.block
  match verified with
  | .error e => (.error e, bc)
  | .ok _ =>
  match (Block.new w 0).enactOn w bc vb now with
  | .error .BadRoot => (.error .TransientError, bc)
  | .error e => (.error e, bc)
  | .ok (tdIncrease, s) =>
  let bc := { bc with stateDB := s.committedDB w bc.stateDB }
  match s.cleanup w bc.stateDB now with
  | .error .BadRoot => (.error .TransientError, bc)
  | .error e => (.error e, bc)
  | .ok _ =>
  bc.insertBlockAndExtras w vb (RLPStream.encodeList (s.m_receipts.map TransactionReceipt.streamRLP))
    (pd.totalDifficulty + tdIncrease)

/-- `import(block, db, mustBeNew)`: first the checks that need no parent. -/
def importUnverified (bc : BlockChain) (b : BlockRLP) (mustBeNew : Bool) (now : ℤ) :
    Except Exception ImportRoute × BlockChain :=
  match bc.verifyBlock w b (bc.balanceRetriever w now) .OutOfOrderChecks with
  | .error e => (.error e, bc)
  | .ok vb => bc.importBlock w vb mustBeNew now

/-- The child is listed once only. -/
def addChildOnce (bc : BlockChain) (parent child : H256) : BlockChain :=
  if child ∈ (bc.details parent).children then
    { bc with m_details := Function.update bc.m_details parent (some (bc.details parent)) }
  else bc.addChild parent child

/-- The root of receipts in their encoding. -/
def receiptsRoot (receipts : Bytes) : Except Exception H256 := do
  let items ← (← RLP.ofBytes receipts RLP.VeryStrict).toList
  return w.crypto.orderedTrieRoot (items.map RLP.data)

/-- `insert`: the block goes into the database and is not enacted; the head stays. -/
def insert (bc : BlockChain) (b : BlockRLP) (receipts : Bytes) (mustBeNew : Bool) (now : ℤ) :
    Except Exception Unit × BlockChain :=
  match bc.verifyBlock w b (bc.balanceRetriever w now) .OutOfOrderChecks with
  | .error e => (.error e, bc)
  | .ok vb =>
  let checks : Except Exception Unit := do
    (if mustBeNew then bc.checkBlockIsNew w vb.info else .ok ())
    throwIf (!bc.isKnown w vb.info.parentHash false) .UnknownParent
    throwIf (vb.info.receiptsRoot ≠ (← receiptsRoot w receipts)) .InvalidReceiptsStateRoot
    throwIf (bc.details vb.info.parentHash).isNull .abort
    checkBlockTimestamp w vb.info now
  match checks with
  | .error e => (.error e, bc)
  | .ok () =>
  let pd := bc.details vb.info.parentHash
  let verified := bc.verifyBlock w b (bc.balanceRetriever w now) .InOrderChecks
  let bc := bc.touchStake w b
  match verified, receiptBlooms receipts with
  | .error e, _ => (.error e, bc)
  | _, .error e => (.error e, bc)
  | .ok _, .ok blooms =>
    let hash := vb.info.hash w.crypto .WithSeal
    let d : BlockDetails := ⟨(pd.number + 1) % 2 ^ 32, pd.totalDifficulty + vb.info.difficulty,
      vb.info.parentHash, []⟩
    (.ok (), (bc.addChildOnce vb.info.parentHash hash).writeBlock b hash d blooms receipts)

/-- `insertWithoutParent`: the caller gives the total difficulty. -/
def insertWithoutParent (bc : BlockChain) (b : BlockRLP) (receipts : Bytes) (td : U256) (now : ℤ) :
    Except Exception ImportRoute × BlockChain :=
  let verified : Except Exception VerifiedBlock := do
    let vb ← bc.verifyBlock w b (bc.balanceRetriever w now) .OutOfOrderChecks
    bc.checkBlockIsNew w vb.info
    checkBlockTimestamp w vb.info now
    return vb
  match verified with
  | .error e => (.error e, bc)
  | .ok vb => bc.insertBlockAndExtras w vb receipts td

/-- `rewind`: an earlier block of the chain becomes the head again. -/
def rewind (bc : BlockChain) (newHead : ℕ) : BlockChain :=
  if bc.m_lastBlockNumber ≤ newHead then bc
  else
    let bc := (bc.clearCachesDuringChainReversion (newHead + 1)).touch w (.numberHash newHead)
    { bc with m_lastBlockHash := bc.numberHash w newHead, m_lastBlockNumber := newHead }

end

end BlockChain

end Petrachor
