import Petrachor.BlockChain.Import
import Petrachor.SizedBlocks

/-!
# The block queue

Blocks that arrive are filed by what is known of their parents; those whose parents are at hand are
verified by threads, in any order, and handed to the chain in the order they came in. `sync` drains
the queue into the chain.
-/

namespace Petrachor

structure UnverifiedBlock where
  hash : H256
  parentHash : H256
  blockData : Bytes
  deriving DecidableEq

instance : BlockEntry UnverifiedBlock where
  blockData := UnverifiedBlock.blockData
  movedFrom b := { b with blockData := [] }

/-- An entry of `m_verifying` and `m_verified`: a verified block with its bytes. While a thread
verifies a block its entry has no bytes, and a header made up from the block's hash and its
parent's. -/
structure QueuedBlock where
  verified : VerifiedBlock
  blockData : Bytes

instance : BlockEntry QueuedBlock where
  blockData := QueuedBlock.blockData
  -- the header is copied, the vectors are emptied
  movedFrom b := { b with verified := { b.verified with transactions := [] }, blockData := [] }

namespace QueuedBlock

def info (b : QueuedBlock) : BlockHeader := b.verified.info

/-- The entry of a block that a thread has taken; the made up header has the block's hash in the
field of the uncles' hash. -/
def pending (hash parentHash : H256) : QueuedBlock :=
  ⟨⟨⟨.empty, [], [], [], []⟩, { BlockHeader.empty with sha3Uncles := hash, parentHash }, []⟩, []⟩

/-- The hash of an entry of `m_verifying`, as `updateBad_WITH_LOCK` takes it. -/
def verifyingHash (c : Crypto) (b : QueuedBlock) : H256 :=
  if b.blockData ≠ [] then b.info.hash c .WithSeal else b.info.sha3Uncles

end QueuedBlock

structure BlockQueue where
  m_readySet : Finset H256
  m_drainingSet : Finset H256
  m_unknownSet : Finset H256
  m_knownBad : Finset H256
  /-- From parents to blocks. -/
  m_unknown : SizedBlockMap H256
  /-- From timestamps to blocks. -/
  m_future : SizedBlockMap ℤ
  m_unverified : SizedBlockQueue UnverifiedBlock
  m_verifying : SizedBlockQueue QueuedBlock
  m_verified : SizedBlockQueue QueuedBlock
  m_difficulty : U256
  m_drainingDifficulty : U256

namespace BlockQueue

def empty : BlockQueue := ⟨∅, ∅, ∅, ∅, .empty, .empty, .empty, .empty, .empty, 0, 0⟩

/-- `clear`; the bad blocks stay known. -/
def clear (q : BlockQueue) : BlockQueue := { empty with m_knownBad := q.m_knownBad }

/-! ## Sizes -/

def c_maxKnownCount : ℕ := 100000
def c_maxKnownSize : ℕ := 128 * 1024 * 1024
def c_maxUnknownCount : ℕ := 100000
def c_maxUnknownSize : ℕ := 512 * 1024 * 1024

def knownSize (q : BlockQueue) : BitVec 64 :=
  q.m_verified.m_size + q.m_unverified.m_size + q.m_verifying.m_size

def knownCount (q : BlockQueue) : ℕ :=
  q.m_verified.count + q.m_unverified.count + q.m_verifying.count

def knownFull (q : BlockQueue) : Bool :=
  c_maxKnownSize < q.knownSize.toNat ∨ c_maxKnownCount < q.knownCount

def unknownSize (q : BlockQueue) : BitVec 64 := q.m_future.m_size + q.m_unknown.m_size

def unknownCount (q : BlockQueue) : ℕ := q.m_future.count + q.m_unknown.count

def unknownFull (q : BlockQueue) : Bool :=
  c_maxUnknownSize < q.unknownSize.toNat ∨ c_maxUnknownCount < q.unknownCount

section

variable (w : World)

/-! ## Bad blocks -/

/-- `collectUnknownBad_WITH_BOTH_LOCKS`: the blocks that wait for a bad parent are bad, and those that
wait for them. -/
def collectUnknownBad (q : BlockQueue) (bad : H256) : BlockQueue :=
  go (q.m_unknown.count + 1) [bad] q
where
  go : ℕ → List H256 → BlockQueue → BlockQueue
    | fuel + 1, b :: badQueue, q =>
      let r := q.m_unknown.removeByKeyEqual b
      let removed := r.1.map fun e => e.2.1
      go fuel (badQueue ++ removed)
        { q with
          m_unknown := r.2
          m_unknownSet := q.m_unknownSet \ removed.toFinset
          m_knownBad := q.m_knownBad ∪ removed.toFinset }
    | _, _, q => q

/-- A block that was taken out of a queue for being bad. -/
def noteBad (q : BlockQueue) (h : H256) : BlockQueue :=
  collectUnknownBad { q with m_knownBad := insert h q.m_knownBad,
                             m_readySet := q.m_readySet.erase h } h

/-- Whether a block is bad, or has a bad parent. -/
def isBad (q : BlockQueue) (parent hash : H256) : Bool :=
  parent ∈ q.m_knownBad ∨ hash ∈ q.m_knownBad

def verifiedBad (q : BlockQueue) (b : QueuedBlock) : Bool :=
  q.isBad b.info.parentHash (b.info.hash w.crypto .WithSeal)

def unverifiedBad (q : BlockQueue) (b : UnverifiedBlock) : Bool := q.isBad b.parentHash b.hash

def verifyingBad (q : BlockQueue) (b : QueuedBlock) : Bool :=
  q.isBad b.info.parentHash b.info.sha3Uncles

/-- The first pass of a round of `updateBad`: what `removeIf` returns is noted as bad. -/
def badVerified (q : BlockQueue) : List H256 × BlockQueue :=
  let r := q.m_verified.removeIf (q.verifiedBad w)
  let hashes := r.1.map fun b => b.info.hash w.crypto .WithSeal
  (hashes, hashes.foldl noteBad { q with m_verified := r.2 })

def badUnverified (q : BlockQueue) : List H256 × BlockQueue :=
  let r := q.m_unverified.removeIf q.unverifiedBad
  let hashes := r.1.map UnverifiedBlock.hash
  (hashes, hashes.foldl noteBad { q with m_unverified := r.2 })

def badVerifying (q : BlockQueue) : List H256 × BlockQueue :=
  let r := q.m_verifying.removeIf q.verifyingBad
  let hashes := r.1.map (QueuedBlock.verifyingHash w.crypto)
  (hashes, hashes.foldl noteBad { q with m_verifying := r.2 })

/-- One round of the loop of `updateBad`, and whether it found more bad blocks. -/
def badRound (q : BlockQueue) : Bool × BlockQueue :=
  let r1 := q.badVerified w
  let r2 := r1.2.badUnverified
  let r3 := r2.2.badVerifying w
  (r1.1 ≠ [] ∨ r2.1 ≠ [] ∨ r3.1 ≠ [], r3.2)

/-- `updateBad_WITH_LOCK`: rounds until one finds nothing; each round before it takes a block out of
a queue. -/
def updateBad (q : BlockQueue) (bad : H256) : BlockQueue :=
  let q := collectUnknownBad q bad
  go (q.knownCount + 1) q
where
  go : ℕ → BlockQueue → BlockQueue
    | 0, q => q
    | fuel + 1, q =>
      let r := q.badRound w
      if r.1 then go fuel r.2 else r.2

/-! ## Blocks that arrive -/

/-- `noteReady_WITH_LOCK`: the blocks that wait for a block that is now ready are ready too, and those
that wait for them. -/
def noteReady (q : BlockQueue) (good : H256) : BlockQueue :=
  go (q.m_unknown.count + 1) [good] q
where
  go : ℕ → List H256 → BlockQueue → BlockQueue
    | fuel + 1, parent :: goodQueue, q =>
      let r := q.m_unknown.removeByKeyEqual parent
      let hashes := r.1.map fun e => e.2.1
      go fuel (goodQueue ++ hashes)
        { q with
          m_unknown := r.2
          m_unverified := r.1.foldl (fun u e => u.enqueue ⟨e.2.1, parent, e.2.2⟩) q.m_unverified
          m_unknownSet := q.m_unknownSet \ hashes.toFinset
          m_readySet := q.m_readySet ∪ hashes.toFinset }
    | _, _, q => q

/-- `retryAllUnknown`: all that wait are ready, by the order of their parents. -/
def retryAllUnknown (q : BlockQueue) : BlockQueue :=
  go q.m_unknown.count q
where
  go : ℕ → BlockQueue → BlockQueue
    | 0, q => q
    | fuel + 1, q =>
      match q.m_unknown.m_map with
      | [] => q
      | (parent, _) :: _ =>
        let r := q.m_unknown.removeByKeyEqual parent
        let hashes := r.1.map fun e => e.2.1
        go fuel
          { q with
            m_unknown := r.2
            m_unverified := r.1.foldl (fun u e => u.enqueue ⟨e.2.1, parent, e.2.2⟩) q.m_unverified
            m_unknownSet := q.m_unknownSet \ hashes.toFinset
            m_readySet := q.m_readySet ∪ hashes.toFinset }

/-- Whether a block's parent is on its way into the chain, or in it. -/
def parentAtHand (bc : BlockChain) (q : BlockQueue) (parent : H256) : Bool :=
  parent ∈ q.m_readySet ∨ parent ∈ q.m_drainingSet ∨ bc.isKnown w parent true

/-- `BlockHeader::headerHashFromBlock`. -/
def headerHashFromBlock (c : Crypto) (block : Bytes) : Except Exception H256 := do
  let root ← RLP.ofBytes block RLP.VeryStrict
  let header ← root.get 0
  return c.sha3 header.data

/-- A block is read from its bytes and verified, as far as required. -/
def verifyBytes (bc : BlockChain) (block : Bytes) (ir : ImportRequirements) (now : ℤ) :
    Except Exception VerifiedBlock := do
  let b ← BlockRLP.ofBytes w.crypto block
  bc.verifyBlock w b (bc.balanceRetriever w now) ir

/-- The end of `import`, of a block that is new and not in the future. -/
def file (bc : BlockChain) (q : BlockQueue) (bi : BlockHeader) (h : H256) (block : Bytes) :
    ImportResult × BlockQueue :=
  let parent := bi.parentHash
  if parent ∈ q.m_knownBad then
    let h := bi.hash w.crypto .WithSeal
    (.BadChain, updateBad w { q with m_knownBad := insert h q.m_knownBad } h)
  else if !parentAtHand w bc q parent then
    (.UnknownParent,
      { q with m_unknown := q.m_unknown.insert parent h block,
               m_unknownSet := insert h q.m_unknownSet
               m_difficulty := q.m_difficulty + bi.difficulty })
  else
    (.Success,
      noteReady { q with m_unverified := q.m_unverified.enqueue ⟨h, parent, block⟩,
                         m_readySet := insert h q.m_readySet
                         m_difficulty := q.m_difficulty + bi.difficulty } h)

/-- `import(block, isOurs)`. -/
def importBlock (bc : BlockChain) (q : BlockQueue) (block : Bytes) (isOurs : Bool) (now : ℤ) :
    Except Exception ImportResult × BlockQueue :=
  match headerHashFromBlock w.crypto block with
  | .error e => (.error e, q)
  | .ok h =>
  if h ∈ q.m_readySet ∨ h ∈ q.m_drainingSet ∨ h ∈ q.m_unknownSet ∨ h ∈ q.m_knownBad then
    (.ok .AlreadyKnown, q)
  else match verifyBytes w bc block .PostGenesis now with
  | .error _ => (.ok .Malformed, q)
  | .ok vb =>
    let bi := vb.info
    if bc.isKnown w h true then (.ok .AlreadyInChain, q)
    else if now < bi.timestamp ∧ !isOurs then
      (.ok (if parentAtHand w bc q bi.parentHash then .FutureTimeKnown else .FutureTimeUnknown),
        { q with m_future := q.m_future.insert bi.timestamp h block,
                 m_difficulty := q.m_difficulty + bi.difficulty })
    else
      let r := file w bc q bi h block
      (.ok r.1, r.2)

/-- `tick`: the blocks whose time has come arrive again, the earliest first. -/
def tick (bc : BlockChain) (q : BlockQueue) (now : ℤ) : BlockQueue :=
  let r := q.m_future.removeByKeyNotGreater now
  r.1.foldl (fun q e => (q.importBlock w bc e.2.2 false now).2) { q with m_future := r.2 }

/-! ## Verification -/

/-- A verified block that comes out of `m_verifying`: it is bad if its parent is. -/
def publish (q : BlockQueue) (b : QueuedBlock) : BlockQueue :=
  let h := b.info.hash w.crypto .WithSeal
  if b.info.parentHash ∈ q.m_knownBad then
    { q with m_readySet := q.m_readySet.erase h, m_knownBad := insert h q.m_knownBad }
  else { q with m_verified := q.m_verified.enqueue b }

/-- `drainVerified_WITH_BOTH_LOCKS`: the finished blocks in front, up to the first that is not. -/
def drainVerified (q : BlockQueue) : BlockQueue :=
  go q.m_verifying.count q
where
  go : ℕ → BlockQueue → BlockQueue
    | 0, q => q
    | fuel + 1, q =>
      match q.m_verifying.dequeue with
      | none => q
      | some (b, rest) =>
        if b.blockData = [] then q else go fuel (publish w { q with m_verifying := rest } b)

/-- A verifier takes the next block. -/
def startVerifying (q : BlockQueue) : Option (UnverifiedBlock × BlockQueue) :=
  match q.m_unverified.dequeue with
  | none => none
  | some (work, rest) =>
    some (work, { q with m_unverified := rest,
                         m_verifying := q.m_verifying.enqueue (.pending work.hash work.parentHash) })

/-- A verifier has finished its block. -/
def finishVerifying (bc : BlockChain) (q : BlockQueue) (work : UnverifiedBlock) (now : ℤ) :
    BlockQueue :=
  match verifyBytes w bc work.blockData .OutOfOrderChecks now with
  | .error _ =>
    drainVerified w
      { q with m_readySet := q.m_readySet.erase work.hash,
               m_knownBad := insert work.hash q.m_knownBad,
               m_verifying := (q.m_verifying.removeIf (·.info.sha3Uncles = work.hash)).2 }
  | .ok vb =>
    let res : QueuedBlock := ⟨vb, work.blockData⟩
    match q.m_verifying.dequeue with
    | some (e, rest) =>
      if e.info.sha3Uncles = work.hash then
        drainVerified w (publish w { q with m_verifying := rest } res)
      else { q with m_verifying := q.m_verifying.replace (·.info.sha3Uncles = work.hash) res }
    | none => q

/-! ## Draining into the chain -/

/-- `drain(max)`: nothing while an earlier drain is not done. -/
def drain (q : BlockQueue) (max : ℕ) : List QueuedBlock × BlockQueue :=
  if q.m_drainingSet = ∅ then
    let r := q.m_verified.dequeueMultiple max
    let hashes := (r.1.map fun b => b.info.hash w.crypto .WithSeal).toFinset
    (r.1, { q with m_verified := r.2, m_drainingSet := hashes,
                   m_drainingDifficulty := r.1.foldl (fun d b => d + b.info.difficulty) 0
                   m_readySet := q.m_readySet \ hashes })
  else ([], q)

/-- `doneDrain(bad)`: whether more blocks are ready. -/
def doneDrain (q : BlockQueue) (bad : List H256) : Bool × BlockQueue :=
  let q := { q with m_drainingSet := ∅, m_difficulty := q.m_difficulty - q.m_drainingDifficulty,
                    m_drainingDifficulty := 0, m_knownBad := q.m_knownBad ∪ bad.toFinset }
  let q := bad.foldl (updateBad w) q
  (q.m_readySet ≠ ∅, q)

end

end BlockQueue

namespace BlockChain

/-- What `sync` collects over a batch. -/
structure SyncResult where
  dead : List H256
  fresh : List H256
  goodTransactions : List Transaction
  badBlocks : List H256
  count : ℕ

def SyncResult.empty : SyncResult := ⟨[], [], [], [], 0⟩

/-- What `sync` makes of an exception out of an import. A block that is known, in the future or hit
by a transient error is dropped, another exception makes it bad; what is no `dev::Exception` gets
out. -/
def SyncResult.note (acc : SyncResult) (hash : H256) : Exception → Except Exception SyncResult
  | .AlreadyHaveBlock => .ok acc
  | .FutureTime => .ok acc
  | .TransientError => .ok acc
  | .overflowError => .error .overflowError
  | .abort => .error .abort
  | _ => .ok { acc with badBlocks := acc.badBlocks ++ [hash] }

variable (w : World)

/-- The loop of `sync` over the drained blocks, each with the time it is imported at. -/
def syncBlocks : List (VerifiedBlock × ℤ) → SyncResult → BlockChain →
    Except Exception SyncResult × BlockChain
  | [], acc, bc => (.ok acc, bc)
  | (vb, now) :: rest, acc, bc =>
    match bc.importBlock w vb true now with
    | (.ok r, bc) =>
      syncBlocks rest
        { acc with
          dead := acc.dead ++ r.deadBlocks, fresh := acc.fresh ++ r.liveBlocks,
          goodTransactions := acc.goodTransactions ++ r.goodTransactions, count := acc.count + 1 } bc
    | (.error e, bc) =>
      match acc.note (vb.info.hash w.crypto .WithSeal) e with
      | .ok acc => syncBlocks rest acc bc
      | .error e => (.error e, bc)

/-- The blocks that a queue hands out, each with the time it is imported at. -/
def batchOf (blocks : List QueuedBlock) (now : ℕ → ℤ) : List (VerifiedBlock × ℤ) :=
  blocks.zipIdx.map fun b => (b.1.verified, now b.2)

/-- `sync(bq, stateDB, max)`; `now i` is the time at the `i`-th import. -/
def sync (bc : BlockChain) (q : BlockQueue) (max : ℕ) (now : ℕ → ℤ) :
    Except Exception (ImportRoute × Bool × ℕ) × BlockChain × BlockQueue :=
  let (blocks, q) := q.drain w max
  match syncBlocks w (batchOf blocks now) .empty bc with
  | (.error e, bc) => (.error e, bc, q)
  | (.ok r, bc) =>
    let (more, q) := q.doneDrain w r.badBlocks
    (.ok (⟨r.dead, r.fresh, r.goodTransactions⟩, more, r.count), bc, q)

end BlockChain

end Petrachor
