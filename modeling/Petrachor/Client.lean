import Petrachor.PendingSync

/-!
# The client's blocks

The client keeps the block on the head of the chain, the one it works on and a copy of it for those who ask. The
working block is filled from the transaction queue, and what is new in it is announced with the hash of the
transaction.

A call has no result where an exception ends the worker.
-/

namespace Petrachor

namespace Block

/-- `operator=`: the state before rewards is that of the source, and what was committed to is not copied. -/
def assign (b s : Block) : Block :=
  { s with m_precommit := s.m_state, m_committedToSeal := false, m_currentTxs := b.m_currentTxs,
           m_currentUncles := b.m_currentUncles }

/-- What `sync(bc)` returns: the block has moved to another parent. -/
def syncMoves (w : World) (bc : BlockChain) (b : Block) : Except Exception Bool := do
  let bi ← bc.info w bc.currentHash
  return bi.same b.m_currentBlock || !bi.same b.m_previousBlock

end Block

structure Client where
  bc : BlockChain
  m_tq : TransactionQueue
  m_preSeal : Block
  m_working : Block
  m_postSeal : Block
  /-- What `appendFromNewPending` was called with: the hashes are pushed to the filter of pending changes, and the
  receipts are matched against the filters of logs. -/
  m_pendingChanged : List (TransactionReceipt × H256)

namespace Client

section

variable (w : World) (ask : Block → U256)

/-- The transactions of a block are imported again. -/
def resubmit (k : TransactionQueue.Containers) (ts : List Transaction) (q : TransactionQueue) :
    Option TransactionQueue :=
  ts.foldlM (fun q t => do return (← q.importTransaction w.crypto k t .Retry).2) q

/-- The blocks are moved to the head of the chain. -/
def moveTo (k : TransactionQueue.Containers) (cl : Client) (newPreMine : Block) : Option Client := do
  let cl := { cl with
    m_preSeal := cl.m_preSeal.assign newPreMine
    m_working := cl.m_working.assign newPreMine }
  let q ← (if !cl.m_postSeal.isSealed ∨
      cl.m_postSeal.m_currentBlock.hash w.crypto .WithSeal ≠ newPreMine.m_currentBlock.parentHash then
    resubmit w k cl.m_postSeal.m_transactions cl.m_tq
  else some cl.m_tq)
  return { cl with m_tq := q, m_postSeal := cl.m_postSeal.assign cl.m_working }

def resyncStateFromChain (k : TransactionQueue.Containers) (now : ℤ) (cl : Client) : Option Client :=
  if cl.bc.currentHash = cl.m_working.m_currentBlock.parentHash then some cl
  else
    let newPreMine := (Block.new w 0).assign cl.m_preSeal
    match newPreMine.syncMoves w cl.bc, newPreMine.sync w cl.bc cl.bc.currentHash .empty now with
    | .ok preChanged, .ok newPreMine =>
      if preChanged ∨ cl.m_postSeal.m_author ≠ cl.m_preSeal.m_author then cl.moveTo w k newPreMine
      else some cl
    | _, _ => none

/-- What was executed is announced: receipt `i` of the new ones with transaction `i` of the block. -/
def announce (cl : Client) (newPendingReceipts : List TransactionReceipt) : Client :=
  if newPendingReceipts = [] then cl
  else
    let cl := { cl with m_postSeal := cl.m_postSeal.assign cl.m_working }
    { cl with
      m_pendingChanged := cl.m_pendingChanged ++
        List.zipWith (fun r t => (r, TransactionQueue.hash w.crypto t))
          newPendingReceipts cl.m_postSeal.m_transactions }

/-- `syncTransactionQueue` behind `resyncStateFromChain`. -/
def fillWorking (clock : List Bool) (cl : Client) : Option Client :=
  if cl.m_working.isSealed then some cl
  else
    match cl.m_working.syncQueue w ask (cl.bc.lastBlockHashes w cl.m_working.m_currentBlock.parentHash)
      cl.m_tq clock with
    | .ok (some (s, _)) => some ({ cl with m_working := s.block, m_tq := s.queue }.announce w s.receipts)
    | _ => none

def syncTransactionQueue (k : TransactionQueue.Containers) (now : ℤ) (clock : List Bool) (cl : Client) :
    Option Client := do
  let cl ← cl.resyncStateFromChain w k now
  cl.fillWorking w ask clock

/-- `onChainChanged`, on the chain after the import; while the host syncs, the blocks are left behind. -/
def onChainChanged (k : TransactionQueue.Containers) (now : ℤ) (bc : BlockChain) (dead good : List Transaction)
    (isMajorSyncing : Bool) (cl : Client) : Option Client := do
  let q ← resubmit w k dead cl.m_tq
  let q ← good.foldlM (fun q t => q.dropGood w.crypto k t) q
  let cl := { cl with bc, m_tq := q }
  if isMajorSyncing then return cl else cl.resyncStateFromChain w k now

inductive Event
  | syncTransactionQueue (k : TransactionQueue.Containers) (now : ℤ) (clock : List Bool)
  | onChainChanged (k : TransactionQueue.Containers) (now : ℤ) (bc : BlockChain) (dead good : List Transaction)
      (isMajorSyncing : Bool)
  /-- Others use the queue too. -/
  | queue (k : TransactionQueue.Containers) (o : TransactionQueue.Op)

def step (cl : Client) : Event → Option Client
  | .syncTransactionQueue k now clock => cl.syncTransactionQueue w ask k now clock
  | .onChainChanged k now bc dead good isMajorSyncing => cl.onChainChanged w k now bc dead good isMajorSyncing
  | .queue k o => do return { cl with m_tq := ← cl.m_tq.step w.crypto k o }

def run (cl : Client) : List Event → Option Client
  | [] => some cl
  | e :: es => do run (← cl.step w ask e) es

end

end Client

end Petrachor
