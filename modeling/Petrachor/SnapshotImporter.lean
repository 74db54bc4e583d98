import Petrachor.BlockHeader

/-!
# The import of block chunks

A chunk gives the number, the hash and the total difficulty of the block before its first one, and of
every block a part of the header, its transactions, its uncles and its receipts. The importer rebuilds
the header and hands the block to the chain.
-/

namespace Petrachor

/-- What the snapshot importer throws, or lets through. -/
inductive SnapshotException
  | InvalidStateChunkData | InvalidBlockChunkData | StateTrieReconstructionFailed
  | AccountAlreadyImported
  | other (e : Exception)
  deriving DecidableEq

abbrev Import (α : Type) := Except SnapshotException α

def ofRLP {α : Type} : Except Exception α → Import α
  | .error e => .error (.other e)
  | .ok a => .ok a

@[simp] theorem ofRLP_ok {α : Type} (a : α) : ofRLP (.ok a) = .ok a := rfl

@[simp] theorem import_bind {α β : Type} (a : α) (g : α → Import β) :
    ((Except.ok a : Import α) >>= g) = g a := rfl

namespace RLP

def toPositiveInt64 (r : RLP) (flags : Strictness) : Except Exception ℤ := do
  let i := toInt64 (← r.toInt 8 flags)
  if flag flags ThrowOnFail && decide (i < 0) then throw .BadCast
  return i

end RLP

def BlockHeader.setNumber (h : BlockHeader) (v : ℤ) : BlockHeader := noteDirty { h with number := v }

/-- The arguments of `importBlock`, but for the state database. -/
structure ImportedBlock where
  header : BlockHeader
  transactions : RLP
  uncles : RLP
  receipts : RLP
  totalDifficulty : U256
  deriving DecidableEq

/-- The chain that blocks are imported into, over a type of its states. -/
structure BlockChainImporterFace (σ : Type) where
  importBlock : σ → ImportedBlock → Import σ
  setChainStartBlockNumber : σ → ℤ → σ

namespace SnapshotImporter

/-- The body of the loop over the blocks of a chunk, up to the call of `importBlock`. -/
def rebuild (c : Crypto) (parentHash : H256) (number : ℤ) (totalDifficulty : U256)
    (blockAndReceipts : RLP) : Except Exception ImportedBlock := do
  let abridgedBlock ← blockAndReceipts.get 0
  let header := BlockHeader.empty.setParentHash parentHash
  let header := header.setAuthor (← (← abridgedBlock.get 0).toHash 20 RLP.VeryStrict)
  let blockStateRoot ← (← abridgedBlock.get 1).toHash 32 RLP.VeryStrict
  let transactions ← abridgedBlock.get 8
  let txRoot := c.orderedTrieRoot (← (List.range' 0 (← transactions.itemCount)).mapM fun i => do
    return (← transactions.get i).data)
  let uncles ← abridgedBlock.get 9
  let receipts ← blockAndReceipts.get 1
  let receiptsRoot := c.orderedTrieRoot ((← receipts.toList).map RLP.data)
  let header := header.setRoots txRoot receiptsRoot (c.sha3 uncles.data) blockStateRoot
  let header := header.setLogBloom (← (← abridgedBlock.get 2).toHash 256 RLP.VeryStrict)
  let difficulty ← (← abridgedBlock.get 3).toU256 RLP.VeryStrict
  let header := (header.setDifficulty difficulty).setNumber number
  let header := header.setGasLimit (← (← abridgedBlock.get 4).toU256 RLP.VeryStrict)
  let header := header.setGasUsed (← (← abridgedBlock.get 5).toU256 RLP.VeryStrict)
  let header := header.setTimestamp (← (← abridgedBlock.get 6).toPositiveInt64 RLP.VeryStrict)
  let header := header.setExtraData (← (← abridgedBlock.get 7).toBytes RLP.VeryStrict)
  return ⟨header, transactions, uncles, receipts, totalDifficulty + difficulty⟩

section

variable {σ : Type} (c : Crypto) (f : BlockChainImporterFace σ)

/-- The loop over the blocks of a chunk: as many of them from the item `i` on. -/
def importBlocks (blockChunk : RLP) : ℕ → ℕ → H256 → ℤ → U256 → σ → Import σ
  | 0, _, _, _, _, s => .ok s
  | n + 1, i, parentHash, number, totalDifficulty, s => do
    let blockAndReceipts ← ofRLP (blockChunk.get i)
    (if (← ofRLP blockAndReceipts.itemCount) ≠ 2 then .error .InvalidBlockChunkData else .ok ())
    let b ← ofRLP (rebuild c parentHash number totalDifficulty blockAndReceipts)
    let s ← f.importBlock s b
    importBlocks blockChunk n (i + 1) (b.header.hash c .WithSeal) (number + 1) b.totalDifficulty s

/-- One chunk; also the number of the block before its first. -/
def importBlockChunk (chunkUncompressed : Bytes) (s : σ) : Import (σ × ℤ) := do
  let blockChunk ← ofRLP (RLP.ofBytes chunkUncompressed RLP.VeryStrict)
  let itemCount ← ofRLP blockChunk.itemCount
  (if itemCount < 3 then .error .InvalidBlockChunkData else .ok ())
  let firstBlockNumber ← ofRLP (do (← blockChunk.get 0).toPositiveInt64 RLP.VeryStrict)
  let firstBlockHash ← ofRLP (do (← blockChunk.get 1).toHash 32 RLP.VeryStrict)
  let firstBlockDifficulty ← ofRLP (do (← blockChunk.get 2).toU256 RLP.VeryStrict)
  (if firstBlockNumber = 0 ∨ firstBlockHash = 0 ∨ firstBlockDifficulty = 0 then
    .error .InvalidBlockChunkData else .ok ())
  let s ← importBlocks c f blockChunk (itemCount - 3) 3 firstBlockHash (firstBlockNumber + 1)
    firstBlockDifficulty s
  .ok (s, firstBlockNumber)

/-- The last chunk is the oldest and comes first; the chain starts behind the block it names. -/
def importBlockChunks (readChunk : H256 → Import Bytes) (blockChunkHashes : List H256) (s : σ) :
    Import σ :=
  match blockChunkHashes.reverse with
  | [] => .ok s
  | h :: hs => do
    let (s, firstBlockNumber) ← importBlockChunk c f (← readChunk h) s
    let s := f.setChainStartBlockNumber s (firstBlockNumber + 1)
    hs.foldlM (fun s h => do return (← importBlockChunk c f (← readChunk h) s).1) s

end

end SnapshotImporter

end Petrachor
