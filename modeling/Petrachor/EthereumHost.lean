import Petrachor.BlockChain.Index
import Petrachor.RLPStrict

/-!
# Serving headers

A peer asks for headers from a block on, up or down the canonical chain, with blocks skipped in between.
The host finds the top block of the answer, walks down from it, by parents near the head and by numbers
below, and turns the answer around if it was to go up.
-/

namespace Petrachor

/-- What a peer is sent at most. -/
def c_maxHeadersToSend : ℕ := 1024
def c_maxPayload : ℕ := 262144

namespace BlockChain

section

variable (w : World) (bc : BlockChain)

/-- The bytes of `headerData`. -/
def headerBytes (h : H256) : Bytes := (bc.block w h).elim [] BlockRLP.header

end

end BlockChain

namespace EthereumHostData

open BlockChain (genesisHash)

section

variable (w : World) (m_chain : BlockChain)

def c_blockNumberUsageLimit : ℕ := 1000

/-- The number below which the chain is not expected to change. -/
def limitBlock : ℕ :=
  let lastBlock := m_chain.number
  if c_blockNumberUsageLimit < lastBlock then lastBlock - c_blockNumberUsageLimit else 0

/-- The walk over parents: the block it ends at, and the steps that are left. -/
def parentWalk : ℕ → H256 → H256 × ℕ
  | 0, h => (h, 0)
  | step + 1, h =>
    let details := m_chain.details h
    if details.number < limitBlock m_chain then (h, step + 1) else parentWalk step details.parent

/-- The rest of the steps, by numbers. -/
def numberWalk : H256 × ℕ → H256
  | (h, 0) => h
  | (h, step + 1) =>
    let n := (m_chain.details h).number
    if step + 1 ≤ n then m_chain.numberHash w (n - (step + 1)) else 0

def nextHash (h : H256) (step : ℕ) : H256 := numberWalk w m_chain (parentWalk m_chain step h)

/-- The first loop of `blockHeaders`. -/
def collectHashes (step : ℕ) : ℕ → H256 → List H256
  | 0, _ => []
  | numHeadersToSend + 1, blockHash =>
    if blockHash = 0 ∨ m_chain.isKnown w blockHash true = false then []
    else blockHash :: collectHashes step numHeadersToSend (nextHash w m_chain blockHash step)

/-- The second: a header is appended to less than the payload limit. -/
def appendHeaders : List Bytes → Bytes → Bytes
  | [], rlp => rlp
  | header :: headers, rlp =>
    if rlp.length < c_maxPayload then appendHeaders headers (rlp ++ header) else rlp

/-- The block to start from and the headers to send, of a request by hash. -/
def startAtHash (blockHash : H256) (numHeadersToSend step : ℕ) (reverse : Bool) :
    Except Exception (H256 × ℕ) :=
  if m_chain.isKnown w blockHash true = false then .ok (0, numHeadersToSend)
  else if reverse then .ok (blockHash, numHeadersToSend)
  else
    let n := (m_chain.details blockHash).number
    if numHeadersToSend = 0 then .ok (0, numHeadersToSend)
    else if n ≠ 0 ∨ blockHash = genesisHash w then
      let top := (n + step * numHeadersToSend - 1) % 2 ^ 64
      let lastBlock := m_chain.number
      -- the block is known, so `n` is not above `lastBlock`
      let send := if lastBlock < top then ((lastBlock - n) / step + 1) % 2 ^ 32 else numHeadersToSend
      let top := if lastBlock < top then (n + step * (send - 1)) % 2 ^ 32 else top
      if top ≤ lastBlock then .ok (m_chain.numberHash w (top % 2 ^ 32), send) else .error .abort
    else .ok (0, numHeadersToSend)

/-- Of a request by number. -/
def startAtNumber (n numHeadersToSend step : ℕ) (reverse : Bool) : Except Exception (H256 × ℕ) :=
  if reverse then
    .ok (if n ≤ 2 ^ 32 - 1 then m_chain.numberHash w n else 0, numHeadersToSend)
  else
    let lastBlock := m_chain.number
    if lastBlock < n ∨ numHeadersToSend = 0 then .ok (0, numHeadersToSend)
    else
      let top := n + step * (numHeadersToSend - 1) % 2 ^ 64
      let send := if lastBlock < top then ((lastBlock - n) / step + 1) % 2 ^ 32 else numHeadersToSend
      let top := if lastBlock < top then n + step * (send - 1) % 2 ^ 32 else top
      if top ≤ lastBlock then .ok (m_chain.numberHash w (top % 2 ^ 32), send) else .error .abort

/-- The bytes of the headers, and how many they are. -/
def blockHeaders (blockId : RLP) (maxHeaders : ℕ) (skip : U256) (reverse : Bool) :
    Except Exception (Bytes × ℕ) := do
  let step := (skip.toNat % 2 ^ 32 + 1) % 2 ^ 32
  (if step = 0 then .error .abort else .ok ())
  let start ← (if (← blockId.size) = 32 then do
      startAtHash w m_chain (← blockId.toHash 32 RLP.Strict) maxHeaders step reverse
    else do
      startAtNumber w m_chain (← blockId.toInt bigintMaxSize RLP.Strict) maxHeaders step reverse)
  let hashes := collectHashes w m_chain step start.2 start.1
  let headers := (if reverse then hashes else hashes.reverse).map (m_chain.headerBytes w)
  return (appendHeaders headers [], hashes.length)

end

end EthereumHostData

end Petrachor
