import Petrachor.BlockChainSync.Items
import Mathlib.Data.List.AList

/-!
# Requests to a peer

A peer is asked for the bodies of the headers that follow the imported blocks, or for headers that are missing
below held ones. The numbers that are asked for are put down for the peer, and given back when it answers or
is asked again.
-/

namespace Petrachor

namespace BlockChainSync

def c_maxRequestHeaders : ℕ := 1024

def c_maxRequestBodies : ℕ := 1024

inductive SyncState
  | NotSynced | Idle | Waiting | Blocks | State
  deriving DecidableEq

structure Header where
  data : Bytes
  hash : H256
  parent : H256

structure HeaderId where
  transactionsRoot : H256
  uncles : H256

/-- What is asked of the block queue and the chain. -/
structure Host where
  knownFull : Bool
  number : ℕ
  numberHash : ℕ → H256

/-- The numbers that each peer was asked for. -/
abbrev SyncPeers (ι : Type) := AList fun _ : ι => List ℕ

/-- The peers are keys of the maps only. -/
structure Sync (ι : Type) where
  m_state : SyncState
  m_chainStartBlock : ℕ
  m_downloadingHeaders : Finset ℕ
  m_downloadingBodies : Finset ℕ
  m_headers : Items Header
  m_bodies : Items Bytes
  m_headerSyncPeers : SyncPeers ι
  m_bodySyncPeers : SyncPeers ι
  m_headerIdToNumber : List (HeaderId × ℕ)
  m_haveCommonHeader : Bool
  m_lastImportedBlock : ℕ
  m_lastImportedBlockHash : H256

inductive Request
  | BlockHeaders (start count : ℕ)
  | BlockBodies (hashes : List H256)
  deriving DecidableEq

namespace Sync

variable {ι : Type}

def isSyncing (s : Sync ι) : Bool := s.m_state ≠ .Idle

/-- The checks of `invariants` on the numbers that are being downloaded. -/
def mapsMatch (s : Sync ι) : Bool :=
  !(decide (s.m_headerSyncPeers.entries = [] ↔ s.m_downloadingHeaders ≠ ∅)) &&
    !(decide (s.m_bodySyncPeers.entries = [] ↔ s.m_downloadingBodies ≠ ∅) &&
      s.m_downloadingBodies.card ≤ s.m_headerIdToNumber.length)

def invariants (host : Host) (s : Sync ι) : Bool :=
  !(!s.isSyncing && !s.m_headers.isEmpty) && !(!s.isSyncing && !s.m_bodies.isEmpty) &&
    !(s.isSyncing && host.number > 0 && s.m_haveCommonHeader && s.m_lastImportedBlock = 0) &&
    !(s.isSyncing && s.m_headers.head?.any fun first => s.m_lastImportedBlock ≥ first.1) && s.mapsMatch

def pauseSync (s : Sync ι) : Sync ι := { s with m_state := .Waiting }

def resetSync (s : Sync ι) : Sync ι :=
  { s with m_downloadingHeaders := ∅, m_downloadingBodies := ∅, m_headers := [], m_bodies := [],
           m_headerSyncPeers := ∅, m_bodySyncPeers := ∅, m_headerIdToNumber := [], m_state := .NotSynced }

/-- A number is no longer being downloaded, whoever was asked for it: `onPeerNewBlock` on a block that was imported, and
`onPeerBlockHeaders` on headers that do not fit. -/
def eraseNumber (n : ℕ) (s : Sync ι) : Sync ι :=
  { s with
    m_downloadingBodies := s.m_downloadingBodies.erase n
    m_downloadingHeaders := s.m_downloadingHeaders.erase n }

/-- The loop over the bodies that are needed, with the hashes of their blocks. -/
def neededBodies (bodies : Items Bytes) :
    ℕ → List Header → List (ℕ × H256) → Finset ℕ → List (ℕ × H256) × Finset ℕ
  | _, [], needed, downloading => (needed, downloading)
  | block, header :: headers, needed, downloading =>
    if needed.length < c_maxRequestBodies then
      if block ∉ downloading ∧ haveItem bodies block = false then
        neededBodies bodies ((block + 1) % 2 ^ 32) headers (needed ++ [(block, header.hash)]) (insert block downloading)
      else neededBodies bodies ((block + 1) % 2 ^ 32) headers needed downloading
    else (needed, downloading)

def needed (s : Sync ι) : List (ℕ × H256) × Finset ℕ :=
  match s.m_headers with
  | [] => ([], s.m_downloadingBodies)
  | header :: _ =>
    if s.m_haveCommonHeader ∧ header.1 = (s.m_lastImportedBlock + 1) % 2 ^ 32 then
      neededBodies s.m_bodies header.1 header.2 [] s.m_downloadingBodies
    else ([], s.m_downloadingBodies)

/-- The block below the ones whose headers are held. -/
def below (s : Sync ι) : ℕ :=
  match s.m_headers with
  | [] => s.m_lastImportedBlock
  | header :: _ => min s.m_lastImportedBlock ((header.1 + 2 ^ 32 - 1) % 2 ^ 32)

/-- Backwards until the common block is found, one header at a time. -/
def stepBack (host : Host) (s : Sync ι) : Sync ι :=
  { s with m_lastImportedBlock := s.below, m_lastImportedBlockHash := host.numberHash s.below,
           m_haveCommonHeader := s.below ≤ (s.m_chainStartBlock + 1) % 2 ^ 32 }

/-- The loop over numbers that are being downloaded. -/
def skipDownloading (downloading : Finset ℕ) : ℕ → ℕ → ℕ × ℕ
  | 0, start => (start, 0)
  | count + 1, start =>
    if start ∈ downloading then skipDownloading downloading count ((start + 1) % 2 ^ 32) else (start, count + 1)

/-- `for (unsigned block = start; block < start + count; block++)`. -/
def blocksFrom (start count : ℕ) : List ℕ := List.range' start ((start + count) % 2 ^ 32 - start)

/-- The next numbers below a run of headers: the first that is not being downloaded, and those to put down. -/
def nextHeaders (downloading : Finset ℕ) (next start : ℕ) : ℕ × List ℕ :=
  let count := min c_maxRequestHeaders ((next + 2 ^ 32 - start) % 2 ^ 32)
  let skipped := skipDownloading downloading count start
  (skipped.1, (blocksFrom skipped.1 skipped.2).filter (· ∉ downloading))

/-- The search for headers to ask for: the first number and the numbers that are put down. -/
def searchHeaders (downloading : Finset ℕ) : ℕ → Items Header → ℕ → Option (Option (ℕ × List ℕ))
  | _, [], _ => some none
  | 0, _ :: _, _ => none
  | fuel + 1, next :: rest, start =>
    let headers := nextHeaders downloading next.1 start
    if headers.2.length > 0 then some (some headers)
    else if headers.1 ≥ next.1 then searchHeaders downloading fuel rest ((next.1 + next.2.length) % 2 ^ 32)
    else searchHeaders downloading fuel (next :: rest) headers.1

section

variable [DecidableEq ι]

/-- The numbers are no longer being downloaded from the peer. -/
def erasePeer (p : ι) (downloading : Finset ℕ) (peers : SyncPeers ι) : Finset ℕ × SyncPeers ι :=
  match peers.lookup p with
  | some blocks => (blocks.foldl Finset.erase downloading, peers.erase p)
  | none => (downloading, peers)

def clearPeerDownload (p : ι) (s : Sync ι) : Sync ι :=
  { s with m_downloadingHeaders := (erasePeer p s.m_downloadingHeaders s.m_headerSyncPeers).1,
           m_headerSyncPeers := (erasePeer p s.m_downloadingHeaders s.m_headerSyncPeers).2,
           m_downloadingBodies := (erasePeer p s.m_downloadingBodies s.m_bodySyncPeers).1,
           m_bodySyncPeers := (erasePeer p s.m_downloadingBodies s.m_bodySyncPeers).2 }

/-- The loop over the peers that are gone. -/
def eraseExpired (expired : ι → Bool) (downloading : Finset ℕ) (peers : SyncPeers ι) : Finset ℕ × SyncPeers ι :=
  (peers.keys.filter expired).foldl (fun r p => erasePeer p r.1 r.2) (downloading, peers)

/-- `clearPeerDownload()`. -/
def clearExpired (expired : ι → Bool) (s : Sync ι) : Sync ι :=
  { s with m_downloadingHeaders := (eraseExpired expired s.m_downloadingHeaders s.m_headerSyncPeers).1,
           m_headerSyncPeers := (eraseExpired expired s.m_downloadingHeaders s.m_headerSyncPeers).2,
           m_downloadingBodies := (eraseExpired expired s.m_downloadingBodies s.m_bodySyncPeers).1,
           m_bodySyncPeers := (eraseExpired expired s.m_downloadingBodies s.m_bodySyncPeers).2 }

def requestHeaders (fuel : ℕ) (p : ι) (s : Sync ι) : Option (Sync ι × Option Request) :=
  let start := (s.m_lastImportedBlock + 1) % 2 ^ 32
  let found := match s.m_headers with
    | [] => searchHeaders s.m_downloadingHeaders fuel [] start
    | first :: rest =>
      if start ≥ first.1 then
        searchHeaders s.m_downloadingHeaders fuel rest ((first.1 + first.2.length) % 2 ^ 32)
      else searchHeaders s.m_downloadingHeaders fuel (first :: rest) start
  found.bind fun
    | none => some (s, none)
    | some (start, headers) =>
      if haveItem s.m_headers start then none
      else some ({ s with m_downloadingHeaders := s.m_downloadingHeaders ∪ headers.toFinset,
                          m_headerSyncPeers := s.m_headerSyncPeers.insert p headers },
        some (.BlockHeaders start headers.length))

/-- The state and what the peer is asked for; none if the search does not end, or ends with an assertion that fails. -/
def requestBlocks (host : Host) (fuel : ℕ) (p : ι) (s : Sync ι) : Option (Sync ι × Option Request) :=
  let s := s.clearPeerDownload p
  if host.knownFull then some (s.pauseSync, none)
  else if s.needed.1 ≠ [] then
    some ({ s with m_downloadingBodies := s.needed.2,
                   m_bodySyncPeers := s.m_bodySyncPeers.insert p (s.needed.1.map Prod.fst) },
      some (.BlockBodies (s.needed.1.map Prod.snd)))
  else
    let s := if s.m_haveCommonHeader then s else s.stepBack host
    if s.m_haveCommonHeader then s.requestHeaders fuel p
    else some (s, some (.BlockHeaders s.m_lastImportedBlock 1))

end

end Sync

end BlockChainSync

end Petrachor
