import Petrachor.HeaderCodec
import Petrachor.ReceiptRead
import Petrachor.SnapshotImporter

/-!
# Blocks out of block chunks

`describe` cuts a chain into chunks. The importer gets back every field of a header but the seal, which
the chunk has behind the uncles, and the timestamp only as far as the stream writes it; `restored_iff`
says when the hash of the header survives that.
-/

namespace Petrachor

/-- A block with its receipts; transactions, uncles and receipts are encoded items. -/
structure SnapshotBlock where
  header : BlockHeader
  transactions : List Bytes
  uncles : List Bytes
  receipts : List Bytes

namespace SnapshotBlock

/-- The header on the wire. -/
def headerRLP (b : SnapshotBlock) : Bytes :=
  b.header.wire b.header.number.toNat b.header.timestamp.toNat

def hash (c : Crypto) (b : SnapshotBlock) : H256 := c.sha3 b.headerRLP

/-- The items of an abridged block: the seal is at the end. -/
def abridgedItems (b : SnapshotBlock) : List Bytes :=
  [RLPStream.encodeBytes (asBytes 20 b.header.author),
    RLPStream.encodeBytes (asBytes 32 b.header.stateRoot),
    RLPStream.encodeBytes (asBytes 256 b.header.logBloom),
    RLPStream.encodeInt b.header.difficulty.toNat, RLPStream.encodeInt b.header.gasLimit.toNat,
    RLPStream.encodeInt b.header.gasUsed.toNat, RLPStream.encodeInt b.header.timestamp.toNat,
    RLPStream.encodeBytes b.header.extraData, RLPStream.encodeList b.transactions,
    RLPStream.encodeList b.uncles] ++ b.header.m_seal

def chunkItem (b : SnapshotBlock) : Bytes :=
  RLPStream.encodeList [RLPStream.encodeList b.abridgedItems, RLPStream.encodeList b.receipts]

/-- The header answers for the body, and its fields are what a header on the wire can have. -/
structure Valid (c : Crypto) (b : SnapshotBlock) : Prop where
  transactionsRoot : b.header.transactionsRoot = c.orderedTrieRoot b.transactions
  receiptsRoot : b.header.receiptsRoot = c.orderedTrieRoot b.receipts
  sha3Uncles : b.header.sha3Uncles = c.sha3 (RLPStream.encodeList b.uncles)
  number_lt : b.header.number < 2 ^ 32
  timestamp_nonneg : 0 ≤ b.header.timestamp
  timestamp_lt : b.header.timestamp < 2 ^ 63
  items_transactions : Items b.transactions
  items_uncles : Items b.uncles
  items_receipts : Items b.receipts
  items_seal : Items b.header.m_seal
  header_lt : b.headerRLP.length < maxPayload
  chunk_lt : b.chunkItem.length < maxPayload

/-- What is left of the header in the rebuilt one, when the block before it has this hash. -/
def rebuilt (b : SnapshotBlock) (c : Crypto) (parentHash : H256) (number : ℤ)
    (totalDifficulty : U256) : ImportedBlock where
  header :=
    { b.header with
      parentHash := parentHash
      number := number
      sha3Uncles := c.sha3 (RLPStream.encodeList b.uncles)
      transactionsRoot := c.orderedTrieRoot b.transactions
      receiptsRoot := c.orderedTrieRoot b.receipts
      m_seal := []
      m_hash := 0
      m_hashWithout := 0 }
  transactions := ⟨RLPStream.encodeList b.transactions⟩
  uncles := ⟨RLPStream.encodeList b.uncles⟩
  receipts := ⟨RLPStream.encodeList b.receipts⟩
  totalDifficulty := totalDifficulty + b.header.difficulty

end SnapshotBlock

/-- What a chunk says of the block before its first one. -/
structure ChunkStart where
  number : ℕ
  hash : H256
  totalDifficulty : U256

namespace ChunkStart

variable (c : Crypto)

/-- The start of the chunk after one with these blocks. -/
def after (s : ChunkStart) : List SnapshotBlock → ChunkStart
  | [] => s
  | b :: l => after ⟨s.number + 1, b.hash c, s.totalDifficulty + b.header.difficulty⟩ l

/-- The importer takes a chunk with this start. -/
structure Known (s : ChunkStart) : Prop where
  number_ne : s.number ≠ 0
  number_lt : s.number < 2 ^ 63
  hash_ne : s.hash ≠ 0
  totalDifficulty_ne : s.totalDifficulty ≠ 0

/-- The blocks follow the start, each the one before it. -/
def Linked (s : ChunkStart) : List SnapshotBlock → Prop
  | [] => True
  | b :: l => b.Valid c ∧ b.header.parentHash = s.hash ∧ b.header.number = s.number + 1 ∧
      Linked ⟨s.number + 1, b.hash c, s.totalDifficulty + b.header.difficulty⟩ l

def chunk (s : ChunkStart) (blocks : List SnapshotBlock) : Bytes :=
  RLPStream.encodeList ([RLPStream.encodeInt s.number, RLPStream.encodeBytes (asBytes 32 s.hash),
    RLPStream.encodeInt s.totalDifficulty.toNat] ++ blocks.map SnapshotBlock.chunkItem)

/-- The chunks of a chain that is cut into pieces, the oldest first. -/
def describe (s : ChunkStart) : List (List SnapshotBlock) → List Bytes
  | [] => []
  | l :: pieces => s.chunk l :: describe (s.after c l) pieces

/-- A chain in pieces: every piece follows the one before it and makes a chunk. -/
def Chain (s : ChunkStart) : List (List SnapshotBlock) → Prop
  | [] => True
  | l :: pieces => s.Known ∧ s.Linked c l ∧ (s.chunk l).length < maxPayload ∧
      Chain (s.after c l) pieces

/-- The hashes and the headers of the blocks, with the cumulative difficulties. -/
def cumulative (s : ChunkStart) : List SnapshotBlock → List (H256 × Bytes × U256)
  | [] => []
  | b :: l => (b.hash c, b.headerRLP, s.totalDifficulty + b.header.difficulty) ::
      cumulative ⟨s.number + 1, b.hash c, s.totalDifficulty + b.header.difficulty⟩ l

end ChunkStart

namespace SnapshotImporter

variable (c : Crypto)

/-- The blocks that are handed over out of a chunk: each is rebuilt on the one rebuilt before it. -/
def chunkCalls : H256 → ℤ → U256 → List SnapshotBlock → List ImportedBlock
  | _, _, _, [] => []
  | parentHash, number, totalDifficulty, b :: l =>
    b.rebuilt c parentHash number totalDifficulty ::
      chunkCalls ((b.rebuilt c parentHash number totalDifficulty).header.hash c .WithSeal) (number + 1)
        (totalDifficulty + b.header.difficulty) l

/-- The blocks that are handed over, chunk by chunk. -/
def calls (s : ChunkStart) : List (List SnapshotBlock) → List (List ImportedBlock)
  | [] => []
  | l :: pieces =>
    chunkCalls c s.hash (s.number + 1) s.totalDifficulty l :: calls (s.after c l) pieces

/-- What the importer does to the chain. -/
def runCalls {σ : Type} (f : BlockChainImporterFace σ) (number : ℕ) :
    List (List ImportedBlock) → σ → Import σ
  | [], s => .ok s
  | first :: rest, s => do
    let s ← first.foldlM f.importBlock s
    rest.flatten.foldlM f.importBlock (f.setChainStartBlockNumber s (number + 1))

end SnapshotImporter

/-! ## A block out of its item -/

theorem toPositiveInt64_encodeInt {n : ℕ} (h : n < 2 ^ 63) :
    (RLP.mk (RLPStream.encodeInt n)).toPositiveInt64 RLP.VeryStrict = .ok n := by
  have hneg : ¬((n : ℤ) < 0) := by omega
  unfold RLP.toPositiveInt64
  rw [toInt_encodeInt (h.trans (by norm_num)) (by decide), ok_bind, toInt64_of_lt h]
  simp [hneg, pure, Except.pure]

namespace SnapshotBlock

variable {c : Crypto} {b : SnapshotBlock}

theorem Valid.outer (h : b.Valid c) : Items [RLPStream.encodeList b.abridgedItems,
    RLPStream.encodeList b.receipts] ∧
    [RLPStream.encodeList b.abridgedItems, RLPStream.encodeList b.receipts].flatten.length <
      maxPayload ∧ b.abridgedItems.flatten.length < maxPayload ∧
    b.receipts.flatten.length < maxPayload := by
  have hlt := h.chunk_lt
  have h1 := flatten_lt_of_encodeList (length_lt_of_mem (List.mem_cons_self) hlt)
  have h2 := flatten_lt_of_encodeList
    (length_lt_of_mem (List.mem_cons_of_mem _ (List.mem_singleton_self _)) hlt)
  refine ⟨?_, flatten_lt_of_encodeList hlt, h1, h2⟩
  unfold Items
  simp only [List.forall_mem_cons]
  exact ⟨⟨_, isItem_encodeList h1⟩, ⟨_, isItem_encodeList h2⟩, by simp⟩

theorem Valid.sizes (h : b.Valid c) : b.header.extraData.length < maxPayload ∧
    b.transactions.flatten.length < maxPayload ∧ b.uncles.flatten.length < maxPayload := by
  obtain ⟨-, -, hlt, -⟩ := h.outer
  have hmem : ∀ e ∈ b.abridgedItems, e.length < maxPayload := fun e he =>
    (length_mem_flatten he).trans_lt hlt
  refine ⟨(length_le_encodeBytes _).trans_lt (hmem _ ?_), flatten_lt_of_encodeList (hmem _ ?_),
    flatten_lt_of_encodeList (hmem _ ?_)⟩
  all_goals
    unfold abridgedItems
    simp

theorem Valid.items_abridged (h : b.Valid c) : Items b.abridgedItems := by
  obtain ⟨hextra, htxs, huncles⟩ := h.sizes
  have htime : b.header.timestamp.toNat < 2 ^ 256 := by
    have := h.timestamp_lt
    have := h.timestamp_nonneg
    omega
  intro e he
  rcases List.mem_append.1 he with he | he
  · have hfields : ∀ e ∈ [RLPStream.encodeBytes (asBytes 20 b.header.author),
        RLPStream.encodeBytes (asBytes 32 b.header.stateRoot),
        RLPStream.encodeBytes (asBytes 256 b.header.logBloom),
        RLPStream.encodeInt b.header.difficulty.toNat, RLPStream.encodeInt b.header.gasLimit.toNat,
        RLPStream.encodeInt b.header.gasUsed.toNat, RLPStream.encodeInt b.header.timestamp.toNat,
        RLPStream.encodeBytes b.header.extraData, RLPStream.encodeList b.transactions,
        RLPStream.encodeList b.uncles], ∃ p, IsItem e p := by
      simp only [List.forall_mem_cons]
      exact ⟨isItem_hash (n := 20) (by decide) _, isItem_hash (n := 32) (by decide) _,
        isItem_hash (n := 256) (by decide) _, isItem_u256 _, isItem_u256 _, isItem_u256 _,
        ⟨_, isItem_encodeInt (bytesRequired_lt_maxPayload htime)⟩, ⟨_, isItem_encodeBytes hextra⟩,
        ⟨_, isItem_encodeList htxs⟩, ⟨_, isItem_encodeList huncles⟩, by simp⟩
    exact hfields e he
  · exact h.items_seal e he

/-- A block is rebuilt from its item, but for its seal. -/
theorem Valid.rebuild_eq (h : b.Valid c) (parentHash : H256) (number : ℤ) (totalDifficulty : U256) :
    SnapshotImporter.rebuild c parentHash number totalDifficulty ⟨b.chunkItem⟩ =
      .ok (b.rebuilt c parentHash number totalDifficulty) := by
  obtain ⟨hitems, houter, hlt, hreceipts⟩ := h.outer
  obtain ⟨hextra, htxs, huncles⟩ := h.sizes
  have h20 : 20 < maxPayload ∧ 32 < maxPayload ∧ 256 < maxPayload := by norm_num [maxPayload]
  have htime : b.header.timestamp.toNat < 2 ^ 63 := by
    have := h.timestamp_lt
    have := h.timestamp_nonneg
    omega
  have hback : ((b.header.timestamp.toNat : ℕ) : ℤ) = b.header.timestamp :=
    Int.toNat_of_nonneg h.timestamp_nonneg
  have hget : ∀ {i : ℕ} {e : Bytes}, b.abridgedItems[i]? = some e →
      (RLP.mk (RLPStream.encodeList b.abridgedItems)).get i = .ok ⟨e⟩ := fun he =>
    get_encodeList h.items_abridged hlt he
  have htxsRead : ((List.range' 0 b.transactions.length).mapM fun i => do
      return (← (RLP.mk (RLPStream.encodeList b.transactions)).get i).data) = .ok b.transactions :=
    BlockHeader.mapM_get fun k e he => by
      rw [Nat.zero_add]
      exact get_encodeList h.items_transactions htxs he
  unfold SnapshotImporter.rebuild chunkItem
  rw [get_encodeList (i := 0) hitems houter rfl, ok_bind, hget (i := 0) rfl, ok_bind,
    toHash_encodeBytes h20.1, ok_bind, hget (i := 1) rfl, ok_bind, toHash_encodeBytes h20.2.1, ok_bind,
    hget (i := 8) rfl, ok_bind, itemCount_encodeList h.items_transactions htxs, ok_bind, htxsRead,
    ok_bind, hget (i := 9) rfl, ok_bind, get_encodeList (i := 1) hitems houter rfl, ok_bind,
    toList_encodeList h.items_receipts hreceipts, ok_bind, hget (i := 2) rfl, ok_bind,
    toHash_encodeBytes h20.2.2, ok_bind, hget (i := 3) rfl, ok_bind, toU256_encodeInt, ok_bind,
    hget (i := 4) rfl, ok_bind, toU256_encodeInt, ok_bind, hget (i := 5) rfl, ok_bind,
    toU256_encodeInt, ok_bind, hget (i := 6) rfl, ok_bind, toPositiveInt64_encodeInt htime, ok_bind,
    hget (i := 7) rfl, ok_bind, toBytes_encodeBytes hextra, ok_bind, hback, List.map_map]
  simp [pure, Except.pure, Function.comp_def]
  rfl

end SnapshotBlock

/-! ## The calls of the importer -/

section

variable {c : Crypto} {s : ChunkStart} {l : List SnapshotBlock} {pieces : List (List SnapshotBlock)}

theorem ChunkStart.Linked.valid (h : s.Linked c l) : ∀ b ∈ l, b.Valid c := by
  induction l generalizing s with
  | nil =>
    intro b hb
    cases hb
  | cons x l ih =>
    obtain ⟨hx, -, -, hl⟩ := h
    exact List.forall_mem_cons.2 ⟨hx, ih hl⟩

namespace SnapshotImporter

variable {σ : Type} {f : BlockChainImporterFace σ}

theorem importBlocks_eq {r : RLP} (hvalid : ∀ b ∈ l, b.Valid c) : ∀ {i : ℕ},
    (∀ k b, l[k]? = some b → r.get (i + k) = .ok ⟨b.chunkItem⟩) →
    ∀ (parentHash : H256) (number : ℤ) (totalDifficulty : U256) (x : σ),
      importBlocks c f r l.length i parentHash number totalDifficulty x =
        (chunkCalls c parentHash number totalDifficulty l).foldlM f.importBlock x := by
  induction l with
  | nil => exact fun _ _ _ _ _ => rfl
  | cons b l ih =>
    intro i hget parentHash number totalDifficulty x
    have hb := hvalid b List.mem_cons_self
    obtain ⟨hitems, houter, -⟩ := hb.outer
    have hfirst : r.get i = .ok ⟨b.chunkItem⟩ := hget 0 b rfl
    have hcount : (RLP.mk b.chunkItem).itemCount = .ok 2 := itemCount_encodeList hitems houter
    have hrest := @ih (fun y hy => hvalid y (List.mem_cons_of_mem _ hy)) (i + 1) fun k y hy => by
      have := hget (k + 1) y (by rw [List.getElem?_cons_succ]; exact hy)
      rwa [show i + (k + 1) = i + 1 + k by omega] at this
    rw [List.length_cons, importBlocks, hfirst, ofRLP_ok, import_bind, hcount, ofRLP_ok, import_bind,
      if_neg (by decide), import_bind, hb.rebuild_eq, ofRLP_ok, import_bind, chunkCalls,
      List.foldlM_cons]
    exact bind_congr fun x' => hrest _ _ _ x'

theorem importBlockChunk_eq (hs : s.Known) (hl : s.Linked c l) (hsize : (s.chunk l).length < maxPayload)
    (x : σ) : importBlockChunk c f (s.chunk l) x =
      (chunkCalls c s.hash (s.number + 1) s.totalDifficulty l).foldlM f.importBlock x >>=
        fun x => .ok (x, (s.number : ℤ)) := by
  have hflat := flatten_lt_of_encodeList hsize
  have hblocks : ∀ e ∈ l.map SnapshotBlock.chunkItem, ∃ p, IsItem e p := by
    intro e he
    obtain ⟨b, hb, rfl⟩ := List.mem_map.1 he
    exact isItem_of_encodeList (hl.valid b hb).chunk_lt
  have hitems : Items ([RLPStream.encodeInt s.number, RLPStream.encodeBytes (asBytes 32 s.hash),
      RLPStream.encodeInt s.totalDifficulty.toNat] ++ l.map SnapshotBlock.chunkItem) := by
    unfold Items
    simp only [List.cons_append, List.nil_append, List.forall_mem_cons]
    exact ⟨⟨_, isItem_encodeInt (bytesRequired_lt_maxPayload (hs.number_lt.trans (by norm_num)))⟩,
      isItem_hash (n := 32) (by decide) _, isItem_u256 _, hblocks⟩
  have hget : ∀ {i : ℕ} {e : Bytes}, _ → (RLP.mk (s.chunk l)).get i = .ok ⟨e⟩ := fun he =>
    get_encodeList hitems hflat he
  have hnumber : ¬((s.number : ℤ) = 0 ∨ s.hash = 0 ∨ s.totalDifficulty = 0) := by
    rintro (h | h | h)
    · exact hs.number_ne (by exact_mod_cast h)
    · exact hs.hash_ne h
    · exact hs.totalDifficulty_ne h
  have hread : RLP.ofBytes (s.chunk l) RLP.VeryStrict = .ok ⟨s.chunk l⟩ :=
    (isItem_encodeList hflat).ofBytes _
  have hcount : (RLP.mk (s.chunk l)).itemCount = .ok (3 + l.length) := by
    rw [ChunkStart.chunk, itemCount_encodeList hitems hflat, List.length_append, List.length_map]
    rfl
  unfold importBlockChunk
  rw [hread, ofRLP_ok, import_bind, hcount, ofRLP_ok, import_bind, if_neg (by omega), import_bind,
    hget (i := 0) rfl, ok_bind, toPositiveInt64_encodeInt hs.number_lt, ofRLP_ok, import_bind,
    hget (i := 1) rfl, ok_bind, toHash_encodeBytes (n := 32) (by decide), ofRLP_ok, import_bind,
    hget (i := 2) rfl, ok_bind, toU256_encodeInt, ofRLP_ok, import_bind, if_neg hnumber, import_bind,
    Nat.add_sub_cancel_left, importBlocks_eq hl.valid fun k b hb => hget ?_]
  rw [List.getElem?_append_right (by simp)]
  simp [hb]

/-- The chunks are imported one after the other. -/
theorem foldlM_importBlockChunk {readChunk : H256 → Import Bytes} (hchain : s.Chain c pieces) :
    ∀ {hs : List H256}, hs.map readChunk = (s.describe c pieces).map .ok → ∀ x : σ,
      hs.foldlM (fun x h => do return (← importBlockChunk c f (← readChunk h) x).1) x =
        (calls c s pieces).flatten.foldlM f.importBlock x := by
  induction pieces generalizing s with
  | nil =>
    intro hs hread x
    rw [List.map_eq_nil_iff.1 hread]
    rfl
  | cons l pieces ih =>
    intro hs hread x
    obtain ⟨hknown, hlinked, hsize, hrest⟩ := hchain
    cases hs with
    | nil => cases hread
    | cons h hs =>
      obtain ⟨hh, hread⟩ := List.cons.inj hread
      rw [List.foldlM_cons, hh]
      show ((importBlockChunk c f (s.chunk l) x >>= fun y => .ok y.1) >>= _) = _
      rw [importBlockChunk_eq hknown hlinked hsize, calls, List.flatten_cons, List.foldlM_append]
      cases hx : (chunkCalls c s.hash (s.number + 1) s.totalDifficulty l).foldlM f.importBlock x with
      | error e => rfl
      | ok y => exact ih hrest hread y

theorem importBlockChunks_eq {readChunk : H256 → Import Bytes} (hchain : s.Chain c pieces)
    {blockChunkHashes : List H256}
    (hread : blockChunkHashes.reverse.map readChunk = (s.describe c pieces).map .ok) (x : σ) :
    importBlockChunks c f readChunk blockChunkHashes x = runCalls f s.number (calls c s pieces) x := by
  unfold importBlockChunks
  cases pieces with
  | nil =>
    rw [List.map_eq_nil_iff.1 hread]
    rfl
  | cons l pieces =>
    obtain ⟨hknown, hlinked, hsize, hrest⟩ := hchain
    generalize blockChunkHashes.reverse = hs at hread ⊢
    cases hs with
    | nil => cases hread
    | cons h hs =>
      obtain ⟨hh, hread⟩ := List.cons.inj hread
      show (readChunk h >>= _) = _
      rw [hh]
      show (importBlockChunk c f (s.chunk l) x >>= _) = _
      rw [importBlockChunk_eq hknown hlinked hsize, calls, runCalls]
      cases hx : (chunkCalls c s.hash (s.number + 1) s.totalDifficulty l).foldlM f.importBlock x with
      | error e => rfl
      | ok y => exact foldlM_importBlockChunk hrest hread _

end SnapshotImporter

end

/-! ## The hash of a rebuilt header -/

/-- The two encodings of the header, with the seal on the wire and without, have different hashes if they
differ. -/
def SnapshotBlock.NoCollision (c : Crypto) (b : SnapshotBlock) : Prop :=
  c.sha3 b.headerRLP = c.sha3 (b.header.streamRLP .WithoutSeal) →
    b.headerRLP = b.header.streamRLP .WithoutSeal

/-- The header has no seal, and its timestamp fits into the word it is written from. -/
def SnapshotBlock.Unsealed (b : SnapshotBlock) : Prop :=
  b.header.m_seal = [] ∧ b.header.timestamp < 2 ^ 32

namespace SnapshotBlock

variable {c : Crypto} {b : SnapshotBlock}

theorem Valid.number_nonneg_toNat (h : b.Valid c) (h0 : 0 ≤ b.header.number) :
    b.header.number.toNat = toUnsigned b.header.number := by
  have := h.number_lt
  unfold toUnsigned
  omega

theorem Valid.encodable (h : b.Valid c) (h0 : 0 ≤ b.header.number) :
    b.header.Encodable b.header.number.toNat b.header.timestamp.toNat where
  items_seal := h.items_seal
  number_lt := by
    have := h.number_lt
    omega
  timestamp_lt := by
    have := h.timestamp_lt
    have := h.timestamp_nonneg
    omega
  size := flatten_lt_of_encodeList h.header_lt

/-- The header on the wire is the one the program writes without a seal if there is none, and the
timestamp is written in full. -/
theorem Valid.headerRLP_eq_iff (h : b.Valid c) (h0 : 0 ≤ b.header.number) :
    b.headerRLP = b.header.streamRLP .WithoutSeal ↔ b.Unsealed := by
  have htime := BlockHeader.toUnsigned_eq_self_iff h.timestamp_nonneg
  constructor
  · intro heq
    have hE := h.encodable h0
    have hunsealed : b.header.unsealed.Encodable (toUnsigned b.header.number)
        (toUnsigned b.header.timestamp) := by
      refine ⟨fun e he => (by cases he), (toUnsigned_lt _).trans (by norm_num),
        (toUnsigned_lt _).trans (by norm_num), ?_⟩
      refine flatten_lt_of_encodeList ?_
      have hlt := h.header_lt
      rw [heq, ← BlockHeader.streamRLP_unsealed] at hlt
      exact hlt
    have hread := BlockHeader.populate_wire hE 0
    have hread' := BlockHeader.populate_wire hunsealed 0
    have hbytes : b.header.wire b.header.number.toNat b.header.timestamp.toNat =
        b.header.unsealed.wire (toUnsigned b.header.number) (toUnsigned b.header.timestamp) :=
      heq.trans BlockHeader.streamRLP_unsealed.symm
    rw [hbytes, hread'] at hread
    have hback := Except.ok.inj hread
    simp only [BlockHeader.readBack, BlockHeader.unsealed, BlockHeader.mk.injEq, Nat.cast_inj] at hback
    obtain ⟨-, -, -, -, -, -, -, -, -, -, -, hts, -, hseal, -⟩ := hback
    refine ⟨hseal.symm, htime.1 ?_⟩
    rw [hts]
    exact Int.toNat_of_nonneg h.timestamp_nonneg
  · rintro ⟨hseal, hlt⟩
    have hts : b.header.timestamp.toNat = toUnsigned b.header.timestamp := by
      have := htime.2 hlt
      omega
    unfold headerRLP
    rw [h.number_nonneg_toNat h0, hts, ← BlockHeader.streamRLP_eq_wire]
    unfold BlockHeader.streamRLP
    rw [hseal, List.append_nil]

theorem Valid.streamRLP_rebuilt (h : b.Valid c) (totalDifficulty : U256) :
    (b.rebuilt c b.header.parentHash b.header.number totalDifficulty).header.streamRLP .WithSeal =
      b.header.streamRLP .WithoutSeal := by
  unfold rebuilt
  rw [← h.transactionsRoot, ← h.receiptsRoot, ← h.sha3Uncles]
  unfold BlockHeader.streamRLP
  rw [List.append_nil]
  rfl

/-- A rebuilt header has the hash of the original if there was no seal to lose. -/
theorem Valid.rebuilt_hash_iff (h : b.Valid c) (hc : b.NoCollision c) (h0 : 0 ≤ b.header.number)
    (totalDifficulty : U256) :
    (b.rebuilt c b.header.parentHash b.header.number totalDifficulty).header.hash c .WithSeal =
      b.hash c ↔ b.Unsealed := by
  have hhash : (b.rebuilt c b.header.parentHash b.header.number totalDifficulty).header.hash c
      .WithSeal = c.sha3 (b.header.streamRLP .WithoutSeal) := by
    rw [← h.streamRLP_rebuilt totalDifficulty]
    rfl
  rw [hhash, ← h.headerRLP_eq_iff h0]
  exact ⟨fun heq => hc heq.symm, fun heq => (congrArg c.sha3 heq).symm⟩

end SnapshotBlock

section

variable {c : Crypto} {s : ChunkStart} {l : List SnapshotBlock} {pieces : List (List SnapshotBlock)}

namespace SnapshotImporter

/-- What a call says of its block. -/
def summary (c : Crypto) (r : ImportedBlock) : H256 × Bytes × U256 :=
  (r.header.hash c .WithSeal, r.header.streamRLP .WithSeal, r.totalDifficulty)

theorem chunkCalls_restore_iff (hl : s.Linked c l) (hc : ∀ b ∈ l, b.NoCollision c) :
    (chunkCalls c s.hash (s.number + 1) s.totalDifficulty l).map (summary c) = s.cumulative c l ↔
      ∀ b ∈ l, b.Unsealed := by
  induction l generalizing s with
  | nil => exact ⟨fun _ b hb => (by cases hb), fun _ => rfl⟩
  | cons b l ih =>
    obtain ⟨hb, hparent, hnumber, hl⟩ := hl
    have hcb := hc b List.mem_cons_self
    have hiff := hb.rebuilt_hash_iff hcb (by omega) s.totalDifficulty
    have hstream := hb.streamRLP_rebuilt s.totalDifficulty
    have hbytes := hb.headerRLP_eq_iff (by omega)
    rw [hparent, hnumber] at hiff hstream
    have hrest := ih hl fun y hy => hc y (List.mem_cons_of_mem _ hy)
    rw [List.forall_mem_cons, chunkCalls, List.map_cons, ChunkStart.cumulative, List.cons.injEq]
    constructor
    · rintro ⟨hhead, htail⟩
      have hhash : (b.rebuilt c s.hash (s.number + 1) s.totalDifficulty).header.hash c .WithSeal =
          b.hash c := congrArg Prod.fst hhead
      rw [hhash] at htail
      exact ⟨hiff.1 hhash, hrest.1 (by exact_mod_cast htail)⟩
    · rintro ⟨hhead, htail⟩
      have hhash := hiff.2 hhead
      refine ⟨Prod.ext hhash (Prod.ext (hstream.trans (hbytes.2 hhead).symm) rfl), ?_⟩
      rw [hhash]
      exact_mod_cast hrest.2 htail

theorem cumulative_append (l l' : List SnapshotBlock) :
    s.cumulative c (l ++ l') = s.cumulative c l ++ (s.after c l).cumulative c l' := by
  induction l generalizing s with
  | nil => rfl
  | cons b l ih => exact congrArg _ ih

theorem length_chunkCalls (p : H256) (n : ℤ) (td : U256) :
    (chunkCalls c p n td l).length = (s.cumulative c l).length := by
  induction l generalizing p n td s with
  | nil => rfl
  | cons b l ih => exact congrArg (· + 1) (ih _ _ _)

theorem calls_restore_iff (hchain : s.Chain c pieces) (hc : ∀ b ∈ pieces.flatten, b.NoCollision c) :
    (calls c s pieces).flatten.map (summary c) = s.cumulative c pieces.flatten ↔
      ∀ b ∈ pieces.flatten, b.Unsealed := by
  induction pieces generalizing s with
  | nil => exact ⟨fun _ b hb => (by cases hb), fun _ => rfl⟩
  | cons l pieces ih =>
    obtain ⟨-, hlinked, -, hrest⟩ := hchain
    rw [List.flatten_cons] at hc ⊢
    rw [List.forall_mem_append] at hc ⊢
    rw [← chunkCalls_restore_iff hlinked hc.1, ← ih hrest hc.2, calls, List.flatten_cons, List.map_append,
      cumulative_append]
    constructor
    · intro heq
      exact List.append_inj heq (by rw [List.length_map, length_chunkCalls (s := s)])
    · rintro ⟨hfirst, hthen⟩
      rw [hfirst, hthen]

theorem chunkCalls_totalDifficulty (p : H256) (n : ℤ) :
    (chunkCalls c p n s.totalDifficulty l).map ImportedBlock.totalDifficulty =
      (s.cumulative c l).map (fun e => e.2.2) := by
  induction l generalizing p n s with
  | nil => rfl
  | cons b l ih =>
    exact congrArg _ (@ih ⟨s.number + 1, b.hash c, s.totalDifficulty + b.header.difficulty⟩ _ _)

theorem calls_totalDifficulty : (calls c s pieces).flatten.map ImportedBlock.totalDifficulty =
    (s.cumulative c pieces.flatten).map (fun e => e.2.2) := by
  induction pieces generalizing s with
  | nil => rfl
  | cons l pieces ih =>
    rw [calls, List.flatten_cons, List.map_append, chunkCalls_totalDifficulty, ih, List.flatten_cons,
      cumulative_append, List.map_append]

/-- Whatever is done with the blocks, the headers rebuilt from the chunks of a chain are the headers of the
chain, with their hashes and cumulative difficulties, if and only if no header has a seal and every
timestamp fits into 32 bits. The cumulative difficulties are right in any case. -/
theorem importBlockChunks_iff {readChunk : H256 → Import Bytes} {blockChunkHashes : List H256}
    (hchain : s.Chain c pieces) (hc : ∀ b ∈ pieces.flatten, b.NoCollision c)
    (hread : blockChunkHashes.reverse.map readChunk = (s.describe c pieces).map .ok) :
    ∃ handed : List (List ImportedBlock),
      (∀ (σ : Type) (f : BlockChainImporterFace σ) (x : σ),
        importBlockChunks c f readChunk blockChunkHashes x = runCalls f s.number handed x) ∧
      handed.flatten.map ImportedBlock.totalDifficulty =
        (s.cumulative c pieces.flatten).map (fun e => e.2.2) ∧
      (handed.flatten.map (summary c) = s.cumulative c pieces.flatten ↔
        ∀ b ∈ pieces.flatten, b.Unsealed) :=
  ⟨calls c s pieces, fun _ _ x => importBlockChunks_eq hchain hread x, calls_totalDifficulty,
    calls_restore_iff hchain hc⟩

end SnapshotImporter

end

/-! ## Two chains -/

namespace SnapshotImporter

/-- The block after the one with the number, the hash and the total difficulty 1. -/
def secondBlock (sealFields : List Bytes) : SnapshotBlock where
  header :=
    { BlockHeader.empty with
      parentHash := 1
      sha3Uncles := Devnet.crypto.EmptyListSHA3
      transactionsRoot := Devnet.crypto.EmptyTrie
      receiptsRoot := Devnet.crypto.EmptyTrie
      difficulty := 1
      number := 2
      timestamp := 1
      m_seal := sealFields }
  transactions := []
  uncles := []
  receipts := []

def firstStart : ChunkStart := ⟨1, 1, 1⟩

theorem items_nil : Items [] := by
  intro e he
  cases he

theorem items_singleton {e p : Bytes} (h : IsItem e p) : Items [e] := by
  intro x hx
  rw [List.mem_singleton.1 hx]
  exact ⟨p, h⟩

set_option maxRecDepth 100000 in
theorem chain_secondBlock : firstStart.Chain Devnet.crypto [[secondBlock [[1]]]] := by
  have hseal : Items [[1]] := items_singleton (isItem_single (by decide))
  refine ⟨⟨by decide, by decide, by decide, by decide⟩, ⟨?_, rfl, rfl, trivial⟩, ?_, trivial⟩
  · have htwo : (2 : ℤ) < 2 ^ 32 := by norm_num
    have hone : (0 : ℤ) ≤ 1 ∧ (1 : ℤ) < 2 ^ 63 := by norm_num
    exact ⟨rfl, rfl, rfl, htwo, hone.1, hone.2, items_nil, items_nil, items_nil, hseal, by decide +kernel,
      by decide +kernel⟩
  · decide +kernel

/-- A chain that keeps the blocks it is handed. -/
def recorder : BlockChainImporterFace (List ImportedBlock) where
  importBlock l b := .ok (l ++ [b])
  setChainStartBlockNumber l _ := l

/-- A block with a body and no seal. -/
def chainBlock (parentHash : H256) (number timestamp : ℕ) (transactions uncles receipts : List Bytes) :
    SnapshotBlock where
  header :=
    { BlockHeader.empty with
      parentHash := parentHash
      sha3Uncles := Devnet.crypto.sha3 (RLPStream.encodeList uncles)
      author := 7
      stateRoot := 8
      transactionsRoot := Devnet.crypto.orderedTrieRoot transactions
      receiptsRoot := Devnet.crypto.orderedTrieRoot receipts
      difficulty := 5
      number := number
      gasLimit := 21000
      timestamp := timestamp
      extraData := [1, 2] }
  transactions := transactions
  uncles := uncles
  receipts := receipts

/-- Three blocks that follow each other. -/
def blockTwo : SnapshotBlock := chainBlock 1 2 10 [[1]] [] [[2]]
def blockThree : SnapshotBlock := chainBlock (blockTwo.hash Devnet.crypto) 3 20 [] [RLPStream.encodeList [[3]]] []
def blockFour : SnapshotBlock := chainBlock (blockThree.hash Devnet.crypto) 4 30 [[4]] [] [[5]]

theorem valid_chainBlock {parentHash : H256} {number timestamp : ℕ} {transactions uncles receipts : List Bytes}
    (hnumber : number < 2 ^ 32) (htimestamp : timestamp < 2 ^ 32) (ht : Items transactions) (hu : Items uncles)
    (hr : Items receipts)
    (hheader : (chainBlock parentHash number timestamp transactions uncles receipts).headerRLP.length < maxPayload)
    (hchunk : (chainBlock parentHash number timestamp transactions uncles receipts).chunkItem.length < maxPayload) :
    (chainBlock parentHash number timestamp transactions uncles receipts).Valid Devnet.crypto ∧
      (chainBlock parentHash number timestamp transactions uncles receipts).Unsealed ∧
      0 ≤ (chainBlock parentHash number timestamp transactions uncles receipts).header.number := by
  have hn : (number : ℤ) < 2 ^ 32 := by exact_mod_cast hnumber
  have h32 : (timestamp : ℤ) < 2 ^ 32 := by exact_mod_cast htimestamp
  exact ⟨⟨rfl, rfl, rfl, hn, Int.natCast_nonneg _, h32.trans (by norm_num), ht, hu, hr, items_nil, hheader, hchunk⟩,
    ⟨rfl, h32⟩, Int.natCast_nonneg number⟩

theorem valid_blocks : ∀ b ∈ [blockTwo, blockThree, blockFour],
    b.Valid Devnet.crypto ∧ b.Unsealed ∧ 0 ≤ b.header.number := by
  have hitem : ∀ x < 0x80, Items [[x]] := fun x hx => items_singleton (isItem_single hx)
  have hlist : Items [RLPStream.encodeList [[3]]] := items_singleton (isItem_encodeList (by decide))
  intro b hb
  simp only [List.mem_cons, List.not_mem_nil, or_false] at hb
  rcases hb with rfl | rfl | rfl
  · exact valid_chainBlock (by norm_num) (by norm_num) (hitem 1 (by decide)) items_nil (hitem 2 (by decide))
      (by decide +kernel) (by decide +kernel)
  · exact valid_chainBlock (by norm_num) (by norm_num) items_nil hlist items_nil (by decide +kernel) (by decide +kernel)
  · exact valid_chainBlock (by norm_num) (by norm_num) (hitem 4 (by decide)) items_nil (hitem 5 (by decide))
      (by decide +kernel) (by decide +kernel)

/-- The third one has a chunk of its own. -/
def twoPieces : List (List SnapshotBlock) := [[blockTwo, blockThree], [blockFour]]

theorem chain_twoPieces : firstStart.Chain Devnet.crypto twoPieces := by
  obtain ⟨⟨h2, -⟩, h⟩ := List.forall_mem_cons.1 valid_blocks
  obtain ⟨⟨h3, -⟩, h⟩ := List.forall_mem_cons.1 h
  obtain ⟨⟨h4, -⟩, -⟩ := List.forall_mem_cons.1 h
  refine ⟨⟨by decide, by decide, by decide, by decide⟩, ⟨h2, rfl, rfl, h3, rfl, rfl, trivial⟩, by decide +kernel,
    ⟨by decide, by decide, by decide +kernel, by decide +kernel⟩, ⟨h4, rfl, rfl, trivial⟩, by decide +kernel, trivial⟩

/-- The manifest has the last chunk first. -/
def chunkOf (h : H256) : Import Bytes :=
  .ok (if h = 1 then firstStart.chunk [blockTwo, blockThree]
    else (firstStart.after Devnet.crypto [blockTwo, blockThree]).chunk [blockFour])

/-- Blocks without seals are handed over as they were, with their difficulties behind the 1 of the start. -/
theorem importBlockChunks_unsealed : ∃ handed : List (List ImportedBlock),
    importBlockChunks Devnet.crypto recorder chunkOf [2, 1] [] = runCalls recorder 1 handed [] ∧
    handed.flatten.map (summary Devnet.crypto) =
      [(blockTwo.hash Devnet.crypto, blockTwo.headerRLP, 6), (blockThree.hash Devnet.crypto, blockThree.headerRLP, 11),
        (blockFour.hash Devnet.crypto, blockFour.headerRLP, 16)] := by
  have hunsealed : ∀ b ∈ twoPieces.flatten, b.Unsealed := fun b hb => (valid_blocks b hb).2.1
  have hc : ∀ b ∈ twoPieces.flatten, b.NoCollision Devnet.crypto := fun b hb _ =>
    ((valid_blocks b hb).1.headerRLP_eq_iff (valid_blocks b hb).2.2).2 (hunsealed b hb)
  obtain ⟨handed, hrun, -, hiff⟩ := importBlockChunks_iff chain_twoPieces hc
    (show ([2, 1] : List H256).reverse.map chunkOf = (firstStart.describe Devnet.crypto twoPieces).map .ok from rfl)
  exact ⟨handed, hrun _ recorder [], hiff.2 hunsealed⟩

/-- A block with a seal of one field is handed over with another hash. -/
theorem sealed_block_changed : firstStart.Chain Devnet.crypto [[secondBlock [[1]]]] ∧
    ∃ r, importBlockChunks Devnet.crypto recorder
        (fun _ => .ok (firstStart.chunk [secondBlock [[1]]])) [0] [] = .ok [r] ∧
      r.header.hash Devnet.crypto .WithSeal ≠ (secondBlock [[1]]).hash Devnet.crypto := by
  have hchain := chain_secondBlock
  refine ⟨hchain, (secondBlock [[1]]).rebuilt Devnet.crypto 1 2 1, ?_, by decide +kernel⟩
  rw [importBlockChunks_eq hchain rfl]
  rfl

end SnapshotImporter

end Petrachor
