import Petrachor.BlockChain.Insert
import Petrachor.Lib.StateRun

/-!
# Runs of the chain

The chain takes blocks by `importBlock`, `insert` and `insertWithoutParent`, answers queries, which
fill its caches, and collects them. The tree of blocks is an invariant of every run whose blocks are
told apart by their hashes, as long as a parentless insertion keeps to the tree.
-/

namespace Petrachor

open ParentTree

/-- A genesis block that can stand at the root of a chain. -/
structure World.Valid (w : World) : Prop where
  hash_ne_zero : BlockChain.genesisHash w ≠ 0
  number : w.genesisBlock.info.number = 0
  timestamp : 0 ≤ w.genesisBlock.info.timestamp
  transactions : w.genesisBlock.transactions = []

/-- A transaction is in a block. -/
def BlockRLP.Carries (b : BlockRLP) (t : Transaction) : Prop :=
  ∃ d ∈ b.transactions, ∃ checkSig, Transaction.ofBytes d checkSig = .ok t

/-- A verified block is made of a block. -/
structure VerifiedBlock.OfBlock (vb : VerifiedBlock) : Prop where
  info_eq : vb.info = vb.block.info
  carries : ∀ t ∈ vb.transactions, vb.block.Carries t

/-- A set of blocks that their hashes tell apart from each other and from the genesis block. -/
structure BlockSet (w : World) where
  carrier : Set BlockRLP
  hash_ne_zero : ∀ b ∈ carrier, b.info.m_hash ≠ 0
  hash_ne_genesis : ∀ b ∈ carrier, b.info.m_hash ≠ BlockChain.genesisHash w
  hash_inj : ∀ b ∈ carrier, ∀ b' ∈ carrier, b.info.m_hash = b'.info.m_hash → b = b'

namespace BlockChain

/-- The tree of blocks, all of them from the set and after the epoch. -/
structure ChainInv (w : World) (B : BlockSet w) (bc : BlockChain) : Prop extends TreeInv w bc where
  mem : ∀ {h b}, bc.blocksDB h = some b → b ∈ B.carrier
  timestamp : ∀ {h b}, bc.blocksDB h = some b → 0 ≤ b.info.timestamp

section

variable {w : World} {B : BlockSet w} {bc bc' : BlockChain}

theorem ChainInv.congr (hI : bc.ChainInv w B) (hC : bc'.Coherent)
    (hd : bc'.detailsDB = bc.detailsDB) (hb : bc'.blocksDB = bc.blocksDB)
    (hh : bc'.blockHashDB = bc.blockHashDB) (hl : bc'.m_lastBlockHash = bc.m_lastBlockHash)
    (hn : bc'.m_lastBlockNumber = bc.m_lastBlockNumber) : bc'.ChainInv w B :=
  { hI.toTreeInv.congr hC hd hb hh hl hn with
    mem := by rw [hb]; exact hI.mem
    timestamp := by rw [hb]; exact hI.timestamp }

theorem chainInv_openFresh (hw : w.Valid) (B : BlockSet w) (genesisState : AccountTrie) :
    (openFresh w genesisState).ChainInv w B := by
  have hdetails : ∀ h, (openFresh w genesisState).detailsDB h =
      if h = genesisHash w then some ⟨0, w.genesisBlock.info.difficulty, 0, []⟩ else none := by
    intro h
    simp only [openFresh, Function.update_apply]
  have hrec : ∀ h, h ∈ (openFresh w genesisState).recorded ↔ h = genesisHash w := by
    intro h
    change ((openFresh w genesisState).detailsDB h).isSome ↔ _
    rw [hdetails]
    split <;> simp_all
  have hC : (openFresh w genesisState).Coherent :=
    ⟨fun {h d} hd => ⟨d, hd, rfl⟩, fun {h b} hb => absurd hb (by simp [openFresh])⟩
  have hheight : (openFresh w genesisState).heightOf (genesisHash w) = 0 := by
    rw [hC.heightOf_eq, hdetails, if_pos rfl]
    rfl
  have hT : IsTree (openFresh w genesisState).recorded (genesisHash w)
      (openFresh w genesisState).parentOf (openFresh w genesisState).heightOf :=
    ⟨(hrec _).2 rfl, hheight, fun h hm hne => absurd ((hrec h).1 hm) hne,
      fun h hm hne => absurd ((hrec h).1 hm) hne⟩
  refine ⟨⟨hC, hT, ?_, ?_, ?_, ?_, (hrec _).2 rfl, hheight.symm, ?_⟩, ?_, ?_⟩
  · intro h0
    exact hw.hash_ne_zero ((hrec 0).1 h0).symm
  · intro h hm
    rw [(hrec h).1 hm, hheight]
    decide
  · intro h hm hne
    exact absurd ((hrec h).1 hm) hne
  · intro h b hb
    exact absurd hb (by simp [openFresh])
  · intro h hm hne
    have hroot := hT.mem_of_mem_lineage ((hrec _).2 rfl) hm
    exact absurd ((hrec h).1 hroot) hne
  · intro h b hb
    exact absurd hb (by simp [openFresh])
  · intro h b hb
    exact absurd hb (by simp [openFresh])

/-- The block of a recorded hash. -/
theorem ChainInv.block_spec (hI : bc.ChainInv w B) (hw : w.Valid) {h : H256}
    (hm : h ∈ bc.recorded) :
    ∃ b, bc.block w h = some b ∧ b.info.m_hash = h ∧ b.info.number = bc.heightOf h ∧
      0 ≤ b.info.timestamp := by
  by_cases hg : h = genesisHash w
  · subst hg
    refine ⟨w.genesisBlock, if_pos rfl, rfl, ?_, hw.timestamp⟩
    rw [hw.number, hI.tree.height_root]
    rfl
  · obtain ⟨b, hb, hh, -, hn⟩ := hI.blocks h hm hg
    exact ⟨b, by rw [hI.coherent.block_eq hg, hb], hh, hn, hI.timestamp hb⟩

/-! ## Queries and collection -/

/-- The databases and the head are the same. -/
structure SameDB (bc bc' : BlockChain) : Prop where
  detailsDB : bc'.detailsDB = bc.detailsDB
  blocksDB : bc'.blocksDB = bc.blocksDB
  blockHashDB : bc'.blockHashDB = bc.blockHashDB
  transactionAddressDB : bc'.transactionAddressDB = bc.transactionAddressDB
  m_lastBlockHash : bc'.m_lastBlockHash = bc.m_lastBlockHash
  m_lastBlockNumber : bc'.m_lastBlockNumber = bc.m_lastBlockNumber

theorem SameDB.refl (bc : BlockChain) : SameDB bc bc := ⟨rfl, rfl, rfl, rfl, rfl, rfl⟩

theorem SameDB.trans {bc'' : BlockChain} (h1 : SameDB bc bc') (h2 : SameDB bc' bc'') :
    SameDB bc bc'' :=
  ⟨h2.1.trans h1.1, h2.2.trans h1.2, h2.3.trans h1.3, h2.4.trans h1.4, h2.5.trans h1.5,
    h2.6.trans h1.6⟩

theorem SameDB.chainInv (hS : SameDB bc bc') (hI : bc.ChainInv w B) (hC : bc'.Coherent) :
    bc'.ChainInv w B :=
  hI.congr hC hS.1 hS.2 hS.3 hS.5 hS.6

theorem SameDB.canonical_eq (hS : SameDB bc bc') (hI : bc.TreeInv w) (hC : bc'.Coherent) :
    bc'.canonical = bc.canonical :=
  canonical_congr hI.coherent hC hS.1 hS.5

/-- An entry that is filled into a cache is the one a lookup finds anyway. -/
theorem filled_eq_some {K V : Type} [DecidableEq K] {cache db : K → Option V} {k k' : K} {v : V}
    (h : filled cache db k k' = some v) : cache k' = some v ∨ (k' = k ∧ db k' = some v) := by
  unfold filled at h
  by_cases hk : k' = k
  · subst hk
    rw [Function.update_self, lookup] at h
    cases hc : cache k' with
    | some x =>
      rw [hc] at h
      exact .inl h
    | none =>
      rw [hc] at h
      exact .inr ⟨rfl, h⟩
  · rw [Function.update_of_ne hk] at h
    exact .inl h

/-- Only the caches changed, and what they hold they held before or the databases hold it. -/
structure Recached (bc bc' : BlockChain) : Prop extends SameDB bc bc' where
  m_blocks : ∀ {h b}, bc'.m_blocks h = some b → bc.m_blocks h = some b ∨ bc.blocksDB h = some b
  m_details : ∀ {h d}, bc'.m_details h = some d → bc.m_details h = some d ∨ bc.detailsDB h = some d
  m_blockHashes : ∀ {n h}, bc'.m_blockHashes n = some h →
    bc.m_blockHashes n = some h ∨ bc.blockHashDB n = some h
  m_transactionAddresses : ∀ {t a}, bc'.m_transactionAddresses t = some a →
    bc.m_transactionAddresses t = some a ∨ bc.transactionAddressDB t = some a

theorem Recached.refl (bc : BlockChain) : Recached bc bc := ⟨.refl bc, .inl, .inl, .inl, .inl⟩

theorem Recached.trans {bc'' : BlockChain} (h1 : Recached bc bc') (h2 : Recached bc' bc'') :
    Recached bc bc'' where
  toSameDB := h1.toSameDB.trans h2.toSameDB
  m_blocks h := (h2.m_blocks h).elim h1.m_blocks fun hd => .inr (h1.blocksDB ▸ hd)
  m_details h := (h2.m_details h).elim h1.m_details fun hd => .inr (h1.detailsDB ▸ hd)
  m_blockHashes h := (h2.m_blockHashes h).elim h1.m_blockHashes fun hd => .inr (h1.blockHashDB ▸ hd)
  m_transactionAddresses h := (h2.m_transactionAddresses h).elim h1.m_transactionAddresses
    fun hd => .inr (h1.transactionAddressDB ▸ hd)

section Recached

variable (hR : Recached bc bc')

include hR

theorem Recached.coherent (hC : bc.Coherent) : bc'.Coherent := by
  refine ⟨fun {h d} hd => ?_, fun {h b} hb => ?_⟩
  · rw [hR.detailsDB]
    rcases hR.m_details hd with hc | hdb
    · exact hC.details hc
    · exact ⟨d, hdb, rfl⟩
  · rw [hR.blocksDB]
    exact (hR.m_blocks hb).elim hC.blocks id

theorem Recached.chainInv (hI : bc.ChainInv w B) : bc'.ChainInv w B :=
  hR.toSameDB.chainInv hI (hR.coherent hI.coherent)

theorem Recached.entry {h : H256} {d : BlockDetails} (hd : bc'.Entry h d) : bc.Entry h d := by
  rcases hd with hd | hd
  · exact hR.m_details hd
  · exact .inr (hR.detailsDB ▸ hd)

end Recached

theorem recached_touch (bc : BlockChain) (q : Query) : Recached bc (bc.touch w q) := by
  have hdb : SameDB bc ((bc.fill q).noteUsed q.id) := by
    cases q <;> exact ⟨rfl, rfl, rfl, rfl, rfl, rfl⟩
  unfold touch
  split
  · cases q with
    | block h => exact ⟨hdb, fun hb => (filled_eq_some hb).imp id And.right, .inl, .inl, .inl⟩
    | details h => exact ⟨hdb, .inl, fun hd => (filled_eq_some hd).imp id And.right, .inl, .inl⟩
    | numberHash n => exact ⟨hdb, .inl, .inl, fun hn => (filled_eq_some hn).imp id And.right, .inl⟩
    | transactionAddress t =>
      exact ⟨hdb, .inl, .inl, .inl, fun ht => (filled_eq_some ht).imp id And.right⟩
    | logBlooms h => exact ⟨hdb, .inl, .inl, .inl, .inl⟩
    | receipts h => exact ⟨hdb, .inl, .inl, .inl, .inl⟩
    | blocksBlooms id => exact ⟨hdb, .inl, .inl, .inl, .inl⟩
  · exact .refl bc

theorem update_none_eq_some {K V : Type} [DecidableEq K] {f : K → Option V} {k k' : K} {v : V}
    (h : Function.update f k none k' = some v) : f k' = some v := by
  by_cases hk : k' = k
  · subst hk
    rw [Function.update_self] at h
    cases h
  · rwa [Function.update_of_ne hk] at h

/-- An eviction; the cached block hashes stay. -/
theorem recached_evict (bc : BlockChain) (id : CacheID) :
    Recached bc (bc.evict id) ∧ (bc.evict id).m_blockHashes = bc.m_blockHashes := by
  obtain ⟨h, x⟩ := id
  have hdb : SameDB bc (bc.evict (h, x)) := by cases x <;> exact ⟨rfl, rfl, rfl, rfl, rfl, rfl⟩
  refine ⟨?_, by cases x <;> rfl⟩
  cases x with
  | Block => exact ⟨hdb, fun hb => .inl (update_none_eq_some hb), .inl, .inl, .inl⟩
  | Details => exact ⟨hdb, .inl, fun hd => .inl (update_none_eq_some hd), .inl, .inl⟩
  | BlockHash => exact .refl bc
  | TransactionAddress => exact ⟨hdb, .inl, .inl, .inl, fun ht => .inl (update_none_eq_some ht)⟩
  | LogBlooms => exact ⟨hdb, .inl, .inl, .inl, .inl⟩
  | Receipts => exact ⟨hdb, .inl, .inl, .inl, .inl⟩
  | BlocksBlooms => exact ⟨hdb, .inl, .inl, .inl, .inl⟩

theorem recached_foldl_evict : ∀ (ids : List CacheID) (bc : BlockChain),
    Recached bc (ids.foldl evict bc) ∧ (ids.foldl evict bc).m_blockHashes = bc.m_blockHashes
  | [], bc => ⟨.refl bc, rfl⟩
  | x :: ids, bc => by
    obtain ⟨h1, h2⟩ := recached_evict bc x
    obtain ⟨k1, k2⟩ := recached_foldl_evict ids (bc.evict x)
    rw [List.foldl_cons]
    exact ⟨h1.trans k1, k2.trans h2⟩

theorem recached_garbageCollect (bc : BlockChain) :
    Recached bc bc.garbageCollect ∧ bc.garbageCollect.m_blockHashes = bc.m_blockHashes := by
  obtain ⟨h, hm⟩ := recached_foldl_evict (bc.m_cacheUsage.getLast?.getD []) bc
  exact ⟨⟨⟨h.detailsDB, h.blocksDB, h.blockHashDB, h.transactionAddressDB, h.m_lastBlockHash,
    h.m_lastBlockNumber⟩, h.m_blocks, h.m_details, h.m_blockHashes, h.m_transactionAddresses⟩, hm⟩

/-! ## Import -/

theorem verifyBlock_eq_ok {b : BlockRLP} {balanceRetriever : BalanceRetriever}
    {ir : ImportRequirements} {vb : VerifiedBlock}
    (h : bc.verifyBlock w b balanceRetriever ir = .ok vb) :
    bc.verifyHeader w b balanceRetriever ir = .ok () ∧ vb.block = b ∧ vb.info = b.info := by
  unfold verifyBlock at h
  rw [unit_bind_eq_ok, unit_bind_eq_ok, bind_eq_ok] at h
  obtain ⟨h1, -, txs, -, h2⟩ := h
  cases h2
  exact ⟨h1, rfl, rfl⟩

theorem verifyBlock_ofBlock {b : BlockRLP} {balanceRetriever : BalanceRetriever}
    {ir : ImportRequirements} {vb : VerifiedBlock}
    (h : bc.verifyBlock w b balanceRetriever ir = .ok vb) : vb.OfBlock := by
  unfold verifyBlock at h
  rw [unit_bind_eq_ok, unit_bind_eq_ok, bind_eq_ok] at h
  obtain ⟨-, -, txs, htxs, h⟩ := h
  cases h
  refine ⟨rfl, fun t ht => ?_⟩
  split at htxs
  · obtain ⟨d, hd, htx⟩ := exists_of_mem_mapM htxs t ht
    unfold verifyTransaction at htx
    rw [bind_eq_ok] at htx
    obtain ⟨t', ht', htx⟩ := htx
    rw [unit_bind_eq_ok] at htx
    obtain ⟨-, htx⟩ := htx
    cases htx
    exact ⟨d, hd, _, ht'⟩
  · cases htxs
    cases ht

/-- A known block is recorded. -/
theorem TreeInv.recorded_of_isKnown (hI : bc.TreeInv w) {h : H256} {isCurrent : Bool}
    (hk : bc.isKnown w h isCurrent = true) : h ∈ bc.recorded := by
  simp only [isKnown, decide_eq_true_eq] at hk
  rcases hk with rfl | ⟨-, hd, -⟩
  · exact hI.tree.root_mem
  · exact hI.coherent.lookup_isSome.1 hd

theorem TreeInv.isKnown_iff (hI : bc.TreeInv w) {h : H256} :
    bc.isKnown w h true = true ↔ h ∈ bc.recorded ∧ bc.heightOf h ≤ bc.m_lastBlockNumber := by
  simp only [isKnown, decide_eq_true_eq]
  constructor
  · rintro (rfl | ⟨-, hd, hn⟩)
    · exact ⟨hI.tree.root_mem, by rw [hI.tree.height_root]; exact Nat.zero_le _⟩
    · exact ⟨hI.coherent.lookup_isSome.1 hd, hn trivial⟩
  · rintro ⟨hm, hn⟩
    by_cases hg : h = genesisHash w
    · exact .inl hg
    · obtain ⟨b, hb, -⟩ := hI.blocks h hm hg
      exact .inr ⟨by rw [hI.coherent.lookup_blocks, hb]; rfl, hI.coherent.lookup_isSome.2 hm,
        fun _ => hn⟩

theorem TreeInv.isKnown_of_mem (hI : bc.TreeInv w) {h : H256} (hm : h ∈ bc.recorded) :
    bc.isKnown w h false = true := by
  simp only [isKnown, decide_eq_true_eq]
  by_cases hg : h = genesisHash w
  · exact .inl hg
  · obtain ⟨b, hb, -⟩ := hI.blocks h hm hg
    exact .inr ⟨by rw [hI.coherent.lookup_blocks, hb]; rfl, hI.coherent.lookup_isSome.2 hm,
      fun hf => absurd hf (by decide)⟩

/-- The place of a block that is new, under a recorded parent. -/
theorem TreeInv.checkPlace_eq_ok (hI : bc.TreeInv w) {info : BlockHeader} {mustBeNew : Bool}
    (hm : info.parentHash ∈ bc.recorded)
    (hnew : mustBeNew = true → bc.isKnown w (info.hash w.crypto .WithSeal) true = false) :
    bc.checkPlace w info mustBeNew = .ok () := by
  have hnull : ¬(bc.details info.parentHash).isNull = true := by
    have := hI.bound _ hm
    simp only [BlockDetails.isNull, decide_eq_true_eq]
    exact fun h => absurd h (ne_of_lt this)
  have hn : (if mustBeNew then bc.checkBlockIsNew w info else .ok ()) = .ok () := by
    cases mustBeNew with
    | false => rfl
    | true => exact throwIf_neg (by rw [hnew rfl]; simp)
  unfold checkPlace
  rw [hn, ok_bind, throwIf_neg (by rw [hI.isKnown_of_mem hm]; simp), ok_bind, throwIf_neg hnull]

/-- What the checks in order establish of a block under a recorded parent. -/
theorem verifyHeader_inOrder (hw : w.Valid) (hI : bc.ChainInv w B) {b : BlockRLP}
    {balanceRetriever : BalanceRetriever} (hm : b.info.parentHash ∈ bc.recorded)
    (h : bc.verifyHeader w b balanceRetriever .InOrderChecks = .ok ()) :
    b.info.number = bc.heightOf b.info.parentHash + 1 ∧ 0 ≤ b.info.timestamp := by
  obtain ⟨p, hp, -, hpn, hpt⟩ := hI.block_spec hw hm
  have h0 : b.info.parentHash ≠ 0 := fun h0 => hI.zero (h0 ▸ hm)
  unfold verifyHeader at h
  rw [unit_bind_eq_ok, bind_eq_ok] at h
  obtain ⟨-, parent, hparent, hv⟩ := h
  rw [parentHeader, if_pos (by decide), headerData, hp, Option.map_some, if_neg h0] at hparent
  cases hparent
  have hset : ({ p.info with m_hash := b.info.parentHash } : BlockHeader).isSet = true := by
    simp only [BlockHeader.isSet, decide_eq_true_eq]
    omega
  have hver := ((BlockHeader.verify_eq_ok.1 (Ethash.verify_eq_ok.1 hv).1).2.2.1) hset
  obtain ⟨-, ht, hn⟩ := BlockHeader.verifyParent_eq_ok.1 hver
  simp only at ht hn
  exact ⟨by rw [hn, hpn], by omega⟩

/-- The chain once the stake of `b` was checked: the cache of the block hashes may have taken in the
record the check asked for. -/
def StakeChecked (w : World) (b : BlockRLP) (bc bc' : BlockChain) : Prop :=
  ∃ m u db, bc' = { bc with m_blockHashes := m, m_cacheUsage := u, stateDB := db } ∧
    ∀ n h, m n = some h → bc.m_blockHashes n = some h ∨
      (bc.asksStake w b = some n ∧ n ≠ 0 ∧ bc.blockHashDB n = some h)

theorem StakeChecked.refl (w : World) (b : BlockRLP) (bc : BlockChain) : StakeChecked w b bc bc :=
  ⟨_, _, _, rfl, fun _ _ h => .inl h⟩

theorem stakeChecked_touchStake (w : World) (b : BlockRLP) (bc : BlockChain)
    (db : H256 → Option AccountTrie) :
    StakeChecked w b bc { bc.touchStake w b with stateDB := db } := by
  unfold touchStake
  cases hs : bc.asksStake w b with
  | none => exact ⟨_, _, _, rfl, fun _ _ h => .inl h⟩
  | some n =>
    simp only [touch]
    split
    · rename_i hhit
      simp only [hitsDB, decide_eq_true_eq] at hhit
      refine ⟨_, _, _, rfl, fun n' h hm => ?_⟩
      rcases filled_eq_some hm with hc | ⟨rfl, hd⟩
      · exact .inl hc
      · exact .inr ⟨hs, hhit.1, hd⟩
    · exact ⟨_, _, _, rfl, fun _ _ h => .inl h⟩

/-- The check drops nothing from the cache. -/
theorem touchStake_keeps (w : World) (b : BlockRLP) (bc : BlockChain) {n : ℕ} {h : H256}
    (hm : bc.m_blockHashes n = some h) : (bc.touchStake w b).m_blockHashes n = some h := by
  unfold touchStake
  cases bc.asksStake w b with
  | none => exact hm
  | some k =>
    simp only [touch]
    split
    · simp only [fill, noteUsed, filled, Function.update_apply]
      split
      · rename_i hk
        rw [← hk, lookup, hm]
        rfl
      · exact hm
    · exact hm

theorem StakeChecked.chainInv {b : BlockRLP} (hS : StakeChecked w b bc bc')
    (hI : bc.ChainInv w B) : bc'.ChainInv w B := by
  obtain ⟨m, u, db, rfl, -⟩ := hS
  exact hI.congr ⟨hI.coherent.details, hI.coherent.blocks⟩ rfl rfl rfl rfl rfl

/-- Where a block of the set goes. -/
theorem ChainInv.insertable (hI : bc.ChainInv w B) {b : BlockRLP} (hB : b ∈ B.carrier)
    (hm : b.info.parentHash ∈ bc.recorded)
    (hn : b.info.number = bc.heightOf b.info.parentHash + 1) : Insertable w bc b := by
  have hlt : b.info.number < 2 ^ 32 := by
    have := hI.bound _ hm
    unfold c_invalidNumber at this
    omega
  refine ⟨B.hash_ne_zero b hB, B.hash_ne_genesis b hB, hm, hn, hlt, fun b' hb' => ?_⟩
  obtain ⟨hrec, hne⟩ := hI.block_recorded _ _ hb'
  obtain ⟨b'', h1, h2, -⟩ := hI.blocks _ hrec hne
  rw [hb'] at h1
  cases h1
  exact B.hash_inj _ (hI.mem hb') _ hB h2

/-- A block adds its own difficulty. -/
theorem enactOn_difficulty {b s : Block} {vb : VerifiedBlock} {now : ℤ} {tdIncrease : U256}
    (h : b.enactOn w bc vb now = .ok (tdIncrease, s)) : tdIncrease = vb.info.difficulty := by
  unfold Block.enactOn at h
  simp only [bind_eq_ok] at h
  obtain ⟨_, -, _, -, _, -, _, -, _, -, h⟩ := h
  unfold Block.enact at h
  simp only [bind_eq_ok] at h
  obtain ⟨_, -, _, -, _, -, _, -, _, -, _, -, _, -, h⟩ := h
  cases h
  rfl

/-- An import stops with an exception before it inserts the block, the tree left as it is, or it
inserts the block at its place. -/
theorem importBlock_cases (hw : w.Valid) (hI : bc.ChainInv w B) {vb : VerifiedBlock}
    (hv : vb.info = vb.block.info) {mustBeNew : Bool} {now : ℤ}
    {r : Except Exception ImportRoute} (h : bc.importBlock w vb mustBeNew now = (r, bc')) :
    ∃ bc1, StakeChecked w vb.block bc bc1 ∧
      ((∃ e, r = .error e ∧ bc' = bc1) ∨
      (bc.checkPlace w vb.info mustBeNew = .ok () ∧ vb.info.parentHash ∈ bc.recorded ∧
        vb.info.number = bc.heightOf vb.info.parentHash + 1 ∧ 0 ≤ vb.info.timestamp ∧
        ∃ receipts, insertBlockAndExtras w bc1 vb receipts
          ((bc.details vb.info.parentHash).totalDifficulty + vb.info.difficulty) = (r, bc'))) := by
  unfold importBlock at h
  cases hplace : bc.checkPlace w vb.info mustBeNew with
  | error e =>
    rw [hplace] at h
    cases h
    exact ⟨_, StakeChecked.refl .., .inl ⟨e, rfl, rfl⟩⟩
  | ok u =>
  cases htime : checkBlockTimestamp w vb.info now with
  | error e =>
    rw [hplace, htime] at h
    cases h
    exact ⟨_, StakeChecked.refl .., .inl ⟨e, rfl, rfl⟩⟩
  | ok u' =>
  have hstake := stakeChecked_touchStake w vb.block bc
  cases hver : bc.verifyBlock w vb.block (bc.balanceRetriever w now) .InOrderChecks with
  | error e =>
    simp only [hplace, htime, hver, Prod.mk.injEq] at h
    exact ⟨_, hstake _, .inl ⟨e, h.1.symm, h.2.symm⟩⟩
  | ok vb' =>
  cases hen : (Block.new w 0).enactOn w (bc.touchStake w vb.block) vb now with
  | error e =>
    simp only [hplace, htime, hver, hen] at h
    split at h
    · cases h
      exact ⟨_, hstake _, .inl ⟨_, rfl, rfl⟩⟩
    · cases h
      exact ⟨_, hstake _, .inl ⟨_, rfl, rfl⟩⟩
    · rename_i he
      cases he
  | ok ts =>
  obtain ⟨tdIncrease, s⟩ := ts
  obtain rfl := enactOn_difficulty hen
  simp only [hplace, htime, hver, hen] at h
  have hpar : vb.info.parentHash ∈ bc.recorded := by
    unfold checkPlace at hplace
    rw [unit_bind_eq_ok, unit_bind_eq_ok, throwIf_eq_ok] at hplace
    exact hI.recorded_of_isKnown (by simpa using hplace.2.1)
  rw [hv] at hpar
  obtain ⟨hn, ht⟩ := verifyHeader_inOrder hw hI hpar (verifyBlock_eq_ok hver).1
  rw [← hv] at hpar hn ht
  split at h
  · cases h
    exact ⟨_, hstake _, .inl ⟨_, rfl, rfl⟩⟩
  · cases h
    exact ⟨_, hstake _, .inl ⟨_, rfl, rfl⟩⟩
  · exact ⟨_, hstake _, .inr ⟨rfl, hpar, hn, ht, _, h⟩⟩

/-- `insert` stops with an exception, or stores the block at its place. -/
theorem insert_cases (hw : w.Valid) (hI : bc.ChainInv w B) {b : BlockRLP} {receipts : Bytes}
    {mustBeNew : Bool} {now : ℤ} {r : Except Exception Unit}
    (h : bc.insert w b receipts mustBeNew now = (r, bc')) :
    ∃ bc1, StakeChecked w b bc bc1 ∧
      ((∃ e, r = .error e ∧ bc' = bc1) ∨
      (r = .ok () ∧ b.info.parentHash ∈ bc.recorded ∧
        b.info.number = bc.heightOf b.info.parentHash + 1 ∧ 0 ≤ b.info.timestamp ∧
        ∃ blooms, bc' = (bc1.addChildOnce b.info.parentHash
            (b.info.hash w.crypto .WithSeal)).writeBlock b (b.info.hash w.crypto .WithSeal)
          ⟨(bc.heightOf b.info.parentHash + 1) % 2 ^ 32,
            (bc.details b.info.parentHash).totalDifficulty + b.info.difficulty,
            b.info.parentHash, []⟩ blooms receipts)) := by
  unfold insert at h
  cases hout : bc.verifyBlock w b (bc.balanceRetriever w now) .OutOfOrderChecks with
  | error e =>
    rw [hout] at h
    cases h
    exact ⟨_, StakeChecked.refl .., .inl ⟨e, rfl, rfl⟩⟩
  | ok vb =>
  obtain ⟨-, -, hv⟩ := verifyBlock_eq_ok hout
  simp only [hout, hv] at h
  split at h
  · cases h
    exact ⟨_, StakeChecked.refl .., .inl ⟨_, rfl, rfl⟩⟩
  · rename_i hchecks
    have hpar : b.info.parentHash ∈ bc.recorded := by
      rw [unit_bind_eq_ok, unit_bind_eq_ok, throwIf_eq_ok] at hchecks
      exact hI.recorded_of_isKnown (by simpa using hchecks.2.1)
    have hstake := stakeChecked_touchStake w b bc bc.stateDB
    have heq : ({ bc.touchStake w b with stateDB := bc.stateDB } : BlockChain) =
        bc.touchStake w b := by
      unfold touchStake touch
      split
      · split <;> rfl
      · rfl
    rw [heq] at hstake
    split at h
    · cases h
      exact ⟨_, hstake, .inl ⟨_, rfl, rfl⟩⟩
    · cases h
      exact ⟨_, hstake, .inl ⟨_, rfl, rfl⟩⟩
    · rename_i hver _
      obtain ⟨hn, ht⟩ := verifyHeader_inOrder hw hI hpar (verifyBlock_eq_ok hver).1
      cases h
      exact ⟨_, hstake, .inr ⟨rfl, hpar, hn, ht, _, rfl⟩⟩

theorem Stored.chainInv (hI : bc.ChainInv w B) {b : BlockRLP} (hB : b ∈ B.carrier)
    (ht : 0 ≤ b.info.timestamp) {td : U256} (hS : Stored bc bc' b td) (hT : bc'.TreeInv w) :
    bc'.ChainInv w B := by
  refine ⟨hT, fun {h' x} hx => ?_, fun {h' x} hx => ?_⟩
  all_goals
    rw [hS.blocks, Function.update_apply] at hx
    split at hx
  · cases hx
    exact hB
  · exact hI.mem hx
  · cases hx
    exact ht
  · exact hI.timestamp hx

theorem chainInv_insertBlockAndExtras (hI : bc.ChainInv w B) {vb : VerifiedBlock}
    (hv : vb.info = vb.block.info) (hB : vb.block ∈ B.carrier) (hP : Insertable w bc vb.block)
    (hne : vb.block.info.number ≠ c_invalidNumber) (ht : 0 ≤ vb.block.info.timestamp) {receipts : Bytes} {td : U256}
    {r : Except Exception ImportRoute} (h : bc.insertBlockAndExtras w vb receipts td = (r, bc')) :
    bc'.ChainInv w B := by
  have hT := treeInv_insertBlockAndExtras hI.toTreeInv hv hP hne h
  rcases insertBlockAndExtras_cases hI.toTreeInv hv hP h with
    ⟨e, -, -, rfl⟩ | ⟨-, -, hS, -⟩ | ⟨_, _, _, _, -, -, hS, -⟩
  · exact ⟨hT, hI.mem, hI.timestamp⟩
  · exact hS.chainInv hI hB ht hT
  · exact hS.chainInv hI hB ht hT

/-- `insert` leaves the block stored and the head where it is. -/
theorem insert_stored (hI : bc.ChainInv w B) {b : BlockRLP} (hP : Insertable w bc b)
    (td : U256) (blooms : List LogBloom) (receipts : Bytes) :
    let bc' := (bc.addChildOnce b.info.parentHash (b.info.hash w.crypto .WithSeal)).writeBlock b
      (b.info.hash w.crypto .WithSeal)
      ⟨(bc.heightOf b.info.parentHash + 1) % 2 ^ 32, td, b.info.parentHash, []⟩ blooms receipts
    Stored bc bc' b td ∧ Unmoved bc bc' := by
  have hlt : bc.heightOf b.info.parentHash + 1 < 2 ^ 32 := by
    have := hI.bound _ hP.parent_mem
    unfold c_invalidNumber at this
    omega
  rw [hash_eq hP.hash_ne_zero, Nat.mod_eq_of_lt hlt]
  refine ⟨?_, ?_⟩
  · exact stored_writeBlock hI.toTreeInv hP (childNoted_addChildOnce bc _ _)
      (d := ⟨_, td, b.info.parentHash, []⟩) rfl blooms receipts
  · unfold addChildOnce
    split <;> exact ⟨rfl, rfl, rfl, rfl, rfl, rfl⟩

/-! ## Operations -/

/-- What may happen to a chain. -/
inductive Op
  | importBlock (vb : VerifiedBlock) (mustBeNew : Bool) (now : ℤ)
  | importUnverified (b : BlockRLP) (mustBeNew : Bool) (now : ℤ)
  | insert (b : BlockRLP) (receipts : Bytes) (mustBeNew : Bool) (now : ℤ)
  | insertWithoutParent (b : BlockRLP) (receipts : Bytes) (td : U256) (now : ℤ)
  | query (q : Query)
  | garbageCollect
  | rewind (newHead : ℕ)

/-- The route an operation returns, and the chain after it; where the source returns none it is
empty. -/
def perform (w : World) (bc : BlockChain) : Op → Except Exception ImportRoute × BlockChain
  | .importBlock vb mustBeNew now => bc.importBlock w vb mustBeNew now
  | .importUnverified b mustBeNew now => bc.importUnverified w b mustBeNew now
  | .insert b receipts mustBeNew now =>
    let r := bc.insert w b receipts mustBeNew now
    (r.1.map fun _ => ⟨[], [], []⟩, r.2)
  | .insertWithoutParent b receipts td now => bc.insertWithoutParent w b receipts td now
  | .query q => (.ok ⟨[], [], []⟩, bc.touch w q)
  | .garbageCollect => (.ok ⟨[], [], []⟩, bc.garbageCollect)
  | .rewind newHead => (.ok ⟨[], [], []⟩, bc.rewind w newHead)

/-- The chain after an operation. -/
def step (w : World) (bc : BlockChain) (op : Op) : BlockChain := (bc.perform w op).2

/-- The operation brings a block of the set, if it brings one. -/
def Op.Within (B : BlockSet w) : Op → Prop
  | .importBlock vb _ _ => vb.block ∈ B.carrier ∧ vb.info = vb.block.info
  | .importUnverified b _ _ => b ∈ B.carrier
  | .insert b _ _ _ => b ∈ B.carrier
  | .insertWithoutParent b _ _ _ => b ∈ B.carrier
  | _ => True

/-- The operation keeps to the tree: no block is at the number reserved for null details, a
parentless insertion does have its parent, one number below, and a rewind finds the canonical
block. -/
def Op.Fits (w : World) (bc : BlockChain) : Op → Prop
  | .importBlock vb _ _ => vb.block.info.number ≠ c_invalidNumber
  | .importUnverified b _ _ => b.info.number ≠ c_invalidNumber
  | .insert b _ _ _ => b.info.number ≠ c_invalidNumber
  | .insertWithoutParent b _ _ _ =>
    b.info.parentHash ∈ bc.recorded ∧ b.info.number = bc.heightOf b.info.parentHash + 1 ∧
      b.info.number ≠ c_invalidNumber ∧ 0 ≤ b.info.timestamp
  | .query _ => True
  | .garbageCollect => True
  | .rewind newHead => newHead < bc.m_lastBlockNumber →
    ∃ h ∈ bc.canonical, bc.heightOf h = newHead ∧ bc.numberHash w newHead = h

/-- A parentless insertion stops with an exception, or goes on to insert the block. -/
theorem insertWithoutParent_cases {b : BlockRLP} {receipts : Bytes} {td : U256} {now : ℤ}
    {r : Except Exception ImportRoute} (h : bc.insertWithoutParent w b receipts td now = (r, bc')) :
    (∃ e, r = .error e ∧ bc' = bc) ∨
    (∃ vb, vb.block = b ∧ vb.info = b.info ∧ bc.checkBlockIsNew w b.info = .ok () ∧
      bc.insertBlockAndExtras w vb receipts td = (r, bc')) := by
  unfold insertWithoutParent at h
  simp only at h
  split at h
  · cases h
    exact .inl ⟨_, rfl, rfl⟩
  · rename_i vb hvb
    simp only [bind_eq_ok] at hvb
    obtain ⟨vb', hver, _, hnew, _, -, hvb⟩ := hvb
    cases hvb
    obtain ⟨-, h1, h2⟩ := verifyBlock_eq_ok hver
    exact .inr ⟨_, h1, h2, by rw [← h2]; exact hnew, h⟩

/-- A direct import stops with an exception, or imports the block it has verified. -/
theorem importUnverified_cases {b : BlockRLP} {mustBeNew : Bool} {now : ℤ}
    {r : Except Exception ImportRoute} (h : bc.importUnverified w b mustBeNew now = (r, bc')) :
    (∃ e, r = .error e ∧ bc' = bc) ∨
    (∃ vb, vb.block = b ∧ vb.info = b.info ∧ bc.importBlock w vb mustBeNew now = (r, bc')) := by
  unfold importUnverified at h
  split at h
  · cases h
    exact .inl ⟨_, rfl, rfl⟩
  · rename_i vb hver
    obtain ⟨-, h1, h2⟩ := verifyBlock_eq_ok hver
    exact .inr ⟨_, h1, h2, h⟩

theorem chainInv_importBlock (hw : w.Valid) (hI : bc.ChainInv w B) {vb : VerifiedBlock}
    (hB : vb.block ∈ B.carrier) (hv : vb.info = vb.block.info)
    (hne : vb.block.info.number ≠ c_invalidNumber) {mustBeNew : Bool} {now : ℤ}
    {r : Except Exception ImportRoute} (h : bc.importBlock w vb mustBeNew now = (r, bc')) :
    bc'.ChainInv w B := by
  obtain ⟨bc1, hstake, ⟨e, -, rfl⟩ | ⟨-, hm, hn, ht, receipts, hins⟩⟩ :=
    importBlock_cases hw hI hv h
  · exact hstake.chainInv hI
  · have hI1 := hstake.chainInv hI
    obtain ⟨m, u, db, rfl, -⟩ := hstake
    rw [hv] at hm hn ht
    exact chainInv_insertBlockAndExtras hI1 hv hB (hI1.insertable hB hm hn) hne ht hins

theorem numberHash_touch (bc : BlockChain) (n : ℕ) :
    (bc.touch w (.numberHash n)).numberHash w n = bc.numberHash w n := by
  unfold touch
  split
  · simp only [numberHash, fill, noteUsed, filled]
    congr 1
    cases hc : bc.m_blockHashes n <;> cases hd : bc.blockHashDB n <;> simp [lookup, hc, hd]
  · rfl

/-- A rewind sets the head to the block its number is looked up as. -/
theorem rewind_spec (bc : BlockChain) {newHead : ℕ} (hlt : newHead < bc.m_lastBlockNumber) :
    SameDB { bc with m_lastBlockHash := bc.numberHash w newHead, m_lastBlockNumber := newHead }
        (bc.rewind w newHead) ∧ (bc.Coherent → (bc.rewind w newHead).Coherent) := by
  obtain ⟨m, hm⟩ := clearCaches_eq bc (newHead + 1)
  unfold rewind
  rw [if_neg (by omega)]
  generalize bc.clearCachesDuringChainReversion (newHead + 1) = bc1 at hm
  have hnum : bc1.numberHash w newHead = bc.numberHash w newHead := by
    rw [hm]
    simp [numberHash, lookup]
  have hS := recached_touch (w := w) bc1 (.numberHash newHead)
  refine ⟨⟨?_, ?_, ?_, ?_, ?_, rfl⟩, fun hC => ?_⟩
  · exact hS.detailsDB.trans (by rw [hm])
  · exact hS.blocksDB.trans (by rw [hm])
  · exact hS.blockHashDB.trans (by rw [hm])
  · exact hS.transactionAddressDB.trans (by rw [hm])
  · exact (numberHash_touch bc1 newHead).trans hnum
  · have hC1 : bc1.Coherent := by
      rw [hm]
      exact ⟨hC.details, hC.blocks⟩
    exact ⟨(hS.coherent hC1).details, (hS.coherent hC1).blocks⟩

/-- A canonical block can be made the head. -/
theorem chainInv_rewind (hI : bc.ChainInv w B) {newHead : ℕ}
    (h : newHead < bc.m_lastBlockNumber →
      ∃ h ∈ bc.canonical, bc.heightOf h = newHead ∧ bc.numberHash w newHead = h) :
    (bc.rewind w newHead).ChainInv w B := by
  by_cases hlt : newHead < bc.m_lastBlockNumber
  · obtain ⟨x, hx, hht, hnum⟩ := h hlt
    obtain ⟨hS, hC⟩ := rewind_spec (w := w) bc hlt
    have hxm := hI.tree.mem_of_mem_lineage hI.head_mem hx
    refine hS.chainInv ?_ (hC hI.coherent)
    rw [hnum]
    refine ⟨⟨⟨hI.coherent.1, hI.coherent.2⟩, hI.tree, hI.zero, hI.bound, hI.blocks,
      hI.block_recorded, hxm, hht.symm, ?_⟩, hI.mem, hI.timestamp⟩
    intro y hy hne
    exact hI.records y (hI.tree.lineage_subset_of_mem hI.head_mem hx hy) hne
  · unfold rewind
    rw [if_pos (not_lt.1 hlt)]
    exact hI

/-- Every operation that keeps to the tree keeps the invariant. -/
theorem chainInv_step (hw : w.Valid) (hI : bc.ChainInv w B) {op : Op} (hB : op.Within B)
    (hF : op.Fits w bc) : (bc.step w op).ChainInv w B := by
  unfold step
  cases op with
  | importBlock vb mustBeNew now => exact chainInv_importBlock hw hI hB.1 hB.2 hF rfl
  | importUnverified b mustBeNew now =>
    rcases h : bc.importUnverified w b mustBeNew now with ⟨r, bc'⟩
    simp only [perform, h]
    rcases importUnverified_cases h with ⟨e, -, rfl⟩ | ⟨vb, rfl, hv, he⟩
    · exact hI
    · exact chainInv_importBlock hw hI hB hv hF he
  | insert b receipts mustBeNew now =>
    rcases h : bc.insert w b receipts mustBeNew now with ⟨r, bc'⟩
    simp only [perform, h]
    obtain ⟨bc1, hstake, ⟨e, -, rfl⟩ | ⟨-, hm, hn, ht, blooms, rfl⟩⟩ := insert_cases hw hI h
    · exact hstake.chainInv hI
    · have hI1 := hstake.chainInv hI
      obtain ⟨m, u, db, rfl, -⟩ := hstake
      have hP := hI1.insertable hB hm hn
      obtain ⟨hS, hU⟩ := insert_stored hI1 hP _ blooms receipts
      exact hS.chainInv hI1 hB ht (hU.treeInv hI1.toTreeInv hP hS hF)
  | insertWithoutParent b receipts td now =>
    obtain ⟨hm, hn, hne, ht⟩ := hF
    rcases h : bc.insertWithoutParent w b receipts td now with ⟨r, bc'⟩
    simp only [perform, h]
    rcases insertWithoutParent_cases h with ⟨e, -, rfl⟩ | ⟨vb, rfl, hv, -, he⟩
    · exact hI
    · exact chainInv_insertBlockAndExtras hI hv hB (hI.insertable hB hm hn) hne ht he
  | query q => exact (recached_touch bc q).chainInv hI
  | garbageCollect => exact (recached_garbageCollect bc).1.chainInv hI
  | rewind newHead => exact chainInv_rewind hI hF

/-- The tree is there after every run whose steps keep to it. -/
theorem chainInv_run (hw : w.Valid) {ops : List Op} (hI : bc.ChainInv w B)
    (h : StateRun.Along (step w) (fun bc op => op.Within B ∧ op.Fits w bc) bc ops) :
    (StateRun.run (step w) bc ops).ChainInv w B :=
  StateRun.invariant (ChainInv w B) (fun _ _ hI hP => chainInv_step hw hI hP.1 hP.2) hI h

end

end BlockChain

end Petrachor
