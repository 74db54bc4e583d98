import Petrachor.BlockChain.Tree

/-!
# What an insertion does

`insertBlockAndExtras_cases` says everything an insertion under a recorded parent can do: throw
before anything is written, store the block beside the chain, or store it and reorganise to it.
The invariants of the chain are derived from this alone.
-/

namespace Petrachor

open ParentTree

namespace BlockChain

/-! ## Frames -/

theorem clearLevel_eq (level : ℕ) :
    ∀ (items : List ℕ) (bc : BlockChain),
      ∃ m, bc.clearLevel level items = { bc with m_blocksBlooms := m }
  | [], bc => ⟨bc.m_blocksBlooms, rfl⟩
  | item :: items, bc => by
    unfold clearLevel
    rw [List.foldl_cons]
    exact clearLevel_eq level items (bc.setBloom _ _ _)

theorem clearBlockBlooms_eq (bc : BlockChain) (start stop : ℕ) :
    ∃ m, bc.clearBlockBlooms start stop = { bc with m_blocksBlooms := m } := by
  unfold clearBlockBlooms
  obtain ⟨m, hm⟩ := clearLevel_eq 0 (wrappedRange start stop) bc
  rw [hm]
  exact clearLevel_eq 1 _ _

theorem clearCaches_eq (bc : BlockChain) (firstInvalid : ℕ) :
    ∃ m, bc.clearCachesDuringChainReversion firstInvalid =
      { bc with
        m_blockHashes := fun i =>
          if firstInvalid ≤ i ∧ i < (bc.number + 1) % 2 ^ 32 then none else bc.m_blockHashes i
        m_transactionAddresses := fun _ => none
        m_blocksBlooms := m } := by
  unfold clearCachesDuringChainReversion
  exact clearBlockBlooms_eq _ _ _

theorem foldl_setBloom_eq (f : BlockChain → H256 × ℕ → LogBloom) :
    ∀ (places : List (H256 × ℕ)) (bc : BlockChain),
      ∃ m, places.foldl (fun bc p => bc.setBloom p.1 p.2 (f bc p)) bc =
        { bc with m_blocksBlooms := m }
  | [], bc => ⟨bc.m_blocksBlooms, rfl⟩
  | p :: places, bc => by
    rw [List.foldl_cons]
    exact foldl_setBloom_eq f places (bc.setBloom _ _ _)

section

variable (w : World)

theorem addBlooms_eq (bc : BlockChain) (tbi : BlockHeader) :
    ∃ m d, bc.addBlooms w tbi = { bc with m_blocksBlooms := m, blocksBloomsDB := d } := by
  unfold addBlooms
  obtain ⟨m, hm⟩ := foldl_setBloom_eq (fun bc p => bc.blocksBlooms p.1 p.2 |||
    (tbi.logBloom ||| bloomBits (w.crypto.sha3 (asBytes 20 tbi.author))))
    (bloomPlaces (toUnsigned tbi.number)) bc
  simp only [hm]
  exact ⟨m, _, rfl⟩

/-- The blooms of the canonical blocks are the same, cached and stored. -/
structure SameBlooms (bc bc' : BlockChain) : Prop where
  m_blocksBlooms : bc'.m_blocksBlooms = bc.m_blocksBlooms
  blocksBloomsDB : bc'.blocksBloomsDB = bc.blocksBloomsDB

variable {w} in
/-- The blooms that are added depend on the blooms alone. -/
theorem SameBlooms.addBlooms {bc bc' : BlockChain} (h : SameBlooms bc bc') (tbi : BlockHeader) :
    SameBlooms (bc.addBlooms w tbi) (bc'.addBlooms w tbi) := by
  obtain ⟨hm, hd⟩ := h
  constructor
  · simp only [BlockChain.addBlooms, bloomPlaces, c_bloomIndexLevels, List.range_succ, List.range_zero, List.nil_append,
      List.map_append, List.map_cons, List.map_nil, List.foldl_append, List.foldl_cons, List.foldl_nil, setBloom,
      blocksBlooms, hm, hd]
  · simp only [BlockChain.addBlooms, bloomPlaces, c_bloomIndexLevels, List.range_succ, List.range_zero, List.nil_append,
      List.map_append, List.map_cons, List.map_nil, List.foldl_append, List.foldl_cons, List.foldl_nil, setBloom,
      blocksBlooms, hm, hd]

theorem SameBlooms.trans {bc bc' bc'' : BlockChain} (h : SameBlooms bc bc') (h' : SameBlooms bc' bc'') :
    SameBlooms bc bc'' :=
  ⟨h'.1.trans h.1, h'.2.trans h.2⟩

theorem SameBlooms.blocksBlooms_eq {bc bc' : BlockChain} (h : SameBlooms bc bc') (id : H256) :
    bc'.blocksBlooms id = bc.blocksBlooms id := by
  unfold blocksBlooms
  rw [h.m_blocksBlooms, h.blocksBloomsDB]

theorem SameBlooms.clearLevel (level : ℕ) (items : List ℕ) {bc bc' : BlockChain} (h : SameBlooms bc bc') :
    SameBlooms (bc.clearLevel level items) (bc'.clearLevel level items) := by
  unfold BlockChain.clearLevel
  induction items generalizing bc bc' with
  | nil => exact h
  | cons item items ih =>
    rw [List.foldl_cons, List.foldl_cons]
    apply ih
    simp only [h.blocksBlooms_eq]
    constructor
    · simp only [setBloom, h.blocksBlooms_eq, h.m_blocksBlooms]
    · exact h.blocksBloomsDB

theorem SameBlooms.clearBlockBlooms {bc bc' : BlockChain} (h : SameBlooms bc bc') (start stop : ℕ) :
    SameBlooms (bc.clearBlockBlooms start stop) (bc'.clearBlockBlooms start stop) :=
  (h.clearLevel 0 _).clearLevel 1 _

/-- The blooms of these blocks, added in this order. -/
def addAllBlooms (bs : List BlockRLP) (bc : BlockChain) : BlockChain :=
  bs.foldl (fun bc b => bc.addBlooms w b.info) bc

variable {w} in
theorem SameBlooms.addAllBlooms {bc bc' : BlockChain} (h : SameBlooms bc bc') (bs : List BlockRLP) :
    SameBlooms (addAllBlooms w bs bc) (addAllBlooms w bs bc') := by
  unfold BlockChain.addAllBlooms
  induction bs generalizing bc bc' with
  | nil => exact h
  | cons b bs ih =>
    rw [List.foldl_cons, List.foldl_cons]
    exact ih (h.addBlooms b.info)

theorem sameBlooms_makeCanonical (bc : BlockChain) (b : BlockRLP) :
    SameBlooms (bc.addBlooms w b.info) (bc.makeCanonical w b) := by
  unfold makeCanonical addBlockHash addTransactionAddresses
  by_cases h : 0 ≤ b.info.number
  · simp only [h, if_true]
    exact ⟨rfl, rfl⟩
  · simp only [h, if_false]
    exact ⟨rfl, rfl⟩

/-- The number records after these blocks became canonical, in this order. -/
def numberRecords (bs : List BlockRLP) (db : ℕ → Option H256) : ℕ → Option H256 :=
  bs.foldl (fun db b => if 0 ≤ b.info.number then
    Function.update db b.info.number.toNat (some (b.info.hash w.crypto .WithSeal)) else db) db

/-- The transactions of these blocks, each with its location. -/
def locations (bs : List BlockRLP) : List (H256 × TransactionAddress) :=
  bs.flatMap fun b => b.transactions.zipIdx.map fun t =>
    (w.crypto.sha3 t.1, ⟨b.info.hash w.crypto .WithSeal, t.2⟩)

/-- The transaction records after these blocks became canonical, in this order. -/
def txRecords (bs : List BlockRLP) (db : H256 → Option TransactionAddress) :
    H256 → Option TransactionAddress :=
  (locations w bs).foldl (fun db t => Function.update db t.1 (some t.2)) db

theorem txRecords_cons (b : BlockRLP) (bs : List BlockRLP) (db : H256 → Option TransactionAddress) :
    txRecords w (b :: bs) db = txRecords w bs (txRecords w [b] db) := by
  simp [txRecords, locations, List.foldl_append]

theorem makeCanonical_eq (bc : BlockChain) (b : BlockRLP) :
    ∃ m d, bc.makeCanonical w b =
      { bc with
        blockHashDB := numberRecords w [b] bc.blockHashDB
        transactionAddressDB := txRecords w [b] bc.transactionAddressDB
        m_blocksBlooms := m, blocksBloomsDB := d } := by
  obtain ⟨m, d, h⟩ := addBlooms_eq w bc b.info
  refine ⟨m, d, ?_⟩
  simp only [makeCanonical, h, addTransactionAddresses, addBlockHash, numberRecords, txRecords,
    locations, List.foldl_cons, List.foldl_nil, List.flatMap_cons, List.flatMap_nil,
    List.append_nil, List.foldl_map]
  split <;> rfl

/-- The loop over the route writes the records of the blocks before the common one. -/
theorem makeRouteCanonical_eq (b : BlockRLP) {common : H256} (rest : List H256) :
    ∀ (bs : List BlockRLP) (bc : BlockChain),
      (∀ x ∈ bs, x.info.m_hash ≠ common ∧ if x.info.m_hash = b.info.hash w.crypto .WithSeal then x = b
        else bc.block w x.info.m_hash = some x) →
      ∃ m d, makeRouteCanonical w b common (bs.map (fun x => x.info.m_hash) ++ common :: rest) bc =
        (.ok (), { bc with
          blockHashDB := numberRecords w bs bc.blockHashDB
          transactionAddressDB := txRecords w bs bc.transactionAddressDB
          m_blocksBlooms := m, blocksBloomsDB := d }) ∧
        SameBlooms (addAllBlooms w bs bc) { bc with m_blocksBlooms := m, blocksBloomsDB := d }
  | [], bc, _ => ⟨bc.m_blocksBlooms, bc.blocksBloomsDB, by
      simp [makeRouteCanonical, numberRecords, txRecords, locations], rfl, rfl⟩
  | x :: bs, bc, h => by
    obtain ⟨⟨hne, hx⟩, hrest⟩ := List.forall_mem_cons.1 h
    obtain ⟨m, d, hc⟩ := makeCanonical_eq w bc x
    -- the records do not change which blocks are found
    have hblock : ∀ h', (bc.makeCanonical w x).block w h' = bc.block w h' := by
      intro h'; rw [hc]; rfl
    obtain ⟨m', d', hm, hblooms⟩ := makeRouteCanonical_eq b rest bs (bc.makeCanonical w x)
      (by simpa only [hblock] using hrest)
    refine ⟨m', d', ?_, ((sameBlooms_makeCanonical w bc x).addAllBlooms bs).trans ⟨hblooms.1, hblooms.2⟩⟩
    rw [List.map_cons, List.cons_append, makeRouteCanonical, if_neg hne]
    by_cases hb : x.info.m_hash = b.info.hash w.crypto .WithSeal
    · rw [if_pos hb] at hx ⊢
      subst hx
      rw [hm, hc, txRecords_cons w x bs]
      rfl
    · rw [if_neg hb] at hx ⊢
      rw [hx]
      simp only
      rw [hm, hc, txRecords_cons w x bs]
      rfl

end

/-! ## Where a block is inserted -/

/-- The place of a block in the tree: under a recorded parent, one above it; a block that is
recorded already is the same block. -/
structure Insertable (w : World) (bc : BlockChain) (b : BlockRLP) : Prop where
  hash_ne_zero : b.info.m_hash ≠ 0
  hash_ne_genesis : b.info.m_hash ≠ genesisHash w
  parent_mem : b.info.parentHash ∈ bc.recorded
  number_eq : b.info.number = bc.heightOf b.info.parentHash + 1
  number_lt : b.info.number < 2 ^ 32
  same : ∀ b', bc.blocksDB b.info.m_hash = some b' → b' = b

theorem hash_eq {w : World} {h : BlockHeader} (hne : h.m_hash ≠ 0) :
    h.hash w.crypto .WithSeal = h.m_hash := by
  unfold BlockHeader.hash
  exact if_neg hne

section

variable {w : World} {bc : BlockChain} {b : BlockRLP} (hI : bc.TreeInv w) (hP : Insertable w bc b)

include hP

theorem Insertable.toUnsigned_eq :
    toUnsigned b.info.number = bc.heightOf b.info.parentHash + 1 := by
  have h1 := hP.number_eq
  have h2 := hP.number_lt
  unfold toUnsigned
  omega

include hI

/-- A block that is recorded already is recorded where it is inserted again. -/
theorem Insertable.recorded_same (hm : b.info.m_hash ∈ bc.recorded) :
    bc.parentOf b.info.m_hash = b.info.parentHash ∧
      bc.heightOf b.info.m_hash = bc.heightOf b.info.parentHash + 1 := by
  obtain ⟨b', hb, -, hpar, hnum⟩ := hI.blocks _ hm hP.hash_ne_genesis
  obtain rfl := hP.same b' hb
  have := hP.number_eq
  exact ⟨hpar.symm, by omega⟩

end

/-! ## The steps of an insertion -/

section Steps

variable {w : World} {bc : BlockChain}

/-- What the details of a block may be read as: what its cache holds, or what the database does. -/
def Entry (bc : BlockChain) (h : H256) (d : BlockDetails) : Prop :=
  bc.m_details h = some d ∨ bc.detailsDB h = some d

theorem entry_details {h : H256} (hm : h ∈ bc.recorded) : bc.Entry h (bc.details h) := by
  obtain ⟨d, hd⟩ := Option.isSome_iff_exists.1 hm
  cases hc : bc.m_details h with
  | some d' => exact .inl (by simp [details, lookup, hc])
  | none => exact .inr (by simp [details, lookup, hc, hd])

/-- The details of `p` are cached with other children, and no other block or details changed. -/
structure ChildNoted (bc bc' : BlockChain) (p : H256) : Prop where
  detailsDB : bc'.detailsDB = bc.detailsDB
  blocksDB : bc'.blocksDB = bc.blocksDB
  m_blocks : bc'.m_blocks = bc.m_blocks
  stateDB : bc'.stateDB = bc.stateDB
  m_details : ∃ d, bc'.m_details = Function.update bc.m_details p (some d) ∧
    d.core = (bc.details p).core ∧ d.totalDifficulty = (bc.details p).totalDifficulty

theorem childNoted_addChild (bc : BlockChain) (p c : H256) : ChildNoted bc (bc.addChild p c) p :=
  ⟨rfl, rfl, rfl, rfl, _, rfl, rfl, rfl⟩

theorem childNoted_addChildOnce (bc : BlockChain) (p c : H256) :
    ChildNoted bc (bc.addChildOnce p c) p := by
  unfold addChildOnce
  split
  · exact ⟨rfl, rfl, rfl, rfl, _, rfl, rfl, rfl⟩
  · exact childNoted_addChild bc p c

section ChildNoted

variable {bc' : BlockChain} {p : H256} (hN : ChildNoted bc bc' p)

include hN

theorem ChildNoted.details_eq (h : H256) :
    (bc'.details h).core = (bc.details h).core ∧
      (bc'.details h).totalDifficulty = (bc.details h).totalDifficulty := by
  obtain ⟨d, hd, hcore, htd⟩ := hN.m_details
  rw [details, lookup, hN.detailsDB, hd]
  by_cases hp : h = p
  · subst hp
    rw [Function.update_self]
    exact ⟨hcore, htd⟩
  · rw [Function.update_of_ne hp]
    exact ⟨rfl, rfl⟩

theorem ChildNoted.parentOf_eq : bc'.parentOf = bc.parentOf :=
  funext fun h => congrArg Prod.snd (hN.details_eq h).1

theorem ChildNoted.heightOf_eq : bc'.heightOf = bc.heightOf :=
  funext fun h => congrArg Prod.fst (hN.details_eq h).1

theorem ChildNoted.coherent (hC : bc.Coherent) (hp : p ∈ bc.recorded) : bc'.Coherent := by
  obtain ⟨dp, hdp, hcore, -⟩ := hN.m_details
  refine ⟨?_, by rw [hN.blocksDB, hN.m_blocks]; exact hC.blocks⟩
  intro h d hd
  rw [hN.detailsDB]
  rw [hdp] at hd
  by_cases hh : h = p
  · subst hh
    obtain ⟨d', hd'⟩ := Option.isSome_iff_exists.1 hp
    rw [Function.update_self] at hd
    cases hd
    exact ⟨d', hd', by rw [hcore, hC.details_core hd']⟩
  · rw [Function.update_of_ne hh] at hd
    exact hC.details hd

/-- An entry keeps its total difficulty. -/
theorem ChildNoted.entry (hp : p ∈ bc.recorded) {h : H256} {d : BlockDetails}
    (hd : bc'.Entry h d) : ∃ d0, bc.Entry h d0 ∧ d0.totalDifficulty = d.totalDifficulty := by
  obtain ⟨dp, hdp, -, htd⟩ := hN.m_details
  rcases hd with hd | hd
  · rw [hdp] at hd
    by_cases hh : h = p
    · subst hh
      rw [Function.update_self] at hd
      cases hd
      exact ⟨bc.details h, entry_details hp, htd.symm⟩
    · rw [Function.update_of_ne hh] at hd
      exact ⟨d, .inl hd, rfl⟩
  · rw [hN.detailsDB] at hd
    exact ⟨d, .inr hd, rfl⟩

end ChildNoted

theorem treeInv_addChild (hI : bc.TreeInv w) {p : H256} (hp : p ∈ bc.recorded) (c : H256) :
    (bc.addChild p c).TreeInv w :=
  hI.congr ((childNoted_addChild bc p c).coherent hI.coherent hp) rfl rfl rfl rfl rfl

/-- The head's block is there. -/
theorem TreeInv.head_block (hI : bc.TreeInv w) :
    ∃ x, bc.block w bc.m_lastBlockHash = some x ∧ x.info.m_hash = bc.m_lastBlockHash := by
  by_cases hg : bc.m_lastBlockHash = genesisHash w
  · exact ⟨w.genesisBlock, by rw [block, if_pos hg], hg.symm⟩
  · obtain ⟨x, hx, hh, -⟩ := hI.blocks _ hI.head_mem hg
    exact ⟨x, by rw [hI.coherent.block_eq hg, hx], hh⟩

/-- When a block is better than the head. -/
def Better (w : World) (bc : BlockChain) (td : U256) (gasUsed : U256) : Prop :=
  (bc.details bc.m_lastBlockHash).totalDifficulty < td ∨
    (w.params.tieBreakingGas = true ∧ td = (bc.details bc.m_lastBlockHash).totalDifficulty ∧
      ∃ x, bc.block w bc.m_lastBlockHash = some x ∧ x.info.gasUsed < gasUsed)

theorem isBest_eq (hI : bc.TreeInv w) (td : U256) (h : BlockHeader) :
    ∃ best, bc.isBest w td h = .ok best ∧ (best = true ↔ Better w bc td h.gasUsed) := by
  obtain ⟨x, hx, -⟩ := hI.head_block
  unfold isBest Better
  by_cases h1 : (bc.details bc.currentHash).totalDifficulty < td
  · exact ⟨true, by rw [if_pos h1], iff_of_true rfl (.inl h1)⟩
  by_cases h2 : w.params.tieBreakingGas ∧ td = (bc.details bc.currentHash).totalDifficulty
  · refine ⟨decide (x.info.gasUsed < h.gasUsed), ?_, ?_⟩
    · rw [if_neg h1, if_pos h2, info, show bc.currentHash = bc.m_lastBlockHash from rfl, hx]
      rfl
    · simp only [decide_eq_true_eq]
      refine ⟨fun hg => .inr ⟨h2.1, h2.2, x, hx, hg⟩, ?_⟩
      rintro (h3 | ⟨-, -, y, hy, hg⟩)
      · exact absurd h3 h1
      · rw [hx] at hy
        cases hy
        exact hg
  · refine ⟨false, by rw [if_neg h1, if_neg h2], ?_⟩
    simp only [Bool.false_eq_true, false_iff]
    rintro (h3 | ⟨h3, h4, -⟩)
    · exact h1 h3
    · exact h2 ⟨h3, h4⟩

/-- The blocks of a part of the tree above a common block, from the databases. -/
theorem exists_path_blocks (hI : bc.TreeInv w) {p : H256} (hp : p ∈ bc.recorded) {j : ℕ}
    (hj : j ≤ bc.heightOf p) :
    ∃ bs : List BlockRLP, bs.map (fun x => x.info.m_hash) = path bc.parentOf j p ∧
      ∀ x ∈ bs, bc.blocksDB x.info.m_hash = some x ∧ x.info.number = bc.heightOf x.info.m_hash ∧
        x.info.m_hash ≠ genesisHash w := by
  refine exists_map_eq fun h hh => ?_
  obtain ⟨k, hk, rfl⟩ := mem_path.1 hh
  obtain ⟨hm, hkh⟩ := hI.tree.iterate hp (show k ≤ bc.heightOf p by omega)
  have hne := hI.tree.ne_root (show 0 < bc.heightOf (bc.parentOf^[k] p) by omega)
  obtain ⟨x, hx, hxh, -, hxn⟩ := hI.blocks _ hm hne
  refine ⟨x, hxh, ?_⟩
  rw [hxh]
  exact ⟨hx, hxn, hne⟩

/-- What a reorganisation to `b` writes: the records of `b` and of the blocks `bs` between the
common block `c` and `b`, and nothing stays cached of the blocks above `c`. -/
structure Reorganised (w : World) (bc bc' : BlockChain) (b : BlockRLP) (c : H256)
    (bs : List BlockRLP) : Prop where
  blockHashDB : bc'.blockHashDB = numberRecords w (b :: bs) bc.blockHashDB
  transactionAddressDB : bc'.transactionAddressDB = txRecords w (b :: bs) bc.transactionAddressDB
  m_blockHashes : bc'.m_blockHashes = if c = bc.m_lastBlockHash then bc.m_blockHashes else
    fun i => if bc.heightOf c < i ∧ i ≤ bc.m_lastBlockNumber then none else bc.m_blockHashes i
  m_transactionAddresses : bc'.m_transactionAddresses =
    if c = bc.m_lastBlockHash then bc.m_transactionAddresses else fun _ => none

/-- The fields that neither a reorganisation nor its caches touch. -/
structure SameTree (bc bc' : BlockChain) : Prop where
  detailsDB : bc'.detailsDB = bc.detailsDB
  blocksDB : bc'.blocksDB = bc.blocksDB
  m_details : bc'.m_details = bc.m_details
  m_blocks : bc'.m_blocks = bc.m_blocks
  m_lastBlockHash : bc'.m_lastBlockHash = bc.m_lastBlockHash
  m_lastBlockNumber : bc'.m_lastBlockNumber = bc.m_lastBlockNumber
  stateDB : bc'.stateDB = bc.stateDB

theorem SameTree.block_eq {bc' : BlockChain} (hS : SameTree bc bc') (h : H256) :
    bc'.block w h = bc.block w h := by
  unfold block
  rw [hS.m_blocks, hS.blocksDB]

theorem SameTree.refl (bc : BlockChain) : SameTree bc bc := ⟨rfl, rfl, rfl, rfl, rfl, rfl, rfl⟩

theorem SameTree.trans {bc' bc'' : BlockChain} (h : SameTree bc bc') (h' : SameTree bc' bc'') : SameTree bc bc'' where
  detailsDB := h'.detailsDB.trans h.detailsDB
  blocksDB := h'.blocksDB.trans h.blocksDB
  m_details := h'.m_details.trans h.m_details
  m_blocks := h'.m_blocks.trans h.m_blocks
  m_lastBlockHash := h'.m_lastBlockHash.trans h.m_lastBlockHash
  m_lastBlockNumber := h'.m_lastBlockNumber.trans h.m_lastBlockNumber
  stateDB := h'.stateDB.trans h.stateDB

theorem sameTree_makeCanonical (bc : BlockChain) (b : BlockRLP) :
    SameTree bc (bc.makeCanonical w b) := by
  obtain ⟨m, d, hc⟩ := makeCanonical_eq w bc b
  rw [hc]
  exact ⟨rfl, rfl, rfl, rfl, rfl, rfl, rfl⟩

theorem sameTree_makeRouteCanonical (b : BlockRLP) (common : H256) (route : List H256) :
    ∀ bc, SameTree bc (makeRouteCanonical w b common route bc).2 := by
  induction route with
  | nil => exact SameTree.refl
  | cons h rest ih =>
    intro bc
    unfold makeRouteCanonical
    split
    · exact .refl bc
    · split
      · exact (sameTree_makeCanonical bc b).trans (ih _)
      · split
        · exact (sameTree_makeCanonical bc _).trans (ih _)
        · exact .refl bc

theorem sameTree_clear (bc : BlockChain) (common last : H256) (firstInvalid : ℕ) :
    SameTree bc (if common ≠ last then bc.clearCachesDuringChainReversion firstInvalid else bc) := by
  split
  · obtain ⟨m, hm⟩ := clearCaches_eq bc firstInvalid
    rw [hm]
    exact ⟨rfl, rfl, rfl, rfl, rfl, rfl, rfl⟩
  · exact .refl bc

/-- A reorganisation leaves the blocks and their details alone, whether it comes to its end or not. -/
theorem sameTree_reorganise (bc : BlockChain) (b : BlockRLP) : SameTree bc (bc.reorganise w b).2 := by
  unfold reorganise
  simp only
  split
  · exact .refl bc
  · rename_i route common _ _
    have hclear := sameTree_clear bc common bc.currentHash (((bc.details common).number + 1) % 2 ^ 32)
    have hroute := sameTree_makeRouteCanonical (w := w) b common
      (route ++ [b.info.hash w.crypto .WithSeal]).reverse
      (if common ≠ bc.currentHash then
        bc.clearCachesDuringChainReversion (((bc.details common).number + 1) % 2 ^ 32) else bc)
    split
    · rename_i heq
      rw [heq] at hroute
      exact (hclear.trans hroute).trans ⟨rfl, rfl, rfl, rfl, rfl, rfl, rfl⟩
    · rename_i heq
      rw [heq] at hroute
      exact hclear.trans hroute

/-- The chain with the blooms cleared above the common block, if the head is to leave. -/
def reverted (bc : BlockChain) (c : H256) : BlockChain :=
  if c ≠ bc.m_lastBlockHash then bc.clearBlockBlooms (bc.heightOf c + 1) (bc.m_lastBlockNumber + 1) else bc

theorem SameBlooms.reverted {bc' : BlockChain} (h : SameBlooms bc bc') {c : H256}
    (hc : bc'.heightOf c = bc.heightOf c) (hl : bc'.m_lastBlockHash = bc.m_lastBlockHash)
    (hn : bc'.m_lastBlockNumber = bc.m_lastBlockNumber) : SameBlooms (bc.reverted c) (bc'.reverted c) := by
  unfold BlockChain.reverted
  rw [hc, hl, hn]
  split
  · exact h.clearBlockBlooms _ _
  · exact h

/-- The caches are cleared from the block above the common one to the head. -/
theorem cleared_spec (hI : bc.TreeInv w) {c : H256} (hc : c ∈ bc.recorded) :
    ∃ bc1, (if c ≠ bc.m_lastBlockHash then
        bc.clearCachesDuringChainReversion (((bc.details c).number + 1) % 2 ^ 32) else bc) = bc1 ∧
      SameTree bc bc1 ∧ bc1.blockHashDB = bc.blockHashDB ∧
      bc1.transactionAddressDB = bc.transactionAddressDB ∧
      (bc1.m_blockHashes = if c = bc.m_lastBlockHash then bc.m_blockHashes else
        fun i => if bc.heightOf c < i ∧ i ≤ bc.m_lastBlockNumber then none else bc.m_blockHashes i) ∧
      (bc1.m_transactionAddresses =
        if c = bc.m_lastBlockHash then bc.m_transactionAddresses else fun _ => none) ∧
      SameBlooms (bc.reverted c) bc1 := by
  have hcb := hI.bound c hc
  have hhb := hI.bound _ hI.head_mem
  have hhn := hI.head_number
  unfold c_invalidNumber at hcb hhb
  -- neither bound wraps, since both numbers are below the invalid one
  have hfirst : ((bc.details c).number + 1) % 2 ^ 32 = bc.heightOf c + 1 :=
    Nat.mod_eq_of_lt (show bc.heightOf c + 1 < 2 ^ 32 by omega)
  have hstop : (bc.number + 1) % 2 ^ 32 = bc.m_lastBlockNumber + 1 :=
    Nat.mod_eq_of_lt (show bc.m_lastBlockNumber + 1 < 2 ^ 32 by omega)
  obtain ⟨m, hclear⟩ := clearCaches_eq bc (((bc.details c).number + 1) % 2 ^ 32)
  rw [hfirst, hstop] at hclear
  unfold reverted
  refine ⟨_, rfl, ?_⟩
  by_cases hl : c = bc.m_lastBlockHash
  · rw [if_neg (not_not.2 hl), if_pos hl, if_pos hl, if_neg (not_not.2 hl)]
    exact ⟨⟨rfl, rfl, rfl, rfl, rfl, rfl, rfl⟩, rfl, rfl, rfl, rfl, rfl, rfl⟩
  · have hblooms : SameBlooms (bc.clearBlockBlooms (bc.heightOf c + 1) (bc.m_lastBlockNumber + 1))
        (bc.clearCachesDuringChainReversion (((bc.details c).number + 1) % 2 ^ 32)) := by
      rw [hfirst, ← hstop]
      apply SameBlooms.clearBlockBlooms
      exact ⟨rfl, rfl⟩
    rw [if_pos hl, if_neg hl, if_neg hl, if_pos hl]
    rw [hfirst, hclear] at hblooms ⊢
    refine ⟨⟨rfl, rfl, rfl, rfl, rfl, rfl, rfl⟩, rfl, rfl, ?_, rfl, hblooms⟩
    simp only [Nat.lt_succ_iff, Nat.succ_le_iff]

/-- The two ways of a route do not lead over the common block. -/
theorem common_notMem (hI : bc.TreeInv w) {b : BlockRLP} (hP : Insertable w bc b) {c : H256}
    {i j : ℕ} (hr : Route bc.parentOf bc.heightOf bc.m_lastBlockHash b.info.parentHash c i j) :
    c ∉ path bc.parentOf i bc.m_lastBlockHash ∧
      c ∉ (path bc.parentOf j b.info.parentHash).reverse ++ [b.info.m_hash] := by
  have hci := hI.tree.height_iterate hI.head_mem hr.left_le
  have hcj := hI.tree.height_iterate hP.parent_mem hr.right_le
  have hcm := hI.tree.iterate_mem hI.head_mem hr.left_le
  rw [hr.left] at hci hcm
  rw [hr.right] at hcj
  constructor
  · intro hm
    obtain ⟨k, hk, hke⟩ := mem_path.1 hm
    have := hI.tree.height_iterate hI.head_mem
      (show k ≤ bc.heightOf bc.m_lastBlockHash by have := hr.left_le; omega)
    rw [hke] at this
    omega
  · rw [List.mem_append, List.mem_reverse, List.mem_singleton]
    rintro (hm | rfl)
    · obtain ⟨k, hk, hke⟩ := mem_path.1 hm
      have := hI.tree.height_iterate hP.parent_mem
        (show k ≤ bc.heightOf b.info.parentHash by have := hr.right_le; omega)
      rw [hke] at this
      omega
    · have := (hP.recorded_same hI hcm).2
      omega

theorem reorganise_spec (hI : bc.TreeInv w) {b : BlockRLP} (hP : Insertable w bc b) :
    ∃ c i j bs bc', Route bc.parentOf bc.heightOf bc.m_lastBlockHash b.info.parentHash c i j ∧
      bs.map (fun x => x.info.m_hash) = path bc.parentOf j b.info.parentHash ∧
      (∀ x ∈ bs, bc.blocksDB x.info.m_hash = some x ∧ x.info.number = bc.heightOf x.info.m_hash) ∧
      SameTree bc bc' ∧ Reorganised w bc bc' b c bs ∧
      SameBlooms (addAllBlooms w (b :: bs) (bc.reverted c)) bc' ∧
      bc.reorganise w b = (.ok (path bc.parentOf i bc.m_lastBlockHash ++
        c :: ((path bc.parentOf j b.info.parentHash).reverse ++ [b.info.m_hash]), c), bc') := by
  obtain ⟨c, i, j, hr, n, ht⟩ := treeRoute_spec hI hI.head_mem hP.parent_mem
  obtain ⟨bs, hbs, hblocks⟩ := exists_path_blocks hI hP.parent_mem hr.right_le
  have hcm := hI.tree.iterate_mem hI.head_mem hr.left_le
  rw [hr.left] at hcm
  have hhash : b.info.hash w.crypto .WithSeal = b.info.m_hash := hash_eq hP.hash_ne_zero
  obtain ⟨-, hlive⟩ := common_notMem hI hP hr
  rw [List.mem_append, List.mem_reverse, List.mem_singleton, not_or, ← hbs] at hlive
  have hne : ∀ x ∈ bs, x.info.m_hash ≠ c := fun x hx he =>
    hlive.1 (he ▸ List.mem_map_of_mem hx)
  obtain ⟨bc1, hbc1, hsame, hh1, ht1, hmb1, hmt1, hrev1⟩ := cleared_spec hI hcm
  obtain ⟨m, d, hm, hblooms⟩ := makeRouteCanonical_eq w b (path bc.parentOf i bc.m_lastBlockHash).reverse
    (b :: bs) bc1 (List.forall_mem_cons.2 ⟨⟨Ne.symm hlive.2, by rw [if_pos hhash.symm]⟩, fun x hx => ⟨hne x hx, by
      obtain ⟨h1, -, h3⟩ := hblocks x hx
      split
      · rename_i he
        rw [he, hhash] at h1
        exact hP.same x h1
      · rw [hsame.block_eq, hI.coherent.block_eq h3, h1]⟩⟩)
  refine ⟨c, i, j, bs, { bc1 with
      blockHashDB := numberRecords w (b :: bs) bc1.blockHashDB
      transactionAddressDB := txRecords w (b :: bs) bc1.transactionAddressDB
      m_blocksBlooms := m, blocksBloomsDB := d }, hr, hbs,
    fun x hx => ⟨(hblocks x hx).1, (hblocks x hx).2.1⟩,
    ⟨hsame.1, hsame.2, hsame.3, hsame.4, hsame.5, hsame.6, hsame.7⟩,
    ⟨by rw [hh1], by rw [ht1], hmb1, hmt1⟩, (hrev1.addAllBlooms _).trans ⟨hblooms.1, hblooms.2⟩, ?_⟩
  have hrev : (path bc.parentOf i bc.m_lastBlockHash ++
      c :: (path bc.parentOf j b.info.parentHash).reverse ++ [b.info.m_hash]).reverse =
      (b :: bs).map (fun x => x.info.m_hash) ++
        c :: (path bc.parentOf i bc.m_lastBlockHash).reverse := by
    rw [List.map_cons, hbs]
    simp
  simp only [reorganise, show bc.currentHash = bc.m_lastBlockHash from rfl, ht, hbc1, hhash, hrev,
    hm]
  rw [List.append_assoc, List.cons_append]

/-- What storing a block changes in the databases and caches of blocks and details. -/
structure Stored (bc bc' : BlockChain) (b : BlockRLP) (td : U256) : Prop where
  details_self : ∃ d, bc'.detailsDB b.info.m_hash = some d ∧
    d.core = (bc.heightOf b.info.parentHash + 1, b.info.parentHash)
  details_other : ∀ h, h ≠ b.info.m_hash →
    (bc'.detailsDB h).map BlockDetails.core = (bc.detailsDB h).map BlockDetails.core
  /-- An entry is the block's own, or has the total difficulty of one that was there. -/
  entry : ∀ {h d}, bc'.Entry h d → (h = b.info.m_hash ∧ d.totalDifficulty = td) ∨
    ∃ d0, bc.Entry h d0 ∧ d0.totalDifficulty = d.totalDifficulty
  blocks : bc'.blocksDB = Function.update bc.blocksDB b.info.m_hash (some b)
  stateDB : bc'.stateDB = bc.stateDB
  coherent : bc'.Coherent

theorem ChildNoted.sameTree {bc1 bc2 : BlockChain} {p : H256} (hN : ChildNoted bc bc1 p)
    (hS : SameTree bc1 bc2) : ChildNoted bc bc2 p :=
  ⟨hS.1.trans hN.1, hS.2.trans hN.2, hS.4.trans hN.3, hS.7.trans hN.4,
    by rw [hS.m_details]; exact hN.5⟩

/-- The block is written with its extras, after it was noted as a child of its parent. -/
theorem stored_writeBlock (hI : bc.TreeInv w) {b : BlockRLP} (hP : Insertable w bc b)
    {bc1 : BlockChain} (hN : ChildNoted bc bc1 b.info.parentHash) {d : BlockDetails}
    (hcore : d.core = (bc.heightOf b.info.parentHash + 1, b.info.parentHash))
    (blooms : List LogBloom) (receipts : Bytes) :
    Stored bc (bc1.writeBlock b b.info.m_hash d blooms receipts) b d.totalDifficulty := by
  have hC1 := hN.coherent hI.coherent hP.parent_mem
  have hp1 : b.info.parentHash ∈ bc1.recorded := by
    rw [recorded_congr hN.detailsDB]; exact hP.parent_mem
  refine ⟨⟨d, Function.update_self .., hcore⟩, ?_, ?_, ?_, hN.stateDB, ?_, ?_⟩
  · intro h hh
    simp only [writeBlock, Function.update_of_ne hh]
    by_cases hp : h = b.info.parentHash
    · subst hp
      obtain ⟨dp, hdp⟩ := Option.isSome_iff_exists.1 hP.parent_mem
      rw [Function.update_self, hdp, Option.map_some, Option.map_some, (hN.details_eq _).1,
        hI.coherent.details_core hdp]
    · rw [Function.update_of_ne hp, hN.detailsDB]
  · rintro h d' (hd | hd)
    · exact .inr (hN.entry hP.parent_mem (.inl hd))
    · simp only [writeBlock] at hd
      by_cases hh : h = b.info.m_hash
      · subst hh
        rw [Function.update_self] at hd
        cases hd
        exact .inl ⟨rfl, rfl⟩
      · rw [Function.update_of_ne hh] at hd
        by_cases hp : h = b.info.parentHash
        · subst hp
          rw [Function.update_self] at hd
          cases hd
          exact .inr (hN.entry hP.parent_mem (entry_details hp1))
        · rw [Function.update_of_ne hp] at hd
          exact .inr (hN.entry hP.parent_mem (.inr hd))
  · simp only [writeBlock]
    rw [hN.blocksDB]
  · intro h d' hd
    obtain ⟨d0, h1, h2⟩ := hC1.details (show bc1.m_details h = some d' from hd)
    simp only [writeBlock]
    by_cases hh : h = b.info.m_hash
    · -- the block was recorded before, at this place
      subst hh
      rw [hN.detailsDB] at h1
      obtain ⟨hp, hht⟩ := hP.recorded_same hI (Option.isSome_iff_exists.2 ⟨d0, h1⟩)
      have hc0 := hI.coherent.details_core h1
      refine ⟨d, Function.update_self .., ?_⟩
      rw [hcore, ← h2, ← hc0, ← hht, ← hp]
      rfl
    · rw [Function.update_of_ne hh]
      by_cases hp : h = b.info.parentHash
      · subst hp
        exact ⟨_, Function.update_self .., by rw [hC1.details_core h1, h2]⟩
      · rw [Function.update_of_ne hp]
        exact ⟨d0, h1, h2⟩
  · intro h x hx
    have hdb := hC1.blocks (show bc1.m_blocks h = some x from hx)
    simp only [writeBlock]
    by_cases hh : h = b.info.m_hash
    · subst hh
      rw [hN.blocksDB] at hdb
      rw [Function.update_self, hP.same x hdb]
    · rw [Function.update_of_ne hh]
      exact hdb

/-! ## The insertion as a whole -/

/-- The head and the canonical records stay as they are. -/
structure Unmoved (bc bc' : BlockChain) : Prop where
  m_lastBlockHash : bc'.m_lastBlockHash = bc.m_lastBlockHash
  m_lastBlockNumber : bc'.m_lastBlockNumber = bc.m_lastBlockNumber
  blockHashDB : bc'.blockHashDB = bc.blockHashDB
  transactionAddressDB : bc'.transactionAddressDB = bc.transactionAddressDB
  m_blockHashes : bc'.m_blockHashes = bc.m_blockHashes
  m_transactionAddresses : bc'.m_transactionAddresses = bc.m_transactionAddresses

/-- The chain reorganised from its head over the common block `c` to `b`: `i` blocks of the old
branch leave, `j` blocks under `b` come in with it. -/
structure Adopted (w : World) (bc bc' : BlockChain) (b : BlockRLP) (c : H256) (i j : ℕ)
    (bs : List BlockRLP) : Prop where
  route : Route bc.parentOf bc.heightOf bc.m_lastBlockHash b.info.parentHash c i j
  hashes : bs.map (fun x => x.info.m_hash) = path bc.parentOf j b.info.parentHash
  blocks : ∀ x ∈ bs, bc.blocksDB x.info.m_hash = some x ∧
    x.info.number = bc.heightOf x.info.m_hash
  records : Reorganised w bc bc' b c bs
  head : bc'.m_lastBlockHash = b.info.m_hash
  number : bc'.m_lastBlockNumber = bc.heightOf b.info.parentHash + 1

theorem splitRoute_eq {dead live : List H256} {c : H256} (hd : c ∉ dead) (hl : c ∉ live) :
    splitRoute (dead ++ c :: live) c = (dead, live) := by
  have h1 : ∀ x ∈ dead, decide (x ≠ c) = true := fun x hx =>
    decide_eq_true fun he => hd (he ▸ hx)
  unfold splitRoute
  rw [List.takeWhile_append_of_pos h1, List.dropWhile_append_of_pos h1]
  simpa using fun x hx (he : x = c) => hl (he ▸ hx)

/-- What an insertion under a recorded parent can do, also to the blooms of the canonical blocks. -/
theorem insertBlockAndExtras_spec (hI : bc.TreeInv w) {vb : VerifiedBlock}
    (hv : vb.info = vb.block.info) (hP : Insertable w bc vb.block) {receipts : Bytes} {td : U256}
    {r : Except Exception ImportRoute} {bc' : BlockChain}
    (h : bc.insertBlockAndExtras w vb receipts td = (r, bc')) :
    (∃ e, receiptBlooms receipts = .error e ∧ r = .error e ∧
      bc' = bc.addChild vb.info.parentHash vb.info.m_hash) ∨
    (r = .ok ⟨[], [], vb.transactions⟩ ∧ ¬Better w bc td vb.info.gasUsed ∧
      Stored bc bc' vb.block td ∧ Unmoved bc bc' ∧ SameBlooms bc bc') ∨
    (∃ c i j bs, r = .ok ⟨path bc.parentOf i bc.m_lastBlockHash,
        (path bc.parentOf j vb.info.parentHash).reverse ++ [vb.info.m_hash], vb.transactions⟩ ∧
      Better w bc td vb.info.gasUsed ∧ Stored bc bc' vb.block td ∧
      Adopted w bc bc' vb.block c i j bs ∧
      SameBlooms (addAllBlooms w (vb.block :: bs) (bc.reverted c)) bc') := by
  obtain ⟨b, info, txs⟩ := vb
  obtain rfl : info = b.info := hv
  simp only at hP h ⊢
  have hhash : b.info.hash w.crypto .WithSeal = b.info.m_hash := hash_eq hP.hash_ne_zero
  have hI1 := treeInv_addChild hI hP.parent_mem b.info.m_hash
  have hN := childNoted_addChild bc b.info.parentHash b.info.m_hash
  have hpar := hN.parentOf_eq
  have hht := hN.heightOf_eq
  have hcore : (⟨toUnsigned b.info.number, td, b.info.parentHash, []⟩ : BlockDetails).core =
      (bc.heightOf b.info.parentHash + 1, b.info.parentHash) := by
    rw [BlockDetails.core, hP.toUnsigned_eq]
  have hP1 : Insertable w (bc.addChild b.info.parentHash b.info.m_hash) b :=
    ⟨hP.hash_ne_zero, hP.hash_ne_genesis, hP.parent_mem, by rw [hht]; exact hP.number_eq,
      hP.number_lt, hP.same⟩
  have hbetter : Better w (bc.addChild b.info.parentHash b.info.m_hash) td b.info.gasUsed ↔
      Better w bc td b.info.gasUsed := by
    unfold Better
    rw [(hN.details_eq _).2]
    rfl
  unfold insertBlockAndExtras at h
  simp only [hhash] at h
  cases hbl : receiptBlooms receipts with
  | error e =>
    simp only [hbl, Prod.mk.injEq] at h
    exact .inl ⟨e, rfl, h.1.symm, h.2.symm⟩
  | ok blooms =>
    obtain ⟨best, hbest, hiff⟩ := isBest_eq hI1 td b.info
    rw [hbetter] at hiff
    simp only [hbl, hbest] at h
    cases best with
    | false =>
      simp only [Prod.mk.injEq] at h
      obtain ⟨rfl, rfl⟩ := h
      refine .inr (.inl ⟨rfl, fun hb => absurd (hiff.2 hb) (by decide), ?_, ?_, rfl, rfl⟩)
      · exact stored_writeBlock hI hP hN hcore blooms receipts
      · exact ⟨rfl, rfl, rfl, rfl, rfl, rfl⟩
    | true =>
      obtain ⟨c, i, j, bs, bc2, hr, hbs, hblocks, hS, hR, hblooms, hre⟩ := reorganise_spec hI1 hP1
      have hsame : SameBlooms bc (bc.addChild b.info.parentHash b.info.m_hash) := ⟨rfl, rfl⟩
      have hrev := hsame.reverted (congrFun hht c) rfl rfl
      obtain ⟨hc1, hc2⟩ := common_notMem hI1 hP1 hr
      rw [hre] at h
      simp only [splitRoute_eq hc1 hc2, Prod.mk.injEq] at h
      obtain ⟨rfl, rfl⟩ := h
      rw [hpar, hht] at hr
      rw [hpar] at hbs
      rw [hht] at hblocks
      have hst := stored_writeBlock hI hP (hN.sameTree hS) hcore blooms receipts
      refine .inr (.inr ⟨c, i, j, bs, ?_, hiff.1 rfl, ?_, ⟨hr, hbs, hblocks, ?_, ?_, ?_⟩,
        (hrev.addAllBlooms _).trans (hblooms.trans ?_)⟩)
      · rw [hpar]
        rfl
      · unfold setHead
        split
        · exact ⟨hst.1, hst.2, hst.3, hst.4, hst.5, hst.6.1, hst.6.2⟩
        · exact hst
      · have hR' := hR.m_blockHashes
        rw [hht] at hR'
        unfold setHead
        split
        · exact ⟨hR.1, hR.2, hR', hR.4⟩
        · exact ⟨hR.1, hR.2, hR', hR.4⟩
      · unfold setHead
        split
        · rfl
        · rename_i hl
          exact not_not.1 hl
      · unfold setHead
        split
        · exact hP.toUnsigned_eq
        · -- the block is the head already, at its number
          rename_i hl
          have hl' : bc.m_lastBlockHash = b.info.m_hash := by
            rw [← not_not.1 hl]; exact hS.m_lastBlockHash.symm
          have hm : b.info.m_hash ∈ bc.recorded := hl' ▸ hI.head_mem
          have hn : bc2.m_lastBlockNumber = bc.m_lastBlockNumber := hS.m_lastBlockNumber
          change bc2.m_lastBlockNumber = _
          rw [hn, hI.head_number, hl', (hP.recorded_same hI hm).2]
      · unfold setHead
        split <;> exact ⟨rfl, rfl⟩

/-- What an insertion under a recorded parent can do. -/
theorem insertBlockAndExtras_cases (hI : bc.TreeInv w) {vb : VerifiedBlock}
    (hv : vb.info = vb.block.info) (hP : Insertable w bc vb.block) {receipts : Bytes} {td : U256}
    {r : Except Exception ImportRoute} {bc' : BlockChain}
    (h : bc.insertBlockAndExtras w vb receipts td = (r, bc')) :
    (∃ e, receiptBlooms receipts = .error e ∧ r = .error e ∧
      bc' = bc.addChild vb.info.parentHash vb.info.m_hash) ∨
    (r = .ok ⟨[], [], vb.transactions⟩ ∧ ¬Better w bc td vb.info.gasUsed ∧
      Stored bc bc' vb.block td ∧ Unmoved bc bc') ∨
    (∃ c i j bs, r = .ok ⟨path bc.parentOf i bc.m_lastBlockHash,
        (path bc.parentOf j vb.info.parentHash).reverse ++ [vb.info.m_hash], vb.transactions⟩ ∧
      Better w bc td vb.info.gasUsed ∧ Stored bc bc' vb.block td ∧
      Adopted w bc bc' vb.block c i j bs) := by
  rcases insertBlockAndExtras_spec hI hv hP h with hthrown | ⟨hr, hb, hS, hU, -⟩ | ⟨c, i, j, bs, hr, hb, hS, hA, -⟩
  · exact .inl hthrown
  · exact .inr (.inl ⟨hr, hb, hS, hU⟩)
  · exact .inr (.inr ⟨c, i, j, bs, hr, hb, hS, hA⟩)

/-! ## The invariant is kept -/

theorem numberRecords_cases (bs : List BlockRLP) (hpos : ∀ x ∈ bs, 0 ≤ x.info.number)
    (db : ℕ → Option H256) (k : ℕ) :
    (∃ x ∈ bs, x.info.number.toNat = k ∧
      numberRecords w bs db k = some (x.info.hash w.crypto .WithSeal)) ∨
    ((∀ x ∈ bs, x.info.number.toNat ≠ k) ∧ numberRecords w bs db k = db k) := by
  have he : numberRecords w bs db = bs.foldl (fun (f : ℕ → Option H256) x =>
      Function.update f x.info.number.toNat (some (x.info.hash w.crypto .WithSeal))) db :=
    List.foldl_ext _ _ _ fun f x hx => if_pos (hpos x hx)
  rw [he]
  exact foldl_update (fun x : BlockRLP => x.info.number.toNat)
    (fun x => some (x.info.hash w.crypto .WithSeal)) k bs db

section Kept

variable {bc' : BlockChain} {b : BlockRLP} {td : U256} (hI : bc.TreeInv w) (hP : Insertable w bc b)
  (hS : Stored bc bc' b td)

include hS

theorem Stored.recorded_eq : bc'.recorded = Insert.insert b.info.m_hash bc.recorded := by
  ext h
  change (bc'.detailsDB h).isSome ↔ h = b.info.m_hash ∨ (bc.detailsDB h).isSome
  by_cases hh : h = b.info.m_hash
  · obtain ⟨d, hd, -⟩ := hS.details_self
    simp [hh, hd]
  · have := congrArg Option.isSome (hS.details_other h hh)
    simp only [Option.isSome_map] at this
    simp [hh, this]

theorem Stored.parentOf_self : bc'.parentOf b.info.m_hash = b.info.parentHash := by
  obtain ⟨d, hd, hcore⟩ := hS.details_self
  rw [hS.coherent.parentOf_eq, hd]
  exact congrArg Prod.snd hcore

theorem Stored.heightOf_self : bc'.heightOf b.info.m_hash = bc.heightOf b.info.parentHash + 1 := by
  obtain ⟨d, hd, hcore⟩ := hS.details_self
  rw [hS.coherent.heightOf_eq, hd]
  exact congrArg Prod.fst hcore

include hI

theorem Stored.other {h : H256} (hh : h ≠ b.info.m_hash) :
    bc'.parentOf h = bc.parentOf h ∧ bc'.heightOf h = bc.heightOf h := by
  have he := hS.details_other h hh
  rw [hS.coherent.parentOf_eq, hS.coherent.heightOf_eq, hI.coherent.parentOf_eq,
    hI.coherent.heightOf_eq]
  cases h1 : bc.detailsDB h with
  | none =>
    rw [h1, Option.map_none, Option.map_eq_none_iff] at he
    rw [he]
    exact ⟨rfl, rfl⟩
  | some d =>
    rw [h1, Option.map_some, Option.map_eq_some_iff] at he
    obtain ⟨d', hd', hcore⟩ := he
    rw [hd']
    exact ⟨congrArg Prod.snd hcore, congrArg Prod.fst hcore⟩

include hP

/-- What was recorded keeps its place, also if it is the block itself. -/
theorem Stored.place {h : H256} (hm : h ∈ bc.recorded) :
    bc'.parentOf h = bc.parentOf h ∧ bc'.heightOf h = bc.heightOf h := by
  by_cases hh : h = b.info.m_hash
  · subst hh
    obtain ⟨h1, h2⟩ := hP.recorded_same hI hm
    rw [hS.parentOf_self, hS.heightOf_self, h1, h2]
    exact ⟨rfl, rfl⟩
  · exact hS.other hI hh

theorem Stored.tree : IsTree bc'.recorded (genesisHash w) bc'.parentOf bc'.heightOf := by
  rw [hS.recorded_eq]
  exact hI.tree.grow (fun _ hm => (hS.place hI hP hm).1) (fun _ hm => (hS.place hI hP hm).2)
    hP.parent_mem hS.parentOf_self hS.heightOf_self

/-- The lineage of a block that was recorded does not change. -/
theorem Stored.lineage_eq {h : H256} (hm : h ∈ bc.recorded) :
    lineage bc'.parentOf bc'.heightOf h = lineage bc.parentOf bc.heightOf h :=
  hI.tree.lineage_congr (fun _ hm => (hS.place hI hP hm).1) (fun _ hm => (hS.place hI hP hm).2) hm

theorem Stored.lineage_self :
    lineage bc'.parentOf bc'.heightOf b.info.m_hash =
      Insert.insert b.info.m_hash (lineage bc.parentOf bc.heightOf b.info.parentHash) :=
  hI.tree.lineage_insert (fun _ hm => (hS.place hI hP hm).1) (fun _ hm => (hS.place hI hP hm).2)
    hP.parent_mem hS.parentOf_self hS.heightOf_self

/-- The invariant, up to the head and the records. -/
theorem Stored.treeInv (hne : b.info.number ≠ c_invalidNumber)
    (hm : bc'.m_lastBlockHash ∈ bc'.recorded)
    (hn : bc'.m_lastBlockNumber = bc'.heightOf bc'.m_lastBlockHash)
    (hr : ∀ h ∈ bc'.canonical, h ≠ genesisHash w → bc'.blockHashDB (bc'.heightOf h) = some h) :
    bc'.TreeInv w := by
  have hrec := hS.recorded_eq
  refine ⟨hS.coherent, hS.tree hI hP, ?_, ?_, ?_, ?_, hm, hn, hr⟩
  · rw [hrec]
    rintro (h0 | h0)
    · exact hP.hash_ne_zero h0.symm
    · exact hI.zero h0
  · rw [hrec]
    rintro h (rfl | h0)
    · rw [hS.heightOf_self]
      have h1 := hP.number_eq
      have h2 := hI.bound _ hP.parent_mem
      omega
    · rw [(hS.place hI hP h0).2]
      exact hI.bound h h0
  · rw [hrec, hS.blocks]
    intro h hmem hne
    by_cases hh : h = b.info.m_hash
    · subst hh
      refine ⟨b, Function.update_self .., rfl, hS.parentOf_self.symm, ?_⟩
      rw [hS.heightOf_self, hP.number_eq]
      rfl
    · have h0 : h ∈ bc.recorded := hmem.resolve_left hh
      rw [Function.update_of_ne hh, (hS.place hI hP h0).1, (hS.place hI hP h0).2]
      exact hI.blocks h h0 hne
  · rw [hrec, hS.blocks]
    intro h x hx
    by_cases hh : h = b.info.m_hash
    · exact ⟨.inl hh, hh ▸ hP.hash_ne_genesis⟩
    · rw [Function.update_of_ne hh] at hx
      exact ⟨.inr (hI.block_recorded h x hx).1, (hI.block_recorded h x hx).2⟩

theorem Unmoved.canonical_eq (hU : Unmoved bc bc') : bc'.canonical = bc.canonical := by
  unfold canonical
  rw [hU.m_lastBlockHash]
  exact hS.lineage_eq hI hP hI.head_mem

theorem Unmoved.treeInv (hne : b.info.number ≠ c_invalidNumber) (hU : Unmoved bc bc') :
    bc'.TreeInv w := by
  have hplace := (hS.place hI hP hI.head_mem).2
  refine hS.treeInv hI hP hne ?_ ?_ ?_
  · rw [hU.m_lastBlockHash, hS.recorded_eq]
    exact .inr hI.head_mem
  · rw [hU.m_lastBlockHash, hU.m_lastBlockNumber, hplace, hI.head_number]
  · rw [hU.canonical_eq hI hP hS, hU.blockHashDB]
    intro h hm hne
    rw [(hS.place hI hP (hI.tree.mem_of_mem_lineage hI.head_mem hm)).2]
    exact hI.records h hm hne

/-- The canonical blocks after a reorganisation. -/
theorem Adopted.canonical_eq {c : H256} {i j : ℕ} {bs : List BlockRLP}
    (hA : Adopted w bc bc' b c i j bs) :
    bc'.canonical = Insert.insert b.info.m_hash (lineage bc.parentOf bc.heightOf b.info.parentHash) := by
  unfold canonical
  rw [hA.head]
  exact hS.lineage_self hI hP

theorem Adopted.treeInv (hne : b.info.number ≠ c_invalidNumber) {c : H256} {i j : ℕ}
    {bs : List BlockRLP} (hA : Adopted w bc bc' b c i j bs) : bc'.TreeInv w := by
  have hhash : ∀ x ∈ b :: bs, x.info.hash w.crypto .WithSeal = x.info.m_hash ∧
      x.info.m_hash ∈ bc'.canonical ∧ x.info.number = bc'.heightOf x.info.m_hash := by
    rw [hA.canonical_eq hI hP hS]
    refine List.forall_mem_cons.2 ⟨⟨hash_eq hP.hash_ne_zero, .inl rfl, ?_⟩, fun x hx => ?_⟩
    · rw [hS.heightOf_self, hP.number_eq]
      rfl
    · obtain ⟨hdb, hn⟩ := hA.blocks x hx
      have hxm := (hI.block_recorded _ _ hdb).1
      obtain ⟨k, hk, hke⟩ := mem_path.1 (hA.hashes ▸ List.mem_map_of_mem hx)
      refine ⟨hash_eq fun h0 => hI.zero (h0 ▸ hxm),
        .inr ⟨k, by have := hA.route.right_le; omega, hke⟩, ?_⟩
      rw [(hS.place hI hP hxm).2, hn]
  have hmem : bc'.m_lastBlockHash ∈ bc'.recorded := by
    rw [hA.head, hS.recorded_eq]
    exact .inl rfl
  refine hS.treeInv hI hP hne hmem ?_ ?_
  · rw [hA.head, hA.number, hS.heightOf_self]
  intro h hm hroot
  rw [hA.records.blockHashDB]
  rcases numberRecords_cases (w := w) (b :: bs)
    (fun x hx => by rw [(hhash x hx).2.2]; exact Int.natCast_nonneg _) bc.blockHashDB
    (bc'.heightOf h) with ⟨x, hx, hk, he⟩ | ⟨hnot, he⟩
  · -- the block that wrote the record is the ancestor of the head at this height
    obtain ⟨h1, h2, h3⟩ := hhash x hx
    rw [he, h1]
    rw [h3, Int.toNat_natCast] at hk
    exact congrArg some ((hS.tree hI hP).eq_of_mem_lineage hmem h2 hm hk)
  · -- no block of the new branch has this height, so the block is canonical before
    rw [he]
    have hb : h ≠ b.info.m_hash := by
      rintro rfl
      refine hnot b List.mem_cons_self ?_
      rw [(hhash b List.mem_cons_self).2.2, Int.toNat_natCast]
    rw [hA.canonical_eq hI hP hS] at hm
    have hlin := hm.resolve_left hb
    rw [hA.route.lineage_eq hI.tree hI.head_mem hP.parent_mem] at hlin
    rcases hlin with ⟨hold, -⟩ | hnew
    · rw [(hS.place hI hP (hI.tree.mem_of_mem_lineage hI.head_mem hold)).2]
      exact hI.records h hold hroot
    · exfalso
      rw [Set.mem_ofPred_eq, ← hA.hashes] at hnew
      obtain ⟨x, hx, rfl⟩ := List.mem_map.1 hnew
      refine hnot x (List.mem_cons_of_mem _ hx) ?_
      rw [(hhash x (List.mem_cons_of_mem _ hx)).2.2, Int.toNat_natCast]

end Kept

/-- The invariant is kept by every insertion under a recorded parent, also by one that throws. -/
theorem treeInv_insertBlockAndExtras (hI : bc.TreeInv w) {vb : VerifiedBlock}
    (hv : vb.info = vb.block.info) (hP : Insertable w bc vb.block)
    (hne : vb.block.info.number ≠ c_invalidNumber) {receipts : Bytes} {td : U256}
    {r : Except Exception ImportRoute} {bc' : BlockChain}
    (h : bc.insertBlockAndExtras w vb receipts td = (r, bc')) : bc'.TreeInv w := by
  rcases insertBlockAndExtras_cases hI hv hP h with
    ⟨e, -, -, rfl⟩ | ⟨-, -, hS, hU⟩ | ⟨c, i, j, bs, -, -, hS, hA⟩
  · rw [hv]
    exact treeInv_addChild hI hP.parent_mem _
  · exact hU.treeInv hI hP hS hne
  · exact hA.treeInv hI hP hS hne

end Steps

end BlockChain

end Petrachor
