import Petrachor.Devnet
import Petrachor.Lib.FirstMax
import Mathlib.Data.Prod.Lex

/-!
# Fork choice

What a chain should hold after a sequence of imports is said in terms of the blocks that came in:
their ancestry, its length and the sum of its difficulties. The head is the first block to arrive
among those of the greatest total difficulty, or of the greatest gas among these if ties are broken
by gas.
-/

namespace Petrachor

open ParentTree

/-- The blocks from the one of hash `h` down to the genesis block, which is left out. -/
inductive Ancestry (w : World) (L : Set BlockRLP) : H256 → List BlockRLP → Prop
  | genesis : Ancestry w L (BlockChain.genesisHash w) []
  | child {b : BlockRLP} {bs : List BlockRLP} : b ∈ L → Ancestry w L b.info.parentHash bs →
    Ancestry w L b.info.m_hash (b :: bs)

/-- The sum of the difficulties of an ancestry. -/
def totalDifficulty (w : World) (bs : List BlockRLP) : ℕ :=
  w.genesisBlock.info.difficulty.toNat + (bs.map fun b => b.info.difficulty.toNat).sum

theorem totalDifficulty_cons (w : World) (b : BlockRLP) (bs : List BlockRLP) :
    totalDifficulty w (b :: bs) = totalDifficulty w bs + b.info.difficulty.toNat := by
  simp only [totalDifficulty, List.map_cons, List.sum_cons]
  omega

namespace Ancestry

variable {w : World} {L L' : Set BlockRLP} {h : H256} {bs bs' : List BlockRLP}

theorem mono (hL : L ⊆ L') (ha : Ancestry w L h bs) : Ancestry w L' h bs := by
  induction ha with
  | genesis => exact genesis
  | child hb _ ih => exact child (hL hb) ih

/-- In a set of blocks told apart by their hashes, a block has one ancestry. -/
theorem unique (B : BlockSet w) (ha : Ancestry w B.carrier h bs) :
    ∀ {bs'}, Ancestry w B.carrier h bs' → bs' = bs := by
  induction ha with
  | genesis =>
    intro bs' ha'
    generalize hg : BlockChain.genesisHash w = g at ha'
    cases ha' with
    | genesis => rfl
    | child hb' _ => exact absurd hg.symm (B.hash_ne_genesis _ hb')
  | @child b bs hb _ ih =>
    intro bs' ha'
    generalize hh : b.info.m_hash = g at ha'
    cases ha' with
    | genesis => exact absurd hh (B.hash_ne_genesis b hb)
    | child hb' hp' =>
      obtain rfl := B.hash_inj _ hb _ hb' hh
      rw [ih hp']

end Ancestry

namespace BlockChain

variable {w : World} {B : BlockSet w} {bc bc' : BlockChain}

theorem Coherent.recorded_of_entry (hC : bc.Coherent) {h : H256} {d : BlockDetails}
    (hd : bc.Entry h d) : h ∈ bc.recorded := by
  rcases hd with hc | hd
  · obtain ⟨d', hd', -⟩ := hC.details hc
    exact Option.isSome_iff_exists.2 ⟨d', hd'⟩
  · exact Option.isSome_iff_exists.2 ⟨d, hd⟩

/-- The total difficulty the chain has for a block, and its gas where that breaks ties. -/
def rank (w : World) (bc : BlockChain) (b : BlockRLP) : ℕ ×ₗ ℕ :=
  toLex ((bc.details b.info.m_hash).totalDifficulty.toNat,
    if w.params.tieBreakingGas then b.info.gasUsed.toNat else 0)

/-- The chain has the length and the total difficulty of every ancestry right. -/
def Weighed (w : World) (L : List BlockRLP) (bc : BlockChain) : Prop :=
  ∀ h ∈ bc.recorded, ∃ bs, Ancestry w {b | b ∈ L} h bs ∧ bs.length = bc.heightOf h ∧
    ∀ d, bc.Entry h d → d.totalDifficulty.toNat = totalDifficulty w bs

/-- What the chain holds after the blocks `L` came in, in this order. -/
structure ForkChoice (w : World) (B : BlockSet w) (L : List BlockRLP) (bc : BlockChain) : Prop
    extends ChainInv w B bc where
  imported : ∀ {b}, bc.blocksDB b.info.m_hash = some b ↔ b ∈ L
  weighed : bc.Weighed w L
  head : ∃ b, b.info.m_hash = bc.m_lastBlockHash ∧
    IsFirstMax (bc.rank w) (w.genesisBlock :: L) b

section Weights

variable {L L' : List BlockRLP} (hL : ∀ b ∈ L, b ∈ B.carrier) (hW : bc.Weighed w L)

include hL hW

theorem Weighed.details_eq {h : H256} {bs : List BlockRLP} (hm : h ∈ bc.recorded)
    (ha : Ancestry w B.carrier h bs) :
    (bc.details h).number = bs.length ∧
      (bc.details h).totalDifficulty.toNat = totalDifficulty w bs := by
  obtain ⟨bs', h1, h2, h3⟩ := hW h hm
  obtain rfl := Ancestry.unique B ha (h1.mono hL)
  exact ⟨h2.symm, h3 _ (entry_details hm)⟩

/-- Two chains agree on the weight of a block that both have. -/
theorem Weighed.rank_eq (hL' : ∀ b ∈ L', b ∈ B.carrier) (hW' : bc'.Weighed w L') {b : BlockRLP}
    (hm : b.info.m_hash ∈ bc.recorded) (hm' : b.info.m_hash ∈ bc'.recorded) :
    bc'.rank w b = bc.rank w b := by
  obtain ⟨bs, ha, -⟩ := hW _ hm
  have h1 := (hW.details_eq hL hm (ha.mono hL)).2
  have h2 := (hW'.details_eq hL' hm' (ha.mono hL)).2
  unfold rank
  rw [h1, h2]

end Weights

section Choice

variable {L : List BlockRLP} (hF : bc.ForkChoice w B L)

include hF

theorem ForkChoice.subset : ∀ b ∈ L, b ∈ B.carrier := fun _ hb => hF.mem (hF.imported.2 hb)

theorem ForkChoice.recorded_of_mem {b : BlockRLP} (hb : b ∈ w.genesisBlock :: L) :
    b.info.m_hash ∈ bc.recorded := by
  rcases List.mem_cons.1 hb with rfl | hb
  · exact hF.tree.root_mem
  · exact (hF.block_recorded _ _ (hF.imported.2 hb)).1

/-- What only touches the caches keeps the choice. -/
theorem ForkChoice.congr (hI : bc'.ChainInv w B) (hS : SameDB bc bc')
    (he : ∀ {h d}, bc'.Entry h d → ∃ d0, bc.Entry h d0 ∧ d0.totalDifficulty = d.totalDifficulty) :
    bc'.ForkChoice w B L := by
  have hrec : bc'.recorded = bc.recorded := recorded_congr hS.detailsDB
  have hW : bc'.Weighed w L := by
    intro h hm
    obtain ⟨bs, h1, h2, h3⟩ := hF.weighed h (hrec ▸ hm)
    refine ⟨bs, h1, ?_, fun d hd => ?_⟩
    · rw [h2, heightOf_congr hF.coherent hI.coherent hS.detailsDB]
    · obtain ⟨d0, hd0, htd⟩ := he hd
      rw [← htd]
      exact h3 d0 hd0
  obtain ⟨b, hb, hmax⟩ := hF.head
  refine ⟨hI, by rw [hS.blocksDB]; exact hF.imported, hW, b, by rw [hb, hS.m_lastBlockHash], ?_⟩
  refine hmax.congr fun z hz => ?_
  have hz := hF.recorded_of_mem hz
  exact hF.weighed.rank_eq hF.subset hF.subset hW hz (hrec ▸ hz)

theorem ForkChoice.block_of_mem {b : BlockRLP} (hb : b ∈ w.genesisBlock :: L) :
    bc.block w b.info.m_hash = some b := by
  rcases List.mem_cons.1 hb with rfl | hb
  · exact if_pos rfl
  · have hdb := hF.imported.2 hb
    rw [hF.coherent.block_eq (hF.block_recorded _ _ hdb).2, hdb]

section Insertion

variable {b : BlockRLP} (hP : Insertable w bc b) (hB : b ∈ B.carrier) {td : U256}
  (htd : td = (bc.details b.info.parentHash).totalDifficulty + b.info.difficulty)
  (hlt : ∀ h bs, Ancestry w B.carrier h bs → totalDifficulty w bs < 2 ^ 256)

include hP hB htd hlt

/-- The ancestry of a new block; the sum of its difficulties does not wrap. -/
theorem ForkChoice.sum_eq : ∃ bs, Ancestry w {x | x ∈ L} b.info.parentHash bs ∧
    bs.length = bc.heightOf b.info.parentHash ∧ td.toNat = totalDifficulty w (b :: bs) := by
  obtain ⟨bs, h1, h2, h3⟩ := hF.weighed _ hP.parent_mem
  have h4 := hlt _ _ (.child hB (h1.mono hF.subset))
  refine ⟨bs, h1, h2, ?_⟩
  rw [totalDifficulty_cons] at h4 ⊢
  rw [htd, BitVec.toNat_add, h3 _ (entry_details hP.parent_mem), Nat.mod_eq_of_lt h4]

/-- The weights after a block was stored under its parent. -/
theorem Stored.weighed (hS : Stored bc bc' b td) : bc'.Weighed w (L ++ [b]) := by
  have hsub : {x | x ∈ L} ⊆ {x | x ∈ L ++ [b]} := fun x hx => List.mem_append_left _ hx
  obtain ⟨bsp, hp1, hp2, hsum⟩ := hF.sum_eq hP hB htd hlt
  intro h hm
  by_cases hh : h = b.info.m_hash
  · subst hh
    refine ⟨b :: bsp, .child (by simp) (hp1.mono hsub),
      by rw [List.length_cons, hp2, hS.heightOf_self], fun d hd => ?_⟩
    rcases hS.entry hd with ⟨-, he⟩ | ⟨d0, hd0, he⟩
    · rw [he, hsum]
    · -- the block was recorded before, with the same ancestry
      obtain ⟨bs, h1, -, h3⟩ := hF.weighed _ (hF.coherent.recorded_of_entry hd0)
      have heq := Ancestry.unique B (h1.mono hF.subset) (.child hB (hp1.mono hF.subset))
      rw [← he, h3 d0 hd0, ← heq]
  · rw [hS.recorded_eq] at hm
    obtain ⟨bs, h1, h2, h3⟩ := hF.weighed h (hm.resolve_left hh)
    refine ⟨bs, h1.mono hsub, by rw [h2, (hS.other hF.toTreeInv hh).2], fun d hd => ?_⟩
    rcases hS.entry hd with ⟨he, -⟩ | ⟨d0, hd0, he⟩
    · exact absurd he hh
    · rw [← he]
      exact h3 d0 hd0

/-- The blocks, weights and ranks after a block was stored, whichever block is the head. -/
theorem Stored.choice (hS : Stored bc bc' b td) :
    (∀ {x}, bc'.blocksDB x.info.m_hash = some x ↔ x ∈ L ++ [b]) ∧ bc'.Weighed w (L ++ [b]) ∧
      (∀ x ∈ w.genesisBlock :: L, bc'.rank w x = bc.rank w x) ∧
      (∀ x ∈ w.genesisBlock :: L, x.info.m_hash = bc.m_lastBlockHash →
        (bc.rank w x < bc'.rank w b ↔ Better w bc td b.info.gasUsed)) := by
  have hW := hS.weighed hF hP hB htd hlt
  have hsub : ∀ x ∈ L ++ [b], x ∈ B.carrier := by
    intro x hx
    rcases List.mem_append.1 hx with hx | hx
    · exact hF.subset x hx
    · rw [List.mem_singleton.1 hx]
      exact hB
  refine ⟨fun {x} => ?_, hW, fun x hx => ?_, fun x hx hhead => ?_⟩
  · rw [hS.blocks, List.mem_append, List.mem_singleton, Function.update_apply]
    split
    · rename_i he
      constructor
      · intro hx
        exact .inr (Option.some.inj hx).symm
      · rintro (hx | rfl)
        · rw [B.hash_inj _ (hF.subset x hx) _ hB he]
        · rfl
    · rename_i hne
      rw [hF.imported]
      exact ⟨.inl, fun hx => hx.resolve_right fun he => hne (by rw [he])⟩
  · have hx := hF.recorded_of_mem hx
    exact hF.weighed.rank_eq hF.subset hsub hW hx (by rw [hS.recorded_eq]; exact .inr hx)
  · obtain ⟨bs, h1, -, hsum⟩ := hF.sum_eq hP hB htd hlt
    have hself := (hW.details_eq hsub (by rw [hS.recorded_eq]; exact .inl rfl)
      (.child hB (h1.mono hF.subset))).2
    have hblock := hF.block_of_mem hx
    rw [hhead] at hblock
    simp only [rank, Better, Prod.Lex.toLex_lt_toLex, hhead, hself, ← hsum, hblock,
      Option.some.injEq, exists_eq_left', BitVec.lt_def, BitVec.toNat_inj]
    cases w.params.tieBreakingGas <;> simp [eq_comm]

theorem forkChoice_insertBlockAndExtras {vb : VerifiedBlock} (hvb : vb.block = b)
    (hv : vb.info = vb.block.info) (hne : vb.block.info.number ≠ c_invalidNumber)
    (ht : 0 ≤ b.info.timestamp) {receipts : Bytes} {r : Except Exception ImportRoute}
    (h : bc.insertBlockAndExtras w vb receipts td = (r, bc')) :
    (∀ e, r = .error e → bc'.ForkChoice w B L) ∧
      ∀ route, r = .ok route → bc'.ForkChoice w B (L ++ [b]) := by
  subst hvb
  have hI := chainInv_insertBlockAndExtras hF.toChainInv hv hB hP hne ht h
  obtain ⟨x, hx, hmax⟩ := hF.head
  rcases insertBlockAndExtras_cases hF.toTreeInv hv hP h with
    ⟨e, -, rfl, rfl⟩ | ⟨rfl, hnb, hS, hU⟩ | ⟨c, i, j, bs, rfl, hb, hS, hA⟩
  · refine ⟨fun _ _ => hF.congr hI ⟨rfl, rfl, rfl, rfl, rfl, rfl⟩ fun hd => ?_,
      fun _ hr => (nomatch hr)⟩
    rw [hv] at hd
    exact (childNoted_addChild bc _ _).entry hP.parent_mem hd
  · obtain ⟨himp, hW, hrank, hbetter⟩ := hS.choice hF hP hB htd hlt
    rw [hv, ← hbetter x hmax.mem hx, not_lt, ← hrank x hmax.mem] at hnb
    refine ⟨fun _ hr => (nomatch hr), fun _ _ => ⟨hI, himp, hW, x, ?_, ?_⟩⟩
    · rw [hx, hU.m_lastBlockHash]
    · exact (hmax.congr hrank).append_of_le hnb
  · obtain ⟨himp, hW, hrank, hbetter⟩ := hS.choice hF hP hB htd hlt
    rw [hv, ← hbetter x hmax.mem hx, ← hrank x hmax.mem] at hb
    refine ⟨fun _ hr => (nomatch hr), fun _ _ => ⟨hI, himp, hW, _, hA.head.symm, ?_⟩⟩
    exact (hmax.congr hrank).append_of_lt hb

end Insertion

end Choice

/-! ## Runs of imports -/

/-- The block an import brings. -/
def Op.imports : Op → Option BlockRLP
  | .importBlock vb _ _ => some vb.block
  | .importUnverified b _ _ => some b
  | _ => none

/-- An import, or an operation on the caches alone. -/
def Op.IsImport : Op → Prop
  | .importBlock .. => True
  | .importUnverified .. => True
  | .query _ => True
  | .garbageCollect => True
  | _ => False

/-- The chain and the blocks that it has imported, in the order of their arrival. -/
def arrive (w : World) (s : BlockChain × List BlockRLP) (op : Op) : BlockChain × List BlockRLP :=
  let r := s.1.perform w op
  match r.1, op.imports with
  | .ok _, some b => (r.2, s.2 ++ [b])
  | _, _ => (r.2, s.2)

theorem forkChoice_openFresh (hw : w.Valid) (B : BlockSet w) (genesisState : AccountTrie) :
    (openFresh w genesisState).ForkChoice w B [] := by
  have hI := chainInv_openFresh hw B genesisState
  have hroot : ∀ {h d}, (openFresh w genesisState).Entry h d → h = genesisHash w ∧
      d = ⟨0, w.genesisBlock.info.difficulty, 0, []⟩ := by
    rintro h d (hd | hd) <;>
    · simp only [openFresh, Function.update_apply] at hd
      split at hd
      · exact ⟨‹_›, (Option.some.inj hd).symm⟩
      · cases hd
  refine ⟨hI, ?_, fun h hm => ?_, w.genesisBlock, rfl, IsFirstMax.singleton _⟩
  · intro b
    simp [openFresh]
  · obtain rfl := (hroot (entry_details hm)).1
    refine ⟨[], .genesis, hI.tree.height_root.symm, fun d hd => ?_⟩
    rw [(hroot hd).2]
    simp [totalDifficulty]

section Runs

variable (hw : w.Valid) (hlt : ∀ h bs, Ancestry w B.carrier h bs → totalDifficulty w bs < 2 ^ 256)
  {L : List BlockRLP}

include hw hlt

theorem forkChoice_importBlock (hF : bc.ForkChoice w B L) {vb : VerifiedBlock}
    (hB : vb.block ∈ B.carrier) (hv : vb.info = vb.block.info)
    (hne : vb.block.info.number ≠ c_invalidNumber) {mustBeNew : Bool} {now : ℤ}
    {r : Except Exception ImportRoute} (h : bc.importBlock w vb mustBeNew now = (r, bc')) :
    (∀ e, r = .error e → bc'.ForkChoice w B L) ∧
      ∀ route, r = .ok route → bc'.ForkChoice w B (L ++ [vb.block]) := by
  obtain ⟨bc1, hstake, hcases⟩ := importBlock_cases hw hF.toChainInv hv h
  have hI1 := hstake.chainInv hF.toChainInv
  obtain ⟨m, u, db, rfl, -⟩ := hstake
  have hF1 := hF.congr hI1 ⟨rfl, rfl, rfl, rfl, rfl, rfl⟩ fun hd => ⟨_, hd, rfl⟩
  rcases hcases with ⟨e, rfl, rfl⟩ | ⟨-, hm, hn, ht, receipts, hins⟩
  · exact ⟨fun _ _ => hF1, fun _ hr => (nomatch hr)⟩
  · rw [hv] at hm hn ht hins
    exact forkChoice_insertBlockAndExtras hF1 (hI1.insertable hB hm hn) hB rfl hlt rfl hv hne ht
      hins

/-- One operation keeps the choice. -/
theorem forkChoice_arrive {s : BlockChain × List BlockRLP} (hF : s.1.ForkChoice w B s.2) {op : Op}
    (hB : op.Within B) (hop : op.IsImport) (hfit : op.Fits w s.1) :
    (arrive w s op).1.ForkChoice w B (arrive w s op).2 := by
  obtain ⟨bc, L⟩ := s
  have hI : (bc.step w op).ChainInv w B := chainInv_step hw hF.toChainInv hB hfit
  unfold step at hI
  unfold arrive
  cases op with
  | importBlock vb mustBeNew now =>
    rcases h : bc.importBlock w vb mustBeNew now with ⟨r, bc'⟩
    have := forkChoice_importBlock hw hlt hF hB.1 hB.2 hfit h
    simp only [perform, h, Op.imports]
    cases r with
    | error e => exact this.1 e rfl
    | ok route => exact this.2 route rfl
  | importUnverified b mustBeNew now =>
    rcases h : bc.importUnverified w b mustBeNew now with ⟨r, bc'⟩
    simp only [perform, h, Op.imports]
    rcases importUnverified_cases h with ⟨e, rfl, rfl⟩ | ⟨vb, rfl, hv, he⟩
    · exact hF
    · have := forkChoice_importBlock hw hlt hF hB hv hfit he
      cases r with
      | error e => exact this.1 e rfl
      | ok route => exact this.2 route rfl
  | query q =>
    have hR := recached_touch (w := w) bc q
    exact hF.congr hI hR.toSameDB fun hd => ⟨_, hR.entry hd, rfl⟩
  | garbageCollect =>
    have hR := (recached_garbageCollect bc).1
    exact hF.congr hI hR.toSameDB fun hd => ⟨_, hR.entry hd, rfl⟩
  | insert => exact hop.elim
  | insertWithoutParent => exact hop.elim
  | rewind => exact hop.elim

omit hw hlt in
/-- An ancestry is the way to the root. -/
theorem ForkChoice.getElem_ancestry (hF : bc.ForkChoice w B L) {h : H256} {bs : List BlockRLP}
    (ha : Ancestry w {b | b ∈ L} h bs) :
    ∀ {k : ℕ} {b : BlockRLP}, bs[k]? = some b → b.info.m_hash = bc.parentOf^[k] h := by
  induction ha with
  | genesis => intro k b hb; simp at hb
  | @child x bs hx _ ih =>
    intro k b hb
    obtain ⟨hrec, hne⟩ := hF.block_recorded _ _ (hF.imported.2 hx)
    obtain ⟨x', h1, -, hpar, -⟩ := hF.blocks _ hrec hne
    rw [hF.imported.2 hx] at h1
    cases h1
    cases k with
    | zero =>
      rw [List.getElem?_cons_zero, Option.some.injEq] at hb
      rw [← hb]
      rfl
    | succ k =>
      rw [List.getElem?_cons_succ] at hb
      rw [Function.iterate_succ_apply, ← hpar]
      exact ih hb

omit hw hlt in
/-- A run of imports without a block at the reserved number keeps to the tree. -/
theorem along_imports : ∀ {ops : List Op} (s : BlockChain × List BlockRLP),
    (∀ op ∈ ops, op.Within B ∧ op.IsImport) →
    (∀ op ∈ ops, ∀ b, op.imports = some b → b.info.number ≠ c_invalidNumber) →
    StateRun.Along (arrive w) (fun s op => op.Within B ∧ op.IsImport ∧ op.Fits w s.1) s ops
  | [], _, _, _ => trivial
  | op :: ops, s, h1, h2 => by
    obtain ⟨⟨hB, hop⟩, h1⟩ := List.forall_mem_cons.1 h1
    obtain ⟨hn, h2⟩ := List.forall_mem_cons.1 h2
    refine ⟨⟨hB, hop, ?_⟩, along_imports _ h1 h2⟩
    cases op with
    | importBlock vb mustBeNew now => exact hn _ rfl
    | importUnverified b mustBeNew now => exact hn _ rfl
    | query q => trivial
    | garbageCollect => trivial
    | insert => exact hop.elim
    | insertWithoutParent => exact hop.elim
    | rewind => exact hop.elim

end Runs

/-! ## The reserved number -/

/-- A head or a parent of null details has no route to any block, so a better block takes over with
its own record alone, and as the only block of the route it counts as dead. -/
theorem insertBlockAndExtras_null_route {vb : VerifiedBlock} {receipts : Bytes} {td : U256}
    {blooms : List LogBloom} (h0 : vb.info.m_hash ≠ 0) (hv : vb.info = vb.block.info)
    (hpos : 0 ≤ vb.info.number) (hnull : (bc.details bc.m_lastBlockHash).isNull = true ∨
      (bc.details vb.info.parentHash).isNull = true)
    (hne : bc.m_lastBlockHash ≠ vb.info.m_hash) (hblooms : receiptBlooms receipts = .ok blooms)
    (hbest : (bc.details bc.m_lastBlockHash).totalDifficulty < td) :
    ∃ bc', bc.insertBlockAndExtras w vb receipts td =
        (.ok ⟨[vb.info.m_hash], [], vb.transactions⟩, bc') ∧
      bc'.m_lastBlockHash = vb.info.m_hash ∧ bc'.m_lastBlockNumber = toUnsigned vb.info.number ∧
      bc'.blockHashDB = Function.update bc.blockHashDB vb.info.number.toNat (some vb.info.m_hash) := by
  obtain ⟨b, info, txs⟩ := vb
  obtain rfl : info = b.info := hv
  simp only at h0 hpos hne ⊢
  have hhash : b.info.hash w.crypto .WithSeal = b.info.m_hash := hash_eq h0
  have hN := childNoted_addChild bc b.info.parentHash b.info.m_hash
  have hlast : (bc.addChild b.info.parentHash b.info.m_hash).currentHash = bc.m_lastBlockHash := rfl
  generalize hbc1 : bc.addChild b.info.parentHash b.info.m_hash = bc1 at hN hlast
  have hrecs : bc1.blockHashDB = bc.blockHashDB := by rw [← hbc1]; rfl
  have hkeep : ∀ h, (bc1.details h).isNull = (bc.details h).isNull := fun h => by
    rw [BlockDetails.isNull, BlockDetails.isNull,
      show (bc1.details h).number = (bc.details h).number from congrArg Prod.fst (hN.details_eq _).1]
  have hbest1 : bc1.isBest w td b.info = .ok true := by
    unfold isBest
    rw [hlast, (hN.details_eq _).2, if_pos hbest]
  have hroute : bc1.treeRoute bc.m_lastBlockHash b.info.parentHash true true true =
      .ok ([], 0, 0) := by
    rw [treeRoute, hkeep, hkeep]
    exact if_pos (.inr (.inr hnull))
  have hclear : ∃ bc2, (if (0 : H256) ≠ bc.m_lastBlockHash then
      bc1.clearCachesDuringChainReversion (((bc1.details 0).number + 1) % 2 ^ 32) else bc1) = bc2 ∧
        bc2.blockHashDB = bc1.blockHashDB ∧ bc2.m_lastBlockHash = bc.m_lastBlockHash := by
    refine ⟨_, rfl, ?_⟩
    obtain ⟨m, hm⟩ := clearCaches_eq bc1 (((bc1.details 0).number + 1) % 2 ^ 32)
    split
    · rw [hm]
      exact ⟨rfl, hlast⟩
    · exact ⟨rfl, hlast⟩
  obtain ⟨bc2, hbc2, hdb2, hlast2⟩ := hclear
  obtain ⟨m, d, hc⟩ := makeCanonical_eq w bc2 b
  have hreorg : bc1.reorganise w b = (.ok ([b.info.m_hash], 0), bc2.makeCanonical w b) := by
    simp only [reorganise, hlast, hroute, hbc2, hhash, List.nil_append, List.reverse_singleton]
    rw [makeRouteCanonical, if_neg h0, if_pos hhash.symm]
    rfl
  have hsplit : splitRoute [b.info.m_hash] 0 = ([b.info.m_hash], []) := by
    have h1 : decide (b.info.m_hash ≠ 0) = true := decide_eq_true h0
    simp only [splitRoute, List.takeWhile_cons, List.dropWhile_cons, h1, if_true,
      List.takeWhile_nil, List.dropWhile_nil, List.filter_nil]
  have hins : bc.insertBlockAndExtras w ⟨b, b.info, txs⟩ receipts td =
      (.ok ⟨[b.info.m_hash], [], txs⟩,
        ((bc2.makeCanonical w b).writeBlock b b.info.m_hash ⟨toUnsigned b.info.number, td,
          b.info.parentHash, []⟩ blooms receipts).setHead b.info.m_hash
            (toUnsigned b.info.number)) := by
    simp only [insertBlockAndExtras, hhash, hbc1, hblooms, hbest1, hreorg, hsplit]
  refine ⟨_, hins, ?_⟩
  rw [hc]
  unfold setHead writeBlock
  simp only [hlast2]
  rw [if_pos hne]
  refine ⟨rfl, rfl, ?_⟩
  change numberRecords w [b] bc2.blockHashDB = _
  rw [numberRecords, List.foldl_cons, List.foldl_nil, if_pos hpos, hdb2, hrecs, hhash]

end BlockChain

/-! ## The choice on the development network -/

namespace Devnet

open BlockChain

/-- The total difficulty of a way. -/
def weight : List Move → ℕ
  | [] => 1
  | m :: l => weight l + difficulty (m :: l)

/-- A block of the network has the ancestry of its way. -/
theorem totalDifficulty_eq (F : Branches) {h : H256} {bs : List BlockRLP}
    (ha : Ancestry world F.blockSet.carrier h bs) :
    ∃ l ∈ F.ways, hash l = h ∧ totalDifficulty world bs = weight l ∧ bs.length = l.length := by
  induction ha with
  | genesis => exact ⟨[], F.nil_mem, rfl, rfl, rfl⟩
  | @child b bs hb _ ih =>
    obtain ⟨m, l, hl, rfl⟩ := hb
    obtain ⟨l', hl', hh, hw, hlen⟩ := ih
    obtain rfl : l' = l := F.hash_inj hl' (F.tail_mem hl) hh
    refine ⟨m :: l', hl, rfl, ?_, by rw [List.length_cons, List.length_cons, hlen]⟩
    rw [totalDifficulty_cons, hw, weight, show (block (m :: l')).info = header (m :: l') from rfl,
      toNat_difficulty (F.sound hl)]

theorem totalDifficulty_lt {F : Branches} (hF : ∀ l ∈ F.ways, weight l < 2 ^ 256) (h : H256)
    (bs : List BlockRLP) (ha : Ancestry world F.blockSet.carrier h bs) :
    totalDifficulty world bs < 2 ^ 256 := by
  obtain ⟨l, hl, -, hw, -⟩ := totalDifficulty_eq F ha
  rw [hw]
  exact hF l hl

/-- A chain of the network and the blocks it has imported. -/
structure Grown (F : Branches) (s : BlockChain × List BlockRLP) : Prop where
  mined : Mined F s.1
  choice : s.1.ForkChoice world F.blockSet s.2

section Grown

variable {F : Branches} {s : BlockChain × List BlockRLP} (hG : Grown F s)

include hG

theorem Grown.recorded_iff {l : List Move} (hl : l ∈ F.ways) :
    hash l ∈ s.1.recorded ↔ l = [] ∨ block l ∈ s.2 := by
  constructor
  · intro hm
    cases l with
    | nil => exact .inl rfl
    | cons m l =>
      have hb := hG.mined.block_eq hl hm
      rw [hG.mined.coherent.block_eq (hash_ne_genesis (F.sound hl))] at hb
      exact .inr (hG.choice.imported.1 hb)
  · rintro (rfl | hb)
    · exact hG.mined.tree.root_mem
    · exact hG.choice.recorded_of_mem (List.mem_cons_of_mem _ hb)

theorem Grown.weight_eq {l : List Move} (hl : l ∈ F.ways) (hm : hash l ∈ s.1.recorded) :
    (s.1.details (hash l)).totalDifficulty.toNat = weight l := by
  obtain ⟨bs, ha, -⟩ := hG.choice.weighed _ hm
  have ha' := ha.mono hG.choice.subset
  obtain ⟨l', hl', hh, hw, -⟩ := totalDifficulty_eq F ha'
  rw [(hG.choice.weighed.details_eq hG.choice.subset hm ha').2, hw, F.hash_inj hl' hl hh]

/-- A way that is heavier than all others leads to the head. -/
theorem Grown.head_eq {l : List Move} (hl : l ∈ F.ways) (hm : hash l ∈ s.1.recorded)
    (hmax : ∀ l' ∈ F.ways, hash l' ∈ s.1.recorded → weight l ≤ weight l' → l' = l) :
    s.1.m_lastBlockHash = hash l := by
  obtain ⟨b, hb, hfirst⟩ := hG.choice.head
  have hmem : block l ∈ world.genesisBlock :: s.2 := by
    rcases (hG.recorded_iff hl).1 hm with rfl | h
    · exact List.mem_cons_self
    · exact List.mem_cons_of_mem _ h
  have hle := hfirst.le hmem
  obtain ⟨l', hl', hh⟩ := hG.mined.exists_way (hG.choice.recorded_of_mem hfirst.mem)
  have hm' : hash l' ∈ s.1.recorded := hh ▸ hG.choice.recorded_of_mem hfirst.mem
  have hw := hG.weight_eq hl hm
  have hw' := hG.weight_eq hl' hm'
  rw [hh] at hw'
  simp only [rank, show world.params.tieBreakingGas = false from rfl, Bool.false_eq_true, if_false,
    show (block l).info.m_hash = hash l from rfl, hw, hw', Prod.Lex.toLex_le_toLex] at hle
  rw [← hb, ← hh, hmax l' hl' hm' (by omega)]

end Grown

theorem grown_genesis (F : Branches) : Grown F (genesis, []) :=
  ⟨mined_genesis F, forkChoice_openFresh world_valid F.blockSet (state [])⟩

section Arrival

variable {F : Branches} (hF : ∀ l ∈ F.ways, weight l < 2 ^ 256) {s : BlockChain × List BlockRLP}
  (hG : Grown F s) {m : Move} {l : List Move} (hl : m :: l ∈ F.ways)
  (hm : l = [] ∨ block l ∈ s.2) (hnew : block (m :: l) ∉ s.2) (h0 : m.stake = 0)
  (hne : l.length + 1 ≠ c_invalidNumber) {now : ℤ} (hnow : (timestamp (m :: l) : ℤ) ≤ now)

include hF hG hl hm hnew h0 hne hnow

/-- A new block below the reserved number is imported. -/
theorem Grown.importBlock : ∃ route bc1 bc',
    s.1.importBlock world (verified (m :: l)) true now = (.ok route, bc') ∧
    Grown F (bc', s.2 ++ [block (m :: l)]) ∧ StakeChecked world (block (m :: l)) s.1 bc1 ∧
    (∀ n h, s.1.m_blockHashes n = some h → bc1.m_blockHashes n = some h) ∧ Mined F bc1 ∧
    Insertable world bc1 (block (m :: l)) ∧
    bc1.insertBlockAndExtras world (verified (m :: l)) (RLPStream.encodeList [])
      ((s.1.details (hash l)).totalDifficulty + (header (m :: l)).difficulty) = (.ok route, bc') := by
  have hm' := (hG.recorded_iff (F.tail_mem hl)).2 hm
  have hnot : hash (m :: l) ∉ s.1.recorded := fun h =>
    hnew (((hG.recorded_iff hl).1 h).resolve_left (List.cons_ne_nil m l))
  have hknown : s.1.isKnown world m.id true = false := by
    cases hk : s.1.isKnown world m.id true with
    | false => rfl
    | true => exact absurd (hG.mined.recorded_of_isKnown hk) hnot
  obtain ⟨bc1, hstake, hkeep, hM1, hdb, hP, himp⟩ := hG.mined.importBlock_eq hl hm'
    (fun _ => hknown) hnow fun v _ => stakeOk_zero h0 l v
  have hB : (Op.importBlock (verified (m :: l)) true now).Within F.blockSet :=
    ⟨⟨m, l, hl, rfl⟩, rfl⟩
  have hfit : (Op.importBlock (verified (m :: l)) true now).Fits world s.1 := by
    change ((l.length + 1 : ℕ) : ℤ) ≠ c_invalidNumber
    omega
  have hchoice := forkChoice_arrive world_valid (totalDifficulty_lt hF) hG.choice hB trivial
    hfit
  rcases hr : s.1.importBlock world (verified (m :: l)) true now with ⟨r, bc'⟩
  rw [hr] at himp
  obtain ⟨⟨route, rfl⟩, hM', -⟩ := hM1.insertBlockAndExtras hl hdb hP hne himp.symm
  have harr : BlockChain.arrive world s (.importBlock (verified (m :: l)) true now) =
      (bc', s.2 ++ [block (m :: l)]) := by
    simp only [BlockChain.arrive, perform, hr, Op.imports]
    rfl
  rw [harr] at hchoice
  exact ⟨route, bc1, bc', rfl, ⟨hM', hchoice⟩, hstake, hkeep, hM1, hP, himp.symm⟩

theorem Grown.arrive :
    Grown F (BlockChain.arrive world s (.importBlock (verified (m :: l)) true now)) ∧
      (BlockChain.arrive world s (.importBlock (verified (m :: l)) true now)).2 =
        s.2 ++ [block (m :: l)] := by
  obtain ⟨route, -, bc', himp, hG', -⟩ := hG.importBlock hF hl hm hnew h0 hne hnow
  have harr : BlockChain.arrive world s (.importBlock (verified (m :: l)) true now) =
      (bc', s.2 ++ [block (m :: l)]) := by
    simp only [BlockChain.arrive, perform, himp, Op.imports]
    rfl
  rw [harr]
  exact ⟨hG', rfl⟩

end Arrival

/-! ## A chain up to the reserved number -/

/-- A chain of the least difficulty. -/
def light : ℕ → List Move
  | 0 => []
  | n + 1 => ⟨BitVec.ofNat 256 (n + 3), false, interval, 0⟩ :: light n

/-- The first and the second block of a heavy branch, each a second behind its parent. -/
def heavy1 : Move := ⟨BitVec.ofNat 256 (2 ^ 40), true, 1, 0⟩
def heavy2 : Move := ⟨BitVec.ofNat 256 (2 ^ 40 + 1), true, 1, 0⟩

theorem length_light : ∀ n, (light n).length = n
  | 0 => rfl
  | n + 1 => by rw [light, List.length_cons, length_light n]

theorem difficulty_light : ∀ n, difficulty (light n) = 1
  | 0 => rfl
  | n + 1 => by rw [light, difficulty, difficulty_light n, Nat.add_sub_cancel_left]

theorem weight_light : ∀ n, weight (light n) = n + 1
  | 0 => rfl
  | n + 1 => by
    have h := difficulty_light (n + 1)
    rw [light] at h ⊢
    rw [weight, weight_light n, h]

theorem toNat_hash_light {n : ℕ} (h : n < 2 ^ 32) :
    (hash (light n)).toNat = if n = 0 then 1 else n + 2 := by
  cases n with
  | zero => rfl
  | succ n =>
    rw [if_neg (by omega), light, hash, BitVec.toNat_ofNat, Nat.mod_eq_of_lt (by omega)]

theorem sound_light : ∀ {n}, n < 2 ^ 32 → Sound (light n)
  | 0, _ => trivial
  | n + 1, h => by
    have hid := toNat_hash_light h
    rw [if_neg (by omega)] at hid
    have hd := difficulty_light (n + 1)
    rw [light] at hid hd ⊢
    rw [hash] at hid
    refine ⟨fun h0 => ?_, fun h1 => ?_, show 1 ≤ interval by decide, le_rfl, by omega, ?_,
      sound_light (by omega)⟩
    · rw [h0] at hid
      simp at hid
    · rw [h1] at hid
      simp at hid
    · rw [length_light]
      exact h

theorem timestamp_light : ∀ n, timestamp (light n) = n * interval
  | 0 => by simp [light, timestamp]
  | n + 1 => by rw [light, timestamp, timestamp_light n, Nat.succ_mul]

/-- The light chain and the heavy branch on the genesis block. -/
def lightAndHeavy : Branches where
  ways := {l | (∃ n < 2 ^ 32, l = light n) ∨ l = [heavy1] ∨ l = [heavy2, heavy1]}
  nil_mem := .inl ⟨0, by norm_num, rfl⟩
  tail_mem := by
    rintro m l (⟨n, hn, he⟩ | he | he)
    · cases n with
      | zero => cases he
      | succ n =>
        rw [light] at he
        cases he
        exact .inl ⟨n, by omega, rfl⟩
    · cases he
      exact .inl ⟨0, by norm_num, rfl⟩
    · cases he
      exact .inr (.inl rfl)
  sound := by
    rintro l (⟨n, hn, rfl⟩ | rfl | rfl)
    · exact sound_light hn
    · exact ⟨by decide, by decide, by decide, by decide, by decide, by decide, trivial⟩
    · exact ⟨by decide, by decide, by decide, by decide, by decide, by decide, by decide, by decide,
        by decide, by decide, by decide, by decide, trivial⟩
  hash_inj := by
    have h1 : (hash [heavy1]).toNat = 2 ^ 40 := by decide
    have h2 : (hash [heavy2, heavy1]).toNat = 2 ^ 40 + 1 := by decide
    have hlt : ∀ n < 2 ^ 32, (hash (light n)).toNat < 2 ^ 33 := fun n hn => by
      rw [toNat_hash_light hn]
      split <;> omega
    rintro l l' (⟨n, hn, rfl⟩ | rfl | rfl) (⟨n', hn', rfl⟩ | rfl | rfl) he
    all_goals have hv := congrArg BitVec.toNat he
    · rw [toNat_hash_light hn, toNat_hash_light hn'] at hv
      rw [show n = n' by split at hv <;> split at hv <;> omega]
    · exact absurd (hlt n hn) (by omega)
    · exact absurd (hlt n hn) (by omega)
    · exact absurd (hlt n' hn') (by omega)
    · rfl
    · omega
    · exact absurd (hlt n' hn') (by omega)
    · omega
    · rfl

/-- The import of a block, later than all of these were made. -/
def importOf (l : List Move) : Op := .importBlock (verified l) true (2 ^ 62)

/-- The light chain up to this number. -/
def lightRun (n : ℕ) : List Op := (List.range n).map fun i => importOf (light (i + 1))

def lightBlocks (n : ℕ) : List BlockRLP := (List.range n).map fun i => block (light (i + 1))

theorem block_inj {F : Branches} {l l' : List Move} (hl : l ∈ F.ways) (hl' : l' ∈ F.ways)
    (h : block l = block l') : l = l' :=
  F.hash_inj hl hl' (congrArg (fun b => b.info.m_hash) h)

theorem light_mem {n : ℕ} (h : n < 2 ^ 32) : light n ∈ lightAndHeavy.ways := .inl ⟨n, h, rfl⟩

theorem light_inj {n n' : ℕ} (h : light n = light n') : n = n' := by
  rw [← length_light n, h, length_light]

theorem mem_lightBlocks {n k : ℕ} (hk : k < 2 ^ 32) (hn : n < 2 ^ 32) :
    block (light k) ∈ lightBlocks n ↔ 0 < k ∧ k ≤ n := by
  constructor
  · intro h
    obtain ⟨i, hi, he⟩ := List.mem_map.1 h
    rw [List.mem_range] at hi
    have := light_inj (block_inj (light_mem (by omega)) (light_mem hk) he)
    omega
  · rintro ⟨h0, hle⟩
    refine List.mem_map.2 ⟨k - 1, List.mem_range.2 (by omega), ?_⟩
    rw [Nat.sub_add_cancel h0]

theorem weight_lt (l : List Move) (h : l ∈ lightAndHeavy.ways) : weight l < 2 ^ 256 := by
  rcases h with ⟨n, hn, rfl⟩ | rfl | rfl
  · rw [weight_light]
    omega
  · decide
  · decide

theorem timestamp_le (l : List Move) (h : l ∈ lightAndHeavy.ways) : (timestamp l : ℤ) ≤ 2 ^ 62 := by
  rcases h with ⟨n, hn, rfl⟩ | rfl | rfl
  · rw [timestamp_light]
    unfold interval
    omega
  · decide
  · decide

theorem grown_lightRun : ∀ {n : ℕ}, n < c_invalidNumber →
    Grown lightAndHeavy (StateRun.run (arrive world) (genesis, []) (lightRun n)) ∧
      (StateRun.run (arrive world) (genesis, []) (lightRun n)).2 = lightBlocks n
  | 0, _ => ⟨grown_genesis _, rfl⟩
  | n + 1, h => by
    unfold c_invalidNumber at h
    obtain ⟨hG, hL⟩ := grown_lightRun (n := n) (by unfold c_invalidNumber; omega)
    have hl : light (n + 1) ∈ lightAndHeavy.ways := light_mem (by omega)
    have hparent : light n = [] ∨ block (light n) ∈ lightBlocks n := by
      cases n with
      | zero => exact .inl rfl
      | succ n => exact .inr ((mem_lightBlocks (by omega) (by omega)).2 (by omega))
    have hnew : block (light (n + 1)) ∉ lightBlocks n := fun hm => by
      have := ((mem_lightBlocks (by omega) (by omega)).1 hm).2
      omega
    have hstep := hG.arrive weight_lt hl (by rw [hL]; exact hparent) (by rw [hL]; exact hnew) rfl
      (by rw [length_light]; unfold c_invalidNumber; omega) (timestamp_le _ hl)
    have hrun : lightRun (n + 1) = lightRun n ++ [importOf (light (n + 1))] := by
      simp [lightRun, List.range_succ]
    have hblocks : lightBlocks (n + 1) = lightBlocks n ++ [block (light (n + 1))] := by
      simp [lightBlocks, List.range_succ]
    rw [hrun, StateRun.run_append, StateRun.run_cons, StateRun.run_nil, hblocks, ← hL]
    exact hstep

/-- The ancestors of a light block in the chain are the light blocks below it. -/
theorem iterate_light {bc : BlockChain} (hM : Mined lightAndHeavy bc) {n : ℕ} :
    ∀ {k : ℕ}, n + k < 2 ^ 32 → hash (light (n + k)) ∈ bc.recorded →
      bc.parentOf^[k] (hash (light (n + k))) = hash (light n)
  | 0, _, _ => rfl
  | k + 1, hlt, hm => by
    have hl : light (n + k + 1) ∈ lightAndHeavy.ways := light_mem (by omega)
    rw [Function.iterate_succ_apply, show n + (k + 1) = n + k + 1 by omega]
    rw [show n + (k + 1) = n + k + 1 by omega] at hm
    have hp := hM.parentOf_eq hl hm
    have hm' := hM.parent_mem hl hm
    rw [light, hp]
    exact iterate_light hM (by omega) hm'

/-- The number before the reserved one. -/
def lastNumber : ℕ := c_invalidNumber - 1

theorem lastNumber_eq : lastNumber = 4294967294 := rfl

theorem heavy1_mem : [heavy1] ∈ lightAndHeavy.ways := .inr (.inl rfl)

theorem heavy2_mem : [heavy2, heavy1] ∈ lightAndHeavy.ways := .inr (.inr rfl)

theorem heavy_ne_light {m : Move} (hm : m = heavy1 ∨ m = heavy2) (l : List Move) (n : ℕ) :
    m :: l ≠ light n := by
  intro he
  cases n with
  | zero => cases he
  | succ n =>
    rw [light, List.cons.injEq] at he
    have ha := congrArg Move.author he.1
    rcases hm with rfl | rfl <;> cases ha

theorem heavy_notMem {m : Move} (hm : m = heavy1 ∨ m = heavy2) {l : List Move}
    (hl : m :: l ∈ lightAndHeavy.ways) {n : ℕ} (hn : n < 2 ^ 32) :
    block (m :: l) ∉ lightBlocks n := by
  intro hb
  obtain ⟨i, hi, he⟩ := List.mem_map.1 hb
  rw [List.mem_range] at hi
  exact heavy_ne_light hm l (i + 1) (block_inj hl (light_mem (by omega)) he.symm)

/-- The chain below the reserved number, with the first block of the heavy branch beside it. -/
structure Reached (s : BlockChain × List BlockRLP) : Prop extends Grown lightAndHeavy s where
  blocks : s.2 = lightBlocks lastNumber ++ [block [heavy1]]
  head : s.1.m_lastBlockHash = hash (light lastNumber)
  record : s.1.blockHashDB 1 = some (hash (light 1))

theorem reached_run : Reached (StateRun.run (arrive world) (genesis, [])
    (lightRun lastNumber ++ [importOf [heavy1]])) := by
  have hN := lastNumber_eq
  obtain ⟨hG, hL⟩ := grown_lightRun (n := lastNumber) (by unfold c_invalidNumber; omega)
  rw [StateRun.run_append, StateRun.run_cons, StateRun.run_nil]
  generalize StateRun.run (arrive world) (genesis, []) (lightRun lastNumber) = s0 at hG hL ⊢
  have hstep : Grown lightAndHeavy (arrive world s0 (importOf [heavy1])) ∧
      (arrive world s0 (importOf [heavy1])).2 = s0.2 ++ [block [heavy1]] :=
    hG.arrive weight_lt heavy1_mem (.inl rfl)
      (by rw [hL]; exact heavy_notMem (.inl rfl) heavy1_mem (by omega)) rfl (by decide)
      (timestamp_le _ heavy1_mem)
  rw [hL] at hstep
  obtain ⟨hG', hL'⟩ := hstep
  generalize arrive world s0 (importOf [heavy1]) = s at hG' hL' ⊢
  have hmem : ∀ {k}, k ≤ lastNumber → hash (light k) ∈ s.1.recorded := fun {k} hk => by
    rw [hG'.recorded_iff (light_mem (by omega)), hL']
    cases k with
    | zero => exact .inl rfl
    | succ k =>
      exact .inr (List.mem_append_left _ ((mem_lightBlocks (by omega) (by omega)).2 (by omega)))
  have hhead : s.1.m_lastBlockHash = hash (light lastNumber) := by
    refine hG'.head_eq (light_mem (by omega)) (hmem le_rfl) fun l' hl' hm' hw => ?_
    rw [weight_light] at hw
    rw [hG'.recorded_iff hl', hL'] at hm'
    rcases hl' with ⟨n, hn, rfl⟩ | rfl | rfl
    · rw [weight_light] at hw
      rcases hm' with h0 | hb
      · have := congrArg List.length h0
        rw [length_light, List.length_nil] at this
        omega
      · rcases List.mem_append.1 hb with hb | hb
        · have := (mem_lightBlocks hn (by omega)).1 hb
          rw [show n = lastNumber by omega]
        · rw [List.mem_singleton] at hb
          exact absurd (block_inj (light_mem hn) heavy1_mem hb).symm (heavy_ne_light (.inl rfl) _ _)
    · rw [show weight [heavy1] = 1073741825 by decide] at hw
      omega
    · rcases hm' with h0 | hb
      · cases h0
      · rcases List.mem_append.1 hb with hb | hb
        · exact absurd hb (heavy_notMem (.inr rfl) heavy2_mem (by omega))
        · rw [List.mem_singleton] at hb
          have := congrArg List.length (block_inj heavy2_mem heavy1_mem hb)
          simp at this
  refine ⟨hG', hL', hhead, ?_⟩
  have hit := iterate_light hG'.mined (n := 1) (k := lastNumber - 1) (by omega)
    (by rw [show 1 + (lastNumber - 1) = lastNumber by omega]; exact hmem le_rfl)
  rw [show 1 + (lastNumber - 1) = lastNumber by omega] at hit
  have hcan : hash (light 1) ∈ s.1.canonical := by
    refine ⟨lastNumber - 1, ?_, by rw [hhead]; exact hit⟩
    rw [hhead, hG'.mined.heightOf_eq (light_mem (by omega)) (hmem le_rfl), length_light]
    omega
  have hrec := hG'.mined.records _ hcan
    (hash_ne_genesis (lightAndHeavy.sound (light_mem (n := 1) (by norm_num))))
  rw [hG'.mined.heightOf_eq (light_mem (by norm_num)) (hmem (by omega)), length_light] at hrec
  exact hrec

/-- The chain once a light block has reached the reserved number. -/
structure Exhausted (bc : BlockChain) : Prop where
  head : bc.m_lastBlockHash = hash (light c_invalidNumber)
  null : (bc.details bc.m_lastBlockHash).isNull = true
  best : (bc.details bc.m_lastBlockHash).totalDifficulty.toNat = 2 ^ 32
  block : bc.block world (hash [heavy1]) = some (Devnet.block [heavy1])
  known : bc.isKnown world (hash [heavy1]) false = true
  unknown : bc.isKnown world (hash [heavy2, heavy1]) true = false
  number : (bc.details (hash [heavy1])).number = 1
  weight : (bc.details (hash [heavy1])).totalDifficulty.toNat = 2 ^ 30 + 1
  state : bc.stateDB (root (state [heavy1])) = some (Devnet.state [heavy1])
  genesis : bc.stateDB (root (Devnet.state [])) = some (Devnet.state [])
  record : bc.blockHashDB 1 = some (hash (light 1))

theorem Reached.mem_iff {s : BlockChain × List BlockRLP} (hR : Reached s) {l : List Move}
    (hl : l ∈ lightAndHeavy.ways) :
    hash l ∈ s.1.recorded ↔ (∃ n ≤ lastNumber, l = light n) ∨ l = [heavy1] := by
  have hN := lastNumber_eq
  rw [hR.recorded_iff hl, hR.blocks, List.mem_append, List.mem_singleton]
  constructor
  · rintro (rfl | hb | hb)
    · exact .inl ⟨0, Nat.zero_le _, rfl⟩
    · obtain ⟨i, hi, he⟩ := List.mem_map.1 hb
      rw [List.mem_range] at hi
      exact .inl ⟨i + 1, by omega, (block_inj (light_mem (by omega)) hl he).symm⟩
    · exact .inr (block_inj hl heavy1_mem hb)
  · rintro (⟨n, hn, rfl⟩ | rfl)
    · cases n with
      | zero => exact .inl rfl
      | succ n => exact .inr (.inl ((mem_lightBlocks (by omega) (by omega)).2 (by omega)))
    · exact .inr (.inr rfl)

/-- The light block at the reserved number is imported, on top of the chain. -/
theorem Reached.importLight {s : BlockChain × List BlockRLP} (hR : Reached s) :
    ∃ r bc', s.1.importBlock world (verified (light c_invalidNumber)) true (2 ^ 62) = (.ok r, bc') ∧
      Exhausted bc' := by
  have hN := lastNumber_eq
  have hC : c_invalidNumber = lastNumber + 1 := by
    rw [hN]
    rfl
  obtain ⟨m, hm, h0⟩ : ∃ m, light c_invalidNumber = m :: light lastNumber ∧ m.stake = 0 :=
    ⟨_, by rw [hC, light], rfl⟩
  have hl : m :: light lastNumber ∈ lightAndHeavy.ways := hm ▸ light_mem (by omega)
  have hpar : hash (light lastNumber) ∈ s.1.recorded :=
    (hR.mem_iff (light_mem (by omega))).2 (.inl ⟨_, le_rfl, rfl⟩)
  have hnew : m.id ∉ s.1.recorded := fun h => by
    rcases (hR.mem_iff hl).1 h with ⟨n, hn, he⟩ | he
    · rw [← hm] at he
      have := light_inj he
      omega
    · rw [← hm] at he
      exact heavy_ne_light (.inl rfl) _ _ he.symm
  have hknown : s.1.isKnown world m.id true = false := by
    cases hk : s.1.isKnown world m.id true with
    | false => rfl
    | true => exact absurd (hR.mined.recorded_of_isKnown hk) hnew
  obtain ⟨bc1, hstake, -, hM1, hdb, hP, himp⟩ := hR.mined.importBlock_eq hl hpar (fun _ => hknown)
    (timestamp_le _ hl) fun v _ => stakeOk_zero h0 _ v
  have hF1 : bc1.ForkChoice world lightAndHeavy.blockSet s.2 := by
    obtain ⟨m', u, db, rfl, -⟩ := hstake
    exact hR.choice.congr hM1.toChainInv ⟨rfl, rfl, rfl, rfl, rfl, rfl⟩ fun hd => ⟨_, hd, rfl⟩
  have hsame : bc1.m_lastBlockHash = s.1.m_lastBlockHash ∧ bc1.blockHashDB = s.1.blockHashDB ∧
      bc1.recorded = s.1.recorded ∧ bc1.details = s.1.details := by
    obtain ⟨m', u, db, rfl, -⟩ := hstake
    exact ⟨rfl, rfl, rfl, rfl⟩
  have hR1 : Reached (bc1, s.2) :=
    ⟨⟨hM1, hF1⟩, hR.blocks, hsame.1.trans hR.head, by rw [hsame.2.1]; exact hR.record⟩
  have hpar1 : hash (light lastNumber) ∈ bc1.recorded := by rw [hsame.2.2.1]; exact hpar
  have hnew1 : m.id ∉ bc1.recorded := by rw [hsame.2.2.1]; exact hnew
  rw [hm]
  rcases hr : s.1.importBlock world (verified (m :: light lastNumber)) true (2 ^ 62) with ⟨r, bc'⟩
  rw [hr, ← hsame.2.2.2] at himp
  have hw1 : (bc1.details (hash (light lastNumber))).totalDifficulty.toNat = lastNumber + 1 := by
    rw [hR1.weight_eq (light_mem (by omega)) hpar1, weight_light]
  have hd : (header (m :: light lastNumber)).difficulty.toNat = 1 := by
    rw [toNat_difficulty (lightAndHeavy.sound hl), ← hm, difficulty_light]
  have htd : ((bc1.details (hash (light lastNumber))).totalDifficulty +
      (header (m :: light lastNumber)).difficulty).toNat = 2 ^ 32 := by
    rw [BitVec.toNat_add, hw1, hd]
    omega
  generalize (bc1.details (hash (light lastNumber))).totalDifficulty +
    (header (m :: light lastNumber)).difficulty = td at himp htd
  rcases insertBlockAndExtras_cases hM1.toTreeInv rfl hP himp.symm with
    ⟨e, he, -⟩ | ⟨-, hnb, -⟩ | ⟨c, i, j, bs, rfl, -, hS, hA⟩
  · rw [receiptBlooms_nil] at he
    cases he
  · refine absurd (.inl ?_) hnb
    rw [hR1.head, BitVec.lt_def, hw1, htd]
    omega
  refine ⟨_, bc', rfl, ?_⟩
  have hheavy : hash [heavy1] ∈ bc1.recorded := (hR1.mem_iff heavy1_mem).2 (.inr rfl)
  have hroot : hash [] ∈ bc1.recorded := hM1.tree.root_mem
  have hne : hash [heavy1] ≠ m.id := fun he => hnew1 (he ▸ hheavy)
  have hrec : bc'.recorded = insert m.id bc1.recorded := hS.recorded_eq
  have hself : m.id ∈ bc'.recorded := by rw [hrec]; exact .inl rfl
  have hhead : bc'.m_lastBlockHash = m.id := hA.head
  have hblock : bc'.blocksDB (hash [heavy1]) = some (block [heavy1]) := by
    rw [hS.blocks]
    refine (Function.update_of_ne hne ..).trans ?_
    rw [← hM1.coherent.block_eq (w := world) (by decide)]
    exact hM1.block_eq heavy1_mem hheavy
  have hheight : bc'.heightOf m.id = c_invalidNumber := by
    have hself' : bc'.heightOf m.id = bc1.heightOf (hash (light lastNumber)) + 1 := hS.heightOf_self
    rw [hself', hM1.heightOf_eq (light_mem (by omega)) hpar1, length_light, hC]
  have hweight : ∀ {h d}, bc'.Entry h d → h ≠ m.id → ∃ d0, bc1.Entry h d0 ∧
      d0.totalDifficulty = d.totalDifficulty := fun hd hh =>
    (hS.entry hd).resolve_left fun he => hh he.1
  refine
    { head := by rw [hhead, hm]; rfl
      null := by rw [hhead]; exact decide_eq_true hheight
      best := ?_, block := by rw [hS.coherent.block_eq (w := world) (by decide), hblock]
      known := ?_, unknown := ?_, number := ?_, weight := ?_
      state := by rw [hS.stateDB]; exact hM1.stateDB_eq heavy1_mem hheavy
      genesis := by rw [hS.stateDB]; exact hM1.stateDB_eq lightAndHeavy.nil_mem hroot
      record := ?_ }
  · rw [hhead]
    rcases hS.entry (entry_details hself) with ⟨-, he⟩ | ⟨d0, hd0, -⟩
    · rw [he, htd]
    · exact absurd (hM1.coherent.recorded_of_entry hd0) hnew1
  · simp only [isKnown, decide_eq_true_eq]
    refine .inr ⟨by rw [hS.coherent.lookup_blocks, hblock]; rfl, hS.coherent.lookup_isSome.2 ?_,
      fun hf => absurd hf (by decide)⟩
    rw [hrec]
    exact .inr hheavy
  · rw [Bool.eq_false_iff]
    intro hk
    simp only [isKnown, decide_eq_true_eq] at hk
    rcases hk with hg | ⟨-, hd, -⟩
    · exact absurd hg (by decide)
    · have hd := hS.coherent.lookup_isSome.1 hd
      rw [hrec] at hd
      rcases hd with he | hd
      · have := lightAndHeavy.hash_inj heavy2_mem hl he
        rw [← hm] at this
        exact heavy_ne_light (.inr rfl) _ _ this
      · rcases (hR1.mem_iff heavy2_mem).1 hd with ⟨n, -, he⟩ | he
        · exact heavy_ne_light (.inr rfl) _ _ he
        · simp at he
  · have hplace := (hS.place hM1.toTreeInv hP hheavy).2
    rw [hM1.heightOf_eq heavy1_mem hheavy] at hplace
    exact hplace
  · have hm' : hash [heavy1] ∈ bc'.recorded := by rw [hrec]; exact .inr hheavy
    obtain ⟨d0, hd0, he⟩ := hweight (entry_details hm') hne
    obtain ⟨bs, ha, -, hall⟩ := hF1.weighed _ hheavy
    obtain ⟨l', hl', hh, hw, -⟩ := totalDifficulty_eq lightAndHeavy (ha.mono hF1.subset)
    rw [← he, hall d0 hd0, hw, lightAndHeavy.hash_inj hl' heavy1_mem hh]
    decide
  · -- nothing lies between the head and the parent, so only the new block is recorded
    have hroute := hA.route
    rw [hR1.head] at hroute
    obtain ⟨-, rfl⟩ := hroute.of_self hM1.tree hpar1
    obtain rfl : bs = [] := List.map_eq_nil_iff.1 hA.hashes
    have hpos : 0 ≤ (verified (m :: light lastNumber)).block.info.number := Int.natCast_nonneg _
    have hnum : (verified (m :: light lastNumber)).block.info.number.toNat = lastNumber + 1 := by
      change (((m :: light lastNumber).length : ℕ) : ℤ).toNat = _
      rw [Int.toNat_natCast, List.length_cons, length_light]
    rw [hA.records.blockHashDB, numberRecords, List.foldl_cons, List.foldl_nil,
      if_pos hpos, hnum, Function.update_of_ne (by omega)]
    exact hR1.record

/-- The second heavy block is imported and becomes the head, but the record of the first number stays
with the light chain. -/
theorem Exhausted.importHeavy {bc : BlockChain} (hE : Exhausted bc) :
    ∃ r bc', bc.importBlock world (verified [heavy2, heavy1]) true (2 ^ 62) = (.ok r, bc') ∧
      bc'.m_lastBlockHash = hash [heavy2, heavy1] ∧ bc'.m_lastBlockNumber = 2 ∧
      bc'.blockHashDB 1 = some (hash (light 1)) := by
  have hS := lightAndHeavy.sound heavy2_mem
  have hP : Block.OnParent world bc (verified [heavy2, heavy1]).info (header [heavy1])
      (Devnet.state [heavy1]) := by
    refine
      { info := ?_, hash := rfl, hash_ne_zero := by decide
        grandparent := fun _ => ⟨world.genesisBlock.info, ?_⟩, state := hE.state, number := rfl
        bound := by decide, timestamp := by decide, later := by decide, fork := by decide
        fork_next := by decide }
    · rw [info, show (verified [heavy2, heavy1]).info.parentHash = hash [heavy1] from rfl, hE.block]
      rfl
    · rfl
  obtain ⟨v, hv⟩ : ∃ v, Ethash.getAgedBalance (address heavy2.author) (toUnsigned [heavy1].length)
      (bc.balanceRetriever world (2 ^ 62)) = .ok v := by
    have hdb : bc.stateDB world.genesisBlock.info.stateRoot = some (Devnet.state []) := hE.genesis
    obtain ⟨b, hb⟩ : ∃ b, (Block.new world 0).populateFromChain world bc (genesisHash world) .None
        (2 ^ 62) = .ok b := by
      obtain ⟨b, hb, -⟩ := Block.populateFromChain_genesis (w := world) (by decide) rfl le_rfl hdb
        (by decide)
      exact ⟨b, hb⟩
    refine ⟨b.m_state.balance (address true), ?_⟩
    change bc.balanceRetriever world (2 ^ 62) (address true) 0 = _
    rw [balanceRetriever, show bc.numberHash world 0 = genesisHash world from rfl, hb]
  have hver := verifyBlock_inOrder hS hE.block hv
  rw [if_pos (stakeOk_zero rfl _ v)] at hver
  have hnum := hE.number
  have hplace : bc.checkPlace world (verified [heavy2, heavy1]).info true = .ok () := by
    have hhash : (verified [heavy2, heavy1]).info.hash world.crypto .WithSeal =
        hash [heavy2, heavy1] := by decide
    have hnull : ¬(bc.details (hash [heavy1])).isNull = true := by
      rw [BlockDetails.isNull, hnum]
      decide
    unfold checkPlace checkBlockIsNew
    rw [hhash, hE.unknown, if_pos rfl, throwIf_neg (by simp), ok_bind,
      show (verified [heavy2, heavy1]).info.parentHash = hash [heavy1] from rfl, hE.known,
      throwIf_neg (by simp), ok_bind, throwIf_neg hnull]
  have himp := importBlock_empty (by decide) hP rfl rfl (emptyHeader hS) hplace
    (timestamp_le _ heavy2_mem) hver
  obtain ⟨m, u, htouch⟩ := touchStake_eq world bc (verified [heavy2, heavy1]).block
  have htd : ((bc.details (hash [heavy1])).totalDifficulty +
      (header [heavy2, heavy1]).difficulty).toNat = 2 ^ 60 + 2 ^ 30 + 1 := by
    rw [BitVec.toNat_add, hE.weight, toNat_difficulty hS]
    decide
  rw [htouch] at himp
  generalize hbc1 : ({ bc with
    m_blockHashes := m, m_cacheUsage := u
    stateDB := Function.update bc.stateDB (verified [heavy2, heavy1]).info.stateRoot
      (some (Block.rewarded world world.params.accountStartNonce (verified [heavy2, heavy1]).info
        (Devnet.state [heavy1]))) } : BlockChain) = bc1 at himp
  have hsame : bc1.m_lastBlockHash = bc.m_lastBlockHash ∧ bc1.blockHashDB = bc.blockHashDB ∧
      bc1.details = bc.details := by
    rw [← hbc1]
    exact ⟨rfl, rfl, rfl⟩
  have hnull : (bc1.details bc1.m_lastBlockHash).isNull = true := by
    rw [hsame.1, hsame.2.2]
    exact hE.null
  have hne : bc1.m_lastBlockHash ≠ (verified [heavy2, heavy1]).info.m_hash := by
    rw [hsame.1, hE.head]
    intro he
    have hC : c_invalidNumber < 2 ^ 32 := by decide
    exact heavy_ne_light (.inr rfl) _ _ (lightAndHeavy.hash_inj (light_mem hC) heavy2_mem he).symm
  have hbest : (bc1.details bc1.m_lastBlockHash).totalDifficulty <
      (bc.details (hash [heavy1])).totalDifficulty + (header [heavy2, heavy1]).difficulty := by
    rw [hsame.1, hsame.2.2, BitVec.lt_def, htd, hE.best]
    decide
  obtain ⟨bc', hins, h1, h2, h3⟩ := insertBlockAndExtras_null_route (w := world) (by decide) rfl
    (by decide) (.inl hnull) hne receiptBlooms_nil hbest
  refine ⟨_, bc', himp.trans hins, h1, h2, ?_⟩
  rw [h3, show (verified [heavy2, heavy1]).info.number.toNat = 2 from rfl,
    Function.update_of_ne (by decide), hsame.2.1]
  exact hE.record

/-- The two last imports of the run. -/
theorem Reached.finish {s : BlockChain × List BlockRLP} (hR : Reached s) {l : List Move}
    (hl : l = light c_invalidNumber) :
    ∃ bc', StateRun.run (arrive world) s [importOf l, importOf [heavy2, heavy1]] =
        (bc', s.2 ++ [block l, block [heavy2, heavy1]]) ∧
      bc'.m_lastBlockHash = hash [heavy2, heavy1] ∧ bc'.blockHashDB 1 = some (hash (light 1)) := by
  obtain ⟨r1, bc1, himp1, hE⟩ := hR.importLight
  obtain ⟨r2, bc2, himp2, hhead, -, hrec⟩ := hE.importHeavy
  rw [← hl] at himp1
  refine ⟨bc2, ?_, hhead, hrec⟩
  have h1 : arrive world s (importOf l) = (bc1, s.2 ++ [block l]) := by
    simp only [arrive, importOf, perform, himp1, Op.imports]
    rfl
  have h2 : arrive world (bc1, s.2 ++ [block l]) (importOf [heavy2, heavy1]) =
      (bc2, (s.2 ++ [block l]) ++ [block [heavy2, heavy1]]) := by
    simp only [arrive, importOf, perform, himp2, Op.imports]
    rfl
  rw [StateRun.run_cons, StateRun.run_cons, StateRun.run_nil, h1, h2, List.append_assoc,
    List.singleton_append]

theorem imports_lightRun (n : ℕ) : (lightRun n).map Op.imports = (lightBlocks n).map some := by
  rw [lightRun, lightBlocks, List.map_map, List.map_map]
  rfl

theorem within_importOf {F : Branches} {m : Move} {l : List Move} (hl : m :: l ∈ F.ways) :
    (importOf (m :: l)).Within F.blockSet ∧ (importOf (m :: l)).IsImport :=
  ⟨⟨⟨m, l, hl, rfl⟩, rfl⟩, trivial⟩

theorem within_light {n : ℕ} (h : n + 1 < 2 ^ 32) :
    (importOf (light (n + 1))).Within lightAndHeavy.blockSet ∧
      (importOf (light (n + 1))).IsImport := by
  have hl := light_mem h
  rw [light] at hl ⊢
  exact within_importOf hl

/-- The heavy branch alone. -/
theorem grown_heavyRun : Grown lightAndHeavy (StateRun.run (arrive world) (genesis, [])
    [importOf [heavy1], importOf [heavy2, heavy1]]) ∧
    (StateRun.run (arrive world) (genesis, []) [importOf [heavy1], importOf [heavy2, heavy1]]).2 =
      [block [heavy1], block [heavy2, heavy1]] := by
  have h1 : Grown lightAndHeavy (arrive world (genesis, []) (importOf [heavy1])) ∧
      (arrive world (genesis, []) (importOf [heavy1])).2 = [] ++ [block [heavy1]] :=
    (grown_genesis _).arrive weight_lt heavy1_mem (.inl rfl) (by simp) rfl (by decide)
      (timestamp_le _ heavy1_mem)
  rw [StateRun.run_cons, StateRun.run_cons, StateRun.run_nil]
  generalize arrive world (genesis, []) (importOf [heavy1]) = s at h1
  obtain ⟨hG, hL⟩ := h1
  have hnew : block [heavy2, heavy1] ∉ s.2 := by
    rw [hL, List.nil_append, List.mem_singleton]
    intro he
    have := congrArg List.length (block_inj heavy2_mem heavy1_mem he)
    simp at this
  have h2 : Grown lightAndHeavy (arrive world s (importOf [heavy2, heavy1])) ∧
      (arrive world s (importOf [heavy2, heavy1])).2 = s.2 ++ [block [heavy2, heavy1]] :=
    hG.arrive weight_lt heavy2_mem (.inr (by rw [hL]; simp)) hnew rfl (by decide)
      (timestamp_le _ heavy2_mem)
  rw [hL] at h2
  exact h2

theorem lightAndHeavy_read (b : BlockRLP) (hb : b ∈ lightAndHeavy.blockSet.carrier) :
    ∃ bytes, BlockRLP.ofBytes world.crypto bytes = .ok b := by
  obtain ⟨m, l, hl, rfl⟩ := hb
  exact ⟨_, ofBytes_bytes (lightAndHeavy.sound hl)⟩

end Devnet

namespace BlockChain

open Devnet (world genesis lightAndHeavy lightRun lastNumber importOf light heavy1 heavy2)

variable {w : World} {B : BlockSet w}

/-- After every run of imports in which no block is at the number reserved for null details, the
head is the first best block, the details are those of the ancestry, and the records spell the
head's. -/
theorem fork_choice_of_imports (hw : w.Valid)
    (hlt : ∀ h bs, Ancestry w B.carrier h bs → totalDifficulty w bs < 2 ^ 256)
    (genesisState : AccountTrie) {ops : List Op}
    (hops : ∀ op ∈ ops, op.Within B ∧ op.IsImport)
    (hne : ∀ op ∈ ops, ∀ b, op.imports = some b → b.info.number ≠ c_invalidNumber) :
    let s := StateRun.run (arrive w) (openFresh w genesisState, []) ops
    (∃ b, b.info.m_hash = s.1.currentHash ∧
      IsFirstMax (s.1.rank w) (w.genesisBlock :: s.2) b) ∧
    (∀ b ∈ s.2, ∃ bs, Ancestry w {x | x ∈ s.2} b.info.m_hash bs) ∧
    (∀ h bs, Ancestry w {x | x ∈ s.2} h bs → (s.1.details h).number = bs.length ∧
      (s.1.details h).totalDifficulty.toNat = totalDifficulty w bs) ∧
    ∃ bs, Ancestry w {x | x ∈ s.2} s.1.currentHash bs ∧ s.1.number = bs.length ∧
      ∀ k b, bs[k]? = some b → s.1.blockHashDB (bs.length - k) = some b.info.m_hash := by
  intro s
  have hF : s.1.ForkChoice w B s.2 :=
    StateRun.invariant (fun s : BlockChain × List BlockRLP => s.1.ForkChoice w B s.2)
      (fun _ _ hF hP => forkChoice_arrive hw hlt hF hP.1 hP.2.1 hP.2.2)
      (forkChoice_openFresh hw B genesisState) (along_imports _ hops hne)
  have hmem : ∀ {h bs}, Ancestry w {x | x ∈ s.2} h bs → h ∈ s.1.recorded := by
    intro h bs ha
    cases ha with
    | genesis => exact hF.tree.root_mem
    | child hb _ => exact hF.recorded_of_mem (List.mem_cons_of_mem _ hb)
  refine ⟨hF.head, fun b hb => ?_, fun h bs ha => ?_, ?_⟩
  · obtain ⟨bs, ha, -⟩ := hF.weighed _ (hF.recorded_of_mem (List.mem_cons_of_mem _ hb))
    exact ⟨bs, ha⟩
  · exact hF.weighed.details_eq hF.subset (hmem ha) (ha.mono hF.subset)
  · obtain ⟨bs, ha, hlen, -⟩ := hF.weighed _ hF.head_mem
    refine ⟨bs, ha, by rw [hlen]; exact hF.head_number, fun k b hb => ?_⟩
    have hk : k < bs.length := (List.getElem?_eq_some_iff.1 hb).1
    have hit := hF.getElem_ancestry ha hb
    have hht := hF.tree.height_iterate hF.head_mem (show k ≤ _ by rw [← hlen]; omega)
    rw [← hit] at hht
    have hrec := hF.records b.info.m_hash ⟨k, by rw [← hlen]; omega, hit.symm⟩
      (hF.tree.ne_root (by omega))
    rw [← hrec]
    congr 1
    omega

theorem fork_choice_of_two_imports :
    let s := StateRun.run (arrive world) (genesis, []) [importOf [heavy1], importOf [heavy2, heavy1]]
    s.2 = [Devnet.block [heavy1], Devnet.block [heavy2, heavy1]] ∧
    ∃ bs, Ancestry world {x | x ∈ s.2} s.1.currentHash bs ∧ s.1.number = bs.length ∧
      ∀ k b, bs[k]? = some b → s.1.blockHashDB (bs.length - k) = some b.info.m_hash := by
  have hops : ∀ op ∈ [importOf [heavy1], importOf [heavy2, heavy1]],
      op.Within lightAndHeavy.blockSet ∧ op.IsImport := by
    simp only [List.forall_mem_cons]
    exact ⟨Devnet.within_importOf Devnet.heavy1_mem, Devnet.within_importOf Devnet.heavy2_mem, by simp⟩
  have hne : ∀ op ∈ [importOf [heavy1], importOf [heavy2, heavy1]],
      ∀ b, op.imports = some b → b.info.number ≠ c_invalidNumber := by
    simp only [List.forall_mem_cons]
    refine ⟨fun b hb => ?_, fun b hb => ?_, by simp⟩
    · rw [← Option.some.inj hb]
      decide
    · rw [← Option.some.inj hb]
      decide
  have h := fork_choice_of_imports Devnet.world_valid (Devnet.totalDifficulty_lt Devnet.weight_lt)
    (Devnet.state []) hops hne
  have h2 := Devnet.grown_heavyRun.2
  rw [← Devnet.genesis] at h
  generalize StateRun.run (arrive world) (genesis, []) [importOf [heavy1], importOf [heavy2, heavy1]] =
    s at h h2 ⊢
  exact ⟨h2, h.2.2.2⟩

/-- Once a block is at the reserved number, a better branch becomes the chain without its records. -/
theorem fork_choice_fails_at_reserved_number :
    let B := lightAndHeavy.blockSet
    let ops := lightRun lastNumber ++
      [importOf [heavy1], importOf (light c_invalidNumber), importOf [heavy2, heavy1]]
    let s := StateRun.run (arrive world) (genesis, []) ops
    (∀ op ∈ ops, op.Within B ∧ op.IsImport) ∧
    (∀ b ∈ B.carrier, ∃ bytes, BlockRLP.ofBytes world.crypto bytes = .ok b) ∧
    (∀ h bs, Ancestry world B.carrier h bs → totalDifficulty world bs < 2 ^ 256) ∧
    s.2.map some = ops.map Op.imports ∧
    ¬∃ bs, Ancestry world {x | x ∈ s.2} s.1.currentHash bs ∧ s.1.number = bs.length ∧
      ∀ k b, bs[k]? = some b → s.1.blockHashDB (bs.length - k) = some b.info.m_hash := by
  have hN := Devnet.lastNumber_eq
  have hC : c_invalidNumber = lastNumber + 1 := by
    rw [hN]
    rfl
  have hlast : light (lastNumber + 1) ∈ lightAndHeavy.ways := Devnet.light_mem (by omega)
  have hlight : (importOf (light c_invalidNumber)).Within lightAndHeavy.blockSet ∧
      (importOf (light c_invalidNumber)).IsImport := by
    rw [hC]
    exact Devnet.within_light (by omega)
  have hR := Devnet.reached_run
  have himports := Devnet.imports_lightRun lastNumber
  have hrun : ∀ op ∈ lightRun lastNumber, op.Within lightAndHeavy.blockSet ∧ op.IsImport := by
    intro op hop
    obtain ⟨i, hi, rfl⟩ := List.mem_map.1 hop
    rw [List.mem_range] at hi
    exact Devnet.within_light (by omega)
  have hblocks := hR.blocks
  obtain ⟨bc', hs, hhead, hrec⟩ := hR.finish rfl
  have hsub : ∀ b ∈ Devnet.lightBlocks lastNumber, b ∈ lightAndHeavy.blockSet.carrier := by
    intro b hb
    obtain ⟨i, hi, rfl⟩ := List.mem_map.1 hb
    rw [List.mem_range] at hi
    exact ⟨_, _, Devnet.light_mem (n := i + 1) (by omega), rfl⟩
  have hlastSub : Devnet.block (light c_invalidNumber) ∈ lightAndHeavy.blockSet.carrier := by
    rw [hC]
    exact ⟨_, _, hlast, rfl⟩
  -- the light chain is only a list from here on
  rw [hblocks, ← StateRun.run_append, List.append_assoc, List.append_assoc] at hs
  generalize Devnet.lightBlocks lastNumber = bs₀ at *
  generalize lightRun lastNumber = ops₀ at *
  generalize light c_invalidNumber = l at *
  intro B ops s
  have hs : s = (bc', bs₀ ++ ([Devnet.block [heavy1]] ++
    [Devnet.block l, Devnet.block [heavy2, heavy1]])) := hs
  refine ⟨?_, Devnet.lightAndHeavy_read, Devnet.totalDifficulty_lt Devnet.weight_lt, ?_, ?_⟩
  · intro op hop
    rcases List.mem_append.1 hop with hop | hop
    · exact hrun op hop
    · have hall : ∀ op ∈ [importOf [heavy1], importOf l, importOf [heavy2, heavy1]],
          op.Within B ∧ op.IsImport := by
        simp only [List.forall_mem_cons]
        exact ⟨Devnet.within_importOf Devnet.heavy1_mem, hlight,
          Devnet.within_importOf Devnet.heavy2_mem, by simp⟩
      exact hall op hop
  · have himp : ops.map Op.imports = ops₀.map Op.imports ++
        [importOf [heavy1], importOf l, importOf [heavy2, heavy1]].map Op.imports :=
      List.map_append
    rw [hs, List.map_append, himp, himports]
    rfl
  · rintro ⟨bs, ha, -, hrecs⟩
    rw [hs] at ha hrecs
    have hin : {x | x ∈ bs₀ ++ ([Devnet.block [heavy1]] ++
        [Devnet.block l, Devnet.block [heavy2, heavy1]])} ⊆ B.carrier := by
      intro b hb
      rcases List.mem_append.1 hb with hb | hb
      · exact hsub b hb
      · simp only [List.singleton_append, List.mem_cons, List.not_mem_nil, or_false] at hb
        rcases hb with rfl | rfl | rfl
        · exact ⟨_, _, Devnet.heavy1_mem, rfl⟩
        · exact hlastSub
        · exact ⟨_, _, Devnet.heavy2_mem, rfl⟩
    have hpath : Ancestry world B.carrier bc'.currentHash
        [Devnet.block [heavy2, heavy1], Devnet.block [heavy1]] := by
      rw [show bc'.currentHash = (Devnet.block [heavy2, heavy1]).info.m_hash from hhead]
      have h1 : Devnet.block [heavy1] ∈ B.carrier := ⟨_, _, Devnet.heavy1_mem, rfl⟩
      have h2 : Devnet.block [heavy2, heavy1] ∈ B.carrier := ⟨_, _, Devnet.heavy2_mem, rfl⟩
      exact .child h2 (.child h1 .genesis)
    obtain rfl := Ancestry.unique B (ha.mono hin) hpath
    have h1 := hrecs 1 _ rfl
    have he : Devnet.hash (light 1) = Devnet.hash [heavy1] := Option.some.inj (hrec.symm.trans h1)
    exact Devnet.heavy_ne_light (.inl rfl) _ _
      (lightAndHeavy.hash_inj (Devnet.light_mem (by norm_num)) Devnet.heavy1_mem he).symm

end BlockChain

end Petrachor
