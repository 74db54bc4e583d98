import Petrachor.BlockChain.Blooms

/-!
# The bloom index over runs

Every operation leaves the blooms of the canonical blocks in the index, at both levels. Level 1 covers level 0 until a
collection: the database may still have the entries of abandoned blocks in a chunk of level 0 when level 1 was written
without them.
-/

namespace Petrachor

open ParentTree

namespace BlockChain

/-- Every canonical block has its bloom in the index, but for the genesis block, which is never added. -/
def Bloomed (w : World) (bc : BlockChain) : Prop :=
  ∀ h ∈ bc.canonical, h ≠ genesisHash w → ∀ b, bc.block w h = some b →
    bc.HasBloom (bc.heightOf h) (blockBloom w.crypto b.info)

/-- A change that leaves the index right. -/
structure KeepsBlooms (w : World) (bc bc' : BlockChain) : Prop where
  bloomed : bc.Bloomed w → bc'.Bloomed w
  covered : bc.Covered → bc'.Covered

variable {w : World} {B : BlockSet w} {bc bc' : BlockChain}

theorem KeepsBlooms.refl (w : World) (bc : BlockChain) : KeepsBlooms w bc bc := ⟨id, id⟩

theorem KeepsBlooms.trans {bc'' : BlockChain} (h : KeepsBlooms w bc bc') (h' : KeepsBlooms w bc' bc'') :
    KeepsBlooms w bc bc'' :=
  ⟨fun hb => h'.bloomed (h.bloomed hb), fun hc => h'.covered (h.covered hc)⟩

theorem Bloomed.congr (hB : bc.Bloomed w) (hcan : bc'.canonical = bc.canonical)
    (hht : ∀ h ∈ bc.canonical, bc'.heightOf h = bc.heightOf h)
    (hblock : ∀ h ∈ bc.canonical, bc'.block w h = bc.block w h)
    (hhas : ∀ {n v}, bc.HasBloom n v → bc'.HasBloom n v) : bc'.Bloomed w := by
  intro h hc hne b hb
  rw [hcan] at hc
  rw [hblock h hc] at hb
  rw [hht h hc]
  exact hhas (hB h hc hne b hb)

/-! ## Queries and collection -/

/-- The cached chunks are as they were or as the database has them. -/
structure BloomsRecached (bc bc' : BlockChain) : Prop where
  blocksBloomsDB : bc'.blocksBloomsDB = bc.blocksBloomsDB
  m_blocksBlooms : ∀ {id c}, bc'.m_blocksBlooms id = some c →
    bc.m_blocksBlooms id = some c ∨ bc.blocksBloomsDB id = some c

theorem BloomsRecached.of_same (h : SameBlooms bc bc') : BloomsRecached bc bc' :=
  ⟨h.blocksBloomsDB, fun {id c} hm => .inl (by rw [← h.m_blocksBlooms]; exact hm)⟩

theorem BloomsRecached.trans {bc'' : BlockChain} (h : BloomsRecached bc bc') (h' : BloomsRecached bc' bc'') :
    BloomsRecached bc bc'' :=
  ⟨h'.blocksBloomsDB.trans h.blocksBloomsDB,
    fun hm => (h'.m_blocksBlooms hm).elim h.m_blocksBlooms fun hd => .inr (h.blocksBloomsDB ▸ hd)⟩

theorem bloomsRecached_touch (w : World) (bc : BlockChain) (q : Query) : BloomsRecached bc (bc.touch w q) := by
  unfold touch
  split
  · cases q with
    | blocksBlooms chunk => exact ⟨rfl, fun hm => (filled_eq_some hm).imp id And.right⟩
    | _ => exact .of_same ⟨rfl, rfl⟩
  · exact .of_same ⟨rfl, rfl⟩

/-- A query does not change what is read. -/
theorem blocksBlooms_touch (w : World) (bc : BlockChain) (q : Query) (id : H256) :
    (bc.touch w q).blocksBlooms id = bc.blocksBlooms id := by
  unfold touch
  split
  · cases q with
    | blocksBlooms id' =>
      unfold blocksBlooms
      congr 1
      show lookup (filled bc.m_blocksBlooms bc.blocksBloomsDB id') bc.blocksBloomsDB id = _
      unfold filled
      by_cases h : id = id'
      · subst h
        simp only [lookup, Function.update_self]
        cases bc.m_blocksBlooms id <;> cases bc.blocksBloomsDB id <;> rfl
      · simp only [lookup, Function.update_of_ne h]
    | _ => rfl
  · rfl

theorem keepsBlooms_touch (hI : bc.TreeInv w) (q : Query) : KeepsBlooms w bc (bc.touch w q) := by
  have hR := recached_touch (w := w) bc q
  have hC := hR.coherent hI.coherent
  constructor
  · intro hB
    refine hB.congr (hR.canonical_eq hI hC) (fun h _ => congrFun (heightOf_congr hI.coherent hC hR.detailsDB) h)
      (fun h _ => ?_) fun hv => hv.recached (bloomsRecached_touch w bc q).1 (bloomsRecached_touch w bc q).2
    unfold block
    rw [hC.lookup_blocks, hI.coherent.lookup_blocks, hR.blocksDB]
  · intro hC n hn
    have hread : ∀ level k, (bc.touch w q).bloomAt level k = bc.bloomAt level k := by
      intro level k
      unfold bloomAt
      rw [blocksBlooms_touch]
    rw [hread, hread]
    exact hC n hn

theorem bloomsRecached_evict (bc : BlockChain) (id : CacheID) : BloomsRecached bc (bc.evict id) := by
  obtain ⟨h, x⟩ := id
  cases x with
  | BlocksBlooms => exact ⟨rfl, fun hm => .inl (update_none_eq_some hm)⟩
  | _ => exact .of_same ⟨rfl, rfl⟩

theorem bloomsRecached_garbageCollect (bc : BlockChain) : BloomsRecached bc bc.garbageCollect := by
  have hfold : ∀ (ids : List CacheID) (bc : BlockChain), BloomsRecached bc (ids.foldl evict bc) := by
    intro ids
    induction ids with
    | nil => exact fun bc => .of_same ⟨rfl, rfl⟩
    | cons id ids ih => exact fun bc => (bloomsRecached_evict bc id).trans (ih _)
  obtain ⟨hd, hm⟩ := hfold (bc.m_cacheUsage.getLast?.getD []) bc
  exact ⟨hd, hm⟩

theorem bloomed_garbageCollect (hI : bc.TreeInv w) (hB : bc.Bloomed w) : bc.garbageCollect.Bloomed w := by
  have hR := (recached_garbageCollect bc).1
  have hC := hR.coherent hI.coherent
  have hblooms := bloomsRecached_garbageCollect bc
  refine hB.congr (hR.canonical_eq hI hC) (fun h _ => congrFun (heightOf_congr hI.coherent hC hR.detailsDB) h)
    (fun h _ => ?_) fun hv => hv.recached hblooms.1 hblooms.2
  unfold block
  rw [hC.lookup_blocks, hI.coherent.lookup_blocks, hR.blocksDB]

theorem StakeChecked.keepsBlooms {b : BlockRLP} (hS : StakeChecked w b bc bc') : KeepsBlooms w bc bc' := by
  obtain ⟨m, u, db, rfl, -⟩ := hS
  have hsame : SameBlooms bc { bc with m_blockHashes := m, m_cacheUsage := u, stateDB := db } := ⟨rfl, rfl⟩
  exact ⟨fun hB => hB.congr rfl (fun _ _ => rfl) (fun _ _ => rfl) hsame.hasBloom, hsame.covered⟩

/-! ## Insertion -/

theorem TreeInv.number_lt (hI : bc.TreeInv w) : bc.m_lastBlockNumber + 1 < 2 ^ 32 := by
  have hb := hI.bound _ hI.head_mem
  rw [← hI.head_number] at hb
  unfold c_invalidNumber at hb
  omega

theorem TreeInv.height_lt_head (hI : bc.TreeInv w) {c : H256} (hc : c ∈ bc.canonical) (hl : c ≠ bc.m_lastBlockHash) :
    bc.heightOf c < bc.m_lastBlockNumber := by
  obtain ⟨k, hk, rfl⟩ := hc
  have hheight := hI.tree.height_iterate hI.head_mem hk
  rw [← hI.head_number] at hheight
  cases k with
  | zero => exact absurd rfl hl
  | succ k => omega

theorem HasBloom.reverted (hI : bc.TreeInv w) {c : H256} (hc : c ∈ bc.canonical) {n : ℕ} (hn : n ≤ bc.heightOf c)
    {v : LogBloom} (hv : bc.HasBloom n v) : (bc.reverted c).HasBloom n v := by
  unfold BlockChain.reverted
  by_cases hl : c = bc.m_lastBlockHash
  · rw [if_neg (not_not.2 hl)]
    exact hv
  · rw [if_pos hl]
    have hlt := hI.height_lt_head hc hl
    exact hv.clearBlockBlooms (by omega) hI.number_lt (by omega)

theorem Covered.reverted (hI : bc.TreeInv w) {c : H256} (hc : c ∈ bc.canonical) (hC : bc.Covered) :
    (bc.reverted c).Covered := by
  unfold BlockChain.reverted
  by_cases hl : c = bc.m_lastBlockHash
  · rw [if_neg (not_not.2 hl)]
    exact hC
  · rw [if_pos hl]
    have hlt := hI.height_lt_head hc hl
    exact hC.clearBlockBlooms (by omega) hI.number_lt

section Insertion

variable {b : BlockRLP} {td : U256} (hI : bc.TreeInv w) (hP : Insertable w bc b) (hS : Stored bc bc' b td)

include hI hP hS

theorem Unmoved.keepsBlooms (hU : Unmoved bc bc') (hsame : SameBlooms bc bc') : KeepsBlooms w bc bc' := by
  have hrec : ∀ h ∈ bc.canonical, h ∈ bc.recorded := fun h hc => hI.tree.mem_of_mem_lineage hI.head_mem hc
  refine ⟨fun hB => ?_, hsame.covered⟩
  exact hB.congr (hU.canonical_eq hI hP hS) (fun h hc => (hS.place hI hP (hrec h hc)).2)
    (fun h hc => hS.block_eq hI hP (hrec h hc)) hsame.hasBloom

theorem Adopted.keepsBlooms {c : H256} {i j : ℕ} {bs : List BlockRLP} (hA : Adopted w bc bc' b c i j bs)
    (hsame : SameBlooms (addAllBlooms w (b :: bs) (bc.reverted c)) bc') : KeepsBlooms w bc bc' := by
  have hcl : c ∈ bc.canonical := ⟨i, hA.route.left_le, hA.route.left⟩
  refine ⟨fun hB => ?_, fun hC => hsame.covered ((hC.reverted hI hcl).addAllBlooms _)⟩
  have hincoming : ∀ x ∈ b :: bs, bc'.HasBloom (toUnsigned x.info.number) (blockBloom w.crypto x.info) :=
    fun x hx => hsame.hasBloom (hasBloom_addAllBlooms _ hx)
  intro h hc hne x hx
  rw [hA.canonical_eq hI hP hS] at hc
  rcases hc with rfl | hl
  · -- the block itself
    rw [hS.block_self hP] at hx
    cases hx
    rw [hS.heightOf_self, ← hP.toUnsigned_eq]
    exact hincoming _ List.mem_cons_self
  · have hm := hI.tree.mem_of_mem_lineage hP.parent_mem hl
    rw [hS.block_eq hI hP hm] at hx
    rw [(hS.place hI hP hm).2]
    by_cases hcan : h ∈ bc.canonical
    · -- a block that was canonical before is not above the common one
      have hle : bc.heightOf h ≤ bc.heightOf c := hA.route.height_le hI.tree hI.head_mem hcan hl
      have hbound := hI.bound h hm
      unfold c_invalidNumber at hbound
      have hkept := (hB h hcan hne x hx).reverted hI hcl hle
      exact hsame.hasBloom (hkept.addAllBlooms (by omega) _)
    · obtain ⟨hmem, rfl⟩ := hA.mem_incoming hI hP hl hcan hx
      have hnum : toUnsigned x.info.number = bc.heightOf x.info.m_hash := by
        have hn := (hA.blocks x hmem).2
        have hbound := hI.bound _ hm
        unfold c_invalidNumber at hbound
        unfold toUnsigned
        omega
      rw [← hnum]
      exact hincoming x (List.mem_cons_of_mem _ hmem)

end Insertion

theorem keepsBlooms_insertBlockAndExtras (hI : bc.TreeInv w) {vb : VerifiedBlock} (hv : vb.info = vb.block.info)
    (hP : Insertable w bc vb.block) {receipts : Bytes} {td : U256} {r : Except Exception ImportRoute}
    (h : bc.insertBlockAndExtras w vb receipts td = (r, bc')) : KeepsBlooms w bc bc' := by
  rcases insertBlockAndExtras_spec hI hv hP h with
    ⟨e, -, -, rfl⟩ | ⟨-, -, hS, hU, hsame⟩ | ⟨c, i, j, bs, -, -, hS, hA, hsame⟩
  · have hN := childNoted_addChild bc vb.info.parentHash vb.info.m_hash
    have hsame : SameBlooms bc (bc.addChild vb.info.parentHash vb.info.m_hash) := ⟨rfl, rfl⟩
    refine ⟨fun hB => hB.congr ?_ (fun h _ => congrFun hN.heightOf_eq h) (fun _ _ => rfl) hsame.hasBloom, hsame.covered⟩
    unfold canonical
    rw [hN.parentOf_eq, hN.heightOf_eq]
    rfl
  · exact hU.keepsBlooms hI hP hS hsame
  · exact hA.keepsBlooms hI hP hS hsame

theorem keepsBlooms_importBlock (hw : w.Valid) (hI : bc.ChainInv w B) {vb : VerifiedBlock} (hB : vb.block ∈ B.carrier)
    (hv : vb.info = vb.block.info) {mustBeNew : Bool} {now : ℤ} {r : Except Exception ImportRoute}
    (h : bc.importBlock w vb mustBeNew now = (r, bc')) : KeepsBlooms w bc bc' := by
  obtain ⟨bc1, hstake, hcases⟩ := importBlock_cases hw hI hv h
  have hI1 := hstake.chainInv hI
  have hK1 := hstake.keepsBlooms
  rcases hcases with ⟨e, -, rfl⟩ | ⟨-, hm, hn, -, receipts, hins⟩
  · exact hK1
  · obtain ⟨m, u, db, rfl, -⟩ := hstake
    rw [hv] at hm hn
    exact hK1.trans (keepsBlooms_insertBlockAndExtras hI1.toTreeInv hv (hI1.insertable hB hm hn) hins)

/-! ## Runs -/

theorem sameBlooms_rewind {newHead : ℕ} (hlt : newHead < bc.m_lastBlockNumber) :
    SameBlooms (bc.clearBlockBlooms (newHead + 1) ((bc.number + 1) % 2 ^ 32)) (bc.rewind w newHead) := by
  have hclear : SameBlooms (bc.clearBlockBlooms (newHead + 1) ((bc.number + 1) % 2 ^ 32))
      (bc.clearCachesDuringChainReversion (newHead + 1)) := by
    apply SameBlooms.clearBlockBlooms
    exact ⟨rfl, rfl⟩
  have htouch : ∀ bc : BlockChain, SameBlooms bc (bc.touch w (.numberHash newHead)) := by
    intro bc
    unfold touch
    split <;> exact ⟨rfl, rfl⟩
  unfold rewind
  rw [if_neg (not_le.2 hlt)]
  exact (hclear.trans (htouch _)).trans ⟨rfl, rfl⟩

/-- The blocks that stay canonical are below the entries that are cleared. -/
theorem keepsBlooms_rewind (hI : bc.ChainInv w B) {newHead : ℕ}
    (h : newHead < bc.m_lastBlockNumber →
      ∃ h ∈ bc.canonical, bc.heightOf h = newHead ∧ bc.numberHash w newHead = h) :
    KeepsBlooms w bc (bc.rewind w newHead) := by
  by_cases hlt : newHead < bc.m_lastBlockNumber
  · obtain ⟨x, hx, hht, hnum⟩ := h hlt
    obtain ⟨hS, hC⟩ := rewind_spec (w := w) bc hlt
    have hC' := hC hI.coherent
    have hstop : (bc.number + 1) % 2 ^ 32 = bc.m_lastBlockNumber + 1 := Nat.mod_eq_of_lt hI.number_lt
    have hsame := sameBlooms_rewind (w := w) hlt
    rw [hstop] at hsame
    have hrange : newHead + 1 < bc.m_lastBlockNumber + 1 := Nat.succ_lt_succ hlt
    refine ⟨fun hB y hy hne b hb => ?_, fun hcov => hsame.covered (hcov.clearBlockBlooms hrange hI.number_lt)⟩
    have hheight := heightOf_congr hI.coherent hC' hS.detailsDB
    have hlin : y ∈ lineage bc.parentOf bc.heightOf x := by
      unfold canonical at hy
      rw [parentOf_congr hI.coherent hC' hS.detailsDB, hheight, hS.m_lastBlockHash] at hy
      rw [← hnum]
      exact hy
    have hxm := hI.tree.mem_of_mem_lineage hI.head_mem hx
    have hle := hI.tree.height_le_of_mem_lineage hxm hlin
    have hyc := hI.tree.lineage_subset_of_mem hI.head_mem hx hlin
    rw [hC'.block_eq hne, hS.blocksDB] at hb
    rw [hheight]
    have hkept := hB y hyc hne b (by rw [hI.coherent.block_eq hne]; exact hb)
    exact hsame.hasBloom (hkept.clearBlockBlooms hrange hI.number_lt (by omega))
  · unfold rewind
    rw [if_pos (not_lt.1 hlt)]
    exact .refl w bc

theorem keepsBlooms_insert (hw : w.Valid) (hI : bc.ChainInv w B) {b : BlockRLP} (hB : b ∈ B.carrier) {receipts : Bytes}
    {mustBeNew : Bool} {now : ℤ} {r : Except Exception Unit}
    (h : bc.insert w b receipts mustBeNew now = (r, bc')) : KeepsBlooms w bc bc' := by
  obtain ⟨bc1, hstake, hcases⟩ := insert_cases hw hI h
  have hI1 := hstake.chainInv hI
  have hK1 := hstake.keepsBlooms
  rcases hcases with ⟨e, -, rfl⟩ | ⟨-, hm, hn, -, blooms, rfl⟩
  · exact hK1
  · obtain ⟨m, u, db, rfl, -⟩ := hstake
    have hP := hI1.insertable hB hm hn
    obtain ⟨hS, hU⟩ := insert_stored hI1 hP ((bc.details b.info.parentHash).totalDifficulty + b.info.difficulty) blooms
      receipts
    refine hK1.trans (hU.keepsBlooms hI1.toTreeInv hP hS ?_)
    unfold addChildOnce
    split <;> exact ⟨rfl, rfl⟩

/-- Every operation that keeps to the tree keeps the blooms of the canonical blocks, and all but a collection keep
level 1 above level 0. -/
theorem bloomed_step (hw : w.Valid) (hI : bc.ChainInv w B) {op : Op} (hB : op.Within B) (hF : op.Fits w bc) :
    (bc.Bloomed w → (bc.step w op).Bloomed w) ∧ (op ≠ .garbageCollect → bc.Covered → (bc.step w op).Covered) := by
  have hkeeps : op ≠ .garbageCollect → KeepsBlooms w bc (bc.step w op) := by
    intro hop
    unfold step
    cases op with
    | importBlock vb mustBeNew now => exact keepsBlooms_importBlock hw hI hB.1 hB.2 rfl
    | importUnverified b mustBeNew now =>
      rcases h : bc.importUnverified w b mustBeNew now with ⟨r, bc'⟩
      simp only [perform, h]
      rcases importUnverified_cases h with ⟨e, -, rfl⟩ | ⟨vb, rfl, hv, he⟩
      · exact .refl w _
      · exact keepsBlooms_importBlock hw hI hB hv he
    | insert b receipts mustBeNew now =>
      rcases h : bc.insert w b receipts mustBeNew now with ⟨r, bc'⟩
      simp only [perform, h]
      exact keepsBlooms_insert hw hI hB h
    | insertWithoutParent b receipts td now =>
      obtain ⟨hm, hn, hne, ht⟩ := hF
      rcases h : bc.insertWithoutParent w b receipts td now with ⟨r, bc'⟩
      simp only [perform, h]
      rcases insertWithoutParent_cases h with ⟨e, -, rfl⟩ | ⟨vb, rfl, hv, -, he⟩
      · exact .refl w _
      · exact keepsBlooms_insertBlockAndExtras hI.toTreeInv hv (hI.insertable hB hm hn) he
    | query q => exact keepsBlooms_touch hI.toTreeInv q
    | garbageCollect => exact absurd rfl hop
    | rewind newHead => exact keepsBlooms_rewind hI hF
  refine ⟨fun hbloomed => ?_, fun hop => (hkeeps hop).covered⟩
  by_cases hop : op = .garbageCollect
  · subst hop
    exact bloomed_garbageCollect hI.toTreeInv hbloomed
  · exact (hkeeps hop).bloomed hbloomed

theorem bloomed_openFresh (w : World) (genesisState : AccountTrie) :
    (openFresh w genesisState).Bloomed w ∧ (openFresh w genesisState).Covered := by
  constructor
  · intro h hc hne b hb
    have hC : (openFresh w genesisState).Coherent :=
      ⟨fun {h d} hd => ⟨d, hd, rfl⟩, fun {h b} hb => absurd hb (by simp [openFresh])⟩
    rw [hC.block_eq hne] at hb
    cases hb
  · intro n hn
    exact Bloom.contains_zero _

/-- In every run that keeps to the tree the entry of a canonical block's number has the bits of its logs and of its
author, and without collections every entry of level 1 contains those of level 0 below it. On an index like that a
search finds, among the numbers up to `latest`, those whose entry contains the bloom. -/
theorem bloomIndex_run (hw : w.Valid) (genesisState : AccountTrie) {ops : List Op}
    (hrun : StateRun.Along (step w) (fun bc op => op.Within B ∧ op.Fits w bc) (openFresh w genesisState) ops) :
    let bc := StateRun.run (step w) (openFresh w genesisState) ops
    (∀ h ∈ bc.canonical, h ≠ genesisHash w → ∃ b, bc.block w h = some b ∧
      Bloom.Contains (bc.bloomAt 0 (bc.heightOf h)) b.info.logBloom ∧
      Bloom.Contains (bc.bloomAt 0 (bc.heightOf h)) (bloomBits (w.crypto.sha3 (asBytes 20 b.info.author)))) ∧
    (.garbageCollect ∉ ops → bc.Covered) ∧
    ∀ (bc : BlockChain) (b : LogBloom) (earliest latest : ℕ), bc.Covered → latest ≤ 2 ^ 32 - 256 →
      (bc.withBlockBloom b earliest latest).Pairwise (· < ·) ∧
        ∀ n ≤ latest, n ∈ bc.withBlockBloom b earliest latest ↔ earliest ≤ n ∧ Bloom.Contains (bc.bloomAt 0 n) b := by
  intro bc
  have hstart := bloomed_openFresh w genesisState
  have hinv : bc.ChainInv w B ∧ bc.Bloomed w := by
    refine StateRun.invariant (fun bc : BlockChain => bc.ChainInv w B ∧ bc.Bloomed w) ?_
      ⟨chainInv_openFresh hw B genesisState, hstart.1⟩ hrun
    intro bc op hI hop
    exact ⟨chainInv_step hw hI.1 hop.1 hop.2, (bloomed_step hw hI.1 hop.1 hop.2).1 hI.2⟩
  refine ⟨fun h hc hne => ?_, fun hgc => ?_, fun bc b earliest latest hC hl => ?_⟩
  · obtain ⟨b, hb, -⟩ := hinv.1.block_spec hw (hinv.1.tree.mem_of_mem_lineage hinv.1.head_mem hc)
    have hread := (hinv.2 h hc hne b hb).read 0 (Nat.zero_le 1)
    rw [pow_zero, Nat.div_one, blockBloom, Bloom.contains_or_iff] at hread
    exact ⟨b, hb, hread⟩
  · have hcov : bc.ChainInv w B ∧ bc.Covered := by
      refine StateRun.invariant (fun bc : BlockChain => bc.ChainInv w B ∧ bc.Covered) ?_
        ⟨chainInv_openFresh hw B genesisState, hstart.2⟩
        (hrun.and_mem fun op hop => show op ≠ .garbageCollect from fun he => hgc (he ▸ hop))
      rintro bc op hI ⟨hop, hne⟩
      exact ⟨chainInv_step hw hI.1 hop.1 hop.2, (bloomed_step hw hI.1 hop.1 hop.2).2 hne hI.2⟩
    exact hcov.2
  · refine ⟨pairwise_withBlockBloom, fun n hn => ?_⟩
    rw [mem_withBlockBloom_of_le (by omega) hn, ← and_assoc, and_iff_left_iff_imp]
    exact fun h => (hC n (by omega)).trans h.2

open Devnet (world importOf heavy1 lightAndHeavy)

theorem bloomIndex_after_import :
    let bc := StateRun.run (step world) Devnet.genesis [importOf [heavy1], .query (.numberHash 1)]
    (∀ h ∈ bc.canonical, h ≠ genesisHash world → ∃ b, bc.block world h = some b ∧
      Bloom.Contains (bc.bloomAt 0 (bc.heightOf h)) b.info.logBloom ∧
      Bloom.Contains (bc.bloomAt 0 (bc.heightOf h)) (bloomBits (world.crypto.sha3 (asBytes 20 b.info.author)))) ∧
    bc.Covered := by
  have hrun : StateRun.Along (step world) (fun bc op => op.Within lightAndHeavy.blockSet ∧ op.Fits world bc)
      (openFresh world (Devnet.state [])) [importOf [heavy1], .query (.numberHash 1)] := by
    refine ⟨⟨(Devnet.within_importOf Devnet.heavy1_mem).1, ?_⟩, ⟨trivial, trivial⟩, trivial⟩
    change (Devnet.block [heavy1]).info.number ≠ _
    decide
  have h := bloomIndex_run Devnet.world_valid (Devnet.state []) hrun
  exact ⟨h.1, h.2.1 (by simp [importOf])⟩

/-- No bits are in an empty filter. -/
theorem not_contains_bloomBits (h : H256) : ¬Bloom.Contains 0 (bloomBits h) := by
  intro hcon
  have hone : ∀ k < 2048, BitVec.getLsbD ((1 <<< k : ℕ) : LogBloom) k = true := by
    intro k hk
    show (BitVec.ofNat 2048 (1 <<< k)).getLsbD k = true
    rw [BitVec.getLsbD_ofNat, Nat.one_shiftLeft, Nat.testBit_two_pow_self, decide_eq_true hk]
    rfl
  have hbit : BitVec.getLsbD (0 : LogBloom) (h.toNat / 2 ^ 240 % 2048) = true := by
    refine Bloom.contains_iff.1 hcon _ ?_
    unfold bloomBits
    rw [BitVec.getLsbD_or, BitVec.getLsbD_or]
    have h0 := hone (h.toNat / 2 ^ 240 % 2048) (Nat.mod_lt _ (by norm_num))
    simp only [Nat.mul_zero, Nat.sub_zero]
    rw [h0, Bool.true_or, Bool.true_or]
  exact Bool.noConfusion (hbit.symm.trans BitVec.getLsbD_zero)

/-- The genesis block is not in the index, a search up to number one finds number 256, and one up to the last number
does not find it. -/
theorem bloomIndex_fails_at_genesis :
    genesisHash world ∈ Devnet.genesis.canonical ∧
    Devnet.genesis.block world (genesisHash world) = some world.genesisBlock ∧
    ¬Bloom.Contains (Devnet.genesis.bloomAt 0 (Devnet.genesis.heightOf (genesisHash world)))
      (bloomBits (world.crypto.sha3 (asBytes 20 world.genesisBlock.info.author))) ∧
    Devnet.genesis.Covered ∧ 256 ∈ Devnet.genesis.withBlockBloom 0 0 1 ∧
    2 ^ 32 - 1 ∉ Devnet.genesis.withBlockBloom 0 0 (2 ^ 32 - 1) := by
  refine ⟨⟨0, Nat.zero_le _, rfl⟩, if_pos rfl, not_contains_bloomBits _, (bloomed_openFresh _ _).2, ?_, ?_⟩
  · rw [mem_withBlockBloom]
    exact ⟨by decide, by decide, by decide, Bloom.contains_zero _, Bloom.contains_zero _⟩
  · rw [mem_withBlockBloom]
    rintro ⟨-, hlast, -⟩
    exact absurd hlast (by decide)

end BlockChain

end Petrachor
