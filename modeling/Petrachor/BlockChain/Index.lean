import Petrachor.BlockChain.ForkChoice
import Petrachor.BlockChain.Route

/-!
# The index of the canonical chain

Number and transaction records are never deleted, and lookups are memoised. The index is right as
long as nothing memoises a record above the head, and no transaction of an abandoned block is
missing from the blocks that are adopted.
-/

namespace Petrachor

open ParentTree

namespace BlockChain

variable {w : World} {B : BlockSet w} {bc bc' : BlockChain}

/-- The canonical block `h` has a transaction of hash `t` at the index `i`. -/
def Holds (w : World) (bc : BlockChain) (t h : H256) (i : ℕ) : Prop :=
  h ∈ bc.canonical ∧ ∃ b, bc.block w h = some b ∧ (b.transactions[i]?).map w.crypto.sha3 = some t

/-- What is memoised of the numbers is canonical. -/
structure Numbered (bc : BlockChain) : Prop where
  hashes : ∀ {n h}, bc.m_blockHashes n = some h →
    n ≤ bc.m_lastBlockNumber ∧ h ∈ bc.canonical ∧ bc.heightOf h = n

/-- And the records of the transactions, memoised or not, are those of the canonical blocks. -/
structure Indexed (w : World) (bc : BlockChain) : Prop extends bc.Numbered where
  cached : ∀ {t a}, bc.m_transactionAddresses t = some a → Holds w bc t a.blockHash a.index
  located : ∀ {t a}, bc.transactionAddressDB t = some a → Holds w bc t a.blockHash a.index
  complete : ∀ {t h i}, Holds w bc t h i → (bc.transactionAddressDB t).isSome

theorem Numbered.congr (hX : bc.Numbered) (hn : bc'.m_lastBlockNumber = bc.m_lastBlockNumber)
    (hcan : bc'.canonical = bc.canonical) (hht : ∀ h ∈ bc.canonical, bc'.heightOf h = bc.heightOf h)
    (hm : ∀ {n h}, bc'.m_blockHashes n = some h → bc.m_blockHashes n = some h ∨
      (n ≤ bc.m_lastBlockNumber ∧ h ∈ bc.canonical ∧ bc.heightOf h = n)) : bc'.Numbered := by
  refine ⟨fun {n h} he => ?_⟩
  obtain ⟨h1, h2, h3⟩ := (hm he).elim hX.hashes id
  rw [hn, hcan]
  exact ⟨h1, h2, by rw [hht h h2, h3]⟩

theorem Indexed.congr (hX : bc.Indexed w) (hN : bc'.Numbered) (hcan : bc'.canonical = bc.canonical)
    (hblock : ∀ h ∈ bc.canonical, bc'.block w h = bc.block w h)
    (ht : bc'.transactionAddressDB = bc.transactionAddressDB)
    (hc : ∀ {t a}, bc'.m_transactionAddresses t = some a → bc.m_transactionAddresses t = some a ∨
      bc.transactionAddressDB t = some a) : bc'.Indexed w := by
  have hH : ∀ {t h i}, Holds w bc' t h i ↔ Holds w bc t h i := by
    intro t h i
    unfold Holds
    rw [hcan]
    exact and_congr_right fun hh => by rw [hblock h hh]
  refine ⟨hN, fun {t a} he => ?_, fun {t a} he => ?_, fun {t h i} he => ?_⟩
  · exact hH.2 ((hc he).elim hX.cached hX.located)
  · rw [ht] at he
    exact hH.2 (hX.located he)
  · rw [ht]
    exact hX.complete (hH.1 he)

/-- The record of a number up to the head's is the canonical block of that number. -/
theorem TreeInv.record_canonical (hI : bc.TreeInv w) {n : ℕ} {h : H256} (h0 : n ≠ 0)
    (hn : n ≤ bc.m_lastBlockNumber) (hr : bc.blockHashDB n = some h) :
    h ∈ bc.canonical ∧ bc.heightOf h = n := by
  rw [hI.head_number] at hn
  have hk : bc.heightOf bc.m_lastBlockHash - n ≤ bc.heightOf bc.m_lastBlockHash := Nat.sub_le _ _
  have hh := hI.tree.height_iterate hI.head_mem hk
  have hcan : bc.parentOf^[bc.heightOf bc.m_lastBlockHash - n] bc.m_lastBlockHash ∈ bc.canonical :=
    ⟨_, hk, rfl⟩
  have hrec := hI.records _ hcan (hI.tree.ne_root (by omega))
  rw [show bc.heightOf (bc.parentOf^[bc.heightOf bc.m_lastBlockHash - n] bc.m_lastBlockHash) = n by
    omega, hr] at hrec
  cases hrec
  exact ⟨hcan, by omega⟩

/-- A number is in reach of the index: it is not above the head, or there is no record of it. -/
def InReach (bc : BlockChain) (n : ℕ) : Prop := n ≤ bc.m_lastBlockNumber ∨ bc.blockHashDB n = none

theorem StakeChecked.numbered (hI : bc.TreeInv w) (hX : bc.Numbered) {b : BlockRLP}
    (hreach : ∀ n, bc.asksStake w b = some n → bc.InReach n) (hS : StakeChecked w b bc bc') :
    bc'.Numbered := by
  obtain ⟨m, u, db, rfl, hm⟩ := hS
  refine hX.congr rfl rfl (fun _ _ => rfl) fun {n h} hn => ?_
  rcases hm n h hn with hc | ⟨hask, h0, hr⟩
  · exact .inl hc
  · rcases hreach n hask with hle | hnone
    · exact .inr ⟨hle, hI.record_canonical h0 hle hr⟩
    · rw [hr] at hnone
      cases hnone

theorem StakeChecked.indexed (hI : bc.TreeInv w) (hX : bc.Indexed w) {b : BlockRLP}
    (hreach : ∀ n, bc.asksStake w b = some n → bc.InReach n) (hS : StakeChecked w b bc bc') :
    bc'.Indexed w := by
  have hN := hS.numbered hI hX.toNumbered hreach
  obtain ⟨m, u, db, rfl, -⟩ := hS
  exact hX.congr hN rfl (fun _ _ => rfl) rfl .inl

theorem numbered_touch (hI : bc.TreeInv w) (hX : bc.Numbered) {q : Query}
    (hq : ∀ n, q = .numberHash n → bc.InReach n) : (bc.touch w q).Numbered := by
  have hR := recached_touch (w := w) bc q
  have hC := hR.coherent hI.coherent
  refine hX.congr hR.m_lastBlockNumber (hR.canonical_eq hI hC)
    (fun h _ => congrFun (heightOf_congr hI.coherent hC hR.detailsDB) h) fun {n h} hn => ?_
  by_cases hqn : q = .numberHash n
  · subst hqn
    rcases hR.m_blockHashes hn with hc | hr
    · exact .inl hc
    · by_cases hc : bc.m_blockHashes n = some h
      · exact .inl hc
      · -- the entry is new, so the number is not zero
        have h0 : n ≠ 0 := by
          rintro rfl
          refine hc ?_
          unfold touch at hn
          rw [if_neg (by simp [hitsDB])] at hn
          exact hn
        rcases hq n rfl with hle | hnone
        · exact .inr ⟨hle, hI.record_canonical h0 hle hr⟩
        · rw [hr] at hnone
          cases hnone
  · left
    unfold touch at hn
    split at hn
    · cases q with
      | numberHash m =>
        rcases filled_eq_some hn with hc | ⟨rfl, -⟩
        · exact hc
        · exact absurd rfl hqn
      | block _ => exact hn
      | details _ => exact hn
      | transactionAddress _ => exact hn
      | logBlooms _ => exact hn
      | receipts _ => exact hn
      | blocksBlooms _ => exact hn
    · exact hn

theorem Recached.block_eq (hI : bc.TreeInv w) (hR : Recached bc bc') (h : H256) : bc'.block w h = bc.block w h := by
  unfold block
  rw [(hR.coherent hI.coherent).lookup_blocks, hI.coherent.lookup_blocks, hR.blocksDB]

theorem indexed_touch (hI : bc.TreeInv w) (hX : bc.Indexed w) {q : Query}
    (hq : ∀ n, q = .numberHash n → bc.InReach n) : (bc.touch w q).Indexed w := by
  have hR := recached_touch (w := w) bc q
  exact hX.congr (numbered_touch hI hX.toNumbered hq) (hR.canonical_eq hI (hR.coherent hI.coherent))
    (fun h _ => hR.block_eq hI h) hR.transactionAddressDB hR.m_transactionAddresses

theorem numbered_garbageCollect (hI : bc.TreeInv w) (hX : bc.Numbered) : bc.garbageCollect.Numbered := by
  obtain ⟨hR, hm⟩ := recached_garbageCollect bc
  have hC := hR.coherent hI.coherent
  exact hX.congr hR.m_lastBlockNumber (hR.canonical_eq hI hC)
    (fun h _ => congrFun (heightOf_congr hI.coherent hC hR.detailsDB) h) fun {n h} hn => .inl (by rw [← hm]; exact hn)

theorem indexed_garbageCollect (hI : bc.TreeInv w) (hX : bc.Indexed w) :
    bc.garbageCollect.Indexed w := by
  have hR := (recached_garbageCollect bc).1
  exact hX.congr (numbered_garbageCollect hI hX.toNumbered) (hR.canonical_eq hI (hR.coherent hI.coherent))
    (fun h _ => hR.block_eq hI h) hR.transactionAddressDB hR.m_transactionAddresses

/-! ## Insertion -/

theorem mem_locations {bs : List BlockRLP} {t : H256} {a : TransactionAddress} :
    (t, a) ∈ locations w bs ↔ ∃ x ∈ bs, a.blockHash = x.info.hash w.crypto .WithSeal ∧
      (x.transactions[a.index]?).map w.crypto.sha3 = some t := by
  simp only [locations, List.mem_flatMap, List.mem_map, Prod.mk.injEq, Option.map_eq_some_iff]
  constructor
  · rintro ⟨x, hx, ⟨d, i⟩, hd, rfl, rfl⟩
    exact ⟨x, hx, rfl, d, List.mem_zipIdx_iff_getElem?.1 hd, rfl⟩
  · rintro ⟨x, hx, ha, d, hd, rfl⟩
    exact ⟨x, hx, (d, a.index), List.mem_zipIdx_iff_getElem?.2 hd, rfl, by rw [← ha]⟩

/-- The record of a transaction after blocks became canonical: one of these blocks, or the record
before if they do not have it. -/
theorem txRecords_cases (bs : List BlockRLP) (db : H256 → Option TransactionAddress) (t : H256) :
    (∃ a, (t, a) ∈ locations w bs ∧ txRecords w bs db t = some a) ∨
      ((∀ a, (t, a) ∉ locations w bs) ∧ txRecords w bs db t = db t) := by
  rcases foldl_update Prod.fst (fun e : H256 × TransactionAddress => some e.2) t (locations w bs) db
    with ⟨⟨t', a⟩, hm, rfl, h⟩ | ⟨hnot, h⟩
  · exact .inl ⟨a, hm, h⟩
  · exact .inr ⟨fun a ha => hnot _ ha rfl, h⟩

/-- Every transaction of the canonical blocks that a block does not descend from is in the block, or
in a block that becomes canonical with it. -/
def Carried (w : World) (bc : BlockChain) (b : BlockRLP) : Prop :=
  ∀ t h i, Holds w bc t h i → h ∉ lineage bc.parentOf bc.heightOf b.info.parentHash →
    (∃ i : ℕ, (b.transactions[i]?).map w.crypto.sha3 = some t) ∨
    ∃ (h' : H256) (b' : BlockRLP) (i : ℕ), h' ∈ lineage bc.parentOf bc.heightOf b.info.parentHash ∧ h' ∉ bc.canonical ∧
      bc.block w h' = some b' ∧ (b'.transactions[i]?).map w.crypto.sha3 = some t

section Insertion

variable {b : BlockRLP} {td : U256} (hI : bc.TreeInv w) (hP : Insertable w bc b)
  (hS : Stored bc bc' b td)

include hI hP hS

theorem Stored.block_eq {h : H256} (hm : h ∈ bc.recorded) : bc'.block w h = bc.block w h := by
  by_cases hg : h = genesisHash w
  · rw [block, block, if_pos hg, if_pos hg]
  rw [hS.coherent.block_eq hg, hI.coherent.block_eq hg, hS.blocks, Function.update_apply]
  split
  · rename_i he
    subst he
    obtain ⟨x, hx, -⟩ := hI.blocks _ hm hg
    rw [hx, hP.same x hx]
  · rfl

omit hI in
theorem Stored.block_self : bc'.block w b.info.m_hash = some b := by
  rw [hS.coherent.block_eq hP.hash_ne_genesis, hS.blocks, Function.update_self]

/-- A block that stays canonical still holds its transactions. -/
theorem Stored.holds {t h : H256} {i : ℕ} (hh : Holds w bc t h i) (hcan : h ∈ bc'.canonical) :
    Holds w bc' t h i := by
  refine ⟨hcan, ?_⟩
  rw [hS.block_eq hI hP (hI.tree.mem_of_mem_lineage hI.head_mem hh.1)]
  exact hh.2

theorem Unmoved.numbered (hU : Unmoved bc bc') (hX : bc.Numbered) : bc'.Numbered := by
  refine hX.congr hU.m_lastBlockNumber (hU.canonical_eq hI hP hS)
    (fun h hc => (hS.place hI hP (hI.tree.mem_of_mem_lineage hI.head_mem hc)).2) ?_
  rw [hU.m_blockHashes]
  exact .inl

theorem Unmoved.indexed (hU : Unmoved bc bc') (hX : bc.Indexed w) : bc'.Indexed w := by
  refine hX.congr (hU.numbered hI hP hS hX.toNumbered) (hU.canonical_eq hI hP hS)
    (fun h hc => hS.block_eq hI hP (hI.tree.mem_of_mem_lineage hI.head_mem hc)) hU.transactionAddressDB ?_
  rw [hU.m_transactionAddresses]
  exact .inl

variable {c : H256} {i j : ℕ} {bs : List BlockRLP} (hA : Adopted w bc bc' b c i j bs)

include hA

/-- The blocks that come in are canonical, and found. -/
theorem Adopted.incoming {x : BlockRLP} (hx : x ∈ b :: bs) :
    x.info.hash w.crypto .WithSeal = x.info.m_hash ∧ x.info.m_hash ∈ bc'.canonical ∧
      bc'.block w x.info.m_hash = some x := by
  rw [hA.canonical_eq hI hP hS]
  rcases List.mem_cons.1 hx with rfl | hx
  · exact ⟨hash_eq hP.hash_ne_zero, .inl rfl, hS.block_self hP⟩
  · have hdb := (hA.blocks x hx).1
    obtain ⟨hm, hg⟩ := hI.block_recorded _ _ hdb
    obtain ⟨k, hk, hke⟩ := mem_path.1 (hA.hashes ▸ List.mem_map_of_mem hx)
    refine ⟨hash_eq fun h0 => hI.zero (h0 ▸ hm),
      .inr ⟨k, by have := hA.route.right_le; omega, hke⟩, ?_⟩
    rw [hS.block_eq hI hP hm, hI.coherent.block_eq hg, hdb]

omit hS in
/-- A block of the new branch that was not canonical is one of those that come in. -/
theorem Adopted.mem_incoming {h : H256} {x : BlockRLP}
    (hl : h ∈ lineage bc.parentOf bc.heightOf b.info.parentHash) (hn : h ∉ bc.canonical)
    (hx : bc.block w h = some x) : x ∈ bs ∧ x.info.m_hash = h := by
  rw [hA.route.lineage_eq hI.tree hI.head_mem hP.parent_mem] at hl
  rcases hl with ⟨hc, -⟩ | hl
  · exact absurd hc hn
  · rw [Set.mem_ofPred_eq, ← hA.hashes] at hl
    obtain ⟨y, hy, rfl⟩ := List.mem_map.1 hl
    have hdb := (hA.blocks y hy).1
    rw [hI.coherent.block_eq (hI.block_recorded _ _ hdb).2, hdb] at hx
    cases hx
    exact ⟨hy, rfl⟩

theorem Adopted.mem_locations_of_holds {t h : H256} {n : ℕ} (hh : Holds w bc' t h n)
    (hn : h ∉ bc.canonical) : ∃ a, (t, a) ∈ locations w (b :: bs) := by
  obtain ⟨hc, x, hx, ht⟩ := hh
  have hmem : x ∈ b :: bs := by
    rw [hA.canonical_eq hI hP hS] at hc
    rcases hc with rfl | hl
    · rw [hS.block_self hP] at hx
      cases hx
      exact List.mem_cons_self
    · rw [hS.block_eq hI hP (hI.tree.mem_of_mem_lineage hP.parent_mem hl)] at hx
      exact List.mem_cons_of_mem _ (hA.mem_incoming hI hP hl hn hx).1
  exact ⟨⟨x.info.hash w.crypto .WithSeal, n⟩, mem_locations.2 ⟨x, hmem, rfl, ht⟩⟩

/-- A canonical block below the common one stays. -/
theorem Adopted.mem_canonical {h : H256} (hc : h ∈ bc.canonical)
    (hle : bc.heightOf h ≤ bc.heightOf c) : h ∈ bc'.canonical := by
  have hcl : c ∈ bc.canonical := ⟨i, hA.route.left_le, hA.route.left⟩
  have hcp : c ∈ lineage bc.parentOf bc.heightOf b.info.parentHash :=
    ⟨j, hA.route.right_le, hA.route.right⟩
  rw [hA.canonical_eq hI hP hS]
  exact .inr (hI.tree.lineage_subset_of_mem hP.parent_mem hcp
    (hI.tree.mem_lineage_of_height_le hI.head_mem hc hcl hle))

theorem Adopted.numbered (hX : bc.Numbered) : bc'.Numbered := by
  have hr := hA.route
  have hci := hI.tree.height_iterate hI.head_mem hr.left_le
  have hcj := hI.tree.height_iterate hP.parent_mem hr.right_le
  rw [hr.left] at hci
  rw [hr.right] at hcj
  have hnum := hI.head_number
  have hnum' := hA.number
  refine ⟨fun {n h} he => ?_⟩
  -- only entries up to the common block are left
  rw [hA.records.m_blockHashes] at he
  have hold : bc.m_blockHashes n = some h ∧ n ≤ bc.heightOf c := by
    split at he
    · rename_i hcl
      refine ⟨he, ?_⟩
      rw [hcl, ← hnum]
      exact (hX.hashes he).1
    · dsimp only at he
      split at he
      · cases he
      · rename_i hnot
        have := (hX.hashes he).1
        exact ⟨he, by omega⟩
  obtain ⟨h1, h2, h3⟩ := hX.hashes hold.1
  refine ⟨by omega, hA.mem_canonical hI hP hS h2 (by omega), ?_⟩
  rw [(hS.place hI hP (hI.tree.mem_of_mem_lineage hI.head_mem h2)).2, h3]

theorem Adopted.indexed (hX : bc.Indexed w)
    (hcar : bc.m_lastBlockHash ∉ lineage bc.parentOf bc.heightOf b.info.parentHash →
      Carried w bc b) : bc'.Indexed w := by
  refine ⟨hA.numbered hI hP hS hX.toNumbered, fun {t a} he => ?_, fun {t a} he => ?_, fun {t h n} hh => ?_⟩
  · rw [hA.records.m_transactionAddresses] at he
    split at he
    · rename_i hcl
      have hh := hX.cached he
      refine hS.holds hI hP hh (hA.mem_canonical hI hP hS hh.1 ?_)
      rw [hcl]
      exact hI.tree.height_le_of_mem_lineage hI.head_mem hh.1
    · cases he
  · rw [hA.records.transactionAddressDB] at he
    rcases txRecords_cases (w := w) (b :: bs) bc.transactionAddressDB t with
      ⟨a', ha', h⟩ | ⟨hnot, h⟩
    · rw [h] at he
      cases he
      obtain ⟨x, hx, hhash, ht⟩ := mem_locations.1 ha'
      obtain ⟨h1, h2, h3⟩ := hA.incoming hI hP hS hx
      rw [hhash, h1]
      exact ⟨h2, x, h3, ht⟩
    · rw [h] at he
      have hh := hX.located he
      refine hS.holds hI hP hh ?_
      by_contra hgone
      -- the block is abandoned, so its transactions were carried over
      have hnl : a.blockHash ∉ lineage bc.parentOf bc.heightOf b.info.parentHash := by
        intro hl
        rw [hA.canonical_eq hI hP hS] at hgone
        exact hgone (.inr hl)
      have hhead : bc.m_lastBlockHash ∉ lineage bc.parentOf bc.heightOf b.info.parentHash :=
        fun hl => hnl (hI.tree.lineage_subset_of_mem hP.parent_mem hl hh.1)
      rcases hcar hhead t _ _ hh hnl with ⟨n, ht⟩ | ⟨h', x, n, hl, hn, hx, ht⟩
      · exact hnot ⟨b.info.hash w.crypto .WithSeal, n⟩
          (mem_locations.2 ⟨b, List.mem_cons_self, rfl, ht⟩)
      · obtain ⟨hxm, rfl⟩ := hA.mem_incoming hI hP hl hn hx
        exact hnot ⟨x.info.hash w.crypto .WithSeal, n⟩
          (mem_locations.2 ⟨x, List.mem_cons_of_mem _ hxm, rfl, ht⟩)
  · rw [hA.records.transactionAddressDB]
    rcases txRecords_cases (w := w) (b :: bs) bc.transactionAddressDB t with
      ⟨a', -, hrec⟩ | ⟨hnot, hrec⟩
    · rw [hrec]
      rfl
    · rw [hrec]
      by_cases hc : h ∈ bc.canonical
      · refine hX.complete (h := h) (i := n) ⟨hc, ?_⟩
        rw [← hS.block_eq hI hP (hI.tree.mem_of_mem_lineage hI.head_mem hc)]
        exact hh.2
      · obtain ⟨a', ha'⟩ := hA.mem_locations_of_holds hI hP hS hh hc
        exact absurd ha' (hnot a')

end Insertion

theorem ChildNoted.canonical_eq {p : H256} (hN : ChildNoted bc bc' p)
    (hlast : bc'.m_lastBlockHash = bc.m_lastBlockHash) :
    bc'.canonical = bc.canonical := by
  unfold canonical
  rw [hN.parentOf_eq, hN.heightOf_eq, hlast]

theorem numbered_insertBlockAndExtras (hI : bc.TreeInv w) (hX : bc.Numbered) {vb : VerifiedBlock}
    (hv : vb.info = vb.block.info) (hP : Insertable w bc vb.block) {receipts : Bytes} {td : U256}
    {r : Except Exception ImportRoute} (h : bc.insertBlockAndExtras w vb receipts td = (r, bc')) :
    bc'.Numbered := by
  rcases insertBlockAndExtras_cases hI hv hP h with
    ⟨e, -, -, rfl⟩ | ⟨-, -, hS, hU⟩ | ⟨c, i, j, bs, -, -, hS, hA⟩
  · have hN := childNoted_addChild bc vb.info.parentHash vb.info.m_hash
    exact hX.congr rfl (hN.canonical_eq rfl) (fun h _ => congrFun hN.heightOf_eq h) .inl
  · exact hU.numbered hI hP hS hX
  · exact hA.numbered hI hP hS hX

theorem indexed_insertBlockAndExtras (hI : bc.TreeInv w) (hX : bc.Indexed w) {vb : VerifiedBlock}
    (hv : vb.info = vb.block.info) (hP : Insertable w bc vb.block) {receipts : Bytes} {td : U256}
    (hcar : Abandons w bc vb.block.info td → Carried w bc vb.block)
    {r : Except Exception ImportRoute} (h : bc.insertBlockAndExtras w vb receipts td = (r, bc')) :
    bc'.Indexed w := by
  have hnumbered := numbered_insertBlockAndExtras hI hX.toNumbered hv hP h
  rcases insertBlockAndExtras_cases hI hv hP h with
    ⟨e, -, -, rfl⟩ | ⟨-, -, hS, hU⟩ | ⟨c, i, j, bs, -, hb, hS, hA⟩
  · have hN := childNoted_addChild bc vb.info.parentHash vb.info.m_hash
    exact hX.congr hnumbered (hN.canonical_eq rfl) (fun _ _ => rfl) rfl .inl
  · exact hU.indexed hI hP hS hX
  · rw [hv] at hb
    exact hA.indexed hI hP hS hX fun hl => hcar ⟨hb, hl⟩

/-! ## Runs -/

/-- An import of the block leaves the index right: its stake is asked for at a number in reach, and
if it makes the chain abandon blocks, their transactions are carried over. -/
def KeepsIndex (w : World) (bc : BlockChain) (b : BlockRLP) : Prop :=
  (∀ n, bc.asksStake w b = some n → bc.InReach n) ∧
    (Abandons w bc b.info ((bc.details b.info.parentHash).totalDifficulty + b.info.difficulty) →
      Carried w bc b)

/-- The operation leaves the index right. -/
def Op.KeepsIndex (w : World) (bc : BlockChain) : Op → Prop
  | .importBlock vb _ _ => BlockChain.KeepsIndex w bc vb.block
  | .importUnverified b _ _ => BlockChain.KeepsIndex w bc b
  | .query (.numberHash n) => bc.InReach n
  | _ => True

/-- The operation asks for no number out of reach. -/
def Op.Reaches (w : World) (bc : BlockChain) : Op → Prop
  | .importBlock vb _ _ => ∀ n, bc.asksStake w vb.block = some n → bc.InReach n
  | .importUnverified b _ _ => ∀ n, bc.asksStake w b = some n → bc.InReach n
  | .query (.numberHash n) => bc.InReach n
  | _ => True

/-- An import keeps what the check of the stake keeps, and the insertion. -/
theorem importBlock_keeps {P : BlockChain → Prop} (hw : w.Valid) (hI : bc.ChainInv w B) {vb : VerifiedBlock}
    (hB : vb.block ∈ B.carrier) (hv : vb.info = vb.block.info)
    (hstake : ∀ bc1, StakeChecked w vb.block bc bc1 → P bc1)
    (hinsert : ∀ bc1 receipts r bc2, StakeChecked w vb.block bc bc1 → bc1.TreeInv w → Insertable w bc1 vb.block →
      P bc1 → bc1.insertBlockAndExtras w vb receipts
        ((bc.details vb.block.info.parentHash).totalDifficulty + vb.block.info.difficulty) = (r, bc2) → P bc2)
    {mustBeNew : Bool} {now : ℤ} {r : Except Exception ImportRoute}
    (h : bc.importBlock w vb mustBeNew now = (r, bc')) : P bc' := by
  obtain ⟨bc1, hS, hcases⟩ := importBlock_cases hw hI hv h
  have hI1 := hS.chainInv hI
  have hP1 := hstake bc1 hS
  rcases hcases with ⟨e, rfl, rfl⟩ | ⟨-, hm, hn, -, receipts, hins⟩
  · exact hP1
  · have hplace : Insertable w bc1 vb.block := by
      obtain ⟨m, u, db, rfl, -⟩ := hS
      rw [hv] at hm hn
      exact hI1.insertable hB hm hn
    rw [hv] at hins
    exact hinsert bc1 receipts r bc' hS hI1.toTreeInv hplace hP1 hins

theorem numbered_importBlock (hw : w.Valid) (hI : bc.ChainInv w B) (hX : bc.Numbered)
    {vb : VerifiedBlock} (hB : vb.block ∈ B.carrier) (hv : vb.info = vb.block.info)
    (hreach : ∀ n, bc.asksStake w vb.block = some n → bc.InReach n)
    {mustBeNew : Bool} {now : ℤ} {r : Except Exception ImportRoute}
    (h : bc.importBlock w vb mustBeNew now = (r, bc')) : bc'.Numbered :=
  importBlock_keeps hw hI hB hv (fun _ hS => hS.numbered hI.toTreeInv hX hreach)
    (fun _ _ _ _ _ hI1 hP hX1 hins => numbered_insertBlockAndExtras hI1 hX1 hv hP hins) h

theorem indexed_importBlock (hw : w.Valid) (hI : bc.ChainInv w B) (hX : bc.Indexed w)
    {vb : VerifiedBlock} (hB : vb.block ∈ B.carrier) (hv : vb.info = vb.block.info)
    (hK : KeepsIndex w bc vb.block)
    {mustBeNew : Bool} {now : ℤ} {r : Except Exception ImportRoute}
    (h : bc.importBlock w vb mustBeNew now = (r, bc')) : bc'.Indexed w := by
  refine importBlock_keeps hw hI hB hv (fun _ hS => hS.indexed hI.toTreeInv hX hK.1)
    (fun bc1 receipts r bc2 hS hI1 hP hX1 hins => ?_) h
  obtain ⟨m, u, db, rfl, -⟩ := hS
  exact indexed_insertBlockAndExtras hI1 hX1 hv hP hK.2 hins

/-- Imports, queries and collections keep what every import of a block keeps, and every lookup. -/
theorem step_keeps {P : BlockChain → Prop} {op : Op} (hB : op.Within B) (hop : op.IsImport) (hsame : P bc)
    (himport : ∀ vb mustBeNew now r bc', vb.block ∈ B.carrier → vb.info = vb.block.info →
      (op = .importBlock vb mustBeNew now ∨ op = .importUnverified vb.block mustBeNew now) →
        bc.importBlock w vb mustBeNew now = (r, bc') → P bc')
    (htouch : ∀ q, op = .query q → P (bc.touch w q)) (hgc : P bc.garbageCollect) : P (bc.step w op) := by
  unfold step
  cases op with
  | importBlock vb mustBeNew now => exact himport vb mustBeNew now _ _ hB.1 hB.2 (.inl rfl) rfl
  | importUnverified b mustBeNew now =>
    rcases h : bc.importUnverified w b mustBeNew now with ⟨r, bc'⟩
    simp only [perform, h]
    rcases importUnverified_cases h with ⟨e, -, rfl⟩ | ⟨vb, rfl, hv, he⟩
    · exact hsame
    · exact himport vb mustBeNew now r bc' hB hv (.inr rfl) he
  | query q => exact htouch q rfl
  | garbageCollect => exact hgc
  | insert => exact hop.elim
  | insertWithoutParent => exact hop.elim
  | rewind => exact hop.elim

theorem numbered_step (hw : w.Valid) (hI : bc.ChainInv w B) (hX : bc.Numbered) {op : Op}
    (hB : op.Within B) (hop : op.IsImport) (hreach : op.Reaches w bc) : (bc.step w op).Numbered := by
  refine step_keeps hB hop hX (fun vb mustBeNew now r bc' hvB hv heq h => ?_) (fun q hq => ?_)
    (numbered_garbageCollect hI.toTreeInv hX)
  · refine numbered_importBlock hw hI hX hvB hv ?_ h
    rcases heq with rfl | rfl <;> exact hreach
  · subst hq
    refine numbered_touch hI.toTreeInv hX fun n hn => ?_
    subst hn
    exact hreach

theorem indexed_step (hw : w.Valid) (hI : bc.ChainInv w B) (hX : bc.Indexed w) {op : Op}
    (hB : op.Within B) (hop : op.IsImport) (hK : op.KeepsIndex w bc) : (bc.step w op).Indexed w := by
  refine step_keeps hB hop hX (fun vb mustBeNew now r bc' hvB hv heq h => ?_) (fun q hq => ?_)
    (indexed_garbageCollect hI.toTreeInv hX)
  · refine indexed_importBlock hw hI hX hvB hv ?_ h
    rcases heq with rfl | rfl <;> exact hK
  · subst hq
    refine indexed_touch hI.toTreeInv hX fun n hn => ?_
    subst hn
    exact hK

theorem numbered_openFresh (w : World) (genesisState : AccountTrie) : (openFresh w genesisState).Numbered :=
  ⟨fun h => absurd h (by simp [openFresh])⟩

theorem indexed_openFresh (hw : w.Valid) (B : BlockSet w) (genesisState : AccountTrie) :
    (openFresh w genesisState).Indexed w := by
  refine ⟨numbered_openFresh w genesisState, fun h => absurd h (by simp [openFresh]),
    fun h => absurd h (by simp [openFresh]), fun {t h i} hh => ?_⟩
  -- the genesis block is the only one, and has no transactions
  have hI := chainInv_openFresh hw B genesisState
  obtain ⟨hc, b, hb, ht⟩ := hh
  have hm := hI.tree.mem_of_mem_lineage hI.head_mem hc
  by_cases hg : h = genesisHash w
  · rw [block, if_pos hg] at hb
    cases hb
    rw [hw.transactions] at ht
    simp at ht
  · obtain ⟨x, hx, -⟩ := hI.blocks h hm hg
    exact absurd hx (by simp [openFresh])

theorem Numbered.numberHash_eq (hI : bc.ChainInv w B) (hX : bc.Numbered) {n : ℕ} (hn : n ≤ bc.number) :
    ∃ h ∈ bc.canonical, bc.heightOf h = n ∧ bc.numberHash w n = h := by
  by_cases h0 : n = 0
  · subst h0
    exact ⟨genesisHash w, hI.tree.root_mem_lineage hI.head_mem, hI.tree.height_root,
      if_pos rfl⟩
  · rw [numberHash, if_neg h0, lookup]
    cases hc : bc.m_blockHashes n with
    | some h =>
      obtain ⟨-, h2, h3⟩ := hX.hashes hc
      exact ⟨h, h2, h3, rfl⟩
    | none =>
      have hn' : n ≤ bc.heightOf bc.m_lastBlockHash := by rw [← hI.head_number]; exact hn
      have hk := Nat.sub_le (bc.heightOf bc.m_lastBlockHash) n
      have hht := hI.tree.height_iterate hI.head_mem hk
      have hrec := hI.records _ ⟨_, hk, rfl⟩ (hI.tree.ne_root (by omega))
      refine ⟨_, ⟨_, hk, rfl⟩, by omega, ?_⟩
      rw [show bc.heightOf (bc.parentOf^[bc.heightOf bc.m_lastBlockHash - n]
        bc.m_lastBlockHash) = n by omega] at hrec
      simp [hrec]

/-- What the index answers. -/
theorem Indexed.answers (hI : bc.ChainInv w B) (hX : bc.Indexed w) :
    (∀ n ≤ bc.number, ∃ h ∈ bc.canonical, bc.heightOf h = n ∧ bc.numberHash w n = h) ∧
    (∀ t h i, Holds w bc t h i → bc.isKnownTransaction t = true ∧
      Holds w bc t (bc.transactionLocation t).1 (bc.transactionLocation t).2) ∧
    ∀ t, (∀ h i, ¬Holds w bc t h i) →
      bc.isKnownTransaction t = false ∧ bc.transactionLocation t = (0, 0) := by
  have hne : ∀ {t h i}, Holds w bc t h i → h ≠ 0 := fun hh h0 =>
    hI.zero (h0 ▸ hI.tree.mem_of_mem_lineage hI.head_mem hh.1)
  have hlook : ∀ {t a}, lookup bc.m_transactionAddresses bc.transactionAddressDB t = some a →
      Holds w bc t a.blockHash a.index := by
    intro t a ha
    cases hc : bc.m_transactionAddresses t with
    | none =>
      rw [lookup, hc] at ha
      exact hX.located ha
    | some a' =>
      rw [lookup, hc] at ha
      cases ha
      exact hX.cached hc
  refine ⟨fun n hn => hX.toNumbered.numberHash_eq hI hn, fun t h i hh => ?_, fun t hnone => ?_⟩
  · obtain ⟨a, ha⟩ : ∃ a, lookup bc.m_transactionAddresses bc.transactionAddressDB t = some a := by
      obtain ⟨a, ha⟩ := Option.isSome_iff_exists.1 (hX.complete hh)
      cases hc : bc.m_transactionAddresses t with
      | none => exact ⟨a, by simp [lookup, hc, ha]⟩
      | some a' => exact ⟨a', by simp [lookup, hc]⟩
    have hh' := hlook ha
    have hta : bc.transactionAddress t = a := by rw [transactionAddress, ha]; rfl
    rw [isKnownTransaction, transactionLocation, hta, if_neg (hne hh')]
    exact ⟨decide_eq_true (hne hh'), hh'⟩
  · have hta : bc.transactionAddress t = NullTransactionAddress := by
      rw [transactionAddress]
      cases ha : lookup bc.m_transactionAddresses bc.transactionAddressDB t with
      | none => rfl
      | some a => exact absurd (hlook ha) (hnone _ _)
    rw [isKnownTransaction, transactionLocation, hta]
    exact ⟨rfl, rfl⟩

end BlockChain

/-! ## The index on the development network -/

namespace Devnet

open BlockChain

variable {F : Branches} {bc : BlockChain} {s : BlockChain × List BlockRLP}

/-- The blocks of the network have no transactions. -/
theorem Mined.not_holds (hM : Mined F bc) {t h : H256} {i : ℕ} : ¬Holds world bc t h i := by
  rintro ⟨hc, b, hb, ht⟩
  obtain ⟨l, hl, rfl⟩ := hM.exists_way (hM.tree.mem_of_mem_lineage hM.head_mem hc)
  rw [hM.block_eq hl (hM.tree.mem_of_mem_lineage hM.head_mem hc), Option.some.injEq] at hb
  rw [← hb] at ht
  cases l <;> simp [block, world] at ht

/-- A block on one of the first numbers has its stake looked up at the genesis block. -/
theorem Mined.keepsIndex (hM : Mined F bc) {m : Move} {l : List Move} (hl : m :: l ∈ F.ways)
    (hm : hash l ∈ bc.recorded) (hlen : l.length ≤ 255) : KeepsIndex world bc (block (m :: l)) := by
  refine ⟨fun n hn => .inl ?_, fun _ t h i hh => absurd hh hM.not_holds⟩
  rw [asksStake_eq (F.sound hl) (hM.block_eq (F.tail_mem hl) hm), Option.some.injEq] at hn
  omega

/-- A chain of the network with its index. -/
structure Kept (F : Branches) (s : BlockChain × List BlockRLP) : Prop extends Grown F s where
  indexed : s.1.Indexed world

theorem kept_genesis (F : Branches) : Kept F (genesis, []) :=
  ⟨grown_genesis F, indexed_openFresh world_valid F.blockSet (state [])⟩

theorem Kept.importBlock (hF : ∀ l ∈ F.ways, weight l < 2 ^ 256) (hK : Kept F s) {m : Move}
    {l : List Move} (hl : m :: l ∈ F.ways) (hm : l = [] ∨ block l ∈ s.2)
    (hnew : block (m :: l) ∉ s.2) (h0 : m.stake = 0) (hlen : l.length ≤ 255) {now : ℤ}
    (hnow : (timestamp (m :: l) : ℤ) ≤ now) {r : Except Exception ImportRoute} {bc' : BlockChain}
    (h : s.1.importBlock world (verified (m :: l)) true now = (r, bc')) :
    Kept F (bc', s.2 ++ [block (m :: l)]) := by
  have hne : l.length + 1 ≠ c_invalidNumber := by
    unfold c_invalidNumber
    omega
  obtain ⟨route, -, bc2, himp, hG', -⟩ := hK.toGrown.importBlock hF hl hm hnew h0 hne hnow
  rw [h] at himp
  cases himp
  have hm' := (hK.recorded_iff (F.tail_mem hl)).2 hm
  exact ⟨hG', indexed_importBlock world_valid hK.mined.toChainInv hK.indexed ⟨m, l, hl, rfl⟩ rfl
    (hK.mined.keepsIndex hl hm' hlen) h⟩

theorem light_eq (n : ℕ) : ∃ m, light (n + 1) = m :: light n ∧ m.stake = 0 := ⟨_, rfl, rfl⟩

/-- A chain of the first light blocks. -/
theorem Kept.importLight {n : ℕ} {bs : List BlockRLP} (hK : Kept lightAndHeavy (bc, bs))
    (hn : n ≤ 255) (hm : n = 0 ∨ block (light n) ∈ bs) (hnew : block (light (n + 1)) ∉ bs) :
    ∃ r bc', bc.importBlock world (verified (light (n + 1))) true (2 ^ 62) = (r, bc') ∧
      Kept lightAndHeavy (bc', bs ++ [block (light (n + 1))]) := by
  have hl : light (n + 1) ∈ lightAndHeavy.ways := light_mem (by omega)
  obtain ⟨m, he, h0⟩ := light_eq n
  rw [he] at hl hnew ⊢
  rcases h : bc.importBlock world (verified (m :: light n)) true (2 ^ 62) with ⟨r, bc'⟩
  refine ⟨r, bc', rfl, hK.importBlock weight_lt hl (hm.imp_left ?_) hnew h0 (by rw [length_light]; exact hn)
    (timestamp_le _ hl) h⟩
  rintro rfl
  rfl

/-- A query leaves a chain of the network. -/
theorem Grown.touch (hF : ∀ l ∈ F.ways, weight l < 2 ^ 256) (hG : Grown F s) (q : Query) :
    Grown F (s.1.touch world q, s.2) := by
  have hB : (Op.query q).Within F.blockSet := trivial
  have hchoice := forkChoice_arrive world_valid (totalDifficulty_lt hF) hG.choice hB trivial trivial
  refine ⟨⟨(recached_touch s.1 q).chainInv hG.mined.toChainInv, fun {l} hl hm => ?_⟩, hchoice⟩
  have hR := recached_touch (w := world) s.1 q
  have hm' : hash l ∈ s.1.recorded := by
    unfold recorded at hm ⊢
    rw [← hR.detailsDB]
    exact hm
  rw [← hG.mined.stateDB_eq hl hm']
  unfold BlockChain.touch
  split
  · cases q <;> rfl
  · rfl

/-- Two light blocks are left for one heavy block: the record of the second number is still there. -/
theorem forked : ∃ bc1 bc2 bc3 r1 r2 r3,
    genesis.importBlock world (verified (light 1)) true (2 ^ 62) = (r1, bc1) ∧
    bc1.importBlock world (verified (light 2)) true (2 ^ 62) = (r2, bc2) ∧
    bc2.importBlock world (verified [heavy1]) true (2 ^ 62) = (r3, bc3) ∧
    Kept lightAndHeavy (bc3, [block (light 1), block (light 2), block [heavy1]]) ∧
    bc3.m_lastBlockHash = hash [heavy1] ∧ bc3.m_lastBlockNumber = 1 ∧
    bc3.blockHashDB 2 = some (hash (light 2)) ∧ bc3.m_blockHashes 2 = none := by
  have hl1 : light 1 ∈ lightAndHeavy.ways := light_mem (by norm_num)
  have hl2 : light 2 ∈ lightAndHeavy.ways := light_mem (by norm_num)
  have h12 : block (light 2) ≠ block (light 1) := fun he =>
    absurd (light_inj (block_inj hl2 hl1 he)) (by norm_num)
  have hheavy : ∀ n < 2 ^ 32, block [heavy1] ≠ block (light n) := fun n hn he =>
    heavy_ne_light (.inl rfl) _ _ (block_inj heavy1_mem (light_mem hn) he)
  obtain ⟨r1, bc1, himp1, hK1⟩ := (kept_genesis lightAndHeavy).importLight (n := 0) (by norm_num)
    (.inl rfl) (by simp)
  obtain ⟨r2, bc2, himp2, hK2⟩ := hK1.importLight (n := 1) (by norm_num) (.inr (by simp))
    (by simpa using h12)
  rw [List.nil_append, List.singleton_append] at hK2
  have hnew : block [heavy1] ∉ [block (light 1), block (light 2)] := by
    simp only [List.mem_cons, List.not_mem_nil, or_false, not_or]
    exact ⟨hheavy 1 (by norm_num), hheavy 2 (by norm_num)⟩
  obtain ⟨r3, bc2', bc3, himp3, -, hstake, -, hM2', hP, hins⟩ := hK2.toGrown.importBlock weight_lt
    heavy1_mem (.inl rfl) hnew rfl (by decide) (timestamp_le _ heavy1_mem)
  have hK3 := hK2.importBlock weight_lt heavy1_mem (.inl rfl) hnew rfl (by simp)
    (timestamp_le _ heavy1_mem) himp3
  refine ⟨bc1, bc2, bc3, r1, r2, _, himp1, himp2, himp3, hK3, ?_⟩
  -- the head, before and after
  have hmem2 : hash (light 2) ∈ bc2.recorded := (hK2.recorded_iff hl2).2 (.inr (by simp))
  have hhead2 : bc2.m_lastBlockHash = hash (light 2) := by
    refine hK2.head_eq hl2 hmem2 fun l' hl' hm' hw => ?_
    rw [weight_light] at hw
    rcases (hK2.recorded_iff hl').1 hm' with rfl | hb
    · exact absurd hw (by decide)
    · simp only [List.mem_cons, List.not_mem_nil, or_false] at hb
      rcases hb with hb | hb
      · rw [block_inj hl' hl1 hb, weight_light] at hw
        omega
      · exact block_inj hl' hl2 hb
  have hrec2 : bc2.blockHashDB 2 = some (hash (light 2)) := by
    have hcan : hash (light 2) ∈ bc2.canonical := ⟨0, Nat.zero_le _, hhead2⟩
    have hrec := hK2.mined.records _ hcan (hash_ne_genesis (lightAndHeavy.sound hl2))
    rw [hK2.mined.heightOf_eq hl2 hmem2, length_light] at hrec
    exact hrec
  have hmem3 : hash [heavy1] ∈ bc3.recorded := (hK3.recorded_iff heavy1_mem).2 (.inr (by simp))
  have hhead3 : bc3.m_lastBlockHash = hash [heavy1] := by
    refine hK3.head_eq heavy1_mem hmem3 fun l' hl' hm' hw => ?_
    rw [show weight [heavy1] = 1073741825 by decide] at hw
    rcases (hK3.recorded_iff hl').1 hm' with rfl | hb
    · exact absurd hw (by decide)
    · simp only [List.cons_append, List.nil_append, List.mem_cons, List.not_mem_nil, or_false] at hb
      rcases hb with hb | hb | hb
      · rw [block_inj hl' hl1 hb, weight_light] at hw
        omega
      · rw [block_inj hl' hl2 hb, weight_light] at hw
        omega
      · exact block_inj hl' heavy1_mem hb
  have hnum3 : bc3.m_lastBlockNumber = 1 := by
    rw [hK3.mined.head_number, hhead3, hK3.mined.heightOf_eq heavy1_mem hmem3]
    rfl
  refine ⟨hhead3, hnum3, ?_, ?_⟩
  · have hsame : bc2'.blockHashDB = bc2.blockHashDB := by
      obtain ⟨m, u, db, rfl, -⟩ := hstake
      rfl
    rw [← hrec2, ← hsame]
    rcases insertBlockAndExtras_cases hM2'.toTreeInv rfl hP hins with
      ⟨e, -, he, -⟩ | ⟨-, -, -, hU⟩ | ⟨c, i, j, bs, -, -, -, hA⟩
    · cases he
    · rw [hU.blockHashDB]
    · -- the genesis block is the parent, so no other block comes in
      have hj : j = 0 := by
        have h1 := hA.route.right_le
        rw [show (verified [heavy1]).block.info.parentHash = genesisHash world from rfl,
          hM2'.tree.height_root] at h1
        omega
      subst hj
      obtain rfl : bs = [] := List.map_eq_nil_iff.1 hA.hashes
      rw [hA.records.blockHashDB, numberRecords, List.foldl_cons, List.foldl_nil, if_pos (by decide),
        show (verified [heavy1]).block.info.number.toNat = 1 from rfl,
        Function.update_of_ne (by norm_num)]
  · cases hc : bc3.m_blockHashes 2 with
    | none => rfl
    | some h =>
      have := (hK3.indexed.hashes hc).1
      rw [show (bc3, [block (light 1), block (light 2)] ++ [block [heavy1]]).1.m_lastBlockNumber = 1
        from hnum3] at this
      omega

end Devnet

namespace BlockChain

variable {w : World} {B : BlockSet w}

/-- In every run of imports, queries and collections whose steps leave the index right, it is. -/
theorem index_coherent (hw : w.Valid) (genesisState : AccountTrie) {ops : List Op}
    (hrun : StateRun.Along (step w) (fun bc op => op.Within B ∧ op.IsImport ∧ op.Fits w bc ∧
      op.KeepsIndex w bc) (openFresh w genesisState) ops) :
    let bc := StateRun.run (step w) (openFresh w genesisState) ops
    (∀ n ≤ bc.number, ∃ h ∈ bc.canonical, bc.heightOf h = n ∧ bc.numberHash w n = h) ∧
    (∀ t h i, Holds w bc t h i → bc.isKnownTransaction t = true ∧
      Holds w bc t (bc.transactionLocation t).1 (bc.transactionLocation t).2) ∧
    ∀ t, (∀ h i, ¬Holds w bc t h i) →
      bc.isKnownTransaction t = false ∧ bc.transactionLocation t = (0, 0) := by
  intro bc
  have hinv : bc.ChainInv w B ∧ bc.Indexed w :=
    StateRun.invariant (fun bc : BlockChain => bc.ChainInv w B ∧ bc.Indexed w)
      (fun _ _ hX hP => ⟨chainInv_step hw hX.1 hP.1 hP.2.2.1,
        indexed_step hw hX.1 hX.2 hP.1 hP.2.1 hP.2.2.2⟩)
      ⟨chainInv_openFresh hw B genesisState, indexed_openFresh hw B genesisState⟩ hrun
  exact hinv.2.answers hinv.1

open Devnet (world genesis importOf light heavy1 heavy2 lightAndHeavy)

theorem index_coherent_after_import :
    let bc := StateRun.run (step world) genesis [importOf [heavy1], .query (.numberHash 1),
      .garbageCollect]
    ∀ n ≤ bc.number, ∃ h ∈ bc.canonical, bc.heightOf h = n ∧ bc.numberHash world n = h := by
  obtain ⟨route, -, bc1, himp, hG, -⟩ := (Devnet.grown_genesis lightAndHeavy).importBlock
    Devnet.weight_lt Devnet.heavy1_mem (.inl rfl) (by simp) rfl (by decide)
    (Devnet.timestamp_le _ Devnet.heavy1_mem)
  have hmem : Devnet.hash [heavy1] ∈ bc1.recorded :=
    (hG.recorded_iff Devnet.heavy1_mem).2 (.inr (by simp))
  have hhead : bc1.m_lastBlockHash = Devnet.hash [heavy1] := by
    refine hG.head_eq Devnet.heavy1_mem hmem fun l' hl' hm' hw => ?_
    rcases (hG.recorded_iff hl').1 hm' with rfl | hb
    · exact absurd hw (by decide)
    · exact Devnet.block_inj hl' Devnet.heavy1_mem (by simpa using hb)
  have hreach : bc1.InReach 1 := by
    left
    have hnum := hG.mined.head_number
    simp only [hhead] at hnum
    rw [hnum, hG.mined.heightOf_eq Devnet.heavy1_mem hmem]
    exact le_rfl
  have hstep : step world (openFresh world (Devnet.state [])) (importOf [heavy1]) = bc1 :=
    congrArg Prod.snd himp
  have hM := Devnet.mined_genesis lightAndHeavy
  have hrun : StateRun.Along (step world) (fun bc op => op.Within lightAndHeavy.blockSet ∧
      op.IsImport ∧ op.Fits world bc ∧ op.KeepsIndex world bc) (openFresh world (Devnet.state []))
      [importOf [heavy1], .query (.numberHash 1), .garbageCollect] := by
    refine ⟨⟨(Devnet.within_importOf Devnet.heavy1_mem).1, trivial, ?_, ?_⟩,
      ⟨trivial, trivial, trivial, ?_⟩, ⟨trivial, trivial, trivial, trivial⟩, trivial⟩
    · change (Devnet.block [heavy1]).info.number ≠ _
      decide
    · exact hM.keepsIndex Devnet.heavy1_mem hM.tree.root_mem (by simp)
    · rw [hstep]
      exact hreach
  exact (index_coherent Devnet.world_valid (Devnet.state []) hrun).1

/-- A record above the head is memoised when it is asked for, and is still there when the chain comes
to have another block at that number. -/
theorem index_fails_above_head :
    let ops := [importOf (light 1), importOf (light 2), importOf [heavy1], .query (.numberHash 2),
      importOf [heavy2, heavy1]]
    let bc := StateRun.run (step world) genesis ops
    (∀ op ∈ ops, op.Within lightAndHeavy.blockSet ∧ op.IsImport) ∧
    (∀ b ∈ lightAndHeavy.blockSet.carrier, ∃ bytes, BlockRLP.ofBytes world.crypto bytes = .ok b) ∧
    bc.number = 2 ∧ bc.numberHash world 2 = Devnet.hash (light 2) ∧
    ¬∃ h ∈ bc.canonical, bc.heightOf h = 2 ∧ bc.numberHash world 2 = h := by
  intro ops bc
  obtain ⟨bc1, bc2, bc3, r1, r2, r3, himp1, himp2, himp3, hK3, hhead3, hnum3, hrec3, hnone3⟩ :=
    Devnet.forked
  have hl2 : light 2 ∈ lightAndHeavy.ways := Devnet.light_mem (by norm_num)
  have hl1 : light 1 ∈ lightAndHeavy.ways := Devnet.light_mem (by norm_num)
  have hG4 := hK3.toGrown.touch Devnet.weight_lt (.numberHash 2)
  have hcache : (bc3.touch world (.numberHash 2)).m_blockHashes 2 = some (Devnet.hash (light 2)) := by
    have hhit : hitsDB world bc3 (.numberHash 2) = true := by
      simp [hitsDB, hnone3, hrec3]
    rw [touch, if_pos hhit]
    simp [fill, noteUsed, filled, lookup, hnone3, hrec3]
  have hhead4 : (bc3.touch world (.numberHash 2)).m_lastBlockHash = Devnet.hash [heavy1] :=
    (recached_touch (w := world) bc3 (.numberHash 2)).m_lastBlockHash.trans hhead3
  generalize hbc4 : bc3.touch world (.numberHash 2) = bc4 at hG4 hcache hhead4
  have hnew : Devnet.block [heavy2, heavy1] ∉
      [Devnet.block (light 1), Devnet.block (light 2), Devnet.block [heavy1]] := by
    simp only [List.mem_cons, List.not_mem_nil, or_false, not_or]
    refine ⟨fun he => ?_, fun he => ?_, fun he => ?_⟩
    · exact Devnet.heavy_ne_light (.inr rfl) _ _ (Devnet.block_inj Devnet.heavy2_mem hl1 he)
    · exact Devnet.heavy_ne_light (.inr rfl) _ _ (Devnet.block_inj Devnet.heavy2_mem hl2 he)
    · have := congrArg List.length (Devnet.block_inj Devnet.heavy2_mem Devnet.heavy1_mem he)
      simp at this
  obtain ⟨r5, bc4', bc5, himp5, hG5, hstake, hkeep, hM4', hP, hins⟩ := hG4.importBlock
    Devnet.weight_lt Devnet.heavy2_mem (.inr (by simp)) hnew rfl (by decide)
    (Devnet.timestamp_le _ Devnet.heavy2_mem)
  have hbc : bc = bc5 := by
    have e1 : step world genesis (importOf (light 1)) = bc1 := congrArg Prod.snd himp1
    have e2 : step world bc1 (importOf (light 2)) = bc2 := congrArg Prod.snd himp2
    have e3 : step world bc2 (importOf [heavy1]) = bc3 := congrArg Prod.snd himp3
    have e4 : step world bc3 (.query (.numberHash 2)) = bc4 := hbc4
    have e5 : step world bc4 (importOf [heavy2, heavy1]) = bc5 := congrArg Prod.snd himp5
    calc bc = step world (step world (step world (step world (step world genesis (importOf (light 1)))
          (importOf (light 2))) (importOf [heavy1])) (.query (.numberHash 2))) (importOf [heavy2, heavy1]) := rfl
      _ = step world (step world (step world bc2 (importOf [heavy1])) (.query (.numberHash 2)))
          (importOf [heavy2, heavy1]) := by rw [e1, e2]
          _ = bc5 := by rw [e3, e4, e5]
  have hcache5 : bc5.m_blockHashes 2 = some (Devnet.hash (light 2)) := by
    rw [← hkeep 2 _ hcache]
    rcases insertBlockAndExtras_cases hM4'.toTreeInv rfl hP hins with
      ⟨e, -, he, -⟩ | ⟨-, -, -, hU⟩ | ⟨c, i, j, bs, -, -, -, hA⟩
    · cases he
    · rw [hU.m_blockHashes]
    · -- the block extends the head, so nothing is cleared
      have hroute := hA.route
      have hlast : bc4'.m_lastBlockHash = Devnet.hash [heavy1] := by
        obtain ⟨m, u, db, rfl, -⟩ := hstake
        exact hhead4
      have hpar : Devnet.hash [heavy1] ∈ bc4'.recorded := hlast ▸ hM4'.head_mem
      rw [hlast] at hroute
      obtain ⟨rfl, -⟩ := hroute.of_self hM4'.tree hpar
      rw [hA.records.m_blockHashes, if_pos (by rw [hlast]; exact hroute.left.symm)]
  have hmem5 : Devnet.hash [heavy2, heavy1] ∈ bc5.recorded :=
    (hG5.recorded_iff Devnet.heavy2_mem).2 (.inr (by simp))
  have hhead5 : bc5.m_lastBlockHash = Devnet.hash [heavy2, heavy1] := by
    refine hG5.head_eq Devnet.heavy2_mem hmem5 fun l' hl' hm' hw => ?_
    rw [show Devnet.weight [heavy2, heavy1] = 1152921505680588801 by decide] at hw
    rcases (hG5.recorded_iff hl').1 hm' with rfl | hb
    · exact absurd hw (by decide)
    · simp only [List.cons_append, List.nil_append, List.mem_cons, List.not_mem_nil, or_false] at hb
      rcases hb with hb | hb | hb | hb
      · rw [Devnet.block_inj hl' hl1 hb, Devnet.weight_light] at hw
        omega
      · rw [Devnet.block_inj hl' hl2 hb, Devnet.weight_light] at hw
        omega
      · rw [Devnet.block_inj hl' Devnet.heavy1_mem hb] at hw
        exact absurd hw (by decide)
      · exact Devnet.block_inj hl' Devnet.heavy2_mem hb
  have hheight : bc5.heightOf bc5.m_lastBlockHash = 2 := by
    rw [hhead5, hG5.mined.heightOf_eq Devnet.heavy2_mem hmem5]
    rfl
  have hnumber : bc5.numberHash world 2 = Devnet.hash (light 2) := by
    rw [numberHash, if_neg (by norm_num), lookup, hcache5]
    rfl
  rw [hbc]
  refine ⟨?_, Devnet.lightAndHeavy_read, hG5.mined.head_number.trans hheight, hnumber, ?_⟩
  · simp only [ops, List.forall_mem_cons]
    exact ⟨Devnet.within_importOf hl1, Devnet.within_importOf hl2,
      Devnet.within_importOf Devnet.heavy1_mem, ⟨trivial, trivial⟩,
      Devnet.within_importOf Devnet.heavy2_mem, by simp⟩
  · rintro ⟨h, ⟨k, hk, rfl⟩, h2, he⟩
    have hM5 : Devnet.Mined lightAndHeavy bc5 := hG5.mined
    have hht := hM5.tree.height_iterate hM5.head_mem hk
    obtain rfl : k = 0 := by omega
    rw [hnumber, Function.iterate_zero_apply, hhead5] at he
    exact Devnet.heavy_ne_light (.inr rfl) _ _
      (lightAndHeavy.hash_inj hl2 Devnet.heavy2_mem he).symm

end BlockChain

end Petrachor
