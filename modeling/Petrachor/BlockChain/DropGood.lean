import Petrachor.BlockChain.Atomic
import Petrachor.BlockChain.Index
import Petrachor.TransactionRead

/-!
# Transactions reported as good

`sync` reports the transactions of every block it imports, and the client drops them from its queue.
They are on the chain if the block is. A block that is imported beside the chain, or is left behind
by a later block of the batch, has its transactions reported all the same.
-/

namespace Petrachor

open ParentTree

namespace BlockChain

/-- A transaction is in a block of the canonical chain. -/
def OnChain (w : World) (bc : BlockChain) (t : Transaction) : Prop :=
  ∃ h ∈ bc.canonical, ∃ b, bc.block w h = some b ∧ b.Carries t

/-- A transaction is in the block or in one of its ancestors. -/
def OnBranch (w : World) (bc : BlockChain) (b : BlockRLP) (t : Transaction) : Prop :=
  b.Carries t ∨ ∃ h ∈ lineage bc.parentOf bc.heightOf b.info.parentHash,
    ∃ b', bc.block w h = some b' ∧ b'.Carries t

/-- One import of the loop of `sync`: the transactions reported so far, and the chain. -/
def importInto (w : World) (s : List Transaction × BlockChain) (p : VerifiedBlock × ℤ) :
    List Transaction × BlockChain :=
  match s.2.importBlock w p.1 true p.2 with
  | (.ok r, bc) => (s.1 ++ r.goodTransactions, bc)
  | (.error _, bc) => (s.1, bc)

/-- A block that comes to be inserted either becomes the head, with all that was reported before on
its branch, or stays beside the chain and has no transaction that is not on the chain already. -/
def Safe (w : World) (s : List Transaction × BlockChain) (p : VerifiedBlock × ℤ) : Prop :=
  ∀ tdIncrease b, s.2.Enacts w p.1 true p.2 tdIncrease b →
    let td := (s.2.details p.1.info.parentHash).totalDifficulty + tdIncrease
    (Better w s.2 td p.1.info.gasUsed → ∀ t ∈ s.1, s.2.OnBranch w p.1.block t) ∧
      (¬Better w s.2 td p.1.info.gasUsed → ∀ t ∈ p.1.transactions, s.2.OnChain w t)

/-- What was reported is on the chain. -/
def DropSound (w : World) (s : List Transaction × BlockChain) : Prop := ∀ t ∈ s.1, s.2.OnChain w t

section

variable {w : World} {B : BlockSet w} {bc bc' : BlockChain}

/-! ## One import -/

theorem Enacts.insertable (hw : w.Valid) (hI : bc.ChainInv w B) {vb : VerifiedBlock}
    (hB : vb.block ∈ B.carrier) (hv : vb.info = vb.block.info) {mustBeNew : Bool} {now : ℤ}
    {tdIncrease : U256} {s : Block} (hE : bc.Enacts w vb mustBeNew now tdIncrease s) :
    Insertable w bc vb.block := by
  obtain ⟨hplace, -, ⟨vb', hver⟩, -⟩ := hE
  have hpar : vb.info.parentHash ∈ bc.recorded := by
    unfold checkPlace at hplace
    rw [unit_bind_eq_ok, unit_bind_eq_ok, throwIf_eq_ok] at hplace
    exact hI.recorded_of_isKnown (by simpa using hplace.2.1)
  rw [hv] at hpar
  exact hI.insertable hB hpar (verifyHeader_inOrder hw hI hpar (verifyBlock_eq_ok hver).1).1

section Stored

variable {b : BlockRLP} {td : U256} (hI : bc.TreeInv w) (hP : Insertable w bc b)
  (hS : Stored bc bc' b td)

include hI hP hS

/-- A block beside the chain changes nothing on it. -/
theorem Unmoved.onChain_iff (hU : Unmoved bc bc') (t : Transaction) :
    bc'.OnChain w t ↔ bc.OnChain w t := by
  unfold OnChain
  rw [hU.canonical_eq hI hP hS]
  constructor
  · rintro ⟨h, hm, b', hb, ht⟩
    rw [hS.block_eq hI hP (hI.tree.mem_of_mem_lineage hI.head_mem hm)] at hb
    exact ⟨h, hm, b', hb, ht⟩
  · rintro ⟨h, hm, b', hb, ht⟩
    refine ⟨h, hm, b', ?_, ht⟩
    rw [hS.block_eq hI hP (hI.tree.mem_of_mem_lineage hI.head_mem hm)]
    exact hb

/-- After a block has become the head the chain is its branch. -/
theorem Adopted.onChain_iff {c : H256} {i j : ℕ} {bs : List BlockRLP}
    (hA : Adopted w bc bc' b c i j bs) (t : Transaction) :
    bc'.OnChain w t ↔ bc.OnBranch w b t := by
  unfold OnChain OnBranch
  rw [hA.canonical_eq hI hP hS]
  constructor
  · rintro ⟨h, rfl | hm, b', hb, ht⟩
    · rw [hS.block_self hP] at hb
      cases hb
      exact .inl ht
    · rw [hS.block_eq hI hP (hI.tree.mem_of_mem_lineage hP.parent_mem hm)] at hb
      exact .inr ⟨h, hm, b', hb, ht⟩
  · rintro (ht | ⟨h, hm, b', hb, ht⟩)
    · exact ⟨_, .inl rfl, b, hS.block_self hP, ht⟩
    · refine ⟨h, .inr hm, b', ?_, ht⟩
      rw [hS.block_eq hI hP (hI.tree.mem_of_mem_lineage hP.parent_mem hm)]
      exact hb

end Stored

/-- What was reported stays on the chain over an import if and only if the import is safe. -/
theorem dropSound_importInto (hw : w.Valid) {s : List Transaction × BlockChain}
    (hI : s.2.ChainInv w B) (hD : DropSound w s) {p : VerifiedBlock × ℤ}
    (hB : p.1.block ∈ B.carrier) (hv : p.1.OfBlock)
    (hR : (Op.importBlock p.1 true p.2).Real w s.2) :
    DropSound w (importInto w s p) ↔ Safe w s p := by
  obtain ⟨good, bc⟩ := s
  obtain ⟨vb, now⟩ := p
  simp only at hI hB hv hR
  rcases @importBlock_split w bc vb true now with
    ⟨e, bc1, himp, hstake, -, hno⟩ | ⟨tdIncrease, st, bc1, hen, hstake, -, himp⟩
  · -- nothing is inserted, and neither the chain nor the report changes
    refine iff_of_true ?_ fun _ _ h => absurd h (hno _ _)
    obtain ⟨m, u, db, rfl, -⟩ := hstake
    simp only [importInto, himp]
    exact hD
  · have hP := hen.insertable hw hI hB hv.info_eq
    have hsafe : Safe w (good, bc) (vb, now) ↔
        (Better w bc ((bc.details vb.info.parentHash).totalDifficulty + tdIncrease) vb.info.gasUsed →
          ∀ t ∈ good, bc.OnBranch w vb.block t) ∧
        (¬Better w bc ((bc.details vb.info.parentHash).totalDifficulty + tdIncrease) vb.info.gasUsed →
          ∀ t ∈ vb.transactions, bc.OnChain w t) := by
      constructor
      · intro h
        exact h _ _ hen
      · intro h tdIncrease' st' hen'
        have heq := hen.2.2.2.1.symm.trans hen'.2.2.2.1
        cases heq
        exact h
    rw [hsafe]
    have hread := receiptBlooms_encodeReceipts (hR.2 _ _ hen)
    obtain ⟨m, u, db, rfl, -⟩ := hstake
    have hI1 : ({ bc with m_blockHashes := m, m_cacheUsage := u, stateDB := db } : BlockChain).TreeInv w :=
      hI.toTreeInv.congr ⟨hI.coherent.details, hI.coherent.blocks⟩ rfl rfl rfl rfl rfl
    have hP1 : Insertable w { bc with m_blockHashes := m, m_cacheUsage := u, stateDB := db } vb.block :=
      ⟨hP.hash_ne_zero, hP.hash_ne_genesis, hP.parent_mem, hP.number_eq, hP.number_lt, hP.same⟩
    rcases hins : bc.importBlock w vb true now with ⟨r, bc'⟩
    have hres := himp.symm.trans hins
    simp only [importInto, hins]
    rcases insertBlockAndExtras_cases hI1 hv.info_eq hP1 hres with
      ⟨e, he, -⟩ | ⟨rfl, hbetter, hS, hU⟩ | ⟨c, i, j, bs, rfl, hbetter, hS, hA⟩
    · rw [hread] at he
      cases he
    · have hiff := hU.onChain_iff hI1 hP1 hS
      constructor
      · intro h
        refine ⟨fun hb => absurd hb hbetter, fun _ t ht => ?_⟩
        exact (hiff t).1 (h t (List.mem_append_right _ ht))
      · rintro ⟨-, h⟩ t ht
        rcases List.mem_append.1 ht with ht | ht
        · exact (hiff t).2 (hD t ht)
        · exact (hiff t).2 (h hbetter t ht)
    · have hiff := hA.onChain_iff hI1 hP1 hS
      constructor
      · intro h
        refine ⟨fun _ t ht => ?_, fun hb => absurd hbetter hb⟩
        exact (hiff t).1 (h t (List.mem_append_left _ ht))
      · rintro ⟨h, -⟩ t ht
        rcases List.mem_append.1 ht with ht | ht
        · exact (hiff t).2 (h hbetter t ht)
        · exact (hiff t).2 (.inl (hv.carries t ht))

/-! ## A batch -/

/-- A block of the set that was verified with its own header and transactions. -/
def Verified (B : BlockSet w) (p : VerifiedBlock × ℤ) : Prop :=
  p.1.block ∈ B.carrier ∧ p.1.OfBlock ∧ p.1.block.info.number ≠ c_invalidNumber

theorem chainInv_importInto (hw : w.Valid) {s : List Transaction × BlockChain}
    (hI : s.2.ChainInv w B) {p : VerifiedBlock × ℤ} (hB : Verified B p) :
    (importInto w s p).2.ChainInv w B := by
  rcases h : s.2.importBlock w p.1 true p.2 with ⟨r, bc'⟩
  have hI' := chainInv_importBlock hw hI hB.1 hB.2.1.info_eq hB.2.2 h
  cases r with
  | error e => simpa only [importInto, h] using hI'
  | ok r => simpa only [importInto, h] using hI'

/-- The report is sound after every prefix of a batch if and only if every import of it is safe. -/
theorem dropSound_run_iff (hw : w.Valid) (batch : List (VerifiedBlock × ℤ)) :
    ∀ {s : List Transaction × BlockChain}, s.2.ChainInv w B → DropSound w s →
      (∀ p ∈ batch, Verified B p) →
      StateRun.Along (importInto w) (fun s p => (Op.importBlock p.1 true p.2).Real w s.2) s batch →
      ((∀ k, DropSound w (StateRun.run (importInto w) s (batch.take k))) ↔
        StateRun.Along (importInto w) (Safe w) s batch) := by
  induction batch with
  | nil =>
    intro s _ hD _ _
    exact iff_of_true (fun k => by rw [List.take_nil]; exact hD) trivial
  | cons p batch ih =>
    intro s hI hD hB hR
    obtain ⟨hBp, hBs⟩ := List.forall_mem_cons.1 hB
    have hstep := dropSound_importInto hw hI hD hBp.1 hBp.2.1 hR.1
    have hI' := chainInv_importInto hw hI hBp
    constructor
    · intro h
      have hD' : DropSound w (importInto w s p) := h 1
      exact ⟨hstep.1 hD', (ih hI' hD' hBs hR.2).1 fun k => h (k + 1)⟩
    · rintro ⟨hsafe, hrest⟩ k
      have hD' := hstep.2 hsafe
      cases k with
      | zero => exact hD
      | succ k => exact (ih hI' hD' hBs hR.2).2 hrest k

theorem note_goodTransactions {acc acc' : SyncResult} {h : H256} {e : Exception}
    (hn : acc.note h e = .ok acc') : acc'.goodTransactions = acc.goodTransactions := by
  unfold SyncResult.note at hn
  split at hn <;> cases hn <;> rfl

/-- The loop of `sync` is the run of its imports. -/
theorem syncBlocks_run (batch : List (VerifiedBlock × ℤ)) :
    ∀ {acc r : SyncResult} {bc bc' : BlockChain}, syncBlocks w batch acc bc = (.ok r, bc') →
      (r.goodTransactions, bc') = StateRun.run (importInto w) (acc.goodTransactions, bc) batch := by
  induction batch with
  | nil =>
    intro acc r bc bc' h
    cases h
    rfl
  | cons p batch ih =>
    intro acc r bc bc' h
    obtain ⟨vb, now⟩ := p
    rw [StateRun.run_cons]
    rcases himp : bc.importBlock w vb true now with ⟨res, bc1⟩
    simp only [syncBlocks, himp] at h
    cases res with
    | ok route =>
      simp only [importInto, himp]
      exact ih h
    | error e =>
      simp only [importInto, himp] at h ⊢
      cases hnote : acc.note (vb.info.hash w.crypto .WithSeal) e with
      | error e' =>
        rw [hnote] at h
        cases h
      | ok acc' =>
        rw [hnote] at h
        rw [← note_goodTransactions hnote]
        exact ih h

/-- A batch that is synced to its end is synced so far as one takes it. -/
theorem syncBlocks_take (batch : List (VerifiedBlock × ℤ)) :
    ∀ (k : ℕ) {acc r : SyncResult} {bc bc' : BlockChain}, syncBlocks w batch acc bc = (.ok r, bc') →
      ∃ r' bc'', syncBlocks w (batch.take k) acc bc = (.ok r', bc'') := by
  induction batch with
  | nil =>
    intro k acc r bc bc' h
    rw [List.take_nil]
    exact ⟨r, bc', h⟩
  | cons p batch ih =>
    intro k acc r bc bc' h
    obtain ⟨vb, now⟩ := p
    cases k with
    | zero => exact ⟨acc, bc, rfl⟩
    | succ k =>
      rw [List.take_succ_cons]
      rcases himp : bc.importBlock w vb true now with ⟨res, bc1⟩
      simp only [syncBlocks, himp] at h ⊢
      cases res with
      | ok route => exact ih k h
      | error e =>
        simp only at h ⊢
        cases hnote : acc.note (vb.info.hash w.crypto .WithSeal) e with
        | error e' =>
          rw [hnote] at h
          cases h
        | ok acc' =>
          rw [hnote] at h
          exact ih k h

/-- In a chain that was built by a run that keeps to the tree: after a batch is synced, and after
every part of it that could have been the batch, what was reported is on the chain, if and only if
every import of it is safe. -/
theorem good_transactions_iff (hw : w.Valid) (genesisState : AccountTrie) {ops : List Op}
    (hrun : StateRun.Along (step w) (fun bc op => op.Within B ∧ op.Fits w bc)
      (openFresh w genesisState) ops) {batch : List (VerifiedBlock × ℤ)}
    (hB : ∀ p ∈ batch, Verified B p) {r : SyncResult}
    (hsync : syncBlocks w batch .empty (StateRun.run (step w) (openFresh w genesisState) ops) =
      (.ok r, bc'))
    (hR : StateRun.Along (importInto w) (fun s p => (Op.importBlock p.1 true p.2).Real w s.2)
      ([], StateRun.run (step w) (openFresh w genesisState) ops) batch) :
    (∀ k r bc', syncBlocks w (batch.take k) .empty
        (StateRun.run (step w) (openFresh w genesisState) ops) = (.ok r, bc') →
      ∀ t ∈ r.goodTransactions, bc'.OnChain w t) ↔
    StateRun.Along (importInto w) (Safe w) ([], StateRun.run (step w) (openFresh w genesisState) ops)
      batch := by
  have hI := chainInv_run hw (chainInv_openFresh hw B genesisState) hrun
  have hD : DropSound w ([], StateRun.run (step w) (openFresh w genesisState) ops) := by
    intro t ht
    cases ht
  rw [← dropSound_run_iff hw batch hI hD hB hR]
  constructor
  · intro h k
    obtain ⟨rk, bck, hk⟩ := syncBlocks_take batch k hsync
    have := h k rk bck hk
    rw [show StateRun.run (importInto w) ([], _) (batch.take k) = (rk.goodTransactions, bck) from
      (syncBlocks_run _ hk).symm]
    exact this
  · intro h k rk bck hk
    have := h k
    rw [show StateRun.run (importInto w) ([], _) (batch.take k) = (rk.goodTransactions, bck) from
      (syncBlocks_run _ hk).symm] at this
    exact this

end

end BlockChain

/-! ## A block with a transaction -/

namespace Devnet

/-- The first author calls itself. -/
def payment : Transaction :=
  { m_type := .MessageCall, nonce := 0, value := 0, receiveAddress := address false, gasPrice := 0,
    gas := 21000, data := [], m_vrs := some ⟨1, (address false).setWidth 768⟩, m_forcedSender := 0 }

def paymentBytes : Bytes :=
  RLPStream.encodeList (payment.signedFields ++
    [SignatureStruct.streamRLP ⟨1, (address false).setWidth 768⟩])

/-- The first author mines it on the genesis block. -/
def paidMove : Move := ⟨3, false, 2, 0⟩

def paidHeader : BlockHeader :=
  { header [paidMove] with
    transactionsRoot := crypto.orderedTrieRoot [paymentBytes]
    receiptsRoot := crypto.orderedTrieRoot [(TransactionReceipt.mk' crypto (.status true) 21000 []).streamRLP]
    gasUsed := 21000 }

def paidBlock : BlockRLP :=
  { info := paidHeader, header := paidHeader.wire 1 (timestamp [paidMove]),
    transactions := [paymentBytes], uncles := [], unclesData := RLPStream.encodeList [] }

def paid : VerifiedBlock := ⟨paidBlock, paidHeader, [payment]⟩

def paidBytes : Bytes :=
  RLPStream.encodeList [paidHeader.wire 1 (timestamp [paidMove]), RLPStream.encodeList [paymentBytes],
    RLPStream.encodeList []]

theorem ofBytes_payment : Transaction.ofBytes paymentBytes .Everything = .ok payment := by
  have hmax := Transaction.length_encodeItems (t := payment) (v := ⟨1, (address false).setWidth 768⟩) rfl
  have hlist := length_encodeList_le (hmax.trans_lt (by norm_num [maxPayload]))
  refine Transaction.ofBytes_encodeItems rfl (fun h => by cases h) rfl rfl ?_ .Everything
  unfold maxPayload
  omega

set_option maxRecDepth 100000 in
theorem length_payment : (payment.signedFields ++
    [SignatureStruct.streamRLP ⟨1, (address false).setWidth 768⟩]).flatten.length < 256 := by
  decide

theorem ofBytes_paid : BlockRLP.ofBytes crypto paidBytes = .ok paidBlock := by
  have htime : timestamp [paidMove] < 2 ^ 63 := by decide
  have hE : paidHeader.Encodable 1 (timestamp [paidMove]) :=
    encodable_of_sealed (l := [paidMove]) rfl rfl (by norm_num) htime
  have hfields := length_fields_le (l := [paidMove]) (h := paidHeader) rfl rfl (n := 1) (by norm_num)
    (htime.trans (by norm_num))
  have hheader := length_encodeList_le (hfields.trans_lt (by norm_num [maxPayload]))
  have hmax : (payment.signedFields ++ [SignatureStruct.streamRLP ⟨1, (address false).setWidth 768⟩]).flatten.length <
      maxPayload := length_payment.trans (by norm_num [maxPayload])
  have hpayment : paymentBytes.length ≤ 265 := by
    have := length_encodeList_le hmax
    have := length_payment
    unfold paymentBytes
    omega
  have hitems : Items [paymentBytes] := by
    intro e he
    rw [List.mem_singleton.1 he]
    exact ⟨_, isItem_encodeList hmax⟩
  have hlist : [paymentBytes].flatten.length ≤ 265 := by
    rw [List.flatten_singleton]
    exact hpayment
  have htxs := length_encodeList_le (hlist.trans_lt (by norm_num [maxPayload]))
  have hread := BlockRLP.ofBytes_encodeList crypto hE hitems (fun e he => absurd he List.not_mem_nil) rfl (by
    have h0 : (RLPStream.encodeList []).length = 1 := by decide
    rw [List.flatten_cons, List.flatten_cons, List.flatten_singleton, List.length_append, List.length_append, h0]
    unfold BlockHeader.wire maxPayload
    omega)
  refine hread.trans ?_
  rw [sha3_wire_of_sealed (l := [paidMove]) rfl]
  rfl

theorem paid_ofBlock : paid.OfBlock := by
  refine ⟨rfl, fun t ht => ?_⟩
  rw [List.mem_singleton.1 ht]
  exact ⟨paymentBytes, List.mem_singleton_self _, .Everything, ofBytes_payment⟩

def paidSet : BlockSet world where
  carrier := {paidBlock}
  hash_ne_zero := by
    rintro b rfl
    decide
  hash_ne_genesis := by
    rintro b rfl
    decide
  hash_inj := by
    rintro b rfl b' rfl _
    rfl

end Devnet

namespace BlockChain

open Devnet (world genesis heavy1 payment paid paidBlock)

/-- The chain after the heavier block and the one beside it, and what is reported. -/
def besideCheck : Except Exception SyncResult × BlockChain → Bool
  | (.ok r, bc) =>
    decide (r.goodTransactions = [payment]) && decide (bc.m_lastBlockHash = Devnet.hash [heavy1]) &&
      decide (bc.heightOf (Devnet.hash [heavy1]) = 1) &&
      decide (bc.parentOf (Devnet.hash [heavy1]) = genesisHash world) &&
      decide ((bc.block world (Devnet.hash [heavy1])).map BlockRLP.transactions = some [])
  | (.error _, _) => false

/-- What the network does with the block, as the head and beside a heavier one. -/
theorem paid_checks :
    (decide (((syncBlocks world [(paid, 100)] .empty genesis).1.toOption.map SyncResult.goodTransactions) =
        some [payment]) &&
      ((Block.new world 0).enactOn world (genesis.touchStake world paid.block) paid 100).toOption.all
        (fun x => decide ((encodeReceipts x.2).length < maxPayload)) &&
      besideCheck (syncBlocks world [(Devnet.verified [heavy1], 100), (paid, 100)] .empty genesis)) = true := by
  decide +kernel

/-- A block that becomes the head has its transaction on the chain. -/
theorem good_transactions_paid :
    ∃ r bc', syncBlocks world [(paid, 100)] .empty genesis = (.ok r, bc') ∧
      r.goodTransactions = [payment] ∧ bc'.OnChain world payment := by
  have hchecks := paid_checks
  rw [Bool.and_eq_true, Bool.and_eq_true, decide_eq_true_eq] at hchecks
  obtain ⟨⟨hgood, hlen⟩, -⟩ := hchecks
  rcases hsync : syncBlocks world [(paid, 100)] .empty genesis with ⟨res, bc'⟩
  rw [hsync] at hgood
  cases res with
  | error e => cases hgood
  | ok r =>
    have hr : r.goodTransactions = [payment] := Option.some.inj hgood
    have hfit : ∀ tdIncrease s, genesis.Enacts world paid true 100 tdIncrease s →
        (encodeReceipts s).length < maxPayload := by
      intro tdIncrease s hen
      rw [hen.2.2.2.1] at hlen
      exact of_decide_eq_true hlen
    have hsafe : Safe world ([], genesis) (paid, 100) := by
      intro tdIncrease s hen
      constructor
      · intro _ t ht
        cases ht
      · intro hb
        apply absurd _ hb
        left
        rw [enactOn_difficulty hen.2.2.2.1]
        decide
    have hB : ∀ p ∈ [(paid, (100 : ℤ))], Verified Devnet.paidSet p := by
      intro p hp
      rw [List.mem_singleton.1 hp]
      exact ⟨rfl, Devnet.paid_ofBlock, by decide⟩
    refine ⟨r, bc', rfl, hr, ?_⟩
    have hiff := good_transactions_iff Devnet.world_valid (Devnet.state []) (B := Devnet.paidSet)
      (show StateRun.Along (step world) _ _ [] from trivial)
      hB hsync
      ⟨⟨rfl, hfit⟩, trivial⟩
    exact hiff.2 ⟨hsafe, trivial⟩ 1 r bc' hsync payment (by rw [hr]; exact List.mem_singleton_self _)

/-- A heavier block first, and then the block beside it: the transaction is reported and is in no
canonical block. -/
theorem good_transaction_off_chain :
    (∃ bytes, BlockRLP.ofBytes world.crypto bytes = .ok paidBlock) ∧
    ∃ r bc', syncBlocks world [(Devnet.verified [heavy1], 100), (paid, 100)] .empty genesis =
        (.ok r, bc') ∧ payment ∈ r.goodTransactions ∧ ¬bc'.OnChain world payment := by
  refine ⟨⟨_, Devnet.ofBytes_paid⟩, ?_⟩
  have hchecks := paid_checks
  rw [Bool.and_eq_true, Bool.and_eq_true] at hchecks
  obtain ⟨-, hcheck⟩ := hchecks
  rcases hsync : syncBlocks world [(Devnet.verified [heavy1], 100), (paid, 100)] .empty genesis with
    ⟨res, bc'⟩
  rw [hsync] at hcheck
  cases res with
  | error e => cases hcheck
  | ok r =>
    simp only [besideCheck, Bool.and_eq_true, decide_eq_true_eq] at hcheck
    obtain ⟨⟨⟨⟨hgood, hhead⟩, hheight⟩, hparent⟩, hblock⟩ := hcheck
    refine ⟨r, bc', rfl, by rw [hgood]; exact List.mem_singleton_self _, ?_⟩
    rintro ⟨h, ⟨i, hi, rfl⟩, b, hb, d, hd, -⟩
    rw [hhead] at hi hb
    rw [hheight] at hi
    -- the canonical blocks are the head and the genesis block, and neither has a transaction
    interval_cases i
    · rw [Function.iterate_zero, id] at hb
      rw [hb] at hblock
      have hnil : b.transactions = [] := Option.some.inj hblock
      rw [hnil] at hd
      cases hd
    · rw [Function.iterate_one, hparent, block, if_pos rfl] at hb
      cases hb
      cases hd

end BlockChain

end Petrachor
