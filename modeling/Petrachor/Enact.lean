import Petrachor.Devnet

/-!
# What an enacted block commits to

`enact` checks the header of a block against the execution of its transactions: receipts root, log
bloom and gas used always, the state root only if it is not the one of the parent.
-/

namespace Petrachor.Block

variable {w : World}

/-- The block once its transactions are executed in order, the rewards are applied and the state is
committed. -/
def executed (w : World) (bc : BlockChain) (b : Block) (vb : VerifiedBlock) :
    Except Exception Block := do
  let b ← executeAll w (bc.lastBlockHashes w vb.info.parentHash) vb.transactions
    { b with m_currentBlock := vb.info }
  return b.applyRewardsAndCommit w vb.block.uncles

/-- The header says of the block what its execution gives. -/
structure CommitsTo (w : World) (h : BlockHeader) (b : Block) : Prop where
  stateRoot : h.stateRoot = b.rootHash w
  receiptsRoot : h.receiptsRoot = w.crypto.orderedTrieRoot (b.m_receipts.map TransactionReceipt.streamRLP)
  logBloom : h.logBloom = b.logBloom
  gasUsed : h.gasUsed = b.gasUsed

/-- Transactions do not change the headers. -/
theorem headers_execute {l : Except Exception (List H256)} {b b' : Block} {t : Transaction}
    {p : State.Permanence} (h : b.execute w l t p = .ok b') :
    b'.m_currentBlock = b.m_currentBlock ∧ b'.m_previousBlock = b.m_previousBlock := by
  have hun : b.uncommitToSeal.m_currentBlock = b.m_currentBlock ∧
      b.uncommitToSeal.m_previousBlock = b.m_previousBlock := by
    unfold uncommitToSeal
    split <;> exact ⟨rfl, rfl⟩
  unfold execute at h
  split at h
  · cases h
  · dsimp only at h
    split at h
    · cases h
    · split at h <;> cases h <;> exact hun

theorem headers_executeAll {l : Except Exception (List H256)} {ts : List Transaction} {b b' : Block}
    (h : executeAll w l ts b = .ok b') :
    b'.m_currentBlock = b.m_currentBlock ∧ b'.m_previousBlock = b.m_previousBlock := by
  induction ts generalizing b with
  | nil =>
    cases h
    exact ⟨rfl, rfl⟩
  | cons t ts ih =>
    rw [executeAll] at h
    split at h
    · rename_i b₁ h₁
      have hstep := headers_execute h₁
      exact ⟨(ih h).1.trans hstep.1, (ih h).2.trans hstep.2⟩
    · cases h

/-- What `enact` has checked of the block once it returns. -/
theorem enact_ok {bc : BlockChain} {b : Block} {vb : VerifiedBlock} {r : U256 × Block}
    (h : enact w bc b vb = .ok r) :
    executed w bc b vb = .ok r.2 ∧
      vb.info.receiptsRoot =
        w.crypto.orderedTrieRoot (r.2.m_receipts.map TransactionReceipt.streamRLP) ∧
      vb.info.logBloom = r.2.logBloom ∧ vb.info.gasUsed = r.2.gasUsed ∧
      (vb.info.stateRoot = b.m_previousBlock.stateRoot ∨ vb.info.stateRoot = r.2.rootHash w) := by
  rw [enact, unit_bind_eq_ok] at h
  obtain ⟨-, h⟩ := h
  dsimp only at h
  rw [bind_eq_ok] at h
  obtain ⟨b₁, h₁, h⟩ := h
  rw [unit_bind_eq_ok, unit_bind_eq_ok, unit_bind_eq_ok, unit_bind_eq_ok, unit_bind_eq_ok] at h
  obtain ⟨hrec, -, -, hroot, hgas, h⟩ := h
  cases h
  obtain ⟨hcur, hprev⟩ := headers_executeAll h₁
  rw [checkReceipts, unit_bind_eq_ok, throwIf_eq_ok, throwIf_eq_ok, not_not, not_not, hcur] at hrec
  rw [throwIf_eq_ok, not_and_or, not_not, not_not] at hroot
  rw [throwIf_eq_ok, not_not] at hgas
  refine ⟨?_, hrec.1.symm, hrec.2, hgas, ?_⟩
  · rw [executed, h₁]
    rfl
  · have hprev' : (b₁.applyRewardsAndCommit w vb.block.uncles).m_previousBlock = b.m_previousBlock :=
      hprev
    rwa [hprev'] at hroot

/-- An accepted block with another state root than the parent's commits to its execution. -/
theorem commitsTo_of_enact {bc : BlockChain} {b : Block} {vb : VerifiedBlock} {r : U256 × Block}
    (h : enact w bc b vb = .ok r) (hne : vb.info.stateRoot ≠ b.m_previousBlock.stateRoot) :
    CommitsTo w vb.info r.2 := by
  obtain ⟨-, hrec, hbloom, hgas, hroot⟩ := enact_ok h
  exact ⟨hroot.resolve_left hne, hrec, hbloom, hgas⟩

/-! ## An empty block of the development network -/

/-- The first block of the network, of the author `false`. -/
def firstMove : Devnet.Move := ⟨2, false, 1, 0⟩

/-- The state of the genesis block, with nothing executed yet. -/
def onGenesis : Block :=
  (({ new Devnet.world 0 with m_previousBlock := Devnet.header [] } : Block)).started (Devnet.state [])
    (Devnet.header [firstMove])

/-- The first block, with this root. -/
def firstBlock (root : H256) : VerifiedBlock :=
  { Devnet.verified [firstMove] with info := { Devnet.header [firstMove] with stateRoot := root } }

theorem rewarded_firstBlock (root : H256) :
    rewarded Devnet.world 0 (firstBlock root).info (Devnet.state []) = Devnet.state [firstMove] :=
  Devnet.rewarded_eq firstMove (by decide)

theorem enact_firstBlock {root : H256} (hroot : root = Devnet.root (Devnet.state []) ∨
      root = Devnet.root (Devnet.state [firstMove])) :
    ∃ s, enact Devnet.world Devnet.genesis onGenesis (firstBlock root) =
        .ok ((firstBlock root).info.difficulty, s) ∧
      s.m_state.m_state = Devnet.state [firstMove] := by
  have hroots : root = Devnet.root (Devnet.state []) ∨
      root = Devnet.root (rewarded Devnet.world 0 (firstBlock root).info (Devnet.state [])) := by
    rw [rewarded_firstBlock]
    exact hroot
  obtain ⟨s, hs, -, -, hstate, -⟩ :
      ∃ s, enact Devnet.world Devnet.genesis onGenesis (firstBlock root) =
          .ok ((firstBlock root).info.difficulty, s) ∧
        s.m_currentBlock = (firstBlock root).info ∧ s.m_receipts = [] ∧
        s.m_state.m_state = rewarded Devnet.world 0 (firstBlock root).info (Devnet.state []) ∧
        s.m_state.m_accountStartNonce = 0 :=
    enact_empty_of_root Devnet.genesis rfl rfl (by decide) rfl rfl rfl rfl rfl hroots
  exact ⟨s, hs, hstate.trans (rewarded_firstBlock root)⟩

theorem root_firstMove_ne : Devnet.root (Devnet.state [firstMove]) ≠ Devnet.root (Devnet.state []) := by
  decide

/-- The network with roots moved so that the genesis state has this one. -/
def movedWorld (p : H256) : World :=
  { Devnet.world with tries :=
      { Devnet.tries with root := fun t => Devnet.root t + (p - Devnet.root (Devnet.state [])) } }

theorem movedWorld_root (p : H256) : (movedWorld p).tries.root (Devnet.state []) = p := by
  change Devnet.root (Devnet.state []) + (p - Devnet.root (Devnet.state [])) = p
  rw [add_sub_cancel]

theorem movedWorld_root_ne (p : H256) :
    (movedWorld p).tries.root (Devnet.state [firstMove]) ≠ p := by
  intro h
  have heq := h.trans (movedWorld_root p).symm
  exact root_firstMove_ne (add_right_cancel heq)

/-- The state of a parent with this root, with nothing executed yet. -/
def onRoot (p : H256) : Block :=
  (({ new (movedWorld p) 0 with m_previousBlock := { Devnet.header [] with stateRoot := p } } : Block)
    ).started (Devnet.state []) (Devnet.header [firstMove])

/-- A block that repeats its parent's root is accepted, whatever that root is. -/
theorem enact_onRoot (p : H256) :
    ∃ s, enact (movedWorld p) Devnet.genesis (onRoot p) (firstBlock p) =
        .ok ((firstBlock p).info.difficulty, s) ∧ s.rootHash (movedWorld p) ≠ p := by
  obtain ⟨s, hs, -, -, hstate, -⟩ :
      ∃ s, enact (movedWorld p) Devnet.genesis (onRoot p) (firstBlock p) =
          .ok ((firstBlock p).info.difficulty, s) ∧
        s.m_currentBlock = (firstBlock p).info ∧ s.m_receipts = [] ∧
        s.m_state.m_state = rewarded (movedWorld p) 0 (firstBlock p).info (Devnet.state []) ∧
        s.m_state.m_accountStartNonce = 0 :=
    enact_empty_of_root Devnet.genesis rfl rfl (show (Devnet.header []).m_hash ≠ 0 by decide) rfl rfl
      rfl rfl rfl (.inl rfl)
  have hmoved : s.m_state.m_state = Devnet.state [firstMove] :=
    hstate.trans (rewarded_firstBlock p)
  refine ⟨s, hs, ?_⟩
  rw [rootHash, State.rootHash, hmoved]
  exact movedWorld_root_ne p

/-- Two roots, the parent's and the header's, make every accepted block with them commit to its
execution exactly if they differ. -/
theorem enact_commits_iff (p ρ : H256) :
    (∀ (w : World) (bc : BlockChain) (b : Block) (vb : VerifiedBlock) (r : U256 × Block),
      b.m_previousBlock.stateRoot = p → vb.info.stateRoot = ρ → enact w bc b vb = .ok r →
        ∃ b', executed w bc b vb = .ok b' ∧ CommitsTo w vb.info b') ↔ ρ ≠ p := by
  constructor
  · rintro hall rfl
    obtain ⟨s, hs, hne⟩ := enact_onRoot ρ
    obtain ⟨b', hb', hc⟩ := hall (movedWorld ρ) Devnet.genesis (onRoot ρ) (firstBlock ρ) _ rfl rfl hs
    rw [(enact_ok hs).1] at hb'
    cases hb'
    exact hne hc.stateRoot.symm
  · rintro hne w bc b vb r rfl rfl h
    exact ⟨r.2, (enact_ok h).1, commitsTo_of_enact h hne⟩

/-- The first block with its own root commits to what it does. -/
theorem enact_commits_firstBlock :
    ∃ r, enact Devnet.world Devnet.genesis onGenesis (firstBlock (Devnet.root (Devnet.state [firstMove]))) =
        .ok r ∧
      ∃ b', executed Devnet.world Devnet.genesis onGenesis
          (firstBlock (Devnet.root (Devnet.state [firstMove]))) = .ok b' ∧
        CommitsTo Devnet.world (firstBlock (Devnet.root (Devnet.state [firstMove]))).info b' := by
  obtain ⟨s, hs, -⟩ := enact_firstBlock (.inr rfl)
  exact ⟨_, hs, (enact_commits_iff _ _).2 root_firstMove_ne _ _ _ _ _ rfl rfl hs⟩

/-- With the root of the genesis block it is accepted too, although it leads to another one. -/
theorem enact_accepts_parent_root :
    ∃ r, enact Devnet.world Devnet.genesis onGenesis (firstBlock (Devnet.root (Devnet.state []))) =
        .ok r ∧
      ¬∃ b', executed Devnet.world Devnet.genesis onGenesis
          (firstBlock (Devnet.root (Devnet.state []))) = .ok b' ∧
        CommitsTo Devnet.world (firstBlock (Devnet.root (Devnet.state []))).info b' := by
  obtain ⟨s, hs, hstate⟩ := enact_firstBlock (.inl rfl)
  refine ⟨_, hs, ?_⟩
  rintro ⟨b', hb', hc⟩
  rw [(enact_ok hs).1] at hb'
  cases hb'
  have hroot := hc.stateRoot
  rw [rootHash, State.rootHash, hstate] at hroot
  exact root_firstMove_ne hroot.symm

end Petrachor.Block
