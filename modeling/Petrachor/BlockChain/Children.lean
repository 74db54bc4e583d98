import Petrachor.BlockChain.Atomic

/-!
# Details and children

The details of a block are cached, and an insertion writes the cached details of the parent beside
those of the new block. As long as every block is inserted once, before its children and to the end,
the cache holds what the database holds and the children are the blocks that name the parent. A
second insertion lists the child again and overwrites the block's own children.
-/

namespace Petrachor

namespace BlockChain

section

variable {w : World} {bc bc' : BlockChain}

/-- The caches hold what the databases do, a block has details, and the children of a block are those
that name it. -/
structure Listed (w : World) (bc : BlockChain) : Prop where
  m_details : ∀ {h d}, bc.m_details h = some d → bc.detailsDB h = some d
  m_blocks : ∀ {h b}, bc.m_blocks h = some b → bc.blocksDB h = some b
  stored : ∀ {h b}, bc.blocksDB h = some b → h ≠ genesisHash w ∧ (bc.detailsDB h).isSome
  genesis : (bc.detailsDB (genesisHash w)).isSome
  nodup : ∀ {h d}, bc.detailsDB h = some d → d.children.Nodup
  children : ∀ {h d}, bc.detailsDB h = some d →
    ∀ c, c ∈ d.children ↔ ∃ b, bc.blocksDB c = some b ∧ b.info.parentHash = h
  parent : ∀ {h b}, bc.blocksDB h = some b → (bc.detailsDB b.info.parentHash).isSome

/-- The checks of `insert` are passed. -/
def InsertPasses (w : World) (bc : BlockChain) (b : BlockRLP) (receipts : Bytes) (mustBeNew : Bool)
    (now : ℤ) : Prop :=
  (∃ vb, bc.verifyBlock w b (bc.balanceRetriever w now) .OutOfOrderChecks = .ok vb) ∧
    (mustBeNew = true → bc.checkBlockIsNew w b.info = .ok ()) ∧
    bc.isKnown w b.info.parentHash false = true ∧
    receiptsRoot w receipts = .ok b.info.receiptsRoot ∧
    checkBlockTimestamp w b.info now = .ok () ∧
    (∃ vb, bc.verifyBlock w b (bc.balanceRetriever w now) .InOrderChecks = .ok vb) ∧
    ∃ blooms, receiptBlooms receipts = .ok blooms

/-- A block that no details are kept of, and that is not its own parent. -/
def Fresh (w : World) (bc : BlockChain) (i : BlockHeader) : Prop :=
  lookup bc.m_details bc.detailsDB (i.hash w.crypto .WithSeal) = none ∧
    i.hash w.crypto .WithSeal ≠ i.parentHash

/-- The details `insert` writes. -/
def insertedDetails (bc : BlockChain) (i : BlockHeader) : BlockDetails :=
  ⟨((bc.details i.parentHash).number + 1) % 2 ^ 32,
    (bc.details i.parentHash).totalDifficulty + i.difficulty, i.parentHash, []⟩

/-- The block is stored already, without children and with the details `insert` writes. -/
def SameLeaf (w : World) (bc : BlockChain) (b : BlockRLP) : Prop :=
  bc.blocksDB (b.info.hash w.crypto .WithSeal) = some b ∧
    bc.detailsDB (b.info.hash w.crypto .WithSeal) = some (bc.insertedDetails b.info)

/-- The block an operation inserts is inserted for the first time; `insert` may also repeat itself
on a block that has no children yet. -/
def Op.Once (w : World) (bc : BlockChain) : Op → Prop
  | .importBlock vb mustBeNew now =>
    (∃ tdIncrease s, bc.Enacts w vb mustBeNew now tdIncrease s) → bc.Fresh w vb.info
  | .importUnverified b mustBeNew now =>
    (∃ vb, bc.verifyBlock w b (bc.balanceRetriever w now) .OutOfOrderChecks = .ok vb ∧
      ∃ tdIncrease s, bc.Enacts w vb mustBeNew now tdIncrease s) → bc.Fresh w b.info
  | .insert b receipts mustBeNew now =>
    bc.InsertPasses w b receipts mustBeNew now → bc.Fresh w b.info ∨ bc.SameLeaf w b
  | .insertWithoutParent b _ _ now =>
    (∃ vb, bc.verifyBlock w b (bc.balanceRetriever w now) .OutOfOrderChecks = .ok vb) →
      bc.checkBlockIsNew w b.info = .ok () → checkBlockTimestamp w b.info now = .ok () →
      bc.Fresh w b.info
  | _ => True

/-- The process goes on after the operation. -/
def Op.GoesOn (w : World) (bc : BlockChain) (op : Op) : Prop := (bc.perform w op).1 ≠ .error .abort

/-! ## What the invariant says -/

section Listed

variable (hL : bc.Listed w)

include hL

theorem Listed.details_eq (h : H256) : bc.details h = (bc.detailsDB h).getD NullBlockDetails := by
  unfold details lookup
  cases hm : bc.m_details h with
  | none => rfl
  | some d =>
    rw [hL.m_details hm]
    rfl

theorem Listed.lookup_details (h : H256) : lookup bc.m_details bc.detailsDB h = bc.detailsDB h := by
  unfold lookup
  cases hm : bc.m_details h with
  | none => rfl
  | some d =>
    rw [hL.m_details hm]
    rfl

theorem Listed.lookup_blocks (h : H256) : lookup bc.m_blocks bc.blocksDB h = bc.blocksDB h := by
  unfold lookup
  cases hm : bc.m_blocks h with
  | none => rfl
  | some b =>
    rw [hL.m_blocks hm]
    rfl

theorem Listed.mem_children (h c : H256) : c ∈ (bc.details h).children ↔
    ∃ b, bc.blocksDB c = some b ∧ b.info.parentHash = h := by
  rw [hL.details_eq]
  cases hd : bc.detailsDB h with
  | some d => exact hL.children hd c
  | none =>
    -- a block without details has no children, whether in the list or in the database
    constructor
    · intro hc
      cases hc
    · rintro ⟨b, hb, rfl⟩
      have := hL.parent hb
      rw [hd] at this
      cases this

theorem Listed.nodup_children (h : H256) : (bc.details h).children.Nodup := by
  rw [hL.details_eq]
  cases hd : bc.detailsDB h with
  | some d => exact hL.nodup hd
  | none => exact List.nodup_nil

/-- The same databases, and caches that hold nothing else. -/
theorem Listed.recached (hR : Recached bc bc') : bc'.Listed w where
  m_details hd := by
    rw [hR.detailsDB]
    exact (hR.m_details hd).elim hL.m_details id
  m_blocks hb := by
    rw [hR.blocksDB]
    exact (hR.m_blocks hb).elim hL.m_blocks id
  stored hb := by
    rw [hR.blocksDB] at hb
    rw [hR.detailsDB]
    exact hL.stored hb
  genesis := by
    rw [hR.detailsDB]
    exact hL.genesis
  nodup hd := by
    rw [hR.detailsDB] at hd
    exact hL.nodup hd
  children hd c := by
    rw [hR.detailsDB] at hd
    rw [hR.blocksDB]
    exact hL.children hd c
  parent hb := by
    rw [hR.blocksDB] at hb
    rw [hR.detailsDB]
    exact hL.parent hb

end Listed

/-! ## What an insertion does to it -/

/-- The block is stored under `x` with the details `d`, and noted with its parent. -/
structure Placed (bc bc' : BlockChain) (b : BlockRLP) (x : H256) (d : BlockDetails) : Prop where
  m_details : bc'.m_details = (bc.addChild b.info.parentHash x).m_details
  detailsDB : bc'.detailsDB = Function.update (Function.update bc.detailsDB b.info.parentHash
    (some ((bc.addChild b.info.parentHash x).details b.info.parentHash))) x (some d)
  m_blocks : bc'.m_blocks = bc.m_blocks
  blocksDB : bc'.blocksDB = Function.update bc.blocksDB x (some b)

section Placed

variable {b : BlockRLP} {x : H256} {d : BlockDetails} (hP : Placed bc bc' b x d)

include hP

theorem Placed.details_self : bc'.detailsDB x = some d := by
  rw [hP.detailsDB, Function.update_self]

theorem Placed.details_other {h : H256} (hx : h ≠ x) (hp : h ≠ b.info.parentHash) :
    bc'.detailsDB h = bc.detailsDB h := by
  rw [hP.detailsDB, Function.update_of_ne hx, Function.update_of_ne hp]

variable (hne : x ≠ b.info.parentHash)

include hne

theorem Placed.details_parent : bc'.detailsDB b.info.parentHash =
    some { bc.details b.info.parentHash with
      children := (bc.details b.info.parentHash).children ++ [x] } := by
  rw [hP.detailsDB, Function.update_of_ne hne.symm, Function.update_self, details_addChild, if_pos rfl]

theorem Placed.isSome_of_isSome {h : H256} (h0 : (bc.detailsDB h).isSome) :
    (bc'.detailsDB h).isSome := by
  by_cases hx : h = x
  · rw [hx, hP.details_self]
    rfl
  · by_cases hp : h = b.info.parentHash
    · rw [hp, hP.details_parent hne]
      rfl
    · rw [hP.details_other hx hp]
      exact h0

variable (hL : bc.Listed w) (hd : d.children = []) (hnew : bc.detailsDB x = none)

include hL hnew

omit hP hne in
/-- A block without details is not stored. -/
theorem Listed.block_none : bc.blocksDB x = none := by
  cases hb : bc.blocksDB x with
  | none => rfl
  | some b' =>
    have := (hL.stored hb).2
    rw [hnew] at this
    cases this

theorem Placed.m_details_listed {h : H256} {e : BlockDetails} (he : bc'.m_details h = some e) :
    bc'.detailsDB h = some e := by
  rw [hP.m_details] at he
  by_cases hp : h = b.info.parentHash
  · subst hp
    rw [hP.details_parent hne, ← he]
    simp [addChild]
  · have he' : bc.m_details h = some e := by
      simpa [addChild, Function.update_of_ne hp] using he
    have hdb := hL.m_details he'
    have hx : h ≠ x := by
      rintro rfl
      rw [hnew] at hdb
      cases hdb
    rw [hP.details_other hx hp]
    exact hdb

include hd

/-- The child was not listed before, since it was not stored. -/
theorem Placed.nodup_children {h : H256} {e : BlockDetails} (he : bc'.detailsDB h = some e) :
    e.children.Nodup := by
  by_cases hx : h = x
  · rw [hx, hP.details_self] at he
    cases he
    rw [hd]
    exact List.nodup_nil
  · by_cases hp : h = b.info.parentHash
    · rw [hp, hP.details_parent hne] at he
      cases he
      refine List.nodup_append.2 ⟨hL.nodup_children _, List.nodup_singleton _, ?_⟩
      intro c hc c' hc' hcc
      rw [List.mem_singleton.1 hc'] at hcc
      subst hcc
      obtain ⟨b', hb', -⟩ := (hL.mem_children _ _).1 hc
      rw [hL.block_none hnew] at hb'
      cases hb'
    · rw [hP.details_other hx hp] at he
      exact hL.nodup he

theorem Placed.mem_children {h : H256} {e : BlockDetails} (he : bc'.detailsDB h = some e) (c : H256) :
    c ∈ e.children ↔ ∃ b', bc'.blocksDB c = some b' ∧ b'.info.parentHash = h := by
  have hiff : (∃ b', bc'.blocksDB c = some b' ∧ b'.info.parentHash = h) ↔
      (c = x ∧ b.info.parentHash = h) ∨ ∃ b', bc.blocksDB c = some b' ∧ b'.info.parentHash = h := by
    rw [hP.blocksDB]
    by_cases hc : c = x
    · subst hc
      simp [hL.block_none hnew]
    · simp [hc]
  rw [hiff, ← hL.mem_children]
  by_cases hx : h = x
  · subst hx
    rw [hP.details_self] at he
    cases he
    -- a child of the new block would have given it details
    have hnone : bc.details h = NullBlockDetails := by
      rw [hL.details_eq, hnew]
      rfl
    rw [hd, hnone]
    simp [NullBlockDetails, hne.symm]
  · by_cases hp : h = b.info.parentHash
    · subst hp
      rw [hP.details_parent hne] at he
      cases he
      simp [or_comm]
    · rw [hP.details_other hx hp] at he
      rw [hL.details_eq, he]
      simp [Ne.symm hp]

theorem Placed.listed : bc'.Listed w where
  m_details := hP.m_details_listed hne hL hnew
  m_blocks {h e} he := by
    rw [hP.m_blocks] at he
    have hdb := hL.m_blocks he
    have hx : h ≠ x := by
      rintro rfl
      rw [hL.block_none hnew] at hdb
      cases hdb
    rw [hP.blocksDB, Function.update_of_ne hx]
    exact hdb
  stored {h e} he := by
    by_cases hx : h = x
    · subst hx
      refine ⟨?_, by rw [hP.details_self]; rfl⟩
      rintro rfl
      have := hL.genesis
      rw [hnew] at this
      cases this
    · rw [hP.blocksDB, Function.update_of_ne hx] at he
      obtain ⟨hg, hsome⟩ := hL.stored he
      exact ⟨hg, hP.isSome_of_isSome hne hsome⟩
  genesis := hP.isSome_of_isSome hne hL.genesis
  nodup := hP.nodup_children hne hL hd hnew
  children := hP.mem_children hne hL hd hnew
  parent {h e} he := by
    by_cases hx : h = x
    · subst hx
      rw [hP.blocksDB, Function.update_self] at he
      cases he
      rw [hP.details_parent hne]
      rfl
    · rw [hP.blocksDB, Function.update_of_ne hx] at he
      exact hP.isSome_of_isSome hne (hL.parent he)

end Placed

/-! ## Steps and runs -/

/-- The fields the invariant is about. -/
theorem Listed.congr (hL : bc.Listed w) (h1 : bc'.m_details = bc.m_details)
    (h2 : bc'.detailsDB = bc.detailsDB) (h3 : bc'.m_blocks = bc.m_blocks)
    (h4 : bc'.blocksDB = bc.blocksDB) : bc'.Listed w where
  m_details := by rw [h1, h2]; exact hL.m_details
  m_blocks := by rw [h3, h4]; exact hL.m_blocks
  stored := by rw [h2, h4]; exact hL.stored
  genesis := by rw [h2]; exact hL.genesis
  nodup := by rw [h2]; exact hL.nodup
  children := by rw [h2, h4]; exact hL.children
  parent := by rw [h2, h4]; exact hL.parent

theorem Listed.stakeChecked (hL : bc.Listed w) {b : BlockRLP} (h : StakeChecked w b bc bc') :
    bc'.Listed w := by
  obtain ⟨m, u, db, rfl, -⟩ := h
  exact hL.congr rfl rfl rfl rfl

theorem placed_writeBlock {bc1 : BlockChain} {b : BlockRLP} {x : H256}
    (hS : SameTree (bc.addChild b.info.parentHash x) bc1) (d : BlockDetails) (blooms : List LogBloom)
    (receipts : Bytes) : Placed bc (bc1.writeBlock b x d blooms receipts) b x d := by
  have hdetails : bc1.details b.info.parentHash =
      (bc.addChild b.info.parentHash x).details b.info.parentHash := by
    unfold details
    rw [hS.m_details, hS.detailsDB]
  refine ⟨hS.m_details, ?_, hS.m_blocks, ?_⟩
  · change Function.update (Function.update bc1.detailsDB _ (some (bc1.details _))) _ _ = _
    rw [hdetails, hS.detailsDB]
    rfl
  · change Function.update bc1.blocksDB _ _ = _
    rw [hS.blocksDB]
    rfl

/-- An insertion that comes to its end places the block. -/
theorem placed_insertBlockAndExtras {vb : VerifiedBlock} (hv : vb.info = vb.block.info)
    {receipts : Bytes} {td : U256} {r : ImportRoute}
    (h : bc.insertBlockAndExtras w vb receipts td = (.ok r, bc')) :
    Placed bc bc' vb.block (vb.info.hash w.crypto .WithSeal)
      ⟨toUnsigned vb.info.number, td, vb.info.parentHash, []⟩ := by
  unfold insertBlockAndExtras at h
  simp only at h
  split at h
  · cases h
  split at h
  · cases h
  · cases h
    rw [hv]
    exact placed_writeBlock (.refl _) _ _ _
  · have hreorg := sameTree_reorganise (w := w)
      (bc.addChild vb.info.parentHash (vb.info.hash w.crypto .WithSeal)) vb.block
    split at h
    · cases h
    · rename_i hre
      rw [hre] at hreorg
      cases h
      rw [hv] at hreorg ⊢
      obtain ⟨h1, h2, h3, h4⟩ := placed_writeBlock hreorg
        ⟨toUnsigned vb.block.info.number, td, vb.block.info.parentHash, []⟩ _ receipts
      unfold setHead
      split
      · exact ⟨h1, h2, h3, h4⟩
      · exact ⟨h1, h2, h3, h4⟩

theorem Listed.insertBlockAndExtras (hL : bc.Listed w) {vb : VerifiedBlock}
    (hv : vb.info = vb.block.info) (hF : bc.Fresh w vb.info) {receipts : Bytes} {td : U256}
    (hR : bc.Readable w vb.info receipts td)
    (hgo : (bc.insertBlockAndExtras w vb receipts td).1 ≠ .error .abort) :
    (bc.insertBlockAndExtras w vb receipts td).2.Listed w := by
  have hno := (insertBlockAndExtras_noThrow_iff hv receipts td).2 hR
  rcases h : bc.insertBlockAndExtras w vb receipts td with ⟨r, bc'⟩
  rw [h] at hno hgo
  cases r with
  | error e => exact absurd (hno e rfl ▸ rfl) hgo
  | ok route =>
    obtain ⟨hnew, hne⟩ := hF
    rw [hL.lookup_details] at hnew
    have hP := placed_insertBlockAndExtras hv h
    rw [hv] at hne hnew hP
    exact hP.listed hne hL rfl hnew

theorem Listed.importBlock (hL : bc.Listed w) {vb : VerifiedBlock} {mustBeNew : Bool} {now : ℤ}
    (hR : (Op.importBlock vb mustBeNew now).Real w bc) (hS : (Op.importBlock vb mustBeNew now).Sound w bc)
    (hO : (Op.importBlock vb mustBeNew now).Once w bc)
    (hgo : (bc.importBlock w vb mustBeNew now).1 ≠ .error .abort) :
    (bc.importBlock w vb mustBeNew now).2.Listed w := by
  rcases @importBlock_split w bc vb mustBeNew now with
    ⟨e, bc1, himp, hstake, -, -⟩ | ⟨tdIncrease, s, bc1, hen, hstake, -, himp⟩
  · rw [himp]
    exact hL.stakeChecked hstake
  · rw [himp] at hgo ⊢
    have hread := receiptBlooms_encodeReceipts (hR.2 _ _ hen)
    have hF : bc1.Fresh w vb.info := by
      have := hO ⟨_, _, hen⟩
      obtain ⟨m, u, db, rfl, -⟩ := hstake
      exact this
    refine (hL.stakeChecked hstake).insertBlockAndExtras hR.1 hF ⟨?_, fun _ => ?_⟩ hgo
    · rw [hread]
      exact noThrow_ok _
    · exact (hstake.sameReads.routeStored_iff _ _).2 (hS _ _ hen)

/-- `insert` fails before it has changed anything but a cache, or passes its checks and writes the
block. -/
theorem insert_split {b : BlockRLP} {receipts : Bytes} {mustBeNew : Bool} {now : ℤ}
    {r : Except Exception Unit} (h : bc.insert w b receipts mustBeNew now = (r, bc')) :
    StakeChecked w b bc bc' ∨
    (bc.InsertPasses w b receipts mustBeNew now ∧ ∃ bc1 blooms, StakeChecked w b bc bc1 ∧
      bc' = (bc1.addChildOnce b.info.parentHash (b.info.hash w.crypto .WithSeal)).writeBlock b
        (b.info.hash w.crypto .WithSeal) (bc.insertedDetails b.info) blooms receipts) := by
  have hstake : StakeChecked w b bc (bc.touchStake w b) :=
    stakeChecked_touchStake w b bc (bc.touchStake w b).stateDB
  unfold insert at h
  cases hout : bc.verifyBlock w b (bc.balanceRetriever w now) .OutOfOrderChecks with
  | error e =>
    rw [hout] at h
    cases h
    exact .inl (.refl ..)
  | ok vb =>
  obtain ⟨-, -, hv⟩ := verifyBlock_eq_ok hout
  simp only [hout, hv] at h
  split at h
  · cases h
    exact .inl (.refl ..)
  rename_i hchecks
  split at h
  · cases h
    exact .inl hstake
  · cases h
    exact .inl hstake
  · rename_i vb' blooms hver hblooms
    cases h
    refine .inr ⟨?_, _, blooms, hstake, rfl⟩
    rw [unit_bind_eq_ok, unit_bind_eq_ok, throwIf_eq_ok, bind_eq_ok] at hchecks
    obtain ⟨hnew, hknown, root, hroot, hrest⟩ := hchecks
    rw [unit_bind_eq_ok, unit_bind_eq_ok, throwIf_eq_ok] at hrest
    refine ⟨⟨vb, hout⟩, fun hb => ?_, by simpa using hknown, ?_, hrest.2.2, ⟨vb', hver⟩, blooms,
      hblooms⟩
    · rwa [if_pos hb] at hnew
    · rw [hroot, not_not.1 hrest.1]

/-- `insert` repeated on a block without children writes what is there. -/
theorem Listed.insert_again (hL : bc.Listed w) {b : BlockRLP} (hS : bc.SameLeaf w b)
    (blooms : List LogBloom) (receipts : Bytes) :
    ((bc.addChildOnce b.info.parentHash (b.info.hash w.crypto .WithSeal)).writeBlock b
      (b.info.hash w.crypto .WithSeal) (bc.insertedDetails b.info) blooms receipts).Listed w := by
  obtain ⟨hblock, hdetails⟩ := hS
  have hmem : b.info.hash w.crypto .WithSeal ∈ (bc.details b.info.parentHash).children :=
    (hL.mem_children _ _).2 ⟨b, hblock, rfl⟩
  obtain ⟨d, hd⟩ := Option.isSome_iff_exists.1 (hL.parent hblock)
  have heq : bc.details b.info.parentHash = d := by
    rw [hL.details_eq, hd]
    rfl
  have hR : Recached bc (bc.addChildOnce b.info.parentHash (b.info.hash w.crypto .WithSeal)) := by
    unfold addChildOnce
    rw [if_pos hmem]
    refine ⟨⟨rfl, rfl, rfl, rfl, rfl, rfl⟩, .inl, ?_, .inl, .inl⟩
    intro h e he
    change Function.update bc.m_details b.info.parentHash (some (bc.details b.info.parentHash)) h =
      some e at he
    by_cases hp : h = b.info.parentHash
    · subst hp
      rw [Function.update_self, heq] at he
      exact .inr (hd.trans he)
    · rw [Function.update_of_ne hp] at he
      exact .inl he
  generalize bc.addChildOnce b.info.parentHash (b.info.hash w.crypto .WithSeal) = bc1 at hR
  have hL1 := hL.recached hR
  have hparent : bc1.details b.info.parentHash = d := by
    rw [hL1.details_eq, hR.detailsDB, hd]
    rfl
  refine hL1.congr rfl ?_ rfl ?_
  · change Function.update (Function.update bc1.detailsDB _ (some (bc1.details b.info.parentHash))) _
      (some (bc.insertedDetails b.info)) = bc1.detailsDB
    rw [hparent, hR.detailsDB, ← hd, Function.update_eq_self, ← hdetails, Function.update_eq_self]
  · change Function.update bc1.blocksDB _ (some b) = bc1.blocksDB
    rw [hR.blocksDB, ← hblock, Function.update_eq_self]

theorem Listed.insert_fresh (hL : bc.Listed w) {b : BlockRLP} (hF : bc.Fresh w b.info)
    {d : BlockDetails} (hd : d.children = []) (blooms : List LogBloom) (receipts : Bytes) :
    ((bc.addChildOnce b.info.parentHash (b.info.hash w.crypto .WithSeal)).writeBlock b
      (b.info.hash w.crypto .WithSeal) d blooms receipts).Listed w := by
  obtain ⟨hnew, hne⟩ := hF
  rw [hL.lookup_details] at hnew
  have hmem : b.info.hash w.crypto .WithSeal ∉ (bc.details b.info.parentHash).children := by
    intro hc
    obtain ⟨b', hb', -⟩ := (hL.mem_children _ _).1 hc
    rw [hL.block_none hnew] at hb'
    cases hb'
  rw [addChildOnce, if_neg hmem]
  exact (placed_writeBlock (.refl _) d blooms receipts).listed hne hL hd hnew

theorem Listed.insert (hL : bc.Listed w) {b : BlockRLP} {receipts : Bytes} {mustBeNew : Bool} {now : ℤ}
    (hO : (Op.insert b receipts mustBeNew now).Once w bc) :
    (bc.insert w b receipts mustBeNew now).2.Listed w := by
  rcases h : bc.insert w b receipts mustBeNew now with ⟨r, bc'⟩
  rcases insert_split h with hstake | ⟨hpass, bc1, blooms, hstake, rfl⟩
  · exact hL.stakeChecked hstake
  · have hL1 := hL.stakeChecked hstake
    obtain ⟨m, u, db, rfl, -⟩ := hstake
    rcases hO hpass with hfresh | hleaf
    · exact hL1.insert_fresh hfresh rfl blooms receipts
    · exact hL1.insert_again hleaf blooms receipts

theorem Listed.insertWithoutParent (hL : bc.Listed w) {b : BlockRLP} {receipts : Bytes} {td : U256}
    {now : ℤ} (hS : (Op.insertWithoutParent b receipts td now).Sound w bc)
    (hO : (Op.insertWithoutParent b receipts td now).Once w bc)
    (hgo : (bc.insertWithoutParent w b receipts td now).1 ≠ .error .abort) :
    (bc.insertWithoutParent w b receipts td now).2.Listed w := by
  unfold BlockChain.insertWithoutParent at hgo ⊢
  cases hver : bc.verifyBlock w b (bc.balanceRetriever w now) .OutOfOrderChecks with
  | error e => exact hL
  | ok vb =>
  obtain ⟨-, hblock, hinfo⟩ := verifyBlock_eq_ok hver
  simp only [hver, ok_bind, hinfo] at hgo ⊢
  cases hnew : bc.checkBlockIsNew w b.info with
  | error e => exact hL
  | ok u =>
  cases htime : checkBlockTimestamp w b.info now with
  | error e => exact hL
  | ok u' =>
    rw [hnew, htime] at hgo
    have hread := hS ⟨vb, hver⟩ hnew htime
    have hfresh := hO ⟨vb, hver⟩ hnew htime
    rw [← hinfo] at hread hfresh
    exact hL.insertBlockAndExtras (by rw [hinfo, hblock]) hfresh hread hgo

theorem Listed.rewind (hL : bc.Listed w) (newHead : ℕ) : (bc.rewind w newHead).Listed w := by
  unfold BlockChain.rewind
  split
  · exact hL
  · obtain ⟨m, hm⟩ := clearCaches_eq bc (newHead + 1)
    have hL1 : (bc.clearCachesDuringChainReversion (newHead + 1)).Listed w := by
      rw [hm]
      exact hL.congr rfl rfl rfl rfl
    exact (hL1.recached (recached_touch (w := w) _ (.numberHash newHead))).congr rfl rfl rfl rfl

/-- What keeps the details coherent. -/
def Op.Keeps (w : World) (bc : BlockChain) (op : Op) : Prop :=
  op.Real w bc ∧ op.GoesOn w bc ∧ op.Sound w bc ∧ op.Once w bc

theorem Listed.step (hL : bc.Listed w) {op : Op} (h : op.Keeps w bc) : (bc.step w op).Listed w := by
  obtain ⟨hR, hgo, hS, hO⟩ := h
  cases op with
  | importBlock vb mustBeNew now => exact hL.importBlock hR hS hO hgo
  | importUnverified b mustBeNew now =>
    simp only [Op.GoesOn, BlockChain.step, perform, importUnverified] at hgo ⊢
    cases hver : bc.verifyBlock w b (bc.balanceRetriever w now) .OutOfOrderChecks with
    | error e => exact hL
    | ok vb =>
      obtain ⟨-, hblock, hinfo⟩ := verifyBlock_eq_ok hver
      rw [hver] at hgo
      refine hL.importBlock ⟨by rw [hinfo, hblock], hR vb hver⟩ ?_ ?_ hgo
      · intro tdIncrease s hen
        rw [hinfo]
        exact hS vb hver tdIncrease s hen
      · intro hen
        rw [hinfo]
        exact hO ⟨vb, hver, hen⟩
  | insert b receipts mustBeNew now => exact hL.insert hO
  | insertWithoutParent b receipts td now => exact hL.insertWithoutParent hS hO hgo
  | query q => exact hL.recached (recached_touch bc q)
  | garbageCollect => exact hL.recached (recached_garbageCollect bc).1
  | rewind newHead => exact hL.rewind newHead

end

/-! ## A block of the development network, inserted and inserted again -/

open Devnet (world genesis importOf heavy1 lightAndHeavy)

end BlockChain

end Petrachor
