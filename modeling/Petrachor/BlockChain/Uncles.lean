import Petrachor.BlockChain.Children

/-!
# Citing uncles

`commitToSeal` walks up from the grandparent of the block and cites children of the ancestors it passes;
`enact` asks of every cited uncle how deep it is and whether its parent is the ancestor of that depth. A child in
a list need not be stored, but where it is stored it names the block whose list it is in, and so the walk and the
check agree on the depth.
-/

namespace Petrachor

open ParentTree

namespace BlockChain

/-- Every child that the details of a block list, in the cache or in the database, is the hash of a block of the set
that names it as its parent. -/
def ListsChildren {w : World} (B : BlockSet w) (bc : BlockChain) : Prop :=
  ∀ h d, bc.Entry h d → ∀ c ∈ d.children, ∃ b ∈ B.carrier, b.info.m_hash = c ∧ b.info.parentHash = h

section Lists

variable {w : World} {B : BlockSet w} {bc bc' : BlockChain}

theorem ListsChildren.congr (hK : bc.ListsChildren B) (hm : bc'.m_details = bc.m_details)
    (hd : bc'.detailsDB = bc.detailsDB) : bc'.ListsChildren B := by
  intro h d he
  unfold Entry at he
  rw [hm, hd] at he
  exact hK h d he

theorem ListsChildren.recached (hK : bc.ListsChildren B) (hR : Recached bc bc') : bc'.ListsChildren B :=
  fun h d he => hK h d (hR.entry he)

theorem ListsChildren.stakeChecked (hK : bc.ListsChildren B) {b : BlockRLP} (hS : StakeChecked w b bc bc') :
    bc'.ListsChildren B := by
  obtain ⟨m, u, db, rfl, -⟩ := hS
  exact hK.congr rfl rfl

/-- What is said of the entries holds of what a lookup finds, also where it finds nothing. -/
theorem ListsChildren.details (hK : bc.ListsChildren B) (h : H256) :
    ∀ c ∈ (bc.details h).children, ∃ b ∈ B.carrier, b.info.m_hash = c ∧ b.info.parentHash = h := by
  unfold BlockChain.details lookup
  cases hm : bc.m_details h with
  | some d => exact hK h d (.inl hm)
  | none =>
    cases hd : bc.detailsDB h with
    | some d => exact hK h d (.inr hd)
    | none =>
      intro c hc
      cases hc

section Step

variable (hK : bc.ListsChildren B) {b : BlockRLP} (hB : b ∈ B.carrier)

include hK hB

theorem ListsChildren.addChild : (bc.addChild b.info.parentHash b.info.m_hash).ListsChildren B := by
  rintro h d (hd | hd) c hc
  · by_cases hp : h = b.info.parentHash
    · subst hp
      have hd' : ({ bc.details b.info.parentHash with
          children := (bc.details b.info.parentHash).children ++ [b.info.m_hash] } : BlockDetails) = d := by
        simpa [BlockChain.addChild] using hd
      rw [← hd', List.mem_append] at hc
      rcases hc with hc | hc
      · exact hK.details _ c hc
      · exact ⟨b, hB, (List.mem_singleton.1 hc).symm, rfl⟩
    · have hd' : bc.m_details h = some d := by
        simpa [BlockChain.addChild, Function.update_of_ne hp] using hd
      exact hK h d (.inl hd') c hc
  · exact hK h d (.inr hd) c hc

theorem ListsChildren.addChildOnce : (bc.addChildOnce b.info.parentHash b.info.m_hash).ListsChildren B := by
  unfold BlockChain.addChildOnce
  split
  · rintro h d (hd | hd) c hc
    · by_cases hp : h = b.info.parentHash
      · subst hp
        have hd' : bc.details b.info.parentHash = d := by simpa using hd
        exact hK.details _ c (hd' ▸ hc)
      · have hd' : bc.m_details h = some d := by simpa [Function.update_of_ne hp] using hd
        exact hK h d (.inl hd') c hc
    · exact hK h d (.inr hd) c hc
  · exact hK.addChild hB

omit hB in
/-- The batches write the details of the parent as they are cached, and a block without children. -/
theorem ListsChildren.writeBlock (b : BlockRLP) (x : H256) {d : BlockDetails} (hd : d.children = [])
    (blooms : List LogBloom) (receipts : Bytes) : (bc.writeBlock b x d blooms receipts).ListsChildren B := by
  rintro h e (he | he) c hc
  · exact hK h e (.inl he) c hc
  · change Function.update (Function.update bc.detailsDB b.info.parentHash _) x _ h = some e at he
    by_cases hx : h = x
    · subst hx
      rw [Function.update_self] at he
      cases he
      rw [hd] at hc
      cases hc
    · rw [Function.update_of_ne hx] at he
      by_cases hp : h = b.info.parentHash
      · subst hp
        rw [Function.update_self] at he
        cases he
        exact hK.details _ c hc
      · rw [Function.update_of_ne hp] at he
        exact hK h e (.inr he) c hc

theorem ListsChildren.insertBlockAndExtras {vb : VerifiedBlock} (hv : vb.info = b.info) (receipts : Bytes)
    (td : U256) : (bc.insertBlockAndExtras w vb receipts td).2.ListsChildren B := by
  have hchild : (bc.addChild vb.info.parentHash (vb.info.hash w.crypto .WithSeal)).ListsChildren B := by
    rw [hv, hash_eq (B.hash_ne_zero b hB)]
    exact hK.addChild hB
  unfold BlockChain.insertBlockAndExtras
  simp only
  split
  · exact hchild
  rename_i blooms _
  split
  · exact hchild
  · exact hchild.writeBlock _ _ rfl _ _
  · have hreorg := sameTree_reorganise (w := w)
      (bc.addChild vb.info.parentHash (vb.info.hash w.crypto .WithSeal)) vb.block
    have hK' := hchild.congr hreorg.m_details hreorg.detailsDB
    split
    · rename_i hre
      rw [hre] at hK'
      exact hK'
    · rename_i hre
      rw [hre] at hK'
      unfold setHead
      split
      · exact (hK'.writeBlock vb.block _ (d := ⟨_, _, _, []⟩) rfl blooms receipts).congr rfl rfl
      · exact hK'.writeBlock vb.block _ (d := ⟨_, _, _, []⟩) rfl blooms receipts

theorem ListsChildren.importBlock {vb : VerifiedBlock} (hv : vb.info = b.info) (mustBeNew : Bool)
    (now : ℤ) : (bc.importBlock w vb mustBeNew now).2.ListsChildren B := by
  rcases @importBlock_split w bc vb mustBeNew now with
    ⟨e, bc1, himp, hstake, -, -⟩ | ⟨tdIncrease, s, bc1, -, hstake, -, himp⟩
  · rw [himp]
    exact hK.stakeChecked hstake
  · rw [himp]
    exact (hK.stakeChecked hstake).insertBlockAndExtras hB hv _ _

end Step

theorem ListsChildren.step (hK : bc.ListsChildren B) {op : Op} (hB : op.Within B) :
    (bc.step w op).ListsChildren B := by
  unfold BlockChain.step
  cases op with
  | importBlock vb mustBeNew now => exact hK.importBlock hB.1 hB.2 mustBeNew now
  | importUnverified b mustBeNew now =>
    rcases h : bc.importUnverified w b mustBeNew now with ⟨r, bc'⟩
    simp only [perform, h]
    rcases importUnverified_cases h with ⟨e, -, rfl⟩ | ⟨vb, -, hv, he⟩
    · exact hK
    · have := hK.importBlock hB hv mustBeNew now
      rw [he] at this
      exact this
  | insert b receipts mustBeNew now =>
    rcases h : bc.insert w b receipts mustBeNew now with ⟨r, bc'⟩
    simp only [perform, h]
    rcases insert_split h with hstake | ⟨-, bc1, blooms, hstake, rfl⟩
    · exact hK.stakeChecked hstake
    · rw [hash_eq (B.hash_ne_zero b hB)]
      exact ((hK.stakeChecked hstake).addChildOnce hB).writeBlock b _ (d := bc.insertedDetails b.info) rfl _ _
  | insertWithoutParent b receipts td now =>
    rcases h : bc.insertWithoutParent w b receipts td now with ⟨r, bc'⟩
    simp only [perform, h]
    rcases insertWithoutParent_cases h with ⟨e, -, rfl⟩ | ⟨vb, -, hv, -, he⟩
    · exact hK
    · have := hK.insertBlockAndExtras hB hv receipts td
      rw [he] at this
      exact this
  | query q => exact hK.recached (recached_touch bc q)
  | garbageCollect => exact hK.recached (recached_garbageCollect bc).1
  | rewind newHead =>
    change (bc.rewind w newHead).ListsChildren B
    unfold rewind
    split
    · exact hK
    · obtain ⟨m, hm⟩ := clearCaches_eq bc (newHead + 1)
      have hK1 : (bc.clearCachesDuringChainReversion (newHead + 1)).ListsChildren B := by
        rw [hm]
        exact hK.congr rfl rfl
      exact (hK1.recached (recached_touch (w := w) _ (.numberHash newHead))).congr rfl rfl

theorem listsChildren_openFresh (B : BlockSet w) (genesisState : AccountTrie) :
    (openFresh w genesisState).ListsChildren B := by
  have hnil : ∀ {h d}, (openFresh w genesisState).detailsDB h = some d → d.children = [] := by
    intro h d hd
    simp only [openFresh, Function.update_apply] at hd
    split at hd
    · cases hd
      rfl
    · cases hd
  rintro h d (hd | hd) c hc
  · rw [hnil hd] at hc
    cases hc
  · rw [hnil hd] at hc
    cases hc

/-! ## The blocks of the lists -/

/-- A block is looked up under its own hash. -/
theorem TreeInv.block_hash (hI : bc.TreeInv w) {h : H256} {x : BlockRLP}
    (hx : bc.block w h = some x) : x.info.m_hash = h := by
  by_cases hg : h = genesisHash w
  · rw [BlockChain.block, if_pos hg] at hx
    cases hx
    exact hg.symm
  · rw [hI.coherent.block_eq hg] at hx
    obtain ⟨hm, hne⟩ := hI.block_recorded h x hx
    obtain ⟨x', hx', hh, -⟩ := hI.blocks h hm hne
    rw [hx] at hx'
    cases hx'
    exact hh

/-- A listed child that is stored names the block whose list it is in, and is one above it. -/
theorem ChainInv.child_spec (hI : bc.ChainInv w B) (hK : bc.ListsChildren B) {p u : H256} {x : BlockRLP}
    (hu : u ∈ (bc.details p).children) (hx : bc.block w u = some x) :
    x ∈ B.carrier ∧ p ∈ bc.recorded ∧ x.info.parentHash = p ∧ x.info.number = bc.heightOf p + 1 := by
  obtain ⟨y, hy, rfl, rfl⟩ := hK.details p u hu
  have hg := B.hash_ne_genesis y hy
  rw [hI.coherent.block_eq hg] at hx
  obtain ⟨hm, -⟩ := hI.block_recorded _ x hx
  obtain ⟨x', hx', hh, hp, hn⟩ := hI.blocks _ hm hg
  rw [hx] at hx'
  cases hx'
  obtain rfl := B.hash_inj x (hI.mem hx) y hy hh
  rw [hp]
  refine ⟨hy, hI.tree.parent_mem _ hm hg, rfl, ?_⟩
  rw [hn, hI.tree.height_parent _ hm hg]
  push_cast
  rfl

end Lists

end BlockChain

namespace Block

open BlockChain

section

variable {w : World} {B : BlockSet w} {bc : BlockChain}

/-! ## The walk -/

theorem pickUncles_spec : ∀ (room : ℕ) (excluded us : List H256),
    (pickUncles room excluded us).length ≤ room ∧ (pickUncles room excluded us).Nodup ∧
      ∀ u ∈ pickUncles room excluded us, u ∈ us ∧ u ∉ excluded
  | 0, _, _ => by
    rw [pickUncles]
    exact ⟨le_rfl, List.nodup_nil, nofun⟩
  | room + 1, excluded, [] => by
    rw [show pickUncles (room + 1) excluded [] = [] by simp [pickUncles]]
    exact ⟨Nat.zero_le _, List.nodup_nil, nofun⟩
  | room + 1, excluded, x :: us => by
    rw [pickUncles]
    by_cases hx : x ∈ excluded
    · obtain ⟨hlen, hnodup, hmem⟩ := pickUncles_spec (room + 1) excluded us
      rw [if_pos hx]
      exact ⟨hlen, hnodup, fun u hu => ⟨List.mem_cons_of_mem _ (hmem u hu).1, (hmem u hu).2⟩⟩
    · obtain ⟨hlen, hnodup, hmem⟩ := pickUncles_spec room (x :: excluded) us
      rw [if_neg hx]
      refine ⟨Nat.succ_le_succ hlen, List.nodup_cons.2 ⟨fun hm => ?_, hnodup⟩, fun u hu => ?_⟩
      · exact (hmem x hm).2 List.mem_cons_self
      · rcases List.mem_cons.1 hu with rfl | hu
        · exact ⟨List.mem_cons_self, hx⟩
        · exact ⟨List.mem_cons_of_mem _ (hmem u hu).1, fun he => (hmem u hu).2 (List.mem_cons_of_mem _ he)⟩

/-- What the walk cites: at most as many as there is room for, all different, none excluded, each a child of an
ancestor within the generations, reached before the genesis block. -/
theorem selectUncles_spec : ∀ (gen room : ℕ) (excluded : List H256) (p : H256) {us : List H256},
    selectUncles w bc gen room excluded p = .ok us →
      us.length ≤ room ∧ us.Nodup ∧ ∀ u ∈ us, u ∉ excluded ∧
        ∃ k < gen, u ∈ (bc.details (bc.parentOf^[k] p)).children ∧
          ∀ j ≤ k, bc.parentOf^[j] p ≠ genesisHash w
  | 0, _, _, _, _, h => by
    cases h
    exact ⟨Nat.zero_le _, List.nodup_nil, nofun⟩
  | gen + 1, room, excluded, p, us, h => by
    rw [selectUncles] at h
    by_cases hstop : p = genesisHash w ∨ room = 0
    · rw [if_pos hstop] at h
      cases h
      exact ⟨Nat.zero_le _, List.nodup_nil, nofun⟩
    rw [if_neg hstop, unit_bind_eq_ok, bind_eq_ok] at h
    obtain ⟨-, rest, hrest, h⟩ := h
    cases h
    obtain ⟨hlen, hnodup, hmem⟩ := pickUncles_spec room excluded (bc.details p).children
    obtain ⟨hlen', hnodup', hmem'⟩ := selectUncles_spec gen _ _ _ hrest
    refine ⟨?_, List.nodup_append.2 ⟨hnodup, hnodup', ?_⟩, fun u hu => ?_⟩
    · rw [List.length_append]
      omega
    · -- what this generation has picked is excluded for the next ones
      rintro u hu _ hu' rfl
      exact (hmem' u hu').1 (List.mem_append_left _ hu)
    rcases List.mem_append.1 hu with hu | hu
    · refine ⟨(hmem u hu).2, 0, Nat.succ_pos _, (hmem u hu).1, fun j hj => ?_⟩
      obtain rfl := Nat.le_zero.1 hj
      exact fun h0 => hstop (.inl h0)
    · obtain ⟨hnot, k, hk, hchild, hne⟩ := hmem' u hu
      refine ⟨fun he => hnot (List.mem_append_right _ he), k + 1, Nat.succ_lt_succ hk, hchild, ?_⟩
      rintro (_ | j) hj
      · exact fun h0 => hstop (.inl h0)
      · exact hne j (Nat.le_of_succ_le_succ hj)

theorem nthParent_eq (bc : BlockChain) : ∀ (n : ℕ) (h : H256), nthParent bc n h = bc.parentOf^[n] h
  | 0, _ => rfl
  | n + 1, h => by
    rw [nthParent, nthParent_eq bc n, Function.iterate_succ_apply]
    rfl

/-! ## The check -/

/-- What `enact` asks of the uncles that a header's block cites. -/
structure UnclesFit (w : World) (bc : BlockChain) (current : BlockHeader) (uncles : List BlockHeader) : Prop where
  length_le : uncles.length ≤ 2
  nodup : (uncles.map BlockHeader.m_hash).Nodup
  notKin : ∀ u ∈ uncles, u.m_hash ∉ bc.allKinFrom w 6 current.parentHash
  depth : ∀ u ∈ uncles, 1 ≤ current.number - u.number ∧ current.number - u.number ≤ 6
  ancestor : ∀ u ∈ uncles, u.parentHash =
    nthParent bc ((current.number - u.number).toNat - 1) (bc.details current.parentHash).parent

theorem checkUncles_eq_ok {current : BlockHeader} : ∀ {excluded : List H256} {uncles : List BlockHeader},
    checkUncles w bc current excluded uncles = .ok () ↔ (uncles.map BlockHeader.m_hash).Nodup ∧
      ∀ u ∈ uncles, u.m_hash ∉ excluded ∧ checkUncle w bc current u = .ok ()
  | excluded, [] => by simp [checkUncles]
  | excluded, u :: uncles => by
    rw [checkUncles, unit_bind_eq_ok, unit_bind_eq_ok, throwIf_eq_ok, checkUncles_eq_ok, List.map_cons,
      List.nodup_cons, List.forall_mem_cons]
    constructor
    · rintro ⟨hu, hcheck, hnodup, hrest⟩
      refine ⟨⟨fun hm => ?_, hnodup⟩, ⟨hu, hcheck⟩, fun x hx => ?_⟩
      · obtain ⟨x, hx, he⟩ := List.mem_map.1 hm
        exact (hrest x hx).1 (he ▸ List.mem_cons_self)
      · exact ⟨fun he => (hrest x hx).1 (List.mem_cons_of_mem _ he), (hrest x hx).2⟩
    · rintro ⟨⟨hnot, hnodup⟩, ⟨hu, hcheck⟩, hrest⟩
      refine ⟨hu, hcheck, hnodup, fun x hx => ⟨fun he => ?_, (hrest x hx).2⟩⟩
      rcases List.mem_cons.1 he with he | he
      · exact hnot (he ▸ List.mem_map_of_mem hx)
      · exact (hrest x hx).1 he

/-! ## The walk passes the check -/

/-- The block is being built on the recorded block `h`. -/
structure On (w : World) (bc : BlockChain) (b : Block) (h : H256) : Prop where
  mem : h ∈ bc.recorded
  previous : bc.info w h = .ok b.m_previousBlock
  parentHash : b.m_currentBlock.parentHash = h
  number : b.m_currentBlock.number = b.m_previousBlock.number + 1

theorem exists_of_mem_forall₂ {α β : Type} {R : α → β → Prop} {l : List α} {r : List β} (h : List.Forall₂ R l r)
    {y : β} (hy : y ∈ r) : ∃ x ∈ l, R x y := by
  induction h with
  | nil => cases hy
  | cons hxy _ ih =>
    rcases List.mem_cons.1 hy with rfl | hy
    · exact ⟨_, List.mem_cons_self, hxy⟩
    · obtain ⟨x, hx, hR⟩ := ih hy
      exact ⟨x, List.mem_cons_of_mem _ hx, hR⟩

theorem forall₂_of_citedBlocks {us : List H256} {cited : List BlockRLP} (h : citedBlocks w bc us = .ok cited) :
    List.Forall₂ (fun u x => bc.block w u = some x) us cited := by
  refine (forall₂_of_mapM h).imp fun u x hux => ?_
  cases hu : bc.block w u with
  | none =>
    rw [hu] at hux
    cases hux
  | some y =>
    rw [hu] at hux
    cases hux
    rfl

section On

variable {b : Block} {h : H256} {us : List H256} {cited : List BlockRLP} (hw : w.Valid) (hI : bc.ChainInv w B)
  (hb : b.On w bc h)

include hw hI hb

theorem On.previous_spec : b.m_previousBlock.m_hash = h ∧ b.m_previousBlock.number = bc.heightOf h ∧
    (h ≠ genesisHash w → b.m_previousBlock.parentHash = bc.parentOf h) := by
  obtain ⟨x, hx, hh, hn, -⟩ := hI.block_spec hw hb.mem
  have hprev := hb.previous
  rw [BlockChain.info, hx] at hprev
  have hxp : x.info = b.m_previousBlock := by injection hprev
  rw [← hxp]
  refine ⟨hh, hn, fun hg => ?_⟩
  obtain ⟨x', hx', -, hp, -⟩ := hI.blocks h hb.mem hg
  rw [hI.coherent.block_eq hg, hx'] at hx
  cases hx
  exact hp

/-- The walk of a block on `h` starts at the parent of `h`; the ancestor it finds a child at is recorded, above the
genesis block. -/
theorem On.unclesToCite_spec (h0 : unclesToCite w bc b = .ok us) :
    us.length ≤ 2 ∧ us.Nodup ∧ ∀ u ∈ us, u ∉ bc.allKinFrom w 6 h ∧
      ∃ k < 6, k + 1 ≤ bc.heightOf h ∧ u ∈ (bc.details (bc.parentOf^[k + 1] h)).children := by
  obtain ⟨-, hn, hp⟩ := hb.previous_spec hw hI
  unfold unclesToCite at h0
  by_cases hg : b.m_previousBlock.number ≠ 0
  · rw [if_pos hg, hb.parentHash] at h0
    have hne : h ≠ genesisHash w := by
      rintro rfl
      rw [hI.tree.height_root] at hn
      exact hg hn
    rw [hp hne] at h0
    obtain ⟨hlen, hnodup, hmem⟩ := selectUncles_spec 6 2 _ _ h0
    refine ⟨hlen, hnodup, fun u hu => ?_⟩
    obtain ⟨hnot, k, hk, hchild, hreach⟩ := hmem u hu
    refine ⟨hnot, k, hk, ?_, by rwa [Function.iterate_succ_apply]⟩
    -- the walk would have met the genesis block
    by_contra hlt
    have hheight := hI.tree.height_parent h hb.mem hne
    refine hreach (bc.heightOf (bc.parentOf h)) (by omega) ?_
    exact hI.tree.iterate_height (hI.tree.parent_mem h hb.mem hne)
  · rw [if_neg hg] at h0
    cases h0
    exact ⟨Nat.zero_le _, List.nodup_nil, nofun⟩

variable (hK : bc.ListsChildren B)

include hK

/-- The blocks cited are those of the hashes, each a child of the ancestor its depth says. -/
theorem On.cited_spec (h0 : unclesToCite w bc b = .ok us) (h1 : citedBlocks w bc us = .ok cited) :
    cited.map (fun x => x.info.m_hash) = us ∧ ∀ x ∈ cited, x ∈ B.carrier ∧ ∃ k < 6,
      bc.parentOf^[k + 1] h ∈ bc.recorded ∧ bc.heightOf (bc.parentOf^[k + 1] h) + (k + 1) = bc.heightOf h ∧
      x.info.parentHash = bc.parentOf^[k + 1] h ∧ x.info.number = bc.heightOf (bc.parentOf^[k + 1] h) + 1 := by
  obtain ⟨-, -, hmem⟩ := hb.unclesToCite_spec hw hI h0
  have hread := forall₂_of_citedBlocks h1
  constructor
  · refine (List.forall₂_eq_eq_eq ▸ List.forall₂_map_right_iff.2 (hread.imp fun u x hux => ?_) : us = _).symm
    exact (hI.block_hash hux).symm
  · intro x hx
    obtain ⟨u, hu, hux⟩ := exists_of_mem_forall₂ hread hx
    obtain ⟨-, k, hk, hle, hchild⟩ := hmem u hu
    obtain ⟨hB, hp, hpar, hnum⟩ := hI.child_spec hK hchild hux
    exact ⟨hB, k, hk, hp, hI.tree.height_iterate hb.mem hle, hpar, hnum⟩

/-- What the walk cites fits every header on the same parent, one above it. -/
theorem On.unclesFit (h0 : unclesToCite w bc b = .ok us) (h1 : citedBlocks w bc us = .ok cited)
    {current : BlockHeader} (hp : current.parentHash = h) (hn : current.number = b.m_previousBlock.number + 1) :
    UnclesFit w bc current (cited.map BlockRLP.info) := by
  obtain ⟨hlen, hnodup, hmem⟩ := hb.unclesToCite_spec hw hI h0
  obtain ⟨hhash, hcited⟩ := hb.cited_spec hw hI hK h0 h1
  rw [(hb.previous_spec hw hI).2.1] at hn
  have hmap : (cited.map BlockRLP.info).map BlockHeader.m_hash = us := by rw [List.map_map, ← hhash]; rfl
  have hdepth : ∀ x ∈ cited, ∃ k : ℕ, k < 6 ∧ current.number - x.info.number = k + 1 ∧
      x.info.parentHash = bc.parentOf^[k + 1] h := by
    intro x hx
    obtain ⟨-, k, hk, -, hheight, hpar, hnum⟩ := hcited x hx
    exact ⟨k, hk, by omega, hpar⟩
  refine ⟨?_, by rwa [hmap], ?_, ?_, ?_⟩
  · rwa [← hmap, List.length_map] at hlen
  · intro u hu
    rw [hp]
    exact (hmem _ (hmap ▸ List.mem_map_of_mem hu)).1
  · rw [List.forall_mem_map]
    intro x hx
    obtain ⟨k, hk, hd, -⟩ := hdepth x hx
    omega
  · rw [List.forall_mem_map]
    intro x hx
    obtain ⟨k, hk, hd, hpar⟩ := hdepth x hx
    rw [hd, nthParent_eq, hp, hpar, show ((k : ℤ) + 1).toNat - 1 = k by omega, Function.iterate_succ_apply]
    rfl

/-- The whole check passes on a chain that has come as far as the parent of `h`, for a block of the set, if the cited
blocks are later than their parents. -/
theorem On.checkUncles (h0 : unclesToCite w bc b = .ok us) (h1 : citedBlocks w bc us = .ok cited)
    (hlater : ∀ x ∈ cited, ∀ p, bc.info w x.info.parentHash = .ok p → p.timestamp < x.info.timestamp)
    (hhead : bc.heightOf h ≤ bc.m_lastBlockNumber + 1) {y : BlockRLP} (hy : y ∈ B.carrier)
    (hp : y.info.parentHash = h) (hn : y.info.number = b.m_previousBlock.number + 1) :
    Block.checkUncles w bc y.info (y.info.hash w.crypto .WithSeal :: bc.allKinFrom w 6 y.info.parentHash)
      (cited.map BlockRLP.info) = .ok () := by
  have hfit := hb.unclesFit hw hI hK h0 h1 hp hn
  obtain ⟨-, hcited⟩ := hb.cited_spec hw hI hK h0 h1
  have hnum := (hb.previous_spec hw hI).2.1
  have hbound := hI.bound h hb.mem
  unfold c_invalidNumber at hbound
  refine checkUncles_eq_ok.2 ⟨hfit.nodup, List.forall_mem_map.2 fun x hx => ⟨?_, ?_⟩⟩
  · obtain ⟨hB, k, -, -, hheight, -, hxn⟩ := hcited x hx
    have hkin := hfit.notKin _ (List.mem_map_of_mem hx)
    refine List.not_mem_cons_of_ne_of_not_mem ?_ hkin
    -- the new block is another one of the set, since it is higher
    rw [hash_eq (B.hash_ne_zero y hy)]
    intro he
    obtain rfl := B.hash_inj x hB y hy he
    omega
  · obtain ⟨-, k, -, hmem, hheight, hpar, hxn⟩ := hcited x hx
    have hdepth := hfit.depth _ (List.mem_map_of_mem hx)
    have hanc := hfit.ancestor _ (List.mem_map_of_mem hx)
    obtain ⟨z, hz, hzh, hzn, -⟩ := hI.block_spec hw hmem
    have hinfo : bc.info w x.info.parentHash = .ok z.info := by
      rw [hpar, BlockChain.info, hz]
    have hzhash : z.info.hash w.crypto .WithSeal = x.info.parentHash := by
      rw [hash_eq (by rw [hzh]; exact fun h => hI.zero (h ▸ hmem)), hzh, hpar]
    have hknown : bc.isKnown w x.info.parentHash true = true := by
      rw [hpar]
      exact hI.isKnown_iff.2 ⟨hmem, by omega⟩
    have hverify : x.info.verify w.crypto .CheckNothingNew z.info none = .ok () := by
      refine BlockHeader.verify_eq_ok.2 ⟨by omega, fun hs => absurd rfl hs, fun _ => ?_, fun _ hb => by cases hb⟩
      exact BlockHeader.verifyParent_eq_ok.2 ⟨fun _ => hzhash, hlater x hx _ hinfo, by rw [hxn, hzn]⟩
    unfold checkUncle
    rw [throwIf_neg (by rw [hknown]; decide), ok_bind, hinfo, ok_bind]
    dsimp only
    rw [throwIf_neg (by omega), ok_bind, throwIf_neg (by omega), ok_bind,
      throwIf_neg (not_not.2 (hanc.symm.trans hzhash.symm)), ok_bind]
    exact hverify

end On

/-- What `commitToSeal` does with the uncles, and with where the block stands. -/
theorem commitToSeal_eq_ok {b b' : Block} {extraData : Bytes} (h : b.commitToSeal w bc extraData = .ok b') :
    ∃ us cited, unclesToCite w bc b = .ok us ∧ citedBlocks w bc us = .ok cited ∧
      b'.m_currentUncles = RLPStream.encodeList (cited.map BlockRLP.header) ∧
      b'.m_currentBlock.parentHash = b.m_previousBlock.hash w.crypto .WithSeal ∧
      b'.m_currentBlock.number = b.m_currentBlock.number := by
  unfold commitToSeal at h
  rw [unit_bind_eq_ok, bind_eq_ok] at h
  obtain ⟨-, us, h0, h⟩ := h
  rw [bind_eq_ok] at h
  obtain ⟨cited, h1, h⟩ := h
  rw [bind_eq_ok] at h
  obtain ⟨txs, -, h⟩ := h
  cases h
  -- before anything else the block goes back to what it was before it was last committed
  have hkept : ∀ c : Block, c =
      (if b.m_committedToSeal then b.uncommitToSeal else { b with m_precommit := b.m_state }) →
      c.m_previousBlock = b.m_previousBlock ∧ c.m_currentBlock = b.m_currentBlock := by
    rintro c rfl
    unfold uncommitToSeal
    cases b.m_committedToSeal with
    | true => exact ⟨rfl, rfl⟩
    | false => exact ⟨rfl, rfl⟩
  obtain ⟨hprev, hcur⟩ := hkept _ rfl
  refine ⟨us, cited, ?_, h1, rfl, ?_, ?_⟩
  · unfold unclesToCite at h0 ⊢
    rwa [hprev, hcur] at h0
  · have hhash := congrArg (fun p => BlockHeader.hash w.crypto p .WithSeal) hprev
    exact hhash
  · have hnumber := congrArg BlockHeader.number hcur
    exact hnumber

/-- In every run that keeps to the tree, and for every block of it that a block is built on, the uncles that
`commitToSeal` includes meet what `enact` asks of them. The whole check passes for the block that is sealed from it on
a chain that has come as far, where the uncles are later than their parents. -/
theorem commitToSeal_uncles (hw : w.Valid) (genesisState : AccountTrie) {ops : List Op}
    (hrun : StateRun.Along (BlockChain.step w) (fun bc op => op.Within B ∧ op.Fits w bc) (openFresh w genesisState) ops)
    {b b' : Block} {h : H256} {extraData : Bytes}
    (hb : b.On w (StateRun.run (BlockChain.step w) (openFresh w genesisState) ops) h)
    (hc : b.commitToSeal w (StateRun.run (BlockChain.step w) (openFresh w genesisState) ops) extraData = .ok b') :
    let bc := StateRun.run (BlockChain.step w) (openFresh w genesisState) ops
    ∃ us cited, unclesToCite w bc b = .ok us ∧ citedBlocks w bc us = .ok cited ∧
      b'.m_currentUncles = RLPStream.encodeList (cited.map BlockRLP.header) ∧
      UnclesFit w bc b'.m_currentBlock (cited.map BlockRLP.info) ∧
      (bc.heightOf h ≤ bc.m_lastBlockNumber + 1 →
        (∀ x ∈ cited, ∀ p, bc.info w x.info.parentHash = .ok p → p.timestamp < x.info.timestamp) →
        ∀ y ∈ B.carrier, y.info.parentHash = b'.m_currentBlock.parentHash → y.info.number = b'.m_currentBlock.number →
          checkUncles w bc y.info (y.info.hash w.crypto .WithSeal :: bc.allKinFrom w 6 y.info.parentHash)
            (cited.map BlockRLP.info) = .ok ()) := by
  intro bc
  have hI : bc.ChainInv w B := chainInv_run hw (chainInv_openFresh hw B genesisState) hrun
  have hK : bc.ListsChildren B :=
    StateRun.invariant (ListsChildren B) (fun _ _ hK hP => hK.step hP.1) (listsChildren_openFresh B genesisState) hrun
  obtain ⟨us, cited, h0, h1, huncles, hparent, hnumber⟩ := commitToSeal_eq_ok hc
  have hprev := (hb.previous_spec hw hI).1
  have hph : b'.m_currentBlock.parentHash = h := by
    rw [hparent, hash_eq (by rw [hprev]; exact fun h0 => hI.zero (h0 ▸ hb.mem)), hprev]
  rw [hb.number] at hnumber
  refine ⟨us, cited, h0, h1, huncles, hb.unclesFit hw hI hK h0 h1 hph hnumber, fun hhead hlater y hy hp hn => ?_⟩
  exact hb.checkUncles hw hI hK h0 h1 hlater hhead hy (hp.trans hph) (hn.trans hnumber)

end

/-! ## An uncle of the development network -/

open Devnet (world genesis importOf)

def trunk : Devnet.Move := ⟨2, false, 1, 0⟩
def kept : Devnet.Move := ⟨3, false, 1, 0⟩
def beside : Devnet.Move := ⟨4, true, 1, 0⟩
def onKept : Devnet.Move := ⟨5, true, 1, 0⟩

/-- Two blocks on the first one, and one on the one of them. -/
def uncleBranches : Devnet.Branches where
  ways := {l | l ∈ [[], [trunk], [kept, trunk], [beside, trunk], [onKept, kept, trunk]]}
  nil_mem := List.mem_cons_self
  tail_mem := by
    intro m l hl
    simp only [Set.mem_ofPred_eq, List.mem_cons, List.not_mem_nil, or_false, reduceCtorEq, false_or, List.cons.injEq]
      at hl ⊢
    rcases hl with ⟨-, rfl⟩ | ⟨-, rfl⟩ | ⟨-, rfl⟩ | ⟨-, rfl⟩ <;> simp
  sound := by
    intro l hl
    simp only [Set.mem_ofPred_eq, List.mem_cons, List.not_mem_nil, or_false] at hl
    rcases hl with rfl | rfl | rfl | rfl | rfl <;> decide
  hash_inj := by
    have hinj : ∀ l ∈ [[], [trunk], [kept, trunk], [beside, trunk], [onKept, kept, trunk]],
        ∀ l' ∈ [[], [trunk], [kept, trunk], [beside, trunk], [onKept, kept, trunk]],
          Devnet.hash l = Devnet.hash l' → l = l' := by
      decide +kernel
    exact fun {l l'} hl hl' he => hinj l hl l' hl' he

theorem exists_ok_of_toOption {ε α : Type} {x : Except ε α} (h : x.toOption.isSome = true) : ∃ a, x = .ok a := by
  cases x with
  | error e => cases h
  | ok a => exact ⟨a, rfl⟩

def uncleImports : List Op := [importOf [trunk], importOf [kept, trunk], importOf [beside, trunk]]

/-- The chain with a block beside its head. -/
def withUncle : BlockChain := StateRun.run (BlockChain.step world) genesis uncleImports

theorem along_uncleImports : StateRun.Along (BlockChain.step world)
    (fun bc op => op.Within uncleBranches.blockSet ∧ op.Fits world bc) (openFresh world (Devnet.state []))
    uncleImports := by
  have hwithin : ∀ {m l}, m :: l ∈ uncleBranches.ways → (importOf (m :: l)).Within uncleBranches.blockSet :=
    fun hl => ⟨⟨_, _, hl, rfl⟩, rfl⟩
  refine ⟨⟨hwithin (by simp [uncleBranches]), ?_⟩, ⟨hwithin (by simp [uncleBranches]), ?_⟩,
    ⟨hwithin (by simp [uncleBranches]), ?_⟩, trivial⟩
  · show (Devnet.block [trunk]).info.number ≠ _
    decide
  · show (Devnet.block [kept, trunk]).info.number ≠ _
    decide
  · show (Devnet.block [beside, trunk]).info.number ≠ _
    decide

/-- An empty block on the head. -/
def third : Block :=
  { Block.new world 0 with
    m_previousBlock := Devnet.header [kept, trunk]
    m_currentBlock := { Devnet.header [] with parentHash := Devnet.hash [kept, trunk], number := 3 } }

/-- What the chain finds where `third` is committed to seal. -/
theorem withUncle_finds : (withUncle.detailsDB (Devnet.hash [kept, trunk])).isSome = true ∧
    withUncle.info world (Devnet.hash [kept, trunk]) = .ok (Devnet.header [kept, trunk]) ∧
    withUncle.info world (Devnet.hash [trunk]) = .ok (Devnet.header [trunk]) ∧
    withUncle.heightOf (Devnet.hash [kept, trunk]) ≤ withUncle.m_lastBlockNumber + 1 ∧
    (third.commitToSeal world withUncle []).toOption.isSome = true ∧
    unclesToCite world withUncle third = .ok [Devnet.hash [beside, trunk]] ∧
    citedBlocks world withUncle [Devnet.hash [beside, trunk]] = .ok [Devnet.block [beside, trunk]] := by
  decide +kernel

/-- The block beside the head is cited as an uncle, and the block that is sealed with it passes the check. -/
theorem commitToSeal_third : ∃ b', third.commitToSeal world withUncle [] = .ok b' ∧
    b'.m_currentUncles = RLPStream.encodeList [(Devnet.block [beside, trunk]).header] ∧
    UnclesFit world withUncle b'.m_currentBlock [Devnet.header [beside, trunk]] ∧
    checkUncles world withUncle (Devnet.header [onKept, kept, trunk])
      ((Devnet.header [onKept, kept, trunk]).hash world.crypto .WithSeal ::
        withUncle.allKinFrom world 6 (Devnet.hash [kept, trunk])) [Devnet.header [beside, trunk]] = .ok () := by
  obtain ⟨hmem, hprev, htrunk, hhead, hsome, hus, hcited⟩ := withUncle_finds
  have hon : third.On world withUncle (Devnet.hash [kept, trunk]) := ⟨hmem, hprev, rfl, rfl⟩
  obtain ⟨b', hc⟩ := exists_ok_of_toOption hsome
  obtain ⟨us, cited, h0, h1, huncles, hfit, hcheck⟩ :=
    commitToSeal_uncles Devnet.world_valid (Devnet.state []) along_uncleImports hon hc
  obtain rfl : _ = us := Except.ok.inj (hus.symm.trans h0)
  obtain rfl : _ = cited := Except.ok.inj (hcited.symm.trans h1)
  obtain ⟨-, -, -, -, -, hparent, hnumber⟩ := commitToSeal_eq_ok hc
  have hlater : ∀ x ∈ [Devnet.block [beside, trunk]], ∀ p, withUncle.info world x.info.parentHash = .ok p →
      p.timestamp < x.info.timestamp := by
    intro x hx p hp
    obtain rfl := List.mem_singleton.1 hx
    obtain rfl : _ = p := Except.ok.inj (htrunk.symm.trans hp)
    decide
  have hph : (Devnet.header [onKept, kept, trunk]).parentHash = b'.m_currentBlock.parentHash :=
    (hparent.trans (hash_eq (show third.m_previousBlock.m_hash ≠ 0 by decide))).symm
  have hn : (Devnet.header [onKept, kept, trunk]).number = b'.m_currentBlock.number := by
    rw [hnumber]
    decide
  exact ⟨b', hc, huncles, hfit, hcheck hhead hlater (Devnet.block [onKept, kept, trunk])
    ⟨_, _, by simp [uncleBranches], rfl⟩ hph hn⟩

/-! ## A child with a wrong number -/

def strayHeader : BlockHeader := { Devnet.header [beside, trunk] with number := 100 }

/-- The block beside the head says that it is the hundredth. -/
def stray : BlockRLP :=
  { Devnet.block [beside, trunk] with
    info := strayHeader
    header := strayHeader.wire 100 (Devnet.timestamp [beside, trunk]) }

def strayBytes : Bytes := RLPStream.encodeList [stray.header, RLPStream.encodeList [], RLPStream.encodeList []]

def straySet : BlockSet world where
  carrier := {b | b ∈ [Devnet.block [trunk], Devnet.block [kept, trunk], stray]}
  hash_ne_zero := by
    have hall : ∀ b ∈ [Devnet.block [trunk], Devnet.block [kept, trunk], stray], b.info.m_hash ≠ 0 := by decide
    exact hall
  hash_ne_genesis := by
    have hall : ∀ b ∈ [Devnet.block [trunk], Devnet.block [kept, trunk], stray], b.info.m_hash ≠ genesisHash world := by
      decide
    exact hall
  hash_inj := by
    intro b hb b' hb' he
    simp only [Set.mem_ofPred_eq, List.mem_cons, List.not_mem_nil, or_false] at hb hb'
    rcases hb with rfl | rfl | rfl <;> rcases hb' with rfl | rfl | rfl <;>
      first | rfl | exact absurd he (by decide)

def strayOps : List Op :=
  [importOf [trunk], importOf [kept, trunk], .insertWithoutParent stray (RLPStream.encodeList []) 0 (2 ^ 62)]

def withStray : BlockChain := StateRun.run (BlockChain.step world) genesis strayOps

theorem withStray_finds : BlockRLP.ofBytes world.crypto strayBytes = .ok stray ∧
    (withStray.detailsDB (Devnet.hash [kept, trunk])).isSome = true ∧
    withStray.info world (Devnet.hash [kept, trunk]) = .ok (Devnet.header [kept, trunk]) ∧
    (third.commitToSeal world withStray []).toOption.isSome = true ∧
    unclesToCite world withStray third = .ok [stray.info.m_hash] ∧
    citedBlocks world withStray [stray.info.m_hash] = .ok [stray] ∧
    checkUncles world withStray (Devnet.header [onKept, kept, trunk])
      (withStray.allKinFrom world 6 (Devnet.hash [kept, trunk])) [stray.info] = .error .UncleIsBrother := by
  decide +kernel

/-- The child is cited for its place in the tree, and refused for its number. -/
theorem commitToSeal_cites_stray : BlockRLP.ofBytes world.crypto strayBytes = .ok stray ∧
    (∀ op ∈ strayOps, op.Within straySet) ∧ third.On world withStray (Devnet.hash [kept, trunk]) ∧
    (∃ b', third.commitToSeal world withStray [] = .ok b' ∧
      ¬∃ us cited, unclesToCite world withStray third = .ok us ∧ citedBlocks world withStray us = .ok cited ∧
        UnclesFit world withStray b'.m_currentBlock (cited.map BlockRLP.info)) ∧
    checkUncles world withStray (Devnet.header [onKept, kept, trunk])
      (withStray.allKinFrom world 6 (Devnet.hash [kept, trunk])) [stray.info] = .error .UncleIsBrother := by
  obtain ⟨hread, hmem, hprev, hsome, hus, hcited, hbrother⟩ := withStray_finds
  obtain ⟨b', hc⟩ := exists_ok_of_toOption hsome
  refine ⟨hread, ?_, ⟨hmem, hprev, rfl, rfl⟩, ⟨b', hc, ?_⟩, hbrother⟩
  · have hin : ∀ {b}, b ∈ [Devnet.block [trunk], Devnet.block [kept, trunk], stray] → b ∈ straySet.carrier :=
      fun h => h
    simp only [strayOps, List.forall_mem_cons]
    exact ⟨⟨hin List.mem_cons_self, rfl⟩, ⟨hin (List.mem_cons_of_mem _ List.mem_cons_self), rfl⟩, hin (by simp),
      by simp⟩
  · rintro ⟨us, cited, h0, h1, hfit⟩
    obtain rfl : _ = us := Except.ok.inj (hus.symm.trans h0)
    obtain rfl : _ = cited := Except.ok.inj (hcited.symm.trans h1)
    obtain ⟨-, -, -, -, -, -, hnumber⟩ := commitToSeal_eq_ok hc
    have hdepth := (hfit.depth _ List.mem_cons_self).1
    rw [hnumber] at hdepth
    exact absurd hdepth (by decide)

end Block

end Petrachor
