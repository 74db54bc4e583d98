import Petrachor.BlockChain.ForkChoice
import Petrachor.BlockQueue

/-!
# The route of an insertion

The route that an insertion returns tells its subscribers how the canonical blocks have changed. It
does so for every insertion that keeps to the tree; the route of a whole batch does, as long as the
batch does not leave a branch that it has taken itself.
-/

namespace Petrachor

open ParentTree

namespace BlockChain

variable {w : World} {B : BlockSet w} {bc bc' : BlockChain}

/-- What a route says of the change from one chain to another: `i` blocks from the old head down are
dead, `j` blocks up to the new head are live, the branches meet below them, and none of the live
ones was canonical. -/
structure Describes (bc bc' : BlockChain) (dead live : List H256) (i j : ℕ) : Prop where
  canonical_eq : bc'.canonical = (bc.canonical \ {x | x ∈ dead}) ∪ {x | x ∈ live}
  dead_eq : dead = path bc.parentOf i bc.m_lastBlockHash
  live_eq : live = (path bc'.parentOf j bc'.m_lastBlockHash).reverse
  meet : bc.parentOf^[i] bc.m_lastBlockHash = bc'.parentOf^[j] bc'.m_lastBlockHash
  dead_le : i ≤ bc.heightOf bc.m_lastBlockHash
  live_le : j ≤ bc'.heightOf bc'.m_lastBlockHash
  live_new : ∀ x ∈ live, x ∉ bc.canonical
  moved : j = 0 → i = 0

theorem describes_refl (h : bc'.canonical = bc.canonical)
    (hl : bc'.m_lastBlockHash = bc.m_lastBlockHash) : Describes bc bc' [] [] 0 0 :=
  ⟨by simp [h], rfl, rfl, hl.symm, Nat.zero_le _, Nat.zero_le _, by simp, fun _ => rfl⟩

theorem Describes.disjoint {dead live : List H256} {i j : ℕ} (hD : Describes bc bc' dead live i j) :
    ∀ x ∈ dead, x ∉ live := by
  intro x hx hl
  refine hD.live_new x hl ?_
  rw [hD.dead_eq] at hx
  obtain ⟨k, hk, rfl⟩ := mem_path.1 hx
  exact ⟨k, by have := hD.dead_le; omega, rfl⟩

section Insertion

variable {b : BlockRLP} {td : U256} (hI : bc.TreeInv w) (hP : Insertable w bc b)
  (hS : Stored bc bc' b td)

include hI hP hS

/-- The route of a reorganisation to a block that is not canonical yet. -/
theorem Adopted.describes {c : H256} {i j : ℕ} {bs : List BlockRLP}
    (hA : Adopted w bc bc' b c i j bs) (hnew : b.info.m_hash ∉ bc.canonical) :
    Describes bc bc' (path bc.parentOf i bc.m_lastBlockHash)
      ((path bc.parentOf j b.info.parentHash).reverse ++ [b.info.m_hash]) i (j + 1) := by
  have hr := hA.route
  have hpar : ∀ h ∈ bc.recorded, bc'.parentOf h = bc.parentOf h := fun h hm =>
    (hS.place hI hP hm).1
  have hpath := hI.tree.path_congr hpar hP.parent_mem
    (show j ≤ bc.heightOf b.info.parentHash + 1 by have := hr.right_le; omega)
  refine ⟨?_, rfl, ?_, ?_, hr.left_le, ?_, ?_, fun h0 => absurd h0 (Nat.succ_ne_zero j)⟩
  · rw [hA.canonical_eq hI hP hS, hr.lineage_eq hI.tree hI.head_mem hP.parent_mem]
    ext x
    simp only [Set.mem_insert_iff, Set.mem_union, Set.mem_sdiff, Set.mem_ofPred_eq, List.mem_append,
      List.mem_reverse, List.mem_singleton, canonical]
    tauto
  · rw [hA.head, path, hS.parentOf_self, List.reverse_cons, hpath]
  · rw [hA.head, Function.iterate_succ_apply, hS.parentOf_self, hr.left,
      hI.tree.iterate_congr hpar hP.parent_mem hr.right_le, hr.right]
  · rw [hA.head, hS.heightOf_self]
    have := hr.right_le
    omega
  · intro x hx hcan
    rw [List.mem_append, List.mem_reverse, List.mem_singleton] at hx
    rcases hx with hx | rfl
    · obtain ⟨k, hk, rfl⟩ := mem_path.1 hx
      obtain ⟨l, hl, he⟩ := hcan
      exact (hr.symm hI.tree hI.head_mem hP.parent_mem).disjoint k hk l hl he.symm
    · exact hnew hcan

end Insertion

/-! ## One insertion -/

/-- The block an operation inserts. -/
def Op.inserts : Op → Option BlockRLP
  | .importBlock vb _ _ => some vb.block
  | .importUnverified b _ _ => some b
  | .insert b _ _ _ => some b
  | .insertWithoutParent b _ _ _ => some b
  | _ => none

/-- An import that need not be of a new block is not of a canonical one. -/
def Op.IsNew (bc : BlockChain) : Op → Prop
  | .importBlock vb false _ => vb.block.info.m_hash ∉ bc.canonical
  | .importUnverified b false _ => b.info.m_hash ∉ bc.canonical
  | _ => True

/-- A canonical block is known. -/
theorem TreeInv.isKnown_of_canonical (hI : bc.TreeInv w) {h : H256} (hc : h ∈ bc.canonical) :
    bc.isKnown w h true = true := by
  refine hI.isKnown_iff.2 ⟨hI.tree.mem_of_mem_lineage hI.head_mem hc, ?_⟩
  rw [hI.head_number]
  exact hI.tree.height_le_of_mem_lineage hI.head_mem hc

theorem TreeInv.notMem_canonical_of_new (hI : bc.TreeInv w) {info : BlockHeader}
    (h0 : info.m_hash ≠ 0) (h : bc.checkBlockIsNew w info = .ok ()) :
    info.m_hash ∉ bc.canonical := by
  intro hc
  rw [checkBlockIsNew, throwIf_eq_ok, hash_eq h0] at h
  exact h (hI.isKnown_of_canonical hc)

/-- The chain leaves blocks only for a better one that does not extend its head. -/
def Abandons (w : World) (bc : BlockChain) (b : BlockHeader) (td : U256) : Prop :=
  Better w bc td b.gasUsed ∧
    bc.m_lastBlockHash ∉ lineage bc.parentOf bc.heightOf b.parentHash

theorem insertBlockAndExtras_describes (hI : bc.TreeInv w) {vb : VerifiedBlock}
    (hv : vb.info = vb.block.info) (hP : Insertable w bc vb.block)
    (hnew : vb.block.info.m_hash ∉ bc.canonical) {receipts : Bytes} {td : U256} {r : ImportRoute}
    (h : bc.insertBlockAndExtras w vb receipts td = (.ok r, bc')) :
    (∃ i j, Describes bc bc' r.deadBlocks r.liveBlocks i j ∧
      (0 < i → Abandons w bc vb.block.info td)) ∧
      (vb.block.info.m_hash ∈ r.liveBlocks ↔ bc'.m_lastBlockHash = vb.block.info.m_hash) := by
  rcases insertBlockAndExtras_cases hI hv hP h with
    ⟨e, -, he, -⟩ | ⟨he, -, hS, hU⟩ | ⟨c, i, j, bs, he, hbetter, hS, hA⟩
  · cases he
  · cases he
    refine ⟨⟨0, 0, describes_refl (hU.canonical_eq hI hP hS) hU.m_lastBlockHash,
      fun h0 => absurd h0 (Nat.lt_irrefl 0)⟩, ?_⟩
    simp only [List.not_mem_nil, false_iff]
    intro hl
    refine hnew ?_
    rw [← hl, hU.m_lastBlockHash]
    exact ⟨0, Nat.zero_le _, rfl⟩
  · cases he
    rw [hv] at hbetter ⊢
    refine ⟨⟨i, j + 1, hA.describes hI hP hS hnew, fun hi => ⟨hbetter, ?_⟩⟩, by simp [hA.head]⟩
    rintro ⟨l, hl, he⟩
    exact hA.route.disjoint 0 hi l hl he.symm

/-- The new block of a route is not dead: it was not canonical. -/
theorem Describes.new_notMem_dead {dead live : List H256} {i j : ℕ} {h : H256}
    (hD : Describes bc bc' dead live i j) (hnew : h ∉ bc.canonical) : h ∉ dead := by
  rw [hD.dead_eq]
  intro hm
  obtain ⟨k, hk, rfl⟩ := mem_path.1 hm
  exact hnew ⟨k, by have := hD.dead_le; omega, rfl⟩

theorem importBlock_describes (hw : w.Valid) (hI : bc.ChainInv w B) {vb : VerifiedBlock}
    (hB : vb.block ∈ B.carrier) (hv : vb.info = vb.block.info) {mustBeNew : Bool} {now : ℤ}
    (hnew : mustBeNew = false → vb.block.info.m_hash ∉ bc.canonical) {r : ImportRoute}
    (h : bc.importBlock w vb mustBeNew now = (.ok r, bc')) :
    vb.block.info.m_hash ∉ bc.canonical ∧
      (∃ i j, Describes bc bc' r.deadBlocks r.liveBlocks i j ∧ (0 < i → Abandons w bc vb.block.info
        ((bc.details vb.block.info.parentHash).totalDifficulty + vb.block.info.difficulty))) ∧
      (vb.block.info.m_hash ∈ r.liveBlocks ↔ bc'.m_lastBlockHash = vb.block.info.m_hash) := by
  obtain ⟨bc1, hstake, ⟨e, he, -⟩ | ⟨hplace, hm, hn, -, receipts, hins⟩⟩ :=
    importBlock_cases hw hI hv h
  · cases he
  have hnew' : vb.block.info.m_hash ∉ bc.canonical := by
    cases mustBeNew with
    | false => exact hnew rfl
    | true =>
      unfold checkPlace at hplace
      rw [unit_bind_eq_ok, if_pos rfl, hv] at hplace
      exact hI.notMem_canonical_of_new (B.hash_ne_zero _ hB) hplace.1
  have hI1 := hstake.chainInv hI
  obtain ⟨m, u, db, rfl, -⟩ := hstake
  rw [hv] at hm hn hins
  obtain ⟨⟨i, j, hD, habandon⟩, hlive⟩ := insertBlockAndExtras_describes hI1.toTreeInv hv
    (hI1.insertable hB hm hn) hnew' hins
  exact ⟨hnew', ⟨i, j, ⟨hD.1, hD.2, hD.3, hD.4, hD.5, hD.6, hD.7, hD.8⟩, habandon⟩, hlive⟩

/-- What an insertion that keeps to the tree returns describes the change of the canonical
blocks. -/
theorem perform_describes (hw : w.Valid) (hI : bc.ChainInv w B) {op : Op} (hB : op.Within B)
    (hF : op.Fits w bc) (hnew : op.IsNew bc) {b : BlockRLP} (hb : op.inserts = some b)
    {r : ImportRoute} (h : bc.perform w op = (.ok r, bc')) :
    (∃ i j, Describes bc bc' r.deadBlocks r.liveBlocks i j) ∧
      (b.info.m_hash ∈ r.liveBlocks ↔
        bc.m_lastBlockHash ≠ b.info.m_hash ∧ bc'.m_lastBlockHash = b.info.m_hash) ∧
      b.info.m_hash ∉ r.deadBlocks := by
  -- a block that was not canonical was not the head either
  have key : ∀ {b : BlockRLP} {r : ImportRoute} {bc' : BlockChain}, b.info.m_hash ∉ bc.canonical →
      (∃ i j, Describes bc bc' r.deadBlocks r.liveBlocks i j) →
      (b.info.m_hash ∈ r.liveBlocks ↔ bc'.m_lastBlockHash = b.info.m_hash) →
      (∃ i j, Describes bc bc' r.deadBlocks r.liveBlocks i j) ∧
        (b.info.m_hash ∈ r.liveBlocks ↔
          bc.m_lastBlockHash ≠ b.info.m_hash ∧ bc'.m_lastBlockHash = b.info.m_hash) ∧
        b.info.m_hash ∉ r.deadBlocks := by
    rintro b r bc' hn ⟨i, j, hD⟩ hl
    refine ⟨⟨i, j, hD⟩, ?_, hD.new_notMem_dead hn⟩
    rw [hl]
    refine ⟨fun he => ⟨fun h0 => hn ?_, he⟩, And.right⟩
    rw [← h0]
    exact ⟨0, Nat.zero_le _, rfl⟩
  cases op with
  | importBlock vb mustBeNew now =>
    cases hb
    obtain ⟨hn, ⟨i, j, hD, -⟩, hl⟩ := importBlock_describes hw hI hB.1 hB.2
      (fun hm => by subst hm; exact hnew) h
    exact key hn ⟨i, j, hD⟩ hl
  | importUnverified x mustBeNew now =>
    cases hb
    rcases importUnverified_cases h with ⟨e, he, -⟩ | ⟨vb, rfl, hv, he⟩
    · cases he
    · obtain ⟨hn, ⟨i, j, hD, -⟩, hl⟩ := importBlock_describes hw hI hB hv
        (fun hm => by subst hm; exact hnew) he
      exact key hn ⟨i, j, hD⟩ hl
  | insert x receipts mustBeNew now =>
    cases hb
    rcases hins : bc.insert w b receipts mustBeNew now with ⟨r', bc1'⟩
    simp only [perform, hins, Prod.mk.injEq] at h
    obtain ⟨hr, rfl⟩ := h
    obtain ⟨bc1, hstake, ⟨e, rfl, -⟩ | ⟨rfl, hm, hn, -, blooms, rfl⟩⟩ := insert_cases hw hI hins
    · cases hr
    · cases hr
      have hI1 := hstake.chainInv hI
      obtain ⟨m, u, db, rfl, -⟩ := hstake
      have hP := hI1.insertable hB hm hn
      obtain ⟨hS, hU⟩ := insert_stored hI1 hP
        ((bc.details b.info.parentHash).totalDifficulty + b.info.difficulty) blooms receipts
      have hcan := hU.canonical_eq hI1.toTreeInv hP hS
      refine ⟨⟨0, 0, describes_refl hcan hU.m_lastBlockHash⟩, ?_, List.not_mem_nil⟩
      simp only [List.not_mem_nil, false_iff]
      rintro ⟨h1, h2⟩
      exact h1 (hU.m_lastBlockHash.symm.trans h2)
  | insertWithoutParent x receipts td now =>
    cases hb
    obtain ⟨hm, hn, hne, -⟩ := hF
    rcases insertWithoutParent_cases h with ⟨e, he, -⟩ | ⟨vb, rfl, hv, hisnew, he⟩
    · cases he
    · have hc := hI.notMem_canonical_of_new (B.hash_ne_zero _ hB) hisnew
      obtain ⟨⟨i, j, hD, -⟩, hl⟩ := insertBlockAndExtras_describes hI.toTreeInv hv
        (hI.insertable hB hm hn) hc he
      exact key hc ⟨i, j, hD⟩ hl
  | query q => cases hb
  | garbageCollect => cases hb
  | rewind newHead => cases hb

/-! ## A batch -/

/-- The tree has only grown. -/
def Grows (bc bc' : BlockChain) : Prop :=
  ∀ h ∈ bc.recorded, h ∈ bc'.recorded ∧ bc'.parentOf h = bc.parentOf h ∧
    bc'.heightOf h = bc.heightOf h

theorem Grows.trans {bc'' : BlockChain} (h1 : Grows bc bc') (h2 : Grows bc' bc'') :
    Grows bc bc'' := by
  intro h hm
  obtain ⟨a1, a2, a3⟩ := h1 h hm
  obtain ⟨b1, b2, b3⟩ := h2 h a1
  exact ⟨b1, b2.trans a2, b3.trans a3⟩

section Grows

variable (hI : bc.TreeInv w) (hG : Grows bc bc') {h : H256} (hm : h ∈ bc.recorded)

include hI hG hm

theorem Grows.path_eq {n : ℕ} (hn : n ≤ bc.heightOf h + 1) :
    path bc'.parentOf n h = path bc.parentOf n h :=
  hI.tree.path_congr (fun h hm => (hG h hm).2.1) hm hn

theorem Grows.iterate_eq {n : ℕ} (hn : n ≤ bc.heightOf h) :
    bc'.parentOf^[n] h = bc.parentOf^[n] h :=
  hI.tree.iterate_congr (fun h hm => (hG h hm).2.1) hm hn

theorem Grows.lineage_eq :
    lineage bc'.parentOf bc'.heightOf h = lineage bc.parentOf bc.heightOf h :=
  hI.tree.lineage_congr (fun h hm => (hG h hm).2.1) (fun h hm => (hG h hm).2.2) hm

end Grows

section Compose

variable {bc'' : BlockChain} {dead live dead' live' : List H256} {i j i' j' : ℕ}
  (hI : bc.TreeInv w) (hI' : bc'.TreeInv w) (hG : Grows bc bc')
  (hD : Describes bc bc' dead live i j) (hD' : Describes bc' bc'' dead' live' i' j')

include hI hG hD hD'

/-- Nothing has moved so far. -/
theorem Describes.compose_of_unmoved (hj : j = 0) :
    Describes bc bc'' (dead ++ dead') (live ++ live') i' j' := by
  subst hj
  obtain rfl := hD.moved rfl
  have hhead : bc'.m_lastBlockHash = bc.m_lastBlockHash := hD.meet.symm
  have hdead : dead = [] := hD.dead_eq
  have hlive : live = [] := hD.live_eq
  have hcan : bc'.canonical = bc.canonical := by
    rw [hD.canonical_eq, hdead, hlive]
    simp
  have hht := (hG _ hI.head_mem).2.2
  have hle := hD'.dead_le
  rw [hhead, hht] at hle
  rw [hdead, hlive, List.nil_append, List.nil_append]
  refine ⟨by rw [hD'.canonical_eq, hcan], ?_, hD'.live_eq, ?_, hle, hD'.live_le, ?_, hD'.moved⟩
  · rw [hD'.dead_eq, hhead, hG.path_eq hI hI.head_mem (by omega)]
  · rw [← hD'.meet, hhead, hG.iterate_eq hI hI.head_mem hle]
  · rw [← hcan]
    exact hD'.live_new

include hI'

/-- What comes in extends the head. -/
theorem Describes.compose_of_extends (hG' : Grows bc' bc'') (hI'' : bc''.TreeInv w) (hi : i' = 0) :
    Describes bc bc'' (dead ++ dead') (live ++ live') i (j' + j) := by
  by_cases hj : j = 0
  · have hc := hD.compose_of_unmoved hI hG hD' hj
    have h0 := hD.moved hj
    rw [hj, h0]
    rw [hi] at hc
    exact hc
  subst hi
  have hdead : dead' = [] := hD'.dead_eq
  have hmeet : bc'.m_lastBlockHash = bc''.parentOf^[j'] bc''.m_lastBlockHash := hD'.meet
  have hht := (hG' _ hI'.head_mem).2.2
  have hh := hI''.tree.height_iterate hI''.head_mem hD'.live_le
  have hle := hD.live_le
  rw [← hmeet, hht] at hh
  rw [hdead, List.append_nil]
  refine ⟨?_, hD.dead_eq, ?_, ?_, hD.dead_le, by omega, ?_, fun h0 => absurd h0 (by omega)⟩
  · rw [hD'.canonical_eq, hD.canonical_eq, hdead]
    ext x
    simp only [Set.mem_union, Set.mem_sdiff, Set.mem_ofPred_eq, List.not_mem_nil, not_false_eq_true,
      and_true, List.mem_append, or_assoc]
  · rw [path_add, List.reverse_append, ← hmeet, hG'.path_eq hI' hI'.head_mem (by omega),
      ← hD.live_eq, ← hD'.live_eq]
  · rw [hD.meet, Nat.add_comm, Function.iterate_add_apply, ← hmeet,
      hG'.iterate_eq hI' hI'.head_mem hle]
  · intro x hx hcan
    rcases List.mem_append.1 hx with hx | hx
    · exact hD.live_new x hx hcan
    · -- the head between was new, and it is below everything that came in after it
      have hxm := hI.tree.mem_of_mem_lineage hI.head_mem hcan
      have hhead : bc'.m_lastBlockHash ∈ live := by
        obtain ⟨n, rfl⟩ := Nat.exists_eq_succ_of_ne_zero hj
        rw [hD.live_eq, path, List.reverse_cons]
        exact List.mem_append_right _ List.mem_cons_self
      refine hD.live_new _ hhead ?_
      rw [hD'.live_eq, List.mem_reverse] at hx
      obtain ⟨k, hk, rfl⟩ := mem_path.1 hx
      have hk' := hI''.tree.height_iterate hI''.head_mem
        (show k ≤ bc''.heightOf bc''.m_lastBlockHash by have := hD'.live_le; omega)
      have hlin : bc'.m_lastBlockHash ∈ lineage bc''.parentOf bc''.heightOf
          (bc''.parentOf^[k] bc''.m_lastBlockHash) :=
        ⟨j' - k, by omega, by rw [← Function.iterate_add_apply, hmeet]; congr 2; omega⟩
      rw [(hG.trans hG').lineage_eq hI hxm] at hlin
      exact hI.tree.lineage_subset_of_mem hI.head_mem hcan hlin

end Compose

theorem Stored.grows (hI : bc.TreeInv w) {b : BlockRLP} (hP : Insertable w bc b) {td : U256}
    (hS : Stored bc bc' b td) : Grows bc bc' := fun h hm =>
  ⟨by rw [hS.recorded_eq]; exact .inr hm, hS.place hI hP hm⟩

/-- An import lets the tree grow, and one that throws leaves the canonical blocks. -/
theorem importBlock_grows (hw : w.Valid) (hI : bc.ChainInv w B) {vb : VerifiedBlock}
    (hB : vb.block ∈ B.carrier) (hv : vb.info = vb.block.info) {mustBeNew : Bool} {now : ℤ}
    {r : Except Exception ImportRoute} (h : bc.importBlock w vb mustBeNew now = (r, bc')) :
    Grows bc bc' ∧ ∀ e, r = .error e →
      bc'.canonical = bc.canonical ∧ bc'.m_lastBlockHash = bc.m_lastBlockHash := by
  obtain ⟨bc1, hstake, hcases⟩ := importBlock_cases hw hI hv h
  have hI1 := hstake.chainInv hI
  obtain ⟨m, u, db, rfl, -⟩ := hstake
  rcases hcases with ⟨e, rfl, rfl⟩ | ⟨-, hm, hn, -, receipts, hins⟩
  · exact ⟨fun h hm => ⟨hm, rfl, rfl⟩, fun _ _ => ⟨rfl, rfl⟩⟩
  rw [hv] at hm hn
  have hP := hI1.insertable hB hm hn
  rcases insertBlockAndExtras_cases hI1.toTreeInv hv hP hins with
    ⟨e, -, -, rfl⟩ | ⟨rfl, -, hS, -⟩ | ⟨_, _, _, _, rfl, -, hS, -⟩
  · have hN := childNoted_addChild ({ bc with m_blockHashes := m, m_cacheUsage := u, stateDB := db })
      vb.info.parentHash vb.info.m_hash
    refine ⟨fun h hm => ⟨hm, congrFun hN.parentOf_eq h, congrFun hN.heightOf_eq h⟩,
      fun _ _ => ⟨?_, rfl⟩⟩
    unfold canonical
    rw [hN.parentOf_eq, hN.heightOf_eq]
    rfl
  · have hG := hS.grows hI1.toTreeInv hP
    exact ⟨hG, fun _ hr => (nomatch hr)⟩
  · have hG := hS.grows hI1.toTreeInv hP
    exact ⟨hG, fun _ hr => (nomatch hr)⟩

/-- One import of a batch. -/
def batchStep (w : World) (bc : BlockChain) (p : VerifiedBlock × ℤ) : BlockChain :=
  (bc.importBlock w p.1 true p.2).2

/-- The batch that started at the chain `bc0` does not abandon a branch it has taken itself: once its
head has moved, blocks only extend it. -/
def Steady (w : World) (bc0 bc : BlockChain) (p : VerifiedBlock × ℤ) : Prop :=
  bc.m_lastBlockHash = bc0.m_lastBlockHash ∨ ¬Abandons w bc p.1.block.info
    ((bc.details p.1.block.info.parentHash).totalDifficulty + p.1.block.info.difficulty)

theorem Describes.eq_zero_of_head {dead live : List H256} {i j : ℕ}
    (hD : Describes bc bc' dead live i j) (hl : bc'.m_lastBlockHash = bc.m_lastBlockHash) :
    j = 0 := by
  by_contra hj
  obtain ⟨n, rfl⟩ := Nat.exists_eq_succ_of_ne_zero hj
  refine hD.live_new bc'.m_lastBlockHash ?_ ?_
  · rw [hD.live_eq, path, List.reverse_cons]
    exact List.mem_append_right _ List.mem_cons_self
  · rw [hl]
    exact ⟨0, Nat.zero_le _, rfl⟩

theorem SyncResult.note_eq_ok {acc acc' : SyncResult} {hash : H256} {e : Exception}
    (h : acc.note hash e = .ok acc') : acc'.dead = acc.dead ∧ acc'.fresh = acc.fresh := by
  unfold SyncResult.note at h
  split at h <;> cases h <;> exact ⟨rfl, rfl⟩

/-- The loop over a batch collects what describes the change from its start. -/
theorem syncBlocks_describes (hw : w.Valid) {bc0 : BlockChain} (hI0 : bc0.ChainInv w B)
    {r : SyncResult} :
    ∀ (batch : List (VerifiedBlock × ℤ)) {acc : SyncResult} {bc : BlockChain} {i j : ℕ},
      bc.ChainInv w B → Grows bc0 bc → Describes bc0 bc acc.dead acc.fresh i j →
      (∀ p ∈ batch, (p.1.block ∈ B.carrier ∧ p.1.info = p.1.block.info) ∧
        p.1.block.info.number ≠ c_invalidNumber) →
      StateRun.Along (batchStep w) (Steady w bc0) bc batch →
      syncBlocks w batch acc bc = (.ok r, bc') → ∃ i j, Describes bc0 bc' r.dead r.fresh i j
  | [], acc, bc, i, j, _, _, hD, _, _, h => by
    cases h
    exact ⟨i, j, hD⟩
  | (vb, now) :: batch, acc, bc, i, j, hI, hG, hD, hB, hS, h => by
    obtain ⟨⟨⟨hmem, hv⟩, hne⟩, hB⟩ := List.forall_mem_cons.1 hB
    rcases himp : bc.importBlock w vb true now with ⟨res, bc1⟩
    have hI1 := chainInv_importBlock hw hI hmem hv hne himp
    obtain ⟨hG1, herr⟩ := importBlock_grows hw hI hmem hv himp
    have hS1 := hS.2
    rw [batchStep, himp] at hS1
    cases res with
    | error e =>
      obtain ⟨hcan, hhead⟩ := herr e rfl
      have hD1 := hD.compose_of_extends hI0.toTreeInv hI.toTreeInv hG (describes_refl hcan hhead) hG1
        hI1.toTreeInv rfl
      rw [List.append_nil, List.append_nil] at hD1
      simp only [syncBlocks, himp] at h
      cases hnote : acc.note (vb.info.hash w.crypto .WithSeal) e with
      | error e' =>
        rw [hnote] at h
        cases h
      | ok acc' =>
        rw [hnote] at h
        obtain ⟨h1, h2⟩ := SyncResult.note_eq_ok hnote
        rw [← h1, ← h2] at hD1
        exact syncBlocks_describes hw hI0 batch hI1 (hG.trans hG1) hD1 hB hS1 h
    | ok route =>
      obtain ⟨-, ⟨i', j', hD', habandon⟩, -⟩ := importBlock_describes hw hI hmem hv
        (fun hm => absurd hm (by decide)) himp
      simp only [syncBlocks, himp] at h
      have hD1 : ∃ i j, Describes bc0 bc1 (acc.dead ++ route.deadBlocks)
          (acc.fresh ++ route.liveBlocks) i j := by
        by_cases hi : i' = 0
        · exact ⟨_, _, hD.compose_of_extends hI0.toTreeInv hI.toTreeInv hG hD' hG1 hI1.toTreeInv hi⟩
        · -- blocks are left, so nothing has moved before
          rcases hS.1 with hl | hna
          · exact ⟨_, _, hD.compose_of_unmoved hI0.toTreeInv hG hD' (hD.eq_zero_of_head hl)⟩
          · exact absurd (habandon (Nat.pos_of_ne_zero hi)) hna
      obtain ⟨i1, j1, hD1⟩ := hD1
      exact syncBlocks_describes hw hI0 batch hI1 (hG.trans hG1) hD1 hB hS1 h

/-! ## Routes over runs -/

/-- A route says how the canonical blocks have changed: the dead leave, the live come in, no block is
both, and the lists run from the old head to its ancestors and from the ancestors to the new
head. -/
structure RouteExact (bc bc' : BlockChain) (r : ImportRoute) : Prop where
  canonical_eq : bc'.canonical = (bc.canonical \ {x | x ∈ r.deadBlocks}) ∪ {x | x ∈ r.liveBlocks}
  disjoint : ∀ x ∈ r.deadBlocks, x ∉ r.liveBlocks
  dead_order : r.deadBlocks = path bc.parentOf r.deadBlocks.length bc.m_lastBlockHash
  live_order : r.liveBlocks = (path bc'.parentOf r.liveBlocks.length bc'.m_lastBlockHash).reverse

theorem Describes.routeExact {r : ImportRoute} {i j : ℕ}
    (hD : Describes bc bc' r.deadBlocks r.liveBlocks i j) : RouteExact bc bc' r := by
  have hi : r.deadBlocks.length = i := by rw [hD.dead_eq, length_path]
  have hj : r.liveBlocks.length = j := by rw [hD.live_eq, List.length_reverse, length_path]
  exact ⟨hD.canonical_eq, hD.disjoint, by rw [hi]; exact hD.dead_eq, by rw [hj]; exact hD.live_eq⟩

/-- In a run whose steps all keep to the tree, and import no canonical block again, every insertion
returns an exact route that has the new block among the live ones if it became the head, and never
among the dead; and the route of a batch is exact if the batch abandons no branch it has taken. -/
theorem routes_exact (hw : w.Valid) (genesisState : AccountTrie) {ops : List Op}
    (hrun : StateRun.Along (step w) (fun bc op => op.Within B ∧ op.Fits w bc ∧ op.IsNew bc)
      (openFresh w genesisState) ops) :
    let bc := StateRun.run (step w) (openFresh w genesisState) ops
    (∀ (op : Op) (b : BlockRLP) (r : ImportRoute) (bc' : BlockChain), op.inserts = some b →
      op.Within B → op.Fits w bc → op.IsNew bc → bc.perform w op = (.ok r, bc') →
      RouteExact bc bc' r ∧ b.info.m_hash ∉ r.deadBlocks ∧
        (b.info.m_hash ∈ r.liveBlocks ↔
          bc.currentHash ≠ b.info.m_hash ∧ bc'.currentHash = b.info.m_hash)) ∧
    ∀ (q : BlockQueue) (max : ℕ) (now : ℕ → ℤ) (r : ImportRoute) (more : Bool) (count : ℕ)
      (bc' : BlockChain) (q' : BlockQueue),
      (∀ b ∈ (q.drain w max).1, (b.verified.block ∈ B.carrier ∧
        b.verified.info = b.verified.block.info) ∧ b.verified.block.info.number ≠ c_invalidNumber) →
      StateRun.Along (batchStep w) (Steady w bc) bc (batchOf (q.drain w max).1 now) →
      bc.sync w q max now = (.ok (r, more, count), bc', q') → RouteExact bc bc' r := by
  intro bc
  have hI : bc.ChainInv w B := chainInv_run hw (chainInv_openFresh hw B genesisState)
    (hrun.mono fun _ _ h => ⟨h.1, h.2.1⟩)
  refine ⟨fun op b r bc' hb hB hF hnew h => ?_, fun q max now r more count bc' q' hB hS h => ?_⟩
  · obtain ⟨⟨i, j, hD⟩, hlive, hdead⟩ := perform_describes hw hI hB hF hnew hb h
    exact ⟨hD.routeExact, hdead, hlive⟩
  · unfold sync at h
    simp only at h
    split at h
    · cases h
    · rename_i res bc1 hsync
      simp only [Prod.mk.injEq, Except.ok.injEq] at h
      obtain ⟨⟨rfl, -⟩, rfl, -⟩ := h
      have hbatch : ∀ p ∈ batchOf (q.drain w max).1 now,
          (p.1.block ∈ B.carrier ∧ p.1.info = p.1.block.info) ∧
            p.1.block.info.number ≠ c_invalidNumber := by
        intro p hp
        obtain ⟨⟨b, n⟩, hb, rfl⟩ := List.mem_map.1 hp
        exact hB b (List.fst_mem_of_mem_zipIdx hb)
      obtain ⟨i, j, hD⟩ := syncBlocks_describes hw hI _ hI (fun h hm => ⟨hm, rfl, rfl⟩)
        (describes_refl rfl rfl) hbatch hS hsync
      exact Describes.routeExact hD

open Devnet (world genesis importOf heavy1 heavy2 lightAndHeavy)

theorem route_exact_of_second_import :
    let bc := StateRun.run (step world) genesis [importOf [heavy1]]
    ∃ r bc', bc.perform world (importOf [heavy2, heavy1]) = (.ok r, bc') ∧ RouteExact bc bc' r ∧
      Devnet.hash [heavy2, heavy1] ∉ r.deadBlocks := by
  obtain ⟨route, -, bc1, himp, hG, -⟩ := (Devnet.grown_genesis lightAndHeavy).importBlock
    Devnet.weight_lt Devnet.heavy1_mem (.inl rfl) (by simp) rfl (by decide)
    (Devnet.timestamp_le _ Devnet.heavy1_mem)
  have hnew : Devnet.block [heavy2, heavy1] ∉ [] ++ [Devnet.block [heavy1]] := by
    rw [List.nil_append, List.mem_singleton]
    intro he
    have := congrArg List.length (Devnet.block_inj Devnet.heavy2_mem Devnet.heavy1_mem he)
    simp at this
  obtain ⟨route2, -, bc2, himp2, -⟩ := hG.importBlock Devnet.weight_lt Devnet.heavy2_mem
    (.inr (by simp)) hnew rfl (by decide) (Devnet.timestamp_le _ Devnet.heavy2_mem)
  have hstep : StateRun.run (step world) (openFresh world (Devnet.state [])) [importOf [heavy1]] =
    bc1 := congrArg Prod.snd himp
  have hrun : StateRun.Along (step world) (fun bc op => op.Within lightAndHeavy.blockSet ∧
      op.Fits world bc ∧ op.IsNew bc) (openFresh world (Devnet.state [])) [importOf [heavy1]] := by
    refine ⟨⟨(Devnet.within_importOf Devnet.heavy1_mem).1, ?_, trivial⟩, trivial⟩
    change (Devnet.block [heavy1]).info.number ≠ _
    decide
  have h := (routes_exact Devnet.world_valid (Devnet.state []) hrun).1 (importOf [heavy2, heavy1])
    (Devnet.block [heavy2, heavy1]) route2 bc2 rfl (Devnet.within_importOf Devnet.heavy2_mem).1
  rw [hstep] at h
  intro bc
  have hbc : bc = bc1 := hstep
  rw [hbc]
  obtain ⟨hE, hdead, -⟩ := h (by
    change (Devnet.block [heavy2, heavy1]).info.number ≠ _
    decide) trivial himp2
  exact ⟨route2, bc2, himp2, hE, hdead⟩

/-- A better block without its parent becomes the head, and its route has it among the dead. -/
theorem route_fails_without_parent :
    ∃ bytes r bc', BlockRLP.ofBytes world.crypto bytes = .ok (Devnet.block [heavy2, heavy1]) ∧
      genesis.perform world (.insertWithoutParent (Devnet.block [heavy2, heavy1])
        (RLPStream.encodeList []) 1000 (2 ^ 62)) = (.ok r, bc') ∧
      genesis.currentHash ≠ Devnet.hash [heavy2, heavy1] ∧
      bc'.currentHash = Devnet.hash [heavy2, heavy1] ∧
      Devnet.hash [heavy2, heavy1] ∈ r.deadBlocks ∧ Devnet.hash [heavy2, heavy1] ∉ r.liveBlocks := by
  have hbytes := Devnet.ofBytes_bytes (lightAndHeavy.sound Devnet.heavy2_mem)
  have hver := Devnet.verifyBlock_alone genesis (lightAndHeavy.sound Devnet.heavy2_mem)
    (genesis.balanceRetriever world (2 ^ 62)) (show ImportRequirements.OutOfOrderChecks.has .Parent =
      false by decide)
  have hunknown : genesis.isKnown world (Devnet.hash [heavy2, heavy1]) true = false := by
    decide
  have hnew : genesis.checkBlockIsNew world (Devnet.verified [heavy2, heavy1]).info = .ok () := by
    unfold checkBlockIsNew
    rw [hash_eq (w := world) (show (Devnet.verified [heavy2, heavy1]).info.m_hash ≠ 0 by decide)]
    exact throwIf_neg (by rw [show (Devnet.verified [heavy2, heavy1]).info.m_hash =
      Devnet.hash [heavy2, heavy1] from rfl, hunknown]; simp)
  have htime : checkBlockTimestamp world (Devnet.verified [heavy2, heavy1]).info (2 ^ 62) = .ok () :=
    throwIf_neg fun h => absurd h.1 (by decide)
  have hnull : (genesis.details genesis.m_lastBlockHash).isNull = true ∨
      (genesis.details (Devnet.verified [heavy2, heavy1]).info.parentHash).isNull = true :=
    .inr (by decide)
  have hne : genesis.m_lastBlockHash ≠ (Devnet.verified [heavy2, heavy1]).info.m_hash := by decide
  have hbest : (genesis.details genesis.m_lastBlockHash).totalDifficulty < (1000 : U256) := by
    decide
  obtain ⟨bc', hins, hhead, -⟩ := insertBlockAndExtras_null_route (w := world) (by decide) rfl
    (by decide) hnull hne receiptBlooms_nil hbest
  have hperform : genesis.perform world (.insertWithoutParent (Devnet.block [heavy2, heavy1])
      (RLPStream.encodeList []) 1000 (2 ^ 62)) =
        (.ok ⟨[(Devnet.verified [heavy2, heavy1]).info.m_hash], [],
          (Devnet.verified [heavy2, heavy1]).transactions⟩, bc') := by
    rw [← hins]
    simp only [perform, insertWithoutParent, hver, hnew, htime, ok_bind, pure, Except.pure]
  exact ⟨_, _, bc', hbytes, hperform, by decide, hhead, List.mem_singleton_self _,
    List.not_mem_nil⟩

end BlockChain

end Petrachor
