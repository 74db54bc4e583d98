import Petrachor.BlockChain.Import
import Petrachor.Lib.ParentTree

/-!
# The tree of recorded blocks

The recorded details make a tree under the genesis block, with the number of a block as its height.
On it `treeRoute` finds the route between two blocks, and the canonical records of a
reorganisation are those of the blocks that come in.
-/

namespace Petrachor

open ParentTree

/-- The part of the details that places the block in the tree. -/
def BlockDetails.core (d : BlockDetails) : ℕ × H256 := (d.number, d.parent)

namespace BlockChain

/-- The caches of blocks and details say what the databases say, as far as the tree goes. -/
structure Coherent (bc : BlockChain) : Prop where
  details : ∀ {h d}, bc.m_details h = some d → ∃ d', bc.detailsDB h = some d' ∧ d'.core = d.core
  blocks : ∀ {h b}, bc.m_blocks h = some b → bc.blocksDB h = some b

/-- The blocks that have details. -/
def recorded (bc : BlockChain) : Set H256 := {h | (bc.detailsDB h).isSome}

def parentOf (bc : BlockChain) (h : H256) : H256 := (bc.details h).parent

def heightOf (bc : BlockChain) (h : H256) : ℕ := (bc.details h).number

/-- The canonical blocks: the head's ancestors. -/
def canonical (bc : BlockChain) : Set H256 := lineage bc.parentOf bc.heightOf bc.m_lastBlockHash

section Lookups

variable {bc : BlockChain} (hC : bc.Coherent)

include hC

theorem Coherent.details_core {h : H256} {d : BlockDetails} (hd : bc.detailsDB h = some d) :
    (bc.details h).core = d.core := by
  unfold BlockChain.details lookup
  cases hm : bc.m_details h with
  | none => simp [hd]
  | some d' =>
    obtain ⟨d'', h1, h2⟩ := hC.details hm
    rw [hd] at h1
    cases h1
    simp [h2]

theorem Coherent.details_of_none {h : H256} (hd : bc.detailsDB h = none) :
    bc.details h = NullBlockDetails ∧ lookup bc.m_details bc.detailsDB h = none := by
  cases hm : bc.m_details h with
  | none => simp [BlockChain.details, lookup, hm, hd]
  | some d =>
    obtain ⟨d', h1, -⟩ := hC.details hm
    rw [hd] at h1
    cases h1

theorem Coherent.lookup_isSome {h : H256} :
    (lookup bc.m_details bc.detailsDB h).isSome ↔ h ∈ bc.recorded := by
  change _ ↔ (bc.detailsDB h).isSome = true
  cases hd : bc.detailsDB h with
  | none => simp [(hC.details_of_none hd).2]
  | some d =>
    cases hm : bc.m_details h <;> simp [lookup, hm, hd]

theorem Coherent.lookup_blocks (h : H256) : lookup bc.m_blocks bc.blocksDB h = bc.blocksDB h := by
  cases hm : bc.m_blocks h with
  | none => simp [lookup, hm]
  | some b => simp [lookup, hm, hC.blocks hm]

theorem Coherent.block_eq {w : World} {h : H256} (hne : h ≠ genesisHash w) :
    bc.block w h = bc.blocksDB h := by
  unfold BlockChain.block
  rw [if_neg hne, hC.lookup_blocks]

/-- The parent of a block is read from the database. -/
theorem Coherent.parentOf_eq (h : H256) :
    bc.parentOf h = (bc.detailsDB h).elim 0 BlockDetails.parent := by
  unfold parentOf
  cases hd : bc.detailsDB h with
  | none => rw [(hC.details_of_none hd).1]; rfl
  | some d => exact congrArg Prod.snd (hC.details_core hd)

theorem Coherent.heightOf_eq (h : H256) :
    bc.heightOf h = (bc.detailsDB h).elim c_invalidNumber BlockDetails.number := by
  unfold heightOf
  cases hd : bc.detailsDB h with
  | none => rw [(hC.details_of_none hd).1]; rfl
  | some d => exact congrArg Prod.fst (hC.details_core hd)

end Lookups

/-! ## The invariant -/

/-- The blocks of the database and their details make a tree, the head is one of them, and the
number records lead from the genesis block to the head. -/
structure TreeInv (w : World) (bc : BlockChain) : Prop where
  coherent : bc.Coherent
  tree : IsTree bc.recorded (genesisHash w) bc.parentOf bc.heightOf
  zero : 0 ∉ bc.recorded
  bound : ∀ h ∈ bc.recorded, bc.heightOf h < c_invalidNumber
  blocks : ∀ h ∈ bc.recorded, h ≠ genesisHash w → ∃ b, bc.blocksDB h = some b ∧ b.info.m_hash = h ∧
    b.info.parentHash = bc.parentOf h ∧ b.info.number = bc.heightOf h
  block_recorded : ∀ h b, bc.blocksDB h = some b → h ∈ bc.recorded ∧ h ≠ genesisHash w
  head_mem : bc.m_lastBlockHash ∈ bc.recorded
  head_number : bc.m_lastBlockNumber = bc.heightOf bc.m_lastBlockHash
  records : ∀ h ∈ bc.canonical, h ≠ genesisHash w → bc.blockHashDB (bc.heightOf h) = some h

section

variable {w : World} {bc bc' : BlockChain}

theorem parentOf_congr (hC : bc.Coherent) (hC' : bc'.Coherent) (hd : bc'.detailsDB = bc.detailsDB) :
    bc'.parentOf = bc.parentOf := by
  funext h
  rw [hC.parentOf_eq, hC'.parentOf_eq, hd]

theorem heightOf_congr (hC : bc.Coherent) (hC' : bc'.Coherent) (hd : bc'.detailsDB = bc.detailsDB) :
    bc'.heightOf = bc.heightOf := by
  funext h
  rw [hC.heightOf_eq, hC'.heightOf_eq, hd]

theorem recorded_congr (hd : bc'.detailsDB = bc.detailsDB) : bc'.recorded = bc.recorded := by
  unfold recorded
  rw [hd]

theorem canonical_congr (hC : bc.Coherent) (hC' : bc'.Coherent) (hd : bc'.detailsDB = bc.detailsDB)
    (hl : bc'.m_lastBlockHash = bc.m_lastBlockHash) : bc'.canonical = bc.canonical := by
  unfold canonical
  rw [parentOf_congr hC hC' hd, heightOf_congr hC hC' hd, hl]

/-- The invariant is about the databases and the head; the caches need only be coherent. -/
theorem TreeInv.congr (hI : bc.TreeInv w) (hC : bc'.Coherent) (hd : bc'.detailsDB = bc.detailsDB)
    (hb : bc'.blocksDB = bc.blocksDB) (hh : bc'.blockHashDB = bc.blockHashDB)
    (hl : bc'.m_lastBlockHash = bc.m_lastBlockHash)
    (hn : bc'.m_lastBlockNumber = bc.m_lastBlockNumber) : bc'.TreeInv w := by
  have hp := parentOf_congr hI.coherent hC hd
  have hht := heightOf_congr hI.coherent hC hd
  have hr : bc'.recorded = bc.recorded := recorded_congr hd
  refine ⟨hC, ?_, ?_, ?_, ?_, ?_, ?_, ?_, ?_⟩
  · rw [hp, hht, hr]; exact hI.tree
  · rw [hr]; exact hI.zero
  · rw [hr, hht]; exact hI.bound
  · rw [hr, hp, hht, hb]; exact hI.blocks
  · rw [hb, hr]; exact hI.block_recorded
  · rw [hl, hr]; exact hI.head_mem
  · rw [hn, hl, hht]; exact hI.head_number
  · rw [canonical_congr hI.coherent hC hd hl, hht, hh]; exact hI.records

end

/-! ## The route -/

theorem walkUp_eq (bc : BlockChain) :
    ∀ (n : ℕ) (h : H256), bc.walkUp n h = (path bc.parentOf n h, bc.parentOf^[n] h)
  | 0, _ => rfl
  | n + 1, h => by
    rw [walkUp, walkUp_eq bc n, path, Function.iterate_succ_apply]
    rfl

section Route

variable {w : World} {bc : BlockChain} (hI : bc.TreeInv w)

include hI

/-- The loop that climbs on both sides ends where the two ways first meet. -/
theorem meet_spec :
    ∀ (fuel : ℕ) {a b : H256}, a ∈ bc.recorded → b ∈ bc.recorded →
      bc.heightOf a = bc.heightOf b → bc.heightOf a < fuel →
      ∃ c i, Route bc.parentOf bc.heightOf a b c i i ∧ ∀ common pre post,
        bc.meet common pre post fuel a b =
          .ok ((if pre then path bc.parentOf i a else []) ++ (if pre && common then [c] else []),
            (if post then path bc.parentOf i b else []) ++ (if post && (!pre && common) then [c] else []), c)
  | 0, _, _, _, _, _, hf => absurd hf (Nat.not_lt_zero _)
  | fuel + 1, a, b, ha, hb, hab, hf => by
    by_cases he : a = b
    · subst he
      exact ⟨a, 0, Route.refl a, fun common pre post => by simp [meet, path]⟩
    have h0 : a ≠ 0 ∧ b ≠ 0 := ⟨fun h => hI.zero (h ▸ ha), fun h => hI.zero (h ▸ hb)⟩
    -- two nodes at height zero would both be the root
    have hroot : a ≠ genesisHash w := by
      rintro rfl
      rw [hI.tree.height_root] at hab
      exact he (hI.tree.eq_root hb hab.symm).symm
    have hroot' : b ≠ genesisHash w := by
      rintro rfl
      rw [hI.tree.height_root] at hab
      exact he (hI.tree.eq_root ha hab)
    have h1 := hI.tree.height_parent a ha hroot
    have h2 := hI.tree.height_parent b hb hroot'
    obtain ⟨c, i, hr, hm⟩ := meet_spec fuel (hI.tree.parent_mem a ha hroot)
      (hI.tree.parent_mem b hb hroot') (by omega) (by omega)
    refine ⟨c, i + 1, hr.step hI.tree ha hb he hab hroot hroot', fun common pre post => ?_⟩
    have hm' := hm common pre post
    change bc.meet common pre post fuel (bc.details a).parent (bc.details b).parent = _ at hm'
    rw [meet, if_neg he, if_neg (not_or.2 h0), hm']
    cases pre <;> cases post <;> simp [path, he]

/-- `treeRoute` between two recorded blocks, for all its flags: what is asked for of the way down from the one, of
where the ways meet, and of the way up to the other. -/
theorem treeRoute_eq {a b : H256} (ha : a ∈ bc.recorded) (hb : b ∈ bc.recorded) :
    ∃ c i j, Route bc.parentOf bc.heightOf a b c i j ∧ ∀ common pre post : Bool,
      let ret := (if pre then path bc.parentOf i a else []) ++ (if pre && common then [c] else [])
      let back := (if post then path bc.parentOf j b else []) ++ (if post && (!pre && common) then [c] else [])
      bc.treeRoute a b common pre post =
        .ok (ret ++ back.reverse, c, ret.length - if common ∧ ret ≠ [] ∧ back ≠ [] then 1 else 0) := by
  have h0 : a ≠ 0 ∧ b ≠ 0 := ⟨fun h => hI.zero (h ▸ ha), fun h => hI.zero (h ▸ hb)⟩
  have hba := hI.bound a ha
  have hbb := hI.bound b hb
  have hnull : ¬(a = 0 ∨ b = 0 ∨ (bc.details a).isNull = true ∨ (bc.details b).isNull = true) := by
    simp only [BlockDetails.isNull, decide_eq_true_eq, h0, false_or, not_or]
    exact ⟨fun h => absurd h (ne_of_lt hba), fun h => absurd h (ne_of_lt hbb)⟩
  unfold c_invalidNumber at hba hbb
  have hwa : bc.heightOf a - bc.heightOf b ≤ bc.heightOf a := Nat.sub_le _ _
  have hwb : bc.heightOf b - bc.heightOf a ≤ bc.heightOf b := Nat.sub_le _ _
  obtain ⟨hma, hea⟩ := hI.tree.iterate ha hwa
  obtain ⟨hmb, heb⟩ := hI.tree.iterate hb hwb
  obtain ⟨c, i, hr, hm⟩ := meet_spec hI (2 ^ 32) hma hmb (by omega) (by omega)
  refine ⟨c, i + (bc.heightOf a - bc.heightOf b), i + (bc.heightOf b - bc.heightOf a), ?_, ?_⟩
  · -- one of the two sides does not climb before the common loop
    rcases Nat.le_total (bc.heightOf a) (bc.heightOf b) with hle | hle
    · rw [Nat.sub_eq_zero_of_le hle] at hr ⊢
      exact ((hr.symm hI.tree ha hmb).up hI.tree hb ha hwb (by omega)).symm hI.tree hb ha
    · rw [Nat.sub_eq_zero_of_le hle] at hr ⊢
      exact hr.up hI.tree ha hb hwa (by omega)
  · intro common pre post
    have hm' := hm common pre post
    dsimp only
    unfold treeRoute
    rw [if_neg hnull]
    simp only [walkUp_eq]
    rw [show (bc.details a).number = bc.heightOf a from rfl,
      show (bc.details b).number = bc.heightOf b from rfl, hm', Nat.add_comm i, Nat.add_comm i, path_add, path_add]
    cases pre <;> cases post <;> simp [pure, Except.pure]

/-- The whole route: down from the one block to where the ways meet, that block, and up to the other. -/
theorem treeRoute_spec {a b : H256} (ha : a ∈ bc.recorded) (hb : b ∈ bc.recorded) :
    ∃ c i j, Route bc.parentOf bc.heightOf a b c i j ∧
      ∃ n, bc.treeRoute a b true true true =
        .ok (path bc.parentOf i a ++ c :: (path bc.parentOf j b).reverse, c, n) := by
  obtain ⟨c, i, j, hr, heq⟩ := treeRoute_eq hI ha hb
  refine ⟨c, i, j, hr, (path bc.parentOf i a ++ [c]).length - (if path bc.parentOf j b ≠ [] then 1 else 0), ?_⟩
  rw [heq true true true]
  simp

end Route

end BlockChain

end Petrachor
