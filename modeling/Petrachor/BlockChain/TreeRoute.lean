import Petrachor.BlockChain.Atomic

/-!
# Parts of a route

`treeRoute` returns what its flags ask for of the way between two blocks, and where in it the common ancestor
stands or would stand.
-/

namespace Petrachor

open ParentTree

namespace BlockChain

variable {w : World} {bc : BlockChain} {a b c : H256} {i j : ℕ}

/-- The way down from `a`, the common ancestor and the way up to `b`, as far as they are asked for. -/
def routeParts (bc : BlockChain) (a b c : H256) (i j : ℕ) (common pre post : Bool) : List H256 :=
  (if pre then path bc.parentOf i a else []) ++ (if common then [c] else []) ++
    if post then (path bc.parentOf j b).reverse else []

/-- Nothing of a route leads up to a block just when it is on the other one's way to the root. -/
theorem TreeInv.route_right_eq_zero_iff (hI : bc.TreeInv w) (ha : a ∈ bc.recorded) (hb : b ∈ bc.recorded)
    (hr : Route bc.parentOf bc.heightOf a b c i j) : j = 0 ↔ b ∈ lineage bc.parentOf bc.heightOf a := by
  constructor
  · intro h0
    refine ⟨i, hr.left_le, ?_⟩
    rw [hr.left, ← hr.right, h0]
    rfl
  · rintro ⟨k, hk, hka⟩
    have hki : i ≤ k := by
      by_contra hlt
      exact hr.disjoint k (not_le.1 hlt) 0 (Nat.zero_le _) hka
    have h1 := hI.tree.height_iterate ha hk
    have h2 := hI.tree.height_iterate ha hr.left_le
    have h3 := hI.tree.height_iterate hb hr.right_le
    rw [hka] at h1
    rw [hr.left] at h2
    rw [hr.right] at h3
    have := hr.right_le
    omega

/-- Between two recorded blocks `treeRoute` returns the parts of the route that are asked for, the common ancestor,
and its place in them just when the ancestor is not asked for, or the way up to the second block is and either the
way down is not or the second block is not on it. -/
theorem TreeInv.treeRoute_iff (hI : bc.TreeInv w) (ha : a ∈ bc.recorded) (hb : b ∈ bc.recorded) :
    ∃ c i j, Route bc.parentOf bc.heightOf a b c i j ∧ ∀ common pre post : Bool,
      bc.treeRoute a b common pre post = .ok (routeParts bc a b c i j common pre post, c, if pre then i else 0) ↔
        (common = true → post = true ∧ (pre = true → b ∉ lineage bc.parentOf bc.heightOf a)) := by
  obtain ⟨c, i, j, hr, heq⟩ := treeRoute_eq hI ha hb
  refine ⟨c, i, j, hr, fun common pre post => ?_⟩
  have hj := hI.route_right_eq_zero_iff ha hb hr
  have hnil : path bc.parentOf j b = [] ↔ j = 0 := by rw [← List.length_eq_zero_iff, length_path]
  rw [heq common pre post, ← hj, Except.ok.injEq, Prod.mk.injEq, Prod.mk.injEq, routeParts]
  -- only with all three flags does it matter where the blocks are
  cases common <;> cases pre <;> cases post <;> simp
  rw [if_congr hnil rfl rfl]
  split
  · simp_all
  · simp_all

theorem genesis_recorded : 1 ∈ Devnet.genesis.recorded := chainInv_genesis.head_mem

/-! ## Two branches of the development network -/

open Devnet (world genesis importOf light heavy1 lightAndHeavy)

def forkedImports : List Op := [importOf (light 1), importOf (light 2), importOf [heavy1]]

/-- Two light blocks on the genesis block, and a heavy one beside them. -/
def forked : BlockChain := StateRun.run (step world) genesis forkedImports

theorem chainInv_forked : forked.ChainInv world lightAndHeavy.blockSet := by
  have hlight : ∀ n < 2 ^ 31, (importOf (light (n + 1))).Within lightAndHeavy.blockSet :=
    fun n hn => (Devnet.within_light (by omega)).1
  refine chainInv_run Devnet.world_valid (chainInv_openFresh Devnet.world_valid _ (Devnet.state [])) ?_
  refine ⟨⟨hlight 0 (by norm_num), ?_⟩, ⟨hlight 1 (by norm_num), ?_⟩,
    ⟨(Devnet.within_importOf Devnet.heavy1_mem).1, ?_⟩, trivial⟩
  · show (Devnet.block (light 1)).info.number ≠ _
    decide
  · show (Devnet.block (light 2)).info.number ≠ _
    decide
  · show (Devnet.block [heavy1]).info.number ≠ _
    decide

/-- The chain has both branches, and what it returns for the way between them. -/
theorem forked_finds : (forked.detailsDB (Devnet.hash (light 2))).isSome = true ∧
    (forked.detailsDB (Devnet.hash [heavy1])).isSome = true ∧ forked.heightOf (Devnet.hash (light 2)) = 2 ∧
    (∀ k ≤ 2, forked.parentOf^[k] (Devnet.hash (light 2)) ≠ Devnet.hash [heavy1]) ∧
    forked.treeRoute (Devnet.hash (light 2)) (Devnet.hash [heavy1]) true true true =
      .ok ([Devnet.hash (light 2), Devnet.hash (light 1), 1, Devnet.hash [heavy1]], 1, 2) := by
  decide +kernel

/-- From the second light block to the heavy one there are two blocks down to the genesis block and one up. -/
theorem treeRoute_forked :
    Route forked.parentOf forked.heightOf (Devnet.hash (light 2)) (Devnet.hash [heavy1]) 1 2 1 ∧
      routeParts forked (Devnet.hash (light 2)) (Devnet.hash [heavy1]) 1 2 1 true true true =
        [Devnet.hash (light 2), Devnet.hash (light 1), 1, Devnet.hash [heavy1]] := by
  obtain ⟨hlight, hheavy, hheight, hbeside, hrouted⟩ := forked_finds
  have hnot : Devnet.hash [heavy1] ∉ lineage forked.parentOf forked.heightOf (Devnet.hash (light 2)) := by
    rintro ⟨k, hk, he⟩
    exact hbeside k (hheight ▸ hk) he
  obtain ⟨c, i, j, hr, hiff⟩ := chainInv_forked.treeRoute_iff hlight hheavy
  have hroute := (hiff true true true).2 fun _ => ⟨rfl, fun _ => hnot⟩
  rw [hrouted, Except.ok.injEq, Prod.mk.injEq, Prod.mk.injEq, if_pos rfl] at hroute
  obtain ⟨hparts, rfl, rfl⟩ := hroute
  obtain rfl : j = 1 := by
    have hlen := congrArg List.length hparts
    simp only [routeParts, if_true, List.length_append, List.length_cons, List.length_nil, List.length_reverse,
      length_path] at hlen
    omega
  exact ⟨hr, hparts.symm⟩

/-- From a block to itself, with everything, the ancestor is the only block, and its place is said to be behind it. -/
theorem treeRoute_misplaced : Devnet.genesis.treeRoute 1 1 true true true = .ok ([1], 1, 1) ∧
    ¬∃ c i j, Route Devnet.genesis.parentOf Devnet.genesis.heightOf 1 1 c i j ∧
      Devnet.genesis.treeRoute 1 1 true true true =
        .ok (routeParts Devnet.genesis 1 1 c i j true true true, c, if true then i else 0) := by
  have hroute : Devnet.genesis.treeRoute 1 1 true true true = .ok ([1], 1, 1) := by
    obtain ⟨c, i, j, hr, heq⟩ := treeRoute_eq chainInv_genesis.toTreeInv genesis_recorded genesis_recorded
    obtain ⟨rfl, rfl⟩ := hr.of_self chainInv_genesis.tree genesis_recorded
    obtain rfl := hr.left
    exact heq true true true
  refine ⟨hroute, ?_⟩
  rintro ⟨c, i, j, hr, heq⟩
  obtain ⟨rfl, rfl⟩ := hr.of_self chainInv_genesis.tree genesis_recorded
  rw [hroute] at heq
  cases heq

end BlockChain

end Petrachor
