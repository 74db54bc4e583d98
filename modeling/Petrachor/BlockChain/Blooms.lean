import Petrachor.BlockChain.Index
import Petrachor.BlockChain.BloomSearch

/-!
# The blooms of the canonical blocks

A block that becomes canonical adds its bloom at both levels, in the cache and in the database. A reversion clears the
entries of the blocks that leave in the cache alone: a chunk that no block of the new branch is in keeps them in the
database.
-/

namespace Petrachor

open ParentTree

namespace BlockChain

/-! ## Entries -/

/-- The entries a level has for the unsigned numbers. -/
def InLevel (level k : ℕ) : Prop := level ≤ 1 ∧ k < 2 ^ (32 - 4 * level)

/-- What the database has as entry `k` of a level. -/
def storedAt (bc : BlockChain) (level k : ℕ) : Option LogBloom :=
  (bc.blocksBloomsDB (chunkId level (k / c_bloomIndexSize))).map fun c => c (k % c_bloomIndexSize)

/-- The bloom a block adds: of its logs and of its author. -/
def blockBloom (c : Crypto) (h : BlockHeader) : LogBloom := h.logBloom ||| bloomBits (c.sha3 (asBytes 20 h.author))

section Entries

variable {w : World} {bc bc' : BlockChain} {level level' k k' n : ℕ} {v : LogBloom}

theorem SameBlooms.bloomAt_eq (h : SameBlooms bc bc') (level k : ℕ) : bc'.bloomAt level k = bc.bloomAt level k := by
  unfold bloomAt blocksBlooms
  rw [h.m_blocksBlooms, h.blocksBloomsDB]

theorem SameBlooms.storedAt_eq (h : SameBlooms bc bc') (level k : ℕ) : bc'.storedAt level k = bc.storedAt level k := by
  unfold storedAt
  rw [h.blocksBloomsDB]

theorem keys_apart {i j : ℕ} (hi : i < 2 ^ 28) (hj : j < 2 ^ 24) : i * 255 % 2 ^ 32 ≠ (j * 255 + 1) % 2 ^ 32 := by
  intro h
  have hj' : j * 255 + 1 < 2 ^ 32 := by omega
  obtain ⟨q, hq⟩ : ∃ q, i * 255 / 2 ^ 32 = q := ⟨_, rfl⟩
  have h1 := Nat.div_add_mod (i * 255) (2 ^ 32)
  rw [h, Nat.mod_eq_of_lt hj', hq] at h1
  have hle : q ≤ 15 := by omega
  omega

/-- Chunks of different levels or places have different keys, although these wrap. -/
theorem chunkId_inj (h : InLevel level k) (h' : InLevel level' k') :
    chunkId level (k / 16) = chunkId level' (k' / 16) ↔ level = level' ∧ k / 16 = k' / 16 := by
  constructor
  · intro he
    have hsmall : ∀ x, x % 2 ^ 32 % 2 ^ 256 = x % 2 ^ 32 := fun x =>
      Nat.mod_eq_of_lt ((Nat.mod_lt x (by decide)).trans (by decide))
    have hv := congrArg BitVec.toNat he
    unfold chunkId at hv
    rw [BitVec.toNat_ofNat, BitVec.toNat_ofNat, hsmall, hsmall] at hv
    obtain ⟨hl, hk⟩ := h
    obtain ⟨hl', hk'⟩ := h'
    interval_cases level
    · interval_cases level'
      · omega
      · have hne := keys_apart (show k / 16 < 2 ^ 28 by omega) (show k' / 16 < 2 ^ 24 by omega)
        simp only [Nat.add_zero] at hv
        exact absurd hv hne
    · interval_cases level'
      · have hne := keys_apart (show k' / 16 < 2 ^ 28 by omega) (show k / 16 < 2 ^ 24 by omega)
        simp only [Nat.add_zero] at hv
        exact absurd hv hne.symm
      · omega
  · rintro ⟨rfl, he⟩
    rw [he]

theorem blocksBlooms_setBloom (bc : BlockChain) (id id' : H256) (o : ℕ) (v : LogBloom) :
    (bc.setBloom id o v).blocksBlooms id' =
      if id' = id then Function.update (bc.blocksBlooms id) o v else bc.blocksBlooms id' := by
  unfold blocksBlooms setBloom lookup
  by_cases h : id' = id
  · rw [if_pos h, h]
    simp only [Function.update_self]
    rfl
  · rw [if_neg h]
    simp only [Function.update_of_ne h]

/-- One entry is set. -/
def setEntry (bc : BlockChain) (level k : ℕ) (v : LogBloom) : BlockChain :=
  bc.setBloom (chunkId level (k / c_bloomIndexSize)) (k % c_bloomIndexSize) v

theorem bloomAt_setEntry (h : InLevel level k) (h' : InLevel level' k') :
    (bc.setEntry level k v).bloomAt level' k' = if level' = level ∧ k' = k then v else bc.bloomAt level' k' := by
  unfold setEntry bloomAt c_bloomIndexSize
  rw [blocksBlooms_setBloom]
  by_cases hid : chunkId level' (k' / 16) = chunkId level (k / 16)
  · obtain ⟨rfl, hdiv⟩ := (chunkId_inj h' h).1 hid
    rw [if_pos hid, Function.update_apply, ← hid]
    refine if_congr ?_ rfl rfl
    rw [and_iff_right rfl]
    omega
  · rw [if_neg hid, if_neg]
    rintro ⟨rfl, rfl⟩
    exact hid rfl

/-- A chunk is written as it is read. -/
def writeChunk (bc : BlockChain) (id : H256) : BlockChain :=
  { bc with blocksBloomsDB := Function.update bc.blocksBloomsDB id (some (bc.blocksBlooms id)) }

/-- This changes nothing that is read. -/
theorem blocksBlooms_writeChunk (bc : BlockChain) (id id' : H256) :
    (bc.writeChunk id).blocksBlooms id' = bc.blocksBlooms id' := by
  unfold writeChunk
  cases hm : bc.m_blocksBlooms id' with
  | some c => simp only [blocksBlooms, lookup, hm, Option.orElse_some, Option.getD_some]
  | none =>
    by_cases h : id' = id
    · subst h
      simp only [blocksBlooms, lookup, hm, Option.orElse_none, Function.update_self, Option.getD_some]
    · simp only [blocksBlooms, lookup, hm, Option.orElse_none, Function.update_of_ne h]

theorem bloomAt_writeChunk (bc : BlockChain) (id : H256) (level k : ℕ) :
    (bc.writeChunk id).bloomAt level k = bc.bloomAt level k := by
  unfold bloomAt
  rw [blocksBlooms_writeChunk]

theorem storedAt_writeChunk (h : InLevel level k) (h' : InLevel level' k') :
    (bc.writeChunk (chunkId level (k / 16))).storedAt level' k' =
      if level' = level ∧ k' / 16 = k / 16 then some (bc.bloomAt level' k') else bc.storedAt level' k' := by
  rw [← if_congr (chunkId_inj h' h) rfl rfl]
  unfold writeChunk storedAt bloomAt c_bloomIndexSize
  simp only [Function.update_apply]
  by_cases he : chunkId level' (k' / 16) = chunkId level (k / 16)
  · rw [if_pos he, if_pos he, Option.map_some, he]
  · rw [if_neg he, if_neg he]

section Added

variable {tbi : BlockHeader} (hn : toUnsigned tbi.number = n)

include hn

theorem inLevel_number : InLevel 0 n ∧ InLevel 1 (n / 16) := by
  unfold toUnsigned at hn
  unfold InLevel
  omega

/-- What `addBlooms` does: an entry of each level gets the bits of the block, and their chunks are written. -/
theorem addBlooms_def (w : World) (bc : BlockChain) :
    let v := blockBloom w.crypto tbi
    let bc0 := bc.setEntry 0 n (bc.bloomAt 0 n ||| v)
    let bc1 := bc0.setEntry 1 (n / 16) (bc0.bloomAt 1 (n / 16) ||| v)
    bc.addBlooms w tbi = (bc1.writeChunk (chunkId 0 (n / 16))).writeChunk (chunkId 1 (n / 16 / 16)) := by
  intro v bc0 bc1
  have hplaces : bloomPlaces n = [(chunkId 0 (n / 16), n % 16), (chunkId 1 (n / 16 / 16), n / 16 % 16)] := by
    simp [bloomPlaces, c_bloomIndexLevels, c_bloomIndexSize, List.range_succ]
  unfold addBlooms
  rw [hn, hplaces, writeChunk, blocksBlooms_writeChunk]
  rfl

theorem bloomAt_addBlooms (h : InLevel level k) : (bc.addBlooms w tbi).bloomAt level k =
    if k = n / 16 ^ level then bc.bloomAt level k ||| blockBloom w.crypto tbi else bc.bloomAt level k := by
  obtain ⟨h0, h1⟩ := inLevel_number hn
  rw [addBlooms_def hn, bloomAt_writeChunk, bloomAt_writeChunk, bloomAt_setEntry h1 h, bloomAt_setEntry h0 h,
    bloomAt_setEntry h0 h1]
  obtain ⟨hl, -⟩ := h
  interval_cases level
  · simp only [pow_zero, Nat.div_one, true_and, zero_ne_one, false_and, if_false]
    by_cases hk : k = n
    · rw [if_pos hk, if_pos hk, hk]
    · rw [if_neg hk, if_neg hk]
  · simp only [pow_one, true_and, one_ne_zero, false_and, if_false]
    by_cases hk : k = n / 16
    · rw [if_pos hk, if_pos hk, hk]
    · rw [if_neg hk, if_neg hk]

/-- The chunks the block is in are written as they are read then. -/
theorem storedAt_addBlooms (h : InLevel level k) : (bc.addBlooms w tbi).storedAt level k =
    if k / 16 = n / 16 ^ level / 16 then some ((bc.addBlooms w tbi).bloomAt level k) else bc.storedAt level k := by
  obtain ⟨h0, h1⟩ := inLevel_number hn
  simp only [addBlooms_def hn, storedAt_writeChunk h1 h, storedAt_writeChunk h0 h, bloomAt_writeChunk]
  obtain ⟨hl, -⟩ := h
  interval_cases level
  · simp only [pow_zero, Nat.div_one, true_and, zero_ne_one, false_and, if_false]
    rfl
  · simp only [pow_one, true_and, one_ne_zero, false_and, if_false]
    rfl

end Added

/-! ## Reversion -/

/-- The union of the entries of level 0 below entry `k` of level 1. -/
def below (bc : BlockChain) (k : ℕ) : LogBloom :=
  (List.range c_bloomIndexSize).foldl (fun acc i => acc ||| bc.bloomAt 0 (k * c_bloomIndexSize + i)) 0

theorem below_contains (bc : BlockChain) (n : ℕ) : Bloom.Contains (bc.below (n / 16)) (bc.bloomAt 0 n) := by
  have h := Bloom.foldl_contains (f := fun i => bc.bloomAt 0 (n / 16 * 16 + i)) (b := 0)
    (List.mem_range.2 (Nat.mod_lt n (show 0 < 16 by decide)))
  simp only [Nat.div_add_mod'] at h
  exact h

theorem below_setEntry (h : InLevel 1 k) (h' : InLevel 1 k') : (bc.setEntry 1 k v).below k' = bc.below k' := by
  unfold below
  refine List.foldl_ext _ _ _ fun acc i hi => ?_
  have hin : InLevel 0 (k' * c_bloomIndexSize + i) := by
    unfold InLevel c_bloomIndexSize at *
    rw [List.mem_range] at hi
    omega
  rw [bloomAt_setEntry h hin, if_neg (fun h => absurd h.1 (by decide))]

/-- Entries of a level are set one after the other, each to what it is computed to be and no other one changes. -/
theorem bloomAt_foldl_setEntry (g : BlockChain → ℕ → LogBloom)
    (hg : ∀ bc i j v, InLevel level i → InLevel level j → g (bc.setEntry level i v) j = g bc j)
    (h' : InLevel level' k') :
    ∀ {items : List ℕ} {bc : BlockChain}, (∀ i ∈ items, InLevel level i) →
      (items.foldl (fun bc i => bc.setEntry level i (g bc i)) bc).bloomAt level' k' =
        if level' = level ∧ k' ∈ items then g bc k' else bc.bloomAt level' k'
  | [], bc, _ => by
    rw [if_neg (fun h => List.not_mem_nil h.2)]
    rfl
  | i :: items, bc, hitems => by
    obtain ⟨hi, hitems⟩ := List.forall_mem_cons.1 hitems
    rw [List.foldl_cons, bloomAt_foldl_setEntry g hg h' hitems, bloomAt_setEntry hi h']
    by_cases hmem : level' = level ∧ k' ∈ items
    · obtain ⟨rfl, hk⟩ := hmem
      rw [if_pos ⟨rfl, hk⟩, if_pos ⟨rfl, List.mem_cons_of_mem _ hk⟩, hg _ _ _ _ hi h']
    rw [if_neg hmem]
    by_cases hself : level' = level ∧ k' = i
    · obtain ⟨rfl, rfl⟩ := hself
      rw [if_pos ⟨rfl, rfl⟩, if_pos ⟨rfl, List.mem_cons_self⟩]
    · rw [if_neg hself, if_neg]
      rintro ⟨hl, hk⟩
      rcases List.mem_cons.1 hk with h | h
      · exact hself ⟨hl, h⟩
      · exact hmem ⟨hl, h⟩

theorem bloomAt_clearLevel_zero {items : List ℕ} (hitems : ∀ i ∈ items, InLevel 0 i) (hk : InLevel level k) :
    (bc.clearLevel 0 items).bloomAt level k = if level = 0 ∧ k ∈ items then 0 else bc.bloomAt level k :=
  bloomAt_foldl_setEntry (fun _ _ => 0) (fun _ _ _ _ _ _ => rfl) hk hitems

/-- Level 1 is rebuilt from level 0. -/
theorem bloomAt_clearLevel_one {items : List ℕ} (hitems : ∀ i ∈ items, InLevel 1 i) (hk : InLevel level k) :
    (bc.clearLevel 1 items).bloomAt level k = if level = 1 ∧ k ∈ items then bc.below k else bc.bloomAt level k := by
  have hbelow : ∀ (bc : BlockChain) (i : ℕ), (List.range c_bloomIndexSize).foldl
      (fun acc o => acc ||| bc.blocksBlooms (chunkId 0 i) o) (0 : LogBloom) = bc.below i := by
    intro bc i
    unfold below
    refine List.foldl_ext _ _ _ fun acc o ho => ?_
    have hlt : o < 16 := List.mem_range.1 ho
    have hdiv : (i * 16 + o) / 16 = i := by omega
    have hmod : (i * 16 + o) % 16 = o := by omega
    unfold bloomAt c_bloomIndexSize
    rw [hdiv, hmod]
  rw [← bloomAt_foldl_setEntry below (fun _ _ _ _ hi hj => below_setEntry hi hj) hk hitems]
  unfold clearLevel
  simp only [one_ne_zero, if_false, Nat.sub_self, hbelow]
  rfl

theorem mem_wrappedRange {start stop i : ℕ} (hle : start ≤ stop) (hs : stop < 2 ^ 32) :
    i ∈ wrappedRange start stop ↔ start ≤ i ∧ i < stop := by
  have hcount : (stop + 2 ^ 32 - start) % 2 ^ 32 = stop - start := by omega
  unfold wrappedRange
  rw [hcount, List.mem_map]
  simp only [List.mem_range]
  constructor
  · rintro ⟨a, ha, he⟩
    omega
  · rintro ⟨h1, h2⟩
    exact ⟨i - start, by omega, by omega⟩

section Cleared

variable {start stop : ℕ} (hlt : start < stop) (hs : stop < 2 ^ 32)

include hlt hs

/-- After a reversion the entries of the numbers that leave are empty, and those above them are rebuilt. -/
theorem bloomAt_clearBlockBlooms (bc : BlockChain) (hn : n < 2 ^ 32) (hk : InLevel 1 k) :
    let bc' := bc.clearBlockBlooms start stop
    (bc'.bloomAt 0 n = if start ≤ n ∧ n < stop then 0 else bc.bloomAt 0 n) ∧
      bc'.bloomAt 1 k = if start / 16 ≤ k ∧ k ≤ (stop - 1) / 16 then bc'.below k else bc.bloomAt 1 k := by
  intro bc'
  have hstop : ((stop + 2 ^ 32 - 1) % 2 ^ 32 / c_bloomIndexSize + 1) % 2 ^ 32 = (stop - 1) / 16 + 1 := by
    unfold c_bloomIndexSize
    omega
  have hmem0 : ∀ i, i ∈ wrappedRange start stop ↔ start ≤ i ∧ i < stop := fun i => mem_wrappedRange hlt.le hs
  have hmem1 : ∀ i, i ∈ wrappedRange (start / 16) ((stop - 1) / 16 + 1) ↔ start / 16 ≤ i ∧ i ≤ (stop - 1) / 16 := by
    intro i
    rw [mem_wrappedRange (by omega) (by omega), Nat.lt_succ_iff]
  have hin0 : ∀ i ∈ wrappedRange start stop, InLevel 0 i := by
    intro i hi
    rw [hmem0] at hi
    unfold InLevel
    omega
  have hin1 : ∀ i ∈ wrappedRange (start / 16) ((stop - 1) / 16 + 1), InLevel 1 i := by
    intro i hi
    rw [hmem1] at hi
    unfold InLevel
    omega
  have hdef : bc' = (bc.clearLevel 0 (wrappedRange start stop)).clearLevel 1
      (wrappedRange (start / 16) ((stop - 1) / 16 + 1)) := by
    rw [← hstop]
    rfl
  have hlower : ∀ i, InLevel 0 i → bc'.bloomAt 0 i = (bc.clearLevel 0 (wrappedRange start stop)).bloomAt 0 i := by
    intro i hi
    rw [hdef, bloomAt_clearLevel_one hin1 hi, if_neg (fun h => absurd h.1 (by decide))]
  have hbelow : bc'.below k = (bc.clearLevel 0 (wrappedRange start stop)).below k := by
    refine List.foldl_ext _ _ _ fun acc o ho => ?_
    rw [hlower]
    unfold InLevel c_bloomIndexSize at *
    rw [List.mem_range] at ho
    omega
  have hzero : InLevel 0 n := ⟨Nat.zero_le 1, hn⟩
  constructor
  · rw [hlower n hzero, bloomAt_clearLevel_zero hin0 hzero]
    simp only [true_and, hmem0]
  · rw [hbelow, hdef, bloomAt_clearLevel_one hin1 hk, bloomAt_clearLevel_zero hin0 hk]
    simp only [true_and, hmem1, one_ne_zero, false_and, if_false]

end Cleared

/-! ## What the entries contain -/

/-- The entries of a number at both levels contain a bloom, as they are read and as the database has them. -/
structure HasBloom (bc : BlockChain) (n : ℕ) (v : LogBloom) : Prop where
  read : ∀ level ≤ 1, Bloom.Contains (bc.bloomAt level (n / 16 ^ level)) v
  stored : ∀ level ≤ 1, ∃ x, bc.storedAt level (n / 16 ^ level) = some x ∧ Bloom.Contains x v

theorem inLevel_above (hn : n < 2 ^ 32) (hl : level ≤ 1) : InLevel level (n / 16 ^ level) := by
  unfold InLevel
  interval_cases level <;> omega

theorem SameBlooms.hasBloom (h : SameBlooms bc bc') (hv : bc.HasBloom n v) : bc'.HasBloom n v := by
  constructor
  · intro level hl
    rw [h.bloomAt_eq]
    exact hv.read level hl
  · intro level hl
    rw [h.storedAt_eq]
    exact hv.stored level hl

theorem SameBlooms.covered (h : SameBlooms bc bc') (hC : bc.Covered) : bc'.Covered := by
  intro n hn
  rw [h.bloomAt_eq, h.bloomAt_eq]
  exact hC n hn

/-- What is cached was cached before or is in the database, which is the same. -/
theorem HasBloom.recached (hd : bc'.blocksBloomsDB = bc.blocksBloomsDB)
    (hm : ∀ {id c}, bc'.m_blocksBlooms id = some c → bc.m_blocksBlooms id = some c ∨ bc.blocksBloomsDB id = some c)
    (hv : bc.HasBloom n v) : bc'.HasBloom n v := by
  have hstored : ∀ level k, bc'.storedAt level k = bc.storedAt level k := by
    intro level k
    unfold storedAt
    rw [hd]
  have hcases : ∀ level k, bc'.bloomAt level k = bc.bloomAt level k ∨
      bc.storedAt level k = some (bc'.bloomAt level k) ∨ bc.storedAt level k = none := by
    intro level k
    unfold storedAt bloomAt blocksBlooms
    generalize chunkId level (k / c_bloomIndexSize) = id
    cases hm' : bc'.m_blocksBlooms id with
    | some c =>
      rcases hm hm' with h | h
      · left
        simp only [lookup, hm', h, Option.orElse_some]
      · right; left
        simp only [lookup, hm', h, Option.orElse_some, Option.map_some, Option.getD_some]
    | none =>
      cases hdb : bc.blocksBloomsDB id with
      | none => exact .inr (.inr rfl)
      | some c =>
        right; left
        simp only [lookup, hm', hd, hdb, Option.orElse_none, Option.map_some, Option.getD_some]
  constructor
  · intro level hl
    obtain ⟨x, hx, hc⟩ := hv.stored level hl
    rcases hcases level (n / 16 ^ level) with h | h | h
    · rw [h]
      exact hv.read level hl
    · rw [hx, Option.some.injEq] at h
      rw [← h]
      exact hc
    · rw [hx] at h
      cases h
  · intro level hl
    rw [hstored]
    exact hv.stored level hl

section Added

variable {tbi : BlockHeader}

/-- A block's own number has its bloom then. -/
theorem hasBloom_addBlooms_self (w : World) (bc : BlockChain) (tbi : BlockHeader) :
    (bc.addBlooms w tbi).HasBloom (toUnsigned tbi.number) (blockBloom w.crypto tbi) := by
  obtain ⟨n, hn⟩ : ∃ n, toUnsigned tbi.number = n := ⟨_, rfl⟩
  rw [hn]
  have hread : ∀ level ≤ 1, Bloom.Contains ((bc.addBlooms w tbi).bloomAt level (n / 16 ^ level))
      (blockBloom w.crypto tbi) := by
    intro level hl
    rw [bloomAt_addBlooms hn (inLevel_above (inLevel_number hn).1.2 hl), if_pos rfl]
    exact (Bloom.Contains.refl _).or_right
  refine ⟨hread, fun level hl => ⟨_, ?_, hread level hl⟩⟩
  rw [storedAt_addBlooms hn (inLevel_above (inLevel_number hn).1.2 hl), if_pos rfl]

/-- Another block's bits do not take any away. -/
theorem HasBloom.addBlooms (hv : bc.HasBloom n v) (hn : n < 2 ^ 32) (tbi : BlockHeader) :
    (bc.addBlooms w tbi).HasBloom n v := by
  have hread : ∀ level ≤ 1, Bloom.Contains ((bc.addBlooms w tbi).bloomAt level (n / 16 ^ level)) v := by
    intro level hl
    rw [bloomAt_addBlooms rfl (inLevel_above hn hl)]
    by_cases h : n / 16 ^ level = toUnsigned tbi.number / 16 ^ level
    · rw [if_pos h]
      exact (hv.read level hl).or_left
    · rw [if_neg h]
      exact hv.read level hl
  refine ⟨hread, fun level hl => ?_⟩
  rw [storedAt_addBlooms rfl (inLevel_above hn hl)]
  by_cases h : n / 16 ^ level / 16 = toUnsigned tbi.number / 16 ^ level / 16
  · rw [if_pos h]
    exact ⟨_, rfl, hread level hl⟩
  · rw [if_neg h]
    exact hv.stored level hl

theorem Covered.addBlooms (hC : bc.Covered) (tbi : BlockHeader) : (bc.addBlooms w tbi).Covered := by
  intro n hn
  have h0 : (bc.addBlooms w tbi).bloomAt 0 (n / 16 ^ 0) = _ := bloomAt_addBlooms rfl (inLevel_above hn (Nat.zero_le 1))
  have h1 : (bc.addBlooms w tbi).bloomAt 1 (n / 16 ^ 1) = _ := bloomAt_addBlooms rfl (inLevel_above hn le_rfl)
  simp only [pow_zero, pow_one, Nat.div_one] at h0 h1
  unfold c_bloomIndexSize
  rw [h0, h1]
  have hlower := hC n hn
  unfold c_bloomIndexSize at hlower
  by_cases hself : n = toUnsigned tbi.number
  · rw [if_pos hself, if_pos (congrArg (· / 16) hself), Bloom.contains_or_iff]
    exact ⟨hlower.or_left, (Bloom.Contains.refl _).or_right⟩
  rw [if_neg hself]
  by_cases habove : n / 16 = toUnsigned tbi.number / 16
  · rw [if_pos habove]
    exact hlower.or_left
  · rw [if_neg habove]
    exact hlower

theorem addAllBlooms_cons (w : World) (b : BlockRLP) (bs : List BlockRLP) (bc : BlockChain) :
    BlockChain.addAllBlooms w (b :: bs) bc = BlockChain.addAllBlooms w bs (bc.addBlooms w b.info) := rfl

theorem HasBloom.addAllBlooms (hn : n < 2 ^ 32) (bs : List BlockRLP) (hv : bc.HasBloom n v) :
    (BlockChain.addAllBlooms w bs bc).HasBloom n v := by
  induction bs generalizing bc with
  | nil => exact hv
  | cons b bs ih =>
    rw [addAllBlooms_cons]
    exact ih (hv.addBlooms hn b.info)

theorem Covered.addAllBlooms (bs : List BlockRLP) (hC : bc.Covered) : (BlockChain.addAllBlooms w bs bc).Covered := by
  induction bs generalizing bc with
  | nil => exact hC
  | cons b bs ih =>
    rw [addAllBlooms_cons]
    exact ih (hC.addBlooms b.info)

/-- Each of the blocks has its bloom in the end. -/
theorem hasBloom_addAllBlooms {bs : List BlockRLP} {b : BlockRLP} (bc : BlockChain) (h : b ∈ bs) :
    (BlockChain.addAllBlooms w bs bc).HasBloom (toUnsigned b.info.number) (blockBloom w.crypto b.info) := by
  induction bs generalizing bc with
  | nil => exact absurd h List.not_mem_nil
  | cons b' bs ih =>
    rw [addAllBlooms_cons]
    rcases List.mem_cons.1 h with rfl | h
    · exact (hasBloom_addBlooms_self w bc b.info).addAllBlooms (inLevel_number rfl).1.2 bs
    · exact ih _ h

end Added

/-- The blooms before a reversion that concern no number from `start` on. -/
theorem HasBloom.clearBlockBlooms {start stop : ℕ} (hlt : start < stop) (hs : stop < 2 ^ 32) (hn : n < start)
    (hv : bc.HasBloom n v) : (bc.clearBlockBlooms start stop).HasBloom n v := by
  have hn' : n < 2 ^ 32 := by omega
  obtain ⟨h0, h1⟩ := bloomAt_clearBlockBlooms hlt hs bc hn' (inLevel_above hn' le_rfl)
  rw [if_neg (by omega)] at h0
  have hv0 := hv.read 0 (Nat.zero_le 1)
  have hv1 := hv.read 1 le_rfl
  rw [pow_zero, Nat.div_one] at hv0
  constructor
  · intro level hl
    interval_cases level
    · rw [pow_zero, Nat.div_one, h0]
      exact hv0
    · rw [h1]
      rw [pow_one] at hv1 ⊢
      by_cases hin : start / 16 ≤ n / 16 ∧ n / 16 ≤ (stop - 1) / 16
      · rw [if_pos hin]
        refine (below_contains _ n).trans ?_
        rw [h0]
        exact hv0
      · rw [if_neg hin]
        exact hv1
  · intro level hl
    obtain ⟨m, hm⟩ := clearBlockBlooms_eq bc start stop
    rw [hm]
    exact hv.stored level hl

theorem Covered.clearBlockBlooms {start stop : ℕ} (hlt : start < stop) (hs : stop < 2 ^ 32) (hC : bc.Covered) :
    (bc.clearBlockBlooms start stop).Covered := by
  intro n hn
  obtain ⟨h0, h1⟩ := bloomAt_clearBlockBlooms hlt hs bc hn (inLevel_above hn le_rfl)
  unfold c_bloomIndexSize
  rw [pow_one] at h1
  by_cases hin : start / 16 ≤ n / 16 ∧ n / 16 ≤ (stop - 1) / 16
  · rw [h1, if_pos hin]
    exact below_contains _ n
  · rw [h1, if_neg hin, h0, if_neg (by omega)]
    exact hC n hn

end Entries

end BlockChain

end Petrachor
