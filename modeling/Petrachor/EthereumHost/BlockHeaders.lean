import Petrachor.EthereumHost

/-!
# The answer to a request for headers

The walk from the top block meets the canonical blocks a step apart, whichever of them it reaches by parents
and whichever by numbers. A request by hash that goes up and skips blocks takes a wrong top block unless the
chain ends before it; and the count that is returned is that of the walk, not of the headers that fit.
-/

namespace Petrachor

open ParentTree

/-! ## Headers that were read -/

/-- The header of a block that was read is an item, and says everything about the block's number. -/
theorem header_item {c : Crypto} {d : Bytes} {b : BlockRLP} (h : BlockRLP.ofBytes c d = .ok b) :
    (∃ p, IsItem b.header p) ∧ BlockHeader.populate ⟨b.header⟩ (c.sha3 b.header) = .ok b.info := by
  unfold BlockRLP.ofBytes at h
  rw [bind_eq_ok] at h
  obtain ⟨root, -, h⟩ := h
  split at h
  · cases h
  · rw [bind_eq_ok] at h
    obtain ⟨header, hheader, h⟩ := h
    rw [bind_eq_ok] at h
    obtain ⟨txs, -, h⟩ := h
    rw [bind_eq_ok] at h
    obtain ⟨uncles, -, h⟩ := h
    split at h
    · cases h
    · rename_i hlist
      rw [bind_eq_ok] at h
      obtain ⟨info, hinfo, h⟩ := h
      rw [bind_eq_ok] at h
      obtain ⟨_, -, h⟩ := h
      rw [bind_eq_ok] at h
      obtain ⟨_, -, h⟩ := h
      rw [bind_eq_ok] at h
      obtain ⟨_, -, h⟩ := h
      cases h
      refine ⟨?_, hinfo⟩
      have hnull : header.isNull = false := by
        cases hn : header.isNull with
        | false => rfl
        | true => simp [RLP.isList, hn] at hlist
      unfold RLP.get at hheader
      rw [bind_eq_ok] at hheader
      obtain ⟨p, -, hheader⟩ := hheader
      rw [bind_eq_ok] at hheader
      obtain ⟨size, hsize, hheader⟩ := hheader
      rw [RLP.seek, ok_bind] at hheader
      obtain ⟨rfl, -⟩ := ofBytes_tooSmall hheader
      have hle := (sizeAsEncoded_eq_ok hsize).2
      have hcrop : cropped p 0 size = p.take size := by
        rw [cropped, if_pos ⟨Nat.zero_le _, hle, by omega⟩, List.drop_zero]
      rw [hcrop] at hnull ⊢
      refine isItem_take ?_ hsize
      rintro rfl
      simp [RLP.isNull] at hnull

/-- Two runs of items that begin alike begin with the same item. -/
theorem IsItem.eq_of_append {e p e' p' rest rest' : Bytes} (h : IsItem e p) (h' : IsItem e' p')
    (heq : e ++ rest = e' ++ rest') : e = e' := by
  have hsize := h.sizeAsEncoded rest
  rw [heq, h'.sizeAsEncoded rest', Except.ok.injEq] at hsize
  exact (List.append_inj heq hsize.symm).1

namespace BlockChain

section

variable {w : World} {B : BlockSet w} {bc bc' : BlockChain}

/-- The canonical block of a height: the ancestor of the head there. -/
def canonicalAt (bc : BlockChain) (m : ℕ) : H256 := bc.parentOf^[bc.number - m] bc.currentHash

/-- A chain to serve headers from. -/
structure Serves (w : World) (B : BlockSet w) (bc : BlockChain) : Prop extends bc.ChainInv w B where
  numbered : bc.Numbered
  root_parent : bc.parentOf (genesisHash w) = 0

namespace Serves

variable (hS : bc.Serves w B) {m : ℕ}

include hS

theorem number_eq : bc.number = bc.heightOf bc.currentHash := hS.head_number

theorem canonicalAt_mem (hm : m ≤ bc.number) :
    bc.canonicalAt m ∈ bc.canonical ∧ bc.canonicalAt m ∈ bc.recorded ∧
      bc.heightOf (bc.canonicalAt m) = m := by
  have hle : bc.number - m ≤ bc.heightOf bc.currentHash := by
    rw [← hS.number_eq]
    exact Nat.sub_le _ _
  have hheight := hS.tree.height_iterate hS.head_mem hle
  have hnumber := hS.number_eq
  refine ⟨⟨_, hle, rfl⟩, hS.tree.iterate_mem hS.head_mem hle, ?_⟩
  unfold canonicalAt
  change bc.heightOf (bc.parentOf^[bc.number - m] bc.currentHash) + (bc.number - m) =
    bc.heightOf bc.currentHash at hheight
  omega

theorem height_canonicalAt (hm : m ≤ bc.number) : (bc.details (bc.canonicalAt m)).number = m :=
  (hS.canonicalAt_mem hm).2.2

theorem canonicalAt_ne_zero (hm : m ≤ bc.number) : bc.canonicalAt m ≠ 0 := fun h =>
  hS.zero (h ▸ (hS.canonicalAt_mem hm).2.1)

theorem canonicalAt_zero : bc.canonicalAt 0 = genesisHash w :=
  hS.tree.eq_root (hS.canonicalAt_mem (Nat.zero_le _)).2.1 (hS.canonicalAt_mem (Nat.zero_le _)).2.2

omit hS in
theorem parent_canonicalAt (hm : m + 1 ≤ bc.number) :
    (bc.details (bc.canonicalAt (m + 1))).parent = bc.canonicalAt m := by
  unfold canonicalAt
  rw [show bc.number - m = bc.number - (m + 1) + 1 by omega, Function.iterate_succ_apply']
  rfl

theorem parent_canonicalAt_zero : (bc.details (bc.canonicalAt 0)).parent = 0 := by
  rw [hS.canonicalAt_zero]
  exact hS.root_parent

theorem details_zero : bc.details 0 = NullBlockDetails := by
  have h0 : bc.detailsDB 0 = none := Option.not_isSome_iff_eq_none.1 hS.zero
  exact (hS.coherent.details_of_none h0).1

theorem isKnown_canonicalAt (hm : m ≤ bc.number) : bc.isKnown w (bc.canonicalAt m) true = true := by
  obtain ⟨-, hrec, hheight⟩ := hS.canonicalAt_mem hm
  refine hS.isKnown_iff.2 ⟨hrec, ?_⟩
  rw [hheight]
  exact hm

theorem numberHash_eq (hm : m ≤ bc.number) : bc.numberHash w m = bc.canonicalAt m := by
  obtain ⟨h, hcan, hheight, heq⟩ := hS.numbered.numberHash_eq hS.toChainInv hm
  obtain ⟨hcan', -, hheight'⟩ := hS.canonicalAt_mem hm
  rw [heq]
  exact hS.tree.eq_of_mem_lineage hS.head_mem hcan hcan' (hheight.trans hheight'.symm)

end Serves

/-! ## A chain to serve from -/

/-- The details of the genesis block keep their parent when another block is stored. -/
theorem Stored.root_parent {b : BlockRLP} {td : U256} (hS : Stored bc bc' b td) (hC : bc.Coherent)
    (hne : b.info.m_hash ≠ genesisHash w) :
    bc'.parentOf (genesisHash w) = bc.parentOf (genesisHash w) := by
  have hcore := hS.details_other (genesisHash w) hne.symm
  rw [hC.parentOf_eq, hS.coherent.parentOf_eq]
  cases hd : bc.detailsDB (genesisHash w) with
  | none =>
    rw [hd, Option.map_none, Option.map_eq_none_iff] at hcore
    rw [hcore]
  | some d =>
    rw [hd] at hcore
    obtain ⟨d', hd', hcore⟩ := Option.map_eq_some_iff.1 hcore
    rw [hd']
    exact congrArg Prod.snd hcore

theorem root_parent_importBlock (hw : w.Valid) (hI : bc.ChainInv w B) {vb : VerifiedBlock}
    (hB : vb.block ∈ B.carrier) (hv : vb.info = vb.block.info)
    (hne : vb.block.info.number ≠ c_invalidNumber) {mustBeNew : Bool} {now : ℤ}
    {r : Except Exception ImportRoute} (h : bc.importBlock w vb mustBeNew now = (r, bc')) :
    bc'.parentOf (genesisHash w) = bc.parentOf (genesisHash w) := by
  have hI' := chainInv_importBlock hw hI hB hv hne h
  obtain ⟨bc1, hstake, ⟨e, -, rfl⟩ | ⟨-, hm, hn, -, receipts, hins⟩⟩ := importBlock_cases hw hI hv h
  · obtain ⟨m, u, db, rfl, -⟩ := hstake
    rfl
  · have hI1 := hstake.chainInv hI
    obtain ⟨m, u, db, rfl, -⟩ := hstake
    rw [hv] at hm hn
    have hP := hI1.insertable hB hm hn
    rcases insertBlockAndExtras_cases hI1.toTreeInv hv hP hins with
      ⟨e, -, -, rfl⟩ | ⟨-, -, hS, -⟩ | ⟨_, _, _, _, -, -, hS, -⟩
    · exact congrFun (parentOf_congr hI1.coherent hI'.coherent (childNoted_addChild _ _ _).detailsDB) _
    · exact hS.root_parent hI1.coherent hP.hash_ne_genesis
    · exact hS.root_parent hI1.coherent hP.hash_ne_genesis

theorem serves_step (hw : w.Valid) (hS : bc.Serves w B) {op : Op} (hB : op.Within B) (hop : op.IsImport)
    (hF : op.Fits w bc) (hreach : op.Reaches w bc) : (bc.step w op).Serves w B := by
  have hI := hS.toChainInv
  have hI' := chainInv_step hw hI hB hF
  refine ⟨hI', numbered_step hw hI hS.numbered hB hop hreach, ?_⟩
  refine Eq.trans ?_ hS.root_parent
  unfold step at hI' ⊢
  cases op with
  | importBlock vb mustBeNew now => exact root_parent_importBlock hw hI hB.1 hB.2 hF rfl
  | importUnverified b mustBeNew now =>
    rcases h : bc.importUnverified w b mustBeNew now with ⟨r, bc'⟩
    simp only [perform, h]
    rcases importUnverified_cases h with ⟨e, -, rfl⟩ | ⟨vb, rfl, hv, he⟩
    · rfl
    · exact root_parent_importBlock hw hI hB hv hF he
  | query q => exact congrFun (parentOf_congr hI.coherent hI'.coherent (recached_touch bc q).detailsDB) _
  | garbageCollect =>
    exact congrFun (parentOf_congr hI.coherent hI'.coherent (recached_garbageCollect bc).1.detailsDB) _
  | insert => exact hop.elim
  | insertWithoutParent => exact hop.elim
  | rewind => exact hop.elim

theorem serves_openFresh (hw : w.Valid) (B : BlockSet w) (genesisState : AccountTrie) :
    (openFresh w genesisState).Serves w B where
  toChainInv := chainInv_openFresh hw B genesisState
  numbered := numbered_openFresh w genesisState
  root_parent := by
    have hC := (chainInv_openFresh hw B genesisState).coherent
    rw [hC.parentOf_eq]
    simp [openFresh]

/-- Headers can be served after every run of imports, queries and collections that asks for no number out of reach. -/
theorem serves_run (hw : w.Valid) (genesisState : AccountTrie) {ops : List Op}
    (hrun : StateRun.Along (step w) (fun bc op => op.Within B ∧ op.IsImport ∧ op.Fits w bc ∧
      op.Reaches w bc) (openFresh w genesisState) ops) :
    (StateRun.run (step w) (openFresh w genesisState) ops).Serves w B :=
  StateRun.invariant (fun bc : BlockChain => bc.Serves w B)
    (fun _ _ hS hP => serves_step hw hS hP.1 hP.2.1 hP.2.2.1 hP.2.2.2) (serves_openFresh hw B genesisState) hrun

end

end BlockChain

namespace EthereumHostData

open BlockChain (genesisHash)

section Walk

variable {w : World} {B : BlockSet w} {bc : BlockChain} (hS : bc.Serves w B)

theorem limitBlock_le (bc : BlockChain) : limitBlock bc ≤ bc.number := by
  unfold limitBlock
  dsimp only
  split_ifs <;> omega

include hS

theorem number_lt : bc.number < 2 ^ 32 - 1 := by
  rw [hS.number_eq]
  exact hS.bound _ hS.head_mem

theorem parentWalk_zero (step : ℕ) : parentWalk bc step 0 = (0, 0) := by
  have hlimit := limitBlock_le bc
  have hnumber := number_lt hS
  induction step with
  | zero => rfl
  | succ step ih =>
    unfold parentWalk
    rw [hS.details_zero]
    dsimp only [NullBlockDetails, c_invalidNumber]
    rw [if_neg (by omega)]
    exact ih

/-- A step down the canonical chain; it ends before the genesis block. -/
theorem nextHash_canonicalAt (step : ℕ) {m : ℕ} (hm : m ≤ bc.number) :
    nextHash w bc (bc.canonicalAt m) step = if step ≤ m then bc.canonicalAt (m - step) else 0 := by
  unfold nextHash
  induction step generalizing m with
  | zero => rw [if_pos (Nat.zero_le m), Nat.sub_zero]; rfl
  | succ step ih =>
    unfold parentWalk
    dsimp only
    rw [hS.height_canonicalAt hm]
    by_cases hlimit : m < limitBlock bc
    · -- the numbers do the rest
      rw [if_pos hlimit, numberWalk, hS.height_canonicalAt hm]
      by_cases hstep : step + 1 ≤ m
      · rw [if_pos hstep, if_pos hstep, hS.numberHash_eq (by omega)]
      · rw [if_neg hstep, if_neg hstep]
    · rw [if_neg hlimit]
      cases m with
      | zero =>
        rw [hS.parent_canonicalAt_zero, parentWalk_zero hS, if_neg (by omega)]
        rfl
      | succ m =>
        rw [BlockChain.Serves.parent_canonicalAt hm, ih (by omega), Nat.add_sub_add_right]
        by_cases hstep : step ≤ m
        · rw [if_pos hstep, if_pos (by omega)]
        · rw [if_neg hstep, if_neg (by omega)]

/-- The walk meets the canonical blocks a step apart. -/
theorem collectHashes_canonicalAt {step : ℕ} (hstep : 0 < step) (n : ℕ) {m : ℕ} (hm : m ≤ bc.number) :
    collectHashes w bc step n (bc.canonicalAt m) =
      (List.range (min n (m / step + 1))).map fun i => bc.canonicalAt (m - i * step) := by
  induction n generalizing m with
  | zero => rw [Nat.zero_min]; rfl
  | succ n ih =>
    unfold collectHashes
    have hknown : ¬(bc.canonicalAt m = 0 ∨ bc.isKnown w (bc.canonicalAt m) true = false) := by
      rw [hS.isKnown_canonicalAt hm]
      exact not_or.2 ⟨hS.canonicalAt_ne_zero hm, by decide⟩
    rw [if_neg hknown, nextHash_canonicalAt hS step hm]
    by_cases hle : step ≤ m
    · have hquot := Nat.div_eq_sub_div hstep hle
      have hcount : min (n + 1) (m / step + 1) = min n ((m - step) / step + 1) + 1 := by omega
      have hheight : ∀ i, m - step - i * step = m - (i + 1) * step := by
        intro i
        rw [Nat.add_mul, Nat.one_mul, Nat.add_comm, Nat.sub_sub]
      rw [if_pos hle, ih (by omega), hcount]
      calc bc.canonicalAt m :: (List.range (min n ((m - step) / step + 1))).map
            (fun i => bc.canonicalAt (m - step - i * step))
          = bc.canonicalAt (m - 0 * step) :: (List.range (min n ((m - step) / step + 1))).map
            (fun i => bc.canonicalAt (m - (i + 1) * step)) := by simp only [hheight, Nat.zero_mul, Nat.sub_zero]
        _ = (List.range (min n ((m - step) / step + 1) + 1)).map fun i => bc.canonicalAt (m - i * step) := by
            rw [List.range_succ_eq_map, List.map_cons, List.map_map]
            rfl
    · rw [if_neg hle, Nat.div_eq_of_lt (not_le.1 hle)]
      rw [show min (n + 1) (0 + 1) = 1 by omega]
      have hnil : collectHashes w bc step n 0 = [] := by
        cases n with
        | zero => rfl
        | succ n => exact if_pos (.inl rfl)
      rw [hnil]
      simp

end Walk

/-! ## The heights -/

/-- The heights that are asked for: as many as wanted, a step apart, of those the chain has. -/
def requested (lastBlock n maxHeaders step : ℕ) : Bool → List ℕ
  | false => ((List.range maxHeaders).map fun i => n + i * step).filter (· ≤ lastBlock)
  | true => ((List.range maxHeaders).filter fun i => i * step ≤ n).map fun i => n - i * step

theorem requested_le {lastBlock n maxHeaders step m : ℕ} {reverse : Bool} (hn : n ≤ lastBlock)
    (h : m ∈ requested lastBlock n maxHeaders step reverse) : m ≤ lastBlock := by
  cases reverse with
  | false => exact of_decide_eq_true (List.mem_filter.1 h).2
  | true =>
    obtain ⟨i, -, rfl⟩ := List.mem_map.1 h
    omega

theorem filter_range (a : ℕ) {b : ℕ} : (List.range a).filter (· < b) = List.range (min a b) := by
  induction a with
  | zero => rw [Nat.zero_min]; rfl
  | succ a ih =>
    rw [List.range_succ, List.filter_append, ih]
    by_cases hab : a < b
    · rw [show min (a + 1) b = min a b + 1 by omega, List.range_succ, show min a b = a by omega,
        List.filter_cons_of_pos (by simpa using hab), List.filter_nil]
    · rw [show min (a + 1) b = min a b by omega, List.filter_cons_of_neg (by simpa using hab),
        List.filter_nil, List.append_nil]

section Heights

variable {lastBlock n maxHeaders step : ℕ} (hstep : 0 < step)

include hstep

theorem requested_down : requested lastBlock n maxHeaders step true =
    (List.range (min maxHeaders (n / step + 1))).map fun i => n - i * step := by
  have hiff : ∀ i, decide (i * step ≤ n) = decide (i < n / step + 1) := fun i => by
    rw [decide_eq_decide, Nat.lt_succ_iff, Nat.le_div_iff_mul_le hstep]
  unfold requested
  rw [funext hiff, filter_range]

theorem requested_up (hn : n ≤ lastBlock) : requested lastBlock n maxHeaders step false =
    (List.range (min maxHeaders ((lastBlock - n) / step + 1))).map fun i => n + i * step := by
  have hiff : ∀ i, decide (n + i * step ≤ lastBlock) = decide (i < (lastBlock - n) / step + 1) := fun i => by
    rw [decide_eq_decide, Nat.lt_succ_iff, Nat.le_div_iff_mul_le hstep]
    omega
  unfold requested
  rw [List.filter_map, show ((fun x => decide (x ≤ lastBlock)) ∘ fun i => n + i * step) =
    fun i => decide (i < (lastBlock - n) / step + 1) from funext hiff, filter_range]

omit hstep in
/-- The blocks of a walk down, turned around. -/
theorem reverse_walk (base k : ℕ) : ((List.range k).map fun i => base + step * (k - 1) - i * step).reverse =
    (List.range k).map fun i => base + i * step := by
  refine List.ext_getElem (by simp) fun i hi _ => ?_
  rw [List.length_reverse, List.length_map, List.length_range] at hi
  rw [List.getElem_reverse, List.getElem_map, List.getElem_map, List.getElem_range, List.getElem_range,
    List.length_map, List.length_range]
  have hsplit : step * (k - 1) = (k - 1 - i) * step + i * step := by
    rw [← Nat.add_mul, Nat.mul_comm, show k - 1 - i + i = k - 1 by omega]
  omega

end Heights

theorem startAtNumber_none (w : World) (bc : BlockChain) (n step : ℕ) :
    startAtNumber w bc n 0 step false = .ok (0, 0) := by
  unfold startAtNumber
  dsimp only
  rw [if_neg (by decide), if_pos (.inr rfl)]

theorem startAtHash_none (w : World) (bc : BlockChain) (h : H256) (step : ℕ) :
    startAtHash w bc h 0 step false = .ok (0, 0) := by
  unfold startAtHash
  dsimp only
  rw [if_neg (by decide : ¬false = true), if_pos rfl, ite_self]

section Start

variable {w : World} {B : BlockSet w} {bc : BlockChain} (hS : bc.Serves w B) {n maxHeaders step : ℕ}
  (hstep : 0 < step)

include hS hstep

/-- The walk from a top block that many steps above a block. -/
theorem collectHashes_reverse {base k : ℕ} (h : base + step * (k - 1) ≤ bc.number) :
    (collectHashes w bc step k (bc.canonicalAt (base + step * (k - 1)))).reverse =
      ((List.range k).map fun i => base + i * step).map bc.canonicalAt := by
  have hk : k - 1 ≤ (base + step * (k - 1)) / step := by
    rw [Nat.le_div_iff_mul_le hstep, Nat.mul_comm]
    omega
  rw [collectHashes_canonicalAt hS hstep k h, show min k ((base + step * (k - 1)) / step + 1) = k by omega,
    ← reverse_walk base k, List.map_reverse, List.map_map]
  rfl

/-- As many headers as asked for, or as the chain has from `n` on. -/
def reach (lastBlock n maxHeaders step : ℕ) : ℕ := min maxHeaders ((lastBlock - n) / step + 1)

omit hS hstep in
theorem reach_le (maxHeaders step : ℕ) (hn : n ≤ bc.number) :
    n + step * (reach bc.number n maxHeaders step - 1) ≤ bc.number := by
  have hq := Nat.mul_div_le (bc.number - n) step
  have hle : reach bc.number n maxHeaders step - 1 ≤ (bc.number - n) / step :=
    Nat.sub_le_iff_le_add.2 (min_le_right _ _)
  have := Nat.mul_le_mul_left step hle
  omega

omit hS in
/-- A top block above the head is brought down to the last that the chain has. -/
theorem reach_of_lt (top : ℕ) (htop : bc.number < n + step * (maxHeaders - 1) + top) (h : top < step)
    (hmax : maxHeaders ≠ 0) (hn : n ≤ bc.number) :
    reach bc.number n maxHeaders step = (bc.number - n) / step + 1 := by
  have hlt : (bc.number - n) / step < maxHeaders := by
    rw [Nat.div_lt_iff_lt_mul hstep]
    have hsplit : maxHeaders * step = step * (maxHeaders - 1) + step := by
      rw [← Nat.mul_succ, Nat.mul_comm, Nat.succ_eq_add_one, Nat.sub_add_cancel (Nat.one_le_iff_ne_zero.2 hmax)]
    omega
  unfold reach
  omega

omit hS in
theorem reach_of_le (h : n + step * (maxHeaders - 1) ≤ bc.number) :
    reach bc.number n maxHeaders step = maxHeaders := by
  have hle : maxHeaders - 1 ≤ (bc.number - n) / step := by
    rw [Nat.le_div_iff_mul_le hstep, Nat.mul_comm]
    omega
  unfold reach
  omega

variable (hn : n ≤ bc.number) (hmax : maxHeaders ≤ c_maxHeadersToSend) (hlt : step < 2 ^ 32)

include hn

omit hstep in
theorem startAtNumber_down :
    startAtNumber w bc n maxHeaders step true = .ok (bc.canonicalAt n, maxHeaders) := by
  have hnumber := number_lt hS
  unfold startAtNumber
  rw [if_pos rfl, if_pos (by omega), hS.numberHash_eq hn]

omit hstep in
theorem startAtHash_down :
    startAtHash w bc (bc.canonicalAt n) maxHeaders step true = .ok (bc.canonicalAt n, maxHeaders) := by
  unfold startAtHash
  rw [hS.isKnown_canonicalAt hn, if_neg (by decide), if_pos rfl]

omit hstep in
/-- The top block that both branches come to when the first one is above the head. -/
theorem lowered_top (hover : reach bc.number n maxHeaders step = (bc.number - n) / step + 1) :
    ((bc.number - n) / step + 1) % 2 ^ 32 = reach bc.number n maxHeaders step ∧
      n + step * (reach bc.number n maxHeaders step - 1) < 2 ^ 32 := by
  have hnumber := number_lt hS
  have hq := Nat.div_le_self (bc.number - n) step
  have hreach := reach_le maxHeaders step hn
  exact ⟨by rw [hover, Nat.mod_eq_of_lt (by omega)], by omega⟩

include hmax hlt

theorem startAtNumber_up (h0 : maxHeaders ≠ 0) : startAtNumber w bc n maxHeaders step false =
    .ok (bc.canonicalAt (n + step * (reach bc.number n maxHeaders step - 1)),
      reach bc.number n maxHeaders step) := by
  have hnumber := number_lt hS
  have hreach := reach_le maxHeaders step hn
  have hmul : step * (maxHeaders - 1) < 2 ^ 64 := by
    unfold c_maxHeadersToSend at hmax
    have := Nat.mul_le_mul hlt.le (show maxHeaders - 1 ≤ 2 ^ 10 by omega)
    omega
  unfold startAtNumber
  dsimp only
  rw [if_neg (by decide), if_neg (by omega), Nat.mod_eq_of_lt hmul]
  by_cases htop : bc.number < n + step * (maxHeaders - 1)
  · have hover := reach_of_lt hstep 0 htop hstep h0 hn
    obtain ⟨hsend, hfits⟩ := lowered_top hS hn hover
    rw [if_pos htop, if_pos htop, hsend, Nat.mod_eq_of_lt (by omega), if_pos hreach,
      Nat.mod_eq_of_lt hfits, hS.numberHash_eq hreach]
  · have hexact := reach_of_le hstep (not_lt.1 htop)
    rw [hexact] at hreach ⊢
    rw [if_neg htop, if_neg htop, if_pos hreach, Nat.mod_eq_of_lt (by omega), hS.numberHash_eq hreach]

/-- By hash: right if the top block that is tried first is above the head, or no block is skipped. -/
theorem startAtHash_up (h0 : maxHeaders ≠ 0) :
    startAtHash w bc (bc.canonicalAt n) maxHeaders step false =
      .ok (if bc.number < n + step * maxHeaders - 1 then
          (bc.canonicalAt (n + step * (reach bc.number n maxHeaders step - 1)),
            reach bc.number n maxHeaders step)
        else (bc.canonicalAt (n + step - 1 + step * (maxHeaders - 1)), maxHeaders)) := by
  have hnumber := number_lt hS
  have hreach := reach_le maxHeaders step hn
  have hsplit : step * maxHeaders = step * (maxHeaders - 1) + step := by
    rw [← Nat.mul_succ, Nat.succ_eq_add_one, Nat.sub_add_cancel (Nat.one_le_iff_ne_zero.2 h0)]
  have hmul : n + step * maxHeaders - 1 < 2 ^ 64 := by
    unfold c_maxHeadersToSend at hmax
    have := Nat.mul_le_mul hlt.le (show maxHeaders ≤ 2 ^ 10 by omega)
    omega
  have hgenesis : n ≠ 0 ∨ bc.canonicalAt n = genesisHash w := by
    by_cases h : n = 0
    · exact .inr (by rw [h, hS.canonicalAt_zero])
    · exact .inl h
  unfold startAtHash
  dsimp only
  rw [hS.isKnown_canonicalAt hn, hS.height_canonicalAt hn, if_neg (by decide), if_neg (by decide), if_neg h0,
    if_pos hgenesis, Nat.mod_eq_of_lt hmul]
  by_cases htop : bc.number < n + step * maxHeaders - 1
  · have hover := reach_of_lt hstep (step - 1) (by omega) (by omega) h0 hn
    obtain ⟨hsend, hfits⟩ := lowered_top hS hn hover
    rw [if_pos htop, if_pos htop, if_pos htop, hsend, Nat.mod_eq_of_lt hfits, if_pos hreach,
      Nat.mod_eq_of_lt hfits, hS.numberHash_eq hreach]
  · rw [if_neg htop, if_neg htop, if_neg htop, if_pos (not_lt.1 htop), Nat.mod_eq_of_lt (by omega),
      hS.numberHash_eq (by omega), show n + step * maxHeaders - 1 = n + step - 1 + step * (maxHeaders - 1) by
        omega]

end Start

/-! ## The bytes -/

/-- Everything is appended if all but the last header stay below the limit. -/
theorem appendHeaders_eq_iff {headers : List Bytes} (hne : ∀ e ∈ headers, e ≠ []) (rlp : Bytes) :
    appendHeaders headers rlp = rlp ++ headers.flatten ↔
      headers = [] ∨ (rlp ++ headers.dropLast.flatten).length < c_maxPayload := by
  induction headers generalizing rlp with
  | nil => simp [appendHeaders]
  | cons e headers ih =>
    have he : e ≠ [] := hne e List.mem_cons_self
    unfold appendHeaders
    by_cases hlt : rlp.length < c_maxPayload
    · rw [if_pos hlt, List.flatten_cons, ← List.append_assoc,
        ih (fun x hx => hne x (List.mem_cons_of_mem _ hx))]
      cases headers with
      | nil => simpa using hlt
      | cons x headers =>
        rw [List.dropLast_cons_cons, List.flatten_cons, ← List.append_assoc]
        simp
    · rw [if_neg hlt]
      have hpos := List.length_pos_iff.2 he
      constructor
      · intro heq
        have hlen := congrArg List.length heq
        simp only [List.flatten_cons, List.length_append] at hlen
        omega
      · rintro (h | h)
        · cases h
        · rw [List.length_append] at h
          omega

/-- What is appended is a run of headers from the first on, and they reach the limit if they are not all. -/
theorem appendHeaders_eq_take (headers : List Bytes) (rlp : Bytes) : ∃ k ≤ headers.length,
    appendHeaders headers rlp = rlp ++ (headers.take k).flatten ∧
      (headers ≠ [] → rlp.length < c_maxPayload → 0 < k) := by
  induction headers generalizing rlp with
  | nil => exact ⟨0, le_rfl, (List.append_nil rlp).symm, fun h => absurd rfl h⟩
  | cons e headers ih =>
    unfold appendHeaders
    by_cases hlt : rlp.length < c_maxPayload
    · obtain ⟨k, hk, heq, -⟩ := ih (rlp ++ e)
      refine ⟨k + 1, Nat.succ_le_succ hk, ?_, fun _ _ => Nat.succ_pos k⟩
      rw [if_pos hlt, heq, List.take_succ_cons, List.flatten_cons, List.append_assoc]
    · exact ⟨0, Nat.zero_le _, by rw [if_neg hlt]; simp, fun _ h => absurd h hlt⟩

/-! ## The answer -/

section Answer

variable (w : World) (bc : BlockChain)

/-- A canonical block, as a request names it. -/
def idOf (byHash : Bool) (n : ℕ) : RLP :=
  ⟨if byHash then RLPStream.encodeBytes (asBytes 32 (bc.canonicalAt n)) else RLPStream.encodeInt n⟩

def headersAt (heights : List ℕ) : List Bytes := heights.map fun m => bc.headerBytes w (bc.canonicalAt m)

/-- An answer has as many of the headers as it counts, and all of them below the payload limit. -/
def Answers (headers : List Bytes) (r : Bytes × ℕ) : Prop :=
  r.2 ≤ headers.length ∧ r.1 = (headers.take r.2).flatten ∧
    (r.2 < headers.length → c_maxPayload ≤ r.1.length)

/-- The heights the walk goes through. -/
def walked (lastBlock n maxHeaders step : ℕ) (byHash reverse : Bool) : List ℕ :=
  if byHash = true ∧ reverse = false ∧ maxHeaders ≠ 0 ∧ n + step * maxHeaders - 1 ≤ lastBlock then
    (List.range maxHeaders).map fun i => n + step - 1 + i * step
  else requested lastBlock n maxHeaders step reverse

variable {w bc}

theorem size_encodeHash (h : H256) : (RLP.mk (RLPStream.encodeBytes (asBytes 32 h))).size = .ok 32 := by
  have hlen : (asBytes 32 h).length = 32 := length_toBigEndian 32 _
  have hmax : (asBytes 32 h).length < maxPayload := by
    rw [hlen]
    decide
  have hsize := (isItem_encodeBytes hmax).length []
  rw [List.append_nil, hlen] at hsize
  unfold RLP.size
  rw [isData_encodeBytes hmax, if_pos rfl, hsize]

theorem size_encodeInt {n : ℕ} (hn : n < 2 ^ 32) : ∃ size, size ≠ 32 ∧
    (RLP.mk (RLPStream.encodeInt n)).size = .ok size := by
  have hreq : bytesRequired n ≤ 4 := bytesRequired_le (by omega)
  have hmax : bytesRequired n < maxPayload := hreq.trans_lt (by decide)
  have hsize := (isItem_encodeInt hmax).length []
  rw [List.append_nil, length_toBigEndian] at hsize
  refine ⟨bytesRequired n, by omega, ?_⟩
  unfold RLP.size
  rw [isData_encodeInt hmax, if_pos rfl, hsize]

variable {B : BlockSet w} (hS : bc.Serves w B) {n maxHeaders : ℕ} (hn : n ≤ bc.number)
  (hmax : maxHeaders ≤ c_maxHeadersToSend) {skip : U256} (hskip : skip.toNat ≤ 2 ^ 32 - 2)

include hS hn hmax hskip

omit hmax in
/-- Both kinds of a request come to the same walk. -/
theorem blockHeaders_eq_start (byHash reverse : Bool) {start : H256 × ℕ}
    (hstart : (if byHash then startAtHash w bc (bc.canonicalAt n) maxHeaders (skip.toNat + 1) reverse
      else startAtNumber w bc n maxHeaders (skip.toNat + 1) reverse) = .ok start) :
    blockHeaders w bc (idOf bc byHash n) maxHeaders skip reverse =
      .ok (appendHeaders ((if reverse then collectHashes w bc (skip.toNat + 1) start.2 start.1
          else (collectHashes w bc (skip.toNat + 1) start.2 start.1).reverse).map (bc.headerBytes w)) [],
        (collectHashes w bc (skip.toNat + 1) start.2 start.1).length) := by
  have hnumber := number_lt hS
  have hstep : (skip.toNat % 2 ^ 32 + 1) % 2 ^ 32 = skip.toNat + 1 := by omega
  unfold blockHeaders
  dsimp only
  rw [hstep, if_neg (Nat.succ_ne_zero _), ok_bind]
  cases byHash with
  | true =>
    have hid : idOf bc true n = ⟨RLPStream.encodeBytes (asBytes 32 (bc.canonicalAt n))⟩ :=
      congrArg RLP.mk (if_pos rfl)
    have hread : (RLP.mk (RLPStream.encodeBytes (asBytes 32 (bc.canonicalAt n)))).toHash 32 RLP.Strict =
        .ok (bc.canonicalAt n) := @toHash_encodeBytes 32 (by decide) (bc.canonicalAt n) RLP.Strict
    rw [if_pos rfl] at hstart
    rw [hid, size_encodeHash, ok_bind, if_pos rfl, hread, ok_bind, hstart, ok_bind]
    rfl
  | false =>
    have hid : idOf bc false n = ⟨RLPStream.encodeInt n⟩ := congrArg RLP.mk (if_neg Bool.false_ne_true)
    obtain ⟨size, hne, hsize⟩ := size_encodeInt (show n < 2 ^ 32 by omega)
    have hbig : n < 256 ^ bigintMaxSize := by
      refine (show n < 256 ^ 4 by omega).trans_le (Nat.pow_le_pow_right (by norm_num) ?_)
      decide
    rw [if_neg Bool.false_ne_true] at hstart
    rw [hid, hsize, ok_bind, if_neg hne, toInt_encodeInt hbig (by decide), ok_bind, hstart, ok_bind]
    rfl

/-- What a request is answered with, whether it is right or not. No assertion fails. -/
theorem blockHeaders_eq (byHash reverse : Bool) :
    blockHeaders w bc (idOf bc byHash n) maxHeaders skip reverse =
      .ok (appendHeaders (headersAt w bc
          (walked bc.number n maxHeaders (skip.toNat + 1) byHash reverse)) [],
        (walked bc.number n maxHeaders (skip.toNat + 1) byHash reverse).length) := by
  have hnumber := number_lt hS
  have hpos : 0 < skip.toNat + 1 := Nat.succ_pos _
  have hlt : skip.toNat + 1 < 2 ^ 32 := by omega
  have hreach := reach_le maxHeaders (skip.toNat + 1) hn
  have hfinish : ∀ {start : H256 × ℕ} {heights : List ℕ},
      (if byHash then startAtHash w bc (bc.canonicalAt n) maxHeaders (skip.toNat + 1) reverse
        else startAtNumber w bc n maxHeaders (skip.toNat + 1) reverse) = .ok start →
      (if reverse then collectHashes w bc (skip.toNat + 1) start.2 start.1
        else (collectHashes w bc (skip.toNat + 1) start.2 start.1).reverse) = heights.map bc.canonicalAt →
      blockHeaders w bc (idOf bc byHash n) maxHeaders skip reverse =
        .ok (appendHeaders (headersAt w bc heights) [], heights.length) := by
    intro start heights hstart hwalk
    have hlen : (collectHashes w bc (skip.toNat + 1) start.2 start.1).length = heights.length := by
      have := congrArg List.length hwalk
      rw [List.length_map] at this
      rw [← this]
      split
      · rfl
      · rw [List.length_reverse]
    rw [blockHeaders_eq_start hS hn hskip byHash reverse hstart, hwalk, hlen, List.map_map]
    rfl
  cases reverse with
  | true =>
    have hstart : (if byHash then startAtHash w bc (bc.canonicalAt n) maxHeaders (skip.toNat + 1) true
        else startAtNumber w bc n maxHeaders (skip.toNat + 1) true) =
          .ok (bc.canonicalAt n, maxHeaders) := by
      rw [startAtHash_down hS hn, startAtNumber_down hS hn, ite_self]
    have hwalked : walked bc.number n maxHeaders (skip.toNat + 1) byHash true =
        requested bc.number n maxHeaders (skip.toNat + 1) true := if_neg fun h => by cases h.2.1
    refine hfinish hstart ?_
    rw [if_pos rfl, collectHashes_canonicalAt hS hpos maxHeaders hn, hwalked, requested_down hpos,
      List.map_map]
    rfl
  | false =>
    by_cases h0 : maxHeaders = 0
    · subst h0
      have hstart : (if byHash then startAtHash w bc (bc.canonicalAt n) 0 (skip.toNat + 1) false
          else startAtNumber w bc n 0 (skip.toNat + 1) false) = .ok (0, 0) := by
        rw [startAtHash_none, startAtNumber_none, ite_self]
      refine hfinish hstart ?_
      have hwalked : walked bc.number n 0 (skip.toNat + 1) byHash false = [] := by
        unfold walked
        split <;> rfl
      rw [hwalked]
      rfl
    · by_cases hwrong : byHash = true ∧ n + (skip.toNat + 1) * maxHeaders - 1 ≤ bc.number
      · obtain ⟨rfl, htop⟩ := hwrong
        have hwalked : walked bc.number n maxHeaders (skip.toNat + 1) true false =
            (List.range maxHeaders).map fun i => n + (skip.toNat + 1) - 1 + i * (skip.toNat + 1) :=
          if_pos ⟨rfl, rfl, h0, htop⟩
        have hsplit : (skip.toNat + 1) * maxHeaders =
            (skip.toNat + 1) * (maxHeaders - 1) + (skip.toNat + 1) := by
          rw [← Nat.mul_succ, Nat.succ_eq_add_one, Nat.sub_add_cancel (Nat.one_le_iff_ne_zero.2 h0)]
        have hstart := startAtHash_up hS hpos hn hmax hlt h0
        rw [if_neg (not_lt.2 htop)] at hstart
        refine hfinish (by rw [if_pos rfl, hstart]) ?_
        rw [if_neg Bool.false_ne_true, hwalked]
        have hbase : n + (skip.toNat + 1) - 1 + (skip.toNat + 1) * (maxHeaders - 1) ≤ bc.number := by
          rw [hsplit] at htop
          omega
        exact collectHashes_reverse hS hpos hbase
      · have hwalked : walked bc.number n maxHeaders (skip.toNat + 1) byHash false =
            requested bc.number n maxHeaders (skip.toNat + 1) false :=
          if_neg fun h => hwrong ⟨h.1, h.2.2.2⟩
        have hstart : (if byHash then startAtHash w bc (bc.canonicalAt n) maxHeaders (skip.toNat + 1) false
            else startAtNumber w bc n maxHeaders (skip.toNat + 1) false) =
              .ok (bc.canonicalAt (n + (skip.toNat + 1) *
                  (reach bc.number n maxHeaders (skip.toNat + 1) - 1)),
                reach bc.number n maxHeaders (skip.toNat + 1)) := by
          cases byHash with
          | true =>
            rw [if_pos rfl, startAtHash_up hS hpos hn hmax hlt h0,
              if_pos (not_le.1 fun h => hwrong ⟨rfl, h⟩)]
          | false => rw [if_neg Bool.false_ne_true, startAtNumber_up hS hpos hn hmax hlt h0]
        refine hfinish hstart ?_
        rw [if_neg Bool.false_ne_true, hwalked, requested_up hpos hn]
        exact collectHashes_reverse hS hpos hreach

omit hn hmax hskip in
/-- The header of a canonical block that was read gives its height. -/
theorem headerBytes_canonicalAt (hw : w.Valid)
    (hread : ∀ h ∈ bc.canonical, ∀ b, bc.block w h = some b → ∃ d, BlockRLP.ofBytes w.crypto d = .ok b)
    {m : ℕ} (hm : m ≤ bc.number) : (∃ p, IsItem (bc.headerBytes w (bc.canonicalAt m)) p) ∧
      ∃ info, BlockHeader.populate ⟨bc.headerBytes w (bc.canonicalAt m)⟩
        (w.crypto.sha3 (bc.headerBytes w (bc.canonicalAt m))) = .ok info ∧ info.number = m := by
  obtain ⟨hcan, hrec, hheight⟩ := hS.canonicalAt_mem hm
  obtain ⟨b, hb, -, hnumber, -⟩ := hS.block_spec hw hrec
  obtain ⟨d, hd⟩ := hread _ hcan b hb
  obtain ⟨hitem, hinfo⟩ := header_item hd
  have hbytes : bc.headerBytes w (bc.canonicalAt m) = b.header := by
    unfold BlockChain.headerBytes
    rw [hb]
    rfl
  rw [hbytes]
  exact ⟨hitem, b.info, hinfo, by rw [hnumber, hheight]⟩

omit hmax hskip in
theorem headersAt_ne_nil (hw : w.Valid)
    (hread : ∀ h ∈ bc.canonical, ∀ b, bc.block w h = some b → ∃ d, BlockRLP.ofBytes w.crypto d = .ok b)
    {step : ℕ} {reverse : Bool} :
    ∀ e ∈ headersAt w bc (requested bc.number n maxHeaders step reverse), e ≠ [] := by
  intro e he
  obtain ⟨m, hm, rfl⟩ := List.mem_map.1 he
  obtain ⟨p, hp⟩ := (headerBytes_canonicalAt hS hw hread (requested_le hn hm)).1
  exact hp.ne_nil

omit hS hn hmax hskip in
/-- A walk through the right blocks is told in full, if the payload limit lets it be. -/
theorem answers_iff {headers : List Bytes} (hne : ∀ e ∈ headers, e ≠ []) :
    Answers headers (appendHeaders headers [], headers.length) ↔
      headers.dropLast.flatten.length < c_maxPayload := by
  have hiff := appendHeaders_eq_iff hne []
  rw [List.nil_append, List.nil_append] at hiff
  unfold Answers
  dsimp only
  rw [List.take_length, hiff]
  constructor
  · rintro ⟨-, h | h, -⟩
    · rw [h]
      decide
    · exact h
  · exact fun h => ⟨le_rfl, .inr h, fun hlt => absurd hlt (lt_irrefl _)⟩

omit hS hn hmax hskip in
theorem range_stride (base step k : ℕ) : (List.range (k + 1)).map (fun i => base + i * step) =
    base :: (List.range k).map fun i => base + (i + 1) * step := by
  rw [List.range_succ_eq_map, List.map_cons, List.map_map, Nat.zero_mul, Nat.add_zero]
  rfl

omit hS hmax hskip in
/-- The walk that a request by hash which goes up starts above the right one. -/
theorem walked_high {step : ℕ} (hstep : 0 < step) (h0 : maxHeaders ≠ 0)
    (htop : n + step * maxHeaders - 1 ≤ bc.number) :
    n + step - 1 ≤ bc.number ∧ walked bc.number n maxHeaders step true false =
        (List.range maxHeaders).map (fun i => n + step - 1 + i * step) ∧
      requested bc.number n maxHeaders step false =
        (List.range maxHeaders).map fun i => n + i * step := by
  have hsplit : step * maxHeaders = step * (maxHeaders - 1) + step := by
    rw [← Nat.mul_succ, Nat.succ_eq_add_one, Nat.sub_add_cancel (Nat.one_le_iff_ne_zero.2 h0)]
  have hreach := reach_of_le hstep (show n + step * (maxHeaders - 1) ≤ bc.number by omega)
  refine ⟨by omega, if_pos ⟨rfl, rfl, h0, htop⟩, ?_⟩
  rw [requested_up hstep hn]
  exact congrArg (fun k => (List.range k).map fun i => n + i * step) hreach

omit hmax hskip in
/-- If blocks are skipped, the first header of that walk is of a block above the one asked for. -/
theorem not_answers (hw : w.Valid)
    (hread : ∀ h ∈ bc.canonical, ∀ b, bc.block w h = some b → ∃ d, BlockRLP.ofBytes w.crypto d = .ok b)
    (h0 : maxHeaders ≠ 0) (htop : n + (skip.toNat + 1) * maxHeaders - 1 ≤ bc.number) (hskip0 : skip ≠ 0) :
    ¬Answers (headersAt w bc (requested bc.number n maxHeaders (skip.toNat + 1) false))
      (appendHeaders (headersAt w bc (walked bc.number n maxHeaders (skip.toNat + 1) true false)) [],
        (walked bc.number n maxHeaders (skip.toNat + 1) true false).length) := by
  rintro ⟨-, hbytes, -⟩
  obtain ⟨hbase, hwalk, hasked⟩ := walked_high hn (Nat.succ_pos skip.toNat) h0 htop
  obtain ⟨j, -, htake, hj⟩ := appendHeaders_eq_take
    (headersAt w bc (walked bc.number n maxHeaders (skip.toNat + 1) true false)) []
  dsimp only at hbytes
  rw [htake, List.nil_append, hwalk, hasked, List.length_map, List.length_range] at hbytes
  rw [hwalk] at hj
  obtain ⟨k, rfl⟩ := Nat.exists_eq_succ_of_ne_zero h0
  rw [range_stride, range_stride] at hbytes
  rw [range_stride] at hj
  obtain ⟨j, rfl⟩ := Nat.exists_eq_succ_of_ne_zero (hj (List.cons_ne_nil _ _) (by decide)).ne'
  unfold headersAt at hbytes
  rw [List.map_cons, List.map_cons, List.take_succ_cons, List.take_succ_cons, List.flatten_cons,
    List.flatten_cons] at hbytes
  obtain ⟨⟨p, hp⟩, info, hinfo, hnumber⟩ := headerBytes_canonicalAt hS hw hread hbase
  obtain ⟨⟨p', hp'⟩, info', hinfo', hnumber'⟩ := headerBytes_canonicalAt hS hw hread hn
  rw [hp.eq_of_append hp' hbytes, hinfo', Except.ok.injEq] at hinfo
  rw [← hinfo, hnumber'] at hnumber
  exact hskip0 (BitVec.eq_of_toNat_eq (show skip.toNat = 0 by omega))

/-- A request for headers is answered. The answer is right if and only if all headers but the last stay below
the payload limit, and the request is not one by hash that goes up, skips blocks, and ends, the blocks it skips
last included, on the chain. -/
theorem blockHeaders_iff (hw : w.Valid)
    (hread : ∀ h ∈ bc.canonical, ∀ b, bc.block w h = some b → ∃ d, BlockRLP.ofBytes w.crypto d = .ok b)
    (byHash reverse : Bool) :
    ∃ r, blockHeaders w bc (idOf bc byHash n) maxHeaders skip reverse = .ok r ∧
      (Answers (headersAt w bc (requested bc.number n maxHeaders (skip.toNat + 1) reverse)) r ↔
        (byHash = true → reverse = false → maxHeaders ≠ 0 →
          n + (skip.toNat + 1) * maxHeaders - 1 ≤ bc.number → skip = 0) ∧
        (headersAt w bc (requested bc.number n maxHeaders (skip.toNat + 1) reverse)).dropLast.flatten.length <
          c_maxPayload) := by
  refine ⟨_, blockHeaders_eq hS hn hmax hskip byHash reverse, ?_⟩
  set asked := requested bc.number n maxHeaders (skip.toNat + 1) reverse with hasked
  have hne : ∀ e ∈ headersAt w bc asked, e ≠ [] := headersAt_ne_nil hS hn hw hread
  have hlen : (headersAt w bc asked).length = asked.length := List.length_map _
  have hright : walked bc.number n maxHeaders (skip.toNat + 1) byHash reverse = asked →
      (Answers (headersAt w bc asked) (appendHeaders (headersAt w bc
          (walked bc.number n maxHeaders (skip.toNat + 1) byHash reverse)) [],
        (walked bc.number n maxHeaders (skip.toNat + 1) byHash reverse).length) ↔
        (headersAt w bc asked).dropLast.flatten.length < c_maxPayload) := by
    intro hwalk
    rw [hwalk, ← hlen]
    exact answers_iff hne
  by_cases hwrong : byHash = true ∧ reverse = false ∧ maxHeaders ≠ 0 ∧
      n + (skip.toNat + 1) * maxHeaders - 1 ≤ bc.number
  · obtain ⟨rfl, rfl, h0, htop⟩ := hwrong
    by_cases hskip0 : skip = 0
    · obtain ⟨-, hwalk, hup⟩ := walked_high hn (Nat.succ_pos skip.toNat) h0 htop
      have hzero : skip.toNat = 0 := by rw [hskip0]; rfl
      rw [hright (by rw [hwalk, hasked, hup, hzero]; rfl)]
      exact ⟨fun h => ⟨fun _ _ _ _ => hskip0, h⟩, And.right⟩
    · exact ⟨fun h => absurd h (not_answers hS hn hw hread h0 htop hskip0),
        fun h => absurd (h.1 rfl rfl h0 htop) hskip0⟩
  · rw [hright (if_neg hwrong)]
    exact ⟨fun h => ⟨fun h1 h2 h3 h4 => absurd ⟨h1, h2, h3, h4⟩ hwrong, h⟩, And.right⟩

end Answer

/-! ## Two blocks -/

open Devnet (world genesis importOf heavy1 lightAndHeavy)

/-- The development network after the import of a block. -/
def twoBlocks : BlockChain := StateRun.run (BlockChain.step world) genesis [importOf [heavy1]]

/-- The blocks of the network can be read. -/
theorem read_of_mined {F : Devnet.Branches} {bc : BlockChain} (hM : Devnet.Mined F bc) : ∀ h ∈ bc.canonical, ∀ b,
    bc.block world h = some b → ∃ d, BlockRLP.ofBytes world.crypto d = .ok b := by
  intro h hcan b hb
  have hrec := hM.tree.mem_of_mem_lineage hM.head_mem hcan
  obtain ⟨l, hl, rfl⟩ := hM.exists_way hrec
  rw [hM.block_eq hl hrec, Option.some.injEq] at hb
  exact ⟨_, hb ▸ Devnet.ofBytes_bytes (F.sound hl)⟩

theorem twoBlocks_serves : twoBlocks.Serves world lightAndHeavy.blockSet ∧ twoBlocks.number = 1 ∧
    ∀ h ∈ twoBlocks.canonical, ∀ b, twoBlocks.block world h = some b →
      ∃ d, BlockRLP.ofBytes world.crypto d = .ok b := by
  obtain ⟨route, -, bc1, himp, hG, -⟩ := (Devnet.grown_genesis lightAndHeavy).importBlock
    Devnet.weight_lt Devnet.heavy1_mem (.inl rfl) (by simp) rfl (by decide)
    (Devnet.timestamp_le _ Devnet.heavy1_mem)
  have hstep : twoBlocks = bc1 := congrArg Prod.snd himp
  have hM := Devnet.mined_genesis lightAndHeavy
  have hmem : Devnet.hash [heavy1] ∈ bc1.recorded :=
    (hG.recorded_iff Devnet.heavy1_mem).2 (.inr (by simp))
  have hhead : bc1.m_lastBlockHash = Devnet.hash [heavy1] := by
    refine hG.head_eq Devnet.heavy1_mem hmem fun l' hl' hm' hw => ?_
    rcases (hG.recorded_iff hl').1 hm' with rfl | hb
    · exact absurd hw (by decide)
    · exact Devnet.block_inj hl' Devnet.heavy1_mem (by simpa using hb)
  refine ⟨BlockChain.serves_run Devnet.world_valid (Devnet.state []) ⟨⟨(Devnet.within_importOf
    Devnet.heavy1_mem).1, trivial, ?_, (hM.keepsIndex Devnet.heavy1_mem hM.tree.root_mem (by simp)).1⟩,
    trivial⟩, ?_, ?_⟩
  · change (Devnet.block [heavy1]).info.number ≠ _
    decide
  · have hnum := hG.mined.head_number
    simp only [hhead] at hnum
    rw [hstep, BlockChain.number, hnum, hG.mined.heightOf_eq Devnet.heavy1_mem hmem]
    rfl
  · rw [hstep]
    exact read_of_mined hG.mined

/-- The development network after the import of light blocks. -/
def lightChain (n : ℕ) : BlockChain := StateRun.run (BlockChain.step world) genesis (Devnet.lightRun n)

theorem lightChain_serves : ∀ {n : ℕ}, n ≤ 255 → Devnet.Kept lightAndHeavy (lightChain n, Devnet.lightBlocks n) ∧
    (lightChain n).Serves world lightAndHeavy.blockSet
  | 0, _ => ⟨Devnet.kept_genesis lightAndHeavy,
      BlockChain.serves_openFresh Devnet.world_valid lightAndHeavy.blockSet (Devnet.state [])⟩
  | n + 1, h => by
    obtain ⟨hK, hS⟩ := lightChain_serves (n := n) (by omega)
    have hl : Devnet.light (n + 1) ∈ lightAndHeavy.ways := Devnet.light_mem (by omega)
    have hparent : n = 0 ∨ Devnet.block (Devnet.light n) ∈ Devnet.lightBlocks n := by
      rcases Nat.eq_zero_or_pos n with h0 | hpos
      · exact .inl h0
      · exact .inr ((Devnet.mem_lightBlocks (by omega) (by omega)).2 ⟨hpos, le_rfl⟩)
    have hnew : Devnet.block (Devnet.light (n + 1)) ∉ Devnet.lightBlocks n := fun hm => by
      have := ((Devnet.mem_lightBlocks (by omega) (by omega)).1 hm).2
      omega
    obtain ⟨r, bc', himp, hK'⟩ := hK.importLight (by omega) hparent hnew
    have hrun : lightChain (n + 1) = (lightChain n).step world (importOf (Devnet.light (n + 1))) := by
      unfold lightChain Devnet.lightRun
      rw [List.range_succ, List.map_append, StateRun.run_append]
      rfl
    have hblocks : Devnet.lightBlocks (n + 1) = Devnet.lightBlocks n ++ [Devnet.block (Devnet.light (n + 1))] := by
      unfold Devnet.lightBlocks
      rw [List.range_succ, List.map_append]
      rfl
    have hstep : (lightChain n).step world (importOf (Devnet.light (n + 1))) = bc' := congrArg Prod.snd himp
    refine ⟨by rw [hrun, hstep, hblocks]; exact hK', ?_⟩
    rw [hrun]
    obtain ⟨m, he, -⟩ := Devnet.light_eq n
    have hrecorded : Devnet.hash (Devnet.light n) ∈ (lightChain n).recorded := by
      refine (hK.recorded_iff (Devnet.light_mem (by omega))).2 (hparent.imp_left ?_)
      rintro rfl
      rfl
    rw [he] at hl ⊢
    refine BlockChain.serves_step Devnet.world_valid hS (Devnet.within_importOf hl).1 trivial ?_
      (hK.mined.keepsIndex hl hrecorded (by rw [Devnet.length_light]; omega)).1
    show ((m :: Devnet.light n).length : ℤ) ≠ (c_invalidNumber : ℕ)
    rw [List.length_cons, Devnet.length_light]
    unfold c_invalidNumber
    omega

theorem lightChain_mined {n : ℕ} (hn : n ≤ 255) : Devnet.Mined lightAndHeavy (lightChain n) :=
  (lightChain_serves hn).1.mined

theorem lightChain_head {n : ℕ} (hn : n ≤ 255) : (lightChain n).currentHash = Devnet.hash (Devnet.light n) := by
  obtain ⟨hK, -⟩ := lightChain_serves hn
  have hmem : Devnet.hash (Devnet.light n) ∈ (lightChain n).recorded := by
    refine (hK.recorded_iff (Devnet.light_mem (by omega))).2 ?_
    rcases Nat.eq_zero_or_pos n with rfl | hpos
    · exact .inl rfl
    · exact .inr ((Devnet.mem_lightBlocks (by omega) (by omega)).2 ⟨hpos, le_rfl⟩)
  refine hK.head_eq (Devnet.light_mem (by omega)) hmem fun l' hl' hm' hw => ?_
  rw [Devnet.weight_light] at hw
  rcases (hK.recorded_iff hl').1 hm' with rfl | hb
  · rw [show Devnet.weight [] = 1 from rfl] at hw
    rw [show n = 0 by omega]
    rfl
  · rcases hl' with ⟨k, hk, rfl⟩ | rfl | rfl
    · rw [Devnet.weight_light] at hw
      have hle := (Devnet.mem_lightBlocks hk (by omega)).1 hb
      rw [show k = n by omega]
    · exact absurd hb (Devnet.heavy_notMem (.inl rfl) Devnet.heavy1_mem (by omega))
    · exact absurd hb (Devnet.heavy_notMem (.inr rfl) Devnet.heavy2_mem (by omega))

/-- Its blocks, by their heights. -/
theorem block_lightChain {n m : ℕ} (hn : n ≤ 255) (hm : m ≤ n) : (lightChain n).number = n ∧
    (lightChain n).block world ((lightChain n).canonicalAt m) = some (Devnet.block (Devnet.light m)) := by
  obtain ⟨hK, hS⟩ := lightChain_serves hn
  have hhead := lightChain_head hn
  have hmem : Devnet.hash (Devnet.light n) ∈ (lightChain n).recorded := hhead ▸ hS.head_mem
  have hnumber : (lightChain n).number = n := by
    rw [hS.number_eq, hhead, hK.mined.heightOf_eq (Devnet.light_mem (by omega)) hmem, Devnet.length_light]
  have hcan : (lightChain n).canonicalAt m = Devnet.hash (Devnet.light m) := by
    unfold BlockChain.canonicalAt
    rw [hhead, hnumber]
    have hit := Devnet.iterate_light hK.mined (n := m) (k := n - m) (by omega)
      (by rw [Nat.add_sub_cancel' hm]; exact hmem)
    rwa [Nat.add_sub_cancel' hm] at hit
  refine ⟨hnumber, ?_⟩
  rw [hcan]
  exact hK.mined.block_eq (Devnet.light_mem (by omega)) (hcan ▸ (hS.canonicalAt_mem (hnumber.symm ▸ hm)).2.1)

/-- Three headers, every second one, from the first block of a chain of six on. -/
theorem blockHeaders_light : ∃ r, blockHeaders world (lightChain 6) (idOf (lightChain 6) false 1) 3 1 false = .ok r ∧
    Answers (headersAt world (lightChain 6) [1, 3, 5]) r := by
  have hS := (lightChain_serves (n := 6) (by norm_num)).2
  have hnumber : (lightChain 6).number = 6 := (block_lightChain (m := 0) (by norm_num) (by norm_num)).1
  obtain ⟨r, hr, hiff⟩ := blockHeaders_iff hS (show 1 ≤ (lightChain 6).number by omega)
    (show 3 ≤ c_maxHeadersToSend by decide) (show (1 : U256).toNat ≤ 2 ^ 32 - 2 by decide) Devnet.world_valid
    (read_of_mined (lightChain_mined (by norm_num))) false false
  have hheader : ∀ m ≤ 6, (lightChain 6).headerBytes world ((lightChain 6).canonicalAt m) =
      (Devnet.block (Devnet.light m)).header := by
    intro m hm
    unfold BlockChain.headerBytes
    rw [(block_lightChain (by norm_num) hm).2]
    rfl
  rw [hnumber, show requested 6 1 3 ((1 : U256).toNat + 1) false = [1, 3, 5] by decide] at hiff
  refine ⟨r, hr, hiff.2 ⟨fun h => (by cases h), ?_⟩⟩
  unfold headersAt
  simp only [List.map_cons, List.map_nil, hheader 1 (by norm_num), hheader 3 (by norm_num), hheader 5 (by norm_num)]
  decide +kernel

/-- With a skip, it is the block behind it that is sent. -/
theorem blockHeaders_skips : twoBlocks.Serves world lightAndHeavy.blockSet ∧ twoBlocks.number = 1 ∧
    ∃ r, blockHeaders world twoBlocks (idOf twoBlocks true 0) 1 1 false = .ok r ∧
      ¬Answers (headersAt world twoBlocks (requested twoBlocks.number 0 1 ((1 : U256).toNat + 1) false)) r := by
  obtain ⟨hS, hnumber, hread⟩ := twoBlocks_serves
  have hn := Nat.zero_le twoBlocks.number
  have hskip : (1 : U256).toNat ≤ 2 ^ 32 - 2 := by decide
  refine ⟨hS, hnumber, _, blockHeaders_eq hS hn (show 1 ≤ c_maxHeadersToSend by decide) hskip true false, ?_⟩
  have htop : 0 + ((1 : U256).toNat + 1) * 1 - 1 ≤ twoBlocks.number := by
    rw [hnumber]
    decide
  exact not_answers hS hn Devnet.world_valid hread one_ne_zero htop (by decide)

end EthereumHostData

end Petrachor
