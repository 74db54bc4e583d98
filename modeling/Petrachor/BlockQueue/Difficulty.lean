import Petrachor.BlockQueue.Devnet

/-!
# The difficulty of the blocks in the queue

`m_difficulty` is raised for every block that comes in, be it filed, made to wait or put off to the
future, and lowered by what was drained when the draining is done. It is the difficulty of the blocks
held as long as blocks leave the queue by being drained and in no other way.
-/

namespace Petrachor

open Intake (Item)

variable {w : World} {B : QueueBlocks w} {q q' q'' : BlockQueue}

/-- The difficulty of the block with a hash. -/
noncomputable def QueueBlocks.difficulty (B : QueueBlocks w) (h : H256) : ℕ :=
  open Classical in
  if hex : ∃ d info, B.Holds d info ∧ info.m_hash = h then
    hex.choose_spec.choose.difficulty.toNat
  else 0

theorem QueueBlocks.Holds.difficulty_eq {d : Bytes} {info : BlockHeader} (h : B.Holds d info) :
    B.difficulty info.m_hash = info.difficulty.toNat := by
  have hex : ∃ d' info', B.Holds d' info' ∧ info'.m_hash = info.m_hash := ⟨d, info, h, rfl⟩
  unfold QueueBlocks.difficulty
  rw [dif_pos hex]
  obtain ⟨⟨hd', b', hb', hi'⟩, hm⟩ := hex.choose_spec.choose_spec
  obtain ⟨hd, b, hb, hi⟩ := h
  have heq : b'.info = b.info := by
    apply B.hash_inj _ hd' b' hb' _ hd b hb
    rw [hi', hi]
    exact hm
  rw [← hi', heq, hi]

namespace BlockQueue

/-- The difficulty of the blocks held: ready, waiting, put off, or drained and not done with. -/
noncomputable def heldDifficulty (B : QueueBlocks w) (q : BlockQueue) : ℕ :=
  (q.view w.crypto).weight B.difficulty + (q.m_future.m_map.map fun e => B.difficulty e.2.1).sum

/-- Nothing the queue holds has a bad parent. -/
structure Unspoiled (B : QueueBlocks w) (q : BlockQueue) : Prop where
  member : (q.view w.crypto).Member
  shaped : q.Shaped B
  line : ∀ x ∈ (q.view w.crypto).line, x.after ∉ q.m_knownBad
  waiting : ∀ x ∈ (q.view w.crypto).waiting, x.after ∉ q.m_knownBad
  named : ∀ h ∈ q.m_knownBad, B.Named h

/-! ## What changes nothing -/

/-- The queue holds what it held, in the same places. -/
structure Same (B : QueueBlocks w) (q q' : BlockQueue) : Prop where
  view_eq : q'.view w.crypto = q.view w.crypto
  shaped : q'.Shaped B
  future : q'.m_future = q.m_future
  difficulty : q'.m_difficulty = q.m_difficulty
  drainingDifficulty : q'.m_drainingDifficulty = q.m_drainingDifficulty

theorem Same.refl (hq : q.Shaped B) : Same B q q := ⟨rfl, hq, rfl, rfl, rfl⟩

theorem Same.trans (h : Same B q q') (h' : Same B q' q'') : Same B q q'' where
  view_eq := h'.view_eq.trans h.view_eq
  shaped := h'.shaped
  future := h'.future.trans h.future
  difficulty := h'.difficulty.trans h.difficulty
  drainingDifficulty := h'.drainingDifficulty.trans h.drainingDifficulty

theorem Same.bad (h : Same B q q') : q'.m_knownBad = q.m_knownBad :=
  congrArg Intake.State.bad h.view_eq

theorem Unspoiled.same (hq : q.Unspoiled B) (h : Same B q q') : q'.Unspoiled B := by
  constructor
  · rw [h.view_eq]
    exact hq.member
  · exact h.shaped
  · rw [h.view_eq, h.bad]
    exact hq.line
  · rw [h.view_eq, h.bad]
    exact hq.waiting
  · rw [h.bad]
    exact hq.named

theorem Unspoiled.name_notMem (hq : q.Unspoiled B) {x : Item H256}
    (hx : x ∈ (q.view w.crypto).line) : x.name ∉ q.m_knownBad := fun hb =>
  Finset.disjoint_left.1 hq.member.ready_bad (hq.member.mem_ready.2 ⟨x, hx, rfl⟩) hb

theorem same_collectUnknownBad (hq : q.Unspoiled B) {bad : H256} (hb : bad ∈ q.m_knownBad) :
    Same B q (q.collectUnknownBad bad) := by
  obtain ⟨out, stay, n, hR, heq⟩ := collectUnknownBad_eq q bad
  -- the first block to go would wait for the bad one
  have hout : out = [] := by
    cases out with
    | nil => rfl
    | cons e out =>
      have hafter : e.1 = bad := List.mem_singleton.1 hR.sourced.1
      have hmem : e ∈ q.m_unknown.m_map := (mem_of_released hR).1 List.mem_cons_self
      exfalso
      apply hq.waiting (unknownItem e) (Multiset.mem_coe.2 (List.mem_map_of_mem hmem))
      change e.1 ∈ q.m_knownBad
      rw [hafter]
      exact hb
  have hstay : (↑(stay.map unknownItem) : Multiset (Item H256)) =
      ↑(q.m_unknown.m_map.map unknownItem) := by
    have h := (released_items hR).eq
    rw [hout] at h
    rw [h]
    simp
  rw [heq]
  refine ⟨?_, shaped_markBad hq.shaped (mem_of_released hR).2 n, rfl, rfl, rfl⟩
  rw [view_markBad, hout, hstay]
  simp [hashesOf, view]

/-- Where no block is bad or has a bad parent a round finds nothing. -/
theorem badRound_of_unspoiled (hq : q.Unspoiled B) : q.badRound w = (false, q) := by
  have hverified : (q.badVerified w).1 = [] := by
    have hnone : ∀ e ∈ q.m_verified.m_queue, q.verifiedBad w e = false := by
      intro e he
      have hx : e.item w.crypto ∈ (q.view w.crypto).line :=
        List.mem_append_left _ (List.mem_map_of_mem he)
      simp only [verifiedBad, isBad, decide_eq_false_iff_not, not_or]
      exact ⟨hq.line _ hx, hq.name_notMem hx⟩
    exact List.map_eq_nil_iff.2 ((RemoveIf.removeIf_snd_eq_nil _).2 hnone)
  have hunverified : q.badUnverified.1 = [] := by
    have hnone : ∀ u ∈ q.m_unverified.m_queue, q.unverifiedBad u = false := by
      intro u hu
      have hx : u.item ∈ (q.view w.crypto).line :=
        List.mem_append_right _ (List.mem_append_right _ (List.mem_map_of_mem hu))
      simp only [unverifiedBad, isBad, decide_eq_false_iff_not, not_or]
      exact ⟨hq.line _ hx, hq.name_notMem hx⟩
    exact List.map_eq_nil_iff.2 ((RemoveIf.removeIf_snd_eq_nil _).2 hnone)
  have hverifying : (q.badVerifying w).1 = [] := by
    have hnone : ∀ e ∈ q.m_verifying.m_queue, q.verifyingBad e = false := by
      intro e he
      have hx : e.verifyingItem w.crypto ∈ (q.view w.crypto).line :=
        List.mem_append_right _ (List.mem_append_left _ (List.mem_map_of_mem he))
      simp only [verifyingBad, isBad, decide_eq_false_iff_not, not_or]
      refine ⟨hq.line _ hx, fun hb => ?_⟩
      rcases hq.shaped.verifying e he with hf | ⟨d, x, -, rfl⟩
      · -- the hash of uncles is no block's hash
        obtain ⟨d, x, hxf, heq⟩ := hq.named _ hb
        exact hf.sha3Uncles_ne hxf heq.symm
      · exact hq.name_notMem hx hb
    exact List.map_eq_nil_iff.2 ((RemoveIf.removeIf_snd_eq_nil _).2 hnone)
  obtain ⟨e1, -⟩ := badVerified_nil hverified
  obtain ⟨e2, -⟩ := badUnverified_nil hunverified
  obtain ⟨e3, -⟩ := badVerifying_nil hverifying
  unfold badRound
  simp only [hverified, e1, hunverified, e2, hverifying, e3]
  simp

theorem same_updateBad (hq : q.Unspoiled B) {bad : H256} (hb : bad ∈ q.m_knownBad) :
    Same B q (q.updateBad w bad) := by
  have hsame := same_collectUnknownBad hq hb
  have hround := badRound_of_unspoiled (hq.same hsame)
  have hgo : q.updateBad w bad = q.collectUnknownBad bad := by
    unfold updateBad updateBad.go
    simp [hround]
  rw [hgo]
  exact hsame

theorem same_updates (hq : q.Unspoiled B) {bad : List H256} (hb : ∀ b ∈ bad, b ∈ q.m_knownBad) :
    Same B q (bad.foldl (updateBad w) q) := by
  induction bad generalizing q with
  | nil => exact .refl hq.shaped
  | cons b bad ih =>
    obtain ⟨hb, hbad⟩ := List.forall_mem_cons.1 hb
    have hsame := same_updateBad hq hb
    refine hsame.trans (ih (hq.same hsame) fun x hx => ?_)
    rw [hsame.bad]
    exact hbad x hx

/-- A verified block takes the place of its entry. -/
theorem same_publish (hq : q.Unspoiled B) {rest : SizedBlockQueue QueuedBlock} {e b : QueuedBlock}
    (hrest : q.m_verifying.m_queue = e :: rest.m_queue) (hb : b.Finished B)
    (heb : b.item w.crypto = e.verifyingItem w.crypto) :
    Same B q (publish w { q with m_verifying := rest } b) := by
  have hx : b.item w.crypto ∈ (q.view w.crypto).line := by
    rw [heb]
    apply List.mem_append_right
    apply List.mem_append_left
    rw [hrest]
    exact List.mem_cons_self
  have hgood : ¬b.info.parentHash ∈ q.m_knownBad := hq.line _ hx
  unfold publish
  simp only
  rw [if_neg hgood]
  refine ⟨?_, ?_, rfl, rfl, rfl⟩
  · simp [view, SizedBlockQueue.enqueue, hrest, heb]
  · exact { hq.shaped with
      verified := by
        intro x hx
        rcases List.mem_append.1 hx with hx | hx
        · exact hq.shaped.verified x hx
        · rw [List.mem_singleton.1 hx]
          exact hb
      verifying := fun x hx => hq.shaped.verifying x (by rw [hrest]; exact List.mem_cons_of_mem _ hx) }

theorem same_drainVerified_go (fuel : ℕ) (hq : q.Unspoiled B) :
    Same B q (drainVerified.go w fuel q) := by
  induction fuel generalizing q with
  | zero => exact .refl hq.shaped
  | succ fuel ih =>
    unfold drainVerified.go
    split
    · exact .refl hq.shaped
    · rename_i b rest hdeq
      have hrest := dequeue_eq_some hdeq
      split
      · exact .refl hq.shaped
      · rename_i hdata
        have hb : b.Finished B :=
          hq.shaped.finished (by rw [hrest]; exact List.mem_cons_self) hdata
        have hsame := same_publish hq hrest hb hb.verifyingItem_eq.symm
        exact hsame.trans (ih (hq.same hsame))

theorem same_finishVerifying (hq : q.Unspoiled B) {bc : BlockChain} {work : UnverifiedBlock} {now : ℤ}
    {vb : VerifiedBlock} (hw : B.Files work.blockData work.item)
    (h : verifyBytes w bc work.blockData .OutOfOrderChecks now = .ok vb) :
    Same B q (q.finishVerifying w bc work now) := by
  have hb : (⟨vb, work.blockData⟩ : QueuedBlock).Finished B := by
    obtain ⟨info, ⟨hd, -⟩, -⟩ := hw
    exact verifyBytes_holds hd h
  have hitem : (⟨vb, work.blockData⟩ : QueuedBlock).item w.crypto = work.item := hb.files.unique hw
  unfold finishVerifying
  rw [h]
  simp only
  split
  · rename_i e rest hdeq
    have hrest := dequeue_eq_some hdeq
    split
    · rename_i hnext
      have hpend := hq.shaped.verifying_eq hw (by rw [hrest]; exact List.mem_cons_self) hnext
      have hsame : Same B q (publish w { q with m_verifying := rest } ⟨vb, work.blockData⟩) := by
        apply same_publish hq hrest hb
        rw [hitem, hpend]
        rfl
      exact hsame.trans (same_drainVerified_go _ (hq.same hsame))
    · obtain ⟨hview, hshaped, -⟩ := replace_cases hq.shaped hw hb hitem
      exact ⟨hview, hshaped, rfl, rfl, rfl⟩
  · exact .refl hq.shaped

/-! ## What the drained blocks add up to -/

theorem toNat_sum_difficulty (l : List QueuedBlock) (d : U256) :
    (l.foldl (fun d b => d + b.info.difficulty) d).toNat =
      (d.toNat + (l.map fun b => b.info.difficulty.toNat).sum) % 2 ^ 256 := by
  induction l generalizing d with
  | nil =>
    rw [List.foldl_nil, List.map_nil, List.sum_nil, Nat.add_zero, Nat.mod_eq_of_lt d.isLt]
  | cons b l ih =>
    rw [List.foldl_cons, ih, BitVec.toNat_add, List.map_cons, List.sum_cons, Nat.mod_add_mod,
      Nat.add_assoc]

theorem Shaped.drained (hq : q.Shaped B) {max : ℕ} {e : QueuedBlock} (he : e ∈ (q.drain w max).1) :
    e.Finished B := by
  unfold BlockQueue.drain at he
  split at he
  · exact hq.verified e (List.mem_of_mem_take he)
  · cases he

theorem drainingDifficulty_drain (hempty : q.m_drainingSet = ∅) (max : ℕ) :
    (q.drain w max).2.m_drainingDifficulty =
      (q.drain w max).1.foldl (fun d b => d + b.info.difficulty) 0 := by
  unfold BlockQueue.drain
  rw [if_pos hempty]

/-- What is drained adds up to the difficulties of the blocks, if these do not overflow. -/
theorem toNat_drainingDifficulty (hq : q.Shaped B) (hempty : q.m_drainingSet = ∅) {max : ℕ}
    (hlt : ((q.drain w max).1.map fun e => B.difficulty (e.item w.crypto).name).sum < 2 ^ 256) :
    (q.drain w max).2.m_drainingDifficulty.toNat =
      ((q.drain w max).1.map fun e => B.difficulty (e.item w.crypto).name).sum := by
  have heq : ((q.drain w max).1.map fun e => e.info.difficulty.toNat) =
      (q.drain w max).1.map fun e => B.difficulty (e.item w.crypto).name := by
    apply List.map_congr_left
    intro e he
    have hf := hq.drained he
    rw [hf.item_eq]
    exact hf.difficulty_eq.symm
  rw [drainingDifficulty_drain hempty, toNat_sum_difficulty, heq]
  change (0 + _) % 2 ^ 256 = _
  rw [Nat.zero_add, Nat.mod_eq_of_lt hlt]

end BlockQueue

/-! ## Steps and runs -/

/-- No block leaves the queue but by being drained: none that is held has a parent that turns out bad,
no verifier fails, and no block that was put off is due. The difficulties add up in 256 bits. -/
def QueueOp.Counted (w : World) (s : QueueState) : QueueOp → Prop
  | .importBlock bc block isOurs now =>
      (∀ b, BlockRLP.ofBytes w.crypto block = .ok b →
        s.queue.m_difficulty.toNat + b.info.difficulty.toNat < 2 ^ 256) ∧
      ∀ info, BlockQueue.Arrives w bc s.queue block isOurs now info →
        info.parentHash ∈ s.queue.m_knownBad →
          ∀ x ∈ s.queue.items w.crypto, x.after ≠ info.m_hash
  | .tick now => ∀ e ∈ s.queue.m_future.m_map, now < e.1
  | .finishVerifying bc i now => ∀ work, s.works[i]? = some work →
      ∃ vb, BlockQueue.verifyBytes w bc work.blockData .OutOfOrderChecks now = .ok vb
  | .doneDrain bad => bad.toFinset ⊆ s.queue.m_drainingSet ∧
      ∀ x ∈ s.queue.items w.crypto, x.after ∉ bad
  | _ => True

namespace QueueState

structure Accounted (B : QueueBlocks w) (s : QueueState) : Prop where
  unspoiled : s.queue.Unspoiled B
  draining_named : ∀ h ∈ s.queue.m_drainingSet, B.Named h
  works_files : ∀ u ∈ s.works, B.Files u.blockData u.item
  difficulty : s.queue.m_difficulty.toNat = s.queue.heldDifficulty B
  draining : s.queue.m_drainingDifficulty.toNat =
    (s.queue.view w.crypto).drainingWeight B.difficulty

variable {s : QueueState}

theorem Accounted.same (hs : s.Accounted B) {q : BlockQueue} (h : BlockQueue.Same B s.queue q) :
    Accounted B { s with queue := q } := by
  have hdraining : q.m_drainingSet = s.queue.m_drainingSet := congrArg Intake.State.draining h.view_eq
  constructor
  · exact hs.unspoiled.same h
  · rw [hdraining]
    exact hs.draining_named
  · exact hs.works_files
  · rw [BlockQueue.heldDifficulty, h.view_eq, h.future, h.difficulty]
    exact hs.difficulty
  · rw [h.view_eq, h.drainingDifficulty]
    exact hs.draining

theorem accounted_empty (B : QueueBlocks w) : Accounted B .empty := by
  constructor
  · constructor
    · exact Intake.State.member_empty ∅
    · exact BlockQueue.shaped_empty B
    · intro x hx
      cases hx
    · intro x hx
      cases hx
    · intro h hh
      cases hh
  · intro h hh
    cases hh
  · intro u hu
    cases hu
  · rfl
  · rfl

/-! ## Blocks that arrive -/

theorem Accounted.condemn (hs : s.Accounted B) {info : BlockHeader} {block : Bytes}
    (hinfo : B.Holds block info) (hnew : (s.queue.view w.crypto).New info.m_hash)
    (h : ∀ x ∈ s.queue.items w.crypto, x.after ≠ info.m_hash) :
    Accounted B { s with queue := (s.queue.condemn info.m_hash).updateBad w info.m_hash } := by
  have hview := BlockQueue.view_condemn w.crypto s.queue info.m_hash
  have hafter : ∀ x ∈ s.queue.items w.crypto, x.after ∉ s.queue.m_knownBad →
      x.after ∉ (s.queue.condemn info.m_hash).m_knownBad := by
    intro x hx hgood hb
    rcases Finset.mem_insert.1 hb with hb | hb
    · exact h x hx hb
    · exact hgood hb
  have hcondemned : Accounted B { s with queue := s.queue.condemn info.m_hash } := by
    refine ⟨⟨?_, ?_, ?_, ?_, ?_⟩, hs.draining_named, hs.works_files, hs.difficulty, hs.draining⟩
    · rw [hview]
      apply hs.unspoiled.member.condemn
      intro k hk
      rw [Finset.mem_singleton.1 hk]
      exact hnew
    · exact { hs.unspoiled.shaped with }
    · intro x hx
      exact hafter x (List.mem_append_left _ hx) (hs.unspoiled.line x hx)
    · intro x hx
      exact hafter x (List.mem_append_right _ (Multiset.mem_coe.1 hx)) (hs.unspoiled.waiting x hx)
    · intro k hk
      rcases Finset.mem_insert.1 hk with rfl | hk
      · exact ⟨block, _, BlockQueue.files_of_holds hinfo, rfl⟩
      · exact hs.unspoiled.named k hk
  exact hcondemned.same
    (BlockQueue.same_updateBad hcondemned.unspoiled (Finset.mem_insert_self _ _))

theorem Accounted.await (hs : s.Accounted B) {info : BlockHeader} {block : Bytes}
    (hinfo : B.Holds block info) (hnew : (s.queue.view w.crypto).New info.m_hash)
    (hbad : info.parentHash ∉ s.queue.m_knownBad)
    (hlt : s.queue.m_difficulty.toNat + info.difficulty.toNat < 2 ^ 256) :
    Accounted B { s with queue := s.queue.await info block } := by
  have hview := BlockQueue.view_await w.crypto s.queue info block
  refine ⟨⟨?_, hs.unspoiled.shaped.await hinfo, hs.unspoiled.line, ?_, hs.unspoiled.named⟩,
    hs.draining_named, hs.works_files, ?_, hs.draining⟩
  · rw [hview]
    exact hs.unspoiled.member.wait hnew
  · rw [hview]
    intro x hx
    change x ∈ (⟨info.m_hash, info.parentHash⟩ : Item H256) ::ₘ (s.queue.view w.crypto).waiting at hx
    rcases Multiset.mem_cons.1 hx with rfl | hx
    · exact hbad
    · exact hs.unspoiled.waiting x hx
  · have hsum := hs.difficulty
    unfold BlockQueue.heldDifficulty at hsum ⊢
    rw [hview, Intake.State.weight_wait, hinfo.difficulty_eq]
    change (s.queue.m_difficulty + info.difficulty).toNat =
      _ + (s.queue.m_future.m_map.map fun e => B.difficulty e.2.1).sum
    rw [BitVec.toNat_add, Nat.mod_eq_of_lt hlt, hsum]
    omega

theorem Accounted.takeIn (hs : s.Accounted B) {info : BlockHeader} {block : Bytes}
    (hinfo : B.Holds block info) (hnew : (s.queue.view w.crypto).New info.m_hash)
    (hbad : info.parentHash ∉ s.queue.m_knownBad)
    (hlt : s.queue.m_difficulty.toNat + info.difficulty.toNat < 2 ^ 256) :
    Accounted B { s with queue := s.queue.takeIn info block } := by
  have hview := BlockQueue.view_takeIn w.crypto s.queue info block
  refine ⟨⟨?_, hs.unspoiled.shaped.takeIn hinfo, ?_, hs.unspoiled.waiting, hs.unspoiled.named⟩,
    hs.draining_named, hs.works_files, ?_, hs.draining⟩
  · rw [hview]
    exact hs.unspoiled.member.arrive hnew
  · rw [hview]
    intro x hx
    rcases List.mem_append.1 hx with hx | hx
    · exact hs.unspoiled.line x hx
    · rw [List.mem_singleton.1 hx]
      exact hbad
  · have hsum := hs.difficulty
    unfold BlockQueue.heldDifficulty at hsum ⊢
    rw [hview, Intake.State.weight_arrive, hinfo.difficulty_eq]
    change (s.queue.m_difficulty + info.difficulty).toNat =
      _ + (s.queue.m_future.m_map.map fun e => B.difficulty e.2.1).sum
    rw [BitVec.toNat_add, Nat.mod_eq_of_lt hlt, hsum]
    omega

theorem Accounted.putOff (hs : s.Accounted B) {info : BlockHeader} {block : Bytes}
    (hinfo : B.Holds block info)
    (hlt : s.queue.m_difficulty.toNat + info.difficulty.toNat < 2 ^ 256) :
    Accounted B { s with queue :=
      { s.queue with
        m_future := s.queue.m_future.insert info.timestamp info.m_hash block
        m_difficulty := s.queue.m_difficulty + info.difficulty } } := by
  refine ⟨⟨hs.unspoiled.member, hs.unspoiled.shaped.insertFuture hinfo _, hs.unspoiled.line,
    hs.unspoiled.waiting, hs.unspoiled.named⟩, hs.draining_named, hs.works_files, ?_, hs.draining⟩
  have hsum := hs.difficulty
  have hperm := (s.queue.m_future.insert_perm info.timestamp info.m_hash block).map
    fun e => B.difficulty e.2.1
  have hfuture := hperm.sum_eq
  rw [List.map_cons, List.sum_cons, hinfo.difficulty_eq] at hfuture
  unfold BlockQueue.heldDifficulty at hsum ⊢
  change (s.queue.m_difficulty + info.difficulty).toNat = (s.queue.view w.crypto).weight B.difficulty +
    ((s.queue.m_future.insert info.timestamp info.m_hash block).m_map.map
      fun e => B.difficulty e.2.1).sum
  rw [BitVec.toNat_add, Nat.mod_eq_of_lt hlt, hsum, hfuture]
  omega

/-- Blocks that waited are ready. -/
theorem Accounted.release (hs : s.Accounted B) {q : BlockQueue} {out : List (Item H256)}
    {stay : Multiset (Item H256)}
    (h : (s.queue.view w.crypto).waiting = (↑out : Multiset (Item H256)) + stay)
    (hview : q.view w.crypto = (s.queue.view w.crypto).release out stay) (hshaped : q.Shaped B)
    (hfuture : q.m_future = s.queue.m_future) (hd : q.m_difficulty = s.queue.m_difficulty)
    (hdd : q.m_drainingDifficulty = s.queue.m_drainingDifficulty) :
    Accounted B { s with queue := q } := by
  have hbad : q.m_knownBad = s.queue.m_knownBad := congrArg Intake.State.bad hview
  have hdraining : q.m_drainingSet = s.queue.m_drainingSet := congrArg Intake.State.draining hview
  have hwaiting : ∀ x, x ∈ out ∨ x ∈ stay → x.after ∉ s.queue.m_knownBad := by
    intro x hx
    apply hs.unspoiled.waiting
    rw [h, Multiset.mem_add, Multiset.mem_coe]
    exact hx
  constructor
  · constructor
    · rw [hview]
      exact hs.unspoiled.member.release h
    · exact hshaped
    · rw [hview, hbad]
      intro x hx
      rcases List.mem_append.1 hx with hx | hx
      · exact hs.unspoiled.line x hx
      · exact hwaiting x (.inl hx)
    · rw [hview, hbad]
      intro x hx
      exact hwaiting x (.inr hx)
    · rw [hbad]
      exact hs.unspoiled.named
  · rw [hdraining]
    exact hs.draining_named
  · exact hs.works_files
  · rw [BlockQueue.heldDifficulty, hview, Intake.State.weight_release _ h, hfuture, hd]
    exact hs.difficulty
  · rw [hdd, hview]
    exact hs.draining

theorem Accounted.noteReady (hs : s.Accounted B) (good : H256) :
    Accounted B { s with queue := s.queue.noteReady good } := by
  obtain ⟨out, stay, hR, hview⟩ := BlockQueue.view_noteReady w.crypto s.queue good
  obtain ⟨_, _, _, _, -, heq⟩ := BlockQueue.noteReady_eq s.queue good
  apply hs.release hR.eq hview (hs.unspoiled.shaped.noteReady good)
  · rw [heq]
    rfl
  · rw [heq]
    rfl
  · rw [heq]
    rfl

theorem Accounted.retryAllUnknown (hs : s.Accounted B) :
    Accounted B { s with queue := s.queue.retryAllUnknown } := by
  obtain ⟨out, hout, hview⟩ := BlockQueue.view_retryAllUnknown w.crypto s.queue
  obtain ⟨_, _, _, -, heq⟩ := BlockQueue.retryAllUnknown_eq s.queue
  apply hs.release hout hview hs.unspoiled.shaped.retryAllUnknown
  · rw [heq]
    rfl
  · rw [heq]
    rfl
  · rw [heq]
    rfl

theorem Accounted.importBlock (hs : s.Accounted B) {bc : BlockChain} {block : Bytes}
    (hd : block ∈ B.carrier) {isOurs : Bool} {now : ℤ}
    (h : QueueOp.Counted w s (.importBlock bc block isOurs now)) :
    Accounted B (step w s (.importBlock bc block isOurs now)) := by
  obtain ⟨hsum, hchild⟩ := h
  have hlt : ∀ {info : BlockHeader}, B.Holds block info →
      s.queue.m_difficulty.toNat + info.difficulty.toNat < 2 ^ 256 := by
    rintro info ⟨-, b, hb, rfl⟩
    exact hsum b hb
  change Accounted B { s with queue := (s.queue.importBlock w bc block isOurs now).2 }
  rcases BlockQueue.importBlock_cases hd isOurs now with heq | ⟨info, hinfo, heq⟩ |
    ⟨info, hinfo, harr, heq⟩
  · rw [heq]
    exact hs
  · rw [heq]
    exact hs.putOff hinfo (hlt hinfo)
  · rw [heq]
    rcases BlockQueue.file_cases hinfo.hash_eq with ⟨hbad, hfile⟩ | ⟨hbad, -, -, hfile⟩ |
      ⟨hbad, -, hfile⟩
    · rw [hfile]
      exact hs.condemn hinfo harr.new (hchild info harr hbad)
    · rw [hfile]
      exact hs.await hinfo harr.new hbad (hlt hinfo)
    · rw [hfile]
      exact (hs.takeIn hinfo harr.new hbad (hlt hinfo)).noteReady info.m_hash

/-- Nothing is due. -/
theorem Accounted.tick (hs : s.Accounted B) {now : ℤ} (h : QueueOp.Counted w s (.tick now)) :
    Accounted B (step w s (.tick now)) := by
  have hmap : (s.queue.m_future.removeByKeyNotGreater now).2.m_map = s.queue.m_future.m_map := by
    change s.queue.m_future.m_map.filter _ = _
    rw [List.filter_eq_self]
    intro e he
    have hlt := h e he
    simpa using hlt
  refine ⟨{ hs.unspoiled with shaped := hs.unspoiled.shaped.tick now }, hs.draining_named,
    hs.works_files, ?_, hs.draining⟩
  change s.queue.m_difficulty.toNat = (s.queue.view w.crypto).weight B.difficulty +
    ((s.queue.m_future.removeByKeyNotGreater now).2.m_map.map fun e => B.difficulty e.2.1).sum
  rw [hmap]
  exact hs.difficulty

/-! ## Verifiers -/

theorem Accounted.startVerifying (hs : s.Accounted B) : Accounted B (step w s .startVerifying) := by
  unfold step
  simp only
  split
  · exact hs
  · rename_i work q hq
    obtain ⟨hmem, hview, -, hshaped, hfuture, hd, hdd⟩ :=
      BlockQueue.startVerifying_cases (w := w) (B := B) hq
    have hsame : BlockQueue.Same B s.queue q :=
      ⟨hview, hshaped hs.unspoiled.shaped, hfuture, hd, hdd⟩
    refine { hs.same hsame with works_files := ?_ }
    intro u hu
    rcases List.mem_append.1 hu with hu | hu
    · exact hs.works_files u hu
    · rw [List.mem_singleton.1 hu]
      exact hs.unspoiled.shaped.unverified work hmem

theorem Accounted.finishVerifying (hs : s.Accounted B) {bc : BlockChain} {i : ℕ} {now : ℤ}
    (h : QueueOp.Counted w s (.finishVerifying bc i now)) :
    Accounted B (step w s (.finishVerifying bc i now)) := by
  unfold step
  simp only
  split
  · exact hs
  · rename_i work hi
    obtain ⟨vb, hvb⟩ := h work hi
    have hsame := BlockQueue.same_finishVerifying hs.unspoiled
      (hs.works_files work (List.mem_of_getElem? hi)) hvb
    exact { hs.same hsame with
      works_files := fun u hu => hs.works_files u (List.mem_of_mem_eraseIdx hu) }

/-! ## Draining -/

theorem Accounted.drain (hs : s.Accounted B) (max : ℕ) : Accounted B (step w s (.drain max)) := by
  change Accounted B { s with queue := (s.queue.drain w max).2 }
  have hm := hs.unspoiled.member
  have hshaped : (s.queue.drain w max).2.Shaped B := hs.unspoiled.shaped.drain max
  rcases BlockQueue.view_drain w s.queue max with ⟨-, heq⟩ | ⟨hempty, n, hbatch, hview⟩
  · rw [heq]
    exact hs
  · have hbad : (s.queue.drain w max).2.m_knownBad = s.queue.m_knownBad :=
      congrArg Intake.State.bad hview
    have hkept : (s.queue.drain w max).2.m_future = s.queue.m_future ∧
        (s.queue.drain w max).2.m_difficulty = s.queue.m_difficulty := by
      unfold BlockQueue.drain
      split
      · exact ⟨rfl, rfl⟩
      · exact ⟨rfl, rfl⟩
    have hheld : (s.queue.drain w max).2.heldDifficulty B = s.queue.heldDifficulty B := by
      rw [BlockQueue.heldDifficulty, hview, hm.weight_handOut _ hempty, hkept.1]
      rfl
    constructor
    · constructor
      · rw [hview]
        exact hm.handOut n
      · exact hshaped
      · rw [hview, hbad]
        intro x hx
        exact hs.unspoiled.line x (List.mem_of_mem_drop hx)
      · rw [hview, hbad]
        exact hs.unspoiled.waiting
      · rw [hbad]
        exact hs.unspoiled.named
    · intro h hh
      have hdraining : (s.queue.drain w max).2.m_drainingSet =
          Intake.names ((s.queue.view w.crypto).line.take n) := congrArg Intake.State.draining hview
      rw [hdraining, ← hbatch] at hh
      obtain ⟨x, hx, rfl⟩ := Intake.mem_names.1 hh
      obtain ⟨e, he, rfl⟩ := List.mem_map.1 hx
      exact ⟨_, _, (hs.unspoiled.shaped.drained he).files, rfl⟩
    · exact hs.works_files
    · rw [hkept.2, hheld]
      exact hs.difficulty
    · have hweight : ((s.queue.drain w max).2.view w.crypto).drainingWeight B.difficulty =
          ((s.queue.drain w max).1.map fun e => B.difficulty (e.item w.crypto).name).sum := by
        rw [hview, hm.drainingWeight_handOut, ← hbatch, List.map_map]
        rfl
      rw [hweight]
      apply BlockQueue.toNat_drainingDifficulty hs.unspoiled.shaped hempty
      -- they are among the blocks held, whose difficulty is counted
      have hle := Intake.State.drainingWeight_le B.difficulty ((s.queue.drain w max).2.view w.crypto)
      have hcount := hs.difficulty
      have hbound := s.queue.m_difficulty.isLt
      rw [hweight] at hle
      rw [← hheld] at hcount
      unfold BlockQueue.heldDifficulty at hcount
      omega

theorem Accounted.doneDrain (hs : s.Accounted B) {bad : List H256}
    (h : QueueOp.Counted w s (.doneDrain bad)) : Accounted B (step w s (.doneDrain bad)) := by
  obtain ⟨hsub, hchild⟩ := h
  have hview := BlockQueue.view_settle w.crypto s.queue bad
  have hafter : ∀ x ∈ s.queue.items w.crypto, x.after ∉ s.queue.m_knownBad →
      x.after ∉ (s.queue.settle bad).m_knownBad := by
    intro x hx hgood hb
    rcases Finset.mem_union.1 hb with hb | hb
    · exact hgood hb
    · exact hchild x hx (List.mem_toFinset.1 hb)
  have hsettled : Accounted B { s with queue := s.queue.settle bad } := by
    refine ⟨⟨?_, ?_, ?_, ?_, ?_⟩, ?_, hs.works_files, ?_, rfl⟩
    · rw [hview]
      exact hs.unspoiled.member.done hsub
    · exact { hs.unspoiled.shaped with }
    · intro x hx
      exact hafter x (List.mem_append_left _ hx) (hs.unspoiled.line x hx)
    · intro x hx
      exact hafter x (List.mem_append_right _ (Multiset.mem_coe.1 hx)) (hs.unspoiled.waiting x hx)
    · intro k hk
      rcases Finset.mem_union.1 hk with hk | hk
      · exact hs.unspoiled.named k hk
      · exact hs.draining_named k (hsub hk)
    · intro k hk
      cases hk
    · have hdone := Intake.State.weight_done B.difficulty (s.queue.view w.crypto) bad.toFinset
      have hcount := hs.difficulty
      unfold BlockQueue.heldDifficulty at hcount ⊢
      rw [hview]
      change (s.queue.m_difficulty - s.queue.m_drainingDifficulty).toNat =
        _ + (s.queue.m_future.m_map.map fun e => B.difficulty e.2.1).sum
      rw [BitVec.toNat_sub_of_le]
      · rw [hs.draining]
        omega
      · rw [BitVec.le_def, hs.draining]
        omega
  have hsame : BlockQueue.Same B (s.queue.settle bad) (bad.foldl (BlockQueue.updateBad w) _) :=
    BlockQueue.same_updates hsettled.unspoiled
      fun b hb => Finset.mem_union_right _ (List.mem_toFinset.2 hb)
  exact { hsettled.same hsame with }

theorem Accounted.clear (hs : s.Accounted B) : Accounted B (step w s .clear) := by
  have hempty := accounted_empty B
  refine ⟨⟨Intake.State.member_empty s.queue.m_knownBad, { hempty.unspoiled.shaped with }, ?_, ?_,
    hs.unspoiled.named⟩, hempty.draining_named, hs.works_files, rfl, rfl⟩
  · intro x hx
    cases hx
  · intro x hx
    cases hx

/-- Every step that is counted. -/
theorem Accounted.step (hs : s.Accounted B) {op : QueueOp} (hB : op.Within B) (h : op.Counted w s) :
    Accounted B (step w s op) := by
  cases op with
  | importBlock bc block isOurs now => exact hs.importBlock hB h
  | tick now => exact hs.tick h
  | noteReady good => exact hs.noteReady good
  | startVerifying => exact hs.startVerifying
  | finishVerifying bc i now => exact hs.finishVerifying h
  | drain max => exact hs.drain max
  | doneDrain bad => exact hs.doneDrain h
  | retryAllUnknown => exact hs.retryAllUnknown
  | clear => exact hs.clear

end QueueState

namespace BlockQueue

end BlockQueue

end Petrachor
