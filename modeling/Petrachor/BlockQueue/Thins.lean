import Petrachor.BlockQueue.Step

/-!
# What leaves the queue

The operations that note blocks as bad and those by which verifiers publish their results take blocks
out of the queue or leave them where they are; none is put anywhere else.
-/

namespace Petrachor

open Intake (Item)

variable {w : World} {B : QueueBlocks w} {q q' q'' : BlockQueue}

/-- An entry is of the block that its bytes are of. -/
def QueuedBlock.OfBytes (c : Crypto) (e : QueuedBlock) : Prop :=
  BlockRLP.ofBytes c e.blockData = .ok e.verified.block ∧ e.verified.OfBlock

namespace BlockQueue

/-- The finished entries are of their blocks. -/
def Matched (c : Crypto) (q : BlockQueue) : Prop :=
  ∀ e, e ∈ q.m_verified.m_queue ∨ e ∈ q.m_verifying.m_queue → e.blockData ≠ [] → e.OfBytes c

theorem Matched.anti {c : Crypto} (hq : q.Matched c)
    (h : q'.m_verified.m_queue ⊆ q.m_verified.m_queue)
    (h' : q'.m_verifying.m_queue ⊆ q.m_verifying.m_queue) : q'.Matched c := by
  intro e he
  rcases he with he | he
  · exact hq e (.inl (h he))
  · exact hq e (.inr (h' he))

/-- Blocks may have left the queue, for being bad, and the others keep their places; those before
their time are left alone. -/
structure Thins (B : QueueBlocks w) (q q' : BlockQueue) : Prop where
  thinner : (q.view w.crypto).Thinner (q'.view w.crypto)
  known : ∀ h, h ∈ q.m_readySet ∨ h ∈ q.m_knownBad → h ∈ q'.m_readySet ∨ h ∈ q'.m_knownBad
  shaped : q.Shaped B → q'.Shaped B
  matched : q.Matched w.crypto → q'.Matched w.crypto
  future : q'.m_future = q.m_future

theorem Thins.refl (q : BlockQueue) : Thins B q q :=
  ⟨.refl _, fun _ h => h, fun h => h, fun h => h, rfl⟩

theorem Thins.trans (h : Thins B q q') (h' : Thins B q' q'') : Thins B q q'' where
  thinner := h.thinner.trans h'.thinner
  known k hk := h'.known k (h.known k hk)
  shaped hq := h'.shaped (h.shaped hq)
  matched hq := h'.matched (h.matched hq)
  future := h'.future.trans h.future

/-! ## Bad blocks -/

theorem thins_markBad (hashes : Finset H256) {keys : List H256}
    {out stay : List (H256 × H256 × Bytes)} (hR : ReleasedUnknown keys ↑q.m_unknown.m_map out ↑stay)
    (n : BitVec 64) : Thins B q (q.markBad hashes out stay n) := by
  refine ⟨⟨.refl _, out.map unknownItem, (released_items hR).eq, ?_⟩, fun k hk => ?_, fun hq => ?_,
    fun hq => hq, rfl⟩
  · rw [names_unknownItem]
    rfl
  · change k ∈ q.m_readySet \ hashes ∨ k ∈ q.m_knownBad ∪ hashes ∪ hashesOf out
    by_cases hh : k ∈ hashes
    · exact .inr (Finset.mem_union_left _ (Finset.mem_union_right _ hh))
    · rcases hk with hk | hk
      · exact .inl (Finset.mem_sdiff.2 ⟨hk, hh⟩)
      · exact .inr (Finset.mem_union_left _ (Finset.mem_union_left _ hk))
  · exact shaped_markBad hq (mem_of_released hR).2 n

theorem thins_collectUnknownBad (q : BlockQueue) (bad : H256) :
    Thins B q (q.collectUnknownBad bad) := by
  obtain ⟨out, stay, n, hR, heq⟩ := collectUnknownBad_eq q bad
  rw [heq]
  exact thins_markBad _ hR n

theorem thins_noteBads (hashes : List H256) (q : BlockQueue) :
    Thins B q (hashes.foldl noteBad q) := by
  obtain ⟨out, stay, n, hR, heq⟩ := noteBads_eq hashes q
  rw [heq]
  exact thins_markBad _ hR n

/-- What `removeIf` leaves is in the order it was in, whatever it returns. -/
theorem thins_badVerified (q : BlockQueue) : Thins B q (q.badVerified w).2 := by
  have hkept := removeIf_snd_m_queue q.m_verified (q.verifiedBad w)
  have hremove : Thins B q { q with m_verified := (q.m_verified.removeIf (q.verifiedBad w)).2 } := by
    refine ⟨.of_line ?_ rfl rfl, fun _ h => h, fun hq => ?_, fun hq => hq.anti ?_ fun _ h => h,
      rfl⟩
    · simp only [view, hkept]
      exact (List.filter_sublist.map _).append_right _
    · exact { hq with
        verified := fun e he => hq.verified e (List.mem_of_mem_filter (by rwa [hkept] at he)) }
    · rw [hkept]
      exact List.filter_sublist.subset
  exact hremove.trans (thins_noteBads _ _)

theorem thins_badUnverified (q : BlockQueue) : Thins B q q.badUnverified.2 := by
  have hkept := removeIf_snd_m_queue q.m_unverified q.unverifiedBad
  have hremove : Thins B q { q with m_unverified := (q.m_unverified.removeIf q.unverifiedBad).2 } := by
    refine ⟨.of_line ?_ rfl rfl, fun _ h => h, fun hq => ?_, fun hq => hq, rfl⟩
    · simp only [view, hkept]
      exact ((List.filter_sublist.map _).append_left _).append_left _
    · exact { hq with
        unverified := fun u hu => hq.unverified u (List.mem_of_mem_filter (by rwa [hkept] at hu)) }
  exact hremove.trans (thins_noteBads _ _)

theorem thins_verifying {rest : SizedBlockQueue QueuedBlock}
    (h : rest.m_queue.Sublist q.m_verifying.m_queue) : Thins B q { q with m_verifying := rest } := by
  refine ⟨.of_line ?_ rfl rfl, fun _ h => h, fun hq => ?_,
    fun hq => hq.anti (fun _ h => h) h.subset, rfl⟩
  · exact ((h.map _).append_right _).append_left _
  · exact { hq with verifying := fun e he => hq.verifying e (h.subset he) }

theorem thins_badVerifying (q : BlockQueue) : Thins B q (q.badVerifying w).2 := by
  have hremove : Thins B q { q with m_verifying := (q.m_verifying.removeIf q.verifyingBad).2 } := by
    apply thins_verifying
    rw [removeIf_snd_m_queue]
    exact List.filter_sublist
  exact hremove.trans (thins_noteBads _ _)

theorem thins_badRound (q : BlockQueue) : Thins B q (q.badRound w).2 :=
  ((thins_badVerified q).trans (thins_badUnverified _)).trans (thins_badVerifying _)

theorem thins_updateBad_go (fuel : ℕ) (q : BlockQueue) : Thins B q (updateBad.go w fuel q) := by
  induction fuel generalizing q with
  | zero => exact .refl q
  | succ fuel ih =>
    unfold updateBad.go
    simp only
    split
    · exact (thins_badRound q).trans (ih _)
    · exact thins_badRound q

theorem thins_updateBad (q : BlockQueue) (bad : H256) : Thins B q (q.updateBad w bad) :=
  (thins_collectUnknownBad q bad).trans (thins_updateBad_go _ _)

theorem thins_updates (bad : List H256) (q : BlockQueue) :
    Thins B q (bad.foldl (updateBad w) q) := by
  induction bad generalizing q with
  | nil => exact .refl q
  | cons b bad ih => exact (thins_updateBad q b).trans (ih _)

theorem thins_condemn (q : BlockQueue) (h : H256) : Thins B q (q.condemn h) :=
  ⟨.of_line (.refl _) rfl rfl, fun _ hk => hk.imp_right Finset.mem_insert_of_mem,
    fun hq => { hq with }, fun hq => hq, rfl⟩

theorem thins_doneDrain (q : BlockQueue) (bad : List H256) : Thins B q (q.doneDrain w bad).2 := by
  have hsettle : Thins B q (q.settle bad) :=
    ⟨.of_line (.refl _) rfl rfl, fun _ hk => hk.imp_right (Finset.mem_union_left _),
      fun hq => { hq with }, fun hq => hq, rfl⟩
  exact hsettle.trans (thins_updates bad _)

/-! ## Verifiers -/

theorem mem_erase_or_insert {ready bad : Finset H256} {k h : H256} (hk : k ∈ ready ∨ k ∈ bad) :
    k ∈ ready.erase h ∨ k ∈ Insert.insert h bad := by
  by_cases hh : k = h
  · exact .inr (Finset.mem_insert.2 (.inl hh))
  · exact hk.imp (fun hk => Finset.mem_erase.2 ⟨hh, hk⟩) Finset.mem_insert_of_mem

/-- A verified block takes the place of its entry at the front of `m_verifying`, or goes. -/
theorem thins_publish (hq : q.Shaped B) {rest : SizedBlockQueue QueuedBlock} {e b : QueuedBlock}
    (hrest : q.m_verifying.m_queue = e :: rest.m_queue) (hb : b.Finished B)
    (heb : b.item w.crypto = e.verifyingItem w.crypto)
    (hm : q.Matched w.crypto → b.OfBytes w.crypto) :
    Thins B q (publish w { q with m_verifying := rest } b) := by
  have hsub : rest.m_queue.Sublist q.m_verifying.m_queue := by
    rw [hrest]
    exact List.sublist_cons_self _ _
  have hthin : Thins B q { q with m_verifying := rest } := thins_verifying hsub
  unfold publish
  simp only
  split
  · refine ⟨.of_line hthin.thinner.line rfl rfl, fun k hk => ?_, fun hq => { hthin.shaped hq with },
      fun hq => hthin.matched hq, rfl⟩
    exact mem_erase_or_insert hk
  · refine ⟨.of_line ?_ rfl rfl, fun _ h => h, fun _ => ?_, fun hq x hx hdata => ?_, rfl⟩
    · have hline : ({ q with m_verifying := rest, m_verified := q.m_verified.enqueue b } :
          BlockQueue).view w.crypto = q.view w.crypto := by
        simp [view, SizedBlockQueue.enqueue, hrest, heb]
      rw [hline]
    · exact { hthin.shaped hq with
        verified := by
          intro x hx
          rcases List.mem_append.1 hx with hx | hx
          · exact hq.verified x hx
          · rw [List.mem_singleton.1 hx]
            exact hb }
    · rcases hx with hx | hx
      · rcases List.mem_append.1 hx with hx | hx
        · exact hq x (.inl hx) hdata
        · rw [List.mem_singleton.1 hx]
          exact hm hq
      · exact hq x (.inr (hsub.subset hx)) hdata

theorem thins_drainVerified_go (fuel : ℕ) (hq : q.Shaped B) :
    Thins B q (drainVerified.go w fuel q) := by
  induction fuel generalizing q with
  | zero => exact .refl q
  | succ fuel ih =>
    unfold drainVerified.go
    split
    · exact .refl q
    · rename_i b rest hdeq
      have hrest := dequeue_eq_some hdeq
      split
      · exact .refl q
      · rename_i hdata
        have hb : b.Finished B := hq.finished (by rw [hrest]; exact List.mem_cons_self) hdata
        have hthin := thins_publish hq hrest hb hb.verifyingItem_eq.symm fun hm =>
          hm b (.inr (by rw [hrest]; exact List.mem_cons_self)) hdata
        exact hthin.trans (ih (hthin.shaped hq))

theorem thins_fail (q : BlockQueue) (work : UnverifiedBlock) : Thins B q (q.fail work) := by
  have hthin : Thins B q { q with
      m_verifying := (q.m_verifying.removeIf (·.info.sha3Uncles = work.hash)).2 } := by
    apply thins_verifying
    rw [removeIf_snd_m_queue]
    exact List.filter_sublist
  exact ⟨.of_line hthin.thinner.line rfl rfl, fun k hk => mem_erase_or_insert hk,
    fun hq => { hthin.shaped hq with }, fun hq => hthin.matched hq, rfl⟩

/-- A verified block waits in the place of its entry for those before it. -/
theorem thins_replace (hq : q.Shaped B) {work : UnverifiedBlock}
    (hw : B.Files work.blockData work.item) {b : QueuedBlock} (hb : b.Finished B)
    (hitem : b.item w.crypto = work.item) (hm : b.OfBytes w.crypto) :
    Thins B q
      { q with m_verifying := q.m_verifying.replace (·.info.sha3Uncles = work.hash) b } := by
  obtain ⟨hview, hshaped, -⟩ := replace_cases hq hw hb hitem
  refine ⟨?_, fun _ h => h, fun _ => hshaped, fun hq x hx hdata => ?_, rfl⟩
  · rw [hview]
    exact .refl _
  · rcases hx with hx | hx
    · exact hq x (.inl hx) hdata
    · rcases SizedBlockQueue.mem_replace hx with hx | rfl
      · exact hq x (.inr hx) hdata
      · exact hm

/-- A verifier comes back, and every other entry stays where it was. -/
theorem thins_finishVerifying (hq : q.Shaped B) (bc : BlockChain) {work : UnverifiedBlock} (now : ℤ)
    (hw : B.Files work.blockData work.item) : Thins B q (q.finishVerifying w bc work now) := by
  unfold finishVerifying
  split
  · have hfail : Thins B q (q.fail work) := thins_fail q work
    exact hfail.trans (thins_drainVerified_go _ (hfail.shaped hq))
  · rename_i vb h
    have hb : (⟨vb, work.blockData⟩ : QueuedBlock).Finished B := by
      obtain ⟨info, ⟨hd, -⟩, -⟩ := hw
      exact verifyBytes_holds hd h
    have hitem : (⟨vb, work.blockData⟩ : QueuedBlock).item w.crypto = work.item := hb.files.unique hw
    have hm : (⟨vb, work.blockData⟩ : QueuedBlock).OfBytes w.crypto := verifyBytes_ofBlock h
    simp only
    split
    · rename_i e rest hdeq
      have hrest := dequeue_eq_some hdeq
      split
      · rename_i hnext
        have hpend := hq.verifying_eq hw (by rw [hrest]; exact List.mem_cons_self) hnext
        have hthin : Thins B q (publish w { q with m_verifying := rest } ⟨vb, work.blockData⟩) := by
          apply thins_publish hq hrest hb _ fun _ => hm
          rw [hitem, hpend]
          rfl
        exact hthin.trans (thins_drainVerified_go _ (hthin.shaped hq))
      · exact thins_replace hq hw hb hitem hm
    · exact .refl q

end BlockQueue

end Petrachor
