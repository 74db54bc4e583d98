import Petrachor.BlockQueue.View

/-!
# How bad blocks spread through the queue

Each pass of `updateBad` takes the blocks out of one queue that are bad or have a bad parent. If they
stand at its end they are the blocks that are noted as bad, and nothing else is; the rounds go on
until no such block is left.
-/

namespace Petrachor

open Intake (Item)
open Intake.State (Spoiled)

variable {w : World}

/-- One block is the parent of another. -/
def QueueBlocks.Child (B : QueueBlocks w) (p h : H256) : Prop := ∃ d, B.Files d ⟨h, p⟩

/-- The hash of a block. -/
def QueueBlocks.Named (B : QueueBlocks w) (h : H256) : Prop := ∃ d x, B.Files d x ∧ x.name = h

namespace BlockQueue

variable {B : QueueBlocks w} {q q' q'' : BlockQueue}

/-- Blocks may have moved within the line or left it for being bad. -/
structure Moved (B : QueueBlocks w) (q q' : BlockQueue) : Prop where
  spoiled : Spoiled (q.view w.crypto) (q'.view w.crypto)
  shaped : q'.Shaped B
  bad : q.m_knownBad ⊆ q'.m_knownBad
  draining : q'.m_drainingSet = q.m_drainingSet
  future : q'.m_future = q.m_future
  difficulty : q'.m_difficulty = q.m_difficulty
  drainingDifficulty : q'.m_drainingDifficulty = q.m_drainingDifficulty

theorem Moved.refl (hq : q.Shaped B) : Moved B q q :=
  ⟨.refl, hq, subset_rfl, rfl, rfl, rfl, rfl⟩

theorem Moved.trans (h : Moved B q q') (h' : Moved B q' q'') : Moved B q q'' where
  spoiled := h.spoiled.trans h'.spoiled
  shaped := h'.shaped
  bad := h.bad.trans h'.bad
  draining := h'.draining.trans h.draining
  future := h'.future.trans h.future
  difficulty := h'.difficulty.trans h.difficulty
  drainingDifficulty := h'.drainingDifficulty.trans h.drainingDifficulty

/-- What a pass leaves of a queue; the blocks that verifiers are at work on stay where they are. -/
structure Passed (B : QueueBlocks w) (q q' : BlockQueue) : Prop extends Moved B q q' where
  pending : ∀ h p, QueuedBlock.pending h p ∈ q.m_verifying.m_queue →
    QueuedBlock.pending h p ∈ q'.m_verifying.m_queue ∨ h ∈ q'.m_knownBad

theorem Passed.refl (hq : q.Shaped B) : Passed B q q := ⟨.refl hq, fun _ _ h => .inl h⟩

theorem Passed.trans (h : Passed B q q') (h' : Passed B q' q'') : Passed B q q'' where
  toMoved := h.toMoved.trans h'.toMoved
  pending k p hk := by
    rcases h.pending k p hk with hk | hk
    · exact h'.pending k p hk
    · exact .inr (h'.bad hk)

/-- The queue is in order, and nothing is bad but what descends from the reported blocks. -/
structure Good (B : QueueBlocks w) (reported : Finset H256) (q : BlockQueue) : Prop where
  member : (q.view w.crypto).Member
  shaped : q.Shaped B
  traced : (q.view w.crypto).Traced B.Child reported
  named : ∀ h ∈ reported, B.Named h

variable {reported : Finset H256}

theorem Good.moved (hq : q.Good B reported) (h : Moved B q q') : q'.Good B reported where
  member := hq.member.spoiled h.spoiled
  shaped := h.shaped
  traced := hq.traced.spoiled h.spoiled
  named := hq.named

theorem Good.bad_named (hq : q.Good B reported) {h : H256} (hb : h ∈ q.m_knownBad) : B.Named h := by
  obtain ⟨r, hr, hd⟩ := hq.traced.bad h hb
  cases hd with
  | refl => exact hq.named _ hr
  | tail _ hlast =>
    obtain ⟨d, hd⟩ := hlast
    exact ⟨d, _, hd, rfl⟩

/-- An entry of `m_verifying` that is to go is bad, or has a bad parent. -/
theorem Good.verifyingBad (hq : q.Good B reported) {e : QueuedBlock}
    (he : e ∈ q.m_verifying.m_queue) (hb : q.verifyingBad e = true) :
    (e.verifyingItem w.crypto).after ∈ q.m_knownBad ∨
      (e.verifyingItem w.crypto).name ∈ q.m_knownBad := by
  have hb' : e.info.parentHash ∈ q.m_knownBad ∨ e.info.sha3Uncles ∈ q.m_knownBad := by
    simpa [BlockQueue.verifyingBad, isBad] using hb
  rcases hb' with hb' | hb'
  · exact .inl hb'
  · rcases hq.shaped.verifying e he with hf | ⟨d, x, -, rfl⟩
    · -- the hash of uncles is no block's hash
      obtain ⟨d, x, hx, heq⟩ := hq.bad_named hb'
      exact absurd heq.symm (hf.sha3Uncles_ne hx)
    · exact .inr hb'

theorem shaped_markBad (hq : q.Shaped B) {hashes : Finset H256}
    {out stay : List (H256 × H256 × Bytes)} (hs : stay ⊆ q.m_unknown.m_map) (n : BitVec 64) :
    (q.markBad hashes out stay n).Shaped B where
  verified := hq.verified
  verifying := hq.verifying
  unverified := hq.unverified
  unknown e he := hq.unknown e (hs he)
  future := hq.future

/-- Blocks leave one part of the line for being bad. -/
theorem passed_noteBads {α : Type} (f : α → Item H256) (p : α → Bool) {l : List α}
    (pre suf : List (Item H256)) (hm : (q.view w.crypto).Member)
    (hline : (q.view w.crypto).line = pre ++ (l.map f ++ suf))
    (hq' : q'.view w.crypto =
      { q.view w.crypto with line := pre ++ ((l.filter (!p ·)).map f ++ suf) })
    (hp : ∀ a ∈ l, p a = true → (f a).after ∈ q.m_knownBad ∨ (f a).name ∈ q.m_knownBad)
    (hshaped : q'.Shaped B)
    (hpending : ∀ h p', QueuedBlock.pending h p' ∈ q.m_verifying.m_queue →
      QueuedBlock.pending h p' ∈ q'.m_verifying.m_queue ∨
        h ∈ (l.filter p).map fun a => (f a).name)
    (hfuture : q'.m_future = q.m_future) (hd : q'.m_difficulty = q.m_difficulty)
    (hdd : q'.m_drainingDifficulty = q.m_drainingDifficulty) :
    Passed B q (((l.filter p).map fun a => (f a).name).foldl noteBad q') := by
  have hspoiled := spoiled_noteBads f p hm hline hq' hp
  obtain ⟨out, stay, n, hR, heq⟩ := noteBads_eq ((l.filter p).map fun a => (f a).name) q'
  have hbad : q'.m_knownBad = q.m_knownBad := congrArg Intake.State.bad hq'
  rw [heq] at hspoiled ⊢
  refine ⟨⟨hspoiled, shaped_markBad hshaped (mem_of_released hR).2 n, ?_,
    congrArg Intake.State.draining hq', hfuture, hd, hdd⟩, ?_⟩
  · change q.m_knownBad ⊆ q'.m_knownBad ∪ _ ∪ _
    rw [hbad, Finset.union_assoc]
    exact Finset.subset_union_left
  · intro h p' hh
    rcases hpending h p' hh with hh | hh
    · exact .inl hh
    · exact .inr (Finset.mem_union_left _ (Finset.mem_union_right _ (List.mem_toFinset.2 hh)))

/-! ## The passes -/

theorem removeIf_fst_of_trailing {T : Type} [BlockEntry T] {s : SizedBlockQueue T} {p : T → Bool}
    (h : RemoveIf.Trailing p s.m_queue) : (s.removeIf p).1 = s.m_queue.filter p :=
  RemoveIf.removeIf_snd h

theorem removeIf_snd_m_queue {T : Type} [BlockEntry T] (s : SizedBlockQueue T) (p : T → Bool) :
    (s.removeIf p).2.m_queue = s.m_queue.filter (!p ·) :=
  RemoveIf.removeIf_fst s.m_queue

theorem passed_badVerified (hq : q.Good B reported)
    (ht : RemoveIf.Trailing (q.verifiedBad w) q.m_verified.m_queue) :
    Passed B q (q.badVerified w).2 := by
  have hkept := removeIf_snd_m_queue q.m_verified (q.verifiedBad w)
  unfold badVerified
  simp only [removeIf_fst_of_trailing ht]
  refine passed_noteBads (QueuedBlock.item w.crypto) (q.verifiedBad w) [] _ hq.member rfl ?_ ?_
    ?_ (fun h p' hh => .inl hh) rfl rfl rfl
  · simp only [view, hkept, List.nil_append]
  · intro e he hb
    simpa [verifiedBad, isBad, QueuedBlock.item] using hb
  · exact { hq.shaped with
      verified := fun e he => hq.shaped.verified e (List.mem_of_mem_filter (by rwa [hkept] at he)) }

theorem passed_badUnverified (hq : q.Good B reported)
    (ht : RemoveIf.Trailing q.unverifiedBad q.m_unverified.m_queue) :
    Passed B q q.badUnverified.2 := by
  have hkept := removeIf_snd_m_queue q.m_unverified q.unverifiedBad
  unfold badUnverified
  simp only [removeIf_fst_of_trailing ht]
  refine passed_noteBads UnverifiedBlock.item q.unverifiedBad
    (q.m_verified.m_queue.map (QueuedBlock.item w.crypto) ++
      q.m_verifying.m_queue.map (QueuedBlock.verifyingItem w.crypto)) [] hq.member ?_ ?_ ?_ ?_
    (fun h p' hh => .inl hh) rfl rfl rfl
  · simp [view]
  · simp [view, hkept]
  · intro u hu hb
    simpa [unverifiedBad, isBad, UnverifiedBlock.item] using hb
  · exact { hq.shaped with
      unverified := fun u hu =>
        hq.shaped.unverified u (List.mem_of_mem_filter (by rwa [hkept] at hu)) }

theorem passed_badVerifying (hq : q.Good B reported)
    (ht : RemoveIf.Trailing q.verifyingBad q.m_verifying.m_queue) :
    Passed B q (q.badVerifying w).2 := by
  have hkept := removeIf_snd_m_queue q.m_verifying q.verifyingBad
  unfold badVerifying
  simp only [removeIf_fst_of_trailing ht]
  refine passed_noteBads (QueuedBlock.verifyingItem w.crypto) q.verifyingBad _ _ hq.member rfl ?_ ?_
    ?_ ?_ rfl rfl rfl
  · simp only [view, hkept]
  · intro e he hb
    exact hq.verifyingBad he hb
  · exact { hq.shaped with
      verifying := fun e he => hq.shaped.verifying e (List.mem_of_mem_filter (by rwa [hkept] at he)) }
  · intro h p' hh
    by_cases hb : q.verifyingBad (.pending h p') = true
    · exact .inr (List.mem_map.2 ⟨_, List.mem_filter.2 ⟨hh, hb⟩, rfl⟩)
    · left
      change _ ∈ (q.m_verifying.removeIf q.verifyingBad).2.m_queue
      rw [hkept]
      exact List.mem_filter.2 ⟨hh, by simpa using hb⟩

/-! ## The rounds -/

/-- The blocks that a round removes are at the ends of the queues. -/
def RoundAtEnd (w : World) (q : BlockQueue) : Prop :=
  RemoveIf.Trailing (q.verifiedBad w) q.m_verified.m_queue ∧
    (let q1 := (q.badVerified w).2
    RemoveIf.Trailing q1.unverifiedBad q1.m_unverified.m_queue ∧
      let q2 := q1.badUnverified.2
      RemoveIf.Trailing q2.verifyingBad q2.m_verifying.m_queue)

/-- All the blocks that `updateBad` removes are at the ends of the queues when it does. -/
def UpdateAtEnd (w : World) (q : BlockQueue) (bad : H256) : Prop :=
  let q := q.collectUnknownBad bad
  go (q.knownCount + 1) q
where
  go : ℕ → BlockQueue → Prop
    | 0, _ => True
    | fuel + 1, q => RoundAtEnd w q ∧ ((q.badRound w).1 = true → go fuel (q.badRound w).2)

theorem passed_badRound (hq : q.Good B reported) (h : RoundAtEnd w q) :
    Passed B q (q.badRound w).2 := by
  obtain ⟨h1, h2, h3⟩ := h
  have hp1 := passed_badVerified hq h1
  have hq1 := hq.moved hp1.toMoved
  have hp2 := passed_badUnverified hq1 h2
  have hq2 := hq1.moved hp2.toMoved
  have hp3 := passed_badVerifying hq2 h3
  exact (hp1.trans hp2).trans hp3

theorem passed_updateBad_go (fuel : ℕ) (hq : q.Good B reported) (h : UpdateAtEnd.go w fuel q) :
    Passed B q (updateBad.go w fuel q) := by
  induction fuel generalizing q with
  | zero => exact .refl hq.shaped
  | succ fuel ih =>
    have hp := passed_badRound hq h.1
    unfold updateBad.go
    simp only
    split
    · rename_i hmore
      exact hp.trans (ih (hq.moved hp.toMoved) (h.2 hmore))
    · exact hp

theorem passed_collectUnknownBad (hq : q.Shaped B) {bad : H256} (hbad : bad ∈ q.m_knownBad) :
    Passed B q (q.collectUnknownBad bad) := by
  have hspoiled : Spoiled (q.view w.crypto) ((q.collectUnknownBad bad).view w.crypto) := by
    obtain ⟨out, stay, hR, hview⟩ := view_collectUnknownBad w.crypto q bad
    rw [hview]
    apply Relation.ReflTransGen.single
    apply Intake.State.Spoil.collect [bad] _ hR
    intro k hk
    rw [List.mem_singleton.1 hk]
    exact hbad
  obtain ⟨out, stay, n, hR, heq⟩ := collectUnknownBad_eq q bad
  rw [heq] at hspoiled ⊢
  refine ⟨⟨hspoiled, shaped_markBad hq (mem_of_released hR).2 n, ?_, rfl, rfl, rfl, rfl⟩,
    fun h p hh => .inl hh⟩
  change q.m_knownBad ⊆ q.m_knownBad ∪ ∅ ∪ _
  rw [Finset.union_empty]
  exact Finset.subset_union_left

/-- With all removals at the ends, `updateBad` takes out nothing but bad blocks. -/
theorem passed_updateBad (hq : q.Good B reported) {bad : H256} (hbad : bad ∈ q.m_knownBad)
    (h : UpdateAtEnd w q bad) : Passed B q (q.updateBad w bad) := by
  have hp := passed_collectUnknownBad hq.shaped hbad
  exact hp.trans (passed_updateBad_go _ (hq.moved hp.toMoved) h)

/-! ## What is left -/

theorem removeIf_eq_self {T : Type} [BlockEntry T] {s : SizedBlockQueue T} {p : T → Bool}
    (h : (s.removeIf p).1 = []) : (s.removeIf p).2 = s ∧ ∀ e ∈ s.m_queue, p e = false := by
  have hnone := (RemoveIf.removeIf_snd_eq_nil s.m_queue).1 h
  refine ⟨?_, hnone⟩
  have hqueue : (s.removeIf p).2.m_queue = s.m_queue := by
    rw [removeIf_snd_m_queue, List.filter_eq_self]
    intro e he
    rw [hnone e he]
    rfl
  have hsize : (s.removeIf p).2.m_size = s.m_size := by
    change SizedBlockQueue.subtract s.m_size (s.removeIf p).1 = s.m_size
    rw [h]
    rfl
  cases s
  exact congrArg₂ SizedBlockQueue.mk hqueue hsize

theorem badVerified_nil (h : (q.badVerified w).1 = []) :
    (q.badVerified w).2 = q ∧ ∀ e ∈ q.m_verified.m_queue, q.verifiedBad w e = false := by
  have hnil : (q.m_verified.removeIf (q.verifiedBad w)).1 = [] := List.map_eq_nil_iff.1 h
  obtain ⟨heq, hnone⟩ := removeIf_eq_self hnil
  refine ⟨?_, hnone⟩
  unfold badVerified
  simp only [hnil, heq, List.map_nil, List.foldl_nil]

theorem badUnverified_nil (h : q.badUnverified.1 = []) :
    q.badUnverified.2 = q ∧ ∀ u ∈ q.m_unverified.m_queue, q.unverifiedBad u = false := by
  have hnil : (q.m_unverified.removeIf q.unverifiedBad).1 = [] := List.map_eq_nil_iff.1 h
  obtain ⟨heq, hnone⟩ := removeIf_eq_self hnil
  refine ⟨?_, hnone⟩
  unfold badUnverified
  simp only [hnil, heq, List.map_nil, List.foldl_nil]

theorem badVerifying_nil (h : (q.badVerifying w).1 = []) :
    (q.badVerifying w).2 = q ∧ ∀ e ∈ q.m_verifying.m_queue, q.verifyingBad e = false := by
  have hnil : (q.m_verifying.removeIf q.verifyingBad).1 = [] := List.map_eq_nil_iff.1 h
  obtain ⟨heq, hnone⟩ := removeIf_eq_self hnil
  refine ⟨?_, hnone⟩
  unfold badVerifying
  simp only [hnil, heq, List.map_nil, List.foldl_nil]

end BlockQueue

end Petrachor
