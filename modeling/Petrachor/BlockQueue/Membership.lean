import Petrachor.BlockQueue.Devnet

/-!
# Where the queue knows its blocks to be

As long as blocks are removed from the ends of the queues only, the sets say where each block is: the
ready ones are those in the three queues, each of them once, and no block is in two of the sets. A
block that is reported as bad must be one that was drained, and the queue must not be cleared under a
verifier's hands.
-/

namespace Petrachor

variable {w : World} {B : QueueBlocks w}

namespace QueueOp

/-- The step removes blocks from the ends of the queues only, reports none as bad but drained ones,
and clears the queue only while no verifier is at work. -/
def Proper (w : World) (s : QueueState) : QueueOp → Prop
  | .importBlock bc block isOurs now => ∀ info,
      BlockQueue.Arrives w bc s.queue block isOurs now info →
        info.parentHash ∈ s.queue.m_knownBad →
          BlockQueue.UpdateAtEnd w (s.queue.condemn info.m_hash) info.m_hash
  | .doneDrain bad => bad.toFinset ⊆ s.queue.m_drainingSet ∧
      BlockQueue.UpdatesAtEnd w bad (s.queue.settle bad)
  | .clear => s.works = []
  | _ => True

end QueueOp

namespace QueueState

/-- What every proper step keeps. -/
structure Kept (B : QueueBlocks w) (s : QueueState) : Prop where
  good : s.queue.Good B s.reported
  settled : (s.queue.view w.crypto).Settled
  draining : ∀ h ∈ s.queue.m_drainingSet, B.Named h
  works_files : ∀ u ∈ s.works, B.Files u.blockData u.item
  works_nodup : (s.works.map UnverifiedBlock.hash).Nodup
  works_at : ∀ u ∈ s.works, s.queue.AtWork u

theorem kept_empty (B : QueueBlocks w) : Kept B .empty where
  good :=
    { member := Intake.State.member_empty ∅
      shaped := BlockQueue.shaped_empty B
      traced := ⟨by simp [empty, BlockQueue.empty, BlockQueue.view, SizedBlockQueue.empty],
        by simp [empty, BlockQueue.empty, BlockQueue.view, SizedBlockMap.empty],
        by simp [empty, BlockQueue.empty, BlockQueue.view]⟩
      named := by simp [empty] }
  settled := by
    intro x hx
    simp [empty, BlockQueue.empty, BlockQueue.view, SizedBlockMap.empty] at hx
  draining := by simp [empty, BlockQueue.empty]
  works_files := by simp [empty]
  works_nodup := by simp [empty]
  works_at := by simp [empty]

variable {s : QueueState}

/-- The queue changes, and the blocks that verifiers are at work on stay in it. -/
theorem Kept.of_queue (hs : s.Kept B) {q : BlockQueue} (hq : q.Good B s.reported)
    (hsettled : (q.view w.crypto).Settled) (hd : ∀ h ∈ q.m_drainingSet, B.Named h)
    (hat : ∀ u, s.queue.AtWork u → q.AtWork u) : Kept B { s with queue := q } where
  good := hq
  settled := hsettled
  draining := hd
  works_files := hs.works_files
  works_nodup := hs.works_nodup
  works_at u hu := hat u (hs.works_at u hu)

theorem atWork_of_passed {q q' : BlockQueue} (h : BlockQueue.Passed B q q') {u : UnverifiedBlock}
    (hu : q.AtWork u) : q'.AtWork u := by
  rcases hu with hu | hu
  · exact h.pending _ _ hu
  · exact .inr (h.bad hu)

theorem Kept.moved (hs : s.Kept B) {q : BlockQueue} (hp : BlockQueue.Passed B s.queue q) :
    Kept B { s with queue := q } := by
  apply hs.of_queue (hs.good.moved hp.toMoved) (hs.settled.spoiled hs.good.member hp.spoiled)
  · rw [hp.draining]
    exact hs.draining
  · intro u
    exact atWork_of_passed hp

/-! ## Blocks that arrive -/

theorem child_of_holds {info : BlockHeader} {block : Bytes} (h : B.Holds block info) :
    B.Child info.parentHash info.m_hash := ⟨block, info, h, rfl⟩

/-- A block with a bad parent spoils what waits for it, and what descends from it. -/
theorem Kept.condemn (hs : s.Kept B) {info : BlockHeader} {block : Bytes}
    (hinfo : B.Holds block info) (hnew : (s.queue.view w.crypto).New info.m_hash)
    (hbad : info.parentHash ∈ s.queue.m_knownBad)
    (h : BlockQueue.UpdateAtEnd w (s.queue.condemn info.m_hash) info.m_hash) :
    Kept B { s with queue := (s.queue.condemn info.m_hash).updateBad w info.m_hash } := by
  have hview := BlockQueue.view_condemn w.crypto s.queue info.m_hash
  have hgood : (s.queue.condemn info.m_hash).Good B s.reported := by
    constructor
    · rw [hview]
      apply hs.good.member.condemn
      intro k hk
      rw [Finset.mem_singleton.1 hk]
      exact hnew
    · exact { hs.good.shaped with }
    · rw [hview]
      apply hs.good.traced.condemn
      intro k hk
      rw [Finset.mem_singleton.1 hk]
      exact hs.good.traced.child_of_bad hbad (child_of_holds hinfo)
    · exact hs.good.named
  have hmem : info.m_hash ∈ (s.queue.condemn info.m_hash).m_knownBad := Finset.mem_insert_self _ _
  have hp1 := BlockQueue.passed_collectUnknownBad hgood.shaped hmem
  have hg1 := hgood.moved hp1.toMoved
  have hp2 := BlockQueue.passed_updateBad_go _ hg1 h
  have hset : (((s.queue.condemn info.m_hash).collectUnknownBad info.m_hash).view w.crypto).Settled := by
    apply BlockQueue.settled_collectUnknownBad
    rw [hview]
    exact hs.settled.condemn info.m_hash
  apply hs.of_queue (hg1.moved hp2.toMoved) (hset.spoiled hg1.member hp2.spoiled)
  · intro k hk
    rw [(hp1.trans hp2).draining] at hk
    exact hs.draining k hk
  · intro u hu
    apply atWork_of_passed (hp1.trans hp2)
    rcases hu with hu | hu
    · exact .inl hu
    · exact .inr (Finset.mem_insert_of_mem hu)

theorem Kept.await (hs : s.Kept B) {info : BlockHeader} {block : Bytes}
    (hinfo : B.Holds block info) (hnew : (s.queue.view w.crypto).New info.m_hash)
    (h1 : info.parentHash ∉ s.queue.m_readySet) (h2 : info.parentHash ∉ s.queue.m_drainingSet)
    (h3 : info.parentHash ∉ s.queue.m_knownBad) :
    Kept B { s with queue := s.queue.await info block } := by
  have hview := BlockQueue.view_await w.crypto s.queue info block
  apply hs.of_queue
  · constructor
    · rw [hview]
      exact hs.good.member.wait hnew
    · exact hs.good.shaped.await hinfo
    · rw [hview]
      exact hs.good.traced.wait (child_of_holds hinfo)
    · exact hs.good.named
  · rw [hview]
    exact hs.settled.wait h1 h2 h3
  · exact hs.draining
  · intro u hu
    exact hu

/-- Blocks that waited are ready. -/
theorem Kept.release (hs : s.Kept B) {q : BlockQueue} (hq : q.Good B s.reported) {good : H256}
    (hsettled : (q.view w.crypto).SettledBut [good]) (hd : q.m_drainingSet = s.queue.m_drainingSet)
    (hat : ∀ u, s.queue.AtWork u → q.AtWork u) :
    Kept B { s with queue := q.noteReady good } := by
  obtain ⟨out, stay, hR, hview⟩ := BlockQueue.view_noteReady w.crypto q good
  obtain ⟨_, _, _, _, -, heq⟩ := BlockQueue.noteReady_eq q good
  apply hs.of_queue
  · constructor
    · rw [hview]
      exact hq.member.release hR.eq
    · exact hq.shaped.noteReady good
    · rw [hview]
      exact hq.traced.release hR.eq
    · exact hq.named
  · rw [hview]
    exact hsettled.release hR
  · intro k hk
    rw [heq] at hk
    change k ∈ q.m_drainingSet at hk
    rw [hd] at hk
    exact hs.draining k hk
  · intro u hu
    rw [heq]
    exact hat u hu

theorem Kept.takeIn (hs : s.Kept B) {info : BlockHeader} {block : Bytes}
    (hinfo : B.Holds block info) (hnew : (s.queue.view w.crypto).New info.m_hash) :
    Kept B { s with queue := (s.queue.takeIn info block).noteReady info.m_hash } := by
  have hview := BlockQueue.view_takeIn w.crypto s.queue info block
  apply hs.release
  · constructor
    · rw [hview]
      exact hs.good.member.arrive hnew
    · exact hs.good.shaped.takeIn hinfo
    · rw [hview]
      exact hs.good.traced.arrive (child_of_holds hinfo)
    · exact hs.good.named
  · rw [hview]
    exact hs.settled.arrive _
  · rfl
  · intro u hu
    exact hu

theorem Kept.importBlock (hs : s.Kept B) {bc : BlockChain} {block : Bytes} (hd : block ∈ B.carrier)
    {isOurs : Bool} {now : ℤ} (h : QueueOp.Proper w s (.importBlock bc block isOurs now)) :
    Kept B (step w s (.importBlock bc block isOurs now)) := by
  change Kept B { s with queue := (s.queue.importBlock w bc block isOurs now).2 }
  rcases BlockQueue.importBlock_cases hd isOurs now with heq | ⟨info, hinfo, heq⟩ |
    ⟨info, hinfo, harr, heq⟩
  · rw [heq]
    exact hs
  · rw [heq]
    apply hs.of_queue
    · exact { hs.good with
        member := hs.good.member
        shaped := hs.good.shaped.insertFuture hinfo _
        traced := hs.good.traced }
    · exact hs.settled
    · exact hs.draining
    · intro u hu
      exact hu
  · rw [heq]
    rcases BlockQueue.file_cases hinfo.hash_eq with ⟨hbad, hfile⟩ | ⟨h3, h1, h2, hfile⟩ |
      ⟨-, -, hfile⟩
    · rw [hfile]
      exact hs.condemn hinfo harr.new hbad (h info harr hbad)
    · rw [hfile]
      exact hs.await hinfo harr.new h1 h2 h3
    · rw [hfile]
      exact hs.takeIn hinfo harr.new

/-! ## Verifiers -/

theorem Kept.startVerifying (hs : s.Kept B) : Kept B (step w s .startVerifying) := by
  unfold step
  simp only
  split
  · exact hs
  · rename_i work q hq
    obtain ⟨hmem, hview, hverifying, hshaped, -⟩ := BlockQueue.startVerifying_cases (w := w) (B := B) hq
    have hfiles := hs.good.shaped.unverified work hmem
    -- the block was in the line as one to verify
    have hitem : work.item ∈ (s.queue.view w.crypto).line :=
      List.mem_append_right _ (List.mem_append_right _ (List.mem_map_of_mem hmem))
    have hdraining : q.m_drainingSet = s.queue.m_drainingSet := congrArg Intake.State.draining hview
    have hbad : q.m_knownBad = s.queue.m_knownBad := congrArg Intake.State.bad hview
    have hsub : ∀ e ∈ s.queue.m_verifying.m_queue, e ∈ q.m_verifying.m_queue := by
      intro e he
      rw [hverifying]
      exact List.mem_append_left _ he
    -- no other verifier is at work on it
    have hnew : work.hash ∉ s.works.map UnverifiedBlock.hash := by
      intro hw
      obtain ⟨u, hu, heq⟩ := List.mem_map.1 hw
      rcases hs.works_at u hu with hpend | hb
      · have hn := hs.good.member.nodup
        change ((s.queue.m_verified.m_queue.map _ ++ (s.queue.m_verifying.m_queue.map _ ++
          s.queue.m_unverified.m_queue.map _)).map Intake.Item.name).Nodup at hn
        rw [List.map_append, List.nodup_append', List.map_append, List.nodup_append'] at hn
        have hverif : work.hash ∈ (s.queue.m_verifying.m_queue.map
            (QueuedBlock.verifyingItem w.crypto)).map Intake.Item.name := by
          rw [← heq]
          exact List.mem_map_of_mem (List.mem_map_of_mem hpend)
        exact hn.2.1.2.2 hverif (List.mem_map_of_mem (List.mem_map_of_mem hmem))
      · apply Finset.disjoint_left.1 hs.good.member.ready_bad
          (hs.good.member.mem_ready.2 ⟨_, hitem, rfl⟩)
        change work.hash ∈ s.queue.m_knownBad
        rw [← heq]
        exact hb
    constructor
    · constructor
      · rw [hview]
        exact hs.good.member
      · exact hshaped hs.good.shaped
      · rw [hview]
        exact hs.good.traced
      · exact hs.good.named
    · rw [hview]
      exact hs.settled
    · rw [hdraining]
      exact hs.draining
    · intro u hu
      rcases List.mem_append.1 hu with hu | hu
      · exact hs.works_files u hu
      · rw [List.mem_singleton.1 hu]
        exact hfiles
    · rw [List.map_append, List.nodup_append']
      refine ⟨hs.works_nodup, List.nodup_singleton _, ?_⟩
      intro k hk hk'
      rw [List.map_cons, List.map_nil, List.mem_singleton] at hk'
      rw [hk'] at hk
      exact hnew hk
    · intro u hu
      rcases List.mem_append.1 hu with hu | hu
      · rcases hs.works_at u hu with hpend | hb
        · exact .inl (hsub _ hpend)
        · right
          rw [hbad]
          exact hb
      · left
        rw [List.mem_singleton.1 hu, hverifying]
        exact List.mem_append_right _ List.mem_cons_self

/-- A verifier comes back, and the others stay at work. -/
theorem Kept.finish (hs : s.Kept B) {i : ℕ} {work : UnverifiedBlock} (hi : s.works[i]? = some work)
    {q : BlockQueue} {reported : Finset H256} (hq : q.Good B reported)
    (hsettled : (q.view w.crypto).Settled) (hd : q.m_drainingSet = s.queue.m_drainingSet)
    (hat : ∀ h p, h ≠ work.hash → QueuedBlock.pending h p ∈ s.queue.m_verifying.m_queue →
      QueuedBlock.pending h p ∈ q.m_verifying.m_queue ∨ h ∈ q.m_knownBad)
    (hbad : s.queue.m_knownBad ⊆ q.m_knownBad) :
    Kept B { queue := q, works := s.works.eraseIdx i, reported := reported } where
  good := hq
  settled := hsettled
  draining := by
    rw [hd]
    exact hs.draining
  works_files u hu := hs.works_files u (List.mem_of_mem_eraseIdx hu)
  works_nodup := hs.works_nodup.sublist ((List.eraseIdx_sublist _ _).map _)
  works_at u hu := by
    have hu' := List.mem_of_mem_eraseIdx hu
    -- two verifiers are not at work on the same block
    have hne : u.hash ≠ work.hash := by
      intro heq
      obtain ⟨j, hj, hju⟩ := List.mem_eraseIdx_iff_getElem?.1 hu
      apply hj
      have hlt : j < (s.works.map UnverifiedBlock.hash).length := by
        rw [List.length_map]
        exact (List.getElem?_eq_some_iff.1 hju).1
      apply (List.getElem?_inj hlt hs.works_nodup).1
      rw [List.getElem?_map, List.getElem?_map, hju, hi, Option.map_some, Option.map_some, heq]
    rcases hs.works_at u hu' with hpend | hb
    · exact hat _ _ hne hpend
    · exact .inr (hbad hb)

theorem named_of_files {d : Bytes} {x : Intake.Item H256} (h : B.Files d x) : B.Named x.name :=
  ⟨d, x, h, rfl⟩

/-- A block that has failed is bad. -/
theorem Kept.good_fail (hs : s.Kept B) {work : UnverifiedBlock} (hw : work ∈ s.works) :
    (s.queue.fail work).Good B (s.reported ∪ {work.hash}) ∧
      ((s.queue.fail work).view w.crypto).Settled := by
  have hfiles := hs.works_files work hw
  have hat := hs.works_at work hw
  have hview := BlockQueue.view_fail hs.good.member hs.good.shaped hfiles hat
  have hm := hs.good.member
  have htraced : ((s.queue.view w.crypto).drop {work.hash}).Traced B.Child
      (s.reported ∪ {work.hash}) := by
    refine ((hs.good.traced.mono Finset.subset_union_left).condemn ?_).anti
      List.filter_sublist.subset (fun _ h => h) (fun _ h => h)
    intro k hk
    exact ⟨k, Finset.mem_union_right _ hk, .refl⟩
  have hnamed : ∀ h ∈ s.reported ∪ {work.hash}, B.Named h := by
    intro k hk
    rcases Finset.mem_union.1 hk with hk | hk
    · exact hs.good.named k hk
    · rw [Finset.mem_singleton.1 hk]
      exact named_of_files hfiles
  rw [BlockQueue.AtWork] at hat
  by_cases hready : work.hash ∈ s.queue.m_readySet
  · obtain ⟨x, hx, hxw⟩ := hm.mem_ready.1 hready
    refine ⟨⟨?_, hs.good.shaped.fail work, by rw [hview]; exact htraced, hnamed⟩, ?_⟩
    · rw [hview]
      apply hm.drop
      intro k hk
      rw [Finset.mem_singleton.1 hk]
      exact ⟨x, hx, hxw⟩
    · rw [hview]
      apply hs.settled.drop
      rw [Finset.singleton_subset_iff]
      exact hready
  · -- it is bad already
    have hbad : work.hash ∈ s.queue.m_knownBad := by
      rcases hat with hpend | hbad
      · exfalso
        apply hready
        apply hm.mem_ready.2
        exact ⟨_, List.mem_append_right _ (List.mem_append_left _ (List.mem_map_of_mem hpend)), rfl⟩
      · exact hbad
    have hsame : (s.queue.view w.crypto).drop {work.hash} = s.queue.view w.crypto :=
      hm.drop_of_bad hbad
    refine ⟨⟨?_, hs.good.shaped.fail work, by rw [hview]; exact htraced, hnamed⟩, ?_⟩
    · rw [hview, hsame]
      exact hm
    · rw [hview, hsame]
      exact hs.settled

theorem Kept.finishVerifying (hs : s.Kept B) (bc : BlockChain) (i : ℕ) (now : ℤ) :
    Kept B (step w s (.finishVerifying bc i now)) := by
  unfold step
  simp only
  split
  · exact hs
  · rename_i work hi
    have hw : work ∈ s.works := List.mem_of_getElem? hi
    have hfiles := hs.works_files work hw
    unfold report
    split
    · rename_i vb hv
      obtain ⟨hmoved, hpend⟩ := BlockQueue.moved_finishVerifying hs.good hfiles hv
      rw [Finset.union_empty]
      exact hs.finish hi (hs.good.moved hmoved)
        (hs.settled.spoiled hs.good.member hmoved.spoiled) hmoved.draining hpend hmoved.bad
    · rename_i x hv
      obtain ⟨hgood, hset⟩ := hs.good_fail hw
      have hp := BlockQueue.passed_drainVerified hgood
      rw [BlockQueue.finishVerifying_error hv]
      refine hs.finish hi (hgood.moved hp.toMoved) (hset.spoiled hgood.member hp.spoiled)
        hp.draining (fun h p hne hmem => ?_) ((Finset.subset_insert _ _).trans hp.bad)
      apply hp.pending
      change _ ∈ (s.queue.m_verifying.removeIf _).2.m_queue
      rw [BlockQueue.removeIf_snd_m_queue, List.mem_filter]
      exact ⟨hmem, by simp [hne]⟩

/-! ## Draining -/

theorem Kept.drain (hs : s.Kept B) (max : ℕ) : Kept B (step w s (.drain max)) := by
  change Kept B { s with queue := (s.queue.drain w max).2 }
  rcases BlockQueue.view_drain w s.queue max with ⟨-, heq⟩ | ⟨hempty, n, -, hview⟩
  · rw [heq]
    exact hs
  · have hm := hs.good.member
    have hverifying : (s.queue.drain w max).2.m_verifying = s.queue.m_verifying := by
      unfold BlockQueue.drain
      rw [if_pos hempty]
    have hbad : (s.queue.drain w max).2.m_knownBad = s.queue.m_knownBad :=
      congrArg Intake.State.bad hview
    have hdraining : (s.queue.drain w max).2.m_drainingSet =
        Intake.names ((s.queue.view w.crypto).line.take n) := congrArg Intake.State.draining hview
    apply hs.of_queue
    · constructor
      · rw [hview]
        exact hm.handOut n
      · exact hs.good.shaped.drain max
      · rw [hview]
        exact hs.good.traced.anti (List.drop_subset _ _) (fun _ h => h) (fun _ h => h)
      · exact hs.good.named
    · rw [hview]
      exact hs.settled.handOut hm n
    · intro h hh
      rw [hdraining] at hh
      obtain ⟨x, hx, rfl⟩ := Intake.mem_names.1 hh
      obtain ⟨d, hd⟩ := hs.good.traced.line x (List.mem_of_mem_take hx)
      exact named_of_files hd
    · intro u hu
      unfold BlockQueue.AtWork
      rw [hverifying, hbad]
      exact hu

theorem Kept.doneDrain (hs : s.Kept B) {bad : List H256} (h : QueueOp.Proper w s (.doneDrain bad)) :
    Kept B (step w s (.doneDrain bad)) := by
  obtain ⟨hsub, hupdates⟩ := h
  have hview := BlockQueue.view_settle w.crypto s.queue bad
  have hgood : (s.queue.settle bad).Good B (s.reported ∪ bad.toFinset) := by
    constructor
    · rw [hview]
      exact hs.good.member.done hsub
    · exact { hs.good.shaped with }
    · rw [hview]
      refine ((hs.good.traced.mono Finset.subset_union_left).condemn ?_).anti
        (fun _ h => h) (fun _ h => h) (fun _ h => h)
      intro k hk
      exact ⟨k, Finset.mem_union_right _ hk, .refl⟩
    · intro k hk
      rcases Finset.mem_union.1 hk with hk | hk
      · exact hs.good.named k hk
      · exact hs.draining k (hsub hk)
  have hset : ((s.queue.settle bad).view w.crypto).Settled := by
    rw [hview]
    exact hs.settled.done hsub
  have hp := BlockQueue.passed_updates hgood
    (fun b hb => Finset.mem_union_right _ (List.mem_toFinset.2 hb)) hupdates
  change Kept B ⟨(s.queue.doneDrain w bad).2, s.works, s.reported ∪ bad.toFinset⟩
  rw [BlockQueue.doneDrain_eq]
  constructor
  · exact hgood.moved hp.toMoved
  · exact hset.spoiled hgood.member hp.spoiled
  · intro k hk
    rw [hp.draining] at hk
    exact absurd hk (Finset.notMem_empty k)
  · exact hs.works_files
  · exact hs.works_nodup
  · intro u hu
    apply atWork_of_passed hp
    rcases hs.works_at u hu with hpend | hb
    · exact .inl hpend
    · exact .inr (Finset.mem_union_left _ hb)

theorem Kept.retryAllUnknown (hs : s.Kept B) : Kept B (step w s .retryAllUnknown) := by
  obtain ⟨out, hout, hview⟩ := BlockQueue.view_retryAllUnknown w.crypto s.queue
  obtain ⟨_, _, _, -, heq⟩ := BlockQueue.retryAllUnknown_eq s.queue
  change Kept B { s with queue := s.queue.retryAllUnknown }
  apply hs.of_queue
  · constructor
    · rw [hview]
      exact hs.good.member.release hout
    · exact hs.good.shaped.retryAllUnknown
    · rw [hview]
      exact hs.good.traced.release hout
    · exact hs.good.named
  · rw [hview]
    intro x hx
    exact absurd hx (Multiset.notMem_zero x)
  · rw [heq]
    exact hs.draining
  · intro u hu
    rw [heq]
    exact hu

theorem Kept.clear (hs : s.Kept B) (h : s.works = []) : Kept B (step w s .clear) := by
  have hempty := kept_empty B
  change Kept B ⟨s.queue.clear, s.works, s.reported⟩
  constructor
  · constructor
    · exact Intake.State.member_empty s.queue.m_knownBad
    · exact { hempty.good.shaped with }
    · exact ⟨hempty.good.traced.line, hempty.good.traced.waiting, hs.good.traced.bad⟩
    · exact hs.good.named
  · intro x hx
    exact absurd hx (Multiset.notMem_zero x)
  · exact hempty.draining
  · exact hs.works_files
  · exact hs.works_nodup
  · rw [h]
    intro u hu
    exact absurd hu List.not_mem_nil

theorem Kept.tick (hs : s.Kept B) (now : ℤ) : Kept B (step w s (.tick now)) := by
  apply hs.of_queue
  · exact { hs.good with
      member := hs.good.member
      shaped := hs.good.shaped.tick now
      traced := hs.good.traced }
  · exact hs.settled
  · exact hs.draining
  · intro u hu
    exact hu

theorem Kept.noteReady (hs : s.Kept B) (good : H256) : Kept B (step w s (.noteReady good)) :=
  hs.release hs.good (hs.settled.but _) rfl fun _ hu => hu

/-- Every proper step. -/
theorem Kept.step (hs : s.Kept B) {op : QueueOp} (hB : op.Within B) (h : op.Proper w s) :
    Kept B (step w s op) := by
  cases op with
  | importBlock bc block isOurs now => exact hs.importBlock hB h
  | tick now => exact hs.tick now
  | noteReady good => exact hs.noteReady good
  | startVerifying => exact hs.startVerifying
  | finishVerifying bc i now => exact hs.finishVerifying bc i now
  | drain max => exact hs.drain max
  | doneDrain bad => exact hs.doneDrain h
  | retryAllUnknown => exact hs.retryAllUnknown
  | clear => exact hs.clear h

end QueueState

/-! ## The sets and the queues -/

namespace BlockQueue

/-- The hashes of the blocks in the three queues, in the order they are handed out. -/
def hashes (c : Crypto) (q : BlockQueue) : List H256 :=
  q.m_verified.m_queue.map (fun b => b.info.hash c .WithSeal) ++
    (q.m_verifying.m_queue.map (QueuedBlock.verifyingHash c) ++
      q.m_unverified.m_queue.map UnverifiedBlock.hash)

end BlockQueue

end Petrachor
