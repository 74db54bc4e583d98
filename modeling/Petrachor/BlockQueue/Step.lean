import Petrachor.Lib.StateRun
import Petrachor.BlockQueue.UpdateBad

/-!
# The queue at work

The queue is stepped by blocks that arrive, by any number of verifiers, each of which takes a block,
verifies it outside the lock and comes back with it, and by the draining of the queue into the chain.
The chain may be another one at every step.
-/

namespace Petrachor

open Intake (Item)

/-- The queue, the blocks that verifiers are at work on, and the blocks that a verifier or the chain
has reported as bad. -/
structure QueueState where
  queue : BlockQueue
  works : List UnverifiedBlock
  reported : Finset H256

inductive QueueOp
  | importBlock (bc : BlockChain) (block : Bytes) (isOurs : Bool) (now : ℤ)
  /-- The first half of `tick`, under the lock; the blocks whose time has come arrive again, each by
  an import of its own. -/
  | tick (now : ℤ)
  | noteReady (good : H256)
  | startVerifying
  /-- The verifier at work on the `i`-th block comes back. -/
  | finishVerifying (bc : BlockChain) (i : ℕ) (now : ℤ)
  | drain (max : ℕ)
  | doneDrain (bad : List H256)
  | retryAllUnknown
  | clear

def QueueOp.Within {w : World} (B : QueueBlocks w) : QueueOp → Prop
  | .importBlock _ block _ _ => block ∈ B.carrier
  | _ => True

namespace QueueState

def empty : QueueState := ⟨.empty, [], ∅⟩

/-- What a failed verification reports. -/
def report (w : World) (bc : BlockChain) (work : UnverifiedBlock) (now : ℤ) : Finset H256 :=
  match BlockQueue.verifyBytes w bc work.blockData .OutOfOrderChecks now with
  | .ok _ => ∅
  | .error _ => {work.hash}

def step (w : World) (s : QueueState) : QueueOp → QueueState
  | .importBlock bc block isOurs now =>
    { s with queue := (s.queue.importBlock w bc block isOurs now).2 }
  | .tick now =>
    { s with queue := { s.queue with m_future := (s.queue.m_future.removeByKeyNotGreater now).2 } }
  | .noteReady good => { s with queue := s.queue.noteReady good }
  | .startVerifying =>
    match s.queue.startVerifying with
    | none => s
    | some (work, q) => { s with queue := q, works := s.works ++ [work] }
  | .finishVerifying bc i now =>
    match s.works[i]? with
    | none => s
    | some work =>
      { queue := s.queue.finishVerifying w bc work now, works := s.works.eraseIdx i
        reported := s.reported ∪ report w bc work now }
  | .drain max => { s with queue := (s.queue.drain w max).2 }
  | .doneDrain bad =>
    { s with queue := (s.queue.doneDrain w bad).2, reported := s.reported ∪ bad.toFinset }
  | .retryAllUnknown => { s with queue := s.queue.retryAllUnknown }
  | .clear => { s with queue := s.queue.clear }

end QueueState

variable {w : World} {B : QueueBlocks w} {q q' : BlockQueue}

theorem QueueBlocks.Files.eq_of_name {d d' : Bytes} {x y : Item H256} (hx : B.Files d x)
    (hy : B.Files d' y) (h : x.name = y.name) : x = y := by
  obtain ⟨info, ⟨hd, b, hb, rfl⟩, rfl⟩ := hx
  obtain ⟨info', ⟨hd', b', hb', rfl⟩, rfl⟩ := hy
  have heq := B.hash_inj d hd b hb d' hd' b' hb' h
  rw [heq]

theorem QueueBlocks.Files.unique {d : Bytes} {x y : Item H256} (hx : B.Files d x)
    (hy : B.Files d y) : x = y := by
  obtain ⟨info, ⟨-, b, hb, rfl⟩, rfl⟩ := hx
  obtain ⟨info', ⟨-, b', hb', rfl⟩, rfl⟩ := hy
  rw [hb] at hb'
  cases hb'
  rfl

namespace BlockQueue

/-! ## Blocks that arrive -/

/-- A block is new and its time has come, so that it is filed. -/
structure Arrives (w : World) (bc : BlockChain) (q : BlockQueue) (block : Bytes) (isOurs : Bool)
    (now : ℤ) (info : BlockHeader) : Prop where
  read : ∃ vb, verifyBytes w bc block .PostGenesis now = .ok vb ∧ vb.info = info
  new : (q.view w.crypto).New info.m_hash
  unknown : bc.isKnown w info.m_hash true = false
  timely : now < info.timestamp → isOurs = true

/-- What an import comes to. -/
theorem importBlock_cases {bc : BlockChain} {block : Bytes} (hd : block ∈ B.carrier) (isOurs : Bool)
    (now : ℤ) :
    (q.importBlock w bc block isOurs now).2 = q ∨
    (∃ info, B.Holds block info ∧ (q.importBlock w bc block isOurs now).2 =
      { q with m_future := q.m_future.insert info.timestamp info.m_hash block
               m_difficulty := q.m_difficulty + info.difficulty }) ∨
    ∃ info, B.Holds block info ∧ Arrives w bc q block isOurs now info ∧
      (q.importBlock w bc block isOurs now).2 = (file w bc q info info.m_hash block).2 := by
  unfold importBlock
  split
  · exact .inl rfl
  · rename_i h hh
    split
    · exact .inl rfl
    · rename_i hnew
      split
      · exact .inl rfl
      · rename_i vb hvb
        have hholds := verifyBytes_holds hd hvb
        have hheq : h = vb.info.m_hash := by
          obtain ⟨-, b, hb, hbi⟩ := hholds
          rw [headerHashFromBlock_eq hb, hbi] at hh
          cases hh
          rfl
        subst hheq
        simp only
        split
        · exact .inl rfl
        · rename_i hknown
          split
          · exact .inr (.inl ⟨vb.info, hholds, rfl⟩)
          · rename_i hfuture
            refine .inr (.inr ⟨vb.info, hholds, ⟨⟨vb, hvb, rfl⟩, ?_, by simpa using hknown, ?_⟩, rfl⟩)
            · simp only [not_or] at hnew
              exact ⟨hnew.1, hnew.2.1, hnew.2.2.1, hnew.2.2.2⟩
            · intro hlt
              by_contra ho
              exact hfuture ⟨hlt, by simpa using ho⟩

/-- A block with a bad parent is noted as bad. -/
def condemn (q : BlockQueue) (h : H256) : BlockQueue :=
  { q with m_knownBad := insert h q.m_knownBad }

/-- A block with an unknown parent waits. -/
def await (q : BlockQueue) (info : BlockHeader) (block : Bytes) : BlockQueue :=
  { q with m_unknown := q.m_unknown.insert info.parentHash info.m_hash block
           m_unknownSet := insert info.m_hash q.m_unknownSet
           m_difficulty := q.m_difficulty + info.difficulty }

/-- A block whose parent is at hand is ready. -/
def takeIn (q : BlockQueue) (info : BlockHeader) (block : Bytes) : BlockQueue :=
  { q with m_unverified := q.m_unverified.enqueue ⟨info.m_hash, info.parentHash, block⟩
           m_readySet := insert info.m_hash q.m_readySet
           m_difficulty := q.m_difficulty + info.difficulty }

theorem file_cases {bc : BlockChain} {info : BlockHeader} {block : Bytes}
    (hh : info.hash w.crypto .WithSeal = info.m_hash) :
    (info.parentHash ∈ q.m_knownBad ∧ (file w bc q info info.m_hash block).2 =
      (q.condemn info.m_hash).updateBad w info.m_hash) ∨
    (info.parentHash ∉ q.m_knownBad ∧ info.parentHash ∉ q.m_readySet ∧
      info.parentHash ∉ q.m_drainingSet ∧
      (file w bc q info info.m_hash block).2 = q.await info block) ∨
    (info.parentHash ∉ q.m_knownBad ∧ parentAtHand w bc q info.parentHash = true ∧
      (file w bc q info info.m_hash block).2 = (q.takeIn info block).noteReady info.m_hash) := by
  unfold file
  simp only
  split
  · rename_i hbad
    rw [hh]
    exact .inl ⟨hbad, rfl⟩
  · rename_i hbad
    split
    · rename_i hp
      simp only [parentAtHand, Bool.not_eq_true', decide_eq_false_iff_not, not_or] at hp
      exact .inr (.inl ⟨hbad, hp.1, hp.2.1, rfl⟩)
    · rename_i hp
      exact .inr (.inr ⟨hbad, by simpa using hp, rfl⟩)

theorem view_condemn (c : Crypto) (q : BlockQueue) (h : H256) :
    (q.condemn h).view c = (q.view c).condemn {h} := by
  simp only [view, condemn, Intake.State.condemn, Finset.union_comm _ {h}, Finset.insert_eq]

theorem view_await (c : Crypto) (q : BlockQueue) (info : BlockHeader) (block : Bytes) :
    (q.await info block).view c = (q.view c).wait ⟨info.m_hash, info.parentHash⟩ := by
  have hperm := (q.m_unknown.insert_perm info.parentHash info.m_hash block).map unknownItem
  have hwait : (↑((q.m_unknown.insert info.parentHash info.m_hash block).m_map.map unknownItem) :
      Multiset (Item H256)) =
      ⟨info.m_hash, info.parentHash⟩ ::ₘ ↑(q.m_unknown.m_map.map unknownItem) := by
    rw [Multiset.cons_coe, Multiset.coe_eq_coe]
    exact hperm
  simp only [view, await, Intake.State.wait, hwait]

theorem view_takeIn (c : Crypto) (q : BlockQueue) (info : BlockHeader) (block : Bytes) :
    (q.takeIn info block).view c = (q.view c).arrive ⟨info.m_hash, info.parentHash⟩ := by
  simp [view, takeIn, Intake.State.arrive, SizedBlockQueue.enqueue, UnverifiedBlock.item]

theorem files_of_holds {info : BlockHeader} {block : Bytes} (h : B.Holds block info) :
    B.Files block ⟨info.m_hash, info.parentHash⟩ := ⟨info, h, rfl⟩

theorem Shaped.await (hq : q.Shaped B) {info : BlockHeader} {block : Bytes}
    (h : B.Holds block info) : (q.await info block).Shaped B :=
  { hq with
    unknown := by
      intro e he
      have hmem := (q.m_unknown.insert_perm info.parentHash info.m_hash block).mem_iff.1 he
      rcases List.mem_cons.1 hmem with rfl | hmem
      · exact files_of_holds h
      · exact hq.unknown e hmem }

theorem Shaped.takeIn (hq : q.Shaped B) {info : BlockHeader} {block : Bytes}
    (h : B.Holds block info) : (q.takeIn info block).Shaped B :=
  { hq with
    unverified := by
      intro u hu
      rcases List.mem_append.1 hu with hu | hu
      · exact hq.unverified u hu
      · rw [List.mem_singleton.1 hu]
        exact files_of_holds h }

theorem shaped_empty (B : QueueBlocks w) : Shaped B .empty :=
  ⟨by simp [empty, SizedBlockQueue.empty], by simp [empty, SizedBlockQueue.empty],
    by simp [empty, SizedBlockQueue.empty], by simp [empty, SizedBlockMap.empty],
    by simp [empty, SizedBlockMap.empty]⟩

theorem Shaped.insertFuture (hq : q.Shaped B) {info : BlockHeader} {block : Bytes}
    (h : B.Holds block info) (difficulty : U256) :
    Shaped B { q with m_future := q.m_future.insert info.timestamp info.m_hash block
                      m_difficulty := difficulty } :=
  { hq with
    future := by
      intro e he
      have hmem := (q.m_future.insert_perm info.timestamp info.m_hash block).mem_iff.1 he
      rcases List.mem_cons.1 hmem with rfl | hmem
      · exact ⟨info, h, rfl⟩
      · exact hq.future e hmem }

theorem Shaped.tick (hq : q.Shaped B) (now : ℤ) :
    Shaped B { q with m_future := (q.m_future.removeByKeyNotGreater now).2 } :=
  { hq with future := fun e he => hq.future e (List.mem_of_mem_filter he) }

theorem Shaped.drain (hq : q.Shaped B) (max : ℕ) : (q.drain w max).2.Shaped B := by
  unfold BlockQueue.drain
  split
  · exact { hq with verified := fun e he => hq.verified e (List.mem_of_mem_drop he) }
  · exact hq

/-- The queue once blocks that waited for these hashes are ready. -/
theorem view_noteReady (c : Crypto) (q : BlockQueue) (good : H256) :
    ∃ out stay, Intake.Released [good] (q.view c).waiting out stay ∧
      (q.noteReady good).view c = (q.view c).release out stay := by
  obtain ⟨out, stay, n, n', hR, heq⟩ := noteReady_eq q good
  refine ⟨out.map unknownItem, ↑(stay.map unknownItem), released_items hR, ?_⟩
  rw [heq, view_makeReady]

theorem Shaped.noteReady (hq : q.Shaped B) (good : H256) : (q.noteReady good).Shaped B := by
  obtain ⟨out, stay, n, n', hR, heq⟩ := noteReady_eq q good
  rw [heq]
  exact hq.makeReady (mem_of_released hR).1 (mem_of_released hR).2 n n'

theorem view_retryAllUnknown (c : Crypto) (q : BlockQueue) :
    ∃ out : List (Item H256), (q.view c).waiting = (↑out : Multiset (Item H256)) + 0 ∧
      q.retryAllUnknown.view c = (q.view c).release out 0 := by
  obtain ⟨out, n, n', hperm, heq⟩ := retryAllUnknown_eq q
  refine ⟨out.map unknownItem, ?_, ?_⟩
  · rw [add_zero]
    exact Multiset.coe_eq_coe.2 (hperm.map unknownItem).symm
  · rw [heq, view_makeReady]
    rfl

theorem Shaped.retryAllUnknown (hq : q.Shaped B) : q.retryAllUnknown.Shaped B := by
  obtain ⟨out, n, n', hperm, heq⟩ := retryAllUnknown_eq q
  rw [heq]
  exact hq.makeReady hperm.subset (List.nil_subset _) n n'

/-- What waited for a block that is bad is gone. -/
theorem settled_collectUnknownBad {c : Crypto} {bad : H256}
    (h : (q.view c).SettledBut [bad]) : ((q.collectUnknownBad bad).view c).Settled := by
  obtain ⟨out, stay, hR, hview⟩ := view_collectUnknownBad c q bad
  rw [hview]
  exact h.collect hR

/-! ## The end of a draining -/

/-- The drained blocks are done with, and some of them bad. -/
def settle (q : BlockQueue) (bad : List H256) : BlockQueue :=
  { q with m_drainingSet := ∅, m_difficulty := q.m_difficulty - q.m_drainingDifficulty
           m_drainingDifficulty := 0, m_knownBad := q.m_knownBad ∪ bad.toFinset }

theorem doneDrain_eq (w : World) (q : BlockQueue) (bad : List H256) :
    (q.doneDrain w bad).2 = bad.foldl (updateBad w) (q.settle bad) := rfl

theorem view_settle (c : Crypto) (q : BlockQueue) (bad : List H256) :
    (q.settle bad).view c = (q.view c).done bad.toFinset := rfl

/-- All the blocks that are removed for these are at the ends of the queues when they are. -/
def UpdatesAtEnd (w : World) : List H256 → BlockQueue → Prop
  | [], _ => True
  | b :: bad, q => UpdateAtEnd w q b ∧ UpdatesAtEnd w bad (q.updateBad w b)

theorem passed_updates {reported : Finset H256} : ∀ {bad : List H256} {q : BlockQueue},
    q.Good B reported → (∀ b ∈ bad, b ∈ q.m_knownBad) → UpdatesAtEnd w bad q →
      Passed B q (bad.foldl (updateBad w) q)
  | [], _, hq, _, _ => .refl hq.shaped
  | b :: bad, q, hq, hbad, h => by
    obtain ⟨hb, hbad⟩ := List.forall_mem_cons.1 hbad
    have hp := passed_updateBad hq hb h.1
    exact hp.trans (passed_updates (hq.moved hp.toMoved) (fun x hx => hp.bad (hbad x hx)) h.2)

/-! ## Verification -/

theorem dequeue_eq_some {T : Type} [BlockEntry T] {s rest : SizedBlockQueue T} {t : T}
    (h : s.dequeue = some (t, rest)) : s.m_queue = t :: rest.m_queue := by
  unfold SizedBlockQueue.dequeue at h
  split at h
  · cases h
  · rename_i t' l hl
    cases h
    exact hl

/-- A verified block takes the place of its entry at the front of `m_verifying`, or is bad. -/
theorem moved_publish (hm : (q.view w.crypto).Member) (hs : q.Shaped B)
    {rest : SizedBlockQueue QueuedBlock} {e b : QueuedBlock}
    (hrest : q.m_verifying.m_queue = e :: rest.m_queue) (hb : b.Finished B)
    (heb : b.item w.crypto = e.verifyingItem w.crypto) :
    Moved B q (publish w { q with m_verifying := rest } b) ∧
      (publish w { q with m_verifying := rest } b).m_verifying = rest := by
  have hverifying : ∀ x ∈ rest.m_queue, x.Finished B ∨ x.Taken B := fun x hx =>
    hs.verifying x (by rw [hrest]; exact List.mem_cons_of_mem _ hx)
  unfold publish
  simp only
  split
  · rename_i hbad
    refine ⟨⟨?_, ?_, Finset.subset_insert _ _, rfl, rfl, rfl, rfl⟩, rfl⟩
    · have hline : (q.view w.crypto).line = q.m_verified.m_queue.map (QueuedBlock.item w.crypto) ++
          b.item w.crypto :: (rest.m_queue.map (QueuedBlock.verifyingItem w.crypto) ++
            q.m_unverified.m_queue.map UnverifiedBlock.item) := by
        simp [view, hrest, heb]
      have hdrop : Intake.State.Spoil (q.view w.crypto)
          ((q.view w.crypto).drop {(b.item w.crypto).name}) := by
        apply Intake.State.Spoil.drop
        · intro k hk
          rw [Finset.mem_singleton.1 hk, hline]
          exact ⟨b.item w.crypto, by simp, rfl⟩
        · intro x hx hk
          left
          have hbmem : b.item w.crypto ∈ (q.view w.crypto).line := by
            rw [hline]
            simp
          have hxb := List.inj_on_of_nodup_map hm.nodup hx hbmem (Finset.mem_singleton.1 hk)
          rw [hxb]
          exact hbad
      rw [hm.drop_one hline] at hdrop
      exact Relation.ReflTransGen.single hdrop
    · exact { hs with verifying := hverifying }
  · refine ⟨⟨?_, ?_, subset_rfl, rfl, rfl, rfl, rfl⟩, rfl⟩
    · have hview : ({ q with m_verifying := rest, m_verified := q.m_verified.enqueue b } :
          BlockQueue).view w.crypto = q.view w.crypto := by
        simp [view, SizedBlockQueue.enqueue, hrest, heb]
      rw [hview]
    · exact { hs with
        verified := by
          intro x hx
          rcases List.mem_append.1 hx with hx | hx
          · exact hs.verified x hx
          · rw [List.mem_singleton.1 hx]
            exact hb
        verifying := hverifying }

/-- An entry with bytes is finished. -/
theorem Shaped.finished (hs : q.Shaped B) {b : QueuedBlock} (hb : b ∈ q.m_verifying.m_queue)
    (hdata : b.blockData ≠ []) : b.Finished B := by
  rcases hs.verifying b hb with hb | ⟨d, x, -, rfl⟩
  · exact hb
  · exact absurd rfl hdata

theorem passed_drainVerified_go (fuel : ℕ) {reported : Finset H256} (hq : q.Good B reported) :
    Passed B q (drainVerified.go w fuel q) := by
  induction fuel generalizing q with
  | zero => exact .refl hq.shaped
  | succ fuel ih =>
    unfold drainVerified.go
    split
    · exact .refl hq.shaped
    · rename_i b rest hdeq
      have hrest := dequeue_eq_some hdeq
      split
      · exact .refl hq.shaped
      · rename_i hdata
        have hb : b.Finished B :=
          hq.shaped.finished (by rw [hrest]; exact List.mem_cons_self) hdata
        obtain ⟨hp, hv⟩ := moved_publish hq.member hq.shaped hrest hb hb.verifyingItem_eq.symm
        have hpass : Passed B q (publish w { q with m_verifying := rest } b) := by
          refine ⟨hp, fun h p hh => .inl ?_⟩
          rw [hrest] at hh
          rw [hv]
          rcases List.mem_cons.1 hh with rfl | hh
          · exact absurd rfl hdata
          · exact hh
        exact hpass.trans (ih (hq.moved hp))

theorem passed_drainVerified {reported : Finset H256} (hq : q.Good B reported) :
    Passed B q (q.drainVerified w) :=
  passed_drainVerified_go _ hq

/-- The entry that a verifier looks for is the one it made. -/
theorem Shaped.verifying_eq (hs : q.Shaped B) {work : UnverifiedBlock}
    (hw : B.Files work.blockData work.item) {e : QueuedBlock} (he : e ∈ q.m_verifying.m_queue)
    (h : e.info.sha3Uncles = work.hash) : e = .pending work.hash work.parentHash := by
  rcases hs.verifying e he with hf | ⟨d, x, hx, rfl⟩
  · exact absurd h (hf.sha3Uncles_ne hw)
  · have hxw : x = work.item := hx.eq_of_name hw h
    rw [hxw]
    rfl

/-- A verifier is at work on a block of the queue, unless that has turned out bad. -/
def AtWork (q : BlockQueue) (work : UnverifiedBlock) : Prop :=
  QueuedBlock.pending work.hash work.parentHash ∈ q.m_verifying.m_queue ∨ work.hash ∈ q.m_knownBad

/-- The queue when a block has failed its verification. -/
def fail (q : BlockQueue) (work : UnverifiedBlock) : BlockQueue :=
  { q with m_readySet := q.m_readySet.erase work.hash
           m_knownBad := insert work.hash q.m_knownBad
           m_verifying := (q.m_verifying.removeIf (·.info.sha3Uncles = work.hash)).2 }

theorem view_fail (hm : (q.view w.crypto).Member) (hs : q.Shaped B) {work : UnverifiedBlock}
    (hw : B.Files work.blockData work.item) (hat : q.AtWork work) :
    (q.fail work).view w.crypto = (q.view w.crypto).drop {work.hash} := by
  set p : QueuedBlock → Bool := fun e => e.info.sha3Uncles = work.hash with hpdef
  have hfilter := Intake.filter_part (QueuedBlock.verifyingItem w.crypto) p hm.nodup
  have hp : ∀ e ∈ q.m_verifying.m_queue, p e = true → e = .pending work.hash work.parentHash := by
    intro e he hpe
    exact hs.verifying_eq hw he (by simpa [hpdef] using hpe)
  have hline : (q.view w.crypto).line.filter (·.name ∉ ({work.hash} : Finset H256)) =
      q.m_verified.m_queue.map (QueuedBlock.item w.crypto) ++
        ((q.m_verifying.m_queue.filter (!p ·)).map (QueuedBlock.verifyingItem w.crypto) ++
          q.m_unverified.m_queue.map UnverifiedBlock.item) := by
    rw [← hfilter]
    apply List.filter_congr
    intro x hx
    apply decide_eq_decide.2
    rw [not_iff_not, Finset.mem_singleton, List.mem_toFinset, List.mem_map]
    constructor
    · intro hxw
      rcases hat with hpend | hbad
      · exact ⟨_, List.mem_filter.2 ⟨hpend, by simp [hpdef]⟩, hxw.symm⟩
      · -- a bad block is not in the line
        exfalso
        apply Finset.disjoint_left.1 hm.ready_bad (hm.mem_ready.2 ⟨x, hx, hxw⟩)
        exact hbad
    · rintro ⟨e, he, hex⟩
      obtain ⟨he, hpe⟩ := List.mem_filter.1 he
      rw [← hex, hp e he hpe]
      rfl
  have hkept := removeIf_snd_m_queue q.m_verifying p
  rw [Intake.State.drop, hline]
  simp only [view, fail, hkept, Finset.erase_eq, Finset.insert_eq, Finset.union_comm _ {work.hash},
    ← hpdef]

theorem Shaped.fail (hs : q.Shaped B) (work : UnverifiedBlock) : (q.fail work).Shaped B :=
  { hs with
    verifying := by
      intro e he
      apply hs.verifying e
      change e ∈ (q.m_verifying.removeIf _).2.m_queue at he
      rw [removeIf_snd_m_queue] at he
      exact List.mem_of_mem_filter he }

theorem finishVerifying_error {bc : BlockChain} {work : UnverifiedBlock} {now : ℤ} {x : Exception}
    (h : verifyBytes w bc work.blockData .OutOfOrderChecks now = .error x) :
    q.finishVerifying w bc work now = (q.fail work).drainVerified w := by
  unfold finishVerifying
  rw [h]
  rfl

/-- A verified block waits in the place of its entry for those before it. -/
theorem replace_cases (hs : q.Shaped B) {work : UnverifiedBlock}
    (hw : B.Files work.blockData work.item) {b : QueuedBlock} (hb : b.Finished B)
    (hitem : b.item w.crypto = work.item) :
    let q' : BlockQueue :=
      { q with m_verifying := q.m_verifying.replace (·.info.sha3Uncles = work.hash) b }
    q'.view w.crypto = q.view w.crypto ∧ q'.Shaped B ∧
      ∀ h p, h ≠ work.hash → QueuedBlock.pending h p ∈ q.m_verifying.m_queue →
        QueuedBlock.pending h p ∈ q'.m_verifying.m_queue := by
  unfold SizedBlockQueue.replace
  split
  · exact ⟨rfl, hs, fun _ _ _ hmem => hmem⟩
  · rename_i old hold
    have hsplit := SizedBlockQueue.find_split q.m_verifying.m_queue _ hold
    have hpend : old = .pending work.hash work.parentHash := by
      apply hs.verifying_eq hw (List.mem_of_find?_eq_some hold)
      simpa using List.find?_some hold
    set pre := q.m_verifying.m_queue.takeWhile fun e => !decide (e.info.sha3Uncles = work.hash)
    set suf := (q.m_verifying.m_queue.dropWhile fun e =>
      !decide (e.info.sha3Uncles = work.hash)).tail
    have hbv : b.verifyingItem w.crypto = (QueuedBlock.pending work.hash work.parentHash).verifyingItem
        w.crypto := by
      rw [hb.verifyingItem_eq, hitem]
      rfl
    refine ⟨?_, ?_, fun k p hk hmem => ?_⟩
    · have hline : (pre ++ b :: suf).map (QueuedBlock.verifyingItem w.crypto) =
          q.m_verifying.m_queue.map (QueuedBlock.verifyingItem w.crypto) := by
        rw [hsplit, hpend]
        simp only [List.map_append, List.map_cons, hbv]
      simp only [view, hline]
    · exact { hs with
        verifying := by
          intro x hx
          rcases List.mem_append.1 hx with hx | hx
          · apply hs.verifying
            rw [hsplit]
            exact List.mem_append_left _ hx
          · rcases List.mem_cons.1 hx with rfl | hx
            · exact .inl hb
            · apply hs.verifying
              rw [hsplit]
              exact List.mem_append_right _ (List.mem_cons_of_mem _ hx) }
    · rw [hsplit, hpend] at hmem
      change _ ∈ pre ++ b :: suf
      rcases List.mem_append.1 hmem with hmem | hmem
      · exact List.mem_append_left _ hmem
      · rcases List.mem_cons.1 hmem with heq | hmem
        · exact absurd (congrArg (fun e : QueuedBlock => e.info.sha3Uncles) heq) hk
        · exact List.mem_append_right _ (List.mem_cons_of_mem _ hmem)

/-- A verified block takes the place of its entry, or is bad. -/
theorem moved_finishVerifying {reported : Finset H256} (hq : q.Good B reported) {bc : BlockChain}
    {work : UnverifiedBlock} {now : ℤ} {vb : VerifiedBlock}
    (hw : B.Files work.blockData work.item)
    (h : verifyBytes w bc work.blockData .OutOfOrderChecks now = .ok vb) :
    Moved B q (q.finishVerifying w bc work now) ∧
      ∀ h p, h ≠ work.hash → QueuedBlock.pending h p ∈ q.m_verifying.m_queue →
        QueuedBlock.pending h p ∈ (q.finishVerifying w bc work now).m_verifying.m_queue ∨
          h ∈ (q.finishVerifying w bc work now).m_knownBad := by
  have hb : (⟨vb, work.blockData⟩ : QueuedBlock).Finished B := by
    obtain ⟨info, ⟨hd, -⟩, -⟩ := hw
    exact verifyBytes_holds hd h
  have hitem : (⟨vb, work.blockData⟩ : QueuedBlock).item w.crypto = work.item := hb.files.unique hw
  unfold finishVerifying
  rw [h]
  simp only
  split
  · rename_i e rest hdeq
    have hrest := dequeue_eq_some hdeq
    have he : e ∈ q.m_verifying.m_queue := by
      rw [hrest]
      exact List.mem_cons_self
    split
    · -- it is next
      rename_i hnext
      have hpend := hq.shaped.verifying_eq hw he hnext
      have hev : (⟨vb, work.blockData⟩ : QueuedBlock).item w.crypto = e.verifyingItem w.crypto := by
        rw [hitem, hpend]
        rfl
      obtain ⟨hp, hv⟩ := moved_publish hq.member hq.shaped hrest hb hev
      have hd := passed_drainVerified (hq.moved hp)
      refine ⟨hp.trans hd.toMoved, fun k p hk hmem => ?_⟩
      rw [hrest, hpend] at hmem
      rcases List.mem_cons.1 hmem with heq | hmem
      · exact absurd (congrArg (fun e : QueuedBlock => e.info.sha3Uncles) heq) hk
      · apply hd.pending
        rw [hv]
        exact hmem
    · obtain ⟨hview, hshaped, hpending⟩ := replace_cases hq.shaped hw hb hitem
      refine ⟨⟨?_, hshaped, subset_rfl, rfl, rfl, rfl, rfl⟩, fun k p hk hmem => ?_⟩
      · rw [hview]
      · exact .inl (hpending k p hk hmem)
  · exact ⟨.refl hq.shaped, fun _ _ _ hmem => .inl hmem⟩

/-- A verifier leaves an entry in place of the block it takes. -/
theorem startVerifying_cases {work : UnverifiedBlock} (h : q.startVerifying = some (work, q')) :
    work ∈ q.m_unverified.m_queue ∧ q'.view w.crypto = q.view w.crypto ∧
      q'.m_verifying.m_queue =
        q.m_verifying.m_queue ++ [QueuedBlock.pending work.hash work.parentHash] ∧
      (q.Shaped B → q'.Shaped B) ∧ q'.m_future = q.m_future ∧ q'.m_difficulty = q.m_difficulty ∧
      q'.m_drainingDifficulty = q.m_drainingDifficulty := by
  unfold startVerifying at h
  split at h
  · cases h
  · rename_i u rest hdeq
    cases h
    have hrest := dequeue_eq_some hdeq
    have hmem : work ∈ q.m_unverified.m_queue := by
      rw [hrest]
      exact List.mem_cons_self
    refine ⟨hmem, ?_, rfl, fun hs => ?_, rfl, rfl, rfl⟩
    · simp only [view, SizedBlockQueue.enqueue, hrest, List.map_append, List.map_cons, List.map_nil,
        List.append_assoc, List.cons_append, List.nil_append]
      rfl
    · exact { hs with
        verifying := by
          intro e he
          rcases List.mem_append.1 he with he | he
          · exact hs.verifying e he
          · rw [List.mem_singleton.1 he]
            exact .inr ⟨work.blockData, work.item, hs.unverified work hmem, rfl⟩
        unverified := fun u hu => hs.unverified u (by rw [hrest]; exact List.mem_cons_of_mem _ hu) }

theorem startVerifying_verified {work : UnverifiedBlock} (h : q.startVerifying = some (work, q')) :
    q'.m_verified = q.m_verified := by
  unfold startVerifying at h
  split at h
  · cases h
  · cases h
    rfl

/-- The blocks at the front of the line are handed out, unless some still are. -/
theorem view_drain (w : World) (q : BlockQueue) (max : ℕ) :
    (q.m_drainingSet ≠ ∅ ∧ q.drain w max = ([], q)) ∨
    (q.m_drainingSet = ∅ ∧ ∃ n, (q.drain w max).1.map (QueuedBlock.item w.crypto) =
        (q.view w.crypto).line.take n ∧
      (q.drain w max).2.view w.crypto = (q.view w.crypto).handOut n) := by
  unfold drain
  split
  · rename_i hd
    refine .inr ⟨hd, (q.m_verified.m_queue.take max).length, ?_⟩
    have hline : (q.view w.crypto).line =
        (q.m_verified.m_queue.take max).map (QueuedBlock.item w.crypto) ++
          ((q.m_verified.m_queue.drop max).map (QueuedBlock.item w.crypto) ++
            (q.m_verifying.m_queue.map (QueuedBlock.verifyingItem w.crypto) ++
              q.m_unverified.m_queue.map UnverifiedBlock.item)) := by
      rw [← List.append_assoc, ← List.map_append, List.take_append_drop]
      rfl
    have hlen : ((q.m_verified.m_queue.take max).map (QueuedBlock.item w.crypto)).length =
        (q.m_verified.m_queue.take max).length := List.length_map _
    have htake : (q.view w.crypto).line.take (q.m_verified.m_queue.take max).length =
        (q.m_verified.m_queue.take max).map (QueuedBlock.item w.crypto) := by
      rw [hline, List.take_left' hlen]
    have hdrop : (q.view w.crypto).line.drop (q.m_verified.m_queue.take max).length =
        (q.m_verified.m_queue.drop max).map (QueuedBlock.item w.crypto) ++
          (q.m_verifying.m_queue.map (QueuedBlock.verifyingItem w.crypto) ++
            q.m_unverified.m_queue.map UnverifiedBlock.item) := by
      rw [hline, List.drop_left' hlen]
    refine ⟨htake.symm, ?_⟩
    rw [Intake.State.handOut, htake, hdrop]
    simp only [view, SizedBlockQueue.dequeueMultiple, Intake.names, List.map_map]
    rfl
  · rename_i hd
    exact .inl ⟨hd, rfl⟩

end BlockQueue

end Petrachor
