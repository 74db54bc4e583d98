import Petrachor.BlockQueue.Thins

/-!
# What the queue drains

In every run, whatever the queue takes for bad, no block is in it twice, and a block that is drained
is one that was verified and is in the queue no more.
-/

namespace Petrachor

variable {w : World} {B : QueueBlocks w} {s : QueueState}

namespace QueueState

structure Distinct (B : QueueBlocks w) (s : QueueState) : Prop where
  apart : (s.queue.view w.crypto).Apart
  shaped : s.queue.Shaped B
  matched : s.queue.Matched w.crypto
  works_files : ∀ u ∈ s.works, B.Files u.blockData u.item

theorem distinct_empty (B : QueueBlocks w) : Distinct B .empty where
  apart := Intake.State.apart_empty ∅
  shaped := BlockQueue.shaped_empty B
  matched := by
    intro e he
    rcases he with he | he
    · cases he
    · cases he
  works_files := by
    intro u hu
    cases hu

theorem Distinct.thins (hs : s.Distinct B) {q : BlockQueue} (h : BlockQueue.Thins B s.queue q) :
    Distinct B { s with queue := q } where
  apart := hs.apart.thinner h.thinner h.known
  shaped := h.shaped hs.shaped
  matched := h.matched hs.matched
  works_files := hs.works_files

theorem Distinct.noteReady (hs : s.Distinct B) (good : H256) :
    Distinct B { s with queue := s.queue.noteReady good } := by
  obtain ⟨out, stay, hR, hview⟩ := BlockQueue.view_noteReady w.crypto s.queue good
  obtain ⟨_, _, _, _, -, heq⟩ := BlockQueue.noteReady_eq s.queue good
  refine ⟨?_, hs.shaped.noteReady good, ?_, hs.works_files⟩
  · rw [hview]
    exact hs.apart.release hR.eq
  · rw [heq]
    exact hs.matched

theorem Distinct.retryAllUnknown (hs : s.Distinct B) :
    Distinct B { s with queue := s.queue.retryAllUnknown } := by
  obtain ⟨out, hout, hview⟩ := BlockQueue.view_retryAllUnknown w.crypto s.queue
  obtain ⟨_, _, _, -, heq⟩ := BlockQueue.retryAllUnknown_eq s.queue
  refine ⟨?_, hs.shaped.retryAllUnknown, ?_, hs.works_files⟩
  · rw [hview]
    exact hs.apart.release hout
  · rw [heq]
    exact hs.matched

theorem Distinct.importBlock (hs : s.Distinct B) (bc : BlockChain) {block : Bytes}
    (hd : block ∈ B.carrier) (isOurs : Bool) (now : ℤ) :
    Distinct B (step w s (.importBlock bc block isOurs now)) := by
  change Distinct B { s with queue := (s.queue.importBlock w bc block isOurs now).2 }
  rcases BlockQueue.importBlock_cases hd isOurs now with heq | ⟨info, hinfo, heq⟩ |
    ⟨info, hinfo, harr, heq⟩
  · rw [heq]
    exact hs
  · rw [heq]
    exact ⟨hs.apart, hs.shaped.insertFuture hinfo _, hs.matched, hs.works_files⟩
  · rw [heq]
    rcases BlockQueue.file_cases hinfo.hash_eq with ⟨-, hfile⟩ | ⟨-, -, -, hfile⟩ | ⟨-, -, hfile⟩
    · rw [hfile]
      exact hs.thins ((BlockQueue.thins_condemn _ _).trans (BlockQueue.thins_updateBad _ _))
    · rw [hfile]
      refine ⟨?_, hs.shaped.await hinfo, hs.matched, hs.works_files⟩
      rw [BlockQueue.view_await]
      exact hs.apart.wait harr.new
    · rw [hfile]
      have htaken : Distinct B { s with queue := s.queue.takeIn info block } := by
        refine ⟨?_, hs.shaped.takeIn hinfo, hs.matched, hs.works_files⟩
        rw [BlockQueue.view_takeIn]
        exact hs.apart.arrive harr.new
      exact htaken.noteReady info.m_hash

theorem Distinct.startVerifying (hs : s.Distinct B) : Distinct B (step w s .startVerifying) := by
  unfold step
  simp only
  split
  · exact hs
  · rename_i work q hq
    obtain ⟨hmem, hview, hverifying, hshaped, -⟩ := BlockQueue.startVerifying_cases (w := w) (B := B) hq
    refine ⟨?_, hshaped hs.shaped, ?_, ?_⟩
    · rw [hview]
      exact hs.apart
    · have hverified : q.m_verified = s.queue.m_verified := BlockQueue.startVerifying_verified hq
      intro e he hdata
      rcases he with he | he
      · rw [hverified] at he
        exact hs.matched e (.inl he) hdata
      · rw [hverifying] at he
        rcases List.mem_append.1 he with he | he
        · exact hs.matched e (.inr he) hdata
        · rw [List.mem_singleton.1 he] at hdata
          exact absurd rfl hdata
    · intro u hu
      rcases List.mem_append.1 hu with hu | hu
      · exact hs.works_files u hu
      · rw [List.mem_singleton.1 hu]
        exact hs.shaped.unverified work hmem

theorem Distinct.finishVerifying (hs : s.Distinct B) (bc : BlockChain) (i : ℕ) (now : ℤ) :
    Distinct B (step w s (.finishVerifying bc i now)) := by
  unfold step
  simp only
  split
  · exact hs
  · rename_i work hi
    have hthin : BlockQueue.Thins B s.queue _ := BlockQueue.thins_finishVerifying hs.shaped bc now
      (hs.works_files work (List.mem_of_getElem? hi))
    exact { hs.thins hthin with
      works_files := fun u hu => hs.works_files u (List.mem_of_mem_eraseIdx hu) }

theorem Distinct.drain (hs : s.Distinct B) (max : ℕ) : Distinct B (step w s (.drain max)) := by
  change Distinct B { s with queue := (s.queue.drain w max).2 }
  rcases BlockQueue.view_drain w s.queue max with ⟨-, heq⟩ | ⟨hempty, n, -, hview⟩
  · rw [heq]
    exact hs
  · refine ⟨?_, hs.shaped.drain max, ?_, hs.works_files⟩
    · rw [hview]
      exact hs.apart.handOut n
    · unfold BlockQueue.drain
      rw [if_pos hempty]
      exact hs.matched.anti (List.drop_subset _ _) fun _ h => h

/-- Every step. -/
theorem Distinct.step (hs : s.Distinct B) {op : QueueOp} (hB : op.Within B) :
    Distinct B (step w s op) := by
  cases op with
  | importBlock bc block isOurs now => exact hs.importBlock bc hB isOurs now
  | tick now => exact ⟨hs.apart, hs.shaped.tick now, hs.matched, hs.works_files⟩
  | noteReady good => exact hs.noteReady good
  | startVerifying => exact hs.startVerifying
  | finishVerifying bc i now => exact hs.finishVerifying bc i now
  | drain max => exact hs.drain max
  | doneDrain bad => exact { hs.thins (BlockQueue.thins_doneDrain _ bad) with }
  | retryAllUnknown => exact hs.retryAllUnknown
  | clear =>
    have hempty := distinct_empty B
    exact ⟨Intake.State.apart_empty s.queue.m_knownBad, { hempty.shaped with }, hempty.matched,
      hs.works_files⟩

/-- Every run. -/
theorem distinct_run {ops : List QueueOp}
    (h : StateRun.Along (QueueState.step w) (fun _ op => op.Within B) .empty ops) :
    Distinct B (StateRun.run (QueueState.step w) .empty ops) := by
  apply StateRun.invariant (Distinct B) _ (distinct_empty B) h
  intro s op hs hop
  exact hs.step hop

end QueueState

end Petrachor
