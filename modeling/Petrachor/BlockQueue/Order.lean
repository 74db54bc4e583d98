import Petrachor.BlockQueue.Devnet
import Petrachor.BlockQueue.Thins

/-!
# The order in which the queue hands out its blocks

Verifiers finish in any order, but every entry keeps its place, and whatever is removed for being bad
leaves the order of the rest as it was. So a block stands after its parent as long as no block comes
in after its child.
-/

namespace Petrachor

variable {w : World} {B : QueueBlocks w} {q : BlockQueue}

/-! ## Steps and runs -/

/-- A block that is filed has no child in the queues, nor a parent that is at hand and waits all the
same; what waits is not called ready, and not retried. -/
def QueueOp.InOrder (w : World) (s : QueueState) : QueueOp → Prop
  | .importBlock bc block isOurs now => ∀ info,
      BlockQueue.Arrives w bc s.queue block isOurs now info →
        info.parentHash ∉ s.queue.m_knownBad →
          (∀ x ∈ (s.queue.view w.crypto).line, x.after ≠ info.m_hash) ∧
            (BlockQueue.parentAtHand w bc s.queue info.parentHash = true →
              info.parentHash ∉ s.queue.m_unknownSet)
  | .noteReady good => good ∉ s.queue.m_unknownSet
  | .retryAllUnknown => False
  | _ => True

namespace QueueState

structure Sorted (B : QueueBlocks w) (s : QueueState) : Prop where
  ordered : (s.queue.view w.crypto).Ordered
  shaped : s.queue.Shaped B
  works_files : ∀ u ∈ s.works, B.Files u.blockData u.item

theorem sorted_empty (B : QueueBlocks w) : Sorted B .empty where
  ordered := by
    constructor
    · exact List.Pairwise.nil
    · intro x hx
      cases hx
    · exact List.nodup_nil
    · intro y hy
      cases hy
  shaped := BlockQueue.shaped_empty B
  works_files := by
    intro u hu
    cases hu

variable {s : QueueState}

theorem Sorted.thins (hs : s.Sorted B) {q : BlockQueue} (h : BlockQueue.Thins B s.queue q) :
    Sorted B { s with queue := q } :=
  ⟨hs.ordered.thinner h.thinner, h.shaped hs.shaped, hs.works_files⟩

/-- Blocks that waited for a block that does not wait itself are ready. -/
theorem Sorted.noteReady (hs : s.Sorted B) {good : H256} (h : good ∉ s.queue.m_unknownSet) :
    Sorted B { s with queue := s.queue.noteReady good } := by
  obtain ⟨out, stay, hR, hview⟩ := BlockQueue.view_noteReady w.crypto s.queue good
  refine ⟨?_, hs.shaped.noteReady good, hs.works_files⟩
  rw [hview]
  apply hs.ordered.release hR
  intro k hk
  rw [List.mem_singleton.1 hk]
  exact h

theorem Sorted.importBlock (hs : s.Sorted B) {bc : BlockChain} {block : Bytes}
    (hd : block ∈ B.carrier) {isOurs : Bool} {now : ℤ}
    (h : QueueOp.InOrder w s (.importBlock bc block isOurs now)) :
    Sorted B (step w s (.importBlock bc block isOurs now)) := by
  change Sorted B { s with queue := (s.queue.importBlock w bc block isOurs now).2 }
  rcases BlockQueue.importBlock_cases hd isOurs now with heq | ⟨info, hinfo, heq⟩ |
    ⟨info, hinfo, harr, heq⟩
  · rw [heq]
    exact hs
  · rw [heq]
    exact ⟨hs.ordered, hs.shaped.insertFuture hinfo _, hs.works_files⟩
  · rw [heq]
    rcases BlockQueue.file_cases hinfo.hash_eq with ⟨-, hfile⟩ | ⟨hbad, -, -, hfile⟩ |
      ⟨hbad, hat, hfile⟩
    · rw [hfile]
      exact hs.thins ((BlockQueue.thins_condemn _ _).trans (BlockQueue.thins_updateBad _ _))
    · obtain ⟨hchild, -⟩ := h info harr hbad
      rw [hfile]
      refine ⟨?_, hs.shaped.await hinfo, hs.works_files⟩
      rw [BlockQueue.view_await]
      exact hs.ordered.wait hchild harr.new.unknown
    · obtain ⟨hchild, hparent⟩ := h info harr hbad
      rw [hfile]
      have htaken : Sorted B { s with queue := s.queue.takeIn info block } := by
        refine ⟨?_, hs.shaped.takeIn hinfo, hs.works_files⟩
        rw [BlockQueue.view_takeIn]
        exact hs.ordered.arrive hchild (hparent hat)
      exact htaken.noteReady harr.new.unknown

theorem Sorted.startVerifying (hs : s.Sorted B) : Sorted B (step w s .startVerifying) := by
  unfold step
  simp only
  split
  · exact hs
  · rename_i work q hq
    obtain ⟨hmem, hview, -, hshaped, -⟩ := BlockQueue.startVerifying_cases (w := w) (B := B) hq
    refine ⟨?_, hshaped hs.shaped, ?_⟩
    · rw [hview]
      exact hs.ordered
    · intro u hu
      rcases List.mem_append.1 hu with hu | hu
      · exact hs.works_files u hu
      · rw [List.mem_singleton.1 hu]
        exact hs.shaped.unverified work hmem

theorem Sorted.finishVerifying (hs : s.Sorted B) (bc : BlockChain) (i : ℕ) (now : ℤ) :
    Sorted B (step w s (.finishVerifying bc i now)) := by
  unfold step
  simp only
  split
  · exact hs
  · rename_i work hi
    have hthin : BlockQueue.Thins B s.queue _ := BlockQueue.thins_finishVerifying hs.shaped bc now
      (hs.works_files work (List.mem_of_getElem? hi))
    exact ⟨hs.ordered.thinner hthin.thinner, hthin.shaped hs.shaped,
      fun u hu => hs.works_files u (List.mem_of_mem_eraseIdx hu)⟩

theorem Sorted.drain (hs : s.Sorted B) (max : ℕ) : Sorted B (step w s (.drain max)) := by
  change Sorted B { s with queue := (s.queue.drain w max).2 }
  rcases BlockQueue.view_drain w s.queue max with ⟨-, heq⟩ | ⟨hempty, n, -, hview⟩
  · rw [heq]
    exact hs
  · refine ⟨?_, hs.shaped.drain max, hs.works_files⟩
    rw [hview]
    exact hs.ordered.thinner (.of_line (List.drop_sublist _ _) rfl rfl)

/-- Every step in order. -/
theorem Sorted.step (hs : s.Sorted B) {op : QueueOp} (hB : op.Within B) (h : op.InOrder w s) :
    Sorted B (step w s op) := by
  cases op with
  | importBlock bc block isOurs now => exact hs.importBlock hB h
  | tick now => exact ⟨hs.ordered, hs.shaped.tick now, hs.works_files⟩
  | noteReady good => exact hs.noteReady h
  | startVerifying => exact hs.startVerifying
  | finishVerifying bc i now => exact hs.finishVerifying bc i now
  | drain max => exact hs.drain max
  | doneDrain bad =>
    have hthin : BlockQueue.Thins B s.queue _ := BlockQueue.thins_doneDrain _ bad
    exact ⟨hs.ordered.thinner hthin.thinner, hthin.shaped hs.shaped, hs.works_files⟩
  | retryAllUnknown => exact h.elim
  | clear =>
    have hempty := sorted_empty B
    exact ⟨{ hempty.ordered with }, { hempty.shaped with }, hs.works_files⟩

end QueueState

namespace BlockQueue

/-- No block of the three queues stands before its parent. -/
def ParentsFirst (c : Crypto) (q : BlockQueue) : Prop :=
  (q.view c).line.Pairwise fun x y => x.after ≠ y.name

/-- No drained block comes before its parent, be it drained too or left in the queues. -/
def DrainsParentsFirst (w : World) (q : BlockQueue) (max : ℕ) : Prop :=
  let r := q.drain w max
  (r.1.Pairwise fun e e' => e.info.parentHash ≠ e'.info.hash w.crypto .WithSeal) ∧
    ∀ e ∈ r.1, ∀ x ∈ (r.2.view w.crypto).line, e.info.parentHash ≠ x.name

theorem ParentsFirst.drain (h : q.ParentsFirst w.crypto) (max : ℕ) : q.DrainsParentsFirst w max := by
  rcases view_drain w q max with ⟨-, heq⟩ | ⟨-, n, hbatch, hview⟩
  · unfold DrainsParentsFirst
    simp only [heq]
    refine ⟨List.Pairwise.nil, fun e he => ?_⟩
    cases he
  · unfold ParentsFirst at h
    rw [← List.take_append_drop n (q.view w.crypto).line, List.pairwise_append, ← hbatch] at h
    obtain ⟨hpair, -, hcross⟩ := h
    constructor
    · exact List.pairwise_map.1 hpair
    · intro e he x hx
      rw [hview] at hx
      exact hcross _ (List.mem_map_of_mem he) x hx

end BlockQueue

end Petrachor
