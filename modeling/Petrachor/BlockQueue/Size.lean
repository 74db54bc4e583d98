import Petrachor.BlockQueue

/-!
# The sizes of the block queue

The counters of the containers say what is in them as long as no bytes are inserted into a map, and
what a predicate removes from a queue stands at its end. Then the queue is full when it holds as much
as it may.
-/

namespace Petrachor

namespace BlockQueue

/-- Every counter of the queue is exact. -/
structure Exact (q : BlockQueue) : Prop where
  unknown : q.m_unknown.Exact
  future : q.m_future.Exact
  unverified : q.m_unverified.Exact
  verifying : q.m_verifying.Exact
  verified : q.m_verified.Exact

def knownBytes (q : BlockQueue) : ℕ :=
  dataSize q.m_verified.m_queue + dataSize q.m_unverified.m_queue + dataSize q.m_verifying.m_queue

def unknownBytes (q : BlockQueue) : ℕ :=
  SizedBlockMap.bytesOf q.m_future.m_map + SizedBlockMap.bytesOf q.m_unknown.m_map

theorem Exact.knownSize_eq {q : BlockQueue} (h : q.Exact) (hfit : q.knownBytes < 2 ^ 64) :
    q.knownSize.toNat = q.knownBytes := by
  have h1 : q.m_verified.m_size.toNat = _ := h.verified
  have h2 : q.m_unverified.m_size.toNat = _ := h.unverified
  have h3 : q.m_verifying.m_size.toNat = _ := h.verifying
  unfold knownBytes at hfit ⊢
  unfold knownSize
  rw [BitVec.toNat_add, BitVec.toNat_add, h1, h2, h3]
  omega

theorem Exact.unknownSize_eq {q : BlockQueue} (h : q.Exact) (hfit : q.unknownBytes < 2 ^ 64) :
    q.unknownSize.toNat = q.unknownBytes := by
  have h1 : q.m_future.m_size.toNat = _ := h.future
  have h2 : q.m_unknown.m_size.toNat = _ := h.unknown
  unfold unknownBytes at hfit ⊢
  unfold unknownSize
  rw [BitVec.toNat_add, h1, h2]
  omega

/-- After every run of operations that are counted right the counters are exact, and a queue with
exact counters is full when it holds more than it may. -/
theorem sizes_exact {K T : Type} [LE K] [DecidableLE K] [DecidableEq K] [BlockEntry T]
    {mops : List (SizedBlockMap.Op K)} {qops : List (SizedBlockQueue.Op T)}
    (hm : StateRun.Along SizedBlockMap.step (fun _ op => op.Counted) .empty mops)
    (hq : StateRun.Along SizedBlockQueue.step (fun q op => op.Counted q) .empty qops) :
    (StateRun.run SizedBlockMap.step .empty mops).Exact ∧
    (StateRun.run SizedBlockQueue.step .empty qops).Exact ∧
    ∀ q : BlockQueue, q.Exact →
      (q.knownBytes < 2 ^ 64 → (q.knownFull = true ↔
        c_maxKnownSize < q.knownBytes ∨ c_maxKnownCount < q.knownCount)) ∧
      (q.unknownBytes < 2 ^ 64 → (q.unknownFull = true ↔
        c_maxUnknownSize < q.unknownBytes ∨ c_maxUnknownCount < q.unknownCount)) := by
  refine ⟨?_, ?_, fun q h => ⟨fun hfit => ?_, fun hfit => ?_⟩⟩
  · apply StateRun.invariant SizedBlockMap.Exact _ SizedBlockMap.exact_empty hm
    intro m op h hc
    exact h.step hc
  · apply StateRun.invariant SizedBlockQueue.Exact _ SizedBlockQueue.exact_empty hq
    intro q op h hc
    exact h.step hc
  · rw [← h.knownSize_eq hfit]
    simp [knownFull]
  · rw [← h.unknownSize_eq hfit]
    simp [unknownFull]

/-- A queue of two blocks that loses the last one, and a map without blocks. -/
theorem sizes_exact_of_last_removed :
    (StateRun.run SizedBlockMap.step .empty [.insert (0 : ℤ) 7 [], .removeByKeyEqual 0]).Exact ∧
    (StateRun.run SizedBlockQueue.step .empty
      [.enqueue (⟨1, 0, [1, 2]⟩ : UnverifiedBlock), .enqueue ⟨2, 1, [3]⟩,
        .removeIf (·.hash = 2)]).Exact := by
  have hm : StateRun.Along SizedBlockMap.step (fun _ op => op.Counted) .empty
      [.insert (0 : ℤ) 7 [], .removeByKeyEqual 0] := ⟨rfl, trivial, trivial⟩
  have hq : StateRun.Along SizedBlockQueue.step (fun q op => op.Counted q) .empty
      [.enqueue (⟨1, 0, [1, 2]⟩ : UnverifiedBlock), .enqueue ⟨2, 1, [3]⟩, .removeIf (·.hash = 2)] := by
    refine ⟨?_, ?_, ?_, trivial⟩ <;>
    · change SizedBlockQueue.Op.Counted _ _
      decide
  have h := sizes_exact hm hq
  exact ⟨h.1, h.2.1⟩

/-- A block that was filed in a map is not counted, and its removal takes the counter below zero; a
removal in front of a block that stays is not counted. -/
theorem sizes_fail :
    (let m := StateRun.run SizedBlockMap.step .empty [.insert (5 : H256) 7 [1]]
    m.m_size.toNat = 0 ∧ SizedBlockMap.bytesOf m.m_map = 1) ∧
    (let m := StateRun.run SizedBlockMap.step .empty [.insert (5 : H256) 7 [1], .removeByKeyEqual 5]
    m.m_size.toNat = 2 ^ 64 - 1 ∧ m.m_map = [] ∧
      ({ empty with m_unknown := m } : BlockQueue).unknownFull = true) ∧
    let q := StateRun.run SizedBlockQueue.step .empty
      [.enqueue (⟨1, 0, [1, 2]⟩ : UnverifiedBlock), .enqueue ⟨2, 1, [3]⟩, .removeIf (·.hash = 1)]
    q.m_size.toNat = 3 ∧ dataSize q.m_queue = 1 := by
  decide

end BlockQueue

end Petrachor
