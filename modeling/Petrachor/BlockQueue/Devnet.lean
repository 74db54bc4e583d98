import Petrachor.Devnet
import Petrachor.BlockQueue.Step

/-!
# The queue on the development network

What the operations of the queue do to a queue of blocks of the network, none of which waits.
-/

namespace Petrachor

namespace Devnet

def unverified (m : Move) (l : List Move) : UnverifiedBlock :=
  ⟨hash (m :: l), hash l, bytes (m :: l)⟩

def queued (l : List Move) : QueuedBlock := ⟨verified l, bytes l⟩

theorem ofBytes_world {l : List Move} (h : Sound l) :
    BlockRLP.ofBytes world.crypto (bytes l) = .ok (block l) := ofBytes_bytes h

theorem eq_block {l : List Move} (h : Sound l) {b : BlockRLP}
    (hb : BlockRLP.ofBytes world.crypto (bytes l) = .ok b) : b = block l := by
  rw [ofBytes_world h] at hb
  exact (Except.ok.inj hb).symm

theorem verifyBytes_bytes (bc : BlockChain) {m : Move} {l : List Move} (h : Sound (m :: l))
    {ir : ImportRequirements} (hir : ir.has .Parent = false) (now : ℤ) :
    BlockQueue.verifyBytes world bc (bytes (m :: l)) ir now = .ok (verified (m :: l)) := by
  unfold BlockQueue.verifyBytes
  rw [ofBytes_world h, ok_bind]
  exact verifyBlock_alone bc h _ hir

/-- The blocks of some branches, as they reach the queue; none has the hash of the empty list. -/
def Branches.queueBlocks (F : Branches) (hne : ∀ l ∈ F.ways, hash l ≠ crypto.EmptyListSHA3) :
    QueueBlocks world where
  carrier := {d | ∃ m l, m :: l ∈ F.ways ∧ d = bytes (m :: l)}
  hash_ne_zero d hd b hb := by
    obtain ⟨m, l, hl, hd⟩ := hd
    rw [hd] at hb
    rw [eq_block (F.sound hl) hb]
    exact (F.sound hl).hash_ne_zero
  hash_inj d hd b hb d' hd' b' hb' he := by
    obtain ⟨m, l, hl, hd⟩ := hd
    obtain ⟨m', l', hl', hd'⟩ := hd'
    rw [hd] at hb
    rw [hd'] at hb'
    rw [eq_block (F.sound hl) hb, eq_block (F.sound hl') hb'] at he ⊢
    rw [F.hash_inj hl hl' he]
  uncles_ne_hash d hd b hb d' hd' b' hb' := by
    obtain ⟨m, l, hl, hd⟩ := hd
    obtain ⟨m', l', hl', hd'⟩ := hd'
    rw [hd] at hb
    rw [hd'] at hb'
    rw [eq_block (F.sound hl) hb, eq_block (F.sound hl') hb']
    exact (hne _ hl').symm

/-- What is in a queue in which no block waits. -/
structure Looks (q : BlockQueue) (V W : List QueuedBlock) (U : List UnverifiedBlock)
    (ready draining bad : Finset H256) : Prop where
  m_verified : q.m_verified.m_queue = V
  m_verifying : q.m_verifying.m_queue = W
  m_unverified : q.m_unverified.m_queue = U
  m_unknown : q.m_unknown.m_map = []
  m_readySet : q.m_readySet = ready
  m_drainingSet : q.m_drainingSet = draining
  m_unknownSet : q.m_unknownSet = ∅
  m_knownBad : q.m_knownBad = bad

theorem line_of_looks {q : BlockQueue} {V W : List QueuedBlock} {U : List UnverifiedBlock}
    {r d b : Finset H256} (hq : Looks q V W U r d b) :
    (q.view world.crypto).line = V.map (QueuedBlock.item world.crypto) ++
      (W.map (QueuedBlock.verifyingItem world.crypto) ++ U.map UnverifiedBlock.item) := by
  unfold BlockQueue.view
  rw [hq.m_verified, hq.m_verifying, hq.m_unverified]

theorem looks_empty : Looks .empty [] [] [] ∅ ∅ ∅ := ⟨rfl, rfl, rfl, rfl, rfl, rfl, rfl, rfl⟩

section

variable {q : BlockQueue} {V W : List QueuedBlock} {U : List UnverifiedBlock}
  {r d b : Finset H256} (hq : Looks q V W U r d b)

include hq

/-- Nothing waits for a block that is ready. -/
theorem Looks.noteReady (good : H256) : Looks (q.noteReady good) V W U r d b := by
  obtain ⟨out, stay, n, n', hR, heq⟩ := BlockQueue.noteReady_eq q good
  have hsub := BlockQueue.mem_of_released hR
  rw [hq.m_unknown] at hsub
  rw [List.subset_nil, List.subset_nil] at hsub
  rw [heq, hsub.1, hsub.2]
  constructor
  · exact hq.m_verified
  · exact hq.m_verifying
  · simpa [BlockQueue.makeReady] using hq.m_unverified
  · rfl
  · simpa [BlockQueue.makeReady, BlockQueue.hashesOf] using hq.m_readySet
  · exact hq.m_drainingSet
  · simpa [BlockQueue.makeReady, BlockQueue.hashesOf] using hq.m_unknownSet
  · exact hq.m_knownBad

theorem Looks.importBlock_eq (bc : BlockChain) {m : Move} {l : List Move} (h : Sound (m :: l))
    (isOurs : Bool) (now : ℤ) (hr : m.id ∉ r) (hd : m.id ∉ d) (hb : m.id ∉ b)
    (hknown : bc.isKnown world m.id true = false)
    (htime : now < (timestamp (m :: l) : ℤ) → isOurs = true)
    (hp : hash l ∈ r ∨ hash l ∈ d ∨ bc.isKnown world (hash l) true = true) (hpb : hash l ∉ b) :
    (q.importBlock world bc (bytes (m :: l)) isOurs now).2 =
      (q.takeIn (header (m :: l)) (bytes (m :: l))).noteReady m.id := by
  have hhash : BlockQueue.headerHashFromBlock world.crypto (bytes (m :: l)) = .ok m.id :=
    BlockQueue.headerHashFromBlock_eq (ofBytes_bytes h)
  have hnew : ¬(m.id ∈ q.m_readySet ∨ m.id ∈ q.m_drainingSet ∨ m.id ∈ q.m_unknownSet ∨
      m.id ∈ q.m_knownBad) := by
    rw [hq.m_readySet, hq.m_drainingSet, hq.m_unknownSet, hq.m_knownBad]
    simp [hr, hd, hb]
  have hat : BlockQueue.parentAtHand world bc q (hash l) = true := by
    unfold BlockQueue.parentAtHand
    rw [hq.m_readySet, hq.m_drainingSet]
    exact decide_eq_true hp
  have hbad : ¬hash l ∈ q.m_knownBad := by
    rw [hq.m_knownBad]
    exact hpb
  have hfuture : ¬(now < (verified (m :: l)).info.timestamp ∧ (!isOurs) = true) := by
    rintro ⟨h1, h2⟩
    rw [htime h1] at h2
    cases h2
  have hfile : (BlockQueue.file world bc q (header (m :: l)) m.id (bytes (m :: l))).2 =
      (q.takeIn (header (m :: l)) (bytes (m :: l))).noteReady m.id := by
    unfold BlockQueue.file
    simp only [show (header (m :: l)).parentHash = hash l from rfl]
    rw [if_neg hbad, hat, if_neg (by simp)]
    rfl
  unfold BlockQueue.importBlock
  rw [hhash]
  simp only
  rw [if_neg hnew, verifyBytes_bytes bc h (by decide)]
  simp only
  rw [hknown, if_neg (by simp), if_neg hfuture]
  exact hfile

theorem Looks.importBlock (bc : BlockChain) {m : Move} {l : List Move} (h : Sound (m :: l))
    (isOurs : Bool) (now : ℤ) (hr : m.id ∉ r) (hd : m.id ∉ d) (hb : m.id ∉ b)
    (hknown : bc.isKnown world m.id true = false)
    (htime : now < (timestamp (m :: l) : ℤ) → isOurs = true)
    (hp : hash l ∈ r ∨ hash l ∈ d ∨ bc.isKnown world (hash l) true = true) (hpb : hash l ∉ b) :
    Looks (q.importBlock world bc (bytes (m :: l)) isOurs now).2 V W (U ++ [unverified m l])
      (insert m.id r) d b := by
  rw [hq.importBlock_eq bc h isOurs now hr hd hb hknown htime hp hpb]
  apply Looks.noteReady
  constructor
  · exact hq.m_verified
  · exact hq.m_verifying
  · change q.m_unverified.m_queue ++ [unverified m l] = _
    rw [hq.m_unverified]
  · exact hq.m_unknown
  · change insert m.id q.m_readySet = _
    rw [hq.m_readySet]
  · exact hq.m_drainingSet
  · exact hq.m_unknownSet
  · exact hq.m_knownBad

end

/-- A verifier takes the block in front. -/
theorem Looks.startVerifying {q : BlockQueue} {V W : List QueuedBlock} {U : List UnverifiedBlock}
    {u : UnverifiedBlock} {r d b : Finset H256} (hq : Looks q V W (u :: U) r d b) :
    ∃ q', q.startVerifying = some (u, q') ∧
      Looks q' V (W ++ [.pending u.hash u.parentHash]) U r d b := by
  unfold BlockQueue.startVerifying SizedBlockQueue.dequeue
  rw [hq.m_unverified]
  simp only
  refine ⟨_, rfl, ?_⟩
  constructor
  · exact hq.m_verified
  · change q.m_verifying.m_queue ++ _ = _
    rw [hq.m_verifying]
  · rfl
  · exact hq.m_unknown
  · exact hq.m_readySet
  · exact hq.m_drainingSet
  · exact hq.m_unknownSet
  · exact hq.m_knownBad

/-- The verifier of the block in front comes back while none behind it is finished. -/
theorem Looks.finishVerifying {q : BlockQueue} {V W : List QueuedBlock} {U : List UnverifiedBlock}
    {m : Move} {l : List Move} {r d b : Finset H256}
    (hq : Looks q V (.pending (hash (m :: l)) (hash l) :: W) U r d b) (h : Sound (m :: l))
    (hpb : hash l ∉ b) (hW : ∀ e ∈ W, e.blockData = []) (bc : BlockChain) (now : ℤ) :
    Looks (q.finishVerifying world bc (unverified m l) now) (V ++ [queued (m :: l)]) W U r d b := by
  have hdeq : q.m_verifying.dequeue = some (.pending (hash (m :: l)) (hash l),
      ⟨W, q.m_verifying.m_size - BitVec.ofNat 64 0⟩) := by
    unfold SizedBlockQueue.dequeue
    rw [hq.m_verifying]
    rfl
  have hbad : ¬hash l ∈ q.m_knownBad := by
    rw [hq.m_knownBad]
    exact hpb
  -- nothing behind it is finished, so the verified blocks end here
  have hdrain : ∀ q' : BlockQueue, q'.m_verifying.m_queue = W → q'.drainVerified world = q' := by
    intro q' hq'
    unfold BlockQueue.drainVerified SizedBlockQueue.count
    rw [hq']
    cases W with
    | nil => rfl
    | cons e W =>
      rw [List.length_cons]
      unfold BlockQueue.drainVerified.go SizedBlockQueue.dequeue
      rw [hq']
      simp only
      rw [if_pos (hW e List.mem_cons_self)]
  have hpub : q.finishVerifying world bc (unverified m l) now =
      { q with m_verifying := ⟨W, q.m_verifying.m_size - BitVec.ofNat 64 0⟩
               m_verified := q.m_verified.enqueue (queued (m :: l)) } := by
    unfold BlockQueue.finishVerifying
    rw [show (unverified m l).blockData = bytes (m :: l) from rfl,
      verifyBytes_bytes bc h (by decide), hdeq]
    simp only [show (⟨verified (m :: l), bytes (m :: l)⟩ : QueuedBlock) = queued (m :: l) from rfl]
    rw [if_pos (show (QueuedBlock.pending (hash (m :: l)) (hash l)).info.sha3Uncles =
      (unverified m l).hash from rfl), BlockQueue.publish]
    simp only
    rw [if_neg (show ¬(queued (m :: l)).info.parentHash ∈ q.m_knownBad from hbad)]
    exact hdrain _ rfl
  rw [hpub]
  constructor
  · change q.m_verified.m_queue ++ _ = _
    rw [hq.m_verified]
  · rfl
  · exact hq.m_unverified
  · exact hq.m_unknown
  · exact hq.m_readySet
  · exact hq.m_drainingSet
  · exact hq.m_unknownSet
  · exact hq.m_knownBad

theorem Looks.drain {q : BlockQueue} {V W : List QueuedBlock} {U : List UnverifiedBlock}
    {r b : Finset H256} (hq : Looks q V W U r ∅ b) (n : ℕ) :
    (q.drain world n).1 = V.take n ∧
      Looks (q.drain world n).2 (V.drop n) W U
        (r \ ((V.take n).map fun e => e.info.hash crypto .WithSeal).toFinset)
        ((V.take n).map fun e => e.info.hash crypto .WithSeal).toFinset b := by
  unfold BlockQueue.drain
  rw [if_pos hq.m_drainingSet]
  simp only [SizedBlockQueue.dequeueMultiple, hq.m_verified, hq.m_readySet]
  exact ⟨trivial, rfl, hq.m_verifying, hq.m_unverified, hq.m_unknown, rfl, rfl, hq.m_unknownSet,
    hq.m_knownBad⟩

/-- Hashes are noted as bad, and nothing waits for them. -/
theorem Looks.noteBads {q : BlockQueue} {V W : List QueuedBlock} {U : List UnverifiedBlock}
    {r d b : Finset H256} (hq : Looks q V W U r d b) (hashes : List H256) :
    Looks (hashes.foldl BlockQueue.noteBad q) V W U (r \ hashes.toFinset) d
      (b ∪ hashes.toFinset) := by
  obtain ⟨out, stay, n, hR, heq⟩ := BlockQueue.noteBads_eq hashes q
  have hsub := BlockQueue.mem_of_released hR
  rw [hq.m_unknown] at hsub
  rw [List.subset_nil, List.subset_nil] at hsub
  rw [heq, hsub.1, hsub.2]
  constructor
  · exact hq.m_verified
  · exact hq.m_verifying
  · exact hq.m_unverified
  · rfl
  · change q.m_readySet \ _ = _
    rw [hq.m_readySet]
  · exact hq.m_drainingSet
  · simpa [BlockQueue.markBad, BlockQueue.hashesOf] using hq.m_unknownSet
  · simp [BlockQueue.markBad, BlockQueue.hashesOf, hq.m_knownBad]

theorem Looks.verifiedBad_eq {q : BlockQueue} {V W : List QueuedBlock} {U : List UnverifiedBlock}
    {r d b : Finset H256} (hq : Looks q V W U r d b) :
    q.verifiedBad world = fun e : QueuedBlock => decide (e.info.parentHash ∈ b ∨
      e.info.hash crypto .WithSeal ∈ b) := by
  funext e
  unfold BlockQueue.verifiedBad BlockQueue.isBad
  rw [hq.m_knownBad]
  rfl

/-- A round of `updateBad` over verified blocks: what `removeIf` leaves behind is bad. -/
theorem Looks.badVerified {q : BlockQueue} {V W : List QueuedBlock} {U : List UnverifiedBlock}
    {r d b : Finset H256} (hq : Looks q V W U r d b) (V' out : List QueuedBlock)
    (hrem : RemoveIf.removeIf (fun e : QueuedBlock => decide (e.info.parentHash ∈ b ∨
      e.info.hash crypto .WithSeal ∈ b)) BlockEntry.movedFrom V = (V', out)) :
    (q.badVerified world).1 = out.map (fun e => e.info.hash crypto .WithSeal) ∧
      Looks (q.badVerified world).2 V' W U
        (r \ (out.map fun e => e.info.hash crypto .WithSeal).toFinset) d
        (b ∪ (out.map fun e => e.info.hash crypto .WithSeal).toFinset) := by
  have hremV : q.m_verified.removeIf (q.verifiedBad world) =
      (out, ⟨V', SizedBlockQueue.subtract q.m_verified.m_size out⟩) := by
    unfold SizedBlockQueue.removeIf
    rw [hq.verifiedBad_eq, hq.m_verified, hrem]
  unfold BlockQueue.badVerified
  rw [hremV]
  constructor
  · rfl
  · apply Looks.noteBads
    exact { hq with m_verified := rfl, m_verifying := hq.m_verifying, m_unknown := hq.m_unknown }

section

variable {q : BlockQueue} {V W : List QueuedBlock} {r d b : Finset H256}

theorem Looks.badUnverified (hq : Looks q V W [] r d b) :
    q.badUnverified.1 = [] ∧ q.badUnverified.2 = q := by
  have h : q.badUnverified.1 = [] := by
    unfold BlockQueue.badUnverified SizedBlockQueue.removeIf
    rw [hq.m_unverified]
    rfl
  exact ⟨h, (BlockQueue.badUnverified_nil h).1⟩

theorem Looks.badVerifying {U : List UnverifiedBlock} (hq : Looks q V [] U r d b) :
    (q.badVerifying world).1 = [] ∧ (q.badVerifying world).2 = q := by
  have h : (q.badVerifying world).1 = [] := by
    unfold BlockQueue.badVerifying SizedBlockQueue.removeIf
    rw [hq.m_verifying]
    rfl
  exact ⟨h, (BlockQueue.badVerifying_nil h).1⟩

variable (hq : Looks q V [] [] r d b) (V' out : List QueuedBlock)
  (hrem : RemoveIf.removeIf (fun e : QueuedBlock => decide (e.info.parentHash ∈ b ∨
    e.info.hash crypto .WithSeal ∈ b)) BlockEntry.movedFrom V = (V', out))

include hq hrem

theorem Looks.badRound : (q.badRound world).1 = decide (out ≠ []) ∧
    Looks (q.badRound world).2 V' [] []
      (r \ (out.map fun e => e.info.hash crypto .WithSeal).toFinset) d
      (b ∪ (out.map fun e => e.info.hash crypto .WithSeal).toFinset) := by
  obtain ⟨h1, hL1⟩ := hq.badVerified V' out hrem
  obtain ⟨h2, e2⟩ := hL1.badUnverified
  obtain ⟨h3, e3⟩ := hL1.badVerifying
  unfold BlockQueue.badRound
  simp only [h1, h2, e2, h3, e3]
  refine ⟨?_, hL1⟩
  simp

end

/-! ## A block, its child and a block beside them -/

def first : Move := ⟨2, false, interval, 0⟩
def second : Move := ⟨3, false, interval, 0⟩
def beside : Move := ⟨4, true, interval, 0⟩

def threeBlocks : Branches where
  ways := {l | l ∈ [[], [first], [second, first], [beside]]}
  nil_mem := by decide
  tail_mem := by
    intro m l h
    simp only [Set.mem_ofPred_eq, List.mem_cons, List.not_mem_nil, or_false] at h ⊢
    rcases h with h | h | h | h <;> cases h <;> simp
  sound := by
    intro l h
    simp only [Set.mem_ofPred_eq, List.mem_cons, List.not_mem_nil, or_false] at h
    rcases h with rfl | rfl | rfl | rfl
    · trivial
    · decide
    · decide
    · decide
  hash_inj := by
    intro l l' h h' he
    simp only [Set.mem_ofPred_eq, List.mem_cons, List.not_mem_nil, or_false] at h h'
    rcases h with rfl | rfl | rfl | rfl <;> rcases h' with rfl | rfl | rfl | rfl <;>
      first | rfl | exact absurd he (by decide)

theorem threeBlocks_hash_ne : ∀ l ∈ threeBlocks.ways, hash l ≠ crypto.EmptyListSHA3 := by
  intro l h
  simp only [threeBlocks, Set.mem_ofPred_eq, List.mem_cons, List.not_mem_nil, or_false] at h
  rcases h with rfl | rfl | rfl | rfl <;> decide

def threeQueued : QueueBlocks world := threeBlocks.queueBlocks threeBlocks_hash_ne

theorem first_mem : [first] ∈ threeBlocks.ways := by simp [threeBlocks]

theorem second_mem : [second, first] ∈ threeBlocks.ways := by simp [threeBlocks]

section

variable {q : BlockQueue} {V W : List QueuedBlock} {U : List UnverifiedBlock}
  {r d b : Finset H256} (works : List UnverifiedBlock) (reported : Finset H256)

theorem Looks.step_importBlock (hq : Looks q V W U r d b) (bc : BlockChain) {m : Move} {l : List Move}
    (h : Sound (m :: l)) (isOurs : Bool) (now : ℤ) (hr : m.id ∉ r) (hd : m.id ∉ d) (hb : m.id ∉ b)
    (hknown : bc.isKnown world m.id true = false)
    (htime : now < (timestamp (m :: l) : ℤ) → isOurs = true)
    (hp : hash l ∈ r ∨ hash l ∈ d ∨ bc.isKnown world (hash l) true = true) (hpb : hash l ∉ b) :
    ∃ q', QueueState.step world ⟨q, works, reported⟩
        (.importBlock bc (bytes (m :: l)) isOurs now) = ⟨q', works, reported⟩ ∧
      Looks q' V W (U ++ [unverified m l]) (insert m.id r) d b :=
  ⟨_, rfl, hq.importBlock bc h isOurs now hr hd hb hknown htime hp hpb⟩

theorem Looks.step_startVerifying {u : UnverifiedBlock} (hq : Looks q V W (u :: U) r d b) :
    ∃ q', QueueState.step world ⟨q, works, reported⟩ .startVerifying =
        ⟨q', works ++ [u], reported⟩ ∧
      Looks q' V (W ++ [.pending u.hash u.parentHash]) U r d b := by
  obtain ⟨q', h, hL⟩ := hq.startVerifying
  refine ⟨q', ?_, hL⟩
  unfold QueueState.step
  simp only [h]

theorem Looks.step_finishVerifying {m : Move} {l : List Move}
    (hq : Looks q V (.pending (hash (m :: l)) (hash l) :: W) U r d b) (h : Sound (m :: l))
    (hpb : hash l ∉ b) (hW : ∀ e ∈ W, e.blockData = []) (bc : BlockChain) (now : ℤ) :
    ∃ q', QueueState.step world ⟨q, unverified m l :: works, reported⟩
        (.finishVerifying bc 0 now) = ⟨q', works, reported⟩ ∧
      Looks q' (V ++ [queued (m :: l)]) W U r d b := by
  refine ⟨_, ?_, hq.finishVerifying h hpb hW bc now⟩
  have hreport : QueueState.report world bc (unverified m l) now = ∅ := by
    unfold QueueState.report
    rw [show (unverified m l).blockData = bytes (m :: l) from rfl,
      verifyBytes_bytes bc h (by decide)]
  unfold QueueState.step
  simp only [List.getElem?_cons_zero, List.eraseIdx_cons_zero, hreport, Finset.union_empty]

end

/-- Nothing waits for a bad block. -/
theorem Looks.collectUnknownBad {q : BlockQueue} {V W : List QueuedBlock} {U : List UnverifiedBlock}
    {r d b : Finset H256} (hq : Looks q V W U r d b) (bad : H256) :
    Looks (q.collectUnknownBad bad) V W U r d b := by
  obtain ⟨out, stay, n, hR, heq⟩ := BlockQueue.collectUnknownBad_eq q bad
  have hsub := BlockQueue.mem_of_released hR
  rw [hq.m_unknown] at hsub
  rw [List.subset_nil, List.subset_nil] at hsub
  rw [heq, hsub.1, hsub.2]
  constructor
  · exact hq.m_verified
  · exact hq.m_verifying
  · exact hq.m_unverified
  · rfl
  · simpa [BlockQueue.markBad] using hq.m_readySet
  · exact hq.m_drainingSet
  · simpa [BlockQueue.markBad, BlockQueue.hashesOf] using hq.m_unknownSet
  · simpa [BlockQueue.markBad, BlockQueue.hashesOf] using hq.m_knownBad

/-- The block and its child arrive and are verified. -/
def verifyTwo (isOurs : Bool) (now : ℤ) : List QueueOp :=
  [.importBlock genesis (bytes [first]) isOurs now,
    .importBlock genesis (bytes [second, first]) isOurs now, .startVerifying, .startVerifying,
    .finishVerifying genesis 0 now, .finishVerifying genesis 0 now]

theorem looks_importFirst {isOurs : Bool} {now : ℤ} (ht : isOurs = true ∨ 2 ^ 40 ≤ now) :
    ∃ q, QueueState.step world .empty (.importBlock genesis (bytes [first]) isOurs now) =
        ⟨q, [], ∅⟩ ∧ Looks q [] [] [unverified first []] {2} ∅ ∅ := by
  have htime : now < (timestamp [first] : ℤ) → isOurs = true := by
    intro hlt
    rcases ht with ht | ht
    · exact ht
    · have hle : (timestamp [first] : ℤ) ≤ 2 ^ 40 := by decide
      omega
  exact looks_empty.step_importBlock [] ∅ genesis (threeBlocks.sound first_mem) isOurs now
    (by decide) (by decide) (by decide) (by decide) htime (.inr (.inr (by decide))) (by decide)

/-- Both are verified, in the order they came in, and nothing was bad on the way. -/
theorem looks_verifyTwo {isOurs : Bool} {now : ℤ} (ht : isOurs = true ∨ 2 ^ 40 ≤ now) :
    ∃ q, StateRun.run (QueueState.step world) .empty (verifyTwo isOurs now) = ⟨q, [], ∅⟩ ∧
      Looks q [queued [first], queued [second, first]] [] [] {2, 3} ∅ ∅ := by
  have hs1 := threeBlocks.sound first_mem
  have hs2 := threeBlocks.sound second_mem
  have htime : now < (timestamp [second, first] : ℤ) → isOurs = true := by
    intro hlt
    rcases ht with ht | ht
    · exact ht
    · have hle : (timestamp [second, first] : ℤ) ≤ 2 ^ 40 := by decide
      omega
  obtain ⟨q1, e1, L1⟩ := looks_importFirst ht
  obtain ⟨q2, e2, L2⟩ := L1.step_importBlock [] ∅ genesis hs2 isOurs now (by decide) (by decide)
    (by decide) (by decide) htime (.inl (by decide)) (by decide)
  obtain ⟨q3, e3, L3⟩ := L2.step_startVerifying [] ∅
  obtain ⟨q4, e4, L4⟩ := L3.step_startVerifying [unverified first []] ∅
  obtain ⟨q5, e5, L5⟩ := L4.step_finishVerifying [unverified second [first]] ∅ hs1 (by decide)
    (by simp [unverified]) genesis now
  obtain ⟨q6, e6, L6⟩ := L5.step_finishVerifying [] ∅ hs2 (by decide) (by simp) genesis now
  rw [List.nil_append] at e3
  rw [List.singleton_append] at e4
  refine ⟨q6, ?_, ?_⟩
  · unfold verifyTwo
    rw [StateRun.run_cons, e1, StateRun.run_cons, e2, StateRun.run_cons, e3, StateRun.run_cons, e4,
      StateRun.run_cons, e5, StateRun.run_cons, e6, StateRun.run_nil]
  · convert L6 using 1
    · rfl
    · decide

theorem importBlock_first :
    genesis.importBlock world (verified [first]) true 0 = (.error .FutureTime, genesis) := by
  unfold BlockChain.importBlock
  rw [show genesis.checkPlace world (verified [first]).info true = .ok () from rfl]
  rfl

/-- Once its time has come it is taken. -/
theorem importBlock_first_ok : ∃ route bc',
    genesis.importBlock world (verified [first]) true (2 ^ 40) = (.ok route, bc') := by
  have hM := mined_genesis threeBlocks
  obtain ⟨bc1, -, -, hM1, hdb, hP, himp⟩ := hM.importBlock_eq first_mem hM.tree.root_mem
    (fun _ => rfl) (show (timestamp [first] : ℤ) ≤ 2 ^ 40 by decide) fun v _ => stakeOk_zero rfl [] v
  rcases hins : bc1.insertBlockAndExtras world (verified [first]) (RLPStream.encodeList [])
    ((genesis.details (hash [])).totalDifficulty + (header [first]).difficulty) with ⟨r, bc'⟩
  obtain ⟨⟨route, rfl⟩, -⟩ := hM1.insertBlockAndExtras first_mem hdb hP (by decide) hins
  exact ⟨route, bc', himp.trans hins⟩

theorem within_verifyTwo (isOurs : Bool) (now : ℤ) :
    StateRun.Along (QueueState.step world) (fun _ op => op.Within threeQueued) .empty
      (verifyTwo isOurs now) :=
  ⟨⟨_, _, first_mem, rfl⟩, ⟨_, _, second_mem, rfl⟩, trivial, trivial, trivial, trivial, trivial⟩

end Devnet

end Petrachor
