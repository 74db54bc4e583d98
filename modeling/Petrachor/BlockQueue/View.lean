import Petrachor.Lib.Intake
import Petrachor.HeaderRead
import Petrachor.BlockQueue
import Petrachor.BlockChain.Run

/-!
# The block queue as an intake

The three queues, one behind the other, are a line of blocks, of which only the hashes and their
parents' hashes count; the blocks with unknown parents wait. What the operations of the queue do to
the line and to the sets is what an intake does. It takes that a removal from a queue finds the
blocks to remove at its end: otherwise `removeIf` returns other blocks than it removes.
-/

namespace Petrachor

open Intake (Item)

/-- Blocks that may reach the queue, by their bytes. Their hashes are not zero and tell their headers
apart, and the hash of a list of uncles is no block's. -/
structure QueueBlocks (w : World) where
  carrier : Set Bytes
  hash_ne_zero : ∀ d ∈ carrier, ∀ b, BlockRLP.ofBytes w.crypto d = .ok b → b.info.m_hash ≠ 0
  hash_inj : ∀ d ∈ carrier, ∀ b, BlockRLP.ofBytes w.crypto d = .ok b →
    ∀ d' ∈ carrier, ∀ b', BlockRLP.ofBytes w.crypto d' = .ok b' →
      b.info.m_hash = b'.info.m_hash → b.info = b'.info
  uncles_ne_hash : ∀ d ∈ carrier, ∀ b, BlockRLP.ofBytes w.crypto d = .ok b →
    ∀ d' ∈ carrier, ∀ b', BlockRLP.ofBytes w.crypto d' = .ok b' →
      b.info.sha3Uncles ≠ b'.info.m_hash

variable {w : World}

/-- The bytes are those of a block with this header. -/
def QueueBlocks.Holds (B : QueueBlocks w) (d : Bytes) (info : BlockHeader) : Prop :=
  d ∈ B.carrier ∧ ∃ b, BlockRLP.ofBytes w.crypto d = .ok b ∧ b.info = info

/-- The bytes are those of a block with this hash and parent. -/
def QueueBlocks.Files (B : QueueBlocks w) (d : Bytes) (x : Item H256) : Prop :=
  ∃ info, B.Holds d info ∧ x = ⟨info.m_hash, info.parentHash⟩

variable {B : QueueBlocks w}

theorem QueueBlocks.Holds.hash_eq {d : Bytes} {info : BlockHeader} (h : B.Holds d info) :
    info.hash w.crypto .WithSeal = info.m_hash := by
  obtain ⟨hd, b, hb, rfl⟩ := h
  have hne := B.hash_ne_zero d hd b hb
  unfold BlockHeader.hash
  rw [if_neg hne]

theorem QueueBlocks.Holds.sha3Uncles_ne {d d' : Bytes} {info : BlockHeader} {x : Item H256}
    (h : B.Holds d info) (h' : B.Files d' x) : info.sha3Uncles ≠ x.name := by
  obtain ⟨hd, b, hb, rfl⟩ := h
  obtain ⟨info', ⟨hd', b', hb', rfl⟩, rfl⟩ := h'
  exact B.uncles_ne_hash d hd b hb d' hd' b' hb'

theorem QueueBlocks.Holds.ne_nil {d : Bytes} {info : BlockHeader} (h : B.Holds d info) :
    d ≠ [] := by
  obtain ⟨_, b, hb, _⟩ := h
  exact BlockRLP.ofBytes_ne_nil hb

/-! ## Entries as items -/

def UnverifiedBlock.item (u : UnverifiedBlock) : Item H256 := ⟨u.hash, u.parentHash⟩

namespace QueuedBlock

def item (c : Crypto) (e : QueuedBlock) : Item H256 :=
  ⟨e.info.hash c .WithSeal, e.info.parentHash⟩

/-- An entry of `m_verifying`, finished or not. -/
def verifyingItem (c : Crypto) (e : QueuedBlock) : Item H256 :=
  ⟨e.verifyingHash c, e.info.parentHash⟩

/-- The entry of a block that was verified. -/
def Finished (B : QueueBlocks w) (e : QueuedBlock) : Prop := B.Holds e.blockData e.info

/-- The entry of a block that a verifier has taken. -/
def Taken (B : QueueBlocks w) (e : QueuedBlock) : Prop :=
  ∃ d x, B.Files d x ∧ e = .pending x.name x.after

@[simp] theorem pending_blockData (h p : H256) : (pending h p).blockData = [] := rfl

@[simp] theorem pending_sha3Uncles (h p : H256) : (pending h p).info.sha3Uncles = h := rfl

@[simp] theorem pending_verifyingItem (c : Crypto) (h p : H256) :
    (pending h p).verifyingItem c = ⟨h, p⟩ := rfl

theorem Finished.verifyingItem_eq {e : QueuedBlock} (he : e.Finished B) :
    e.verifyingItem w.crypto = e.item w.crypto := by
  unfold verifyingItem verifyingHash item
  rw [if_pos he.ne_nil]

theorem Finished.item_eq {e : QueuedBlock} (he : e.Finished B) :
    e.item w.crypto = ⟨e.info.m_hash, e.info.parentHash⟩ := by
  unfold item
  rw [he.hash_eq]

theorem Finished.files {e : QueuedBlock} (he : e.Finished B) :
    B.Files e.blockData (e.item w.crypto) := ⟨e.info, he, he.item_eq⟩

end QueuedBlock

/-- An entry of `m_unknown`. -/
def unknownItem (e : H256 × H256 × Bytes) : Item H256 := ⟨e.2.1, e.1⟩

namespace BlockQueue

def view (c : Crypto) (q : BlockQueue) : Intake.State H256 where
  line := q.m_verified.m_queue.map (QueuedBlock.item c) ++
    (q.m_verifying.m_queue.map (QueuedBlock.verifyingItem c) ++
      q.m_unverified.m_queue.map UnverifiedBlock.item)
  waiting := ↑(q.m_unknown.m_map.map unknownItem)
  ready := q.m_readySet
  draining := q.m_drainingSet
  unknown := q.m_unknownSet
  bad := q.m_knownBad

/-- The blocks of the queue, ready or waiting, with their parents. -/
def items (c : Crypto) (q : BlockQueue) : List (Item H256) :=
  (q.view c).line ++ q.m_unknown.m_map.map unknownItem

/-- What the entries of the queue are. -/
structure Shaped (B : QueueBlocks w) (q : BlockQueue) : Prop where
  verified : ∀ e ∈ q.m_verified.m_queue, e.Finished B
  verifying : ∀ e ∈ q.m_verifying.m_queue, e.Finished B ∨ e.Taken B
  unverified : ∀ u ∈ q.m_unverified.m_queue, B.Files u.blockData u.item
  unknown : ∀ e ∈ q.m_unknown.m_map, B.Files e.2.2 (unknownItem e)
  future : ∀ e ∈ q.m_future.m_map, ∃ info, B.Holds e.2.2 info ∧ e.2.1 = info.m_hash

theorem headerHashFromBlock_eq {c : Crypto} {d : Bytes} {b : BlockRLP}
    (h : BlockRLP.ofBytes c d = .ok b) : headerHashFromBlock c d = .ok b.info.m_hash := by
  obtain ⟨root, header, hroot, hheader, heq⟩ := BlockRLP.ofBytes_header h
  unfold headerHashFromBlock
  rw [hroot, ok_bind, hheader, ok_bind, heq]
  rfl

theorem verifyBytes_holds {bc : BlockChain} {d : Bytes} (hd : d ∈ B.carrier)
    {ir : ImportRequirements} {now : ℤ} {vb : VerifiedBlock}
    (h : verifyBytes w bc d ir now = .ok vb) : B.Holds d vb.info := by
  unfold verifyBytes at h
  rw [bind_eq_ok] at h
  obtain ⟨b, hb, h⟩ := h
  exact ⟨hd, b, hb, (BlockChain.verifyBlock_eq_ok h).2.2.symm⟩

theorem verifyBytes_ofBlock {bc : BlockChain} {d : Bytes} {ir : ImportRequirements} {now : ℤ}
    {vb : VerifiedBlock} (h : verifyBytes w bc d ir now = .ok vb) :
    BlockRLP.ofBytes w.crypto d = .ok vb.block ∧ vb.OfBlock := by
  unfold verifyBytes at h
  rw [bind_eq_ok] at h
  obtain ⟨b, hb, h⟩ := h
  have hblock : vb.block = b := (BlockChain.verifyBlock_eq_ok h).2.1
  rw [hblock]
  exact ⟨hb, BlockChain.verifyBlock_ofBlock h⟩

/-! ## Waiting blocks -/

/-- The blocks that these hashes release out of `m_unknown`, and those that stay. -/
abbrev releaseUnknown (fuel : ℕ) (keys : List H256) (u : List (H256 × H256 × Bytes)) :
    List (H256 × H256 × Bytes) × List (H256 × H256 × Bytes) :=
  Waiting.release (fun e => e.1) (fun e => e.2.1) fuel keys u

abbrev ReleasedUnknown (keys : List H256) (u : Multiset (H256 × H256 × Bytes))
    (out : List (H256 × H256 × Bytes)) (stay : Multiset (H256 × H256 × Bytes)) : Prop :=
  Waiting.Released (fun e => e.1) (fun e => e.2.1) keys u out stay

def hashesOf (l : List (H256 × H256 × Bytes)) : Finset H256 := (l.map fun e => e.2.1).toFinset

theorem hashesOf_append (l l' : List (H256 × H256 × Bytes)) :
    hashesOf (l ++ l') = hashesOf l ∪ hashesOf l' := by
  simp [hashesOf]

theorem names_unknownItem (l : List (H256 × H256 × Bytes)) :
    Intake.names (l.map unknownItem) = hashesOf l := by
  simp [Intake.names, hashesOf, unknownItem, Function.comp_def]

theorem removeByKeyEqual_eq (m : SizedBlockMap H256) (k : H256) :
    ∃ n, m.removeByKeyEqual k =
      (m.m_map.filter (·.1 = k), ⟨m.m_map.filter (·.1 ≠ k), n⟩) := by
  refine ⟨m.m_size - BitVec.ofNat 64 (SizedBlockMap.bytesOf (m.m_map.filter (·.1 = k))), ?_⟩
  simp [SizedBlockMap.removeByKeyEqual, SizedBlockMap.removeRange]

theorem collectUnknownBad_go (fuel : ℕ) (keys : List H256) (q : BlockQueue) :
    ∃ n, collectUnknownBad.go fuel keys q =
      { q with
        m_unknown := ⟨(releaseUnknown fuel keys q.m_unknown.m_map).2, n⟩
        m_unknownSet := q.m_unknownSet \ hashesOf (releaseUnknown fuel keys q.m_unknown.m_map).1
        m_knownBad := q.m_knownBad ∪ hashesOf (releaseUnknown fuel keys q.m_unknown.m_map).1 } := by
  induction fuel generalizing keys q with
  | zero => exact ⟨q.m_unknown.m_size, by simp [collectUnknownBad.go, Waiting.release, hashesOf]⟩
  | succ fuel ih =>
    cases keys with
    | nil => exact ⟨q.m_unknown.m_size, by simp [collectUnknownBad.go, Waiting.release, hashesOf]⟩
    | cons k keys =>
      obtain ⟨n, hn⟩ := removeByKeyEqual_eq q.m_unknown k
      unfold collectUnknownBad.go
      rw [hn]
      obtain ⟨n', hn'⟩ := ih (keys ++ (q.m_unknown.m_map.filter (·.1 = k)).map fun e => e.2.1)
        { q with
          m_unknown := ⟨q.m_unknown.m_map.filter (·.1 ≠ k), n⟩
          m_unknownSet := q.m_unknownSet \ hashesOf (q.m_unknown.m_map.filter (·.1 = k))
          m_knownBad := q.m_knownBad ∪ hashesOf (q.m_unknown.m_map.filter (·.1 = k)) }
      refine ⟨n', hn'.trans ?_⟩
      simp only [releaseUnknown, Waiting.release, hashesOf_append, Finset.union_assoc,
        sdiff_sdiff_left, Finset.sup_eq_union]

/-- A block that waited, as it joins the blocks to verify. -/
def unverifiedOf (e : H256 × H256 × Bytes) : UnverifiedBlock := ⟨e.2.1, e.1, e.2.2⟩

/-- The blocks of one parent, enqueued one by one. -/
theorem enqueueAll_eq {k : H256} : ∀ {l : List (H256 × H256 × Bytes)}, (∀ e ∈ l, e.1 = k) →
    ∀ u : SizedBlockQueue UnverifiedBlock,
      ∃ n, l.foldl (fun u e => u.enqueue ⟨e.2.1, k, e.2.2⟩) u =
        ⟨u.m_queue ++ l.map unverifiedOf, n⟩
  | [], _, u => ⟨u.m_size, by simp⟩
  | e :: l, h, u => by
    obtain ⟨he, hl⟩ := List.forall_mem_cons.1 h
    obtain ⟨n, hn⟩ := enqueueAll_eq hl (u.enqueue ⟨e.2.1, k, e.2.2⟩)
    refine ⟨n, ?_⟩
    rw [List.foldl_cons, hn]
    subst he
    simp [SizedBlockQueue.enqueue, unverifiedOf]

/-- The queue once some of the blocks that waited are ready. -/
def makeReady (q : BlockQueue) (out stay : List (H256 × H256 × Bytes)) (n n' : BitVec 64) :
    BlockQueue :=
  { q with
    m_unknown := ⟨stay, n⟩
    m_unverified := ⟨q.m_unverified.m_queue ++ out.map unverifiedOf, n'⟩
    m_unknownSet := q.m_unknownSet \ hashesOf out
    m_readySet := q.m_readySet ∪ hashesOf out }

theorem makeReady_makeReady (q : BlockQueue) (out stay out' stay' : List (H256 × H256 × Bytes))
    (m m' n n' : BitVec 64) : (q.makeReady out stay m m').makeReady out' stay' n n' =
      q.makeReady (out ++ out') stay' n n' := by
  simp only [makeReady, hashesOf_append, Finset.union_assoc, sdiff_sdiff_left, Finset.sup_eq_union,
    List.map_append, List.append_assoc]

theorem makeReady_nil (q : BlockQueue) :
    q = q.makeReady [] q.m_unknown.m_map q.m_unknown.m_size q.m_unverified.m_size := by
  simp [makeReady, hashesOf]

/-- All the blocks that wait for one parent are made ready. -/
theorem makeReady_key (q : BlockQueue) (k : H256) : ∃ n n',
    { q with
      m_unknown := (q.m_unknown.removeByKeyEqual k).2
      m_unverified := (q.m_unknown.removeByKeyEqual k).1.foldl
        (fun u e => u.enqueue ⟨e.2.1, k, e.2.2⟩) q.m_unverified
      m_unknownSet := q.m_unknownSet \
        ((q.m_unknown.removeByKeyEqual k).1.map fun e => e.2.1).toFinset
      m_readySet := q.m_readySet ∪
        ((q.m_unknown.removeByKeyEqual k).1.map fun e => e.2.1).toFinset } =
      q.makeReady (q.m_unknown.m_map.filter (·.1 = k)) (q.m_unknown.m_map.filter (·.1 ≠ k)) n n' := by
  obtain ⟨n, hn⟩ := removeByKeyEqual_eq q.m_unknown k
  have hk : ∀ e ∈ q.m_unknown.m_map.filter (·.1 = k), e.1 = k := fun e he => by
    simpa using (List.mem_filter.1 he).2
  obtain ⟨n', hn'⟩ := enqueueAll_eq hk q.m_unverified
  refine ⟨n, n', ?_⟩
  rw [hn]
  simp only
  rw [hn']
  rfl

theorem noteReady_go (fuel : ℕ) (keys : List H256) (q : BlockQueue) :
    ∃ n n', noteReady.go fuel keys q =
      q.makeReady (releaseUnknown fuel keys q.m_unknown.m_map).1
        (releaseUnknown fuel keys q.m_unknown.m_map).2 n n' := by
  induction fuel generalizing keys q with
  | zero => exact ⟨_, _, makeReady_nil q⟩
  | succ fuel ih =>
    cases keys with
    | nil => exact ⟨_, _, makeReady_nil q⟩
    | cons k keys =>
      obtain ⟨m, m', hm⟩ := makeReady_key q k
      obtain ⟨n, hn⟩ := removeByKeyEqual_eq q.m_unknown k
      unfold noteReady.go
      obtain ⟨n, n', hn'⟩ := ih (keys ++ (q.m_unknown.m_map.filter (·.1 = k)).map fun e => e.2.1)
        (q.makeReady (q.m_unknown.m_map.filter (·.1 = k)) (q.m_unknown.m_map.filter (·.1 ≠ k)) m m')
      refine ⟨n, n', ?_⟩
      dsimp only
      rw [hm, show (q.m_unknown.removeByKeyEqual k).1 = q.m_unknown.m_map.filter (·.1 = k) by rw [hn],
        hn', makeReady_makeReady]
      rfl

/-- `noteReady` makes those ready that wait for the block, and those that wait for them. -/
theorem noteReady_eq (q : BlockQueue) (good : H256) :
    ∃ out, ∃ stay : List (H256 × H256 × Bytes), ∃ n n',
    ReleasedUnknown [good] ↑q.m_unknown.m_map out ↑stay ∧
      q.noteReady good = q.makeReady out stay n n' := by
  obtain ⟨n, n', h⟩ := noteReady_go (q.m_unknown.count + 1) [good] q
  refine ⟨_, _, n, n', Waiting.released_release ?_, h⟩
  simp [SizedBlockMap.count, Nat.add_comm]

theorem retryAllUnknown_go (fuel : ℕ) (q : BlockQueue) (hfuel : q.m_unknown.count ≤ fuel) :
    ∃ out n n', out.Perm q.m_unknown.m_map ∧
      retryAllUnknown.go fuel q = q.makeReady out [] n n' := by
  induction fuel generalizing q with
  | zero =>
    have hnil : q.m_unknown.m_map = [] := List.length_eq_zero_iff.1 (Nat.le_zero.1 hfuel)
    refine ⟨[], q.m_unknown.m_size, q.m_unverified.m_size, by rw [hnil], ?_⟩
    have h := makeReady_nil q
    rw [hnil] at h
    exact h
  | succ fuel ih =>
    unfold retryAllUnknown.go
    split
    · rename_i hnil
      refine ⟨[], q.m_unknown.m_size, q.m_unverified.m_size, by rw [hnil], ?_⟩
      have h := makeReady_nil q
      rw [hnil] at h
      exact h
    · rename_i k v rest hmap
      obtain ⟨m, m', hm⟩ := makeReady_key q k
      -- the first entry is among those that go
      have hlen : (q.m_unknown.m_map.filter (·.1 ≠ k)).length ≤ fuel := by
        have hle := List.length_filter_le (fun e : H256 × H256 × Bytes => decide (e.1 ≠ k)) rest
        have hcount : rest.length + 1 ≤ fuel + 1 := by
          simpa [SizedBlockMap.count, hmap] using hfuel
        rw [hmap, List.filter_cons_of_neg (by simp)]
        omega
      obtain ⟨out, n, n', hperm, h⟩ := ih
        (q.makeReady (q.m_unknown.m_map.filter (·.1 = k)) (q.m_unknown.m_map.filter (·.1 ≠ k)) m m')
        hlen
      refine ⟨q.m_unknown.m_map.filter (·.1 = k) ++ out, n, n', ?_, ?_⟩
      · have hsplit : (q.m_unknown.m_map.filter (·.1 = k) ++
            q.m_unknown.m_map.filter (·.1 ≠ k)).Perm q.m_unknown.m_map :=
          Waiting.filter_append_filter_ne _ k
        exact (List.Perm.append_left _ hperm).trans hsplit
      · dsimp only
        rw [hm, h, makeReady_makeReady]

theorem retryAllUnknown_eq (q : BlockQueue) : ∃ out n n', out.Perm q.m_unknown.m_map ∧
    q.retryAllUnknown = q.makeReady out [] n n' :=
  retryAllUnknown_go _ q le_rfl

theorem released_items {keys : List H256} {u out stay : List (H256 × H256 × Bytes)}
    (h : ReleasedUnknown keys ↑u out ↑stay) :
    Intake.Released keys ↑(u.map unknownItem) (out.map unknownItem) ↑(stay.map unknownItem) := by
  have hm : Waiting.Released Item.after Item.name keys _ _ _ :=
    h.map unknownItem (fun _ => rfl) (fun _ => rfl)
  exact hm

theorem mem_of_released {keys : List H256} {u out stay : List (H256 × H256 × Bytes)}
    (h : ReleasedUnknown keys ↑u out ↑stay) : out ⊆ u ∧ stay ⊆ u := by
  have heq : (↑u : Multiset (H256 × H256 × Bytes)) = ↑(out ++ stay) := by
    rw [h.eq, Multiset.coe_add]
  have hperm := Multiset.coe_eq_coe.1 heq
  exact ⟨fun e he => hperm.mem_iff.2 (List.mem_append_left _ he),
    fun e he => hperm.mem_iff.2 (List.mem_append_right _ he)⟩

theorem view_makeReady (c : Crypto) (q : BlockQueue) (out stay : List (H256 × H256 × Bytes))
    (n n' : BitVec 64) : (q.makeReady out stay n n').view c =
      (q.view c).release (out.map unknownItem) ↑(stay.map unknownItem) := by
  simp [view, makeReady, Intake.State.release, names_unknownItem, unverifiedOf,
    UnverifiedBlock.item, unknownItem, Function.comp_def]

theorem Shaped.makeReady {q : BlockQueue} (hq : q.Shaped B)
    {out stay : List (H256 × H256 × Bytes)} (ho : out ⊆ q.m_unknown.m_map)
    (hs : stay ⊆ q.m_unknown.m_map) (n n' : BitVec 64) : (q.makeReady out stay n n').Shaped B where
  verified := hq.verified
  verifying := hq.verifying
  unverified u hu := by
    rcases List.mem_append.1 hu with hu | hu
    · exact hq.unverified u hu
    · obtain ⟨e, he, rfl⟩ := List.mem_map.1 hu
      exact hq.unknown e (ho he)
  unknown e he := hq.unknown e (hs he)
  future := hq.future

/-! ## Bad blocks -/

/-- The queue once hashes are bad, and some of the blocks that waited. -/
def markBad (q : BlockQueue) (hashes : Finset H256) (out stay : List (H256 × H256 × Bytes))
    (n : BitVec 64) : BlockQueue :=
  { q with
    m_readySet := q.m_readySet \ hashes
    m_knownBad := q.m_knownBad ∪ hashes ∪ hashesOf out
    m_unknown := ⟨stay, n⟩
    m_unknownSet := q.m_unknownSet \ hashesOf out }

theorem markBad_markBad (q : BlockQueue) (hs hs' : Finset H256)
    (out stay out' stay' : List (H256 × H256 × Bytes)) (n n' : BitVec 64) :
    (q.markBad hs out stay n).markBad hs' out' stay' n' =
      q.markBad (hs ∪ hs') (out ++ out') stay' n' := by
  simp only [markBad, hashesOf_append, Finset.union_assoc, sdiff_sdiff_left, Finset.sup_eq_union,
    Finset.union_left_comm (hashesOf out) hs']

theorem markBad_nil (q : BlockQueue) :
    q = q.markBad ∅ [] q.m_unknown.m_map q.m_unknown.m_size := by
  simp [markBad, hashesOf]

theorem collectUnknownBad_eq (q : BlockQueue) (bad : H256) :
    ∃ out, ∃ stay : List (H256 × H256 × Bytes), ∃ n,
      ReleasedUnknown [bad] ↑q.m_unknown.m_map out ↑stay ∧
        q.collectUnknownBad bad = q.markBad ∅ out stay n := by
  obtain ⟨n, h⟩ := collectUnknownBad_go (q.m_unknown.count + 1) [bad] q
  have hfuel : [bad].length + q.m_unknown.m_map.length ≤ q.m_unknown.count + 1 := by
    simp [SizedBlockMap.count, Nat.add_comm]
  refine ⟨_, _, n, Waiting.released_release hfuel, ?_⟩
  unfold collectUnknownBad
  rw [h]
  simp [markBad]

theorem noteBad_eq (q : BlockQueue) (bad : H256) :
    ∃ out, ∃ stay : List (H256 × H256 × Bytes), ∃ n,
      ReleasedUnknown [bad] ↑q.m_unknown.m_map out ↑stay ∧
        q.noteBad bad = q.markBad {bad} out stay n := by
  obtain ⟨out, stay, n, hR, h⟩ := collectUnknownBad_eq
    { q with m_knownBad := insert bad q.m_knownBad, m_readySet := q.m_readySet.erase bad } bad
  refine ⟨out, stay, n, hR, ?_⟩
  unfold noteBad
  rw [h]
  simp only [markBad, Finset.sdiff_empty, Finset.union_empty, Finset.erase_eq, Finset.insert_eq,
    Finset.union_comm {bad}]

/-- Hashes that are noted as bad one after the other. -/
theorem noteBads_eq (hashes : List H256) (q : BlockQueue) :
    ∃ out, ∃ stay : List (H256 × H256 × Bytes), ∃ n,
      ReleasedUnknown hashes ↑q.m_unknown.m_map out ↑stay ∧
        hashes.foldl noteBad q = q.markBad hashes.toFinset out stay n := by
  induction hashes generalizing q with
  | nil => exact ⟨_, _, _, Waiting.Released.refl, markBad_nil q⟩
  | cons h hashes ih =>
    obtain ⟨out, stay, n, hR, heq⟩ := noteBad_eq q h
    obtain ⟨out', stay', n', hR', heq'⟩ := ih (q.noteBad h)
    rw [heq] at hR' heq'
    refine ⟨out ++ out', stay', n', hR.trans hR', ?_⟩
    rw [List.foldl_cons, heq, heq', markBad_markBad, List.toFinset_cons, Finset.insert_eq]

theorem view_markBad (c : Crypto) (q : BlockQueue) (hashes : Finset H256)
    (out stay : List (H256 × H256 × Bytes)) (n : BitVec 64) :
    (q.markBad hashes out stay n).view c =
      { q.view c with
        waiting := ↑(stay.map unknownItem), ready := (q.view c).ready \ hashes
        unknown := (q.view c).unknown \ hashesOf out
        bad := (q.view c).bad ∪ hashes ∪ hashesOf out } := rfl

/-- A part of the line loses bad blocks, which are noted as such. -/
theorem spoiled_noteBads {α : Type} (f : α → Item H256) (p : α → Bool) {l : List α}
    {pre suf : List (Item H256)} {c : Crypto} {q q' : BlockQueue} (hm : (q.view c).Member)
    (hline : (q.view c).line = pre ++ (l.map f ++ suf))
    (hq' : q'.view c = { q.view c with line := pre ++ ((l.filter (!p ·)).map f ++ suf) })
    (hp : ∀ a ∈ l, p a = true → (f a).after ∈ q.m_knownBad ∨ (f a).name ∈ q.m_knownBad) :
    Intake.State.Spoiled (q.view c)
      ((((l.filter p).map fun a => (f a).name).foldl noteBad q').view c) := by
  set hashes := (l.filter p).map fun a => (f a).name with hdef
  have hmemL : ∀ a ∈ l, f a ∈ (q.view c).line := by
    intro a ha
    rw [hline]
    exact List.mem_append_right _ (List.mem_append_left _ (List.mem_map_of_mem ha))
  have hname : ∀ k ∈ hashes.toFinset, ∃ a ∈ l, p a = true ∧ (f a).name = k := by
    intro k hk
    rw [List.mem_toFinset, hdef, List.mem_map] at hk
    obtain ⟨a, ha, hk⟩ := hk
    exact ⟨a, (List.mem_filter.1 ha).1, (List.mem_filter.1 ha).2, hk⟩
  obtain ⟨out, stay, n, hR, heq⟩ := noteBads_eq hashes q'
  have hdrop : Intake.State.Spoil (q.view c) ((q.view c).drop hashes.toFinset) := by
    apply Intake.State.Spoil.drop
    · intro k hk
      obtain ⟨a, ha, -, hk⟩ := hname k hk
      exact ⟨f a, hmemL a ha, hk⟩
    · intro x hx hk
      obtain ⟨a, ha, hpa, hk⟩ := hname _ hk
      have hxa : f a = x := List.inj_on_of_nodup_map hm.nodup (hmemL a ha) hx hk
      rw [← hxa]
      exact hp a ha hpa
  have hwait : ((q.view c).drop hashes.toFinset).waiting = ↑(q'.m_unknown.m_map.map unknownItem) := by
    have h := congrArg Intake.State.waiting hq'
    exact h.symm
  have hcollect : Intake.State.Spoil ((q.view c).drop hashes.toFinset)
      (((q.view c).drop hashes.toFinset).collect (out.map unknownItem) ↑(stay.map unknownItem)) := by
    apply Intake.State.Spoil.collect hashes
    · intro k hk
      exact Finset.mem_union_right _ (List.mem_toFinset.2 hk)
    · rw [hwait]
      exact released_items hR
  have hview : (hashes.foldl noteBad q').view c =
      ((q.view c).drop hashes.toFinset).collect (out.map unknownItem) ↑(stay.map unknownItem) := by
    have hfilter := Intake.filter_part f p (by rw [← hline]; exact hm.nodup)
    rw [heq, view_markBad, hq']
    simp only [Intake.State.drop, Intake.State.collect, names_unknownItem, hline, hdef, hfilter]
  rw [hview]
  exact (Relation.ReflTransGen.single hdrop).tail hcollect

/-- Blocks that wait for a bad one are bad. -/
theorem view_collectUnknownBad (c : Crypto) (q : BlockQueue) (bad : H256) :
    ∃ out stay, Intake.Released [bad] (q.view c).waiting out stay ∧
      (q.collectUnknownBad bad).view c = (q.view c).collect out stay := by
  obtain ⟨out, stay, n, hR, heq⟩ := collectUnknownBad_eq q bad
  refine ⟨out.map unknownItem, ↑(stay.map unknownItem), released_items hR, ?_⟩
  rw [heq, view_markBad]
  simp only [Intake.State.collect, names_unknownItem, Finset.sdiff_empty, Finset.union_empty]

end BlockQueue

end Petrachor
