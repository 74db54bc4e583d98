import Petrachor.Lib.RemoveIf
import Petrachor.Lib.StateRun
import Petrachor.Common

/-!
# Containers that count the bytes they hold

`SizedBlockQueue` and `SizedBlockMap` keep a counter of the bytes of the blocks in them beside the
blocks. The counters are of `size_t` and wrap. A move leaves an empty vector of bytes behind; a
header, which has no move of its own, is copied and stays.
-/

namespace Petrachor

/-- What the templates use of an entry: its bytes, and the entry that a move leaves behind. -/
class BlockEntry (T : Type) where
  blockData : T → Bytes
  movedFrom : T → T

/-- The bytes of some entries, counted. -/
def dataSize {T : Type} [BlockEntry T] (l : List T) : ℕ :=
  (l.map fun t => (BlockEntry.blockData t).length).sum

section

variable {T : Type} [BlockEntry T]

@[simp] theorem dataSize_nil : dataSize ([] : List T) = 0 := rfl

@[simp] theorem dataSize_cons (t : T) (l : List T) :
    dataSize (t :: l) = (BlockEntry.blockData t).length + dataSize l := by
  simp [dataSize]

@[simp] theorem dataSize_append (l l' : List T) :
    dataSize (l ++ l') = dataSize l + dataSize l' := by
  simp [dataSize]

theorem dataSize_perm {l l' : List T} (h : l.Perm l') : dataSize l = dataSize l' :=
  (h.map _).sum_eq

end

/-! ## Queues -/

structure SizedBlockQueue (T : Type) where
  m_queue : List T
  m_size : BitVec 64

namespace SizedBlockQueue

variable {T : Type} [BlockEntry T]

def empty : SizedBlockQueue T := ⟨[], 0⟩

omit [BlockEntry T] in
def count (q : SizedBlockQueue T) : ℕ := q.m_queue.length

def enqueue (q : SizedBlockQueue T) (t : T) : SizedBlockQueue T :=
  ⟨q.m_queue ++ [t], q.m_size + BitVec.ofNat 64 (BlockEntry.blockData t).length⟩

/-- The front of a queue that is not empty. -/
def dequeue (q : SizedBlockQueue T) : Option (T × SizedBlockQueue T) :=
  match q.m_queue with
  | [] => none
  | t :: rest => some (t, ⟨rest, q.m_size - BitVec.ofNat 64 (BlockEntry.blockData t).length⟩)

/-- The counter goes down by what is moved out. -/
def subtract (size : BitVec 64) (out : List T) : BitVec 64 :=
  out.foldl (fun size t => size - BitVec.ofNat 64 (BlockEntry.blockData t).length) size

def dequeueMultiple (q : SizedBlockQueue T) (n : ℕ) : List T × SizedBlockQueue T :=
  (q.m_queue.take n, ⟨q.m_queue.drop n, subtract q.m_size (q.m_queue.take n)⟩)

/-- `removeIf`: what `std::remove_if` leaves behind is returned as removed, and counted. -/
def removeIf (q : SizedBlockQueue T) (pred : T → Bool) : List T × SizedBlockQueue T :=
  let r := RemoveIf.removeIf pred BlockEntry.movedFrom q.m_queue
  (r.2, ⟨r.1, subtract q.m_size r.2⟩)

/-- `replace`: the first entry that is found. -/
def replace (q : SizedBlockQueue T) (found : T → Bool) (t : T) : SizedBlockQueue T :=
  match q.m_queue.find? found with
  | none => q
  | some old =>
    ⟨q.m_queue.takeWhile (!found ·) ++ t :: (q.m_queue.dropWhile (!found ·)).tail,
      q.m_size - BitVec.ofNat 64 (BlockEntry.blockData old).length +
        BitVec.ofNat 64 (BlockEntry.blockData t).length⟩

end SizedBlockQueue

/-! ## Multimaps -/

/-- A multimap of blocks with their hashes, ordered by its keys. -/
structure SizedBlockMap (K : Type) where
  m_map : List (K × H256 × Bytes)
  m_size : BitVec 64

namespace SizedBlockMap

variable {K : Type}

def empty : SizedBlockMap K := ⟨[], 0⟩

def count (m : SizedBlockMap K) : ℕ := m.m_map.length

/-- The bytes of some entries, counted. -/
def bytesOf (l : List (K × H256 × Bytes)) : ℕ := (l.map fun e => e.2.2.length).sum

/-- An entry goes behind those of its key. The counter is raised by the size of the parameter, which
has been moved from by then. -/
def insert [LE K] [DecidableLE K] (m : SizedBlockMap K) (key : K) (hash : H256) (blockData : Bytes) :
    SizedBlockMap K :=
  let moved : Bytes := []
  ⟨m.m_map.takeWhile (·.1 ≤ key) ++ (key, hash, blockData) :: m.m_map.dropWhile (·.1 ≤ key),
    m.m_size + BitVec.ofNat 64 moved.length⟩

/-- The entries of a range are moved out one by one, and their sizes added up. -/
def removeRange (m : SizedBlockMap K) (inRange : K → Bool) :
    List (K × H256 × Bytes) × SizedBlockMap K :=
  let removed := m.m_map.filter (inRange ·.1)
  (removed, ⟨m.m_map.filter (!inRange ·.1), m.m_size - BitVec.ofNat 64 (bytesOf removed)⟩)

def removeByKeyEqual [DecidableEq K] (m : SizedBlockMap K) (key : K) :
    List (K × H256 × Bytes) × SizedBlockMap K :=
  m.removeRange (· = key)

def removeByKeyNotGreater [LE K] [DecidableLE K] (m : SizedBlockMap K) (key : K) :
    List (K × H256 × Bytes) × SizedBlockMap K :=
  m.removeRange (· ≤ key)

end SizedBlockMap

/-! ## What the counters count -/

namespace SizedBlockQueue

variable {T : Type} [BlockEntry T] {q : SizedBlockQueue T}

/-- The counter is the number of bytes in the queue. -/
def Exact (q : SizedBlockQueue T) : Prop := q.m_size.toNat = dataSize q.m_queue

theorem toNat_subtract (out : List T) {size : BitVec 64} (h : dataSize out ≤ size.toNat) :
    (subtract size out).toNat = size.toNat - dataSize out := by
  induction out generalizing size with
  | nil => simp [subtract]
  | cons t out ih =>
    rw [dataSize_cons] at h ⊢
    have hlt := size.isLt
    have hsize : (size - BitVec.ofNat 64 (BlockEntry.blockData t).length).toNat =
        size.toNat - (BlockEntry.blockData t).length := by
      rw [BitVec.toNat_sub_of_le]
      · rw [BitVec.toNat_ofNat, Nat.mod_eq_of_lt (by omega)]
      · rw [BitVec.le_def, BitVec.toNat_ofNat, Nat.mod_eq_of_lt (by omega)]
        omega
    change (subtract (size - BitVec.ofNat 64 (BlockEntry.blockData t).length) out).toNat = _
    rw [ih (by omega), hsize]
    omega

theorem exact_empty : (empty : SizedBlockQueue T).Exact := rfl

theorem Exact.enqueue (h : q.Exact) {t : T}
    (hfit : dataSize q.m_queue + (BlockEntry.blockData t).length < 2 ^ 64) :
    (q.enqueue t).Exact := by
  unfold Exact at h ⊢
  change (q.m_size + BitVec.ofNat 64 (BlockEntry.blockData t).length).toNat =
    dataSize (q.m_queue ++ [t])
  rw [dataSize_append, dataSize_cons, dataSize_nil, BitVec.toNat_add, BitVec.toNat_ofNat, h]
  omega

theorem Exact.dequeue (h : q.Exact) {t : T} {q' : SizedBlockQueue T}
    (he : q.dequeue = some (t, q')) : q'.Exact := by
  unfold SizedBlockQueue.dequeue at he
  unfold Exact at h
  split at he
  · cases he
  · rename_i t' rest hq
    rw [hq, dataSize_cons] at h
    have hlt := q.m_size.isLt
    cases he
    change (q.m_size - BitVec.ofNat 64 (BlockEntry.blockData t).length).toNat = dataSize rest
    rw [BitVec.toNat_sub_of_le]
    · rw [BitVec.toNat_ofNat, Nat.mod_eq_of_lt (by omega)]
      omega
    · rw [BitVec.le_def, BitVec.toNat_ofNat, Nat.mod_eq_of_lt (by omega)]
      omega

theorem Exact.dequeueMultiple (h : q.Exact) (n : ℕ) : (q.dequeueMultiple n).2.Exact := by
  unfold Exact at h ⊢
  have hsum : dataSize q.m_queue = dataSize (q.m_queue.take n) + dataSize (q.m_queue.drop n) := by
    rw [← dataSize_append, List.take_append_drop]
  change (subtract q.m_size (q.m_queue.take n)).toNat = dataSize (q.m_queue.drop n)
  rw [toNat_subtract _ (by omega), h, hsum]
  omega

/-- A removal at the end is counted right. -/
theorem Exact.removeIf (h : q.Exact) {pred : T → Bool} (ht : RemoveIf.Trailing pred q.m_queue) :
    (q.removeIf pred).2.Exact := by
  unfold Exact at h ⊢
  have hsum := dataSize_perm (List.filter_append_perm pred q.m_queue)
  rw [dataSize_append] at hsum
  change (subtract q.m_size (RemoveIf.removeIf pred BlockEntry.movedFrom q.m_queue).2).toNat =
    dataSize (RemoveIf.removeIf pred BlockEntry.movedFrom q.m_queue).1
  rw [RemoveIf.removeIf_snd ht, RemoveIf.removeIf_fst, toNat_subtract _ (by omega), h]
  omega

omit [BlockEntry T] in
/-- The queue is the part in front of the first entry found, that entry, and the rest. -/
theorem find_split (l : List T) (found : T → Bool) {old : T} (h : l.find? found = some old) :
    l = l.takeWhile (!found ·) ++ old :: (l.dropWhile (!found ·)).tail := by
  induction l with
  | nil => cases h
  | cons t l ih =>
    by_cases ht : found t = true
    · rw [List.find?_cons_of_pos ht] at h
      cases h
      simp [ht]
    · rw [List.find?_cons_of_neg ht] at h
      rw [List.takeWhile_cons_of_pos (by simpa using ht), List.dropWhile_cons_of_pos (by simpa using ht),
        List.cons_append, ← ih h]

/-- Every entry is one that was there, or the new one. -/
theorem mem_replace {found : T → Bool} {t e : T} (h : e ∈ (q.replace found t).m_queue) :
    e ∈ q.m_queue ∨ e = t := by
  unfold SizedBlockQueue.replace at h
  split at h
  · exact .inl h
  · rename_i old hold
    have hsplit := find_split q.m_queue found hold
    rcases List.mem_append.1 h with h | h
    · left
      rw [hsplit]
      exact List.mem_append_left _ h
    · rcases List.mem_cons.1 h with h | h
      · exact .inr h
      · left
        rw [hsplit]
        exact List.mem_append_right _ (List.mem_cons_of_mem _ h)

theorem Exact.replace (h : q.Exact) {found : T → Bool} {t : T}
    (hfit : dataSize q.m_queue + (BlockEntry.blockData t).length < 2 ^ 64) :
    (q.replace found t).Exact := by
  unfold SizedBlockQueue.replace
  split
  · exact h
  · rename_i old hold
    unfold Exact at h ⊢
    have hsum := congrArg dataSize (find_split q.m_queue found hold)
    rw [dataSize_append, dataSize_cons] at hsum
    have hold' : (q.m_size - BitVec.ofNat 64 (BlockEntry.blockData old).length).toNat =
        q.m_size.toNat - (BlockEntry.blockData old).length := by
      rw [BitVec.toNat_sub_of_le]
      · rw [BitVec.toNat_ofNat, Nat.mod_eq_of_lt (by omega)]
      · rw [BitVec.le_def, BitVec.toNat_ofNat, Nat.mod_eq_of_lt (by omega)]
        omega
    simp only [dataSize_append, dataSize_cons]
    rw [BitVec.toNat_add, hold', BitVec.toNat_ofNat]
    omega

/-- The operations on a queue. -/
inductive Op (T : Type)
  | enqueue (t : T)
  | dequeue
  | dequeueMultiple (n : ℕ)
  | removeIf (pred : T → Bool)
  | replace (found : T → Bool) (t : T)

def step (q : SizedBlockQueue T) : Op T → SizedBlockQueue T
  | .enqueue t => q.enqueue t
  | .dequeue => (q.dequeue).elim q Prod.snd
  | .dequeueMultiple n => (q.dequeueMultiple n).2
  | .removeIf pred => (q.removeIf pred).2
  | .replace found t => q.replace found t

/-- The operation is counted right: what it adds fits into the counter, and what it removes by a
predicate is at the end. -/
def Op.Counted (q : SizedBlockQueue T) : Op T → Prop
  | .enqueue t => dataSize q.m_queue + (BlockEntry.blockData t).length < 2 ^ 64
  | .removeIf pred => RemoveIf.Trailing pred q.m_queue
  | .replace _ t => dataSize q.m_queue + (BlockEntry.blockData t).length < 2 ^ 64
  | _ => True

instance (q : SizedBlockQueue T) : ∀ op : Op T, Decidable (op.Counted q)
  | .enqueue _ => Nat.decLt _ _
  | .dequeue => .isTrue trivial
  | .dequeueMultiple _ => .isTrue trivial
  | .removeIf _ => inferInstanceAs (Decidable (RemoveIf.Trailing _ _))
  | .replace _ _ => Nat.decLt _ _

theorem Exact.step (h : q.Exact) {op : Op T} (hc : op.Counted q) : (q.step op).Exact := by
  cases op with
  | enqueue t => exact h.enqueue hc
  | dequeue =>
    unfold SizedBlockQueue.step
    cases hd : q.dequeue with
    | none => exact h
    | some r => exact h.dequeue hd
  | dequeueMultiple n => exact h.dequeueMultiple n
  | removeIf pred => exact h.removeIf hc
  | replace found t => exact h.replace hc

end SizedBlockQueue

namespace SizedBlockMap

variable {K : Type} {m : SizedBlockMap K}

/-- The counter is the number of bytes in the map. -/
def Exact (m : SizedBlockMap K) : Prop := m.m_size.toNat = bytesOf m.m_map

theorem bytesOf_append (l l' : List (K × H256 × Bytes)) :
    bytesOf (l ++ l') = bytesOf l + bytesOf l' := by
  simp [bytesOf]

theorem bytesOf_perm {l l' : List (K × H256 × Bytes)} (h : l.Perm l') : bytesOf l = bytesOf l' :=
  (h.map _).sum_eq

theorem exact_empty : (empty : SizedBlockMap K).Exact := rfl

theorem insert_perm [LE K] [DecidableLE K] (m : SizedBlockMap K) (key : K) (hash : H256)
    (blockData : Bytes) :
    (m.insert key hash blockData).m_map.Perm ((key, hash, blockData) :: m.m_map) := by
  have h : ((key, hash, blockData) :: (m.m_map.takeWhile (·.1 ≤ key) ++
      m.m_map.dropWhile (·.1 ≤ key))).Perm ((key, hash, blockData) :: m.m_map) := by
    rw [List.takeWhile_append_dropWhile]
  exact List.perm_middle.trans h

/-- An empty block is all that the insertion counts right. -/
theorem exact_insert_iff [LE K] [DecidableLE K] (h : m.Exact) (key : K) (hash : H256)
    (blockData : Bytes) : (m.insert key hash blockData).Exact ↔ blockData = [] := by
  have hsum := bytesOf_perm (insert_perm m key hash blockData)
  have hcons : bytesOf ((key, hash, blockData) :: m.m_map) = blockData.length + bytesOf m.m_map := by
    simp [bytesOf]
  have hsize : (m.insert key hash blockData).m_size = m.m_size := by
    simp [insert]
  unfold Exact at h ⊢
  rw [hsize, hsum, hcons, h, ← List.length_eq_zero_iff]
  omega

theorem Exact.removeRange (h : m.Exact) (inRange : K → Bool) : (m.removeRange inRange).2.Exact := by
  unfold Exact at h ⊢
  have hsum := bytesOf_perm (List.filter_append_perm (fun e : K × H256 × Bytes => inRange e.1) m.m_map)
  rw [bytesOf_append] at hsum
  have hlt := m.m_size.isLt
  change (m.m_size - BitVec.ofNat 64 (bytesOf (m.m_map.filter (inRange ·.1)))).toNat =
    bytesOf (m.m_map.filter (!inRange ·.1))
  rw [BitVec.toNat_sub_of_le]
  · rw [BitVec.toNat_ofNat, Nat.mod_eq_of_lt (by omega)]
    omega
  · rw [BitVec.le_def, BitVec.toNat_ofNat, Nat.mod_eq_of_lt (by omega)]
    omega

/-- The operations on a map. -/
inductive Op (K : Type)
  | insert (key : K) (hash : H256) (blockData : Bytes)
  | removeByKeyEqual (key : K)
  | removeByKeyNotGreater (key : K)

def step [LE K] [DecidableLE K] [DecidableEq K] (m : SizedBlockMap K) : Op K → SizedBlockMap K
  | .insert key hash blockData => m.insert key hash blockData
  | .removeByKeyEqual key => (m.removeByKeyEqual key).2
  | .removeByKeyNotGreater key => (m.removeByKeyNotGreater key).2

/-- The operation is counted right: it inserts nothing but empty blocks. -/
def Op.Counted : Op K → Prop
  | .insert _ _ blockData => blockData = []
  | _ => True

theorem Exact.step [LE K] [DecidableLE K] [DecidableEq K] (h : m.Exact) {op : Op K}
    (hc : op.Counted) : (m.step op).Exact := by
  cases op with
  | insert key hash blockData => exact (exact_insert_iff h key hash blockData).2 hc
  | removeByKeyEqual key => exact h.removeRange _
  | removeByKeyNotGreater key => exact h.removeRange _

end SizedBlockMap

end Petrachor
