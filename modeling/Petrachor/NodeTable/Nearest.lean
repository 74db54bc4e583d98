import Mathlib
import Petrachor.NodeTable
import Petrachor.Lib.Selection

/-!
# The nearest nodes

The search for the nodes nearest to a target goes through the buckets from the target's distance on, outwards, and ends
when it reaches the last bucket. A bucket of index `i` has the nodes of distance `i + 1`. The buckets that it does not
reach are the first one, and those further below the target's distance than the last one is above it.
-/

namespace Petrachor

namespace NodeTable

open SortedMap Selection

def lastBin : ℕ := s_bins - 1

/-- A bucket of the table. -/
def bucket (t : NodeTable) (i : ℕ) : Option (List ℕ) := if i < s_bins then some (t.m_state i) else none

/-- `count` is never increased. -/
def collect (c : Discovery) (t : NodeTable) (target : NodeID) (count : ℕ) :
    List ℕ → List (ℕ × List ℕ) → List (ℕ × List ℕ)
  | [], found => found
  | n :: nodes, found =>
    match t.lock n with
    | none => collect c t target count nodes found
    | some p =>
      if count < s_bucketSize then
        collect c t target count nodes (push (distance c target (t.entry p).id) p found)
      else found

/-- From the target's distance in both directions. -/
def spread (c : Discovery) (t : NodeTable) (target : NodeID) (count head tail : ℕ) (found : List (ℕ × List ℕ)) :
    Option (List (ℕ × List ℕ)) :=
  if head ≠ tail ∧ head < s_bins ∧ count < s_bucketSize then do
    let found := collect c t target count (← t.bucket head) found
    let found ← (if count < s_bucketSize ∧ tail ≠ 0 then do
        return collect c t target count (← t.bucket tail) found
      else some found)
    spread c t target count (head + 1) (if tail ≠ 0 then tail - 1 else tail) found
  else some found
termination_by s_bins - head

def forward (c : Discovery) (t : NodeTable) (target : NodeID) (count head : ℕ) (found : List (ℕ × List ℕ)) :
    Option (List (ℕ × List ℕ)) :=
  if head < s_bins ∧ count < s_bucketSize then do
    forward c t target count (head + 1) (collect c t target count (← t.bucket head) found)
  else some found
termination_by s_bins - head

def backward (c : Discovery) (t : NodeTable) (target : NodeID) (count : ℕ) :
    ℕ → List (ℕ × List ℕ) → Option (List (ℕ × List ℕ))
  | 0, found => some found
  | tail + 1, found =>
    if count < s_bucketSize then do
      backward c t target count tail (collect c t target count (← t.bucket (tail + 1)) found)
    else some found

def nearestNodeEntries (c : Discovery) (t : NodeTable) (target : NodeID) : Option (List ℕ) := do
  let head := distance c t.m_node.id target
  let tail := if head = 0 then lastBin else (head - 1) % s_bins
  let count := 0
  let found ← if 1 < head ∧ tail ≠ lastBin then spread c t target count head tail []
    else if head < 2 then forward c t target count head []
    else backward c t target count tail []
  return ((found.flatMap Prod.snd).filter fun p => (t.entry p).endpoint.isSet && (t.entry p).endpoint.isAllowed c).take
    s_bucketSize

/-! ## What is found -/

/-- The node is there, and its endpoint allowed. -/
def offered (c : Discovery) (t : NodeTable) (p : ℕ) : Bool :=
  t.live p && ((t.entry p).endpoint.isSet && (t.entry p).endpoint.isAllowed c)

/-- The offered nodes of some buckets. -/
def offeredIn (c : Discovery) (t : NodeTable) (bins : List ℕ) : List ℕ := (bins.flatMap t.m_state).filter (offered c t)

/-- The buckets that are gone through for a target of this distance. -/
def reached (head i : ℕ) : Bool :=
  if head < 2 then head ≤ i else 1 ≤ i && (head = s_bins || 2 * head ≤ i + s_bins)

/-- The offered nodes of the buckets that are gone through, and of the others. -/
def near (c : Discovery) (t : NodeTable) (target : NodeID) : List ℕ :=
  offeredIn c t ((List.range s_bins).filter (reached (distance c t.m_node.id target)))

def leftOut (c : Discovery) (t : NodeTable) (target : NodeID) : List ℕ :=
  offeredIn c t ((List.range s_bins).filter fun i => !reached (distance c t.m_node.id target) i)

/-- The sixteen nearest nodes that are offered, or all. -/
def AreNearest (c : Discovery) (t : NodeTable) (target : NodeID) (ret : List ℕ) : Prop :=
  Nearest (fun p => distance c target (t.entry p).id) s_bucketSize (offeredIn c t (List.range s_bins)) ret

/-- For each node that is left out sixteen are gone through that are as near. -/
def Enough (c : Discovery) (t : NodeTable) (target : NodeID) : Prop :=
  ∀ q ∈ leftOut c t target, s_bucketSize ≤ (near c t target).countP fun p =>
    distance c target (t.entry p).id ≤ distance c target (t.entry q).id

section

variable {c : Discovery} {t : NodeTable} {target : NodeID} {head tail i : ℕ} {found : List (ℕ × List ℕ)}
    {l nodes : List ℕ}

/-- The nodes of some buckets that are there. -/
def liveIn (t : NodeTable) (bins : List ℕ) : List ℕ := (bins.flatMap t.m_state).filter t.live

theorem halvings_le : ∀ (n : ℕ) (d : U256), halvings n d ≤ n
  | 0, _ => le_rfl
  | n + 1, d => by
    unfold halvings
    split
    · exact Nat.zero_le _
    · exact Nat.succ_le_succ (halvings_le n _)

theorem distance_le (c : Discovery) (a b : NodeID) : distance c a b ≤ s_bins := halvings_le _ _

theorem collects_collect (h : Collects (fun p => distance c target (t.entry p).id) found l) (nodes : List ℕ) :
    Collects (fun p => distance c target (t.entry p).id) (collect c t target 0 nodes found)
      (l ++ nodes.filter t.live) := by
  induction nodes generalizing found l with
  | nil =>
    rw [List.filter_nil, List.append_nil]
    exact h
  | cons n nodes ih =>
    unfold NodeTable.collect lock
    cases hlive : t.live n with
    | false =>
      rw [List.filter_cons_of_neg (by simp [hlive])]
      exact ih h
    | true =>
      rw [List.filter_cons_of_pos hlive, List.append_cons]
      exact ih (h.push n)

theorem liveIn_cons (i : ℕ) (bins : List ℕ) : liveIn t (i :: bins) = (t.m_state i).filter t.live ++ liveIn t bins := by
  unfold liveIn
  rw [List.flatMap_cons, List.filter_append]

theorem liveIn_perm {bins bins' : List ℕ} (h : bins.Perm bins') : (liveIn t bins).Perm (liveIn t bins') :=
  (h.flatMap_right _).filter _

theorem bucket_of_lt (h : i < s_bins) : t.bucket i = some (t.m_state i) := if_pos h

theorem forward_spec (h : Collects (fun p => distance c target (t.entry p).id) found l) (n head : ℕ)
    (hn : head + n = s_bins) : ∃ found', forward c t target 0 head found = some found' ∧
      Collects (fun p => distance c target (t.entry p).id) found' (l ++ liveIn t (List.range' head n)) := by
  induction n generalizing head found l with
  | zero =>
    rw [forward, if_neg (by omega)]
    refine ⟨found, rfl, ?_⟩
    rwa [List.range'_zero, liveIn, List.flatMap_nil, List.filter_nil, List.append_nil]
  | succ n ih =>
    rw [forward, if_pos ⟨by omega, by decide⟩, bucket_of_lt (by omega)]
    obtain ⟨found', hfound, hc⟩ := ih (collects_collect h (t.m_state head)) (head + 1) (by omega)
    refine ⟨found', hfound, ?_⟩
    rwa [List.range'_succ, liveIn_cons, ← List.append_assoc]

theorem backward_spec (h : Collects (fun p => distance c target (t.entry p).id) found l) (tail : ℕ)
    (htail : tail < s_bins) : ∃ found', backward c t target 0 tail found = some found' ∧
      Collects (fun p => distance c target (t.entry p).id) found' (l ++ liveIn t (List.range' 1 tail)) := by
  induction tail generalizing found l with
  | zero =>
    refine ⟨found, rfl, ?_⟩
    rwa [List.range'_zero, liveIn, List.flatMap_nil, List.filter_nil, List.append_nil]
  | succ tail ih =>
    rw [backward, if_pos (by decide), bucket_of_lt htail]
    obtain ⟨found', hfound, hc⟩ := ih (collects_collect h (t.m_state (tail + 1))) (by omega)
    refine ⟨found', hfound, hc.congr ?_⟩
    have hbins : ((tail + 1) :: List.range' 1 tail).Perm (List.range' 1 (tail + 1)) := by
      rw [List.range'_1_concat, Nat.add_comm 1 tail]
      exact (List.perm_append_singleton _ _).symm
    rw [List.append_assoc, ← liveIn_cons]
    exact (liveIn_perm hbins).append_left _

/-- The buckets from two places on, upwards and down to the second. -/
def spreadBins : ℕ → ℕ → ℕ → List ℕ
  | 0, _, _ => []
  | n + 1, head, tail => head :: ((if tail ≠ 0 then [tail] else []) ++ spreadBins n (head + 1) (tail - 1))

theorem mem_spreadBins (n head tail : ℕ) : i ∈ spreadBins n head tail ↔
    (head ≤ i ∧ i < head + n) ∨ (1 ≤ i ∧ i ≤ tail ∧ tail < i + n) := by
  induction n generalizing head tail with
  | zero =>
    rw [spreadBins]
    simp only [List.not_mem_nil, false_iff]
    omega
  | succ n ih =>
    rw [spreadBins, List.mem_cons, List.mem_append, ih]
    split_ifs with htail
    · rw [List.mem_singleton]
      omega
    · simp only [List.not_mem_nil, false_or]
      omega

theorem nodup_spreadBins (n head tail : ℕ) (h : tail < head) : (spreadBins n head tail).Nodup := by
  induction n generalizing head tail with
  | zero => exact List.nodup_nil
  | succ n ih =>
    have hrest := ih (head + 1) (tail - 1) (by omega)
    rw [spreadBins, List.nodup_cons, List.nodup_append]
    refine ⟨?_, ?_, hrest, ?_⟩
    · rw [List.mem_append, mem_spreadBins]
      split_ifs with htail
      · rw [List.mem_singleton]
        omega
      · simp only [List.not_mem_nil, false_or]
        omega
    · split_ifs
      · exact List.nodup_singleton _
      · exact List.nodup_nil
    · intro x hx y hy
      split_ifs at hx with htail
      · rw [List.mem_singleton] at hx
        rw [mem_spreadBins] at hy
        omega
      · cases hx

theorem spread_spec (h : Collects (fun p => distance c target (t.entry p).id) found l) (n head tail : ℕ)
    (hn : head + n = s_bins) (htail : tail < head) : ∃ found', spread c t target 0 head tail found = some found' ∧
      Collects (fun p => distance c target (t.entry p).id) found' (l ++ liveIn t (spreadBins n head tail)) := by
  induction n generalizing head tail found l with
  | zero =>
    rw [spread, if_neg (by omega)]
    refine ⟨found, rfl, ?_⟩
    rwa [spreadBins, liveIn, List.flatMap_nil, List.filter_nil, List.append_nil]
  | succ n ih =>
    have hhead := collects_collect h (t.m_state head)
    rw [spread, if_pos ⟨by omega, by omega, by decide⟩, bucket_of_lt (by omega), spreadBins, liveIn_cons,
      ← List.append_assoc]
    by_cases hzero : tail = 0
    · subst hzero
      exact ih hhead (head + 1) 0 (by omega) (by omega)
    · obtain ⟨found', hfound, hc⟩ := ih (collects_collect hhead (t.m_state tail)) (head + 1) (tail - 1) (by omega)
        (by omega)
      rw [if_pos hzero, if_pos hzero, List.singleton_append, liveIn_cons, ← List.append_assoc]
      refine ⟨found', ?_, hc⟩
      rw [bucket_of_lt (by omega)]
      simpa only [hzero, ne_eq, not_false_eq_true, and_true, if_pos (show 0 < s_bucketSize by decide),
        Option.bind_eq_bind, Option.bind_some, Option.pure_def] using hfound

/-- The search goes through the buckets that are reached, and never leaves the table. -/
theorem search_spec (c : Discovery) (t : NodeTable) (target : NodeID) : ∃ found,
    nearestNodeEntries c t target = some (((found.flatMap Prod.snd).filter fun p =>
      (t.entry p).endpoint.isSet && (t.entry p).endpoint.isAllowed c).take s_bucketSize) ∧
    Collects (fun p => distance c target (t.entry p).id) found
      (liveIn t ((List.range s_bins).filter (reached (distance c t.m_node.id target)))) := by
  have hd := distance_le c t.m_node.id target
  unfold nearestNodeEntries
  generalize distance c t.m_node.id target = head at hd
  have hs : s_bins = 255 := rfl
  have hbin : lastBin = 254 := rfl
  have hnodup : ((List.range s_bins).filter (reached head)).Nodup := List.nodup_range.filter _
  by_cases hlow : head < 2
  · obtain ⟨found, hfound, hc⟩ := @forward_spec c t target _ _ collects_nil (s_bins - head) head
      (by omega)
    refine ⟨found, ?_, hc.congr ?_⟩
    · simp only [show ¬1 < head by omega, false_and, if_false, hlow, if_true, hfound, Option.bind_eq_bind,
        Option.bind_some, Option.pure_def]
    · rw [List.nil_append]
      refine liveIn_perm ((List.perm_ext_iff_of_nodup List.nodup_range' hnodup).2 fun i => ?_)
      rw [List.mem_range'_1, List.mem_filter, List.mem_range, reached, if_pos hlow, decide_eq_true_iff]
      omega
  · have htail : (if head = 0 then lastBin else (head - 1) % s_bins) = head - 1 := by
      rw [if_neg (by omega), Nat.mod_eq_of_lt (by omega)]
    by_cases hlast : head = s_bins
    · obtain ⟨found, hfound, hc⟩ := @backward_spec c t target _ _ collects_nil (head - 1) (by omega)
      refine ⟨found, ?_, hc.congr ?_⟩
      · simp only [htail, show ¬(1 < head ∧ head - 1 ≠ lastBin) by omega, if_false, hlow, hfound, Option.bind_eq_bind,
          Option.bind_some, Option.pure_def]
      · rw [List.nil_append]
        refine liveIn_perm ((List.perm_ext_iff_of_nodup List.nodup_range' hnodup).2 fun i => ?_)
        rw [List.mem_range'_1, List.mem_filter, List.mem_range, reached, if_neg hlow, Bool.and_eq_true, Bool.or_eq_true,
          decide_eq_true_iff, decide_eq_true_iff, decide_eq_true_iff]
        omega
    · obtain ⟨found, hfound, hc⟩ := @spread_spec c t target _ _ collects_nil (s_bins - head) head
        (head - 1) (by omega) (by omega)
      refine ⟨found, ?_, hc.congr ?_⟩
      · simp only [htail, show 1 < head ∧ head - 1 ≠ lastBin by omega, and_self, if_true, hfound, Option.bind_eq_bind,
          Option.bind_some, Option.pure_def, ne_eq, not_false_eq_true]
      · rw [List.nil_append]
        have hspread := nodup_spreadBins (s_bins - head) head (head - 1) (by omega)
        refine liveIn_perm ((List.perm_ext_iff_of_nodup hspread hnodup).2 fun i => ?_)
        rw [mem_spreadBins, List.mem_filter, List.mem_range, reached, if_neg hlow, Bool.and_eq_true, Bool.or_eq_true,
          decide_eq_true_iff, decide_eq_true_iff, decide_eq_true_iff]
        omega

/-- The search stays in the table and ends with some nodes, for every table and target; they are the nearest ones
exactly if for each node of a bucket that is not reached sixteen nodes of the other buckets are as near. -/
theorem nearestNodeEntries_iff (c : Discovery) (t : NodeTable) (target : NodeID) :
    ∃ ret, nearestNodeEntries c t target = some ret ∧ (AreNearest c t target ret ↔ Enough c t target) := by
  obtain ⟨found, hret, hc⟩ := search_spec c t target
  refine ⟨_, hret, ?_⟩
  generalize hl : (found.flatMap Prod.snd).filter (fun p => (t.entry p).endpoint.isSet &&
    (t.entry p).endpoint.isAllowed c) = l
  have hsorted : l.Pairwise fun p q => distance c target (t.entry p).id ≤ distance c target (t.entry q).id :=
    hl ▸ hc.pairwise.filter _
  have hnear : l.Perm (near c t target) := by
    rw [← hl]
    refine (hc.perm.filter _).trans ?_
    unfold liveIn near offeredIn
    rw [List.filter_filter]
    refine List.Perm.of_eq (List.filter_congr fun p _ => ?_)
    exact Bool.and_comm _ _
  have hall : (l ++ leftOut c t target).Perm (offeredIn c t (List.range s_bins)) := by
    refine (hnear.append_right _).trans ?_
    unfold near leftOut offeredIn
    rw [← List.filter_append, ← List.flatMap_append]
    exact ((List.filter_append_perm _ _).flatMap_right _).filter _
  unfold AreNearest Enough
  rw [nearest_take_iff hsorted hall]
  simp only [hnear.countP_eq]

end

/-- The hash of an identifier is its low half. -/
def plainDiscovery : Discovery := ⟨fun b => BitVec.ofNat 256 (fromBigEndian b), true⟩

/-- A table of the node 1 that knows the node of the identifier 2^100. -/
def sparseTable : Option NodeTable :=
  (init ⟨1, ⟨.v4 0x7f000001, 30303, 30303⟩⟩ true true 0).addNode plainDiscovery
    ⟨2 ^ 100, ⟨.v4 0x7f000001, 30303, 30303⟩⟩ .Known

/-- The only node of a table is not found. -/
theorem nearest_missed : ∃ t, sparseTable = some t ∧ t.m_state 99 = [0] ∧
    nearestNodeEntries plainDiscovery t (2 ^ 254) = some [] ∧ ¬AreNearest plainDiscovery t (2 ^ 254) [] := by
  have hmade : sparseTable.isSome = true := by decide +kernel
  obtain ⟨t, ht⟩ := Option.isSome_iff_exists.1 hmade
  have hstate : sparseTable.map (fun t => t.m_state 99) = some [0] := by decide +kernel
  have hoffered : sparseTable.map (fun t => offeredIn plainDiscovery t (List.range s_bins)) = some [0] := by
    decide +kernel
  have hlive : sparseTable.map (fun t => liveIn t ((List.range s_bins).filter
      (reached (distance plainDiscovery t.m_node.id (2 ^ 254))))) = some [] := by decide +kernel
  rw [ht, Option.map_some, Option.some.injEq] at hstate hoffered hlive
  refine ⟨t, ht, hstate, ?_, ?_⟩
  · obtain ⟨found, hret, hc⟩ := search_spec plainDiscovery t (2 ^ 254)
    rw [hlive] at hc
    rw [hret, List.perm_nil.1 hc.perm, List.filter_nil, List.take_nil]
  · rintro ⟨left, -, hlen, -⟩
    rw [hoffered] at hlen
    cases hlen

end NodeTable

end Petrachor
