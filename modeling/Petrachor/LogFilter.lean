import Mathlib
import Petrachor.Lib.Bloom
import Petrachor.Transaction
import Petrachor.Devnet

/-!
# Log filters

A filter names addresses and, for each of four positions, topics; what it does not constrain matches everything.
A receipt is looked through only if its bloom has a bit pattern for every part of the filter.
-/

namespace Petrachor

def PendingBlockHash : H256 := 0
def EarliestBlockHash : H256 := 1

/-- The sets are lists, in the order in which they are gone through. -/
structure LogFilter where
  m_addresses : List Address
  m_topics : Fin 4 → List H256
  m_earliest : H256
  m_latest : H256

def addressBloom (c : Crypto) (a : Address) : LogBloom := bloomBits (c.sha3 (asBytes 20 a))

def topicBloom (c : Crypto) (t : H256) : LogBloom := bloomBits (c.sha3 (asBytes 32 t))

namespace LogFilter

def streamRLP (f : LogFilter) : Bytes :=
  RLPStream.encodeList
    [RLPStream.encodeList (f.m_addresses.map fun a => RLPStream.encodeBytes (asBytes 20 a)),
      RLPStream.encodeList ((List.finRange 4).map fun i =>
        RLPStream.encodeList ((f.m_topics i).map fun t => RLPStream.encodeBytes (asBytes 32 t))),
      RLPStream.encodeBytes (asBytes 32 f.m_earliest), RLPStream.encodeBytes (asBytes 32 f.m_latest)]

def sha3 (c : Crypto) (f : LogFilter) : H256 := c.sha3 f.streamRLP

/-- The positions that topics are given for. -/
def constrained (f : LogFilter) : List (Fin 4) := (List.finRange 4).filter fun i => !(f.m_topics i).isEmpty

def isRangeFilter (f : LogFilter) : Bool := f.m_addresses.isEmpty && f.constrained.isEmpty

section

variable (c : Crypto)

/-- `matches(LogBloom)`. -/
def matchesBloom (f : LogFilter) (bloom : LogBloom) : Bool :=
  (f.m_addresses.isEmpty || f.m_addresses.any fun a => decide (Bloom.Contains bloom (addressBloom c a))) &&
    f.constrained.all fun i => (f.m_topics i).any fun t => decide (Bloom.Contains bloom (topicBloom c t))

/-- The test of one position: whether the entry is left out. There is no value if a topic behind the last one
is read. -/
def topicFails (f : LogFilter) (e : LogEntry) (i : Fin 4) : Option Bool :=
  if (f.m_topics i).isEmpty then some false
  else if e.topics.length < i then some true
  else (e.topics[i.val]?).map fun t => decide (t ∉ f.m_topics i)

def topicsMatch (f : LogFilter) (e : LogEntry) : List (Fin 4) → Option Bool
  | [] => some true
  | i :: is => do if ← f.topicFails e i then return false else f.topicsMatch e is

def entryMatches (f : LogFilter) (e : LogEntry) : Option Bool :=
  if !f.m_addresses.isEmpty && decide (e.address ∉ f.m_addresses) then some false
  else f.topicsMatch e (List.finRange 4)

def collect (f : LogFilter) : List LogEntry → Option (List LogEntry)
  | [] => some []
  | e :: l => do
    let m ← f.entryMatches e
    let ret ← f.collect l
    return if m then e :: ret else ret

/-- `matches(TransactionReceipt)`. -/
def matchingEntries (f : LogFilter) (r : TransactionReceipt) : Option (List LogEntry) :=
  if f.isRangeFilter then some r.log
  else if f.matchesBloom c r.bloom then f.collect r.log
  else some []

end

/-! ## What a filter is for -/

/-- The filter has no addresses, or this one. -/
def AddressOk (f : LogFilter) (e : LogEntry) : Prop := f.m_addresses = [] ∨ e.address ∈ f.m_addresses

/-- The filter has no topics for the position, or the entry has one of them there. -/
def TopicOk (f : LogFilter) (e : LogEntry) (i : Fin 4) : Prop :=
  f.m_topics i = [] ∨ ∃ t ∈ f.m_topics i, e.topics[i.val]? = some t

/-- The entry is one that the filter is for. -/
def Selects (f : LogFilter) (e : LogEntry) : Prop := f.AddressOk e ∧ ∀ i, f.TopicOk e i

/-- Nothing leaves the entry out before a position whose topic is right behind its last one. -/
def Overruns (f : LogFilter) (e : LogEntry) : Prop :=
  f.AddressOk e ∧ ∃ i : Fin 4, f.m_topics i ≠ [] ∧ e.topics.length = i ∧ ∀ j < i, f.TopicOk e j

instance (f : LogFilter) (e : LogEntry) : Decidable (f.AddressOk e) := inferInstanceAs (Decidable (_ ∨ _))

instance (f : LogFilter) (e : LogEntry) (i : Fin 4) : Decidable (f.TopicOk e i) := inferInstanceAs (Decidable (_ ∨ _))

instance (f : LogFilter) (e : LogEntry) : Decidable (f.Selects e) := inferInstanceAs (Decidable (_ ∧ _))

instance (f : LogFilter) (e : LogEntry) : Decidable (f.Overruns e) := inferInstanceAs (Decidable (_ ∧ _))

/-! ## Entries of a receipt -/

section

variable {f : LogFilter} {e : LogEntry} {i : Fin 4}

theorem mem_constrained : i ∈ f.constrained ↔ f.m_topics i ≠ [] := by
  rw [constrained, List.mem_filter, and_iff_right (List.mem_finRange i), Bool.not_eq_true', ← Bool.not_eq_true,
    List.isEmpty_iff]

theorem topicFails_eq_none (hi : f.m_topics i ≠ []) (he : e.topics.length = i) : f.topicFails e i = none := by
  rw [topicFails, if_neg (by rwa [List.isEmpty_iff]), if_neg (by omega), List.getElem?_eq_none he.le]
  rfl

/-- A topic that is read is tested, and what is out of reach by more than one leaves the entry out. -/
theorem topicFails_eq_some (h : ¬(f.m_topics i ≠ [] ∧ e.topics.length = i)) :
    f.topicFails e i = some (decide ¬f.TopicOk e i) := by
  rw [topicFails]
  by_cases hi : f.m_topics i = []
  · rw [if_pos (by rw [hi]; rfl), decide_eq_false (not_not.2 (.inl hi))]
  rw [if_neg (by rwa [List.isEmpty_iff])]
  have hne : e.topics.length ≠ i := fun he => h ⟨hi, he⟩
  by_cases hlt : e.topics.length < i
  · rw [if_pos hlt, decide_eq_true]
    rintro (h0 | ⟨t, -, ht⟩)
    · exact hi h0
    · rw [List.getElem?_eq_none hlt.le] at ht
      cases ht
  · have hget := List.getElem?_eq_getElem (l := e.topics) (i := i) (by omega)
    rw [if_neg hlt, hget, Option.map_some, Option.some.injEq, decide_eq_decide, not_iff_not, TopicOk, hget]
    constructor
    · exact fun hmem => .inr ⟨_, hmem, rfl⟩
    · rintro (h0 | ⟨t, hmem, ht⟩)
      · exact absurd h0 hi
      · rwa [Option.some.inj ht]

/-- `Overruns`, for some of the positions. -/
def OverrunsIn (f : LogFilter) (e : LogEntry) (is : List (Fin 4)) : Prop :=
  ∃ i ∈ is, (f.m_topics i ≠ [] ∧ e.topics.length = i) ∧ ∀ j ∈ is, j < i → f.TopicOk e j

instance (f : LogFilter) (e : LogEntry) (is : List (Fin 4)) : Decidable (f.OverrunsIn e is) :=
  inferInstanceAs (Decidable (∃ i ∈ is, _))

theorem overrunsIn_finRange : f.AddressOk e ∧ f.OverrunsIn e (List.finRange 4) ↔ f.Overruns e := by
  simp [OverrunsIn, Overruns, and_assoc]

theorem overrunsIn_cons_of_ok {is : List (Fin 4)} (hsort : (i :: is).Pairwise (· < ·)) (hok : f.TopicOk e i)
    (hi : ¬(f.m_topics i ≠ [] ∧ e.topics.length = i)) : f.OverrunsIn e (i :: is) ↔ f.OverrunsIn e is := by
  constructor
  · rintro ⟨k, hk, hbehind, hpre⟩
    rcases List.mem_cons.1 hk with rfl | hk
    · exact absurd hbehind hi
    · exact ⟨k, hk, hbehind, fun j hj => hpre j (List.mem_cons_of_mem _ hj)⟩
  · rintro ⟨k, hk, hbehind, hpre⟩
    refine ⟨k, List.mem_cons_of_mem _ hk, hbehind, fun j hj hlt => ?_⟩
    rcases List.mem_cons.1 hj with rfl | hj
    · exact hok
    · exact hpre j hj hlt

/-- The positions are tested in their order, up to the first one that leaves the entry out. -/
theorem topicsMatch_eq : ∀ {is : List (Fin 4)}, is.Pairwise (· < ·) →
    f.topicsMatch e is = if f.OverrunsIn e is then none else some (decide (∀ i ∈ is, f.TopicOk e i))
  | [], _ => by
    rw [topicsMatch, if_neg (by rintro ⟨i, hi, -⟩; cases hi)]
    simp
  | i :: is, hsort => by
    rw [topicsMatch]
    by_cases hi : f.m_topics i ≠ [] ∧ e.topics.length = i
    · rw [topicFails_eq_none hi.1 hi.2, if_pos]
      · rfl
      · refine ⟨i, List.mem_cons_self, hi, fun j hj hlt => ?_⟩
        rcases List.mem_cons.1 hj with rfl | hj
        · exact absurd hlt (lt_irrefl _)
        · exact absurd hlt (List.rel_of_pairwise_cons hsort hj).not_gt
    rw [topicFails_eq_some hi]
    by_cases hok : f.TopicOk e i
    · have ih := topicsMatch_eq hsort.of_cons
      rw [if_congr (overrunsIn_cons_of_ok hsort hok hi) rfl rfl]
      simp only [hok, not_true_eq_false, decide_false, List.forall_mem_cons, true_and]
      exact ih
    · rw [if_neg, decide_eq_true hok, decide_eq_false (fun h => hok (h i List.mem_cons_self))]
      · rfl
      · rintro ⟨k, hk, hbehind, hpre⟩
        rcases List.mem_cons.1 hk with rfl | hk
        · exact hi hbehind
        · exact hok (hpre i List.mem_cons_self (List.rel_of_pairwise_cons hsort hk))

theorem entryMatches_eq : f.entryMatches e = if f.Overruns e then none else some (decide (f.Selects e)) := by
  have hsort : (List.finRange 4).Pairwise (· < ·) := by decide
  rw [entryMatches]
  by_cases haddr : f.AddressOk e
  · have hiff : f.OverrunsIn e (List.finRange 4) ↔ f.Overruns e := by
      rw [← overrunsIn_finRange, and_iff_right haddr]
    rw [if_neg, topicsMatch_eq hsort, if_congr hiff rfl rfl]
    · simp [Selects, haddr]
    · rcases haddr with h0 | hmem
      · simp [h0]
      · simp [hmem]
  · have hne : ¬f.m_addresses = [] ∧ e.address ∉ f.m_addresses := not_or.1 haddr
    rw [if_pos (by simpa using hne), if_neg (fun h => haddr h.1), decide_eq_false (fun h => haddr h.1)]

theorem collect_eq {l : List LogEntry} : f.collect l =
    if ∃ e ∈ l, f.Overruns e then none else some (l.filter fun e => f.Selects e) := by
  induction l with
  | nil => simp [collect]
  | cons e l ih =>
    rw [collect, entryMatches_eq, ih]
    by_cases he : f.Overruns e
    · have hex : ∃ d ∈ e :: l, f.Overruns d := ⟨e, List.mem_cons_self, he⟩
      rw [if_pos he, if_pos hex]
      rfl
    rw [if_neg he]
    by_cases hl : ∃ d ∈ l, f.Overruns d
    · obtain ⟨d, hd, hover⟩ := id hl
      have hex : ∃ d ∈ e :: l, f.Overruns d := ⟨d, List.mem_cons_of_mem _ hd, hover⟩
      rw [if_pos hl, if_pos hex]
      rfl
    · have hnot : ¬∃ d ∈ e :: l, f.Overruns d := by
        rintro ⟨d, hd, hover⟩
        rcases List.mem_cons.1 hd with rfl | hd
        · exact he hover
        · exact hl ⟨d, hd, hover⟩
      rw [if_neg hl, if_neg hnot, List.filter_cons]
      rfl

/-! ## Blooms -/

/-- The bloom of an entry has the bits of its address and of its topics. -/
theorem bloom_contains_address (c : Crypto) (e : LogEntry) : Bloom.Contains (e.bloom c) (addressBloom c e.address) :=
  Bloom.foldl_contains_left

theorem bloom_contains_topic (c : Crypto) {t : H256} (ht : t ∈ e.topics) :
    Bloom.Contains (e.bloom c) (topicBloom c t) :=
  Bloom.foldl_contains (f := topicBloom c) ht

theorem matchesBloom_iff {c : Crypto} {bloom : LogBloom} : f.matchesBloom c bloom = true ↔
    (f.m_addresses = [] ∨ ∃ a ∈ f.m_addresses, Bloom.Contains bloom (addressBloom c a)) ∧
      ∀ i, f.m_topics i ≠ [] → ∃ t ∈ f.m_topics i, Bloom.Contains bloom (topicBloom c t) := by
  simp only [matchesBloom, Bool.and_eq_true, Bool.or_eq_true, List.isEmpty_iff, List.any_eq_true, decide_eq_true_eq,
    List.all_eq_true, mem_constrained]

/-- A bloom that has the bits of an entry the filter is for is not refused. -/
theorem Selects.matchesBloom {c : Crypto} {bloom : LogBloom} (h : f.Selects e)
    (hb : Bloom.Contains bloom (e.bloom c)) : f.matchesBloom c bloom = true := by
  obtain ⟨haddr, htopics⟩ := h
  rw [matchesBloom_iff]
  constructor
  · rcases haddr with h0 | hmem
    · exact .inl h0
    · exact .inr ⟨e.address, hmem, hb.trans (bloom_contains_address c e)⟩
  · intro i hi
    rcases htopics i with h0 | ⟨t, hmem, ht⟩
    · exact absurd h0 hi
    · exact ⟨t, hmem, hb.trans (bloom_contains_topic c (List.mem_of_getElem? ht))⟩

theorem mk'_contains {c : Crypto} {l : List LogEntry} (s : StatusOrRoot) (gasUsed : U256) (he : e ∈ l) :
    Bloom.Contains (TransactionReceipt.mk' c s gasUsed l).bloom (e.bloom c) :=
  Bloom.foldl_contains (f := LogEntry.bloom c) he

theorem selects_of_isRangeFilter (h : f.isRangeFilter = true) (e : LogEntry) : f.Selects e := by
  rw [isRangeFilter, Bool.and_eq_true, List.isEmpty_iff, List.isEmpty_iff] at h
  refine ⟨.inl h.1, fun i => .inl ?_⟩
  by_contra hi
  have hmem := mem_constrained.2 hi
  rw [h.2] at hmem
  cases hmem

theorem Overruns.not_isRangeFilter (h : f.Overruns e) : f.isRangeFilter = false := by
  obtain ⟨-, i, hi, -⟩ := h
  have hmem := mem_constrained.2 hi
  rw [isRangeFilter, List.isEmpty_eq_false_iff_exists_mem.2 ⟨i, hmem⟩, Bool.and_false]

end

/-- From a receipt exactly the entries are returned that the filter is for, and its bloom is not refused if there
is one, just when no entry that the receipt's bloom lets through ends right before a position that the filter has
topics for, with everything before it right. -/
theorem matchingEntries_iff (c : Crypto) (f : LogFilter) (s : StatusOrRoot) (gasUsed : U256) (log : List LogEntry) :
    (f.matchingEntries c (.mk' c s gasUsed log) = some (log.filter fun e => f.Selects e) ∧
      ((∃ e ∈ log, f.Selects e) → f.matchesBloom c (TransactionReceipt.mk' c s gasUsed log).bloom = true)) ↔
    (f.matchesBloom c (TransactionReceipt.mk' c s gasUsed log).bloom = true → ∀ e ∈ log, ¬f.Overruns e) := by
  have hbloom : (∃ e ∈ log, f.Selects e) → f.matchesBloom c (TransactionReceipt.mk' c s gasUsed log).bloom = true := by
    rintro ⟨e, he, hsel⟩
    exact hsel.matchesBloom (mk'_contains s gasUsed he)
  rw [and_iff_left hbloom, matchingEntries]
  by_cases hrange : f.isRangeFilter = true
  · have hall : log.filter (fun e => f.Selects e) = log :=
      List.filter_eq_self.2 fun e _ => decide_eq_true (selects_of_isRangeFilter hrange e)
    rw [if_pos hrange, hall]
    refine ⟨fun _ _ e _ hover => ?_, fun _ => rfl⟩
    rw [hover.not_isRangeFilter] at hrange
    cases hrange
  rw [if_neg hrange]
  by_cases hpass : f.matchesBloom c (TransactionReceipt.mk' c s gasUsed log).bloom = true
  · rw [if_pos hpass, show (TransactionReceipt.mk' c s gasUsed log).log = log from rfl, collect_eq]
    constructor
    · intro h _ e he hover
      rw [if_pos ⟨e, he, hover⟩] at h
      cases h
    · intro h
      rw [if_neg]
      rintro ⟨e, he, hover⟩
      exact h hpass e he hover
  · have hnone : log.filter (fun e => f.Selects e) = [] :=
      List.filter_eq_nil_iff.2 fun e he h => hpass (hbloom ⟨e, he, of_decide_eq_true h⟩)
    rw [if_neg hpass, hnone]
    exact ⟨fun _ h => absurd h hpass, fun _ => rfl⟩

/-- A filter for one topic in the first position. -/
def forTopic (t : H256) : LogFilter where
  m_addresses := []
  m_topics i := if i = 0 then [t] else []
  m_earliest := EarliestBlockHash
  m_latest := PendingBlockHash

/-- An entry without topics, beside one with the topic that the filter is for. -/
theorem matchingEntries_overrun : ¬((forTopic 7).matchingEntries Devnet.crypto
    (.mk' Devnet.crypto (.status true) 0 [⟨1, [], []⟩, ⟨1, [7], []⟩]) =
      some ([⟨1, [], []⟩, ⟨1, [7], []⟩].filter fun e => (forTopic 7).Selects e)) := by
  decide +kernel

end LogFilter

end Petrachor
