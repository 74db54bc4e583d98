import Petrachor.NodeTable
import Petrachor.Lib.PartialRun
import Mathlib.Data.List.TakeWhile

/-!
# The buckets of the node table

A bucket holds at most `s_bucketSize` nodes, each at its distance from ours. Noting a node again drops all that come
behind it in its bucket: the predicate of the removal goes on answering that the node was found.
-/

namespace Petrachor

namespace NodeTable

section

variable {c : Discovery} {t t' u : NodeTable} {i n p q : ℕ} {id pubk : NodeID} {node : Node} {endpoint : UDPEndpoint}
  {nodes : List ℕ} {e : NodeEntry}

/-! ## What a call leaves as it is -/

/-- The nodes, the buckets and the references are those of another table. -/
structure SameNodes (t t' : NodeTable) : Prop where
  id : t'.m_node.id = t.m_node.id
  entries : t'.entries = t.entries
  m_nodes : t'.m_nodes = t.m_nodes
  m_state : t'.m_state = t.m_state
  held : t'.held = t.held

theorem SameNodes.refl (t : NodeTable) : SameNodes t t := ⟨rfl, rfl, rfl, rfl, rfl⟩

theorem sameNodes_ping (t : NodeTable) (dest : NodeIPEndpoint) : SameNodes t (t.ping dest) := ⟨rfl, rfl, rfl, rfl, rfl⟩

theorem sameNodes_appendEvent (t : NodeTable) (id : NodeID) (e : NodeTableEventType) :
    SameNodes t (t.appendEvent id e) := by
  unfold appendEvent
  split_ifs <;> exact ⟨rfl, rfl, rfl, rfl, rfl⟩

theorem sameNodes_evict (t : NodeTable) (leastSeen new : ℕ) : SameNodes t (t.evict leastSeen new) := by
  unfold evict
  dsimp only
  split_ifs <;> exact ⟨rfl, rfl, rfl, rfl, rfl⟩

theorem sameNodes_learnEndpoint (t : NodeTable) (destination : NodeIPEndpoint) :
    SameNodes t (t.learnEndpoint c destination) := ⟨rfl, rfl, rfl, rfl, rfl⟩

/-! ## The removal -/

theorem removeIf_true (nodes : List ℕ) : removeIf p true nodes = ([], true) := by
  induction nodes with
  | nil => rfl
  | cons n nodes ih =>
    rw [removeIf]
    simp only [Bool.true_or, ih, if_true]

/-- What is kept is what comes before the node. -/
theorem removeIf_false (nodes : List ℕ) :
    removeIf p false nodes = (nodes.takeWhile (· ≠ p), decide (p ∈ nodes)) := by
  induction nodes with
  | nil => rfl
  | cons n nodes ih =>
    rw [removeIf]
    by_cases hn : n = p
    · subst hn
      simp [removeIf_true]
    · have hn' : ¬p = n := fun h => hn h.symm
      simp [hn, hn', ih]

theorem not_mem_takeWhile_ne (nodes : List ℕ) : p ∉ nodes.takeWhile (· ≠ p) := by
  intro hp
  have h := List.mem_takeWhile_imp hp
  simp at h

/-- Where a node stands in a list that has it once. -/
theorem exists_split (hnodup : nodes.Nodup) (hp : p ∈ nodes) : ∃ l r, nodes = l ++ p :: r ∧
    nodes.takeWhile (· ≠ p) = l ∧ nodes.erase p = l ++ r ∧ (nodes.getLast? = some p ↔ r = []) := by
  obtain ⟨l, r, rfl⟩ := List.append_of_mem hp
  obtain ⟨-, hr, hdisjoint⟩ := List.nodup_append.1 hnodup
  have hl : p ∉ l := fun h => hdisjoint p h p List.mem_cons_self rfl
  refine ⟨l, r, rfl, ?_, ?_, ?_⟩
  · rw [List.takeWhile_append_of_pos]
    · simp
    · intro a ha
      rw [decide_eq_true_eq]
      rintro rfl
      exact hl ha
  · rw [List.erase_append_right _ hl, List.erase_cons_head]
  · constructor
    · intro h
      cases hcase : r with
      | nil => rfl
      | cons a r' =>
        rw [hcase, List.getLast?_append_cons, List.getLast?_cons_cons] at h
        have hmem := List.mem_of_getLast? h
        rw [← hcase] at hmem
        exact absurd hmem (List.nodup_cons.1 hr).1
    · rintro rfl
      rw [List.getLast?_append_cons]
      rfl

/-! ## A node is noted -/

/-- The node is put at the end of its bucket, or the bucket is full and another node is asked to answer. -/
structure Noted (t t' : NodeTable) (pubk : NodeID) (p i : ℕ) (e : NodeEntry) (nodes : List ℕ) : Prop where
  node : t.nodeEntry pubk = some p
  bucket : t.bucket_UNSAFE p = some i
  id : e.id = (t.entry p).id
  distance : e.distance = (t.entry p).distance
  same : SameNodes ((t.setEntry p e).setBucket i nodes) t'
  nodes :
    (s_bucketSize ≤ ((t.m_state i).takeWhile (· ≠ p)).length ∧
      (nodes = (t.m_state i).takeWhile (· ≠ p) ∨ nodes = ((t.m_state i).takeWhile (· ≠ p)).tail ++ [p])) ∨
    ((t.m_state i).takeWhile (· ≠ p)).length < s_bucketSize ∧ nodes = (t.m_state i).takeWhile (· ≠ p) ++ [p]

theorem bucket_UNSAFE_setEntry (h : e.distance = (t.entry p).distance) (hp : p < t.entries.length) :
    (t.setEntry p e).bucket_UNSAFE p = t.bucket_UNSAFE p := by
  have hentry : (t.setEntry p e).entry p = e := by
    show (t.entries.set p e).getD p _ = e
    rw [List.getD_eq_getElem?_getD, List.getElem?_set_self hp, Option.getD_some]
  unfold bucket_UNSAFE
  rw [hentry, h]

theorem noteActiveNode_cases (hp : ∀ p, t.nodeEntry pubk = some p → p < t.entries.length)
    (h : t.noteActiveNode c pubk endpoint = some t') : t' = t ∨ ∃ p i e nodes, Noted t t' pubk p i e nodes := by
  unfold noteActiveNode at h
  split at h
  · exact .inl (Option.some.inj h).symm
  · cases hnode : t.nodeEntry pubk with
    | none =>
      rw [hnode] at h
      exact .inl (Option.some.inj h).symm
    | some p =>
      rw [hnode] at h
      dsimp only at h
      split at h
      · exact .inl (Option.some.inj h).symm
      · right
        rw [bucket_UNSAFE_setEntry (e := (t.entry p).seenAt endpoint) rfl (hp p hnode)] at h
        rw [Option.bind_eq_bind, Option.bind_eq_some_iff] at h
        obtain ⟨i, hi, h⟩ := h
        rw [removeIf_false] at h
        dsimp only at h
        split at h
        · rename_i hfull
          split at h
          · cases h
            exact ⟨p, i, (t.entry p).seenAt endpoint, _, hnode, hi, rfl, rfl, sameNodes_evict _ _ _,
              .inl ⟨hfull, .inl rfl⟩⟩
          · cases h
            refine ⟨p, i, (t.entry p).seenAt endpoint, _, hnode, hi, rfl, rfl, ?_, .inl ⟨hfull, .inr rfl⟩⟩
            split
            · exact sameNodes_appendEvent _ _ _
            · exact .refl _
        · rename_i hroom
          cases h
          refine ⟨p, i, (t.entry p).seenAt endpoint, _, hnode, hi, rfl, rfl, ?_, .inr ⟨not_le.1 hroom, rfl⟩⟩
          split
          · exact sameNodes_appendEvent _ _ _
          · exact .refl _

/-! ## The invariant -/

/-- What every call keeps. A node of a bucket that is still referred to elsewhere is the one known by its id. -/
structure Sound (c : Discovery) (t : NodeTable) : Prop where
  distances : ∀ e ∈ t.entries, e.distance = distance c t.m_node.id e.id
  named : ∀ id p, (id, p) ∈ t.m_nodes → p < t.entries.length ∧ (t.entry p).id = id
  keys : (t.m_nodes.map Prod.fst).Nodup
  sized : ∀ i, (t.m_state i).length ≤ s_bucketSize
  nodup : ∀ i, (t.m_state i).Nodup
  placed : ∀ i p, p ∈ t.m_state i → p < t.entries.length ∧ (t.entry p).distance = i + 1
  known : ∀ i p, p ∈ t.m_state i → p ∈ t.held → t.nodeEntry (t.entry p).id = some p

theorem Sound.of_same (h : Sound c t) (hs : SameNodes t t') : Sound c t' := by
  have hentry : ∀ p, t'.entry p = t.entry p := by
    intro p
    unfold entry
    rw [hs.entries]
  have hnode : ∀ id, t'.nodeEntry id = t.nodeEntry id := by
    intro id
    unfold nodeEntry
    rw [hs.m_nodes]
  constructor
  · rw [hs.entries, hs.id]
    exact h.distances
  · simp only [hs.m_nodes, hs.entries, hentry]
    exact h.named
  · rw [hs.m_nodes]
    exact h.keys
  · rw [hs.m_state]
    exact h.sized
  · rw [hs.m_state]
    exact h.nodup
  · simp only [hs.m_state, hs.entries, hentry]
    exact h.placed
  · simp only [hs.m_state, hs.held, hentry, hnode]
    exact h.known

theorem mem_of_nodeEntry (h : t.nodeEntry id = some p) : (id, p) ∈ t.m_nodes := by
  unfold nodeEntry at h
  rw [List.lookup_eq_some_iff] at h
  obtain ⟨l, r, heq, -⟩ := h
  rw [heq]
  exact List.mem_append_right _ List.mem_cons_self

theorem Sound.nodeEntry_lt (h : Sound c t) (hp : t.nodeEntry id = some p) : p < t.entries.length :=
  (h.named id p (mem_of_nodeEntry hp)).1

theorem Sound.nodeEntry_id (h : Sound c t) (hp : t.nodeEntry id = some p) : (t.entry p).id = id :=
  (h.named id p (mem_of_nodeEntry hp)).2

theorem entry_setEntry_ne (h : q ≠ p) : (t.setEntry p e).entry q = t.entry q := by
  show (t.entries.set p e).getD q _ = t.entries.getD q _
  rw [List.getD_eq_getElem?_getD, List.getD_eq_getElem?_getD, List.getElem?_set_ne h.symm]

theorem entry_setEntry_self (h : p < t.entries.length) : (t.setEntry p e).entry p = e := by
  show (t.entries.set p e).getD p _ = e
  rw [List.getD_eq_getElem?_getD, List.getElem?_set_self h, Option.getD_some]

theorem entry_mem (h : p < t.entries.length) : t.entry p ∈ t.entries := by
  unfold entry
  rw [List.getD_eq_getElem _ _ h]
  exact List.getElem_mem h

/-- An entry keeps its id and its distance. -/
theorem entry_setEntry (hid : e.id = (t.entry p).id) (hd : e.distance = (t.entry p).distance)
    (hp : p < t.entries.length) (q : ℕ) :
    ((t.setEntry p e).entry q).id = (t.entry q).id ∧ ((t.setEntry p e).entry q).distance = (t.entry q).distance := by
  by_cases hq : q = p
  · subst hq
    rw [entry_setEntry_self hp]
    exact ⟨hid, hd⟩
  · rw [entry_setEntry_ne hq]
    exact ⟨rfl, rfl⟩

theorem Sound.setEntry (h : Sound c t) (hid : e.id = (t.entry p).id) (hd : e.distance = (t.entry p).distance)
    (hp : p < t.entries.length) : Sound c (t.setEntry p e) := by
  have hentry := entry_setEntry hid hd hp
  have hlen : (t.setEntry p e).entries.length = t.entries.length := List.length_set
  constructor
  · intro x hx
    rcases List.mem_or_eq_of_mem_set hx with hx | rfl
    · exact h.distances x hx
    · rw [hid, hd]
      exact h.distances _ (entry_mem hp)
  · intro id q hq
    rw [hlen, (hentry q).1]
    exact h.named id q hq
  · exact h.keys
  · exact h.sized
  · exact h.nodup
  · intro i q hq
    rw [hlen, (hentry q).2]
    exact h.placed i q hq
  · intro i q hq hheld
    rw [(hentry q).1]
    exact h.known i q hq hheld

theorem Sound.setBucket (h : Sound c t) (i : ℕ) (nodes : List ℕ) (hlen : nodes.length ≤ s_bucketSize)
    (hnodup : nodes.Nodup) (hplaced : ∀ q ∈ nodes, q < t.entries.length ∧ (t.entry q).distance = i + 1)
    (hknown : ∀ q ∈ nodes, q ∈ t.held → t.nodeEntry (t.entry q).id = some q) : Sound c (t.setBucket i nodes) := by
  have hstate : ∀ j, (t.setBucket i nodes).m_state j = if j = i then nodes else t.m_state j := by
    intro j
    exact Function.update_apply _ _ _ _
  constructor
  · exact h.distances
  · exact h.named
  · exact h.keys
  · intro j
    rw [hstate]
    split
    · exact hlen
    · exact h.sized j
  · intro j
    rw [hstate]
    split
    · exact hnodup
    · exact h.nodup j
  · intro j q hq
    rw [hstate] at hq
    split at hq
    · rename_i hj
      subst hj
      exact hplaced q hq
    · exact h.placed j q hq
  · intro j q hq
    rw [hstate] at hq
    split at hq
    · exact hknown q hq
    · exact h.known j q hq

theorem bucket_eq (h : t.bucket_UNSAFE p = some i) : (t.entry p).distance = i + 1 := by
  unfold bucket_UNSAFE at h
  split_ifs at h with h0
  cases h
  omega

theorem Sound.noted (h : Sound c t) (hn : Noted t t' pubk p i e nodes) : Sound c t' := by
  have hlt := h.nodeEntry_lt hn.node
  have hset := h.setEntry hn.id hn.distance hlt
  have hentry := entry_setEntry hn.id hn.distance hlt
  have hsub : ((t.m_state i).takeWhile (· ≠ p)).Sublist (t.m_state i) := List.takeWhile_sublist _
  have hkept : ∀ q ∈ (t.m_state i).takeWhile (· ≠ p), q ∈ t.m_state i := fun q hq => hsub.subset hq
  have hle : ((t.m_state i).takeWhile (· ≠ p)).length ≤ s_bucketSize := hsub.length_le.trans (h.sized i)
  have htail := List.tail_sublist ((t.m_state i).takeWhile (· ≠ p))
  have hnot := not_mem_takeWhile_ne (p := p) (t.m_state i)
  have hnodup := (h.nodup i).sublist hsub
  have hpush : ∀ l : List ℕ, l.Sublist ((t.m_state i).takeWhile (· ≠ p)) → (l ++ [p]).Nodup := by
    intro l hl
    refine List.nodup_append.2 ⟨hnodup.sublist hl, List.nodup_singleton p, ?_⟩
    intro a ha b hb hab
    rw [hab, List.mem_singleton.1 hb] at ha
    exact hnot (hl.subset ha)
  -- who is in the bucket afterwards
  have hmem : ∀ q ∈ nodes, q ∈ t.m_state i ∨ q = p := by
    intro q hq
    rcases hn.nodes with ⟨-, hnodes | hnodes⟩ | ⟨-, hnodes⟩
    · rw [hnodes] at hq
      exact .inl (hkept q hq)
    · rw [hnodes, List.mem_append, List.mem_singleton] at hq
      exact hq.imp_left fun hq => hkept q (htail.subset hq)
    · rw [hnodes, List.mem_append, List.mem_singleton] at hq
      exact hq.imp_left (hkept q)
  refine (hset.setBucket i nodes ?_ ?_ ?_ ?_).of_same hn.same
  · rcases hn.nodes with ⟨hfull, hnodes | hnodes⟩ | ⟨hroom, hnodes⟩
    · rw [hnodes]
      exact hle
    · rw [hnodes, List.length_append, List.length_tail, List.length_singleton]
      have hpos : 0 < s_bucketSize := by decide
      omega
    · rw [hnodes, List.length_append, List.length_singleton]
      exact hroom
  · rcases hn.nodes with ⟨-, hnodes | hnodes⟩ | ⟨-, hnodes⟩
    · rw [hnodes]
      exact hnodup
    · rw [hnodes]
      exact hpush _ htail
    · rw [hnodes]
      exact hpush _ (.refl _)
  · intro q hq
    rw [(hentry q).2]
    have hlen : (t.setEntry p e).entries.length = t.entries.length := List.length_set
    rw [hlen]
    rcases hmem q hq with hq | rfl
    · exact h.placed i q hq
    · exact ⟨hlt, bucket_eq hn.bucket⟩
  · intro q hq hheld
    rw [(hentry q).1]
    rcases hmem q hq with hq | rfl
    · exact h.known i q hq hheld
    · show t.nodeEntry _ = _
      rw [h.nodeEntry_id hn.node]
      exact hn.node

theorem Sound.noteActiveNode (h : Sound c t) (hnote : t.noteActiveNode c pubk endpoint = some t') : Sound c t' := by
  rcases noteActiveNode_cases (fun p hp => h.nodeEntry_lt hp) hnote with rfl | ⟨p, i, e, nodes, hn⟩
  · exact h
  · exact h.noted hn

theorem Sound.dropNode (h : Sound c t) (hdrop : t.dropNode p = some t') : Sound c t' := by
  unfold NodeTable.dropNode at hdrop
  rw [Option.bind_eq_bind, Option.bind_eq_some_iff] at hdrop
  obtain ⟨i, hi, hdrop⟩ := hdrop
  cases hdrop
  have hsub : ((t.m_state i).filter (· ≠ p)).Sublist (t.m_state i) := List.filter_sublist
  refine (h.setBucket _ _ (hsub.length_le.trans (h.sized i)) ((h.nodup i).sublist hsub) ?_ ?_).of_same
    (sameNodes_appendEvent _ _ _)
  · exact fun q hq => h.placed i q (hsub.subset hq)
  · exact fun q hq => h.known i q (hsub.subset hq)

/-! ## New nodes -/

theorem entry_makeNode (hq : q < t.entries.length) {pending : Bool} :
    (t.makeNode c node pending).entry q = t.entry q := by
  show (t.entries ++ [_]).getD q _ = t.entries.getD q _
  rw [List.getD_append _ _ _ _ hq]

theorem lookup_filter_ne {l : List (NodeID × ℕ)} {key : NodeID} (h : id ≠ key) :
    (l.filter (·.1 ≠ key)).lookup id = l.lookup id := by
  induction l with
  | nil => rfl
  | cons x l ih =>
    by_cases hx : x.1 = key
    · have hne : (id == x.1) = false := beq_eq_false_iff_ne.2 (hx ▸ h)
      rw [List.filter_cons_of_neg (by simp [hx]), List.lookup_cons, hne]
      exact ih
    · rw [List.filter_cons_of_pos (by simp [hx]), List.lookup_cons, List.lookup_cons, ih]

theorem nodeEntry_makeNode {pending : Bool} (id : NodeID) :
    (t.makeNode c node pending).nodeEntry id = if id = node.id then some t.entries.length else t.nodeEntry id := by
  show List.lookup id ((node.id, t.entries.length) :: t.m_nodes.filter (·.1 ≠ node.id)) = _
  rw [List.lookup_cons]
  by_cases hid : id = node.id
  · rw [if_pos hid, hid, beq_self_eq_true]
  · rw [if_neg hid, beq_eq_false_iff_ne.2 hid]
    exact lookup_filter_ne hid

/-- A node is put in the place of another only if nobody else refers to an entry of that one in a bucket. -/
theorem Sound.makeNode (h : Sound c t) {pending : Bool}
    (hfree : ∀ p, t.nodeEntry node.id = some p → p ∈ t.held → ∀ i, p ∉ t.m_state i) :
    Sound c (t.makeNode c node pending) := by
  have hlen : (t.makeNode c node pending).entries.length = t.entries.length + 1 := List.length_append
  have hnew : (t.makeNode c node pending).entry t.entries.length =
      ⟨node.id, node.endpoint, distance c t.m_node.id node.id, pending⟩ := by
    show (t.entries ++ [_]).getD _ _ = _
    rw [List.getD_append_right _ _ _ _ le_rfl, Nat.sub_self]
    rfl
  constructor
  · intro e he
    rcases List.mem_append.1 he with he | he
    · exact h.distances e he
    · rw [List.mem_singleton.1 he]
      rfl
  · intro id q hq
    rw [hlen]
    rcases List.mem_cons.1 hq with hq | hq
    · rw [Prod.mk.injEq] at hq
      obtain ⟨rfl, rfl⟩ := hq
      rw [hnew]
      exact ⟨Nat.lt_succ_self _, rfl⟩
    · obtain ⟨hlt, hid⟩ := h.named id q (List.mem_of_mem_filter hq)
      rw [entry_makeNode hlt]
      exact ⟨hlt.trans (Nat.lt_succ_self _), hid⟩
  · have hsub : ((t.m_nodes.filter (·.1 ≠ node.id)).map Prod.fst).Sublist (t.m_nodes.map Prod.fst) :=
      List.filter_sublist.map _
    refine List.nodup_cons.2 ⟨?_, h.keys.sublist hsub⟩
    intro hmem
    obtain ⟨x, hx, hid⟩ := List.mem_map.1 hmem
    have hne := (List.mem_filter.1 hx).2
    rw [decide_eq_true_eq] at hne
    exact hne hid
  · exact h.sized
  · exact h.nodup
  · intro i q hq
    obtain ⟨hlt, hd⟩ := h.placed i q hq
    rw [hlen, entry_makeNode hlt]
    exact ⟨hlt.trans (Nat.lt_succ_self _), hd⟩
  · intro i q hq hheld
    have hlt := (h.placed i q hq).1
    have hknown := h.known i q hq hheld
    rw [entry_makeNode hlt, nodeEntry_makeNode, if_neg]
    · exact hknown
    · intro hid
      rw [hid] at hknown
      exact hfree q hknown hheld i hq

theorem Sound.addUnknown (h : Sound c t) (hadd : t.addNode c node .Unknown = some t') : Sound c t' := by
  unfold NodeTable.addNode at hadd
  dsimp only at hadd
  split_ifs at hadd with hset hid hknown
  · cases hadd
    exact h
  · cases hadd
    exact h.of_same ⟨rfl, rfl, rfl, rfl, rfl⟩
  · cases hadd
    exact h
  · cases hadd
    refine (h.makeNode ?_).of_same (sameNodes_ping _ _)
    intro p hp
    rw [hp] at hknown
    exact absurd rfl hknown

/-- A node of a bucket that is replaced is one that nobody else refers to. -/
def ReplacesFree (t : NodeTable) (node : Node) (relation : NodeRelation) : Prop :=
  relation = .Known → ∀ p, t.nodeEntry node.id = some p → p ∈ t.held → ∀ i, p ∉ t.m_state i

theorem Sound.addNode (h : Sound c t) {relation : NodeRelation} (hfree : ReplacesFree t node relation)
    (hadd : t.addNode c node relation = some t') : Sound c t' := by
  cases relation with
  | Unknown => exact h.addUnknown hadd
  | Known => exact (h.makeNode (hfree rfl)).noteActiveNode hadd

/-! ## Datagrams and timers -/

theorem Sound.setActive (h : Sound c t) (id : NodeID) : Sound c (t.setActive id) := by
  unfold NodeTable.setActive
  split
  · rename_i p hp
    exact h.setEntry (by exact rfl) (by exact rfl) (h.nodeEntry_lt hp)
  · exact h

theorem Sound.onPong (h : Sound c t) {source : UDPEndpoint} {sourceid : NodeID} {destination : NodeIPEndpoint}
    {noted : Bool} (hpong : t.onPong c source sourceid destination = some (t', noted)) : Sound c t' := by
  unfold NodeTable.onPong at hpong
  split at hpong
  · rename_i evictionEntry _
    have herase : Sound c { t with m_evictions := t.m_evictions.filter (·.1 ≠ sourceid) } :=
      h.of_same ⟨rfl, rfl, rfl, rfl, rfl⟩
    dsimp only at hpong
    split at hpong
    · rw [Option.bind_eq_bind, Option.bind_eq_some_iff] at hpong
      obtain ⟨u, hu, hpong⟩ := hpong
      cases hpong
      exact ((herase.dropNode hu).setActive sourceid).of_same (sameNodes_learnEndpoint _ _)
    · cases hpong
      exact (herase.setActive sourceid).of_same (sameNodes_learnEndpoint _ _)
  · split_ifs at hpong
    · cases hpong
      exact (h.setActive sourceid).of_same (sameNodes_learnEndpoint _ _)
    · rw [Option.bind_eq_bind, Option.bind_eq_some_iff] at hpong
      obtain ⟨u, hu, hpong⟩ := hpong
      cases hpong
      have hping : Sound c { t with m_pubkDiscoverPings := t.m_pubkDiscoverPings.filter (· ≠ source.address) } :=
        h.of_same ⟨rfl, rfl, rfl, rfl, rfl⟩
      exact (hping.addUnknown hu).of_same (sameNodes_learnEndpoint _ _)
    · cases hpong
      exact h

/-- A loop of calls that each keep the invariant. -/
theorem Sound.foldlM {α : Type} {f : NodeTable → α → Option NodeTable}
    (hf : ∀ t t' a, Sound c t → f t a = some t' → Sound c t') {l : List α} :
    ∀ {t : NodeTable}, Sound c t → l.foldlM f t = some t' → Sound c t' := by
  induction l with
  | nil =>
    intro t h hfold
    cases hfold
    exact h
  | cons a l ih =>
    intro t h hfold
    rw [List.foldlM_cons, Option.bind_eq_bind, Option.bind_eq_some_iff] at hfold
    obtain ⟨u, hu, hfold⟩ := hfold
    exact ih (hf t u a h hu) hfold

theorem Sound.onNeighbours (h : Sound c t) {sourceid : NodeID} {neighbours : List Node}
    (hn : t.onNeighbours c sourceid neighbours = some t') : Sound c t' := by
  unfold NodeTable.onNeighbours at hn
  dsimp only at hn
  split_ifs at hn
  · refine Sound.foldlM ?_ ?_ hn
    · exact fun t t' n h hadd => h.addUnknown hadd
    · exact h.of_same ⟨rfl, rfl, rfl, rfl, rfl⟩
  · cases hn
    exact h.of_same ⟨rfl, rfl, rfl, rfl, rfl⟩

theorem Sound.onReceived (h : Sound c t) {source : UDPEndpoint} {sourceid : NodeID} {packet : Packet}
    (hr : t.onReceived c source sourceid packet = some t') : Sound c t' := by
  cases packet with
  | Pong destination =>
    unfold NodeTable.onReceived at hr
    dsimp only at hr
    rw [Option.bind_eq_bind, Option.bind_eq_some_iff] at hr
    obtain ⟨⟨u, noted⟩, hu, hr⟩ := hr
    have hsound := h.onPong hu
    dsimp only at hr
    split at hr
    · exact hsound.noteActiveNode hr
    · cases hr
      exact hsound
  | Neighbours neighbours =>
    unfold NodeTable.onReceived at hr
    dsimp only at hr
    rw [Option.bind_eq_bind, Option.bind_eq_some_iff] at hr
    obtain ⟨u, hu, hr⟩ := hr
    exact (h.onNeighbours hu).noteActiveNode hr
  | FindNode => exact h.noteActiveNode hr
  | PingNode endpoint =>
    unfold NodeTable.onReceived at hr
    dsimp only at hr
    rw [Option.bind_eq_bind, Option.bind_eq_some_iff] at hr
    obtain ⟨u, hu, hr⟩ := hr
    refine Sound.noteActiveNode ?_ hr
    exact (h.addUnknown hu).of_same ⟨rfl, rfl, rfl, rfl, rfl⟩

theorem Sound.checkEvictions (h : Sound c t) (hcheck : t.checkEvictions = some t') : Sound c t' := by
  unfold NodeTable.checkEvictions at hcheck
  rw [Option.bind_eq_bind, Option.bind_eq_some_iff] at hcheck
  obtain ⟨u, hu, hcheck⟩ := hcheck
  have hsound : Sound c u := Sound.foldlM (fun t t' n h hdrop => h.dropNode hdrop) h hu
  cases hcheck
  split
  · exact hsound.of_same ⟨rfl, rfl, rfl, rfl, rfl⟩
  · exact hsound

/-! ## Runs -/

theorem sound_init (node : Node) (hasHandler isOpen : Bool) (now : ℕ) : Sound c (init node hasHandler isOpen now) where
  distances := fun _ h => absurd h List.not_mem_nil
  named := fun _ _ h => absurd h List.not_mem_nil
  keys := .nil
  sized := fun _ => Nat.zero_le _
  nodup := fun _ => .nil
  placed := fun _ _ h => absurd h List.not_mem_nil
  known := fun _ _ h => absurd h List.not_mem_nil

theorem Sound.live_iff (h : Sound c t) (hp : p < t.entries.length) :
    t.live p = true ↔ t.nodeEntry (t.entry p).id = some p ∨ p ∈ t.held := by
  unfold live
  rw [Bool.or_eq_true, List.any_eq_true, List.contains_iff_mem]
  refine or_congr_left ?_
  constructor
  · rintro ⟨⟨id, q⟩, hmem, hq⟩
    obtain rfl : q = p := of_decide_eq_true hq
    rw [(h.named id q hmem).2]
    unfold nodeEntry
    rw [List.lookup_eq_some_iff]
    obtain ⟨l, r, heq⟩ := List.append_of_mem hmem
    refine ⟨l, r, heq, ?_⟩
    intro x hx
    have hkeys := h.keys
    rw [heq, List.map_append, List.map_cons] at hkeys
    rw [bne_iff_ne]
    intro hid
    exact (List.nodup_append.1 hkeys).2.2 id (hid ▸ List.mem_map_of_mem hx) id List.mem_cons_self rfl
  · exact fun hnode => ⟨_, mem_of_nodeEntry hnode, by simp⟩

/-- Another reference to a node that is still there. -/
theorem Sound.hold (h : Sound c t) (hlive : t.live p = true) {pings : List (NodeID × ℕ)} :
    Sound c { t with held := p :: t.held, m_findNodeTimeout := pings } where
  distances := h.distances
  named := h.named
  keys := h.keys
  sized := h.sized
  nodup := h.nodup
  placed := h.placed
  known := by
    intro i q hq hheld
    rcases List.mem_cons.1 hheld with rfl | hheld
    · rcases (h.live_iff (h.placed i q hq).1).1 hlive with hnode | hheld
      · exact hnode
      · exact h.known i q hq hheld
    · exact h.known i q hq hheld

/-- The steps that replace no node of a bucket that somebody else refers to. -/
def KeepsReferences (t : NodeTable) : Step → Prop
  | .addNode node relation => ReplacesFree t node relation
  | _ => True

theorem Sound.step (h : Sound c t) {a : Step} (hkeeps : KeepsReferences t a) (ha : t.step c a = some t') :
    Sound c t' := by
  cases a with
  | addNode node relation => exact h.addNode hkeeps ha
  | noteActiveNode pubk endpoint => exact h.noteActiveNode ha
  | dropNode p =>
    unfold NodeTable.step at ha
    dsimp only at ha
    split_ifs at ha
    exact h.dropNode ha
  | receive source sourceid packet => exact h.onReceived ha
  | findNode p =>
    unfold NodeTable.step at ha
    dsimp only at ha
    split_ifs at ha with hlive
    cases ha
    exact h.hold hlive
  | hold p =>
    unfold NodeTable.step at ha
    dsimp only at ha
    split_ifs at ha with hlive
    cases ha
    exact h.hold hlive
  | release p =>
    cases ha
    exact ⟨h.distances, h.named, h.keys, h.sized, h.nodup, h.placed, fun i q hq hheld =>
      h.known i q hq (List.mem_of_mem_erase hheld)⟩
  | check i =>
    unfold NodeTable.step at ha
    dsimp only at ha
    split at ha
    · split_ifs at ha
      refine Sound.checkEvictions ?_ ha
      exact h.of_same ⟨rfl, rfl, rfl, rfl, rfl⟩
    · cases ha
  | wait time =>
    cases ha
    exact h.of_same ⟨rfl, rfl, rfl, rfl, rfl⟩
  | disconnect =>
    cases ha
    exact h.of_same ⟨rfl, rfl, rfl, rfl, rfl⟩

/-- The buckets are no larger than they may be, have each node once and at its distance. -/
structure Maintained (c : Discovery) (t : NodeTable) : Prop where
  sized : ∀ i, (t.m_state i).length ≤ s_bucketSize
  distinct : ∀ i, (((t.m_state i).filter t.live).map fun p => (t.entry p).id).Nodup
  placed : ∀ i p, p ∈ t.m_state i → t.live p = true → distance c t.m_node.id (t.entry p).id = i + 1

theorem Sound.maintained (h : Sound c t) : Maintained c t where
  sized := h.sized
  distinct := by
    intro i
    refine List.Nodup.map_on ?_ ((h.nodup i).filter _)
    intro p hp q hq hid
    obtain ⟨hp, hlive⟩ := List.mem_filter.1 hp
    obtain ⟨hq, hlive'⟩ := List.mem_filter.1 hq
    have hnode : ∀ r, r ∈ t.m_state i → t.live r = true → t.nodeEntry (t.entry r).id = some r := by
      intro r hr hlive
      rcases (h.live_iff (h.placed i r hr).1).1 hlive with hnode | hheld
      · exact hnode
      · exact h.known i r hr hheld
    have hpq := hnode p hp hlive
    rw [hid, hnode q hq hlive'] at hpq
    exact (Option.some.inj hpq).symm
  placed := by
    intro i p hp _
    obtain ⟨hlt, hd⟩ := h.placed i p hp
    rw [← h.distances _ (entry_mem hlt)]
    exact hd

/-- The node was in its bucket and is now behind the others, which are as they were. -/
def MovesToTail (t t' : NodeTable) (pubk : NodeID) : Prop :=
  ∀ p i, t.nodeEntry pubk = some p → p ∈ t.m_state i →
    t'.m_state = Function.update t.m_state i ((t.m_state i).erase p ++ [p])

/-- The node is the last of its bucket, if it is in one. -/
def LastIfThere (t : NodeTable) (pubk : NodeID) : Prop :=
  ∀ p i, t.nodeEntry pubk = some p → p ∈ t.m_state i → (t.m_state i).getLast? = some p

theorem Sound.movesToTail_iff (h : Sound c t) (hnote : t.noteActiveNode c pubk endpoint = some t') :
    MovesToTail t t' pubk ↔ LastIfThere t pubk := by
  unfold MovesToTail LastIfThere
  refine forall_congr' fun p => forall_congr' fun i => forall_congr' fun hnode => forall_congr' fun hp => ?_
  obtain ⟨l, r, hlist, htake, herase, hlast⟩ := exists_split (h.nodup i) hp
  rw [hlast, herase]
  have heq : ∀ nodes, t'.m_state = Function.update t.m_state i nodes →
      (t'.m_state = Function.update t.m_state i (l ++ r ++ [p]) ↔ nodes = l ++ r ++ [p]) := by
    intro nodes hnodes
    rw [hnodes]
    constructor
    · intro hupdate
      have hi := congrFun hupdate i
      rwa [Function.update_self, Function.update_self] at hi
    · rintro rfl
      rfl
  rcases noteActiveNode_cases (fun p hp => h.nodeEntry_lt hp) hnote with rfl | ⟨q, j, e, nodes, hn⟩
  · -- the call is not let through, and the node stays where it is
    rw [heq (l ++ p :: r) (by rw [← hlist, Function.update_eq_self])]
    constructor
    · intro hmoved
      rw [List.append_assoc, List.append_right_inj] at hmoved
      cases hcase : r with
      | nil => rfl
      | cons a r' =>
        rw [hcase, List.cons_append, List.cons.injEq] at hmoved
        have hnodup := h.nodup i
        rw [hlist, hcase, hmoved.1] at hnodup
        exact absurd List.mem_cons_self (List.nodup_cons.1 (List.nodup_append.1 hnodup).2.1).1
    · rintro rfl
      rw [List.append_nil]
  · obtain rfl : q = p := by
      have hq := hn.node
      rw [hnode] at hq
      exact (Option.some.inj hq).symm
    obtain rfl : j = i := by
      have hj := bucket_eq hn.bucket
      have hi := (h.placed i q hp).2
      omega
    have hsized := h.sized j
    rw [hlist, List.length_append, List.length_cons] at hsized
    have hnodes : nodes = l ++ [q] := by
      rcases hn.nodes with ⟨hfull, -⟩ | ⟨-, hnodes⟩
      · rw [htake] at hfull
        omega
      · rw [hnodes, htake]
    rw [heq nodes hn.same.m_state, hnodes, List.append_left_inj]
    constructor
    · intro hl
      have hlen := congrArg List.length hl
      rw [List.length_append] at hlen
      exact List.length_eq_zero_iff.1 (by omega)
    · rintro rfl
      rw [List.append_nil]

/-- In a run that replaces no node of a bucket that is referred to elsewhere every state has its buckets in order;
noting a node that is in its bucket moves it to the tail, and keeps the others, exactly if it is the last there. -/
theorem buckets_maintained (node : Node) (hasHandler isOpen : Bool) (now : ℕ) (steps : List Step)
    (h : PartialRun.Along (step c) KeepsReferences (init node hasHandler isOpen now) steps) :
    PartialRun.Always (step c)
      (fun t => Maintained c t ∧ ∀ pubk endpoint t', t.noteActiveNode c pubk endpoint = some t' →
      (MovesToTail t t' pubk ↔ LastIfThere t pubk)) (init node hasHandler isOpen now) steps := by
  have hsound : PartialRun.Always (step c) (Sound c) (init node hasHandler isOpen now) steps :=
    PartialRun.always_of_along (fun t a t' hs hk ha => hs.step hk ha) (sound_init node hasHandler isOpen now) h
  exact hsound.mono fun t ht => ⟨ht.maintained, fun pubk endpoint t' hnote => ht.movesToTail_iff hnote⟩

end

/-- A table that allows local addresses, with a hash function that gives the last byte of what it hashes. -/
def localDiscovery : Discovery := ⟨fun b => BitVec.ofNat 256 (b.getLastD 0).toNat, true⟩

def shortID (n : BitVec 8) : NodeID := n.setWidth' (by decide)

def localNode (n : BitVec 8) : Node := ⟨shortID n, ⟨.v4 0x7f000001, 30303, 30303⟩⟩

def localTable : NodeTable := init (localNode 1) true true 0

/-- Three nodes of one distance; the last one is noted again, and then replaced. -/
def threeNodes : List Step :=
  [.addNode (localNode 16) .Known, .addNode (localNode 17) .Known, .addNode (localNode 18) .Known,
    .noteActiveNode (shortID 18) (localNode 18).endpoint.udp, .addNode (localNode 18) .Known]

theorem keepsReferences_of_held (hheld : t.held = []) (a : Step) : KeepsReferences t a := by
  cases a with
  | addNode node relation =>
    intro _ p _ hp
    rw [hheld] at hp
    cases hp
  | _ => trivial

/-- Nobody else refers to a node. -/
theorem keepsReferences_three : PartialRun.Along (step localDiscovery) KeepsReferences localTable threeNodes := by
  have hheld : PartialRun.Along (step localDiscovery) (fun t _ => t.held = []) localTable threeNodes := by decide
  exact hheld.mono fun t a h => keepsReferences_of_held h a

/-- The bucket after the node was noted again has them as they were. -/
theorem buckets_maintained_three : PartialRun.Always (step localDiscovery)
      (fun t => Maintained localDiscovery t ∧ ∀ pubk endpoint t',
        t.noteActiveNode localDiscovery pubk endpoint = some t' →
        (MovesToTail t t' pubk ↔ LastIfThere t pubk)) localTable threeNodes ∧
    ((threeNodes.take 4).foldlM (step localDiscovery) localTable).map (fun t => t.m_state 3) = some [0, 1, 2] :=
  ⟨buckets_maintained (localNode 1) true true 0 _ keepsReferences_three, by decide⟩

/-- The node behind the one that is noted again is lost; one that is put in the place of a node that is still in use
is in the bucket twice. -/
theorem noted_again_loses : (∃ t t', [Step.addNode (localNode 16) .Known, .addNode (localNode 17) .Known].foldlM
      (step localDiscovery) localTable = some t ∧
    t.noteActiveNode localDiscovery (shortID 16) (localNode 16).endpoint.udp = some t' ∧
    t.m_state 3 = [0, 1] ∧ t'.m_state 3 = [0] ∧ ¬MovesToTail t t' (shortID 16)) ∧
    ∃ t, [Step.addNode (localNode 16) .Known, .hold 0, .addNode (localNode 16) .Known].foldlM (step localDiscovery)
      localTable = some t ∧ ¬Maintained localDiscovery t := by
  refine ⟨⟨_, _, rfl, rfl, rfl, rfl, ?_⟩, _, rfl, ?_⟩
  · intro h
    have h3 := congrFun (h 0 3 rfl (show 0 ∈ [0, 1] by decide)) 3
    rw [Function.update_self] at h3
    revert h3
    decide
  · intro h
    have h3 : [shortID 16, shortID 16].Nodup := h.distinct 3
    exact absurd List.mem_cons_self (List.nodup_cons.1 h3).1

end NodeTable

end Petrachor
