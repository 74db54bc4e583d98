import Petrachor.NodeTable.Buckets

/-!
# Evictions

A pong ends an eviction only if the time it began at is still to come, which it never is, and the check erases none.
What is asked to make room for another node is waited for from then on.
-/

namespace Petrachor

namespace NodeTable

section

variable {c : Discovery} {t t' u : NodeTable} {p : ℕ} {id pubk : NodeID} {node : Node} {endpoint : UDPEndpoint}

/-- Evictions that have begun. -/
def Begun (t : NodeTable) : Prop := ∀ e ∈ t.m_evictions, e.2.evictedTimePoint ≤ t.now

/-- Later, with the same evictions and maybe some more. -/
structure Extends (t t' : NodeTable) : Prop where
  now : t.now ≤ t'.now
  evictions : ∃ l, t'.m_evictions = t.m_evictions ++ l ∧ ∀ e ∈ l, e.2.evictedTimePoint ≤ t'.now

theorem Extends.of_eq (hnow : t'.now = t.now) (h : t'.m_evictions = t.m_evictions) : Extends t t' :=
  ⟨hnow.ge, [], by rw [h, List.append_nil], fun _ he => absurd he List.not_mem_nil⟩

theorem Extends.refl (t : NodeTable) : Extends t t := .of_eq rfl rfl

theorem Extends.trans (h : Extends t t') (h' : Extends t' u) : Extends t u := by
  obtain ⟨l, hl, hnow⟩ := h.evictions
  obtain ⟨l', hl', hnow'⟩ := h'.evictions
  refine ⟨h.now.trans h'.now, l ++ l', by rw [hl', hl, List.append_assoc], ?_⟩
  intro e he
  rcases List.mem_append.1 he with he | he
  · exact (hnow e he).trans h'.now
  · exact hnow' e he

theorem Begun.of_extends (h : Begun t) (hext : Extends t t') : Begun t' := by
  obtain ⟨l, hl, hnow⟩ := hext.evictions
  intro e he
  rw [hl] at he
  rcases List.mem_append.1 he with he | he
  · exact (h e he).trans hext.now
  · exact hnow e he

theorem Extends.lookup (hext : Extends t t') {e : EvictionTimeout} (h : t.m_evictions.lookup id = some e) :
    t'.m_evictions.lookup id = some e := by
  obtain ⟨l, hl, -⟩ := hext.evictions
  rw [List.lookup_eq_some_iff] at h ⊢
  obtain ⟨l₁, l₂, heq, hne⟩ := h
  exact ⟨l₁, l₂ ++ l, by rw [hl, heq, List.append_assoc, List.cons_append], hne⟩

/-! ## Calls -/

theorem extends_appendEvent (t : NodeTable) (id : NodeID) (e : NodeTableEventType) :
    Extends t (t.appendEvent id e) := by
  unfold appendEvent
  split_ifs <;> exact .of_eq rfl rfl

theorem extends_evict (t : NodeTable) (leastSeen new : ℕ) : Extends t (t.evict leastSeen new) := by
  have hnew : Extends t { t with m_evictions := t.m_evictions ++
      [((t.entry leastSeen).id, ⟨(t.entry new).id, t.now⟩)] } := by
    refine ⟨le_rfl, _, rfl, ?_⟩
    intro e he
    rw [List.mem_singleton.1 he]
  unfold evict
  dsimp only
  split_ifs
  · exact .refl t
  · exact .of_eq rfl rfl
  · exact .of_eq rfl rfl
  · exact hnew.trans (.of_eq rfl rfl)
  · exact hnew.trans (.of_eq rfl rfl)

theorem extends_noteActiveNode (h : t.noteActiveNode c pubk endpoint = some t') : Extends t t' := by
  unfold noteActiveNode at h
  split at h
  · cases h
    exact .refl t
  · split at h
    · cases h
      exact .refl t
    · dsimp only at h
      split at h
      · cases h
        exact .refl t
      · rw [Option.bind_eq_bind, Option.bind_eq_some_iff] at h
        obtain ⟨i, -, h⟩ := h
        split at h
        · split at h
          · cases h
            refine Extends.trans ?_ (extends_evict _ _ _)
            exact .of_eq rfl rfl
          · cases h
            split
            · refine Extends.trans ?_ (extends_appendEvent _ _ _)
              exact .of_eq rfl rfl
            · exact .of_eq rfl rfl
        · cases h
          split
          · refine Extends.trans ?_ (extends_appendEvent _ _ _)
            exact .of_eq rfl rfl
          · exact .of_eq rfl rfl

theorem extends_dropNode (h : t.dropNode p = some t') : Extends t t' := by
  unfold dropNode at h
  rw [Option.bind_eq_bind, Option.bind_eq_some_iff] at h
  obtain ⟨i, -, h⟩ := h
  cases h
  refine Extends.trans ?_ (extends_appendEvent _ _ _)
  exact .of_eq rfl rfl

theorem extends_addNode {relation : NodeRelation} (h : t.addNode c node relation = some t') : Extends t t' := by
  cases relation with
  | Known =>
    refine Extends.trans ?_ (extends_noteActiveNode h)
    exact .of_eq rfl rfl
  | Unknown =>
    unfold addNode at h
    dsimp only at h
    split_ifs at h <;> cases h <;> exact .of_eq rfl rfl

theorem extends_setActive (t : NodeTable) (id : NodeID) : Extends t (t.setActive id) := by
  unfold setActive
  split
  · exact .of_eq rfl rfl
  · exact .refl t

/-- No pong ends an eviction. -/
theorem Begun.evictionOf_eq_none (h : Begun t) (sourceid : NodeID) : t.evictionOf sourceid = none := by
  unfold evictionOf
  rw [Option.filter_eq_none_iff]
  intro e he
  rw [List.lookup_eq_some_iff] at he
  obtain ⟨l, r, heq, -⟩ := he
  have hle := h (sourceid, e) (heq ▸ List.mem_append_right _ List.mem_cons_self)
  simpa using hle

theorem Begun.extends_onPong (h : Begun t) {source : UDPEndpoint} {sourceid : NodeID} {destination : NodeIPEndpoint}
    {noted : Bool} (hpong : t.onPong c source sourceid destination = some (t', noted)) : Extends t t' := by
  unfold onPong at hpong
  rw [h.evictionOf_eq_none] at hpong
  dsimp only at hpong
  split_ifs at hpong
  · cases hpong
    exact (extends_setActive t sourceid).trans (.of_eq rfl rfl)
  · rw [Option.bind_eq_bind, Option.bind_eq_some_iff] at hpong
    obtain ⟨u, hu, hpong⟩ := hpong
    cases hpong
    refine Extends.trans (Extends.trans ?_ (extends_addNode hu)) (.of_eq rfl rfl)
    exact .of_eq rfl rfl
  · cases hpong
    exact .refl t

theorem extends_foldlM {α : Type} {f : NodeTable → α → Option NodeTable}
    (hf : ∀ t t' a, f t a = some t' → Extends t t') {l : List α} :
    ∀ {t : NodeTable}, l.foldlM f t = some t' → Extends t t' := by
  induction l with
  | nil =>
    intro t h
    cases h
    exact .refl _
  | cons a l ih =>
    intro t h
    rw [List.foldlM_cons, Option.bind_eq_bind, Option.bind_eq_some_iff] at h
    obtain ⟨u, hu, h⟩ := h
    exact (hf t u a hu).trans (ih h)

theorem Begun.extends_onReceived (h : Begun t) {source : UDPEndpoint} {sourceid : NodeID} {packet : Packet}
    (hr : t.onReceived c source sourceid packet = some t') : Extends t t' := by
  cases packet with
  | Pong destination =>
    unfold onReceived at hr
    dsimp only at hr
    rw [Option.bind_eq_bind, Option.bind_eq_some_iff] at hr
    obtain ⟨⟨u, noted⟩, hu, hr⟩ := hr
    have hext := h.extends_onPong hu
    dsimp only at hr
    split at hr
    · exact hext.trans (extends_noteActiveNode hr)
    · cases hr
      exact hext
  | Neighbours neighbours =>
    unfold onReceived onNeighbours at hr
    dsimp only at hr
    rw [Option.bind_eq_bind, Option.bind_eq_some_iff] at hr
    obtain ⟨u, hu, hr⟩ := hr
    refine Extends.trans ?_ (extends_noteActiveNode hr)
    split_ifs at hu
    · refine Extends.trans ?_ (extends_foldlM (fun t t' n hadd => extends_addNode hadd) hu)
      exact .of_eq rfl rfl
    · cases hu
      exact .of_eq rfl rfl
  | FindNode => exact extends_noteActiveNode hr
  | PingNode endpoint =>
    unfold onReceived at hr
    dsimp only at hr
    rw [Option.bind_eq_bind, Option.bind_eq_some_iff] at hr
    obtain ⟨u, hu, hr⟩ := hr
    refine Extends.trans ((extends_addNode hu).trans ?_) (extends_noteActiveNode hr)
    exact .of_eq rfl rfl

theorem extends_checkEvictions (h : t.checkEvictions = some t') : Extends t t' := by
  unfold checkEvictions at h
  rw [Option.bind_eq_bind, Option.bind_eq_some_iff] at h
  obtain ⟨u, hu, h⟩ := h
  have hext : Extends t u := extends_foldlM (fun t t' n hdrop => extends_dropNode hdrop) hu
  cases h
  split
  · exact hext.trans (.of_eq rfl rfl)
  · exact hext

/-! ## Runs -/

theorem Begun.extends_step (h : Begun t) {a : Step} (ha : t.step c a = some t') : Extends t t' := by
  cases a with
  | addNode node relation => exact extends_addNode ha
  | noteActiveNode pubk endpoint => exact extends_noteActiveNode ha
  | receive source sourceid packet => exact h.extends_onReceived ha
  | check i =>
    unfold step at ha
    dsimp only at ha
    split at ha
    · split_ifs at ha
      refine Extends.trans ?_ (extends_checkEvictions ha)
      exact .of_eq rfl rfl
    · cases ha
  | dropNode p =>
    unfold step at ha
    dsimp only at ha
    split_ifs at ha
    exact extends_dropNode ha
  | findNode p =>
    unfold step at ha
    dsimp only at ha
    split_ifs at ha
    cases ha
    exact .of_eq rfl rfl
  | hold p =>
    unfold step at ha
    dsimp only at ha
    split_ifs at ha
    cases ha
    exact .of_eq rfl rfl
  | release p =>
    cases ha
    exact .of_eq rfl rfl
  | wait time =>
    cases ha
    exact ⟨Nat.le_add_right _ _, [], (List.append_nil _).symm, fun _ he => absurd he List.not_mem_nil⟩
  | disconnect =>
    cases ha
    exact .of_eq rfl rfl

theorem Begun.extends_run {steps : List Step} : ∀ {t : NodeTable}, Begun t → steps.foldlM (step c) t = some t' →
    Extends t t' := by
  induction steps with
  | nil =>
    intro t _ h
    cases h
    exact .refl _
  | cons a steps ih =>
    intro t hb h
    rw [List.foldlM_cons, Option.bind_eq_bind, Option.bind_eq_some_iff] at h
    obtain ⟨u, hu, h⟩ := h
    have hext := hb.extends_step hu
    exact hext.trans (ih (hb.of_extends hext) h)

/-- The node is in a bucket. -/
def InBucket (t : NodeTable) (id : NodeID) : Prop := ∃ i, ∃ p ∈ t.m_state i, t.live p = true ∧ (t.entry p).id = id

/-- An eviction is over: one of the two nodes is in the table, and nothing is waited for. -/
structure Ended (t : NodeTable) (leastSeen : NodeID) (e : EvictionTimeout) : Prop where
  erased : t.m_evictions.lookup leastSeen = none
  outcome : t.InBucket leastSeen ∧ ¬t.InBucket e.newNodeID ∨ ¬t.InBucket leastSeen ∧ t.InBucket e.newNodeID

end

/-- No eviction of a run is ever over. -/
theorem evictions_never_end (c : Discovery) (node : Node) (hasHandler isOpen : Bool) (now : ℕ)
    (before after : List Step)
    {t t' : NodeTable} (ht : before.foldlM (step c) (init node hasHandler isOpen now) = some t) {leastSeen : NodeID}
    {e : EvictionTimeout} (he : t.m_evictions.lookup leastSeen = some e) (ht' : after.foldlM (step c) t = some t') :
    ¬t'.Ended leastSeen e := by
  intro hended
  have hinit : Begun (init node hasHandler isOpen now) := fun _ h => absurd h List.not_mem_nil
  have hbegun : Begun t := hinit.of_extends (hinit.extends_run ht)
  have hlookup := (hbegun.extends_run ht').lookup he
  rw [hended.erased] at hlookup
  cases hlookup

/-- Seventeen nodes at one distance, and the check after the time that the first of them had to answer in. -/
def fullBucket : List Step :=
  ((List.range 17).map fun n => .addNode (localNode (32 + BitVec.ofNat 8 n)) .Known) ++ [.wait 301000000, .check 0]

set_option maxRecDepth 100000 in
theorem fullBucket_run : ∃ t, fullBucket.foldlM (step localDiscovery) localTable = some t ∧
    t.m_evictions.lookup (shortID 32) = some ⟨shortID 48, 0⟩ ∧ t.m_state 4 = List.range 16 ∧ t.checks = [] := by
  have hrun : (fullBucket.foldlM (step localDiscovery) localTable).map (fun t =>
      (t.m_evictions.lookup (shortID 32), t.m_state 4, t.checks)) =
        some (some ⟨shortID 48, 0⟩, List.range 16, []) := by decide
  rw [Option.map_eq_some_iff] at hrun
  obtain ⟨t, ht, heq⟩ := hrun
  rw [Prod.mk.injEq, Prod.mk.injEq] at heq
  exact ⟨t, ht, heq⟩

theorem evictions_never_end_full : ∃ t, fullBucket.foldlM (step localDiscovery) localTable = some t ∧
    ∀ (after : List Step) (t' : NodeTable), after.foldlM (step localDiscovery) t = some t' →
      ¬t'.Ended (shortID 32) ⟨shortID 48, 0⟩ := by
  obtain ⟨t, ht, he, -⟩ := fullBucket_run
  exact ⟨t, ht, fun after t' ht' =>
    evictions_never_end localDiscovery (localNode 1) true true 0 fullBucket after ht he ht'⟩

/-- The node that did not answer is still there, the eviction is still noted, and no check is scheduled. -/
theorem eviction_goes_on : ∃ t, fullBucket.foldlM (step localDiscovery) localTable = some t ∧
    t.m_state 4 = List.range 16 ∧ t.m_evictions.lookup (shortID 32) = some ⟨shortID 48, 0⟩ ∧ t.checks = [] ∧
    ¬t.Ended (shortID 32) ⟨shortID 48, 0⟩ := by
  obtain ⟨t, ht, he, hstate, hchecks⟩ := fullBucket_run
  refine ⟨t, ht, hstate, he, hchecks, fun hended => ?_⟩
  have herased := hended.erased
  rw [he] at herased
  cases herased

end NodeTable

end Petrachor
