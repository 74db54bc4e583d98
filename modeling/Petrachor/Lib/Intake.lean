import Mathlib
import Petrachor.Lib.Waiting

/-!
# An intake

Items come in, each with a name and the name of the item it follows. Those that may go on stand in a
line, those whose predecessor has not come wait, some are handed out, and names are known to be bad.
Sets of names, kept beside, say what became of each item.
-/

namespace Intake

@[ext]
structure Item (K : Type*) where
  name : K
  after : K
  deriving DecidableEq

structure State (K : Type*) where
  line : List (Item K)
  waiting : Multiset (Item K)
  ready : Finset K
  draining : Finset K
  unknown : Finset K
  bad : Finset K

variable {K : Type*} [DecidableEq K]

/-- The names of some items. -/
def names (l : List (Item K)) : Finset K := (l.map Item.name).toFinset

@[simp] theorem mem_names {l : List (Item K)} {k : K} : k ∈ names l ↔ ∃ x ∈ l, x.name = k := by
  simp [names]

theorem names_append (l l' : List (Item K)) : names (l ++ l') = names l ∪ names l' := by
  ext k
  simp only [mem_names, List.mem_append, Finset.mem_union]
  grind

/-- A part of a line loses some of its items: with names of their own, it loses those of the names. -/
theorem filter_part {α : Type*} (f : α → Item K) (p : α → Bool) {pre suf : List (Item K)}
    {l : List α} (hn : ((pre ++ (l.map f ++ suf)).map Item.name).Nodup) :
    (pre ++ (l.map f ++ suf)).filter (·.name ∉ ((l.filter p).map fun a => (f a).name).toFinset) =
      pre ++ ((l.filter (!p ·)).map f ++ suf) := by
  rw [List.map_append, List.nodup_append', List.map_append, List.nodup_append'] at hn
  obtain ⟨-, ⟨hl, -, hsuf⟩, hpre⟩ := hn
  have hmem : ∀ k ∈ ((l.filter p).map fun a => (f a).name).toFinset, k ∈ (l.map f).map Item.name := by
    intro k hk
    rw [List.mem_toFinset, List.mem_map] at hk
    obtain ⟨a, ha, rfl⟩ := hk
    exact List.mem_map_of_mem (List.mem_map_of_mem (List.mem_filter.1 ha).1)
  rw [List.filter_append, List.filter_append]
  congr 1
  · rw [List.filter_eq_self]
    intro x hx
    rw [decide_eq_true_eq]
    intro hk
    exact hpre (List.mem_map_of_mem hx) (List.mem_append_left _ (hmem _ hk))
  congr 1
  · rw [List.filter_map]
    congr 1
    apply List.filter_congr
    intro a ha
    -- an item of the same name is the item itself
    have hinj : (∃ b ∈ l, p b = true ∧ (f b).name = (f a).name) ↔ p a = true := by
      constructor
      · rintro ⟨b, hb, hp, heq⟩
        rw [List.map_map] at hl
        rwa [← List.inj_on_of_nodup_map hl hb ha heq]
      · intro hp
        exact ⟨a, ha, hp, rfl⟩
    simp only [Function.comp_apply, List.mem_toFinset, List.mem_map, List.mem_filter, and_assoc, hinj]
    cases p a <;> simp
  · rw [List.filter_eq_self]
    intro x hx
    rw [decide_eq_true_eq]
    intro hk
    exact hsuf (hmem _ hk) (List.mem_map_of_mem hx)

/-- Of items with names of their own, those that go have other names than those that stay. -/
theorem names_split {u stay : Multiset (Item K)} {out : List (Item K)}
    (hn : (u.map Item.name).Nodup) (h : u = (↑out : Multiset (Item K)) + stay) :
    (out.map Item.name).Nodup ∧ (stay.map Item.name).Nodup ∧ ∀ y ∈ stay, y.name ∉ names out := by
  rw [h, Multiset.map_add, Multiset.nodup_add, Multiset.map_coe, Multiset.coe_nodup] at hn
  refine ⟨hn.1, hn.2.1, fun y hy hk => ?_⟩
  obtain ⟨z, hz, heq⟩ := mem_names.1 hk
  refine Multiset.disjoint_left.1 hn.2.2 (Multiset.mem_coe.2 (List.mem_map_of_mem hz)) ?_
  rw [heq]
  exact Multiset.mem_map_of_mem _ hy

abbrev Released (keys : List K) (u : Multiset (Item K)) (out : List (Item K))
    (stay : Multiset (Item K)) : Prop :=
  Waiting.Released Item.after Item.name keys u out stay

namespace State

/-- Nothing is known of the name. -/
structure New (s : State K) (k : K) : Prop where
  ready : k ∉ s.ready
  draining : k ∉ s.draining
  unknown : k ∉ s.unknown
  bad : k ∉ s.bad

def arrive (s : State K) (x : Item K) : State K :=
  { s with line := s.line ++ [x], ready := insert x.name s.ready }

def wait (s : State K) (x : Item K) : State K :=
  { s with waiting := x ::ₘ s.waiting, unknown := insert x.name s.unknown }

/-- Items that waited join the line. -/
def release (s : State K) (out : List (Item K)) (stay : Multiset (Item K)) : State K :=
  { s with line := s.line ++ out, waiting := stay, ready := s.ready ∪ names out,
           unknown := s.unknown \ names out }

/-- Items that waited are bad. -/
def collect (s : State K) (out : List (Item K)) (stay : Multiset (Item K)) : State K :=
  { s with waiting := stay, unknown := s.unknown \ names out, bad := s.bad ∪ names out }

/-- Names are bad. -/
def condemn (s : State K) (ks : Finset K) : State K := { s with bad := s.bad ∪ ks }

/-- Items of the line are bad. -/
def drop (s : State K) (ks : Finset K) : State K :=
  { s with line := s.line.filter (·.name ∉ ks), ready := s.ready \ ks, bad := s.bad ∪ ks }

def handOut (s : State K) (n : ℕ) : State K :=
  { s with line := s.line.drop n, ready := s.ready \ names (s.line.take n),
           draining := names (s.line.take n) }

/-- The items that were handed out are done with; some of them are bad. -/
def done (s : State K) (ks : Finset K) : State K :=
  { s with draining := ∅, bad := s.bad ∪ ks }

/-- One step in which bad names spread: to items of the line that are named or preceded by one, or to
those that wait for one. -/
inductive Spoil (s : State K) : State K → Prop
  | drop (ks : Finset K) (hmem : ∀ k ∈ ks, ∃ x ∈ s.line, x.name = k)
      (hbad : ∀ x ∈ s.line, x.name ∈ ks → x.after ∈ s.bad ∨ x.name ∈ s.bad) : Spoil s (s.drop ks)
  | collect (keys : List K) {out : List (Item K)} {stay : Multiset (Item K)}
      (hkeys : ∀ k ∈ keys, k ∈ s.bad) (h : Released keys s.waiting out stay) :
      Spoil s (s.collect out stay)

abbrev Spoiled : State K → State K → Prop := Relation.ReflTransGen Spoil

/-! ## What the sets say -/

/-- The sets say where each item is, and it is nowhere else. -/
structure Member (s : State K) : Prop where
  nodup : (s.line.map Item.name).Nodup
  ready_eq : s.ready = names s.line
  waiting_nodup : (s.waiting.map Item.name).Nodup
  mem_unknown : ∀ k, k ∈ s.unknown ↔ ∃ x ∈ s.waiting, x.name = k
  ready_draining : Disjoint s.ready s.draining
  ready_unknown : Disjoint s.ready s.unknown
  ready_bad : Disjoint s.ready s.bad
  draining_unknown : Disjoint s.draining s.unknown
  draining_bad : Disjoint s.draining s.bad
  unknown_bad : Disjoint s.unknown s.bad

/-- A state in which names are bad, and nothing else. -/
theorem member_empty (bad : Finset K) : Member (⟨[], 0, ∅, ∅, ∅, bad⟩ : State K) where
  nodup := List.nodup_nil
  ready_eq := rfl
  waiting_nodup := Multiset.nodup_zero
  mem_unknown k := by simp
  ready_draining := Finset.disjoint_empty_left _
  ready_unknown := Finset.disjoint_empty_left _
  ready_bad := Finset.disjoint_empty_left _
  draining_unknown := Finset.disjoint_empty_left _
  draining_bad := Finset.disjoint_empty_left _
  unknown_bad := Finset.disjoint_empty_left _

variable {s s' : State K} {x : Item K} {ks : Finset K}

theorem Member.mem_ready (hs : s.Member) {k : K} : k ∈ s.ready ↔ ∃ x ∈ s.line, x.name = k := by
  rw [hs.ready_eq, mem_names]

theorem Member.arrive (hs : s.Member) (hx : s.New x.name) : (s.arrive x).Member where
  nodup := by
    change ((s.line ++ [x]).map Item.name).Nodup
    rw [List.map_append, List.nodup_append']
    refine ⟨hs.nodup, List.nodup_singleton _, ?_⟩
    intro k hk hk'
    rw [List.map_cons, List.map_nil, List.mem_singleton] at hk'
    apply hx.ready
    rw [hs.mem_ready, ← hk']
    exact List.mem_map.1 hk
  ready_eq := by
    change insert x.name s.ready = names (s.line ++ [x])
    ext k
    rw [Finset.mem_insert, hs.mem_ready]
    simp only [mem_names, List.mem_append, List.mem_singleton]
    grind
  waiting_nodup := hs.waiting_nodup
  mem_unknown := hs.mem_unknown
  ready_draining := Finset.disjoint_insert_left.2 ⟨hx.draining, hs.ready_draining⟩
  ready_unknown := Finset.disjoint_insert_left.2 ⟨hx.unknown, hs.ready_unknown⟩
  ready_bad := Finset.disjoint_insert_left.2 ⟨hx.bad, hs.ready_bad⟩
  draining_unknown := hs.draining_unknown
  draining_bad := hs.draining_bad
  unknown_bad := hs.unknown_bad

theorem Member.wait (hs : s.Member) (hx : s.New x.name) : (s.wait x).Member where
  nodup := hs.nodup
  ready_eq := hs.ready_eq
  waiting_nodup := by
    change ((x ::ₘ s.waiting).map Item.name).Nodup
    rw [Multiset.map_cons, Multiset.nodup_cons]
    refine ⟨?_, hs.waiting_nodup⟩
    intro hk
    apply hx.unknown
    rw [hs.mem_unknown]
    exact Multiset.mem_map.1 hk
  mem_unknown k := by
    change k ∈ insert x.name s.unknown ↔ ∃ y ∈ x ::ₘ s.waiting, y.name = k
    rw [Finset.mem_insert, hs.mem_unknown]
    simp only [Multiset.mem_cons]
    grind
  ready_draining := hs.ready_draining
  ready_unknown := Finset.disjoint_insert_right.2 ⟨hx.ready, hs.ready_unknown⟩
  ready_bad := hs.ready_bad
  draining_unknown := Finset.disjoint_insert_right.2 ⟨hx.draining, hs.draining_unknown⟩
  draining_bad := hs.draining_bad
  unknown_bad := Finset.disjoint_insert_left.2 ⟨hx.bad, hs.unknown_bad⟩

section

variable {out : List (Item K)} {stay : Multiset (Item K)}

theorem Member.names_subset (hs : s.Member) (h : s.waiting = (↑out : Multiset (Item K)) + stay) :
    names out ⊆ s.unknown := by
  intro k hk
  obtain ⟨y, hy, rfl⟩ := mem_names.1 hk
  rw [hs.mem_unknown, h]
  exact ⟨y, Multiset.mem_add.2 (.inl (Multiset.mem_coe.2 hy)), rfl⟩

/-- Of the items that waited, those that go have other names than those that stay. -/
theorem Member.split (hs : s.Member) (h : s.waiting = (↑out : Multiset (Item K)) + stay) :
    (out.map Item.name).Nodup ∧ (stay.map Item.name).Nodup ∧
      ∀ k, k ∈ s.unknown \ names out ↔ ∃ y ∈ stay, y.name = k := by
  obtain ⟨hn, hns, hdisj⟩ := names_split hs.waiting_nodup h
  refine ⟨hn, hns, fun k => ?_⟩
  rw [Finset.mem_sdiff, hs.mem_unknown, h, mem_names]
  simp only [Multiset.mem_add, Multiset.mem_coe]
  constructor
  · rintro ⟨⟨y, hy | hy, rfl⟩, hnot⟩
    · exact absurd ⟨y, hy, rfl⟩ hnot
    · exact ⟨y, hy, rfl⟩
  · rintro ⟨y, hy, rfl⟩
    refine ⟨⟨y, .inr hy, rfl⟩, ?_⟩
    have := hdisj y hy
    rwa [mem_names] at this

theorem Member.release (hs : s.Member) (h : s.waiting = (↑out : Multiset (Item K)) + stay) :
    (s.release out stay).Member where
  nodup := by
    change ((s.line ++ out).map Item.name).Nodup
    rw [List.map_append, List.nodup_append']
    refine ⟨hs.nodup, (hs.split h).1, ?_⟩
    intro k hk hk'
    apply Finset.disjoint_left.1 hs.ready_unknown (hs.mem_ready.2 (List.mem_map.1 hk))
    exact hs.names_subset h (mem_names.2 (List.mem_map.1 hk'))
  ready_eq := by
    change s.ready ∪ names out = names (s.line ++ out)
    rw [hs.ready_eq, names_append]
  waiting_nodup := (hs.split h).2.1
  mem_unknown := (hs.split h).2.2
  ready_draining := Finset.disjoint_union_left.2 ⟨hs.ready_draining,
    (hs.draining_unknown.mono_right (hs.names_subset h)).symm⟩
  ready_unknown := Finset.disjoint_union_left.2 ⟨hs.ready_unknown.mono_right Finset.sdiff_subset,
    Finset.disjoint_sdiff⟩
  ready_bad := Finset.disjoint_union_left.2 ⟨hs.ready_bad,
    hs.unknown_bad.mono_left (hs.names_subset h)⟩
  draining_unknown := hs.draining_unknown.mono_right Finset.sdiff_subset
  draining_bad := hs.draining_bad
  unknown_bad := hs.unknown_bad.mono_left Finset.sdiff_subset

theorem Member.collect (hs : s.Member) (h : s.waiting = (↑out : Multiset (Item K)) + stay) :
    (s.collect out stay).Member where
  nodup := hs.nodup
  ready_eq := hs.ready_eq
  waiting_nodup := (hs.split h).2.1
  mem_unknown := (hs.split h).2.2
  ready_draining := hs.ready_draining
  ready_unknown := hs.ready_unknown.mono_right Finset.sdiff_subset
  ready_bad := Finset.disjoint_union_right.2 ⟨hs.ready_bad,
    hs.ready_unknown.mono_right (hs.names_subset h)⟩
  draining_unknown := hs.draining_unknown.mono_right Finset.sdiff_subset
  draining_bad := Finset.disjoint_union_right.2 ⟨hs.draining_bad,
    hs.draining_unknown.mono_right (hs.names_subset h)⟩
  unknown_bad := Finset.disjoint_union_right.2 ⟨hs.unknown_bad.mono_left Finset.sdiff_subset,
    Finset.sdiff_disjoint⟩

end

theorem Member.condemn (hs : s.Member) (h : ∀ k ∈ ks, s.New k) : (s.condemn ks).Member :=
  { hs with
    ready_bad := Finset.disjoint_union_right.2 ⟨hs.ready_bad,
      Finset.disjoint_right.2 fun k hk => (h k hk).ready⟩
    draining_bad := Finset.disjoint_union_right.2 ⟨hs.draining_bad,
      Finset.disjoint_right.2 fun k hk => (h k hk).draining⟩
    unknown_bad := Finset.disjoint_union_right.2 ⟨hs.unknown_bad,
      Finset.disjoint_right.2 fun k hk => (h k hk).unknown⟩ }

theorem Member.drop (hs : s.Member) (hk : ∀ k ∈ ks, ∃ x ∈ s.line, x.name = k) :
    (s.drop ks).Member := by
  have hsub : ks ⊆ s.ready := fun k h => hs.mem_ready.2 (hk k h)
  constructor
  · exact hs.nodup.sublist (List.filter_sublist.map _)
  · change s.ready \ ks = names (s.line.filter (·.name ∉ ks))
    ext k
    rw [Finset.mem_sdiff, hs.mem_ready]
    simp only [mem_names, List.mem_filter, decide_eq_true_eq]
    grind
  · exact hs.waiting_nodup
  · exact hs.mem_unknown
  · exact hs.ready_draining.mono_left Finset.sdiff_subset
  · exact hs.ready_unknown.mono_left Finset.sdiff_subset
  · exact Finset.disjoint_union_right.2 ⟨hs.ready_bad.mono_left Finset.sdiff_subset,
      Finset.sdiff_disjoint⟩
  · exact hs.draining_unknown
  · exact Finset.disjoint_union_right.2 ⟨hs.draining_bad, (hs.ready_draining.mono_left hsub).symm⟩
  · exact Finset.disjoint_union_right.2 ⟨hs.unknown_bad, (hs.ready_unknown.mono_left hsub).symm⟩

/-- One item of the line is bad. -/
theorem Member.drop_one (hs : s.Member) {pre suf : List (Item K)} (h : s.line = pre ++ x :: suf) :
    s.drop {x.name} =
      { s with line := pre ++ suf, ready := s.ready.erase x.name, bad := insert x.name s.bad } := by
  have hn : ((pre ++ ([x].map id ++ suf)).map Item.name).Nodup := by
    have := hs.nodup
    rw [h] at this
    simpa using this
  have hfilter := filter_part id (fun _ => true) hn
  have hline : s.line.filter (·.name ∉ ({x.name} : Finset K)) = pre ++ suf := by
    rw [h]
    simpa using hfilter
  rw [State.drop, hline, ← Finset.erase_eq, Finset.union_comm, ← Finset.insert_eq]

/-- What is bad is not in the line. -/
theorem Member.drop_of_bad (hs : s.Member) {k : K} (hk : k ∈ s.bad) : s.drop {k} = s := by
  have hready : k ∉ s.ready := fun h => Finset.disjoint_left.1 hs.ready_bad h hk
  have hline : s.line.filter (·.name ∉ ({k} : Finset K)) = s.line := by
    rw [List.filter_eq_self]
    intro y hy
    rw [decide_eq_true_eq, Finset.mem_singleton]
    rintro rfl
    exact hready (hs.mem_ready.2 ⟨y, hy, rfl⟩)
  rw [State.drop, hline, ← Finset.erase_eq, Finset.erase_eq_of_notMem hready, Finset.union_comm,
    ← Finset.insert_eq, Finset.insert_eq_of_mem hk]

theorem names_take_subset (l : List (Item K)) (n : ℕ) : names (l.take n) ⊆ names l := by
  intro k hk
  obtain ⟨y, hy, rfl⟩ := mem_names.1 hk
  exact mem_names.2 ⟨y, List.mem_of_mem_take hy, rfl⟩

theorem Member.handOut (hs : s.Member) (n : ℕ) : (s.handOut n).Member := by
  have hsub : names (s.line.take n) ⊆ s.ready := by
    rw [hs.ready_eq]
    exact names_take_subset _ _
  have hn := hs.nodup
  rw [← List.take_append_drop n s.line, List.map_append, List.nodup_append'] at hn
  constructor
  · exact hn.2.1
  · change s.ready \ names (s.line.take n) = names (s.line.drop n)
    have hsplit : names s.line = names (s.line.take n) ∪ names (s.line.drop n) := by
      rw [← names_append, List.take_append_drop]
    have hdisj : Disjoint (names (s.line.drop n)) (names (s.line.take n)) := by
      rw [Finset.disjoint_left]
      intro k hk hk'
      exact hn.2.2 (List.mem_map.2 (mem_names.1 hk')) (List.mem_map.2 (mem_names.1 hk))
    rw [hs.ready_eq, hsplit, Finset.union_sdiff_left, Finset.sdiff_eq_self_of_disjoint hdisj]
  · exact hs.waiting_nodup
  · exact hs.mem_unknown
  · exact Finset.sdiff_disjoint
  · exact hs.ready_unknown.mono_left Finset.sdiff_subset
  · exact hs.ready_bad.mono_left Finset.sdiff_subset
  · exact hs.ready_unknown.mono_left hsub
  · exact hs.ready_bad.mono_left hsub
  · exact hs.unknown_bad

theorem Member.done (hs : s.Member) (hk : ks ⊆ s.draining) : (s.done ks).Member :=
  { hs with
    ready_draining := Finset.disjoint_empty_right _
    ready_bad := Finset.disjoint_union_right.2 ⟨hs.ready_bad, hs.ready_draining.mono_right hk⟩
    draining_unknown := Finset.disjoint_empty_left _
    draining_bad := Finset.disjoint_empty_left _
    unknown_bad := Finset.disjoint_union_right.2 ⟨hs.unknown_bad,
      (hs.draining_unknown.mono_left hk).symm⟩ }

theorem Member.spoil (hs : s.Member) (h : Spoil s s') : s'.Member := by
  cases h with
  | drop ks hmem hbad => exact hs.drop hmem
  | collect keys hkeys h => exact hs.collect h.eq

/-- An invariant of single steps in which bad names spread is one of all of them. -/
theorem Spoiled.invariant {P : State K → Prop} (hstep : ∀ s s', P s → Spoil s s' → P s')
    (h : Spoiled s s') (hs : P s) : P s' := by
  induction h with
  | refl => exact hs
  | tail _ hlast ih => exact hstep _ _ ih hlast

theorem Member.spoiled (hs : s.Member) (h : Spoiled s s') : s'.Member :=
  h.invariant (fun _ _ => Member.spoil) hs

/-! ## What waits -/

section

variable {keys : List K} {out : List (Item K)} {stay : Multiset (Item K)}

/-- What waits, waits for a name that has not come, if not for one of these. -/
def SettledBut (keys : List K) (s : State K) : Prop :=
  ∀ x ∈ s.waiting, x.after ∉ keys →
    x.after ∉ s.ready ∧ x.after ∉ s.draining ∧ x.after ∉ s.bad

abbrev Settled (s : State K) : Prop := s.SettledBut []

omit [DecidableEq K] in
theorem Settled.but (hs : s.Settled) (keys : List K) : s.SettledBut keys :=
  fun x hx _ => hs x hx (List.not_mem_nil)

theorem Settled.arrive (hs : s.Settled) (x : Item K) : (s.arrive x).SettledBut [x.name] := by
  intro y hy hne
  obtain ⟨h1, h2, h3⟩ := hs y hy List.not_mem_nil
  refine ⟨?_, h2, h3⟩
  change y.after ∉ insert x.name s.ready
  rw [Finset.mem_insert, not_or]
  exact ⟨fun h => hne (List.mem_singleton.2 h), h1⟩

theorem Settled.wait (hs : s.Settled) (h1 : x.after ∉ s.ready) (h2 : x.after ∉ s.draining)
    (h3 : x.after ∉ s.bad) : (s.wait x).Settled := by
  intro y hy _
  rcases Multiset.mem_cons.1 hy with rfl | hy
  · exact ⟨h1, h2, h3⟩
  · exact hs y hy List.not_mem_nil

theorem Settled.condemn (hs : s.Settled) (k : K) : (s.condemn {k}).SettledBut [k] := by
  intro y hy hne
  obtain ⟨h1, h2, h3⟩ := hs y hy List.not_mem_nil
  refine ⟨h1, h2, ?_⟩
  change y.after ∉ s.bad ∪ {k}
  rw [Finset.mem_union, Finset.mem_singleton, not_or]
  exact ⟨h3, fun h => hne (List.mem_singleton.2 h)⟩

omit [DecidableEq K] in
theorem mem_waiting_of_mem_stay (h : Released keys s.waiting out stay) {y : Item K}
    (hy : y ∈ stay) : y ∈ s.waiting := by
  rw [h.eq]
  exact Multiset.mem_add.2 (.inr hy)

theorem after_notMem_names (h : Released keys s.waiting out stay) {y : Item K}
    (hy : y ∈ stay) : y.after ∉ names out := by
  intro hmem
  obtain ⟨z, hz, heq⟩ := mem_names.1 hmem
  exact h.after_ne y hy z hz heq.symm

theorem SettledBut.release (hs : s.SettledBut keys) (h : Released keys s.waiting out stay) :
    (s.release out stay).Settled := by
  intro y hy _
  obtain ⟨h1, h2, h3⟩ := hs y (mem_waiting_of_mem_stay h hy) (h.after_notMem y hy)
  refine ⟨?_, h2, h3⟩
  change y.after ∉ s.ready ∪ names out
  rw [Finset.mem_union, not_or]
  exact ⟨h1, after_notMem_names h hy⟩

theorem SettledBut.collect (hs : s.SettledBut keys) (h : Released keys s.waiting out stay) :
    (s.collect out stay).Settled := by
  intro y hy _
  obtain ⟨h1, h2, h3⟩ := hs y (mem_waiting_of_mem_stay h hy) (h.after_notMem y hy)
  refine ⟨h1, h2, ?_⟩
  change y.after ∉ s.bad ∪ names out
  rw [Finset.mem_union, not_or]
  exact ⟨h3, after_notMem_names h hy⟩

theorem Settled.drop (hs : s.Settled) (hks : ks ⊆ s.ready) : (s.drop ks).Settled := by
  intro y hy _
  obtain ⟨h1, h2, h3⟩ := hs y hy List.not_mem_nil
  refine ⟨fun h => h1 (Finset.mem_sdiff.1 h).1, h2, ?_⟩
  change y.after ∉ s.bad ∪ ks
  rw [Finset.mem_union, not_or]
  exact ⟨h3, fun h => h1 (hks h)⟩

theorem Settled.handOut (hs : s.Settled) (hm : s.Member) (n : ℕ) : (s.handOut n).Settled := by
  intro y hy _
  obtain ⟨h1, _, h3⟩ := hs y hy List.not_mem_nil
  refine ⟨fun h => h1 (Finset.mem_sdiff.1 h).1, ?_, h3⟩
  intro h
  apply h1
  rw [hm.ready_eq]
  exact names_take_subset _ _ h

theorem Settled.done (hs : s.Settled) (hks : ks ⊆ s.draining) : (s.done ks).Settled := by
  intro y hy _
  obtain ⟨h1, h2, h3⟩ := hs y hy List.not_mem_nil
  refine ⟨h1, Finset.notMem_empty _, ?_⟩
  change y.after ∉ s.bad ∪ ks
  rw [Finset.mem_union, not_or]
  exact ⟨h3, fun h => h2 (hks h)⟩

theorem Settled.spoil (hs : s.Settled) (hm : s.Member) (h : Spoil s s') : s'.Settled := by
  cases h with
  | drop ks hmem _ => exact hs.drop fun k hk => hm.mem_ready.2 (hmem k hk)
  | collect keys _ h => exact (hs.but keys).collect h

theorem Settled.spoiled (hs : s.Settled) (hm : s.Member) (h : Spoiled s s') : s'.Settled :=
  (h.invariant (P := fun s => s.Member ∧ s.Settled)
    (fun _ _ hP h => ⟨hP.1.spoil h, hP.2.spoil hP.1 h⟩) ⟨hm, hs⟩).2

/-! ## Why names are bad -/

/-- Items are children of those they follow, and every bad name descends from one that was reported. -/
structure Traced (child : K → K → Prop) (reported : Finset K) (s : State K) : Prop where
  line : ∀ x ∈ s.line, child x.after x.name
  waiting : ∀ x ∈ s.waiting, child x.after x.name
  bad : ∀ k ∈ s.bad, ∃ r ∈ reported, Relation.ReflTransGen child r k

variable {child : K → K → Prop} {reported : Finset K}

omit [DecidableEq K] in
theorem Traced.mono (hs : s.Traced child reported) {reported' : Finset K}
    (h : reported ⊆ reported') : s.Traced child reported' where
  line := hs.line
  waiting := hs.waiting
  bad k hk := by
    obtain ⟨r, hr, hd⟩ := hs.bad k hk
    exact ⟨r, h hr, hd⟩

omit [DecidableEq K] in
/-- Fewer items and no other bad names. -/
theorem Traced.anti (hs : s.Traced child reported) (hl : s'.line ⊆ s.line)
    (hw : s'.waiting ⊆ s.waiting) (hb : s'.bad ⊆ s.bad) : s'.Traced child reported where
  line x hx := hs.line x (hl hx)
  waiting x hx := hs.waiting x (hw hx)
  bad k hk := hs.bad k (hb hk)

theorem Traced.arrive (hs : s.Traced child reported) (hx : child x.after x.name) :
    (s.arrive x).Traced child reported where
  line y hy := by
    rcases List.mem_append.1 hy with hy | hy
    · exact hs.line y hy
    · rw [List.mem_singleton.1 hy]
      exact hx
  waiting := hs.waiting
  bad := hs.bad

theorem Traced.wait (hs : s.Traced child reported) (hx : child x.after x.name) :
    (s.wait x).Traced child reported where
  line := hs.line
  waiting y hy := by
    rcases Multiset.mem_cons.1 hy with rfl | hy
    · exact hx
    · exact hs.waiting y hy
  bad := hs.bad

theorem Traced.release (hs : s.Traced child reported)
    (h : s.waiting = (↑out : Multiset (Item K)) + stay) :
    (s.release out stay).Traced child reported where
  line y hy := by
    rcases List.mem_append.1 hy with hy | hy
    · exact hs.line y hy
    · apply hs.waiting
      rw [h]
      exact Multiset.mem_add.2 (.inl (Multiset.mem_coe.2 hy))
  waiting y hy := by
    apply hs.waiting
    rw [h]
    exact Multiset.mem_add.2 (.inr hy)
  bad := hs.bad

/-- Names become bad that descend from reported ones. -/
theorem Traced.condemn (hs : s.Traced child reported)
    (h : ∀ k ∈ ks, ∃ r ∈ reported, Relation.ReflTransGen child r k) :
    (s.condemn ks).Traced child reported where
  line := hs.line
  waiting := hs.waiting
  bad k hk := by
    rcases Finset.mem_union.1 hk with hk | hk
    · exact hs.bad k hk
    · exact h k hk

omit [DecidableEq K] in
theorem Traced.child_of_bad (hs : s.Traced child reported) {p k : K} (hp : p ∈ s.bad)
    (hc : child p k) : ∃ r ∈ reported, Relation.ReflTransGen child r k := by
  obtain ⟨r, hr, hd⟩ := hs.bad p hp
  exact ⟨r, hr, hd.tail hc⟩

theorem Traced.spoil (hs : s.Traced child reported) (h : Spoil s s') :
    s'.Traced child reported := by
  cases h with
  | drop ks hmem hbad =>
    refine (hs.condemn fun k hk => ?_).anti List.filter_sublist.subset (fun _ h => h) (fun _ h => h)
    obtain ⟨x, hx, rfl⟩ := hmem k hk
    rcases hbad x hx hk with hb | hb
    · exact hs.child_of_bad hb (hs.line x hx)
    · exact hs.bad _ hb
  | @collect keys out stay hkeys h =>
    have hout : ∀ x ∈ out, x ∈ s.waiting := by
      intro x hx
      rw [h.eq]
      exact Multiset.mem_add.2 (.inl (Multiset.mem_coe.2 hx))
    -- each released item descends from one of the keys, which are bad
    have hall := h.sourced.forall (P := fun k => ∃ r ∈ reported, Relation.ReflTransGen child r k)
      (fun k hk => hs.bad k (hkeys k hk)) fun x hx ⟨r, hr, hd⟩ =>
        ⟨r, hr, hd.tail (hs.waiting x (hout x hx))⟩
    refine (hs.condemn fun k hk => ?_).anti (fun _ h => h)
      (fun y hy => mem_waiting_of_mem_stay h hy) (fun _ h => h)
    obtain ⟨x, hx, rfl⟩ := mem_names.1 hk
    exact hall x hx

theorem Traced.spoiled (hs : s.Traced child reported) (h : Spoiled s s') :
    s'.Traced child reported :=
  h.invariant (fun _ _ hs h => hs.spoil h) hs

/-! ## One of each name -/

/-- No two items have one name; the sets know the names of those in the line, and of those that
wait. -/
structure Apart (s : State K) : Prop where
  nodup : (s.line.map Item.name).Nodup
  waiting_nodup : (s.waiting.map Item.name).Nodup
  line_waiting : ∀ x ∈ s.line, ∀ y ∈ s.waiting, x.name ≠ y.name
  line_known : ∀ x ∈ s.line, x.name ∈ s.ready ∨ x.name ∈ s.bad
  waiting_unknown : ∀ y ∈ s.waiting, y.name ∈ s.unknown

omit [DecidableEq K] in
theorem apart_empty (bad : Finset K) : Apart (⟨[], 0, ∅, ∅, ∅, bad⟩ : State K) where
  nodup := List.nodup_nil
  waiting_nodup := Multiset.nodup_zero
  line_waiting _ hx := absurd hx List.not_mem_nil
  line_known _ hx := absurd hx List.not_mem_nil
  waiting_unknown y hy := absurd hy (Multiset.notMem_zero y)

theorem Apart.arrive (hs : s.Apart) (hx : s.New x.name) : (s.arrive x).Apart where
  nodup := by
    change ((s.line ++ [x]).map Item.name).Nodup
    rw [List.map_append, List.nodup_append']
    refine ⟨hs.nodup, List.nodup_singleton _, ?_⟩
    intro k hk hk'
    obtain ⟨y, hy, rfl⟩ := List.mem_map.1 hk
    rw [List.map_cons, List.map_nil, List.mem_singleton] at hk'
    rcases hs.line_known y hy with h | h
    · exact hx.ready (hk' ▸ h)
    · exact hx.bad (hk' ▸ h)
  waiting_nodup := hs.waiting_nodup
  line_waiting y hy z hz := by
    rcases List.mem_append.1 hy with hy | hy
    · exact hs.line_waiting y hy z hz
    · rw [List.mem_singleton.1 hy]
      intro heq
      apply hx.unknown
      rw [heq]
      exact hs.waiting_unknown z hz
  line_known y hy := by
    rcases List.mem_append.1 hy with hy | hy
    · exact (hs.line_known y hy).imp_left Finset.mem_insert_of_mem
    · rw [List.mem_singleton.1 hy]
      exact .inl (Finset.mem_insert_self _ _)
  waiting_unknown := hs.waiting_unknown

theorem Apart.wait (hs : s.Apart) (hx : s.New x.name) : (s.wait x).Apart where
  nodup := hs.nodup
  waiting_nodup := by
    change ((x ::ₘ s.waiting).map Item.name).Nodup
    rw [Multiset.map_cons, Multiset.nodup_cons]
    refine ⟨?_, hs.waiting_nodup⟩
    intro hk
    obtain ⟨z, hz, heq⟩ := Multiset.mem_map.1 hk
    apply hx.unknown
    rw [← heq]
    exact hs.waiting_unknown z hz
  line_waiting y hy z hz := by
    rcases Multiset.mem_cons.1 hz with rfl | hz
    · intro heq
      rcases hs.line_known y hy with h | h
      · exact hx.ready (heq ▸ h)
      · exact hx.bad (heq ▸ h)
    · exact hs.line_waiting y hy z hz
  line_known := hs.line_known
  waiting_unknown y hy := by
    rcases Multiset.mem_cons.1 hy with rfl | hy
    · exact Finset.mem_insert_self _ _
    · exact Finset.mem_insert_of_mem (hs.waiting_unknown y hy)

theorem Apart.release (hs : s.Apart) (h : s.waiting = (↑out : Multiset (Item K)) + stay) :
    (s.release out stay).Apart := by
  obtain ⟨hn, hns, hdisj⟩ := names_split hs.waiting_nodup h
  have hout : ∀ x ∈ out, x ∈ s.waiting := by
    intro x hx
    rw [h]
    exact Multiset.mem_add.2 (.inl (Multiset.mem_coe.2 hx))
  have hstay : ∀ y ∈ stay, y ∈ s.waiting := by
    intro y hy
    rw [h]
    exact Multiset.mem_add.2 (.inr hy)
  constructor
  · change ((s.line ++ out).map Item.name).Nodup
    rw [List.map_append, List.nodup_append']
    refine ⟨hs.nodup, hn, ?_⟩
    intro k hk hk'
    obtain ⟨x, hx, rfl⟩ := List.mem_map.1 hk
    obtain ⟨y, hy, heq⟩ := List.mem_map.1 hk'
    exact hs.line_waiting x hx y (hout y hy) heq.symm
  · exact hns
  · intro x hx y hy heq
    rcases List.mem_append.1 hx with hx | hx
    · exact hs.line_waiting x hx y (hstay y hy) heq
    · exact hdisj y hy (mem_names.2 ⟨x, hx, heq⟩)
  · intro x hx
    rcases List.mem_append.1 hx with hx | hx
    · exact (hs.line_known x hx).imp_left fun h => Finset.mem_union_left _ h
    · exact .inl (Finset.mem_union_right _ (mem_names.2 ⟨x, hx, rfl⟩))
  · intro y hy
    exact Finset.mem_sdiff.2 ⟨hs.waiting_unknown y (hstay y hy), hdisj y hy⟩

theorem Apart.handOut (hs : s.Apart) (n : ℕ) : (s.handOut n).Apart where
  nodup := hs.nodup.sublist ((List.drop_sublist _ _).map _)
  waiting_nodup := hs.waiting_nodup
  line_waiting x hx := hs.line_waiting x (List.mem_of_mem_drop hx)
  line_known x hx := by
    refine (hs.line_known x (List.mem_of_mem_drop hx)).imp_left fun h => Finset.mem_sdiff.2 ⟨h, ?_⟩
    intro hk
    obtain ⟨y, hy, heq⟩ := mem_names.1 hk
    have hn := hs.nodup
    rw [← List.take_append_drop n s.line, List.map_append, List.nodup_append'] at hn
    exact hn.2.2 (List.mem_map_of_mem hy) (heq ▸ List.mem_map_of_mem hx)
  waiting_unknown := hs.waiting_unknown

/-! ## Weights -/

section

variable (f : K → ℕ)

/-- The weight of the items that are out. -/
def drainingWeight (s : State K) : ℕ := ∑ k ∈ s.draining, f k

/-- The weight of all the items: in the line, waiting, and out. -/
def weight (s : State K) : ℕ :=
  (s.line.map fun x => f x.name).sum + (s.waiting.map fun x => f x.name).sum + s.drainingWeight f

omit [DecidableEq K] in
theorem drainingWeight_le (s : State K) : s.drainingWeight f ≤ s.weight f := Nat.le_add_left _ _

theorem weight_arrive (s : State K) (x : Item K) : (s.arrive x).weight f = s.weight f + f x.name := by
  simp only [weight, State.arrive, drainingWeight, List.map_append, List.map_cons, List.map_nil,
    List.sum_append, List.sum_cons, List.sum_nil]
  omega

theorem weight_wait (s : State K) (x : Item K) : (s.wait x).weight f = s.weight f + f x.name := by
  simp only [weight, State.wait, drainingWeight, Multiset.map_cons, Multiset.sum_cons]
  omega

theorem weight_release (h : s.waiting = (↑out : Multiset (Item K)) + stay) :
    (s.release out stay).weight f = s.weight f := by
  simp only [weight, State.release, drainingWeight, h, List.map_append, List.sum_append,
    Multiset.map_add, Multiset.sum_add, Multiset.map_coe, Multiset.sum_coe]
  omega

/-- What is handed out is out. -/
theorem Member.drainingWeight_handOut (hs : s.Member) (n : ℕ) :
    (s.handOut n).drainingWeight f = ((s.line.take n).map fun x => f x.name).sum := by
  have hn : ((s.line.take n).map Item.name).Nodup :=
    hs.nodup.sublist ((List.take_sublist _ _).map _)
  change ∑ k ∈ ((s.line.take n).map Item.name).toFinset, f k = _
  rw [List.sum_toFinset f hn, List.map_map]
  rfl

theorem Member.weight_handOut (hs : s.Member) (hd : s.draining = ∅) (n : ℕ) :
    (s.handOut n).weight f = s.weight f := by
  have hout := hs.drainingWeight_handOut f n
  have hline : (s.line.map fun x => f x.name).sum =
      ((s.line.take n).map fun x => f x.name).sum + ((s.line.drop n).map fun x => f x.name).sum := by
    rw [← List.sum_append, ← List.map_append, List.take_append_drop]
  have hzero : s.drainingWeight f = 0 := by
    unfold drainingWeight
    rw [hd, Finset.sum_empty]
  unfold weight
  rw [hout, hline, hzero]
  change ((s.line.drop n).map fun x => f x.name).sum + (s.waiting.map fun x => f x.name).sum + _ = _
  omega

theorem weight_done (s : State K) (ks : Finset K) :
    (s.done ks).weight f + s.drainingWeight f = s.weight f := by
  simp only [weight, State.done, drainingWeight, Finset.sum_empty]
  omega

end

/-! ## The order of the line -/

/-- Items may have left the line and the waiting ones, and the set of these has followed. -/
structure Thinner (s s' : State K) : Prop where
  line : s'.line.Sublist s.line
  waiting : ∃ out : List (Item K), s.waiting = (↑out : Multiset (Item K)) + s'.waiting ∧
    s'.unknown = s.unknown \ names out

theorem Thinner.of_line (hl : s'.line.Sublist s.line) (hw : s'.waiting = s.waiting)
    (hu : s'.unknown = s.unknown) : s.Thinner s' := by
  refine ⟨hl, [], ?_, ?_⟩
  · rw [hw, Multiset.coe_nil, zero_add]
  · rw [hu]
    simp [names]

theorem Thinner.refl (s : State K) : s.Thinner s := .of_line (.refl _) rfl rfl

theorem Thinner.trans {s'' : State K} (h : s.Thinner s') (h' : s'.Thinner s'') : s.Thinner s'' := by
  obtain ⟨out, hw, hu⟩ := h.waiting
  obtain ⟨out', hw', hu'⟩ := h'.waiting
  refine ⟨h'.line.trans h.line, out ++ out', ?_, ?_⟩
  · calc s.waiting = (out : Multiset (Item K)) + s'.waiting := hw
      _ = out + (out' + s''.waiting) := congrArg _ hw'
      _ = ↑(out ++ out') + s''.waiting := by rw [← add_assoc, Multiset.coe_add]
  · rw [hu', hu, names_append, sdiff_sdiff_left, Finset.sup_eq_union]

theorem Apart.thinner (hs : s.Apart) (h : s.Thinner s')
    (hk : ∀ k, k ∈ s.ready ∨ k ∈ s.bad → k ∈ s'.ready ∨ k ∈ s'.bad) : s'.Apart := by
  obtain ⟨out, hw, hu⟩ := h.waiting
  obtain ⟨-, hns, hdisj⟩ := names_split hs.waiting_nodup hw
  have hstay : ∀ y ∈ s'.waiting, y ∈ s.waiting := by
    intro y hy
    rw [hw]
    exact Multiset.mem_add.2 (.inr hy)
  constructor
  · exact hs.nodup.sublist (h.line.map _)
  · exact hns
  · intro x hx y hy
    exact hs.line_waiting x (h.line.subset hx) y (hstay y hy)
  · intro x hx
    exact hk _ (hs.line_known x (h.line.subset hx))
  · intro y hy
    rw [hu]
    exact Finset.mem_sdiff.2 ⟨hs.waiting_unknown y (hstay y hy), hdisj y hy⟩

/-- No item of the line stands before the one it follows, and that one does not wait; the set of the
waiting items has them all. -/
structure Ordered (s : State K) : Prop where
  pairwise : s.line.Pairwise fun x y => x.after ≠ y.name
  after_waiting : ∀ x ∈ s.line, ∀ y ∈ s.waiting, x.after ≠ y.name
  waiting_nodup : (s.waiting.map Item.name).Nodup
  waiting_unknown : ∀ y ∈ s.waiting, y.name ∈ s.unknown

/-- Of the items that waited, those that go have other names than those that stay. -/
theorem Ordered.split (hs : s.Ordered) (h : s.waiting = (↑out : Multiset (Item K)) + stay) :
    (out.map Item.name).Nodup ∧ (stay.map Item.name).Nodup ∧
      ∀ y ∈ stay, y.name ∈ s.unknown \ names out := by
  obtain ⟨hn, hns, hdisj⟩ := names_split hs.waiting_nodup h
  refine ⟨hn, hns, fun y hy => Finset.mem_sdiff.2 ⟨?_, hdisj y hy⟩⟩
  apply hs.waiting_unknown
  rw [h]
  exact Multiset.mem_add.2 (.inr hy)

theorem Ordered.thinner (hs : s.Ordered) (h : s.Thinner s') : s'.Ordered := by
  obtain ⟨out, hw, hu⟩ := h.waiting
  obtain ⟨-, hn, hmem⟩ := hs.split hw
  constructor
  · exact hs.pairwise.sublist h.line
  · intro x hx y hy
    apply hs.after_waiting x (h.line.subset hx) y
    rw [hw]
    exact Multiset.mem_add.2 (.inr hy)
  · exact hn
  · rw [hu]
    exact hmem

theorem Ordered.arrive (hs : s.Ordered) (hx : ∀ y ∈ s.line, y.after ≠ x.name)
    (hu : x.after ∉ s.unknown) : (s.arrive x).Ordered where
  pairwise := by
    change (s.line ++ [x]).Pairwise _
    rw [List.pairwise_append]
    refine ⟨hs.pairwise, List.pairwise_singleton _ _, ?_⟩
    intro y hy z hz
    rw [List.mem_singleton.1 hz]
    exact hx y hy
  after_waiting y hy z hz := by
    rcases List.mem_append.1 hy with hy | hy
    · exact hs.after_waiting y hy z hz
    · rw [List.mem_singleton.1 hy]
      intro heq
      apply hu
      rw [heq]
      exact hs.waiting_unknown z hz
  waiting_nodup := hs.waiting_nodup
  waiting_unknown := hs.waiting_unknown

theorem Ordered.wait (hs : s.Ordered) (hx : ∀ y ∈ s.line, y.after ≠ x.name)
    (hu : x.name ∉ s.unknown) : (s.wait x).Ordered where
  pairwise := hs.pairwise
  after_waiting y hy z hz := by
    rcases Multiset.mem_cons.1 hz with rfl | hz
    · exact hx y hy
    · exact hs.after_waiting y hy z hz
  waiting_nodup := by
    change ((x ::ₘ s.waiting).map Item.name).Nodup
    rw [Multiset.map_cons, Multiset.nodup_cons]
    refine ⟨?_, hs.waiting_nodup⟩
    intro hk
    obtain ⟨z, hz, heq⟩ := Multiset.mem_map.1 hk
    apply hu
    rw [← heq]
    exact hs.waiting_unknown z hz
  waiting_unknown y hy := by
    rcases Multiset.mem_cons.1 hy with rfl | hy
    · exact Finset.mem_insert_self _ _
    · exact Finset.mem_insert_of_mem (hs.waiting_unknown y hy)

omit [DecidableEq K] in
theorem sourced_after {l : List (Item K)} (h : Waiting.Sourced Item.after Item.name keys l) :
    ∀ x ∈ l, x.after ∈ keys ∨ ∃ y ∈ l, x.after = y.name := by
  induction l generalizing keys with
  | nil => simp
  | cons z l ih =>
    intro x hx
    rcases List.mem_cons.1 hx with rfl | hx
    · exact .inl h.1
    · rcases ih h.2 x hx with hk | ⟨y, hy, heq⟩
      · rcases List.mem_cons.1 hk with heq | hk
        · exact .inr ⟨z, List.mem_cons_self, heq⟩
        · exact .inl hk
      · exact .inr ⟨y, List.mem_cons_of_mem _ hy, heq⟩

/-- Released items come each after the one it waited for. -/
theorem Ordered.release (hs : s.Ordered) (h : Released keys s.waiting out stay)
    (hkeys : ∀ k ∈ keys, k ∉ s.unknown) : (s.release out stay).Ordered := by
  have hout : ∀ x ∈ out, x ∈ s.waiting := by
    intro x hx
    rw [h.eq]
    exact Multiset.mem_add.2 (.inl (Multiset.mem_coe.2 hx))
  have hstay : ∀ y ∈ stay, y ∈ s.waiting := fun y hy => mem_waiting_of_mem_stay h hy
  obtain ⟨hn, hns, hmem⟩ := hs.split h.eq
  constructor
  · change (s.line ++ out).Pairwise _
    rw [List.pairwise_append]
    refine ⟨hs.pairwise, ?_, ?_⟩
    · apply h.sourced.pairwise hn
      intro x hx hk
      exact hkeys _ hk (hs.waiting_unknown x (hout x hx))
    · intro y hy z hz
      exact hs.after_waiting y hy z (hout z hz)
  · intro x hx y hy heq
    rcases List.mem_append.1 hx with hx | hx
    · exact hs.after_waiting x hx y (hstay y hy) heq
    · rcases sourced_after h.sourced x hx with hk | ⟨z, hz, hxz⟩
      · apply hkeys _ hk
        rw [heq]
        exact hs.waiting_unknown y (hstay y hy)
      · apply (Finset.mem_sdiff.1 (hmem y hy)).2
        exact mem_names.2 ⟨z, hz, by rw [← hxz, heq]⟩
  · exact hns
  · exact hmem

end

end State

end Intake
