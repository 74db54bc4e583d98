import Petrachor.TrieDB.Check

/-!
# Tries that share a database

Several tries may be kept in one database, and nodes that they have in common are there only once. The operations on
them may come in any order: each trie has its own entries, and a node goes only with the last reference to it.
-/

namespace Petrachor

open RLPStream Tally

namespace GenericTrieDB

/-- Tries with one database. -/
structure Forest (δ : Type) where
  roots : List H256
  db : δ

/-- A new trie, or an operation on one of those that there are. -/
inductive Change
  | init
  | op (i : ℕ) (o : Op)

namespace Change

variable (c : Crypto)

def Valid (K : Set Bytes) : Change → Prop
  | init => True
  | op _ o => o.Valid K

def step {δ : Type} [NodeDB δ] (s : Forest δ) : Change → Except Exception (Forest δ)
  | init =>
    let g := GenericTrieDB.init c s.db
    .ok ⟨s.roots ++ [g.m_root], g.m_db⟩
  | op i o =>
    match s.roots[i]? with
    | none => .ok s
    | some root => do
      let g ← o.step c ⟨root, s.db⟩
      return ⟨s.roots.set i g.m_root, g.m_db⟩

def run {δ : Type} [NodeDB δ] (s : Forest δ) (l : List Change) : Except Exception (Forest δ) := l.foldlM (step c) s

/-- What the change does to a list of states. -/
def after {α : Type} (empty : α) (change : α → Op → α) (s : List α) : Change → List α
  | init => s ++ [empty]
  | op i o => s.modify i fun a => change a o

/-- What the change does to a list of maps. -/
def maps : List (Bytes → Option Bytes) → Change → List (Bytes → Option Bytes) := after (fun _ => none) Op.entries

def tries : List Trie → Change → List Trie := after .empty Op.after

def acts (ts : List Trie) : Change → List (Act Bytes)
  | init => [.enter RLPNull]
  | op i o => (ts[i]?).elim [] fun t => o.acts c t

def allActs : List Trie → List Change → List (Act Bytes)
  | _, [] => []
  | ts, a :: l => acts c ts a ++ allActs (tries ts a) l

end Change

section

variable {c : Crypto} {K N : Set Bytes} {δ : Type} [NodeDB δ] [LawfulNodeDB δ] {s : Forest δ} {ts : List Trie}
  {ms : List (Bytes → Option Bytes)} {l : List (Act Bytes)} {a : Change}

/-- The nodes of all tries. -/
def forestNodes (c : Crypto) (ts : List Trie) : Multiset Bytes := (ts.map (all c)).sum

theorem forestNodes_append (c : Crypto) (ts us : List Trie) :
    forestNodes c (ts ++ us) = forestNodes c ts + forestNodes c us := by
  unfold forestNodes
  rw [List.map_append, List.sum_append]

theorem forestNodes_cons (c : Crypto) (t : Trie) (ts : List Trie) :
    forestNodes c (t :: ts) = all c t + forestNodes c ts := by
  unfold forestNodes
  rw [List.map_cons, List.sum_cons]

/-- The nodes of one trie, and those of the other ones. -/
theorem forestNodes_modify {t : Trie} (f : Trie → Trie) : ∀ {ts : List Trie} {i : ℕ}, ts[i]? = some t →
    ∃ F, forestNodes c ts = all c t + F ∧ forestNodes c (ts.modify i f) = all c (f t) + F
  | u :: ts, 0, h => by
    obtain rfl : u = t := Option.some.inj h
    exact ⟨forestNodes c ts, forestNodes_cons c u ts, forestNodes_cons c (f u) ts⟩
  | u :: ts, i + 1, h => by
    obtain ⟨F, hF, hF'⟩ := @forestNodes_modify t f ts i h
    refine ⟨all c u + F, ?_, ?_⟩
    · calc forestNodes c (u :: ts) = all c u + (all c t + F) := by rw [forestNodes_cons, hF]
        _ = all c t + (all c u + F) := add_left_comm _ _ _
    · calc forestNodes c ((u :: ts).modify (i + 1) f) = all c u + (all c (f t) + F) := by
            rw [List.modify_succ_cons, forestNodes_cons, hF']
        _ = all c (f t) + (all c u + F) := add_left_comm _ _ _

theorem map_modify {α β : Type} {h : α → β} {a : α} (f : α → α) : ∀ {l : List α} {i : ℕ}, l[i]? = some a →
    (l.modify i f).map h = (l.map h).set i (h (f a))
  | b :: l, 0, hi => by
    obtain rfl : b = a := Option.some.inj hi
    rfl
  | b :: l, i + 1, hi => congrArg (h b :: ·) (map_modify f (l := l) (i := i) hi)

theorem forall₂_modify {α β : Type} {R : α → β → Prop} {f : α → α} {g : β → β} (hR : ∀ a b, R a b → R (f a) (g b)) :
    ∀ {l : List α} {l' : List β} {i : ℕ}, List.Forall₂ R l l' → List.Forall₂ R (l.modify i f) (l'.modify i g)
  | [], _, i, h => by
    cases h
    rw [List.modify_nil, List.modify_nil]
    exact .nil
  | a :: l, _, 0, h => by
    cases h with
    | cons hab hrest => exact .cons (hR _ _ hab) hrest
  | a :: l, _, i + 1, h => by
    cases h with
    | cons hab hrest => exact .cons hab (forall₂_modify hR hrest)

theorem exists_of_forall₂ {α β : Type} {R : α → β → Prop} {a : α} : ∀ {l : List α} {l' : List β} {i : ℕ},
    List.Forall₂ R l l' → l[i]? = some a → ∃ b, R a b
  | b :: l, _, 0, .cons hab _, hi => by
    obtain rfl : b = a := Option.some.inj hi
    exact ⟨_, hab⟩
  | _ :: _, _, _ + 1, .cons _ hrest, hi => exists_of_forall₂ hrest hi

/-- The tries are in the database under their roots. -/
structure Planted (c : Crypto) (K N : Set Bytes) (s : Forest δ) (ts : List Trie) (ms : List (Bytes → Option Bytes))
    (l : List (Act Bytes)) : Prop where
  roots : s.roots = ts.map fun t => c.sha3 (encode c t)
  ready : Ready c N s.db (forestNodes c ts) l
  shows : List.Forall₂ (Shows K) ts ms

/-- Every change keeps the tries in the database. -/
theorem Planted.step (hK : KeySet K) (hs : Planted c K N s ts ms (a.acts c ts ++ l)) (ha : a.Valid K) :
    ∃ s', a.step c s = .ok s' ∧ Planted c K N s' (Change.tries ts a) (Change.maps ms a) l := by
  have hready := hs.ready
  cases a with
  | init =>
    refine ⟨_, rfl, ?_, ?_, ?_⟩
    · rw [hs.roots, Change.tries, Change.after, List.map_append]
      rfl
    · rw [Change.tries, Change.after, forestNodes_append, forestNodes_cons, all_empty, add_comm,
        show forestNodes c [] = 0 from rfl, add_zero, Multiset.singleton_add]
      exact hready.enter
    · exact List.rel_append hs.shows (.cons (Shows.empty K) .nil)
  | op i o =>
    rw [Change.step, Change.tries, Change.maps, Change.after, Change.after, hs.roots, List.getElem?_map]
    rw [Change.acts] at hready
    have hshows := forall₂_modify (i := i) (fun t m h => Shows.step hK h ha) hs.shows
    cases hi : ts[i]? with
    | none =>
      have hsame : ts.modify i (fun t => o.after t) = ts :=
        List.modify_eq_self (List.getElem?_eq_none_iff.1 hi)
      rw [hi] at hready
      refine ⟨s, rfl, ?_, ?_, hshows⟩
      · rw [hsame, hs.roots]
      · rw [hsame]
        exact hready
    | some t =>
      obtain ⟨F, hF, hF'⟩ := forestNodes_modify (c := c) (fun t => o.after t) hi
      obtain ⟨m, hm⟩ := exists_of_forall₂ hs.shows hi
      rw [hi, Option.elim_some, hF] at hready
      have hstored : Stored c N ⟨c.sha3 (encode c t), s.db⟩ t F (o.acts c t ++ l) := ⟨rfl, hready⟩
      obtain ⟨hstep, hafter⟩ := step_eq hK hm hstored ha
      refine ⟨⟨s.roots.set i (c.sha3 (encode c (o.after t))), play c s.db (o.acts c t)⟩, ?_, ?_, ?_, hshows⟩
      · rw [Option.map_some]
        dsimp only
        rw [hstep, hs.roots]
        rfl
      · rw [map_modify _ hi, hs.roots]
      · rw [hF']
        exact hafter.ready

theorem Planted.run (hK : KeySet K) (as : List Change) (hs : Planted c K N s ts ms (Change.allActs c ts as ++ l))
    (has : ∀ a ∈ as, a.Valid K) :
    ∃ s', Change.run c s as = .ok s' ∧ Planted c K N s' (as.foldl Change.tries ts) (as.foldl Change.maps ms) l := by
  induction as generalizing s ts ms with
  | nil => exact ⟨s, rfl, hs⟩
  | cons a as ih =>
    rw [Change.allActs, List.append_assoc] at hs
    obtain ⟨s', hstep, hs'⟩ := hs.step hK (has a List.mem_cons_self)
    obtain ⟨s'', hrun, hs''⟩ := ih hs' fun a ha => has a (List.mem_cons_of_mem _ ha)
    refine ⟨s'', ?_, hs''⟩
    rw [← hrun]
    unfold Change.run
    rw [List.foldlM_cons, hstep]
    rfl

theorem Planted.start {db : δ} {as : List Change} (hcoll : Set.InjOn c.sha3 {b | .enter b ∈ Change.allActs c [] as})
    (hkeeps : LawfulNodeDB.Keeps db 0 (Change.allActs c [] as).length) :
    Planted c K {b | .enter b ∈ Change.allActs c [] as} (⟨[], db⟩ : Forest δ) [] []
      (Change.allActs c [] as ++ []) := by
  rw [List.append_nil]
  exact ⟨rfl, ⟨hcoll, fun _ hb => absurd hb (Multiset.notMem_zero _), fun _ hb => hb, hkeeps⟩, .nil⟩

/-- In whatever order tries in one database are made and changed, each of them has its own entries. -/
theorem forest_refines {db : δ} (hK : KeySet K) (as : List Change) (has : ∀ a ∈ as, a.Valid K)
    (hcoll : Set.InjOn c.sha3 {b | .enter b ∈ Change.allActs c [] as})
    (hkeeps : LawfulNodeDB.Keeps db 0 (Change.allActs c [] as).length) :
    ∃ s, Change.run c ⟨[], db⟩ as = .ok s ∧ List.Forall₂ (fun root m => ∀ key : Bytes, key.length < 2 ^ 30 →
      (GenericTrieDB.mk root s.db).at key = .ok ((m key).getD [])) s.roots (as.foldl Change.maps []) := by
  obtain ⟨s, hrun, hs⟩ := (Planted.start hcoll hkeeps).run hK as has
  refine ⟨s, hrun, ?_⟩
  rw [hs.roots, List.forall₂_map_left_iff]
  refine ((List.forall₂_and_left _ _).2 ⟨fun t ht => ht, hs.shows⟩).imp fun t m ⟨ht, hshows⟩ key hkey => ?_
  refine at_eq hK hshows rfl (hs.ready.holds.mono ?_) hkey
  exact List.single_le_sum (fun _ _ => Multiset.zero_le _) _ (List.mem_map_of_mem ht)

/-- Two tries that come to have the same nodes; one of them has an entry more, and the other one only for a time. -/
def trialChanges : List Change :=
  [.init, .init, .op 0 (.insert [1, 2] (List.replicate 40 7)), .op 1 (.insert [1, 2] (List.replicate 40 7)),
    .op 1 (.insert [1, 3] (List.replicate 40 8)), .op 0 (.insert [1, 3] (List.replicate 40 8)),
    .op 1 (.insert [2, 5, 6] [9]), .op 0 (.insert [2, 5, 6] [9]), .op 1 (.remove [2, 5, 6])]

theorem valid_trialChanges : ∀ a ∈ trialChanges, a.Valid {k | k ∈ trialKeys} := by
  unfold trialChanges
  simp [Change.Valid, Op.Valid, trialKeys]

theorem injOn_trialChanges : Set.InjOn rolling.sha3 {b | .enter b ∈ Change.allActs rolling [] trialChanges} :=
  Act.injOn_iff.2 (by decide +kernel)

theorem keeps_trialChanges : LawfulNodeDB.Keeps MemoryDB.new 0 (Change.allActs rolling [] trialChanges).length :=
  MemoryDB.keeps_new (by decide +kernel)

theorem forest_refines_trial : ∃ s root root', Change.run rolling ⟨[], MemoryDB.new⟩ trialChanges = .ok s ∧
    s.roots = [root, root'] ∧
    (GenericTrieDB.mk root s.db).at [1, 2] = .ok (List.replicate 40 7) ∧
      (GenericTrieDB.mk root s.db).at [2, 5, 6] = .ok [9] ∧
    (GenericTrieDB.mk root' s.db).at [1, 3] = .ok (List.replicate 40 8) ∧
      (GenericTrieDB.mk root' s.db).at [2, 5, 6] = .ok [] := by
  obtain ⟨s, hrun, hall⟩ :=
    forest_refines keySet_trial trialChanges valid_trialChanges injOn_trialChanges keeps_trialChanges
  obtain ⟨root, roots, hat, hroots, hs⟩ := List.forall₂_cons_right_iff.1 hall
  obtain ⟨root', rest, hat', hrest, hs'⟩ := List.forall₂_cons_right_iff.1 hroots
  rw [hs', List.forall₂_nil_right_iff.1 hrest] at hs
  exact ⟨s, root, root', hrun, hs, hat [1, 2] (by decide), hat [2, 5, 6] (by decide), hat' [1, 3] (by decide),
    hat' [2, 5, 6] (by decide)⟩

/-- A hash is counted in memory as often as the tries refer to it. -/
theorem forest_refs {db : MemoryDB} (hK : KeySet K) (as : List Change) (has : ∀ a ∈ as, a.Valid K)
    (hcoll : Set.InjOn c.sha3 {b | .enter b ∈ Change.allActs c [] as})
    (hkeeps : LawfulNodeDB.Keeps db 0 (Change.allActs c [] as).length) :
    ∃ s, Change.run c ⟨[], db⟩ as = .ok s ∧
      ∀ h, s.db.refs h = references (hashed c (forestNodes c (as.foldl Change.tries []))) h := by
  obtain ⟨s, hrun, hs⟩ := (Planted.start hcoll hkeeps).run hK as has
  exact ⟨s, hrun, hs.ready.keeps.refs⟩

/-- The leaf that both tries end with is counted twice, the one that both begin with not any more. -/
theorem forest_refs_trial : ∃ s, Change.run rolling ⟨[], MemoryDB.new⟩ trialChanges = .ok s ∧
    s.db.refs (rolling.sha3 (encode rolling (.leaf [] (List.replicate 40 8)))) = 2 ∧
    s.db.refs (rolling.sha3 (encode rolling (.leaf (word [1, 2]) (List.replicate 40 7)))) = 0 := by
  obtain ⟨s, hrun, hrefs⟩ :=
    forest_refs keySet_trial trialChanges valid_trialChanges injOn_trialChanges keeps_trialChanges
  have hcounts : references (hashed rolling (forestNodes rolling (trialChanges.foldl Change.tries [])))
        (rolling.sha3 (encode rolling (.leaf [] (List.replicate 40 8)))) = 2 ∧
      references (hashed rolling (forestNodes rolling (trialChanges.foldl Change.tries [])))
        (rolling.sha3 (encode rolling (.leaf (word [1, 2]) (List.replicate 40 7)))) = 0 := by
    decide +kernel
  exact ⟨s, hrun, (hrefs _).trans hcounts.1, (hrefs _).trans hcounts.2⟩

end

end GenericTrieDB

end Petrachor
