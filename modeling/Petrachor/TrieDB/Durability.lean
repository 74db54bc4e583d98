import Petrachor.TrieDB.Run
import Petrachor.OverlayDB

/-!
# Tries that survive

A client changes a trie over the disk, commits, rolls back what went wrong and is started again after a crash. What was
committed under a root is found under it ever after, by this client and by whoever else reads the disk, and a rollback
or a new start loses exactly what came after the last commit.
-/

namespace Petrachor

open RLPStream Tally

namespace GenericTrieDB

/-! ## Clients -/

/-- What a client does: an operation on the trie, a commit with the outcomes of its writes, a rollback to the last
commit, or a new start over what is on the disk. -/
inductive Event
  | op (o : Op)
  | commit (writes : ℕ → Bool)
  | rollback
  | restart

/-- A new database over a disk. -/
def fresh (disk : Option Disk) : LevelOverlayDB := { m_main := ∅, m_aux := ∅, m_enforceRefs := false, m_db := disk }

/-- A trie, and the roots of the commits, the last one first. -/
structure Session where
  trie : GenericTrieDB LevelOverlayDB
  roots : List H256

namespace Session

variable (c : Crypto)

def start (disk : Disk) : Session := ⟨init c (fresh (some disk)), []⟩

/-- The trie under the root of the last commit; a new one if there is none. -/
def reopen (s : Session) (db : LevelOverlayDB) : Except Exception Session :=
  match s.roots with
  | [] => .ok { s with trie := init c db }
  | root :: _ => do return { s with trie := ← «open» c db root }

/-- A commit that fails ends the process, which is started again. -/
def step (s : Session) : Event → Except Exception Session
  | .op o => do return { s with trie := ← o.step c s.trie }
  | .commit writes =>
    match s.trie.m_db.commit writes with
    | some db => .ok ⟨⟨s.trie.m_root, db⟩, s.trie.m_root :: s.roots⟩
    | none => s.reopen c (fresh s.trie.m_db.m_db)
  | .rollback => s.reopen c s.trie.m_db.rollback
  | .restart => s.reopen c (fresh s.trie.m_db.m_db)

def run (s : Session) (es : List Event) : Except Exception Session := es.foldlM (step c) s

end Session

/-! ## What a client sees -/

/-- A state, and the states of the commits, the last one first. -/
structure View (α : Type) where
  current : α
  saved : List α

namespace View

variable {α : Type} (empty : α) (change : α → Op → α)

def reopen (v : View α) : View α := { v with current := v.saved.headD empty }

def step (v : View α) : Event → View α
  | .op o => { v with current := change v.current o }
  | .commit writes => if (List.range 10).any writes then ⟨v.current, v.current :: v.saved⟩ else v.reopen empty
  | .rollback => v.reopen empty
  | .restart => v.reopen empty

end View

/-- What a map is changed to. -/
def viewMaps : View (Bytes → Option Bytes) → Event → View (Bytes → Option Bytes) :=
  View.step (fun _ => none) Op.entries

def viewTries : View Trie → Event → View Trie := View.step .empty Op.after

namespace Event

variable (c : Crypto)

/-- The operations are valid. -/
def Valid (K : Set Bytes) : Event → Prop
  | op o => o.Valid K
  | _ => True

def reopenActs (v : View Trie) : List (Act Bytes) := if v.saved.isEmpty then [.enter RLPNull] else []

def acts (v : View Trie) : Event → List (Act Bytes)
  | op o => o.acts c v.current
  | commit writes => if (List.range 10).any writes then [] else reopenActs v
  | rollback => reopenActs v
  | restart => reopenActs v

def allActs : View Trie → List Event → List (Act Bytes)
  | _, [] => []
  | v, e :: es => acts c v e ++ allActs (viewTries v e) es

end Event

/-! ## What holds after every event -/

section

variable {c : Crypto} {K N : Set Bytes} {s : Session} {v : View Trie} {w : View (Bytes → Option Bytes)}
  {l : List (Act Bytes)} {e : Event} {db : LevelOverlayDB} {t : Trie} {m : Bytes → Option Bytes} {A F : Multiset Bytes}

/-- The nodes of the committed tries. -/
def savedNodes (c : Crypto) (v : View Trie) : Multiset Bytes := (v.saved.map (all c)).sum

/-- The trie is in the database, and the committed ones are on the disk. -/
structure Safe (c : Crypto) (K N : Set Bytes) (s : Session) (v : View Trie) (w : View (Bytes → Option Bytes))
    (l : List (Act Bytes)) : Prop where
  stored : Stored c N s.trie v.current (savedNodes c v) l
  durable : s.trie.m_db.Durable (hashed c (savedNodes c v))
  disk : s.trie.m_db.m_db.isSome
  roots : s.roots = v.saved.map fun t => c.sha3 (encode c t)
  shows : Shows K v.current w.current
  saved : List.Forall₂ (Shows K) v.saved w.saved
  small : l.length < 2 ^ 32

theorem m_db_play (db : LevelOverlayDB) (l : List (Act Bytes)) : (play c db l).m_db = db.m_db := by
  induction l generalizing db with
  | nil => rfl
  | cons a l ih => cases a <;> exact ih _

theorem onDisk_play (db : LevelOverlayDB) (l : List (Act Bytes)) (h : H256) : (play c db l).onDisk h = db.onDisk h := by
  unfold LevelOverlayDB.onDisk
  rw [m_db_play]

theorem mem_hashed {x : H256 × Bytes} : x ∈ hashed c A ↔ x.2 ∈ A ∧ x.1 = c.sha3 x.2 := by
  unfold hashed
  rw [Multiset.mem_map]
  constructor
  · rintro ⟨b, hb, rfl⟩
    exact ⟨hb, rfl⟩
  · rintro ⟨hb, hx⟩
    exact ⟨x.2, hb, Prod.ext hx.symm rfl⟩

theorem mem_savedNodes (ht : t ∈ v.saved) {b : Bytes} (hb : b ∈ all c t) : b ∈ savedNodes c v :=
  Multiset.mem_of_le (List.single_le_sum (fun _ _ => Multiset.zero_le _) _ (List.mem_map_of_mem ht)) hb

/-- A committed trie is opened under its root. -/
theorem open_eq (hK : KeySet K) (h : Shows K t m) (hd : db.Durable (hashed c (all c t)))
    (hl : Holds c db (all c t)) : «open» c db (c.sha3 (encode c t)) = .ok ⟨c.sha3 (encode c t), db⟩ := by
  obtain ⟨q, hq⟩ := isItem_encode c h.canonical (h.fits hK)
  have hmem : encode c t ∈ all c t := Multiset.mem_cons_self _ _
  have hdisk : db.onDisk (c.sha3 (encode c t)) = some (encode c t) := hd (_, _) (mem_hashed.2 ⟨hmem, rfl⟩)
  have hexists : db.exists (c.sha3 (encode c t)) = true := by
    unfold LevelOverlayDB.exists
    rw [LevelOverlayDB.get_nodeKey, hdisk, Option.getD_some, decide_eq_true hq.ne_nil, Bool.or_true]
  have hnode : node db (c.sha3 (encode c t)) = encode c t := hl _ hmem hq.ne_nil
  have hopen : ¬(c.sha3 (encode c t) = c.EmptyTrie ∧ (!NodeDB.exists db (c.sha3 (encode c t))) = true) := by
    rintro ⟨-, hnone⟩
    rw [show NodeDB.exists db (c.sha3 (encode c t)) = true from hexists] at hnone
    cases hnone
  exact open_of_node (if_neg hopen) (ne_of_eq_of_ne hnode hq.ne_nil)

/-- A new start, or a rollback, from what is on the disk. -/
theorem Safe.reopen (hK : KeySet K) (hs : Safe c K N s v w (Event.reopenActs v ++ l)) (hdb : db.m_main = ∅)
    (hdisk : db.m_db = s.trie.m_db.m_db) :
    ∃ s', s.reopen c db = .ok s' ∧ Safe c K N s' (v.reopen .empty) (w.reopen fun _ => none) l := by
  have hdurable : db.Durable (hashed c (savedNodes c v)) := by
    intro x hx
    rw [← hs.durable x hx]
    unfold LevelOverlayDB.onDisk
    rw [hdisk]
  have hsmall : l.length < 2 ^ 32 := by
    have h := hs.small
    rw [List.length_append] at h
    omega
  have hready := hs.stored.ready
  have hentered : ∀ b, .enter b ∈ Event.reopenActs v ++ l → b ∈ N := hready.entered
  have hinside : ∀ b ∈ savedNodes c v, b ∈ N := fun b hb => hready.inside b (Multiset.mem_add.2 (.inr hb))
  have hroots := hs.roots
  have hsaved := hs.saved
  unfold Session.reopen
  rcases v with ⟨t, _ | ⟨t', ts⟩⟩
  · rw [List.forall₂_nil_left_iff] at hsaved
    rw [hroots]
    have hkeeps : db.Keeps (hashed c 0) (.enter RLPNull :: l).length :=
      hdurable.keeps hdb hs.small fun x hx => absurd hx (Multiset.notMem_zero x)
    have hinit : Ready c N db 0 (.enter RLPNull :: l) :=
      ⟨hready.apart, fun b hb => absurd hb (Multiset.notMem_zero b), hentered, hkeeps⟩
    refine ⟨_, rfl, stored_init hinit, hdurable, ?_, ?_, ?_, hs.saved, hsmall⟩
    · show db.m_db.isSome
      rw [hdisk]
      exact hs.disk
    · rfl
    · rw [View.reopen, View.reopen, hsaved]
      exact Shows.empty K
  · obtain ⟨m', ms, hshows, hrest, hw⟩ := List.forall₂_cons_left_iff.1 hsaved
    have hall : ∀ b ∈ all c t', b ∈ savedNodes c ⟨t, t' :: ts⟩ := fun b => mem_savedNodes List.mem_cons_self
    have hmem : ∀ x ∈ hashed c (all c t' + savedNodes c ⟨t, t' :: ts⟩), x ∈ hashed c (savedNodes c ⟨t, t' :: ts⟩) := by
      intro x hx
      rw [mem_hashed] at hx ⊢
      exact ⟨(Multiset.mem_add.1 hx.1).elim (hall x.2) id, hx.2⟩
    have hnew : Ready c N db (all c t' + savedNodes c ⟨t, t' :: ts⟩) l := by
      refine ⟨hready.apart, fun b hb => ?_, fun b hb => hentered b (List.mem_append_right _ hb),
        hdurable.keeps hdb hsmall hmem⟩
      exact hinside b ((Multiset.mem_add.1 hb).elim (hall b) id)
    have hopen := open_eq hK hshows (fun x hx => hdurable x (hmem x (by
      rw [mem_hashed] at hx ⊢
      exact ⟨Multiset.mem_add.2 (.inl hx.1), hx.2⟩))) (hnew.holds.mono (Multiset.le_add_right _ _))
    rw [hroots, List.map_cons]
    dsimp only
    rw [hopen]
    refine ⟨_, rfl, ⟨rfl, hnew⟩, hdurable, ?_, rfl, ?_, hs.saved, hsmall⟩
    · show db.m_db.isSome
      rw [hdisk]
      exact hs.disk
    · rw [View.reopen, View.reopen, hw]
      exact hshows

/-- Every event keeps the client safe. -/
theorem Safe.step (hK : KeySet K) (hs : Safe c K N s v w (e.acts c v ++ l)) (he : e.Valid K) :
    ∃ s', s.step c e = .ok s' ∧ Safe c K N s' (viewTries v e) (viewMaps w e) l := by
  have hsmall : l.length < 2 ^ 32 := by
    have h := hs.small
    rw [List.length_append] at h
    omega
  cases e with
  | op o =>
    obtain ⟨hstep, hstored⟩ := step_eq hK hs.shows hs.stored he
    refine ⟨⟨_, s.roots⟩, ?_, hstored, ?_, ?_, hs.roots, hs.shows.step hK he, hs.saved, hsmall⟩
    · rw [Session.step, hstep]
      rfl
    · intro x hx
      rw [onDisk_play]
      exact hs.durable x hx
    · rw [m_db_play]
      exact hs.disk
  | commit writes =>
    have hsome := LevelOverlayDB.isSome_commit hs.disk writes
    rw [Event.acts] at hs
    rw [Session.step, viewTries, viewMaps, View.step, View.step]
    cases hany : (List.range 10).any writes with
    | false =>
      rw [hany] at hsome hs
      rw [Option.isSome_eq_false_iff, Option.isNone_iff_eq_none] at hsome
      rw [hsome]
      exact hs.reopen hK rfl rfl
    | true =>
      rw [hany] at hsome hs
      obtain ⟨db, hdb⟩ := Option.isSome_iff_exists.1 hsome
      obtain ⟨hdurable, hmain, hdisk⟩ := LevelOverlayDB.Keeps.commit hs.stored.ready.keeps hs.disk hdb
      have hnodes : savedNodes c ⟨v.current, v.current :: v.saved⟩ = all c v.current + savedNodes c v := by
        unfold savedNodes
        rw [List.map_cons, List.sum_cons]
      have hready := hs.stored.ready
      rw [hdb, if_pos rfl, if_pos rfl]
      refine ⟨_, rfl, ⟨hs.stored.root, ?_⟩, ?_, hdisk, ?_, hs.shows, .cons hs.shows hs.saved, hsmall⟩
      · have hmem : ∀ b ∈ all c v.current + (all c v.current + savedNodes c v), b ∈ all c v.current + savedNodes c v :=
          fun b hb => (Multiset.mem_add.1 hb).elim (fun h => Multiset.mem_add.2 (.inl h)) id
        rw [hnodes]
        refine ⟨hready.apart, fun b hb => hready.inside b (hmem b hb), hready.entered, hdurable.keeps hmain hsmall ?_⟩
        intro x hx
        rw [mem_hashed] at hx ⊢
        exact ⟨hmem x.2 hx.1, hx.2⟩
      · rw [hnodes]
        exact hdurable
      · show s.trie.m_root :: s.roots = _
        rw [hs.roots, hs.stored.root]
        rfl
  | rollback => exact hs.reopen hK rfl rfl
  | restart => exact hs.reopen hK rfl rfl

theorem Safe.run (hK : KeySet K) (es : List Event) (hs : Safe c K N s v w (Event.allActs c v es ++ l))
    (hes : ∀ e ∈ es, e.Valid K) :
    ∃ s', s.run c es = .ok s' ∧ Safe c K N s' (es.foldl viewTries v) (es.foldl viewMaps w) l := by
  induction es generalizing s v w with
  | nil => exact ⟨s, rfl, hs⟩
  | cons e es ih =>
    rw [Event.allActs, List.append_assoc] at hs
    obtain ⟨s', hstep, hs'⟩ := hs.step hK (hes e List.mem_cons_self)
    obtain ⟨s'', hrun, hs''⟩ := ih hs' fun e he => hes e (List.mem_cons_of_mem _ he)
    refine ⟨s'', ?_, hs''⟩
    rw [← hrun]
    unfold Session.run
    rw [List.foldlM_cons, hstep]
    rfl

/-- The acts of a client that starts with no entries. -/
def sessionActs (c : Crypto) (es : List Event) : List (Act Bytes) := .enter RLPNull :: Event.allActs c ⟨.empty, []⟩ es

/-- Whatever a client does, it finds what the same events leave of a map, where a rollback or a new start goes back to
the last commit. And under the root of each commit there is what there was then, in the client's database and on the
disk alone. -/
theorem session_durable (hK : KeySet K) (es : List Event) (hes : ∀ e ∈ es, e.Valid K)
    (hcoll : Set.InjOn c.sha3 {b | .enter b ∈ sessionActs c es}) (hroom : (sessionActs c es).length < 2 ^ 32)
    (disk : Disk) : ∃ s, (Session.start c disk).run c es = .ok s ∧
      (∀ key : Bytes, key.length < 2 ^ 30 →
        s.trie.at key = .ok (((es.foldl viewMaps ⟨fun _ => none, []⟩).current key).getD [])) ∧
      List.Forall₂ (fun root m => ∀ db ∈ [s.trie.m_db, fresh s.trie.m_db.m_db], ∃ g, «open» c db root = .ok g ∧
        ∀ key : Bytes, key.length < 2 ^ 30 → g.at key = .ok ((m key).getD []))
          s.roots (es.foldl viewMaps ⟨fun _ => none, []⟩).saved := by
  have hempty : ∀ h, (fresh (some disk)).m_main.lookup h = none := fun h => AList.lookup_empty h
  have hinit : Ready c {b | .enter b ∈ sessionActs c es} (fresh (some disk)) 0 (sessionActs c es) := by
    have hdurable : (fresh (some disk)).Durable 0 := fun x hx => absurd hx (Multiset.notMem_zero x)
    exact ⟨hcoll, fun b hb => absurd hb (Multiset.notMem_zero b), fun b hb => hb,
      hdurable.keeps rfl hroom fun x hx => hx⟩
  have hsafe : Safe c K {b | .enter b ∈ sessionActs c es} (Session.start c disk) ⟨.empty, []⟩ ⟨fun _ => none, []⟩
      (Event.allActs c ⟨.empty, []⟩ es ++ []) := by
    rw [List.append_nil]
    refine ⟨stored_init hinit, fun x hx => absurd hx (Multiset.notMem_zero x), rfl, rfl, Shows.empty K, .nil, ?_⟩
    exact (Nat.lt_succ_self _).trans hroom
  obtain ⟨s, hrun, hs⟩ := hsafe.run hK es hes
  refine ⟨s, hrun, fun key hkey => at_eq hK hs.shows hs.stored.root hs.stored.all hkey, ?_⟩
  rw [hs.roots, List.forall₂_map_left_iff]
  refine ((List.forall₂_and_left _ _).2 ⟨fun t ht => ht, hs.saved⟩).imp fun t m ⟨ht, hshows⟩ db hdb => ?_
  have hdurable : ∀ x ∈ hashed c (all c t), s.trie.m_db.onDisk x.1 = some x.2 := by
    intro x hx
    rw [mem_hashed] at hx
    exact hs.durable x (mem_hashed.2 ⟨mem_savedNodes ht hx.1, hx.2⟩)
  have hboth : db.Durable (hashed c (all c t)) ∧ Holds c db (all c t) := by
    rcases List.mem_pair.1 hdb with rfl | rfl
    · refine ⟨hdurable, hs.stored.ready.holds.mono ((List.single_le_sum (fun _ _ => Multiset.zero_le _) _
        (List.mem_map_of_mem ht)).trans (Multiset.le_add_left _ _))⟩
    · have hd : (fresh s.trie.m_db.m_db).Durable (hashed c (all c t)) := hdurable
      have hk : (fresh s.trie.m_db.m_db).Keeps (hashed c (all c t)) 0 := hd.keeps rfl (by omega) fun x hx => hx
      exact ⟨hd, fun b hb => LawfulNodeDB.lookup hk (mem_hashed.2 ⟨hb, rfl⟩)⟩
  exact ⟨_, open_eq hK hshows hboth.1 hboth.2, fun key hkey => at_eq hK hshows rfl hboth.2 hkey⟩

/-- A commit, after the first try of its writes has failed, then a removal that a rollback undoes, and a new start. -/
def trialEvents : List Event :=
  [.op (.insert [1, 2] (List.replicate 40 7)), .op (.insert [1, 3] (List.replicate 40 8)), .commit fun i => i = 1,
    .op (.remove [1, 2]), .rollback, .op (.remove [1, 3]), .restart]

theorem session_durable_trial : ∃ s, (Session.start rolling ∅).run rolling trialEvents = .ok s ∧
    s.trie.at [1, 2] = .ok (List.replicate 40 7) ∧ s.trie.at [1, 3] = .ok (List.replicate 40 8) := by
  have hvalid : ∀ e ∈ trialEvents, e.Valid {k | k ∈ trialKeys} := by
    unfold trialEvents
    simp [Event.Valid, Op.Valid, trialKeys]
  have hcoll : Set.InjOn rolling.sha3 {b | .enter b ∈ sessionActs rolling trialEvents} :=
    Act.injOn_iff.2 (by decide +kernel)
  obtain ⟨s, hrun, hat, -⟩ := session_durable keySet_trial trialEvents hvalid hcoll (by decide +kernel) ∅
  exact ⟨s, hrun, hat [1, 2] (by decide), hat [1, 3] (by decide)⟩

end

end GenericTrieDB

end Petrachor
