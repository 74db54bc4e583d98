import Petrachor.StateTrie.Run
import Petrachor.TrieDB.Durability

/-!
# States that survive

What was committed into the state trie, and to the disk after it, is found again by a process that starts with the disk
alone. What was not brought to the disk is lost as a whole.
-/

namespace Petrachor

open RLPStream Tally GenericTrieDB FatGenericTrieDB LevelOverlayDB

namespace StateTrie

/-- The tries of a state, its accounts, and all code that it was ever given. -/
structure Picture where
  tries : Tries
  accounts : Address → Option Contents
  codes : Multiset Bytes

namespace Picture

def blank : Picture := ⟨.blank, fun _ => none, 0⟩

def commit (c : Crypto) (q : Picture) (cache : AccountMap) : Picture :=
  ⟨cache.entries.foldl (Tries.after c) q.tries, commitMap c q.accounts cache,
    q.codes + (cache.entries.map fun i => i.2.newCode).sum⟩

end Picture

/-- A cache is committed into the state trie, or the database to the disk; or the process goes back to what it last
brought to the disk, with the database that it has or with a new one. -/
inductive Event
  | commit (cache : AccountMap)
  | save (writes : ℕ → Bool)
  | rollback
  | restart

/-- The state, and the root under which it was last brought to the disk. -/
structure Process where
  state : GenericTrieDB LevelOverlayDB
  saved : H256

namespace Process

variable (c : Crypto)

def start (disk : Disk) : Process := ⟨init c (fresh (some disk)), c.EmptyTrie⟩

def reopen (p : Process) (db : LevelOverlayDB) : Except Exception Process := do
  return { p with state := ← GenericTrieDB.open c db p.saved }

/-- The root is set anew after the disk was written. If it cannot be written the process ends, and is started again. -/
def step (p : Process) : Event → Except Exception Process
  | .commit cache => do return { p with state := (← StateTrie.commit c p.state cache).1 }
  | .save writes =>
    match p.state.m_db.commit writes with
    | some db => reopen c { p with saved := p.state.m_root } db
    | none => p.reopen c (fresh p.state.m_db.m_db)
  | .rollback => p.reopen c p.state.m_db.rollback
  | .restart => p.reopen c (fresh p.state.m_db.m_db)

def run (p : Process) (es : List Event) : Except Exception Process := es.foldlM (step c) p

end Process

/-- What is seen now, and what was last brought to the disk. -/
structure Sight where
  current : Picture
  saved : Picture

namespace Sight

def blank : Sight := ⟨.blank, .blank⟩

def step (c : Crypto) (v : Sight) : Event → Sight
  | .commit cache => { v with current := v.current.commit c cache }
  | .save writes => if (List.range 10).any writes then ⟨v.current, v.current⟩ else ⟨v.saved, v.saved⟩
  | .rollback => ⟨v.saved, v.saved⟩
  | .restart => ⟨v.saved, v.saved⟩

end Sight

namespace Event

def entries : Event → List (Sigma fun _ : Address => Account)
  | commit cache => cache.entries
  | _ => []

def allActs (c : Crypto) : Sight → List Event → List (Act Bytes)
  | _, [] => []
  | v, e :: es => v.current.tries.acts c e.entries ++ allActs c (v.step c e) es

/-- Every account fits the tries that it is committed to. -/
def Fit (c : Crypto) (As : Finset Address) (Ss : Set U256) : Sight → List Event → Prop
  | _, [] => True
  | v, e :: es => v.current.tries.Fit c As Ss e.entries ∧ Fit c As Ss (v.step c e) es

/-- The events from the start, and room for a storage without entries. -/
def runActs (c : Crypto) (es : List Event) : List (Act Bytes) :=
  .enter RLPNull :: (allActs c .blank es ++ [.enter RLPNull])

end Event

/-- If anything is under the root without entries, it is the right node. -/
def Disk.Honest (c : Crypto) (disk : Disk) : Prop := disk.get (Disk.nodeKey c.EmptyTrie) ∈ [[], RLPNull]

/-- The disk alone has the accounts of the picture, and their code. -/
structure Saved (c : Crypto) (As : Finset Address) (Ss : Set U256) (N : Set Bytes) (disk : Disk) (root : H256)
    (q : Picture) : Prop where
  root : root = c.sha3 (encode c q.tries.state)
  durable : ∃ A, (fresh (some disk)).Durable (hashed c A) ∧ (∀ b ∈ A, b ∈ N) ∧
    need c q.tries.state + (∑ a ∈ As, need c (q.tries.storage a) + q.codes) ≤ A
  records : ∃ f, Lists c (addressKeys As) q.tries.state f ∧
    ∀ a ∈ As, f (asBytes 20 a) = (q.accounts a).map fun r => (r.record c (q.tries.storage a)).encode
  slots : ∀ a ∈ As, ∃ f, Lists c (slotKeys Ss) (q.tries.storage a) f ∧
    ∀ slot ∈ Ss, f (asBytes 32 slot) = slotValue ((q.accounts a).elim 0 fun r => r.storage slot)
  codes : RLPNull ∉ q.codes

/-- The accounts are in the database, and what was last brought to the disk is there. -/
structure Lasting (c : Crypto) (As : Finset Address) (Ss : Set U256) (N : Set Bytes) (p : Process) (v : Sight)
    (l : List (Act Bytes)) : Prop
    extends Committed c As Ss N p.state v.current.tries v.current.accounts v.current.codes l where
  disk : ∃ disk, p.state.m_db.m_db = some disk ∧ Disk.Honest c disk ∧ Saved c As Ss N disk p.saved v.saved
  small : l.length + 1 < 2 ^ 32

section

variable {c : Crypto} {As : Finset Address} {Ss : Set U256} {N : Set Bytes} {db db' : LevelOverlayDB} {disk : Disk}
  {g : GenericTrieDB LevelOverlayDB} {p : Process} {q : Picture} {v : Sight} {l : List (Act Bytes)} {root : H256}
  {writes : ℕ → Bool} {es : List Event}

/-! ## The node under the root without entries -/

/-- What is on the disk stays there until it is written. -/
theorem m_db_of_follows (h : Follows db db') : db'.m_db = db.m_db := by
  induction h with
  | refl => rfl
  | insert _ _ _ ih => exact ih
  | kill _ _ ih => exact ih
  | insertAux _ _ _ ih => exact ih

theorem honest_of_disk (hmain : db.m_main = ∅) (hdb : db.m_db = some disk) :
    (NodeDB.exists db c.EmptyTrie = true → Nulled c db) ↔ Disk.Honest c disk := by
  have hnone : db.m_main.lookup c.EmptyTrie = none := by
    rw [hmain]
    exact AList.lookup_empty _
  have hget : db.get (Disk.nodeKey c.EmptyTrie) = disk.get (Disk.nodeKey c.EmptyTrie) := by
    unfold LevelOverlayDB.get
    rw [hdb]
    rfl
  have hexists : NodeDB.exists db c.EmptyTrie = decide (disk.get (Disk.nodeKey c.EmptyTrie) ≠ []) := by
    show LevelOverlayDB.exists db c.EmptyTrie = _
    unfold LevelOverlayDB.exists MemoryDB.exists
    rw [hnone, hget, Bool.false_or]
  have hlookup : node db c.EmptyTrie = disk.get (Disk.nodeKey c.EmptyTrie) := by
    show LevelOverlayDB.lookup db c.EmptyTrie = _
    unfold LevelOverlayDB.lookup MemoryDB.lookup
    rw [hnone, hget]
    rfl
  unfold Nulled Disk.Honest
  rw [hexists, hlookup, decide_eq_true_eq, List.mem_pair]
  exact ⟨fun h => (em _).imp_right h, fun h hne => h.resolve_left hne⟩

/-- A commit to the disk keeps the node under the root without entries right. -/
theorem honest_batch (hdisk : Disk.Honest c disk)
    (hhonest : NodeDB.exists db c.EmptyTrie = true → Nulled c db) : Disk.Honest c (db.batch disk) := by
  unfold Disk.Honest Disk.get at hdisk ⊢
  rw [lookup_batch]
  cases hl : db.m_main.lookup c.EmptyTrie with
  | none => exact hdisk
  | some e =>
    obtain ⟨b, n⟩ := e
    rw [Option.elim_some]
    dsimp only
    split
    · rename_i hn
      have hexists : NodeDB.exists db c.EmptyTrie = true := by
        show LevelOverlayDB.exists db c.EmptyTrie = true
        unfold LevelOverlayDB.exists MemoryDB.exists
        rw [hl]
        simp [Nat.pos_of_ne_zero hn]
      have hnull : db.lookup c.EmptyTrie = RLPNull := hhonest hexists
      have hmem : db.toMemoryDB.lookup c.EmptyTrie = b := MemoryDB.lookup_of_pos hl (Nat.pos_of_ne_zero hn)
      rw [Option.getD_some, List.mem_pair]
      by_cases hb : b = []
      · exact .inl hb
      · unfold LevelOverlayDB.lookup at hnull
        dsimp only at hnull
        rw [hmem, if_neg hb] at hnull
        exact .inr hnull
    · exact hdisk

/-! ## To the disk and back -/

theorem Committed.save (h : Committed c As Ss N g q.tries q.accounts q.codes l) (hdb : g.m_db.m_db = some disk)
    (hdisk : Disk.Honest c disk) (hcommit : g.m_db.commit writes = some db) :
    db.m_main = ∅ ∧ db.m_enforceRefs = false ∧
      ∃ disk', db.m_db = some disk' ∧ Disk.Honest c disk' ∧ Saved c As Ss N disk' g.m_root q := by
  obtain ⟨A, hs, hle⟩ := h.afloat.steady
  obtain ⟨hdurable, hmain, -⟩ := LevelOverlayDB.Keeps.commit hs.keeps (by rw [hdb]; rfl) hcommit
  unfold LevelOverlayDB.commit at hcommit
  rw [hdb] at hcommit
  dsimp only at hcommit
  split at hcommit
  · obtain rfl := Option.some.inj hcommit
    exact ⟨hmain, hs.lax, _, rfl, honest_batch hdisk hs.honest,
      ⟨h.afloat.root, ⟨A, hdurable, hs.inside, hle⟩, h.records, h.slots, h.codes⟩⟩
  · cases hcommit

/-- The disk is enough to open the state that was brought to it. -/
theorem Saved.open (h : Saved c As Ss N disk root q) (hmain : db.m_main = ∅) (hlax : db.m_enforceRefs = false)
    (hdb : db.m_db = some disk) (hdisk : Disk.Honest c disk) (hN : N.InjOn c.sha3) (hnull : RLPNull ∈ N)
    (hl : ∀ b, .enter b ∈ l → b ∈ N) (hsmall : l.length + 1 < 2 ^ 32) :
    ∃ g, GenericTrieDB.open c db root = .ok g ∧ Committed c As Ss N g q.tries q.accounts q.codes l ∧
      g.m_db.m_db = some disk := by
  obtain ⟨A, hdurable, hinside, hle⟩ := h.durable
  obtain ⟨f, hf, -⟩ := h.records
  have hdurable' : db.Durable (hashed c A) := by
    intro x hx
    rw [← hdurable x hx]
    unfold LevelOverlayDB.onDisk
    rw [hdb]
    rfl
  have hsteady : Steady c N db A (.enter RLPNull :: l) := by
    refine ⟨⟨hN, hinside, fun b hb => ?_, hdurable'.keeps hmain hsmall fun x hx => hx⟩, hlax, hnull,
      (honest_of_disk hmain hdb).2 hdisk⟩
    rcases List.mem_cons.1 hb with heq | hb
    · rw [Act.enter.inj heq]
      exact hnull
    · exact hl b hb
  obtain ⟨g, hopen, hg, -⟩ := hsteady.open_eq (keySet_hashed c _) hf.shows hle
  rw [← h.root] at hopen
  exact ⟨g, hopen, ⟨hg, h.records, h.slots, h.codes⟩, (m_db_of_follows (.open hopen)).trans hdb⟩

theorem Lasting.reopen (h : Lasting c As Ss N p v l) (hmain : db.m_main = ∅) (hlax : db.m_enforceRefs = false)
    (hdb : db.m_db = p.state.m_db.m_db) :
    ∃ p', p.reopen c db = .ok p' ∧ Lasting c As Ss N p' ⟨v.saved, v.saved⟩ l := by
  obtain ⟨disk, hdisk, hhonest, hsaved⟩ := h.disk
  obtain ⟨A, hs, -⟩ := h.afloat.steady
  obtain ⟨g, hopen, hg, hg'⟩ :=
    hsaved.open hmain hlax (hdb.trans hdisk) hhonest hs.apart hs.null hs.entered h.small
  refine ⟨{ p with state := g }, ?_, hg, ⟨disk, hg', hhonest, hsaved⟩, h.small⟩
  unfold Process.reopen
  rw [hopen]
  rfl

/-! ## Runs -/

theorem Lasting.step {e : Event} (hAs : (addressKeys As).InjOn c.sha3) (hSs : (slotKeys Ss).InjOn c.sha3)
    (hfit : v.current.tries.Fit c As Ss e.entries)
    (h : Lasting c As Ss N p v (v.current.tries.acts c e.entries ++ l)) :
    ∃ p', p.step c e = .ok p' ∧ Lasting c As Ss N p' (v.step c e) l := by
  cases e with
  | commit cache =>
    obtain ⟨disk, hdb, hdisk⟩ := h.disk
    have hsmall := h.small
    rw [List.length_append] at hsmall
    obtain ⟨g, hrun, hg, hfollows⟩ := h.toCommitted.run hAs hSs cache.entries hfit
    rw [foldl_contents] at hg
    refine ⟨{ p with state := g }, ?_, hg, ⟨disk, (m_db_of_follows hfollows).trans hdb, hdisk⟩, by omega⟩
    rw [Process.step, StateTrie.commit, hrun]
    rfl
  | save writes =>
    obtain ⟨disk, hdb, hhonest, -⟩ := h.disk
    have hsome := LevelOverlayDB.isSome_commit (show p.state.m_db.m_db.isSome by rw [hdb]; rfl) writes
    rw [Process.step, Sight.step]
    cases hany : (List.range 10).any writes with
    | false =>
      rw [hany, Option.isSome_eq_false_iff, Option.isNone_iff_eq_none] at hsome
      rw [hsome]
      exact h.reopen rfl rfl rfl
    | true =>
      rw [hany] at hsome
      obtain ⟨db, hcommit⟩ := Option.isSome_iff_exists.1 hsome
      obtain ⟨hmain, hlax, disk', hdb', hhonest', hsaved⟩ := h.toCommitted.save hdb hhonest hcommit
      obtain ⟨A, hs, -⟩ := h.afloat.steady
      obtain ⟨g, hopen, hg, hg'⟩ := hsaved.open hmain hlax hdb' hhonest' hs.apart hs.null hs.entered h.small
      rw [hcommit, if_pos rfl]
      refine ⟨⟨g, p.state.m_root⟩, ?_, hg, ⟨disk', hg', hhonest', hsaved⟩, h.small⟩
      dsimp only
      unfold Process.reopen
      rw [hopen]
      rfl
  | rollback =>
    obtain ⟨A, hs, -⟩ := h.afloat.steady
    exact h.reopen rfl hs.lax rfl
  | restart => exact h.reopen rfl rfl rfl

theorem Lasting.run (hAs : (addressKeys As).InjOn c.sha3) (hSs : (slotKeys Ss).InjOn c.sha3)
    (hfit : Event.Fit c As Ss v es) (h : Lasting c As Ss N p v (Event.allActs c v es ++ l)) :
    ∃ p', p.run c es = .ok p' ∧ Lasting c As Ss N p' (es.foldl (Sight.step c) v) l := by
  induction es generalizing p v with
  | nil => exact ⟨p, rfl, h⟩
  | cons e es ih =>
    rw [Event.allActs, List.append_assoc] at h
    obtain ⟨p₁, hstep, h₁⟩ := h.step hAs hSs hfit.1
    obtain ⟨p₂, hrun, h₂⟩ := ih hfit.2 h₁
    refine ⟨p₂, ?_, h₂⟩
    unfold Process.run
    rw [List.foldlM_cons, hstep]
    exact hrun

/-- Events that fit, from an empty state over a disk that can be started from, of which no two keys and no two entered
nodes have one hash. -/
structure StateRun (c : Crypto) (As : Finset Address) (Ss : Set U256) (disk : Disk) (es : List Event) : Prop where
  addresses : (addressKeys As).InjOn c.sha3
  slots : (slotKeys Ss).InjOn c.sha3
  fit : Event.Fit c As Ss .blank es
  apart : Set.InjOn c.sha3 {b | .enter b ∈ Event.runActs c es}
  small : (Event.runActs c es).length < 2 ^ 32
  honest : Disk.Honest c disk

theorem StateRun.lasting (h : StateRun c As Ss disk es) :
    Lasting c As Ss {b | .enter b ∈ Event.runActs c es} (.start c disk) .blank
      (Event.allActs c .blank es ++ [.enter RLPNull]) := by
  have hdurable : (fresh (some disk)).Durable (hashed c 0) := fun x hx => absurd hx (Multiset.notMem_zero x)
  have hinside : ∀ b ∈ (0 : Multiset Bytes), b ∈ {b | .enter b ∈ Event.runActs c es} :=
    fun _ hb => absurd hb (Multiset.notMem_zero _)
  have hsteady : Steady c {b | .enter b ∈ Event.runActs c es} (fresh (some disk)) 0 (Event.runActs c es) :=
    ⟨⟨h.apart, hinside, fun _ hb => hb, hdurable.keeps rfl h.small fun x hx => hx⟩, rfl, List.mem_cons_self,
      (honest_of_disk rfl rfl).2 h.honest⟩
  have hstart := Committed.start c As Ss hsteady
  have hneed : ∑ a ∈ As, need c (Tries.blank.storage a) = 0 := Finset.sum_eq_zero fun _ _ => rfl
  refine ⟨hstart, ⟨disk, rfl, h.honest, rfl, ⟨0, hdurable, hinside, ?_⟩, hstart.records, hstart.slots, hstart.codes⟩,
    h.small⟩
  show need c Tries.blank.state + (∑ a ∈ As, need c (Tries.blank.storage a) + 0) ≤ 0
  rw [hneed]
  rfl

/-- Whatever is committed, brought to the disk or lost, each account is read with the record that the plain accounts
have for it, each slot of its storage with its value, and the code that came with it is found under its hash. -/
theorem states_survive (h : StateRun c As Ss disk es) :
    ∃ p, (Process.start c disk).run c es = .ok p ∧
      (∀ a ∈ As, account c p.state a = .ok (((es.foldl (Sight.step c) .blank).current.accounts a).map fun r =>
        r.record c ((es.foldl (Sight.step c) .blank).current.tries.storage a))) ∧
      (∀ a ∈ As, ∀ slot ∈ Ss, storage c p.state a slot =
        .ok (((es.foldl (Sight.step c) .blank).current.accounts a).elim 0 fun r => r.storage slot)) ∧
      ∀ code ∈ (es.foldl (Sight.step c) .blank).current.codes, code ≠ [] →
        NodeDB.lookup p.state.m_db (c.sha3 code) = code := by
  obtain ⟨p, hrun, hp⟩ := h.lasting.run h.addresses h.slots h.fit
  exact ⟨p, hrun, fun a ha => account_eq hp.toCommitted ha, fun a ha slot hslot => storage_eq hp.toCommitted ha hslot,
    fun code hcode hne => code_eq hp.toCommitted hcode hne⟩

end

/-- The first cache is brought to the disk by the second try. The other one is lost, and committed again. -/
def trialEvents : List Event :=
  [.commit (trialCaches.headD ∅), .save fun i => i = 1, .commit (trialCaches.getLastD ∅), .restart,
    .commit (trialCaches.getLastD ∅), .save fun _ => true, .rollback]

theorem stateRun_trial : StateRun rolling trialAddresses {slot | slot ∈ [7, 8]} ∅ trialEvents := by
  have hfirst : Tries.blank.Fit rolling trialAddresses {slot | slot ∈ [7, 8]} [⟨1, trialContract⟩, ⟨2, trialPayee⟩] :=
    ⟨fit_trial.1, fit_trial.2.1, trivial⟩
  have hother : (Tries.blank.after rolling ⟨1, trialContract⟩ |>.after rolling ⟨2, trialPayee⟩).Fit rolling
      trialAddresses {slot | slot ∈ [7, 8]} [⟨2, trialKilled⟩, ⟨1, trialCleared⟩] :=
    ⟨fit_trial.2.2.1, fit_trial.2.2.2.1, trivial⟩
  refine ⟨addresses_trial, slots_trial, ⟨hfirst, trivial, hother, trivial, hother, trivial, trivial, trivial⟩,
    Act.injOn_iff.2 (by decide +kernel), by decide +kernel, ?_⟩
  exact List.mem_cons_self

theorem states_survive_trial : ∃ p, (Process.start rolling ∅).run rolling trialEvents = .ok p ∧
    account rolling p.state 2 = .ok none ∧ storage rolling p.state 1 7 = .ok 0 ∧ storage rolling p.state 1 8 = .ok 300 ∧
    NodeDB.lookup p.state.m_db (rolling.sha3 [1, 2, 3]) = [1, 2, 3] := by
  obtain ⟨p, hrun, haccount, hstorage, hcode⟩ := states_survive stateRun_trial
  have hkilled : (trialEvents.foldl (Sight.step rolling) .blank).current.accounts 2 = none :=
    Option.isNone_iff_eq_none.1 (by decide)
  have hcleared : ((trialEvents.foldl (Sight.step rolling) .blank).current.accounts 1).elim 0 (fun r => r.storage 7) =
      0 := by decide +kernel
  have hkept : ((trialEvents.foldl (Sight.step rolling) .blank).current.accounts 1).elim 0 (fun r => r.storage 8) =
      300 := by decide +kernel
  refine ⟨p, hrun, ?_, ?_, ?_, hcode [1, 2, 3] (by decide +kernel) (List.cons_ne_nil _ _)⟩
  · rw [haccount 2 (by decide), hkilled]
    rfl
  · rw [hstorage 1 (by decide) 7 (by decide), hcleared]
  · rw [hstorage 1 (by decide) 8 (by decide), hkept]

end StateTrie

end Petrachor
