import Petrachor.StateTrie.Commit

/-!
# Runs of commits

A state that starts without accounts and takes the commits of any number of caches has the accounts of a plain map, and
the order in which a cache lists its accounts does not matter.
-/

namespace Petrachor

open RLPStream Tally GenericTrieDB FatGenericTrieDB

namespace StateTrie

/-- The accounts of caches, in the order in which they are committed. -/
def entriesOf (caches : List AccountMap) : List (Sigma fun _ : Address => Account) :=
  caches.flatMap fun cache => cache.entries

section

variable (c : Crypto)

/-- The commits of some caches. -/
def commits {δ : Type} [NodeDB δ] [AuxDB δ] (state : GenericTrieDB δ) (caches : List AccountMap) :
    Except Exception (GenericTrieDB δ) :=
  caches.foldlM (fun state cache => do return (← commit c state cache).1) state

/-- What the commit of a cache makes of the accounts. -/
def commitMap (m : Address → Option Contents) (cache : AccountMap) : Address → Option Contents :=
  fun a => (cache.lookup a).elim (m a) fun acc => acc.contents c (m a)

namespace Tries

def blank : Tries := ⟨.empty, fun _ => .empty⟩

def after (s : Tries) (i : Sigma fun _ : Address => Account) : Tries := i.2.tries c i.1 s

/-- What the commits do to the database. -/
def acts : Tries → List (Sigma fun _ : Address => Account) → List (Act Bytes)
  | _, [] => []
  | s, i :: l => i.2.acts c i.1 s ++ acts (s.after c i) l

/-- Every account fits the tries that it is committed to. -/
def Fit (As : Finset Address) (Ss : Set U256) : Tries → List (Sigma fun _ : Address => Account) → Prop
  | _, [] => True
  | s, i :: l => i.2.Fits c i.1 (s.storage i.1) As Ss ∧ Fit As Ss (s.after c i) l

end Tries

/-- The commits from the start, and room for a storage without entries. -/
def commitActs (caches : List AccountMap) : List (Act Bytes) :=
  .enter RLPNull :: (Tries.acts c .blank (entriesOf caches) ++ [.enter RLPNull])

end

section

variable {c : Crypto} {As : Finset Address} {Ss : Set U256} {N : Set Bytes} {a : Address} {s : Tries} {δ : Type}
  [NodeDB δ] [LaxNodeDB δ] [AuxDB δ] [LawfulAuxDB δ] {g : GenericTrieDB δ} {C : Multiset Bytes}
  {l : List (Act Bytes)} {m : Address → Option Contents}

/-! ## The order of a cache -/

theorem foldl_contents (c : Crypto) (cache : AccountMap) (m : Address → Option Contents) :
    cache.entries.foldl (fun m i => Function.update m i.1 (i.2.contents c (m i.1))) m = commitMap c m cache := by
  have hall : ∀ (l : List (Sigma fun _ : Address => Account)) (m : Address → Option Contents), l.NodupKeys → ∀ a,
      l.foldl (fun m i => Function.update m i.1 (i.2.contents c (m i.1))) m a =
        (l.dlookup a).elim (m a) fun acc => acc.contents c (m a) := by
    intro l
    induction l with
    | nil => exact fun _ _ _ => rfl
    | cons i l ih =>
      intro m hnodup a
      obtain ⟨b, acc⟩ := i
      rw [List.nodupKeys_cons] at hnodup
      rw [List.foldl_cons, ih _ hnodup.2]
      by_cases heq : a = b
      · subst heq
        rw [List.dlookup_cons_eq, List.dlookup_eq_none.2 hnodup.1, Option.elim_none, Option.elim_some,
          Function.update_self]
      · rw [List.dlookup_cons_ne _ _ heq, Function.update_of_ne heq]
  exact funext (hall cache.entries m cache.nodupKeys)

theorem foldl_commitMap (c : Crypto) (caches : List AccountMap) (m : Address → Option Contents) :
    (entriesOf caches).foldl (fun m i => Function.update m i.1 (i.2.contents c (m i.1))) m =
      caches.foldl (commitMap c) m := by
  induction caches generalizing m with
  | nil => rfl
  | cons cache caches ih =>
    rw [entriesOf, List.flatMap_cons, List.foldl_append, foldl_contents, List.foldl_cons]
    exact ih _

omit [LaxNodeDB δ] [LawfulAuxDB δ] in
theorem commits_eq (g : GenericTrieDB δ) (caches : List AccountMap) :
    commits c g caches = (entriesOf caches).foldlM (fun state i => commitAccount c state i.1 i.2) g := by
  unfold commits
  induction caches generalizing g with
  | nil => rfl
  | cons cache caches ih =>
    rw [entriesOf, List.flatMap_cons, List.foldlM_append, List.foldlM_cons]
    unfold commit
    rw [bind_assoc, bind_assoc]
    refine bind_congr fun state => ?_
    rw [pure_bind, pure_bind]
    exact ih state

/-! ## Runs -/

theorem Committed.run (hAs : (addressKeys As).InjOn c.sha3) (hSs : (slotKeys Ss).InjOn c.sha3)
    (is : List (Sigma fun _ : Address => Account)) (hfit : s.Fit c As Ss is)
    (h : Committed c As Ss N g s m C (s.acts c is ++ l)) :
    ∃ g', is.foldlM (fun state i => commitAccount c state i.1 i.2) g = .ok g' ∧
      Committed c As Ss N g' (is.foldl (Tries.after c) s)
        (is.foldl (fun m i => Function.update m i.1 (i.2.contents c (m i.1))) m)
        (C + (is.map fun i => i.2.newCode).sum) l ∧ Follows g.m_db g'.m_db := by
  induction is generalizing g s m C with
  | nil =>
    rw [List.map_nil, List.sum_nil, add_zero]
    exact ⟨g, rfl, h, .refl⟩
  | cons i is ih =>
    rw [Tries.acts, List.append_assoc] at h
    obtain ⟨g₁, hstep, h₁, hfollows₁⟩ := h.step hAs hSs hfit.1
    obtain ⟨g₂, hrun, h₂, hfollows₂⟩ := ih hfit.2 h₁
    refine ⟨g₂, ?_, ?_, hfollows₁.trans hfollows₂⟩
    · rw [List.foldlM_cons, hstep]
      exact hrun
    · rw [List.map_cons, List.sum_cons, ← add_assoc]
      exact h₂

omit [AuxDB δ] [LawfulAuxDB δ] in
/-- A state without accounts. -/
theorem Committed.start {db : δ} (c : Crypto) (As : Finset Address) (Ss : Set U256)
    (hs : Steady c N db 0 (.enter RLPNull :: l)) : Committed c As Ss N (init c db) .blank (fun _ => none) 0 l := by
  refine ⟨⟨rfl, ⟨_, hs.enter, ?_⟩, fun _ => hs.enter.nulled_of_mem (Multiset.mem_cons_self _ _)⟩, ?_, ?_,
    Multiset.notMem_zero _⟩
  · have hsum : ∑ a ∈ As, need c (Tries.blank.storage a) = 0 := Finset.sum_eq_zero fun _ _ => rfl
    rw [hsum]
    exact Multiset.zero_le _
  · exact ⟨_, Lists.empty c _, fun _ _ => rfl⟩
  · exact fun _ _ => ⟨_, Lists.empty c _, fun _ _ => rfl⟩

/-! ## Reading -/

omit [AuxDB δ] [LawfulAuxDB δ] in
theorem account_eq (h : Committed c As Ss N g s m C l) (ha : a ∈ As) :
    account c g a = .ok ((m a).map fun r => r.record c (s.storage a)) := by
  obtain ⟨f, hf, hrecords⟩ := h.records
  have hfat : Fat c (addressKeys As) N g s.state f _ _ := ⟨hf, h.afloat⟩
  have hkey : asBytes 20 a ∈ addressKeys As := ⟨a, ha, rfl⟩
  have hat := hfat.at_eq hkey
  rw [hrecords a ha] at hat
  unfold account
  rw [hat, ok_bind]
  cases hm : m a with
  | none => rfl
  | some r =>
    obtain ⟨x, hx⟩ : ∃ x, x = r.record c (s.storage a) := ⟨_, rfl⟩
    rw [Option.map_some, Option.map_some, Option.getD_some, ← hx]
    have hitem := x.isItem_encode
    have hmax : x.items.flatten.length < maxPayload := x.length_items.trans_lt (by decide)
    have hget : ∀ i e, x.items[i]? = some e → (RLP.mk x.encode).get i = .ok ⟨e⟩ :=
      fun i e he => get_encodeList x.items_items hmax he
    rw [if_neg fun h => hitem.ne_nil (List.isEmpty_iff.1 h), hitem.ofBytes, ok_bind, hget 0 _ rfl, ok_bind,
      toU256_encodeInt, ok_bind, hget 1 _ rfl, ok_bind, toU256_encodeInt, ok_bind, hget 2 _ rfl, ok_bind,
      toHash_encodeBytes (by decide), ok_bind, hget 3 _ rfl, ok_bind, toHash_encodeBytes (by decide), ok_bind]
    rfl

omit [AuxDB δ] [LawfulAuxDB δ] in
theorem storage_eq {slot : U256} (h : Committed c As Ss N g s m C (.enter RLPNull :: l)) (ha : a ∈ As)
    (hslot : slot ∈ Ss) : storage c g a slot = .ok ((m a).elim 0 fun r => r.storage slot) := by
  unfold storage
  rw [account_eq h ha, ok_bind]
  cases hm : m a with
  | none => rfl
  | some r =>
    obtain ⟨f, hf, hslots⟩ := h.slots a ha
    obtain ⟨A, hs, hle⟩ := h.afloat.steady
    rw [← Finset.add_sum_erase _ _ ha, add_assoc, add_left_comm] at hle
    obtain ⟨g₁, hopen, hg₁, -⟩ := hs.open_eq (keySet_hashed c _) hf.shows hle
    have hfat : Fat c (slotKeys Ss) N g₁ (s.storage a) f _ _ := ⟨hf, hg₁⟩
    have hkey : asBytes 32 slot ∈ slotKeys Ss := ⟨slot, hslot, rfl⟩
    have hat := hfat.at_eq hkey
    rw [hslots slot hslot, hm, Option.elim_some] at hat
    rw [Option.map_some, Option.elim_some]
    show (do
      let memdb ← GenericTrieDB.open c g.m_db (c.sha3 (encode c (s.storage a)))
      let payload ← FatGenericTrieDB.at c memdb (asBytes 32 slot)
      if payload.isEmpty then return 0
      else (← RLP.ofBytes payload RLP.VeryStrict).toU256 RLP.Strict) = _
    rw [hopen, ok_bind, hat, ok_bind]
    unfold slotValue
    by_cases hzero : r.storage slot = 0
    · rw [if_neg (not_not.2 hzero), hzero]
      rfl
    · obtain ⟨p, hitem⟩ := isItem_encodeInt_toNat (r.storage slot)
      rw [if_pos hzero, Option.getD_some, if_neg fun h => hitem.ne_nil (List.isEmpty_iff.1 h), hitem.ofBytes, ok_bind,
        toU256_encodeInt]

omit [AuxDB δ] [LawfulAuxDB δ] in
theorem code_eq {code : Bytes} (h : Committed c As Ss N g s m C l) (hcode : code ∈ C) (hne : code ≠ []) :
    NodeDB.lookup g.m_db (c.sha3 code) = code := by
  obtain ⟨A, hs, hle⟩ := h.afloat.steady
  have hmem : code ∈ A := Multiset.mem_of_le hle (Multiset.mem_add.2 (.inr (Multiset.mem_add.2 (.inr hcode))))
  exact hs.holds code hmem hne

/-- Commits of fitting caches from an empty state, of which no two keys and no two entered nodes have one hash, in a
lenient database that has room for them. -/
structure CommitRun (c : Crypto) (As : Finset Address) (Ss : Set U256) (db : δ) (caches : List AccountMap) : Prop where
  addresses : (addressKeys As).InjOn c.sha3
  slots : (slotKeys Ss).InjOn c.sha3
  fit : Tries.blank.Fit c As Ss (entriesOf caches)
  apart : Set.InjOn c.sha3 {b | .enter b ∈ commitActs c caches}
  keeps : LawfulNodeDB.Keeps db 0 (commitActs c caches).length
  lax : LaxNodeDB.Lax db
  honest : NodeDB.exists db c.EmptyTrie = true → Nulled c db

section

variable {db db' : δ} {caches caches' : List AccountMap}

theorem CommitRun.committed (h : CommitRun c As Ss db caches) : ∃ g, commits c (init c db) caches = .ok g ∧
    Committed c As Ss {b | .enter b ∈ commitActs c caches} g ((entriesOf caches).foldl (Tries.after c) .blank)
      (caches.foldl (commitMap c) fun _ => none) ((entriesOf caches).map fun i => i.2.newCode).sum
      [.enter RLPNull] ∧ Follows db g.m_db := by
  have hsteady : Steady c {b | .enter b ∈ commitActs c caches} db 0 (commitActs c caches) :=
    ⟨⟨h.apart, fun _ hb => absurd hb (Multiset.notMem_zero _), fun _ hb => hb, h.keeps⟩, h.lax, List.mem_cons_self,
      h.honest⟩
  obtain ⟨g, hrun, hg, hfollows⟩ := (Committed.start c As Ss hsteady).run h.addresses h.slots (entriesOf caches) h.fit
  rw [foldl_commitMap, zero_add] at hg
  rw [← commits_eq] at hrun
  have hinit : Follows db (init c db).m_db := .insert _ _ .refl
  exact ⟨g, hrun, hg, hinit.trans hfollows⟩

/-- After any number of commits the state has the accounts of a plain map: each account is read with its record, each
slot of its storage with its value, and the code that came with it is found under its hash. -/
theorem commits_refine (h : CommitRun c As Ss db caches) :
    ∃ g, commits c (init c db) caches = .ok g ∧
      (∀ a ∈ As, account c g a = .ok ((caches.foldl (commitMap c) (fun _ => none) a).map fun r =>
        r.record c (((entriesOf caches).foldl (Tries.after c) .blank).storage a))) ∧
      (∀ a ∈ As, ∀ slot ∈ Ss, storage c g a slot =
        .ok ((caches.foldl (commitMap c) (fun _ => none) a).elim 0 fun r => r.storage slot)) ∧
      ∀ i ∈ entriesOf caches, ∀ code ∈ i.2.newCode, code ≠ [] → NodeDB.lookup g.m_db (c.sha3 code) = code := by
  obtain ⟨g, hrun, hg, -⟩ := h.committed
  refine ⟨g, hrun, fun a ha => account_eq hg ha, fun a ha slot hslot => storage_eq hg ha hslot,
    fun i hi code hcode hne => code_eq hg ?_ hne⟩
  exact Multiset.mem_of_le (List.single_le_sum (fun _ _ => Multiset.zero_le _) _ (List.mem_map_of_mem hi)) hcode

/-- The root of the state depends on its accounts only, and not on how they came to be. -/
theorem commits_root (h : CommitRun c As Ss db caches) (h' : CommitRun c As Ss db' caches')
    (hsame : ∀ a ∈ As, caches.foldl (commitMap c) (fun _ => none) a = caches'.foldl (commitMap c) (fun _ => none) a) :
    ∃ g g', commits c (init c db) caches = .ok g ∧ commits c (init c db') caches' = .ok g' ∧ g.m_root = g'.m_root := by
  obtain ⟨g, hrun, hg, -⟩ := h.committed
  obtain ⟨g', hrun', hg', -⟩ := h'.committed
  refine ⟨g, g', hrun, hrun', ?_⟩
  obtain ⟨f, hf, hrecords⟩ := hg.records
  obtain ⟨f', hf', hrecords'⟩ := hg'.records
  have hstate := hf.eq_of_agree hf' fun key hkey => by
    obtain ⟨a, ha, rfl⟩ := hkey
    obtain ⟨fs, hfs, hslots⟩ := hg.slots a ha
    obtain ⟨fs', hfs', hslots'⟩ := hg'.slots a ha
    have hstorage := hfs.eq_of_agree hfs' fun key hkey => by
      obtain ⟨slot, hslot, rfl⟩ := hkey
      rw [hslots slot hslot, hslots' slot hslot, hsame a ha]
    rw [hrecords a ha, hrecords' a ha, hsame a ha, hstorage]
  rw [hg.afloat.root, hg'.afloat.root, hstate]

end

end

/-! ### A trial -/

/-- A contract with two slots. -/
def trialContract : Account where
  m_isAlive := true
  m_isUnchanged := false
  m_hasNewCode := true
  m_nonce := 1
  m_balance := 5
  m_storageRoot := rolling.EmptyTrie
  m_codeHash := rolling.sha3 [1, 2, 3]
  m_codeCache := [1, 2, 3]
  m_storageOverlay := ⟨[⟨7, 9⟩, ⟨8, 300⟩], by simp [List.nodupKeys_cons]⟩

/-- The contract with one slot less. -/
def trialCleared : Account :=
  { trialContract with
    m_hasNewCode := false
    m_storageRoot := rolling.sha3 (encode rolling (trialContract.stored rolling .empty))
    m_storageOverlay := ⟨[⟨7, 0⟩], by simp⟩ }

def trialPayee : Account :=
  { trialContract with
    m_hasNewCode := false
    m_codeHash := rolling.EmptySHA3
    m_codeCache := []
    m_storageOverlay := ∅ }

def trialKilled : Account := { trialPayee with m_isAlive := false }

def trialCaches : List AccountMap :=
  [⟨[⟨1, trialContract⟩, ⟨2, trialPayee⟩], by simp [List.nodupKeys_cons]⟩,
    ⟨[⟨2, trialKilled⟩, ⟨1, trialCleared⟩], by simp [List.nodupKeys_cons]⟩]

def trialAddresses : Finset Address := {1, 2}

theorem fit_trial : Tries.blank.Fit rolling trialAddresses {slot | slot ∈ [7, 8]} (entriesOf trialCaches) := by
  have hold : ¬trialPayee.m_hasNewCode := by decide
  have hdead : ¬trialKilled.m_isAlive := by decide
  exact ⟨⟨by decide, fun _ h => h, fun _ _ => by decide, fun _ => rfl⟩,
    ⟨by decide, fun _ h => absurd h List.not_mem_nil, fun _ _ => by decide, fun h => absurd h hold⟩,
    ⟨by decide, fun _ h => absurd h List.not_mem_nil, fun _ h => absurd h hdead, fun h => absurd h hold⟩,
    ⟨by decide, fun _ h => List.mem_cons.2 (.inl (List.mem_singleton.1 h)), fun _ _ => by decide +kernel,
      fun h => absurd h hold⟩, trivial⟩

theorem addresses_trial : (addressKeys trialAddresses).InjOn rolling.sha3 := by
  have hnodup : ([(1 : Address), 2].map fun a => rolling.sha3 (asBytes 20 a)).Nodup := by decide
  rintro _ ⟨a, ha, rfl⟩ _ ⟨b, hb, rfl⟩ h
  have ha' : a ∈ [(1 : Address), 2] := by simpa [trialAddresses] using ha
  have hb' : b ∈ [(1 : Address), 2] := by simpa [trialAddresses] using hb
  exact congrArg _ (List.inj_on_of_nodup_map hnodup ha' hb' h)

theorem slots_trial : (slotKeys {slot | slot ∈ [7, 8]}).InjOn rolling.sha3 := by
  have hnodup : ([(7 : U256), 8].map fun slot => rolling.sha3 (asBytes 32 slot)).Nodup := by decide
  rintro _ ⟨a, ha, rfl⟩ _ ⟨b, hb, rfl⟩ h
  exact congrArg _ (List.inj_on_of_nodup_map hnodup ha hb h)

theorem honest_trial : NodeDB.exists MemoryDB.new rolling.EmptyTrie = true → Nulled rolling MemoryDB.new := fun h => by
  have hnew : NodeDB.exists MemoryDB.new rolling.EmptyTrie = false := rfl
  exact absurd h (ne_true_of_eq_false hnew)

theorem commitRun_trial : CommitRun rolling trialAddresses {slot | slot ∈ [7, 8]} MemoryDB.new trialCaches :=
  ⟨addresses_trial, slots_trial, fit_trial, Act.injOn_iff.2 (by decide +kernel), MemoryDB.keeps_new (by decide +kernel),
    rfl, honest_trial⟩

theorem commits_refine_trial : ∃ g, commits rolling (init rolling MemoryDB.new) trialCaches = .ok g ∧
    account rolling g 2 = .ok none ∧ storage rolling g 1 7 = .ok 0 ∧ storage rolling g 1 8 = .ok 300 ∧
    NodeDB.lookup g.m_db (rolling.sha3 [1, 2, 3]) = [1, 2, 3] := by
  obtain ⟨g, hrun, haccount, hstorage, hcode⟩ := commits_refine commitRun_trial
  have hkilled : trialCaches.foldl (commitMap rolling) (fun _ => none) 2 = none :=
    Option.isNone_iff_eq_none.1 (by decide)
  have hcleared : (trialCaches.foldl (commitMap rolling) (fun _ => none) 1).elim 0 (fun r => r.storage 7) = 0 := by
    decide
  have hkept : (trialCaches.foldl (commitMap rolling) (fun _ => none) 1).elim 0 (fun r => r.storage 8) = 300 := by
    decide +kernel
  have hnew : trialContract.newCode = {[1, 2, 3]} := if_pos (by decide)
  refine ⟨g, hrun, ?_, ?_, ?_, hcode ⟨1, trialContract⟩ List.mem_cons_self [1, 2, 3] ?_ (List.cons_ne_nil _ _)⟩
  · rw [haccount 2 (by decide), hkilled]
    rfl
  · rw [hstorage 1 (by decide) 7 (by decide), hcleared]
  · rw [hstorage 1 (by decide) 8 (by decide), hkept]
  · rw [hnew]
    exact Multiset.mem_singleton_self _

/-- What the contract is in the end, in one commit. -/
def trialDirect : Account := { trialContract with m_storageOverlay := ⟨[⟨8, 300⟩], by simp⟩ }

def trialOnce : List AccountMap := [⟨[⟨1, trialDirect⟩], by simp⟩]

theorem commitRun_once : CommitRun rolling trialAddresses {slot | slot ∈ [7, 8]} MemoryDB.new trialOnce := by
  refine ⟨addresses_trial, slots_trial,
    ⟨⟨by decide, fun _ h => ?_, fun _ _ => by decide, fun _ => rfl⟩, trivial⟩,
    Act.injOn_iff.2 (by decide +kernel), MemoryDB.keeps_new (by decide +kernel), rfl, honest_trial⟩
  exact List.mem_cons_of_mem _ h

theorem contents_once : trialCaches.foldl (commitMap rolling) (fun _ => none) 1 =
    trialOnce.foldl (commitMap rolling) (fun _ => none) 1 := by
  have hroot : ¬trialCleared.m_storageRoot = rolling.EmptyTrie := by decide +kernel
  have hcleared : trialCaches.foldl (commitMap rolling) (fun _ => none) 1 = some ⟨1, 5, rolling.sha3 [1, 2, 3],
      fun slot => (trialCleared.m_storageOverlay.lookup slot).getD
        (if trialCleared.m_storageRoot = rolling.EmptyTrie then 0
          else (trialContract.m_storageOverlay.lookup slot).getD 0)⟩ := rfl
  have hdirect : trialOnce.foldl (commitMap rolling) (fun _ => none) 1 = some ⟨1, 5, rolling.sha3 [1, 2, 3],
      fun slot => (trialDirect.m_storageOverlay.lookup slot).getD 0⟩ := rfl
  rw [hcleared, hdirect]
  refine congrArg (fun f => some (Contents.mk 1 5 (rolling.sha3 [1, 2, 3]) f)) (funext fun slot => ?_)
  rw [if_neg hroot]
  by_cases h7 : slot = 7
  · subst h7
    rfl
  · by_cases h8 : slot = 8
    · subst h8
      rfl
    · have hno7 : slot ∉ trialCleared.m_storageOverlay := fun h => h7 (List.mem_singleton.1 h)
      have hno8 : slot ∉ trialDirect.m_storageOverlay := fun h => h8 (List.mem_singleton.1 h)
      have hno : slot ∉ trialContract.m_storageOverlay := fun h =>
        (List.mem_cons.1 h).elim h7 fun h => h8 (List.mem_singleton.1 h)
      rw [AList.lookup_eq_none.2 hno7, AList.lookup_eq_none.2 hno8, AList.lookup_eq_none.2 hno]
      rfl

theorem commits_root_trial : ∃ g g', commits rolling (init rolling MemoryDB.new) trialCaches = .ok g ∧
    commits rolling (init rolling MemoryDB.new) trialOnce = .ok g' ∧ g.m_root = g'.m_root := by
  refine commits_root commitRun_trial commitRun_once fun a ha => ?_
  have ha' : a = 1 ∨ a = 2 := by simpa [trialAddresses] using ha
  rcases ha' with rfl | rfl
  · exact contents_once
  · exact (Option.isNone_iff_eq_none.1 (by decide)).trans (Option.isNone_iff_eq_none.1 (by decide)).symm

end StateTrie

end Petrachor
