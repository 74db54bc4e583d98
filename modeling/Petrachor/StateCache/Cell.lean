import Mathlib.Logic.Relation
import Petrachor.StateCache

/-!
# One address at a time

All that the state holds of an address is its cell. A call other than `rollback`, `commit` and `copy`
changes cells by the edits listed here, and appends to the change log.
-/

namespace Petrachor.StateCache

/-- What the state holds of one address. -/
@[ext] structure Cell where
  record : Option Record
  entry : Option Account
  /-- The address is known to have no account. -/
  absent : Prop
  /-- The entries of the change log for the address, newest first. -/
  log : List Change

def State.cell (s : State) (a : Address) : Cell :=
  ⟨s.m_state a, s.m_cache.lookup a, a ∈ s.m_nonExistingAccountsCache,
    Keyed.entriesOf a s.m_changeLog⟩

/-- What the callers see to when they change an account. -/
structure Guard where
  /-- An account may be constructed dead. -/
  dead : Prop
  /-- An account may be changed without the change being logged as a touch. -/
  change : Account → Prop
  clear : Cell → Account → Prop
  code : Cell → Account → U256 → Prop
  kill : Prop

/-- The callers see to nothing. -/
def Guard.free (_ : Address) : Guard := ⟨True, fun _ => True, fun _ _ => True, fun _ _ _ => True, True⟩

/-- What is logged when an amount is added to the balance of an account. -/
def balanceLog (x : Account) (v : U256) : List Change :=
  (if v = 0 then [] else [.Balance v]) ++ (if !x.isDirty && x.isEmpty then [.Touch] else [])

/-- A change of one cell. -/
inductive Edit (db : CodeHash → Bytes) (G : Guard) : Cell → Cell → Prop
  | miss {c : Cell} (he : c.entry = none) (hr : c.record = none) :
    Edit db G c { c with absent := True }
  | fetch {c : Cell} {r : Record} (he : c.entry = none) (ha : ¬c.absent) (hr : c.record = some r) :
    Edit db G c { c with entry := some (Account.ofRecord r) }
  | evict {c : Cell} {x : Account} (he : c.entry = some x) (hx : x.isDirty = false) :
    Edit db G c { c with entry := none }
  | readStorage {c : Cell} {x : Account} {k : U256} (he : c.entry = some x)
      (hk : x.m_storageOverlay.lookup k = none) :
    Edit db G c { c with entry := some (x.setStorageCache k (x.m_storageRoot k)) }
  | readCode {c : Cell} {x : Account} (he : c.entry = some x) (hh : x.m_codeHash ≠ EmptySHA3)
      (hc : x.m_codeCache = []) :
    Edit db G c { c with entry := some (x.noteCode (db x.m_codeHash)) }
  | create {c : Cell} {n : U256} (he : c.entry = none) (ha : c.absent) :
    Edit db G c { c with entry := some (Account.new n 0), absent := False, log := .Create :: c.log }
  | balance {c : Cell} {x : Account} {v : U256} (he : c.entry = some x) :
    Edit db G c { c with entry := some (x.addBalance v), log := balanceLog x v ++ c.log }
  | nonce {c : Cell} {x : Account} {n : U256} (he : c.entry = some x) (hg : G.change x) :
    Edit db G c { c with entry := some (x.setNonce n), log := .Nonce x.m_nonce :: c.log }
  | dead {c : Cell} (he : c.entry = none) (hg : G.dead) :
    Edit db G c { c with entry := some Account.dead }
  | storage {c : Cell} {x : Account} {k v : U256} (he : c.entry = some x) (hg : G.change x) :
    Edit db G c { c with entry := some (x.setStorage k v), log := .Storage k (x.storage k) :: c.log }
  | clear {c : Cell} {x : Account} (he : c.entry = some x) (hr : x.m_storageRoot ≠ 0)
      (hg : G.clear c x) :
    Edit db G c { c with entry := some x.clearStorage, log := .StorageRoot x.m_storageRoot :: c.log }
  | code {c : Cell} {x : Account} {b : Bytes} {v : U256} (he : c.entry = some x)
      (hc : x.m_codeHash = EmptySHA3) (hg : G.code c x v) :
    Edit db G c { c with entry := some (x.setCode b v), log := .Code :: c.log }
  | kill {c : Cell} {x : Account} (he : c.entry = some x) (hg : G.kill) :
    Edit db G c { c with entry := some x.kill }

/-- What a call leaves of the state: the cells are edited, and the change log has grown. -/
structure Edits (G : Address → Guard) (s s' : State) : Prop where
  db : s'.m_db = s.m_db
  start : s'.m_accountStartNonce = s.m_accountStartNonce
  log : ∃ l, s'.m_changeLog = l ++ s.m_changeLog
  cell : ∀ a, Relation.ReflTransGen (Edit s.m_db (G a)) (s.cell a) (s'.cell a)

namespace Edits

variable {G : Address → Guard} {s s' s'' : State}

theorem refl (s : State) : Edits G s s := ⟨rfl, rfl, ⟨[], rfl⟩, fun _ => .refl⟩

theorem trans (h : Edits G s s') (h' : Edits G s' s'') : Edits G s s'' where
  db := h'.db.trans h.db
  start := h'.start.trans h.start
  log := by
    obtain ⟨l, hl⟩ := h.log
    obtain ⟨l', hl'⟩ := h'.log
    exact ⟨l' ++ l, by rw [hl', hl, List.append_assoc]⟩
  cell a := (h.cell a).trans (h.db ▸ h'.cell a)

/-- A change at one address. -/
theorem single {a : Address} (db : s'.m_db = s.m_db)
    (start : s'.m_accountStartNonce = s.m_accountStartNonce)
    (log : ∃ l, s'.m_changeLog = l ++ s.m_changeLog) (hne : ∀ b ≠ a, s'.cell b = s.cell b)
    (h : Edit s.m_db (G a) (s.cell a) (s'.cell a)) : Edits G s s' where
  db := db
  start := start
  log := log
  cell b := by
    by_cases hb : b = a
    · subst hb
      exact .single h
    · rw [hne b hb]

end Edits

namespace State

/-- An account written to the cache, with what is logged. -/
def write (s : State) (a : Address) (x : Account) (l : List Change) : State :=
  { s with m_cache := s.m_cache.insert a x, m_changeLog := l.map (Prod.mk a) ++ s.m_changeLog }

theorem entriesOf_map_self (a : Address) (l : List Change) (m : List (Address × Change)) :
    Keyed.entriesOf a (l.map (Prod.mk a) ++ m) = l ++ Keyed.entriesOf a m := by
  induction l with
  | nil => rfl
  | cons c l ih => rw [List.map_cons, List.cons_append, Keyed.entriesOf_cons_self, ih, List.cons_append]

theorem entriesOf_map_ne {a b : Address} (h : b ≠ a) (l : List Change) (m : List (Address × Change)) :
    Keyed.entriesOf b (l.map (Prod.mk a) ++ m) = Keyed.entriesOf b m := by
  induction l with
  | nil => rfl
  | cons c l ih => rw [List.map_cons, List.cons_append, Keyed.entriesOf_cons_ne (Ne.symm h), ih]

theorem cell_write_self (s : State) (a : Address) (x : Account) (l : List Change) :
    (s.write a x l).cell a = { s.cell a with entry := some x, log := l ++ (s.cell a).log } := by
  simp only [cell, write, AList.lookup_insert, entriesOf_map_self]

theorem cell_write_ne {a b : Address} (h : b ≠ a) (s : State) (x : Account) (l : List Change) :
    (s.write a x l).cell b = s.cell b := by
  simp only [cell, write, AList.lookup_insert_ne h, entriesOf_map_ne h]

variable {G : Address → Guard}

theorem edits_write {s : State} {a : Address} {x : Account} {l : List Change}
    (h : Edit s.m_db (G a) (s.cell a)
      { s.cell a with entry := some x, log := l ++ (s.cell a).log }) : Edits G s (s.write a x l) := by
  refine Edits.single (a := a) rfl rfl ⟨_, rfl⟩ (fun b hb => cell_write_ne hb s x l) ?_
  rw [cell_write_self]
  exact h

/-! ## What each call does -/

theorem load_cases (s : State) (a : Address) :
    (∃ x, s.m_cache.lookup a = some x ∧ s.load a = s) ∨
    (s.m_cache.lookup a = none ∧ a ∈ s.m_nonExistingAccountsCache ∧ s.load a = s) ∨
    (s.m_cache.lookup a = none ∧ a ∉ s.m_nonExistingAccountsCache ∧ s.m_state a = none ∧
      s.load a =
        { s with m_nonExistingAccountsCache := insert a s.m_nonExistingAccountsCache }) ∨
    (∃ r, s.m_cache.lookup a = none ∧ a ∉ s.m_nonExistingAccountsCache ∧ s.m_state a = some r ∧
      s.load a = s.put a (Account.ofRecord r)) := by
  unfold load
  cases hc : s.m_cache.lookup a with
  | some x => exact .inl ⟨x, rfl, rfl⟩
  | none =>
    by_cases ha : a ∈ s.m_nonExistingAccountsCache
    · simp [ha]
    · cases hr : s.m_state a with
      | none => simp [ha]
      | some r => simp [ha]

theorem edits_load (s : State) (a : Address) : Edits G s (s.load a) := by
  rcases load_cases s a with ⟨x, _, h⟩ | ⟨_, _, h⟩ | ⟨hc, ha, hr, h⟩ | ⟨r, hc, ha, hr, h⟩
  · rw [h]
    exact Edits.refl s
  · rw [h]
    exact Edits.refl s
  · rw [h]
    refine Edits.single (a := a) rfl rfl ⟨[], rfl⟩ ?_ ?_
    · intro b hb
      simp [cell, hb]
    · have hcell : cell { s with m_nonExistingAccountsCache := insert a s.m_nonExistingAccountsCache } a =
          { s.cell a with absent := True } := by
        simp [cell]
      rw [hcell]
      exact .miss hc hr
  · rw [h]
    exact edits_write (l := []) (.fetch hc ha hr)

/-- An address that has no account once it is read is known to have none. -/
theorem absent_of_load {s : State} {a : Address} (h : (s.load a).m_cache.lookup a = none) :
    a ∈ (s.load a).m_nonExistingAccountsCache := by
  rcases load_cases s a with ⟨x, hc, hl⟩ | ⟨_, ha, hl⟩ | ⟨_, _, _, hl⟩ | ⟨r, _, _, _, hl⟩
  · rw [hl, hc] at h
    cases h
  · rw [hl]
    exact ha
  · rw [hl]
    exact Finset.mem_insert_self _ _
  · rw [hl, put, AList.lookup_insert] at h
    cases h

theorem edits_evict (s : State) (a : Address) : Edits G s (s.evict a) := by
  unfold evict
  cases hc : s.m_cache.lookup a with
  | none => exact Edits.refl s
  | some x =>
    by_cases hx : x.isDirty
    · simp only [hx, if_true]
      exact Edits.refl s
    · simp only [hx]
      refine Edits.single (a := a) rfl rfl ⟨[], rfl⟩ ?_ ?_
      · intro b hb
        simp [cell, hb]
      · have hcell : cell { s with m_cache := s.m_cache.erase a } a =
            { s.cell a with entry := none } := by
          simp [cell]
        exact hcell ▸ .evict hc (by simpa using hx)

theorem edits_readStorage (s : State) (a : Address) (k : U256) : Edits G s (s.readStorage a k) := by
  refine (edits_load s a).trans ?_
  unfold readStorage
  cases hc : (s.load a).m_cache.lookup a with
  | none =>
    simp only [hc]
    exact Edits.refl _
  | some x =>
    simp only [hc]
    cases hk : x.m_storageOverlay.lookup k with
    | some v => exact Edits.refl _
    | none => exact edits_write (l := []) (.readStorage hc hk)

theorem edits_readCode (s : State) (a : Address) : Edits G s (s.readCode a) := by
  refine (edits_load s a).trans ?_
  unfold readCode
  cases hc : (s.load a).m_cache.lookup a with
  | none =>
    simp only [hc]
    exact Edits.refl _
  | some x =>
    simp only [hc]
    by_cases h : x.m_codeHash ≠ EmptySHA3 ∧ x.m_codeCache = []
    · rw [if_pos h]
      exact edits_write (l := []) (.readCode hc h.1 h.2)
    · rw [if_neg h]
      exact Edits.refl _

/-- The state once the account of an address without one is created. -/
def created (s : State) (a : Address) (x : Account) : State :=
  { s with m_cache := s.m_cache.insert a x,
           m_nonExistingAccountsCache := s.m_nonExistingAccountsCache.erase a,
           m_changeLog := (a, .Create) :: s.m_changeLog }

theorem createAccount_cases (s : State) (a : Address) (x : Account) :
    ((∃ y, (s.load a).m_cache.lookup a = some y) ∧
      s.createAccount a x = (s.load a, some .abort)) ∨
    ((s.load a).m_cache.lookup a = none ∧ s.createAccount a x = ((s.load a).created a x, none)) := by
  unfold createAccount
  cases hc : (s.load a).m_cache.lookup a with
  | some y => exact .inl ⟨⟨y, rfl⟩, by simp [hc]⟩
  | none => exact .inr ⟨rfl, by simp [hc, put, note, created]⟩

theorem edits_created {s : State} {a : Address} {n : U256} (hc : s.m_cache.lookup a = none)
    (ha : a ∈ s.m_nonExistingAccountsCache) : Edits G s (s.created a (Account.new n 0)) := by
  refine Edits.single (a := a) rfl rfl ⟨[(a, .Create)], rfl⟩ ?_ ?_
  · intro b hb
    simp only [cell, created, AList.lookup_insert_ne hb, Keyed.entriesOf_cons_ne (Ne.symm hb),
      Finset.mem_erase, ne_eq, hb, not_false_eq_true, true_and]
  · have hcell : (s.created a (Account.new n 0)).cell a =
        { s.cell a with entry := some (Account.new n 0), absent := False,
                        log := .Create :: (s.cell a).log } := by
      simp [cell, created, Keyed.entriesOf_cons_self]
    rw [hcell]
    exact .create hc ha

/-- An account created with a balance is one created without, to which the balance is added. -/
theorem edits_created_balance {s : State} {a : Address} {n v : U256}
    (hc : s.m_cache.lookup a = none) (ha : a ∈ s.m_nonExistingAccountsCache) :
    Edits G s (if v ≠ 0 then (s.created a (Account.new n v)).note a (.Balance v)
      else s.created a (Account.new n v)) := by
  have hadd : (Account.new n 0).addBalance v = Account.new n v := by
    simp [Account.new, Account.addBalance]
  have hstep : Edits G (s.created a (Account.new n 0))
      ((s.created a (Account.new n 0)).write a ((Account.new n 0).addBalance v)
        (balanceLog (Account.new n 0) v)) :=
    edits_write (.balance (by simp [cell, created]))
  have hlog : balanceLog (Account.new n 0) v = if v = 0 then [] else [.Balance v] := by
    simp [balanceLog, Account.new, Account.isDirty]
  have hs := (edits_created hc ha).trans hstep
  rw [hadd, hlog] at hs
  by_cases hv : v = 0
  · rw [if_neg (not_not.2 hv)]
    rw [if_pos hv] at hs
    simpa only [write, created, AList.insert_insert, List.map_nil, List.nil_append] using hs
  · rw [if_pos hv]
    rw [if_neg hv] at hs
    simpa only [write, created, note, AList.insert_insert, List.map_cons, List.map_nil,
      List.cons_append, List.nil_append] using hs

theorem edits_createAccount (s : State) (a : Address) (n : U256) :
    Edits G s (s.createAccount a (Account.new n 0)).1 := by
  refine (edits_load s a).trans ?_
  rcases createAccount_cases s a (Account.new n 0) with ⟨_, h⟩ | ⟨hc, h⟩
  · rw [h]
    exact Edits.refl _
  · rw [h]
    exact edits_created hc (absent_of_load hc)

theorem edits_createAtStart (s : State) (a : Address) {f : U256 → U256} :
    Edits G s (s.createAtStart a fun n => Account.new (f n) 0).1 := by
  unfold createAtStart
  split
  · exact Edits.refl s
  · exact edits_createAccount s a _

@[simp] theorem load_load (s : State) (a : Address) : (s.load a).load a = s.load a := by
  cases hc : (s.load a).m_cache.lookup a with
  | some x => rw [load, hc]
  | none => rw [load, hc, if_pos (absent_of_load hc)]

/-- The account of an address may be changed without the change being logged as a touch. -/
def Changeable (G : Address → Guard) (s : State) (a : Address) : Prop :=
  ∀ x, s.account a = some x → (G a).change x

theorem edits_setNonce {s : State} {a : Address} (h : Changeable G s a) (n : U256) :
    Edits G s (s.setNonce a n).1 := by
  refine (edits_load s a).trans ?_
  unfold setNonce
  cases hc : (s.load a).m_cache.lookup a with
  | none =>
    simp only [hc]
    exact edits_createAccount _ _ _
  | some x =>
    simp only [hc]
    exact edits_write (l := [.Nonce x.m_nonce]) (.nonce hc (h x hc))

theorem edits_incNonce {s : State} {a : Address} (h : Changeable G s a) :
    Edits G s (s.incNonce a).1 := by
  refine (edits_load s a).trans ?_
  unfold incNonce
  cases hc : (s.load a).m_cache.lookup a with
  | none =>
    simp only [hc]
    exact edits_createAtStart _ _
  | some x =>
    simp only [hc]
    exact edits_write (l := [.Nonce x.m_nonce]) (.nonce hc (h x hc))

theorem addBalance_eq_write {s : State} {a : Address} {x : Account}
    (hc : (s.load a).m_cache.lookup a = some x) (v : U256) :
    s.addBalance a v = ((s.load a).write a (x.addBalance v) (balanceLog x v), none) := by
  simp only [addBalance, hc, balanceLog]
  by_cases ht : (!x.isDirty && x.isEmpty) = true
  · by_cases hv : v = 0
    · rw [if_neg (fun h => h.2 hv), if_pos hv, if_pos ht, if_pos ht]
      rfl
    · rw [if_pos ⟨rfl, hv⟩, if_neg hv, if_pos ht, if_pos ht]
      rfl
  · by_cases hv : v = 0
    · rw [if_neg (fun h => h.2 hv), if_pos hv, if_neg ht, if_neg ht]
      rfl
    · rw [if_pos ⟨rfl, hv⟩, if_neg hv, if_neg ht, if_neg ht]
      rfl

theorem edits_addBalance (s : State) (a : Address) (v : U256) : Edits G s (s.addBalance a v).1 := by
  refine (edits_load s a).trans ?_
  cases hc : (s.load a).m_cache.lookup a with
  | some x =>
    rw [addBalance_eq_write hc]
    exact edits_write (.balance hc)
  | none =>
    simp only [addBalance, hc, createAtStart]
    split
    · simp only [Option.isNone_some, Bool.false_eq_true, false_and, if_false]
      exact Edits.refl _
    · rcases createAccount_cases (s.load a) a (Account.new (s.load a).m_accountStartNonce v) with
        ⟨⟨y, hy⟩, _⟩ | ⟨_, h⟩
      · rw [load_load, hc] at hy
        cases hy
      · rw [h, load_load]
        have hb := edits_created_balance (G := G) (n := (s.load a).m_accountStartNonce) (v := v) hc
          (absent_of_load hc)
        by_cases hv : v = 0
        · rw [if_neg (not_not.2 hv)] at hb
          rw [if_neg (fun h => h.2 hv)]
          exact hb
        · rw [if_pos hv] at hb
          rw [if_pos ⟨rfl, hv⟩]
          exact hb

theorem edits_subBalance (s : State) (a : Address) (v : U256) : Edits G s (s.subBalance a v).1 := by
  unfold subBalance
  split
  · exact Edits.refl s
  · refine (edits_load s a).trans ?_
    cases hc : (s.load a).m_cache.lookup a with
    | none =>
      simp only [hc]
      exact Edits.refl _
    | some x =>
      simp only [hc]
      split
      · exact Edits.refl _
      · exact edits_addBalance _ _ _

theorem edits_transferBalance (s : State) (a b : Address) (v : U256) :
    Edits G s (s.transferBalance a b v).1 := by
  refine (edits_subBalance s a v).trans ?_
  unfold transferBalance
  by_cases h : (s.subBalance a v).2.isNone
  · simp only [h, if_true]
    exact edits_addBalance _ _ _
  · simp only [h]
    exact Edits.refl _

theorem edits_cached {s : State} {a : Address} (h : (s.m_cache.lookup a).isSome ∨ (G a).dead) :
    Edits G s (s.put a (s.cached a)) ∧ (s.put a (s.cached a)).m_cache.lookup a = some (s.cached a) := by
  refine ⟨?_, by simp [put]⟩
  cases hc : s.m_cache.lookup a with
  | none =>
    have hd : (G a).dead := by simpa [hc] using h
    have hcached : s.cached a = Account.dead := by simp [cached, hc]
    rw [hcached]
    exact edits_write (l := []) (.dead hc hd)
  | some x =>
    have hcell : ∀ b, (s.put a (s.cached a)).cell b = s.cell b := by
      intro b
      by_cases hb : b = a
      · subst hb
        simp [cell, put, cached, hc]
      · simp [cell, put, hb]
    exact ⟨rfl, rfl, ⟨[], rfl⟩, fun b => by rw [hcell b]⟩

/-- Writing to the account that `m_cache[a]` gives. -/
theorem edits_write_cached {s : State} {a : Address} {x : Account} {l : List Change}
    (hd : (s.m_cache.lookup a).isSome ∨ (G a).dead)
    (h : Edit s.m_db (G a) { s.cell a with entry := some (s.cached a) }
      { s.cell a with entry := some x, log := l ++ (s.cell a).log }) : Edits G s (s.write a x l) := by
  obtain ⟨hput, _⟩ := edits_cached hd
  have hcell : (s.put a (s.cached a)).cell a = { s.cell a with entry := some (s.cached a) } := by
    simp [cell, put]
  have hw : Edits G (s.put a (s.cached a)) ((s.put a (s.cached a)).write a x l) := by
    apply edits_write
    rw [hcell]
    exact h
  have heq : (s.put a (s.cached a)).write a x l = s.write a x l := by
    simp only [write, put, AList.insert_insert]
  exact heq ▸ hput.trans hw

/-- The slot that is read first goes to the overlay entry that is then written. -/
theorem setStorage_eq_write (s : State) (a : Address) (k v : U256) :
    s.setStorage a k v = (s.load a).write a (((s.load a).cached a).setStorage k v)
      [.Storage k (((s.load a).cached a).storage k)] := by
  cases hc : (s.load a).m_cache.lookup a with
  | none =>
    have hcached : (s.load a).cached a = Account.dead := by simp [cached, hc]
    have hread : s.readStorage a k = s.load a := by simp only [readStorage, hc]
    have hold : s.storage a k = Account.dead.storage k := by
      simp [storage, account, hc, Account.storage, Account.dead]
    rw [setStorage, hread, hold]
    simp only [write, put, note, cached, hc, Option.getD_none]
    rfl
  | some x =>
    have hcached : (s.load a).cached a = x := by simp [cached, hc]
    have hold : s.storage a k = x.storage k := by simp [storage, account, hc]
    rw [setStorage, hold, hcached]
    cases hk : x.m_storageOverlay.lookup k with
    | some w =>
      have hread : s.readStorage a k = s.load a := by simp only [readStorage, hc, hk]
      rw [hread]
      simp only [write, put, note, cached, hc, Option.getD_some]
      rfl
    | none =>
      have hread : s.readStorage a k =
          (s.load a).put a (x.setStorageCache k (x.m_storageRoot k)) := by
        simp only [readStorage, hc, hk]
      rw [hread]
      simp only [write, put, note, cached, AList.lookup_insert, Option.getD_some, Account.setStorage,
        Account.setStorageCache, AList.insert_insert]
      rfl

theorem edits_setStorage {s : State} {a : Address} (h : Changeable G s a)
    (hd : (s.account a).isSome ∨ (G a).dead ∧ (G a).change Account.dead) (k v : U256) :
    Edits G s (s.setStorage a k v) := by
  refine (edits_load s a).trans ?_
  rw [setStorage_eq_write]
  have hchange : (G a).change ((s.load a).cached a) := by
    cases hc : (s.load a).m_cache.lookup a with
    | some x => simpa [cached, hc] using h x hc
    | none =>
      rcases hd with hd | hd
      · simp [account, hc] at hd
      · simpa [cached, hc] using hd.2
  refine edits_write_cached (hd.imp_right And.left) ?_
  exact .storage (c := { (s.load a).cell a with entry := some ((s.load a).cached a) }) rfl hchange

theorem edits_clearStorage {s : State} {a : Address} (hd : (s.m_cache.lookup a).isSome ∨ (G a).dead)
    (hg : ∀ x, s.m_cache.lookup a = some x → x.m_storageRoot ≠ 0 → (G a).clear (s.cell a) x) :
    Edits G s (s.clearStorage a) := by
  unfold clearStorage
  by_cases hr : (s.cached a).m_storageRoot = 0
  · simp only [hr, if_true]
    exact (edits_cached hd).1
  · simp only [hr, if_false]
    obtain ⟨x, hx⟩ : ∃ x, s.m_cache.lookup a = some x := by
      cases hc : s.m_cache.lookup a with
      | some x => exact ⟨x, rfl⟩
      | none =>
        rw [cached, hc] at hr
        exact absurd rfl hr
    have hcached : s.cached a = x := by simp [cached, hx]
    rw [hcached] at hr ⊢
    exact edits_write (l := [.StorageRoot x.m_storageRoot]) (.clear hx hr (hg x hx hr))

@[simp] theorem cached_note (s : State) (a b : Address) (c : Change) :
    (s.note b c).cached a = s.cached a := rfl

theorem edits_setCode {s : State} {a : Address} {v : U256}
    (hd : (s.account a).isSome ∨ (G a).dead ∧ ∀ c, (G a).code c Account.dead v)
    (hg : ∀ x, s.account a = some x → (G a).code ((s.load a).cell a) x v) (b : Bytes) :
    Edits G s (s.setCode a b v).1 := by
  refine (edits_load s a).trans ?_
  unfold setCode
  by_cases hcode : s.addressHasCode a
  · simp only [hcode, if_true]
    exact Edits.refl _
  · simp only [hcode, Bool.false_eq_true, if_false, cached_note]
    refine edits_write_cached (l := [.Code]) (hd.imp_right And.left) ?_
    refine .code (c := { (s.load a).cell a with entry := some ((s.load a).cached a) }) rfl ?_ ?_
    · cases hc : (s.load a).m_cache.lookup a with
      | some x => simpa [cached, hc, addressHasCode, codeHash, account] using hcode
      | none => simp [cached, hc, Account.dead]
    · cases hc : (s.load a).m_cache.lookup a with
      | some x =>
        have hx := hg x hc
        have hcell : { (s.load a).cell a with entry := some ((s.load a).cached a) } =
            (s.load a).cell a := by
          simp [cell, cached, hc]
        rw [hcell]
        simpa [cached, hc] using hx
      | none =>
        rcases hd with hd | hd
        · simp [account, hc] at hd
        · simpa [cached, hc] using hd.2 _

theorem edits_kill {s : State} {a : Address} (hg : (G a).kill) : Edits G s (s.kill a) := by
  refine (edits_load s a).trans ?_
  unfold kill
  cases hc : (s.load a).m_cache.lookup a with
  | none =>
    simp only [hc]
    exact Edits.refl _
  | some x =>
    simp only [hc]
    exact edits_write (l := []) (.kill hc hg)

theorem edits_setBalance (s : State) (a : Address) (v : U256) : Edits G s (s.setBalance a v).1 :=
  (edits_load s a).trans (edits_addBalance _ _ _)

end State

/-- What a guard asks of a call in the state it is made in. The calls that are not edits are left
out. -/
def Op.Meets (G : Address → Guard) (s : State) : Op → Prop
  | .incNonce a | .setNonce a _ => s.Changeable G a
  | .setStorage a _ _ =>
    s.Changeable G a ∧ ((s.account a).isSome ∨ (G a).dead ∧ (G a).change Account.dead)
  | .clearStorage a =>
    ((s.m_cache.lookup a).isSome ∨ (G a).dead) ∧
      ∀ x, s.m_cache.lookup a = some x → x.m_storageRoot ≠ 0 → (G a).clear (s.cell a) x
  | .setCode a _ v =>
    ((s.account a).isSome ∨ (G a).dead ∧ ∀ c, (G a).code c Account.dead v) ∧
      ∀ x, s.account a = some x → (G a).code ((s.load a).cell a) x v
  | .kill a => (G a).kill
  | .rollback _ | .commit _ | .copy => False
  | _ => True

theorem State.edits_step {G : Address → Guard} {s : State} {op : Op} (h : op.Meets G s) :
    Edits G s (s.step op) := by
  cases op with
  | read a => exact edits_load s a
  | readStorage a k => exact edits_readStorage s a k
  | readCode a => exact edits_readCode s a
  | evict a => exact edits_evict s a
  | incNonce a => exact edits_incNonce h
  | setNonce a n => exact edits_setNonce h n
  | addBalance a v => exact edits_addBalance s a v
  | subBalance a v => exact edits_subBalance s a v
  | transferBalance a b v => exact edits_transferBalance s a b v
  | setBalance a v => exact edits_setBalance s a v
  | createContract a => exact edits_createAtStart s a
  | setCode a c v => exact edits_setCode h.1 h.2 c
  | setStorage a k v => exact edits_setStorage h.1 h.2 k v
  | clearStorage a => exact edits_clearStorage h.1 h.2
  | kill a => exact edits_kill h
  | rollback n => exact h.elim
  | commit b => exact h.elim
  | copy => exact h.elim

/-- A property of cells that every edit keeps is kept by a call. -/
theorem Edits.invariant {G : Address → Guard} {s s' : State} (h : Edits G s s') {a : Address} {P : Cell → Prop}
    (hP : ∀ c c', Edit s.m_db (G a) c c' → P c → P c') (ha : P (s.cell a)) : P (s'.cell a) := by
  have hc := h.cell a
  generalize s'.cell a = c' at hc ⊢
  induction hc with
  | refl => exact ha
  | tail _ hstep ih => exact hP _ _ hstep ih

end Petrachor.StateCache
