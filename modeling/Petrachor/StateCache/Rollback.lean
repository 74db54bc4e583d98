import Petrachor.StateCache.Cell

/-!
# Rollback and commit, one address at a time
-/

namespace Petrachor.StateCache

/-- Undoes one entry of the change log on the account in the cache, if there is one. -/
def Change.undo (c : Change) (e : Option Account) : Option Account :=
  let x := e.getD Account.dead
  match c with
  | .Storage k v => some (x.setStorage k v)
  | .StorageRoot r => some (x.setStorageRoot r)
  | .Balance v => some (x.addBalance (0 - v))
  | .Nonce n => some (x.setNonce n)
  | .Create => none
  | .Code => some x.resetCode
  | .Touch => some x.untouch

/-- The accounts of the cache, as the change log is undone. -/
def undoStore : Keyed.Store State (Option Account) Address Change where
  get s a := s.m_cache.lookup a
  act := State.undo
  cell := Change.undo
  get_act_self s a c := by
    cases c <;> simp [State.undo, Change.undo, State.put, State.cached]
  get_act_ne s a c b hb := by
    cases c <;> simp [State.undo, State.put, hb]

/-- Undoes the entries of the log for one address, the newest first. -/
abbrev undoAll (e : Option Account) (l : List Change) : Option Account := undoStore.cellAll e l

theorem undoAll_append (e : Option Account) (l m : List Change) :
    undoAll e (l ++ m) = undoAll (undoAll e l) m := undoStore.cellAll_append e l m

namespace State

theorem actAll_eq (s : State) (l : List (Address × Change)) :
    ∃ m, undoStore.actAll s l = { s with m_cache := m } := by
  induction l generalizing s with
  | nil => exact ⟨s.m_cache, rfl⟩
  | cons e l ih =>
    obtain ⟨m, hm⟩ := ih (s.undo e.1 e.2)
    refine ⟨m, ?_⟩
    change undoStore.actAll (s.undo e.1 e.2) l = _
    rw [hm]
    obtain ⟨a, c⟩ := e
    cases c <;> rfl

theorem rollbackLoop_eq (m : List (Address × Change)) :
    ∀ (l : List (Address × Change)) (s : State),
      rollbackLoop m.length s (l ++ m) = { undoStore.actAll s l with m_changeLog := m }
  | [], s => by
    cases m with
    | nil => rfl
    | cons e m =>
      rw [List.nil_append, rollbackLoop, if_pos rfl]
      rfl
  | e :: l, s => by
    have hlen : (e :: (l ++ m)).length ≠ m.length := by
      rw [List.length_cons, List.length_append]
      omega
    rw [List.cons_append, rollbackLoop, if_neg hlen, rollbackLoop_eq m l]
    rfl

/-- A rollback undoes the entries newer than the savepoint. -/
theorem rollback_eq {s : State} {l m : List (Address × Change)} (h : s.m_changeLog = l ++ m) :
    s.rollback m.length = { undoStore.actAll s l with m_changeLog := m } := by
  rw [rollback, h, rollbackLoop_eq]

theorem cell_rollback {s : State} {l m : List (Address × Change)} (h : s.m_changeLog = l ++ m)
    (a : Address) :
    (s.rollback m.length).cell a =
      { s.cell a with entry := undoAll (s.cell a).entry (Keyed.entriesOf a l),
                      log := Keyed.entriesOf a m } := by
  obtain ⟨c, hc⟩ := actAll_eq s l
  have hget : c.lookup a = undoAll (s.m_cache.lookup a) (Keyed.entriesOf a l) := by
    have := undoStore.get_actAll s l a
    rwa [hc] at this
  rw [rollback_eq h, hc]
  simp only [cell, hget]

theorem rollback_frame {s : State} {l m : List (Address × Change)} (h : s.m_changeLog = l ++ m) :
    (s.rollback m.length).m_db = s.m_db ∧
      (s.rollback m.length).m_state = s.m_state ∧
      (s.rollback m.length).m_accountStartNonce = s.m_accountStartNonce ∧
      (s.rollback m.length).m_changeLog = m := by
  obtain ⟨c, hc⟩ := actAll_eq s l
  rw [rollback_eq h, hc]
  exact ⟨rfl, rfl, rfl, rfl⟩

/-! ## Commit -/

/-- The record of an address after its account is written back. -/
def written (x : Account) (r : Option Record) : Option Record :=
  if x.isDirty then if x.m_isAlive then some x.toRecord else none else r

/-- The state trie, as accounts of the cache are written to it. -/
def trieStore : Keyed.Store ((Address → Option Record) × (CodeHash → Bytes)) (Option Record) Address
    Account where
  get t a := t.1 a
  act := commitAccount
  cell := written
  get_act_self t a x := by
    unfold commitAccount written
    cases x.isDirty <;> cases x.m_isAlive <;> simp
  get_act_ne t a x b hb := by
    unfold commitAccount
    cases x.isDirty <;> cases x.m_isAlive <;> simp [hb]

theorem foldl_commitAccount (t : (Address → Option Record) × (CodeHash → Bytes))
    (m : AList (fun _ : Address => Account)) :
    m.foldl commitAccount t = Keyed.writeBack trieStore t m := by
  rw [AList.foldl, Keyed.writeBack, Keyed.Store.actAll, List.foldl_map]
  rfl

/-- The trie after a commit that keeps empty accounts. -/
theorem m_state_commit_keep (s : State) (a : Address) :
    (s.commit .KeepEmptyAccounts).m_state a =
      (s.m_cache.lookup a).elim (s.m_state a) (fun x => written x (s.m_state a)) := by
  have h := Keyed.get_writeBack trieStore (s.m_state, s.m_db) s.m_cache a
  rw [← foldl_commitAccount] at h
  exact h

/-- Removing empty accounts comes first. -/
theorem commit_remove (s : State) :
    s.commit .RemoveEmptyAccounts = s.removeEmptyAccounts.commit .KeepEmptyAccounts := rfl

/-- An account after the removal of the dirty empty ones. -/
def killIfEmpty (x : Account) : Account := if x.isDirty && x.isEmpty then x.kill else x

theorem lookup_removeEmptyAccounts (s : State) (a : Address) :
    s.removeEmptyAccounts.m_cache.lookup a = (s.m_cache.lookup a).map killIfEmpty :=
  Keyed.lookup_mapValues _ _ _

theorem m_state_commit_remove (s : State) (a : Address) :
    (s.commit .RemoveEmptyAccounts).m_state a =
      (s.m_cache.lookup a).elim (s.m_state a) (fun x => written (killIfEmpty x) (s.m_state a)) := by
  rw [commit_remove, m_state_commit_keep, lookup_removeEmptyAccounts]
  cases s.m_cache.lookup a <;> rfl

end State

end Petrachor.StateCache
