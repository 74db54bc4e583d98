import Petrachor.StateCache.Invariant

/-!
# What a commit keeps

A commit writes the changed accounts to the trie and drops the cache, so afterwards the accounts are
what the trie gives back: without their version, without what dead accounts hold, and without what
became of an account that does not count as changed.
-/

namespace Petrachor.StateCache

/-- All that a state answers about an address. An account that is dead does not exist. -/
@[ext] structure Answers where
  existing : Bool
  balance : U256
  nonce : U256
  code : Bytes
  codeHash : CodeHash
  version : U256
  storage : U256 → U256

namespace State

def answers (s : State) (a : Address) : Answers :=
  ⟨(s.account a).elim false Account.m_isAlive, s.balance a, s.getNonce a, s.code a, s.codeHash a,
    s.version a, s.storage a⟩

/-- The answers about an address without an account. -/
def noAccount (s : State) : Answers :=
  ⟨false, 0, s.m_accountStartNonce, [], EmptySHA3, 0, fun _ => 0⟩

/-- The address has a changed account that is empty. -/
def hasDirtyEmpty (s : State) (a : Address) : Bool :=
  (s.m_cache.lookup a).elim false fun x => x.isDirty && x.isEmpty

/-- Every answer is the same after a commit, from the state and from a fresh one at its root, only
that a commit which removes empty accounts makes the changed empty accounts non-existent. -/
def CommitFaithful (s : State) : Prop :=
  ∀ a, (s.commit .KeepEmptyAccounts).answers a = s.answers a ∧
    (s.commit .KeepEmptyAccounts).reopened.answers a = s.answers a ∧
    (s.commit .RemoveEmptyAccounts).answers a =
      (if s.hasDirtyEmpty a then s.noAccount else s.answers a) ∧
    (s.commit .RemoveEmptyAccounts).reopened.answers a =
      if s.hasDirtyEmpty a then s.noAccount else s.answers a

end State

namespace Account

/-- The account answers as one that does not exist. -/
structure Blank (startNonce : U256) (x : Account) : Prop where
  balance : x.m_balance = 0
  nonce : x.m_nonce = startNonce
  codeHash : x.m_codeHash = EmptySHA3
  storage : ∀ k, x.storage k = 0

/-- A commit loses nothing of the account, given the record that the trie has of it. -/
def Lasting (startNonce : U256) (o : Option Record) (x : Account) : Prop :=
  x.m_version = 0 ∧
    if x.isDirty then x.m_isAlive = true ∨ x.Blank startNonce
    else x.m_isAlive = true ∧ ∃ r, o = some r ∧ x.m_codeHash = r.codeHash

/-- What is answered about an account whose code is at hand. -/
def answers (x : Account) : Answers :=
  ⟨x.m_isAlive, x.m_balance, x.m_nonce, x.m_codeHash, x.m_codeHash, x.m_version, x.storage⟩

/-- Writing the overlay to the storage trie, slot by slot. -/
def slots : Keyed.Store Storage U256 U256 U256 where
  get r k := r k
  act r k v := r.update k v
  cell v _ := v
  get_act_self r k v := by simp
  get_act_ne r k v j hj := by simp [hj]

@[simp] theorem flush_apply (x : Account) (k : U256) : x.flush k = x.storage k := by
  have h := Keyed.get_writeBack slots x.m_storageRoot x.m_storageOverlay k
  have hflush : x.flush = Keyed.writeBack slots x.m_storageRoot x.m_storageOverlay := by
    rw [flush, AList.foldl, Keyed.writeBack, Keyed.Store.actAll, List.foldl_map]
    rfl
  rw [hflush]
  refine h.trans ?_
  unfold storage
  cases x.m_storageOverlay.lookup k <;> rfl

@[simp] theorem storage_ofRecord (r : Record) (k : U256) : (ofRecord r).storage k = r.storageRoot k := by
  simp [storage, ofRecord]

theorem answers_ofRecord (r : Record) :
    (ofRecord r).answers = ⟨true, r.balance, r.nonce, r.codeHash, r.codeHash, 0, r.storageRoot⟩ := by
  ext1
  case storage =>
    funext k
    exact storage_ofRecord r k
  all_goals rfl

/-- The storage of an account that agrees with the trie is that of the trie. -/
theorem Agrees.storage_eq {x : Account} {r : Record} (h : x.Agrees r) (k : U256) :
    x.storage k = r.storageRoot k := by
  unfold storage
  cases hk : x.m_storageOverlay.lookup k with
  | none =>
    rw [Option.getD_none, h.root]
  | some v =>
    rw [Option.getD_some]
    exact h.overlay k v hk

end Account

/-- The account of an address: what is cached, or what the trie has. -/
def Cell.account (c : Cell) : Option Account := c.entry.or (c.record.map Account.ofRecord)

namespace State

variable {s : State} {a : Address}

theorem account_eq (hs : s.Inv) (a : Address) : s.account a = (s.cell a).account := by
  unfold account Cell.account
  rcases load_cases s a with ⟨x, hc, hl⟩ | ⟨hc, ha, hl⟩ | ⟨hc, _, hr, hl⟩ | ⟨r, hc, _, hr, hl⟩
  · rw [hl]
    simp [cell, hc]
  · have hr : s.m_state a = none := ((hs a).absent ha).1
    rw [hl]
    simp [cell, hc, hr]
  · rw [hl]
    simp [cell, hc, hr]
  · rw [hl]
    simp [cell, hc, hr, put]

theorem codeOk_account (hs : s.Inv) {x : Account} (hx : (s.cell a).account = some x) :
    x.CodeOk s.m_db := by
  unfold Cell.account at hx
  cases he : (s.cell a).entry with
  | some y =>
    rw [he, Option.some_or] at hx
    cases hx
    exact (hs a).code x he
  | none =>
    rw [he, Option.none_or, Option.map_eq_some_iff] at hx
    obtain ⟨r, hr, rfl⟩ := hx
    exact .ofRecord ((hs a).known r hr)

theorem answers_eq (hs : s.Inv) (a : Address) :
    s.answers a = ((s.cell a).account).elim s.noAccount Account.answers := by
  have hacc := account_eq hs a
  cases hc : (s.cell a).account with
  | none =>
    rw [hc] at hacc
    simp only [answers, balance, getNonce, code, codeHash, version, hacc, Option.elim_none, noAccount]
    congr 1
    funext k
    simp only [storage, hacc, Option.elim_none]
  | some x =>
    rw [hc] at hacc
    have hcode := (codeOk_account hs hc).code_eq
    simp only [answers, balance, getNonce, code, codeHash, version, hacc, Option.elim_some,
      Account.answers, hcode]
    congr 1
    funext k
    simp only [storage, hacc, Option.elim_some]

/-- A state without cached accounts answers as a fresh one. -/
theorem answers_reopened (hs : s.Inv) (hc : s.m_cache = ∅) (a : Address) :
    s.reopened.answers a = s.answers a := by
  have hr : s.reopened.Inv := .opened fun b r hr => (hs b).known r hr
  rw [answers_eq hr, answers_eq hs]
  simp only [Cell.account, cell, reopened, opened, hc]
  rfl

/-- The account that an address has after a commit. -/
theorem account_commit_keep (s : State) (a : Address) :
    ((s.commit .KeepEmptyAccounts).cell a).account =
      ((s.m_cache.lookup a).elim (s.m_state a) fun x => written x (s.m_state a)).map
        Account.ofRecord := by
  rw [← m_state_commit_keep]
  rfl

theorem account_commit_remove (s : State) (a : Address) :
    ((s.commit .RemoveEmptyAccounts).cell a).account =
      if s.hasDirtyEmpty a then none else ((s.commit .KeepEmptyAccounts).cell a).account := by
  rw [commit_remove, account_commit_keep, account_commit_keep, lookup_removeEmptyAccounts]
  cases hc : s.m_cache.lookup a with
  | none =>
    have hd : s.hasDirtyEmpty a = false := by simp [hasDirtyEmpty, hc]
    rw [hd, if_neg Bool.false_ne_true]
    rfl
  | some x =>
    have hd : s.hasDirtyEmpty a = (x.isDirty && x.isEmpty) := by simp [hasDirtyEmpty, hc]
    rw [hd, Option.map_some, Option.elim_some, Option.elim_some, killIfEmpty]
    by_cases hx : (x.isDirty && x.isEmpty) = true
    · rw [if_pos hx, if_pos hx]
      rfl
    · rw [if_neg hx, if_neg hx]
      rfl

/-- What is answered about a changed account once it is written back. -/
theorem written_dirty_iff {x : Account} {o : Option Record} (hd : x.isDirty = true) :
    ((written x o).map Account.ofRecord).elim s.noAccount Account.answers = x.answers ↔
      x.Lasting s.m_accountStartNonce o := by
  unfold written Account.Lasting
  rw [if_pos hd, if_pos hd]
  cases ha : x.m_isAlive with
  | true =>
    have hst : (x.toRecord.storageRoot : U256 → U256) = x.storage := funext x.flush_apply
    rw [if_pos rfl, Option.map_some, Option.elim_some, Account.answers_ofRecord, hst]
    constructor
    · intro h
      exact ⟨(congrArg Answers.version h).symm, .inl rfl⟩
    · intro h
      rw [Account.answers, ha, h.1]
      rfl
  | false =>
    rw [if_neg Bool.false_ne_true, Option.map_none, Option.elim_none]
    constructor
    · intro h
      refine ⟨(congrArg Answers.version h).symm, .inr ⟨(congrArg Answers.balance h).symm,
        (congrArg Answers.nonce h).symm, (congrArg Answers.codeHash h).symm, fun k => ?_⟩⟩
      exact (congrFun (congrArg Answers.storage h) k).symm
    · rintro ⟨hv, h⟩
      have hb := h.resolve_left Bool.false_ne_true
      have hst : x.storage = fun _ => 0 := funext hb.storage
      rw [Account.answers, ha, hb.balance, hb.nonce, hb.codeHash, hv, hst]
      rfl

/-- What is answered about an unchanged account once it is read from the trie again. -/
theorem written_clean_iff {x : Account} {o : Option Record} (hd : x.isDirty = false)
    (hc : x.Clean o) :
    ((written x o).map Account.ofRecord).elim s.noAccount Account.answers = x.answers ↔
      x.Lasting s.m_accountStartNonce o := by
  obtain ⟨r, rfl, hagree⟩ := hc
  have hnd : ¬x.isDirty = true := by rw [hd]; exact Bool.false_ne_true
  unfold written Account.Lasting
  rw [if_neg hnd, if_neg hnd, Option.map_some, Option.elim_some, Account.answers_ofRecord]
  constructor
  · intro h
    exact ⟨(congrArg Answers.version h).symm, (congrArg Answers.existing h).symm, r, rfl,
      (congrArg Answers.codeHash h).symm⟩
  · rintro ⟨hv, ha, r', hr, hh⟩
    cases hr
    have hag := hagree ha
    have hst : x.storage = r.storageRoot := funext hag.storage_eq
    rw [Account.answers, ha, hag.balance, hag.nonce, hh, hv, hst]

/-- Which accounts are answered the same after a commit. -/
theorem answers_commit_iff (hs : s.Inv) (a : Address) :
    (s.commit .KeepEmptyAccounts).answers a = s.answers a ↔
      ∀ x, s.m_cache.lookup a = some x → x.Lasting s.m_accountStartNonce (s.m_state a) := by
  have hstart : (s.commit .KeepEmptyAccounts).noAccount = s.noAccount := rfl
  rw [answers_eq hs.commit_keep, answers_eq hs, account_commit_keep, hstart]
  cases hc : s.m_cache.lookup a with
  | none =>
    have hacc : (s.cell a).account = (s.m_state a).map Account.ofRecord := by
      simp [Cell.account, cell, hc]
    rw [hacc]
    exact ⟨fun _ x hx => (by cases hx), fun _ => rfl⟩
  | some x =>
    have hacc : (s.cell a).account = some x := by simp [Cell.account, cell, hc]
    have hiff : ((written x (s.m_state a)).map Account.ofRecord).elim s.noAccount Account.answers =
        x.answers ↔ x.Lasting s.m_accountStartNonce (s.m_state a) := by
      cases hd : x.isDirty with
      | true => exact written_dirty_iff hd
      | false => exact written_clean_iff hd ((hs a).clean x hc hd)
    rw [hacc]
    refine hiff.trans ⟨fun h y hy => ?_, fun h => h x rfl⟩
    cases hy
    exact h

/-- The removal of empty accounts changes what is answered about changed empty accounts only. -/
theorem answers_commit_remove (hs : s.Inv) (a : Address) :
    (s.commit .RemoveEmptyAccounts).answers a =
      if s.hasDirtyEmpty a then s.noAccount else (s.commit .KeepEmptyAccounts).answers a := by
  have hstart : (s.commit .RemoveEmptyAccounts).noAccount = s.noAccount := rfl
  have hstart' : (s.commit .KeepEmptyAccounts).noAccount = s.noAccount := rfl
  rw [answers_eq (hs.commit .RemoveEmptyAccounts), answers_eq hs.commit_keep, account_commit_remove,
    hstart, hstart']
  split <;> rfl

/-- A commit keeps every answer exactly if every account of the cache has version zero, a dead one
holds nothing and is counted as changed, and an unchanged one has the code hash of the trie. -/
theorem commit_faithful_iff (h : s.Reachable) :
    s.CommitFaithful ↔
      ∀ a x, s.m_cache.lookup a = some x → x.Lasting s.m_accountStartNonce (s.m_state a) := by
  have hs := h.inv
  constructor
  · intro hf a
    exact (answers_commit_iff hs a).1 (hf a).1
  · intro hl a
    have hkeep := (answers_commit_iff hs a).2 (hl a)
    refine ⟨hkeep, ?_, ?_, ?_⟩
    · rw [answers_reopened hs.commit_keep rfl, hkeep]
    · rw [answers_commit_remove hs, hkeep]
    · rw [answers_reopened (hs.commit _) rfl, answers_commit_remove hs, hkeep]

/-- A contract deployed with a version on an empty state. -/
def deployed (version : U256) : State :=
  StateRun.run step (opened (fun _ => none) (fun _ => []) 0)
    [.createContract 1, .setCode 1 [0] version]

theorem reachable_deployed (version : U256) : (deployed version).Reachable :=
  ⟨_, _, _, _, fun _ _ h => (by cases h), rfl⟩

theorem m_cache_deployed (version : U256) :
    (deployed version).m_cache = AList.singleton 1 ((Account.new 0 0).setCode [0] version) := rfl

/-- With version zero the contract is kept. -/
theorem commit_faithful_deployed : (deployed 0).Reachable ∧ (deployed 0).CommitFaithful := by
  refine ⟨reachable_deployed 0, (commit_faithful_iff (reachable_deployed 0)).2 ?_⟩
  intro a x hx
  have hmem := AList.mem_lookup_iff.1 hx
  rw [m_cache_deployed, AList.singleton_entries, List.mem_singleton] at hmem
  cases hmem
  exact ⟨rfl, .inl rfl⟩

/-- With version one it is not: the version is gone after the commit. -/
theorem commit_loses_version : (deployed 1).Reachable ∧ ¬(deployed 1).CommitFaithful := by
  refine ⟨reachable_deployed 1, fun h => ?_⟩
  have hv := congrArg Answers.version (h 1).1
  revert hv
  decide

end State

end Petrachor.StateCache
