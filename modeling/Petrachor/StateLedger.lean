import Mathlib.Data.FinEnum
import Petrachor.Lib.Ledger
import Petrachor.BlockHash

/-!
# The balances of a state

The balances of a state are a ledger: what the operations of the state do to it, that undoing the
change log gives it back, and what a run of the virtual machine may do to it. A contract that
destroys itself in favour of itself burns what it holds.
-/

namespace Petrachor

/-- An entry of the log that changes a balance when it is undone. -/
def Change.MovesBalance : Change → Bool
  | .Balance _ _ | .Create _ => true
  | _ => false

namespace State

def setBalance (emptyTrie : H256) (s : State) (a : Address) (value : U256) : State :=
  s.addBalance emptyTrie a (value - s.balance a)

end State

/-- `selfdestruct(beneficiary)` of the contract `a`. -/
def ExtVM.selfdestruct (emptyTrie : H256) (s : State) (a beneficiary : Address) : State :=
  (s.addBalance emptyTrie beneficiary (s.balance a)).setBalance emptyTrie a 0

namespace State

def ledger (s : State) : Address → ℕ := fun a => (s.balance a).toNat

section

variable {tr : H256} {s s' s'' : State}

/-! ## What the operations do to the balances -/

theorem balance_setAccount (s : State) (a : Address) (x : Account) (b : Address) :
    (s.setAccount a x).balance b = if b = a then x.balance else s.balance b := by
  unfold balance account setAccount
  by_cases h : b = a
  · subst h
    simp
  · simp [h]

@[simp] theorem balance_log (s : State) (c : Change) (b : Address) :
    (s.log c).balance b = s.balance b := rfl

theorem balance_cached (s : State) (a : Address) : (s.cached tr a).balance = s.balance a := by
  unfold cached balance
  cases s.account a <;> rfl

variable (tr) in
/-- An account put in place of one with its balance. -/
theorem balance_setAccount_cached (s : State) (a : Address) (x : Account)
    (h : x.balance = (s.cached tr a).balance) (b : Address) :
    (s.setAccount a x).balance b = s.balance b := by
  rw [balance_setAccount]
  split
  · subst b
    rw [h, balance_cached]
  · rfl

theorem account_addBalance (s : State) (a : Address) (v : U256) (b : Address) :
    (s.addBalance tr a v).account b = if b = a then
      some ((s.account a).elim (Account.new tr s.m_accountStartNonce v) fun x => x.addBalance v)
    else s.account b := by
  obtain ⟨-, hstate, hcache⟩ := addBalance_spec tr s a v
  unfold account
  rw [hcache, hstate]
  by_cases h : b = a
  · subst h
    rw [Function.update_self, if_pos rfl]
    rfl
  · rw [Function.update_of_ne h, if_neg h]

theorem balance_addBalance (s : State) (a : Address) (v : U256) (b : Address) :
    (s.addBalance tr a v).balance b = if b = a then s.balance a + v else s.balance b := by
  unfold balance
  rw [account_addBalance]
  split
  · cases s.account a with
    | none => exact (BitVec.zero_add v).symm
    | some x => rfl
  · rfl

/-- The nonce and the code stay. -/
theorem getNonce_addBalance (s : State) (a : Address) (v : U256) (b : Address) :
    (s.addBalance tr a v).getNonce b = s.getNonce b := by
  unfold getNonce
  rw [account_addBalance, (addBalance_spec tr s a v).1]
  split
  · subst b
    cases s.account a <;> rfl
  · rfl

theorem code_addBalance (s : State) (a : Address) (v : U256) (b : Address) :
    (s.addBalance tr a v).code b = s.code b := by
  unfold code
  rw [account_addBalance]
  split
  · subst b
    cases s.account a <;> rfl
  · rfl

theorem balance_none {a : Address} (h : s.account a = none) : s.balance a = 0 := by
  unfold balance
  rw [h]
  rfl

theorem ledger_addBalance {a : Address} {v : U256} (h : s.ledger a + v.toNat < 2 ^ 256) :
    (s.addBalance tr a v).ledger = Ledger.credit s.ledger a v.toNat := by
  funext b
  rw [Ledger.credit_apply]
  unfold ledger at h ⊢
  rw [balance_addBalance]
  split
  · subst b
    rw [BitVec.toNat_add, Nat.mod_eq_of_lt h]
  · rfl

variable (tr) in
theorem ledger_subBalance {a : Address} {v : U256} (h : v.toNat ≤ s.ledger a) :
    ∃ s', s.subBalance tr a v = .ok s' ∧ s'.ledger = Ledger.debit s.ledger a v.toNat := by
  unfold subBalance
  by_cases hv : v = 0
  · subst hv
    exact ⟨s, if_pos rfl, (Ledger.debit_zero _ _).symm⟩
  have hpos : 0 < v.toNat := Nat.pos_of_ne_zero fun h0 => hv (BitVec.eq_of_toNat_eq h0)
  have hsome : ¬((s.account a).isNone ∨ s.balance a < v) := by
    rintro (hnone | hlt)
    · have h0 := balance_none (Option.isNone_iff_eq_none.1 hnone)
      unfold ledger at h
      rw [h0] at h
      exact absurd (hpos.trans_le h) (Nat.lt_irrefl 0)
    · exact absurd h (Nat.not_le.2 (BitVec.lt_def.1 hlt))
  rw [if_neg hv, if_neg hsome]
  refine ⟨_, rfl, ?_⟩
  funext b
  rw [Ledger.debit_apply]
  unfold ledger at h ⊢
  rw [balance_addBalance]
  split
  · subst b
    -- the amount is added as its negative
    bv_omega
  · rfl

/-- A subtraction does nothing, or it adds. -/
theorem subBalance_cases {a : Address} {v : U256} (h : s.subBalance tr a v = .ok s') :
    s' = s ∨ s' = s.addBalance tr a (0 - v) := by
  unfold subBalance at h
  split at h
  · cases h
    exact .inl rfl
  · split at h
    · cases h
    · cases h
      exact .inr rfl

theorem le_ledger_of_subBalance {a : Address} {v : U256} (h : s.subBalance tr a v = .ok s') :
    v.toNat ≤ s.ledger a := by
  unfold subBalance at h
  split at h
  · rename_i hv
    subst hv
    exact Nat.zero_le _
  · split at h
    · cases h
    · rename_i hno
      exact BitVec.le_def.1 (BitVec.not_lt.1 fun hlt => hno (.inr hlt))

variable (tr) in
theorem ledger_transferBalance (ht : Ledger.total s.ledger < 2 ^ 256) {a : Address} {v : U256}
    (h : v.toNat ≤ s.ledger a) (b : Address) :
    ∃ s', s.transferBalance tr a b v = .ok s' ∧ s'.ledger = Ledger.move s.ledger a b v.toNat := by
  obtain ⟨s₁, h₁, hl₁⟩ := ledger_subBalance tr h
  refine ⟨s₁.addBalance tr b v, ?_, ?_⟩
  · rw [transferBalance, h₁]
    rfl
  · rw [ledger_addBalance, hl₁]
    · rfl
    · have hle := Ledger.le_total (Ledger.credit s₁.ledger b v.toNat) b
      rw [Ledger.total_credit, Ledger.credit_apply, if_pos rfl, hl₁, Ledger.total_debit _ h] at hle
      rw [hl₁]
      exact hle.trans_lt ht

/-! ## What the log gives back -/

theorem balance_undo (s : State) (c : Change) (b : Address) :
    (s.undo tr c).balance b = match c with
      | .Balance a v => if b = a then s.balance a + (0 - v) else s.balance b
      | .Create a => if b = a then (s.m_state a).elim 0 AccountData.balance else s.balance b
      | _ => s.balance b := by
  cases c with
  | Balance a v =>
    change (s.setAccount a _).balance b = _
    rw [balance_setAccount]
    change (if b = a then (s.cached tr a).balance + (0 - v) else _) = _
    rw [balance_cached]
  | Create a =>
    change ((Function.update s.m_cache a none b).orElse fun _ => (s.m_state b).map Account.ofData).elim
      0 Account.balance = if b = a then (s.m_state a).elim 0 AccountData.balance else s.balance b
    by_cases h : b = a
    · subst h
      rw [Function.update_self, if_pos rfl]
      cases s.m_state b <;> rfl
    · rw [Function.update_of_ne h, if_neg h]
      rfl
  | Storage a k v => exact balance_setAccount_cached tr s a ((s.cached tr a).setStorage k v) rfl b
  | StorageRoot a r => exact balance_setAccount_cached tr s a ((s.cached tr a).setStorageRoot r) rfl b
  | Nonce a n => exact balance_setAccount_cached tr s a ((s.cached tr a).setNonce n) rfl b
  | Code a => exact balance_setAccount_cached tr s a ((s.cached tr a).resetCode) rfl b
  | Touch a => exact balance_setAccount_cached tr s a ((s.cached tr a).untouch) rfl b

variable (tr) in
/-- Undoes the entries of a log, the newest first. -/
def undoAll (s : State) (l : List Change) : State := l.foldl (undo tr) s

/-- Over one trie, states of the same balances have the same balances after an undo. -/
theorem balance_undoAll_congr (l : List Change) : ∀ {s t : State}, s.m_state = t.m_state →
    (∀ a, s.balance a = t.balance a) → ∀ a, (undoAll tr s l).balance a = (undoAll tr t l).balance a := by
  induction l with
  | nil => exact fun _ h => h
  | cons c l ih =>
    intro s t hst h
    refine ih (((Based.undo s c).trie.trans hst).trans (Based.undo t c).trie.symm) fun a => ?_
    rw [balance_undo, balance_undo]
    cases c <;> simp only [h, hst]

theorem rollback_go_eq (m : List Change) : ∀ (l : List Change) (s : State),
    rollback.go tr m.length s (l ++ m) = { undoAll tr s l with m_changeLog := m }
  | [], s => by
    cases m with
    | nil => rfl
    | cons c m =>
      rw [List.nil_append, rollback.go, if_pos rfl]
      rfl
  | c :: l, s => by
    have hlen : (c :: (l ++ m)).length ≠ m.length := by
      rw [List.length_cons, List.length_append]
      omega
    rw [List.cons_append, rollback.go, if_neg hlen, rollback_go_eq m l]
    rfl

theorem rollback_eq {l m : List Change} (h : s.m_changeLog = l ++ m) :
    s.rollback tr m.length = { undoAll tr s l with m_changeLog := m } := by
  rw [rollback, h, rollback_go_eq]

variable (tr) in
/-- Undoing what was logged since gives the balances back. -/
structure Journaled (s s' : State) : Prop where
  trie : s'.m_state = s.m_state
  log : ∃ l, s'.m_changeLog = l ++ s.m_changeLog ∧ ∀ a, (undoAll tr s' l).balance a = s.balance a

namespace Journaled

theorem refl (s : State) : Journaled tr s s := ⟨rfl, [], rfl, fun _ => rfl⟩

theorem trans (h : Journaled tr s s') (h' : Journaled tr s' s'') : Journaled tr s s'' := by
  obtain ⟨l, hl, hb⟩ := h.log
  obtain ⟨l', hl', hb'⟩ := h'.log
  refine ⟨h'.trie.trans h.trie, l' ++ l, by rw [hl', hl, List.append_assoc], fun a => ?_⟩
  have hstate : (undoAll tr s'' l').m_state = s'.m_state := by
    have : ∀ (l : List Change) (t : State), (undoAll tr t l).m_state = t.m_state := by
      intro l
      induction l with
      | nil => exact fun _ => rfl
      | cons c l ih => exact fun t => (ih _).trans (Based.undo t c).trie
    exact (this l' s'').trans h'.trie
  rw [undoAll, List.foldl_append]
  exact (balance_undoAll_congr l hstate hb' a).trans (hb a)

/-- A change of nothing in the balances. -/
theorem quiet (hstate : s'.m_state = s.m_state) {l : List Change}
    (hlog : s'.m_changeLog = l ++ s.m_changeLog) (hb : ∀ a, s'.balance a = s.balance a)
    (hl : ∀ c ∈ l, c.MovesBalance = false) : Journaled tr s s' := by
  refine ⟨hstate, l, hlog, fun a => ?_⟩
  rw [← hb a]
  clear hlog hb hstate
  induction l generalizing s' with
  | nil => rfl
  | cons c l ih =>
    refine Eq.trans (ih fun c' hc' => hl c' (List.mem_cons_of_mem _ hc')) ?_
    rw [balance_undo]
    have hc := hl c List.mem_cons_self
    cases c with
    | Balance a v => cases hc
    | Create a => cases hc
    | _ => rfl

/-- The rollback to the savepoint. -/
theorem rollback (h : Journaled tr s s') :
    Journaled tr s (s'.rollback tr s.savepoint) ∧
      ∀ a, (s'.rollback tr s.savepoint).balance a = s.balance a := by
  obtain ⟨l, hl, hb⟩ := h.log
  have hroll : s'.rollback tr s.savepoint = { undoAll tr s' l with m_changeLog := s.m_changeLog } :=
    rollback_eq hl
  have hbal : ∀ a, (s'.rollback tr s.savepoint).balance a = s.balance a := by
    intro a
    rw [hroll]
    exact hb a
  refine ⟨⟨(Based.rollback s' _).trie.trans h.trie, [], ?_, hbal⟩, hbal⟩
  rw [hroll]
  rfl

theorem m_state_of_none {a : Address} (h : s.account a = none) :
    (s.m_state a).elim 0 AccountData.balance = 0 := by
  unfold account at h
  cases hs : s.m_state a with
  | none => rfl
  | some d =>
    rw [hs] at h
    cases hc : s.m_cache a with
    | none =>
      rw [hc] at h
      cases h
    | some x =>
      rw [hc] at h
      cases h

/-- An account is taken away again, whatever balance it was given. -/
theorem createAccount {a : Address} (h : s.account a = none) (x : Account) :
    Journaled tr s (s.createAccount a x) := by
  refine ⟨rfl, [.Create a], rfl, fun b => ?_⟩
  change ((s.createAccount a x).undo tr (.Create a)).balance b = _
  rw [balance_undo]
  change (if b = a then (s.m_state a).elim 0 AccountData.balance else _) = _
  split
  · subst b
    rw [m_state_of_none h, balance_none h]
  · rename_i hb
    exact (balance_setAccount s a x b).trans (if_neg hb)

/-- An account is created with a balance, which is logged besides. -/
theorem createAccount_balance {a : Address} (h : s.account a = none) (x : Account) (v : U256) :
    Journaled tr s ((s.createAccount a x).log (.Balance a v)) := by
  refine ⟨rfl, [.Balance a v, .Create a], rfl, fun b => ?_⟩
  change ((((s.createAccount a x).log (.Balance a v)).undo tr (.Balance a v)).undo tr
    (.Create a)).balance b = _
  rw [balance_undo]
  change (if b = a then (s.m_state a).elim 0 AccountData.balance else _) = _
  split
  · subst b
    rw [m_state_of_none h, balance_none h]
  · rename_i hb
    rw [balance_undo]
    change (if b = a then _ else (s.createAccount a x).balance b) = _
    rw [if_neg hb]
    exact (balance_setAccount s a x b).trans (if_neg hb)

/-- An amount that is added to an account in use, and logged. -/
theorem add {a : Address} {x : Account} (h : s.account a = some x) (v : U256) :
    Journaled tr s ((s.setAccount a (x.addBalance v)).log (.Balance a v)) := by
  have hx : x.balance = s.balance a := by
    unfold balance
    rw [h]
    rfl
  refine ⟨rfl, [.Balance a v], rfl, fun b => ?_⟩
  change (((s.setAccount a (x.addBalance v)).log (.Balance a v)).undo tr (.Balance a v)).balance b = _
  rw [balance_undo]
  change (if b = a then (s.setAccount a (x.addBalance v)).balance a + (0 - v)
    else (s.setAccount a (x.addBalance v)).balance b) = _
  rw [balance_setAccount, if_pos rfl, balance_setAccount]
  split
  · subst b
    change x.balance + v + (0 - v) = _
    rw [hx]
    bv_omega
  · rfl

theorem note (s : State) {c : Change} (hc : c.MovesBalance = false) : Journaled tr s (s.log c) :=
  quiet (l := [c]) rfl rfl (fun _ => rfl) (List.forall_mem_singleton.2 hc)

theorem addBalance (s : State) (a : Address) (v : U256) : Journaled tr s (s.addBalance tr a v) := by
  unfold State.addBalance
  cases hacc : s.account a with
  | none =>
    dsimp only
    split
    · exact createAccount hacc _
    · exact createAccount_balance hacc _ _
  | some x =>
    have htouch : Journaled tr s (if (!x.isDirty && x.isEmpty) = true then s.log (.Touch a) else s) := by
      split
      · exact note s rfl
      · exact refl s
    have hacc' : (if (!x.isDirty && x.isEmpty) = true then s.log (.Touch a) else s).account a =
        some x := by
      split <;> exact hacc
    dsimp only
    refine htouch.trans ?_
    generalize (if (!x.isDirty && x.isEmpty) = true then s.log (.Touch a) else s) = t at hacc'
    split
    · rename_i hv
      subst hv
      refine quiet (l := []) rfl rfl (fun b => ?_) (by simp)
      rw [balance_setAccount]
      split
      · subst b
        unfold balance
        rw [hacc']
        exact BitVec.add_zero _
      · rfl
    · exact add hacc' v

theorem subBalance {a : Address} {v : U256} (h : s.subBalance tr a v = .ok s') :
    Journaled tr s s' := by
  rcases subBalance_cases h with rfl | rfl
  · exact refl s'
  · exact addBalance s a _

theorem transferBalance {a b : Address} {v : U256} (h : s.transferBalance tr a b v = .ok s') :
    Journaled tr s s' := by
  rw [State.transferBalance, bind_eq_ok] at h
  obtain ⟨s₁, h₁, h₂⟩ := h
  cases h₂
  exact (subBalance h₁).trans (addBalance s₁ b v)

end Journaled

/-! ## Operations that leave the balances alone -/

variable (tr) in
/-- Logged, and no balance is changed. -/
structure Quiet (s s' : State) : Prop where
  journaled : Journaled tr s s'
  balance : ∀ a, s'.balance a = s.balance a

namespace Quiet

theorem refl (s : State) : Quiet tr s s := ⟨.refl s, fun _ => rfl⟩

theorem trans (h : Quiet tr s s') (h' : Quiet tr s' s'') : Quiet tr s s'' :=
  ⟨h.journaled.trans h'.journaled, fun a => (h'.balance a).trans (h.balance a)⟩

theorem ledger (h : Quiet tr s s') : s'.ledger = s.ledger :=
  funext fun a => congrArg BitVec.toNat (h.balance a)

theorem of_log (hstate : s'.m_state = s.m_state) {l : List Change}
    (hlog : s'.m_changeLog = l ++ s.m_changeLog) (hb : ∀ a, s'.balance a = s.balance a)
    (hl : ∀ c ∈ l, c.MovesBalance = false) : Quiet tr s s' :=
  ⟨.quiet hstate hlog hb hl, hb⟩

/-- One entry of the cache is replaced by one of the same balance, with one entry of the log. -/
theorem set {a : Address} {x : Account} (hx : x.balance = s.balance a) (c : Change)
    (hc : c.MovesBalance = false) : Quiet tr s ((s.setAccount a x).log c) := by
  refine of_log (l := [c]) rfl rfl (fun b => ?_) (List.forall_mem_singleton.2 hc)
  change (s.setAccount a x).balance b = _
  rw [balance_setAccount]
  split
  · subst b
    exact hx
  · rfl

theorem createAccount {a : Address} (h : s.account a = none) {x : Account} (hx : x.balance = 0) :
    Quiet tr s (s.createAccount a x) := by
  refine ⟨.createAccount h x, fun b => ?_⟩
  refine (balance_setAccount s a x b).trans ?_
  split
  · subst b
    rw [hx, balance_none h]
  · rfl

theorem balance_some {a : Address} {x : Account} (h : s.account a = some x) :
    x.balance = s.balance a := by
  unfold State.balance
  rw [h]
  rfl

theorem setNonce (s : State) (a : Address) (n : U256) : Quiet tr s (s.setNonce tr a n) := by
  unfold State.setNonce
  cases hacc : s.account a with
  | none => exact createAccount hacc rfl
  | some x =>
    have hx : (x.setNonce n).balance = s.balance a := (balance_some hacc : x.balance = _)
    exact set hx (.Nonce a x.nonce) rfl

theorem incNonce (s : State) (a : Address) : Quiet tr s (s.incNonce tr a) := by
  unfold State.incNonce
  cases hacc : s.account a with
  | none => exact createAccount hacc rfl
  | some x =>
    have hx : (x.setNonce (x.nonce + 1)).balance = s.balance a :=
      (balance_some hacc : x.balance = _)
    exact set hx (.Nonce a x.nonce) rfl

theorem clearStorage (s : State) (a : Address) : Quiet tr s (s.clearStorage tr a) := by
  unfold State.clearStorage
  dsimp only
  split
  · exact of_log (l := []) rfl rfl (balance_setAccount_cached tr s a _ rfl) (by simp)
  · exact set (x := (s.cached tr a).setStorageRoot tr) (balance_cached s a) (.StorageRoot a (s.cached tr a).baseRoot)
      rfl

theorem setStorage (t : TrieDB) (s : State) (a : Address) (k v : U256) :
    Quiet tr s (s.setStorage tr t a k v) :=
  set (x := (s.cached tr a).setStorage k v) (balance_cached s a) (.Storage a k (s.storage t a k)) rfl

theorem setCode {a : Address} {c : Bytes} {v : ℕ} (h : s.setCode tr a c v = .ok s') :
    Quiet tr s s' := by
  rw [State.setCode, unit_bind_eq_ok] at h
  cases h.2
  exact set (x := (s.cached tr a).setCode c v) (balance_cached s a) (.Code a) rfl

/-- The amount zero only touches the account. -/
theorem touch (s : State) (a : Address) : Quiet tr s (s.addBalance tr a 0) := by
  refine ⟨.addBalance s a 0, fun b => ?_⟩
  rw [balance_addBalance]
  split
  · subst b
    exact BitVec.add_zero _
  · rfl

end Quiet

/-! ## What a virtual machine may do -/

variable (tr) in
theorem ledger_selfdestruct (ht : Ledger.total s.ledger < 2 ^ 256) (a b : Address) :
    (ExtVM.selfdestruct tr s a b).ledger =
      if b = a then Ledger.clear s.ledger a else Ledger.move s.ledger a b (s.ledger a) := by
  funext c
  have hafter : (ExtVM.selfdestruct tr s a b).balance c =
      if c = a then 0 else if c = b then s.balance b + s.balance a else s.balance c := by
    unfold ExtVM.selfdestruct setBalance
    rw [balance_addBalance]
    split
    · bv_omega
    · exact balance_addBalance s b _ c
  change ((ExtVM.selfdestruct tr s a b).balance c).toNat = _
  rw [hafter]
  by_cases hba : b = a
  · rw [if_pos hba, Ledger.clear_apply]
    by_cases hca : c = a
    · simp [hca]
    · rw [if_neg hca, if_neg hca, if_neg (hba ▸ hca)]
      rfl
  · have hmove := Ledger.move_add s.ledger b (le_refl (s.ledger a)) c
    have hsum := (Ledger.add_le_total s.ledger (Ne.symm hba)).trans_lt ht
    rw [if_neg hba]
    by_cases hca : c = a
    · subst hca
      rw [if_pos rfl, if_neg (Ne.symm hba)] at hmove
      have hzero : Ledger.move s.ledger c b (s.ledger c) c = 0 := by omega
      rw [if_pos rfl, hzero]
      rfl
    · rw [if_neg hca, Nat.add_zero] at hmove
      rw [if_neg hca, hmove]
      split
      · subst c
        rw [BitVec.toNat_add, Nat.mod_eq_of_lt (by rw [Nat.add_comm]; exact hsum)]
        rfl
      · rfl

variable (tr) in
theorem journaled_selfdestruct (s : State) (a b : Address) :
    Journaled tr s (ExtVM.selfdestruct tr s a b) :=
  (Journaled.addBalance s b _).trans (.addBalance _ a _)

variable (tr) in
/-- What the calls of a virtual machine do to a state, with what is burned on the way. The frame of
a call that fails is rolled back, and nothing is burned in it. -/
inductive Host (t : TrieDB) : State → State → ℕ → Prop
  | start (s : State) : Host t s s 0
  | incNonce {s s' : State} {n : ℕ} (a : Address) :
    Host t s s' n → Host t s (s'.incNonce tr a) n
  | setNonce {s s' : State} {n : ℕ} (a : Address) (v : U256) :
    Host t s s' n → Host t s (s'.setNonce tr a v) n
  | setStorage {s s' : State} {n : ℕ} (a : Address) (k v : U256) :
    Host t s s' n → Host t s (s'.setStorage tr t a k v) n
  | clearStorage {s s' : State} {n : ℕ} (a : Address) :
    Host t s s' n → Host t s (s'.clearStorage tr a) n
  | setCode {s s' s'' : State} {n : ℕ} {a : Address} {c : Bytes} {v : ℕ} :
    Host t s s' n → s'.setCode tr a c v = .ok s'' → Host t s s'' n
  | touch {s s' : State} {n : ℕ} (a : Address) :
    Host t s s' n → Host t s (s'.addBalance tr a 0) n
  | transferBalance {s s' s'' : State} {n : ℕ} {a b : Address} {v : U256} :
    Host t s s' n → s'.transferBalance tr a b v = .ok s'' → Host t s s'' n
  | selfdestruct {s s' : State} {n : ℕ} (a b : Address) :
    Host t s s' n →
      Host t s (ExtVM.selfdestruct tr s' a b) (n + if b = a then s'.ledger a else 0)
  | reverted {s s' s'' : State} {n m : ℕ} :
    Host t s s' n → Host t s' s'' m → Host t s (s''.rollback tr s'.savepoint) n

/-- The total is lost by what is burned, and a rollback gives back the balances. -/
theorem Host.spec {t : TrieDB} {n : ℕ} (h : Host tr t s s' n)
    (ht : Ledger.total s.ledger < 2 ^ 256) :
    Journaled tr s s' ∧ Ledger.total s'.ledger + n = Ledger.total s.ledger := by
  induction h with
  | start s => exact ⟨.refl s, Nat.add_zero _⟩
  | incNonce a _ ih =>
    obtain ⟨hj, hl⟩ := ih ht
    exact ⟨hj.trans (Quiet.incNonce _ a).journaled, by rw [(Quiet.incNonce _ a).ledger, hl]⟩
  | setNonce a v _ ih =>
    obtain ⟨hj, hl⟩ := ih ht
    exact ⟨hj.trans (Quiet.setNonce _ a v).journaled, by rw [(Quiet.setNonce _ a v).ledger, hl]⟩
  | setStorage a k v _ ih =>
    obtain ⟨hj, hl⟩ := ih ht
    exact ⟨hj.trans (Quiet.setStorage t _ a k v).journaled,
      by rw [(Quiet.setStorage t _ a k v).ledger, hl]⟩
  | clearStorage a _ ih =>
    obtain ⟨hj, hl⟩ := ih ht
    exact ⟨hj.trans (Quiet.clearStorage _ a).journaled,
      by rw [(Quiet.clearStorage _ a).ledger, hl]⟩
  | setCode _ hc ih =>
    obtain ⟨hj, hl⟩ := ih ht
    exact ⟨hj.trans (Quiet.setCode hc).journaled, by rw [(Quiet.setCode hc).ledger, hl]⟩
  | touch a _ ih =>
    obtain ⟨hj, hl⟩ := ih ht
    exact ⟨hj.trans (Quiet.touch _ a).journaled, by rw [(Quiet.touch _ a).ledger, hl]⟩
  | @transferBalance s s' s'' n a b v _ hv ih =>
    obtain ⟨hj, hl⟩ := ih ht
    obtain ⟨s₁, h₁⟩ : ∃ s₁, s'.subBalance tr a v = .ok s₁ := by
      rw [State.transferBalance, bind_eq_ok] at hv
      obtain ⟨s₁, h₁, -⟩ := hv
      exact ⟨s₁, h₁⟩
    have hle := le_ledger_of_subBalance h₁
    obtain ⟨t', ht', hmove⟩ := ledger_transferBalance tr (by omega) hle b
    rw [hv] at ht'
    cases ht'
    exact ⟨hj.trans (.transferBalance hv), by rw [hmove, Ledger.total_move _ b hle, hl]⟩
  | @selfdestruct s s' n a b _ ih =>
    obtain ⟨hj, hl⟩ := ih ht
    refine ⟨hj.trans (journaled_selfdestruct tr s' a b), ?_⟩
    rw [ledger_selfdestruct tr (by omega)]
    split
    · have := Ledger.total_clear s'.ledger a
      omega
    · rw [Ledger.total_move _ b le_rfl, Nat.add_zero, hl]
  | @reverted s s' s'' n m _ _ ih ih' =>
    obtain ⟨hj, hl⟩ := ih ht
    obtain ⟨hj', -⟩ := ih' (by omega)
    obtain ⟨hroll, hb⟩ := hj'.rollback
    have hledger : (s''.rollback tr s'.savepoint).ledger = s'.ledger :=
      funext fun a => congrArg BitVec.toNat (hb a)
    exact ⟨hj.trans hroll, by rw [hledger, hl]⟩

end

end State

end Petrachor
