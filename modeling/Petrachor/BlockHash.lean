import Petrachor.Devnet

/-!
# The block hash opcode

`ExtVM::blockHash` answers from the list of the last hashes, or from 256 blocks after the
Constantinople fork on by a transaction of its own to the block hash contract, executed on the very
state that the transaction in progress works on. That execution is `Reverted`, which clears the
cache of the state: with it go the uncommitted changes of the transaction in progress, and what its
change log would be undone on.
-/

namespace Petrachor

/-- The transaction that asks the block hash contract for a number. -/
def blockHashTransaction (caller : Address) (nonce number : U256) : Transaction :=
  { m_type := .MessageCall, nonce, value := 0, receiveAddress := c_blockhashContractAddress,
    gasPrice := 0, gas := 1000000, data := asBytes 32 number, m_vrs := none,
    m_forcedSender := caller }

namespace ExtVM

section

variable (w : World) (env : EnvInfo) (caller : Address) (s : State) (number : U256)

/-- The numbers that `blockHash` answers with zero: the current block, later ones, and those more
than 256 blocks back. -/
def OutOfRange (current number : U256) : Prop :=
  current ≤ number ∨ number < (if current < 256 then 256 else current) - 256

instance (current number : U256) : Decidable (OutOfRange current number) := by
  unfold OutOfRange
  infer_instance

/-- The answer comes from the list of the last hashes. The sum wraps. -/
def FromList : Prop := env.number < w.params.constantinopleForkBlock + 256

instance : Decidable (FromList w env) := by
  unfold FromList
  infer_instance

/-- What the transaction to the contract gives: what the executive leaves, or an exception. -/
def askContract : Except (Exception × State) (Bool × Executive) :=
  s.executeTransaction w env (blockHashTransaction caller (s.getNonce caller) number)

/-- `blockHash(number)`, with the state it leaves. The output is taken over from a virtual machine
only. -/
def blockHash : Except (Exception × State) (H256 × State) :=
  if OutOfRange env.number number then .ok (0, s)
  else if FromList w env then
    match env.lastHashes with
    | .error x => .error (x, s)
    | .ok lastHashes =>
      match lastHashes[(env.number - 1 - number).toNat % 2 ^ 32]? with
      | some h => .ok (h, s)
      | none => .error (.abort, s)
  else
    match askContract w env caller s number with
    | .error x => .error x
    | .ok (_, e) =>
      .ok (ofBytes 32 (if e.m_ext.isSome then e.m_output else []),
        e.m_s.applyPermanence w env.number .Reverted)

end

end ExtVM

/-! ## What a state answers -/

/-- Existence, balance, nonce, code and storage of an address. -/
@[ext] structure Observed where
  existing : Bool
  balance : U256
  nonce : U256
  code : Bytes
  storage : U256 → U256

namespace State

def observed (t : TrieDB) (s : State) (a : Address) : Observed :=
  ⟨(s.account a).elim false Account.m_isAlive, s.balance a, s.getNonce a, s.code a, s.storage t a⟩

/-- The same answers about every address, now and after a rollback to any earlier savepoint. -/
def Frames (emptyTrie : H256) (t : TrieDB) (s s' : State) : Prop :=
  (∀ a, s'.observed t a = s.observed t a) ∧
    ∀ n ≤ s.savepoint, ∀ a,
      (s'.rollback emptyTrie n).observed t a = (s.rollback emptyTrie n).observed t a

/-- Some answer is not the one the committed trie gives. -/
def Uncommitted (t : TrieDB) (s : State) : Prop :=
  ∃ a, s.observed t a ≠ (ofTrie s.m_state s.m_accountStartNonce).observed t a

theorem Frames.refl {emptyTrie : H256} {t : TrieDB} (s : State) : Frames emptyTrie t s s :=
  ⟨fun _ => rfl, fun _ _ _ => rfl⟩

/-! ## The trie is written by commits only -/

/-- Over the same committed trie. -/
structure Based (s s' : State) : Prop where
  trie : s'.m_state = s.m_state
  start : s'.m_accountStartNonce = s.m_accountStartNonce

namespace Based

variable {s s' s'' : State} {tr : H256}

theorem refl (s : State) : Based s s := ⟨rfl, rfl⟩

theorem trans (h : Based s s') (h' : Based s' s'') : Based s s'' :=
  ⟨h'.trie.trans h.trie, h'.start.trans h.start⟩

theorem setNonce (s : State) (a : Address) (n : U256) : Based s (s.setNonce tr a n) := by
  unfold State.setNonce
  split <;> exact ⟨rfl, rfl⟩

theorem incNonce (s : State) (a : Address) : Based s (s.incNonce tr a) := by
  unfold State.incNonce
  split <;> exact ⟨rfl, rfl⟩

theorem addBalance (s : State) (a : Address) (v : U256) : Based s (s.addBalance tr a v) := by
  unfold State.addBalance
  cases s.account a with
  | some x =>
    dsimp only
    split_ifs <;> exact ⟨rfl, rfl⟩
  | none =>
    dsimp only
    split_ifs <;> exact ⟨rfl, rfl⟩

theorem subBalance {a : Address} {v : U256} (h : s.subBalance tr a v = .ok s') : Based s s' := by
  unfold State.subBalance at h
  split at h
  · cases h
    exact refl s
  · split at h
    · cases h
    · cases h
      exact addBalance s a _

theorem transferBalance {a b : Address} {v : U256} (h : s.transferBalance tr a b v = .ok s') :
    Based s s' := by
  rw [State.transferBalance, bind_eq_ok] at h
  obtain ⟨s₁, h₁, h₂⟩ := h
  cases h₂
  exact (subBalance h₁).trans (addBalance s₁ b v)

theorem clearStorage (s : State) (a : Address) : Based s (s.clearStorage tr a) := by
  unfold State.clearStorage
  dsimp only
  split_ifs <;> exact ⟨rfl, rfl⟩

theorem setCode {a : Address} {c : Bytes} {v : ℕ} (h : s.setCode tr a c v = .ok s') :
    Based s s' := by
  rw [State.setCode, unit_bind_eq_ok] at h
  cases h.2
  exact ⟨rfl, rfl⟩

theorem kill (s : State) (a : Address) : Based s (s.kill tr a) := by
  unfold State.kill
  split
  · exact ⟨rfl, rfl⟩
  · exact refl s

theorem killAll (l : List Address) (s : State) : Based s (l.foldl (fun s a => s.kill tr a) s) := by
  induction l generalizing s with
  | nil => exact refl s
  | cons a l ih => exact (kill s a).trans (ih _)

theorem undo (s : State) (c : Change) : Based s (s.undo tr c) := by
  cases c <;> exact ⟨rfl, rfl⟩

theorem rollback (s : State) (n : ℕ) : Based s (s.rollback tr n) := by
  unfold State.rollback
  generalize s.m_changeLog = l
  induction l generalizing s with
  | nil => exact ⟨rfl, rfl⟩
  | cons c l ih =>
    unfold rollback.go
    split
    · exact ⟨rfl, rfl⟩
    · exact (undo s c).trans (ih _)

end Based

/-- Without its cache, a state answers as the trie it is based on. -/
theorem observed_reverted {w : World} {t : TrieDB} {s s' : State} {number : U256} (h : Based s s')
    (a : Address) :
    (s'.applyPermanence w number .Reverted).observed t a =
      (ofTrie s.m_state s.m_accountStartNonce).observed t a := by
  unfold applyPermanence ofTrie
  rw [← h.trie, ← h.start]
  rfl

end State

/-! ## The execution of a transaction -/

/-- The virtual machine changes the state through its calls only, none of which commits. -/
def World.KeepsTrie (w : World) : Prop :=
  ∀ ext gas s, match w.vm ext gas s with
    | .done _ _ _ s' => State.Based s s'
    | .reverted _ _ s' => State.Based s s'
    | .failed _ s' => State.Based s s'
    | .exit => True

namespace Executive

variable {w : World} {e e' : Executive} {s : State}

theorem result_bind_eq_ok {α β : Type} {x : Result α} {f : α → Result β} {b : β} :
    (x >>= f) = .ok b ↔ ∃ a, x = .ok a ∧ f a = .ok b := by
  cases x with
  | error e => simp [bind, Except.bind]
  | ok a => simp [bind, Except.bind]

theorem liftState_eq_ok {α : Type} {x : Except Exception α} {a : α} :
    liftState s x = .ok a ↔ x = .ok a := by
  cases x <;> simp [liftState]

theorem based_callTransfer {a b : Address} {v : U256} (h : e.callTransfer w a b v = .ok e') :
    State.Based e.m_s e'.m_s ∧ e'.m_ext = e.m_ext := by
  rw [callTransfer, result_bind_eq_ok] at h
  obtain ⟨s, hs, h⟩ := h
  cases h
  exact ⟨.transferBalance (liftState_eq_ok.1 hs), rfl⟩

theorem based_call {r a : Address} {v p g : U256} {d : Bytes} (h : e.call w r a v p d g = .ok e') :
    State.Based e.m_s e'.m_s := by
  unfold call at h
  dsimp only at h
  have hinc : State.Based e.m_s
      (if e.m_t.isSome ∧ (a ≠ MaxAddress ∨ e.m_envInfo.number < w.params.constantinopleForkBlock) then
        { e with m_s := e.m_s.incNonce w.crypto.EmptyTrie a } else e).m_s := by
    split
    · exact .incNonce _ _
    · exact .refl _
  generalize (if e.m_t.isSome ∧ (a ≠ MaxAddress ∨ e.m_envInfo.number < w.params.constantinopleForkBlock)
    then { e with m_s := e.m_s.incNonce w.crypto.EmptyTrie a } else e) = e₁ at h hinc
  split at h
  · split at h
    · cases h
      refine hinc.trans ?_
      dsimp only
      split
      · exact .addBalance _ _ _
      · exact .refl _
    · split at h
      · exact hinc.trans (based_callTransfer h).1
      · cases h
        exact hinc
  · split at h
    · exact hinc.trans (based_callTransfer h).1
    · exact hinc.trans (based_callTransfer h).1

theorem based_createAt {a : Address} {v p : U256} {d : Bytes} {n : ℕ}
    (h : e.createAt w a v p d n = .ok e') : State.Based e.m_s e'.m_s := by
  rw [createAt, result_bind_eq_ok] at h
  obtain ⟨s₁, h₁, h⟩ := h
  have hb := State.Based.transferBalance (liftState_eq_ok.1 h₁)
  have hb₂ : ∀ n, State.Based e.m_s
      ((s₁.setNonce w.crypto.EmptyTrie e.m_newAddress n).clearStorage w.crypto.EmptyTrie
        e.m_newAddress) :=
    fun n => (hb.trans (.setNonce _ _ _)).trans (.clearStorage _ _)
  dsimp only at h
  split at h
  · rw [result_bind_eq_ok] at h
    obtain ⟨s₂, h₂, h⟩ := h
    cases h
    exact (hb₂ _).trans (.setCode (liftState_eq_ok.1 h₂))
  · cases h
    exact hb₂ _

theorem based_create {a : Address} {v p g : U256} {d : Bytes} (h : e.create w a v p g d = .ok e') :
    State.Based e.m_s e'.m_s := by
  unfold create at h
  dsimp only at h
  generalize hn : newContractAddress w a (e.m_s.getNonce a) = n at h
  have hinc : State.Based e.m_s
      (if a ≠ MaxAddress ∨ e.m_envInfo.number < w.params.experimentalForkBlock then
        { { e with m_newAddress := n } with m_s := e.m_s.incNonce w.crypto.EmptyTrie a }
        else { e with m_newAddress := n }).m_s := by
    split
    · exact .incNonce _ _
    · exact .refl _
  generalize (if a ≠ MaxAddress ∨ e.m_envInfo.number < w.params.experimentalForkBlock then
        { { e with m_newAddress := n } with m_s := e.m_s.incNonce w.crypto.EmptyTrie a }
        else { e with m_newAddress := n }) = e₁ at h hinc
  split at h
  · cases h
    exact hinc.trans (.rollback _ _)
  · have hb := based_createAt h
    exact hinc.trans hb

theorem based_execute {t : Transaction} (h : e.execute w t = .ok e') :
    State.Based e.m_s e'.m_s := by
  rw [execute, result_bind_eq_ok] at h
  obtain ⟨s₁, h₁, h⟩ := h
  have hb := State.Based.subBalance (liftState_eq_ok.1 h₁)
  dsimp only at h
  split at h
  · exact hb.trans (based_create h)
  · exact hb.trans (based_call h)

theorem based_depositCode {ext : ExtVM} {out : Bytes} (h : e.depositCode w ext out = .ok e') :
    State.Based e.m_s e'.m_s := by
  unfold depositCode at h
  dsimp only at h
  split at h
  · cases h
    exact .rollback _ _
  · split at h
    · rw [result_bind_eq_ok] at h
      obtain ⟨s₁, h₁, h⟩ := h
      cases h
      exact .setCode (liftState_eq_ok.1 h₁)
    · split at h
      · cases h
        exact .rollback _ _
      · rw [result_bind_eq_ok] at h
        obtain ⟨s₁, h₁, h⟩ := h
        cases h
        exact .setCode (liftState_eq_ok.1 h₁)

theorem based_go (hw : w.KeepsTrie) (h : e.go w = .ok e') : State.Based e.m_s e'.m_s := by
  unfold go at h
  split at h
  · cases h
    exact .refl _
  · rename_i ext _
    dsimp only at h
    have hclear : State.Based e.m_s
        (if e.m_isCreation then e.m_s.clearStorage w.crypto.EmptyTrie ext.myAddress else e.m_s) := by
      split
      · exact .clearStorage _ _
      · exact .refl _
    generalize (if e.m_isCreation then e.m_s.clearStorage w.crypto.EmptyTrie ext.myAddress else e.m_s) =
      s₁ at h hclear
    have hvm := hw ext e.m_gas s₁
    split at h
    · rename_i hr
      rw [hr] at hvm
      split at h
      · exact hclear.trans (hvm.trans (based_depositCode h))
      · cases h
        exact hclear.trans hvm
    · rename_i hr
      rw [hr] at hvm
      cases h
      exact hclear.trans (hvm.trans (.rollback _ _))
    · rename_i hr
      rw [hr] at hvm
      cases h
      exact hclear.trans (hvm.trans (.rollback _ _))
    · cases h

theorem based_finalize {r : Bool × Executive} (h : e.finalize w = .ok r) :
    State.Based e.m_s r.2.m_s := by
  rw [finalize, result_bind_eq_ok] at h
  obtain ⟨u, -, h⟩ := h
  cases h
  dsimp only
  have hrefund : State.Based e.m_s (if e.m_ext.isSome then e.refund w else e).m_s := by
    split <;> exact .refl _
  generalize (if e.m_ext.isSome then e.refund w else e) = e₁ at hrefund ⊢
  refine hrefund.trans ?_
  cases e₁.m_t with
  | none =>
    dsimp only
    split
    · exact .killAll _ _
    · exact .refl _
  | some t =>
    have hpay : State.Based e₁.m_s (e₁.payGas w t).m_s :=
      (State.Based.addBalance _ _ _).trans (.addBalance _ _ _)
    dsimp only
    split
    · exact hpay.trans (.killAll _ _)
    · exact hpay

/-! A call without value whose gas is free does not throw; after it only the end of the process is
left. -/

theorem callTransfer_zero (e : Executive) (a b : Address) :
    e.callTransfer w a b 0 = .ok { e with m_s := e.m_s.addBalance w.crypto.EmptyTrie b 0 } := rfl

theorem call_zero (e : Executive) (r a : Address) (p g : U256) (d : Bytes) :
    ∃ e', e.call w r a 0 p d g = .ok e' ∧ e'.m_isCreation = e.m_isCreation := by
  unfold call
  dsimp only
  have hinc : (if e.m_t.isSome ∧
      (a ≠ MaxAddress ∨ e.m_envInfo.number < w.params.constantinopleForkBlock) then
        { e with m_s := e.m_s.incNonce w.crypto.EmptyTrie a } else e).m_isCreation =
      e.m_isCreation := by
    split <;> rfl
  generalize (if e.m_t.isSome ∧ (a ≠ MaxAddress ∨ e.m_envInfo.number < w.params.constantinopleForkBlock)
    then { e with m_s := e.m_s.incNonce w.crypto.EmptyTrie a } else e) = e₁ at hinc ⊢
  split
  · split
    · exact ⟨_, rfl, hinc⟩
    · split
      · exact ⟨_, callTransfer_zero _ _ _, hinc⟩
      · exact ⟨_, rfl, hinc⟩
  · split <;> exact ⟨_, callTransfer_zero _ _ _, hinc⟩

theorem execute_zero {t : Transaction} (ht : t.isCreation = false) (hv : t.value = 0)
    (hg : e.m_gasCost = 0) :
    ∃ e', e.execute w t = .ok e' ∧ e'.m_isCreation = e.m_isCreation := by
  have hsub : e.m_s.subBalance w.crypto.EmptyTrie (t.sender w.crypto) e.m_gasCost = .ok e.m_s := by
    rw [State.subBalance, if_pos hg]
  have hex : e.execute w t = e.call w t.receiveAddress (t.sender w.crypto) 0 t.gasPrice t.data
      (t.gas - BitVec.ofNat 256 e.m_baseGasRequired) := by
    rw [execute, hsub]
    change (if t.isCreation then _ else _) = _
    rw [ht, if_neg Bool.false_ne_true, hv]
  rw [hex]
  exact call_zero e _ _ _ _ _

theorem go_error {x : Exception} {s' : State} (hc : e.m_isCreation = false)
    (h : e.go w = .error (x, s')) : x = .abort := by
  unfold go at h
  rw [hc] at h
  split at h
  · cases h
  · dsimp only at h
    split at h
    · cases h
    · cases h
    · cases h
    · cases h
      rfl

theorem finalize_error {x : Exception} {s' : State} (h : e.finalize w = .error (x, s')) :
    x = .abort := by
  rw [finalize, throwIf] at h
  split at h
  · cases h
    rfl
  · cases h

end Executive

theorem State.based_executeTransaction {w : World} {s : State} {env : EnvInfo} {t : Transaction}
    {r : Bool × Executive} (hw : w.KeepsTrie) (h : s.executeTransaction w env t = .ok r) :
    State.Based s r.2.m_s := by
  unfold State.executeTransaction at h
  dsimp only at h
  split at h
  · rename_i r' hr
    cases h
    rw [Executive.result_bind_eq_ok] at hr
    obtain ⟨e₁, h₁, hr⟩ := hr
    rw [Executive.result_bind_eq_ok] at hr
    obtain ⟨e₂, h₂, hr⟩ := hr
    rw [Executive.result_bind_eq_ok] at hr
    obtain ⟨e₃, h₃, hr⟩ := hr
    have hinit : e₁.m_s = s := by
      rw [Executive.liftState_eq_ok, Executive.initializeWith, unit_bind_eq_ok, bind_eq_ok] at h₁
      obtain ⟨-, g, -, h₁⟩ := h₁
      cases h₁
      rfl
    have hb := (Executive.based_execute h₂).trans
      ((Executive.based_go hw h₃).trans (Executive.based_finalize hr))
    rwa [hinit] at hb
  · cases h

theorem State.rollback_savepoint (s : State) (tr : H256) : s.rollback tr s.savepoint = s := by
  unfold State.rollback State.savepoint
  obtain ⟨t, c, l, n⟩ := s
  cases l with
  | nil => rfl
  | cons c l =>
    unfold State.rollback.go
    rw [if_pos rfl]

namespace ExtVM

variable {w : World} {env : EnvInfo} {caller : Address} {s : State} {number : U256}

/-- The transaction is refused before it changes anything, or the process ends. -/
theorem askContract_error {x : Exception} {s' : State}
    (h : askContract w env caller s number = .error (x, s')) : x = .abort ∨ s' = s := by
  unfold askContract State.executeTransaction at h
  dsimp only at h
  set t := blockHashTransaction caller (s.getNonce caller) number with ht
  split at h
  · cases h
  · rename_i x' s₁ hr
    cases h
    cases hinit : (Executive.new s env).initializeWith w t with
    | error y =>
      rw [hinit] at hr
      cases hr
      exact .inr (s.rollback_savepoint _)
    | ok e₁ =>
      refine .inl ?_
      rw [hinit] at hr
      have hfields : e₁.m_gasCost = 0 ∧ e₁.m_isCreation = false := by
        rw [Executive.initializeWith, unit_bind_eq_ok, bind_eq_ok] at hinit
        obtain ⟨-, g, hg, hinit⟩ := hinit
        cases hinit
        refine ⟨?_, rfl⟩
        rw [if_neg (by simp [ht, blockHashTransaction, Transaction.hasZeroSignature]),
          Executive.checkSender, unit_bind_eq_ok, unit_bind_eq_ok] at hg
        cases hg.2.2
        rfl
      obtain ⟨e₂, he₂, hc⟩ := Executive.execute_zero (w := w) (t := t) rfl rfl hfields.1
      change (e₁.execute w t >>= fun e => e.go w >>= fun e => e.finalize w) = _ at hr
      rw [he₂] at hr
      change (e₂.go w >>= fun e => e.finalize w) = _ at hr
      cases hgo : e₂.go w with
      | error y =>
        rw [hgo] at hr
        cases hr
        exact Executive.go_error (hc.trans hfields.2) hgo
      | ok e₃ =>
        rw [hgo] at hr
        exact Executive.finalize_error hr

/-- However it ends, `blockHash` leaves the answers of the state as they are, now and after any
rollback; a process that ends has no state. -/
def LeavesState (w : World) (env : EnvInfo) (caller : Address) (s : State) (number : U256) : Prop :=
  match blockHash w env caller s number with
  | .ok (_, s') => State.Frames w.crypto.EmptyTrie w.tries s s'
  | .error (x, s') => x = .abort ∨ State.Frames w.crypto.EmptyTrie w.tries s s'

/-- With uncommitted changes, the state is left as it is exactly if the answer does not come from a
transaction to the contract that is carried out. -/
theorem leavesState_iff (hw : w.KeepsTrie) (hs : s.Uncommitted w.tries) :
    LeavesState w env caller s number ↔
      OutOfRange env.number number ∨ FromList w env ∨
        ∀ r, askContract w env caller s number ≠ .ok r := by
  unfold LeavesState blockHash
  by_cases hr : OutOfRange env.number number
  · simp only [hr, if_true, true_or, iff_true]
    exact .refl s
  by_cases hf : FromList w env
  · simp only [hr, hf, if_true, if_false, true_or, or_true, iff_true]
    cases env.lastHashes with
    | error x => exact .inr (.refl s)
    | ok l =>
      dsimp only
      cases l[(env.number - 1 - number).toNat % 2 ^ 32]? with
      | some h => exact .refl s
      | none => exact .inl rfl
  simp only [hr, hf, if_false, false_or]
  cases hask : askContract w env caller s number with
  | error y =>
    obtain ⟨x, s'⟩ := y
    refine ⟨fun _ r h => (by cases h), fun _ => ?_⟩
    rcases askContract_error hask with rfl | rfl
    · exact .inl rfl
    · exact .inr (.refl s')
  | ok r =>
    refine ⟨fun h => ?_, fun h => absurd rfl (h r)⟩
    obtain ⟨a, ha⟩ := hs
    have hb := State.based_executeTransaction hw hask
    have hobs := h.1 a
    rw [State.observed_reverted hb] at hobs
    exact absurd hobs.symm ha

/-- The development network with the fork at its first block, as on the main network. -/
def forked : World :=
  { Devnet.world with params := { Devnet.params with constantinopleForkBlock := 0 } }

/-- A block of this number. -/
def envAt (number : ℤ) : EnvInfo := ⟨{ Devnet.header [] with number }, .ok [], 0, 1⟩

/-- A balance that is not yet committed. -/
def pending : State :=
  (State.ofTrie (fun _ => none) 0).addBalance forked.crypto.EmptyTrie 1 5

theorem keepsTrie_forked : forked.KeepsTrie := fun _ _ _ => trivial

theorem uncommitted_pending : pending.Uncommitted forked.tries := by
  refine ⟨1, fun h => ?_⟩
  have hb := congrArg Observed.balance h
  revert hb
  decide

/-- Within the first 256 blocks the state is left as it is. -/
theorem leavesState_early :
    pending.Uncommitted forked.tries ∧ LeavesState forked (envAt 10) 1 pending 5 :=
  ⟨uncommitted_pending, (leavesState_iff keepsTrie_forked uncommitted_pending).2
    (.inr (.inl (by decide)))⟩

/-- At block 256 the balance is gone. -/
theorem blockHash_drops_balance :
    pending.Uncommitted forked.tries ∧ ¬LeavesState forked (envAt 256) 1 pending 255 := by
  refine ⟨uncommitted_pending, fun h => ?_⟩
  have hafter : ((blockHash forked (envAt 256) 1 pending 255).toOption.map
      fun r => r.2.balance 1) = some 0 := by
    decide
  unfold LeavesState at h
  cases hb : blockHash forked (envAt 256) 1 pending 255 with
  | error x =>
    rw [hb] at hafter
    cases hafter
  | ok r =>
    rw [hb] at h hafter
    have hbal := congrArg Observed.balance (h.1 1)
    have hzero : r.2.balance 1 = 0 := Option.some.inj hafter
    have hfive : pending.balance 1 = 5 := by decide
    change r.2.balance 1 = pending.balance 1 at hbal
    rw [hzero, hfive] at hbal
    cases hbal

end ExtVM

end Petrachor
