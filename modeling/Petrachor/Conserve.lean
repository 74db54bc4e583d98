import Petrachor.StateLedger

/-!
# Conservation of value

The sender pays for all its gas in advance, value moves to the receiver, the virtual machine moves
what it moves, and in the end the gas that is left is paid back and what was used goes to the author.
Whatever fails on the way is rolled back to the balances after the payment. Nothing is made, and all
that is lost is what a destroyed contract holds when it is killed, and what a contract burns that
destroys itself in favour of itself.
-/

namespace Petrachor

/-- The virtual machine changes the state through its calls only and never adds to the gas. What it
burns in a run that ends normally is given beside it. -/
def World.Conserves (w : World) (burned : ExtVM → U256 → State → ℕ) : Prop :=
  ∀ ext gas s, match w.vm ext gas s with
    | .done gas' _ _ s' => gas' ≤ gas ∧
      State.Host w.crypto.EmptyTrie w.tries s s' (burned ext gas s)
    | .reverted gas' _ s' => gas' ≤ gas ∧ ∃ n, State.Host w.crypto.EmptyTrie w.tries s s' n
    | .failed _ s' => ∃ n, State.Host w.crypto.EmptyTrie w.tries s s' n
    | .exit => True

namespace Executive

variable {w : World} {burned : ExtVM → U256 → State → ℕ} {e e' : Executive} {s : State}
  {env : EnvInfo} {t : Transaction} {sender receiver : Address} {L : Address → ℕ}

/-! ## The checks -/

theorem verifyTransaction_base {header : BlockHeader} {gasUsed : U256}
    (h : Ethash.verifyTransaction w.params .Everything t header gasUsed = .ok ()) :
    t.baseGasRequired (w.params.scheduleForBlockNumber (U256.ofInt header.number)) ≤ t.gas.toNat ∧
      (t.hasZeroSignature = true → t.value = 0 ∧ t.gasPrice = 0) := by
  unfold Ethash.verifyTransaction SealEngineFace.verifyTransaction at h
  simp only [unit_bind_eq_ok, throwIf_eq_ok] at h
  obtain ⟨⟨-, hold, hnew, -⟩, hgas, -⟩ := h
  refine ⟨Nat.le_of_not_lt fun hlt => hgas ⟨rfl, hlt⟩, fun hz => ?_⟩
  -- before the fork no zero signature gets here, and after it the transaction is free
  have hfork : w.params.constantinopleForkBlock ≤ U256.ofInt header.number :=
    BitVec.not_lt.1 fun hlt => hold ⟨rfl, hlt, hz⟩
  by_contra hno
  apply hnew
  refine ⟨rfl, hfork, hz, ?_⟩
  by_contra hfree
  push Not at hfree
  exact hno ⟨hfree.1, hfree.2.1⟩

/-- What `initialize` leaves: the gas is worth its price, and the sender has that and the value. -/
structure Checked (w : World) (s : State) (env : EnvInfo) (t : Transaction) (e : Executive) : Prop where
  eq : e = { Executive.new s env with
    m_t := some t
    m_baseGasRequired := t.baseGasRequired (w.params.scheduleForBlockNumber env.number)
    m_gasCost := e.m_gasCost }
  base : t.baseGasRequired (w.params.scheduleForBlockNumber env.number) ≤ t.gas.toNat
  cost : e.m_gasCost.toNat = t.gas.toNat * t.gasPrice.toNat
  cash : t.value.toNat + t.gas.toNat * t.gasPrice.toNat ≤ s.ledger (t.sender w.crypto)

theorem checked_of_initializeWith (h : (Executive.new s env).initializeWith w t = .ok e) :
    Checked w s env t e := by
  rw [initializeWith, unit_bind_eq_ok, bind_eq_ok] at h
  obtain ⟨hver, g, hg, h⟩ := h
  cases h
  obtain ⟨hbase, hzero⟩ := verifyTransaction_base hver
  have hcost : g.toNat = t.gas.toNat * t.gasPrice.toNat ∧
      t.value.toNat + t.gas.toNat * t.gasPrice.toNat ≤ s.ledger (t.sender w.crypto) := by
    by_cases hz : t.hasZeroSignature = true
    · rw [if_pos hz] at hg
      cases hg
      obtain ⟨hv, hp⟩ := hzero hz
      rw [hv, hp]
      exact ⟨rfl, Nat.zero_le _⟩
    · rw [if_neg hz] at hg
      simp only [checkSender, unit_bind_eq_ok, throwIf_eq_ok] at hg
      obtain ⟨-, hcash, hg⟩ := hg
      cases hg
      have hle := Nat.le_of_not_lt hcash
      have hlt := (s.balance (t.sender w.crypto)).isLt
      refine ⟨?_, hle⟩
      rw [BitVec.toNat_ofNat]
      exact Nat.mod_eq_of_lt (by omega)
  exact ⟨rfl, hbase, hcost.1, hcost.2⟩

/-! ## Up to the virtual machine -/

/-- What `execute` leaves. `L` are the balances after the payment, and a rollback leads back to
them. The value has moved unless an exception is noted, and then there is nothing to run. -/
structure Started (w : World) (env : EnvInfo) (t : Transaction) (sender receiver : Address)
    (L : Address → ℕ) (e : Executive) : Prop where
  tx : e.m_t = some t
  env : e.m_envInfo = env
  sub : e.sub = .empty
  gas : e.m_gas.toNat ≤ t.gas.toNat
  savepoint : ∃ s : State, s.savepoint = e.m_savepoint ∧
    State.Journaled w.crypto.EmptyTrie s e.m_s ∧ s.ledger = L
  failed : e.m_excepted ≠ none → e.m_ext = none ∧ e.m_s.ledger = L
  moved : e.m_excepted = none → e.m_s.ledger = Ledger.move L sender receiver t.value.toNat

/-- What a message finds: the gas is paid for, and nothing is noted yet. -/
structure Prepaid (env : EnvInfo) (t : Transaction) (L : Address → ℕ) (e : Executive) : Prop where
  tx : e.m_t = some t
  env : e.m_envInfo = env
  sub : e.sub = .empty
  gas : e.m_gas = 0
  excepted : e.m_excepted = none
  ext : e.m_ext = none
  ledger : e.m_s.ledger = L

theorem Prepaid.quiet (h : Prepaid env t L e) (hq : State.Quiet w.crypto.EmptyTrie e.m_s s) :
    Prepaid env t L { e with m_s := s } :=
  ⟨h.tx, h.env, h.sub, h.gas, h.excepted, h.ext, hq.ledger.trans h.ledger⟩

/-- The value is transferred, whatever else was set before. -/
theorem callTransfer_spec (hL : Ledger.total L < 2 ^ 256) (hv : t.value.toNat ≤ L sender)
    (htx : e.m_t = some t) (henv : e.m_envInfo = env) (hsub : e.sub = .empty)
    (hgas : e.m_gas.toNat ≤ t.gas.toNat) (hexc : e.m_excepted = none) (hl : e.m_s.ledger = L)
    (hsave : e.m_savepoint = e.m_s.savepoint) :
    ∃ e', e.callTransfer w sender receiver t.value = .ok e' ∧
      Started w env t sender receiver L e' := by
  obtain ⟨s', hs', hmove⟩ := State.ledger_transferBalance w.crypto.EmptyTrie (s := e.m_s)
    (by rw [hl]; exact hL) (by rw [hl]; exact hv) receiver
  refine ⟨{ e with m_s := s' }, ?_, ?_⟩
  · rw [callTransfer, hs']
    rfl
  · refine ⟨htx, henv, hsub, hgas, ⟨e.m_s, hsave.symm, .transferBalance hs', hl⟩,
      fun h => absurd hexc h, fun _ => ?_⟩
    rw [← hl]
    exact hmove

theorem call_spec (hL : Ledger.total L < 2 ^ 256) (hv : t.value.toNat ≤ L sender)
    (h : Prepaid env t L e) {gas : U256} (hgas : gas.toNat ≤ t.gas.toNat) (price : U256)
    (data : Bytes) :
    ∃ e', e.call w receiver sender t.value price data gas = .ok e' ∧
      Started w env t sender receiver L e' := by
  unfold call
  dsimp only
  have hinc : Prepaid env t L (if e.m_t.isSome ∧
      (sender ≠ MaxAddress ∨ e.m_envInfo.number < w.params.constantinopleForkBlock) then
        { e with m_s := e.m_s.incNonce w.crypto.EmptyTrie sender } else e) := by
    split
    · exact h.quiet (.incNonce _ _)
    · exact h
  generalize (if e.m_t.isSome ∧
      (sender ≠ MaxAddress ∨ e.m_envInfo.number < w.params.constantinopleForkBlock)
    then { e with m_s := e.m_s.incNonce w.crypto.EmptyTrie sender } else e) = e₁ at hinc ⊢
  split
  · rename_i p _
    split
    · -- a precompiled contract that cannot be paid: all gas is taken, and the account is touched
      have htouch : State.Quiet w.crypto.EmptyTrie e₁.m_s
          (if w.params.EIP158ForkBlock ≤ e.m_envInfo.number then
            e₁.m_s.addBalance w.crypto.EmptyTrie receiver 0 else e₁.m_s) := by
        split
        · exact .touch _ _
        · exact .refl _
      refine ⟨_, rfl, hinc.tx, hinc.env, hinc.sub, ?_,
        ⟨e₁.m_s, rfl, htouch.journaled, hinc.ledger⟩, fun _ => ⟨hinc.ext, ?_⟩, fun h => by cases h⟩
      · change e₁.m_gas.toNat ≤ _
        rw [hinc.gas]
        exact Nat.zero_le _
      · exact htouch.ledger.trans hinc.ledger
    · split
      · refine callTransfer_spec hL hv hinc.tx hinc.env hinc.sub ?_ hinc.excepted hinc.ledger rfl
        change (BitVec.ofNat 256 (gas.toNat - p.cost data)).toNat ≤ _
        rw [BitVec.toNat_ofNat]
        calc (gas.toNat - p.cost data) % 2 ^ 256 ≤ gas.toNat - p.cost data := Nat.mod_le _ _
          _ ≤ gas.toNat := Nat.sub_le _ _
          _ ≤ _ := hgas
      · exact ⟨_, rfl, hinc.tx, hinc.env, hinc.sub, Nat.zero_le _, ⟨e₁.m_s, rfl, .refl _, hinc.ledger⟩,
          fun _ => ⟨hinc.ext, hinc.ledger⟩, fun h => by cases h⟩
  · split
    · exact callTransfer_spec hL hv hinc.tx hinc.env hinc.sub hgas hinc.excepted hinc.ledger rfl
    · exact callTransfer_spec hL hv hinc.tx hinc.env hinc.sub hgas hinc.excepted hinc.ledger rfl

end Executive

namespace State

variable {tr : H256} {s s' : State} {a : Address}

/-! The address of a new contract has no code until it is set. -/

theorem code_setAccount (s : State) (a : Address) (x : Account) (b : Address) :
    (s.setAccount a x).code b = if b = a then x.code else s.code b := by
  unfold code account setAccount
  by_cases h : b = a
  · subst h
    simp
  · simp [h]

theorem code_cached (s : State) (a : Address) : (s.cached tr a).code = s.code a := by
  unfold cached code
  cases s.account a <;> rfl

theorem code_of_none (h : s.account a = none) : s.code a = [] := by
  unfold code
  rw [h]
  rfl

theorem code_of_some {x : Account} (h : s.account a = some x) : s.code a = x.code := by
  unfold code
  rw [h]
  rfl

theorem code_subBalance {v : U256} (h : s.subBalance tr a v = .ok s') (b : Address) :
    s'.code b = s.code b := by
  rcases subBalance_cases h with rfl | rfl
  · rfl
  · exact code_addBalance s a _ b

theorem code_transferBalance {c : Address} {v : U256} (h : s.transferBalance tr a c v = .ok s')
    (b : Address) : s'.code b = s.code b := by
  rw [transferBalance, bind_eq_ok] at h
  obtain ⟨s₁, h₁, h₂⟩ := h
  cases h₂
  rw [code_addBalance, code_subBalance h₁]

theorem code_setNonce (s : State) (a : Address) (n : U256) (b : Address) :
    (s.setNonce tr a n).code b = s.code b := by
  unfold setNonce
  cases hacc : s.account a with
  | none =>
    refine (code_setAccount s a _ b).trans ?_
    split
    · subst b
      exact (code_of_none hacc).symm
    · rfl
  | some x =>
    refine (code_setAccount s a _ b).trans ?_
    split
    · subst b
      exact (code_of_some hacc).symm
    · rfl

theorem code_clearStorage (s : State) (a b : Address) :
    (s.clearStorage tr a).code b = s.code b := by
  unfold clearStorage
  dsimp only
  split <;>
  · refine (code_setAccount s a _ b).trans ?_
    split
    · subst b
      exact code_cached s a
    · rfl

/-- Code is set where there is none. -/
theorem setCode_ok (h : s.code a = []) (c : Bytes) (v : ℕ) : ∃ s', s.setCode tr a c v = .ok s' := by
  refine ⟨(s.setAccount a ((s.cached tr a).setCode c v)).log (.Code a), ?_⟩
  unfold setCode addressHasCode
  rw [h, throwIf_neg (by decide), ok_bind]
  rfl

end State

namespace Executive

variable {w : World} {burned : ExtVM → U256 → State → ℕ} {e e' : Executive} {s : State}
  {env : EnvInfo} {t : Transaction} {sender receiver : Address} {L : Address → ℕ}

theorem createAt_spec (hL : Ledger.total L < 2 ^ 256) (hv : t.value.toNat ≤ L sender)
    (htx : e.m_t = some t) (henv : e.m_envInfo = env) (hsub : e.sub = .empty)
    (hgas : e.m_gas.toNat ≤ t.gas.toNat) (hexc : e.m_excepted = none) (hl : e.m_s.ledger = L)
    (hsave : e.m_savepoint = e.m_s.savepoint) (hcode : e.m_s.code e.m_newAddress = [])
    (price : U256) (init : Bytes) (version : ℕ) :
    ∃ e', e.createAt w sender t.value price init version = .ok e' ∧
      Started w env t sender e.m_newAddress L e' := by
  obtain ⟨s₁, h₁, hmove⟩ := State.ledger_transferBalance w.crypto.EmptyTrie (s := e.m_s)
    (by rw [hl]; exact hL) (by rw [hl]; exact hv) e.m_newAddress
  rw [hl] at hmove
  have hj : State.Journaled w.crypto.EmptyTrie e.m_s s₁ := .transferBalance h₁
  have hq : ∀ n, State.Quiet w.crypto.EmptyTrie s₁
      ((s₁.setNonce w.crypto.EmptyTrie e.m_newAddress n).clearStorage w.crypto.EmptyTrie
        e.m_newAddress) :=
    fun n => (State.Quiet.setNonce s₁ _ n).trans (.clearStorage _ _)
  unfold createAt
  dsimp only
  rw [h₁]
  change ∃ e', (if init = [] then _ else _) = _ ∧ _
  generalize s₁.m_accountStartNonce +
    (if w.params.EIP158ForkBlock ≤ e.m_envInfo.number then (1 : U256) else 0) = n
  split
  · obtain ⟨s₂, h₂⟩ : ∃ s₂, ((s₁.setNonce w.crypto.EmptyTrie e.m_newAddress n).clearStorage
        w.crypto.EmptyTrie e.m_newAddress).setCode w.crypto.EmptyTrie e.m_newAddress [] version =
        .ok s₂ := by
      apply State.setCode_ok
      rw [State.code_clearStorage, State.code_setNonce, State.code_transferBalance h₁, hcode]
    have hq₂ := (hq n).trans (.setCode h₂)
    rw [h₂]
    exact ⟨_, rfl, htx, henv, hsub, hgas, ⟨e.m_s, hsave.symm, hj.trans hq₂.journaled, hl⟩,
      fun h => absurd hexc h, fun _ => hq₂.ledger.trans hmove⟩
  · exact ⟨_, rfl, htx, henv, hsub, hgas, ⟨e.m_s, hsave.symm, hj.trans (hq n).journaled, hl⟩,
      fun h => absurd hexc h, fun _ => (hq n).ledger.trans hmove⟩

theorem create_spec (hL : Ledger.total L < 2 ^ 256) (hv : t.value.toNat ≤ L sender)
    (h : Prepaid env t L e) {gas : U256} (hgas : gas.toNat ≤ t.gas.toNat) (price : U256)
    (init : Bytes) :
    ∃ e', e.create w sender t.value price gas init = .ok e' ∧
      Started w env t sender (newContractAddress w sender (e.m_s.getNonce sender)) L e' := by
  unfold create
  dsimp only
  generalize newContractAddress w sender (e.m_s.getNonce sender) = n
  have hnew : Prepaid env t L { e with m_newAddress := n } :=
    ⟨h.tx, h.env, h.sub, h.gas, h.excepted, h.ext, h.ledger⟩
  have hinc : Prepaid env t L
      (if sender ≠ MaxAddress ∨ e.m_envInfo.number < w.params.experimentalForkBlock then
        { { e with m_newAddress := n } with m_s := e.m_s.incNonce w.crypto.EmptyTrie sender }
      else { e with m_newAddress := n }) ∧
      (if sender ≠ MaxAddress ∨ e.m_envInfo.number < w.params.experimentalForkBlock then
        { { e with m_newAddress := n } with m_s := e.m_s.incNonce w.crypto.EmptyTrie sender }
      else { e with m_newAddress := n }).m_newAddress = n := by
    split
    · exact ⟨hnew.quiet (.incNonce _ _), rfl⟩
    · exact ⟨hnew, rfl⟩
  generalize (if sender ≠ MaxAddress ∨ e.m_envInfo.number < w.params.experimentalForkBlock then
        { { e with m_newAddress := n } with m_s := e.m_s.incNonce w.crypto.EmptyTrie sender }
      else { e with m_newAddress := n }) = e₁ at hinc ⊢
  obtain ⟨hinc, rfl⟩ := hinc
  split
  · -- a taken address: nothing was done that there is to undo
    refine ⟨_, rfl, hinc.tx, hinc.env, rfl, Nat.zero_le _, ?_, fun _ => ⟨rfl, ?_⟩, fun h => by cases h⟩
    · refine ⟨e₁.m_s, rfl, ?_, hinc.ledger⟩
      change State.Journaled _ _ (e₁.m_s.rollback _ e₁.m_s.savepoint)
      rw [State.rollback_savepoint]
      exact .refl _
    · change (e₁.m_s.rollback _ e₁.m_s.savepoint).ledger = L
      rw [State.rollback_savepoint]
      exact hinc.ledger
  · rename_i hfree
    have hcode : e₁.m_s.code e₁.m_newAddress = [] := by
      by_contra hne
      exact hfree (.inl (decide_eq_true hne))
    exact createAt_spec
      (e := { e₁ with m_savepoint := e₁.m_s.savepoint, m_isCreation := true, m_gas := gas })
      hL hv hinc.tx hinc.env hinc.sub hgas hinc.excepted hinc.ledger rfl hcode price init _

/-- Who gets the value of a transaction: the receiver, or the contract it creates. -/
def target (w : World) (s : State) (t : Transaction) : Address :=
  if t.isCreation then newContractAddress w (t.sender w.crypto) (s.getNonce (t.sender w.crypto))
  else t.receiveAddress

theorem execute_spec (hs : Ledger.total s.ledger < 2 ^ 256) (h : Checked w s env t e) :
    ∃ e', e.execute w t = .ok e' ∧
      Started w env t (t.sender w.crypto) (target w s t)
        (Ledger.debit s.ledger (t.sender w.crypto) (t.gas.toNat * t.gasPrice.toNat)) e' := by
  have hms : e.m_s = s := by
    rw [h.eq]
    rfl
  have hcost : e.m_gasCost.toNat ≤ s.ledger (t.sender w.crypto) := by
    have := h.cost
    have := h.cash
    omega
  obtain ⟨s₁, h₁, hl⟩ := State.ledger_subBalance w.crypto.EmptyTrie hcost
  rw [h.cost] at hl
  have hnonce : s₁.getNonce (t.sender w.crypto) = s.getNonce (t.sender w.crypto) := by
    rcases State.subBalance_cases h₁ with rfl | rfl
    · rfl
    · exact State.getNonce_addBalance _ _ _ _
  have hpaid : Prepaid env t (Ledger.debit s.ledger (t.sender w.crypto)
      (t.gas.toNat * t.gasPrice.toNat)) { e with m_s := s₁ } := by
    rw [h.eq]
    exact ⟨rfl, rfl, rfl, rfl, rfl, rfl, hl⟩
  have hbase : e.m_baseGasRequired ≤ t.gas.toNat := by
    rw [h.eq]
    exact h.base
  have hgas : (t.gas - BitVec.ofNat 256 e.m_baseGasRequired).toNat ≤ t.gas.toNat := by
    have hlt := hbase.trans_lt t.gas.isLt
    have hof : (BitVec.ofNat 256 e.m_baseGasRequired).toNat = e.m_baseGasRequired := by
      rw [BitVec.toNat_ofNat, Nat.mod_eq_of_lt hlt]
    rw [BitVec.toNat_sub_of_le (by rw [BitVec.le_def, hof]; exact hbase)]
    exact Nat.sub_le _ _
  have htotal : Ledger.total (Ledger.debit s.ledger (t.sender w.crypto)
      (t.gas.toNat * t.gasPrice.toNat)) < 2 ^ 256 := by
    have := Ledger.total_debit s.ledger (h.cost ▸ hcost)
    omega
  have hvalue : t.value.toNat ≤ Ledger.debit s.ledger (t.sender w.crypto)
      (t.gas.toNat * t.gasPrice.toNat) (t.sender w.crypto) := by
    have := h.cash
    rw [Ledger.debit_apply, if_pos rfl]
    omega
  unfold execute target
  dsimp only
  rw [hms, h₁]
  change ∃ e', (if t.isCreation then _ else _) = _ ∧ _
  split
  · have hc := create_spec (w := w) htotal hvalue hpaid hgas t.gasPrice t.data
    change ∃ e', _ ∧ Started w env t _ (newContractAddress w _ (s₁.getNonce _)) _ _ at hc
    rw [hnonce] at hc
    exact hc
  · exact call_spec htotal hvalue hpaid hgas t.gasPrice t.data

/-! ## The run -/

/-- The state the virtual machine is run on. -/
def vmState (w : World) (e : Executive) (ext : ExtVM) : State :=
  if e.m_isCreation then e.m_s.clearStorage w.crypto.EmptyTrie ext.myAddress else e.m_s

/-- What was burned, when it is not rolled back. -/
def burnt (w : World) (burned : ExtVM → U256 → State → ℕ) (e e' : Executive) : ℕ :=
  match e.m_ext with
  | some ext => if e'.m_excepted = none then burned ext e.m_gas (e.vmState w ext) else 0
  | none => 0

/-- What `go` leaves. After an exception the balances are those after the payment; otherwise they are
what the virtual machine made of them once the value had moved. -/
structure Ran (w : World) (env : EnvInfo) (t : Transaction) (sender receiver : Address)
    (L : Address → ℕ) (lost : ℕ) (e : Executive) : Prop where
  tx : e.m_t = some t
  env : e.m_envInfo = env
  gas : e.m_gas.toNat ≤ t.gas.toNat
  failed : e.m_excepted ≠ none → e.m_s.ledger = L ∧ lost = 0
  normal : e.m_excepted = none → ∃ s s' : State,
    s.ledger = Ledger.move L sender receiver t.value.toNat ∧
      State.Host w.crypto.EmptyTrie w.tries s s' lost ∧ e.m_s.ledger = s'.ledger

/-- A rollback from wherever the virtual machine left the state. -/
theorem Started.revert (h : Started w env t sender receiver L e)
    (hj : State.Journaled w.crypto.EmptyTrie e.m_s s) :
    (s.rollback w.crypto.EmptyTrie e.m_savepoint).ledger = L := by
  obtain ⟨s₀, hsave, hj₀, hl⟩ := h.savepoint
  rw [← hsave, ← hl]
  exact funext fun a => congrArg BitVec.toNat ((hj₀.trans hj).rollback.2 a)

/-- What is made of the code a creation returned. -/
theorem ran_depositCode {ext : ExtVM} {out : Bytes} {lost : ℕ} {e₁ : Executive}
    (hd : e.depositCode w ext out = .ok e₁) (htx : e.m_t = some t) (henv : e.m_envInfo = env)
    (hgas : e.m_gas.toNat ≤ t.gas.toNat) (hexc : e.m_excepted = none)
    (hback : (e.m_s.rollback w.crypto.EmptyTrie e.m_savepoint).ledger = L)
    (hdone : ∀ s'', State.Quiet w.crypto.EmptyTrie e.m_s s'' → ∃ s s' : State,
      s.ledger = Ledger.move L sender receiver t.value.toNat ∧
        State.Host w.crypto.EmptyTrie w.tries s s' lost ∧ s''.ledger = s'.ledger) :
    Ran w env t sender receiver L (if e₁.m_excepted = none then lost else 0) e₁ := by
  have hfail : ∀ x, Ran w env t sender receiver L
      (if (e.fail w x).m_excepted = none then lost else 0) (e.fail w x) := fun x =>
    ⟨htx, henv, Nat.zero_le _, fun _ => ⟨hback, rfl⟩, fun hx => by cases hx⟩
  unfold depositCode at hd
  dsimp only at hd
  split at hd
  · cases hd
    exact hfail _
  · split at hd
    · rename_i hpay
      rw [result_bind_eq_ok] at hd
      obtain ⟨s₁, h₁, hd⟩ := hd
      cases hd
      refine ⟨htx, henv, ?_, fun hx => absurd hexc hx, fun _ => ?_⟩
      · have hof : (BitVec.ofNat 256 (out.length * (e.schedule w).createDataGas)).toNat ≤ e.m_gas.toNat := by
          rw [BitVec.toNat_ofNat]
          exact (Nat.mod_le _ _).trans hpay
        calc (e.m_gas - BitVec.ofNat 256 (out.length * (e.schedule w).createDataGas)).toNat
            = e.m_gas.toNat - (BitVec.ofNat 256 (out.length * (e.schedule w).createDataGas)).toNat :=
              BitVec.toNat_sub_of_le (BitVec.le_def.2 hof)
          _ ≤ e.m_gas.toNat := Nat.sub_le _ _
          _ ≤ _ := hgas
      · change ∃ s s', _ ∧ State.Host _ _ s s' (if e.m_excepted = none then lost else 0) ∧ _
        rw [if_pos hexc]
        exact hdone s₁ (.setCode (liftState_eq_ok.1 h₁))
    · split at hd
      · cases hd
        exact hfail _
      · rw [result_bind_eq_ok] at hd
        obtain ⟨s₁, h₁, hd⟩ := hd
        cases hd
        refine ⟨htx, henv, hgas, fun hx => absurd hexc hx, fun _ => ?_⟩
        change ∃ s s', _ ∧ State.Host _ _ s s' (if e.m_excepted = none then lost else 0) ∧ _
        rw [if_pos hexc]
        exact hdone s₁ (.setCode (liftState_eq_ok.1 h₁))

theorem go_spec (hw : w.Conserves burned) (hL : Ledger.total L < 2 ^ 256)
    (hv : t.value.toNat ≤ L sender) (h : Started w env t sender receiver L e)
    (hgo : e.go w = .ok e') : Ran w env t sender receiver L (burnt w burned e e') e' := by
  unfold go at hgo
  split at hgo
  · rename_i hext
    cases hgo
    have hlost : burnt w burned e e = 0 := by
      unfold burnt
      rw [hext]
    rw [hlost]
    exact ⟨h.tx, h.env, h.gas, fun hx => ⟨(h.failed hx).2, rfl⟩,
      fun hx => ⟨e.m_s, e.m_s, h.moved hx, .start _, rfl⟩⟩
  · rename_i ext hext
    have hexc : e.m_excepted = none := by
      by_contra hne
      have := (h.failed hne).1
      rw [hext] at this
      cases this
    have hmoved := h.moved hexc
    have hlost : burnt w burned e e' =
        if e'.m_excepted = none then burned ext e.m_gas (e.vmState w ext) else 0 := by
      unfold burnt
      rw [hext]
    have hq : State.Quiet w.crypto.EmptyTrie e.m_s (e.vmState w ext) := by
      unfold vmState
      split
      · exact .clearStorage _ _
      · exact .refl _
    have hvm := hw ext e.m_gas (e.vmState w ext)
    have ht : Ledger.total (e.vmState w ext).ledger < 2 ^ 256 := by
      rw [hq.ledger, hmoved, Ledger.total_move _ _ hv]
      exact hL
    rw [hlost]
    change (match w.vm ext e.m_gas (e.vmState w ext) with
      | .done gas output sub s => _ | .reverted gas output s => _ | .failed x s => _ | .exit => _) = _
      at hgo
    cases hr : w.vm ext e.m_gas (e.vmState w ext) with
    | done g output sub s' =>
      rw [hr] at hvm hgo
      obtain ⟨hg, hhost⟩ := hvm
      have hle : g.toNat ≤ t.gas.toNat := (BitVec.le_def.1 hg).trans h.gas
      have hdone := fun (s'' : State) (hs'' : State.Quiet w.crypto.EmptyTrie s' s'') =>
        (⟨e.vmState w ext, s', hq.ledger.trans hmoved, hhost, hs''.ledger⟩ : ∃ s₁ s₂ : State,
          s₁.ledger = Ledger.move L sender receiver t.value.toNat ∧
          State.Host w.crypto.EmptyTrie w.tries s₁ s₂ (burned ext e.m_gas (e.vmState w ext)) ∧
          s''.ledger = s₂.ledger)
      have hback := h.revert (hq.journaled.trans (hhost.spec ht).1)
      dsimp only at hgo
      split at hgo
      · exact ran_depositCode hgo h.tx h.env hle hexc hback hdone
      · cases hgo
        rw [if_pos hexc]
        exact ⟨h.tx, h.env, hle, fun hx => absurd hexc hx, fun _ => hdone s' (.refl s')⟩
    | reverted g output s' =>
      rw [hr] at hvm hgo
      obtain ⟨hg, n, hhost⟩ := hvm
      cases hgo
      exact ⟨h.tx, h.env, (BitVec.le_def.1 hg).trans h.gas,
        fun _ => ⟨h.revert (hq.journaled.trans (hhost.spec ht).1), rfl⟩, fun hx => by cases hx⟩
    | failed x s' =>
      rw [hr] at hvm hgo
      obtain ⟨n, hhost⟩ := hvm
      cases hgo
      exact ⟨h.tx, h.env, Nat.zero_le _,
        fun _ => ⟨h.revert (hq.journaled.trans (hhost.spec ht).1), rfl⟩, fun hx => by cases hx⟩
    | exit =>
      rw [hr] at hgo
      cases hgo

/-! ## The settlement -/

theorem Ran.total {lost : ℕ} (h : Ran w env t sender receiver L lost e)
    (hL : Ledger.total L < 2 ^ 256) (hv : t.value.toNat ≤ L sender) :
    Ledger.total e.m_s.ledger + lost = Ledger.total L := by
  by_cases hx : e.m_excepted = none
  · obtain ⟨s, s', hs, hhost, hl⟩ := h.normal hx
    have hmove := Ledger.total_move L receiver hv
    have := (hhost.spec (by rw [hs, hmove]; exact hL)).2
    rw [hl, this, hs, hmove]
  · obtain ⟨hl, hlost⟩ := h.failed hx
    rw [hl, hlost, Nat.add_zero]

/-- The refund is at most half of what was used. -/
theorem refund_gas (h : e.m_gas.toNat ≤ t.gas.toNat) (htx : e.m_t = some t)
    (hr : 0 ≤ e.sub.refunds + (e.schedule w).selfdestructRefundGas * e.sub.selfdestructs.length) :
    e.m_gas.toNat ≤ (e.refund w).m_gas.toNat ∧
      2 * ((e.refund w).m_gas.toNat - e.m_gas.toNat) ≤ t.gas.toNat - e.m_gas.toNat := by
  have hgas : e.m_t.elim 0 Transaction.gas = t.gas := by
    rw [htx]
    rfl
  unfold refund
  rw [hgas]
  generalize e.sub.refunds + (e.schedule w).selfdestructRefundGas * e.sub.selfdestructs.length =
    refunds at hr
  have hdiff : 0 ≤ toInt64Sat t.gas - toInt64Sat e.m_gas ∧
      toInt64Sat t.gas - toInt64Sat e.m_gas ≤ t.gas.toNat - e.m_gas.toNat := by
    unfold toInt64Sat
    omega
  have hcap := Int.tdiv_eq_ediv_of_nonneg (b := 2) hdiff.1
  have hlt := t.gas.isLt
  -- the refund as a natural number
  obtain ⟨k, hk⟩ := Int.eq_ofNat_of_zero_le
    (show 0 ≤ min ((toInt64Sat t.gas - toInt64Sat e.m_gas).tdiv 2) refunds by omega)
  have hof : (U256.ofInt k).toNat = k := by
    rw [U256.ofInt, BitVec.toNat_ofInt]
    omega
  change e.m_gas.toNat ≤ (e.m_gas + U256.ofInt _).toNat ∧ 2 * ((e.m_gas + U256.ofInt _).toNat - _) ≤ _
  rw [hk, BitVec.toNat_add, hof, Nat.mod_eq_of_lt (by omega)]
  omega

/-- The accounts that are killed in the end. -/
def kills (e : Executive) : List Address := if e.m_ext.isSome then e.sub.selfdestructs else []

/-- The balances once the gas is settled, before accounts are killed. -/
def settlement (w : World) (env : EnvInfo) (t : Transaction) (e e' : Executive) : Address → ℕ :=
  Ledger.credit (Ledger.credit e.m_s.ledger (t.sender w.crypto) (e'.m_gas.toNat * t.gasPrice.toNat))
    env.header.author (e'.gasUsed.toNat * t.gasPrice.toNat)

end Executive

theorem State.ledger_kill (tr : H256) (s : State) (a : Address) :
    (s.kill tr a).ledger = Ledger.clear s.ledger a := by
  funext b
  rw [Ledger.clear_apply]
  unfold State.ledger State.kill
  cases hacc : s.account a with
  | none =>
    dsimp only
    split
    · subst b
      rw [State.balance_none hacc]
      rfl
    · rfl
  | some x =>
    dsimp only
    rw [State.balance_setAccount]
    split <;> rfl

theorem State.ledger_killAll (tr : H256) (l : List Address) (s : State) :
    (l.foldl (fun s a => s.kill tr a) s).ledger = Ledger.clearAll s.ledger l := by
  induction l generalizing s with
  | nil => rfl
  | cons a l ih =>
    rw [List.foldl_cons, ih, State.ledger_kill]
    rfl

namespace Executive

variable {w : World} {burned : ExtVM → U256 → State → ℕ} {e e' e₁ e₂ e₃ : Executive} {s : State}
  {env : EnvInfo} {t : Transaction} {sender receiver : Address} {L : Address → ℕ}

/-- What is paid back and what the author gets is what was paid. -/
theorem ledger_payGas (hs : Ledger.total e.m_s.ledger + t.gas.toNat * t.gasPrice.toNat < 2 ^ 256)
    (hgas : e.m_gas.toNat ≤ t.gas.toNat) :
    (e.payGas w t).m_s.ledger = Ledger.credit (Ledger.credit e.m_s.ledger (t.sender w.crypto)
      (e.m_gas.toNat * t.gasPrice.toNat)) e.m_envInfo.header.author
        ((t.gas.toNat - e.m_gas.toNat) * t.gasPrice.toNat) := by
  have hsplit : e.m_gas.toNat * t.gasPrice.toNat + (t.gas.toNat - e.m_gas.toNat) * t.gasPrice.toNat =
      t.gas.toNat * t.gasPrice.toNat := by
    rw [← Nat.add_mul, Nat.add_sub_cancel' hgas]
  have hback : (e.m_gas * t.gasPrice).toNat = e.m_gas.toNat * t.gasPrice.toNat := by
    rw [BitVec.toNat_mul, Nat.mod_eq_of_lt (by omega)]
  have hfee : ((t.gas - e.m_gas) * t.gasPrice).toNat =
      (t.gas.toNat - e.m_gas.toNat) * t.gasPrice.toNat := by
    rw [BitVec.toNat_mul, BitVec.toNat_sub_of_le (BitVec.le_def.2 hgas), Nat.mod_eq_of_lt (by omega)]
  have h₁ : (e.m_s.addBalance w.crypto.EmptyTrie (t.sender w.crypto) (e.m_gas * t.gasPrice)).ledger =
      Ledger.credit e.m_s.ledger (t.sender w.crypto) (e.m_gas.toNat * t.gasPrice.toNat) := by
    rw [← hback]
    apply State.ledger_addBalance
    have := Ledger.le_total e.m_s.ledger (t.sender w.crypto)
    omega
  unfold payGas
  dsimp only
  rw [← hfee, ← h₁]
  apply State.ledger_addBalance
  rw [h₁, hfee]
  have := Ledger.le_total (Ledger.credit e.m_s.ledger (t.sender w.crypto)
    (e.m_gas.toNat * t.gasPrice.toNat)) e.m_envInfo.header.author
  rw [Ledger.total_credit] at this
  omega

/-- What `finalize` leaves. -/
theorem finalize_spec (hs : Ledger.total e.m_s.ledger + t.gas.toNat * t.gasPrice.toNat < 2 ^ 256)
    (htx : e.m_t = some t) (henv : e.m_envInfo = env) (hgas : e.m_gas.toNat ≤ t.gas.toNat) {r : Bool}
    (h : e.finalize w = .ok (r, e')) :
    e'.gasUsed.toNat + e'.m_gas.toNat = t.gas.toNat ∧ e.m_gas.toNat ≤ e'.m_gas.toNat ∧
      2 * (e'.m_gas.toNat - e.m_gas.toNat) ≤ t.gas.toNat - e.m_gas.toNat ∧
      e'.m_s.ledger = Ledger.clearAll (settlement w env t e e') e.kills := by
  rw [finalize, result_bind_eq_ok] at h
  obtain ⟨u, hassert, h⟩ := h
  rw [liftState_eq_ok, throwIf_eq_ok] at hassert
  -- the refund
  obtain ⟨e₁, he₁, hms, htx₁, henv₁, hgas₁, hle, hhalf⟩ : ∃ e₁,
      (if e.m_ext.isSome then e.refund w else e) = e₁ ∧ e₁.m_s = e.m_s ∧ e₁.m_t = some t ∧
      e₁.m_envInfo = env ∧ e₁.m_gas.toNat ≤ t.gas.toNat ∧ e.m_gas.toNat ≤ e₁.m_gas.toNat ∧
      2 * (e₁.m_gas.toNat - e.m_gas.toNat) ≤ t.gas.toNat - e.m_gas.toNat := by
    refine ⟨_, rfl, ?_⟩
    split
    · rename_i hext
      obtain ⟨hle, hhalf⟩ := refund_gas (w := w) hgas htx (not_lt.1 fun hlt => hassert ⟨hext, hlt⟩)
      exact ⟨rfl, htx, henv, by omega, hle, hhalf⟩
    · exact ⟨rfl, htx, henv, hgas, le_rfl, by omega⟩
  have hpay := ledger_payGas (w := w) (e := e₁) (t := t) (by rw [hms]; exact hs) hgas₁
  have hused : (t.gas - e₁.m_gas).toNat = t.gas.toNat - e₁.m_gas.toNat :=
    BitVec.toNat_sub_of_le (BitVec.le_def.2 hgas₁)
  rw [hms, henv₁, ← hused] at hpay
  simp only [he₁, htx₁] at h
  have hext₁ : e₁.m_ext = e.m_ext ∧ e₁.sub.selfdestructs = e.sub.selfdestructs := by
    rw [← he₁]
    split <;> exact ⟨rfl, rfl⟩
  have hkills : (if (e₁.payGas w t).m_ext.isSome then (e₁.payGas w t).sub.selfdestructs else []) =
      e.kills := by
    change (if e₁.m_ext.isSome then e₁.sub.selfdestructs else []) = _
    rw [hext₁.1, hext₁.2]
    rfl
  have hfin : e'.m_gas = e₁.m_gas ∧ e'.m_t = some t ∧
      e'.m_s = e.kills.foldl (fun s a => s.kill w.crypto.EmptyTrie a) (e₁.payGas w t).m_s := by
    rw [← hkills]
    cases h
    split <;> exact ⟨rfl, htx₁, rfl⟩
  obtain ⟨hg, ht, hm⟩ := hfin
  have hgasUsed : e'.gasUsed.toNat = (t.gas - e₁.m_gas).toNat := by
    unfold gasUsed
    rw [ht, hg]
    rfl
  unfold settlement
  rw [hm, State.ledger_killAll, hpay, hgasUsed, hg]
  exact ⟨by omega, hle, hhalf, rfl⟩

/-- The balances after a transaction: what was paid for the gas that was used went from the sender to
the author, what else has moved was moved by the message, and nothing is lost but what killed
accounts held and what was burned. -/
structure Settled (w : World) (burned : ExtVM → U256 → State → ℕ) (s : State) (env : EnvInfo)
    (t : Transaction) (e₁ e₂ e₃ : Executive) : Prop where
  gas : e₃.gasUsed.toNat + e₃.m_gas.toNat = t.gas.toNat
  half : 2 * (e₃.m_gas.toNat - e₂.m_gas.toNat) ≤ t.gas.toNat - e₂.m_gas.toNat
  failed : e₂.m_excepted ≠ none → e₂.m_s.ledger =
    Ledger.debit s.ledger (t.sender w.crypto) (t.gas.toNat * t.gasPrice.toNat)
  moved : e₂.m_excepted = none → ∃ s₁ s₂ : State,
    s₁.ledger = Ledger.move
      (Ledger.debit s.ledger (t.sender w.crypto) (t.gas.toNat * t.gasPrice.toNat))
        (t.sender w.crypto) (target w s t) t.value.toNat ∧
      State.Host w.crypto.EmptyTrie w.tries s₁ s₂ (burnt w burned e₁ e₂) ∧ e₂.m_s.ledger = s₂.ledger
  share : ∀ a, (settlement w env t e₂ e₃ a : ℤ) = s.ledger a + (e₂.m_s.ledger a -
      Ledger.debit s.ledger (t.sender w.crypto) (t.gas.toNat * t.gasPrice.toNat) a) -
      (if a = t.sender w.crypto then e₃.gasUsed.toNat * t.gasPrice.toNat else 0) +
      (if a = env.header.author then e₃.gasUsed.toNat * t.gasPrice.toNat else 0)
  killed : e₃.m_s.ledger = Ledger.clearAll (settlement w env t e₂ e₃) e₂.kills
  total : Ledger.total e₃.m_s.ledger + ∑ a ∈ e₂.kills.toFinset, settlement w env t e₂ e₃ a +
    burnt w burned e₁ e₂ = Ledger.total s.ledger

theorem settled_of_run (hw : w.Conserves burned) (hs : Ledger.total s.ledger < 2 ^ 256)
    (hinit : (Executive.new s env).initializeWith w t = .ok e) (hexec : e.execute w t = .ok e₁)
    (hgo : e₁.go w = .ok e₂) {r : Bool} (hfin : e₂.finalize w = .ok (r, e₃)) :
    Settled w burned s env t e₁ e₂ e₃ := by
  have hc := checked_of_initializeWith hinit
  obtain ⟨e₁', he₁, hstart⟩ := execute_spec hs hc
  rw [hexec] at he₁
  cases he₁
  have hcash := hc.cash
  have hcost : t.gas.toNat * t.gasPrice.toNat ≤ s.ledger (t.sender w.crypto) := by omega
  have hdebit := Ledger.total_debit s.ledger hcost
  set L := Ledger.debit s.ledger (t.sender w.crypto) (t.gas.toNat * t.gasPrice.toNat) with hL
  have htL : Ledger.total L < 2 ^ 256 := by omega
  have hvalue : t.value.toNat ≤ L (t.sender w.crypto) := by
    rw [hL, Ledger.debit_apply, if_pos rfl]
    omega
  have hran := go_spec hw htL hvalue hstart hgo
  have htotal := hran.total htL hvalue
  obtain ⟨hgas, hle, hhalf, hkill⟩ := finalize_spec (w := w) (by omega) hran.tx hran.env
    hran.gas hfin
  have hsplit : e₃.gasUsed.toNat * t.gasPrice.toNat + e₃.m_gas.toNat * t.gasPrice.toNat =
      t.gas.toNat * t.gasPrice.toNat := by
    rw [← Nat.add_mul, hgas]
  refine ⟨hgas, hhalf, fun hx => (hran.failed hx).1, hran.normal, fun a => ?_, hkill, ?_⟩
  · have hback := Ledger.debit_add s.ledger hcost a
    unfold settlement
    rw [Ledger.credit_apply, Ledger.credit_apply]
    by_cases ha : a = t.sender w.crypto
    · rw [if_pos ha] at hback ⊢
      rw [if_pos ha]
      split <;> push_cast <;> omega
    · rw [if_neg ha] at hback ⊢
      rw [if_neg ha]
      split <;> push_cast <;> omega
  · have hsettle : Ledger.total (settlement w env t e₂ e₃) =
        Ledger.total e₂.m_s.ledger + t.gas.toNat * t.gasPrice.toNat := by
      unfold settlement
      rw [Ledger.total_credit, Ledger.total_credit]
      omega
    rw [hkill, Ledger.total_clearAll, hsettle]
    omega

/-- A transaction that passes the checks is executed, and whatever the virtual machine moves, the
balances come out even. -/
theorem value_conserved (hw : w.Conserves burned) (hs : Ledger.total s.ledger < 2 ^ 256)
    (hinit : (Executive.new s env).initializeWith w t = .ok e) :
    ∃ e₁, e.execute w t = .ok e₁ ∧ ∀ e₂, e₁.go w = .ok e₂ → ∀ r e₃, e₂.finalize w = .ok (r, e₃) →
      Settled w burned s env t e₁ e₂ e₃ := by
  obtain ⟨e₁, hexec, -⟩ := execute_spec hs (checked_of_initializeWith hinit)
  exact ⟨e₁, hexec, fun e₂ hgo r e₃ hfin => settled_of_run hw hs hinit hexec hgo hfin⟩

end Executive

/-! ## A contract that burns what it has -/

namespace Devnet

/-- Every contract destroys itself in favour of itself. -/
def burning : World :=
  { world with
    vm := fun ext gas s => .done gas [] ⟨[ext.myAddress], [], 0⟩
      (ExtVM.selfdestruct crypto.EmptyTrie s ext.myAddress ext.myAddress) }

theorem conserves_burning : burning.Conserves fun ext _ s => s.ledger ext.myAddress := by
  intro ext gas s
  refine ⟨BitVec.le_refl _, ?_⟩
  have h : State.Host crypto.EmptyTrie tries s _ _ :=
    .selfdestruct ext.myAddress ext.myAddress (.start s)
  rw [if_pos rfl, Nat.zero_add] at h
  exact h

/-- A contract with a balance of seven, and an author who can pay. -/
def burner : State :=
  State.ofTrie (fun a => if a = 0xc then some ⟨0, 7, crypto.EmptyTrie, [0xff]⟩ else
    if a = address false then some ⟨0, 100000, crypto.EmptyTrie, []⟩ else none) 0

theorem ledger_burner :
    burner.ledger = Ledger.credit (Ledger.credit (fun _ => 0) (address false) 100000) 0xc 7 := by
  funext a
  rw [Ledger.credit_apply, Ledger.credit_apply]
  unfold State.ledger State.balance State.account burner State.ofTrie
  by_cases ha : a = 0xc
  · subst ha
    rfl
  · rw [if_neg ha]
    by_cases hb : a = address false
    · subst hb
      rfl
    · simp only [if_neg ha, if_neg hb, Option.map_none]
      rfl

theorem total_burner : Ledger.total burner.ledger = 100007 := by
  have hzero : Ledger.total (fun _ : Address => 0) = 0 := Finset.sum_const_zero
  rw [ledger_burner, Ledger.total_credit, Ledger.total_credit, hzero]

theorem total_burner_lt : Ledger.total burner.ledger < 2 ^ 256 := by
  rw [total_burner]
  norm_num

/-- The first author calls the contract and pays it five. -/
def callBurner : Transaction :=
  { m_type := .MessageCall, nonce := 0, value := 5, receiveAddress := 0xc, gasPrice := 2,
    gas := 30000, data := [], m_vrs := some ⟨1, (address false).setWidth 768⟩, m_forcedSender := 0 }

end Devnet

namespace Executive

open Devnet (burning burner callBurner)

/-- The run of the call. -/
def burnerRun : Result (Executive × Executive × Bool × Executive) := do
  let e ← liftState burner ((Executive.new burner (ExtVM.envAt 1)).initializeWith burning callBurner)
  let e₁ ← e.execute burning callBurner
  let e₂ ← e₁.go burning
  let r ← e₂.finalize burning
  return (e₁, e₂, r)

/-- The payer is left with what the value and half of the gas, given back for the contract that was destroyed,
leave; the author of the block has the price of the other half. What the contract had and was paid is burned. -/
theorem exists_burnerRun : ∃ e e₁ e₂ r e₃,
    (Executive.new burner (ExtVM.envAt 1)).initializeWith burning callBurner = .ok e ∧
      e.execute burning callBurner = .ok e₁ ∧ e₁.go burning = .ok e₂ ∧ e₂.finalize burning = .ok (r, e₃) ∧
      burnt burning (fun ext _ s => s.ledger ext.myAddress) e₁ e₂ = 12 ∧
      e₃.m_s.ledger (Devnet.address false) = 78995 ∧ e₃.m_s.ledger 0 = 21000 := by
  have hrun : (burnerRun.toOption.map fun r => (burnt burning (fun ext _ s => s.ledger ext.myAddress) r.1 r.2.1,
      r.2.2.2.m_s.ledger (Devnet.address false), r.2.2.2.m_s.ledger 0)) = some (12, 78995, 21000) := by
    decide +kernel
  cases hr : burnerRun with
  | error x =>
    rw [hr] at hrun
    cases hrun
  | ok q =>
    obtain ⟨e₁, e₂, r, e₃⟩ := q
    rw [hr] at hrun
    obtain ⟨hburnt, hpayer, hauthor⟩ : _ ∧ _ ∧ _ := by
      simpa only [Prod.mk.injEq] using Option.some.inj hrun
    simp only [burnerRun, result_bind_eq_ok, liftState_eq_ok] at hr
    obtain ⟨e, hinit, e₁', hexec, e₂', hgo, q, hfin, hq⟩ := hr
    cases hq
    exact ⟨e, e₁, e₂, r, e₃, hinit, hexec, hgo, hfin, hburnt, hpayer, hauthor⟩

/-- The paid call of the contract comes out even. -/
theorem value_conserved_burner :
    burning.Conserves (fun ext _ s => s.ledger ext.myAddress) ∧ Ledger.total burner.ledger < 2 ^ 256 ∧
    ∃ e e₁ e₂ r e₃, (Executive.new burner (ExtVM.envAt 1)).initializeWith burning callBurner = .ok e ∧
      e.execute burning callBurner = .ok e₁ ∧ e₁.go burning = .ok e₂ ∧ e₂.finalize burning = .ok (r, e₃) ∧
      Settled burning (fun ext _ s => s.ledger ext.myAddress) burner (ExtVM.envAt 1) callBurner e₁ e₂ e₃ ∧
      burnt burning (fun ext _ s => s.ledger ext.myAddress) e₁ e₂ = 12 ∧
      e₃.m_s.ledger (Devnet.address false) = 78995 ∧ e₃.m_s.ledger 0 = 21000 := by
  obtain ⟨e, e₁, e₂, r, e₃, hinit, hexec, hgo, hfin, hvalues⟩ := exists_burnerRun
  obtain ⟨e₁', hexec', hsettled⟩ := value_conserved Devnet.conserves_burning Devnet.total_burner_lt hinit
  obtain rfl := Except.ok.inj (hexec.symm.trans hexec')
  exact ⟨Devnet.conserves_burning, Devnet.total_burner_lt, e, e₁, e₂, r, e₃, hinit, hexec, hgo, hfin,
    hsettled e₂ hgo r e₃ hfin, hvalues⟩

/-- The balance of the contract is gone before the contract is killed. -/
theorem burned_before_kill :
    burning.Conserves (fun ext _ s => s.ledger ext.myAddress) ∧ Ledger.total burner.ledger < 2 ^ 256 ∧
    ∃ e e₁ e₂ r e₃, (Executive.new burner (ExtVM.envAt 1)).initializeWith burning callBurner = .ok e ∧
      e.execute burning callBurner = .ok e₁ ∧ e₁.go burning = .ok e₂ ∧
      e₂.finalize burning = .ok (r, e₃) ∧
      Ledger.total e₃.m_s.ledger +
        ∑ a ∈ e₂.kills.toFinset, settlement burning (ExtVM.envAt 1) callBurner e₂ e₃ a ≠
          Ledger.total burner.ledger := by
  obtain ⟨e, e₁, e₂, r, e₃, hinit, hexec, hgo, hfin, hburnt, -⟩ := exists_burnerRun
  have hset := settled_of_run Devnet.conserves_burning Devnet.total_burner_lt hinit hexec hgo hfin
  refine ⟨Devnet.conserves_burning, Devnet.total_burner_lt, e, e₁, e₂, r, e₃, hinit, hexec, hgo, hfin, fun heq => ?_⟩
  have := hset.total
  omega

end Executive

end Petrachor
