import Petrachor.Block
import Petrachor.StateCache.Executive
import Petrachor.StateCache.Simulation

/-!
# The state in the middle of a block

A block executes its transactions one after another and commits the state behind each of them. The
state before one of them is found again from the receipts, where they have state roots, and else by
executing the transactions before it once more, on one state that is not committed in between.
-/

namespace Petrachor.StateCache

/-- A state root, by the contents of the trie. -/
abbrev Root := Address → Option Record

structure TransactionReceipt where
  /-- A status code, or a state root. -/
  m_statusCodeOrStateRoot : Bool ⊕ Root
  cumulativeGasUsed : U256
  log : List LogEntry

/-- `stateRoot()`, which throws `TransactionReceiptVersionError` if there is a status code. -/
def TransactionReceipt.stateRoot (r : TransactionReceipt) : Option Root :=
  match r.m_statusCodeOrStateRoot with
  | .inl _ => none
  | .inr root => some root

namespace State

def setRoot (s : State) (r : Root) : State :=
  { s with m_state := r, m_cache := ∅, m_nonExistingAccountsCache := ∅ }

/-- `execute(envInfo, sealEngine, t, Permanence::Committed)` may leave the state `s₁` before it is
committed, and give the receipt. -/
def Executes (w : World) (env : EnvInfo) (t : Transaction) (s s₁ : State)
    (receipt : TransactionReceipt) : Prop :=
  ∃ statusCode e saved,
    stateMachine.Runs (s, []) (executeTransaction w env t) (.ok (statusCode, e)) (s₁, saved) ∧
    receipt =
      ⟨if w.params.byzantiumForkBlock ≤ env.number then .inl statusCode
        else .inr (s₁.commit (commitBehaviour w env)).m_state,
      env.gasUsed + e.gasUsed, e.m_logs⟩
where
  commitBehaviour (w : World) (env : EnvInfo) : CommitBehaviour :=
    if w.params.EIP158ForkBlock ≤ env.number then .RemoveEmptyAccounts else .KeepEmptyAccounts

end State

export State.Executes (commitBehaviour)

/-! ## The block -/

structure Block where
  m_state : State
  m_transactions : List Transaction
  m_receipts : List TransactionReceipt
  /-- The state root of `m_previousBlock`. -/
  m_previousRoot : Root
  m_currentBlock : BlockHeader

/-- A transaction as a block executed it: the state before it, its environment, and the state before
the commit. -/
structure Step where
  before : State
  env : EnvInfo
  transaction : Transaction
  after : State

namespace Block

variable (w : World) (lastHashes : Except Exception (List H256))

/-- The gas used by the transactions so far. -/
def gasUsed (b : Block) : U256 := (b.m_receipts.getLast?).elim 0 TransactionReceipt.cumulativeGasUsed

def envInfo (b : Block) (gasUsed : U256) : EnvInfo :=
  ⟨b.m_currentBlock, lastHashes, gasUsed, w.params.chainID⟩

/-! ### Starting on a parent -/

/-- The program is run without an exception and what it leaves is committed. -/
def RunsAndCommits {α : Type} (p : Exec α) (b : CommitBehaviour) (s s' : State) : Prop :=
  ∃ r s₁ saved, stateMachine.Runs (s, []) p.run (.ok r) (s₁, saved) ∧ s' = s₁.commit b

def deployBlockhash (env : EnvInfo) : Exec Unit := do
  Exec.write (.createContract c_blockhashContractAddress)
  Exec.write (.setCode c_blockhashContractAddress c_blockhashContractCode
    (BitVec.ofNat 256 (w.params.scheduleForBlockNumber env.number).accountVersion))

/-- The system call that stores the parent's hash. -/
def storeBlockhash (env : EnvInfo) (parentHash : H256) : Exec (Bool × Executive) := do
  let e ← (Executive.new env).call w c_blockhashContractAddress SystemAddress 0 0
    (asBytes 32 parentHash) 1000000
  let e ← e.go w
  e.finalize w

def UpdatesBlockhashContract (env : EnvInfo) (parentHash : H256) (s s' : State) : Prop :=
  ∃ s₁,
    (if env.number = w.params.constantinopleForkBlock then
      RunsAndCommits (deployBlockhash w env) .KeepEmptyAccounts s s₁ else s₁ = s) ∧
    if w.params.constantinopleForkBlock ≤ env.number then
      RunsAndCommits (storeBlockhash w env parentHash) .RemoveEmptyAccounts s₁ s' else s' = s₁

/-- The block after `sync` and `resetCurrent`, on a database that has all the code. -/
structure Begun (b : Block) : Prop where
  transactions : b.m_transactions = []
  receipts : b.m_receipts = []
  state : ∃ db parentHash, (∀ a r, b.m_previousRoot a = some r → CodeKnown db r.codeHash) ∧
    UpdatesBlockhashContract w (b.envInfo w (.ok []) 0) parentHash
      (State.opened b.m_previousRoot db w.params.accountStartNonce) b.m_state

/-! ### Executing transactions -/

/-- The block executes transactions, each committed. -/
inductive Executed : Block → List Step → Block → Prop
  | nil (b : Block) : Executed b [] b
  | cons {b b' : Block} {t : Transaction} {s₁ : State} {receipt : TransactionReceipt}
      {steps : List Step}
      (ht : b.m_state.Executes w (b.envInfo w lastHashes b.gasUsed) t s₁ receipt)
      (h : Executed { b with m_state := s₁.commit (commitBehaviour w (b.envInfo w lastHashes b.gasUsed)),
                             m_transactions := b.m_transactions ++ [t],
                             m_receipts := b.m_receipts ++ [receipt] } steps b') :
      Executed b (⟨b.m_state, b.envInfo w lastHashes b.gasUsed, t, s₁⟩ :: steps) b'

/-! ### Finding a state again -/

def stateRootBeforeTx (b : Block) (i : ℕ) : Option Root :=
  let i := min i b.m_transactions.length
  if 0 < i then (b.m_receipts[i - 1]?).bind TransactionReceipt.stateRoot else some b.m_previousRoot

/-- `executeBlockTransactions` of these transactions, with the gas that was used so far. -/
inductive ExecutesBlockTransactions (b : Block) :
    State → U256 → List Transaction → Except Exception State → Prop
  | done (s : State) (gasUsed : U256) : ExecutesBlockTransactions b s gasUsed [] (.ok s)
  | next {s s' : State} {gasUsed : U256} {t : Transaction} {ts : List Transaction} {ok : Bool}
      {e : Executive} {saved : List ℕ} {r : Except Exception State}
      (ht : stateMachine.Runs (s, []) (executeTransaction w (b.envInfo w lastHashes gasUsed) t)
        (.ok (ok, e)) (s', saved))
      (h : ExecutesBlockTransactions b s' (gasUsed + e.gasUsed) ts r) :
      ExecutesBlockTransactions b s gasUsed (t :: ts) r
  | throws {s s' : State} {gasUsed : U256} {t : Transaction} {ts : List Transaction} {x : Exception}
      {saved : List ℕ}
      (ht : stateMachine.Runs (s, []) (executeTransaction w (b.envInfo w lastHashes gasUsed) t)
        (.error x) (s', saved)) :
      ExecutesBlockTransactions b s gasUsed (t :: ts) (.error x)

/-- `createIntermediateState(o_s, block, i, bc)` may leave `o_s` so, or throw. -/
def CreatesIntermediateState (b : Block) (i : ℕ) (r : Except Exception State) : Prop :=
  match b.stateRootBeforeTx i with
  | some root => r = .ok (b.m_state.copy.setRoot root)
  | none => ∃ root, b.stateRootBeforeTx 0 = some root ∧
      ExecutesBlockTransactions w lastHashes b (b.m_state.copy.setRoot root) 0
        (b.m_transactions.take i) r

/-! ### The end of the block -/

/-- The loop of `applyRewards`. -/
def applyRewards : List (Address × U256) → Exec Unit
  | [] => return ()
  | r :: l => do
    Exec.write (.addBalance r.1 r.2)
    applyRewards l

/-- The rewards are applied and committed, or are still to be. -/
def Closes (b b' : Block) : Prop :=
  b' = b ∨ ∃ rewards s', RunsAndCommits (applyRewards rewards)
    (commitBehaviour w (b.envInfo w (.ok []) 0)) b.m_state s' ∧ b' = { b with m_state := s' }

end Block

/-- What can be observed of an address. -/
structure Observables where
  existing : Bool
  balance : U256
  nonce : U256
  code : Bytes
  storage : U256 → U256

def State.observables (s : State) (a : Address) : Observables :=
  ⟨s.addressInUse a, s.balance a, s.getNonce a, s.code a, s.storage a⟩

/-- The states a block went through: before each transaction, and at the end. -/
def statesOf (steps : List Step) (b : Block) : List State := steps.map Step.before ++ [b.m_state]

/-- An intermediate state is created for the `i`-th transaction, and every one that is has the
observables of the `i`-th of these states. -/
def Block.ReplayAgrees (w : World) (lastHashes : Except Exception (List H256)) (b : Block)
    (states : List State) (i : ℕ) : Prop :=
  (∃ r, b.CreatesIntermediateState w lastHashes i r) ∧
    ∀ r, b.CreatesIntermediateState w lastHashes i r → ∃ o s, r = .ok o ∧
      states[i]? = some s ∧ ∀ a, o.observables a = s.observables a

/-- A transaction whose effects a replay can go on from, with the trie at the start of the block: it
kills no account, creates no contract where there was storage, gives none a version, and of the
accounts it changes none is left empty. -/
structure Step.Plainly (w : World) (root : Root) (st : Step) : Prop where
  inOrder : ∃ bare : Address → Bool,
    (∀ a, bare a = true → (∀ r, root a = some r → r.storageRoot = 0) ∧
      ∀ r, st.before.m_state a = some r → r.storageRoot = 0) ∧
    (executeTransaction w st.env st.transaction).Along Plain.respond Plain.InOrder
      (⟨st.before.answers, fun _ => false, bare, st.before.m_accountStartNonce⟩, [])
  settled : ∀ a x, st.after.m_cache.lookup a = some x → x.isDirty = true → x.m_version = 0 ∧
    (commitBehaviour w st.env = .RemoveEmptyAccounts → x.isEmpty = false)

/-! ## Any program -/

/-- The savepoints are in the log, the newest last. -/
def SavedBelow (x : State × List ℕ) : Prop := (x.1.savepoint :: x.2).Pairwise (· ≥ ·)

/-- What any program keeps of the state it runs on. -/
structure Framed (x y : State × List ℕ) : Prop where
  inv : y.1.Inv
  saved : SavedBelow y
  state : y.1.m_state = x.1.m_state
  db : y.1.m_db = x.1.m_db
  start : y.1.m_accountStartNonce = x.1.m_accountStartNonce

theorem Framed.refl {x : State × List ℕ} (h : x.1.Inv) (hs : SavedBelow x) : Framed x x :=
  ⟨h, hs, rfl, rfl, rfl⟩

theorem Framed.trans {x y z : State × List ℕ} (h : Framed x y) (h' : Framed y z) : Framed x z :=
  ⟨h'.inv, h'.saved, h'.state.trans h.state, h'.db.trans h.db, h'.start.trans h.start⟩

theorem State.state_of_meets {G : Address → Guard} {s : State} {op : Op} (h : op.Meets G s) :
    (s.step op).m_state = s.m_state := by
  funext a
  exact (edits_step h).invariant (P := fun c => c.record = s.m_state a)
    (fun c c' hE hc => by cases hE <;> exact hc) (a := a) rfl

theorem Write.meets_free (w : Write) (s : State) : w.op.Meets .free s := by
  rcases State.meets_free (s := s) w.op with h | ⟨n, h⟩ | ⟨b, h⟩ | h
  · exact h
  all_goals cases w <;> cases h

/-- A call that edits cells only lengthens the log. -/
theorem framed_step {s : State} {saved : List ℕ} {op : Op} (hs : s.Inv) (hb : SavedBelow (s, saved))
    (h : op.Meets .free s) : Framed (s, saved) (s.step op, saved) where
  inv := hs.step op
  saved := by
    obtain ⟨l, hl⟩ := (State.edits_step h).log
    have hle : s.savepoint ≤ (s.step op).savepoint := by
      rw [State.savepoint, State.savepoint, hl, List.length_append]
      omega
    obtain ⟨hhead, htail⟩ := List.pairwise_cons.1 hb
    exact List.pairwise_cons.2 ⟨fun n hn => (hhead n hn).trans hle, htail⟩
  state := State.state_of_meets h
  db := (State.edits_step h).db
  start := (State.edits_step h).start

theorem framed_rollback {s : State} {saved older : List ℕ} {n : ℕ} (hs : s.Inv)
    (hb : SavedBelow (s, saved)) (ho : n :: older <:+ saved) :
    Framed (s, saved) (s.rollback n, n :: older) := by
  obtain ⟨hhead, htail⟩ := List.pairwise_cons.1 hb
  have hn : n ≤ s.savepoint := hhead n (ho.subset List.mem_cons_self)
  have hsplit : s.m_changeLog = s.m_changeLog.take (s.savepoint - n) ++
      s.m_changeLog.drop (s.savepoint - n) := (List.take_append_drop _ _).symm
  have hlen : (s.m_changeLog.drop (s.savepoint - n)).length = n := by
    rw [List.length_drop]
    unfold State.savepoint at hn ⊢
    omega
  have hframe := State.rollback_frame hsplit
  rw [hlen] at hframe
  refine ⟨hs.rollback hn, ?_, hframe.2.1, hframe.1, hframe.2.2.1⟩
  have hsave : (s.rollback n).savepoint = n := by
    rw [State.savepoint, hframe.2.2.2, hlen]
  have hpair : (n :: older).Pairwise (· ≥ ·) := htail.sublist ho.sublist
  unfold SavedBelow
  rw [hsave]
  refine List.pairwise_cons.2 ⟨fun k hk => ?_, hpair⟩
  rcases List.mem_cons.1 hk with rfl | hk
  · exact le_rfl
  · exact (List.pairwise_cons.1 hpair).1 k hk

theorem framed_of_step {x y : State × List ℕ} {c : StateCall} {a : c.Answer} (hx : x.1.Inv)
    (hb : SavedBelow x) (h : stateMachine.step x c a y) : Framed x y := by
  obtain ⟨s, saved⟩ := x
  obtain ⟨sizes, _, h⟩ := h
  cases c with
  | ask q =>
    cases h
    rcases State.asked_quiet s sizes q with he | ⟨op, ho, he⟩
    · change Framed (s, saved) (s.asked sizes q, saved)
      rw [he]
      exact .refl hx hb
    · change Framed (s, saved) (s.asked sizes q, saved)
      rw [he]
      refine framed_step hx hb ?_
      cases op <;> first | exact ho.elim | trivial
  | write w =>
    cases h
    exact framed_step hx hb (w.meets_free s)
  | savepoint =>
    cases h
    refine ⟨hx, List.pairwise_cons.2 ⟨fun n hn => ?_, hb⟩, rfl, rfl, rfl⟩
    rcases List.mem_cons.1 hn with rfl | hn
    · exact le_rfl
    · exact (List.pairwise_cons.1 hb).1 n hn
  | rollback i =>
    simp only [respond] at h
    cases hup : upTo saved i with
    | nil =>
      rw [hup] at h
      cases h
      exact .refl hx hb
    | cons n older =>
      rw [hup] at h
      cases h
      exact framed_rollback hx hb (hup ▸ List.drop_suffix _ _)

theorem framed_of_runs {α : Type} {x y : State × List ℕ} {p : StateProgram α} {r : α}
    (h : stateMachine.Runs x p r y) (hx : x.1.Inv) (hb : SavedBelow x) : Framed x y := by
  induction h with
  | ret => exact .refl hx hb
  | call hstep _ ih =>
    have hf := framed_of_step hx hb hstep
    exact hf.trans (ih hf.inv hf.saved)
  | @shift x _ _ _ _ hshift _ ih =>
    obtain ⟨a, rfl⟩ := hshift
    have hf : Framed x (x.1.step (.evict a), x.2) := framed_step hx hb trivial
    exact hf.trans (ih hf.inv hf.saved)

theorem savedBelow_nil (s : State) : SavedBelow (s, []) := List.pairwise_singleton _ _

end Petrachor.StateCache
