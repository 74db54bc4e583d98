import Petrachor.Devnet
import Petrachor.StateCache.Replay

/-!
# When a replay agrees with the block

The replay and the block simulate the same plain accounts: the block commits after each transaction,
the replay does not, and a commit changes nothing that shows if the transaction leaves nothing that a
commit would take away.
-/

namespace Petrachor.StateCache

variable {w : World} {lastHashes : Except Exception (List H256)}

/-! ## Committed states -/

namespace State

variable {s s₁ : State} {saved : List ℕ}

theorem kept_of_empty (hs : s.Inv) (hc : s.m_cache = ∅) (hl : s.m_changeLog = []) : s.Kept where
  inv := hs
  fresh a := .of_none (by
    change s.m_cache.lookup a = none
    rw [hc, AList.lookup_empty])
  clean a x hx := by
    rw [hc, AList.lookup_empty] at hx
    cases hx
  roots a := by
    refine ⟨fun x hx => ?_, fun r hr => ?_⟩
    · have hx' : s.m_cache.lookup a = some x := hx
      rw [hc, AList.lookup_empty] at hx'
      cases hx'
    · have hr' : Change.StorageRoot r ∈ Keyed.entriesOf a s.m_changeLog := hr
      rw [hl] at hr'
      cases hr'

theorem start_commit (s : State) (b : CommitBehaviour) :
    (s.commit b).m_accountStartNonce = s.m_accountStartNonce := by
  cases b <;> rfl

theorem account_of_empty (hs : s.Inv) (hc : s.m_cache = ∅) (a : Address) :
    s.account a = (s.m_state a).map Account.ofRecord := by
  have he : (s.cell a).entry = none := by
    change s.m_cache.lookup a = none
    rw [hc, AList.lookup_empty]
  rw [account_eq hs, Cell.account, he, Option.none_or]
  rfl

/-- The answers of a state that has no account cached. -/
theorem depicts_of_empty (hs : s.Inv) (hc : s.m_cache = ∅) (a : Address) :
    Depicts s.m_accountStartNonce (s.account a) (s.answers a) := by
  rw [answers_eq hs, ← account_eq hs, account_of_empty hs hc]
  cases s.m_state a with
  | none => rfl
  | some r => exact ⟨rfl, rfl⟩

/-- The answers of the state, as plain accounts. -/
def plain (s : State) (bare : Address → Bool) : Plain :=
  ⟨s.answers, fun _ => false, bare, s.m_accountStartNonce⟩

theorem shows_plain (hs : s.Inv) (hc : s.m_cache = ∅) (bare : Address → Bool)
    (hb : ∀ a, bare a = true → ∀ r, s.m_state a = some r → r.storageRoot = 0) :
    Shows s (s.plain bare) where
  start := rfl
  view := depicts_of_empty hs hc
  marked _ ha := Bool.noConfusion ha
  bare := hb

/-- Code that was known is known after what is run is committed. -/
theorem codeKnown_of_runs {α : Type} {p : StateProgram α} {r : α} (hs : s.Inv)
    (h : stateMachine.Runs (s, []) p r (s₁, saved)) (b : CommitBehaviour) {c : CodeHash}
    (hk : CodeKnown s.m_db c) : CodeKnown (s₁.commit b).m_db c := by
  have hf := framed_of_runs h hs (savedBelow_nil s)
  have hk₁ : CodeKnown s₁.m_db c := (hf.db : s₁.m_db = s.m_db) ▸ hk
  cases b with
  | KeepEmptyAccounts => exact codeKnown_commit hf.inv (.inl hk₁)
  | RemoveEmptyAccounts =>
    rw [commit_remove]
    exact codeKnown_commit hf.inv.removeEmptyAccounts (.inl hk₁)

/-- A commit that takes nothing away keeps what shows. -/
theorem answers_settled (hs : s.Kept) {m : Plain} (hm : Shows s m) {b : CommitBehaviour}
    (h : ∀ a x, s.m_cache.lookup a = some x → x.isDirty = true → x.m_version = 0 ∧
      (b = .RemoveEmptyAccounts → x.isEmpty = false)) (a : Address) :
    (s.commit b).answers a = s.answers a := by
  have hlast : ∀ x, s.m_cache.lookup a = some x →
      x.Lasting s.m_accountStartNonce (s.m_state a) := by
    intro x hx
    cases hd : x.isDirty with
    | false => exact hs.clean a x hx hd
    | true =>
      have hacc : s.account a = some x := by rw [account_def, hx, Option.some_or]
      refine ⟨(h a x hx hd).1, ?_⟩
      rw [if_pos hd]
      exact .inl (hm.of_some hacc).1
  have hkeep := (answers_commit_iff hs.inv a).2 hlast
  cases b with
  | KeepEmptyAccounts => exact hkeep
  | RemoveEmptyAccounts =>
    have hnone : s.hasDirtyEmpty a = false := by
      unfold hasDirtyEmpty
      cases hx : s.m_cache.lookup a with
      | none => rfl
      | some x =>
        rw [Option.elim_some, Bool.and_eq_false_iff]
        cases hd : x.isDirty with
        | false => exact .inl rfl
        | true => exact .inr ((h a x hx hd).2 rfl)
    rw [answers_commit_remove hs.inv, hnone]
    exact hkeep

/-- States that show the same accounts have the same observables. -/
theorem observables_eq {s' : State} (hs : s.Inv) (hs' : s'.Inv) {m m' : Plain} (hm : Shows s m)
    (hm' : Shows s' m') (hv : m'.view = m.view) (a : Address) : s'.observables a = s.observables a := by
  have hans : s'.answers a = s.answers a := by
    rw [hm.answers_eq hs, hm'.answers_eq hs', hv]
  have hex : s'.addressInUse a = s.addressInUse a := by
    have h := hm.existing a
    have h' := hm'.existing a
    rw [hv] at h'
    exact h'.symm.trans h
  unfold observables
  rw [hex, show s'.balance a = s.balance a from congrArg Answers.balance hans,
    show s'.getNonce a = s.getNonce a from congrArg Answers.nonce hans,
    show s'.code a = s.code a from congrArg Answers.code hans,
    show s'.storage a = s.storage a from congrArg Answers.storage hans]

end State

namespace Block

variable {b b' b₀ b₁ : Block} {steps : List Step} {i : ℕ}

/-! ## What a block keeps as it executes -/

/-- From one block to a later one: the header and the parent stay, transactions and receipts are
appended, and the code that was known stays known. -/
structure Grows (b b' : Block) (steps : List Step) : Prop where
  inv : b'.m_state.Inv
  start : b'.m_state.m_accountStartNonce = b.m_state.m_accountStartNonce
  known : ∀ c, CodeKnown b.m_state.m_db c → CodeKnown b'.m_state.m_db c
  header : b'.m_currentBlock = b.m_currentBlock
  previous : b'.m_previousRoot = b.m_previousRoot
  transactions : b'.m_transactions = b.m_transactions ++ steps.map Step.transaction
  receipts : ∃ rs, b'.m_receipts = b.m_receipts ++ rs ∧ rs.length = steps.length

theorem Executed.grows (h : Executed w lastHashes b steps b') (hb : b.m_state.Inv) :
    b.Grows b' steps := by
  induction h with
  | nil b => exact ⟨hb, rfl, fun _ h => h, rfl, rfl, (List.append_nil _).symm, [], by simp, rfl⟩
  | @cons b b' t s₁ receipt steps ht h ih =>
    obtain ⟨statusCode, e, saved, hruns, -⟩ := ht
    have hf := framed_of_runs hruns hb (savedBelow_nil _)
    have hg := ih (hf.inv.commit _)
    obtain ⟨rs, hrs, hlen⟩ := hg.receipts
    refine ⟨hg.inv, hg.start.trans ((State.start_commit s₁ _).trans hf.start), fun c hc => hg.known c ?_, hg.header,
      hg.previous, ?_,
      receipt :: rs, ?_, ?_⟩
    · exact State.codeKnown_of_runs hb hruns _ hc
    · rw [hg.transactions, List.append_assoc]
      rfl
    · rw [hrs, List.append_assoc]
      rfl
    · rw [List.length_cons, List.length_cons, hlen]

/-- The run up to a transaction, and from there on. -/
theorem Executed.split (h : Executed w lastHashes b steps b') (i : ℕ) :
    ∃ b₁, Executed w lastHashes b (steps.take i) b₁ ∧ Executed w lastHashes b₁ (steps.drop i) b' := by
  induction h generalizing i with
  | nil b => exact ⟨b, by rw [List.take_nil]; exact .nil b, by rw [List.drop_nil]; exact .nil b⟩
  | @cons b b' t s₁ receipt steps ht h ih =>
    cases i with
    | zero => exact ⟨b, .nil b, .cons ht h⟩
    | succ i =>
      obtain ⟨b₁, h₁, h₂⟩ := ih i
      exact ⟨b₁, .cons ht h₁, h₂⟩

/-- The state before a transaction is the one that the transactions before it leave. -/
theorem Executed.statesOf_eq (h : Executed w lastHashes b₁ (steps.drop i) b) (hi : i ≤ steps.length) :
    (statesOf steps b)[i]? = some b₁.m_state := by
  unfold statesOf
  rcases hi.lt_or_eq with hlt | rfl
  · rw [List.getElem?_append_left (by rwa [List.length_map]), List.getElem?_map]
    rw [List.drop_eq_getElem_cons hlt] at h
    rw [List.getElem?_eq_getElem hlt, Option.map_some]
    generalize steps[i] = st at h
    cases h with
    | cons ht h => rfl
  · rw [List.drop_length] at h
    cases h
    rw [List.getElem?_append_right (by rw [List.length_map])]
    simp

/-- The last receipt has the root of the state, if it has one. -/
def Latest (w : World) (b : Block) : Prop :=
  ∀ r, b.m_receipts.getLast? = some r → b.m_state.m_cache = ∅ ∧
    r.stateRoot = if w.params.byzantiumForkBlock ≤ U256.ofInt b.m_currentBlock.number then none
      else some b.m_state.m_state

theorem Executed.latest (h : Executed w lastHashes b steps b') (hb : Latest w b) : Latest w b' := by
  induction h with
  | nil b => exact hb
  | @cons b b' t s₁ receipt steps ht h ih =>
    refine ih fun r hr => ?_
    rw [List.getLast?_append, List.getLast?_singleton, Option.some_or] at hr
    cases hr
    obtain ⟨statusCode, e, saved, -, rfl⟩ := ht
    refine ⟨rfl, ?_⟩
    unfold TransactionReceipt.stateRoot EnvInfo.number
    by_cases hbyz : w.params.byzantiumForkBlock ≤ U256.ofInt b.m_currentBlock.number
    · rw [if_pos hbyz, show (b.envInfo w lastHashes b.gasUsed).header = b.m_currentBlock from rfl]
      simp only [hbyz, if_true]
    · rw [if_neg hbyz, show (b.envInfo w lastHashes b.gasUsed).header = b.m_currentBlock from rfl]
      simp only [hbyz, if_false]

/-! ## The replay -/

/-- Replaying transactions that leave nothing behind goes through the states of the block. -/
theorem Executed.replays {bb : Block} {root : Root} (h : Executed w lastHashes b steps b₁)
    (hb : b.m_state.Inv) (hc : b.m_state.m_cache = ∅) (hlog : b.m_state.m_changeLog = [])
    (hheader : bb.m_currentBlock = b.m_currentBlock)
    (hpl : ∀ st ∈ steps, st.Plainly w root) {s : State} (hs : s.Kept)
    (hshow : Shows s (b.m_state.plain fun _ => false)) (hroot : s.m_state = root)
    {r : Except Exception State}
    (hr : ExecutesBlockTransactions w lastHashes bb s b.gasUsed (steps.map Step.transaction) r) :
    ∃ o, r = .ok o ∧ o.Inv ∧ Shows o (b₁.m_state.plain fun _ => false) := by
  induction h generalizing s with
  | nil b =>
    cases hr
    exact ⟨s, rfl, hs.inv, hshow⟩
  | @cons b b₁ t s₁ receipt steps ht h ih =>
    obtain ⟨statusCode, e, saved, hruns, hrec⟩ := ht
    obtain ⟨⟨bare, hbare, halong⟩, hsettled⟩ := hpl _ List.mem_cons_self
    have hkept : b.m_state.Kept := State.kept_of_empty hb hc hlog
    -- both states show the same plain accounts
    have hC : Simulated (b.m_state, []) (b.m_state.plain bare, []) :=
      ⟨hkept, State.shows_plain hb hc bare fun a ha => (hbare a ha).2, .nil _⟩
    have hR : Simulated (s, []) (b.m_state.plain bare, []) :=
      ⟨hs, ⟨hshow.start, hshow.view, hshow.marked, fun a ha r hr' => (hbare a ha).1 r (hroot ▸ hr')⟩,
        .nil _⟩
    obtain ⟨hresC, hafterC⟩ := simulates.runs hruns hC halong
    have henv : bb.envInfo w lastHashes b.gasUsed = b.envInfo w lastHashes b.gasUsed := by
      unfold envInfo
      rw [hheader]
    cases hr with
    | throws hrunsR =>
      rw [henv] at hrunsR
      obtain ⟨hresR, -⟩ := simulates.runs hrunsR hR halong
      rw [← hresC] at hresR
      cases hresR
    | @next _ s' _ _ _ ok e' saved' _ hrunsR hrest =>
      rw [henv] at hrunsR
      obtain ⟨hresR, hafterR⟩ := simulates.runs hrunsR hR halong
      rw [← hresC] at hresR
      cases hresR
      have hfC := framed_of_runs hruns hb (savedBelow_nil _)
      have hfR := framed_of_runs hrunsR hs.inv (savedBelow_nil _)
      have hans := State.answers_settled hafterC.kept hafterC.shows hsettled
      refine ih (hfC.inv.commit _) rfl rfl hheader (fun st hst => hpl st (List.mem_cons_of_mem _ hst))
        hafterR.kept ?_ (hfR.state.trans hroot) ?_
      · -- the commit changes nothing that shows
        have hshowR := hafterR.shows
        have hshowC := hafterC.shows
        have hstart := State.start_commit s₁ (commitBehaviour w (b.envInfo w lastHashes b.gasUsed))
        refine ⟨?_, fun a => ?_, fun a ha => Bool.noConfusion ha, fun a ha => Bool.noConfusion ha⟩
        · calc _ = _ := hshowR.start
            _ = s₁.m_accountStartNonce := hshowC.start.symm
            _ = _ := hstart.symm
        · change Depicts (s₁.commit _).m_accountStartNonce (s'.account a) ((s₁.commit _).answers a)
          have hview := hshowC.answers_eq hafterC.kept.inv a
          rw [hans a, hstart]
          rw [show s₁.answers a = _ from hview, show s₁.m_accountStartNonce = _ from hshowC.start]
          exact hshowR.view a
      · have hgas : ({ b with m_state := s₁.commit (commitBehaviour w (b.envInfo w lastHashes b.gasUsed)),
                              m_transactions := b.m_transactions ++ [t],
                              m_receipts := b.m_receipts ++ [receipt] } : Block).gasUsed =
            b.gasUsed + e.gasUsed := by
          unfold gasUsed
          rw [List.getLast?_append, List.getLast?_singleton, Option.some_or, Option.elim_some, hrec]
          rfl
        rw [hgas]
        exact hrest

/-! ## The start and the end of the block -/

/-- What a program leaves that is run and committed. -/
theorem RunsAndCommits.keeps {α : Type} {p : Exec α} {c : CommitBehaviour} {s s' : State}
    (h : RunsAndCommits p c s s') (hs : s.Inv) :
    s'.Inv ∧ s'.m_accountStartNonce = s.m_accountStartNonce ∧
      ∀ k, CodeKnown s.m_db k → CodeKnown s'.m_db k := by
  obtain ⟨r, s₁, saved, hruns, rfl⟩ := h
  have hf := framed_of_runs hruns hs (savedBelow_nil s)
  exact ⟨hf.inv.commit c, (State.start_commit s₁ c).trans hf.start,
    fun k hk => State.codeKnown_of_runs hs hruns c hk⟩

theorem Begun.inv (h : b.Begun w) : b.m_state.Inv := by
  obtain ⟨db, parentHash, hdb, s₁, h₁, h₂⟩ := h.state
  have ho : (State.opened b.m_previousRoot db w.params.accountStartNonce).Inv := .opened hdb
  have hs₁ : s₁.Inv := by
    split at h₁
    · exact (h₁.keeps ho).1
    · rw [h₁]
      exact ho
  split at h₂
  · exact (h₂.keeps hs₁).1
  · rw [h₂]
    exact hs₁

/-- Before the fork the block starts on the state of its parent. -/
theorem Begun.opened (h : b.Begun w)
    (hn : U256.ofInt b.m_currentBlock.number < w.params.constantinopleForkBlock) :
    ∃ db, (∀ a r, b.m_previousRoot a = some r → CodeKnown db r.codeHash) ∧
      b.m_state = State.opened b.m_previousRoot db w.params.accountStartNonce := by
  obtain ⟨db, parentHash, hdb, s₁, h₁, h₂⟩ := h.state
  have hnum : (b.envInfo w (.ok []) 0).number = U256.ofInt b.m_currentBlock.number := rfl
  rw [hnum] at h₁ h₂
  rw [if_neg (BitVec.ne_of_lt hn)] at h₁
  rw [if_neg (BitVec.not_le.2 hn)] at h₂
  exact ⟨db, hdb, h₂.trans h₁⟩

/-- The rewards leave what a replay needs of the block. -/
theorem Closes.keeps (h : b.Closes w b') (hb : b.m_state.Inv) :
    b'.m_state.m_accountStartNonce = b.m_state.m_accountStartNonce ∧
      (∀ k, CodeKnown b.m_state.m_db k → CodeKnown b'.m_state.m_db k) ∧
      b'.m_currentBlock = b.m_currentBlock ∧ b'.m_previousRoot = b.m_previousRoot ∧
      b'.m_transactions = b.m_transactions ∧ b'.m_receipts = b.m_receipts := by
  rcases h with rfl | ⟨rewards, s', hruns, rfl⟩
  · exact ⟨rfl, fun _ h => h, rfl, rfl, rfl, rfl⟩
  · obtain ⟨_, hstart, hknown⟩ := hruns.keeps hb
    exact ⟨hstart, hknown, rfl, rfl, rfl, rfl⟩

/-! ## Creating an intermediate state -/

/-- Some replay there is. -/
theorem exists_executesBlockTransactions (w : World) (lastHashes : Except Exception (List H256))
    (b : Block) (ts : List Transaction) (s : State) (gasUsed : U256) :
    ∃ r, ExecutesBlockTransactions w lastHashes b s gasUsed ts r := by
  induction ts generalizing s gasUsed with
  | nil => exact ⟨_, .done s gasUsed⟩
  | cons t ts ih =>
    have hruns := stateMachine.runs_run (f := respond ⟨∅, fun _ => []⟩)
      (fun x c => ⟨_, Memo.Sound.empty _, rfl⟩)
      (executeTransaction w (b.envInfo w lastHashes gasUsed) t) (s, [])
    rcases hres : (executeTransaction w (b.envInfo w lastHashes gasUsed) t).run
      (respond ⟨∅, fun _ => []⟩) (s, []) with ⟨r, s', saved⟩
    rw [hres] at hruns
    cases r with
    | error x => exact ⟨_, .throws hruns⟩
    | ok r =>
      obtain ⟨rest, hrest⟩ := ih s' (gasUsed + r.2.gasUsed)
      exact ⟨rest, .next hruns hrest⟩

theorem stateRootBeforeTx_zero (b : Block) : b.stateRootBeforeTx 0 = some b.m_previousRoot := by
  rw [stateRootBeforeTx, Nat.zero_min]
  rfl

theorem exists_createsIntermediateState (w : World) (lastHashes : Except Exception (List H256))
    (b : Block) (i : ℕ) : ∃ r, b.CreatesIntermediateState w lastHashes i r := by
  unfold CreatesIntermediateState
  cases b.stateRootBeforeTx i with
  | some root => exact ⟨_, rfl⟩
  | none =>
    obtain ⟨r, hr⟩ := exists_executesBlockTransactions w lastHashes b (b.m_transactions.take i)
      (b.m_state.copy.setRoot b.m_previousRoot) 0
    exact ⟨r, b.m_previousRoot, b.stateRootBeforeTx_zero, hr⟩

/-- The transactions of a block are those of its steps, wherever the run is cut. -/
theorem Executed.transactions_eq (h₁ : b₀.Executed w lastHashes (steps.take i) b₁) (h₀ : b₀.Begun w)
    (h₂ : b₁.Executed w lastHashes (steps.drop i) b) : b.m_transactions = steps.map Step.transaction := by
  have hg₁ := h₁.grows h₀.inv
  have hg₂ := h₂.grows hg₁.inv
  calc b.m_transactions = b₁.m_transactions ++ (steps.drop i).map Step.transaction := hg₂.transactions
    _ = b₀.m_transactions ++ (steps.take i).map Step.transaction ++ (steps.drop i).map Step.transaction := by
        rw [hg₁.transactions]
    _ = (steps.take i).map Step.transaction ++ (steps.drop i).map Step.transaction := by
        rw [h₀.transactions, List.nil_append]
    _ = steps.map Step.transaction := by rw [← List.map_append, List.take_append_drop]

/-- Behind the first transaction the receipt tells the root, before the fork that took it out. -/
theorem stateRootBeforeTx_pos (h₀ : b₀.Begun w) (h₁ : b₀.Executed w lastHashes (steps.take i) b₁)
    (h₂ : b₁.Executed w lastHashes (steps.drop i) b) (hi : 0 < i) (hle : i ≤ steps.length) :
    b₁.m_state.m_cache = ∅ ∧ b.stateRootBeforeTx i =
      if w.params.byzantiumForkBlock ≤ U256.ofInt b₀.m_currentBlock.number then none
      else some b₁.m_state.m_state := by
  have hg₁ := h₁.grows h₀.inv
  have hg₂ := h₂.grows hg₁.inv
  obtain ⟨rs₁, hrs₁, hlen₁⟩ := hg₁.receipts
  obtain ⟨rs₂, hrs₂, -⟩ := hg₂.receipts
  rw [h₀.receipts, List.nil_append] at hrs₁
  rw [List.length_take, Nat.min_eq_left hle] at hlen₁
  have hlatest : Latest w b₁ := h₁.latest fun r hr => by
    rw [h₀.receipts] at hr
    cases hr
  have hlt : i - 1 < rs₁.length := by omega
  have hlast : b₁.m_receipts.getLast? = some (rs₁[i - 1]) := by
    rw [hrs₁, List.getLast?_eq_getElem?, hlen₁, List.getElem?_eq_getElem hlt]
  obtain ⟨hcache, hroot⟩ := hlatest _ hlast
  refine ⟨hcache, ?_⟩
  have hcount : b.m_transactions.length = steps.length := by
    rw [h₁.transactions_eq h₀ h₂, List.length_map]
  have hget : b.m_receipts[i - 1]? = some (rs₁[i - 1]) := by
    rw [hrs₂, hrs₁, List.getElem?_append_left hlt, List.getElem?_eq_getElem hlt]
  rw [stateRootBeforeTx, hcount, Nat.min_eq_left hle]
  simp only [hi, if_true, hget, Option.bind_some]
  rw [hroot, hg₁.header]

/-- A state that is opened at the root of a committed one has its observables. -/
theorem observables_opened {s : State} (hs : s.Inv) (hc : s.m_cache = ∅) {db : CodeHash → Bytes}
    (hdb : ∀ k, CodeKnown s.m_db k → CodeKnown db k) (a : Address) :
    (State.opened s.m_state db s.m_accountStartNonce).observables a = s.observables a := by
  have ho : (State.opened s.m_state db s.m_accountStartNonce).Inv :=
    .opened fun a r hr => hdb _ ((hs a).known r hr)
  have hacc : ∀ a, (State.opened s.m_state db s.m_accountStartNonce).account a = s.account a := by
    intro a
    rw [State.account_of_empty ho rfl, State.account_of_empty hs hc]
    rfl
  refine State.observables_eq hs ho (State.shows_plain hs hc (fun _ => false)
    fun a ha => Bool.noConfusion ha) (State.shows_plain ho rfl (fun _ => false)
    fun a ha => Bool.noConfusion ha) ?_ a
  funext a
  change (State.opened s.m_state db s.m_accountStartNonce).answers a = s.answers a
  rw [State.answers_eq ho, State.answers_eq hs, ← State.account_eq ho, ← State.account_eq hs, hacc]
  rfl

/-- The replay agrees from the second transaction on where receipts have state roots; and before the
fork that changes the state at the start of a block, if the transactions before leave nothing behind
that a commit takes away. -/
theorem replay_agrees (h₀ : b₀.Begun w) (h : b₀.Executed w lastHashes steps b) (hb : b.Closes w b')
    (hi : i ≤ steps.length)
    (hcond : (0 < i ∧ U256.ofInt b₀.m_currentBlock.number < w.params.byzantiumForkBlock) ∨
      (U256.ofInt b₀.m_currentBlock.number < w.params.constantinopleForkBlock ∧
        ∀ st ∈ steps.take i, st.Plainly w b₀.m_previousRoot)) :
    b'.ReplayAgrees w lastHashes (statesOf steps b) i := by
  refine ⟨exists_createsIntermediateState w lastHashes b' i, fun r hr => ?_⟩
  obtain ⟨b₁, h₁, h₂⟩ := h.split i
  have hstate := h₂.statesOf_eq hi
  have hg₁ := h₁.grows h₀.inv
  have hg₂ := h₂.grows hg₁.inv
  obtain ⟨hstart, hknown, hheader, hprev, htrans, hrec⟩ := hb.keeps hg₂.inv
  have hroot : ∀ j, b'.stateRootBeforeTx j = b.stateRootBeforeTx j := by
    intro j
    rw [stateRootBeforeTx, stateRootBeforeTx, htrans, hrec, hprev]
  -- opening the state of the block at a root of its own
  have hopened : ∀ root, b'.m_state.copy.setRoot root =
      State.opened root b'.m_state.m_db b₁.m_state.m_accountStartNonce := by
    intro root
    rw [← hg₂.start, ← hstart]
    rfl
  have hok : b₁.m_state.m_cache = ∅ → r = .ok (b'.m_state.copy.setRoot b₁.m_state.m_state) →
      ∃ o s, r = .ok o ∧ (statesOf steps b)[i]? = some s ∧ ∀ a, o.observables a = s.observables a := by
    intro hc hr
    refine ⟨_, _, hr, hstate, fun a => ?_⟩
    rw [hopened]
    exact observables_opened hg₁.inv hc (fun k hk => hknown k (hg₂.known k hk)) a
  rcases Nat.eq_zero_or_pos i with rfl | hpos
  · -- the first transaction: the block is at the root of its parent
    obtain ⟨hn, -⟩ := hcond.resolve_left fun hc => absurd hc.1 (Nat.lt_irrefl 0)
    obtain ⟨db, hdb, hs₀⟩ := h₀.opened hn
    cases h₁
    refine hok (by rw [hs₀]; rfl) ?_
    simp only [CreatesIntermediateState, b'.stateRootBeforeTx_zero] at hr
    rw [hr, hprev, hg₂.previous, hs₀]
    rfl
  · obtain ⟨hc, hbefore⟩ := stateRootBeforeTx_pos h₀ h₁ h₂ hpos hi
    rw [← hroot] at hbefore
    by_cases hbyz : w.params.byzantiumForkBlock ≤ U256.ofInt b₀.m_currentBlock.number
    · -- the transactions are executed once more
      rw [if_pos hbyz] at hbefore
      obtain ⟨hn, hpl⟩ := hcond.resolve_left fun hc => absurd hc.2 (BitVec.not_lt.2 hbyz)
      obtain ⟨db, hdb, hs₀⟩ := h₀.opened hn
      simp only [CreatesIntermediateState, hbefore, b'.stateRootBeforeTx_zero] at hr
      obtain ⟨root, hroot', hr⟩ := hr
      cases hroot'
      have hprev₀ : b'.m_previousRoot = b₀.m_previousRoot := by
        calc b'.m_previousRoot = b.m_previousRoot := hprev
          _ = b₁.m_previousRoot := hg₂.previous
          _ = b₀.m_previousRoot := hg₁.previous
      have hts : b'.m_transactions.take i = (steps.take i).map Step.transaction := by
        rw [htrans, h₁.transactions_eq h₀ h₂, List.map_take]
      have hgas : b₀.gasUsed = 0 := by
        rw [gasUsed, h₀.receipts]
        rfl
      rw [hopened, hprev₀, hts, ← hgas, hg₁.start] at hr
      have hdb' : ∀ a r, b₀.m_previousRoot a = some r → CodeKnown b'.m_state.m_db r.codeHash := by
        intro a r har
        refine hknown _ (hg₂.known _ (hg₁.known _ ?_))
        rw [hs₀]
        exact hdb a r har
      have ho : (State.opened b₀.m_previousRoot b'.m_state.m_db b₀.m_state.m_accountStartNonce).Inv :=
        .opened hdb'
      have hcache₀ : b₀.m_state.m_cache = ∅ := by rw [hs₀]; rfl
      have htrie₀ : b₀.m_state.m_state = b₀.m_previousRoot := by rw [hs₀]; rfl
      have hshow : Shows (State.opened b₀.m_previousRoot b'.m_state.m_db b₀.m_state.m_accountStartNonce)
          (b₀.m_state.plain fun _ => false) := by
        refine ⟨rfl, fun a => ?_, fun a ha => Bool.noConfusion ha, fun a ha => Bool.noConfusion ha⟩
        have hacc : (State.opened b₀.m_previousRoot b'.m_state.m_db
            b₀.m_state.m_accountStartNonce).account a = b₀.m_state.account a := by
          rw [State.account_of_empty ho rfl, State.account_of_empty h₀.inv hcache₀, htrie₀]
          rfl
        rw [hacc]
        exact State.depicts_of_empty h₀.inv hcache₀ a
      obtain ⟨o, rfl, hinv, hoshow⟩ := h₁.replays h₀.inv hcache₀ (by rw [hs₀]; rfl)
        (hheader.trans (hg₂.header.trans hg₁.header)) hpl (State.kept_of_empty ho rfl rfl) hshow rfl hr
      refine ⟨o, _, rfl, hstate, fun a => ?_⟩
      exact State.observables_eq hg₁.inv hinv (State.shows_plain hg₁.inv hc (fun _ => false)
        fun a ha => Bool.noConfusion ha) hoshow rfl a
    · rw [if_neg hbyz] at hbefore
      refine hok hc ?_
      simpa only [CreatesIntermediateState, hbefore] using hr


/-! ## Blocks of transfers -/

namespace OneTransfer

/-- A development network without contracts. -/
def world : World where
  crypto := Devnet.crypto
  params := Devnet.params
  vm _ _ := .ret .exit
  precompiled _ := none

/-- A transfer to the address zero, for no fee. -/
def transfer (nonce value : U256) : Transaction where
  m_type := .MessageCall
  nonce := nonce
  value := value
  receiveAddress := 0
  gasPrice := 0
  gas := 21000
  data := []
  m_vrs := some ⟨1, 0xa⟩
  m_forcedSender := 0

/-- Nothing is sent. -/
def transaction : Transaction := transfer 0 0

def sender : Address := transaction.sender Devnet.crypto

/-- The trie in which the sender has an account, and the receiver if so. -/
def root (receiver : Bool) : Root := fun a =>
  if a = sender ∨ (receiver ∧ a = 0) then some ⟨0, 1, 0, EmptySHA3⟩ else none

/-- The sender is the author. -/
def header : BlockHeader :=
  { BlockHeader.empty with author := sender, number := 1, gasLimit := 0x100000, timestamp := 1 }

def begun (receiver : Bool) : Block :=
  ⟨State.opened (root receiver) (fun _ => []) 0, [], [], root receiver, header⟩

def env (gasUsed : U256) : EnvInfo := ⟨header, .ok [], gasUsed, Devnet.params.chainID⟩

/-- A transfer on a state, without an eviction. -/
def transact (gasUsed : U256) (t : Transaction) (s : State) : Except Exception (Bool × Executive) × State × List ℕ :=
  (executeTransaction world (env gasUsed) t).run (respond ⟨∅, fun _ => []⟩) (s, [])

def stepOf (gasUsed : U256) (t : Transaction) (s : State) : Step := ⟨s, env gasUsed, t, (transact gasUsed t s).2.1⟩

/-- The state of the block behind a transfer. -/
def behind (gasUsed : U256) (t : Transaction) (s : State) : State :=
  (transact gasUsed t s).2.1.commit (commitBehaviour world (env gasUsed))

def step (receiver : Bool) : Step := stepOf 0 transaction (begun receiver).m_state

def committed (receiver : Bool) : State := behind 0 transaction (begun receiver).m_state

/-- The state that the transfer is executed on once more. -/
def restored (receiver : Bool) : State := (committed receiver).copy.setRoot (root receiver)

def executed (receiver : Bool) (receipt : TransactionReceipt) : Block :=
  { begun receiver with
    m_state := committed receiver, m_transactions := [transaction],
    m_receipts := [receipt] }

theorem runs_transact (gasUsed : U256) (t : Transaction) (s : State) :
    stateMachine.Runs (s, []) (executeTransaction world (env gasUsed) t) (transact gasUsed t s).1
      ((transact gasUsed t s).2.1, (transact gasUsed t s).2.2) := by
  rw [Prod.mk.eta]
  exact stateMachine.runs_run (f := respond ⟨∅, fun _ => []⟩)
    (fun _ _ => ⟨_, Memo.Sound.empty _, rfl⟩) _ _

/-- The gas that a transfer uses, if it throws nothing. -/
def gasOf (gasUsed : U256) (t : Transaction) (s : State) : Option U256 :=
  (transact gasUsed t s).1.toOption.map fun r => r.2.gasUsed

/-- The receipt of a transfer has a status code. -/
theorem exists_executes {gasUsed : U256} {t : Transaction} {s : State} (h : gasOf gasUsed t s = some 21000) :
    ∃ receipt : TransactionReceipt, receipt.stateRoot = none ∧ receipt.cumulativeGasUsed = gasUsed + 21000 ∧
      s.Executes world (env gasUsed) t (transact gasUsed t s).2.1 receipt := by
  have hruns := runs_transact gasUsed t s
  unfold gasOf at h
  cases hr : (transact gasUsed t s).1 with
  | error x =>
    rw [hr] at h
    cases h
  | ok r =>
    obtain ⟨statusCode, e⟩ := r
    rw [hr] at h hruns
    have hgas : e.gasUsed = 21000 := Option.some.inj h
    have hn : world.params.byzantiumForkBlock ≤ (env gasUsed).number := by
      show world.params.byzantiumForkBlock ≤ (env 0).number
      decide
    refine ⟨⟨.inl statusCode, (env gasUsed).gasUsed + e.gasUsed, e.m_logs⟩, rfl, ?_, statusCode, e, _, hruns, ?_⟩
    · exact congrArg (gasUsed + ·) hgas
    · rw [if_pos hn]

theorem begun_begun (receiver : Bool) : (begun receiver).Begun world where
  transactions := rfl
  receipts := rfl
  state := by
    have hn : U256.ofInt header.number < Devnet.params.constantinopleForkBlock := by decide
    refine ⟨fun _ => [], 0, fun a r hr => .inl ?_, (begun receiver).m_state, ?_, ?_⟩
    · have hr' : (if a = sender ∨ (receiver ∧ a = 0) then some ⟨0, 1, 0, EmptySHA3⟩ else none) =
          some r := hr
      split at hr'
      · cases hr'
        rfl
      · cases hr'
    · exact (if_neg (BitVec.ne_of_lt hn)).mpr rfl
    · exact (if_neg (BitVec.not_le.2 hn)).mpr rfl

theorem exists_executed (receiver : Bool) :
    ∃ receipt : TransactionReceipt, receipt.stateRoot = none ∧
      (begun receiver).Executed world (.ok []) [step receiver] (executed receiver receipt) := by
  have hgas : gasOf 0 transaction (begun receiver).m_state = some 21000 := by
    cases receiver <;> decide +kernel
  obtain ⟨receipt, hroot, -, ht⟩ := exists_executes hgas
  exact ⟨receipt, hroot, .cons ht (.nil _)⟩

/-- The sender sends what it has, and then a transfer of nothing follows. -/
def firstStep : Step := stepOf 0 (transfer 0 1) (begun true).m_state

def secondStep : Step := stepOf 21000 (transfer 1 0) (behind 0 (transfer 0 1) (begun true).m_state)

def executedFirst (receipt : TransactionReceipt) : Block :=
  { begun true with
    m_state := behind 0 (transfer 0 1) (begun true).m_state
    m_transactions := [transfer 0 1]
    m_receipts := [receipt] }

def executedBoth (receipts : List TransactionReceipt) : Block :=
  { begun true with
    m_state := behind 21000 (transfer 1 0) (behind 0 (transfer 0 1) (begun true).m_state)
    m_transactions := [transfer 0 1, transfer 1 0]
    m_receipts := receipts }

theorem exists_executedBoth : ∃ receipts : List TransactionReceipt,
    (begun true).Executed world (.ok []) [firstStep, secondStep] (executedBoth receipts) := by
  have hgas : gasOf 0 (transfer 0 1) (begun true).m_state = some 21000 := by decide +kernel
  have hgas' : gasOf 21000 (transfer 1 0) (behind 0 (transfer 0 1) (begun true).m_state) = some 21000 := by
    decide +kernel
  obtain ⟨receipt, -, hused, ht⟩ := exists_executes hgas
  obtain ⟨receipt', -, -, ht'⟩ := exists_executes hgas'
  have henv : (executedFirst receipt).envInfo world (.ok []) (executedFirst receipt).gasUsed = env 21000 := by
    show env receipt.cumulativeGasUsed = env 21000
    rw [hused]
    rfl
  rw [← henv] at ht'
  have hcons : (executedFirst receipt).Executed world (.ok []) _ _ := .cons ht' (.nil _)
  rw [henv] at hcons
  exact ⟨[receipt, receipt'], .cons ht hcons⟩

theorem plainly_of {st : Step} (root : Root)
    (halong : (executeTransaction world st.env st.transaction).Along Plain.respond Plain.InOrder
      (⟨st.before.answers, fun _ => false, fun _ => false, st.before.m_accountStartNonce⟩, []))
    (hall : st.after.m_cache.entries.all (fun p => p.2.m_version = 0 && !p.2.isEmpty) = true) :
    st.Plainly world root where
  inOrder := ⟨fun _ => false, fun _ ha => Bool.noConfusion ha, halong⟩
  settled := by
    intro a x hx _
    have hmem := List.all_eq_true.1 hall _ (AList.mem_lookup_iff.1 hx)
    rw [Bool.and_eq_true, Bool.not_eq_true', decide_eq_true_iff] at hmem
    exact ⟨hmem.1, fun _ => hmem.2⟩

/-- With both accounts there, the transfers leave none empty. -/
theorem plainly : ∀ st ∈ [firstStep, secondStep], st.Plainly world (root true) := by
  intro st hst
  rcases List.mem_pair.1 hst with rfl | rfl
  · exact plainly_of _ (by decide +kernel) (by decide +kernel)
  · exact plainly_of _ (by decide +kernel) (by decide +kernel)

end OneTransfer

open OneTransfer in
/-- Both transfers are executed once more. -/
theorem replay_agrees_transfer : ∃ receipts,
    (executedBoth receipts).ReplayAgrees world (.ok [])
      (statesOf [firstStep, secondStep] (executedBoth receipts)) 2 := by
  obtain ⟨receipts, h⟩ := exists_executedBoth
  exact ⟨receipts, replay_agrees (begun_begun true) h (.inl rfl) le_rfl (.inr ⟨by decide, plainly⟩)⟩

open OneTransfer in
/-- An account that a transaction touches and leaves empty is gone from the block before the next
transaction, and is there in the replay. -/
theorem replay_keeps_empty : ¬∀ (w : World) (lastHashes : Except Exception (List H256))
    (b₀ b b' : Block) (steps : List Step) (i : ℕ), b₀.Begun w →
      b₀.Executed w lastHashes steps b → b.Closes w b' → i ≤ steps.length →
        b'.ReplayAgrees w lastHashes (statesOf steps b) i := by
  intro h
  obtain ⟨receipt, hroot, hex⟩ := exists_executed false
  obtain ⟨-, hall⟩ := h world (.ok []) _ _ _ _ 1 (begun_begun false) hex (.inl rfl) le_rfl
  have hok : (transact 0 transaction (restored false)).1.toBool = true := by
    decide +kernel
  cases hr : (transact 0 transaction (restored false)).1 with
  | error x =>
    rw [hr] at hok
    cases hok
  | ok r =>
    have hruns := runs_transact 0 transaction (restored false)
    rw [hr] at hruns
    have hcreated : (executed false receipt).CreatesIntermediateState world (.ok []) 1
        (.ok (transact 0 transaction (restored false)).2.1) := by
      have hbefore : (executed false receipt).stateRootBeforeTx 1 = none := hroot
      simp only [CreatesIntermediateState, hbefore]
      exact ⟨root false, stateRootBeforeTx_zero _, .next hruns (.done _ _)⟩
    obtain ⟨o, s, ho, hs, hobs⟩ := hall _ hcreated
    obtain rfl := Except.ok.inj ho
    obtain rfl : committed false = s := Option.some.inj hs
    have hthere : (transact 0 transaction (restored false)).2.1.addressInUse 0 = true := by
      decide +kernel
    have hgone : (committed false).addressInUse 0 = false := by decide +kernel
    have hexisting := congrArg Observables.existing (hobs 0)
    simp only [State.observables, hthere, hgone] at hexisting
    cases hexisting

end Block

end Petrachor.StateCache
