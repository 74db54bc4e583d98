import Petrachor.EVMSchedule
import Petrachor.Lib.Memo
import Petrachor.StateCache.Commit

/-!
# What the interpreter is told of the code of an address

`ExtVM` answers with the code from the state, with its size from the state or from a cache of sizes
by code hash that all the states of the process share, and with its hash not at all.
-/

namespace Petrachor.StateCache

/-! ## Code sizes -/

/-- The sizes of codes by their hashes. -/
abbrev CodeSizeCache := Memo CodeHash ℕ

namespace CodeSizeCache

def c_maxSize : ℕ := 50000

def store (c : CodeSizeCache) (h : CodeHash) (size : ℕ) : CodeSizeCache :=
  Memo.store c_maxSize c h size

end CodeSizeCache

namespace State

def accountNonemptyAndExisting (s : State) (a : Address) : Bool :=
  (s.account a).elim false fun x => !x.isEmpty

/-- What `code(a)` stores: the size of a code that it reads from the database. -/
def codeSizes (s : State) (sizes : CodeSizeCache) (a : Address) : CodeSizeCache :=
  match s.account a with
  | none => sizes
  | some x =>
    if x.m_codeHash ≠ EmptySHA3 ∧ x.m_codeCache = [] then
      CodeSizeCache.store sizes x.m_codeHash (s.m_db x.m_codeHash).length
    else sizes

def codeSize (s : State) (sizes : CodeSizeCache) (a : Address) : ℕ :=
  match s.account a with
  | none => 0
  | some x =>
    if x.m_hasNewCode then x.m_codeCache.length
    else
      match sizes.lookup x.m_codeHash with
      | some n => n
      | none => (s.code a).length

/-- What `codeSize(a)` leaves. -/
def readCodeSize (s : State) (sizes : CodeSizeCache) (a : Address) : State × CodeSizeCache :=
  match s.account a with
  | none => (s.load a, sizes)
  | some x =>
    if x.m_hasNewCode ∨ (sizes.lookup x.m_codeHash).isSome then (s.load a, sizes)
    else (s.readCode a, CodeSizeCache.store (s.codeSizes sizes a) x.m_codeHash (s.code a).length)

/-- What `commit` stores for one account of the cache. -/
def commitSize (sizes : CodeSizeCache) (_ : Address) (x : Account) : CodeSizeCache :=
  if x.isDirty ∧ x.m_isAlive ∧ x.m_hasNewCode then
    CodeSizeCache.store sizes x.m_codeHash x.m_codeCache.length
  else sizes

/-- The sizes after a call. -/
def stepSizes (s : State) (sizes : CodeSizeCache) : Op → CodeSizeCache
  | .readCode a => s.codeSizes sizes a
  | .commit b =>
    (if b = .RemoveEmptyAccounts then s.removeEmptyAccounts else s).m_cache.foldl commitSize sizes
  | _ => sizes

end State

/-! ## The states of a process -/

/-- The states of a process, with the code sizes they share. -/
structure Process where
  states : ℕ → State
  sizes : CodeSizeCache

/-- A call in a process. A state that is committed and opened again is opened at its new trie. -/
inductive Call
  | opened (i : ℕ) (t : Address → Option Record) (db : CodeHash → Bytes) (startNonce : U256)
  | copied (i j : ℕ)
  | call (i : ℕ) (op : Op)
  | codeSize (i : ℕ) (a : Address)

/-- A state is opened only on a database that has the code of every account. -/
def Call.Complete : Call → Prop
  | .opened _ t db _ => ∀ a r, t a = some r → CodeKnown db r.codeHash
  | _ => True

namespace Process

/-- A process that has no account yet. -/
def start (picks : ℕ → CodeHash) : Process :=
  ⟨fun _ => State.opened (fun _ => none) (fun _ => []) 0, ⟨∅, picks⟩⟩

def set (p : Process) (i : ℕ) (s : State) (sizes : CodeSizeCache) : Process :=
  ⟨Function.update p.states i s, sizes⟩

def step (p : Process) : Call → Process
  | .opened i t db n => p.set i (State.opened t db n) p.sizes
  | .copied i j => p.set i (p.states j).copy p.sizes
  | .call i op => p.set i ((p.states i).step op) ((p.states i).stepSizes p.sizes op)
  | .codeSize i a =>
    p.set i ((p.states i).readCodeSize p.sizes a).1 ((p.states i).readCodeSize p.sizes a).2

/-- The processes that calls lead to. -/
def Reachable (p : Process) : Prop :=
  ∃ picks calls, (∀ c ∈ calls, Call.Complete c) ∧ p = StateRun.run step (start picks) calls

/-! ## What `ExtVM` answers -/

def codeAt (p : Process) (i : ℕ) (a : Address) : Bytes := (p.states i).code a

def codeSizeAt (p : Process) (i : ℕ) (a : Address) : ℕ := (p.states i).codeSize p.sizes a

/-- The null implementation of `ExtVMFace`, which `ExtVM` does not override. -/
def codeHashAt (_ : Process) (_ : ℕ) (_ : Address) : H256 := 0

def exists_ (p : Process) (evmSchedule : EVMSchedule) (i : ℕ) (a : Address) : Bool :=
  if evmSchedule.eip158Mode then (p.states i).accountNonemptyAndExisting a
  else (p.states i).addressInUse a

/-- The size is that of the code; the hash is that of the code if the account exists, and zero
otherwise. -/
def CodeViewAgrees (sha3 : Bytes → H256) (evmSchedule : EVMSchedule) (p : Process) (i : ℕ)
    (a : Address) : Prop :=
  p.codeSizeAt i a = (p.codeAt i a).length ∧
    p.codeHashAt i a = if p.exists_ evmSchedule i a then sha3 (p.codeAt i a) else 0

end Process

/-! ## New code -/

namespace Account

/-- New code is not empty, and it is the code of the account until the account is killed. -/
def CodeFresh (x : Account) : Prop :=
  x.m_hasNewCode = true → x.m_codeCache ≠ [] ∧ (x.m_isAlive = true → x.m_codeHash ≠ EmptySHA3)

variable {x : Account}

theorem CodeFresh.of_old (h : x.m_hasNewCode = false) : x.CodeFresh := by
  intro hn
  rw [h] at hn
  cases hn

theorem CodeFresh.kill (h : x.CodeFresh) : x.kill.CodeFresh :=
  fun hn => ⟨(h hn).1, fun ha => Bool.noConfusion ha⟩

theorem CodeFresh.killIfEmpty (h : x.CodeFresh) : (State.killIfEmpty x).CodeFresh := by
  unfold State.killIfEmpty
  split
  · exact h.kill
  · exact h

/-- Code is set for an account that has none. -/
theorem CodeFresh.setCode (h : x.CodeFresh) (hh : x.m_codeHash = EmptySHA3) (b : Bytes) (v : U256) :
    (x.setCode b v).CodeFresh := by
  unfold Account.setCode
  by_cases hb : b ≠ x.m_codeHash
  · rw [if_pos hb]
    rw [hh] at hb
    exact fun _ => ⟨hb, fun _ => hb⟩
  · rw [if_neg hb]
    exact h

/-- Only code that is not new is read from the database. -/
theorem CodeFresh.noteCode (h : x.CodeFresh) (hc : x.m_codeCache = []) (b : Bytes) :
    (x.noteCode b).CodeFresh :=
  fun hn => absurd hc (h hn).1

end Account

/-- The account of the cell, if there is one, has its new code as `setCode` and `kill` leave it. -/
def Cell.CodeFresh (c : Cell) : Prop := ∀ x, c.entry = some x → x.CodeFresh

namespace Cell

variable {db : CodeHash → Bytes} {G : Guard} {c c' : Cell}

theorem CodeFresh.of_none (h : c.entry = none) : c.CodeFresh := by
  intro x hx
  rw [h] at hx
  cases hx

theorem CodeFresh.of_some {x : Account} (h : c.entry = some x) (hx : x.CodeFresh) : c.CodeFresh := by
  intro y hy
  rw [h] at hy
  cases hy
  exact hx

theorem CodeFresh.edit (h : c.CodeFresh) (hE : Edit db G c c') : c'.CodeFresh := by
  cases hE with
  | miss _ _ => exact h
  | fetch _ _ _ => exact .of_some rfl (.of_old rfl)
  | evict _ _ => exact .of_none rfl
  | @readStorage x _ he _ => exact .of_some rfl (h x he)
  | readCode he _ hc => exact .of_some rfl ((h _ he).noteCode hc _)
  | create _ _ => exact .of_some rfl (.of_old rfl)
  | @balance x _ he => exact .of_some rfl (h x he)
  | @nonce x _ he _ => exact .of_some rfl (h x he)
  | dead _ _ => exact .of_some rfl (.of_old rfl)
  | @storage x _ _ he _ => exact .of_some rfl (h x he)
  | @clear x he _ _ => exact .of_some rfl (h x he)
  | code he hc _ => exact .of_some rfl ((h _ he).setCode hc _ _)
  | kill he _ => exact .of_some rfl (h _ he).kill

/-- Undoing a change. -/
theorem codeFresh_undo {e : Option Account} (h : ∀ x, e = some x → x.CodeFresh) (ch : Change) :
    ∀ x, ch.undo e = some x → x.CodeFresh := by
  have hget : (e.getD Account.dead).CodeFresh := by
    cases e with
    | none => exact .of_old rfl
    | some x => exact h x rfl
  intro x hx
  cases ch with
  | Create => cases hx
  | Code =>
    cases hx
    exact .of_old rfl
  | _ =>
    cases hx
    exact hget

theorem codeFresh_undoAll {e : Option Account} (h : ∀ x, e = some x → x.CodeFresh)
    (l : List Change) : ∀ x, undoAll e l = some x → x.CodeFresh := by
  induction l generalizing e with
  | nil => exact h
  | cons ch l ih => exact ih (codeFresh_undo h ch)

end Cell

namespace State

variable {s : State} {sizes : CodeSizeCache} {a : Address}

def CodeFresh (s : State) : Prop := ∀ a, (s.cell a).CodeFresh

theorem CodeFresh.opened (t : Address → Option Record) (db : CodeHash → Bytes) (n : U256) :
    (State.opened t db n).CodeFresh := fun _ => .of_none rfl

theorem CodeFresh.rollback {n : ℕ} (h : s.CodeFresh) (hn : n ≤ s.savepoint) :
    (s.rollback n).CodeFresh := by
  obtain ⟨l, m, hl, hm⟩ : ∃ l m, s.m_changeLog = l ++ m ∧ m.length = n := by
    refine ⟨_, _, (List.take_append_drop (s.savepoint - n) _).symm, ?_⟩
    rw [List.length_drop]
    unfold savepoint at hn ⊢
    omega
  intro a
  rw [← hm, cell_rollback hl]
  exact Cell.codeFresh_undoAll (h a) _

theorem CodeFresh.removeEmptyAccounts (h : s.CodeFresh) : s.removeEmptyAccounts.CodeFresh := by
  intro a x hx
  change s.removeEmptyAccounts.m_cache.lookup a = some x at hx
  rw [lookup_removeEmptyAccounts] at hx
  obtain ⟨y, hy, rfl⟩ := Option.map_eq_some_iff.1 hx
  exact (h a y hy).killIfEmpty

theorem CodeFresh.step (h : s.CodeFresh) (op : Op) : (s.step op).CodeFresh := by
  rcases meets_free (s := s) op with hm | ⟨n, rfl⟩ | ⟨b, rfl⟩ | rfl
  · intro a
    exact (edits_step hm).invariant (P := Cell.CodeFresh) (fun _ _ hE hc => hc.edit hE) (h a)
  · change (if n ≤ s.savepoint then s.rollback n else s).CodeFresh
    split
    · exact h.rollback ‹_›
    · exact h
  · exact fun _ => .of_none rfl
  · exact h

/-! ## The account of an address -/

theorem codeOk_of_account (hs : s.Inv) {x : Account} (hx : s.account a = some x) :
    x.CodeOk s.m_db := by
  rw [account_eq hs] at hx
  exact codeOk_account hs hx

theorem codeFresh_of_account (hs : s.Inv) (h : s.CodeFresh) {x : Account}
    (hx : s.account a = some x) : x.CodeFresh := by
  rw [account_eq hs] at hx
  unfold Cell.account at hx
  cases he : (s.cell a).entry with
  | some y =>
    rw [he, Option.some_or] at hx
    cases hx
    exact h a _ he
  | none =>
    rw [he, Option.none_or] at hx
    obtain ⟨r, -, rfl⟩ := Option.map_eq_some_iff.1 hx
    exact .of_old rfl

/-- The code of an account is the one its hash stands for. -/
theorem code_of_account (hs : s.Inv) {x : Account} (hx : s.account a = some x) :
    s.code a = x.m_codeHash := by
  rw [code, hx, Option.elim_some]
  exact (codeOk_of_account hs hx).code_eq

/-! ## The sizes stay right -/

theorem sound_codeSizes (hs : s.Inv) (h : sizes.Sound List.length) (a : Address) :
    (s.codeSizes sizes a).Sound List.length := by
  unfold codeSizes
  cases hx : s.account a with
  | none => exact h
  | some x =>
    by_cases hc : x.m_codeHash ≠ EmptySHA3 ∧ x.m_codeCache = []
    · have hok := codeOk_of_account hs hx
      have hdb : s.m_db x.m_codeHash = x.m_codeHash := by
        have hcode := hok.code_eq
        unfold Account.code at hcode
        rwa [if_neg hc.1, if_pos hc.2] at hcode
      simp only [if_pos hc, hdb]
      exact h.store rfl
    · simp only [if_neg hc]
      exact h

theorem sound_readCodeSize (hs : s.Inv) (h : sizes.Sound List.length) (a : Address) :
    (s.readCodeSize sizes a).2.Sound List.length := by
  unfold readCodeSize
  cases hx : s.account a with
  | none => exact h
  | some x =>
    simp only
    split
    · exact h
    · refine (sound_codeSizes hs h a).store ?_
      rw [code_of_account hs hx]

theorem sound_commitSize (hs : sizes.Sound List.length) {x : Account} {db : CodeHash → Bytes}
    (hok : x.CodeOk db) (hf : x.CodeFresh) : (commitSize sizes a x).Sound List.length := by
  unfold commitSize
  split
  · rename_i hx
    refine hs.store ?_
    rw [(hok.new hx.2.2).resolve_left ((hf hx.2.2).2 hx.2.1)]
  · exact hs

theorem sound_commitSizes (hs : s.Inv) (hf : s.CodeFresh) (h : sizes.Sound List.length) :
    (s.m_cache.foldl commitSize sizes).Sound List.length := by
  have key : ∀ l : List (Σ _ : Address, Account), (∀ e ∈ l, e.2.CodeOk s.m_db ∧ e.2.CodeFresh) →
      ∀ sizes : CodeSizeCache, sizes.Sound List.length →
        (l.foldl (fun c e => commitSize c e.1 e.2) sizes).Sound List.length := by
    intro l
    induction l with
    | nil => exact fun _ _ h => h
    | cons e l ih =>
      intro hl sizes h
      have he := hl e List.mem_cons_self
      exact ih (fun f hf => hl f (List.mem_cons_of_mem _ hf)) _ (sound_commitSize h he.1 he.2)
  refine key _ (fun e he => ?_) sizes h
  have hlook : s.m_cache.lookup e.1 = some e.2 := AList.mem_lookup_iff.2 he
  exact ⟨(hs e.1).code _ hlook, hf e.1 _ hlook⟩

theorem sound_stepSizes (hs : s.Inv) (hf : s.CodeFresh) (h : sizes.Sound List.length) (op : Op) :
    (s.stepSizes sizes op).Sound List.length := by
  cases op with
  | readCode a => exact sound_codeSizes hs h a
  | commit b =>
    cases b with
    | KeepEmptyAccounts => exact sound_commitSizes hs hf h
    | RemoveEmptyAccounts => exact sound_commitSizes hs.removeEmptyAccounts hf.removeEmptyAccounts h
  | _ => exact h

/-- What `codeSize` answers: a killed account still counts the code it got since the last commit. -/
theorem codeSize_eq (hs : s.Inv) (h : sizes.Sound List.length) (a : Address) :
    s.codeSize sizes a =
      (s.account a).elim 0 fun x =>
        if x.m_hasNewCode then x.m_codeCache.length else x.m_codeHash.length := by
  unfold codeSize
  cases hx : s.account a with
  | none => rfl
  | some x =>
    simp only [Option.elim_some]
    split
    · rfl
    · rw [code_of_account hs hx]
      have hget := h.getD x.m_codeHash
      cases hl : sizes.lookup x.m_codeHash with
      | none => rfl
      | some n => rwa [hl, Option.getD_some] at hget

/-- The address has an account that was killed after it got its code, and not committed since. -/
def killedNew (s : State) (a : Address) : Bool :=
  (s.account a).elim false fun x => x.m_hasNewCode && x.m_codeHash = EmptySHA3

theorem codeSize_eq_length_iff (hs : s.Inv) (hf : s.CodeFresh) (h : sizes.Sound List.length)
    (a : Address) : s.codeSize sizes a = (s.code a).length ↔ s.killedNew a = false := by
  rw [codeSize_eq hs h, killedNew]
  cases hx : s.account a with
  | none => simp [code, hx]
  | some x =>
    rw [code_of_account hs hx, Option.elim_some, Option.elim_some]
    cases hn : x.m_hasNewCode with
    | false => simp
    | true =>
      rw [if_pos rfl, Bool.true_and, decide_eq_false_iff_not]
      constructor
      · intro hlen hh
        rw [hh, List.length_nil, List.length_eq_zero_iff] at hlen
        exact (codeFresh_of_account hs hf hx hn).1 hlen
      · intro hh
        rw [((codeOk_of_account hs hx).new hn).resolve_left hh]

end State

/-! ## Every process -/

namespace Process

variable {p : Process}

/-- The states and the sizes they share are right. -/
structure Inv (p : Process) : Prop where
  state : ∀ i, (p.states i).Inv
  fresh : ∀ i, (p.states i).CodeFresh
  sizes : p.sizes.Sound List.length

/-- One state is replaced. -/
theorem forall_set {i : ℕ} {s : State} {sizes : CodeSizeCache} {P : State → Prop}
    (h : ∀ j, P (p.states j)) (hs : P s) (j : ℕ) : P ((p.set i s sizes).states j) := by
  change P (Function.update p.states i s j)
  by_cases hj : j = i
  · rw [hj, Function.update_self]
    exact hs
  · rw [Function.update_of_ne hj]
    exact h j

theorem Inv.set {i : ℕ} {s : State} {sizes : CodeSizeCache} (h : p.Inv) (hs : s.Inv)
    (hf : s.CodeFresh) (hm : sizes.Sound List.length) : (p.set i s sizes).Inv where
  state := forall_set h.state hs
  fresh := forall_set h.fresh hf
  sizes := hm

theorem Inv.start (picks : ℕ → CodeHash) : (start picks).Inv where
  state _ := State.Inv.opened fun _ _ h => by cases h
  fresh _ := State.CodeFresh.opened _ _ _
  sizes := Memo.Sound.empty picks

/-- Reading the size of a code is, for the state, reading the account or the code. -/
theorem readCodeSize_fst (s : State) (sizes : CodeSizeCache) (a : Address) :
    ∃ op, (s.readCodeSize sizes a).1 = s.step op := by
  unfold State.readCodeSize
  split
  · exact ⟨.read a, rfl⟩
  · split
    · exact ⟨.read a, rfl⟩
    · exact ⟨.readCode a, rfl⟩

theorem Inv.step (h : p.Inv) {c : Call} (hc : c.Complete) : (p.step c).Inv := by
  cases c with
  | opened i t db n => exact h.set (.opened hc) (.opened t db n) h.sizes
  | copied i j => exact h.set ((h.state j).step .copy) ((h.fresh j).step .copy) h.sizes
  | call i op =>
    exact h.set ((h.state i).step op) ((h.fresh i).step op)
      (State.sound_stepSizes (h.state i) (h.fresh i) h.sizes op)
  | codeSize i a =>
    obtain ⟨op, hop⟩ := readCodeSize_fst (p.states i) p.sizes a
    have hs : ((p.states i).readCodeSize p.sizes a).1.Inv := hop ▸ (h.state i).step op
    have hf : ((p.states i).readCodeSize p.sizes a).1.CodeFresh := hop ▸ (h.fresh i).step op
    exact h.set hs hf (State.sound_readCodeSize (h.state i) h.sizes a)

theorem Reachable.inv (h : p.Reachable) : p.Inv := by
  obtain ⟨picks, calls, hc, rfl⟩ := h
  refine StateRun.invariant Inv (P := fun _ c => Call.Complete c) (fun _ _ hp hc => hp.step hc)
    (.start picks) ?_
  generalize start picks = q
  induction calls generalizing q with
  | nil => trivial
  | cons c calls ih =>
    exact ⟨hc c List.mem_cons_self, ih (fun d hd => hc d (List.mem_cons_of_mem _ hd)) _⟩

/-- The size is right but for an account that was killed after it got its code; the hash is right
only for what does not exist. -/
theorem codeView_iff (sha3 : Bytes → H256) (evmSchedule : EVMSchedule) (h : p.Reachable) (i : ℕ)
    (a : Address) :
    p.CodeViewAgrees sha3 evmSchedule i a ↔
      (p.states i).killedNew a = false ∧
        (p.exists_ evmSchedule i a = true → sha3 ((p.states i).codeHash a) = 0) := by
  have hp := h.inv
  have hcode : p.codeAt i a = (p.states i).codeHash a := by
    unfold codeAt State.codeHash
    cases hx : (p.states i).account a with
    | none => rw [State.code, hx, Option.elim_none, Option.elim_none]
    | some x => rw [State.code_of_account (hp.state i) hx, Option.elim_some]
  have hsize := State.codeSize_eq_length_iff (hp.state i) (hp.fresh i) hp.sizes a
  refine and_congr hsize ?_
  rw [hcode]
  unfold codeHashAt
  cases p.exists_ evmSchedule i a with
  | false => simp
  | true => simpa using eq_comm

/-- A contract is created with one byte of code and killed; another address is given one wei. -/
def selfdestructed : Process :=
  StateRun.run step (start fun _ => [])
    [.call 0 (.createContract 2), .call 0 (.setCode 2 [0] 0), .call 0 (.kill 2),
      .call 0 (.addBalance 1 1)]

theorem reachable_selfdestructed : selfdestructed.Reachable := by
  refine ⟨_, _, fun c hc => ?_, rfl⟩
  simp only [List.mem_cons, List.not_mem_nil, or_false] at hc
  rcases hc with rfl | rfl | rfl | rfl <;> trivial

/-- The hash of the empty code. -/
def emptyHash : H256 := 0xc5d2460186f7233c927e7db2dcc703c0e500b653ca82273b7bfad8045d85a470

/-- Nothing is wrong with the answers about an address that has no account. -/
theorem codeView_absent :
    selfdestructed.Reachable ∧ selfdestructed.CodeViewAgrees (fun _ => emptyHash) {} 0 3 :=
  ⟨reachable_selfdestructed,
    (codeView_iff (fun _ => emptyHash) {} reachable_selfdestructed 0 3).2 (by decide)⟩

/-- An account without code is not told from no account by its hash, and the code that was killed
still has its size. -/
theorem extcodehash_zero :
    selfdestructed.Reachable ∧
      (selfdestructed.codeAt 0 1 = [] ∧
        ¬selfdestructed.CodeViewAgrees (fun _ => emptyHash) {} 0 1) ∧
      selfdestructed.codeAt 0 2 = [] ∧ selfdestructed.codeSizeAt 0 2 = 1 := by
  refine ⟨reachable_selfdestructed, ⟨by decide, fun h => ?_⟩, by decide,
    by decide⟩
  have hexists : selfdestructed.exists_ {} 0 1 = true := by decide
  have hhash := h.2
  rw [if_pos hexists] at hhash
  exact absurd hhash (by decide)

end Process

end Petrachor.StateCache
