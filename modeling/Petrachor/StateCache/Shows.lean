import Petrachor.StateCache.Plain

/-!
# A state that shows plain accounts

Each call that is in order answers as the plain accounts do and changes what is shown as they do.
-/

namespace Petrachor.StateCache

namespace State

variable {s : State} {a : Address} {x : Account}

/-! ## The account of an address after a call -/

theorem account_def (s : State) (b : Address) :
    s.account b = (s.m_cache.lookup b).or
      (if b ∈ s.m_nonExistingAccountsCache then none else (s.m_state b).map Account.ofRecord) := by
  unfold account
  rcases load_cases s b with ⟨x, hc, h⟩ | ⟨hc, ha, h⟩ | ⟨hc, ha, hr, h⟩ | ⟨r, hc, ha, hr, h⟩
  · rw [h, hc, Option.some_or]
  · rw [h, hc, if_pos ha, Option.none_or]
  · rw [h, if_neg ha, hr, hc]
    rfl
  · rw [h, if_neg ha, hr, hc, put, AList.lookup_insert]
    rfl

theorem account_congr {s s' : State} {b : Address} (hc : s'.m_cache.lookup b = s.m_cache.lookup b)
    (ha : b ∈ s'.m_nonExistingAccountsCache ↔ b ∈ s.m_nonExistingAccountsCache)
    (hr : s'.m_state b = s.m_state b) : s'.account b = s.account b := by
  rw [account_def, account_def, hc, hr]
  simp only [ha]

theorem load_frame (s : State) (a : Address) :
    (s.load a).m_state = s.m_state ∧ (s.load a).m_db = s.m_db ∧
      (s.load a).m_accountStartNonce = s.m_accountStartNonce := by
  rcases load_cases s a with ⟨x, _, h⟩ | ⟨_, _, h⟩ | ⟨_, _, _, h⟩ | ⟨r, _, _, _, h⟩ <;>
    rw [h] <;> exact ⟨rfl, rfl, rfl⟩

theorem account_load (s : State) (a b : Address) : (s.load a).account b = s.account b := by
  rcases load_cases s a with ⟨x, _, h⟩ | ⟨_, _, h⟩ | ⟨hc, _, hr, h⟩ | ⟨r, hc, ha, hr, h⟩
  · rw [h]
  · rw [h]
  · rw [h]
    by_cases hb : b = a
    · subst hb
      rw [account_def, account_def]
      simp [hr]
    · exact account_congr rfl (by simp [hb]) rfl
  · rw [h]
    by_cases hb : b = a
    · subst hb
      rw [account_def, account_def]
      simp [put, hc, ha, hr]
    · exact account_congr (AList.lookup_insert_ne hb) Iff.rfl rfl

/-- The account of one address was written, and the others are as before. -/
structure Wrote (s s' : State) (a : Address) (y : Account) : Prop where
  self : s'.account a = some y
  other : ∀ b ≠ a, s'.account b = s.account b
  start : s'.m_accountStartNonce = s.m_accountStartNonce
  state : s'.m_state = s.m_state

theorem wrote_write (s : State) (a : Address) (y : Account) (l : List Change) :
    Wrote s ((s.load a).write a y l) a y where
  self := by
    rw [account_def, write, AList.lookup_insert, Option.some_or]
  other b hb := by
    rw [← account_load s a b]
    exact account_congr (AList.lookup_insert_ne hb) Iff.rfl rfl
  start := (load_frame s a).2.2
  state := (load_frame s a).1

theorem wrote_created (s : State) (a : Address) (y : Account) (l : List (Address × Change)) :
    Wrote s { (s.load a).created a y with m_changeLog := l } a y where
  self := by
    rw [account_def]
    simp only [created, AList.lookup_insert, Option.some_or]
  other b hb := by
    rw [← account_load s a b]
    exact account_congr (AList.lookup_insert_ne hb) (by simp [created, hb]) rfl
  start := (load_frame s a).2.2
  state := (load_frame s a).1

/-! ## What each change does -/

theorem createAccount_none (h : s.account a = none) (y : Account) :
    (s.load a).createAccount a y = ((s.load a).created a y, none) := by
  rcases createAccount_cases (s.load a) a y with ⟨⟨z, hz⟩, _⟩ | ⟨_, he⟩
  · rw [load_load] at hz
    have hsome : s.account a = some z := hz
    rw [h] at hsome
    cases hsome
  · rw [he, load_load]

theorem createAtStart_none (h : s.account a = none) (f : U256 → Account) :
    (s.load a).createAtStart a f =
      if s.m_accountStartNonce = Invalid256 then (s.load a, some .InvalidAccountStartNonceInState)
      else ((s.load a).created a (f s.m_accountStartNonce), none) := by
  unfold createAtStart
  rw [(load_frame s a).2.2]
  split
  · rfl
  · exact createAccount_none h _

theorem setNonce_some (h : s.account a = some x) (n : U256) :
    s.setNonce a n = ((s.load a).write a (x.setNonce n) [.Nonce x.m_nonce], none) := by
  have hc : (s.load a).m_cache.lookup a = some x := h
  simp only [setNonce, hc]
  rfl

theorem setNonce_none (h : s.account a = none) (n : U256) :
    s.setNonce a n = ((s.load a).created a (Account.new n 0), none) := by
  have hc : (s.load a).m_cache.lookup a = none := h
  simp only [setNonce, hc]
  exact createAccount_none h _

theorem incNonce_some (h : s.account a = some x) :
    s.incNonce a = ((s.load a).write a (x.setNonce (x.m_nonce + 1)) [.Nonce x.m_nonce], none) := by
  have hc : (s.load a).m_cache.lookup a = some x := h
  simp only [incNonce, hc]
  rfl

theorem incNonce_none (h : s.account a = none) :
    s.incNonce a =
      if s.m_accountStartNonce = Invalid256 then (s.load a, some .InvalidAccountStartNonceInState)
      else ((s.load a).created a (Account.new (s.m_accountStartNonce + 1) 0), none) := by
  have hc : (s.load a).m_cache.lookup a = none := h
  simp only [incNonce, hc]
  exact createAtStart_none h _

/-- An account that is created with an amount has it logged. -/
theorem addBalance_none (h : s.account a = none) (v : U256) :
    s.addBalance a v =
      if s.m_accountStartNonce = Invalid256 then (s.load a, some .InvalidAccountStartNonceInState)
      else ({ (s.load a).created a (Account.new s.m_accountStartNonce v) with
                m_changeLog := (if v = 0 then [] else [(a, .Balance v)]) ++
                  (a, .Create) :: (s.load a).m_changeLog }, none) := by
  have hc : (s.load a).m_cache.lookup a = none := h
  simp only [addBalance, hc]
  rw [createAtStart_none h fun n => Account.new n v]
  by_cases hn : s.m_accountStartNonce = Invalid256
  · rw [if_pos hn, if_pos hn]
    simp
  · rw [if_neg hn, if_neg hn]
    by_cases hv : v = 0
    · rw [if_neg (fun h => h.2 hv), if_pos hv]
      rfl
    · rw [if_pos ⟨rfl, hv⟩, if_neg hv]
      rfl

theorem createContract_none (h : s.account a = none) :
    (s.createContract a) =
      if s.m_accountStartNonce = Invalid256 then (s, some .InvalidAccountStartNonceInState)
      else ((s.load a).created a (Account.new s.m_accountStartNonce 0), none) := by
  unfold createContract createAtStart
  split
  · rfl
  · rcases createAccount_cases s a (Account.new s.m_accountStartNonce 0) with ⟨⟨z, hz⟩, _⟩ | ⟨_, he⟩
    · have hsome : s.account a = some z := hz
      rw [h] at hsome
      cases hsome
    · exact he

theorem createContract_some (h : s.account a = some x) :
    (s.createContract a) =
      if s.m_accountStartNonce = Invalid256 then (s, some .InvalidAccountStartNonceInState)
      else (s.load a, some .abort) := by
  unfold createContract createAtStart
  split
  · rfl
  · rcases createAccount_cases s a (Account.new s.m_accountStartNonce 0) with ⟨_, he⟩ | ⟨hz, _⟩
    · exact he
    · have hnone : s.account a = none := hz
      rw [h] at hnone
      cases hnone

theorem setCode_some (h : s.account a = some x) (b : Bytes) (v : U256) :
    s.setCode a b v =
      if x.m_codeHash ≠ EmptySHA3 then (s.load a, some .abort)
      else ((s.load a).write a (x.setCode b v) [.Code], none) := by
  have hc : (s.load a).m_cache.lookup a = some x := h
  have hcached : (s.load a).cached a = x := by rw [cached, hc, Option.getD_some]
  have hcode : s.addressHasCode a = decide (x.m_codeHash ≠ EmptySHA3) := by
    rw [addressHasCode, codeHash, h, Option.elim_some]
  unfold setCode
  rw [hcode]
  by_cases hh : x.m_codeHash ≠ EmptySHA3
  · rw [if_pos hh]
    simp [hh]
  · rw [if_neg hh]
    simp only [hh, decide_false, Bool.false_eq_true, if_false, cached_note, hcached]
    rfl

theorem setStorage_some (h : s.account a = some x) (k v : U256) :
    s.setStorage a k v = (s.load a).write a (x.setStorage k v) [.Storage k (x.storage k)] := by
  have hc : (s.load a).m_cache.lookup a = some x := h
  have hcached : (s.load a).cached a = x := by rw [cached, hc, Option.getD_some]
  rw [setStorage_eq_write, hcached]

theorem kill_none (h : s.account a = none) : s.kill a = s.load a := by
  have hc : (s.load a).m_cache.lookup a = none := h
  simp only [kill, hc]

/-- Nothing is done for an account without a storage trie. -/
theorem clearStorage_bare (h : s.m_cache.lookup a = some x) (hr : x.m_storageRoot = 0) :
    s.clearStorage a = s.put a x := by
  have hcached : s.cached a = x := by rw [cached, h, Option.getD_some]
  simp only [clearStorage, hcached, hr, if_true]

end State

/-! ## Showing plain accounts -/

/-- The account, if there is one, answers like this. -/
def Depicts (startNonce : U256) (o : Option Account) (v : Answers) : Prop :=
  match o with
  | none => v = .absent startNonce
  | some x => x.m_isAlive = true ∧ v = x.answers

structure Shows (s : State) (m : Plain) : Prop where
  start : s.m_accountStartNonce = m.startNonce
  view : ∀ a, Depicts m.startNonce (s.account a) (m.view a)
  marked : ∀ a, m.marked a = true → ∃ x, s.account a = some x ∧ x.isDirty = true
  bare : ∀ a, m.bare a = true → ∀ r, s.m_state a = some r → r.storageRoot = 0

/-- Storage roots are those of the trie. -/
def Cell.RootsKept (c : Cell) : Prop :=
  (∀ x, c.entry = some x → x.m_storageRoot = 0 ∨ ∃ r, c.record = some r ∧ x.m_storageRoot = r.storageRoot) ∧
    ∀ r, .StorageRoot r ∉ c.log

/-- What calls that are in order keep of the caches. -/
structure State.Kept (s : State) : Prop where
  inv : s.Inv
  fresh : s.CodeFresh
  clean : s.CleanLasting
  roots : ∀ a, (s.cell a).RootsKept

namespace Plain

variable (m : Plain) {a b : Address} {f : Answers → Answers}

theorem view_change_self : (m.change a f).view a = { f (m.view a) with existing := true } :=
  Function.update_self a _ _

theorem view_change_ne (h : b ≠ a) : (m.change a f).view b = m.view b :=
  Function.update_of_ne h _ _

end Plain

theorem Account.answers_new (n v : U256) :
    (Account.new n v).answers = ⟨true, v, n, [], EmptySHA3, 0, fun _ => 0⟩ := by
  ext1
  case storage =>
    funext k
    simp [Account.answers, Account.new, Account.storage]
  all_goals rfl

namespace Shows

variable {s s' : State} {m : Plain} {a : Address} {x : Account}

theorem of_none (h : Shows s m) (ha : s.account a = none) : m.view a = .absent m.startNonce := by
  have hv := h.view a
  rwa [ha] at hv

theorem of_some (h : Shows s m) (ha : s.account a = some x) :
    x.m_isAlive = true ∧ m.view a = x.answers := by
  have hv := h.view a
  rwa [ha] at hv

theorem existing (h : Shows s m) (a : Address) : (m.view a).existing = (s.account a).isSome := by
  cases ha : s.account a with
  | none =>
    rw [h.of_none ha]
    rfl
  | some x =>
    obtain ⟨halive, hv⟩ := h.of_some ha
    rw [hv]
    exact halive

/-! ## Questions -/

theorem answers_eq (h : Shows s m) (hs : s.Inv) (a : Address) : s.answers a = m.view a := by
  rw [State.answers_eq hs, ← State.account_eq hs]
  cases ha : s.account a with
  | none =>
    rw [h.of_none ha, Option.elim_none, State.noAccount, h.start]
    rfl
  | some x => rw [(h.of_some ha).2, Option.elim_some]

/-- The size that is answered is that of the code. -/
theorem codeSize_eq (h : Shows s m) (hs : s.Kept) {sizes : CodeSizeCache}
    (hz : sizes.Sound List.length) (a : Address) : s.codeSize sizes a = (m.view a).code.length := by
  rw [State.codeSize_eq hs.inv hz]
  cases ha : s.account a with
  | none =>
    rw [h.of_none ha]
    rfl
  | some x =>
    obtain ⟨halive, hv⟩ := h.of_some ha
    have hcode : (m.view a).code = x.m_codeHash := by
      rw [hv]
      rfl
    rw [hcode, Option.elim_some]
    cases hn : x.m_hasNewCode with
    | false => rfl
    | true =>
      have hne := (State.codeFresh_of_account hs.inv hs.fresh ha hn).2 halive
      rw [if_pos rfl, ((State.codeOk_of_account hs.inv ha).new hn).resolve_left hne]

theorem answer (h : Shows s m) (hs : s.Kept) {sizes : CodeSizeCache} (hz : sizes.Sound List.length)
    (q : Query) : s.answer sizes q = m.answer q := by
  cases q with
  | addressInUse a => exact (h.existing a).symm
  | accountNonemptyAndExisting a =>
    change s.accountNonemptyAndExisting a = ((m.view a).existing && !(m.view a).isEmpty)
    rw [h.existing, State.accountNonemptyAndExisting]
    cases ha : s.account a with
    | none => rfl
    | some x =>
      rw [(h.of_some ha).2]
      rfl
  | balance a => exact congrArg Answers.balance (h.answers_eq hs.inv a)
  | getNonce a => exact congrArg Answers.nonce (h.answers_eq hs.inv a)
  | version a => exact congrArg Answers.version (h.answers_eq hs.inv a)
  | codeHash a => exact congrArg Answers.codeHash (h.answers_eq hs.inv a)
  | code a => exact congrArg Answers.code (h.answers_eq hs.inv a)
  | codeSize a => exact h.codeSize_eq hs hz a
  | storage a k => exact congrFun (congrArg Answers.storage (h.answers_eq hs.inv a)) k
  | requireAccountStartNonce =>
    change s.requireAccountStartNonce = _
    rw [State.requireAccountStartNonce, h.start]
    rfl

/-- Accounts that are alike show the same. -/
theorem of_like (h : Shows s m) (hl : ∀ a, Both Account.Like (s.account a) (s'.account a))
    (hn : s'.m_accountStartNonce = s.m_accountStartNonce) (hr : s'.m_state = s.m_state) :
    Shows s' m where
  start := hn.trans h.start
  view a := by
    have hv := h.view a
    rcases hl a with ⟨hx, hy⟩ | ⟨x, y, hx, hy, hxy⟩
    · rw [hx] at hv
      rw [hy]
      exact hv
    · rw [hx] at hv
      rw [hy]
      exact ⟨hxy.alive.trans hv.1, hv.2.trans hxy.answers_eq.symm⟩
  marked a ha := by
    obtain ⟨x, hx, hd⟩ := h.marked a ha
    rcases hl a with ⟨hx', _⟩ | ⟨x', y, hx', hy, hxy⟩
    · rw [hx] at hx'
      cases hx'
    · rw [hx] at hx'
      cases hx'
      exact ⟨y, hy, hxy.dirty hd⟩
  bare a ha r hr' := h.bare a ha r (hr ▸ hr')

/-! ## Changes -/

/-- An account that is written shows the change. -/
theorem change (h : Shows s m) (f : Answers → Answers) {y : Account} (hw : State.Wrote s s' a y)
    (hd : y.isDirty = true) (ha : y.m_isAlive = true)
    (hf : y.answers = { f (m.view a) with existing := true }) : Shows s' (m.change a f) where
  start := hw.start.trans h.start
  view b := by
    by_cases hb : b = a
    · subst hb
      rw [hw.self, Plain.view_change_self]
      exact ⟨ha, hf.symm⟩
    · rw [hw.other b hb, Plain.view_change_ne _ hb]
      exact h.view b
  marked b hb := by
    by_cases hba : b = a
    · subst hba
      exact ⟨y, hw.self, hd⟩
    · rw [hw.other b hba]
      refine h.marked b ?_
      simpa [Plain.change, hba] using hb
  bare b hb r hr := h.bare b hb r (hw.state ▸ hr)

theorem load (h : Shows s m) (a : Address) : Shows (s.load a) m where
  start := (State.load_frame s a).2.2.trans h.start
  view b := by
    rw [State.account_load]
    exact h.view b
  marked b hb := by
    rw [State.account_load]
    exact h.marked b hb
  bare b hb r hr := h.bare b hb r ((State.load_frame s a).1 ▸ hr)

theorem addBalance (h : Shows s m) (a : Address) (v : U256) :
    Shows (s.addBalance a v).1 (m.addBalance a v).1 ∧ (s.addBalance a v).2 = (m.addBalance a v).2 := by
  unfold Plain.addBalance Plain.changeOrMake
  cases ha : s.account a with
  | none =>
    have hv := h.of_none ha
    rw [State.addBalance_none ha, h.start]
    by_cases hn : m.startNonce = Invalid256
    · have hbar : m.barred a := ⟨by rw [hv]; rfl, hn⟩
      rw [if_pos hn, if_pos hbar]
      exact ⟨h.load a, rfl⟩
    · have hbar : ¬m.barred a := fun hb => hn hb.2
      rw [if_neg hn, if_neg hbar]
      have hw := State.wrote_created s a (Account.new m.startNonce v)
        ((if v = 0 then [] else [(a, .Balance v)]) ++ (a, .Create) :: (s.load a).m_changeLog)
      refine ⟨h.change (fun w => { w with balance := w.balance + v }) hw rfl rfl ?_, rfl⟩
      rw [hv, Account.answers_new]
      simp [Answers.absent]
  | some x =>
    obtain ⟨halive, hv⟩ := h.of_some ha
    have hbar : ¬m.barred a := fun hb => by
      have he := hb.1
      rw [hv] at he
      exact absurd (halive.symm.trans he) (by decide)
    rw [State.addBalance_eq_write (x := x) ha, if_neg hbar]
    have hw := State.wrote_write s a (x.addBalance v) (balanceLog x v)
    refine ⟨h.change (fun w => { w with balance := w.balance + v }) hw rfl halive ?_, rfl⟩
    rw [hv, ← halive]
    rfl

theorem subBalance (h : Shows s m) (a : Address) (v : U256) :
    Shows (s.subBalance a v).1 (m.subBalance a v).1 ∧ (s.subBalance a v).2 = (m.subBalance a v).2 := by
  unfold Plain.subBalance State.subBalance
  by_cases hv : v = 0
  · rw [if_pos hv, if_pos hv]
    exact ⟨h, rfl⟩
  · rw [if_neg hv, if_neg hv]
    cases ha : s.account a with
    | none =>
      have hc : (s.load a).m_cache.lookup a = none := ha
      have hex : (m.view a).existing = false := by rw [h.existing, ha]; rfl
      simp only [hc]
      rw [if_pos (.inl hex)]
      exact ⟨h.load a, rfl⟩
    | some x =>
      obtain ⟨halive, hx⟩ := h.of_some ha
      have hc : (s.load a).m_cache.lookup a = some x := ha
      have hbal : (m.view a).balance = x.m_balance := by rw [hx]; rfl
      simp only [hc, hbal, h.existing, ha, Option.isSome_some, Bool.true_eq_false, false_or]
      by_cases hlt : x.m_balance < v
      · rw [if_pos hlt, if_pos hlt]
        exact ⟨h.load a, rfl⟩
      · rw [if_neg hlt, if_neg hlt]
        exact (h.load a).addBalance a (0 - v)

theorem transferBalance (h : Shows s m) (src dst : Address) (v : U256) :
    Shows (s.transferBalance src dst v).1 (m.write (.transferBalance src dst v)).1 ∧
      (s.transferBalance src dst v).2 = (m.write (.transferBalance src dst v)).2 := by
  obtain ⟨hs, he⟩ := h.subBalance src v
  unfold State.transferBalance Plain.write
  simp only [he]
  by_cases hn : (m.subBalance src v).2.isNone = true
  · rw [if_pos hn, if_pos hn]
    exact hs.addBalance dst v
  · rw [if_neg hn, if_neg hn]
    exact ⟨hs, he⟩

theorem setBalance (h : Shows s m) (hs : s.Inv) (a : Address) (v : U256) :
    Shows (s.setBalance a v).1 (m.write (.setBalance a v)).1 ∧
      (s.setBalance a v).2 = (m.write (.setBalance a v)).2 := by
  have hb : s.balance a = (m.view a).balance := congrArg Answers.balance (h.answers_eq hs a)
  rw [State.setBalance, hb]
  exact (h.load a).addBalance a _

theorem incNonce (h : Shows s m) (a : Address) :
    Shows (s.incNonce a).1 (m.write (.incNonce a)).1 ∧
      (s.incNonce a).2 = (m.write (.incNonce a)).2 := by
  unfold Plain.write Plain.changeOrMake
  cases ha : s.account a with
  | none =>
    have hv := h.of_none ha
    rw [State.incNonce_none ha, h.start]
    by_cases hn : m.startNonce = Invalid256
    · have hbar : m.barred a := ⟨by rw [hv]; rfl, hn⟩
      rw [if_pos hn]
      simp only [if_pos hbar]
      exact ⟨h.load a, trivial⟩
    · have hbar : ¬m.barred a := fun hb => hn hb.2
      rw [if_neg hn]
      simp only [if_neg hbar]
      have hw := State.wrote_created s a (Account.new (m.startNonce + 1) 0)
        ((a, .Create) :: (s.load a).m_changeLog)
      refine ⟨h.change (fun w => { w with nonce := w.nonce + 1 }) hw rfl rfl ?_, trivial⟩
      rw [hv, Account.answers_new]
      rfl
  | some x =>
    obtain ⟨halive, hv⟩ := h.of_some ha
    have hbar : ¬m.barred a := fun hb => by
      have he := hb.1
      rw [h.existing, ha] at he
      cases he
    rw [State.incNonce_some ha]
    simp only [if_neg hbar]
    have hw := State.wrote_write s a (x.setNonce (x.m_nonce + 1)) [.Nonce x.m_nonce]
    refine ⟨h.change (fun w => { w with nonce := w.nonce + 1 }) hw rfl halive ?_, trivial⟩
    rw [hv, ← halive]
    rfl

theorem setNonce (h : Shows s m) (a : Address) (n : U256) :
    Shows (s.setNonce a n).1 (m.write (.setNonce a n)).1 ∧
      (s.setNonce a n).2 = (m.write (.setNonce a n)).2 := by
  unfold Plain.write
  cases ha : s.account a with
  | none =>
    have hv := h.of_none ha
    rw [State.setNonce_none ha]
    have hw := State.wrote_created s a (Account.new n 0) ((a, .Create) :: (s.load a).m_changeLog)
    refine ⟨h.change (fun w => { w with nonce := n }) hw rfl rfl ?_, rfl⟩
    rw [hv, Account.answers_new]
    rfl
  | some x =>
    obtain ⟨halive, hv⟩ := h.of_some ha
    rw [State.setNonce_some ha]
    have hw := State.wrote_write s a (x.setNonce n) [.Nonce x.m_nonce]
    refine ⟨h.change (fun w => { w with nonce := n }) hw rfl halive ?_, rfl⟩
    rw [hv, ← halive]
    rfl

theorem createContract (h : Shows s m) (a : Address) :
    Shows (s.createContract a).1 (m.write (.createContract a)).1 ∧
      (s.createContract a).2 = (m.write (.createContract a)).2 := by
  unfold Plain.write
  cases ha : s.account a with
  | none =>
    have hex : ¬(m.view a).existing = true := by rw [h.existing, ha]; exact Bool.false_ne_true
    rw [State.createContract_none ha, h.start]
    by_cases hn : m.startNonce = Invalid256
    · simp only [if_pos hn]
      exact ⟨h, trivial⟩
    · simp only [if_neg hn, if_neg hex]
      have hw := State.wrote_created s a (Account.new m.startNonce 0)
        ((a, .Create) :: (s.load a).m_changeLog)
      refine ⟨h.change id hw rfl rfl ?_, trivial⟩
      rw [h.of_none ha, Account.answers_new]
      rfl
  | some x =>
    have hex : (m.view a).existing = true := by rw [h.existing, ha]; rfl
    rw [State.createContract_some ha, h.start]
    by_cases hn : m.startNonce = Invalid256
    · simp only [if_pos hn]
      exact ⟨h, trivial⟩
    · simp only [if_neg hn, if_pos hex]
      exact ⟨h.load a, trivial⟩

/-- Code is set for an account that counts as changed. -/
theorem setCode (h : Shows s m) (hm : m.marked a = true) (b : Bytes) (v : U256) :
    Shows (s.setCode a b v).1 (m.write (.setCode a b v)).1 ∧
      (s.setCode a b v).2 = (m.write (.setCode a b v)).2 := by
  obtain ⟨x, ha, hd⟩ := h.marked a hm
  obtain ⟨halive, hv⟩ := h.of_some ha
  have hh : (m.view a).codeHash = x.m_codeHash := by rw [hv]; rfl
  unfold Plain.write
  rw [State.setCode_some ha]
  simp only [hh]
  by_cases hc : x.m_codeHash ≠ EmptySHA3
  · simp only [if_pos hc]
    exact ⟨h.load a, trivial⟩
  · simp only [if_neg hc]
    have hw := State.wrote_write s a (x.setCode b v) [.Code]
    have hfields : (x.setCode b v).isDirty = x.isDirty ∧ (x.setCode b v).m_isAlive = x.m_isAlive ∧
        (x.setCode b v).answers =
          { x.answers with code := b, codeHash := b, version := v } := by
      unfold Account.setCode
      by_cases hb : b ≠ x.m_codeHash
      · rw [if_pos hb]
        exact ⟨rfl, rfl, rfl⟩
      · rw [if_neg hb, not_not.1 hb]
        exact ⟨rfl, rfl, rfl⟩
    refine ⟨h.change (fun w => { w with code := b, codeHash := b, version := v }) hw
      (hfields.1.trans hd) (hfields.2.1.trans halive) ?_, trivial⟩
    rw [hfields.2.2, hv, ← halive]
    rfl

theorem setStorage (h : Shows s m) (hex : (m.view a).existing = true) (k v : U256) :
    Shows (s.setStorage a k v) (m.write (.setStorage a k v)).1 := by
  rw [h.existing] at hex
  obtain ⟨x, ha⟩ := Option.isSome_iff_exists.1 hex
  obtain ⟨halive, hv⟩ := h.of_some ha
  rw [State.setStorage_some ha]
  have hw := State.wrote_write s a (x.setStorage k v) [.Storage k (x.storage k)]
  refine h.change (fun w => { w with storage := Function.update w.storage k v }) hw rfl halive ?_
  rw [hv, ← halive]
  have hst : (x.setStorage k v).storage = Function.update x.storage k v := by
    funext j
    rw [Account.storage_setStorage, Function.update_apply]
  simp only [Account.answers, hst]
  rfl

/-- A changed account is in the cache. -/
theorem lookup_of_marked (h : Shows s m) (hm : m.marked a = true) :
    ∃ x, s.m_cache.lookup a = some x ∧ s.account a = some x ∧ x.isDirty = true := by
  obtain ⟨x, ha, hd⟩ := h.marked a hm
  have hdef := State.account_def s a
  cases hc : s.m_cache.lookup a with
  | some y =>
    rw [hc, Option.some_or, ha] at hdef
    cases hdef
    exact ⟨x, rfl, ha, hd⟩
  | none =>
    rw [hc, Option.none_or, ha] at hdef
    by_cases hn : a ∈ s.m_nonExistingAccountsCache
    · rw [if_pos hn] at hdef
      cases hdef
    · rw [if_neg hn] at hdef
      obtain ⟨r, -, rfl⟩ := Option.map_eq_some_iff.1 hdef.symm
      cases hd

/-- The account of an address without storage in the trie has no storage trie. -/
theorem root_of_bare (h : Shows s m) (hs : s.Kept) (hb : m.bare a = true) (hx : s.m_cache.lookup a = some x) :
    x.m_storageRoot = 0 := by
  rcases (hs.roots a).1 x hx with hr | ⟨r, hr, hxr⟩
  · exact hr
  · rw [hxr]
    exact h.bare a hb r hr

theorem clearStorage (h : Shows s m) (hs : s.Kept) (hm : m.marked a = true) (hb : m.bare a = true) :
    Shows (s.clearStorage a) m := by
  obtain ⟨x, hx, ha, hd⟩ := h.lookup_of_marked hm
  rw [State.clearStorage_bare hx (h.root_of_bare hs hb hx)]
  refine h.of_like (fun b => ?_) rfl rfl
  have hsame : (s.put a x).account b = s.account b := by
    refine State.account_congr ?_ Iff.rfl rfl
    by_cases hba : b = a
    · subst hba
      exact (AList.lookup_insert _).trans hx.symm
    · exact AList.lookup_insert_ne hba
  rw [hsame]
  exact (Both.upto_refl [] _).mono fun _ _ h => h.like

theorem write (h : Shows s m) (hs : s.Kept) {w : Write} (hw : m.Permits w) :
    Shows (s.step w.op) (m.write w).1 ∧ s.outcome w = (m.write w).2 := by
  cases w with
  | incNonce a => exact h.incNonce a
  | setNonce a n => exact h.setNonce a n
  | addBalance a v => exact h.addBalance a v
  | subBalance a v => exact h.subBalance a v
  | transferBalance a b v => exact h.transferBalance a b v
  | setBalance a v => exact h.setBalance hs.inv a v
  | createContract a => exact h.createContract a
  | setCode a b v => exact h.setCode hw.1 b v
  | setStorage a k v => exact ⟨h.setStorage hw.1 k v, rfl⟩
  | clearStorage a => exact ⟨h.clearStorage hs hw.1 hw.2, rfl⟩
  | kill a =>
    have ha : s.account a = none := by
      have hex := h.existing a
      rw [hw] at hex
      exact Option.isSome_eq_false_iff.1 hex.symm |> Option.isNone_iff_eq_none.1
    refine ⟨?_, rfl⟩
    change Shows (s.kill a) m
    rw [State.kill_none ha]
    exact h.load a

end Shows

end Petrachor.StateCache
