import Petrachor.StateCache.Shows

/-!
# Programs on a state and on plain accounts

A state simulates plain accounts: a program whose calls are in order has the same result on both,
also when it goes back to savepoints inside one another, and the state shows the accounts that the
program leaves.
-/

namespace Petrachor.StateCache

/-! ## Savepoints inside one another -/

theorem Both.trans {e f g : Option Account} (h : Both Account.Like e f) (h' : Both Account.Like f g) :
    Both Account.Like e g := by
  rcases h with ⟨rfl, rfl⟩ | ⟨x, y, rfl, rfl, hxy⟩
  · exact h'
  · rcases h' with ⟨hy, _⟩ | ⟨y', z, hy, rfl, hyz⟩
    · cases hy
    · cases hy
      exact .inr ⟨x, z, rfl, rfl, hxy.trans hyz⟩

/-- What the trie gives back does not count as changed. -/
theorem Cell.entry_of_dirty {c : Cell} {x : Account} (h : c.account = some x)
    (hd : x.isDirty = true) : c.entry = some x := by
  unfold Cell.account at h
  cases he : c.entry with
  | some y =>
    rw [he, Option.some_or] at h
    exact h
  | none =>
    rw [he, Option.none_or] at h
    obtain ⟨r, -, rfl⟩ := Option.map_eq_some_iff.1 h
    cases hd

namespace Cell.Restores

variable {b c d : Cell} {l k : List Change}

/-- What has come from a base, and what has come from there. -/
theorem trans (h : b.Restores c l) (h' : c.Restores d k) : b.Restores d (k ++ l) where
  record := h'.record.trans h.record
  log := by rw [h'.log, h.log, List.append_assoc]
  dirty hkl := by
    by_cases hk : k = []
    · subst hk
      obtain ⟨x, hx, hd⟩ := h.dirty hkl
      have hacc : c.account = some x := by rw [Cell.account, hx, Option.some_or]
      rcases h'.like with ⟨hn, _⟩ | ⟨x', y, hx', hy, hxy⟩
      · rw [hacc] at hn
        cases hn
      · rw [hacc] at hx'
        cases hx'
        exact ⟨y, Cell.entry_of_dirty hy (hxy.dirty hd), hxy.dirty hd⟩
    · exact h'.dirty hk
  clean x hx hd := h.record ▸ h'.clean x hx hd
  like := by
    have hlike := h'.like
    rw [undoAll_append]
    by_cases hl : l = []
    · subst hl
      exact h.like.trans hlike
    · obtain ⟨x, hx, hd⟩ := h.dirty hl
      have hacc : c.account = some x := by rw [Cell.account, hx, Option.some_or]
      rcases hlike with ⟨hn, _⟩ | ⟨x', y, hx', hy, hxy⟩
      · rw [hacc] at hn
        cases hn
      · rw [hacc] at hx'
        cases hx'
        have he : undoAll d.entry k = some y := Cell.entry_of_dirty hy (hxy.dirty hd)
        have hu : x.Upto l y := ⟨hxy.alive, hxy.nonce, hxy.balance, hxy.codeHash,
          .inr hxy.version, fun j => .inr (hxy.storage j), (hxy.dirty hd).trans hd.symm⟩
        have hb := h.like.like_upto (Both.undoAll (.inr ⟨x, y, hx, rfl, hu⟩))
        rw [he]
        exact h'.record ▸ hb

end Cell.Restores

namespace State

variable {s s' s₀ : State} {m : Plain}

theorem Since.trans (h : Since s₀ s) (h' : Since s s') : Since s₀ s' where
  inv := h'.inv
  start := h'.start.trans h.start
  log := by
    obtain ⟨l, hl⟩ := h.log
    obtain ⟨k, hk⟩ := h'.log
    exact ⟨k ++ l, by rw [hk, hl, List.append_assoc]⟩
  cell a := by
    obtain ⟨l, hl⟩ := h.cell a
    obtain ⟨k, hk⟩ := h'.cell a
    exact ⟨k ++ l, hl.trans hk⟩

theorem Since.cleanLasting (h : Since s s') : s'.CleanLasting := by
  intro a x hx hd
  obtain ⟨l, hl⟩ := h.cell a
  obtain ⟨r, hr, hu⟩ := hl.clean x hx hd
  refine ⟨hu.like.version, ?_⟩
  rw [if_neg (by rw [hd]; exact Bool.false_ne_true)]
  exact ⟨hu.alive, r, hl.record.trans hr, hu.codeHash⟩

/-- Without a new entry in the log, nothing has changed that shows. -/
theorem Since.like_of_log (h : Since s s') (hlog : s'.m_changeLog = s.m_changeLog) (hs : s.Inv)
    (a : Address) : Both Account.Like (s.account a) (s'.account a) := by
  obtain ⟨l, hl⟩ := h.cell a
  have hnil : l = [] := by
    have hc : (s'.cell a).log = (s.cell a).log := congrArg (Keyed.entriesOf a) hlog
    rw [hl.log] at hc
    exact List.append_left_eq_self.1 hc
  subst hnil
  rw [account_eq hs, account_eq h.inv]
  exact hl.like

/-- After the rollback to a savepoint nothing is left in the log since then. -/
theorem Since.rolledBack (h : Since s₀ s) (hs : s₀.Inv) (hc : s₀.CleanLasting) :
    Since s₀ (s.rollback s₀.savepoint) := by
  obtain ⟨l, hl⟩ := h.log
  have hcell := cell_rollback hl
  have hframe := rollback_frame hl
  have hinv : (s.rollback s₀.savepoint).Inv := h.inv.rollback (by
    rw [savepoint, savepoint, hl, List.length_append]
    omega)
  refine ⟨hinv, hframe.2.2.1.trans h.start, ⟨[], hframe.2.2.2⟩, fun a => ⟨[], ?_⟩⟩
  obtain ⟨k, hk⟩ := h.cell a
  have hkl : k = Keyed.entriesOf a l := by
    have hlog : Keyed.entriesOf a s.m_changeLog = k ++ Keyed.entriesOf a s₀.m_changeLog := hk.log
    rw [hl, Keyed.entriesOf_append] at hlog
    exact (List.append_cancel_right hlog).symm
  have hlike := hk.like
  rw [hkl] at hlike
  rw [savepoint, hcell a]
  refine ⟨hk.record, rfl, fun hn => absurd rfl hn, fun y hy hd => ?_, hlike⟩
  -- an account that is unchanged after the rollback was unchanged at the savepoint
  have hacc : Cell.account { s.cell a with entry := undoAll (s.cell a).entry (Keyed.entriesOf a l) } =
      some y := by
    change (undoAll (s.cell a).entry (Keyed.entriesOf a l)).or _ = some y
    have hy' : undoAll (s.cell a).entry (Keyed.entriesOf a l) = some y := hy
    rw [hy', Option.some_or]
  rcases hlike with ⟨_, hn⟩ | ⟨x, y', hx, hy', hxy⟩
  · rw [hacc] at hn
    cases hn
  · rw [hacc] at hy'
    cases hy'
    have hxd : x.isDirty = false := by
      by_contra hxd
      rw [hxy.dirty (by simpa using hxd)] at hd
      cases hd
    refine (asRead_account hs hc hx hxd).upto ⟨hxy.alive, hxy.nonce, hxy.balance, hxy.codeHash,
      .inr hxy.version, fun j => .inr (hxy.storage j), hd.trans hxd.symm⟩

end State

/-! ## What a call keeps -/

/-- Only accounts without a storage trie are cleared. -/
def Guard.rooted (_ : Address) : Guard :=
  ⟨True, fun _ => True, fun _ _ => False, fun _ _ _ => True, True⟩

theorem Cell.RootsKept.edit {db : CodeHash → Bytes} {a : Address} {c c' : Cell} (h : c.RootsKept)
    (hE : Edit db (Guard.rooted a) c c') : c'.RootsKept := by
  have hpush : ∀ {x : Account} {ch : Change}, c.entry = some x → (∀ r, ch ≠ .StorageRoot r) →
      ∀ y : Account, y.m_storageRoot = x.m_storageRoot →
        Cell.RootsKept { c with entry := some y, log := ch :: c.log } := by
    intro x ch he hch y hy
    refine ⟨fun z hz => ?_, fun r hr => ?_⟩
    · cases hz
      rw [hy]
      exact h.1 x he
    · exact (List.mem_cons.1 hr).elim (fun he => hch r he.symm) (h.2 r)
  have hread : ∀ {x : Account}, c.entry = some x →
      ∀ y : Account, y.m_storageRoot = x.m_storageRoot →
        Cell.RootsKept { c with entry := some y } := by
    intro x he y hy
    refine ⟨fun z hz => ?_, h.2⟩
    cases hz
    rw [hy]
    exact h.1 x he
  cases hE with
  | miss _ _ => exact h
  | fetch _ _ hr =>
    refine ⟨fun x hx => ?_, h.2⟩
    cases hx
    exact .inr ⟨_, hr, rfl⟩
  | evict _ _ => exact ⟨fun x hx => (by cases hx), h.2⟩
  | readStorage he _ => exact hread he _ rfl
  | readCode he _ _ => exact hread he _ rfl
  | create _ _ =>
    refine ⟨fun x hx => ?_, fun r hr => ?_⟩
    · cases hx
      exact .inl rfl
    · exact (List.mem_cons.1 hr).elim (fun he => Change.noConfusion he) (h.2 r)
  | @balance x v he =>
    refine ⟨fun z hz => ?_, fun r hr => ?_⟩
    · cases hz
      exact h.1 x he
    · rcases List.mem_append.1 hr with hb | hr
      · unfold balanceLog at hb
        split at hb <;> split at hb <;> simp at hb
      · exact h.2 r hr
  | nonce he _ => exact hpush he (fun _ => Change.noConfusion) _ rfl
  | dead _ _ =>
    refine ⟨fun x hx => ?_, h.2⟩
    cases hx
    exact .inl rfl
  | storage he _ => exact hpush he (fun _ => Change.noConfusion) _ rfl
  | clear _ _ hg => exact hg.elim
  | @code x b v he _ _ =>
    refine hpush he (fun _ => Change.noConfusion) _ ?_
    unfold Account.setCode
    split <;> rfl
  | kill he _ =>
    refine ⟨fun z hz => ?_, h.2⟩
    cases hz
    exact .inl rfl

/-- Undoing brings back no storage root, as none was logged. -/
theorem Cell.RootsKept.undoAll {c : Cell} {l k : List Change} (h : c.RootsKept)
    (hl : c.log = l ++ k) :
    Cell.RootsKept { c with entry := undoAll c.entry l, log := k } := by
  induction l generalizing c with
  | nil => exact ⟨h.1, fun r hr => h.2 r (hl ▸ hr)⟩
  | cons ch l ih =>
    refine ih (c := { c with entry := ch.undo c.entry, log := l ++ k }) ⟨fun y hy => ?_, ?_⟩ rfl
    · have hget : (c.entry.getD Account.dead).m_storageRoot = 0 ∨
          ∃ r, c.record = some r ∧ (c.entry.getD Account.dead).m_storageRoot = r.storageRoot := by
        cases he : c.entry with
        | none => exact .inl rfl
        | some x => exact h.1 x he
      cases ch with
      | StorageRoot r => exact absurd (hl ▸ List.mem_cons_self) (h.2 r)
      | Create => cases hy
      | _ =>
        cases hy
        exact hget
    · intro r hr
      refine h.2 r ?_
      rw [hl]
      exact List.mem_cons_of_mem _ hr

namespace State

variable {s s' s₀ : State} {m : Plain}

/-- A call that the journal covers, from any savepoint, and that clears no storage trie. -/
structure Covered (s : State) (op : Op) : Prop where
  journaled : ∀ savepoint, op.Journaled savepoint s
  rooted : op.Meets Guard.rooted s

theorem Since.refl_of_kept (hs : s.Kept) : Since s s := .refl hs.inv hs.clean

theorem Kept.step {op : Op} (hs : s.Kept) (ho : s.Covered op) : (s.step op).Kept where
  inv := hs.inv.step op
  fresh := hs.fresh.step op
  clean := ((Since.refl_of_kept hs).step (ho.journaled _)).cleanLasting
  roots a := (edits_step ho.rooted).invariant (P := Cell.RootsKept)
    (fun _ _ hE hc => hc.edit hE) (hs.roots a)

theorem Kept.rollback (hs : s.Kept) (h : Since s₀ s) (hk : s₀.Kept) :
    (s.rollback s₀.savepoint).Kept where
  inv := (h.rolledBack hk.inv hk.clean).inv
  fresh := by
    refine hs.fresh.rollback ?_
    obtain ⟨l, hl⟩ := h.log
    rw [savepoint, savepoint, hl, List.length_append]
    omega
  clean := (h.rolledBack hk.inv hk.clean).cleanLasting
  roots a := by
    obtain ⟨l, hl⟩ := h.log
    rw [savepoint, cell_rollback hl]
    refine (hs.roots a).undoAll ?_
    change Keyed.entriesOf a s.m_changeLog = _
    rw [hl, Keyed.entriesOf_append]

/-- A call that only reads, or drops an unchanged account. -/
def Quiet : Op → Prop
  | .read _ | .readStorage _ _ | .readCode _ | .evict _ => True
  | _ => False

theorem covered_of_quiet {op : Op} (h : Quiet op) : s.Covered op := by
  cases op <;> first | exact h.elim | exact ⟨fun _ => trivial, trivial⟩

theorem log_of_quiet {op : Op} (h : Quiet op) : (s.step op).m_changeLog = s.m_changeLog := by
  cases op with
  | read a => exact m_changeLog_load s a
  | readStorage a k =>
    refine Eq.trans ?_ (m_changeLog_load s a)
    change (s.readStorage a k).m_changeLog = _
    simp only [readStorage]
    split
    · rfl
    · split <;> rfl
  | readCode a =>
    refine Eq.trans ?_ (m_changeLog_load s a)
    change (s.readCode a).m_changeLog = _
    simp only [readCode]
    split
    · rfl
    · split <;> rfl
  | evict a =>
    change (s.evict a).m_changeLog = _
    unfold evict
    split
    · split <;> rfl
    · rfl
  | _ => exact h.elim

theorem state_of_edits {op : Op} (h : op.Meets Guard.rooted s) : (s.step op).m_state = s.m_state := by
  funext a
  exact (edits_step h).invariant (P := fun c => c.record = s.m_state a)
    (fun c c' hE hc => by cases hE <;> exact hc) (a := a) rfl

/-- What is asked leaves the state as a quiet call does, or as it is. -/
theorem asked_quiet (s : State) (sizes : CodeSizeCache) (q : Query) :
    s.asked sizes q = s ∨ ∃ op, Quiet op ∧ s.asked sizes q = s.step op := by
  cases q with
  | addressInUse a => exact .inr ⟨.read a, trivial, rfl⟩
  | accountNonemptyAndExisting a => exact .inr ⟨.read a, trivial, rfl⟩
  | balance a => exact .inr ⟨.read a, trivial, rfl⟩
  | getNonce a => exact .inr ⟨.read a, trivial, rfl⟩
  | version a => exact .inr ⟨.read a, trivial, rfl⟩
  | codeHash a => exact .inr ⟨.read a, trivial, rfl⟩
  | code a => exact .inr ⟨.readCode a, trivial, rfl⟩
  | codeSize a =>
    refine .inr ?_
    change ∃ op, Quiet op ∧ (s.readCodeSize sizes a).1 = s.step op
    unfold readCodeSize
    split
    · exact ⟨.read a, trivial, rfl⟩
    · split
      · exact ⟨.read a, trivial, rfl⟩
      · exact ⟨.readCode a, trivial, rfl⟩
  | storage a k => exact .inr ⟨.readStorage a k, trivial, rfl⟩
  | requireAccountStartNonce => exact .inl rfl

end State

namespace Shows

variable {s s₀ : State} {m m₀ : Plain}

theorem quiet (h : Shows s m) (hs : s.Kept) {op : Op} (ho : State.Quiet op) :
    Shows (s.step op) m := by
  have hcov := State.covered_of_quiet (s := s) ho
  have hsince := (State.Since.refl_of_kept hs).step (hcov.journaled _)
  exact h.of_like (hsince.like_of_log (State.log_of_quiet ho) hs.inv) hsince.start
    (State.state_of_edits hcov.rooted)

/-- Undone since the savepoint, the state shows what it showed there. -/
theorem rollback (hm : Shows s₀ m₀) (hk : s₀.Kept) (h : State.Since s₀ s) :
    Shows (s.rollback s₀.savepoint) m₀ := by
  have hback := h.rolledBack hk.inv hk.clean
  obtain ⟨l, hl⟩ := h.log
  have hframe := State.rollback_frame hl
  refine hm.of_like (hback.like_of_log hframe.2.2.2 hk.inv) hback.start ?_
  funext a
  obtain ⟨k, hc⟩ := hback.cell a
  exact hc.record

/-- A change that is in order is covered; to kill nobody is to read. -/
theorem covered (h : Shows s m) (hs : s.Kept) {w : Write} (hw : m.Permits w) :
    ∃ op, s.step w.op = s.step op ∧ s.Covered op := by
  have hmark : ∀ a x, s.account a = some x → m.Marked a → x.Marked := by
    intro a x hx hm
    rcases hm with hm | hm
    · obtain ⟨y, hy, hd⟩ := h.marked a hm
      rw [hx] at hy
      cases hy
      exact .inl hd
    · rw [(h.of_some hx).2] at hm
      exact .inr hm
  have hnonce : ∀ a, ((m.view a).existing = true → m.Marked a) →
      ∀ x, s.account a = some x → x.Marked := by
    intro a hw x hx
    exact hmark a x hx (hw (by rw [h.existing, hx]; rfl))
  cases w with
  | incNonce a => exact ⟨_, rfl, fun _ => hnonce a hw, fun _ _ => trivial⟩
  | setNonce a n => exact ⟨_, rfl, fun _ => hnonce a hw, fun _ _ => trivial⟩
  | setStorage a k v =>
    have hex := hw.1
    rw [h.existing] at hex
    obtain ⟨x, hx⟩ := Option.isSome_iff_exists.1 hex
    exact ⟨_, rfl, fun _ => ⟨x, hx, hmark a x hx hw.2⟩, fun _ _ => trivial, .inl hex⟩
  | setCode a b v =>
    obtain ⟨x, hx, hd⟩ := h.marked a hw.1
    have hv : v = x.m_version := by
      rw [hw.2, (h.of_some hx).2]
      rfl
    exact ⟨_, rfl, fun _ => ⟨x, hx, hd, .inl hv⟩, .inl (by rw [hx]; rfl), fun _ _ => trivial⟩
  | clearStorage a =>
    obtain ⟨x, hx, _, _⟩ := h.lookup_of_marked hw.1
    have hr := h.root_of_bare hs hw.2 hx
    refine ⟨_, rfl, fun _ => ⟨x, hx, fun hn => absurd hr hn⟩, .inl (by rw [hx]; rfl), fun y hy hn => ?_⟩
    rw [hx] at hy
    cases hy
    exact absurd hr hn
  | kill a =>
    refine ⟨.read a, ?_, fun _ => trivial, trivial⟩
    have hex := h.existing a
    rw [hw] at hex
    exact State.kill_none (Option.isNone_iff_eq_none.1 (Option.isSome_eq_false_iff.1 hex.symm))
  | addBalance a v => exact ⟨_, rfl, fun _ => trivial, trivial⟩
  | subBalance a v => exact ⟨_, rfl, fun _ => trivial, trivial⟩
  | transferBalance a b v => exact ⟨_, rfl, fun _ => trivial, trivial⟩
  | setBalance a v => exact ⟨_, rfl, fun _ => trivial, trivial⟩
  | createContract a => exact ⟨_, rfl, fun _ => trivial, trivial⟩

end Shows

/-! ## The savepoints that were taken -/

/-- The savepoints are those of states that showed the accounts, each come from the one before. -/
inductive Stacked : List ℕ → List Plain → State → Prop
  | nil (s : State) : Stacked [] [] s
  | cons {s₀ s : State} {m₀ : Plain} {saved : List ℕ} {models : List Plain}
      (h : Stacked saved models s₀) (hk : s₀.Kept) (hm : Shows s₀ m₀) (hs : State.Since s₀ s) :
    Stacked (s₀.savepoint :: saved) (m₀ :: models) s

namespace Stacked

variable {saved : List ℕ} {models : List Plain} {s s' : State}

theorem length_eq (h : Stacked saved models s) : models.length = saved.length := by
  induction h with
  | nil => rfl
  | cons _ _ _ _ ih => rw [List.length_cons, List.length_cons, ih]

theorem since (h : Stacked saved models s) (hs : State.Since s s') : Stacked saved models s' := by
  cases h with
  | nil => exact .nil s'
  | cons h hk hm hs₀ => exact .cons h hk hm (hs₀.trans hs)

/-- The savepoints up to an older one. -/
theorem drop (h : Stacked saved models s) (k : ℕ) (hk : k < saved.length) :
    ∃ s₀ m₀ older olders, saved.drop k = s₀.savepoint :: older ∧ models.drop k = m₀ :: olders ∧
      Stacked older olders s₀ ∧ s₀.Kept ∧ Shows s₀ m₀ ∧ State.Since s₀ s := by
  induction h generalizing k with
  | nil => exact absurd hk (Nat.not_lt_zero k)
  | @cons s₀ s m₀ saved models h hkept hm hs ih =>
    cases k with
    | zero => exact ⟨s₀, m₀, saved, models, rfl, rfl, h, hkept, hm, hs⟩
    | succ k =>
      obtain ⟨s₁, m₁, older, olders, h₁, h₂, h₃, h₄, h₅, h₆⟩ :=
        ih k (Nat.lt_of_succ_lt_succ hk)
      exact ⟨s₁, m₁, older, olders, h₁, h₂, h₃, h₄, h₅, h₆.trans hs⟩

end Stacked

/-! ## The simulation -/

/-- The state shows the accounts, and its savepoints those that were saved. -/
structure Simulated (x : State × List ℕ) (y : Plain × List Plain) : Prop where
  kept : x.1.Kept
  shows : Shows x.1 y.1
  stacked : Stacked x.2 y.2 x.1

theorem simulates : stateMachine.Simulates Plain.respond Plain.InOrder Simulated where
  step := by
    rintro ⟨s, saved⟩ ⟨m, models⟩ c a ⟨s', saved'⟩ ⟨hs, hm, hst⟩ hc ⟨sizes, hz, hstep⟩
    have hs : s.Kept := hs
    have hm : Shows s m := hm
    have hst : Stacked saved models s := hst
    cases c with
    | ask q =>
      cases hstep
      refine ⟨hm.answer hs hz q, ?_⟩
      rcases State.asked_quiet s sizes q with he | ⟨op, ho, he⟩
      · have hself : Simulated (s, saved) (m, models) := ⟨hs, hm, hst⟩
        change Simulated (s.asked sizes q, saved) (m, models)
        rwa [he]
      · have hcov := State.covered_of_quiet (s := s) ho
        refine ⟨he ▸ hs.step hcov, he ▸ hm.quiet hs ho, ?_⟩
        exact he ▸ hst.since ((State.Since.refl_of_kept hs).step (hcov.journaled _))
    | write w =>
      cases hstep
      obtain ⟨op, he, hcov⟩ := hm.covered hs hc
      have hw := hm.write hs hc
      refine ⟨hw.2, he ▸ hs.step hcov, hw.1, ?_⟩
      exact he ▸ hst.since ((State.Since.refl_of_kept hs).step (hcov.journaled _))
    | savepoint =>
      cases hstep
      exact ⟨hst.length_eq.symm, hs, hm, .cons hst hs hm (.refl_of_kept hs)⟩
    | rollback i =>
      have hlen := hst.length_eq
      have hi : i < models.length := hc
      obtain ⟨s₀, m₀, older, olders, h₁, h₂, h₃, hk₀, hm₀, hsince⟩ :=
        hst.drop (saved.length - 1 - i) (by omega)
      have hup : upTo saved i = s₀.savepoint :: older := h₁
      have hup' : upTo models i = m₀ :: olders := by
        rw [upTo, hlen]
        exact h₂
      have hr : respond sizes (s, saved) (.rollback i) =
          ((), s.rollback s₀.savepoint, s₀.savepoint :: older) := by
        simp only [respond, hup]
      have hr' : Plain.respond (m, models) (.rollback i) = ((), m₀, m₀ :: olders) := by
        simp only [Plain.respond, hup']
      rw [hr] at hstep
      rw [hr']
      cases hstep
      exact ⟨rfl, hs.rollback hsince hk₀, hm₀.rollback hk₀ hsince,
        .cons h₃ hk₀ hm₀ (hsince.rolledBack hk₀.inv hk₀.clean)⟩
  shift := by
    rintro ⟨s, saved⟩ ⟨m, models⟩ _ ⟨hs, hm, hst⟩ ⟨a, rfl⟩
    have hs : s.Kept := hs
    have hquiet : State.Quiet (.evict a) := trivial
    have hcov : s.Covered (.evict a) := State.covered_of_quiet hquiet
    exact ⟨hs.step hcov, Shows.quiet hm hs hquiet,
      Stacked.since hst ((State.Since.refl_of_kept hs).step (hcov.journaled _))⟩

end Petrachor.StateCache
