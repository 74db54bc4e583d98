import Petrachor.StateCache.Commit

/-!
# What a rollback restores

At one address: undoing the log back to the savepoint gives an account like the one at the
savepoint, as long as every change since then was one that the journal covers. Two accounts that
differ only in what is still to be undone are alike once it is undone.
-/

namespace Petrachor.StateCache

/-- A change of the account shows: it counts as changed already, or it is not empty. The first
change of an unchanged empty account shows only if it is logged as a touch. -/
def Account.Marked (x : Account) : Prop := x.isDirty = true ∨ x.isEmpty = false

/-- The entries of the log for an address that are newer than a savepoint. -/
def State.since (s : State) (savepoint : ℕ) (a : Address) : List Change :=
  Keyed.entriesOf a (s.m_changeLog.take (s.savepoint - savepoint))

/-- The journal covers the call, in the state it is made in: nothing is changed that is not logged,
and what is logged brings everything back. -/
def Op.Journaled (savepoint : ℕ) (s : State) : Op → Prop
  | .incNonce a | .setNonce a _ => ∀ x, s.account a = some x → x.Marked
  | .setStorage a _ _ => ∃ x, s.account a = some x ∧ x.Marked
  | .setCode a _ v =>
    ∃ x, s.account a = some x ∧ x.isDirty = true ∧
      (v = x.m_version ∨ .Create ∈ s.since savepoint a)
  | .clearStorage a =>
    ∃ x, s.m_cache.lookup a = some x ∧
      (x.m_storageRoot ≠ 0 → x.Marked ∧
        ∀ k v, x.m_storageOverlay.lookup k = some v →
          v = x.m_storageRoot k ∨ ∃ old, .Storage k old ∈ s.since savepoint a)
  | .kill _ | .rollback _ | .commit _ | .copy => False
  | _ => True

/-- The rollback after the calls gives back all that was answered at the savepoint, and the root of
a commit that removes empty accounts. -/
def State.RollbackRestores (s : State) (ops : List Op) : Prop :=
  (∀ a, ((StateRun.run step s ops).rollback s.savepoint).answers a = s.answers a ∧
    ((StateRun.run step s ops).rollback s.savepoint).addressInUse a = s.addressInUse a) ∧
  (((StateRun.run step s ops).rollback s.savepoint).commit .RemoveEmptyAccounts).m_state =
    (s.commit .RemoveEmptyAccounts).m_state

/-! ## Accounts that differ in what is still to be undone -/

/-- The same answers, and the same fate in a commit. -/
structure Account.Like (x y : Account) : Prop where
  alive : y.m_isAlive = x.m_isAlive
  nonce : y.m_nonce = x.m_nonce
  balance : y.m_balance = x.m_balance
  codeHash : y.m_codeHash = x.m_codeHash
  version : y.m_version = x.m_version
  storage : ∀ k, y.storage k = x.storage k
  dirty : x.isDirty = true → y.isDirty = true
  touched : y.isDirty = true → x.Marked

/-- Alike once the entries `l` are undone. -/
structure Account.Upto (l : List Change) (x y : Account) : Prop where
  alive : y.m_isAlive = x.m_isAlive
  nonce : y.m_nonce = x.m_nonce
  balance : y.m_balance = x.m_balance
  codeHash : y.m_codeHash = x.m_codeHash
  version : .Create ∈ l ∨ y.m_version = x.m_version
  storage : ∀ k, (∃ old, .Storage k old ∈ l) ∨ y.storage k = x.storage k
  dirty : y.isDirty = x.isDirty

/-- `R` on the accounts, or no account on both sides. -/
def Both (R : Account → Account → Prop) (e f : Option Account) : Prop :=
  (e = none ∧ f = none) ∨ ∃ x y, e = some x ∧ f = some y ∧ R x y

namespace Account

variable {x y z : Account} {l : List Change}

theorem isEmpty_congr (hn : y.m_nonce = x.m_nonce) (hb : y.m_balance = x.m_balance)
    (hc : y.m_codeHash = x.m_codeHash) : y.isEmpty = x.isEmpty := by
  simp only [isEmpty, hn, hb, hc]

theorem Upto.refl (l : List Change) (x : Account) : x.Upto l x :=
  ⟨rfl, rfl, rfl, rfl, .inr rfl, fun _ => .inr rfl, rfl⟩

theorem Upto.like (h : x.Upto [] y) : x.Like y where
  alive := h.alive
  nonce := h.nonce
  balance := h.balance
  codeHash := h.codeHash
  version := h.version.resolve_left (List.not_mem_nil)
  storage k := (h.storage k).resolve_left fun ⟨_, h⟩ => List.not_mem_nil h
  dirty hx := h.dirty.trans hx
  touched hy := .inl (h.dirty ▸ hy)

theorem Like.trans (h : x.Like y) (h' : y.Like z) : x.Like z where
  alive := h'.alive.trans h.alive
  nonce := h'.nonce.trans h.nonce
  balance := h'.balance.trans h.balance
  codeHash := h'.codeHash.trans h.codeHash
  version := h'.version.trans h.version
  storage k := (h'.storage k).trans (h.storage k)
  dirty hx := h'.dirty (h.dirty hx)
  touched hz := by
    rcases h'.touched hz with hy | hy
    · exact h.touched hy
    · exact .inr ((isEmpty_congr h.nonce h.balance h.codeHash).symm.trans hy)

theorem Like.answers_eq (h : x.Like y) : y.answers = x.answers := by
  have hst : y.storage = x.storage := funext h.storage
  rw [answers, answers, h.alive, h.balance, h.nonce, h.codeHash, h.version, hst]

theorem storage_setStorage (x : Account) (k v j : U256) :
    (x.setStorage k v).storage j = if j = k then v else x.storage j := by
  unfold storage setStorage
  by_cases hj : j = k
  · subst hj
    simp
  · simp [hj]

@[simp] theorem storage_setStorageRoot (x : Account) (r : Storage) (k : U256) :
    (x.setStorageRoot r).storage k = r k := by
  simp [storage, setStorageRoot]

end Account

theorem Both.mono {R S : Account → Account → Prop} (h : ∀ x y, R x y → S x y) {e f : Option Account}
    (hb : Both R e f) : Both S e f :=
  hb.imp_right fun ⟨x, y, hx, hy, hr⟩ => ⟨x, y, hx, hy, h x y hr⟩

theorem Both.upto_refl (l : List Change) (e : Option Account) : Both (Account.Upto l) e e := by
  cases e with
  | none => exact .inl ⟨rfl, rfl⟩
  | some x => exact .inr ⟨x, x, rfl, rfl, .refl l x⟩

/-- Undoing one more entry on both sides. -/
theorem Both.undo {c : Change} {l : List Change} {e f : Option Account}
    (h : Both (Account.Upto (c :: l)) e f) : Both (Account.Upto l) (c.undo e) (c.undo f) := by
  rcases h with ⟨rfl, rfl⟩ | ⟨x, y, rfl, rfl, h⟩
  · exact .upto_refl l _
  · have hst : ∀ k, (∀ old, c ≠ .Storage k old) →
        (∃ old, .Storage k old ∈ l) ∨ y.storage k = x.storage k := by
      intro k hc
      refine (h.storage k).imp_left fun ⟨old, ho⟩ => ⟨old, ?_⟩
      exact (List.mem_cons.1 ho).resolve_left (Ne.symm (hc old))
    have hv : c ≠ .Create → .Create ∈ l ∨ y.m_version = x.m_version := by
      intro hc
      exact h.version.imp_left fun ho => (List.mem_cons.1 ho).resolve_left (Ne.symm hc)
    cases c with
    | Create => exact .inl ⟨rfl, rfl⟩
    | Balance v =>
      refine .inr ⟨_, _, rfl, rfl, h.alive, h.nonce, ?_, h.codeHash, hv (by simp),
        fun k => hst k (by simp), rfl⟩
      simp [Account.addBalance, h.balance]
    | Nonce n =>
      exact .inr ⟨_, _, rfl, rfl, h.alive, rfl, h.balance, h.codeHash, hv (by simp),
        fun k => hst k (by simp), rfl⟩
    | StorageRoot r =>
      refine .inr ⟨_, _, rfl, rfl, h.alive, h.nonce, h.balance, h.codeHash, hv (by simp),
        fun k => .inr ?_, rfl⟩
      simp
    | Storage k v =>
      refine .inr ⟨_, _, rfl, rfl, h.alive, h.nonce, h.balance, h.codeHash, hv (by simp),
        fun j => ?_, rfl⟩
      simp only [Account.storage_setStorage]
      by_cases hj : j = k
      · simp [hj]
      · simpa [hj] using hst j (by simp [Ne.symm hj])
    | Code =>
      exact .inr ⟨_, _, rfl, rfl, h.alive, h.nonce, h.balance, rfl, hv (by simp),
        fun k => hst k (by simp), h.dirty⟩
    | Touch =>
      exact .inr ⟨_, _, rfl, rfl, h.alive, h.nonce, h.balance, h.codeHash, hv (by simp),
        fun k => hst k (by simp), rfl⟩

theorem Both.undoAll {l : List Change} {e f : Option Account} (h : Both (Account.Upto l) e f) :
    Both (Account.Upto []) (undoAll e l) (undoAll f l) :=
  undoStore.cellAll_rel (fun l => Both (Account.Upto l)) (fun _ _ _ _ h => h.undo) l h

/-! ## One address since the savepoint -/

/-- An unchanged account of the cache is what the trie gives back. -/
def Account.AsRead (o : Option Record) (x : Account) : Prop :=
  ∃ r, o = some r ∧ (ofRecord r).Upto [] x

theorem Account.AsRead.upto {o : Option Record} {x y : Account} (h : x.AsRead o)
    (hu : x.Upto [] y) : y.AsRead o := by
  obtain ⟨r, ho, hx⟩ := h
  refine ⟨r, ho, hu.alive.trans hx.alive, hu.nonce.trans hx.nonce, hu.balance.trans hx.balance,
    hu.codeHash.trans hx.codeHash, .inr (hu.like.version.trans hx.like.version),
    fun k => .inr ((hu.like.storage k).trans (hx.like.storage k)), hu.dirty.trans hx.dirty⟩

/-- The cell `c` has come from `base` by changes that the entries `l` of its log undo. -/
structure Cell.Restores (base c : Cell) (l : List Change) : Prop where
  record : c.record = base.record
  log : c.log = l ++ base.log
  dirty : l ≠ [] → ∃ x, c.entry = some x ∧ x.isDirty = true
  clean : ∀ x, c.entry = some x → x.isDirty = false → x.AsRead base.record
  like : Both Account.Like base.account (Cell.account { c with entry := undoAll c.entry l })

/-- What the callers see to since the savepoint, at an address whose cell was `base` there. -/
def Cell.guard (base : Cell) : Guard where
  dead := False
  change := Account.Marked
  clear c x := x.Marked ∧ ∀ k v, x.m_storageOverlay.lookup k = some v →
    v = x.m_storageRoot k ∨ ∃ l old, c.log = l ++ base.log ∧ .Storage k old ∈ l
  code c x v := x.isDirty = true ∧
    (v = x.m_version ∨ ∃ l, c.log = l ++ base.log ∧ .Create ∈ l)
  kill := False

theorem Both.like_upto {e f g : Option Account} {o : Option Record}
    (h : Both Account.Like e (f.or (o.map Account.ofRecord))) (hfg : Both (Account.Upto []) f g) :
    Both Account.Like e (g.or (o.map Account.ofRecord)) := by
  rcases hfg with ⟨rfl, rfl⟩ | ⟨y, z, rfl, rfl, hyz⟩
  · exact h
  · rw [Option.some_or] at h ⊢
    rcases h with ⟨_, h⟩ | ⟨x, y', hx, hy, hxy⟩
    · cases h
    · cases hy
      exact .inr ⟨x, z, hx, rfl, hxy.trans hyz.like⟩

namespace Cell.Restores

variable {base c : Cell} {l : List Change} {x y z : Account}

theorem nil_of_clean (h : Restores base c l) (hc : ∀ x, c.entry = some x → x.isDirty = false) :
    l = [] := by
  by_contra hl
  obtain ⟨x, hx, hd⟩ := h.dirty hl
  rw [hc x hx] at hd
  cases hd

/-- A cell without a cached account has nothing to undo. -/
theorem nil_of_none (h : Restores base c l) (hc : c.entry = none) : l = [] :=
  h.nil_of_clean fun x hx => by rw [hc] at hx; cases hx

/-- What is read does not show. -/
theorem read (h : Restores base c l) (he : c.entry = some x) (hu : ∀ l, x.Upto l y) :
    Restores base { c with entry := some y } l where
  record := h.record
  log := h.log
  dirty hl := by
    obtain ⟨w, hw, hd⟩ := h.dirty hl
    rw [he] at hw
    cases hw
    exact ⟨y, rfl, ((hu []).dirty).trans hd⟩
  clean w hw hd := by
    cases hw
    exact (h.clean x he ((hu []).dirty ▸ hd)).upto (hu [])
  like := by
    have hlike := h.like
    rw [he] at hlike
    exact hlike.like_upto (Both.undoAll (.inr ⟨x, y, rfl, rfl, hu l⟩))

/-- A logged change that undoing takes back, up to what is still to be undone. -/
theorem push {l₁ : List Change} (h : Restores base c l) (he : c.entry = some x)
    (hy : y.isDirty = true) (hz : undoAll (some y) l₁ = some z)
    (hxz : x.Upto l z ∨ x.isDirty = false ∧ x.Like z) :
    Restores base { c with entry := some y, log := l₁ ++ c.log } (l₁ ++ l) where
  record := h.record
  log := by
    change l₁ ++ c.log = _
    rw [h.log, List.append_assoc]
  dirty _ := ⟨y, rfl, hy⟩
  clean w hw hd := by
    cases hw
    rw [hy] at hd
    cases hd
  like := by
    have hlike := h.like
    rw [he] at hlike
    change Both Account.Like base.account
      ((undoAll (some y) (l₁ ++ l)).or (c.record.map Account.ofRecord))
    rw [undoAll_append, hz]
    rcases hxz with hu | ⟨hx, hxz⟩
    · exact hlike.like_upto (Both.undoAll (.inr ⟨x, z, rfl, rfl, hu⟩))
    · have hl : l = [] := h.nil_of_clean fun w hw => by
        rw [he] at hw
        cases hw
        exact hx
      subst hl
      rcases hlike with ⟨_, hn⟩ | ⟨w, x', hw, hx', hwx⟩
      · cases hn
      · cases hx'
        exact .inr ⟨w, z, hw, rfl, hwx.trans hxz⟩

/-- A change that undoing takes back but for the mark. -/
theorem push_marked {l₁ : List Change} (h : Restores base c l) (he : c.entry = some x)
    (hm : x.Marked) (hy : y.isDirty = true) (hz : undoAll (some y) l₁ = some z)
    (hu : ({ x with m_isUnchanged := false } : Account).Upto l z) :
    Restores base { c with entry := some y, log := l₁ ++ c.log } (l₁ ++ l) := by
  have hzd : z.isDirty = true := hu.dirty
  refine h.push he hy hz ?_
  cases hx : x.isDirty with
  | true =>
    refine .inl ⟨hu.alive, hu.nonce, hu.balance, hu.codeHash, hu.version, hu.storage, ?_⟩
    rw [hzd, hx]
  | false =>
    have hl : l = [] := h.nil_of_clean fun w hw => by
      rw [he] at hw
      cases hw
      exact hx
    subst hl
    have hlike := hu.like
    exact .inr ⟨rfl, hlike.alive, hlike.nonce, hlike.balance, hlike.codeHash, hlike.version,
      hlike.storage, fun _ => hzd, fun _ => hm⟩

theorem balance {v : U256} (h : Restores base c l) (he : c.entry = some x) :
    Restores base { c with entry := some (x.addBalance v), log := balanceLog x v ++ c.log }
      (balanceLog x v ++ l) := by
  have hback : (x.addBalance v).addBalance (0 - v) = { x with m_isUnchanged := false } := by
    have hb : x.m_balance + v + (0 - v) = x.m_balance := by bv_omega
    simp only [Account.addBalance, hb]
  have hundo : undoAll (some (x.addBalance v)) (if v = 0 then [] else [.Balance v]) =
      some { x with m_isUnchanged := false } := by
    by_cases hv : v = 0
    · rw [if_pos hv, hv]
      simp [Account.addBalance]
    · rw [if_neg hv]
      exact congrArg some hback
  by_cases ht : (!x.isDirty && x.isEmpty) = true
  · -- the touch is undone last, and the account is unchanged again
    have hclean : x.isDirty = false := by
      rw [Bool.and_eq_true, Bool.not_eq_true'] at ht
      exact ht.1
    have hz : undoAll (some (x.addBalance v)) (balanceLog x v) = some x.untouch := by
      rw [balanceLog, if_pos ht, undoAll_append, hundo]
      rfl
    refine h.push he rfl hz (.inl ⟨rfl, rfl, rfl, rfl, .inr rfl, fun _ => .inr rfl, ?_⟩)
    rw [hclean]
    rfl
  · have hm : x.Marked := by
      cases hd : x.isDirty with
      | true => exact .inl hd
      | false =>
        refine .inr ?_
        simpa [hd] using ht
    have hlog : balanceLog x v = if v = 0 then [] else [.Balance v] := by
      rw [balanceLog, if_neg ht, List.append_nil]
    rw [hlog]
    exact h.push_marked he hm rfl hundo (.refl l _)

theorem storage {k v : U256} (h : Restores base c l) (he : c.entry = some x) (hm : x.Marked) :
    Restores base
      { c with entry := some (x.setStorage k v), log := .Storage k (x.storage k) :: c.log }
      (.Storage k (x.storage k) :: l) := by
  have hz : undoAll (some (x.setStorage k v)) [.Storage k (x.storage k)] =
      some ((x.setStorage k v).setStorage k (x.storage k)) := rfl
  refine h.push_marked he hm rfl hz
    ⟨rfl, rfl, rfl, rfl, .inr rfl, fun j => .inr ?_, rfl⟩
  simp only [Account.storage_setStorage]
  by_cases hj : j = k
  · subst hj
    rw [if_pos rfl]
    rfl
  · rw [if_neg hj, if_neg hj]
    rfl

theorem clear (h : Restores base c l) (he : c.entry = some x) (hg : base.guard.clear c x) :
    Restores base
      { c with entry := some x.clearStorage, log := .StorageRoot x.m_storageRoot :: c.log }
      (.StorageRoot x.m_storageRoot :: l) := by
  obtain ⟨hm, hov⟩ := hg
  have hz : undoAll (some x.clearStorage) [.StorageRoot x.m_storageRoot] =
      some (x.clearStorage.setStorageRoot x.m_storageRoot) := rfl
  refine h.push_marked he hm rfl hz
    ⟨rfl, rfl, rfl, rfl, .inr rfl, fun k => ?_, rfl⟩
  simp only [Account.storage_setStorageRoot]
  -- a slot of the overlay is in the trie too, or an entry still to be undone has its old value
  unfold Account.storage
  cases hk : x.m_storageOverlay.lookup k with
  | none => exact .inr rfl
  | some v =>
    rcases hov k v hk with rfl | ⟨l', old, hl, ho⟩
    · exact .inr rfl
    · refine .inl ⟨old, ?_⟩
      rw [h.log] at hl
      rwa [List.append_cancel_right hl]

theorem setCode {b : Bytes} {v : U256} (h : Restores base c l) (he : c.entry = some x)
    (hc : x.m_codeHash = EmptySHA3) (hg : base.guard.code c x v) :
    Restores base { c with entry := some (x.setCode b v), log := .Code :: c.log } (.Code :: l) := by
  obtain ⟨hd, hv⟩ := hg
  have hfields : (x.setCode b v).m_isAlive = x.m_isAlive ∧ (x.setCode b v).m_nonce = x.m_nonce ∧
      (x.setCode b v).m_balance = x.m_balance ∧ (x.setCode b v).m_version = v ∧
      (∀ k, (x.setCode b v).storage k = x.storage k) ∧
      (x.setCode b v).isDirty = x.isDirty := by
    unfold Account.setCode
    split <;> exact ⟨rfl, rfl, rfl, rfl, fun _ => rfl, rfl⟩
  obtain ⟨halive, hn, hb, hver, hst, hdirty⟩ := hfields
  have hz : undoAll (some (x.setCode b v)) [.Code] = some (x.setCode b v).resetCode := rfl
  refine h.push he (hdirty.trans hd) hz
    (.inl ⟨halive, hn, hb, hc.symm, ?_, fun k => .inr (hst k), hdirty⟩)
  rcases hv with rfl | ⟨l', hl, hcr⟩
  · exact .inr hver
  · refine .inl ?_
    rw [h.log] at hl
    rwa [List.append_cancel_right hl]

theorem edit {db : CodeHash → Bytes} {c' : Cell} (h : Restores base c l)
    (hE : Edit db base.guard c c') : ∃ l', Restores base c' l' := by
  cases hE with
  | miss he hr => exact ⟨l, h.record, h.log, h.dirty, h.clean, h.like⟩
  | @fetch r he ha hr =>
    have hl := h.nil_of_none he
    subst hl
    have hlike := h.like
    rw [he] at hlike
    refine ⟨[], h.record, h.log, fun hl => absurd rfl hl, fun x hx _ => ?_, ?_⟩
    · cases hx
      exact ⟨r, h.record ▸ hr, .refl [] _⟩
    · simpa [Cell.account, hr] using hlike
  | @evict x he hx =>
    have hl : l = [] := h.nil_of_clean fun y hy => by
      rw [he] at hy
      cases hy
      exact hx
    subst hl
    obtain ⟨r, hr, hu⟩ := h.clean x he hx
    have hlike := h.like
    rw [he] at hlike
    refine ⟨[], h.record, h.log, fun hl => absurd rfl hl, fun y hy => (by cases hy), ?_⟩
    have hback : x.Like (Account.ofRecord r) :=
      ⟨hu.alive.symm, hu.nonce.symm, hu.balance.symm, hu.codeHash.symm, hu.like.version.symm,
        fun k => (hu.like.storage k).symm, fun hd => (by rw [hx] at hd; cases hd),
        fun hd => (by cases hd)⟩
    rcases hlike with ⟨_, hn⟩ | ⟨w, x', hw, hx', hwx⟩
    · cases hn
    · cases hx'
      refine .inr ⟨w, Account.ofRecord r, hw, ?_, hwx.trans hback⟩
      simp [Cell.account, h.record, hr]
  | @readStorage x k he hk =>
    refine ⟨l, h.read he fun l' => ⟨rfl, rfl, rfl, rfl, .inr rfl, fun j => .inr ?_, rfl⟩⟩
    unfold Account.storage Account.setStorageCache
    by_cases hj : j = k
    · subst hj
      simp [hk]
    · simp [hj]
  | readCode he hh hc =>
    exact ⟨l, h.read he fun l' => ⟨rfl, rfl, rfl, rfl, .inr rfl, fun j => .inr rfl, rfl⟩⟩
  | create he ha =>
    have hl := h.nil_of_none he
    subst hl
    have hlike := h.like
    rw [he] at hlike
    refine ⟨[.Create], h.record, ?_, fun _ => ⟨_, rfl, rfl⟩, fun x hx hd => ?_, hlike⟩
    · change .Create :: c.log = _
      rw [h.log]
      rfl
    · cases hx
      cases hd
  | balance he => exact ⟨_, h.balance he⟩
  | @nonce x n he hg =>
    have hz : undoAll (some (x.setNonce n)) [.Nonce x.m_nonce] =
        some ((x.setNonce n).setNonce x.m_nonce) := rfl
    exact ⟨_, h.push_marked he hg rfl hz (.refl l _)⟩
  | dead he hg => exact hg.elim
  | storage he hg => exact ⟨_, h.storage he hg⟩
  | clear he _ hg => exact ⟨_, h.clear he hg⟩
  | code he hc hg => exact ⟨_, h.setCode he hc hg⟩
  | kill he hg => exact hg.elim

end Cell.Restores

/-! ## What a commit makes of the restored accounts -/

namespace Account

variable {x y : Account} {o : Option Record}

theorem written_killIfEmpty_clean (hd : x.isDirty = false) :
    State.written (State.killIfEmpty x) o = o := by
  rw [State.killIfEmpty, hd, Bool.false_and, if_neg Bool.false_ne_true, State.written, hd,
    if_neg Bool.false_ne_true]

theorem written_killIfEmpty_dirty (hd : x.isDirty = true) :
    State.written (State.killIfEmpty x) o =
      if x.isEmpty = false ∧ x.m_isAlive = true then some x.toRecord else none := by
  cases he : x.isEmpty with
  | true =>
    rw [State.killIfEmpty, hd, he, Bool.and_self, if_pos rfl, if_neg (fun h => Bool.noConfusion h.1)]
    rfl
  | false =>
    rw [State.killIfEmpty, he, Bool.and_false, if_neg Bool.false_ne_true, State.written, if_pos hd]
    by_cases ha : x.m_isAlive = true
    · rw [if_pos ha, if_pos ⟨rfl, ha⟩]
    · rw [if_neg ha, if_neg fun h => ha h.2]

theorem toRecord_eq {r : Record} (hn : x.m_nonce = r.nonce) (hb : x.m_balance = r.balance)
    (hc : x.m_codeHash = r.codeHash) (hst : ∀ k, x.storage k = r.storageRoot k) :
    x.toRecord = r := by
  have hroot : x.flush = r.storageRoot := by
    ext k
    rw [flush_apply, hst]
  rw [toRecord, hn, hb, hc, hroot]

theorem Like.written_eq (h : x.Like y) (hx : x.isDirty = false → x.AsRead o) :
    State.written (State.killIfEmpty y) o = State.written (State.killIfEmpty x) o := by
  have hempty := isEmpty_congr h.nonce h.balance h.codeHash
  cases hd : x.isDirty with
  | true =>
    have hrec : y.toRecord = x.toRecord := by
      refine toRecord_eq h.nonce h.balance h.codeHash fun k => ?_
      rw [h.storage]
      exact (x.flush_apply k).symm
    rw [written_killIfEmpty_dirty hd, written_killIfEmpty_dirty (h.dirty hd), hempty, h.alive, hrec]
  | false =>
    rw [written_killIfEmpty_clean hd]
    cases hy : y.isDirty with
    | false => exact written_killIfEmpty_clean hy
    | true =>
      -- the change of an unchanged account shows only if it is not empty
      obtain ⟨r, ho, hu⟩ := hx hd
      have hne : x.isEmpty = false := (h.touched hy).resolve_left (by rw [hd]; exact Bool.false_ne_true)
      have hrec : y.toRecord = r := by
        refine toRecord_eq (h.nonce.trans hu.nonce) (h.balance.trans hu.balance)
          (h.codeHash.trans hu.codeHash) fun k => ?_
        rw [h.storage, hu.like.storage, storage_ofRecord]
      rw [written_killIfEmpty_dirty hy, if_pos ⟨hempty.trans hne, h.alive.trans hu.alive⟩, hrec, ho]

end Account

theorem Cell.committed_eq {c : Cell} {x : Account} (h : c.account = some x) :
    c.entry.elim c.record (fun x => State.written (State.killIfEmpty x) c.record) =
      State.written (State.killIfEmpty x) c.record := by
  unfold Cell.account at h
  cases he : c.entry with
  | some y =>
    rw [he, Option.some_or] at h
    cases h
    rfl
  | none =>
    rw [he, Option.none_or, Option.map_eq_some_iff] at h
    obtain ⟨r, hr, rfl⟩ := h
    exact (Account.written_killIfEmpty_clean rfl).symm

/-! ## The whole state -/

namespace State

variable {s₀ s : State}

theorem m_changeLog_load (s : State) (a : Address) : (s.load a).m_changeLog = s.m_changeLog := by
  rcases load_cases s a with ⟨_, _, h⟩ | ⟨_, _, h⟩ | ⟨_, _, _, h⟩ | ⟨_, _, _, _, h⟩
  · rw [h]
  · rw [h]
  · rw [h]
  · rw [h]
    rfl

theorem log_since {l : List (Address × Change)} (h : s.m_changeLog = l ++ s₀.m_changeLog)
    (a : Address) : s.since s₀.savepoint a = Keyed.entriesOf a l := by
  have hlen : s.savepoint - s₀.savepoint = l.length := by
    rw [savepoint, savepoint, h, List.length_append]
    omega
  rw [since, hlen, h, List.take_left]

/-- A call that the journal covers meets the guard of the savepoint. -/
theorem meets_of_journaled {op : Op} (hlog : ∃ l, s.m_changeLog = l ++ s₀.m_changeLog)
    (h : op.Journaled s₀.savepoint s) : op.Meets (fun a => (s₀.cell a).guard) s := by
  obtain ⟨l, hl⟩ := hlog
  have hcell : ∀ a, Keyed.entriesOf a s.m_changeLog =
      s.since s₀.savepoint a ++ Keyed.entriesOf a s₀.m_changeLog := by
    intro a
    rw [log_since hl, hl, Keyed.entriesOf_append]
  cases op with
  | incNonce a => exact h
  | setNonce a n => exact h
  | setStorage a k v =>
    obtain ⟨x, hx, hm⟩ := h
    refine ⟨fun y hy => ?_, .inl (by rw [hx]; rfl)⟩
    rw [hx] at hy
    cases hy
    exact hm
  | setCode a b v =>
    obtain ⟨x, hx, hd, hv⟩ := h
    refine ⟨.inl (by rw [hx]; rfl), fun y hy => ?_⟩
    rw [hx] at hy
    cases hy
    refine ⟨hd, hv.imp_right fun hc => ⟨_, ?_, hc⟩⟩
    change Keyed.entriesOf a (s.load a).m_changeLog = _
    rw [m_changeLog_load]
    exact hcell a
  | clearStorage a =>
    obtain ⟨x, hx, hg⟩ := h
    refine ⟨.inl (by rw [hx]; rfl), fun y hy hr => ?_⟩
    rw [hx] at hy
    cases hy
    obtain ⟨hm, hov⟩ := hg hr
    exact ⟨hm, fun k v hk => (hov k v hk).imp_right fun ⟨old, ho⟩ => ⟨_, old, hcell a, ho⟩⟩
  | kill a => exact h.elim
  | rollback n => exact h.elim
  | commit b => exact h.elim
  | copy => exact h.elim
  | _ => trivial

/-- What holds since the savepoint. -/
structure Since (s₀ s : State) : Prop where
  inv : s.Inv
  start : s.m_accountStartNonce = s₀.m_accountStartNonce
  log : ∃ l, s.m_changeLog = l ++ s₀.m_changeLog
  cell : ∀ a, ∃ l, (s₀.cell a).Restores (s.cell a) l

theorem Since.step {op : Op} (h : Since s₀ s) (hj : op.Journaled s₀.savepoint s) :
    Since s₀ (s.step op) := by
  have he := edits_step (meets_of_journaled h.log hj)
  refine ⟨h.inv.edits he, he.start.trans h.start, ?_, fun a => ?_⟩
  · obtain ⟨l, hl⟩ := h.log
    obtain ⟨m, hm⟩ := he.log
    exact ⟨m ++ l, by rw [hm, hl, List.append_assoc]⟩
  · exact he.invariant (P := fun c => ∃ l, (s₀.cell a).Restores c l)
      (fun _ _ hE ⟨_, hc⟩ => hc.edit hE) (h.cell a)

/-- The unchanged accounts of the cache are as a commit would leave them. -/
def CleanLasting (s : State) : Prop :=
  ∀ a x, s.m_cache.lookup a = some x → x.isDirty = false →
    x.Lasting s.m_accountStartNonce (s.m_state a)

theorem CleanLasting.asRead {a : Address} {x : Account} (hs : s.Inv) (h : s.CleanLasting)
    (hx : s.m_cache.lookup a = some x) (hd : x.isDirty = false) : x.AsRead (s.m_state a) := by
  obtain ⟨hv, hlast⟩ := h a x hx hd
  rw [if_neg (by rw [hd]; exact Bool.false_ne_true)] at hlast
  obtain ⟨ha, r, hr, hh⟩ := hlast
  obtain ⟨r', hr', hag⟩ := (hs a).clean x hx hd
  have hr'' : s.m_state a = some r' := hr'
  rw [hr] at hr''
  cases hr''
  have hag := hag ha
  refine ⟨r, hr, ha, hag.nonce, hag.balance, hh, .inr hv, fun k => .inr ?_, hd⟩
  rw [hag.storage_eq, Account.storage_ofRecord]

theorem asRead_account {a : Address} {x : Account} (hs : s.Inv) (h : s.CleanLasting)
    (hx : (s.cell a).account = some x) (hd : x.isDirty = false) : x.AsRead (s.cell a).record := by
  unfold Cell.account at hx
  cases he : (s.cell a).entry with
  | some y =>
    rw [he, Option.some_or] at hx
    cases hx
    exact h.asRead hs he hd
  | none =>
    rw [he, Option.none_or, Option.map_eq_some_iff] at hx
    obtain ⟨r, hr, rfl⟩ := hx
    exact ⟨r, hr, .refl [] _⟩

theorem Since.refl (hs : s.Inv) (h : s.CleanLasting) : Since s s where
  inv := hs
  start := rfl
  log := ⟨[], rfl⟩
  cell a := by
    refine ⟨[], rfl, rfl, fun hl => absurd rfl hl, fun x hx hd => h.asRead hs hx hd, ?_⟩
    exact (Both.upto_refl [] _).mono fun _ _ h => h.like

theorem Since.rollback (h : Since s₀ s) (hs : s₀.Inv) (hc : s₀.CleanLasting) :
    (∀ a, (s.rollback s₀.savepoint).answers a = s₀.answers a ∧
      (s.rollback s₀.savepoint).addressInUse a = s₀.addressInUse a) ∧
    ((s.rollback s₀.savepoint).commit .RemoveEmptyAccounts).m_state =
      (s₀.commit .RemoveEmptyAccounts).m_state := by
  obtain ⟨l, hl⟩ := h.log
  have hcell := cell_rollback hl
  have hframe := rollback_frame hl
  have hinv : (s.rollback s₀.savepoint).Inv := h.inv.rollback (by
    rw [savepoint, savepoint, hl, List.length_append]
    omega)
  have hback : ∀ a, (s₀.cell a).Restores (s.cell a) (Keyed.entriesOf a l) := by
    intro a
    obtain ⟨l', hl'⟩ := h.cell a
    have hlog : Keyed.entriesOf a s.m_changeLog = l' ++ Keyed.entriesOf a s₀.m_changeLog := hl'.log
    rw [hl, Keyed.entriesOf_append] at hlog
    rwa [List.append_cancel_right hlog]
  have hlike : ∀ a, Both Account.Like (s₀.cell a).account
      ((s.rollback s₀.savepoint).cell a).account := by
    intro a
    rw [savepoint, hcell a]
    exact (hback a).like
  refine ⟨fun a => ?_, funext fun a => ?_⟩
  · rw [answers_eq hinv, answers_eq hs, addressInUse, addressInUse, account_eq hinv, account_eq hs]
    have hno : (s.rollback s₀.savepoint).noAccount = s₀.noAccount := by
      rw [noAccount, noAccount, savepoint, hframe.2.2.1, h.start]
    rcases hlike a with ⟨hx, hy⟩ | ⟨x, y, hx, hy, hxy⟩
    · rw [hx, hy]
      exact ⟨hno, rfl⟩
    · rw [hx, hy]
      exact ⟨hxy.answers_eq, rfl⟩
  · rw [m_state_commit_remove, m_state_commit_remove]
    change ((s.rollback s₀.savepoint).cell a).entry.elim ((s.rollback s₀.savepoint).cell a).record _ =
      (s₀.cell a).entry.elim (s₀.cell a).record _
    have hrec : ((s.rollback s₀.savepoint).cell a).record = (s₀.cell a).record := by
      rw [savepoint, hcell a]
      exact (hback a).record
    rcases hlike a with ⟨hx, hy⟩ | ⟨x, y, hx, hy, hxy⟩
    · obtain ⟨he, hr⟩ := Option.or_eq_none_iff.1 hx
      obtain ⟨he', hr'⟩ := Option.or_eq_none_iff.1 hy
      rw [he, he', Option.elim_none, Option.elim_none, hrec]
    · have hcom := Cell.committed_eq hx
      have hcom' := Cell.committed_eq hy
      refine hcom'.trans (Eq.trans ?_ hcom.symm)
      rw [hrec]
      refine hxy.written_eq fun hd => ?_
      exact asRead_account hs hc hx hd

/-- After calls that the journal covers, a rollback restores the state of the savepoint. -/
theorem rollback_restores (h : s.Reachable) (hc : s.CleanLasting) {ops : List Op}
    (hops : StateRun.Along step (fun s' op => op.Journaled s.savepoint s') s ops) :
    s.RollbackRestores ops := by
  have hs := h.inv
  have hsince : Since s (StateRun.run step s ops) :=
    StateRun.invariant (Since s) (fun _ _ h hj => h.step hj) (.refl hs hc) hops
  exact hsince.rollback hs hc

/-- A state with one account, not yet committed. -/
def funded : State :=
  StateRun.run step (opened (fun _ => none) (fun _ => []) 0) [.addBalance 1 5]

theorem reachable_funded : funded.Reachable := ⟨_, _, _, _, fun _ _ h => (by cases h), rfl⟩

theorem m_cache_funded : funded.m_cache = AList.singleton 1 (Account.new 0 5) := rfl

/-- The nonce of the account is set, and a contract with a version is deployed at another. -/
theorem rollback_restores_funded :
    funded.Reachable ∧
      funded.RollbackRestores [.setNonce 1 7, .clearStorage 1, .createContract 3, .setCode 3 [0] 1] := by
  refine ⟨reachable_funded, rollback_restores reachable_funded ?_ ⟨?_, ?_, trivial, ?_, trivial⟩⟩
  · intro a x hx hd
    have hmem := AList.mem_lookup_iff.1 hx
    rw [m_cache_funded, AList.singleton_entries, List.mem_singleton] at hmem
    cases hmem
    cases hd
  · intro x hx
    cases hx
    exact .inl rfl
  · exact ⟨_, rfl, fun h => absurd rfl h⟩
  · exact ⟨_, rfl, rfl, .inr List.mem_cons_self⟩

/-- The version that comes with the code stays when the code is taken back. -/
theorem rollback_keeps_version :
    funded.Reachable ∧ funded.codeHash 1 = EmptySHA3 ∧
      ¬funded.RollbackRestores [.setCode 1 [0] 1] := by
  refine ⟨reachable_funded, rfl, fun h => ?_⟩
  have hv := congrArg Answers.version (h.1 1).1
  revert hv
  decide

end State

end Petrachor.StateCache
