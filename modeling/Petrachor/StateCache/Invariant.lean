import Petrachor.Lib.StateRun
import Petrachor.StateCache.Rollback

/-!
# What the caches hold in every reachable state

An unchanged account of the cache has the nonce, the balance and the storage of the trie, and the
journal keeps it so: undoing the changes since an account was touched gives back what the trie has.
The code of an account is in its cache or in the database. An address known to have no account has
none in the trie.
-/

namespace Petrachor.StateCache

/-! ## Code -/

/-- The database has the code of this hash. -/
def CodeKnown (db : CodeHash → Bytes) (h : CodeHash) : Prop := h = EmptySHA3 ∨ db h = h

structure Account.CodeOk (db : CodeHash → Bytes) (x : Account) : Prop where
  cache : x.m_codeCache = [] ∨ x.m_codeHash = EmptySHA3 ∨ x.m_codeCache = x.m_codeHash
  new : x.m_hasNewCode = true → x.m_codeHash = EmptySHA3 ∨ x.m_codeCache = x.m_codeHash
  old : x.m_hasNewCode = false → CodeKnown db x.m_codeHash

namespace Account

variable {db : CodeHash → Bytes} {x : Account}

theorem CodeOk.of_empty (h : x.m_codeHash = EmptySHA3) : x.CodeOk db :=
  ⟨.inr (.inl h), fun _ => .inl h, fun _ => .inl h⟩

theorem CodeOk.ofRecord {r : Record} (h : CodeKnown db r.codeHash) : (ofRecord r).CodeOk db :=
  ⟨.inl rfl, fun h => Bool.noConfusion h, fun _ => h⟩

/-- What `code` answers. -/
theorem CodeOk.code_eq (h : x.CodeOk db) : x.code db = x.m_codeHash := by
  unfold code
  split
  · rename_i hh
    rw [hh]
  · rename_i hh
    split
    · rename_i hc
      cases hn : x.m_hasNewCode with
      | true =>
        have hnew := (h.new hn).resolve_left hh
        rw [hc] at hnew
        exact absurd hnew.symm hh
      | false => exact (h.old hn).resolve_left hh
    · rename_i hc
      exact (h.cache.resolve_left hc).resolve_left hh

theorem CodeOk.noteCode (h : x.CodeOk db) (hh : x.m_codeHash ≠ EmptySHA3) (hc : x.m_codeCache = []) :
    (x.noteCode (db x.m_codeHash)).CodeOk db := by
  have hn : x.m_hasNewCode = false := by
    by_contra hn
    have hnew := (h.new (by simpa using hn)).resolve_left hh
    rw [hc] at hnew
    exact hh hnew.symm
  have hdb : db x.m_codeHash = x.m_codeHash := (h.old hn).resolve_left hh
  exact ⟨.inr (.inr hdb), fun _ => .inr hdb, h.old⟩

theorem CodeOk.setCode (h : x.CodeOk db) (b : Bytes) (v : U256) : (x.setCode b v).CodeOk db := by
  unfold Account.setCode
  split
  · exact ⟨.inr (.inr rfl), fun _ => .inr rfl, fun h => Bool.noConfusion h⟩
  · exact ⟨h.cache, h.new, h.old⟩

end Account

/-! ## Unchanged accounts -/

/-- The account has the nonce, balance and storage of the record. -/
structure Account.Agrees (x : Account) (r : Record) : Prop where
  nonce : x.m_nonce = r.nonce
  balance : x.m_balance = r.balance
  root : x.m_storageRoot = r.storageRoot
  overlay : ∀ k v, x.m_storageOverlay.lookup k = some v → v = r.storageRoot k

/-- The account is in the trie, and has what the trie has unless it was killed. -/
def Account.Clean (o : Option Record) (x : Account) : Prop :=
  ∃ r, o = some r ∧ (x.m_isAlive = true → x.Agrees r)

theorem Account.clean_ofRecord (r : Record) : (ofRecord r).Clean (some r) :=
  ⟨r, rfl, fun _ => ⟨rfl, rfl, rfl, fun k v h => by simp [ofRecord] at h⟩⟩

/-- As the entries of the log are undone: an account that was touched stays in the cache and
changed, and at the touch it has what the trie has. -/
def Journal (o : Option Record) : Option Account → List Change → Prop
  | _, [] => True
  | e, c :: l =>
    (.Touch ∈ c :: l → ∃ x, e = some x ∧ x.isDirty = true) ∧
    (c = .Touch → ∀ x, e = some x → x.Clean o) ∧ Journal o (c.undo e) l

/-- `y` is dead, or has what `x` has, of the overlay at most what `x` has there or the trie. -/
structure Account.Below (x y : Account) : Prop where
  dirty : x.isDirty = true → y.isDirty = true
  same : y.m_isAlive = false ∨ (y.m_isAlive = x.m_isAlive ∧ y.m_nonce = x.m_nonce ∧
    y.m_balance = x.m_balance ∧ y.m_storageRoot = x.m_storageRoot ∧
    ∀ k v, y.m_storageOverlay.lookup k = some v →
      x.m_storageOverlay.lookup k = some v ∨ v = x.m_storageRoot k)

namespace Account

variable {o : Option Record} {x y : Account}

theorem Clean.below (h : x.Clean o) (hb : x.Below y) : y.Clean o := by
  obtain ⟨r, ho, hx⟩ := h
  refine ⟨r, ho, fun hy => ?_⟩
  rcases hb.same with hd | ⟨ha, hn, hbal, hr, hov⟩
  · rw [hd] at hy
    cases hy
  · obtain ⟨xn, xb, xr, xo⟩ := hx (ha ▸ hy)
    refine ⟨hn.trans xn, hbal.trans xb, hr.trans xr, fun k v hk => ?_⟩
    rcases hov k v hk with hk | rfl
    · exact xo k v hk
    · rw [xr]

theorem Clean.untouch (h : x.Clean o) : x.untouch.Clean o := by
  obtain ⟨r, ho, hx⟩ := h
  exact ⟨r, ho, fun ha => ⟨(hx ha).nonce, (hx ha).balance, (hx ha).root, (hx ha).overlay⟩⟩

theorem Clean.resetCode (h : x.Clean o) : x.resetCode.Clean o := by
  obtain ⟨r, ho, hx⟩ := h
  exact ⟨r, ho, fun ha => ⟨(hx ha).nonce, (hx ha).balance, (hx ha).root, (hx ha).overlay⟩⟩

/-- Undoing a change that is no creation. -/
theorem Below.undo (h : x.Below y) (c : Change) :
    c.undo (some x) = none ∧ c.undo (some y) = none ∨
      ∃ x' y', c.undo (some x) = some x' ∧ c.undo (some y) = some y' ∧ x'.Below y' := by
  cases c with
  | Create => exact .inl ⟨rfl, rfl⟩
  | Balance v =>
    refine .inr ⟨_, _, rfl, rfl, fun _ => rfl, ?_⟩
    refine h.same.imp_right fun ⟨ha, hn, hb, hr, ho⟩ => ⟨ha, hn, ?_, hr, ho⟩
    simp [addBalance, hb]
  | Nonce n =>
    refine .inr ⟨_, _, rfl, rfl, fun _ => rfl, ?_⟩
    exact h.same.imp_right fun ⟨ha, _, hb, hr, ho⟩ => ⟨ha, rfl, hb, hr, ho⟩
  | StorageRoot r =>
    refine .inr ⟨_, _, rfl, rfl, fun _ => rfl, ?_⟩
    refine h.same.imp_right fun ⟨ha, hn, hb, _, _⟩ => ⟨ha, hn, hb, rfl, ?_⟩
    intro k v hk
    exact .inl hk
  | Storage k v =>
    refine .inr ⟨_, _, rfl, rfl, fun _ => rfl, ?_⟩
    refine h.same.imp_right fun ⟨ha, hn, hb, hr, ho⟩ => ⟨ha, hn, hb, hr, ?_⟩
    intro j w hj
    by_cases hjk : j = k
    · subst hjk
      simp only [setStorage, Option.getD_some, AList.lookup_insert] at hj ⊢
      exact .inl hj
    · simp only [setStorage, Option.getD_some, AList.lookup_insert_ne hjk] at hj ⊢
      exact ho j w hj
  | Code =>
    exact .inr ⟨_, _, rfl, rfl, h.dirty, h.same⟩
  | Touch =>
    exact .inr ⟨_, _, rfl, rfl, fun h => by simp [untouch, isDirty] at h, h.same⟩

end Account

namespace Journal

variable {o : Option Record}

theorem of_notMem : ∀ {l : List Change} (e : Option Account), .Touch ∉ l → Journal o e l
  | [], _, _ => trivial
  | _ :: _, _, h =>
    ⟨fun h' => absurd h' h, fun hc => absurd (hc ▸ List.mem_cons_self) h,
      of_notMem _ fun h' => h (List.mem_cons_of_mem _ h')⟩

/-- An account that is not cached, or is unchanged, was not touched. -/
theorem notMem {l : List Change} {e : Option Account} (h : Journal o e l)
    (he : ∀ x, e = some x → x.isDirty = false) : .Touch ∉ l := by
  intro ht
  cases l with
  | nil => cases ht
  | cons c l =>
    obtain ⟨x, hx, hd⟩ := h.1 ht
    rw [he x hx] at hd
    cases hd

theorem mono : ∀ {l : List Change} {x y : Account}, Journal o (some x) l → x.Below y →
    Journal o (some y) l
  | [], _, _, _, _ => trivial
  | c :: l, x, y, h, hb => by
    obtain ⟨hdirty, hclean, htail⟩ := h
    refine ⟨fun ht => ?_, fun hc z hz => ?_, ?_⟩
    · obtain ⟨z, hz, hd⟩ := hdirty ht
      cases hz
      exact ⟨y, rfl, hb.dirty hd⟩
    · cases hz
      exact (hclean hc x rfl).below hb
    · rcases hb.undo c with ⟨hx, hy⟩ | ⟨x', y', hx, hy, hb'⟩
      · rw [hy]
        rwa [hx] at htail
      · rw [hy]
        rw [hx] at htail
        exact mono htail hb'

/-- A change whose undoing gives back what was there before. -/
theorem push {l : List Change} {x y z : Account} {c : Change} (h : Journal o (some x) l)
    (hc : c ≠ .Touch) (hy : x.isDirty = true → y.isDirty = true)
    (hz : c.undo (some y) = some z) (hb : x.Below z) : Journal o (some y) (c :: l) := by
  refine ⟨fun ht => ⟨y, rfl, ?_⟩, fun h => absurd h hc, ?_⟩
  · have hl : .Touch ∈ l := (List.mem_cons.1 ht).resolve_left (Ne.symm hc)
    by_contra hd
    refine h.notMem (fun w hw => ?_) hl
    cases hw
    by_contra hw
    exact hd (hy (by simpa using hw))
  · rw [hz]
    exact h.mono hb

end Journal

/-! ## The invariant of a cell -/

structure Cell.Inv (db : CodeHash → Bytes) (c : Cell) : Prop where
  absent : c.absent → c.record = none ∧ ∀ x, c.entry = some x → x.m_isAlive = false
  known : ∀ r, c.record = some r → CodeKnown db r.codeHash
  code : ∀ x, c.entry = some x → x.CodeOk db
  clean : ∀ x, c.entry = some x → x.isDirty = false → x.Clean c.record
  journal : Journal c.record c.entry c.log

namespace Cell.Inv

variable {db : CodeHash → Bytes} {G : Guard} {c : Cell} {x y : Account}

/-- An account replaced by a changed one, dead only if it was or is no longer alive. -/
theorem write_dirty {l : List Change} (h : c.Inv db) (he : c.entry = some x)
    (halive : x.m_isAlive = false → y.m_isAlive = false) (hcode : y.CodeOk db)
    (hdirty : y.isDirty = true) (hj : Journal c.record (some y) l) :
    Cell.Inv db { c with entry := some y, log := l } where
  absent ha := by
    refine ⟨(h.absent ha).1, fun z hz => ?_⟩
    cases hz
    exact halive ((h.absent ha).2 x he)
  known := h.known
  code z hz := by
    cases hz
    exact hcode
  clean z hz hc := by
    cases hz
    rw [hdirty] at hc
    cases hc
  journal := hj

/-- An account that only has more of what the trie or the database has. -/
theorem write_read (h : c.Inv db) (he : c.entry = some x) (halive : y.m_isAlive = x.m_isAlive)
    (hcode : y.CodeOk db) (hflag : y.isDirty = x.isDirty) (hb : x.Below y) :
    Cell.Inv db { c with entry := some y } where
  absent ha := by
    refine ⟨(h.absent ha).1, fun z hz => ?_⟩
    cases hz
    exact halive.trans ((h.absent ha).2 x he)
  known := h.known
  code z hz := by
    cases hz
    exact hcode
  clean z hz hc := by
    cases hz
    exact (h.clean x he (hflag ▸ hc)).below hb
  journal := (he ▸ h.journal : Journal c.record (some x) c.log).mono hb

theorem balance {v : U256} (h : c.Inv db) (he : c.entry = some x) :
    Cell.Inv db { c with entry := some (x.addBalance v), log := balanceLog x v ++ c.log } := by
  have hj : Journal c.record (some x) c.log := he ▸ h.journal
  have hcode := h.code x he
  refine h.write_dirty he id ⟨hcode.cache, hcode.new, hcode.old⟩ rfl ?_
  have hback : (x.addBalance v).addBalance (0 - v) = { x with m_isUnchanged := false } := by
    have hb : x.m_balance + v + (0 - v) = x.m_balance := by bv_omega
    simp only [Account.addBalance, hb]
  have hbelow : x.Below { x with m_isUnchanged := false } :=
    ⟨fun _ => rfl, .inr ⟨rfl, rfl, rfl, rfl, fun k v hk => .inl hk⟩⟩
  have hzero : v = 0 → x.addBalance v = { x with m_isUnchanged := false } := by
    rintro rfl
    simp [Account.addBalance]
  unfold balanceLog
  by_cases ht : (!x.isDirty && x.isEmpty) = true
  · -- the first touch of an empty account: it is as the trie has it, and the log has no touch yet
    have hclean : x.isDirty = false := by
      rw [Bool.and_eq_true, Bool.not_eq_true'] at ht
      exact ht.1
    have hnot : .Touch ∉ c.log := hj.notMem fun z hz => by
      cases hz
      exact hclean
    have htouch : Journal c.record (some { x with m_isUnchanged := false }) (.Touch :: c.log) := by
      refine ⟨fun _ => ⟨_, rfl, rfl⟩, fun _ z hz => ?_, Journal.of_notMem _ hnot⟩
      cases hz
      exact (h.clean x he hclean).below hbelow
    rw [if_pos ht]
    by_cases hv : v = 0
    · rw [if_pos hv, hzero hv]
      exact htouch
    · rw [if_neg hv]
      refine ⟨fun _ => ⟨_, rfl, rfl⟩, fun hc => Change.noConfusion hc, ?_⟩
      change Journal c.record (some ((x.addBalance v).addBalance (0 - v))) (.Touch :: c.log)
      rw [hback]
      exact htouch
  · rw [if_neg ht]
    by_cases hv : v = 0
    · rw [if_pos hv, hzero hv]
      exact hj.mono hbelow
    · rw [if_neg hv]
      exact hj.push (by simp) (fun _ => rfl) (congrArg some hback) hbelow

theorem storage {k v : U256} (h : c.Inv db) (he : c.entry = some x) :
    Cell.Inv db
      { c with entry := some (x.setStorage k v), log := .Storage k (x.storage k) :: c.log } := by
  have hj : Journal c.record (some x) c.log := he ▸ h.journal
  have hcode := h.code x he
  refine h.write_dirty he id ⟨hcode.cache, hcode.new, hcode.old⟩ rfl ?_
  refine hj.push (by simp) (fun _ => rfl) rfl ⟨fun _ => rfl, .inr ⟨rfl, rfl, rfl, rfl, ?_⟩⟩
  intro j w hj
  simp only [Account.setStorage, Option.getD_some, AList.insert_insert] at hj
  by_cases hjk : j = k
  · subst hjk
    rw [AList.lookup_insert] at hj
    cases hj
    unfold Account.storage
    cases x.m_storageOverlay.lookup j with
    | some w => exact .inl rfl
    | none => exact .inr rfl
  · rw [AList.lookup_insert_ne hjk] at hj
    exact .inl hj

theorem setCode {b : Bytes} {v : U256} (h : c.Inv db) (he : c.entry = some x) :
    Cell.Inv db { c with entry := some (x.setCode b v), log := .Code :: c.log } := by
  have hj : Journal c.record (some x) c.log := he ▸ h.journal
  have hsame : (x.setCode b v).isDirty = x.isDirty ∧ (x.setCode b v).m_isAlive = x.m_isAlive ∧
      x.Below (x.setCode b v) ∧ x.Below (x.setCode b v).resetCode := by
    unfold Account.setCode
    split <;>
      exact ⟨rfl, rfl, ⟨id, .inr ⟨rfl, rfl, rfl, rfl, fun k v hk => .inl hk⟩⟩,
        ⟨id, .inr ⟨rfl, rfl, rfl, rfl, fun k v hk => .inl hk⟩⟩⟩
  have hread := h.write_read he hsame.2.1 ((h.code x he).setCode b v) hsame.1 hsame.2.2.1
  exact ⟨hread.absent, hread.known, hread.code, hread.clean,
    hj.push (by simp) (fun hd => hsame.1.trans hd) rfl hsame.2.2.2⟩

theorem kill (h : c.Inv db) (he : c.entry = some x) : Cell.Inv db { c with entry := some x.kill } :=
  h.write_dirty he (fun _ => rfl) (.of_empty rfl) rfl
    ((he ▸ h.journal : Journal c.record (some x) c.log).mono ⟨fun _ => rfl, .inl rfl⟩)

/-- A cell without a cached account. -/
theorem of_none (h : c.Inv db) (hd : ∀ x, c.entry = some x → x.isDirty = false) :
    Cell.Inv db { c with entry := none } where
  absent ha := ⟨(h.absent ha).1, fun x hx => by cases hx⟩
  known := h.known
  code x hx := by cases hx
  clean x hx := by cases hx
  journal := Journal.of_notMem _ (h.journal.notMem hd)

theorem edit {c' : Cell} (h : c.Inv db) (hE : Edit db G c c') : c'.Inv db := by
  cases hE with
  | miss he hr =>
    exact ⟨fun _ => ⟨hr, fun x hx => by rw [he] at hx; cases hx⟩, h.known, h.code, h.clean, h.journal⟩
  | @fetch r he ha hr =>
    have hnot : .Touch ∉ c.log := h.journal.notMem fun x hx => by rw [he] at hx; cases hx
    refine ⟨fun ha' => absurd ha' ha, h.known, fun x hx => ?_, fun x hx _ => ?_,
      Journal.of_notMem _ hnot⟩
    · cases hx
      exact .ofRecord (h.known r hr)
    · cases hx
      rw [hr]
      exact Account.clean_ofRecord r
  | @evict x he hx =>
    refine h.of_none fun y hy => ?_
    rw [he] at hy
    cases hy
    exact hx
  | @readStorage x k he hk =>
    have hcode := h.code x he
    refine h.write_read he rfl ⟨hcode.cache, hcode.new, hcode.old⟩ rfl
      ⟨id, .inr ⟨rfl, rfl, rfl, rfl, fun j w hj => ?_⟩⟩
    by_cases hjk : j = k
    · subst hjk
      simp only [Account.setStorageCache, AList.lookup_insert] at hj
      cases hj
      exact .inr rfl
    · simp only [Account.setStorageCache, AList.lookup_insert_ne hjk] at hj
      exact .inl hj
  | @readCode x he hh hc =>
    exact h.write_read he rfl ((h.code x he).noteCode hh hc) rfl
      ⟨id, .inr ⟨rfl, rfl, rfl, rfl, fun k v hk => .inl hk⟩⟩
  | create he ha =>
    have hnot : .Touch ∉ c.log := h.journal.notMem fun x hx => by rw [he] at hx; cases hx
    refine ⟨fun hf => hf.elim, h.known, fun x hx => ?_, fun x hx hd => ?_,
      Journal.of_notMem _ (by simpa using hnot)⟩
    · cases hx
      exact .of_empty rfl
    · cases hx
      cases hd
  | balance he => exact h.balance he
  | @nonce x n he _ =>
    have hcode := h.code x he
    refine h.write_dirty he id ⟨hcode.cache, hcode.new, hcode.old⟩ rfl ?_
    exact (he ▸ h.journal : Journal c.record (some x) c.log).push (by simp) (fun _ => rfl) rfl
      ⟨fun _ => rfl, .inr ⟨rfl, rfl, rfl, rfl, fun k v hk => .inl hk⟩⟩
  | dead he _ =>
    have hnot : .Touch ∉ c.log := h.journal.notMem fun x hx => by rw [he] at hx; cases hx
    refine ⟨fun ha => ⟨(h.absent ha).1, fun x hx => ?_⟩, h.known, fun x hx => ?_, fun x hx hd => ?_,
      Journal.of_notMem _ hnot⟩
    · cases hx
      rfl
    · cases hx
      exact .of_empty rfl
    · cases hx
      cases hd
  | storage he _ => exact h.storage he
  | @clear x he _ _ =>
    have hcode := h.code x he
    refine h.write_dirty he id ⟨hcode.cache, hcode.new, hcode.old⟩ rfl ?_
    refine (he ▸ h.journal : Journal c.record (some x) c.log).push (by simp) (fun _ => rfl) rfl
      ⟨fun _ => rfl, .inr ⟨rfl, rfl, rfl, rfl, fun k v hk => ?_⟩⟩
    simp [Account.setStorageRoot] at hk
  | code he _ _ => exact h.setCode he
  | kill he _ => exact h.kill he

/-- Undoing the newest entry of the log. -/
theorem undo {ch : Change} {l : List Change} (h : c.Inv db) (hl : c.log = ch :: l) :
    Cell.Inv db { c with entry := ch.undo c.entry, log := l } := by
  obtain ⟨htouch, hclean, htail⟩ := (hl ▸ h.journal : Journal c.record c.entry (ch :: l))
  have hget : (c.entry.getD Account.dead).CodeOk db := by
    cases he : c.entry with
    | none => exact .of_empty rfl
    | some x => exact h.code x he
  refine ⟨fun ha => ⟨(h.absent ha).1, fun y hy => ?_⟩, h.known, fun y hy => ?_, fun y hy hd => ?_,
    htail⟩
  · -- a dead account stays dead, and one that is not cached is constructed dead
    have hdead : (c.entry.getD Account.dead).m_isAlive = false := by
      cases he : c.entry with
      | none => rfl
      | some x => exact (h.absent ha).2 x he
    cases ch <;> cases hy <;> exact hdead
  · cases ch with
    | Code =>
      cases hy
      exact .of_empty rfl
    | _ => cases hy <;> exact ⟨hget.cache, hget.new, hget.old⟩
  · cases ch with
    | Touch =>
      obtain ⟨x, hx, -⟩ := htouch List.mem_cons_self
      have hc := hclean rfl x hx
      simp only [Change.undo, hx, Option.getD_some, Option.some.injEq] at hy
      subst hy
      exact hc.untouch
    | Code =>
      cases he : c.entry with
      | none =>
        simp only [Change.undo, he, Option.getD_none, Option.some.injEq] at hy
        subst hy
        cases hd
      | some x =>
        simp only [Change.undo, he, Option.getD_some, Option.some.injEq] at hy
        subst hy
        exact (h.clean x he hd).resetCode
    | Create => cases hy
    | _ =>
      cases hy
      cases hd

theorem undoAll {l m : List Change} (h : c.Inv db) (hl : c.log = l ++ m) :
    Cell.Inv db { c with entry := undoAll c.entry l, log := m } := by
  induction l generalizing c with
  | nil =>
    rw [List.nil_append] at hl
    exact ⟨h.absent, h.known, h.code, h.clean, hl ▸ h.journal⟩
  | cons ch l ih =>
    exact ih (c := { c with entry := ch.undo c.entry, log := l ++ m }) (h.undo hl) rfl

theorem killIfEmpty (h : c.Inv db) :
    Cell.Inv db { c with entry := c.entry.map State.killIfEmpty } := by
  cases he : c.entry with
  | none =>
    rw [Option.map_none, ← he]
    exact h
  | some x =>
    by_cases hx : (x.isDirty && x.isEmpty) = true
    · have hk := h.kill he
      rwa [Option.map_some, State.killIfEmpty, if_pos hx]
    · rw [Option.map_some, State.killIfEmpty, if_neg hx, ← he]
      exact h

end Cell.Inv

/-! ## The invariant of the state -/

/-- Every cell meets the invariant. -/
def State.Inv (s : State) : Prop := ∀ a, (s.cell a).Inv s.m_db

namespace State

variable {s : State}

/-- Codes that the database has, and those of new accounts, are there after the write. -/
theorem codeKnown_commitAccount {t : (Address → Option Record) × (CodeHash → Bytes)} {a : Address}
    {x : Account} {h : CodeHash} (hx : x.CodeOk s.m_db)
    (hk : CodeKnown t.2 h ∨
      h = x.m_codeHash ∧ x.isDirty = true ∧ x.m_isAlive = true ∧ x.m_hasNewCode = true) :
    CodeKnown (commitAccount t a x).2 h := by
  unfold commitAccount
  cases hd : x.isDirty with
  | false => simpa [hd] using hk
  | true =>
    cases ha : x.m_isAlive with
    | false => simpa [ha] using hk
    | true =>
      cases hn : x.m_hasNewCode with
      | false => simpa [hn] using hk
      | true =>
        simp only [Bool.not_true, Bool.false_eq_true, if_true, if_false]
        by_cases hh : h = x.m_codeHash
        · subst hh
          refine (hx.new hn).imp_right fun hc => ?_
          rw [Function.update_self, hc]
        · have hk' : CodeKnown t.2 h := hk.resolve_right fun h' => hh h'.1
          rwa [CodeKnown, Function.update_of_ne hh]

theorem codeKnown_foldl {h : CodeHash} :
    ∀ {l : List (Σ _ : Address, Account)} {t : (Address → Option Record) × (CodeHash → Bytes)},
      (∀ e ∈ l, e.2.CodeOk s.m_db) →
      (CodeKnown t.2 h ∨ ∃ e ∈ l, h = e.2.m_codeHash ∧ e.2.isDirty = true ∧ e.2.m_isAlive = true ∧
        e.2.m_hasNewCode = true) →
      CodeKnown (l.foldl (fun t e => commitAccount t e.1 e.2) t).2 h
  | [], t, _, hk => hk.resolve_right fun ⟨_, he, _⟩ => by cases he
  | e :: l, t, hok, hk => by
    rw [List.foldl_cons]
    have he := hok e List.mem_cons_self
    refine codeKnown_foldl (fun f hf => hok f (List.mem_cons_of_mem _ hf)) ?_
    rcases hk with hk | ⟨f, hf, hk⟩
    · exact .inl (codeKnown_commitAccount he (.inl hk))
    · rcases List.mem_cons.1 hf with rfl | hf
      · exact .inl (codeKnown_commitAccount he (.inr hk))
      · exact .inr ⟨f, hf, hk⟩

theorem codeKnown_commit {h : CodeHash} (hs : s.Inv)
    (hk : CodeKnown s.m_db h ∨ ∃ a x, s.m_cache.lookup a = some x ∧ h = x.m_codeHash ∧
      x.isDirty = true ∧ x.m_isAlive = true ∧ x.m_hasNewCode = true) :
    CodeKnown (s.commit .KeepEmptyAccounts).m_db h := by
  refine codeKnown_foldl (s := s) (fun e he => ?_) (hk.imp_right ?_)
  · exact (hs e.1).code e.2 (AList.mem_lookup_iff.2 he)
  · rintro ⟨a, x, hx, hh⟩
    exact ⟨⟨a, x⟩, AList.mem_lookup_iff.1 hx, hh⟩

/-- Every record a commit leaves in the trie has its code in the database. -/
theorem codeKnown_record {a : Address} {r : Record} (hs : s.Inv)
    (hr : (s.commit .KeepEmptyAccounts).m_state a = some r) :
    CodeKnown (s.commit .KeepEmptyAccounts).m_db r.codeHash := by
  rw [m_state_commit_keep] at hr
  cases hc : s.m_cache.lookup a with
  | none =>
    rw [hc] at hr
    exact codeKnown_commit hs (.inl ((hs a).known r hr))
  | some x =>
    rw [hc, Option.elim_some, written] at hr
    by_cases hd : x.isDirty = true
    · rw [if_pos hd] at hr
      by_cases ha : x.m_isAlive = true
      · rw [if_pos ha] at hr
        cases hr
        cases hn : x.m_hasNewCode with
        | true => exact codeKnown_commit hs (.inr ⟨a, x, hc, rfl, hd, ha, hn⟩)
        | false => exact codeKnown_commit hs (.inl (((hs a).code x hc).old hn))
      · rw [if_neg ha] at hr
        cases hr
    · rw [if_neg hd] at hr
      exact codeKnown_commit hs (.inl ((hs a).known r hr))

theorem Inv.commit_keep (hs : s.Inv) : (s.commit .KeepEmptyAccounts).Inv := by
  intro a
  refine ⟨fun ha => ⟨?_, fun x hx => by cases hx⟩, fun r hr => codeKnown_record hs hr,
    fun x hx => (by cases hx), fun x hx => (by cases hx), trivial⟩
  obtain ⟨hr, hdead⟩ := (hs a).absent ha
  change (s.commit .KeepEmptyAccounts).m_state a = none
  rw [m_state_commit_keep]
  cases hc : s.m_cache.lookup a with
  | none => exact hr
  | some x =>
    have halive : x.m_isAlive = false := hdead x hc
    rw [Option.elim_some, written, halive, if_neg Bool.false_ne_true]
    split
    · rfl
    · exact hr

theorem Inv.removeEmptyAccounts (hs : s.Inv) : s.removeEmptyAccounts.Inv := by
  intro a
  have hcell : s.removeEmptyAccounts.cell a =
      { s.cell a with entry := (s.cell a).entry.map killIfEmpty } := by
    simp only [cell, lookup_removeEmptyAccounts]
    rfl
  rw [hcell]
  exact (hs a).killIfEmpty

theorem Inv.commit (hs : s.Inv) (b : CommitBehaviour) : (s.commit b).Inv := by
  cases b with
  | KeepEmptyAccounts => exact hs.commit_keep
  | RemoveEmptyAccounts =>
    rw [commit_remove]
    exact hs.removeEmptyAccounts.commit_keep

theorem Inv.edits {G : Address → Guard} {s' : State} (hs : s.Inv) (h : Edits G s s') : s'.Inv := by
  intro a
  rw [h.db]
  exact h.invariant (P := fun c => c.Inv s.m_db) (fun _ _ hE hc => hc.edit hE) (hs a)

theorem Inv.rollback {n : ℕ} (hs : s.Inv) (hn : n ≤ s.savepoint) : (s.rollback n).Inv := by
  have hsplit : s.m_changeLog = s.m_changeLog.take (s.savepoint - n) ++
      s.m_changeLog.drop (s.savepoint - n) := (List.take_append_drop _ _).symm
  have hlen : (s.m_changeLog.drop (s.savepoint - n)).length = n := by
    rw [List.length_drop]
    unfold savepoint at hn ⊢
    omega
  have hcell := cell_rollback hsplit
  have hframe := rollback_frame hsplit
  rw [hlen] at hcell hframe
  intro a
  rw [hcell, hframe.1]
  refine (hs a).undoAll ?_
  change Keyed.entriesOf a s.m_changeLog = _
  rw [← Keyed.entriesOf_append, ← hsplit]

theorem meets_free (op : Op) :
    op.Meets .free s ∨ (∃ n, op = .rollback n) ∨ (∃ b, op = .commit b) ∨ op = .copy := by
  cases op <;> simp [Op.Meets, Guard.free, Changeable]

theorem Inv.step (hs : s.Inv) (op : Op) : (s.step op).Inv := by
  rcases meets_free (s := s) op with h | ⟨n, rfl⟩ | ⟨b, rfl⟩ | rfl
  · exact hs.edits (edits_step h)
  · change (if n ≤ s.savepoint then s.rollback n else s).Inv
    split
    · exact hs.rollback ‹_›
    · exact hs
  · exact hs.commit b
  · intro a
    exact ⟨(hs a).absent, (hs a).known, (hs a).code, (hs a).clean, trivial⟩

/-- The states that calls lead to from a state opened on a database with all the code. -/
def Reachable (s : State) : Prop :=
  ∃ t db n ops, (∀ a r, t a = some r → CodeKnown db r.codeHash) ∧
    s = StateRun.run step (opened t db n) ops

theorem Inv.opened {t : Address → Option Record} {db : CodeHash → Bytes} {n : U256}
    (h : ∀ a r, t a = some r → CodeKnown db r.codeHash) : (opened t db n).Inv := by
  intro a
  refine ⟨fun ha => ?_, h a, fun x hx => (by cases hx), fun x hx => (by cases hx), trivial⟩
  exact absurd ha (Finset.notMem_empty a)

theorem Reachable.inv (h : s.Reachable) : s.Inv := by
  obtain ⟨t, db, n, ops, hk, rfl⟩ := h
  refine StateRun.invariant Inv (P := fun _ _ => True) (fun s op hs _ => hs.step op) (.opened hk) ?_
  generalize State.opened t db n = s
  induction ops generalizing s with
  | nil => trivial
  | cons op ops ih => exact ⟨trivial, ih _⟩

end State

end Petrachor.StateCache
