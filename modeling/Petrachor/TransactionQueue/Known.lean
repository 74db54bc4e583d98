import Petrachor.TransactionQueue.Operations
import Petrachor.Lib.PartialRun

/-!
# What is known to the transaction queue

The known hashes should be those of the transactions it holds. Two ways out of the queue leave the hash behind:
a future transaction that gives way to another at its place, and a future transaction beyond the limit.
-/

namespace Petrachor

namespace TransactionQueue

open Grouped

section

variable (c : Crypto)

def KnownExactly (q : TransactionQueue) : Prop := ∀ h, h ∈ q.m_known ↔ ∃ t, Held c q t ∧ hash c t = h

/-- The hash is known, and no transaction has it. -/
def Leaked (q : TransactionQueue) (h : H256) : Prop := h ∈ q.m_known ∧ ∀ t, Held c q t → hash c t ≠ h

/-- The future transactions that are left after those that follow became current are within the limit. -/
def Fits (q : TransactionQueue) (t : Transaction) : Prop := q.m_futureSize ≤ q.m_futureLimit + promotable c q t

/-- The transaction is imported. -/
structure Accepts (q : TransactionQueue) (t : Transaction) (ik : IfDropped) : Prop where
  notZero : t.hasZeroSignature = false
  signed : t.sha3 c .WithSignature = .ok (hash c t)
  check : q.check (hash c t) ik = .Success
  price : ¬Overbid c q t

/-- No future transaction leaves the queue. -/
def Retains (q : TransactionQueue) : Op → Prop
  | .importTransaction t ik =>
    Accepts c q t ik → find q.m_future (t.sender c) t.nonce.toNat = none ∧ Fits c q t
  | .dropGood t => Fits c q t
  | _ => True

end

variable {c : Crypto} {k : Containers} {q q' : TransactionQueue} {t x : Transaction} {h : H256} {ik : IfDropped}

theorem check_eq_alreadyKnown_iff : q.check h ik = .AlreadyKnown ↔ h ∈ q.m_known := by
  unfold check
  by_cases hknown : h ∈ q.m_known
  · rw [if_pos hknown]
    exact iff_of_true rfl hknown
  · rw [if_neg hknown]
    refine iff_of_false ?_ hknown
    split
    · intro h
      cases h
    · intro h
      cases h

theorem knownExactly_empty (limit futureLimit : ℕ) : KnownExactly c (empty limit futureLimit) := by
  intro h
  constructor
  · intro hmem
    exact absurd hmem (Finset.notMem_empty h)
  · rintro ⟨t, ht | ht, -⟩
    · cases ht
    · cases ht

theorem Leaked.not_knownExactly (hl : Leaked c q h) : ¬KnownExactly c q := by
  intro hk
  obtain ⟨t, ht, hhash⟩ := (hk h).1 hl.1
  exact hl.2 t ht hhash

theorem knownExactly_congr (hknown : q'.m_known = q.m_known) (hheld : ∀ x, Held c q' x ↔ Held c q x) :
    KnownExactly c q' ↔ KnownExactly c q := by
  unfold KnownExactly
  simp only [hknown, hheld]

theorem KnownExactly.removed (hq : Consistent c q) (hk : KnownExactly c q) (ht : t ∈ q.m_current) :
    KnownExactly c (removed c q t) := by
  intro h
  show h ∈ q.m_known.erase (hash c t) ↔ _
  rw [Finset.mem_erase, hk h]
  constructor
  · rintro ⟨hne, x, hx, rfl⟩
    refine ⟨x, (held_removed hq ht).2 ⟨?_, hx⟩, rfl⟩
    rintro rfl
    exact hne rfl
  · rintro ⟨x, hx, rfl⟩
    obtain ⟨hne, hx⟩ := (held_removed hq ht).1 hx
    exact ⟨fun hhash => hne (hq.hash_inj x t hx (.inl ht) hhash), x, hx, rfl⟩

theorem Leaked.mono (hl : Leaked c q h) (hknown : h ∈ q'.m_known)
    (hheld : ∀ x, Held c q' x → Held c q x ∨ hash c x ≠ h) : Leaked c q' h := by
  refine ⟨hknown, ?_⟩
  intro x hx
  rcases hheld x hx with hx | hne
  · exact hl.2 x hx
  · exact hne

theorem Leaked.removed (hq : Consistent c q) (hl : Leaked c q h) (ht : t ∈ q.m_current) :
    Leaked c (removed c q t) h := by
  refine hl.mono (Finset.mem_erase.2 ⟨?_, hl.1⟩) fun x hx => .inl ((held_removed hq ht).1 hx).2
  exact (hl.2 t (.inl ht)).symm

/-! ## The ways out -/

theorem leaked_takeFuture (hq : Consistent c q) {a : Address} {n : ℕ} (hx : find q.m_future a n = some x)
    (hknown : hash c x ∈ q.m_known) : Leaked c (q.takeFuture a n) (hash c x) := by
  refine ⟨hknown, ?_⟩
  intro y hy hhash
  obtain rfl := hq.hash_inj y x (hy.of_takeFuture hq) (.of_future hq hx) hhash
  obtain ⟨rfl, rfl⟩ := hq.future a n y hx
  rcases hy with hy | hy
  · have hnone := hq.apart y hy
    rw [hx] at hnone
    cases hnone
  · exact ((find_takeFuture hq).1 hy).1 ⟨rfl, rfl⟩

theorem notMem_of_future (hq : Consistent c q) {a : Address} {n : ℕ} (hx : find q.m_future a n = some x) :
    x ∉ q.m_current := by
  intro hmem
  obtain ⟨rfl, rfl⟩ := hq.future a n x hx
  rw [hq.apart x hmem] at hx
  cases hx

/-- The first round of the loop leaves a hash behind, and the others do not take it away. -/
theorem leaked_dropFuture (hq : Consistent c q) (k : Containers)
    (hknown : ∀ x, Held c q x → x ∉ q.m_current → hash c x ∈ q.m_known) {rounds : ℕ} (hpos : 0 < rounds)
    (hrounds : rounds ≤ q.m_futureSize) (hq' : q.dropFuture k rounds = some q') :
    ∃ x, Held c q x ∧ x ∉ q.m_current ∧ Leaked c q' (hash c x) := by
  obtain ⟨last, hlast, hfind⟩ := exists_last_future hq k (by omega)
  have hheld : Held c q last.2 := .of_future hq hfind
  have hnot := notMem_of_future hq hfind
  obtain ⟨rounds, rfl⟩ := Nat.exists_eq_add_of_lt hpos
  rw [Nat.zero_add, dropFuture] at hq'
  rw [hlast] at hq'
  obtain ⟨q₁, hq₁, hforgets, -⟩ := dropFuture_spec k rounds _ (hq.takeFuture hfind)
    (show rounds ≤ q.m_futureSize - 1 by omega)
  obtain rfl : q₁ = q' := Option.some.inj (hq₁.symm.trans hq')
  have hl := leaked_takeFuture hq hfind (hknown _ hheld hnot)
  exact ⟨last.2, hheld, hnot, hl.mono (hforgets.rules.known ▸ hl.1) fun x hx => .inl (hforgets.held hx)⟩

theorem makeCurrent_of_fits (hq : Consistent c q) (k : Containers) (ht : Fits c q t) :
    ∃ q', q.makeCurrent c k t = some q' ∧ Promotes c q q' := by
  obtain ⟨q₁, q', -, hpromotes, hsize, hdrop, hq', -, -⟩ := makeCurrent_spec hq k t
  have hzero : q₁.m_futureSize - q₁.m_futureLimit = 0 := by
    rw [hsize, hpromotes.rules.futureLimit]
    unfold Fits at ht
    omega
  rw [hzero] at hdrop
  obtain rfl : q₁ = q' := Option.some.inj hdrop
  exact ⟨q₁, hq', hpromotes⟩

theorem makeCurrent_of_not_fits (hq : Consistent c q) (k : Containers)
    (hknown : ∀ x, Held c q x → x ∉ q.m_current → hash c x ∈ q.m_known) (ht : ¬Fits c q t) :
    ∃ q' h, q.makeCurrent c k t = some q' ∧ Leaked c q' h := by
  obtain ⟨q₁, q', -, hpromotes, hsize, hdrop, hq', -, -⟩ := makeCurrent_spec hq k t
  have hpos : 0 < q₁.m_futureSize - q₁.m_futureLimit := by
    rw [hsize, hpromotes.rules.futureLimit]
    unfold Fits at ht
    omega
  have hknown₁ : ∀ x, Held c q₁ x → x ∉ q₁.m_current → hash c x ∈ q₁.m_known := by
    intro x hx hnot
    rw [hpromotes.rules.known]
    exact hknown x ((hpromotes.held x).1 hx) fun hmem => hnot (hpromotes.current x hmem)
  obtain ⟨x, -, -, hl⟩ := leaked_dropFuture hpromotes.consistent k hknown₁ hpos (Nat.sub_le _ _) hdrop
  exact ⟨q', hash c x, hq', hl⟩

/-! ## Operations -/

theorem importTransaction_of_accepts (k : Containers) (ht : Accepts c q t ik) :
    q.importTransaction c k t ik = (q.manageImport c k (hash c t) t).bind fun r => some (.ok r.1, r.2) := by
  unfold importTransaction
  rw [if_neg (by rw [ht.notZero]; exact Bool.false_ne_true), ht.signed]
  dsimp only
  rw [if_neg (not_not.2 ht.check)]
  rfl

theorem importTransaction_of_not_accepts (hq : Consistent c q) (k : Containers) (ht : ¬Accepts c q t ik) :
    ∃ r, q.importTransaction c k t ik = some (r, q) := by
  unfold importTransaction
  by_cases hz : t.hasZeroSignature = true
  · rw [if_pos hz]
    exact ⟨_, rfl⟩
  · rw [if_neg hz]
    cases hh : t.sha3 c .WithSignature with
    | error e => exact ⟨_, rfl⟩
    | ok h =>
      dsimp only
      by_cases hcheck : q.check h ik = .Success
      · have hover : Overbid c q t := by
          by_contra hover
          have hhash := hash_of_sha3 hh
          subst hhash
          exact ht ⟨Bool.eq_false_of_not_eq_true hz, hh, hcheck, hover⟩
        rw [if_neg (not_not.2 hcheck), manageImport_of_overbid hq k h hover]
        exact ⟨_, rfl⟩
      · rw [if_pos hcheck]
        exact ⟨_, rfl⟩

theorem Accepts.notMem (ht : Accepts c q t ik) : hash c t ∉ q.m_known := by
  intro hmem
  have hknown : q.check (hash c t) ik = .AlreadyKnown := check_eq_alreadyKnown_iff.2 hmem
  rw [ht.check] at hknown
  cases hknown

/-- Where the place was free or taken by a current transaction, what is known is exact. -/
theorem KnownExactly.room (hq : Sound c q) (hk : KnownExactly c q)
    (hfuture : find q.m_future (t.sender c) t.nonce.toNat = none) :
    KnownExactly c (room c q t) ∧ (Fits c (TransactionQueue.room c q t) t ↔ Fits c q t) := by
  cases hcurrent : find q.m_currentByAddressAndNonce (t.sender c) t.nonce.toNat with
  | some old =>
    rw [room_of_current hcurrent]
    exact ⟨hk.removed hq.consistent ((hq.consistent.byNonce _ _ old).1 hcurrent).1, .rfl⟩
  | none =>
    rw [room_of_none hcurrent hfuture]
    exact ⟨hk, .rfl⟩

theorem Leaked.dropCurrent (hq : Consistent c q) (hl : Leaked c q h) {rounds : ℕ}
    (hrounds : rounds ≤ q.m_current.length)
    (hq' : q.dropCurrent c rounds = some q') : Leaked c q' h := by
  obtain ⟨q₁, hq₁, -, hl₁, -⟩ := dropCurrent_spec (P := fun q => Leaked c q h)
    (fun _ _ hq ht _ hl => hl.removed hq ht) rounds q hq hrounds hl
  obtain rfl : q₁ = q' := Option.some.inj (hq₁.symm.trans hq')
  exact hl₁

theorem KnownExactly.dropCurrent (hq : Consistent c q) (hk : KnownExactly c q) {rounds : ℕ}
    (hrounds : rounds ≤ q.m_current.length) (hq' : q.dropCurrent c rounds = some q') : KnownExactly c q' := by
  obtain ⟨q₁, hq₁, -, hk₁, -⟩ := dropCurrent_spec (P := KnownExactly c)
    (fun _ _ hq ht _ hk => hk.removed hq ht) rounds q hq hrounds hk
  obtain rfl : q₁ = q' := Option.some.inj (hq₁.symm.trans hq')
  exact hk₁

theorem held_entered_iff {i : ℕ} : Held c (entered c q i t) x ↔ x = t ∨ Held c q x := by
  constructor
  · exact held_entered
  · rintro (rfl | hx | hx)
    · exact .inl (mem_entered.2 (.inl rfl))
    · exact .inl (mem_entered.2 (.inr hx))
    · exact .inr hx

theorem insertCurrent_of_fits (hq : Sound c q) (hk : KnownExactly c q) (k : Containers) (hnew : hash c t ∉ q.m_known)
    (hfree : find q.m_currentByAddressAndNonce (t.sender c) t.nonce.toNat = none)
    (hfuture : find q.m_future (t.sender c) t.nonce.toNat = none) (hfits : Fits c q t)
    (hq' : q.insertCurrent c k (hash c t) t = some q') : KnownExactly c q' := by
  have hfresh : ∀ x, Held c q x → hash c x ≠ hash c t := fun x hx hhash => hnew (hhash ▸ hq.known x hx)
  obtain ⟨i, q₁, q₂, -, hcons, hq₁, hq₂, rfl, -, -⟩ := insertCurrent_spec hq k hfresh hfree hfuture
  obtain rfl := Option.some.inj (hq₂.symm.trans hq')
  have hfits' : Fits c (entered c q i t) t := hfits
  obtain ⟨q₃, hq₃, hpromotes⟩ := makeCurrent_of_fits hcons k hfits'
  obtain rfl : q₃ = q₁ := Option.some.inj (hq₃.symm.trans hq₁)
  have hheld : ∀ x, Held c q₃ x ↔ x = t ∨ Held c q x := fun x => (hpromotes.held x).trans held_entered_iff
  have hknown : q₃.m_known = q.m_known := hpromotes.rules.known
  intro h
  show h ∈ insert (hash c t) q₃.m_known ↔ ∃ x, Held c q₃ x ∧ hash c x = h
  rw [Finset.mem_insert, hknown, hk h]
  constructor
  · rintro (rfl | ⟨x, hx, rfl⟩)
    · exact ⟨t, (hheld t).2 (.inl rfl), rfl⟩
    · exact ⟨x, (hheld x).2 (.inr hx), rfl⟩
  · rintro ⟨x, hx, rfl⟩
    rcases (hheld x).1 hx with rfl | hx
    · exact .inl rfl
    · exact .inr ⟨x, hx, rfl⟩

theorem insertCurrent_of_not_fits (hq : Sound c q) (k : Containers) (hnew : hash c t ∉ q.m_known)
    (hfree : find q.m_currentByAddressAndNonce (t.sender c) t.nonce.toNat = none)
    (hfuture : find q.m_future (t.sender c) t.nonce.toNat = none) (hfits : ¬Fits c q t)
    (hq' : q.insertCurrent c k (hash c t) t = some q') : ∃ h, Leaked c q' h := by
  have hfresh : ∀ x, Held c q x → hash c x ≠ hash c t := fun x hx hhash => hnew (hhash ▸ hq.known x hx)
  obtain ⟨i, q₁, q₂, -, hcons, hq₁, hq₂, rfl, -, -⟩ := insertCurrent_spec hq k hfresh hfree hfuture
  obtain rfl := Option.some.inj (hq₂.symm.trans hq')
  have hfits' : ¬Fits c (entered c q i t) t := hfits
  have hknown : ∀ x, Held c (entered c q i t) x → x ∉ (entered c q i t).m_current → hash c x ∈ q.m_known := by
    intro x hx hnot
    rcases held_entered hx with rfl | hx
    · exact absurd (mem_entered.2 (.inl rfl)) hnot
    · exact hq.known x hx
  obtain ⟨q₃, h, hq₃, hl⟩ := makeCurrent_of_not_fits hcons k hknown hfits'
  obtain rfl : q₃ = q₁ := Option.some.inj (hq₃.symm.trans hq₁)
  exact ⟨h, Finset.mem_insert_of_mem hl.1, hl.2⟩

/-- A hash that was left behind stays so when another transaction enters. -/
theorem Leaked.insertCurrent (hq : Sound c q) (hl : Leaked c q h) (k : Containers)
    (hfresh : ∀ x, Held c q x → hash c x ≠ hash c t) (hne : hash c t ≠ h)
    (hfree : find q.m_currentByAddressAndNonce (t.sender c) t.nonce.toNat = none)
    (hfuture : find q.m_future (t.sender c) t.nonce.toNat = none)
    (hq' : q.insertCurrent c k (hash c t) t = some q') : Leaked c q' h := by
  obtain ⟨i, q₁, q₂, -, hcons, hq₁, hq₂, rfl, hf, -⟩ := insertCurrent_spec hq k hfresh hfree hfuture
  obtain rfl := Option.some.inj (hq₂.symm.trans hq')
  obtain ⟨q₃, q₄, -, hpromotes, -, -, hq₄, hforgets, -⟩ := makeCurrent_spec hcons k t
  obtain rfl : q₄ = q₁ := Option.some.inj (hq₄.symm.trans hq₁)
  have hknown : q₄.m_known = q.m_known := (hpromotes.rules.trans hforgets.rules).known
  refine hl.mono (Finset.mem_insert_of_mem (hknown ▸ hl.1)) ?_
  intro x hx
  rcases hf.held x hx with hx | rfl
  · exact .inl hx
  · exact .inr hne

theorem manageImport_known_iff (hq : Sound c q) (hk : KnownExactly c q) (k : Containers) (hnew : hash c t ∉ q.m_known)
    (hprice : ¬Overbid c q t) {r : ImportResult} (hq' : q.manageImport c k (hash c t) t = some (r, q')) :
    KnownExactly c q' ↔ find q.m_future (t.sender c) t.nonce.toNat = none ∧ Fits c q t := by
  obtain ⟨hf, hfree, hfuture⟩ := room_spec (A := fun _ => False) hq t
  have hheld : ∀ x, Held c (room c q t) x → Held c q x := fun x hx => (hf.held x hx).resolve_right id
  have hfresh : ∀ x, Held c (room c q t) x → hash c x ≠ hash c t :=
    fun x hx hhash => hnew (hhash ▸ hq.known x (hheld x hx))
  obtain ⟨i, q₁, q₂, -, -, -, hq₂, -, hf₂, -⟩ := insertCurrent_spec hf.sound k hfresh hfree hfuture
  rw [manageImport_eq hq.consistent k _ hprice, hq₂] at hq'
  dsimp only [Option.bind_eq_bind, Option.bind_some] at hq'
  obtain ⟨q₃, hq₃, hr⟩ := Option.bind_eq_some_iff.1 hq'
  obtain rfl : q₃ = q' := congrArg Prod.snd (Option.some.inj hr)
  cases hold : find q.m_future (t.sender c) t.nonce.toNat with
  | none =>
    obtain ⟨hk', hfits⟩ := hk.room hq hold
    have hnew' : hash c t ∉ (room c q t).m_known := by
      intro hmem
      obtain ⟨x, hx, hhash⟩ := (hk' _).1 hmem
      exact hfresh x hx hhash
    by_cases ht : Fits c q t
    · refine iff_of_true ?_ ⟨rfl, ht⟩
      have hk₂ := insertCurrent_of_fits hf.sound hk' k hnew' hfree hfuture (hfits.2 ht) hq₂
      exact hk₂.dropCurrent hf₂.sound.consistent (Nat.sub_le _ _) hq₃
    · refine iff_of_false ?_ fun h => ht h.2
      obtain ⟨h, hl⟩ := insertCurrent_of_not_fits hf.sound k hnew' hfree hfuture (fun h => ht (hfits.1 h)) hq₂
      exact (hl.dropCurrent hf₂.sound.consistent (Nat.sub_le _ _) hq₃).not_knownExactly
  | some old =>
    refine iff_of_false ?_ fun h => by cases h.1
    have hnone : find q.m_currentByAddressAndNonce (t.sender c) t.nonce.toNat = none := by
      rw [Option.eq_none_iff_forall_ne_some]
      intro y hy
      rw [hq.consistent.future_eq_none hy] at hold
      cases hold
    have hknown : hash c old ∈ q.m_known := hq.known old (.of_future hq.consistent hold)
    have hl : Leaked c (room c q t) (hash c old) := by
      rw [room_of_future hnone hold]
      exact leaked_takeFuture hq.consistent hold hknown
    have hne : hash c t ≠ hash c old := fun heq => hnew (heq ▸ hknown)
    have hl₂ := hl.insertCurrent hf.sound k hfresh hne hfree hfuture hq₂
    exact (hl₂.dropCurrent hf₂.sound.consistent (Nat.sub_le _ _) hq₃).not_knownExactly

theorem importTransaction_known_iff (hq : Sound c q) (hk : KnownExactly c q) (k : Containers)
    {r : Except Exception ImportResult} (hq' : q.importTransaction c k t ik = some (r, q')) :
    KnownExactly c q' ↔ Retains c q (.importTransaction t ik) := by
  by_cases ht : Accepts c q t ik
  · rw [importTransaction_of_accepts k ht] at hq'
    obtain ⟨r', hr', heq⟩ := Option.bind_eq_some_iff.1 hq'
    obtain rfl : r'.2 = q' := congrArg Prod.snd (Option.some.inj heq)
    rw [manageImport_known_iff hq hk k ht.notMem ht.price hr']
    exact ⟨fun h _ => h, fun h => h ht⟩
  · obtain ⟨r', hr'⟩ := importTransaction_of_not_accepts hq.consistent k ht
    obtain rfl : q = q' := congrArg Prod.snd (Option.some.inj (hr'.symm.trans hq'))
    exact iff_of_true hk fun h => absurd h ht

/-- Removing a current transaction, or none. -/
theorem KnownExactly.remove (hq : Consistent c q) (hk : KnownExactly c q) {b : Bool}
    (hq' : q.remove c h = some (b, q')) : KnownExactly c q' := by
  by_cases hex : ∃ t ∈ q.m_current, hash c t = h
  · obtain ⟨t, ht, rfl⟩ := hex
    rw [remove_of_mem hq ht] at hq'
    obtain rfl : _ = q' := congrArg Prod.snd (Option.some.inj hq')
    exact hk.removed hq ht
  · rw [remove_of_not hq fun x hx hhash => hex ⟨x, hx, hhash⟩] at hq'
    obtain rfl : q = q' := congrArg Prod.snd (Option.some.inj hq')
    exact hk

theorem Leaked.remove (hq : Consistent c q) {h' : H256} (hl : Leaked c q h') {b : Bool}
    (hq' : q.remove c h = some (b, q')) : Leaked c q' h' := by
  by_cases hex : ∃ t ∈ q.m_current, hash c t = h
  · obtain ⟨t, ht, rfl⟩ := hex
    rw [remove_of_mem hq ht] at hq'
    obtain rfl : _ = q' := congrArg Prod.snd (Option.some.inj hq')
    exact hl.removed hq ht
  · rw [remove_of_not hq fun x hx hhash => hex ⟨x, hx, hhash⟩] at hq'
    obtain rfl : q = q' := congrArg Prod.snd (Option.some.inj hq')
    exact hl

theorem drop_known (hq : Sound c q) (hk : KnownExactly c q) (hq' : q.drop c h = some q') : KnownExactly c q' := by
  unfold drop at hq'
  by_cases hknown : h ∈ q.m_known
  · rw [if_neg (not_not.2 hknown)] at hq'
    obtain ⟨r, hr, heq⟩ := Option.bind_eq_some_iff.1 hq'
    obtain rfl : r.2 = q' := Option.some.inj heq
    have hk' : KnownExactly c { q with m_dropped := insert h q.m_dropped } := hk
    exact hk'.remove (hq.consistent.withKnown _ _) hr
  · rw [if_pos hknown] at hq'
    exact Option.some.inj hq' ▸ hk

theorem dropGood_known_iff (hq : Sound c q) (hk : KnownExactly c q) (hq' : q.dropGood c k t = some q') :
    KnownExactly c q' ↔ Fits c q t := by
  by_cases ht : Fits c q t
  · obtain ⟨q₁, hq₁, hpromotes⟩ := makeCurrent_of_fits hq.consistent k ht
    have hk₁ : KnownExactly c q₁ := (knownExactly_congr hpromotes.rules.known hpromotes.held).2 hk
    refine iff_of_true ?_ ht
    rcases dropGood_cases hq₁ hq' with rfl | ⟨b, hr⟩
    · exact hk₁
    · exact hk₁.remove hpromotes.consistent hr
  · obtain ⟨q₁, hq₁, hf₁⟩ := makeCurrent_follows (A := fun _ => False) hq k t
    obtain ⟨q₂, h, hq₂, hl⟩ := makeCurrent_of_not_fits hq.consistent k (fun x hx _ => hq.known x hx) ht
    obtain rfl : q₂ = q₁ := Option.some.inj (hq₂.symm.trans hq₁)
    refine iff_of_false ?_ ht
    rcases dropGood_cases hq₁ hq' with rfl | ⟨b, hr⟩
    · exact hl.not_knownExactly
    · exact (hl.remove hf₁.sound.consistent hr).not_knownExactly

/-- What a step leaves known is exact if and only if no future transaction left the queue in it. -/
theorem step_known_iff (hq : Sound c q) (hk : KnownExactly c q) {o : Op} (hq' : q.step c k o = some q') :
    KnownExactly c q' ↔ Retains c q o := by
  cases o with
  | importTransaction t ik =>
    obtain ⟨r, hr, heq⟩ := Option.bind_eq_some_iff.1 hq'
    obtain rfl : r.2 = q' := Option.some.inj heq
    exact importTransaction_known_iff hq hk k hr
  | drop h => exact iff_of_true (drop_known hq hk hq') trivial
  | dropGood t => exact dropGood_known_iff hq hk hq'
  | setFuture h =>
    obtain ⟨q₁, hq₁, -, hrules, hheld⟩ := setFuture_spec hq h
    obtain rfl : q₁ = q' := Option.some.inj (hq₁.symm.trans hq')
    exact iff_of_true ((knownExactly_congr hrules.known hheld).2 hk) trivial
  | clear =>
    obtain rfl : q.clear = q' := Option.some.inj hq'
    exact iff_of_true (knownExactly_empty q.m_limit q.m_futureLimit) trivial

/-- In every state of a run what is known is exact, if and only if no step of it makes a future transaction leave
the queue. -/
theorem known_exactly_iff (c : Crypto) (limit futureLimit : ℕ) (os : List (Containers × Op)) :
    PartialRun.Always (fun q o => q.step c o.1 o.2)
        (fun q => KnownExactly c q ∧ ∀ h ik, q.check h ik = .AlreadyKnown ↔ ∃ t, Held c q t ∧ hash c t = h)
        (empty limit futureLimit) os ↔
      PartialRun.Along (fun q o => q.step c o.1 o.2) (fun q o => Retains c q o.2) (empty limit futureLimit) os := by
  have hcheck : ∀ q, KnownExactly c q →
      KnownExactly c q ∧ ∀ h ik, q.check h ik = .AlreadyKnown ↔ ∃ t, Held c q t ∧ hash c t = h :=
    fun q hk => ⟨hk, fun h ik => check_eq_alreadyKnown_iff.trans (hk h)⟩
  refine PartialRun.always_iff_along (I := Sound c) ?_ ?_ ?_ (sound_empty limit futureLimit)
    (hcheck _ (knownExactly_empty limit futureLimit))
  · intro q o hq
    obtain ⟨q', hq', -⟩ := step_spec hq o.1 o.2
    exact .inr ⟨q', hq'⟩
  · intro q o q' hq hq'
    obtain ⟨q₁, hq₁, hf⟩ := step_spec hq o.1 o.2
    obtain rfl : q₁ = q' := Option.some.inj (hq₁.symm.trans hq')
    exact hf.sound
  · intro q o q' hq hk hq'
    rw [← step_known_iff hq hk.1 hq']
    exact ⟨fun h => h.1, hcheck q'⟩

/-- The hash of a string is the sum of its bytes. -/
def checksum : Crypto where
  sha3 b := BitVec.ofNat 256 (b.map UInt8.toNat).sum
  toPublic s := s.setWidth 768
  sign _ m := m.setWidth 384
  verify _ _ _ := true

/-- A transaction that a key signed. -/
def transfer (key : G2) (nonce price : ℕ) : Transaction where
  m_type := .MessageCall
  nonce := BitVec.ofNat 256 nonce
  value := 0
  receiveAddress := 0
  gasPrice := BitVec.ofNat 256 price
  gas := 21000
  data := []
  m_vrs := some ⟨1, key⟩
  m_forcedSender := 0

/-- A transaction is imported and set future; another takes its place, and the first one is refused from then on. -/
theorem replaced_stays_known :
    let os : List (Containers × Op) := [(.front, .importTransaction (transfer 1 0 1) .Ignore),
      (.front, .setFuture (hash checksum (transfer 1 0 1))), (.front, .importTransaction (transfer 1 0 2) .Ignore)]
    ∃ q, (empty 1024 1024).run checksum os = some q ∧ (∀ t, Held checksum q t → t = transfer 1 0 2) ∧
      q.check (hash checksum (transfer 1 0 1)) .Ignore = .AlreadyKnown ∧ ¬KnownExactly checksum q := by
  intro os
  obtain ⟨q, hq, -⟩ := run_spec os _ (sound_empty (c := checksum) 1024 1024)
  have hcurrent : ((empty 1024 1024).run checksum os).map m_current = some [transfer 1 0 2] := by decide +kernel
  have hfuture : ((empty 1024 1024).run checksum os).map (fun q => q.m_future.entries) = some [] := by decide +kernel
  have hcheck : ((empty 1024 1024).run checksum os).map
      (fun q => q.check (hash checksum (transfer 1 0 1)) .Ignore) = some .AlreadyKnown := by decide +kernel
  rw [hq] at hcurrent hfuture hcheck
  have hheld : ∀ t, Held checksum q t → t = transfer 1 0 2 := by
    rintro t (ht | ht)
    · rw [Option.some.inj hcurrent] at ht
      exact List.mem_singleton.1 ht
    · have hempty : q.m_future = ∅ := AList.ext (Option.some.inj hfuture)
      rw [hempty] at ht
      cases ht
  refine ⟨q, hq, hheld, Option.some.inj hcheck, Leaked.not_knownExactly (h := hash checksum (transfer 1 0 1)) ?_⟩
  refine ⟨check_eq_alreadyKnown_iff.1 (Option.some.inj hcheck), ?_⟩
  intro t ht
  rw [hheld t ht]
  decide +kernel

end TransactionQueue

end Petrachor
