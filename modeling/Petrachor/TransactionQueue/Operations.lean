import Mathlib.Data.List.TakeWhile
import Petrachor.TransactionQueue.Indexes

/-!
# The operations of the transaction queue

Each operation keeps the containers in agreement and every transaction of the queue known. What it holds
afterwards it held before, apart from an imported transaction.
-/

namespace Petrachor

namespace TransactionQueue

open Grouped

variable {c : Crypto} {k : Containers} {q q' q'' : TransactionQueue} {t t' x : Transaction} {a : Address} {n : ℕ}
  {h : H256}

/-- A transaction has been removed. -/
def removed (c : Crypto) (q : TransactionQueue) (t : Transaction) : TransactionQueue :=
  { without c q t with m_known := q.m_known.erase (hash c t) }

/-- A current transaction has become a future one. -/
def demoted (c : Crypto) (q : TransactionQueue) (t : Transaction) : TransactionQueue :=
  { without c q t with
    m_future := put q.m_future (t.sender c) t.nonce.toNat t
    m_futureSize := q.m_futureSize + 1 }

theorem Consistent.removed (hq : Consistent c q) (ht : t ∈ q.m_current) : Consistent c (removed c q t) :=
  (hq.without ht).withKnown _ _

theorem held_removed (hq : Consistent c q) (ht : t ∈ q.m_current) :
    Held c (removed c q t) x ↔ x ≠ t ∧ Held c q x :=
  held_without hq ht

/-! ## The loops -/

/-- The loop that removes the last transactions; `P` is kept in a round. -/
theorem dropCurrent_spec {P : TransactionQueue → Prop}
    (hstep : ∀ q t, Consistent c q → t ∈ q.m_current → q.m_current.getLast? = some t → P q → P (removed c q t)) :
    ∀ (rounds : ℕ) (q : TransactionQueue), Consistent c q → rounds ≤ q.m_current.length → P q →
      ∃ q', q.dropCurrent c rounds = some q' ∧ Consistent c q' ∧ P q' ∧
        q'.m_current.length = q.m_current.length - rounds ∧ q'.m_future = q.m_future ∧
        q'.m_futureSize = q.m_futureSize := by
  intro rounds
  induction rounds with
  | zero =>
    intro q hq _ hP
    exact ⟨q, rfl, hq, hP, rfl, rfl, rfl⟩
  | succ rounds ih =>
    intro q hq hrounds hP
    have hne : q.m_current ≠ [] := by
      intro hnil
      rw [hnil] at hrounds
      exact absurd hrounds (by simp)
    have hlast := List.getLast?_eq_some_getLast hne
    have hmem := List.getLast_mem hne
    have hlen : (removed c q (q.m_current.getLast hne)).m_current.length = q.m_current.length - 1 :=
      List.length_erase_of_mem hmem
    obtain ⟨q', hq', hcons, hP', hlen', hfuture, hsize⟩ := ih _ (hq.removed hmem) (by rw [hlen]; omega)
      (hstep q _ hq hmem hlast hP)
    refine ⟨q', ?_, hcons, hP', ?_, hfuture, hsize⟩
    · unfold dropCurrent
      rw [hlast]
      dsimp only
      rw [remove_of_mem hq hmem]
      exact hq'
    · rw [hlen', hlen]
      omega

theorem find_demoted (hq : Consistent c q) {y : Transaction} {b : Address} {m : ℕ} :
    find (demoted c q t).m_future b m = some y ↔
      (b = t.sender c ∧ m = t.nonce.toNat ∧ y = t) ∨
        (¬(b = t.sender c ∧ m = t.nonce.toNat) ∧ find q.m_future b m = some y) :=
  find_put hq.tidyFuture

theorem held_demoted (hq : Consistent c q) (ht : t ∈ q.m_current) : Held c (demoted c q t) x ↔ Held c q x := by
  constructor
  · rintro (hx | hx)
    · exact .inl ((mem_without hq).1 hx).2
    · rcases (find_demoted hq).1 hx with ⟨-, -, rfl⟩ | ⟨-, hx⟩
      · exact .inl ht
      · exact .inr hx
  · rintro (hx | hx)
    · by_cases heq : x = t
      · subst heq
        exact .inr ((find_demoted hq).2 (.inl ⟨rfl, rfl, rfl⟩))
      · exact .inl ((mem_without hq).2 ⟨heq, hx⟩)
    · refine .inr ((find_demoted hq).2 (.inr ⟨?_, hx⟩))
      rintro ⟨hsender, hnonce⟩
      rw [hsender, hnonce, hq.apart t ht] at hx
      cases hx

theorem Consistent.demoted (hq : Consistent c q) (ht : t ∈ q.m_current) : Consistent c (demoted c q t) := by
  have hq' := hq.without ht
  refine ⟨hq'.nodup, hq'.byHash, hq'.byNonce, ?_, ?_, ?_, hq'.tidy, hq.tidyFuture.put, ?_⟩
  · intro b m y hy
    rcases (find_demoted hq).1 hy with ⟨rfl, rfl, rfl⟩ | ⟨-, hy⟩
    · exact ⟨rfl, rfl⟩
    · exact hq.future b m y hy
  · intro y hy
    obtain ⟨hne, hmem⟩ := (mem_without hq).1 hy
    rw [Option.eq_none_iff_forall_ne_some]
    intro z hz
    rcases (find_demoted hq).1 hz with ⟨hsender, hnonce, -⟩ | ⟨-, hz⟩
    · have hy' := (hq.byNonce _ _ y).2 ⟨hmem, rfl, rfl⟩
      rw [hsender, hnonce, (hq.byNonce _ _ t).2 ⟨ht, rfl, rfl⟩] at hy'
      exact hne (Option.some.inj hy').symm
    · rw [hq.apart y hmem] at hz
      cases hz
  · intro y z hy hz hhash
    exact hq.hash_inj y z ((held_demoted hq ht).1 hy) ((held_demoted hq ht).1 hz) hhash
  · change q.m_futureSize + 1 = Grouped.size (put q.m_future (t.sender c) t.nonce.toNat t)
    rw [size_put hq.tidyFuture (hq.apart t ht), hq.size]

/-- One round of the loop of `setFuture`. -/
theorem demote_cons (hq : Consistent c q) (hx : find q.m_currentByAddressAndNonce a n = some x)
    (rest : List (ℕ × Transaction)) :
    demote c a ((n, x) :: rest) q = demote c a rest (demoted c q x) := by
  obtain ⟨hmem, rfl, rfl⟩ := (hq.byNonce a n x).1 hx
  rw [demote, if_pos hmem, hq.apart x hmem]
  rfl

/-- The entry that `m_future[from]` makes is filled in the first round. -/
theorem demote_cons_insert (hq : Consistent c q) (hx : find q.m_currentByAddressAndNonce a n = some x)
    (rest : List (ℕ × Transaction)) :
    demote c a ((n, x) :: rest) { q with m_future := q.m_future.insert a (group q.m_future a) } =
      demote c a ((n, x) :: rest) q := by
  obtain ⟨hmem, rfl, rfl⟩ := (hq.byNonce a n x).1 hx
  have hnone : find (q.m_future.insert (x.sender c) (group q.m_future (x.sender c))) (x.sender c) x.nonce.toNat =
      none := by
    unfold find
    rw [group_insert_self]
    exact hq.apart x hmem
  have hput : put (q.m_future.insert (x.sender c) (group q.m_future (x.sender c))) (x.sender c) x.nonce.toNat x =
      put q.m_future (x.sender c) x.nonce.toNat x := by
    unfold put
    rw [group_insert_self, AList.insert_insert]
  rw [demote, demote, if_pos hmem, if_pos hmem]
  dsimp only
  rw [hnone, hq.apart x hmem, hput]
  rfl

/-- The loop of `setFuture`; `P` is kept in a round. -/
theorem demote_spec {P : TransactionQueue → Prop} (a : Address)
    (hstep : ∀ q x, Consistent c q → x ∈ q.m_current → P q → P (demoted c q x)) :
    ∀ (l : List (ℕ × Transaction)) (q : TransactionQueue), Consistent c q → (l.map Prod.fst).Nodup →
      (∀ e ∈ l, find q.m_currentByAddressAndNonce a e.1 = some e.2) → P q →
      ∃ q', demote c a l q = some q' ∧ Consistent c q' ∧ P q' := by
  intro l
  induction l with
  | nil =>
    intro q hq _ _ hP
    exact ⟨q, rfl, hq, hP⟩
  | cons e l ih =>
    intro q hq hnodup hfind hP
    obtain ⟨m, x⟩ := e
    rw [List.map_cons, List.nodup_cons] at hnodup
    have hx : find q.m_currentByAddressAndNonce a m = some x := hfind (m, x) List.mem_cons_self
    obtain ⟨hmem, hsender, hnonce⟩ := (hq.byNonce a m x).1 hx
    rw [demote_cons hq hx]
    refine ih _ (hq.demoted hmem) hnodup.2 ?_ (hstep q x hq hmem hP)
    intro e he
    refine (find_remove hq.tidy).2 ⟨?_, hfind e (List.mem_cons_of_mem _ he)⟩
    rintro ⟨-, hn⟩
    rw [hnonce] at hn
    exact hnodup.1 (List.mem_map.2 ⟨e, he, hn⟩)

/-! ## Soundness -/

structure Sound (c : Crypto) (q : TransactionQueue) : Prop where
  consistent : Consistent c q
  known : ∀ t, Held c q t → hash c t ∈ q.m_known

/-- What an operation leaves: the rest is either held already or new. -/
structure Follows (c : Crypto) (q : TransactionQueue) (A : Transaction → Prop) (q' : TransactionQueue) : Prop where
  sound : Sound c q'
  limit : q'.m_limit = q.m_limit
  futureLimit : q'.m_futureLimit = q.m_futureLimit
  held : ∀ x, Held c q' x → Held c q x ∨ A x

variable {A : Transaction → Prop}

theorem Follows.refl (hq : Sound c q) : Follows c q A q := ⟨hq, rfl, rfl, fun _ h => .inl h⟩

theorem Follows.trans (h : Follows c q A q') (h' : Follows c q' A q'') : Follows c q A q'' := by
  refine ⟨h'.sound, h'.limit.trans h.limit, h'.futureLimit.trans h.futureLimit, ?_⟩
  intro x hx
  rcases h'.held x hx with hx | hx
  · exact h.held x hx
  · exact .inr hx

theorem Follows.mono {A' : Transaction → Prop} (h : Follows c q A q') (hnew : ∀ x, A x → A' x) :
    Follows c q A' q' :=
  ⟨h.sound, h.limit, h.futureLimit, fun x hx => (h.held x hx).imp_right (hnew x)⟩

theorem sound_empty (limit futureLimit : ℕ) : Sound c (empty limit futureLimit) := by
  refine ⟨consistent_empty limit futureLimit, ?_⟩
  rintro t (ht | ht)
  · cases ht
  · cases ht

theorem Sound.removed (hq : Sound c q) (ht : t ∈ q.m_current) : Sound c (removed c q t) := by
  refine ⟨hq.consistent.removed ht, ?_⟩
  intro x hx
  obtain ⟨hne, hx⟩ := (held_removed hq.consistent ht).1 hx
  refine Finset.mem_erase.2 ⟨?_, hq.known x hx⟩
  intro hhash
  exact hne (hq.consistent.hash_inj x t hx (.inl ht) hhash)

theorem follows_removed (hq : Sound c q) (ht : t ∈ q.m_current) : Follows c q A (removed c q t) :=
  ⟨hq.removed ht, rfl, rfl, fun _ hx => .inl ((held_removed hq.consistent ht).1 hx).2⟩

theorem remove_spec (hq : Sound c q) (h : H256) :
    ∃ b q', q.remove c h = some (b, q') ∧ Follows c q A q' ∧ ∀ x ∈ q'.m_current, hash c x ≠ h := by
  by_cases hex : ∃ t ∈ q.m_current, hash c t = h
  · obtain ⟨t, ht, rfl⟩ := hex
    refine ⟨true, _, remove_of_mem hq.consistent ht, follows_removed hq ht, ?_⟩
    intro x hx hhash
    obtain ⟨hne, hmem⟩ := (mem_without hq.consistent).1 hx
    exact hne (hq.consistent.hash_inj x t (.inl hmem) (.inl ht) hhash)
  · have hnot : ∀ x ∈ q.m_current, hash c x ≠ h := fun x hx hhash => hex ⟨x, hx, hhash⟩
    exact ⟨false, q, remove_of_not hq.consistent hnot, .refl hq, hnot⟩

theorem makeCurrent_follows (hq : Sound c q) (k : Containers) (t : Transaction) :
    ∃ q', q.makeCurrent c k t = some q' ∧ Follows c q A q' := by
  obtain ⟨q₁, q', -, hpromotes, -, -, hq', hforgets, -⟩ := makeCurrent_spec hq.consistent k t
  have hheld : ∀ x, Held c q' x → Held c q x := fun x hx => (hpromotes.held x).1 (hforgets.held hx)
  have hrules := hpromotes.rules.trans hforgets.rules
  refine ⟨q', hq', ⟨hforgets.consistent, ?_⟩, hrules.limit, hrules.futureLimit, fun x hx => .inl (hheld x hx)⟩
  intro x hx
  rw [hrules.known]
  exact hq.known x (hheld x hx)

/-! ## Imports -/

/-- A transaction at the same place has a higher price. -/
def Overbid (c : Crypto) (q : TransactionQueue) (t : Transaction) : Prop :=
  ∃ old, (find q.m_currentByAddressAndNonce (t.sender c) t.nonce.toNat = some old ∨
    find q.m_future (t.sender c) t.nonce.toNat = some old) ∧ t.gasPrice < old.gasPrice

/-- The queue with the place of a transaction made free. -/
def room (c : Crypto) (q : TransactionQueue) (t : Transaction) : TransactionQueue :=
  match find q.m_currentByAddressAndNonce (t.sender c) t.nonce.toNat with
  | some old => removed c q old
  | none =>
    match find q.m_future (t.sender c) t.nonce.toNat with
    | some _ => q.takeFuture (t.sender c) t.nonce.toNat
    | none => q

theorem room_of_current (hx : find q.m_currentByAddressAndNonce (t.sender c) t.nonce.toNat = some x) :
    room c q t = removed c q x := by
  unfold room
  rw [hx]

theorem room_of_future (hcurrent : find q.m_currentByAddressAndNonce (t.sender c) t.nonce.toNat = none)
    (hx : find q.m_future (t.sender c) t.nonce.toNat = some x) :
    room c q t = q.takeFuture (t.sender c) t.nonce.toNat := by
  unfold room
  rw [hcurrent, hx]

theorem room_of_none (hcurrent : find q.m_currentByAddressAndNonce (t.sender c) t.nonce.toNat = none)
    (hfuture : find q.m_future (t.sender c) t.nonce.toNat = none) : room c q t = q := by
  unfold room
  rw [hcurrent, hfuture]

theorem Consistent.future_eq_none (hq : Consistent c q)
    (hx : find q.m_currentByAddressAndNonce (t.sender c) t.nonce.toNat = some x) :
    find q.m_future (t.sender c) t.nonce.toNat = none := by
  obtain ⟨hmem, hsender, hnonce⟩ := (hq.byNonce _ _ x).1 hx
  rw [← hsender, ← hnonce]
  exact hq.apart x hmem

/-- There is room afterwards. -/
theorem room_spec (hq : Sound c q) (t : Transaction) :
    Follows c q A (room c q t) ∧
      find (room c q t).m_currentByAddressAndNonce (t.sender c) t.nonce.toNat = none ∧
      find (room c q t).m_future (t.sender c) t.nonce.toNat = none := by
  cases hcurrent : find q.m_currentByAddressAndNonce (t.sender c) t.nonce.toNat with
  | some old =>
    obtain ⟨hmem, hsender, hnonce⟩ := (hq.consistent.byNonce _ _ old).1 hcurrent
    rw [room_of_current hcurrent]
    refine ⟨follows_removed hq hmem, ?_, hq.consistent.future_eq_none hcurrent⟩
    rw [Option.eq_none_iff_forall_ne_some]
    intro y hy
    exact ((find_remove hq.consistent.tidy).1 hy).1 ⟨hsender.symm, hnonce.symm⟩
  | none =>
    cases hfuture : find q.m_future (t.sender c) t.nonce.toNat with
    | some old =>
      have hheld : ∀ x, Held c (q.takeFuture (t.sender c) t.nonce.toNat) x → Held c q x :=
        fun x hx => hx.of_takeFuture hq.consistent
      rw [room_of_future hcurrent hfuture]
      refine ⟨⟨⟨hq.consistent.takeFuture hfuture, fun x hx => hq.known x (hheld x hx)⟩, rfl, rfl,
        fun x hx => .inl (hheld x hx)⟩, hcurrent, ?_⟩
      rw [Option.eq_none_iff_forall_ne_some]
      intro y hy
      exact ((find_takeFuture hq.consistent).1 hy).1 ⟨rfl, rfl⟩
    | none =>
      rw [room_of_none hcurrent hfuture]
      exact ⟨.refl hq, hcurrent, hfuture⟩

theorem replaceFuture_of_none (hfuture : find q.m_future (t.sender c) t.nonce.toNat = none) :
    q.replaceFuture c t = (.Success, q) := by
  unfold replaceFuture
  rw [hfuture]

theorem replaceFuture_of_some (hx : find q.m_future (t.sender c) t.nonce.toNat = some x) :
    q.replaceFuture c t =
      if t.gasPrice < x.gasPrice then (.OverbidGasPrice, q)
      else (.Success, q.takeFuture (t.sender c) t.nonce.toNat) := by
  unfold replaceFuture
  rw [hx]

theorem replaceCurrent_of_none (hcurrent : find q.m_currentByAddressAndNonce (t.sender c) t.nonce.toNat = none) :
    q.replaceCurrent c t = some (.Success, q) := by
  unfold replaceCurrent
  rw [hcurrent]

theorem replaceCurrent_of_some (hq : Consistent c q)
    (hx : find q.m_currentByAddressAndNonce (t.sender c) t.nonce.toNat = some x) :
    q.replaceCurrent c t =
      if t.gasPrice < x.gasPrice then some (.OverbidGasPrice, q) else some (.Success, removed c q x) := by
  obtain ⟨hmem, -⟩ := (hq.byNonce _ _ x).1 hx
  unfold replaceCurrent
  rw [hx]
  dsimp only
  rw [remove_of_mem hq hmem]
  rfl

theorem manageImport_of_overbid (hq : Consistent c q) (k : Containers) (h : H256) (ht : Overbid c q t) :
    q.manageImport c k h t = some (.OverbidGasPrice, q) := by
  obtain ⟨old, hold | hold, hprice⟩ := ht
  · have hcurrent := replaceCurrent_of_some hq hold
    rw [if_pos hprice] at hcurrent
    unfold manageImport
    rw [hcurrent]
    rfl
  · have hnone : find q.m_currentByAddressAndNonce (t.sender c) t.nonce.toNat = none := by
      rw [Option.eq_none_iff_forall_ne_some]
      intro y hy
      rw [hq.future_eq_none hy] at hold
      cases hold
    have hfuture := replaceFuture_of_some hold
    rw [if_pos hprice] at hfuture
    unfold manageImport
    rw [replaceCurrent_of_none hnone]
    dsimp only [Option.bind_eq_bind, Option.bind_some]
    rw [hfuture]
    rfl

/-- Both replacements went through. -/
theorem manageImport_of_replaced (k : Containers) (h : H256) (hcurrent : q.replaceCurrent c t = some (.Success, q'))
    (hfuture : q'.replaceFuture c t = (.Success, q'')) :
    q.manageImport c k h t = (do
      let q₁ ← q''.insertCurrent c k h t
      return (.Success, ← q₁.dropCurrent c (q₁.m_current.length - q₁.m_limit))) := by
  unfold manageImport
  rw [hcurrent]
  dsimp only [Option.bind_eq_bind, Option.bind_some]
  rw [hfuture]
  rfl

theorem manageImport_eq (hq : Consistent c q) (k : Containers) (h : H256) (ht : ¬Overbid c q t) :
    q.manageImport c k h t = (do
      let q₁ ← (room c q t).insertCurrent c k h t
      return (.Success, ← q₁.dropCurrent c (q₁.m_current.length - q₁.m_limit))) := by
  cases hcurrent : find q.m_currentByAddressAndNonce (t.sender c) t.nonce.toNat with
  | some old =>
    have hreplaced := replaceCurrent_of_some hq hcurrent
    rw [if_neg fun hlt => ht ⟨old, .inl hcurrent, hlt⟩] at hreplaced
    rw [room_of_current hcurrent]
    exact manageImport_of_replaced k h hreplaced (replaceFuture_of_none (hq.future_eq_none hcurrent))
  | none =>
    cases hfuture : find q.m_future (t.sender c) t.nonce.toNat with
    | some old =>
      have hreplaced := replaceFuture_of_some hfuture
      rw [if_neg fun hlt => ht ⟨old, .inr hfuture, hlt⟩] at hreplaced
      rw [room_of_future hcurrent hfuture]
      exact manageImport_of_replaced k h (replaceCurrent_of_none hcurrent) hreplaced
    | none =>
      rw [room_of_none hcurrent hfuture]
      exact manageImport_of_replaced k h (replaceCurrent_of_none hcurrent) (replaceFuture_of_none hfuture)

theorem held_entered {i : ℕ} (hx : Held c (entered c q i t) x) : x = t ∨ Held c q x := by
  rcases hx with hx | hx
  · exact (mem_entered.1 hx).imp_right .inl
  · exact .inr (.inr hx)

/-- A new transaction enters where its place is free. -/
theorem insertCurrent_spec (hq : Sound c q) (k : Containers) (hfresh : ∀ x, Held c q x → hash c x ≠ hash c t)
    (hfree : find q.m_currentByAddressAndNonce (t.sender c) t.nonce.toNat = none)
    (hfuture : find q.m_future (t.sender c) t.nonce.toNat = none) :
    ∃ i q₁ q', q.enter c k t = some (entered c q i t) ∧ Consistent c (entered c q i t) ∧
      (entered c q i t).makeCurrent c k t = some q₁ ∧ q.insertCurrent c k (hash c t) t = some q' ∧
      q' = { q₁ with m_known := insert (hash c t) q₁.m_known } ∧
      Follows c q (fun x => x = t) q' ∧ q'.m_futureSize ≤ q'.m_futureLimit := by
  have hlookup : q.m_currentByHash.lookup (hash c t) = none := by
    rw [Option.eq_none_iff_forall_ne_some]
    intro x hx
    obtain ⟨hmem, hhash⟩ := (hq.consistent.byHash _ x).1 hx
    exact hfresh x (.inl hmem) hhash
  obtain ⟨i, hi⟩ := enter_eq hq.consistent k t
  have hcons := hq.consistent.entered i hfresh hfree hfuture
  obtain ⟨q₁, q', -, hpromotes, -, -, hq', hforgets, hsize⟩ := makeCurrent_spec hcons k t
  have hrules := hpromotes.rules.trans hforgets.rules
  have hheld : ∀ x, Held c q' x → x = t ∨ Held c q x :=
    fun x hx => held_entered ((hpromotes.held x).1 (hforgets.held hx))
  refine ⟨i, q', _, hi, hcons, hq', ?_, rfl, ⟨⟨hforgets.consistent.withKnown _ q'.m_dropped, ?_⟩, ?_, ?_, ?_⟩, ?_⟩
  · unfold insertCurrent
    rw [hlookup, if_neg (by simp), hi]
    dsimp only [Option.bind_eq_bind, Option.bind_some]
    rw [hq']
    rfl
  · intro x hx
    rw [Finset.mem_insert]
    rcases hheld x hx with rfl | hx
    · exact .inl rfl
    · refine .inr ?_
      rw [hrules.known]
      exact hq.known x hx
  · exact hrules.limit
  · exact hrules.futureLimit
  · intro x hx
    exact (hheld x hx).symm
  · show q'.m_futureSize ≤ q'.m_futureLimit
    rw [hsize, hforgets.rules.futureLimit]
    exact min_le_right _ _

theorem manageImport_spec (hq : Sound c q) (k : Containers) (hnew : hash c t ∉ q.m_known) :
    ∃ r q', q.manageImport c k (hash c t) t = some (r, q') ∧ Follows c q (fun x => x = t) q' ∧
      (r = .Success → q'.m_current.length ≤ q'.m_limit ∧ q'.m_futureSize ≤ q'.m_futureLimit) := by
  by_cases hover : Overbid c q t
  · refine ⟨_, q, manageImport_of_overbid hq.consistent k _ hover, .refl hq, ?_⟩
    intro h
    cases h
  · obtain ⟨hf, hfree, hfuture⟩ := room_spec (A := fun _ => False) hq t
    have hfresh : ∀ x, Held c (room c q t) x → hash c x ≠ hash c t := by
      intro x hx hhash
      rcases hf.held x hx with hx | hx
      · exact hnew (hhash ▸ hq.known x hx)
      · exact hx
    obtain ⟨i, q₁, q₂, -, -, -, hq₂, -, hf₂, hsize⟩ := insertCurrent_spec hf.sound k hfresh hfree hfuture
    obtain ⟨q₃, hq₃, hcons, hf₃, hlen, -, hsize'⟩ :=
      dropCurrent_spec (P := Follows c q₂ fun _ => False)
        (fun q t _ ht _ hP => hP.trans (follows_removed hP.sound ht)) (q₂.m_current.length - q₂.m_limit) q₂
        hf₂.sound.consistent (Nat.sub_le _ _) (.refl hf₂.sound)
    refine ⟨.Success, q₃, ?_, ?_, ?_⟩
    · rw [manageImport_eq hq.consistent k _ hover, hq₂]
      dsimp only [Option.bind_eq_bind, Option.bind_some]
      rw [hq₃]
      rfl
    · exact (hf.mono fun _ h => h.elim).trans (hf₂.trans (hf₃.mono fun _ h => h.elim))
    · intro _
      rw [hlen, hsize', hf₃.limit, hf₃.futureLimit]
      exact ⟨by omega, hsize⟩

theorem hash_of_sha3 (hh : t.sha3 c .WithSignature = .ok h) : h = hash c t := by
  unfold Transaction.sha3 at hh
  unfold hash
  cases hs : t.streamRLP .WithSignature with
  | error e =>
    rw [hs] at hh
    cases hh
  | ok b =>
    rw [hs] at hh
    exact (Except.ok.inj hh).symm

theorem importTransaction_spec (hq : Sound c q) (k : Containers) (t : Transaction) (ik : IfDropped) :
    ∃ r q', q.importTransaction c k t ik = some (r, q') ∧ Follows c q (fun x => x = t) q' ∧
      (r = .ok .Success → q'.m_current.length ≤ q'.m_limit ∧ q'.m_futureSize ≤ q'.m_futureLimit) := by
  unfold importTransaction
  by_cases hz : t.hasZeroSignature = true
  · rw [if_pos hz]
    refine ⟨_, q, rfl, .refl hq, ?_⟩
    intro h
    cases h
  · rw [if_neg hz]
    cases hh : t.sha3 c .WithSignature with
    | error e =>
      refine ⟨_, q, rfl, .refl hq, ?_⟩
      intro h
      cases h
    | ok h =>
      dsimp only
      by_cases hcheck : q.check h ik = .Success
      · have hnew : h ∉ q.m_known := by
          intro hknown
          unfold check at hcheck
          rw [if_pos hknown] at hcheck
          cases hcheck
        rw [hash_of_sha3 hh] at hnew ⊢
        obtain ⟨r, q', hr, hf, hlimits⟩ := manageImport_spec hq k hnew
        refine ⟨.ok r, q', ?_, hf, fun h => hlimits (Except.ok.inj h)⟩
        rw [← hash_of_sha3 hh, if_neg (not_not.2 hcheck), hash_of_sha3 hh, hr]
        rfl
      · rw [if_pos hcheck]
        refine ⟨_, q, rfl, .refl hq, ?_⟩
        intro h
        exact absurd (Except.ok.inj h) hcheck

theorem drop_spec (hq : Sound c q) (h : H256) :
    ∃ q', q.drop c h = some q' ∧ Follows c q A q' ∧ ∀ x ∈ q'.m_current, hash c x ≠ h := by
  unfold drop
  by_cases hknown : h ∈ q.m_known
  · rw [if_neg (not_not.2 hknown)]
    have hq₁ : Sound c { q with m_dropped := insert h q.m_dropped } := ⟨hq.consistent.withKnown _ _, hq.known⟩
    obtain ⟨b, q', hq', hf, hgone⟩ := remove_spec (A := A) hq₁ h
    rw [hq']
    exact ⟨q', rfl, ⟨hf.sound, hf.limit, hf.futureLimit, hf.held⟩, hgone⟩
  · rw [if_pos hknown]
    refine ⟨q, rfl, .refl hq, ?_⟩
    intro x hx hhash
    exact hknown (hhash ▸ hq.known x (.inl hx))

/-- After the promotion `dropGood` removes the transaction, if it is known. -/
theorem dropGood_cases {q₁ : TransactionQueue} (hq₁ : q.makeCurrent c k t = some q₁)
    (hq' : q.dropGood c k t = some q') :
    q' = q₁ ∨ ∃ b, q₁.remove c (hash c t) = some (b, q') := by
  unfold dropGood at hq'
  rw [hq₁] at hq'
  dsimp only [Option.bind_eq_bind, Option.bind_some] at hq'
  cases hh : t.sha3 c .WithSignature with
  | error e =>
    rw [hh] at hq'
    exact .inl (Option.some.inj hq').symm
  | ok h =>
    rw [hh] at hq'
    dsimp only at hq'
    rw [hash_of_sha3 hh] at hq'
    by_cases hknown : hash c t ∈ q₁.m_known
    · rw [if_neg (not_not.2 hknown)] at hq'
      obtain ⟨r, hr, heq⟩ := Option.bind_eq_some_iff.1 hq'
      obtain rfl : r.2 = q' := Option.some.inj heq
      exact .inr ⟨r.1, hr⟩
    · rw [if_pos hknown] at hq'
      exact .inl (Option.some.inj hq').symm

theorem dropGood_spec (hq : Sound c q) (k : Containers) (t : Transaction) :
    ∃ q₁ q', q.makeCurrent c k t = some q₁ ∧ q.dropGood c k t = some q' ∧ Follows c q A q₁ ∧ Follows c q₁ A q' ∧
      (t.sha3 c .WithSignature = .ok (hash c t) → ∀ x ∈ q'.m_current, hash c x ≠ hash c t) := by
  obtain ⟨q₁, hq₁, hf₁⟩ := makeCurrent_follows (A := A) hq k t
  unfold dropGood
  rw [hq₁]
  dsimp only [Option.bind_eq_bind, Option.bind_some]
  cases hh : t.sha3 c .WithSignature with
  | error e =>
    refine ⟨q₁, q₁, rfl, rfl, hf₁, .refl hf₁.sound, ?_⟩
    intro h
    cases h
  | ok h =>
    rw [hash_of_sha3 hh]
    dsimp only
    by_cases hknown : hash c t ∈ q₁.m_known
    · obtain ⟨b, q', hq', hf, hgone⟩ := remove_spec (A := A) hf₁.sound (hash c t)
      rw [if_neg (not_not.2 hknown), hq']
      exact ⟨q₁, q', rfl, rfl, hf₁, hf, fun _ => hgone⟩
    · rw [if_pos hknown]
      refine ⟨q₁, q₁, rfl, rfl, hf₁, .refl hf₁.sound, ?_⟩
      intro _ x hx hhash
      exact hknown (hhash ▸ hf₁.sound.known x (.inl hx))

/-- The entries of the sender from the transaction on. -/
def cutoff (c : Crypto) (q : TransactionQueue) (t : Transaction) : List (ℕ × Transaction) :=
  (group q.m_currentByAddressAndNonce (t.sender c)).dropWhile fun e => e.1 < t.nonce.toNat

theorem mem_cutoff (hq : Consistent c q) {e : ℕ × Transaction} (he : e ∈ cutoff c q t) :
    find q.m_currentByAddressAndNonce (t.sender c) e.1 = some e.2 :=
  (find_eq_some_iff hq.tidy).2 ((List.dropWhile_sublist _).subset he)

theorem nodup_cutoff (hq : Consistent c q) : ((cutoff c q t).map Prod.fst).Nodup := by
  have hasc := hq.tidy.ascending (t.sender c)
  exact (hasc.imp fun h => h.ne).sublist ((List.dropWhile_sublist _).map _)

/-- A current transaction is among those that are set future with it, so that the entry made for its sender is not
left empty. -/
theorem setFuture_eq (hq : Consistent c q) (ht : t ∈ q.m_current) :
    q.setFuture c (hash c t) = demote c (t.sender c) (cutoff c q t) q := by
  unfold setFuture
  rw [(hq.byHash _ t).2 ⟨ht, rfl⟩]
  dsimp only
  change demote c (t.sender c) (cutoff c q t) _ = _
  cases hcut : cutoff c q t with
  | nil =>
    have hmem : (t.nonce.toNat, t) ∈ group q.m_currentByAddressAndNonce (t.sender c) :=
      (find_eq_some_iff hq.tidy).1 ((hq.byNonce _ _ t).2 ⟨ht, rfl, rfl⟩)
    have hlt := List.dropWhile_eq_nil_iff.1 hcut _ hmem
    exact absurd (of_decide_eq_true hlt) (lt_irrefl _)
  | cons e rest => exact demote_cons_insert hq (mem_cutoff hq (hcut ▸ List.mem_cons_self)) rest

theorem setFuture_of_not (hq : Consistent c q) (hnot : ∀ t ∈ q.m_current, hash c t ≠ h) : q.setFuture c h = some q := by
  have hlookup : q.m_currentByHash.lookup h = none := by
    rw [Option.eq_none_iff_forall_ne_some]
    intro t ht
    obtain ⟨hmem, hhash⟩ := (hq.byHash h t).1 ht
    exact hnot t hmem hhash
  unfold setFuture
  rw [hlookup]

theorem setFuture_spec (hq : Sound c q) (h : H256) :
    ∃ q', q.setFuture c h = some q' ∧ Consistent c q' ∧ SameRules q q' ∧ ∀ x, Held c q' x ↔ Held c q x := by
  by_cases hex : ∃ t ∈ q.m_current, hash c t = h
  · obtain ⟨t, ht, rfl⟩ := hex
    rw [setFuture_eq hq.consistent ht]
    obtain ⟨q', hq', hcons, hrules, hheld⟩ := demote_spec
      (P := fun q' => SameRules q q' ∧ ∀ x, Held c q' x ↔ Held c q x) (t.sender c)
      (fun q' x hq' hx hP => ⟨hP.1.trans ⟨rfl, rfl, rfl, rfl⟩, fun y => (held_demoted hq' hx).trans (hP.2 y)⟩)
      (cutoff c q t) q hq.consistent (nodup_cutoff hq.consistent) (fun e he => mem_cutoff hq.consistent he)
      ⟨.refl q, fun _ => .rfl⟩
    exact ⟨q', hq', hcons, hrules, hheld⟩
  · rw [setFuture_of_not hq.consistent fun x hx hhash => hex ⟨x, hx, hhash⟩]
    exact ⟨q, rfl, hq.consistent, .refl q, fun _ => .rfl⟩

theorem clear_spec (q : TransactionQueue) : Follows c q A q.clear := by
  have hheld : ∀ x, ¬Held c q.clear x := by
    rintro x (hx | hx)
    · cases hx
    · cases hx
  have hcons : Consistent c q.clear := (consistent_empty q.m_limit q.m_futureLimit).withKnown ∅ q.m_dropped
  exact ⟨⟨hcons, fun x hx => absurd hx (hheld x)⟩, rfl, rfl, fun x hx => absurd hx (hheld x)⟩

/-! ## Runs -/

/-- What an operation may add. -/
def Op.Adds : Op → Transaction → Prop
  | .importTransaction t _, x => x = t
  | _, _ => False

theorem step_spec (hq : Sound c q) (k : Containers) (o : Op) :
    ∃ q', q.step c k o = some q' ∧ Follows c q o.Adds q' := by
  cases o with
  | importTransaction t ik =>
    obtain ⟨r, q', hr, hf, -⟩ := importTransaction_spec hq k t ik
    refine ⟨q', ?_, hf⟩
    show (q.importTransaction c k t ik).bind (fun r => some r.2) = some q'
    rw [hr]
    rfl
  | drop h =>
    obtain ⟨q', hq', hf, -⟩ := drop_spec (A := (Op.drop h).Adds) hq h
    exact ⟨q', hq', hf⟩
  | dropGood t =>
    obtain ⟨q₁, q', -, hq', hf₁, hf, -⟩ := dropGood_spec (A := (Op.dropGood t).Adds) hq k t
    exact ⟨q', hq', hf₁.trans hf⟩
  | setFuture h =>
    obtain ⟨q', hq', hcons, hrules, hheld⟩ := setFuture_spec hq h
    refine ⟨q', hq', ⟨hcons, ?_⟩, hrules.limit, hrules.futureLimit, fun x hx => .inl ((hheld x).1 hx)⟩
    intro x hx
    rw [hrules.known]
    exact hq.known x ((hheld x).1 hx)
  | clear => exact ⟨q.clear, rfl, clear_spec q⟩

theorem run_spec : ∀ (os : List (Containers × Op)) (q : TransactionQueue), Sound c q →
    ∃ q', q.run c os = some q' ∧ Follows c q (fun x => ∃ o ∈ os, o.2.Adds x) q' := by
  intro os
  induction os with
  | nil =>
    intro q hq
    exact ⟨q, rfl, .refl hq⟩
  | cons o os ih =>
    intro q hq
    obtain ⟨q₁, hq₁, hf₁⟩ := step_spec hq o.1 o.2
    obtain ⟨q', hq', hf⟩ := ih q₁ hf₁.sound
    refine ⟨q', ?_, ?_⟩
    · rw [run, hq₁]
      exact hq'
    · refine (hf₁.mono fun x hx => ⟨o, List.mem_cons_self, hx⟩).trans (hf.mono ?_)
      rintro x ⟨o', ho', hx⟩
      exact ⟨o', List.mem_cons_of_mem _ ho', hx⟩

/-- A sender's nonce has one transaction at most. -/
theorem Consistent.eq_of_place (hq : Consistent c q) (ht : Held c q t) (ht' : Held c q t')
    (hsender : t.sender c = t'.sender c) (hnonce : t.nonce = t'.nonce) : t = t' := by
  rcases ht with ht | ht
  · rcases ht' with ht' | ht'
    · have hplace := (hq.byNonce _ _ t).2 ⟨ht, hsender, congrArg BitVec.toNat hnonce⟩
      rw [(hq.byNonce _ _ t').2 ⟨ht', rfl, rfl⟩] at hplace
      exact (Option.some.inj hplace).symm
    · rw [← hsender, ← hnonce, hq.apart t ht] at ht'
      cases ht'
  · rcases ht' with ht' | ht'
    · rw [hsender, hnonce, hq.apart t' ht'] at ht
      cases ht
    · rw [hsender, hnonce, ht'] at ht
      exact (Option.some.inj ht).symm

/-- Every run of a new queue goes through, and leaves containers that agree; an import that succeeds leaves them
within their limits. -/
theorem containers_agree (c : Crypto) (limit futureLimit : ℕ) (os : List (Containers × Op)) :
    ∃ q, (empty limit futureLimit).run c os = some q ∧ Consistent c q ∧
      (∀ t t', Held c q t → Held c q t' → t.sender c = t'.sender c → t.nonce = t'.nonce → t = t') ∧
      q.m_futureSize = Grouped.size q.m_future ∧
      ∀ k t ik, ∃ r q', q.importTransaction c k t ik = some (r, q') ∧
        (r = .ok .Success → q'.m_current.length ≤ limit ∧ q'.m_futureSize ≤ futureLimit) := by
  obtain ⟨q, hq, hf⟩ := run_spec os _ (sound_empty (c := c) limit futureLimit)
  have hcons := hf.sound.consistent
  refine ⟨q, hq, hcons, fun t t' ht ht' => hcons.eq_of_place ht ht', hcons.size, ?_⟩
  intro k t ik
  obtain ⟨r, q', hr, hf', hlimits⟩ := importTransaction_spec hf.sound k t ik
  refine ⟨r, q', hr, fun hsuccess => ?_⟩
  obtain ⟨hcurrent, hfuture⟩ := hlimits hsuccess
  have hlimit : q'.m_limit = limit := hf'.limit.trans hf.limit
  have hfutureLimit : q'.m_futureLimit = futureLimit := hf'.futureLimit.trans hf.futureLimit
  exact ⟨hlimit ▸ hcurrent, hfutureLimit ▸ hfuture⟩

end TransactionQueue

end Petrachor
