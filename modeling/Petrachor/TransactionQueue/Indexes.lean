import Petrachor.TransactionQueue

/-!
# The containers of the transaction queue agree

The multiset of current transactions and the two maps into it describe the same transactions, and no place of a
sender's nonces is taken twice. Every operation keeps this, whatever the containers leave open, so that
none reads an entry that is not there.
-/

namespace Petrachor

namespace TransactionQueue

open Grouped

section

variable (c : Crypto)

/-- The transaction is in the queue, as a current or a future one. -/
def Held (q : TransactionQueue) (t : Transaction) : Prop :=
  t ∈ q.m_current ∨ find q.m_future (t.sender c) t.nonce.toNat = some t

structure Consistent (q : TransactionQueue) : Prop where
  nodup : q.m_current.Nodup
  byHash : ∀ h t, q.m_currentByHash.lookup h = some t ↔ t ∈ q.m_current ∧ hash c t = h
  byNonce : ∀ a n t, find q.m_currentByAddressAndNonce a n = some t ↔
    t ∈ q.m_current ∧ t.sender c = a ∧ t.nonce.toNat = n
  future : ∀ a n t, find q.m_future a n = some t → t.sender c = a ∧ t.nonce.toNat = n
  apart : ∀ t ∈ q.m_current, find q.m_future (t.sender c) t.nonce.toNat = none
  hash_inj : ∀ t t', Held c q t → Held c q t' → hash c t = hash c t' → t = t'
  tidy : Tidy q.m_currentByAddressAndNonce
  tidyFuture : Tidy q.m_future
  size : q.m_futureSize = Grouped.size q.m_future

/-- What the steps that move transactions leave. -/
structure SameRules (q q' : TransactionQueue) : Prop where
  known : q'.m_known = q.m_known
  dropped : q'.m_dropped = q.m_dropped
  limit : q'.m_limit = q.m_limit
  futureLimit : q'.m_futureLimit = q.m_futureLimit

end

variable {c : Crypto} {k : Containers} {q q' q'' : TransactionQueue} {t t' x : Transaction} {a : Address} {n : ℕ}
  {h : H256}

theorem SameRules.refl (q : TransactionQueue) : SameRules q q := ⟨rfl, rfl, rfl, rfl⟩

theorem SameRules.trans (h : SameRules q q') (h' : SameRules q' q'') : SameRules q q'' :=
  ⟨h'.known.trans h.known, h'.dropped.trans h.dropped, h'.limit.trans h.limit, h'.futureLimit.trans h.futureLimit⟩

theorem Held.of_future (hq : Consistent c q) (hx : find q.m_future a n = some x) : Held c q x := by
  obtain ⟨rfl, rfl⟩ := hq.future a n x hx
  exact .inr hx

theorem consistent_empty (limit futureLimit : ℕ) : Consistent c (empty limit futureLimit) := by
  refine ⟨List.nodup_nil, ?_, ?_, ?_, ?_, ?_, tidy_empty, tidy_empty, rfl⟩
  · intro h t
    constructor
    · intro hl
      cases hl
    · rintro ⟨ht, -⟩
      cases ht
  · intro a n t
    constructor
    · intro hl
      cases hl
    · rintro ⟨ht, -⟩
      cases ht
  · intro a n t hl
    cases hl
  · intro t ht
    cases ht
  · rintro t t' (ht | ht) - -
    · cases ht
    · cases ht

/-! ## A transaction enters -/

/-- The queue with the transaction entered at a place. -/
def entered (c : Crypto) (q : TransactionQueue) (i : ℕ) (t : Transaction) : TransactionQueue :=
  { q with
    m_currentByAddressAndNonce := put q.m_currentByAddressAndNonce (t.sender c) t.nonce.toNat t
    m_current := q.m_current.take i ++ t :: q.m_current.drop i
    m_currentByHash := q.m_currentByHash.insert (hash c t) t }

theorem perm_insert (l : List Transaction) (i : ℕ) (t : Transaction) : (l.take i ++ t :: l.drop i).Perm (t :: l) := by
  refine List.perm_middle.trans ?_
  rw [List.take_append_drop]

theorem mem_entered {i : ℕ} : t' ∈ (entered c q i t).m_current ↔ t' = t ∨ t' ∈ q.m_current := by
  rw [← List.mem_cons]
  exact (perm_insert q.m_current i t).mem_iff

theorem readable_iff : q.readable c t = true ↔ group q.m_currentByAddressAndNonce (t.sender c) ≠ [] := by
  unfold readable lowest
  cases group q.m_currentByAddressAndNonce (t.sender c) <;> simp

theorem group_ne_nil (hx : find q.m_currentByAddressAndNonce a n = some x) :
    group q.m_currentByAddressAndNonce a ≠ [] := by
  intro hnil
  unfold find at hx
  rw [hnil] at hx
  cases hx

/-- The place the multiset finds for a transaction. -/
def spot (c : Crypto) (k : Containers) (q : TransactionQueue) (t : Transaction) : ℕ :=
  k.place ((entered c q 0 t).less c t) q.m_current

/-- Every map that the comparator may read has an entry. -/
theorem enter_spot (hq : Consistent c q) (k : Containers) (t : Transaction) :
    q.enter c k t = some (entered c q (spot c k q t) t) := by
  let q₁ := { q with
    m_currentByAddressAndNonce := put q.m_currentByAddressAndNonce (t.sender c) t.nonce.toNat t }
  have hself : find q₁.m_currentByAddressAndNonce (t.sender c) t.nonce.toNat = some t :=
    (find_put hq.tidy).2 (.inl ⟨rfl, rfl, rfl⟩)
  have hreadable : (t :: q.m_current).all (q₁.readable c) = true := by
    rw [List.all_eq_true]
    intro e he
    rw [readable_iff]
    by_cases hsender : e.sender c = t.sender c
    · rw [hsender]
      exact group_ne_nil hself
    · have hcurrent : e ∈ q.m_current := by
        rcases List.mem_cons.1 he with rfl | he
        · exact absurd rfl hsender
        · exact he
      change group (put q.m_currentByAddressAndNonce _ _ _) _ ≠ []
      rw [group_put_ne hsender]
      exact group_ne_nil ((hq.byNonce _ _ e).2 ⟨hcurrent, rfl, rfl⟩)
  unfold enter emplace
  dsimp only
  rw [if_pos hreadable]
  rfl

theorem enter_eq (hq : Consistent c q) (k : Containers) (t : Transaction) :
    ∃ i, q.enter c k t = some (entered c q i t) :=
  ⟨_, enter_spot hq k t⟩

theorem Consistent.entered (hq : Consistent c q) (i : ℕ) (hfresh : ∀ t', Held c q t' → hash c t' ≠ hash c t)
    (hfree : find q.m_currentByAddressAndNonce (t.sender c) t.nonce.toNat = none)
    (hfuture : find q.m_future (t.sender c) t.nonce.toNat = none) : Consistent c (entered c q i t) := by
  have hnot : t ∉ q.m_current := fun ht => hfresh t (.inl ht) rfl
  refine ⟨?_, ?_, ?_, hq.future, ?_, ?_, hq.tidy.put, hq.tidyFuture, hq.size⟩
  · rw [show (TransactionQueue.entered c q i t).m_current = q.m_current.take i ++ t :: q.m_current.drop i from rfl,
      (perm_insert q.m_current i t).nodup_iff, List.nodup_cons]
    exact ⟨hnot, hq.nodup⟩
  · intro h t'
    rw [mem_entered]
    change (q.m_currentByHash.insert (hash c t) t).lookup h = some t' ↔ _
    by_cases hh : h = hash c t
    · subst hh
      rw [AList.lookup_insert]
      constructor
      · intro heq
        exact ⟨.inl (Option.some.inj heq).symm, by rw [Option.some.inj heq]⟩
      · rintro ⟨rfl | hmem, hhash⟩
        · rfl
        · exact absurd hhash (hfresh t' (.inl hmem))
    · rw [AList.lookup_insert_ne hh, hq.byHash]
      constructor
      · rintro ⟨hmem, hhash⟩
        exact ⟨.inr hmem, hhash⟩
      · rintro ⟨rfl | hmem, hhash⟩
        · exact absurd hhash.symm hh
        · exact ⟨hmem, hhash⟩
  · intro a n t'
    rw [mem_entered]
    change find (put q.m_currentByAddressAndNonce _ _ _) a n = some t' ↔ _
    rw [find_put hq.tidy, hq.byNonce]
    constructor
    · rintro (⟨rfl, rfl, rfl⟩ | ⟨-, hmem, hplace⟩)
      · exact ⟨.inl rfl, rfl, rfl⟩
      · exact ⟨.inr hmem, hplace⟩
    · rintro ⟨rfl | hmem, rfl, rfl⟩
      · exact .inl ⟨rfl, rfl, rfl⟩
      · refine .inr ⟨?_, hmem, rfl, rfl⟩
        rintro ⟨hsender, hnonce⟩
        have hsome := (hq.byNonce _ _ t').2 ⟨hmem, rfl, rfl⟩
        rw [hsender, hnonce, hfree] at hsome
        cases hsome
  · intro t' ht'
    rcases mem_entered.1 ht' with rfl | ht'
    · exact hfuture
    · exact hq.apart t' ht'
  · have hheld : ∀ t', Held c (TransactionQueue.entered c q i t) t' → t' = t ∨ Held c q t' := by
      rintro t' (ht' | ht')
      · exact (mem_entered.1 ht').imp_right .inl
      · exact .inr (.inr ht')
    intro t₁ t₂ h₁ h₂ hhash
    rcases hheld t₁ h₁ with rfl | hold₁ <;> rcases hheld t₂ h₂ with rfl | hold₂
    · rfl
    · exact absurd hhash.symm (hfresh t₂ hold₂)
    · exact absurd hhash (hfresh t₁ hold₁)
    · exact hq.hash_inj t₁ t₂ hold₁ hold₂ hhash

/-! ## A future transaction is taken out -/

theorem find_takeFuture (hq : Consistent c q) {a' : Address} {n' : ℕ} :
    find (q.takeFuture a n).m_future a' n' = some x ↔ ¬(a' = a ∧ n' = n) ∧ find q.m_future a' n' = some x :=
  find_remove hq.tidyFuture

theorem Held.of_takeFuture (hq : Consistent c q) (ht : Held c (q.takeFuture a n) t) : Held c q t := by
  rcases ht with ht | ht
  · exact .inl ht
  · exact .inr ((find_takeFuture hq).1 ht).2

theorem Consistent.takeFuture (hq : Consistent c q) (hx : find q.m_future a n = some x) :
    Consistent c (q.takeFuture a n) := by
  refine ⟨hq.nodup, hq.byHash, hq.byNonce, ?_, ?_, ?_, hq.tidy, hq.tidyFuture.remove, ?_⟩
  · intro a' n' t ht
    exact hq.future a' n' t ((find_takeFuture hq).1 ht).2
  · intro t ht
    rw [Option.eq_none_iff_forall_ne_some]
    intro x' hx'
    have hsome := ((find_takeFuture hq).1 hx').2
    rw [hq.apart t ht] at hsome
    cases hsome
  · intro t t' ht ht' hhash
    exact hq.hash_inj t t' (ht.of_takeFuture hq) (ht'.of_takeFuture hq) hhash
  · have hsize := size_remove hq.tidyFuture hx
    change q.m_futureSize - 1 = Grouped.size (Grouped.remove q.m_future a n)
    rw [hq.size]
    omega

/-- A future transaction becomes current. -/
theorem Consistent.promote_step (hq : Consistent c q) (k : Containers) (hx : find q.m_future a n = some x) :
    ∃ i, (q.takeFuture a n).enter c k x = some (TransactionQueue.entered c (q.takeFuture a n) i x) ∧
      Consistent c (TransactionQueue.entered c (q.takeFuture a n) i x) := by
  obtain ⟨hsender, hnonce⟩ := hq.future a n x hx
  have hq' := hq.takeFuture hx
  obtain ⟨i, hi⟩ := enter_eq hq' k x
  have hgone : find (q.takeFuture a n).m_future (x.sender c) x.nonce.toNat = none := by
    rw [Option.eq_none_iff_forall_ne_some]
    intro y hy
    exact ((find_takeFuture hq).1 hy).1 ⟨hsender, hnonce⟩
  have hnot : x ∉ q.m_current := by
    intro hmem
    have hnone := hq.apart x hmem
    rw [hsender, hnonce, hx] at hnone
    cases hnone
  refine ⟨i, hi, hq'.entered i ?_ ?_ hgone⟩
  · intro t ht hhash
    have heq : t = x := hq.hash_inj t x (ht.of_takeFuture hq) (.of_future hq hx) hhash
    subst heq
    rcases ht with ht | ht
    · exact hnot ht
    · rw [hgone] at ht
      cases ht
  · rw [Option.eq_none_iff_forall_ne_some]
    intro y hy
    obtain ⟨hmem, hs, hn⟩ := (hq.byNonce _ _ y).1 hy
    have hnone := hq.apart y hmem
    rw [hs, hn, hsender, hnonce, hx] at hnone
    cases hnone

theorem held_promote_step {i : ℕ} (hq : Consistent c q) (hx : find q.m_future a n = some x) :
    Held c (TransactionQueue.entered c (q.takeFuture a n) i x) t ↔ Held c q t := by
  constructor
  · rintro (ht | ht)
    · rcases mem_entered.1 ht with rfl | ht
      · exact .of_future hq hx
      · exact .inl ht
    · exact .inr ((find_takeFuture hq).1 ht).2
  · rintro (ht | ht)
    · exact .inl (mem_entered.2 (.inr ht))
    · by_cases hplace : t.sender c = a ∧ t.nonce.toNat = n
      · rw [hplace.1, hplace.2, hx] at ht
        exact .inl (mem_entered.2 (.inl (Option.some.inj ht).symm))
      · exact .inr ((find_takeFuture hq).2 ⟨hplace, ht⟩)

/-- The number of entries at the front of a list that follow each other from a nonce on. -/
def followers : List (ℕ × Transaction) → ℕ → ℕ
  | [], _ => 0
  | e :: l, nonce => if e.2.nonce.toNat = nonce then followers l ((nonce + 1) % 2 ^ 256) + 1 else 0

/-- Future transactions became current. -/
structure Promotes (c : Crypto) (q q' : TransactionQueue) : Prop where
  consistent : Consistent c q'
  rules : SameRules q q'
  held : ∀ t, Held c q' t ↔ Held c q t
  future : ∀ a n t, find q'.m_future a n = some t → find q.m_future a n = some t
  current : ∀ t ∈ q.m_current, t ∈ q'.m_current

theorem promote_spec (k : Containers) (a : Address) : ∀ (l : List (ℕ × Transaction)) (nonce : ℕ) (q : TransactionQueue),
    Consistent c q → (l.map Prod.fst).Nodup → (∀ e ∈ l, find q.m_future a e.1 = some e.2) →
    ∃ q', promote c k a l nonce q = some q' ∧ Promotes c q q' ∧
      q'.m_futureSize = q.m_futureSize - followers l nonce := by
  intro l
  induction l with
  | nil =>
    intro nonce q hq _ _
    exact ⟨q, rfl, ⟨hq, .refl q, fun t => .rfl, fun _ _ _ h => h, fun _ h => h⟩, rfl⟩
  | cons ft l ih =>
    intro nonce q hq hnodup hfind
    rw [List.map_cons, List.nodup_cons] at hnodup
    unfold promote followers
    by_cases hnonce : ft.2.nonce.toNat = nonce
    · have hx := hfind ft List.mem_cons_self
      obtain ⟨i, hi, hq₁⟩ := hq.promote_step k hx
      have hfuture : ∀ a' n t, find (entered c (q.takeFuture a ft.1) i ft.2).m_future a' n = some t →
          find q.m_future a' n = some t := fun a' n t ht => ((find_takeFuture hq).1 ht).2
      obtain ⟨q', hq', hpromotes, hsize⟩ := ih ((nonce + 1) % 2 ^ 256) _ hq₁ hnodup.2 (by
        intro e he
        refine (find_takeFuture hq).2 ⟨?_, hfind e (List.mem_cons_of_mem _ he)⟩
        rintro ⟨-, hn⟩
        exact hnodup.1 (hn ▸ List.mem_map_of_mem he))
      refine ⟨q', ?_, ⟨hpromotes.consistent, ?_, ?_, ?_, ?_⟩, ?_⟩
      · rw [if_pos hnonce, hi]
        exact hq'
      · have hrules : SameRules q (entered c (q.takeFuture a ft.1) i ft.2) := ⟨rfl, rfl, rfl, rfl⟩
        exact hrules.trans hpromotes.rules
      · exact fun t => (hpromotes.held t).trans (held_promote_step hq hx)
      · exact fun a' n t ht => hfuture a' n t (hpromotes.future a' n t ht)
      · exact fun t ht => hpromotes.current t (mem_entered.2 (.inr ht))
      · rw [hsize, if_pos hnonce, Nat.sub_add_eq, Nat.sub_right_comm]
        rfl
    · rw [if_neg hnonce, if_neg hnonce]
      exact ⟨q, rfl, ⟨hq, .refl q, fun t => .rfl, fun _ _ _ h => h, fun _ h => h⟩, rfl⟩

/-- Future transactions were dropped. -/
structure Forgets (c : Crypto) (q q' : TransactionQueue) : Prop where
  consistent : Consistent c q'
  rules : SameRules q q'
  current : q'.m_current = q.m_current
  table : q'.m_currentByAddressAndNonce = q.m_currentByAddressAndNonce
  byHash : q'.m_currentByHash = q.m_currentByHash
  future : ∀ a n t, find q'.m_future a n = some t → find q.m_future a n = some t

theorem exists_last_future (hq : Consistent c q) (k : Containers) (hsize : 0 < q.m_futureSize) :
    ∃ last, (group q.m_future (k.begin q.m_future.keys)).getLast? = some last ∧
      find q.m_future (k.begin q.m_future.keys) last.1 = some last.2 := by
  have hkeys : q.m_future.keys ≠ [] := by
    intro hnil
    have hentries : q.m_future.entries = [] := List.map_eq_nil_iff.1 hnil
    rw [hq.size] at hsize
    unfold Grouped.size at hsize
    rw [hentries] at hsize
    exact absurd hsize (lt_irrefl 0)
  have hmem := k.begin_mem _ hkeys
  rw [← AList.mem_keys, ← AList.lookup_isSome, Option.isSome_iff_exists] at hmem
  obtain ⟨l, hl⟩ := hmem
  have hgroup : group q.m_future (k.begin q.m_future.keys) = l := by
    unfold group
    rw [hl, Option.getD_some]
  have hne : group q.m_future (k.begin q.m_future.keys) ≠ [] := hgroup ▸ hq.tidyFuture.nonempty _ l hl
  refine ⟨_, List.getLast?_eq_some_getLast hne, ?_⟩
  exact (find_eq_some_iff hq.tidyFuture).2 (List.getLast_mem hne)

theorem dropFuture_spec (k : Containers) : ∀ (rounds : ℕ) (q : TransactionQueue), Consistent c q →
    rounds ≤ q.m_futureSize →
    ∃ q', q.dropFuture k rounds = some q' ∧ Forgets c q q' ∧ q'.m_futureSize = q.m_futureSize - rounds := by
  intro rounds
  induction rounds with
  | zero =>
    intro q hq _
    exact ⟨q, rfl, ⟨hq, .refl q, rfl, rfl, rfl, fun _ _ _ h => h⟩, rfl⟩
  | succ rounds ih =>
    intro q hq hrounds
    obtain ⟨last, hlast, hfind⟩ := exists_last_future hq k (by omega)
    have hq₁ := hq.takeFuture hfind
    have hsize : (q.takeFuture (k.begin q.m_future.keys) last.1).m_futureSize = q.m_futureSize - 1 := rfl
    obtain ⟨q', hq', hforgets, hsize'⟩ := ih _ hq₁ (by rw [hsize]; omega)
    refine ⟨q', ?_, ⟨hforgets.consistent, ?_, hforgets.current, hforgets.table, hforgets.byHash, ?_⟩, ?_⟩
    · unfold dropFuture
      dsimp only
      rw [hlast]
      exact hq'
    · have hrules : SameRules q (q.takeFuture (k.begin q.m_future.keys) last.1) := ⟨rfl, rfl, rfl, rfl⟩
      exact hrules.trans hforgets.rules
    · exact fun a n t ht => ((find_takeFuture hq).1 (hforgets.future a n t ht)).2
    · rw [hsize', hsize]
      omega

theorem Forgets.held (h : Forgets c q q') (ht : Held c q' t) : Held c q t := by
  rcases ht with ht | ht
  · exact .inl (h.current ▸ ht)
  · exact .inr (h.future _ _ t ht)

/-- The entries of the sender's future from the next nonce on. -/
def following (c : Crypto) (q : TransactionQueue) (t : Transaction) : List (ℕ × Transaction) :=
  (group q.m_future (t.sender c)).dropWhile fun e => e.1 ≠ (t.nonce.toNat + 1) % 2 ^ 256

/-- The number of transactions that become current. -/
def promotable (c : Crypto) (q : TransactionQueue) (t : Transaction) : ℕ :=
  followers (following c q t) ((t.nonce.toNat + 1) % 2 ^ 256)

/-- The transactions that follow become current, and then the future ones beyond the limit are dropped. -/
theorem makeCurrent_spec (hq : Consistent c q) (k : Containers) (t : Transaction) :
    ∃ q₁ q', q.promote c k (t.sender c) (following c q t) ((t.nonce.toNat + 1) % 2 ^ 256) = some q₁ ∧
      Promotes c q q₁ ∧ q₁.m_futureSize = q.m_futureSize - promotable c q t ∧
      q₁.dropFuture k (q₁.m_futureSize - q₁.m_futureLimit) = some q' ∧ q.makeCurrent c k t = some q' ∧
      Forgets c q₁ q' ∧ q'.m_futureSize = min q₁.m_futureSize q₁.m_futureLimit := by
  have hsub : (following c q t).Sublist (group q.m_future (t.sender c)) := List.dropWhile_sublist _
  have hasc := hq.tidyFuture.ascending (t.sender c)
  obtain ⟨q₁, hq₁, hpromotes, hsize₁⟩ := promote_spec k (t.sender c) _ ((t.nonce.toNat + 1) % 2 ^ 256) q hq
    ((hasc.imp fun h => h.ne).sublist (hsub.map _))
    fun e he => (find_eq_some_iff hq.tidyFuture).2 (hsub.subset he)
  obtain ⟨q', hq', hforgets, hsize⟩ := dropFuture_spec k (q₁.m_futureSize - q₁.m_futureLimit) q₁
    hpromotes.consistent (Nat.sub_le _ _)
  refine ⟨q₁, q', hq₁, hpromotes, hsize₁, hq', ?_, hforgets, ?_⟩
  · have hfold : q.makeCurrent c k t =
        (q.promote c k (t.sender c) (following c q t) ((t.nonce.toNat + 1) % 2 ^ 256)).bind
          fun q => q.dropFuture k (q.m_futureSize - q.m_futureLimit) := rfl
    rw [hfold, hq₁]
    exact hq'
  · rw [hsize]
    omega

/-! ## A current transaction is removed -/

/-- The queue without a current transaction. -/
def without (c : Crypto) (q : TransactionQueue) (t : Transaction) : TransactionQueue :=
  { q with
    m_currentByAddressAndNonce := Grouped.remove q.m_currentByAddressAndNonce (t.sender c) t.nonce.toNat
    m_current := q.m_current.erase t
    m_currentByHash := q.m_currentByHash.erase (hash c t) }

theorem mem_without (hq : Consistent c q) : t' ∈ (without c q t).m_current ↔ t' ≠ t ∧ t' ∈ q.m_current :=
  hq.nodup.mem_erase_iff

theorem Held.of_without (hq : Consistent c q) (ht : Held c (without c q t) t') : Held c q t' := by
  rcases ht with ht | ht
  · exact .inl ((mem_without hq).1 ht).2
  · exact .inr ht

theorem held_without (hq : Consistent c q) (ht : t ∈ q.m_current) :
    Held c (without c q t) t' ↔ t' ≠ t ∧ Held c q t' := by
  constructor
  · intro hheld
    refine ⟨?_, hheld.of_without hq⟩
    rintro rfl
    rcases hheld with hheld | hheld
    · exact ((mem_without hq).1 hheld).1 rfl
    · have hfuture : find q.m_future (t'.sender c) t'.nonce.toNat = some t' := hheld
      rw [hq.apart t' ht] at hfuture
      cases hfuture
  · rintro ⟨hne, hheld | hheld⟩
    · exact .inl ((mem_without hq).2 ⟨hne, hheld⟩)
    · exact .inr hheld

theorem Consistent.without (hq : Consistent c q) (ht : t ∈ q.m_current) : Consistent c (without c q t) := by
  refine ⟨hq.nodup.erase t, ?_, ?_, hq.future, ?_, ?_, hq.tidy.remove, hq.tidyFuture, hq.size⟩
  · intro h t'
    rw [mem_without hq]
    change (q.m_currentByHash.erase (hash c t)).lookup h = some t' ↔ _
    by_cases hh : h = hash c t
    · subst hh
      rw [AList.lookup_erase]
      constructor
      · intro hnone
        cases hnone
      · rintro ⟨⟨hne, hmem⟩, hhash⟩
        exact absurd (hq.hash_inj t' t (.inl hmem) (.inl ht) hhash) hne
    · rw [AList.lookup_erase_ne hh, hq.byHash]
      constructor
      · rintro ⟨hmem, rfl⟩
        exact ⟨⟨fun heq => hh (heq ▸ rfl), hmem⟩, rfl⟩
      · rintro ⟨⟨-, hmem⟩, hhash⟩
        exact ⟨hmem, hhash⟩
  · intro a n t'
    rw [mem_without hq]
    change find (Grouped.remove q.m_currentByAddressAndNonce _ _) a n = some t' ↔ _
    rw [find_remove hq.tidy, hq.byNonce]
    constructor
    · rintro ⟨hplace, hmem, rfl, rfl⟩
      refine ⟨⟨?_, hmem⟩, rfl, rfl⟩
      rintro rfl
      exact hplace ⟨rfl, rfl⟩
    · rintro ⟨⟨hne, hmem⟩, rfl, rfl⟩
      refine ⟨?_, hmem, rfl, rfl⟩
      rintro ⟨hsender, hnonce⟩
      have h₁ := (hq.byNonce _ _ t).2 ⟨ht, rfl, rfl⟩
      rw [← hsender, ← hnonce, (hq.byNonce _ _ t').2 ⟨hmem, rfl, rfl⟩] at h₁
      exact hne (Option.some.inj h₁)
  · intro t' ht'
    exact hq.apart t' ((mem_without hq).1 ht').2
  · intro t₁ t₂ h₁ h₂ hhash
    exact hq.hash_inj t₁ t₂ (h₁.of_without hq) (h₂.of_without hq) hhash

/-- What is known does not matter to the containers. -/
theorem Consistent.withKnown (hq : Consistent c q) (known dropped : Finset H256) :
    Consistent c { q with m_known := known, m_dropped := dropped } :=
  ⟨hq.nodup, hq.byHash, hq.byNonce, hq.future, hq.apart, hq.hash_inj, hq.tidy, hq.tidyFuture, hq.size⟩

theorem remove_of_mem (hq : Consistent c q) (ht : t ∈ q.m_current) :
    q.remove c (hash c t) = some (true, { without c q t with m_known := q.m_known.erase (hash c t) }) := by
  have hlookup : q.m_currentByHash.lookup (hash c t) = some t := (hq.byHash _ t).2 ⟨ht, rfl⟩
  have hgroup : (q.m_currentByAddressAndNonce.lookup (t.sender c)).isSome = true := by
    rw [← Option.ne_none_iff_isSome]
    intro hnone
    have hnil := (hq.tidy.group_eq_nil_iff).2 hnone
    exact group_ne_nil ((hq.byNonce _ _ t).2 ⟨ht, rfl, rfl⟩) hnil
  unfold TransactionQueue.remove
  rw [hlookup]
  dsimp only
  rw [if_pos ⟨ht, hgroup⟩]
  rfl

theorem remove_of_not (hq : Consistent c q) (hnot : ∀ t ∈ q.m_current, hash c t ≠ h) :
    q.remove c h = some (false, q) := by
  have hlookup : q.m_currentByHash.lookup h = none := by
    rw [Option.eq_none_iff_forall_ne_some]
    intro t ht
    obtain ⟨hmem, hhash⟩ := (hq.byHash h t).1 ht
    exact hnot t hmem hhash
  unfold TransactionQueue.remove
  rw [hlookup]

end TransactionQueue

end Petrachor
