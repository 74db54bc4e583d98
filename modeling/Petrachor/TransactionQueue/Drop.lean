import Petrachor.TransactionQueue.Known

/-!
# What is dropped from the transaction queue

A transaction that is dropped should not come back unless it is imported again. Dropping looks for it among the
current transactions only: a future one stays, and comes back when the one before it has been mined.
-/

namespace Petrachor

namespace TransactionQueue

open Grouped

section

variable (c : Crypto)

/-- No run without an import of the transaction brings it to the top. -/
def Gone (q : TransactionQueue) (h : H256) : Prop :=
  ∀ os q', q.run c os = some q' → (∀ o ∈ os, ∀ t, Op.Adds o.2 t → hash c t ≠ h) →
    ∀ limit avoid, ∀ t ∈ q'.topTransactions c limit avoid, hash c t ≠ h

/-- No future transaction has the hash. -/
def NotFuture (q : TransactionQueue) (h : H256) : Prop := ∀ a n t, find q.m_future a n = some t → hash c t ≠ h

/-- The transaction comes before the other one. -/
structure Precedes (y x : Transaction) : Prop where
  sender : y.sender c = x.sender c
  nonce : (y.nonce.toNat + 1) % 2 ^ 256 = x.nonce.toNat
  hash : hash c y ≠ hash c x

/-- A transaction that was future when it was dropped comes back. -/
def Returns (q q' : TransactionQueue) (h : H256) : Prop :=
  ∀ a n x y, find q.m_future a n = some x → hash c x = h → Precedes c y x → ¬Gone c q' h

end

variable {c : Crypto} {k : Containers} {q q' q₁ : TransactionQueue} {t x y : Transaction} {a : Address} {n : ℕ}
    {h : H256}

theorem gone_of_absent (hq : Sound c q) (habsent : ∀ t, Held c q t → hash c t ≠ h) : Gone c q h := by
  intro os q' hq' hadds limit avoid t ht
  obtain ⟨q₁, hq₁, hf⟩ := run_spec os q hq
  obtain rfl : q₁ = q' := Option.some.inj (hq₁.symm.trans hq')
  have hmem : t ∈ q₁.m_current := (List.mem_filter.1 (List.mem_of_mem_take ht)).1
  rcases hf.held t (.inl hmem) with ht | ⟨o, ho, hadd⟩
  · exact habsent t ht
  · exact hadds o ho t hadd

theorem remove_future (hq : Consistent c q) {b : Bool} (hq' : q.remove c h = some (b, q')) :
    q'.m_future = q.m_future := by
  by_cases hex : ∃ t ∈ q.m_current, hash c t = h
  · obtain ⟨t, ht, rfl⟩ := hex
    rw [remove_of_mem hq ht] at hq'
    obtain rfl : _ = q' := congrArg Prod.snd (Option.some.inj hq')
    rfl
  · rw [remove_of_not hq fun x hx hhash => hex ⟨x, hx, hhash⟩] at hq'
    obtain rfl : q = q' := congrArg Prod.snd (Option.some.inj hq')
    rfl

theorem drop_future (hq : Consistent c q) (hq' : q.drop c h = some q') : q'.m_future = q.m_future := by
  unfold drop at hq'
  by_cases hknown : h ∈ q.m_known
  · rw [if_neg (not_not.2 hknown)] at hq'
    obtain ⟨r, hr, heq⟩ := Option.bind_eq_some_iff.1 hq'
    obtain rfl : r.2 = q' := Option.some.inj heq
    exact remove_future (q := { q with m_dropped := insert h q.m_dropped }) (hq.withKnown _ _) hr
  · rw [if_pos hknown] at hq'
    rw [Option.some.inj hq']

theorem dropGood_future (hq₁ : Consistent c q₁) (hmake : q.makeCurrent c k t = some q₁)
    (hq' : q.dropGood c k t = some q') : q'.m_future = q₁.m_future := by
  rcases dropGood_cases hmake hq' with rfl | ⟨b, hr⟩
  · rfl
  · exact remove_future hq₁ hr

/-- A drop took the current transaction, and none was future. -/
theorem gone_of_notFuture (hq : NotFuture c q h) (hq' : Sound c q') (hfuture : q'.m_future = q.m_future)
    (hcurrent : ∀ x ∈ q'.m_current, hash c x ≠ h) : Gone c q' h := by
  apply gone_of_absent hq'
  rintro t (ht | ht)
  · exact hcurrent t ht
  · rw [hfuture] at ht
    exact hq _ _ t ht

/-- Where the one before it is dropped as mined, a future transaction becomes current. -/
theorem mem_makeCurrent (hq : Consistent c q) (k : Containers) (hx : find q.m_future a n = some x)
    (hy : Precedes c y x) (hq' : q.makeCurrent c k y = some q') : x ∈ q'.m_current := by
  obtain ⟨q₁, q₂, hpromote, -, -, -, hq₂, hforgets, -⟩ := makeCurrent_spec hq k y
  obtain rfl : q₂ = q' := Option.some.inj (hq₂.symm.trans hq')
  obtain ⟨rfl, rfl⟩ := hq.future a n x hx
  have hasc := hq.tidyFuture.ascending (x.sender c)
  obtain ⟨l, hl⟩ := hasc.dropWhile_ne ((find_eq_some_iff hq.tidyFuture).1 hx)
  have hfollowing : following c q y = (x.nonce.toNat, x) :: l := by
    unfold following
    rw [hy.sender, hy.nonce]
    exact hl
  have hsub : ((x.nonce.toNat, x) :: l).Sublist (group q.m_future (x.sender c)) := hl ▸ List.dropWhile_sublist _
  have hnodup := (hasc.imp fun h => h.ne).sublist (hsub.map Prod.fst)
  obtain ⟨i, hi, hcons⟩ := hq.promote_step k hx
  obtain ⟨q₃, hq₃, hpromotes, -⟩ := promote_spec k (x.sender c) l ((x.nonce.toNat + 1) % 2 ^ 256) _ hcons
    (List.nodup_cons.1 hnodup).2 (by
      intro e he
      refine (find_takeFuture hq).2 ⟨?_, (find_eq_some_iff hq.tidyFuture).2 (hsub.subset (List.mem_cons_of_mem _ he))⟩
      rintro ⟨-, hn⟩
      exact (List.nodup_cons.1 hnodup).1 (List.mem_map.2 ⟨e, he, hn⟩))
  rw [hfollowing, hy.nonce, hy.sender, promote, if_pos rfl, hi] at hpromote
  obtain rfl : q₃ = q₁ := Option.some.inj (hq₃.symm.trans hpromote)
  rw [hforgets.current]
  exact hpromotes.current x (mem_entered.2 (.inl rfl))

/-- It stays current, since another hash is removed. -/
theorem not_gone (hq : Sound c q) (hx : find q.m_future a n = some x) (hy : Precedes c y x) : ¬Gone c q (hash c x) := by
  intro hgone
  obtain ⟨q₁, q', hmake, hq', hf₁, -, -⟩ := dropGood_spec (A := fun _ => False) hq .front y
  have hmem₁ : x ∈ q₁.m_current := mem_makeCurrent hq.consistent .front hx hy hmake
  have hmem : x ∈ q'.m_current := by
    rcases dropGood_cases hmake hq' with rfl | ⟨b, hr⟩
    · exact hmem₁
    · by_cases hex : ∃ t ∈ q₁.m_current, hash c t = hash c y
      · obtain ⟨t, ht, hhash⟩ := hex
        rw [← hhash, remove_of_mem hf₁.sound.consistent ht] at hr
        obtain rfl : _ = q' := congrArg Prod.snd (Option.some.inj hr)
        refine (mem_without hf₁.sound.consistent).2 ⟨?_, hmem₁⟩
        rintro rfl
        exact hy.hash hhash.symm
      · rw [remove_of_not hf₁.sound.consistent fun t ht hhash => hex ⟨t, ht, hhash⟩] at hr
        obtain rfl : q₁ = q' := congrArg Prod.snd (Option.some.inj hr)
        exact hmem₁
  have hrun : q.run c [(.front, .dropGood y)] = some q' := by
    rw [run, show q.step c .front (.dropGood y) = some q' from hq']
    rfl
  have hadds : ∀ o ∈ [((.front : Containers), Op.dropGood y)], ∀ t, Op.Adds o.2 t → hash c t ≠ hash c x := by
    intro o ho t ht
    rw [List.mem_singleton.1 ho] at ht
    exact ht.elim
  have htop : x ∈ q'.topTransactions c q'.m_current.length ∅ := by
    unfold topTransactions
    rw [List.filter_eq_self.2 fun t _ => decide_eq_true (Finset.notMem_empty _), List.take_length]
    exact hmem
  exact hgone _ q' hrun hadds _ ∅ x htop rfl

theorem returns_of_future (hq' : Sound c q') (hfuture : q'.m_future = q.m_future) : Returns c q q' h := by
  rintro a n x y hx rfl hy
  exact not_gone hq' (hfuture ▸ hx) hy

/-- In every state that is reached, a transaction that is dropped is gone if it was not future when it was to be
removed, which `dropGood` does after the promotion; otherwise it returns. -/
theorem drop_final (c : Crypto) (limit futureLimit : ℕ) (os : List (Containers × Op)) :
    ∃ q, (empty limit futureLimit).run c os = some q ∧
      (∀ h, ∃ q', q.drop c h = some q' ∧ (NotFuture c q h → Gone c q' h) ∧ Returns c q q' h) ∧
      ∀ k t, t.sha3 c .WithSignature = .ok (hash c t) →
        ∃ q₁ q', q.makeCurrent c k t = some q₁ ∧ q.dropGood c k t = some q' ∧
          (NotFuture c q₁ (hash c t) → Gone c q' (hash c t)) ∧ Returns c q₁ q' (hash c t) := by
  obtain ⟨q, hq, hf⟩ := run_spec os _ (sound_empty (c := c) limit futureLimit)
  refine ⟨q, hq, ?_, ?_⟩
  · intro h
    obtain ⟨q', hq', hf', hcurrent⟩ := drop_spec (A := fun _ => False) hf.sound h
    have hfuture := drop_future hf.sound.consistent hq'
    exact ⟨q', hq', fun hnot => gone_of_notFuture hnot hf'.sound hfuture hcurrent, returns_of_future hf'.sound hfuture⟩
  · intro k t ht
    obtain ⟨q₁, q', hmake, hq', hf₁, hf', hcurrent⟩ := dropGood_spec (A := fun _ => False) hf.sound k t
    have hfuture := dropGood_future hf₁.sound.consistent hmake hq'
    exact ⟨q₁, q', hmake, hq', fun hnot => gone_of_notFuture hnot hf'.sound hfuture (hcurrent ht),
      returns_of_future hf'.sound hfuture⟩

/-- A transaction is set future and dropped; when the one before it has been mined it is at the top. -/
theorem dropped_returns :
    let os : List (Containers × Op) := [(.front, .importTransaction (transfer 1 1 1) .Ignore),
      (.front, .setFuture (hash checksum (transfer 1 1 1))), (.front, .drop (hash checksum (transfer 1 1 1))),
      (.front, .dropGood (transfer 1 0 1))]
    ∃ q, (empty 1024 1024).run checksum os = some q ∧ q.topTransactions checksum 1 ∅ = [transfer 1 1 1] := by
  intro os
  obtain ⟨q, hq, -⟩ := run_spec os _ (sound_empty (c := checksum) 1024 1024)
  have htop : ((empty 1024 1024).run checksum os).map (fun q => q.topTransactions checksum 1 ∅) =
      some [transfer 1 1 1] := by decide +kernel
  rw [hq] at htop
  exact ⟨q, hq, Option.some.inj htop⟩

end TransactionQueue

end Petrachor
