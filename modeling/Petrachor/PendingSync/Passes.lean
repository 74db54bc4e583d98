import Mathlib.Data.List.Perm.Subperm
import Petrachor.PendingSync
import Petrachor.TransactionQueue.Operations

/-!
# The passes over the candidates

A candidate that is executed is not executed again, since its hash is in the set of the block. The counter of a
pass counts what it executes, so that it reaches the number of candidates in a pass that executes all of them, and
only where no pass before has executed any.
-/

namespace Petrachor

namespace Block

open TransactionQueue (hash Sound)

section

variable (w : World) (ask : Block → U256) (lastHashes : Except Exception (List H256))

/-- The block after a transaction that is executed. -/
def succeeds (b : Block) (t : Transaction) : Option Block :=
  if ask b ≤ t.gasPrice then
    match b.execute w lastHashes t .Committed with
    | .ok b => some b
    | .error _ => none
  else none

/-- The block after a transaction that is not executed. -/
def fails (b : Block) (t : Transaction) : Option Block :=
  if ask b ≤ t.gasPrice then
    match b.execute w lastHashes t .Committed with
    | .ok _ => none
    | .error (x, b) => if x = .abort then none else some b
  else some b

/-- After `n` passes, if so many are made. -/
def after (ts : List Transaction) : ℕ → Syncing → Option Syncing
  | 0, s => some s
  | n + 1, s => if s.goodTxs < ts.length then (pass w ask lastHashes ts s).bind (after ts n) else none

end

/-- Transactions have been executed, none of them twice and none that was included before. -/
structure Grows (w : World) (s s' : Syncing) (ts : List Transaction) : Prop where
  sound : Sound w.crypto s'.queue
  transactions : s'.block.m_transactions = s.block.m_transactions ++ ts
  receipts : ∃ rs, rs.length = ts.length ∧ s'.receipts = s.receipts ++ rs ∧
    s'.block.m_receipts = s.block.m_receipts ++ rs
  nodup : (ts.map (hash w.crypto)).Nodup
  fresh : ∀ t ∈ ts, hash w.crypto t ∉ s.block.transactionSet w

variable {w : World} {ask : Block → U256} {lastHashes : Except Exception (List H256)} {b b' : Block}
  {q : TransactionQueue} {s s' s'' : Syncing} {t : Transaction} {ts us vs : List Transaction}

theorem uncommitToSeal_transactions (b : Block) :
    b.uncommitToSeal.m_transactions = b.m_transactions ∧ b.uncommitToSeal.m_receipts = b.m_receipts := by
  unfold uncommitToSeal
  split <;> exact ⟨rfl, rfl⟩

theorem execute_ok (h : b.execute w lastHashes t .Committed = .ok b') :
    b'.m_transactions = b.m_transactions ++ [t] ∧ ∃ r, b'.m_receipts = b.m_receipts ++ [r] := by
  obtain ⟨htransactions, hreceipts⟩ := b.uncommitToSeal_transactions
  unfold execute at h
  split at h
  · cases h
  · dsimp only at h
    split at h
    · cases h
    · rename_i receipt s _
      rw [if_pos rfl] at h
      cases h
      exact ⟨by rw [htransactions], receipt, by rw [hreceipts]⟩

theorem execute_error {x : Exception} (h : b.execute w lastHashes t .Committed = .error (x, b')) :
    b'.m_transactions = b.m_transactions ∧ b'.m_receipts = b.m_receipts := by
  unfold execute at h
  split at h
  · cases h
    exact ⟨rfl, rfl⟩
  · dsimp only at h
    split at h
    · cases h
      exact b.uncommitToSeal_transactions
    · rw [if_pos rfl] at h
      cases h

theorem mem_transactionSet {h : H256} : h ∈ b.transactionSet w ↔ ∃ t ∈ b.m_transactions, hash w.crypto t = h := by
  unfold transactionSet
  rw [List.mem_toFinset, List.mem_map]

theorem Grows.refl (hq : Sound w.crypto s.queue) : Grows w s s [] :=
  ⟨hq, (List.append_nil _).symm, ⟨[], rfl, (List.append_nil _).symm, (List.append_nil _).symm⟩, List.nodup_nil,
    fun _ h => by cases h⟩

theorem Grows.trans (h : Grows w s s' us) (h' : Grows w s' s'' vs) : Grows w s s'' (us ++ vs) := by
  obtain ⟨rs, hlen, hrs, hblock⟩ := h.receipts
  obtain ⟨rs', hlen', hrs', hblock'⟩ := h'.receipts
  refine ⟨h'.sound, ?_, ⟨rs ++ rs', ?_, ?_, ?_⟩, ?_, ?_⟩
  · rw [h'.transactions, h.transactions, List.append_assoc]
  · rw [List.length_append, List.length_append, hlen, hlen']
  · rw [hrs', hrs, List.append_assoc]
  · rw [hblock', hblock, List.append_assoc]
  · rw [List.map_append, List.nodup_append]
    refine ⟨h.nodup, h'.nodup, ?_⟩
    rintro x hx y hy rfl
    obtain ⟨t, ht, rfl⟩ := List.mem_map.1 hx
    obtain ⟨u, hu, heq⟩ := List.mem_map.1 hy
    refine h'.fresh u hu (mem_transactionSet.2 ⟨t, ?_, heq.symm⟩)
    rw [h.transactions]
    exact List.mem_append_right _ ht
  · intro t ht
    rcases List.mem_append.1 ht with ht | ht
    · exact h.fresh t ht
    · intro hmem
      obtain ⟨u, hu, heq⟩ := mem_transactionSet.1 hmem
      refine h'.fresh t ht (mem_transactionSet.2 ⟨u, ?_, heq⟩)
      rw [h.transactions]
      exact List.mem_append_left _ hu

/-! ## One candidate -/

theorem drop_sound (hq : Sound w.crypto q) (h : H256) : ∃ q', q.drop w.crypto h = some q' ∧ Sound w.crypto q' := by
  obtain ⟨q', hq', hf, -⟩ := TransactionQueue.drop_spec (A := fun _ => False) hq h
  exact ⟨q', hq', hf.sound⟩

theorem setFuture_sound (hq : Sound w.crypto q) (h : H256) :
    ∃ q', q.setFuture w.crypto h = some q' ∧ Sound w.crypto q' := by
  obtain ⟨q', hq', hf⟩ := TransactionQueue.step_spec hq .front (.setFuture h)
  exact ⟨q', hq', hf.sound⟩

theorem refuse_sound (hq : Sound w.crypto q) (b : Block) (t : Transaction) {x : Exception} (hx : x ≠ .abort) :
    ∃ q', refuse w b q t x = some q' ∧ Sound w.crypto q' := by
  unfold refuse
  dsimp only
  split
  · exact absurd rfl hx
  · split_ifs
    · exact drop_sound hq _
    · exact drop_sound hq _
    · exact setFuture_sound hq _
  · split_ifs
    · exact drop_sound hq _
    · exact ⟨q, rfl, hq⟩
  · exact drop_sound hq _

theorem attempt_of_mem (h : hash w.crypto t ∈ s.block.transactionSet w) : attempt w ask lastHashes s t = some s := by
  unfold attempt
  rw [if_pos h]

theorem attempt_of_succeeds (hq : Sound w.crypto s.queue) (h : hash w.crypto t ∉ s.block.transactionSet w)
    (hb : succeeds w ask lastHashes s.block t = some b') :
    ∃ s', attempt w ask lastHashes s t = some s' ∧ s'.block = b' ∧ s'.goodTxs = s.goodTxs + 1 ∧ Grows w s s' [t] := by
  unfold succeeds at hb
  by_cases hprice : ask s.block ≤ t.gasPrice
  · rw [if_pos hprice] at hb
    cases hexec : s.block.execute w lastHashes t .Committed with
    | error e =>
      rw [hexec] at hb
      cases hb
    | ok b₁ =>
      rw [hexec] at hb
      obtain rfl : b₁ = b' := Option.some.inj hb
      obtain ⟨htransactions, r, hr⟩ := execute_ok hexec
      unfold attempt
      rw [if_neg h, if_pos hprice, hexec]
      refine ⟨_, rfl, rfl, rfl, hq, htransactions, ⟨[r], rfl, ?_, hr⟩, List.nodup_singleton _, ?_⟩
      · show s.receipts ++ b₁.m_receipts.getLast?.toList = s.receipts ++ [r]
        rw [hr, List.getLast?_concat]
        rfl
      · intro u hu
        rw [List.mem_singleton.1 hu]
        exact h
  · rw [if_neg hprice] at hb
    cases hb

theorem attempt_of_fails (hq : Sound w.crypto s.queue) (h : hash w.crypto t ∉ s.block.transactionSet w)
    (hb : fails w ask lastHashes s.block t = some b') :
    ∃ s', attempt w ask lastHashes s t = some s' ∧ s'.block = b' ∧ s'.goodTxs = s.goodTxs ∧ Grows w s s' [] := by
  unfold fails at hb
  by_cases hprice : ask s.block ≤ t.gasPrice
  · rw [if_pos hprice] at hb
    cases hexec : s.block.execute w lastHashes t .Committed with
    | ok b₁ =>
      rw [hexec] at hb
      cases hb
    | error e =>
      obtain ⟨x, b₁⟩ := e
      rw [hexec] at hb
      dsimp only at hb
      by_cases hx : x = .abort
      · rw [if_pos hx] at hb
        cases hb
      · rw [if_neg hx] at hb
        obtain rfl : b₁ = b' := Option.some.inj hb
        obtain ⟨htransactions, hreceipts⟩ := execute_error hexec
        obtain ⟨q', hq', hsound⟩ := refuse_sound hq b₁ t hx
        unfold attempt
        rw [if_neg h, if_pos hprice, hexec]
        dsimp only
        rw [hq']
        refine ⟨_, rfl, rfl, rfl, hsound, ?_, ⟨[], rfl, (List.append_nil _).symm, ?_⟩, List.nodup_nil,
          fun _ h => by cases h⟩
        · rw [List.append_nil]
          exact htransactions
        · rw [List.append_nil]
          exact hreceipts
  · rw [if_neg hprice] at hb
    obtain rfl : s.block = b' := Option.some.inj hb
    unfold attempt
    rw [if_neg h, if_neg hprice]
    by_cases hcheap : t.gasPrice < ask s.block * 9 / 10
    · obtain ⟨q', hq', hsound⟩ := drop_sound hq (hash w.crypto t)
      rw [if_pos hcheap, hq']
      exact ⟨_, rfl, rfl, rfl, hsound, (List.append_nil _).symm,
        ⟨[], rfl, (List.append_nil _).symm, (List.append_nil _).symm⟩, List.nodup_nil, fun _ h => by cases h⟩
    · rw [if_neg hcheap]
      exact ⟨s, rfl, rfl, rfl, .refl hq⟩

/-- A candidate that is neither executed nor refused ends the process. -/
theorem attempt_eq_none (h : hash w.crypto t ∉ s.block.transactionSet w)
    (hsucceeds : succeeds w ask lastHashes s.block t = none) (hfails : fails w ask lastHashes s.block t = none) :
    attempt w ask lastHashes s t = none := by
  unfold succeeds at hsucceeds
  unfold fails at hfails
  by_cases hprice : ask s.block ≤ t.gasPrice
  · rw [if_pos hprice] at hsucceeds hfails
    cases hexec : s.block.execute w lastHashes t .Committed with
    | ok b₁ =>
      rw [hexec] at hsucceeds
      cases hsucceeds
    | error e =>
      obtain ⟨x, b₁⟩ := e
      rw [hexec] at hfails
      dsimp only at hfails
      by_cases hx : x = .abort
      · subst hx
        unfold attempt
        rw [if_neg h, if_pos hprice, hexec]
        rfl
      · rw [if_neg hx] at hfails
        cases hfails
  · rw [if_neg hprice] at hfails
    cases hfails

theorem attempt_spec (hq : Sound w.crypto s.queue) (h : attempt w ask lastHashes s t = some s') :
    (s'.goodTxs = s.goodTxs + 1 ∧ succeeds w ask lastHashes s.block t = some s'.block ∧ Grows w s s' [t]) ∨
      (s'.goodTxs = s.goodTxs ∧ Grows w s s' [] ∧
        (hash w.crypto t ∈ s.block.transactionSet w ∨ fails w ask lastHashes s.block t = some s'.block)) := by
  by_cases hmem : hash w.crypto t ∈ s.block.transactionSet w
  · obtain rfl : s = s' := Option.some.inj ((attempt_of_mem hmem).symm.trans h)
    exact .inr ⟨rfl, .refl hq, .inl hmem⟩
  · cases hsucceeds : succeeds w ask lastHashes s.block t with
    | some b' =>
      obtain ⟨s₁, hs₁, hblock, hgood, hgrows⟩ := attempt_of_succeeds hq hmem hsucceeds
      obtain rfl : s₁ = s' := Option.some.inj (hs₁.symm.trans h)
      exact .inl ⟨hgood, by rw [hblock], hgrows⟩
    | none =>
      cases hfails : fails w ask lastHashes s.block t with
      | some b' =>
        obtain ⟨s₁, hs₁, hblock, hgood, hgrows⟩ := attempt_of_fails hq hmem hfails
        obtain rfl : s₁ = s' := Option.some.inj (hs₁.symm.trans h)
        exact .inr ⟨hgood, hgrows, .inr (by rw [hblock])⟩
      | none =>
        rw [attempt_eq_none hmem hsucceeds hfails] at h
        cases h

/-! ## A pass -/

theorem attempts_spec : ∀ (ts : List Transaction) (s s' : Syncing), Sound w.crypto s.queue →
    ts.foldlM (attempt w ask lastHashes) s = some s' →
    ∃ us, us.Sublist ts ∧ Grows w s s' us ∧ s'.goodTxs = s.goodTxs + us.length := by
  intro ts
  induction ts with
  | nil =>
    intro s s' hq h
    obtain rfl : s = s' := Option.some.inj h
    exact ⟨[], List.Sublist.refl _, .refl hq, rfl⟩
  | cons t ts ih =>
    intro s s' hq h
    rw [List.foldlM_cons] at h
    obtain ⟨s₁, hs₁, h⟩ := Option.bind_eq_some_iff.1 h
    rcases attempt_spec hq hs₁ with ⟨hgood, -, hgrows⟩ | ⟨hgood, hgrows, -⟩
    · obtain ⟨us, hsub, hrest, hcount⟩ := ih s₁ s' hgrows.sound h
      refine ⟨t :: us, hsub.cons_cons t, hgrows.trans hrest, ?_⟩
      rw [hcount, hgood, List.length_cons]
      omega
    · obtain ⟨us, hsub, hrest, hcount⟩ := ih s₁ s' hgrows.sound h
      exact ⟨us, hsub.cons t, hgrows.trans hrest, by rw [hcount, hgood]⟩

/-- The candidates are not included and differ in their hashes. -/
def Fresh (w : World) (b : Block) (ts : List Transaction) : Prop :=
  (ts.map (hash w.crypto)).Nodup ∧ ∀ t ∈ ts, hash w.crypto t ∉ b.transactionSet w

theorem Fresh.tail (h : Fresh w s.block (t :: ts)) (hgrows : Grows w s s' us) (hus : ∀ u ∈ us, u = t) :
    Fresh w s'.block ts := by
  obtain ⟨hnodup, hfresh⟩ := h
  rw [List.map_cons, List.nodup_cons] at hnodup
  refine ⟨hnodup.2, ?_⟩
  intro u hu hmem
  obtain ⟨v, hv, heq⟩ := mem_transactionSet.1 hmem
  rw [hgrows.transactions, List.mem_append] at hv
  rcases hv with hv | hv
  · exact hfresh u (List.mem_cons_of_mem _ hu) (mem_transactionSet.2 ⟨v, hv, heq⟩)
  · rw [hus v hv] at heq
    exact hnodup.1 (List.mem_map.2 ⟨u, hu, heq.symm⟩)

/-- The counter reaches the number of candidates exactly if each is executed. -/
theorem attempts_all : ∀ (ts : List Transaction) (s : Syncing), Sound w.crypto s.queue → Fresh w s.block ts →
    ((∃ s', ts.foldlM (attempt w ask lastHashes) s = some s' ∧ s.goodTxs + ts.length ≤ s'.goodTxs) ↔
      (ts.foldlM (succeeds w ask lastHashes) s.block).isSome) := by
  intro ts
  induction ts with
  | nil =>
    intro s _ _
    exact iff_of_true ⟨s, rfl, le_rfl⟩ rfl
  | cons t ts ih =>
    intro s hq hfresh
    rw [List.foldlM_cons, List.foldlM_cons]
    constructor
    · rintro ⟨s', h, hcount⟩
      obtain ⟨s₁, hs₁, h⟩ := Option.bind_eq_some_iff.1 h
      rw [List.length_cons] at hcount
      rcases attempt_spec hq hs₁ with ⟨hgood, hsucceeds, hgrows⟩ | ⟨hgood, hgrows, -⟩
      · rw [hsucceeds]
        refine (ih s₁ hgrows.sound (hfresh.tail hgrows fun u hu => List.mem_singleton.1 hu)).1 ⟨s', h, ?_⟩
        omega
      · obtain ⟨us, hsub, -, hrest⟩ := attempts_spec ts s₁ s' hgrows.sound h
        have hle := hsub.length_le
        omega
    · intro h
      obtain ⟨b', h⟩ := Option.isSome_iff_exists.1 h
      obtain ⟨b₁, hb₁, h⟩ := Option.bind_eq_some_iff.1 h
      obtain ⟨s₁, hs₁, rfl, hgood, hgrows⟩ := attempt_of_succeeds hq (hfresh.2 t List.mem_cons_self) hb₁
      obtain ⟨s', hs', hcount⟩ := (ih s₁ hgrows.sound (hfresh.tail hgrows fun u hu => List.mem_singleton.1 hu)).2
        (Option.isSome_iff_exists.2 ⟨b', h⟩)
      refine ⟨s', Option.bind_eq_some_iff.2 ⟨s₁, hs₁, hs'⟩, ?_⟩
      rw [List.length_cons]
      omega

/-- The counter stays exactly if none is. -/
theorem attempts_none : ∀ (ts : List Transaction) (s : Syncing) (b' : Block), Sound w.crypto s.queue →
    Fresh w s.block ts →
    ((∃ s', ts.foldlM (attempt w ask lastHashes) s = some s' ∧ s'.goodTxs = s.goodTxs ∧ s'.block = b') ↔
      ts.foldlM (fails w ask lastHashes) s.block = some b') := by
  intro ts
  induction ts with
  | nil =>
    intro s b' _ _
    constructor
    · rintro ⟨s', h, -, rfl⟩
      obtain rfl : s = s' := Option.some.inj h
      rfl
    · intro h
      exact ⟨s, rfl, rfl, Option.some.inj h⟩
  | cons t ts ih =>
    intro s b' hq hfresh
    have hmem := hfresh.2 t List.mem_cons_self
    rw [List.foldlM_cons, List.foldlM_cons]
    constructor
    · rintro ⟨s', h, hcount, hblock⟩
      obtain ⟨s₁, hs₁, h⟩ := Option.bind_eq_some_iff.1 h
      rcases attempt_spec hq hs₁ with ⟨hgood, -, hgrows⟩ | ⟨hgood, hgrows, hfails⟩
      · obtain ⟨us, -, -, hrest⟩ := attempts_spec ts s₁ s' hgrows.sound h
        omega
      · rw [hfails.resolve_left hmem]
        refine (ih s₁ b' hgrows.sound (hfresh.tail hgrows fun u hu => by cases hu)).1 ⟨s', h, ?_, hblock⟩
        omega
    · intro h
      obtain ⟨b₁, hb₁, h⟩ := Option.bind_eq_some_iff.1 h
      obtain ⟨s₁, hs₁, rfl, hgood, hgrows⟩ := attempt_of_fails hq hmem hb₁
      obtain ⟨s', hs', hcount, hblock⟩ := (ih s₁ b' hgrows.sound (hfresh.tail hgrows fun u hu => by cases hu)).2 h
      exact ⟨s', Option.bind_eq_some_iff.2 ⟨s₁, hs₁, hs'⟩, hcount.trans hgood, hblock⟩

theorem pass_spec (hq : Sound w.crypto s.queue) (h : pass w ask lastHashes ts s = some s') :
    ∃ us, us.Sublist ts ∧ Grows w s s' us ∧ s'.goodTxs = us.length := by
  obtain ⟨us, hsub, hgrows, hcount⟩ := attempts_spec ts { s with goodTxs := 0 } s' hq h
  exact ⟨us, hsub, ⟨hgrows.sound, hgrows.transactions, hgrows.receipts, hgrows.nodup, hgrows.fresh⟩,
    hcount.trans (Nat.zero_add _)⟩

theorem pass_all (hq : Sound w.crypto s.queue) (hfresh : Fresh w s.block ts) :
    (∃ s', pass w ask lastHashes ts s = some s' ∧ ts.length ≤ s'.goodTxs) ↔
      (ts.foldlM (succeeds w ask lastHashes) s.block).isSome := by
  unfold pass
  rw [← attempts_all ts { s with goodTxs := 0 } hq hfresh, Nat.zero_add]

theorem pass_none (hq : Sound w.crypto s.queue) (hfresh : Fresh w s.block ts) :
    (∃ s', pass w ask lastHashes ts s = some s' ∧ s'.goodTxs = 0 ∧ s'.block = b') ↔
      ts.foldlM (fails w ask lastHashes) s.block = some b' :=
  attempts_none ts { s with goodTxs := 0 } b' hq hfresh

/-! ## The passes together -/

theorem after_spec : ∀ (n : ℕ) (s s' : Syncing), Sound w.crypto s.queue → after w ask lastHashes ts n s = some s' →
    ∃ us, us ⊆ ts ∧ Grows w s s' us := by
  intro n
  induction n with
  | zero =>
    intro s s' hq h
    obtain rfl : s = s' := Option.some.inj h
    exact ⟨[], List.nil_subset _, .refl hq⟩
  | succ n ih =>
    intro s s' hq h
    unfold after at h
    split at h
    · obtain ⟨s₁, hs₁, h⟩ := Option.bind_eq_some_iff.1 h
      obtain ⟨us, hsub, hgrows, -⟩ := pass_spec hq hs₁
      obtain ⟨vs, hvs, hrest⟩ := ih s₁ s' hgrows.sound h
      exact ⟨us ++ vs, List.append_subset.2 ⟨hsub.subset, hvs⟩, hgrows.trans hrest⟩
    · cases h

/-- Where some candidates are included, a pass cannot execute as many as there are. -/
theorem pass_lt (hgrows : Grows w s s' us) (hus : us ⊆ ts) (hne : us ≠ [])
    (h : pass w ask lastHashes ts s' = some s'') : s''.goodTxs < ts.length := by
  obtain ⟨vs, hvs, hrest, hcount⟩ := pass_spec hgrows.sound h
  have hnodup : (us ++ vs).Nodup := List.Nodup.of_map _ (hgrows.trans hrest).nodup
  have hle : (us ++ vs).length ≤ ts.length := (hnodup.subperm (List.append_subset.2 ⟨hus, hvs.subset⟩)).length_le
  have hpos := List.length_pos_iff.2 hne
  rw [List.length_append] at hle
  omega

theorem after_lt : ∀ (n : ℕ) (s' s'' : Syncing) (us : List Transaction), Grows w s s' us → us ⊆ ts → us ≠ [] →
    after w ask lastHashes ts (n + 1) s' = some s'' → s''.goodTxs < ts.length := by
  intro n
  induction n with
  | zero =>
    intro s' s'' us hgrows hus hne h
    unfold after at h
    split at h
    · obtain ⟨s₁, hs₁, h⟩ := Option.bind_eq_some_iff.1 h
      obtain rfl : s₁ = s'' := Option.some.inj h
      exact pass_lt hgrows hus hne hs₁
    · cases h
  | succ n ih =>
    intro s' s'' us hgrows hus hne h
    unfold after at h
    split at h
    · obtain ⟨s₁, hs₁, h⟩ := Option.bind_eq_some_iff.1 h
      obtain ⟨vs, hvs, hrest, -⟩ := pass_spec hgrows.sound hs₁
      exact ih s₁ s'' (us ++ vs) (hgrows.trans hrest) (List.append_subset.2 ⟨hus, hvs.subset⟩)
        (fun hnil => hne (List.append_eq_nil_iff.1 hnil).1) h
    · cases h

/-- The loop returns before the deadline where the counter has reached the number of candidates. -/
theorem passes_replicate (more : Bool) : ∀ (n : ℕ) (s : Syncing),
    (passes w ask lastHashes ts more (List.replicate n false) s).isSome ↔
      ∃ m ≤ n, ∃ s', after w ask lastHashes ts m s = some s' ∧ ts.length ≤ s'.goodTxs := by
  intro n
  induction n with
  | zero =>
    intro s
    rw [List.replicate_zero, passes]
    by_cases hrun : s.goodTxs < ts.length
    · rw [if_pos hrun]
      refine iff_of_false (by simp) ?_
      rintro ⟨m, hm, s', h, hle⟩
      obtain rfl : m = 0 := Nat.le_zero.1 hm
      obtain rfl : s = s' := Option.some.inj h
      omega
    · rw [if_neg hrun]
      exact iff_of_true rfl ⟨0, le_rfl, s, rfl, not_lt.1 hrun⟩
  | succ n ih =>
    intro s
    rw [List.replicate_succ, passes]
    by_cases hrun : s.goodTxs < ts.length
    · rw [if_pos hrun]
      cases hpass : pass w ask lastHashes ts s with
      | none =>
        refine iff_of_false (fun h => by cases h) ?_
        rintro ⟨m, hm, s', h, hle⟩
        cases m with
        | zero =>
          obtain rfl : s = s' := Option.some.inj h
          omega
        | succ m =>
          rw [after, if_pos hrun, hpass] at h
          cases h
      | some s₁ =>
        have hstep : ∀ m, after w ask lastHashes ts (m + 1) s = after w ask lastHashes ts m s₁ := by
          intro m
          rw [after, if_pos hrun, hpass]
          rfl
        refine (ih s₁).trans ?_
        constructor
        · rintro ⟨m, hm, s', h, hle⟩
          exact ⟨m + 1, by omega, s', (hstep m).trans h, hle⟩
        · rintro ⟨m, hm, s', h, hle⟩
          cases m with
          | zero =>
            obtain rfl : s = s' := Option.some.inj h
            omega
          | succ m => exact ⟨m, by omega, s', (hstep m).symm.trans h, hle⟩
    · rw [if_neg hrun]
      exact iff_of_true rfl ⟨0, Nat.zero_le _, s, rfl, not_lt.1 hrun⟩

end Block

end Petrachor
