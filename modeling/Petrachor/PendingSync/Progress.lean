import Petrachor.PendingSync.Passes
import Petrachor.Devnet
import Petrachor.TransactionQueue.Known

/-!
# Progress of the passes

Executed candidates are passed over in later passes, but the counter is held against the number of all of them: the
loop ends before the deadline only if one of the first two passes executes them all.
-/

namespace Petrachor

namespace Block

open TransactionQueue (hash Sound)

section

variable (w : World) (ask : Block → U256) (lastHashes : Except Exception (List H256)) (b : Block) (q : TransactionQueue)

/-- Every pass behind the first one executes a candidate, the loop ends within one pass more than there are
candidates though the deadline is not crossed, and no transaction is executed twice. -/
structure MakesProgress : Prop where
  executes : ∀ n s, 2 ≤ n → after w ask lastHashes (b.candidates w q) n (.start w b q) = some s → 0 < s.goodTxs
  ends : ∃ n ≤ (b.candidates w q).length + 1, ∀ more,
    (passes w ask lastHashes (b.candidates w q) more (List.replicate n false) (.start w b q)).isSome
  once : ∀ n s, after w ask lastHashes (b.candidates w q) n (.start w b q) = some s →
    ∃ ts ⊆ b.candidates w q, s.block.m_transactions = b.m_transactions ++ ts ∧ (ts.map (hash w.crypto)).Nodup ∧
      ∀ t ∈ ts, hash w.crypto t ∉ b.transactionSet w

/-- Each of the transactions is executed, on the block behind the one before it. -/
def AllSucceed (ts : List Transaction) : Prop := (ts.foldlM (succeeds w ask lastHashes) b).isSome

end

variable {w : World} {ask : Block → U256} {lastHashes : Except Exception (List H256)} {b b' : Block}
  {q : TransactionQueue} {s s' : Syncing} {t : Transaction} {ts us : List Transaction}

theorem fresh_candidates (hq : Sound w.crypto q) (b : Block) : Fresh w b (b.candidates w q) := by
  have hsub : (b.candidates w q).Sublist q.m_current := (List.take_sublist _ _).trans List.filter_sublist
  constructor
  · refine List.Nodup.map_on ?_ (hq.consistent.nodup.sublist hsub)
    intro t ht u hu hhash
    exact hq.consistent.hash_inj t u (.inl (hsub.subset ht)) (.inl (hsub.subset hu)) hhash
  · intro t ht
    exact of_decide_eq_true (List.mem_filter.1 (List.mem_of_mem_take ht)).2

theorem fresh_of_grows (h : Fresh w s.block ts) (hgrows : Grows w s s' []) : Fresh w s'.block ts := by
  have hset : s'.block.transactionSet w = s.block.transactionSet w := by
    unfold transactionSet
    rw [hgrows.transactions, List.append_nil]
  exact ⟨h.1, fun t ht => hset ▸ h.2 t ht⟩

theorem after_succ (hrun : s.goodTxs < ts.length) (h : pass w ask lastHashes ts s = some s') (n : ℕ) :
    after w ask lastHashes ts (n + 1) s = after w ask lastHashes ts n s' := by
  rw [after, if_pos hrun, h]
  rfl

theorem after_of_done (hdone : ts.length ≤ s.goodTxs) {n : ℕ} (hn : 0 < n) : after w ask lastHashes ts n s = none := by
  obtain ⟨n, rfl⟩ := Nat.exists_eq_add_of_lt hn
  rw [Nat.zero_add, after, if_neg (not_lt.2 hdone)]

theorem once_candidates (hq : Sound w.crypto q) {n : ℕ}
    (h : after w ask lastHashes (b.candidates w q) n (.start w b q) = some s) :
    ∃ ts ⊆ b.candidates w q, s.block.m_transactions = b.m_transactions ++ ts ∧ (ts.map (hash w.crypto)).Nodup ∧
      ∀ t ∈ ts, hash w.crypto t ∉ b.transactionSet w := by
  obtain ⟨ts, hts, hgrows⟩ := after_spec n (.start w b q) s hq h
  exact ⟨ts, hts, hgrows.transactions, hgrows.nodup, hgrows.fresh⟩

/-- A loop that ends has executed nothing before the pass that executes all. -/
theorem succeed_of_progress (hq : Sound w.crypto q) (h : MakesProgress w ask lastHashes b q) :
    AllSucceed w ask lastHashes b (b.candidates w q) ∨
      ∃ b₁, (b.candidates w q).foldlM (fails w ask lastHashes) b = some b₁ ∧
        AllSucceed w ask lastHashes b₁ (b.candidates w q) := by
  have hfresh := fresh_candidates hq b
  obtain ⟨n, -, hn⟩ := h.ends
  obtain ⟨m, -, s, hs, hdone⟩ := (passes_replicate false n _).1 (hn false)
  cases m with
  | zero =>
    obtain rfl : Syncing.start w b q = s := Option.some.inj hs
    have hlen : (b.candidates w q).length ≤ (b.candidates w q).length - 1 := hdone
    have hnil : b.candidates w q = [] := List.length_eq_zero_iff.1 (by omega)
    rw [hnil]
    exact .inl rfl
  | succ m =>
    have hrun : (Syncing.start w b q).goodTxs < (b.candidates w q).length := by
      by_contra hrun
      rw [after_of_done (not_lt.1 hrun) (Nat.succ_pos m)] at hs
      cases hs
    cases hpass : pass w ask lastHashes (b.candidates w q) (.start w b q) with
    | none =>
      rw [after, if_pos hrun, hpass] at hs
      cases hs
    | some s₁ =>
      rw [after_succ hrun hpass] at hs
      obtain ⟨us, hus, hgrows, hcount⟩ := pass_spec hq hpass
      cases m with
      | zero =>
        obtain rfl : s₁ = s := Option.some.inj hs
        exact .inl ((pass_all hq hfresh).1 ⟨s₁, hpass, hdone⟩)
      | succ m =>
        by_cases hnil : us = []
        · subst hnil
          have hfails := (pass_none hq hfresh).1 ⟨s₁, hpass, hcount, rfl⟩
          have hfresh₁ : Fresh w s₁.block (b.candidates w q) := fresh_of_grows hfresh hgrows
          have hrun₁ : s₁.goodTxs < (b.candidates w q).length := by
            rw [hcount]
            exact Nat.zero_lt_of_lt hrun
          refine .inr ⟨s₁.block, hfails, ?_⟩
          cases hpass₁ : pass w ask lastHashes (b.candidates w q) s₁ with
          | none =>
            rw [after, if_pos hrun₁, hpass₁] at hs
            cases hs
          | some s₂ =>
            rw [after_succ hrun₁ hpass₁] at hs
            obtain ⟨vs, hvs, hgrows₁, hcount₁⟩ := pass_spec hgrows.sound hpass₁
            cases m with
            | zero =>
              obtain rfl : s₂ = s := Option.some.inj hs
              exact (pass_all hgrows.sound hfresh₁).1 ⟨s₂, hpass₁, hdone⟩
            | succ m =>
              have htwo : after w ask lastHashes (b.candidates w q) 2 (.start w b q) = some s₂ := by
                rw [after_succ hrun hpass, after_succ hrun₁ hpass₁]
                rfl
              have hpos := h.executes 2 s₂ le_rfl htwo
              have hne : vs ≠ [] := List.length_pos_iff.1 (hcount₁ ▸ hpos)
              have hlt := after_lt m s₂ s vs hgrows₁ hvs.subset hne hs
              omega
        · have hlt := after_lt m s₁ s us hgrows hus.subset hnil hs
          omega

theorem progress_of_succeed (hq : Sound w.crypto q)
    (h : AllSucceed w ask lastHashes b (b.candidates w q) ∨
      ∃ b₁, (b.candidates w q).foldlM (fails w ask lastHashes) b = some b₁ ∧
        AllSucceed w ask lastHashes b₁ (b.candidates w q)) : MakesProgress w ask lastHashes b q := by
  have hfresh := fresh_candidates hq b
  by_cases hnil : b.candidates w q = []
  · have hdone : (b.candidates w q).length ≤ (Syncing.start w b q).goodTxs := by
      rw [hnil]
      exact Nat.zero_le _
    refine ⟨?_, ⟨0, Nat.zero_le _, fun more => (passes_replicate more 0 _).2 ⟨0, le_rfl, _, rfl, hdone⟩⟩,
      fun n s => once_candidates hq⟩
    intro n s hn hs
    rw [after_of_done hdone (by omega)] at hs
    cases hs
  · have hpos := List.length_pos_iff.2 hnil
    have hrun : (Syncing.start w b q).goodTxs < (b.candidates w q).length := Nat.sub_lt hpos Nat.one_pos
    rcases h with hall | ⟨b₁, hfails, hall⟩
    · obtain ⟨s₁, hpass, hdone⟩ := (pass_all (s := .start w b q) hq hfresh).2 hall
      refine ⟨?_, ⟨1, by omega, fun more =>
        (passes_replicate more 1 _).2 ⟨1, le_rfl, s₁, after_succ hrun hpass 0, hdone⟩⟩,
        fun n s => once_candidates hq⟩
      intro n s hn hs
      obtain ⟨n, rfl⟩ := Nat.exists_eq_add_of_le' hn
      rw [after_succ hrun hpass, after_of_done hdone (Nat.succ_pos n)] at hs
      cases hs
    · obtain ⟨s₁, hpass, hcount, rfl⟩ := (pass_none (s := .start w b q) hq hfresh).2 hfails
      obtain ⟨us, -, hgrows, hlen⟩ := pass_spec hq hpass
      obtain rfl : us = [] := List.length_eq_zero_iff.1 (hlen.symm.trans hcount)
      have hrun₁ : s₁.goodTxs < (b.candidates w q).length := hcount ▸ hpos
      obtain ⟨s₂, hpass₁, hdone⟩ := (pass_all hgrows.sound (fresh_of_grows hfresh hgrows)).2 hall
      have htwo : after w ask lastHashes (b.candidates w q) 2 (.start w b q) = some s₂ := by
        rw [after_succ hrun hpass, after_succ hrun₁ hpass₁]
        rfl
      refine ⟨?_, ⟨2, by omega, fun more => (passes_replicate more 2 _).2 ⟨2, le_rfl, s₂, htwo, hdone⟩⟩,
        fun n s => once_candidates hq⟩
      intro n s hn hs
      obtain ⟨n, rfl⟩ := Nat.exists_eq_add_of_le' hn
      rw [after_succ hrun hpass, after_succ hrun₁ hpass₁] at hs
      cases n with
      | zero =>
        obtain rfl : s₂ = s := Option.some.inj hs
        omega
      | succ n =>
        rw [after_of_done hdone (Nat.succ_pos n)] at hs
        cases hs

/-- In every state of the queue the loop makes progress if and only if the first pass executes all candidates, or none
and the second pass all of them. -/
theorem progress_iff (w : World) (limit futureLimit : ℕ)
    (os : List (TransactionQueue.Containers × TransactionQueue.Op)) :
    ∃ q, (TransactionQueue.empty limit futureLimit).run w.crypto os = some q ∧ ∀ ask lastHashes b,
      MakesProgress w ask lastHashes b q ↔
        AllSucceed w ask lastHashes b (b.candidates w q) ∨
          ∃ b₁, (b.candidates w q).foldlM (fails w ask lastHashes) b = some b₁ ∧
            AllSucceed w ask lastHashes b₁ (b.candidates w q) := by
  obtain ⟨q, hq, hf⟩ := TransactionQueue.run_spec os _ (TransactionQueue.sound_empty (c := w.crypto) limit futureLimit)
  exact ⟨q, hq, fun ask lastHashes b => ⟨succeed_of_progress hf.sound, progress_of_succeed hf.sound⟩⟩

/-- The only candidate is below the price that is asked: it is dropped in the first pass, and nothing is executed in
this one and the next. -/
theorem cheap_no_progress :
    let os : List (TransactionQueue.Containers × TransactionQueue.Op) :=
      [(.front, .importTransaction (TransactionQueue.transfer 1 0 1) .Ignore)]
    ∃ q, (TransactionQueue.empty 1024 1024).run Devnet.world.crypto os = some q ∧
      (new Devnet.world 0).candidates Devnet.world q = [TransactionQueue.transfer 1 0 1] ∧
      ¬MakesProgress Devnet.world (fun _ => 10) (.ok []) (new Devnet.world 0) q := by
  intro os
  obtain ⟨q, hq, hf⟩ := TransactionQueue.run_spec os _
    (TransactionQueue.sound_empty (c := Devnet.world.crypto) 1024 1024)
  have hcandidates : ((TransactionQueue.empty 1024 1024).run Devnet.world.crypto os).map
      ((new Devnet.world 0).candidates Devnet.world) = some [TransactionQueue.transfer 1 0 1] := by decide +kernel
  rw [hq] at hcandidates
  have hts := Option.some.inj hcandidates
  refine ⟨q, hq, hts, ?_⟩
  intro h
  have hnone : ∀ b : Block, ¬AllSucceed Devnet.world (fun _ => 10) (.ok []) b [TransactionQueue.transfer 1 0 1] := by
    intro b hb
    unfold AllSucceed at hb
    rw [List.foldlM_cons, succeeds, if_neg (by decide)] at hb
    cases hb
  have hcases := succeed_of_progress hf.sound h
  rw [hts] at hcases
  rcases hcases with hall | ⟨b₁, -, hall⟩
  · exact hnone _ hall
  · exact hnone b₁ hall

end Block

end Petrachor
