import Petrachor.Client
import Petrachor.PendingSync.Progress
import Petrachor.Lib.PartialRun

/-!
# Announcing what is new in the working block

New receipts are counted from the first one of a call, the transactions of the block from the first one of the block.
They belong together only if the block was empty before the call, or nothing is new.
-/

namespace Petrachor

namespace Block

open TransactionQueue (hash Sound)

/-- None of the candidates is executed in the passes that the clock allows. -/
def Fruitless (w : World) (ask : Block → U256) (lastHashes : Except Exception (List H256)) (ts : List Transaction) :
    List Bool → Block → Prop
  | [], _ => True
  | late :: clock, b => ∃ b', ts.foldlM (fails w ask lastHashes) b = some b' ∧
      (late = true ∨ Fruitless w ask lastHashes ts clock b')

variable {w : World} {ask : Block → U256} {lastHashes : Except Exception (List H256)} {b : Block}
  {s s' : Syncing} {ts us : List Transaction} {more more' : Bool}

theorem fruitless_nil : ∀ (clock : List Bool) (b : Block), Fruitless w ask lastHashes [] clock b
  | [], _ => trivial
  | _ :: clock, b => ⟨b, rfl, .inr (fruitless_nil clock b)⟩

theorem passes_of_done (hdone : ts.length ≤ s.goodTxs) (clock : List Bool) :
    passes w ask lastHashes ts more clock s = some (s, more) := by
  cases clock <;> rw [passes, if_neg (not_lt.2 hdone)]

theorem passes_spec : ∀ (clock : List Bool) (s : Syncing), Sound w.crypto s.queue →
    passes w ask lastHashes ts more clock s = some (s', more') → ∃ us, Grows w s s' us := by
  intro clock
  induction clock with
  | nil =>
    intro s hq h
    rw [passes] at h
    split at h
    · cases h
    · obtain rfl : s = s' := congrArg Prod.fst (Option.some.inj h)
      exact ⟨[], .refl hq⟩
  | cons late clock ih =>
    intro s hq h
    rw [passes] at h
    split at h
    · obtain ⟨s₁, hs₁, h⟩ := Option.bind_eq_some_iff.1 h
      obtain ⟨us, -, hgrows, -⟩ := pass_spec hq hs₁
      cases late with
      | true =>
        obtain rfl : s₁ = s' := congrArg Prod.fst (Option.some.inj h)
        exact ⟨us, hgrows⟩
      | false =>
        obtain ⟨vs, hrest⟩ := ih s₁ hgrows.sound h
        exact ⟨us ++ vs, hgrows.trans hrest⟩
    · obtain rfl : s = s' := congrArg Prod.fst (Option.some.inj h)
      exact ⟨[], .refl hq⟩

/-- Nothing is executed exactly if all passes are fruitless. -/
theorem fruitless_iff : ∀ (clock : List Bool) (s : Syncing), Sound w.crypto s.queue → Fresh w s.block ts →
    s.goodTxs < ts.length → passes w ask lastHashes ts more clock s = some (s', more') →
    (s'.block.m_transactions = s.block.m_transactions ↔ Fruitless w ask lastHashes ts clock s.block) := by
  intro clock
  induction clock with
  | nil =>
    intro s _ _ hrun h
    rw [passes, if_pos hrun] at h
    cases h
  | cons late clock ih =>
    intro s hq hfresh hrun h
    rw [passes, if_pos hrun] at h
    obtain ⟨s₁, hs₁, h⟩ := Option.bind_eq_some_iff.1 h
    obtain ⟨us, -, hgrows, hcount⟩ := pass_spec hq hs₁
    have hmore : ∃ vs, Grows w s₁ s' vs := by
      cases late with
      | true =>
        obtain rfl : s₁ = s' := congrArg Prod.fst (Option.some.inj h)
        exact ⟨[], .refl hgrows.sound⟩
      | false => exact passes_spec clock s₁ hgrows.sound h
    obtain ⟨vs, hrest⟩ := hmore
    by_cases hnil : us = []
    · subst hnil
      have hfails := (pass_none hq hfresh).1 ⟨s₁, hs₁, hcount, rfl⟩
      have hsame : s₁.block.m_transactions = s.block.m_transactions := by
        rw [hgrows.transactions, List.append_nil]
      unfold Fruitless
      cases late with
      | true =>
        obtain rfl : s₁ = s' := congrArg Prod.fst (Option.some.inj h)
        exact iff_of_true hsame ⟨s₁.block, hfails, .inl rfl⟩
      | false =>
        have hrun₁ : s₁.goodTxs < ts.length := by
          rw [hcount]
          exact Nat.zero_lt_of_lt hrun
        rw [← hsame, ih s₁ hgrows.sound (fresh_of_grows hfresh hgrows) hrun₁ h]
        constructor
        · intro hclock
          exact ⟨s₁.block, hfails, .inr hclock⟩
        · rintro ⟨b', hb', hlate | hclock⟩
          · cases hlate
          · obtain rfl : s₁.block = b' := Option.some.inj (hfails.symm.trans hb')
            exact hclock
    · refine iff_of_false ?_ ?_
      · rw [(hgrows.trans hrest).transactions]
        intro heq
        have hempty := List.append_right_eq_self.1 heq
        exact hnil (List.append_eq_nil_iff.1 hempty).1
      · rintro ⟨b', hb', -⟩
        obtain ⟨s₂, hs₂, hzero, -⟩ := (pass_none hq hfresh).2 hb'
        obtain rfl : s₁ = s₂ := Option.some.inj (hs₁.symm.trans hs₂)
        exact hnil (List.length_eq_zero_iff.1 (hcount.symm.trans hzero))

end Block

namespace Client

open TransactionQueue (hash Sound)

section

variable (w : World) (ask : Block → U256)

/-- What the call adds to the working block is announced once, each receipt with the hash of its transaction; other
events announce nothing. -/
def Right (cl : Client) : Event → Client → Prop
  | .syncTransactionQueue k now _, cl' => ∃ cl₁, cl.resyncStateFromChain w k now = some cl₁ ∧
      ∃ ts rs, rs.length = ts.length ∧ cl'.m_working.m_transactions = cl₁.m_working.m_transactions ++ ts ∧
        cl'.m_working.m_receipts = cl₁.m_working.m_receipts ++ rs ∧
        cl'.m_pendingChanged = cl.m_pendingChanged ++ rs.zip (ts.map (hash w.crypto))
  | _, cl' => cl'.m_pendingChanged = cl.m_pendingChanged

/-- On the head of the chain the working block is sealed or has no transactions, or no candidate is executed. -/
def Fitting (cl : Client) : Event → Prop
  | .syncTransactionQueue k now clock => ∀ cl₁, cl.resyncStateFromChain w k now = some cl₁ →
      cl₁.m_working.isSealed ∨ cl₁.m_working.m_transactions = [] ∨
        Block.Fruitless w ask (cl₁.bc.lastBlockHashes w cl₁.m_working.m_currentBlock.parentHash)
          (cl₁.m_working.candidates w cl₁.m_tq) clock cl₁.m_working
  | _ => True

end

variable {w : World} {ask : Block → U256} {cl cl' cl₁ : Client} {k : TransactionQueue.Containers} {now : ℤ}
  {clock : List Bool}

/-! ## The queue stays sound -/

theorem resubmit_sound : ∀ (ts : List Transaction) (q q' : TransactionQueue), Sound w.crypto q →
    resubmit w k ts q = some q' → Sound w.crypto q' := by
  intro ts
  induction ts with
  | nil =>
    intro q q' hq h
    exact Option.some.inj h ▸ hq
  | cons t ts ih =>
    intro q q' hq h
    unfold resubmit at h
    rw [List.foldlM_cons] at h
    obtain ⟨q₁, hq₁, h⟩ := Option.bind_eq_some_iff.1 h
    obtain ⟨r, q₂, hr, hf, -⟩ := TransactionQueue.importTransaction_spec hq k t .Retry
    rw [hr] at hq₁
    obtain rfl : q₂ = q₁ := Option.some.inj hq₁
    exact ih q₂ q' hf.sound h

theorem moveTo_spec {b : Block} (hq : Sound w.crypto cl.m_tq) (h : cl.moveTo w k b = some cl') :
    Sound w.crypto cl'.m_tq ∧ cl'.m_pendingChanged = cl.m_pendingChanged := by
  unfold moveTo at h
  obtain ⟨q, hq', h⟩ := Option.bind_eq_some_iff.1 h
  obtain rfl := Option.some.inj h
  refine ⟨?_, rfl⟩
  dsimp only at hq'
  split at hq'
  · exact resubmit_sound _ _ q hq hq'
  · exact Option.some.inj hq' ▸ hq

theorem resync_spec (hq : Sound w.crypto cl.m_tq) (h : cl.resyncStateFromChain w k now = some cl') :
    Sound w.crypto cl'.m_tq ∧ cl'.m_pendingChanged = cl.m_pendingChanged := by
  unfold resyncStateFromChain at h
  dsimp only at h
  split at h
  · exact Option.some.inj h ▸ ⟨hq, rfl⟩
  · split at h
    · split at h
      · exact moveTo_spec hq h
      · exact Option.some.inj h ▸ ⟨hq, rfl⟩
    · cases h

theorem dropGoods_sound : ∀ (ts : List Transaction) (q q' : TransactionQueue), Sound w.crypto q →
    ts.foldlM (fun q t => q.dropGood w.crypto k t) q = some q' → Sound w.crypto q' := by
  intro ts
  induction ts with
  | nil =>
    intro q q' hq h
    exact Option.some.inj h ▸ hq
  | cons t ts ih =>
    intro q q' hq h
    rw [List.foldlM_cons] at h
    obtain ⟨q₁, hq₁, h⟩ := Option.bind_eq_some_iff.1 h
    obtain ⟨q₂, q₃, -, hq₃, hf₂, hf₃, -⟩ := TransactionQueue.dropGood_spec (A := fun _ => False) hq k t
    obtain rfl : q₃ = q₁ := Option.some.inj (hq₃.symm.trans hq₁)
    exact ih q₃ q' hf₃.sound h

/-! ## A call -/

/-- The call leaves a sealed block alone. Else the working block has grown by some transactions. -/
theorem fillWorking_spec (hq : Sound w.crypto cl.m_tq) (h : cl.fillWorking w ask clock = some cl') :
    (cl.m_working.isSealed = true ∧ cl' = cl) ∨
      (cl.m_working.isSealed = false ∧ ∃ s ts, Block.Grows w (.start w cl.m_working cl.m_tq) s ts ∧
        (ts = [] ↔ Block.Fruitless w ask (cl.bc.lastBlockHashes w cl.m_working.m_currentBlock.parentHash)
          (cl.m_working.candidates w cl.m_tq) clock cl.m_working) ∧
        cl' = ({ cl with m_working := s.block, m_tq := s.queue } : Client).announce w s.receipts) := by
  unfold fillWorking at h
  cases hsealed : cl.m_working.isSealed with
  | true =>
    rw [hsealed, if_pos rfl] at h
    exact .inl ⟨rfl, (Option.some.inj h).symm⟩
  | false =>
    have hopen : ∀ lastHashes, cl.m_working.syncQueue w ask lastHashes cl.m_tq clock =
        .ok (Block.passes w ask lastHashes (cl.m_working.candidates w cl.m_tq)
          ((cl.m_working.candidates w cl.m_tq).length = c_maxSyncTransactions) clock
          (.start w cl.m_working cl.m_tq)) := by
      intro lastHashes
      unfold Block.syncQueue
      rw [throwIf_neg (by rw [hsealed]; exact Bool.false_ne_true)]
      rfl
    rw [hsealed, if_neg Bool.false_ne_true, hopen] at h
    cases hpasses : Block.passes w ask (cl.bc.lastBlockHashes w cl.m_working.m_currentBlock.parentHash)
        (cl.m_working.candidates w cl.m_tq) ((cl.m_working.candidates w cl.m_tq).length = c_maxSyncTransactions) clock
        (.start w cl.m_working cl.m_tq) with
    | none =>
      rw [hpasses] at h
      cases h
    | some r =>
      obtain ⟨s, more⟩ := r
      rw [hpasses] at h
      obtain ⟨ts, hgrows⟩ := Block.passes_spec clock (.start w cl.m_working cl.m_tq) hq hpasses
      have hnil : ts = [] ↔ s.block.m_transactions = cl.m_working.m_transactions := by
        rw [hgrows.transactions]
        exact List.append_right_eq_self.symm
      refine .inr ⟨rfl, s, ts, hgrows, ?_, (Option.some.inj h).symm⟩
      rw [hnil]
      by_cases hnone : cl.m_working.candidates w cl.m_tq = []
      · rw [hnone] at hpasses ⊢
        refine iff_of_true ?_ (Block.fruitless_nil clock _)
        rw [Block.passes_of_done (Nat.zero_le _)] at hpasses
        have hstart := congrArg Prod.fst (Option.some.inj hpasses)
        exact congrArg (fun s : Block.Syncing => s.block.m_transactions) hstart.symm
      · have hrun : (Block.Syncing.start w cl.m_working cl.m_tq).goodTxs <
            (cl.m_working.candidates w cl.m_tq).length :=
          Nat.sub_lt (List.length_pos_iff.2 hnone) Nat.one_pos
        exact Block.fruitless_iff clock (.start w cl.m_working cl.m_tq) hq
          (Block.fresh_candidates hq cl.m_working) hrun hpasses

theorem announce_nil : cl.announce w [] = cl := by
  unfold announce
  rw [if_pos rfl]

theorem announce_cons {rs : List TransactionReceipt} (hrs : rs ≠ []) :
    (cl.announce w rs).m_pendingChanged = cl.m_pendingChanged ++
      List.zipWith (fun r t => (r, hash w.crypto t)) rs cl.m_working.m_transactions := by
  unfold announce
  rw [if_neg hrs]
  rfl

theorem announce_frame (cl : Client) (rs : List TransactionReceipt) :
    (cl.announce w rs).m_working = cl.m_working ∧ (cl.announce w rs).m_tq = cl.m_tq := by
  unfold announce
  split <;> exact ⟨rfl, rfl⟩

/-- The first new receipt goes with the first transaction of the block, and only a new one has its hash. -/
theorem zip_iff {old ts : List Transaction} {rs : List TransactionReceipt} (hlen : rs.length = ts.length)
    (hrs : rs ≠ [])
    (hfresh : ∀ t ∈ ts, ∀ u ∈ old, hash w.crypto u ≠ hash w.crypto t) :
    List.zipWith (fun r t => (r, hash w.crypto t)) rs (old ++ ts) = rs.zip (ts.map (hash w.crypto)) ↔ old = [] := by
  constructor
  · intro heq
    cases rs with
    | nil => exact absurd rfl hrs
    | cons r rs =>
      cases ts with
      | nil => cases hlen
      | cons t ts =>
        cases old with
        | nil => rfl
        | cons u old =>
          rw [List.cons_append, List.zipWith_cons_cons, List.map_cons, List.zip_cons_cons] at heq
          have hhash := congrArg Prod.snd (List.cons.inj heq).1
          exact absurd hhash (hfresh t List.mem_cons_self u List.mem_cons_self)
  · rintro rfl
    rw [List.nil_append, List.zip_map_right, List.zip, List.map_zipWith]
    rfl

theorem right_iff (hq : Sound w.crypto cl.m_tq) (h : cl.syncTransactionQueue w ask k now clock = some cl') :
    Right w cl (.syncTransactionQueue k now clock) cl' ↔ Fitting w ask cl (.syncTransactionQueue k now clock) := by
  obtain ⟨cl₁, hcl₁, h⟩ := Option.bind_eq_some_iff.1 h
  obtain ⟨hq₁, hpending⟩ := resync_spec hq hcl₁
  have honly : ∀ cl₂, cl.resyncStateFromChain w k now = some cl₂ → cl₂ = cl₁ :=
    fun cl₂ hcl₂ => Option.some.inj (hcl₂.symm.trans hcl₁)
  rcases fillWorking_spec hq₁ h with ⟨hsealed, rfl⟩ | ⟨hopen, s, ts, hgrows, hnil, rfl⟩
  · refine iff_of_true ⟨cl', hcl₁, [], [], rfl, (List.append_nil _).symm, (List.append_nil _).symm, ?_⟩ ?_
    · rw [hpending]
      exact (List.append_nil _).symm
    · intro cl₂ hcl₂
      rw [honly cl₂ hcl₂]
      exact .inl hsealed
  · obtain ⟨rs, hlen, hrs, hreceipts⟩ := hgrows.receipts
    have hrs : s.receipts = rs := hrs
    have htransactions : s.block.m_transactions = cl₁.m_working.m_transactions ++ ts := hgrows.transactions
    obtain ⟨hworking, -⟩ := announce_frame (w := w) { cl₁ with m_working := s.block, m_tq := s.queue } s.receipts
    rw [hrs] at hworking ⊢
    by_cases hempty : rs = []
    · obtain rfl : ts = [] := List.length_eq_zero_iff.1 (by rw [← hlen, hempty]; rfl)
      subst hempty
      rw [announce_nil]
      refine iff_of_true ⟨cl₁, hcl₁, [], [], rfl, htransactions, hreceipts, ?_⟩ ?_
      · show cl₁.m_pendingChanged = _
        rw [hpending]
        exact (List.append_nil _).symm
      · intro cl₂ hcl₂
        rw [honly cl₂ hcl₂]
        exact .inr (.inr (hnil.1 rfl))
    · have hfresh : ∀ t ∈ ts, ∀ u ∈ cl₁.m_working.m_transactions, hash w.crypto u ≠ hash w.crypto t :=
        fun t ht u hu hhash => hgrows.fresh t ht (Block.mem_transactionSet.2 ⟨u, hu, hhash⟩)
      have hzip := zip_iff hlen hempty hfresh
      have hts : ts ≠ [] := fun hts => hempty (List.length_eq_zero_iff.1 (by rw [hlen, hts]; rfl))
      have hchanged : ({ cl₁ with m_working := s.block, m_tq := s.queue }.announce w rs).m_pendingChanged =
          cl.m_pendingChanged ++
            List.zipWith (fun r t => (r, hash w.crypto t)) rs (cl₁.m_working.m_transactions ++ ts) := by
        rw [announce_cons hempty, ← hpending, ← htransactions]
      dsimp only at hworking
      constructor
      · rintro ⟨cl₂, hcl₂, ts', rs', -, hts', hrs', hright⟩
        obtain rfl := honly cl₂ hcl₂
        rw [hworking, htransactions] at hts'
        rw [hworking] at hrs'
        obtain rfl := List.append_cancel_left hts'
        obtain rfl : rs = rs' := List.append_cancel_left (hreceipts.symm.trans hrs')
        have hold := hzip.1 (List.append_cancel_left (hchanged.symm.trans hright))
        intro cl₃ hcl₃
        rw [honly cl₃ hcl₃]
        exact .inr (.inl hold)
      · intro hfitting
        refine ⟨cl₁, hcl₁, ts, rs, hlen, ?_, ?_, ?_⟩
        · rw [hworking]
          exact htransactions
        · rw [hworking]
          exact hreceipts
        · rw [hchanged]
          rcases hfitting cl₁ hcl₁ with hsealed | hold | hfruitless
          · rw [hopen] at hsealed
            cases hsealed
          · rw [hzip.2 hold]
          · exact absurd (hnil.2 hfruitless) hts

/-! ## Runs -/

theorem step_sound {e : Event} (hq : Sound w.crypto cl.m_tq) (h : cl.step w ask e = some cl') :
    Sound w.crypto cl'.m_tq := by
  cases e with
  | syncTransactionQueue k now clock =>
    obtain ⟨cl₁, hcl₁, h⟩ := Option.bind_eq_some_iff.1 h
    obtain ⟨hq₁, -⟩ := resync_spec hq hcl₁
    rcases fillWorking_spec hq₁ h with ⟨-, rfl⟩ | ⟨-, s, ts, hgrows, -, rfl⟩
    · exact hq₁
    · rw [(announce_frame _ s.receipts).2]
      exact hgrows.sound
  | onChainChanged k now bc dead good isMajorSyncing =>
    obtain ⟨q₁, hq₁, h⟩ := Option.bind_eq_some_iff.1 h
    obtain ⟨q₂, hq₂, h⟩ := Option.bind_eq_some_iff.1 h
    have hsound : Sound w.crypto q₂ := dropGoods_sound good q₁ q₂ (resubmit_sound dead cl.m_tq q₁ hq hq₁) hq₂
    cases isMajorSyncing with
    | true =>
      obtain rfl := Option.some.inj h
      exact hsound
    | false => exact (resync_spec hsound h).1
  | queue k o =>
    obtain ⟨q₁, hq₁, h⟩ := Option.bind_eq_some_iff.1 h
    obtain rfl := Option.some.inj h
    obtain ⟨q₂, hq₂, hf⟩ := TransactionQueue.step_spec hq k o
    obtain rfl : q₂ = q₁ := Option.some.inj (hq₂.symm.trans hq₁)
    exact hf.sound

theorem step_right_iff {e : Event} (hq : Sound w.crypto cl.m_tq) :
    (∀ cl', cl.step w ask e = some cl' → Right w cl e cl') ↔ ((cl.step w ask e).isSome → Fitting w ask cl e) := by
  cases e with
  | syncTransactionQueue k now clock =>
    constructor
    · intro hright hsome
      obtain ⟨cl', hcl'⟩ := Option.isSome_iff_exists.1 hsome
      exact (right_iff hq hcl').1 (hright cl' hcl')
    · intro hfitting cl' hcl'
      exact (right_iff hq hcl').2 (hfitting (Option.isSome_iff_exists.2 ⟨cl', hcl'⟩))
  | onChainChanged k now bc dead good isMajorSyncing =>
    refine iff_of_true ?_ fun _ => trivial
    intro cl' h
    obtain ⟨q₁, hq₁, h⟩ := Option.bind_eq_some_iff.1 h
    obtain ⟨q₂, hq₂, h⟩ := Option.bind_eq_some_iff.1 h
    have hsound : Sound w.crypto q₂ := dropGoods_sound good q₁ q₂ (resubmit_sound dead cl.m_tq q₁ hq hq₁) hq₂
    cases isMajorSyncing with
    | true =>
      obtain rfl := Option.some.inj h
      exact rfl
    | false =>
      have hq₂ : Sound w.crypto ({ cl with bc, m_tq := q₂ } : Client).m_tq := hsound
      exact (resync_spec hq₂ h).2
  | queue k o =>
    refine iff_of_true ?_ fun _ => trivial
    intro cl' h
    obtain ⟨q₁, hq₁, h⟩ := Option.bind_eq_some_iff.1 h
    obtain rfl := Option.some.inj h
    exact rfl

/-- In a run from a new queue each call announces what is new rightly, if and only if each call that returns finds the
working block sealed or empty, or executes nothing. -/
theorem announced_iff (w : World) (ask : Block → U256) (limit futureLimit : ℕ) (bc : BlockChain)
    (preSeal working postSeal : Block) (es : List Event) :
    PartialRun.Along (fun cl e => step w ask cl e) (fun cl e => ∀ cl', cl.step w ask e = some cl' → Right w cl e cl')
        ⟨bc, .empty limit futureLimit, preSeal, working, postSeal, []⟩ es ↔
      PartialRun.Along (fun cl e => step w ask cl e) (fun cl e => (cl.step w ask e).isSome → Fitting w ask cl e)
        ⟨bc, .empty limit futureLimit, preSeal, working, postSeal, []⟩ es :=
  PartialRun.along_congr (I := fun cl => Sound w.crypto cl.m_tq) (fun _ _ _ hq h => step_sound hq h)
    (fun _ _ hq => step_right_iff hq) (TransactionQueue.sound_empty limit futureLimit)

/-! ## Two calls -/

open TransactionQueue (checksum transfer)

/-- The development network with hashes that are sums of bytes. -/
def summed : World := { Devnet.world with crypto := checksum }

/-- A block on the head of the chain. -/
def onHead : Block :=
  { Block.new summed 0 with
    m_currentBlock := { BlockHeader.clear checksum with gasLimit := 100000, parentHash := Devnet.genesis.currentHash } }

/-- The first transaction of a sender is executed, and the second one is imported. -/
def oneByOne : List Event :=
  [.queue .front (.importTransaction (transfer 1 0 0) .Ignore), .syncTransactionQueue .front 0 [false],
    .queue .front (.importTransaction (transfer 1 1 0) .Ignore)]

def onDevnet : Client := ⟨Devnet.genesis, .empty 1024 1024, onHead, onHead, onHead, []⟩

/-- The receipt of the second transaction is announced with the hash of the first one. -/
theorem first_hash_again : ∃ cl cl', onDevnet.run summed (fun _ => 0) oneByOne = some cl ∧
    cl.syncTransactionQueue summed (fun _ => 0) .front 0 [false] = some cl' ∧
    cl'.m_working.m_transactions = [transfer 1 0 0, transfer 1 1 0] ∧
    cl'.m_pendingChanged.map Prod.snd = [hash checksum (transfer 1 0 0), hash checksum (transfer 1 0 0)] ∧
    ¬Right summed cl (.syncTransactionQueue .front 0 [false]) cl' := by
  have hresync : (onDevnet.run summed (fun _ => 0) oneByOne).map
      (fun cl => (cl.resyncStateFromChain summed .front 0).map fun cl => cl.m_working.m_transactions) =
        some (some [transfer 1 0 0]) := by decide +kernel
  have hpending : (onDevnet.run summed (fun _ => 0) oneByOne).map (fun cl => cl.m_pendingChanged.map Prod.snd) =
      some [hash checksum (transfer 1 0 0)] := by decide +kernel
  have hcall : (onDevnet.run summed (fun _ => 0) oneByOne).map (fun cl =>
      (cl.syncTransactionQueue summed (fun _ => 0) .front 0 [false]).map fun cl =>
        (cl.m_working.m_transactions, cl.m_pendingChanged.map Prod.snd)) =
      some (some ([transfer 1 0 0, transfer 1 1 0],
        [hash checksum (transfer 1 0 0), hash checksum (transfer 1 0 0)])) := by decide +kernel
  have hne : hash checksum (transfer 1 0 0) ≠ hash checksum (transfer 1 1 0) := by decide +kernel
  cases hcl : onDevnet.run summed (fun _ => 0) oneByOne with
  | none =>
    rw [hcl] at hpending
    cases hpending
  | some cl =>
    rw [hcl] at hresync hpending hcall
    obtain ⟨cl', hcl', hvalues⟩ := Option.map_eq_some_iff.1 (Option.some.inj hcall)
    obtain ⟨htransactions, hhashes⟩ := Prod.mk.inj hvalues
    refine ⟨cl, cl', rfl, hcl', htransactions, hhashes, ?_⟩
    rintro ⟨cl₁, hcl₁, ts, rs, hlen, hts, -, hright⟩
    rw [Option.map_some, hcl₁] at hresync
    have hold : cl₁.m_working.m_transactions = [transfer 1 0 0] := Option.some.inj (Option.some.inj hresync)
    rw [htransactions, hold] at hts
    obtain rfl : [transfer 1 1 0] = ts := (List.cons.inj hts).2
    have hbefore : cl.m_pendingChanged.map Prod.snd = [hash checksum (transfer 1 0 0)] := Option.some.inj hpending
    have hsnd := congrArg (List.map Prod.snd) hright
    rw [hhashes, List.map_append, hbefore, List.map_snd_zip (by rw [List.length_map, hlen])] at hsnd
    exact hne (List.cons.inj (List.cons.inj hsnd).2).1

end Client

end Petrachor
