import Petrachor.BlockQueue.Distinct
import Petrachor.BlockQueue.Devnet

/-!
# Syncing the chain with the queue

`sync` imports what the queue hands out, one block after the other. An exception makes a block bad
or, from three of the handlers, is passed over: the `continue` there leaves a loop that is done
once only, so the import is not tried again.
-/

namespace Petrachor

open Intake (Item)

/-- The exceptions after which `sync` goes on to the next block. -/
def Exception.passedOver : Exception → Bool
  | .AlreadyHaveBlock => true
  | .FutureTime => true
  | .TransientError => true
  | _ => false

namespace BlockChain

/-- The blocks that are present in the chain, on whatever branch. -/
def known (w : World) (bc : BlockChain) : Set H256 := {h | bc.isKnown w h false = true}

section

variable {w : World} {bc bc' bc'' : BlockChain}

theorem mem_known {h : H256} :
    h ∈ bc.known w ↔ h = genesisHash w ∨
      (lookup bc.m_blocks bc.blocksDB h).isSome ∧ (lookup bc.m_details bc.detailsDB h).isSome := by
  change bc.isKnown w h false = true ↔ _
  simp [isKnown]

/-! ## What an import adds to it -/

theorem lookup_update_self {K V : Type} [DecidableEq K] (cache db : K → Option V) (k : K) (v : V) :
    (lookup cache (Function.update db k (some v)) k).isSome := by
  unfold lookup
  rw [Function.update_self]
  cases cache k <;> rfl

theorem lookup_update_of_ne {K V : Type} [DecidableEq K] (cache db : K → Option V) {k k' : K}
    (v : Option V) (hk : k' ≠ k) : lookup cache (Function.update db k v) k' = lookup cache db k' := by
  unfold lookup
  rw [Function.update_of_ne hk]

theorem SameTree.known_eq (h : SameTree bc bc') : bc'.known w = bc.known w := by
  ext x
  rw [mem_known, mem_known, h.m_blocks, h.blocksDB, h.m_details, h.detailsDB]

theorem StakeChecked.known_eq {b : BlockRLP} (h : StakeChecked w b bc bc') :
    bc'.known w = bc.known w := by
  obtain ⟨m, u, db, rfl, -⟩ := h
  ext x
  rw [mem_known, mem_known]

theorem known_addChild {p : H256} (hp : p ∈ bc.known w) (c : H256) :
    (bc.addChild p c).known w = bc.known w := by
  ext x
  by_cases hx : x = p
  · subst hx
    simp only [hp, iff_true]
    rw [mem_known] at hp ⊢
    refine hp.imp_right fun h => ⟨h.1, ?_⟩
    simp [addChild, lookup]
  · rw [mem_known, mem_known]
    simp [addChild, lookup, Function.update_of_ne hx]

theorem known_writeBlock {b : BlockRLP} (hp : b.info.parentHash ∈ bc.known w) (hash : H256)
    (d : BlockDetails) (blooms : List LogBloom) (receipts : Bytes) :
    (bc.writeBlock b hash d blooms receipts).known w = Insert.insert hash (bc.known w) := by
  ext x
  rw [Set.mem_insert_iff]
  by_cases hx : x = hash
  · subst hx
    simp only [true_or, iff_true]
    rw [mem_known]
    exact .inr ⟨lookup_update_self _ _ _ _, lookup_update_self _ _ _ _⟩
  · simp only [hx, false_or]
    by_cases hxp : x = b.info.parentHash
    · subst hxp
      simp only [hp, iff_true]
      rw [mem_known] at hp ⊢
      refine hp.imp_right fun h => ⟨?_, ?_⟩
      · exact (congrArg Option.isSome (lookup_update_of_ne _ _ _ hx)).trans h.1
      · exact (congrArg Option.isSome (lookup_update_of_ne _ _ _ hx)).trans (lookup_update_self _ _ _ _)
    · rw [mem_known, mem_known]
      simp only [writeBlock]
      rw [lookup_update_of_ne _ _ _ hx, lookup_update_of_ne _ _ _ hx, lookup_update_of_ne _ _ _ hxp]

theorem known_setHead (bc : BlockChain) (hash : H256) (number : ℕ) :
    (bc.setHead hash number).known w = bc.known w := by
  unfold setHead
  split
  · ext x
    rw [mem_known, mem_known]
  · rfl

/-- The known blocks once a block was taken in, or was not. -/
def grown (hash : H256) (known : Set H256) : Except Exception ImportRoute → Set H256
  | .ok _ => Insert.insert hash known
  | .error _ => known

theorem known_insertBlockAndExtras {vb : VerifiedBlock} (hv : vb.info = vb.block.info)
    (hp : vb.info.parentHash ∈ bc.known w) {receipts : Bytes} {td : U256}
    {r : Except Exception ImportRoute} (h : bc.insertBlockAndExtras w vb receipts td = (r, bc')) :
    bc'.known w = grown (vb.info.hash w.crypto .WithSeal) (bc.known w) r := by
  have hchild := known_addChild hp (vb.info.hash w.crypto .WithSeal)
  have hp' : vb.block.info.parentHash ∈
      (bc.addChild vb.info.parentHash (vb.info.hash w.crypto .WithSeal)).known w := by
    rw [hchild, ← hv]
    exact hp
  unfold insertBlockAndExtras at h
  simp only at h
  split at h
  · cases h
    exact hchild
  · split at h
    · cases h
      exact hchild
    · cases h
      rw [known_writeBlock hp', hchild]
      rfl
    · have hreorg := (sameTree_reorganise (w := w)
        (bc.addChild vb.info.parentHash (vb.info.hash w.crypto .WithSeal)) vb.block).known_eq (w := w)
      split at h
      · rename_i heq
        rw [heq] at hreorg
        cases h
        exact hreorg.trans hchild
      · rename_i heq
        rw [heq] at hreorg
        cases h
        rw [known_setHead, known_writeBlock (by rw [hreorg]; exact hp'), hreorg, hchild]
        rfl

/-- An import makes its block known, or nothing. -/
theorem known_importBlock {vb : VerifiedBlock} (hv : vb.info = vb.block.info) (mustBeNew : Bool)
    (now : ℤ) : (bc.importBlock w vb mustBeNew now).2.known w =
      grown (vb.info.hash w.crypto .WithSeal) (bc.known w) (bc.importBlock w vb mustBeNew now).1 := by
  rcases h : bc.importBlock w vb mustBeNew now with ⟨r, bc'⟩
  simp only
  unfold importBlock at h
  split at h
  · cases h
    rfl
  rename_i hplace
  split at h
  · cases h
    rfl
  have hstake := stakeChecked_touchStake w vb.block bc
  have hsame : (bc.touchStake w vb.block).known w = bc.known w :=
    (hstake (bc.touchStake w vb.block).stateDB).known_eq
  simp only at h
  split at h
  · cases h
    exact hsame
  split at h
  · cases h
    exact hsame
  · cases h
    exact hsame
  split at h
  · cases h
    exact (hstake _).known_eq
  · cases h
    exact (hstake _).known_eq
  · have hp : vb.info.parentHash ∈ bc.known w := by
      unfold checkPlace at hplace
      rw [unit_bind_eq_ok, unit_bind_eq_ok, throwIf_eq_ok] at hplace
      simpa [known] using hplace.2.1
    rw [← (hstake _).known_eq] at hp
    rw [known_insertBlockAndExtras hv hp h, (hstake _).known_eq]

/-! ## A batch -/

/-- The import of one block of a batch. -/
def importStep (w : World) (bc : BlockChain) (b : VerifiedBlock × ℤ) : BlockChain :=
  (bc.importBlock w b.1 true b.2).2

/-- The exception that meets a block is passed over if the block is present in the chain, and only
then. -/
def Kept (w : World) (bc : BlockChain) (b : VerifiedBlock × ℤ) : Prop :=
  ∀ e, (bc.importBlock w b.1 true b.2).1 = .error e →
    (e.passedOver = true ↔ b.1.info.hash w.crypto .WithSeal ∈ bc.known w)

/-- The hashes of a batch. -/
def batchHashes (w : World) (batch : List (VerifiedBlock × ℤ)) : List H256 :=
  batch.map fun b => b.1.info.hash w.crypto .WithSeal

theorem note_eq_ok {acc acc' : SyncResult} {hash : H256} {e : Exception}
    (h : acc.note hash e = .ok acc') :
    acc'.badBlocks = acc.badBlocks ++ (if e.passedOver then [] else [hash]) := by
  cases e <;> simp only [SyncResult.note, Except.ok.injEq, reduceCtorEq] at h <;> subst h <;>
    simp [Exception.passedOver]

/-- What a whole batch comes to: the blocks stay known, only blocks of the batch become so, and each
of them ends either known or bad if and only if every one is kept when its turn comes. -/
theorem syncBlocks_spec (batch : List (VerifiedBlock × ℤ)) :
    ∀ {acc r : SyncResult} {bc bc' : BlockChain}, (∀ b ∈ batch, b.1.info = b.1.block.info) →
      (batchHashes w batch).Nodup → syncBlocks w batch acc bc = (.ok r, bc') →
      bc.known w ⊆ bc'.known w ∧
      (∀ h ∈ bc'.known w, h ∈ bc.known w ∨ h ∈ batchHashes w batch) ∧
      ∃ bad, r.badBlocks = acc.badBlocks ++ bad ∧ bad ⊆ batchHashes w batch ∧
        ((∀ h ∈ batchHashes w batch, h ∈ bc'.known w ↔ h ∉ bad) ↔
          StateRun.Along (importStep w) (Kept w) bc batch) := by
  induction batch with
  | nil =>
    intro acc r bc bc' _ _ h
    cases h
    refine ⟨fun _ h => h, fun _ h => .inl h, [], (List.append_nil _).symm, List.nil_subset _, ?_⟩
    simp [batchHashes, StateRun.Along]
  | cons b rest ih =>
    intro acc r bc bc' hv hn h
    have hgrown : (bc.importBlock w b.1 true b.2).2.known w =
        grown (b.1.info.hash w.crypto .WithSeal) (bc.known w) (bc.importBlock w b.1 true b.2).1 :=
      known_importBlock (hv b List.mem_cons_self) true b.2
    have hrest : ∀ b' ∈ rest, b'.1.info = b'.1.block.info := by
      intro b' hb'
      exact hv b' (List.mem_cons_of_mem _ hb')
    obtain ⟨hk, hn⟩ := List.nodup_cons.1 hn
    change b.1.info.hash w.crypto .WithSeal ∉ batchHashes w rest at hk
    change (batchHashes w rest).Nodup at hn
    have hcons : ∀ P : H256 → Prop, (∀ h ∈ batchHashes w (b :: rest), P h) ↔
        P (b.1.info.hash w.crypto .WithSeal) ∧ ∀ h ∈ batchHashes w rest, P h :=
      fun _ => List.forall_mem_cons
    have hsub : batchHashes w rest ⊆ batchHashes w (b :: rest) := List.subset_cons_self _ _
    have hmem : b.1.info.hash w.crypto .WithSeal ∈ batchHashes w (b :: rest) := List.mem_cons_self
    rw [syncBlocks] at h
    split at h
    · rename_i route bc1 himp
      simp only [himp, grown] at hgrown
      obtain ⟨hle, hnew, bad, hbad, hbs, hiff⟩ := ih hrest hn h
      rw [hgrown] at hle hnew
      refine ⟨fun x hx => hle (Set.mem_insert_of_mem _ hx), fun x hx => ?_, bad, hbad,
        fun x hx => hsub (hbs hx), ?_⟩
      · rcases hnew x hx with (rfl | hx) | hx
        · exact .inr hmem
        · exact .inl hx
        · exact .inr (hsub hx)
      · have hkept : Kept w bc b := by
          intro e he
          rw [himp] at he
          cases he
        have hhead : b.1.info.hash w.crypto .WithSeal ∈ bc'.known w ↔
            b.1.info.hash w.crypto .WithSeal ∉ bad :=
          ⟨fun _ hb => hk (hbs hb), fun _ => hle (Set.mem_insert _ _)⟩
        rw [hcons, hiff, StateRun.Along, importStep, himp]
        exact and_congr (iff_of_true hhead hkept) Iff.rfl
    · rename_i e bc1 himp
      simp only [himp, grown] at hgrown
      split at h
      · rename_i acc1 hnote
        obtain ⟨hle, hnew, bad, hbad, hbs, hiff⟩ := ih hrest hn h
        rw [hgrown] at hle hnew
        have hkept : Kept w bc b ↔
            (e.passedOver = true ↔ b.1.info.hash w.crypto .WithSeal ∈ bc.known w) := by
          constructor
          · intro hK
            exact hK e (by rw [himp])
          · intro hK e' he'
            rw [himp] at he'
            cases he'
            exact hK
        have hhead : b.1.info.hash w.crypto .WithSeal ∈ bc'.known w ↔
            b.1.info.hash w.crypto .WithSeal ∈ bc.known w :=
          ⟨fun hx => (hnew _ hx).resolve_right hk, fun hx => hle hx⟩
        rw [note_eq_ok hnote, List.append_assoc] at hbad
        refine ⟨hle, fun x hx => (hnew x hx).imp_right fun hx => hsub hx, _, hbad, ?_, ?_⟩
        · intro x hx
          rcases List.mem_append.1 hx with hx | hx
          · split at hx
            · cases hx
            · rw [List.mem_singleton.1 hx]
              exact hmem
          · exact hsub (hbs hx)
        · have hothers : ∀ x ∈ batchHashes w rest,
              (x ∉ (if e.passedOver then [] else [b.1.info.hash w.crypto .WithSeal]) ++ bad ↔
                x ∉ bad) := by
            intro x hx
            have hne : x ≠ b.1.info.hash w.crypto .WithSeal := fun heq => hk (heq ▸ hx)
            split <;> simp [hne]
          rw [hcons, hhead, StateRun.Along, importStep, himp, ← hiff, hkept]
          refine and_congr ?_ ?_
          · have hb : b.1.info.hash w.crypto .WithSeal ∉ bad := fun hx => hk (hbs hx)
            cases e.passedOver <;> simp [hb]
          · exact forall₂_congr fun x hx => iff_congr Iff.rfl (hothers x hx)
      · cases h

end

end BlockChain

/-! ## What is drained -/

/-- The hashes of all the blocks in the queue. -/
def BlockQueue.allHashes (c : Crypto) (q : BlockQueue) : List H256 :=
  (q.items c).map Item.name ++ q.m_future.m_map.map fun e => e.2.1

theorem BlockQueue.Thins.allHashes_subset {w : World} {B : QueueBlocks w} {q q' : BlockQueue}
    (h : Thins B q q') : q'.allHashes w.crypto ⊆ q.allHashes w.crypto := by
  unfold allHashes items
  rw [h.future, List.map_append, List.map_append]
  obtain ⟨out, hw, -⟩ := h.thinner.waiting
  intro x hx
  rcases List.mem_append.1 hx with hx | hx
  · refine List.mem_append_left _ ?_
    rcases List.mem_append.1 hx with hx | hx
    · exact List.mem_append_left _ ((h.thinner.line.map _).subset hx)
    · refine List.mem_append_right _ ?_
      obtain ⟨y, hy, rfl⟩ := List.mem_map.1 hx
      refine List.mem_map_of_mem ?_
      have hmem : y ∈ (q.view w.crypto).waiting := by
        rw [hw]
        exact Multiset.mem_add.2 (.inr (Multiset.mem_coe.2 hy))
      exact Multiset.mem_coe.1 hmem
  · exact List.mem_append_right _ hx

/-- One of three things holds, and no two of them do. -/
def ExactlyOne (p q r : Prop) : Prop := (p ∧ ¬q ∧ ¬r) ∨ (¬p ∧ q ∧ ¬r) ∨ (¬p ∧ ¬q ∧ r)

theorem exactlyOne_iff {p q r : Prop} (hr : ¬r) : ExactlyOne p q r ↔ (p ↔ ¬q) := by
  unfold ExactlyOne
  tauto

namespace QueueState

variable {w : World} {B : QueueBlocks w} {s : QueueState}

/-- The drained blocks have different hashes, and each was verified. -/
theorem Distinct.drained (hs : s.Distinct B) (max : ℕ) :
    ((s.queue.drain w max).1.map fun e => e.info.hash w.crypto .WithSeal).Nodup ∧
      ∀ e ∈ (s.queue.drain w max).1, e.Finished B ∧ e.OfBytes w.crypto := by
  rcases BlockQueue.view_drain w s.queue max with ⟨-, heq⟩ | ⟨hempty, n, hline, -⟩
  · rw [heq]
    exact ⟨List.nodup_nil, fun _ he => nomatch he⟩
  · constructor
    · have hnames : ((s.queue.drain w max).1.map fun e => e.info.hash w.crypto .WithSeal) =
          ((s.queue.view w.crypto).line.take n).map Item.name := by
        rw [← hline, List.map_map]
        rfl
      rw [hnames]
      exact hs.apart.nodup.sublist ((List.take_sublist _ _).map _)
    · intro e he
      have hmem : e ∈ s.queue.m_verified.m_queue := by
        unfold BlockQueue.drain at he
        rw [if_pos hempty] at he
        exact List.mem_of_mem_take he
      have hfin := hs.shaped.verified e hmem
      exact ⟨hfin, hs.matched e (.inl hmem) hfin.ne_nil⟩

end QueueState

namespace BlockChain

variable {w : World} {B : QueueBlocks w}

theorem batchHashes_batchOf (blocks : List QueuedBlock) (now : ℕ → ℤ) :
    batchHashes w (batchOf blocks now) = blocks.map fun e => e.info.hash w.crypto .WithSeal := by
  unfold batchHashes batchOf
  rw [List.map_map]
  change List.map ((fun e : QueuedBlock => e.info.hash w.crypto .WithSeal) ∘ Prod.fst) blocks.zipIdx = _
  rw [← List.map_map, List.zipIdx_map_fst]

theorem mem_batchOf {blocks : List QueuedBlock} {now : ℕ → ℤ} {b : VerifiedBlock × ℤ}
    (h : b ∈ batchOf blocks now) : ∃ e ∈ blocks, b.1 = e.verified := by
  obtain ⟨x, hx, rfl⟩ := List.mem_map.1 h
  exact ⟨x.1, List.fst_mem_of_mem_zipIdx hx, rfl⟩

/-- What a `sync` that returns does: it imports the drained blocks and reports the bad ones. -/
theorem sync_eq_ok {bc bc' : BlockChain} {q q' : BlockQueue} {max : ℕ} {now : ℕ → ℤ}
    {x : ImportRoute × Bool × ℕ} (h : bc.sync w q max now = (.ok x, bc', q')) :
    ∃ r, syncBlocks w (batchOf (q.drain w max).1 now) .empty bc = (.ok r, bc') ∧
      x.1 = ⟨r.dead, r.fresh, r.goodTransactions⟩ ∧
      q' = ((q.drain w max).2.doneDrain w r.badBlocks).2 := by
  unfold sync at h
  simp only at h
  split at h
  · cases h
  · rename_i r bc1 heq
    cases h
    exact ⟨r, heq, rfl, rfl⟩

/-- In every state of the queue and of the chain: each drained block is in the chain, or among the
bad blocks, or back in the queue, and in one of them only, if and only if each is kept when its turn
to be imported comes. -/
theorem sync_conserves_iff {ops : List QueueOp}
    (hops : StateRun.Along (QueueState.step w) (fun _ op => op.Within B) .empty ops)
    (bc : BlockChain) (max : ℕ) (now : ℕ → ℤ) {x : ImportRoute × Bool × ℕ} {bc' : BlockChain}
    {q' : BlockQueue}
    (h : bc.sync w (StateRun.run (QueueState.step w) .empty ops).queue max now = (.ok x, bc', q')) :
    let q := ((StateRun.run (QueueState.step w) .empty ops).queue.drain w max).2
    let drained := ((StateRun.run (QueueState.step w) .empty ops).queue.drain w max).1
    ∃ r, syncBlocks w (batchOf drained now) .empty bc = (.ok r, bc') ∧
      q' = (q.doneDrain w r.badBlocks).2 ∧
      ((∀ e ∈ drained,
          ExactlyOne (e.info.hash w.crypto .WithSeal ∈ bc'.known w)
            (e.info.hash w.crypto .WithSeal ∈ r.badBlocks)
            (e.info.hash w.crypto .WithSeal ∈ q'.allHashes w.crypto ∧
              e.info.hash w.crypto .WithSeal ∉ q.allHashes w.crypto)) ↔
        StateRun.Along (importStep w) (Kept w) bc (batchOf drained now)) := by
  intro q drained
  obtain ⟨r, hsync, -, hq'⟩ := sync_eq_ok h
  obtain ⟨hnodup, hfin⟩ := (QueueState.distinct_run hops).drained max
  have hthin : BlockQueue.Thins B q q' := hq' ▸ BlockQueue.thins_doneDrain q r.badBlocks
  have hv : ∀ b ∈ batchOf drained now, b.1.info = b.1.block.info := by
    intro b hb
    obtain ⟨e, he, heq⟩ := mem_batchOf hb
    rw [heq]
    exact (hfin e he).2.2.info_eq
  rw [← batchHashes_batchOf (w := w) _ now] at hnodup
  obtain ⟨-, -, bad, hbad, -, hiff⟩ := syncBlocks_spec _ hv hnodup hsync
  rw [show SyncResult.empty.badBlocks = [] from rfl, List.nil_append] at hbad
  refine ⟨r, hsync, hq', ?_⟩
  rw [← hiff, batchHashes_batchOf, List.forall_mem_map, hbad]
  refine forall₂_congr fun e _ => exactlyOne_iff ?_
  rintro ⟨hin, hnot⟩
  exact hnot (hthin.allHashes_subset hin)

/-- A block and its child were verified; the first is drained, once its time has come. -/
theorem sync_conserves_first :
    let s := StateRun.run (QueueState.step Devnet.world) .empty (Devnet.verifyTwo false (2 ^ 40))
    let drained := (s.queue.drain Devnet.world 1).1
    ∃ x bc' q' r, Devnet.genesis.sync Devnet.world s.queue 1 (fun _ => 2 ^ 40) = (.ok x, bc', q') ∧
      syncBlocks Devnet.world (batchOf drained fun _ => 2 ^ 40) .empty Devnet.genesis = (.ok r, bc') ∧
      drained.length = 1 ∧ ∀ e ∈ drained,
        ExactlyOne (e.info.hash Devnet.world.crypto .WithSeal ∈ bc'.known Devnet.world)
          (e.info.hash Devnet.world.crypto .WithSeal ∈ r.badBlocks)
          (e.info.hash Devnet.world.crypto .WithSeal ∈ q'.allHashes Devnet.world.crypto ∧
            e.info.hash Devnet.world.crypto .WithSeal ∉
              (s.queue.drain Devnet.world 1).2.allHashes Devnet.world.crypto) := by
  obtain ⟨q, he, hL⟩ := Devnet.looks_verifyTwo (.inr (le_refl (2 ^ 40)))
  obtain ⟨route, bc', himp⟩ := Devnet.importBlock_first_ok
  have hdrain : (q.drain Devnet.world 1).1 = [Devnet.queued [Devnet.first]] := (hL.drain 1).1
  have hbatch : batchOf (q.drain Devnet.world 1).1 (fun _ => 2 ^ 40) =
      [(Devnet.verified [Devnet.first], 2 ^ 40)] := by
    rw [hdrain]
    rfl
  have hsync : ∃ r, syncBlocks Devnet.world (batchOf (q.drain Devnet.world 1).1 fun _ => 2 ^ 40)
      .empty Devnet.genesis = (.ok r, bc') := by
    rw [hbatch, syncBlocks, himp]
    exact ⟨_, rfl⟩
  obtain ⟨r, hr⟩ := hsync
  have hres : ∃ x q', Devnet.genesis.sync Devnet.world (StateRun.run (QueueState.step Devnet.world)
      .empty (Devnet.verifyTwo false (2 ^ 40))).queue 1 (fun _ => 2 ^ 40) = (.ok x, bc', q') := by
    rw [he]
    unfold sync
    simp only [hr]
    exact ⟨_, _, rfl⟩
  obtain ⟨x, q', hres⟩ := hres
  obtain ⟨r', hr', -, hiff⟩ := sync_conserves_iff (Devnet.within_verifyTwo false (2 ^ 40)) _ 1 _ hres
  refine ⟨x, bc', q', r', hres, hr', ?_, hiff.2 ?_⟩
  · rw [he, hdrain]
    rfl
  · rw [he, hbatch]
    refine ⟨?_, trivial⟩
    intro e hkept
    rw [himp] at hkept
    cases hkept

/-- A block of our own and its child were verified before their time. The first is drained, and is
then neither in the chain nor among the bad blocks, nor ready or waiting in the queue. -/
theorem sync_loses_own_block :
    let s := StateRun.run (QueueState.step Devnet.world) .empty (Devnet.verifyTwo true 0)
    StateRun.Along (QueueState.step Devnet.world) (fun _ op => op.Within Devnet.threeQueued) .empty
      (Devnet.verifyTwo true 0) ∧
    ∃ x bc' q' r, Devnet.genesis.sync Devnet.world s.queue 1 (fun _ => 0) = (.ok x, bc', q') ∧
      syncBlocks Devnet.world (batchOf (s.queue.drain Devnet.world 1).1 fun _ => 0) .empty
        Devnet.genesis = (.ok r, bc') ∧
      ∃ e ∈ (s.queue.drain Devnet.world 1).1,
        e.info.hash Devnet.world.crypto .WithSeal ∉ (q'.items Devnet.world.crypto).map Item.name ∧
        ¬ExactlyOne (e.info.hash Devnet.world.crypto .WithSeal ∈ bc'.known Devnet.world)
          (e.info.hash Devnet.world.crypto .WithSeal ∈ r.badBlocks)
          (e.info.hash Devnet.world.crypto .WithSeal ∈ q'.allHashes Devnet.world.crypto ∧
            e.info.hash Devnet.world.crypto .WithSeal ∉
              (s.queue.drain Devnet.world 1).2.allHashes Devnet.world.crypto) := by
  intro s
  obtain ⟨q, he, hL⟩ : ∃ q, StateRun.run (QueueState.step Devnet.world) .empty
        (Devnet.verifyTwo true 0) = ⟨q, [], ∅⟩ ∧
      Devnet.Looks q [Devnet.queued [Devnet.first], Devnet.queued [Devnet.second, Devnet.first]]
        [] [] {2, 3} ∅ ∅ :=
    Devnet.looks_verifyTwo (.inl rfl)
  refine ⟨Devnet.within_verifyTwo true 0, ?_⟩
  have hdrain : (q.drain Devnet.world 1).1 = [Devnet.queued [Devnet.first]] := (hL.drain 1).1
  have hlook := (hL.drain 1).2
  have hbatch : batchOf [Devnet.queued [Devnet.first]] (fun _ => 0) =
      [(Devnet.verified [Devnet.first], 0)] := rfl
  have hr : syncBlocks Devnet.world (batchOf (q.drain Devnet.world 1).1 fun _ => 0) .empty
      Devnet.genesis = (.ok .empty, Devnet.genesis) := by
    rw [hdrain, hbatch, syncBlocks, Devnet.importBlock_first]
    rfl
  have hsync : Devnet.genesis.sync Devnet.world q 1 (fun _ => 0) =
      (.ok (⟨[], [], []⟩, ((q.drain Devnet.world 1).2.doneDrain Devnet.world []).1, 0),
        Devnet.genesis, ((q.drain Devnet.world 1).2.doneDrain Devnet.world []).2) := by
    unfold sync
    simp only [hr]
    rfl
  have hthin : BlockQueue.Thins Devnet.threeQueued (q.drain Devnet.world 1).2
      ((q.drain Devnet.world 1).2.doneDrain Devnet.world []).2 := BlockQueue.thins_doneDrain _ []
  subst s
  rw [he]
  refine ⟨_, _, _, _, hsync, hr, Devnet.queued [Devnet.first], ?_, ?_, ?_⟩
  · rw [hdrain]
    exact List.mem_singleton_self _
  · have hitems : ((q.drain Devnet.world 1).2.doneDrain Devnet.world []).2.items
        Devnet.world.crypto = [⟨3, 2⟩] := by
      change (q.drain Devnet.world 1).2.items Devnet.world.crypto = _
      unfold BlockQueue.items
      rw [Devnet.line_of_looks hlook, hlook.m_unknown]
      rfl
    rw [hitems]
    decide
  · rw [exactlyOne_iff fun h => h.2 (hthin.allHashes_subset h.1)]
    intro h
    have hnot : (Devnet.queued [Devnet.first]).info.hash Devnet.world.crypto .WithSeal ∉
        Devnet.genesis.known Devnet.world := by
      change ¬Devnet.genesis.isKnown Devnet.world _ false = true
      decide
    exact hnot (h.2 List.not_mem_nil)

end BlockChain

end Petrachor
