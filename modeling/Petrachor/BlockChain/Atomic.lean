import Petrachor.BlockChain.ForkChoice
import Petrachor.ReceiptRead

/-!
# Insertions that fail

An insertion notes the child in its parent's cached details before it reads the receipts, the head
and the route. What throws after that leaves the child in the list. `insert` reads all it needs
before it notes anything.
-/

namespace Petrachor

/-- A result, or a failed assertion, which ends the process; nothing is thrown. -/
def NoThrow {α : Type} (x : Except Exception α) : Prop := ∀ e, x = .error e → e = .abort

theorem noThrow_ok {α : Type} (a : α) : NoThrow (.ok a) := by
  intro e he
  cases he

theorem noThrow_abort {α : Type} : NoThrow (.error .abort : Except Exception α) := by
  intro e he
  cases he
  rfl

theorem NoThrow.bind {α β : Type} {x : Except Exception α} {f : α → Except Exception β}
    (hx : NoThrow x) (hf : ∀ a, NoThrow (f a)) : NoThrow (x >>= f) := by
  intro e he
  cases x with
  | error e' =>
    cases he
    exact hx e rfl
  | ok a => exact hf a e he

namespace BlockChain

section

variable {w : World} {bc bc' : BlockChain}

/-- `logBlooms(h)`. -/
def logBlooms (bc : BlockChain) (h : H256) : List LogBloom :=
  (lookup bc.m_logBlooms bc.logBloomsDB h).getD []

/-- `receipts(h)`, in their encoding. -/
def receipts (bc : BlockChain) (h : H256) : Option Bytes := lookup bc.m_receipts bc.receiptsDB h

/-- The chain answers the same. -/
structure SameAnswers (w : World) (bc bc' : BlockChain) : Prop where
  details : ∀ h, bc'.details h = bc.details h
  numberHash : ∀ n, bc'.numberHash w n = bc.numberHash w n
  receipts : ∀ h, bc'.receipts h = bc.receipts h
  logBlooms : ∀ h, bc'.logBlooms h = bc.logBlooms h
  blocksBlooms : ∀ id, bc'.blocksBlooms id = bc.blocksBlooms id
  currentHash : bc'.currentHash = bc.currentHash

/-- What an insertion reads besides the receipts: the head's block if the gas has to break a tie,
and the blocks of the route that become canonical, but for the new one. -/
structure RouteStored (w : World) (bc : BlockChain) (info : BlockHeader) (td : U256) : Prop where
  head : w.params.tieBreakingGas → td = (bc.details bc.currentHash).totalDifficulty →
    (bc.block w bc.currentHash).isSome
  route : bc.isBest w td info = .ok true → ∀ route common i,
    bc.treeRoute bc.currentHash info.parentHash true true true = .ok (route, common, i) →
    ∀ h ∈ (route ++ [info.hash w.crypto .WithSeal]).reverse.takeWhile (· ≠ common),
      h = info.hash w.crypto .WithSeal ∨ (bc.block w h).isSome

/-- Everything an insertion reads can be read. -/
def Readable (w : World) (bc : BlockChain) (info : BlockHeader) (receipts : Bytes) (td : U256) : Prop :=
  NoThrow (receiptBlooms receipts) ∧
    ((∃ blooms, receiptBlooms receipts = .ok blooms) → bc.RouteStored w info td)

/-- An import comes to insert its block: it passes every check, and this is the difficulty it adds. -/
def Enacts (w : World) (bc : BlockChain) (vb : VerifiedBlock) (mustBeNew : Bool) (now : ℤ)
    (tdIncrease : U256) (s : Block) : Prop :=
  bc.checkPlace w vb.info mustBeNew = .ok () ∧ checkBlockTimestamp w vb.info now = .ok () ∧
    (∃ vb', bc.verifyBlock w vb.block (bc.balanceRetriever w now) .InOrderChecks = .ok vb') ∧
    (Block.new w 0).enactOn w (bc.touchStake w vb.block) vb now = .ok (tdIncrease, s) ∧
    ∃ s', s.cleanup w (s.committedDB w (bc.touchStake w vb.block).stateDB) now = .ok s'

/-- The encoding of the receipts of a block, which an import stores. -/
def encodeReceipts (s : Block) : Bytes :=
  RLPStream.encodeList (s.m_receipts.map TransactionReceipt.streamRLP)

/-- The operation is one the program can come to: a block is verified with its own header, and its
receipts fit into memory. -/
def Op.Real (w : World) (bc : BlockChain) : Op → Prop
  | .importBlock vb mustBeNew now =>
    vb.info = vb.block.info ∧ ∀ tdIncrease s, bc.Enacts w vb mustBeNew now tdIncrease s →
      (encodeReceipts s).length < maxPayload
  | .importUnverified b mustBeNew now =>
    ∀ vb, bc.verifyBlock w b (bc.balanceRetriever w now) .OutOfOrderChecks = .ok vb →
      ∀ tdIncrease s, bc.Enacts w vb mustBeNew now tdIncrease s →
        (encodeReceipts s).length < maxPayload
  | _ => True

/-- What the operation reads after the child is noted can be read, if it comes so far. -/
def Op.Sound (w : World) (bc : BlockChain) : Op → Prop
  | .importBlock vb mustBeNew now =>
    ∀ tdIncrease s, bc.Enacts w vb mustBeNew now tdIncrease s →
      bc.RouteStored w vb.info ((bc.details vb.info.parentHash).totalDifficulty + tdIncrease)
  | .importUnverified b mustBeNew now =>
    ∀ vb, bc.verifyBlock w b (bc.balanceRetriever w now) .OutOfOrderChecks = .ok vb →
      ∀ tdIncrease s, bc.Enacts w vb mustBeNew now tdIncrease s →
        bc.RouteStored w b.info ((bc.details b.info.parentHash).totalDifficulty + tdIncrease)
  | .insertWithoutParent b receipts td now =>
    (∃ vb, bc.verifyBlock w b (bc.balanceRetriever w now) .OutOfOrderChecks = .ok vb) →
      bc.checkBlockIsNew w b.info = .ok () → checkBlockTimestamp w b.info now = .ok () →
      bc.Readable w b.info receipts td
  | _ => True

/-! ## Answers -/

theorem SameAnswers.refl (w : World) (bc : BlockChain) : SameAnswers w bc bc :=
  ⟨fun _ => rfl, fun _ => rfl, fun _ => rfl, fun _ => rfl, fun _ => rfl, rfl⟩

theorem lookup_filled {K V : Type} [DecidableEq K] (cache db : K → Option V) (k k' : K) :
    lookup (filled cache db k) db k' = lookup cache db k' := by
  unfold filled
  by_cases hk : k' = k
  · subst hk
    unfold lookup
    rw [Function.update_self]
    cases cache k' with
    | some v => rfl
    | none => cases db k' <;> rfl
  · unfold lookup
    rw [Function.update_of_ne hk]

/-- The stake check fills a cache, which no answer depends on. -/
theorem sameAnswers_touchStake (b : BlockRLP) (db : H256 → Option AccountTrie) :
    SameAnswers w bc { bc.touchStake w b with stateDB := db } := by
  unfold touchStake
  cases bc.asksStake w b with
  | none => exact ⟨fun _ => rfl, fun _ => rfl, fun _ => rfl, fun _ => rfl, fun _ => rfl, rfl⟩
  | some n =>
    simp only [touch]
    split
    · refine ⟨fun _ => rfl, fun n' => ?_, fun _ => rfl, fun _ => rfl, fun _ => rfl, rfl⟩
      simp only [numberHash, fill, noteUsed, lookup_filled]
    · exact ⟨fun _ => rfl, fun _ => rfl, fun _ => rfl, fun _ => rfl, fun _ => rfl, rfl⟩

/-- The chain reads the same blocks, details and head. -/
structure SameReads (w : World) (bc bc' : BlockChain) : Prop where
  core : ∀ h, (bc'.details h).number = (bc.details h).number ∧
    (bc'.details h).parent = (bc.details h).parent
  totalDifficulty : ∀ h, (bc'.details h).totalDifficulty = (bc.details h).totalDifficulty
  block : ∀ h, bc'.block w h = bc.block w h
  currentHash : bc'.currentHash = bc.currentHash

theorem StakeChecked.sameReads {b : BlockRLP} (h : StakeChecked w b bc bc') : SameReads w bc bc' := by
  obtain ⟨m, u, db, rfl, -⟩ := h
  exact ⟨fun _ => ⟨rfl, rfl⟩, fun _ => rfl, fun _ => rfl, rfl⟩

section SameReads

variable (hS : SameReads w bc bc')

include hS

theorem SameReads.walkUp_eq : ∀ (n : ℕ) (h : H256), bc'.walkUp n h = bc.walkUp n h
  | 0, _ => rfl
  | n + 1, h => by
    unfold walkUp
    rw [(hS.core h).2, SameReads.walkUp_eq n]

theorem SameReads.meet_eq (common pre post : Bool) : ∀ (fuel : ℕ) (a b : H256),
    bc'.meet common pre post fuel a b = bc.meet common pre post fuel a b
  | 0, _, _ => rfl
  | fuel + 1, a, b => by
    unfold meet
    rw [(hS.core a).2, (hS.core b).2, SameReads.meet_eq common pre post fuel]

theorem SameReads.treeRoute_eq (src dst : H256) (common pre post : Bool) :
    bc'.treeRoute src dst common pre post = bc.treeRoute src dst common pre post := by
  unfold treeRoute BlockDetails.isNull
  simp only [(hS.core _).1, hS.walkUp_eq, hS.meet_eq]

theorem SameReads.isBest_eq (td : U256) (info : BlockHeader) :
    bc'.isBest w td info = bc.isBest w td info := by
  unfold isBest BlockChain.info
  simp only [hS.currentHash, hS.totalDifficulty, hS.block]

theorem SameReads.routeStored_iff (info : BlockHeader) (td : U256) :
    bc'.RouteStored w info td ↔ bc.RouteStored w info td := by
  constructor
  · rintro ⟨hhead, hroute⟩
    simp only [hS.isBest_eq, hS.treeRoute_eq, hS.currentHash, hS.block, hS.totalDifficulty] at hhead hroute
    exact ⟨hhead, hroute⟩
  · rintro ⟨hhead, hroute⟩
    refine ⟨?_, ?_⟩
    · simpa only [hS.currentHash, hS.block, hS.totalDifficulty] using hhead
    · simpa only [hS.isBest_eq, hS.treeRoute_eq, hS.currentHash, hS.block] using hroute

end SameReads

/-! ## What is left behind -/

theorem details_addChild (p c h : H256) :
    (bc.addChild p c).details h =
      if h = p then { bc.details p with children := (bc.details p).children ++ [c] }
      else bc.details h := by
  unfold details addChild lookup
  simp only [Function.update_apply]
  split <;> rfl

theorem sameReads_addChild (p c : H256) : SameReads w bc (bc.addChild p c) where
  core h := by
    rw [details_addChild]
    split
    · rename_i hp
      rw [hp]
      exact ⟨rfl, rfl⟩
    · exact ⟨rfl, rfl⟩
  totalDifficulty h := by
    rw [details_addChild]
    split
    · rename_i hp
      rw [hp]
    · rfl
  block _ := rfl
  currentHash := rfl

/-- The loop over the route ends with an exception if a block of it is missing. -/
theorem makeRouteCanonical_throws (b : BlockRLP) (common : H256) (route : List H256) :
    ∀ bc : BlockChain, (∀ h ∈ route.takeWhile (· ≠ common),
        h = b.info.hash w.crypto .WithSeal ∨ (bc.block w h).isSome) ↔
      (makeRouteCanonical w b common route bc).1 = .ok () := by
  induction route with
  | nil =>
    intro bc
    simp [makeRouteCanonical]
  | cons h rest ih =>
    intro bc
    by_cases hc : h = common
    · simp [makeRouteCanonical, hc]
    · rw [List.takeWhile_cons_of_pos (by simpa using hc), List.forall_mem_cons, makeRouteCanonical,
        if_neg hc]
      by_cases hb : h = b.info.hash w.crypto .WithSeal
      · rw [if_pos hb, ← ih]
        simp only [hb, true_or, true_and, (sameTree_makeCanonical bc b).block_eq]
      · rw [if_neg hb]
        cases hx : bc.block w h with
        | none => simp [hb]
        | some x =>
          simp only [hb, Option.isSome_some, or_true, true_and, ← ih,
            (sameTree_makeCanonical bc x).block_eq]

theorem makeRouteCanonical_error {b : BlockRLP} {common : H256} {route : List H256} {e : Exception} :
    ∀ {bc : BlockChain}, (makeRouteCanonical w b common route bc).1 = .error e → e = .BadRLP := by
  induction route with
  | nil =>
    intro bc h
    cases h
  | cons h rest ih =>
    intro bc he
    unfold makeRouteCanonical at he
    split at he
    · cases he
    · split at he
      · exact ih he
      · split at he
        · exact ih he
        · cases he
          rfl

theorem meet_noThrow (common pre post : Bool) : ∀ (fuel : ℕ) (a b : H256),
    NoThrow (bc.meet common pre post fuel a b)
  | 0, _, _ => noThrow_abort
  | fuel + 1, a, b => by
    unfold meet
    simp only
    split
    · exact noThrow_ok _
    · split
      · exact noThrow_abort
      · exact (meet_noThrow common pre post fuel _ _).bind fun _ => noThrow_ok _

theorem treeRoute_noThrow (src dst : H256) (common pre post : Bool) :
    NoThrow (bc.treeRoute src dst common pre post) := by
  unfold treeRoute
  split
  · exact noThrow_ok _
  · exact (meet_noThrow common pre post _ _ _).bind fun _ => noThrow_ok _

theorem isBest_noThrow_iff (td : U256) (info : BlockHeader) :
    NoThrow (bc.isBest w td info) ↔
      (w.params.tieBreakingGas → td = (bc.details bc.currentHash).totalDifficulty →
        (bc.block w bc.currentHash).isSome) := by
  unfold isBest BlockChain.info
  simp only
  by_cases hlt : (bc.details bc.currentHash).totalDifficulty < td
  · rw [if_pos hlt]
    constructor
    · intro _ _ heq
      rw [heq] at hlt
      exact absurd hlt (BitVec.lt_irrefl _)
    · intro _ e he
      cases he
  · rw [if_neg hlt]
    by_cases ht : w.params.tieBreakingGas = true ∧ td = (bc.details bc.currentHash).totalDifficulty
    · rw [if_pos ht]
      simp only [ht.1, ht.2, forall_const]
      cases bc.block w bc.currentHash with
      | none =>
        constructor
        · intro h
          exact absurd (h _ rfl) (by decide)
        · intro h
          cases h
      | some b =>
        constructor
        · intro _
          rfl
        · intro _ e he
          cases he
    · rw [if_neg ht]
      constructor
      · intro _ h1 h2
        exact absurd ⟨h1, h2⟩ ht
      · intro _ e he
        cases he

/-- A reorganisation throws if it has to read a block that is not stored. -/
theorem reorganise_noThrow_iff (b : BlockRLP) :
    NoThrow (bc.reorganise w b).1 ↔ ∀ route common i,
      bc.treeRoute bc.currentHash b.info.parentHash true true true = .ok (route, common, i) →
      ∀ h ∈ (route ++ [b.info.hash w.crypto .WithSeal]).reverse.takeWhile (· ≠ common),
        h = b.info.hash w.crypto .WithSeal ∨ (bc.block w h).isSome := by
  simp only [reorganise]
  cases hr : bc.treeRoute bc.currentHash b.info.parentHash true true true with
  | error e =>
    obtain rfl := treeRoute_noThrow _ _ _ _ _ e hr
    refine ⟨fun _ _ _ _ h => ?_, fun _ => noThrow_abort⟩
    cases h
  | ok r =>
    obtain ⟨route, common, i⟩ := r
    have hclear := sameTree_clear bc common bc.currentHash (((bc.details common).number + 1) % 2 ^ 32)
    have hthrows := makeRouteCanonical_throws (w := w) b common
      (route ++ [b.info.hash w.crypto .WithSeal]).reverse (if common ≠ bc.currentHash then
        bc.clearCachesDuringChainReversion (((bc.details common).number + 1) % 2 ^ 32) else bc)
    simp only [hclear.block_eq] at hthrows
    simp only [Except.ok.injEq, Prod.mk.injEq, and_imp]
    have hall : (∀ route' common' i', route = route' → common = common' → i = i' →
        ∀ h ∈ (route' ++ [b.info.hash w.crypto .WithSeal]).reverse.takeWhile (· ≠ common'),
          h = b.info.hash w.crypto .WithSeal ∨ (bc.block w h).isSome) ↔
        ∀ h ∈ (route ++ [b.info.hash w.crypto .WithSeal]).reverse.takeWhile (· ≠ common),
          h = b.info.hash w.crypto .WithSeal ∨ (bc.block w h).isSome := by
      constructor
      · intro h
        exact h route common i rfl rfl rfl
      · rintro h _ _ _ rfl rfl rfl
        exact h
    rw [hall, hthrows]
    rcases hm : makeRouteCanonical w b common (route ++ [b.info.hash w.crypto .WithSeal]).reverse
      (if common ≠ bc.currentHash then
        bc.clearCachesDuringChainReversion (((bc.details common).number + 1) % 2 ^ 32) else bc) with
      ⟨r, bc1⟩
    cases r with
    | error e =>
      have he := makeRouteCanonical_error (congrArg Prod.fst hm)
      constructor
      · intro h
        exact absurd (h e rfl) (by rw [he]; decide)
      · intro h
        cases h
    | ok u => exact ⟨fun _ => rfl, fun _ => noThrow_ok _⟩

/-- An insertion throws if there is something it cannot read. -/
theorem insertBlockAndExtras_noThrow_iff {vb : VerifiedBlock} (hv : vb.info = vb.block.info)
    (receipts : Bytes) (td : U256) :
    NoThrow (bc.insertBlockAndExtras w vb receipts td).1 ↔ bc.Readable w vb.info receipts td := by
  have hS : SameReads w bc
      (bc.addChild vb.info.parentHash (vb.info.hash w.crypto .WithSeal)) :=
    sameReads_addChild _ _
  simp only [insertBlockAndExtras, Readable]
  cases hr : receiptBlooms receipts with
  | error e =>
    constructor
    · intro h
      refine ⟨fun e' he' => ?_, fun hok => ?_⟩
      · cases he'
        exact h e rfl
      · obtain ⟨_, hok⟩ := hok
        cases hok
    · rintro ⟨h, -⟩ e' he'
      cases he'
      exact h e rfl
  | ok blooms =>
    rw [← hS.routeStored_iff]
    have hiff : (NoThrow (.ok blooms : Except Exception (List LogBloom)) ∧
        ((∃ b, (.ok blooms : Except Exception (List LogBloom)) = .ok b) →
          (bc.addChild vb.info.parentHash (vb.info.hash w.crypto .WithSeal)).RouteStored w vb.info td)) ↔
        (bc.addChild vb.info.parentHash (vb.info.hash w.crypto .WithSeal)).RouteStored w vb.info td :=
      ⟨fun h => h.2 ⟨blooms, rfl⟩, fun h => ⟨noThrow_ok _, fun _ => h⟩⟩
    rw [hiff]
    generalize bc.addChild vb.info.parentHash (vb.info.hash w.crypto .WithSeal) = bc1
    have hhead : NoThrow (bc1.isBest w td vb.info) ↔ _ := isBest_noThrow_iff td vb.info
    have hroute : NoThrow (bc1.reorganise w vb.block).1 ↔ _ := reorganise_noThrow_iff vb.block
    rw [← hv] at hroute
    cases hbest : bc1.isBest w td vb.info with
    | error e =>
      rw [hbest] at hhead
      simp only
      constructor
      · intro h
        refine ⟨hhead.1 fun e' he' => by cases he'; exact h e rfl, fun hb => ?_⟩
        rw [hbest] at hb
        cases hb
      · intro h e' he'
        cases he'
        exact hhead.2 h.head e rfl
    | ok best =>
      rw [hbest] at hhead
      have hh := hhead.1 (noThrow_ok _)
      cases best with
      | false =>
        simp only
        refine ⟨fun _ => ⟨hh, fun hb => ?_⟩, fun _ => noThrow_ok _⟩
        rw [hbest] at hb
        cases hb
      | true =>
        simp only
        constructor
        · intro h
          refine ⟨hh, fun _ => hroute.1 fun e he => ?_⟩
          rcases hre : bc1.reorganise w vb.block with ⟨r, bc2⟩
          rw [hre] at he h
          cases he
          exact h e rfl
        · intro h e he
          have hno := hroute.2 (h.route hbest)
          rcases hre : bc1.reorganise w vb.block with ⟨r, bc2⟩
          rw [hre] at he hno
          cases r with
          | error e' =>
            cases he
            exact hno e rfl
          | ok r => cases he

theorem receiptBlooms_encodeReceipts {s : Block} (h : (encodeReceipts s).length < maxPayload) :
    receiptBlooms (encodeReceipts s) = .ok (s.m_receipts.map TransactionReceipt.bloom) := by
  have hone : ∀ r ∈ s.m_receipts, r.streamRLP.length < maxPayload := by
    intro r hr
    exact length_lt_of_mem (List.mem_map_of_mem hr) h
  have hitems : Items (s.m_receipts.map TransactionReceipt.streamRLP) := by
    intro e he
    obtain ⟨r, hr, rfl⟩ := List.mem_map.1 he
    exact isItem_of_encodeList (hone r hr)
  have hmax := flatten_lt_of_encodeList h
  unfold receiptBlooms encodeReceipts
  rw [(isItem_encodeList hmax).ofBytes, ok_bind, toList_encodeList hitems hmax, ok_bind, List.map_map,
    List.mapM_map]
  apply mapM_eq_ok
  intro r hr
  change (do return (← TransactionReceipt.ofBytes r.streamRLP).bloom) = _
  rw [TransactionReceipt.ofBytes_streamRLP (hone r hr), ok_bind]
  rfl

/-- An import fails before anything but a cache has changed, or comes to the insertion. -/
theorem importBlock_split (vb : VerifiedBlock) (mustBeNew : Bool) (now : ℤ) :
    (∃ e bc1, bc.importBlock w vb mustBeNew now = (.error e, bc1) ∧
      StakeChecked w vb.block bc bc1 ∧ SameAnswers w bc bc1 ∧
      ∀ tdIncrease s, ¬bc.Enacts w vb mustBeNew now tdIncrease s) ∨
    (∃ tdIncrease s bc1, bc.Enacts w vb mustBeNew now tdIncrease s ∧
      StakeChecked w vb.block bc bc1 ∧ SameAnswers w bc bc1 ∧ bc.importBlock w vb mustBeNew now =
        bc1.insertBlockAndExtras w vb (encodeReceipts s)
          ((bc.details vb.info.parentHash).totalDifficulty + tdIncrease)) := by
  have hkept : SameAnswers w bc (bc.touchStake w vb.block) :=
    sameAnswers_touchStake vb.block (bc.touchStake w vb.block).stateDB
  have hstake : StakeChecked w vb.block bc (bc.touchStake w vb.block) :=
    stakeChecked_touchStake w vb.block bc (bc.touchStake w vb.block).stateDB
  unfold importBlock Enacts
  cases hplace : bc.checkPlace w vb.info mustBeNew with
  | error e => exact .inl ⟨e, bc, rfl, .refl .., .refl w bc, fun _ _ h => by cases h.1⟩
  | ok u =>
  cases htime : checkBlockTimestamp w vb.info now with
  | error e => exact .inl ⟨e, bc, rfl, .refl .., .refl w bc, fun _ _ h => by cases h.2.1⟩
  | ok u' =>
  cases hver : bc.verifyBlock w vb.block (bc.balanceRetriever w now) .InOrderChecks with
  | error e => exact .inl ⟨e, _, rfl, hstake, hkept, fun _ _ h => by cases h.2.2.1.choose_spec⟩
  | ok vb' =>
  cases hen : (Block.new w 0).enactOn w (bc.touchStake w vb.block) vb now with
  | error e =>
    refine .inl ?_
    simp only [hen]
    split
    · exact ⟨_, _, rfl, hstake, hkept, fun _ _ h => by cases h.2.2.2.1⟩
    · exact ⟨_, _, rfl, hstake, hkept, fun _ _ h => by cases h.2.2.2.1⟩
    · rename_i he
      cases he
  | ok ts =>
  obtain ⟨tdIncrease, s⟩ := ts
  simp only [hen, Except.ok.injEq, Prod.mk.injEq]
  cases hcl : s.cleanup w (s.committedDB w (bc.touchStake w vb.block).stateDB) now with
  | error e =>
    have hno : ∀ tdIncrease' s', ¬((True ∧ True ∧ (∃ x, vb' = x) ∧
        (tdIncrease = tdIncrease' ∧ s = s') ∧
        ∃ s'', s'.cleanup w (s'.committedDB w (bc.touchStake w vb.block).stateDB) now = .ok s'')) := by
      rintro _ _ ⟨-, -, -, ⟨rfl, rfl⟩, s'', h⟩
      rw [hcl] at h
      cases h
    refine .inl ?_
    split
    · exact ⟨_, _, rfl, stakeChecked_touchStake w vb.block bc _, sameAnswers_touchStake vb.block _, hno⟩
    · exact ⟨_, _, rfl, stakeChecked_touchStake w vb.block bc _, sameAnswers_touchStake vb.block _, hno⟩
    · rename_i he
      cases he
  | ok s' =>
    exact .inr ⟨tdIncrease, s, _, ⟨trivial, trivial, ⟨vb', rfl⟩, ⟨rfl, rfl⟩, s', hcl⟩,
      stakeChecked_touchStake w vb.block bc _, sameAnswers_touchStake vb.block _, rfl⟩

end

/-! ## The development network -/

open Devnet (world genesis heavy1 lightAndHeavy)

theorem chainInv_genesis : genesis.ChainInv world lightAndHeavy.blockSet :=
  chainInv_openFresh Devnet.world_valid _ _

end BlockChain

end Petrachor
