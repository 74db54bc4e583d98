import Petrachor.Lib.Bisection
import Petrachor.Block
import Petrachor.Devnet

/-!
# Gas estimation

`estimateGas` runs a call with one amount of gas after the other, on a copy of the state. A run that throws ends the
whole search.
-/

namespace Petrachor

inductive CodeDeposit
  | None | Failed | Success
  deriving DecidableEq

structure ExecutionResult where
  gasUsed : U256
  excepted : Option TransactionException
  newAddress : Address
  codeDeposit : CodeDeposit

def ExecutionResult.empty : ExecutionResult := ⟨0, some .Unknown, 0, .None⟩

section

variable (w : World)

/-- What `go` notes about the code of a creation. -/
def Executive.codeDeposit (e : Executive) : CodeDeposit :=
  match e.m_ext with
  | none => .None
  | some ext =>
    if e.m_isCreation then
      match w.vm ext e.m_gas (e.m_s.clearStorage w.crypto.EmptyTrie ext.myAddress) with
      | .done gas output _ _ =>
        let es := e.schedule w
        if es.maxCodeSize < output.length then .None
        else if output.length * es.createDataGas ≤ gas.toNat then .Success
        else if es.exceptionalFailedCodeDeposit then .None
        else .Failed
      | _ => .None
    else .None

/-- The execution result of `execute(envInfo, sealEngine, t, permanence)`. -/
def State.executionResult (s : State) (env : EnvInfo) (t : Transaction) :
    Except (Exception × State) ExecutionResult := do
  let e ← Executive.liftState s ((Executive.new s env).initializeWith w t)
  let e ← e.execute w t
  let codeDeposit := e.codeDeposit w
  let e ← e.go w
  let (_, e) ← e.finalize w
  return ⟨e.gasUsed, e.m_excepted, e.m_newAddress, codeDeposit⟩

/-- It is that of the executive, and what throws there throws here. -/
theorem State.executionResult_excepted (s : State) (env : EnvInfo) (t : Transaction) :
    (s.executionResult w env t).toOption.map ExecutionResult.excepted =
      (s.executeTransaction w env t).toOption.map fun r => r.2.m_excepted := by
  unfold State.executionResult State.executeTransaction
  cases Executive.liftState s ((Executive.new s env).initializeWith w t) with
  | error x => rfl
  | ok e =>
    simp only [bind, Except.bind]
    cases e.execute w t with
    | error x => rfl
    | ok e =>
      dsimp only
      cases e.go w with
      | error x => rfl
      | ok e =>
        dsimp only
        cases e.finalize w with
        | error x => rfl
        | ok r => rfl

/-! ## One run -/

/-- The results that ask for more gas. -/
def ExecutionResult.lacksGas (er : ExecutionResult) : Bool :=
  er.excepted = some .OutOfGas ∨ er.excepted = some .OutOfGasBase ∨ er.codeDeposit = .Failed ∨
    er.excepted = some .BadJumpDestination

namespace ClientBase

/-- The block and the arguments that an estimate is asked for. -/
structure GasQuery where
  bk : Block
  lastHashes : Except Exception (List H256)
  sender : Address
  value : U256
  dest : Address
  data : Bytes
  gasPrice : U256

variable (q : GasQuery)

/-- The transaction with this gas; it is unsigned and its sender is forced. -/
def transaction (mid : ℤ) : Transaction where
  m_type := if q.dest = 0 then .ContractCreation else .MessageCall
  nonce := q.bk.m_state.getNonce q.sender
  value := q.value
  receiveAddress := q.dest
  gasPrice := q.gasPrice
  gas := U256.ofInt mid
  data := q.data
  m_vrs := none
  m_forcedSender := q.sender

/-- Of the constructors of `EnvInfo` this is the one with four arguments: what it takes for a chain id is the gas. -/
def envInfo (mid : ℤ) : EnvInfo := ⟨q.bk.m_currentBlock, q.lastHashes, 0, U256.ofInt mid⟩

def probe (mid : ℤ) : Except Exception ExecutionResult :=
  let t := transaction q mid
  let tempState := q.bk.m_state.addBalance w.crypto.EmptyTrie q.sender (t.gas * t.gasPrice + t.value)
  match tempState.executionResult w (envInfo q mid) t with
  | .ok er => .ok er
  | .error (x, _) => .error x

end ClientBase

end

/-! ## The search -/

namespace ClientBase

def c_maxGasEstimate : ℤ := 50000000

/-- The loop; `lastGood` is there if a run was good. -/
def search (probe : ℤ → Except Exception ExecutionResult) (lowerBound upperBound : ℤ) (er : ExecutionResult)
    (lastGood : Option ExecutionResult) : Except Exception (ℤ × ExecutionResult) :=
  if _h : upperBound = lowerBound then .ok (upperBound, lastGood.getD er)
  else
    match probe ((lowerBound + upperBound).tdiv 2) with
    | .error x => .error x
    | .ok er =>
      if er.lacksGas then
        search probe
          (if lowerBound = (lowerBound + upperBound).tdiv 2 then upperBound else (lowerBound + upperBound).tdiv 2)
          upperBound er lastGood
      else
        search probe lowerBound
          (if upperBound = (lowerBound + upperBound).tdiv 2 then lowerBound else (lowerBound + upperBound).tdiv 2)
          er (some er)
  termination_by (upperBound - lowerBound).natAbs
  decreasing_by
    all_goals
      rcases lt_or_gt_of_ne _h with hlt | hlt
      · have := Bisection.tdiv_between hlt
        rw [add_comm upperBound] at this
        split <;> omega
      · have := Bisection.tdiv_between hlt
        split <;> omega

variable (w : World) (q : GasQuery)

/-- `baseGasRequired` for the default schedule. -/
def lowerBound : ℤ := (transaction q 0).baseGasRequired {}

def upperBound (maxGas : ℤ) : ℤ := if c_maxGasEstimate < maxGas then c_maxGasEstimate else maxGas

/-- `estimateGas`; a failed assertion ends the process. -/
def estimateGas (maxGas : ℤ) : Except Exception (ℤ × ExecutionResult) :=
  match search (probe w q) (lowerBound q) (upperBound maxGas) .empty none with
  | .ok r => .ok r
  | .error .abort => .error .abort
  | .error _ => .ok (0, .empty)

/-! ## A search whose runs succeed from a threshold on -/

section

variable {probe : ℤ → Except Exception ExecutionResult} {base g limit l u : ℤ} {e : ExecutionResult}
  {r : Option ExecutionResult}

/-- Up to the limit a run returns, and asks for more gas below `g` and only there; beyond the limit it throws. -/
structure Threshold (probe : ℤ → Except Exception ExecutionResult) (base g limit top : ℤ) : Prop where
  returns : ∀ m, base ≤ m → m ≤ limit → ∃ er, probe m = .ok er ∧ (er.lacksGas = true ↔ m < g)
  throws : ∀ m, limit < m → m ≤ top → ∃ x, probe m = .error x

theorem search_self : search probe l l e r = .ok (l, r.getD e) := by
  rw [search, dif_pos rfl]

theorem search_ne (h : u ≠ l) (hsum : 0 ≤ l + u) : search probe l u e r =
    match probe (Bisection.midpoint l u 0) with
    | .error x => .error x
    | .ok er =>
      if er.lacksGas then
        search probe (if l = Bisection.midpoint l u 0 then u else Bisection.midpoint l u 0) u er r
      else search probe l (if u = Bisection.midpoint l u 0 then l else Bisection.midpoint l u 0) er (some er) := by
  rw [search, dif_neg h, Bisection.tdiv_eq_midpoint hsum]

/-- The search between two ends that are in their order and can be run at. -/
theorem search_of_le {top : ℤ} (h : Threshold probe base g limit top) (hbase : base ≤ l) (h0 : 0 ≤ l) (hlu : l ≤ u)
    (hgu : g ≤ u) (hu : u ≤ limit + 1) : ∃ er', search probe l u e r = .ok (max g l, er') := by
  induction hn : (u - l).toNat using Nat.strong_induction_on generalizing l u e r with
  | _ n ih =>
    rcases hlu.eq_or_lt with rfl | hlt
    · rw [max_eq_right hgu]
      exact ⟨_, search_self⟩
    have hmid := Bisection.midpoint_zero (l := l) (u := u)
    obtain ⟨er', her', hlacks⟩ := h.returns (Bisection.midpoint l u 0) (by omega) (by omega)
    rw [search_ne hlt.ne' (by omega), her']
    dsimp only
    by_cases hg : Bisection.midpoint l u 0 < g
    · rw [if_pos (hlacks.2 hg), max_eq_left (by omega)]
      by_cases hl : l = Bisection.midpoint l u 0
      · -- the ends are next to each other, and the upper one is the threshold
        obtain rfl : u = g := by omega
        rw [if_pos hl]
        exact ⟨_, search_self⟩
      · rw [if_neg hl]
        obtain ⟨er'', hs⟩ := ih (u - Bisection.midpoint l u 0).toNat (by omega) (l := Bisection.midpoint l u 0) (u := u)
          (e := er') (r := r) (by omega) (by omega) (by omega) hgu hu rfl
        rw [max_eq_left (by omega)] at hs
        exact ⟨er'', hs⟩
    · rw [if_neg (fun hl => hg (hlacks.1 hl)), if_neg (by omega)]
      exact ih (Bisection.midpoint l u 0 - l).toNat (by omega) hbase h0 (by omega) (by omega) (by omega) rfl

/-- The search comes to a midpoint behind the threshold before one behind the limit. -/
def Reaches (l u g limit : ℤ) : Prop :=
  l = u ∨ max l u ≤ limit + 1 ∨ l < u ∧ ∃ k, g ≤ Bisection.midpoint l u k ∧ Bisection.midpoint l u k ≤ limit

theorem reaches_iff_of_lt (hlt : l < u) (hu : limit + 1 < u) :
    Reaches l u g limit ↔ ∃ k, g ≤ Bisection.midpoint l u k ∧ Bisection.midpoint l u k ≤ limit := by
  constructor
  · rintro (rfl | hle | ⟨-, h⟩)
    · exact absurd hlt (lt_irrefl _)
    · omega
    · exact h
  · exact fun h => .inr (.inr ⟨hlt, h⟩)

/-- A midpoint below the threshold does not count. -/
theorem reaches_midpoint_iff (hlt : l < u) (hu : limit + 1 < u) (hmid : Bisection.midpoint l u 0 < g) :
    Reaches (Bisection.midpoint l u 0) u g limit ↔ Reaches l u g limit := by
  rw [reaches_iff_of_lt (Bisection.midpoint_lt hlt) hu, reaches_iff_of_lt hlt hu]
  constructor
  · rintro ⟨k, hk⟩
    exact ⟨k + 1, by rwa [Bisection.midpoint_succ]⟩
  · rintro ⟨k, hk⟩
    cases k with
    | zero => omega
    | succ k => exact ⟨k, by rwa [Bisection.midpoint_succ] at hk⟩

/-- The search between two ends that are in their order. -/
theorem search_iff_of_le {top : ℤ} (h : Threshold probe base g limit top) (hbase : base ≤ l) (h0 : 0 ≤ l) (hlu : l ≤ u)
    (hgu : g ≤ u) (hg : g ≤ limit) (hu : u ≤ top) :
    (∃ er', search probe l u e r = .ok (max g l, er')) ↔ Reaches l u g limit := by
  by_cases hwithin : u ≤ limit + 1
  · exact iff_of_true (search_of_le h hbase h0 hlu hgu hwithin) (.inr (.inl (max_le (hlu.trans hwithin) hwithin)))
  induction hn : (u - l).toNat using Nat.strong_induction_on generalizing l e with
  | _ n ih =>
    rcases hlu.eq_or_lt with rfl | hlt
    · rw [max_eq_right hgu]
      exact iff_of_true ⟨_, search_self⟩ (.inl rfl)
    have hmid := Bisection.midpoint_zero (l := l) (u := u)
    rw [search_ne hlt.ne' (by omega)]
    by_cases hlimit : limit < Bisection.midpoint l u 0
    · obtain ⟨x, hx⟩ := h.throws _ hlimit (by omega)
      rw [hx, reaches_iff_of_lt hlt (by omega)]
      refine iff_of_false (fun ⟨_, h⟩ => by cases h) ?_
      rintro ⟨k, -, hk⟩
      have := Bisection.midpoint_zero_le (k := k) hlt.le
      omega
    obtain ⟨er', her', hlacks⟩ := h.returns (Bisection.midpoint l u 0) (by omega) (by omega)
    rw [her']
    dsimp only
    by_cases hgood : Bisection.midpoint l u 0 < g
    · have hne : l ≠ Bisection.midpoint l u 0 := by omega
      rw [if_pos (hlacks.2 hgood), if_neg hne, ← reaches_midpoint_iff hlt (by omega) hgood]
      have hrec := ih (u - Bisection.midpoint l u 0).toNat (by omega) (l := Bisection.midpoint l u 0) (e := er')
        (by omega) (by omega) (by omega) rfl
      rw [max_eq_left hgood.le] at hrec
      rwa [max_eq_left (by omega)]
    · rw [if_neg fun hl => hgood (hlacks.1 hl), if_neg (by omega)]
      refine iff_of_true ?_ (.inr (.inr ⟨hlt, 0, by omega, by omega⟩))
      exact search_of_le h hbase h0 (by omega) (by omega) (by omega)

/-- The search from an upper end below the lower one: every run is good, and they come up to the lower end. -/
theorem search_iff_of_gt {top : ℤ} (h : Threshold probe base g limit top) (hbase : base ≤ g) (h0 : 0 ≤ g) (hgu : g ≤ u)
    (hlu : u < l) (hl : l ≤ top) :
    (∃ er', search probe l u e r = .ok (max g l, er')) ↔ l ≤ limit + 1 := by
  rw [max_eq_right (by omega)]
  induction hn : (l - u).toNat using Nat.strong_induction_on generalizing u e r with
  | _ n ih =>
    have hmid := Bisection.midpoint_zero (l := l) (u := u)
    rw [search_ne hlu.ne (by omega)]
    by_cases hlimit : limit < Bisection.midpoint l u 0
    · obtain ⟨x, hx⟩ := h.throws _ hlimit (by omega)
      rw [hx]
      exact iff_of_false (fun ⟨_, h⟩ => by cases h) (by omega)
    obtain ⟨er', her', hlacks⟩ := h.returns (Bisection.midpoint l u 0) (by omega) (by omega)
    rw [her']
    dsimp only
    rw [if_neg fun hlack => absurd (hlacks.1 hlack) (by omega)]
    by_cases hend : u = Bisection.midpoint l u 0
    · rw [if_pos hend]
      exact iff_of_true ⟨_, search_self⟩ (by omega)
    · rw [if_neg hend]
      exact ih (l - Bisection.midpoint l u 0).toNat (by omega) (by omega) (by omega) rfl

/-- The search returns the greater of the threshold and the lower end just when it reaches a run that it can make. -/
theorem search_iff {top : ℤ} (h : Threshold probe base g limit top) (hbase : base ≤ g) (h0 : 0 ≤ base) (hl : base ≤ l)
    (hgu : g ≤ u) (hg : g ≤ limit) (hltop : l ≤ top) (hutop : u ≤ top) :
    (∃ er', search probe l u e r = .ok (max g l, er')) ↔ Reaches l u g limit := by
  rcases le_or_gt l u with hle | hgt
  · exact search_iff_of_le h hl (h0.trans hl) hle hgu hg hutop
  · rw [search_iff_of_gt h hbase (h0.trans hbase) hgu hgt hltop, Reaches, max_eq_left hgt.le]
    constructor
    · exact fun h => .inr (.inl h)
    · rintro (rfl | h | ⟨hlt, -⟩)
      · exact absurd hgt (lt_irrefl _)
      · exact h
      · exact absurd hgt hlt.not_gt

end

/-! ## The base gas -/

theorem foldl_gas_le {a b : EVMSchedule} {k : ℕ} (hzero : a.txDataZeroGas ≤ k * b.txDataZeroGas)
    (hnonzero : a.txDataNonZeroGas ≤ k * b.txDataNonZeroGas) : ∀ (data : Bytes) {x y : ℕ}, x ≤ k * y →
      data.foldl (fun g i => g + if i ≠ 0 then a.txDataNonZeroGas else a.txDataZeroGas) x ≤
        k * data.foldl (fun g i => g + if i ≠ 0 then b.txDataNonZeroGas else b.txDataZeroGas) y
  | [], _, _, h => h
  | i :: data, x, y, h => by
    rw [List.foldl_cons, List.foldl_cons]
    apply foldl_gas_le hzero hnonzero data
    rw [mul_add]
    split
    · exact Nat.add_le_add h hnonzero
    · exact Nat.add_le_add h hzero

/-- A schedule whose prices are at most `k` times those of another one. -/
theorem baseGasRequired_le {a b : EVMSchedule} {k : ℕ} (t : Transaction) (hgas : a.txGas ≤ k * b.txGas)
    (hcreate : a.txCreateGas ≤ k * b.txCreateGas) (hzero : a.txDataZeroGas ≤ k * b.txDataZeroGas)
    (hnonzero : a.txDataNonZeroGas ≤ k * b.txDataNonZeroGas) : t.baseGasRequired a ≤ k * t.baseGasRequired b := by
  apply foldl_gas_le hzero hnonzero
  split
  · exact hcreate
  · exact hgas

theorem txGas_le_foldl (a : EVMSchedule) : ∀ (data : Bytes) (x : ℕ),
    x ≤ data.foldl (fun g i => g + if i ≠ 0 then a.txDataNonZeroGas else a.txDataZeroGas) x
  | [], _ => le_rfl
  | _ :: data, _ => (Nat.le_add_right _ _).trans (txGas_le_foldl a data _)

section

variable (w : World) (q : GasQuery)

/-- `baseGasRequired` for the schedule of the block. -/
def baseGas : ℤ :=
  (transaction q 0).baseGasRequired (w.params.scheduleForBlockNumber (U256.ofInt q.bk.m_currentBlock.number))

def gasLimit : ℤ := q.bk.m_currentBlock.gasLimit.toNat

/-- The default prices are those of the block, or up to five times as high. -/
theorem lowerBound_bounds : baseGas w q ≤ lowerBound q ∧ lowerBound q ≤ 5 * baseGas w q := by
  unfold baseGas lowerBound ChainOperationParams.scheduleForBlockNumber
  constructor
  · have hle : ∀ s ∈ [IstanbulSchedule, ConstantinopleSchedule, ByzantiumSchedule],
        (transaction q 0).baseGasRequired s ≤ (transaction q 0).baseGasRequired {} := by
      intro s hs
      have hprices : s.txGas ≤ 1 * 21000 ∧ s.txCreateGas ≤ 1 * 53000 ∧ s.txDataZeroGas ≤ 1 * 4 ∧
          s.txDataNonZeroGas ≤ 1 * 68 := by
        revert s
        decide
      have h1 := baseGasRequired_le (b := {}) (transaction q 0) hprices.1 hprices.2.1 hprices.2.2.1 hprices.2.2.2
      rwa [one_mul] at h1
    apply Int.ofNat_le.2
    split
    · exact hle _ (by simp)
    · split
      · exact hle _ (by simp)
      · exact hle _ (by simp)
  · have hle : ∀ s ∈ [IstanbulSchedule, ConstantinopleSchedule, ByzantiumSchedule],
        (transaction q 0).baseGasRequired {} ≤ 5 * (transaction q 0).baseGasRequired s := by
      intro s hs
      have hprices : 21000 ≤ 5 * s.txGas ∧ 53000 ≤ 5 * s.txCreateGas ∧ 4 ≤ 5 * s.txDataZeroGas ∧
          68 ≤ 5 * s.txDataNonZeroGas := by
        revert s
        decide
      exact baseGasRequired_le _ hprices.1 hprices.2.1 hprices.2.2.1 hprices.2.2.2
    split
    · exact_mod_cast hle _ (by simp)
    · split
      · exact_mod_cast hle _ (by simp)
      · exact_mod_cast hle _ (by simp)

theorem lowerBound_pos : 0 < lowerBound q := by
  have hle : (if (transaction q 0).isCreation then 53000 else 21000) ≤ (transaction q 0).baseGasRequired {} :=
    txGas_le_foldl {} _ _
  unfold lowerBound
  split at hle <;> omega

/-! ## Runs beyond the block's gas limit -/

theorem verifyTransaction_gasLimit {p : ChainOperationParams} {i : ImportRequirements} {t : Transaction}
    {h : BlockHeader} (hgas : h.gasLimit.toNat < t.gas.toNat) : ∃ x, Ethash.verifyTransaction p i t h 0 = .error x := by
  cases hv : Ethash.verifyTransaction p i t h 0 with
  | error x => exact ⟨x, rfl⟩
  | ok u =>
    unfold Ethash.verifyTransaction at hv
    rw [bind_eq_ok] at hv
    obtain ⟨-, -, hv⟩ := hv
    rw [bind_eq_ok] at hv
    obtain ⟨-, -, hv⟩ := hv
    rw [throwIf_eq_ok, show (0 : U256).toNat = 0 from rfl, zero_add] at hv
    exact absurd hgas hv

theorem probe_throws {m : ℤ} (hm : gasLimit q < m) (htop : m < 2 ^ 256) : ∃ x, probe w q m = .error x := by
  have hgas : q.bk.m_currentBlock.gasLimit.toNat < (transaction q m).gas.toNat := by
    have h0 : (0 : ℤ) ≤ q.bk.m_currentBlock.gasLimit.toNat := Int.natCast_nonneg _
    unfold gasLimit at hm
    show _ < (BitVec.ofInt 256 m).toNat
    rw [BitVec.toNat_ofInt, Int.emod_eq_of_lt (by omega) (by exact_mod_cast htop)]
    omega
  obtain ⟨x, hx⟩ := verifyTransaction_gasLimit (p := w.params) (i := .Everything) hgas
  have hinit : ∀ s, (Executive.new s (envInfo q m)).initializeWith w (transaction q m) = .error x := by
    intro s
    show (do
      Ethash.verifyTransaction w.params .Everything (transaction q m) q.bk.m_currentBlock 0
      _ : Except Exception Executive) = _
    rw [hx, error_bind]
  refine ⟨x, ?_⟩
  unfold probe State.executionResult
  simp only [hinit]
  rfl

/-- The run of the executive with this gas. -/
def execution (mid : ℤ) : Executive.Result (Bool × Executive) :=
  let t := transaction q mid
  (q.bk.m_state.addBalance w.crypto.EmptyTrie q.sender (t.gas * t.gasPrice + t.value)).executeTransaction w
    (envInfo q mid) t

theorem probe_excepted (m : ℤ) : (probe w q m).toOption.map ExecutionResult.excepted =
    (execution w q m).toOption.map fun r => r.2.m_excepted := by
  unfold execution
  rw [← State.executionResult_excepted]
  unfold probe
  dsimp only
  cases State.executionResult w _ (envInfo q m) (transaction q m) with
  | ok er => rfl
  | error x => rfl

end

/-- The estimate of a call that succeeds from `g` on is `g`, or the lower bound of the search, just when the search
comes to a midpoint from `g` to the block's gas limit before it tries one beyond the limit. Its runs are those of the
executive. -/
theorem estimateGas_iff (w : World) (q : GasQuery) (maxGas g : ℤ) (hbase : baseGas w q ≤ g)
    (hmax : g ≤ min maxGas (min c_maxGasEstimate (gasLimit q)))
    (hcall : ∀ m, baseGas w q ≤ m → m ≤ gasLimit q → ∃ er, probe w q m = .ok er ∧ (er.lacksGas = true ↔ m < g)) :
    (∀ m, (probe w q m).toOption.map ExecutionResult.excepted =
      (execution w q m).toOption.map fun r => r.2.m_excepted) ∧
      ((∃ er, estimateGas w q maxGas = .ok (max g (lowerBound q), er)) ↔
        Reaches (lowerBound q) (upperBound maxGas) g (gasLimit q)) := by
  refine ⟨probe_excepted w q, ?_⟩
  rw [le_min_iff, le_min_iff] at hmax
  obtain ⟨hmax, hest, hlimit⟩ := hmax
  have hupper : upperBound maxGas ≤ c_maxGasEstimate ∧ g ≤ upperBound maxGas := by
    unfold upperBound
    split
    · exact ⟨le_rfl, hest⟩
    · exact ⟨by omega, hmax⟩
  have hbounds := lowerBound_bounds w q
  have h0 : (0 : ℤ) ≤ baseGas w q := Int.natCast_nonneg _
  unfold c_maxGasEstimate at hest hupper
  have hthreshold : Threshold (probe w q) (baseGas w q) g (gasLimit q) (2 ^ 64) :=
    ⟨hcall, fun m hm htop => probe_throws w q hm (by omega)⟩
  rw [← search_iff (e := .empty) (r := none) hthreshold hbase h0 hbounds.1 hupper.2 hlimit (by omega)
    (by omega)]
  have hpos := lowerBound_pos q
  have hne : max g (lowerBound q) ≠ 0 := (lt_max_of_lt_right hpos).ne'
  unfold estimateGas
  cases search (probe w q) (lowerBound q) (upperBound maxGas) .empty none with
  | ok r => exact .rfl
  | error x =>
    refine iff_of_false ?_ (fun ⟨_, h⟩ => by cases h)
    rintro ⟨er, h⟩
    split at h
    · rename_i heq
      cases heq
    · cases h
    · rw [Except.ok.injEq, Prod.mk.injEq] at h
      exact hne h.1.symm

/-- The contract that returns its input. -/
def identity : PrecompiledContract := ⟨0, fun b => 15 + 3 * ((b.length + 31) / 32), fun b => (true, b)⟩

def identityWorld : World := { Devnet.world with precompiled := fun a => if a = 4 then some identity else none }

/-- A call of that contract, on a block with somewhat more gas than it takes. -/
def identityQuery : GasQuery where
  bk := ⟨.ofTrie (fun _ => none) 0, .ofTrie (fun _ => none) 0, [], [], .empty,
    { BlockHeader.empty with gasLimit := 21040 }, [], false, [], [], 0⟩
  lastHashes := .ok []
  sender := 7
  value := 0
  dest := 4
  data := []
  gasPrice := 0

theorem identityQuery_call (m : ℤ) (hbase : baseGas identityWorld identityQuery ≤ m)
    (hlimit : m ≤ gasLimit identityQuery) :
    ∃ er, probe identityWorld identityQuery m = .ok er ∧ (er.lacksGas = true ↔ m < 21015) := by
  have hrun : ∀ k : Fin 41, ((probe identityWorld identityQuery (21000 + k)).map ExecutionResult.lacksGas).toOption =
      some (decide ((k : ℕ) < 15)) := by
    decide +kernel
  have h1 : baseGas identityWorld identityQuery = 21000 := by decide
  have h2 : gasLimit identityQuery = 21040 := by decide
  obtain ⟨k, rfl⟩ : ∃ k : Fin 41, m = 21000 + (k : ℕ) := ⟨⟨(m - 21000).toNat, by omega⟩, by simp only []; omega⟩
  have hk := hrun k
  cases hp : probe identityWorld identityQuery (21000 + (k : ℕ)) with
  | error x =>
    rw [hp] at hk
    cases hk
  | ok er =>
    rw [hp] at hk
    have hlacks : er.lacksGas = decide ((k : ℕ) < 15) := Option.some.inj hk
    refine ⟨er, rfl, ?_⟩
    rw [hlacks, decide_eq_true_iff]
    omega

/-- Between 21000 and 21040 the search finds the 15 that the contract takes. -/
theorem estimateGas_identity : lowerBound identityQuery = 21000 ∧
    ∃ er, estimateGas identityWorld identityQuery 21040 = .ok (21015, er) := by
  have hl : lowerBound identityQuery = 21000 := by decide
  have h := (estimateGas_iff identityWorld identityQuery 21040 21015 (by decide) (by decide) identityQuery_call).2.2
    (.inr (.inl (by decide)))
  rw [hl] at h
  exact ⟨hl, h⟩

/-- A call without data on a block whose gas limit is just what it takes. -/
def tightQuery : GasQuery where
  bk := ⟨.ofTrie (fun _ => none) 0, .ofTrie (fun _ => none) 0, [], [], .empty,
    { BlockHeader.empty with gasLimit := 21000 }, [], false, [], [], 0⟩
  lastHashes := .ok []
  sender := 7
  value := 0
  dest := 8
  data := []
  gasPrice := 0

theorem tightQuery_call (m : ℤ) (hbase : baseGas Devnet.world tightQuery ≤ m) (hlimit : m ≤ gasLimit tightQuery) :
    ∃ er, probe Devnet.world tightQuery m = .ok er ∧ (er.lacksGas = true ↔ m < 21000) := by
  have hm : m = 21000 := by
    have h1 : baseGas Devnet.world tightQuery = 21000 := by decide
    have h2 : gasLimit tightQuery = 21000 := by decide
    omega
  subst hm
  have hrun : ((probe Devnet.world tightQuery 21000).map ExecutionResult.lacksGas).toOption = some false := by
    decide
  cases hp : probe Devnet.world tightQuery 21000 with
  | error x =>
    rw [hp] at hrun
    cases hrun
  | ok er =>
    rw [hp] at hrun
    have hlacks : er.lacksGas = false := Option.some.inj hrun
    exact ⟨er, rfl, by simp [hlacks]⟩

/-- With all the gas that an estimate may spend, the first run throws. -/
theorem estimateGas_gives_up : baseGas Devnet.world tightQuery ≤ 21000 ∧
    21000 ≤ min 50000000 (min c_maxGasEstimate (gasLimit tightQuery)) ∧
    (∀ m, baseGas Devnet.world tightQuery ≤ m → m ≤ gasLimit tightQuery →
      ∃ er, probe Devnet.world tightQuery m = .ok er ∧ (er.lacksGas = true ↔ m < 21000)) ∧
    estimateGas Devnet.world tightQuery 50000000 = .ok (0, .empty) ∧ max 21000 (lowerBound tightQuery) = 21000 := by
  refine ⟨by decide, by decide, tightQuery_call, ?_, by decide⟩
  have hl : lowerBound tightQuery = 21000 := by decide
  have hu : upperBound 50000000 = 50000000 := by decide
  have hthrow : (match probe Devnet.world tightQuery (Bisection.midpoint 21000 50000000 0) with
      | .error .abort => true
      | .error _ => false
      | .ok _ => true) = false := by
    decide
  unfold estimateGas
  rw [hl, hu, search_ne (by decide) (by decide)]
  cases hp : probe Devnet.world tightQuery (Bisection.midpoint 21000 50000000 0) with
  | ok er =>
    rw [hp] at hthrow
    cases hthrow
  | error x =>
    rw [hp] at hthrow
    dsimp only
    split
    · rename_i heq
      cases heq
    · rename_i heq
      cases heq
      cases hthrow
    · rfl

end ClientBase

end Petrachor
