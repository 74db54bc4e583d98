import Petrachor.BlockHash
import Petrachor.LegacyVM

/-!
# Net gas metering

What the stores into one slot cost over a transaction. `settlement s g v` is what a slot that holds `v`
still has to be charged for if it held `g` before the transaction; a store charges the unchanged price
and the change of the settlement. The code asks the host for `g`, and `ExtVM` answers zero for every
slot: it does not override the null implementation of `originalStorageValue`. Besides stores, a
creation changes storage where the new account has some, and so does `BLOCKHASH` once it asks its
contract.
-/

namespace Petrachor

/-- What the stores that take a slot from `o` to `f` cost in all, less what is refunded, beyond the
unchanged price of each of them. -/
def EVMSchedule.settlement (s : EVMSchedule) (o f : U256) : ℤ :=
  if o = f then 0
  else if o = 0 then (s.sstoreSetGas : ℤ) - s.sstoreUnchangedGas
  else if f = 0 then (s.sstoreResetGas : ℤ) - s.sstoreUnchangedGas - s.sstoreRefundGas
  else (s.sstoreResetGas : ℤ) - s.sstoreUnchangedGas

section

variable {s : EVMSchedule}

@[simp] theorem EVMSchedule.settlement_self (v : U256) : s.settlement v v = 0 := if_pos rfl

/-- The prices of a schedule with net metering. -/
theorem EVMSchedule.net_prices (hs : s ∈ EVMSchedule.all) :
    s.sstoreUnchangedGas < s.sstoreResetGas ∧ s.sstoreResetGas < s.sstoreSetGas ∧
      s.sstoreSetGas = 20000 ∧ s.sstoreResetGas = 5000 ∧ s.sstoreRefundGas = 15000 ∧
      s.sstoreUnchangedGas ≤ 800 := by
  revert s
  decide

/-- A store charges the change of the settlement, whatever the host answers. -/
theorem Machine.netGas_eq (hs : s ∈ EVMSchedule.all) (g c v : U256) :
    ((Machine.netGas s g c v).1 : ℤ) - (Machine.netGas s g c v).2 =
      s.sstoreUnchangedGas + s.settlement g v - s.settlement g c := by
  obtain ⟨h1, h2, -⟩ := EVMSchedule.net_prices hs
  have hset : ((s.sstoreSetGas - s.sstoreUnchangedGas : ℕ) : ℤ) =
      s.sstoreSetGas - s.sstoreUnchangedGas := by omega
  have hreset : ((s.sstoreResetGas - s.sstoreUnchangedGas : ℕ) : ℤ) =
      s.sstoreResetGas - s.sstoreUnchangedGas := by omega
  unfold Machine.netGas EVMSchedule.settlement
  rw [hset, hreset]
  generalize (0 : U256) = z
  -- which of the original, the old and the new value are equal, and which are zero
  by_cases hcv : c = v
  · subst hcv
    rw [if_pos rfl]
    ring
  · rw [if_neg hcv]
    by_cases hgc : g = c <;> by_cases hg : g = z <;> by_cases hv : v = z <;> grind

end

/-! ## Transactions -/

/-- The storages of the accounts. -/
abbrev Storages := Address → U256 → U256

def Storages.write (m : Storages) (a : Address) (k v : U256) : Storages :=
  Function.update m a (Function.update (m a) k v)

/-- The host of a frame at the account `a`: what it says of storage. `original` is what it answers for
the value before the transaction. -/
def storageHost (s : EVMSchedule) (original : Storages) (a : Address) (rest : ExtVMFace Storages) :
    ExtVMFace Storages :=
  { rest with
    myAddress := a
    evmSchedule := s
    store := fun m k => m a k
    setStore := fun m k v => m.write a k v
    originalStorageValue := fun _ k => original a k }

/-- What `ExtVM` answers for the value before the transaction. It overrides `store`, `setStore` and
`evmSchedule`, and not `originalStorageValue`. -/
def extVMOriginal : Storages := fun _ _ => 0

/-- A store that was paid for. -/
structure Paid where
  address : Address
  key : U256
  gas : ℕ
  refund : ℤ

/-- A frame of a transaction: its account, its substate, and what it found when it was entered. -/
structure TxFrame where
  address : Address
  sub : SubState
  storage : Storages
  paid : List Paid

/-- A transaction under way: the storages, the frames, innermost first, the stores that were paid for in
frames that have not been reverted, latest first, and whether storage was changed by anything but
stores. -/
structure TxState where
  storage : Storages
  frames : List TxFrame
  paid : List Paid
  disturbed : Bool

/-- `operator+=` of a substate. -/
def SubState.accrue (p c : SubState) : SubState :=
  ⟨p.selfdestructs ++ c.selfdestructs.filter (· ∉ p.selfdestructs), p.logs ++ c.logs,
    p.refunds + c.refunds⟩

namespace TxState

variable (s : EVMSchedule) (original : Storages)

/-- What can happen next. A store is a run of `SSTORE` in some virtual machine of the innermost
frame. -/
inductive Step : TxState → TxState → Prop
  | enter (t : TxState) (a : Address) :
    Step t { t with frames := ⟨a, .empty, t.storage, t.paid⟩ :: t.frames }
  | sstore (t : TxState) (top : TxFrame) (rest : List TxFrame) (h : t.frames = top :: rest)
      (crypto : Crypto) (others : ExtVMFace Storages) (pc : ℕ) (spp : ℤ) (d d' : Machine Storages)
      (hd : d.m_ext = ⟨t.storage, top.sub⟩)
      (hrun : LegacyVM.interpretNext (storageHost s original top.address others) crypto .SSTORE pc spp
        d = .ok d') :
    Step t
      { t with
        storage := d'.m_ext.s
        frames := { top with sub := d'.m_ext.sub } :: rest
        paid := ⟨top.address, d.sp 0, d.m_io_gas - d'.m_io_gas,
          d'.m_ext.sub.refunds - top.sub.refunds⟩ :: t.paid }
  /-- Other instructions log, and note accounts to destroy. -/
  | other (t : TxState) (top : TxFrame) (rest : List TxFrame) (h : t.frames = top :: rest)
      (sub : SubState) (hsub : sub.refunds = top.sub.refunds) :
    Step t { t with frames := { top with sub } :: rest }
  /-- The log of changes leads back if it says all that was done. -/
  | revert (t : TxState) (top : TxFrame) (rest : List TxFrame) (h : t.frames = top :: rest) (storage : Storages)
      (hback : t.disturbed = false → storage = top.storage) :
    Step t
      { t with
        storage
        frames := { top with sub := .empty } :: rest
        paid := top.paid }
  /-- `accrueSubState`. -/
  | leave (t : TxState) (top parent : TxFrame) (rest : List TxFrame)
      (h : t.frames = top :: parent :: rest) :
    Step t { t with frames := { parent with sub := parent.sub.accrue top.sub } :: rest }
  /-- `executeCreate` clears the storage of the new account if it has a storage root. Where that changes
  nothing, the frame is just entered. -/
  | create (t : TxState) (a : Address) (hset : t.storage a ≠ 0) :
    Step t
      { t with
        storage := Function.update t.storage a 0
        frames := ⟨a, .empty, t.storage, t.paid⟩ :: t.frames
        disturbed := true }
  /-- `BLOCKHASH` that asks the contract: the cache of the state is cleared, and the storages are those
  of its trie. -/
  | blockhash (t : TxState) (w : World) (env : EnvInfo) (hlate : ¬ExtVM.FromList w env) (trie : Storages) :
    Step t { t with storage := trie, disturbed := true }

/-- A transaction to `a` that begins with these storages. -/
def start (m : Storages) (a : Address) : TxState := ⟨m, [⟨a, .empty, m, []⟩], [], false⟩

/-- What can be reached in a transaction. -/
def Run (m : Storages) (a : Address) (t : TxState) : Prop :=
  Relation.ReflTransGen (Step s original) (start m a) t

/-- The stores into a slot. -/
def storesInto (paid : List Paid) (a : Address) (k : U256) : List Paid :=
  paid.filter fun p => p.address = a ∧ p.key = k

def charged (paid : List Paid) (a : Address) (k : U256) : ℤ :=
  ((storesInto paid a k).map fun p => (p.gas : ℤ)).sum

def refunded (paid : List Paid) (a : Address) (k : U256) : ℤ :=
  ((storesInto paid a k).map Paid.refund).sum

/-! ## One store -/

section

variable {s : EVMSchedule} {original : Storages} {a : Address} {others : ExtVMFace Storages}
  {crypto : Crypto} {pc : ℕ} {spp : ℤ} {d d' : Machine Storages}

/-- The store that `SSTORE` pays for. -/
theorem sstore_ok (hnet : s.sstoreNetGasMetering = true)
    (h : LegacyVM.interpretNext (storageHost s original a others) crypto .SSTORE pc spp d = .ok d') :
    let g := Machine.netGas s (original a (d.sp 0)) (d.m_ext.s a (d.sp 0)) (d.sp 1)
    d'.m_ext.s = d.m_ext.s.write a (d.sp 0) (d.sp 1) ∧
      d'.m_ext.sub.refunds = d.m_ext.sub.refunds + g.2 ∧ d'.m_io_gas + g.1 = d.m_io_gas := by
  intro g
  have hbody : (LegacyVM.requireState (storageHost s original a others) >>= fun _ =>
      d.updateSSGas (storageHost s original a others) >>= fun e =>
      e.updateIOGas >>= fun e => .ok { e with
        m_ext := { e.m_ext with s := e.m_ext.s.write a (e.sp 0) (e.sp 1) } }) = .ok d' := h
  unfold LegacyVM.requireState at hbody
  split at hbody
  · cases hbody
  · unfold Machine.updateSSGas at hbody
    split at hbody
    · cases hbody
    · dsimp only at hbody
      rw [if_pos (show (storageHost s original a others).evmSchedule.sstoreNetGasMetering = true from
        hnet)] at hbody
      cases hpay : (Machine.updateSSGasEIP1283 (storageHost s original a others) d
          ((storageHost s original a others).store d.m_ext.s (d.sp 0)) (d.sp 1)).updateIOGas with
      | error e =>
        have hb : (Machine.updateIOGas _ >>= _) = Except.ok d' := hbody
        rw [hpay] at hb
        cases hb
      | ok e =>
        have hb : (Machine.updateIOGas _ >>= _) = Except.ok d' := hbody
        rw [hpay] at hb
        obtain ⟨hle, rfl⟩ := Machine.updateIOGas_ok hpay
        cases hb
        exact ⟨rfl, rfl, Nat.sub_add_cancel hle⟩

/-- With enough gas a store is paid for. -/
theorem sstore_pays (hnet : s.sstoreNetGasMetering = true) (hstatic : others.staticCall = false)
    (hstipend : s.callStipend < d.m_io_gas)
    (hgas : (Machine.netGas s (original a (d.sp 0)) (d.m_ext.s a (d.sp 0)) (d.sp 1)).1 ≤ d.m_io_gas) :
    ∃ d', LegacyVM.interpretNext (storageHost s original a others) crypto .SSTORE pc spp d =
      .ok d' := by
  show ∃ d', (LegacyVM.requireState (storageHost s original a others) >>= fun _ =>
      d.updateSSGas (storageHost s original a others) >>= fun e =>
      e.updateIOGas >>= fun e => .ok { e with
        m_ext := { e.m_ext with s := e.m_ext.s.write a (e.sp 0) (e.sp 1) } }) = .ok d'
  unfold LegacyVM.requireState
  rw [if_neg (show ¬(storageHost s original a others).staticCall = true by
    rw [show (storageHost s original a others).staticCall = false from hstatic]; decide)]
  unfold Machine.updateSSGas
  dsimp only
  rw [if_neg (fun h => absurd h.2 (not_le.2 hstipend)),
    if_pos (show (storageHost s original a others).evmSchedule.sstoreNetGasMetering = true from hnet)]
  have hpay : (d.updateSSGasEIP1283 (storageHost s original a others) (d.m_ext.s a (d.sp 0))
    (d.sp 1)).updateIOGas = _ := Machine.updateIOGas_of_le hgas
  show ∃ d', ((d.updateSSGasEIP1283 (storageHost s original a others) (d.m_ext.s a (d.sp 0))
    (d.sp 1)).updateIOGas >>= fun e => .ok { e with
      m_ext := { e.m_ext with s := e.m_ext.s.write a (e.sp 0) (e.sp 1) } }) = .ok d'
  rw [hpay]
  exact ⟨_, rfl⟩

end

/-! ## What a run keeps -/

section

/-- The stores into a slot have been charged the unchanged price each, and the change of the
settlement. -/
def Accounted (m : Storages) (a : Address) (k : U256) (storage : Storages) (paid : List Paid) : Prop :=
  charged paid a k - refunded paid a k =
    (storesInto paid a k).length * s.sstoreUnchangedGas +
      s.settlement (original a k) (storage a k) - s.settlement (original a k) (m a k)

variable {s original} {m storage : Storages} {a : Address} {k : U256} {paid : List Paid} {p : Paid}

theorem Accounted.nil : Accounted s original m a k m [] := by
  show (0 : ℤ) - 0 = (0 : ℕ) * _ + _ - _
  push_cast
  ring

theorem write_self (a : Address) (k v : U256) : storage.write a k v a k = v := by
  unfold Storages.write
  rw [Function.update_self, Function.update_self]

theorem write_ne {b : Address} {j : U256} (h : ¬(b = a ∧ j = k)) (v : U256) :
    storage.write b j v a k = storage a k := by
  unfold Storages.write
  by_cases hb : a = b
  · subst hb
    rw [Function.update_self, Function.update_of_ne fun hk => h ⟨rfl, hk.symm⟩]
  · rw [Function.update_of_ne hb]

/-- A store keeps the accounts of every slot. -/
theorem Accounted.store (h : Accounted s original m a k storage paid)
    {v : U256}
    (hp : (p.gas : ℤ) - p.refund =
      s.sstoreUnchangedGas + s.settlement (original p.address p.key) v -
        s.settlement (original p.address p.key) (storage p.address p.key)) :
    Accounted s original m a k (storage.write p.address p.key v) (p :: paid) := by
  unfold Accounted charged refunded storesInto at h ⊢
  by_cases hslot : p.address = a ∧ p.key = k
  · obtain ⟨rfl, rfl⟩ := hslot
    rw [List.filter_cons_of_pos (by simp), List.map_cons, List.map_cons, List.sum_cons, List.sum_cons,
      List.length_cons, write_self]
    push_cast
    linarith
  · rw [List.filter_cons_of_neg (by simpa using hslot), write_ne hslot]
    exact h

/-- As long as only stores change storage, the accounts of a slot are right now, and were when each
frame was entered. -/
structure Settles (s : EVMSchedule) (original m : Storages) (a : Address) (k : U256) (t : TxState) :
    Prop where
  now : t.disturbed = false → Accounted s original m a k t.storage t.paid
  before : t.disturbed = false → ∀ fr ∈ t.frames, Accounted s original m a k fr.storage fr.paid

variable {t t' : TxState}

theorem Settles.step (hs : s ∈ EVMSchedule.all) (hnet : s.sstoreNetGasMetering = true)
    (h : Settles s original m a k t) (hstep : Step s original t t') :
    Settles s original m a k t' := by
  cases hstep with
  | enter b =>
    refine ⟨h.now, fun hkept fr hfr => ?_⟩
    rcases List.mem_cons.1 hfr with rfl | hfr
    · exact h.now hkept
    · exact h.before hkept fr hfr
  | sstore top rest hf crypto others pc spp d d' hd hrun =>
    obtain ⟨hstore, hrefund, hgas⟩ := sstore_ok hnet hrun
    rw [hd] at hstore hrefund hgas
    refine ⟨fun hkept => ?_, fun hkept fr hfr => ?_⟩
    · show Accounted s original m a k d'.m_ext.s _
      rw [hstore]
      refine (h.now hkept).store ?_
      show ((d.m_io_gas - d'.m_io_gas : ℕ) : ℤ) - (d'.m_ext.sub.refunds - top.sub.refunds) = _
      have heq := Machine.netGas_eq hs (original top.address (d.sp 0))
        (t.storage top.address (d.sp 0)) (d.sp 1)
      dsimp only at hrefund hgas ⊢
      omega
    · rcases List.mem_cons.1 hfr with rfl | hfr
      · exact h.before hkept top (hf ▸ List.mem_cons_self)
      · exact h.before hkept fr (hf ▸ List.mem_cons_of_mem _ hfr)
  | other top rest hf sub hsub =>
    refine ⟨h.now, fun hkept fr hfr => ?_⟩
    rcases List.mem_cons.1 hfr with rfl | hfr
    · exact h.before hkept top (hf ▸ List.mem_cons_self)
    · exact h.before hkept fr (hf ▸ List.mem_cons_of_mem _ hfr)
  | revert top rest hf storage hback =>
    refine ⟨fun hkept => ?_, fun hkept fr hfr => ?_⟩
    · obtain rfl := hback hkept
      exact h.before hkept top (hf ▸ List.mem_cons_self)
    · rcases List.mem_cons.1 hfr with rfl | hfr
      · exact h.before hkept top (hf ▸ List.mem_cons_self)
      · exact h.before hkept fr (hf ▸ List.mem_cons_of_mem _ hfr)
  | leave top parent rest hf =>
    refine ⟨h.now, fun hkept fr hfr => ?_⟩
    rcases List.mem_cons.1 hfr with rfl | hfr
    · exact h.before hkept parent (hf ▸ List.mem_cons_of_mem _ List.mem_cons_self)
    · exact h.before hkept fr (hf ▸ List.mem_cons_of_mem _ (List.mem_cons_of_mem _ hfr))
  | create b hset => exact ⟨fun hkept => (Bool.noConfusion hkept), fun hkept => Bool.noConfusion hkept⟩
  | blockhash w env hlate trie => exact ⟨fun hkept => Bool.noConfusion hkept, fun hkept => Bool.noConfusion hkept⟩

theorem Settles.run (hs : s ∈ EVMSchedule.all) (hnet : s.sstoreNetGasMetering = true)
    {b : Address} (h : Run s original m b t) : Settles s original m a k t := by
  induction h with
  | refl =>
    refine ⟨fun _ => .nil, fun _ fr hfr => ?_⟩
    rw [List.mem_singleton.1 hfr]
    exact .nil
  | tail _ hstep ih => exact ih.step hs hnet hstep

/-- With a host that answers the value before the transaction, the prices are those of the stores'
net effect, where only stores change storage. -/
theorem net_gas_of_original (hs : s ∈ EVMSchedule.all) (hnet : s.sstoreNetGasMetering = true)
    {b : Address} (h : Run s m m b t) (hkept : t.disturbed = false) :
    charged t.paid a k - refunded t.paid a k =
      (storesInto t.paid a k).length * s.sstoreUnchangedGas + s.settlement (m a k) (t.storage a k) := by
  have hnow := (Settles.run (a := a) (k := k) hs hnet h).now hkept
  unfold Accounted at hnow
  rw [EVMSchedule.settlement_self] at hnow
  linarith

/-! ## The refund counter -/

/-- Asked for zero, a store takes nothing back. -/
theorem netGas_zero_nonneg (c v : U256) : 0 ≤ (Machine.netGas s 0 c v).2 := by
  unfold Machine.netGas
  split
  · exact le_rfl
  · split
    · rw [if_pos rfl]
    · rw [if_neg (not_not.2 rfl), if_pos rfl]
      split
      · positivity
      · exact le_rfl

/-- The counters of the frames add up to what the stores refunded. -/
def Balanced : List TxFrame → List Paid → Prop
  | [], paid => paid = []
  | top :: rest, paid =>
    top.sub.refunds + (top.paid.map Paid.refund).sum = (paid.map Paid.refund).sum ∧
      Balanced rest top.paid

theorem Balanced.step (h : Balanced t.frames t.paid) (hstep : Step s original t t') : Balanced t'.frames t'.paid := by
  cases hstep with
  | enter b => exact ⟨by show (0 : ℤ) + _ = _; rw [zero_add], h⟩
  | sstore top rest hf crypto others pc spp d d' hd hrun =>
    rw [hf] at h
    refine ⟨?_, h.2⟩
    have hsum := h.1
    rw [List.map_cons, List.sum_cons]
    dsimp only
    linarith
  | other top rest hf sub hsub =>
    rw [hf] at h
    refine ⟨?_, h.2⟩
    show sub.refunds + _ = _
    rw [hsub]
    exact h.1
  | revert top rest hf storage hback =>
    rw [hf] at h
    exact ⟨by show (0 : ℤ) + _ = _; rw [zero_add], h.2⟩
  | leave top parent rest hf =>
    rw [hf] at h
    refine ⟨?_, h.2.2⟩
    show parent.sub.refunds + top.sub.refunds + _ = _
    rw [← h.1, ← h.2.1]
    ring
  | create b hset => exact ⟨by show (0 : ℤ) + _ = _; rw [zero_add], h⟩
  | blockhash w env hlate trie => exact h

theorem Balanced.run {b : Address} (h : Run s original m b t) : Balanced t.frames t.paid := by
  induction h with
  | refl => exact ⟨rfl, rfl⟩
  | tail _ hstep ih => exact ih.step hstep

/-- Under `ExtVM` no counter ever goes below zero. -/
theorem refunds_nonneg (hnet : s.sstoreNetGasMetering = true) {b : Address}
    (h : Run s extVMOriginal m b t) : ∀ fr ∈ t.frames, 0 ≤ fr.sub.refunds := by
  induction h with
  | refl =>
    intro fr hfr
    rw [List.mem_singleton.1 hfr]
    exact le_rfl
  | tail _ hstep ih =>
    cases hstep with
    | enter b =>
      intro fr hfr
      rcases List.mem_cons.1 hfr with rfl | hfr
      · exact le_rfl
      · exact ih fr hfr
    | sstore top rest hf crypto others pc spp d d' hd hrun =>
      rw [hf] at ih
      intro fr hfr
      rcases List.mem_cons.1 hfr with rfl | hfr
      · obtain ⟨-, hrefund, -⟩ := sstore_ok hnet hrun
        have htop := ih top List.mem_cons_self
        have hnew := netGas_zero_nonneg (s := s) (d.m_ext.s top.address (d.sp 0)) (d.sp 1)
        show 0 ≤ d'.m_ext.sub.refunds
        rw [hrefund, hd]
        rw [hd] at hnew
        exact add_nonneg htop hnew
      · exact ih fr (List.mem_cons_of_mem _ hfr)
    | other top rest hf sub hsub =>
      rw [hf] at ih
      intro fr hfr
      rcases List.mem_cons.1 hfr with rfl | hfr
      · show 0 ≤ sub.refunds
        rw [hsub]
        exact ih top List.mem_cons_self
      · exact ih fr (List.mem_cons_of_mem _ hfr)
    | revert top rest hf storage hback =>
      rw [hf] at ih
      intro fr hfr
      rcases List.mem_cons.1 hfr with rfl | hfr
      · exact le_rfl
      · exact ih fr (List.mem_cons_of_mem _ hfr)
    | leave top parent rest hf =>
      rw [hf] at ih
      intro fr hfr
      rcases List.mem_cons.1 hfr with rfl | hfr
      · exact add_nonneg (ih parent (List.mem_cons_of_mem _ List.mem_cons_self))
          (ih top List.mem_cons_self)
      · exact ih fr (List.mem_cons_of_mem _ (List.mem_cons_of_mem _ hfr))
    | create b hset =>
      intro fr hfr
      rcases List.mem_cons.1 hfr with rfl | hfr
      · exact le_rfl
      · exact ih fr hfr
    | blockhash w env hlate trie => exact ih

/-! ## The prices under `ExtVM` -/

/-- The settlement from zero is that from the value before the transaction only where they agree. -/
theorem settlement_zero_iff (hs : s ∈ EVMSchedule.all) (o v : U256) :
    s.settlement 0 v - s.settlement 0 o = s.settlement o v ↔ o = 0 ∨ v = o := by
  obtain ⟨h1, h2, h3, h4, h5, h6⟩ := EVMSchedule.net_prices hs
  constructor
  · intro h
    unfold EVMSchedule.settlement at h
    by_contra hno
    obtain ⟨ho, hv⟩ := not_or.1 hno
    rw [if_neg (Ne.symm ho), if_pos rfl, if_neg (Ne.symm hv), if_neg ho] at h
    by_cases h0 : v = 0
    · rw [if_pos h0.symm, if_pos h0] at h
      omega
    · rw [if_neg (Ne.symm h0), if_pos rfl, if_neg h0] at h
      omega
  · rintro (rfl | rfl)
    · rw [EVMSchedule.settlement_self, sub_zero]
    · rw [EVMSchedule.settlement_self, sub_self]

/-- Where only stores change storage, the stores into a slot cost what their net effect does if and only
if the slot was empty before the transaction or has its old value again. The refund counter of no
frame is negative. -/
theorem net_gas_iff (hs : s ∈ EVMSchedule.all) (hnet : s.sstoreNetGasMetering = true) {b : Address}
    (h : Run s extVMOriginal m b t) (hkept : t.disturbed = false) (a : Address) (k : U256) :
    (charged t.paid a k - refunded t.paid a k =
        (storesInto t.paid a k).length * s.sstoreUnchangedGas +
          s.settlement (m a k) (t.storage a k) ∧
      Balanced t.frames t.paid ∧ ∀ fr ∈ t.frames, 0 ≤ fr.sub.refunds) ↔
    m a k = 0 ∨ t.storage a k = m a k := by
  have hnow := (Settles.run (a := a) (k := k) hs hnet h).now hkept
  unfold Accounted at hnow
  rw [show extVMOriginal a k = 0 from rfl] at hnow
  rw [← settlement_zero_iff hs]
  constructor
  · rintro ⟨heq, -⟩
    linarith
  · intro heq
    refine ⟨?_, Balanced.run h, refunds_nonneg hnet h⟩
    rw [← heq]
    linarith

/-- With enough gas, the innermost frame can store. -/
theorem Run.store (hnet : s.sstoreNetGasMetering = true) {b : Address} {top : TxFrame} {rest : List TxFrame}
    (h : Run s original m b t) (hf : t.frames = top :: rest) (k v n : U256)
    (hn : s.callStipend < n.toNat ∧
      (Machine.netGas s (original top.address k) (t.storage top.address k) v).1 ≤ n.toNat ∧ n.toNat < 2 ^ 64) :
    ∃ t' p sub, Run s original m b t' ∧ t'.disturbed = t.disturbed ∧
      t'.storage = t.storage.write top.address k v ∧ t'.frames = { top with sub } :: rest ∧
      t'.paid = p :: t.paid ∧ p.address = top.address ∧ p.key = k := by
  let d : Machine Storages :=
    { (LegacyVM.entry (nullHost s []) n ⟨t.storage, top.sub⟩).toMachine with
      m_stack := fun p => if p = 1024 then k else v }
  have hio : d.m_io_gas = n.toNat := Nat.mod_eq_of_lt hn.2.2
  have hpays : ∃ d', LegacyVM.interpretNext (storageHost s original top.address (nullHost s [])) Devnet.crypto
      .SSTORE 0 1024 d = .ok d' :=
    sstore_pays hnet rfl (by rw [hio]; exact hn.1) (by rw [hio]; exact hn.2.1)
  obtain ⟨d', hd'⟩ := hpays
  refine ⟨_, _, _, .tail h (.sstore t top rest hf Devnet.crypto (nullHost s []) 0 1024 d d' rfl hd'), rfl,
    (sstore_ok hnet hd').1, rfl, rfl, rfl, rfl⟩

end

/-- An empty slot is filled, and changed again in a call. -/
theorem net_gas_fill : ∃ t, Run IstanbulSchedule extVMOriginal (fun _ _ => 0) 0 t ∧
    t.storage 0 0 = 2 ∧ (storesInto t.paid 0 0).length = 2 ∧ charged t.paid 0 0 - refunded t.paid 0 0 = 20800 := by
  obtain ⟨t₁, p₁, sub₁, hrun₁, hkept₁, hst₁, hf₁, hp₁, ha₁, hk₁⟩ :=
    Run.store rfl (show Run IstanbulSchedule extVMOriginal (fun _ _ => 0) 0 _ from .refl) rfl 0 1 30000 (by decide)
  have hrun : Run IstanbulSchedule extVMOriginal (fun _ _ => 0) 0
      { t₁ with frames := ⟨0, .empty, t₁.storage, t₁.paid⟩ :: t₁.frames } := .tail hrun₁ (.enter t₁ 0)
  have h1 : t₁.storage 0 0 = 1 := by
    rw [hst₁]
    exact write_self 0 0 1
  have hprice : (Machine.netGas IstanbulSchedule 0 (t₁.storage 0 0) 2).1 ≤ 30000 := by
    rw [h1]
    decide
  obtain ⟨t, p, sub, hrun, hkept, hst, -, hp, ha, hk⟩ :=
    Run.store rfl hrun rfl 0 2 30000 ⟨by decide, hprice, by decide⟩
  have h2 : t.storage 0 0 = 2 := by
    rw [hst]
    exact write_self 0 0 2
  have hlen : (storesInto t.paid 0 0).length = 2 := by
    rw [hp, hp₁, storesInto, List.filter_cons_of_pos (by simp [ha, hk]), List.filter_cons_of_pos (by simp [ha₁, hk₁])]
    rfl
  refine ⟨t, hrun, h2, hlen, ?_⟩
  rw [((net_gas_iff (by decide) rfl hrun (hkept.trans hkept₁) 0 0).2 (.inl rfl)).1, hlen, h2]
  decide

/-- A slot that held 1 and is given 2 is charged as if nothing had changed: 800 instead of 5000. -/
theorem net_gas_of_full_slot : ∃ t, Run IstanbulSchedule extVMOriginal (fun _ _ => 1) 0 t ∧
    t.storage 0 0 = 2 ∧ (storesInto t.paid 0 0).length = 1 ∧
    charged t.paid 0 0 - refunded t.paid 0 0 = 800 ∧
    charged t.paid 0 0 - refunded t.paid 0 0 ≠
      (storesInto t.paid 0 0).length * IstanbulSchedule.sstoreUnchangedGas +
        IstanbulSchedule.settlement 1 (t.storage 0 0) := by
  obtain ⟨t, p, sub, hrun, hkept, hst, -, hp, ha, hk⟩ :=
    Run.store rfl (show Run IstanbulSchedule extVMOriginal (fun _ _ => 1) 0 _ from .refl) rfl 0 2 30000 (by decide)
  have h2 : t.storage 0 0 = 2 := by
    rw [hst]
    exact write_self 0 0 2
  have hlen : storesInto t.paid 0 0 = [p] := by
    rw [hp]
    exact List.filter_cons_of_pos (by simp [ha, hk])
  have hnow := (Settles.run (a := 0) (k := 0) (by decide) rfl hrun).now hkept
  unfold Accounted at hnow
  rw [h2, hlen, List.length_singleton] at hnow
  have h800 : charged t.paid 0 0 - refunded t.paid 0 0 = 800 := hnow.trans (by decide)
  refine ⟨t, hrun, h2, by rw [hlen]; rfl, h800, ?_⟩
  rw [h800, hlen, h2, List.length_singleton]
  decide

end TxState

end Petrachor
