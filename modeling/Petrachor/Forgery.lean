import Petrachor.TransactionRead

/-!
# Signatures that nobody checks

A transaction is read, asked whether its signature is valid, passed to the seal engine and then to
the executive, and none of them verifies the signature. So whatever fits in a block can be sent from
every account: the transaction is written with the account's key and any point for a signature, and
read back as it was.
-/

namespace Petrachor

/-- The signature scheme: a signature is accepted for the key of a secret just if the secret signed
it, and there is a secret with a key. -/
structure Crypto.Scheme (c : Crypto) : Prop where
  verify_iff : ∀ s p h, c.toPublic s ≠ 0 → (c.verify (c.toPublic s) p h = true ↔ p = c.sign s h)
  exists_key : ∃ s, c.toPublic s ≠ 0

namespace Transaction

/-- The transaction is signed by the key it carries. -/
def Signed (c : Crypto) (t : Transaction) : Prop :=
  ∃ v h, t.m_vrs = some v ∧ t.sha3 c .WithoutSignature = .ok h ∧
    c.verify v.publicKey v.signature h = true

end Transaction

/-! ## What the checks let through -/

section

variable (w : World) (s : State) (env : EnvInfo)

/-- The bytes are read as a transaction with a signature that is not zero, and all checks of it
pass. -/
def Accepted (b : Bytes) (t : Transaction) : Prop :=
  Transaction.ofBytes b .Everything = .ok t ∧ t.hasZeroSignature = false ∧
    Ethash.verifyTransaction w.params .Everything t env.header env.gasUsed = .ok () ∧
    ∃ e, (Executive.new s env).initializeWith w t = .ok e

/-- A call of nothing by nobody that takes the gas of a call, with any point for a signature. -/
def forged (sender : Address) (v : SignatureStruct) : Transaction :=
  { m_type := .MessageCall, nonce := s.getNonce sender, value := 0, receiveAddress := 0,
    gasPrice := 0, gas := 21000, data := [], m_vrs := some v, m_forcedSender := 0 }

end

section

variable {w : World} {s : State} {env : EnvInfo}

theorem txGas_scheduleForBlockNumber (p : ChainOperationParams) (n : U256) :
    (p.scheduleForBlockNumber n).txGas = 21000 ∧ 21000 ≤ (p.scheduleForBlockNumber n).txCreateGas := by
  unfold ChainOperationParams.scheduleForBlockNumber
  split
  · decide
  · split <;> decide

/-- Every transaction takes the gas of a call. -/
theorem le_baseGasRequired (p : ChainOperationParams) (n : U256) (t : Transaction) :
    21000 ≤ t.baseGasRequired (p.scheduleForBlockNumber n) := by
  obtain ⟨hcall, hcreate⟩ := txGas_scheduleForBlockNumber p n
  have hgrow : ∀ (l : Bytes) (g : ℕ), g ≤ l.foldl (fun g i => g + if i ≠ 0 then
      (p.scheduleForBlockNumber n).txDataNonZeroGas else (p.scheduleForBlockNumber n).txDataZeroGas) g := by
    intro l
    induction l with
    | nil => exact fun g => le_rfl
    | cons x l ih => exact fun g => (Nat.le_add_right _ _).trans (ih _)
  have hstart : 21000 ≤ if t.isCreation then (p.scheduleForBlockNumber n).txCreateGas
      else (p.scheduleForBlockNumber n).txGas := by
    split
    · exact hcreate
    · exact hcall.ge
  calc 21000 ≤ _ := hstart
    _ ≤ t.baseGasRequired (p.scheduleForBlockNumber n) := hgrow t.data _

/-- What is accepted is past the fork and fits in the block. -/
theorem Accepted.fits {b : Bytes} {t : Transaction} (h : Accepted w s env b t) :
    w.params.EIP158ForkBlock ≤ U256.ofInt env.header.number ∧
      env.gasUsed.toNat + 21000 ≤ env.header.gasLimit.toNat := by
  obtain ⟨-, -, hver, -⟩ := h
  unfold Ethash.verifyTransaction SealEngineFace.verifyTransaction at hver
  simp only [unit_bind_eq_ok, throwIf_eq_ok] at hver
  obtain ⟨⟨hfork, -⟩, hgas, hlimit⟩ := hver
  have hbase := le_baseGasRequired w.params (U256.ofInt env.header.number) t
  constructor
  · exact BitVec.not_lt.1 fun hlt => hfork ⟨rfl, hlt⟩
  · have hle := Nat.le_of_not_lt fun hlt => hgas ⟨rfl, hlt⟩
    omega

/-- The seal engine asks a transaction for the fork and for its gas only. -/
theorem verifyTransaction_of_fits {t : Transaction} (hzero : t.hasZeroSignature = false)
    (hsig : t.hasSignature = true)
    (hfork : w.params.EIP158ForkBlock ≤ U256.ofInt env.header.number)
    (hgas : t.baseGasRequired (w.params.scheduleForBlockNumber (U256.ofInt env.header.number)) ≤
      t.gas.toNat)
    (hlimit : env.gasUsed.toNat + t.gas.toNat ≤ env.header.gasLimit.toNat) :
    Ethash.verifyTransaction w.params .Everything t env.header env.gasUsed = .ok () := by
  have hlow : t.checkLowS = .ok () := by
    obtain ⟨v, hv⟩ := Option.isSome_iff_exists.1 hsig
    unfold Transaction.checkLowS
    rw [hv]
    rfl
  unfold Ethash.verifyTransaction SealEngineFace.verifyTransaction
  simp only [unit_bind_eq_ok, throwIf_eq_ok, hzero, hlow, ite_self]
  refine ⟨⟨fun h => BitVec.not_lt.2 hfork h.2, by simp, by simp, trivial⟩, fun h => ?_, ?_⟩
  · exact Nat.not_lt.2 hgas h.2
  · exact Nat.not_lt.2 hlimit

section Forged

variable {v : SignatureStruct}

theorem baseGasRequired_forged (a : Address) (p : ChainOperationParams) (n : U256) :
    (forged s a v).baseGasRequired (p.scheduleForBlockNumber n) = 21000 :=
  (txGas_scheduleForBlockNumber p n).1

theorem length_forged (a : Address) :
    (RLPStream.encodeList ((forged s a v).encodeItems v)).length < maxPayload := by
  have hflat := Transaction.length_encodeItems (t := forged s a v) (v := v) rfl
  have hlist := Devnet.length_encodeList_le (hflat.trans_lt (by decide))
  calc _ ≤ _ := hlist
    _ ≤ _ := Nat.add_le_add_right hflat 9
    _ < maxPayload := by decide

/-- Past the fork a forged transaction is accepted wherever it fits. -/
theorem accepted_forged (hsig : v.signature ≠ 0)
    (hfork : w.params.EIP158ForkBlock ≤ U256.ofInt env.header.number)
    (hlimit : env.gasUsed.toNat + 21000 ≤ env.header.gasLimit.toNat) :
    let t := forged s (w.crypto.publicToAddress v.publicKey) v
    Accepted w s env (RLPStream.encodeList (t.encodeItems v)) t := by
  intro t
  have hzero : t.hasZeroSignature = false := decide_eq_false hsig
  have hver : Ethash.verifyTransaction w.params .Everything t env.header env.gasUsed = .ok () :=
    verifyTransaction_of_fits hzero rfl hfork (baseGasRequired_forged _ _ _).le hlimit
  refine ⟨Transaction.ofBytes_encodeItems rfl (fun h => by cases h) rfl rfl (length_forged _) _,
    hzero, hver, ?_⟩
  -- the nonce is the sender's, and nothing has to be paid
  have hsender : Executive.checkSender w s t = .ok 0 := by
    have hcost : t.value.toNat + t.gas.toNat * t.gasPrice.toNat = 0 := rfl
    simp only [Executive.checkSender]
    rw [throwIf_neg fun h => h rfl, ok_bind, throwIf_neg (by rw [hcost]; exact Nat.not_lt_zero _),
      ok_bind]
    rfl
  unfold Executive.initializeWith
  change ∃ e, (Ethash.verifyTransaction w.params .Everything t env.header env.gasUsed >>= _) = _
  rw [hver, ok_bind, if_neg (by rw [hzero]; decide)]
  change ∃ e, (Executive.checkSender w s t >>= _) = _
  rw [hsender]
  exact ⟨_, rfl⟩

/-- Nothing that was signed depends on the signature. -/
theorem sha3_forged (a : Address) :
    ∃ h, ∀ v, (forged s a v).sha3 w.crypto .WithoutSignature = .ok h :=
  ⟨w.crypto.sha3 (RLPStream.encodeList (forged s a ⟨0, 0⟩).signedFields), fun _ => rfl⟩

end Forged

variable (w) in
/-- All that is accepted is signed if and only if nothing is accepted: the fork that lets
transactions in is ahead, or no transaction fits in the block. -/
theorem accepted_signed_iff (hc : w.crypto.Scheme) (s : State) (env : EnvInfo) :
    (∀ b t, Accepted w s env b t → t.Signed w.crypto) ↔
      U256.ofInt env.header.number < w.params.EIP158ForkBlock ∨
        env.header.gasLimit.toNat < env.gasUsed.toNat + 21000 := by
  constructor
  · intro hall
    by_contra hno
    rw [not_or, BitVec.not_lt, not_lt] at hno
    obtain ⟨secret, hkey⟩ := hc.exists_key
    obtain ⟨h, hsha⟩ := sha3_forged (w := w) (s := s)
      (w.crypto.publicToAddress (w.crypto.toPublic secret))
    -- one of two points is not the signature of the secret
    obtain ⟨p, hp, hne⟩ : ∃ p : G1, p ≠ 0 ∧ p ≠ w.crypto.sign secret h := by
      by_cases hone : w.crypto.sign secret h = 1
      · exact ⟨2, by decide +kernel, by rw [hone]; decide +kernel⟩
      · exact ⟨1, by decide +kernel, Ne.symm hone⟩
    obtain ⟨v', h', hv, hh, hver⟩ := hall _ _ (accepted_forged (s := s)
      (v := ⟨p, w.crypto.toPublic secret⟩) hp hno.1 hno.2)
    cases hv
    rw [hsha] at hh
    cases hh
    exact hne ((hc.verify_iff secret p h hkey).1 hver)
  · rintro hor b t hacc
    obtain ⟨hfork, hfits⟩ := hacc.fits
    rcases hor with hlt | hlt
    · exact absurd hfork (BitVec.not_le.2 hlt)
    · omega

end

/-! ## A theft -/

namespace Devnet

/-- The development network with signatures that are checked when somebody asks. -/
def signedWorld : World :=
  { world with crypto := { crypto with verify := fun _ p h => p = h.setWidth 384 } }

theorem scheme_signedWorld : signedWorld.crypto.Scheme where
  verify_iff := fun _ _ _ _ => decide_eq_true_iff
  exists_key := ⟨1, by decide +kernel⟩

/-- The first block after the genesis block, with a gas limit. -/
def blockEnv (gasLimit : U256) : EnvInfo :=
  ⟨{ header [⟨2, false, 1, 0⟩] with gasLimit }, .ok [], 0, 1⟩

/-- The first author has five. -/
def funded : State := State.ofTrie (accounts 5 0) 0

/-- All of it goes to the second author, under a signature the first author never gave. -/
def theft : Transaction :=
  { m_type := .MessageCall, nonce := 0, value := 5, receiveAddress := address true, gasPrice := 0,
    gas := 21000, data := [], m_vrs := some ⟨1, (address false).setWidth 768⟩, m_forcedSender := 0 }

end Devnet

open Devnet (signedWorld blockEnv funded theft)

/-- In a block without gas nothing is accepted, and all of that is signed. -/
theorem accepted_signed_full :
    signedWorld.crypto.Scheme ∧
      ∀ b t, Accepted signedWorld funded (blockEnv 0) b t → t.Signed signedWorld.crypto :=
  ⟨Devnet.scheme_signedWorld,
    (accepted_signed_iff signedWorld Devnet.scheme_signedWorld funded (blockEnv 0)).2
      (.inr (by decide))⟩

/-- An account is emptied by a transaction its key did not sign. -/
theorem unsigned_theft :
    signedWorld.crypto.Scheme ∧
    ∃ b, Accepted signedWorld funded (blockEnv 0x100000) b theft ∧ ¬theft.Signed signedWorld.crypto ∧
      funded.balance (Devnet.address false) = 5 ∧
      ∃ r, funded.executeTransaction signedWorld (blockEnv 0x100000) theft = .ok r ∧
        r.2.m_s.balance (Devnet.address false) = 0 := by
  have hread : Transaction.ofBytes (RLPStream.encodeList (theft.encodeItems
      ⟨1, (Devnet.address false).setWidth 768⟩)) .Everything = .ok theft :=
    Transaction.ofBytes_encodeItems rfl (fun h => by cases h) rfl rfl (by decide +kernel) _
  have hver : Ethash.verifyTransaction signedWorld.params .Everything theft
      (blockEnv 0x100000).header (blockEnv 0x100000).gasUsed = .ok () :=
    verifyTransaction_of_fits (by decide +kernel) rfl (by decide) (by decide) (by decide)
  have hunsigned : ¬theft.Signed signedWorld.crypto := by
    rintro ⟨v, h, hv, hh, hsigned⟩
    cases hv
    cases hh
    revert hsigned
    decide +kernel
  have hinit : ((Executive.new funded (blockEnv 0x100000)).initializeWith signedWorld
      theft).toOption.isSome = true := by
    decide +kernel
  have hrun : (funded.executeTransaction signedWorld (blockEnv 0x100000) theft).toOption.any
      (fun r => r.2.m_s.balance (Devnet.address false) = 0) = true := by
    decide +kernel
  refine ⟨Devnet.scheme_signedWorld, _, ⟨hread, by decide +kernel, hver, ?_⟩, hunsigned,
    by decide, ?_⟩
  · cases h : (Executive.new funded (blockEnv 0x100000)).initializeWith signedWorld theft with
    | error e =>
      rw [h] at hinit
      cases hinit
    | ok e => exact ⟨e, rfl⟩
  · cases h : funded.executeTransaction signedWorld (blockEnv 0x100000) theft with
    | error e =>
      rw [h] at hrun
      cases hrun
    | ok r =>
      rw [h] at hrun
      exact ⟨r, rfl, of_decide_eq_true hrun⟩

end Petrachor
