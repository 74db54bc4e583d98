import Petrachor.Devnet
import Petrachor.LegacyVM

/-!
# Control flow

The virtual machine reads the code without checking bounds. A scan of the code from its first byte,
which skips push data, gives the positions where instructions start; the program counter is one of them
in every state of a run, and the padding covers what is read from there.
-/

namespace Petrachor

namespace LegacyVM

/-! ## Instruction boundaries -/

/-- The position of the instruction after the one at `pc`; past the end there is none. -/
def nextPC (code : Bytes) (pc : ℕ) : ℕ :=
  if pc < code.length then pc + 1 + pushBytes (code.getD pc 0) else pc

/-- A scan from the first byte that skips push data comes to `pc`. -/
def Boundary (code : Bytes) (pc : ℕ) : Prop := ∃ n, (nextPC code)^[n] 0 = pc

/-- A boundary that holds a `JUMPDEST`. -/
def IsJumpDest (code : Bytes) (pc : ℕ) : Prop :=
  pc < code.length ∧ Boundary code pc ∧ code.getD pc 0 = 0x5b

section

variable {code : Bytes} {pc p : ℕ}

theorem nextPC_of_lt (h : pc < code.length) :
    nextPC code pc = pc + 1 + pushBytes (code.getD pc 0) := if_pos h

theorem id_le_nextPC : id ≤ nextPC code := by
  intro pc
  show pc ≤ nextPC code pc
  unfold nextPC
  split <;> omega

theorem boundary_zero : Boundary code 0 := ⟨0, rfl⟩

theorem Boundary.next (h : Boundary code pc) : Boundary code (nextPC code pc) := by
  obtain ⟨n, rfl⟩ := h
  exact ⟨n + 1, Function.iterate_succ_apply' _ _ _⟩

/-- Between an instruction and the next there is no boundary. -/
theorem Boundary.next_le (h : Boundary code pc) (hp : Boundary code p) (hlt : pc < p) :
    nextPC code pc ≤ p := by
  obtain ⟨n, rfl⟩ := h
  obtain ⟨k, rfl⟩ := hp
  have hmono : Monotone fun m => (nextPC code)^[m] 0 :=
    fun a b hab => Function.monotone_iterate_of_id_le id_le_nextPC hab 0
  have hnk : n < k := by
    by_contra hkn
    exact absurd (hmono (not_lt.1 hkn)) (not_le.2 hlt)
  rw [← Function.iterate_succ_apply' (nextPC code) n 0]
  exact hmono hnk

set_option maxRecDepth 100000 in
theorem pushBytes_le (op : UInt8) : pushBytes op ≤ 32 := by
  have hall : ∀ n : Fin 256, pushBytes (UInt8.ofNat n) ≤ 32 := by decide
  have := hall ⟨op.toNat, op.toNat_lt⟩
  simpa only [UInt8.ofNat_toNat] using this

/-- No boundary is further behind the code than the longest push data. -/
theorem Boundary.le (h : Boundary code pc) : pc ≤ code.length + 32 := by
  obtain ⟨n, rfl⟩ := h
  induction n with
  | zero => exact Nat.zero_le _
  | succ n ih =>
    rw [Function.iterate_succ_apply']
    generalize (nextPC code)^[n] 0 = pc at ih ⊢
    have := pushBytes_le (code.getD pc 0)
    unfold nextPC
    split <;> omega

end

/-! ## The copy of the code -/

/-- The opcodes the optimiser keeps for itself. -/
def Reserved (op : UInt8) : Prop := op = 0xac ∨ op = 0xad ∨ op = 0xae

/-- A padded copy of the code in which some reserved opcodes are made invalid. -/
structure Copies (orig code : Bytes) : Prop where
  length : code.length = orig.length + 33
  byte : ∀ i, code.getD i 0 = orig.getD i 0 ∨ Reserved (orig.getD i 0) ∧ code.getD i 0 = 0xfe

section

variable {orig code : Bytes} {i pc : ℕ}

theorem copies_copyCode : Copies orig (copyCode orig 33) where
  length := by
    unfold copyCode
    rw [List.length_append, List.length_replicate]
  byte i := by
    left
    unfold copyCode
    rcases Nat.lt_or_ge i orig.length with h | h
    · rw [List.getD_append _ _ _ _ h]
    · rw [List.getD_append_right _ _ _ _ h, List.getD_eq_default _ _ h]
      rcases Nat.lt_or_ge (i - orig.length) 33 with h' | h'
      · rw [List.getD_replicate _ h']
      · exact List.getD_eq_default _ _ (by rw [List.length_replicate]; exact h')

theorem Copies.set (h : Copies orig code) (hr : Reserved (orig.getD pc 0)) :
    Copies orig (code.set pc 0xfe) where
  length := by rw [List.length_set, h.length]
  byte i := by
    by_cases hi : pc = i
    · subst hi
      rcases Nat.lt_or_ge pc code.length with hlt | hge
      · right
        exact ⟨hr, by simp [List.getD_eq_getElem?_getD, hlt]⟩
      · rw [List.set_eq_of_length_le hge]
        exact h.byte pc
    · have hne : (code.set pc 0xfe).getD i 0 = code.getD i 0 := by
        simp only [List.getD_eq_getElem?_getD, List.getElem?_set_ne hi]
      rw [hne]
      exact h.byte i

theorem Copies.pushBytes_eq (h : Copies orig code) (i : ℕ) :
    pushBytes (code.getD i 0) = pushBytes (orig.getD i 0) := by
  rcases h.byte i with h | ⟨h | h | h, h'⟩
  · rw [h]
  all_goals
    rw [h, h']
    rfl

theorem Copies.jumpDest_iff (h : Copies orig code) (i : ℕ) :
    code.getD i 0 = 0x5b ↔ orig.getD i 0 = 0x5b := by
  rcases h.byte i with h | ⟨h | h | h, h'⟩
  · rw [h]
  all_goals
    rw [h, h']
    decide

/-- The bytes behind the code stop the virtual machine. -/
theorem Copies.past (h : Copies orig code) (hi : orig.length ≤ i) : code.getD i 0 = 0 := by
  have h0 : orig.getD i 0 = 0 := List.getD_eq_default _ _ hi
  rcases h.byte i with h | ⟨h | h | h, h'⟩
  · rw [h, h0]
  all_goals
    rw [h0] at h
    cases h

/-- What the scan has found when it comes to `pc`. -/
structure Scanned (orig code : Bytes) (pc : ℕ) (dests : List ℕ) : Prop where
  copies : Copies orig code
  boundary : Boundary orig pc
  sorted : dests.Pairwise (· < ·)
  mem : ∀ p, p ∈ dests ↔ p < pc ∧ IsJumpDest orig p

theorem Scanned.next {dests dests' : List ℕ} (h : Scanned orig code pc dests) (hpc : pc < orig.length)
    {code' : Bytes} (hc : Copies orig code') (hs : dests'.Pairwise (· < ·))
    (hm : ∀ p, p ∈ dests' ↔ p ∈ dests ∨ p = pc ∧ orig.getD pc 0 = 0x5b) :
    Scanned orig code' (nextPC orig pc) dests' where
  copies := hc
  boundary := h.boundary.next
  sorted := hs
  mem p := by
    have hlt : pc < nextPC orig pc := by
      rw [nextPC_of_lt hpc]
      omega
    rw [hm, h.mem]
    constructor
    · rintro (⟨hp, hd⟩ | ⟨rfl, hb⟩)
      · exact ⟨hp.trans hlt, hd⟩
      · exact ⟨hlt, hpc, h.boundary, hb⟩
    · rintro ⟨hp, hd⟩
      rcases Nat.lt_trichotomy p pc with h' | rfl | h'
      · exact .inl ⟨h', hd⟩
      · exact .inr ⟨rfl, hd.2.2⟩
      · exact absurd (h.boundary.next_le hd.2.1 h') (not_le.2 hp)

/-- The loop of `optimize` scans the rest of the code. -/
theorem scanned_optimizeFrom : ∀ (k pc : ℕ) (code : Bytes) (dests : List ℕ),
    orig.length ≤ pc + k → Scanned orig code pc dests →
    ∃ pc', orig.length ≤ pc' ∧ Scanned orig (optimizeFrom orig.length k pc code dests).1 pc'
      (optimizeFrom orig.length k pc code dests).2 := by
  intro k
  induction k with
  | zero => exact fun pc code dests hle h => ⟨pc, hle, h⟩
  | succ k ih =>
    intro pc code dests hle h
    unfold optimizeFrom
    by_cases hpc : pc < orig.length
    · rw [if_pos hpc]
      dsimp only
      have hpush := h.copies.pushBytes_eq pc
      have hcopy : Copies orig (if code.getD pc 0 = 0xac ∨ code.getD pc 0 = 0xad ∨ code.getD pc 0 = 0xae
          then code.set pc 0xfe else code) := by
        split
        · rename_i hr
          refine h.copies.set ?_
          rcases h.copies.byte pc with hb | ⟨hb, -⟩
          · rw [← hb]
            exact hr
          · exact hb
        · exact h.copies
      by_cases hjd : code.getD pc 0 = 0x5b
      · rw [if_pos hjd]
        have horig := (h.copies.jumpDest_iff pc).1 hjd
        have hnext : nextPC orig pc = pc + 1 := by
          rw [nextPC_of_lt hpc, horig]
          rfl
        refine ih (pc + 1) _ _ (by omega) (hnext ▸ h.next hpc hcopy ?_ fun p => ?_)
        · refine List.pairwise_append.2 ⟨h.sorted, List.pairwise_singleton _ _, fun a ha b hb => ?_⟩
          rw [List.mem_singleton.1 hb]
          exact ((h.mem a).1 ha).1
        · rw [List.mem_append, List.mem_singleton]
          exact or_congr_right ⟨fun h => ⟨h, horig⟩, fun h => h.1⟩
      · rw [if_neg hjd]
        have hnext : nextPC orig pc = pc + 1 + pushBytes (code.getD pc 0) := by
          rw [nextPC_of_lt hpc, hpush]
        refine ih _ _ _ (by omega) (hnext ▸ h.next hpc hcopy h.sorted fun p => ?_)
        refine ⟨.inl, fun h' => h'.resolve_right fun hp => hjd ?_⟩
        exact (h.copies.jumpDest_iff pc).2 hp.2
    · rw [if_neg hpc]
      exact ⟨pc, not_lt.1 hpc, h⟩

theorem scanned_optimize (orig : Bytes) : ∃ pc, orig.length ≤ pc ∧
    Scanned orig (optimize orig).1 pc (optimize orig).2 :=
  scanned_optimizeFrom _ 0 _ [] (by omega)
    ⟨copies_copyCode, boundary_zero, List.Pairwise.nil, fun p => by
      constructor
      · intro h
        cases h
      · rintro ⟨h, -⟩
        omega⟩

theorem copies_optimize (orig : Bytes) : Copies orig (optimize orig).1 := by
  obtain ⟨pc, -, h⟩ := scanned_optimize orig
  exact h.copies

/-- The table of jump destinations. -/
theorem binarySearch_optimize (orig : Bytes) (p : ℕ) :
    BinarySearch.binarySearch (optimize orig).2 p = true ↔ IsJumpDest orig p := by
  obtain ⟨pc, hle, h⟩ := scanned_optimize orig
  rw [BinarySearch.binarySearch_eq_true h.sorted, h.mem]
  exact ⟨fun h => h.2, fun h => ⟨h.1.trans_le hle, h⟩⟩

end

/-! ## One instruction -/

set_option maxRecDepth 100000 in
theorem immediate_ofByte (op : UInt8) : (Instruction.ofByte op).immediate = pushBytes op := by
  have hall : ∀ n : Fin 256, (Instruction.ofByte (UInt8.ofNat n)).immediate =
    pushBytes (UInt8.ofNat n) := by decide
  have := hall ⟨op.toNat, op.toNat_lt⟩
  simpa only [UInt8.ofNat_toNat] using this

theorem bind_eq_error {ε α β : Type} {x : Except ε α} {g : α → Except ε β} {e : ε}
    (h : x >>= g = .error e) : x = .error e ∨ ∃ a, x = .ok a ∧ g a = .error e := by
  cases x with
  | error e' =>
    cases h
    exact .inl rfl
  | ok a => exact .inr ⟨a, rfl, h⟩

variable {σ : Type} {f : ExtVMFace σ} {crypto : Crypto} {vm vm' : LegacyVM σ} {b : UInt8}

theorem ofBody_eq_error {α : Type} {x : Body α} {e : Stop} (h : ofBody x = .error e) :
    ∃ y, e = .thrown y := by
  cases x with
  | error y =>
    cases h
    exact ⟨y, rfl⟩
  | ok a => cases h

/-- Push data inside the copied code is read. -/
theorem pushData_ok : ∀ (n i : ℕ) (v : U256), i + n ≤ vm.m_code.length →
    ∃ v', vm.pushData n i v = .ok v' := by
  intro n
  induction n with
  | zero => exact fun i v _ => ⟨v, rfl⟩
  | succ n ih =>
    intro i v h
    have hlt : i < vm.m_code.length := by omega
    have hi : vm.codeAt i = .ok vm.m_code[i] := by
      unfold codeAt
      rw [List.getElem?_eq_getElem hlt]
    obtain ⟨v', hv⟩ := ih (i + 1) (v <<< 8 ||| BitVec.ofNat 256 vm.m_code[i].toNat) (by omega)
    refine ⟨v', ?_⟩
    show vm.codeAt i >>= _ = _
    rw [hi]
    exact hv

theorem verifyJumpDest_eq_ok {dest : U256} {pc : ℕ} (h : ofBody (vm.verifyJumpDest dest) = .ok pc) :
    pc = dest.toNat ∧ BinarySearch.binarySearch vm.m_jumpDests dest.toNat = true := by
  unfold verifyJumpDest at h
  split at h
  · rename_i hd
    cases h
    exact ⟨rfl, hd.2⟩
  · cases h

/-- Where an instruction that goes on leaves the program counter. -/
structure Goes (vm vm' : LegacyVM σ) : Prop where
  code : vm'.m_code = vm.m_code
  jumpDests : vm'.m_jumpDests = vm.m_jumpDests
  spp : vm'.m_SPP = vm.m_SPP
  pc : vm'.m_PC = vm.m_PC + 1 + (Instruction.ofByte vm.m_OP).immediate ∨
    BinarySearch.binarySearch vm.m_jumpDests vm'.m_PC = true

theorem interpretCase_goes (h : interpretCase f crypto vm = .ok (.running vm')) : Goes vm vm' := by
  unfold interpretCase at h
  split at h
  case h_1 =>
    obtain ⟨d, -, h⟩ := bind_eq_ok.1 h
    cases h
  case h_2 =>
    obtain ⟨_, -, h⟩ := bind_eq_ok.1 h
    obtain ⟨d, -, h⟩ := bind_eq_ok.1 h
    cases h
  case h_3 =>
    obtain ⟨d, -, h⟩ := bind_eq_ok.1 h
    cases h
  case h_4 =>
    obtain ⟨d, -, h⟩ := bind_eq_ok.1 h
    cases h
  case h_5 n hop =>
    obtain ⟨d, -, h⟩ := bind_eq_ok.1 h
    obtain ⟨v, -, h⟩ := bind_eq_ok.1 h
    cases h
    exact ⟨rfl, rfl, rfl, .inl (by rw [hop]; rfl)⟩
  case h_6 hop =>
    obtain ⟨d, -, h⟩ := bind_eq_ok.1 h
    obtain ⟨pc, hpc, h⟩ := bind_eq_ok.1 h
    obtain ⟨rfl, hd⟩ := verifyJumpDest_eq_ok hpc
    cases h
    exact ⟨rfl, rfl, rfl, .inr hd⟩
  case h_7 hop =>
    obtain ⟨d, -, h⟩ := bind_eq_ok.1 h
    split at h
    · obtain ⟨pc, hpc, h⟩ := bind_eq_ok.1 h
      obtain ⟨rfl, hd⟩ := verifyJumpDest_eq_ok hpc
      cases h
      exact ⟨rfl, rfl, rfl, .inr hd⟩
    · cases h
      exact ⟨rfl, rfl, rfl, .inl (by rw [hop]; rfl)⟩
  case h_8 hpush _ _ =>
    obtain ⟨d, -, h⟩ := bind_eq_ok.1 h
    cases h
    refine ⟨rfl, rfl, rfl, .inl ?_⟩
    have himm : (Instruction.ofByte vm.m_OP).immediate = 0 := by
      unfold Instruction.immediate
      split
      · rename_i n hn
        exact absurd hn (hpush n)
      · rfl
    rw [himm]

/-- The body of an instruction reads no code outside the copy, and leaves the stack pointer alone. -/
theorem interpretCase_error
    (hcode : vm.m_PC + 1 + (Instruction.ofByte vm.m_OP).immediate ≤ vm.m_code.length) {e : Stop}
    (h : interpretCase f crypto vm = .error e) : ∃ x, e = .thrown x := by
  unfold interpretCase at h
  split at h
  case h_1 =>
    rcases bind_eq_error h with h | ⟨d, -, h⟩
    · exact ofBody_eq_error h
    · cases h
  case h_2 =>
    rcases bind_eq_error h with h | ⟨_, -, h⟩
    · exact ofBody_eq_error h
    · rcases bind_eq_error h with h | ⟨d, -, h⟩
      · exact ofBody_eq_error h
      · cases h
        exact ⟨_, rfl⟩
  case h_3 =>
    rcases bind_eq_error h with h | ⟨d, -, h⟩
    · exact ofBody_eq_error h
    · cases h
  case h_4 =>
    rcases bind_eq_error h with h | ⟨d, -, h⟩
    · exact ofBody_eq_error h
    · cases h
  case h_5 n hop =>
    rcases bind_eq_error h with h | ⟨d, -, h⟩
    · exact ofBody_eq_error h
    · rw [hop] at hcode
      obtain ⟨v, hv⟩ := @pushData_ok _ vm (n + 1) (vm.m_PC + 1) 0 hcode
      rw [hv] at h
      cases h
  case h_6 hop =>
    rcases bind_eq_error h with h | ⟨d, -, h⟩
    · exact ofBody_eq_error h
    · rcases bind_eq_error h with h | ⟨pc, -, h⟩
      · exact ofBody_eq_error h
      · cases h
  case h_7 hop =>
    rcases bind_eq_error h with h | ⟨d, -, h⟩
    · exact ofBody_eq_error h
    · split at h
      · rcases bind_eq_error h with h | ⟨pc, -, h⟩
        · exact ofBody_eq_error h
        · cases h
      · cases h
  case h_8 hpush _ _ =>
    rcases bind_eq_error h with h | ⟨d, -, h⟩
    · exact ofBody_eq_error h
    · cases h

/-! ## Fetching -/

theorem step_of_adjustStack {e : Stop} (hcode : vm.m_code[vm.m_PC]? = some b)
    (h : adjustStack { vm with m_OP := b } (Instruction.ofByte b).info.args
      (Instruction.ofByte b).info.ret = .error e) : step f crypto vm = .error e := by
  unfold step fetchInstruction
  rw [codeAt_eq hcode]
  show (adjustStack _ _ _ >>= _) >>= _ = _
  rw [h]
  rfl

/-- Too few items. -/
theorem step_underflow (hcode : vm.m_code[vm.m_PC]? = some b)
    (h : stackEnd < vm.m_SPP + (Instruction.ofByte b).info.args) :
    step f crypto vm = .error (.badStack (.StackUnderflow (Instruction.ofByte b).info.args
      (stackEnd - (vm.m_SPP + (Instruction.ofByte b).info.args)))) := by
  refine step_of_adjustStack hcode ?_
  unfold adjustStack
  dsimp only
  rw [if_pos h]
  unfold throwBadStack
  rw [if_pos (by omega)]

/-- Too little room. -/
theorem step_overflow (hcode : vm.m_code[vm.m_PC]? = some b) (hsp : 0 ≤ vm.m_SPP)
    (hargs : vm.m_SPP + (Instruction.ofByte b).info.args ≤ stackEnd)
    (h : vm.m_SPP + (Instruction.ofByte b).info.args - (Instruction.ofByte b).info.ret < 0) :
    step f crypto vm = .error (.badStack (.OutOfStack
      (((Instruction.ofByte b).info.ret : ℤ) - (Instruction.ofByte b).info.args)
      (stackEnd - (vm.m_SPP + (Instruction.ofByte b).info.args - (Instruction.ofByte b).info.ret)))) := by
  refine step_of_adjustStack hcode ?_
  unfold adjustStack
  dsimp only
  rw [if_neg (not_lt.2 hargs), if_pos h]
  unfold throwBadStack
  rw [if_neg (by omega)]

/-! ## Jumps -/

section

variable (vm) in
/-- Taking a jump, or not. -/
def jumpTo (d : Machine σ) (dest : U256) : Except Stop (Outcome σ) := do
  let pc ← ofBody (vm.verifyJumpDest dest)
  .ok (.running { vm with toMachine := d, m_PC := pc })

theorem interpretCase_stop (h : Instruction.ofByte vm.m_OP = .STOP) :
    interpretCase f crypto vm =
      ofBody vm.updateIOGas >>= fun d => .ok (.done { vm with toMachine := d }) := by
  unfold interpretCase
  rw [h]

theorem interpretCase_jump (h : Instruction.ofByte vm.m_OP = .JUMP) :
    interpretCase f crypto vm = ofBody vm.updateIOGas >>= fun d => jumpTo vm d (d.sp 0) := by
  unfold interpretCase
  rw [h]
  rfl

theorem interpretCase_jumpi (h : Instruction.ofByte vm.m_OP = .JUMPI) :
    interpretCase f crypto vm = ofBody vm.updateIOGas >>= fun d =>
      if d.sp 1 ≠ 0 then jumpTo vm d (d.sp 0)
      else .ok (.running { vm with toMachine := d, m_PC := vm.m_PC + 1 }) := by
  unfold interpretCase
  rw [h]
  rfl

/-- A jump is taken to a boundary that holds a `JUMPDEST`, and to nothing else. -/
theorem jumpTo_eq (hd : vm.m_jumpDests = (optimize f.code).2) (hsize : f.code.length < 2 ^ 63)
    (d : Machine σ) (dest : U256) :
    (IsJumpDest f.code dest.toNat →
      jumpTo vm d dest = .ok (.running { vm with toMachine := d, m_PC := dest.toNat })) ∧
    (¬IsJumpDest f.code dest.toNat → jumpTo vm d dest = .error (.thrown .BadJumpDestination)) := by
  have hiff := binarySearch_optimize f.code dest.toNat
  rw [← hd] at hiff
  unfold jumpTo verifyJumpDest
  constructor
  · intro h
    rw [if_pos ⟨by have := h.1; omega, hiff.2 h⟩]
    rfl
  · intro h
    rw [if_neg fun h' => h (hiff.1 h'.2)]
    rfl

end

/-! ## What holds in a run -/

/-- The code is the optimised copy, the program counter is a boundary and the stack pointer is in the
stack. -/
structure InCode (f : ExtVMFace σ) (vm : LegacyVM σ) : Prop where
  code : vm.m_code = (optimize f.code).1
  jumpDests : vm.m_jumpDests = (optimize f.code).2
  boundary : Boundary f.code vm.m_PC
  nonneg : 0 ≤ vm.m_SPP
  le : vm.m_SPP ≤ stackEnd

theorem inCode_entry (gas : U256) (ext : ExtState σ) : InCode f (entry f gas ext) where
  code := rfl
  jumpDests := rfl
  boundary := boundary_zero
  nonneg := by show (0 : ℤ) ≤ 1024; decide
  le := le_rfl

section

variable (h : InCode f vm)

include h in
theorem InCode.pc_lt : vm.m_PC < f.code.length + 33 := by
  have := h.boundary.le
  omega

include h in
/-- The instruction at the program counter. -/
theorem InCode.fetch : vm.m_code[vm.m_PC]? = some (vm.m_code.getD vm.m_PC 0) := by
  have hlen := (copies_optimize f.code).length
  rw [← h.code] at hlen
  rw [List.getElem?_eq_getElem (by have := h.pc_lt; omega)]
  simp [List.getD_eq_getElem?_getD, show vm.m_PC < vm.m_code.length by have := h.pc_lt; omega]

include h in
/-- The push data of the instruction at the program counter is in the copied code. -/
theorem InCode.immediate_le :
    vm.m_PC + 1 + (Instruction.ofByte (vm.m_code.getD vm.m_PC 0)).immediate ≤ f.code.length + 33 := by
  have hcopy := copies_optimize f.code
  rw [← h.code] at hcopy
  rw [immediate_ofByte]
  rcases Nat.lt_or_ge vm.m_PC f.code.length with hlt | hge
  · have := pushBytes_le (vm.m_code.getD vm.m_PC 0)
    omega
  · rw [hcopy.past hge, show pushBytes 0 = 0 from rfl]
    exact h.pc_lt

include h in
/-- Past the end the virtual machine stops. -/
theorem InCode.past (hge : f.code.length ≤ vm.m_PC) :
    (∃ vm', step f crypto vm = .ok (.done vm')) ∨ step f crypto vm = .error (.thrown .OutOfGas) := by
  have hcopy := copies_optimize f.code
  rw [← h.code] at hcopy
  have hfetch := h.fetch
  rw [hcopy.past hge] at hfetch
  have hle := h.le
  have hnonneg := h.nonneg
  have hargs : (Instruction.ofByte 0).info.args = 0 := by decide
  have hret : (Instruction.ofByte 0).info.ret = 0 := by decide
  rw [step_eq (f := f) hfetch (by rw [hargs]; omega) (by rw [hargs, hret]; omega)]
  rw [interpretCase_stop (show Instruction.ofByte 0 = .STOP by decide)]
  rcases Nat.lt_or_ge (fetched f vm 0).m_io_gas (fetched f vm 0).m_runGas with hlt | hle
  · right
    rw [Machine.updateIOGas_of_lt hlt]
    rfl
  · left
    rw [Machine.updateIOGas_of_le hle]
    exact ⟨_, rfl⟩

include h in
/-- A step that gets to the next instruction has found its arguments and the room for its results. -/
theorem InCode.running (hstep : step f crypto vm = .ok (.running vm')) :
    vm.m_SPP + (Instruction.ofByte (vm.m_code.getD vm.m_PC 0)).info.args ≤ stackEnd ∧
    0 ≤ vm.m_SPP + (Instruction.ofByte (vm.m_code.getD vm.m_PC 0)).info.args -
      (Instruction.ofByte (vm.m_code.getD vm.m_PC 0)).info.ret ∧
    Goes (fetched f vm (vm.m_code.getD vm.m_PC 0)) vm' := by
  have hfetch := h.fetch
  generalize vm.m_code.getD vm.m_PC 0 = b at hfetch
  rcases lt_or_ge stackEnd (vm.m_SPP + (Instruction.ofByte b).info.args) with hunder | hargs
  · rw [step_underflow hfetch hunder] at hstep
    cases hstep
  rcases lt_or_ge (vm.m_SPP + (Instruction.ofByte b).info.args - (Instruction.ofByte b).info.ret : ℤ) 0
    with hover | hroom
  · rw [step_overflow hfetch h.nonneg hargs hover] at hstep
    cases hstep
  rw [step_eq hfetch hargs hroom] at hstep
  exact ⟨hargs, hroom, interpretCase_goes hstep⟩

include h in
/-- What a step keeps. -/
theorem InCode.stepped (hstep : step f crypto vm = .ok (.running vm')) : InCode f vm' := by
  have hcopy := copies_optimize f.code
  obtain ⟨hargs, hroom, hgoes⟩ := h.running hstep
  have hbin := binarySearch_optimize f.code vm'.m_PC
  rw [← h.jumpDests] at hbin
  refine ⟨hgoes.code.trans h.code, hgoes.jumpDests.trans h.jumpDests, ?_, ?_, ?_⟩
  · rcases hgoes.pc with hpc | hjump
    · rcases Nat.lt_or_ge vm.m_PC f.code.length with hlt | hge
      · have hnext := h.boundary.next
        rw [nextPC_of_lt hlt, ← hcopy.pushBytes_eq, ← h.code, ← immediate_ofByte] at hnext
        rw [hpc]
        exact hnext
      · rcases @InCode.past _ _ crypto _ h hge with ⟨_, hdone⟩ | hgas
        · rw [hdone] at hstep
          cases hstep
        · rw [hgas] at hstep
          cases hstep
    · exact (hbin.1 hjump).2.1
  · rw [hgoes.spp]
    exact hroom
  · rw [hgoes.spp]
    show vm.m_SPP + ((Instruction.ofByte _).info.args : ℤ) - ((Instruction.ofByte _).info.ret : ℤ) ≤ _
    omega

end

/-- What a run of the virtual machine comes to. -/
def Reached (f : ExtVMFace σ) (crypto : Crypto) (gas : U256) (ext : ExtState σ) (vm : LegacyVM σ) :
    Prop :=
  Relation.ReflTransGen (fun vm vm' => step f crypto vm = .ok (.running vm')) (entry f gas ext) vm

theorem Reached.inCode {gas : U256} {ext : ExtState σ} (h : Reached f crypto gas ext vm) :
    InCode f vm := by
  induction h with
  | refl => exact inCode_entry gas ext
  | tail _ hstep ih => exact ih.stepped hstep

/-! ## Control flow -/

/-- The outcome of a jump to `dest` that is paid for. -/
def JumpsTo (f : ExtVMFace σ) (crypto : Crypto) (vm : LegacyVM σ) (dest : U256) : Prop :=
  (IsJumpDest f.code dest.toNat →
    ∃ vm', step f crypto vm = .ok (.running vm') ∧ vm'.m_PC = dest.toNat) ∧
  (¬IsJumpDest f.code dest.toNat → step f crypto vm = .error (.thrown .BadJumpDestination))

/-- What holds of the control flow at the instruction `op` the program counter is at. -/
structure ControlSafe (f : ExtVMFace σ) (crypto : Crypto) (vm : LegacyVM σ) (op : Instruction) :
    Prop where
  /-- The fetch and the push data are in the copied code. -/
  fetch : vm.m_PC < f.code.length + 33
  pushData : vm.m_PC + op.immediate < f.code.length + 33
  inBounds : step f crypto vm ≠ .error .outOfBounds
  boundary : Boundary f.code vm.m_PC
  past : f.code.length ≤ vm.m_PC → op = .STOP ∧ ((∃ vm', step f crypto vm = .ok (.done vm')) ∨
    step f crypto vm = .error (.thrown .OutOfGas))
  nonneg : 0 ≤ vm.m_SPP
  le : vm.m_SPP ≤ stackEnd
  underflow : (∃ r g, step f crypto vm = .error (.badStack (.StackUnderflow r g))) ↔
    stackEnd < vm.m_SPP + op.info.args
  overflow : (∃ r g, step f crypto vm = .error (.badStack (.OutOfStack r g))) ↔
    vm.m_SPP + op.info.args ≤ stackEnd ∧ vm.m_SPP + op.info.args - op.info.ret < 0
  jump : op = .JUMP → vm.m_SPP + 1 ≤ stackEnd →
    tierGas f.evmSchedule op.info.gasPriceTier ≤ vm.m_io_gas →
    JumpsTo f crypto vm (vm.m_stack vm.m_SPP)
  jumpi : op = .JUMPI → vm.m_SPP + 2 ≤ stackEnd →
    tierGas f.evmSchedule op.info.gasPriceTier ≤ vm.m_io_gas →
    (vm.m_stack (vm.m_SPP + 1) ≠ 0 → JumpsTo f crypto vm (vm.m_stack vm.m_SPP)) ∧
    (vm.m_stack (vm.m_SPP + 1) = 0 →
      ∃ vm', step f crypto vm = .ok (.running vm') ∧ vm'.m_PC = vm.m_PC + 1)

section

variable (h : InCode f vm)

include h in
/-- The step once the instruction is fetched, or what is missing on the stack. -/
theorem InCode.cases :
    let op := Instruction.ofByte (vm.m_code.getD vm.m_PC 0)
    (stackEnd < vm.m_SPP + op.info.args ∧
      ∃ r g, step f crypto vm = .error (.badStack (.StackUnderflow r g))) ∨
    ((vm.m_SPP + op.info.args ≤ stackEnd ∧ vm.m_SPP + op.info.args - op.info.ret < 0) ∧
      ∃ r g, step f crypto vm = .error (.badStack (.OutOfStack r g))) ∨
    ((vm.m_SPP + op.info.args ≤ stackEnd ∧ 0 ≤ vm.m_SPP + op.info.args - op.info.ret) ∧
      step f crypto vm = interpretCase f crypto (fetched f vm (vm.m_code.getD vm.m_PC 0)) ∧
      ∀ e, step f crypto vm = .error e → ∃ x, e = .thrown x) := by
  intro op
  have hfetch := h.fetch
  rcases lt_or_ge stackEnd (vm.m_SPP + op.info.args) with hunder | hargs
  · exact .inl ⟨hunder, _, _, step_underflow hfetch hunder⟩
  rcases lt_or_ge (vm.m_SPP + op.info.args - op.info.ret : ℤ) 0 with hover | hroom
  · exact .inr (.inl ⟨⟨hargs, hover⟩, _, _, step_overflow hfetch h.nonneg hargs hover⟩)
  · have hstep : step f crypto vm = interpretCase f crypto (fetched f vm _) :=
      step_eq hfetch hargs hroom
    refine .inr (.inr ⟨⟨hargs, hroom⟩, hstep, fun e he => ?_⟩)
    rw [hstep] at he
    refine interpretCase_error ?_ he
    have hlen := (copies_optimize f.code).length
    rw [← h.code] at hlen
    show vm.m_PC + 1 + op.immediate ≤ vm.m_code.length
    rw [hlen]
    exact h.immediate_le

end

section

variable {d : Machine σ}

/-- The destination is on top of the stack. -/
theorem jumpsTo_of_eq (h : InCode f vm) (hsize : f.code.length < 2 ^ 63)
    (hstep : step f crypto vm = jumpTo (fetched f vm (vm.m_code.getD vm.m_PC 0)) d
      ((fetched f vm (vm.m_code.getD vm.m_PC 0)).sp 0)) :
    JumpsTo f crypto vm (vm.m_stack vm.m_SPP) := by
  have htop : (fetched f vm (vm.m_code.getD vm.m_PC 0)).sp 0 = vm.m_stack vm.m_SPP :=
    congrArg vm.m_stack (add_zero vm.m_SPP)
  rw [htop] at hstep
  have hj := @jumpTo_eq _ _ (fetched f vm (vm.m_code.getD vm.m_PC 0)) h.jumpDests hsize d
    (vm.m_stack vm.m_SPP)
  rw [← hstep] at hj
  exact ⟨fun hd => ⟨_, hj.1 hd, rfl⟩, hj.2⟩

end

/-- In every state of every run the fetch and the push data are in the copied code, the program counter
is a boundary, jumps are taken to boundaries that hold a `JUMPDEST` only, and the stack pointer is in
the stack. -/
theorem control_safe (hsize : f.code.length < 2 ^ 63) {gas : U256} {ext : ExtState σ}
    (hr : Reached f crypto gas ext vm) :
    ControlSafe f crypto vm (Instruction.ofByte (vm.m_code.getD vm.m_PC 0)) := by
  have h := hr.inCode
  have hcases := @InCode.cases _ _ crypto _ h
  have himm := h.immediate_le
  refine ⟨h.pc_lt, by omega, ?_, h.boundary, fun hge => ⟨?_, h.past hge⟩, h.nonneg, h.le, ?_, ?_, ?_, ?_⟩
  · intro hout
    rcases hcases with ⟨-, r, g, he⟩ | ⟨-, r, g, he⟩ | ⟨-, -, he⟩
    · rw [hout] at he
      cases he
    · rw [hout] at he
      cases he
    · obtain ⟨x, hx⟩ := he _ hout
      cases hx
  · have hcopy := copies_optimize f.code
    rw [← h.code] at hcopy
    rw [hcopy.past hge]
    decide
  · constructor
    · rintro ⟨r, g, hu⟩
      rcases hcases with ⟨hlt, -⟩ | ⟨-, r', g', he⟩ | ⟨-, -, he⟩
      · exact hlt
      · rw [hu] at he
        cases he
      · obtain ⟨x, hx⟩ := he _ hu
        cases hx
    · intro hlt
      rcases hcases with ⟨-, he⟩ | ⟨⟨hle, -⟩, -⟩ | ⟨⟨hle, -⟩, -⟩
      · exact he
      · omega
      · omega
  · constructor
    · rintro ⟨r, g, ho⟩
      rcases hcases with ⟨-, r', g', he⟩ | ⟨hle, -⟩ | ⟨-, -, he⟩
      · rw [ho] at he
        cases he
      · exact hle
      · obtain ⟨x, hx⟩ := he _ ho
        cases hx
    · rintro ⟨hle, hlt⟩
      rcases hcases with ⟨hlt', -⟩ | ⟨-, he⟩ | ⟨⟨-, hge⟩, -⟩
      · omega
      · exact he
      · omega
  · intro hop hargs hgas
    rw [hop] at hcases
    rcases hcases with ⟨hlt, -⟩ | ⟨⟨-, hlt⟩, -⟩ | ⟨-, hstep, -⟩
    · exact absurd hlt (not_lt.2 hargs)
    · have hneg : vm.m_SPP + (1 : ℕ) - (0 : ℕ) < 0 := hlt
      have := h.nonneg
      omega
    · rw [interpretCase_jump hop, Machine.updateIOGas_of_le hgas] at hstep
      have htaken : step f crypto vm = jumpTo (fetched f vm (vm.m_code.getD vm.m_PC 0))
        { (fetched f vm (vm.m_code.getD vm.m_PC 0)).toMachine with
          m_io_gas := (fetched f vm (vm.m_code.getD vm.m_PC 0)).m_io_gas -
            (fetched f vm (vm.m_code.getD vm.m_PC 0)).m_runGas }
        ((fetched f vm (vm.m_code.getD vm.m_PC 0)).sp 0) := hstep
      exact jumpsTo_of_eq h hsize htaken
  · intro hop hargs hgas
    rw [hop] at hcases
    rcases hcases with ⟨hlt, -⟩ | ⟨⟨-, hlt⟩, -⟩ | ⟨-, hstep, -⟩
    · exact absurd hlt (not_lt.2 hargs)
    · have hneg : vm.m_SPP + (2 : ℕ) - (0 : ℕ) < 0 := hlt
      have := h.nonneg
      omega
    · rw [interpretCase_jumpi hop, Machine.updateIOGas_of_le hgas] at hstep
      constructor
      · intro hne
        have htaken : step f crypto vm = ite (vm.m_stack (vm.m_SPP + 1) ≠ 0) _ _ := hstep
        rw [if_pos hne] at htaken
        exact jumpsTo_of_eq h hsize htaken
      · intro h0
        have hnot : step f crypto vm = ite (vm.m_stack (vm.m_SPP + 1) ≠ 0) _ _ := hstep
        rw [if_neg (not_not.2 h0)] at hnot
        exact ⟨_, hnot, rfl⟩

/-- `PUSH1 3, JUMP, JUMPDEST`. -/
def pushJump : ExtVMFace Unit := nullHost IstanbulSchedule [0x60, 0x03, 0x56, 0x5b]

/-- The code is run to its jump, and the jump is taken. -/
theorem control_safe_push : ∃ vm vm' : LegacyVM Unit, Reached pushJump Devnet.crypto 100 ⟨(), .empty⟩ vm ∧
    vm.m_PC = 2 ∧ ControlSafe pushJump Devnet.crypto vm .JUMP ∧
    step pushJump Devnet.crypto vm = .ok (.running vm') ∧ vm'.m_PC = 3 := by
  have hsize : pushJump.code.length < 2 ^ 63 := by decide
  obtain ⟨vm, hstep, hpc, hop, htop, hspp, hgas⟩ : ∃ vm : LegacyVM Unit,
      step pushJump Devnet.crypto (entry pushJump 100 ⟨(), .empty⟩) = .ok (.running vm) ∧ vm.m_PC = 2 ∧
        Instruction.ofByte (vm.m_code.getD vm.m_PC 0) = .JUMP ∧ vm.m_stack vm.m_SPP = 3 ∧
        vm.m_SPP = 1023 ∧ vm.m_io_gas = 97 := ⟨_, rfl, rfl, rfl, rfl, rfl, rfl⟩
  have hreached : Reached pushJump Devnet.crypto 100 ⟨(), .empty⟩ vm := .single hstep
  have hsafe := control_safe hsize hreached
  rw [hop] at hsafe
  have hjump := (hsafe.jump rfl (by rw [hspp]; decide) (by rw [hgas]; decide)).1
  rw [htop] at hjump
  obtain ⟨vm', hvm', hpc'⟩ := hjump ⟨by decide, ⟨2, by decide⟩, by decide⟩
  exact ⟨vm, vm', hreached, hpc, hsafe, hvm', hpc'⟩

end LegacyVM

end Petrachor
