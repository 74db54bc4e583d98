import Mathlib.Tactic
import Mathlib.Data.List.Basic
import Mathlib.Data.Int.Bitwise

/-!
# Machine types, exceptions and requirement flags

Fixed hashes are bit vectors of their size in bits, read big-endian, so `operator<` on hashes is
the order of the numbers they spell; `u256` is the same type with wrapping arithmetic. `int64_t`
fields are integers.
-/

namespace Petrachor

abbrev Bytes := List UInt8
abbrev H256 := BitVec 256
abbrev U256 := BitVec 256
abbrev Address := BitVec 160
abbrev LogBloom := BitVec 2048

-- the hashes that lists are searched for
instance : LawfulBEq H256 := inferInstance
instance : LawfulBEq Address := inferInstance

/-- The value of a big-endian byte string. -/
def fromBigEndian (b : Bytes) : ℕ := b.foldl (fun a x => a * 256 + x.toNat) 0

/-- The `n` low bytes of `v`, most significant first. -/
def toBigEndian : ℕ → ℕ → Bytes
  | 0, _ => []
  | n + 1, v => toBigEndian n (v / 256) ++ [UInt8.ofNat v]

/-- The bytes a hash of `n` bytes is stored in. -/
def asBytes {w : ℕ} (n : ℕ) (h : BitVec w) : Bytes := toBigEndian n h.toNat

/-- `FixedHash(bytes, FailIfDifferent)`: a string of another length gives the zero hash. -/
def ofBytes (n : ℕ) (b : Bytes) : BitVec (8 * n) :=
  if b.length = n then BitVec.ofNat (8 * n) (fromBigEndian b) else 0

/-- The byte string a string of hexadecimal digits spells. -/
def fromHex (s : String) : Bytes :=
  let digit (c : Char) : ℕ :=
    if '0' ≤ c ∧ c ≤ '9' then c.toNat - '0'.toNat else c.toNat - 'a'.toNat + 10
  let rec go : List Char → Bytes
    | a :: b :: l => UInt8.ofNat (digit a * 16 + digit b) :: go l
    | _ => []
  go s.toList

/-- The low 160 bits of a hash. -/
def right160 (h : H256) : Address := h.setWidth 160

/-- The value a signed 64-bit machine word of these low bits holds. -/
def toInt64 (n : ℕ) : ℤ := (BitVec.ofNat 64 n).toInt

/-- `(unsigned) n` for an `int64_t`. -/
def toUnsigned (n : ℤ) : ℕ := (n % 2 ^ 32).toNat

/-- The conversion of an `int64_t` to `u256`, negative numbers wrapping. -/
def U256.ofInt (n : ℤ) : U256 := BitVec.ofInt 256 n

/-- What a call can throw. The last two are no `dev::Exception`: an arithmetic error of the number
library, and a failed assertion or `exit`, which end the process. -/
inductive Exception
  -- RLP
  | BadCast | BadRLP | OversizeRLP | UndersizeRLP | RLPIsNotList | RLPListUnexpectedItemCount
  | RLPIsNotData | RLPException
  -- headers
  | InvalidNumber | TooMuchGasUsed | InvalidParentHash | InvalidTimestamp
  | InvalidTransactionsRoot | InvalidUnclesHash | InvalidDifficulty | InvalidGasLimit
  | ExtraDataTooBig | InvalidBlockNonce | GenesisBlockCannotBeCalculated | InvalidUncleParentHash
  -- transactions
  | InvalidSignature | TransactionIsUnsigned | InvalidZeroSignatureTransaction | OutOfGasIntrinsic
  | BlockGasLimitReached (required got : ℤ) | InvalidNonce (required got : ℤ) | NotEnoughCash
  | InvalidTransactionReceiptFormat
  -- enactment
  | InvalidOperationOnSealedBlock | InvalidReceiptsStateRoot | InvalidLogBloom | TooManyUncles
  | UncleInChain | UncleTooOld | UncleIsBrother | UncleParentNotInChain | InvalidStateRoot
  | InvalidGasUsed | BlockNotFound | BadRoot | RootNotFound | InvalidAccountStartNonceInState
  -- the chain
  | AlreadyHaveBlock | UnknownParent | FutureTime | TransientError
  | overflowError | abort
  deriving DecidableEq, Repr

/-- `if (c) BOOST_THROW_EXCEPTION(e)`. -/
def throwIf (c : Prop) [Decidable c] (e : Exception) : Except Exception Unit :=
  if c then .error e else .ok ()

@[simp] theorem throwIf_eq_ok {c : Prop} [Decidable c] {e : Exception} {u : Unit} :
    throwIf c e = .ok u ↔ ¬c := by
  unfold throwIf
  by_cases h : c <;> simp [h]

theorem throwIf_neg {c : Prop} [Decidable c] {e : Exception} (h : ¬c) : throwIf c e = .ok () :=
  throwIf_eq_ok.2 h

theorem bind_eq_ok {ε α β : Type} {x : Except ε α} {f : α → Except ε β} {b : β} :
    (x >>= f) = .ok b ↔ ∃ a, x = .ok a ∧ f a = .ok b := by
  cases x with
  | error e => simp [bind, Except.bind]
  | ok a => simp [bind, Except.bind]

theorem unit_bind_eq_ok {β : Type} {x : Except Exception Unit} {f : Unit → Except Exception β}
    {b : β} : (x >>= f) = .ok b ↔ x = .ok () ∧ f () = .ok b := by
  rw [bind_eq_ok]
  exact Unique.exists_iff

@[simp] theorem ok_bind {α β : Type} (a : α) (f : α → Except Exception β) :
    ((Except.ok a : Except Exception α) >>= f) = f a := rfl

theorem exists_of_mem_mapM {α β : Type} {f : α → Except Exception β} :
    ∀ {l : List α} {r : List β}, l.mapM f = .ok r → ∀ y ∈ r, ∃ x ∈ l, f x = .ok y
  | [], r, h, y, hy => by
    cases h
    cases hy
  | x :: l, r, h, y, hy => by
    rw [List.mapM_cons, bind_eq_ok] at h
    obtain ⟨z, hz, h⟩ := h
    rw [bind_eq_ok] at h
    obtain ⟨zs, hzs, h⟩ := h
    cases h
    rcases List.mem_cons.1 hy with rfl | hy
    · exact ⟨x, List.mem_cons_self, hz⟩
    · obtain ⟨x', hx', hf⟩ := exists_of_mem_mapM hzs y hy
      exact ⟨x', List.mem_cons_of_mem _ hx', hf⟩

theorem forall₂_of_mapM {α β : Type} {f : α → Except Exception β} :
    ∀ {l : List α} {r : List β}, l.mapM f = .ok r → List.Forall₂ (fun x y => f x = .ok y) l r
  | [], r, h => by
    cases h
    exact .nil
  | x :: l, r, h => by
    rw [List.mapM_cons, bind_eq_ok] at h
    obtain ⟨y, hy, h⟩ := h
    rw [bind_eq_ok] at h
    obtain ⟨ys, hys, h⟩ := h
    cases h
    exact .cons hy (forall₂_of_mapM hys)

theorem mapM_eq_ok {α β : Type} {f : α → Except Exception β} {g : α → β} :
    ∀ {l : List α}, (∀ x ∈ l, f x = .ok (g x)) → l.mapM f = .ok (l.map g)
  | [], _ => rfl
  | x :: l, h => by
    rw [List.mapM_cons, h x List.mem_cons_self, ok_bind,
      mapM_eq_ok fun y hy => h y (List.mem_cons_of_mem _ hy)]
    rfl

@[simp] theorem error_bind {α β : Type} (e : Exception) (f : α → Except Exception β) :
    ((Except.error e : Except Exception α) >>= f) = .error e := rfl

/-- A map after a list of writes: at a key that is written it holds the value of a write to it, and
elsewhere what it held before. -/
theorem foldl_update {β K V : Type} [DecidableEq K] (key : β → K) (val : β → V) (k : K) :
    ∀ (l : List β) (f : K → V),
      (∃ b ∈ l, key b = k ∧ l.foldl (fun f b => Function.update f (key b) (val b)) f k = val b) ∨
      ((∀ b ∈ l, key b ≠ k) ∧ l.foldl (fun f b => Function.update f (key b) (val b)) f k = f k)
  | [], f => .inr ⟨by simp, rfl⟩
  | b :: l, f => by
    rw [List.foldl_cons]
    rcases foldl_update key val k l (Function.update f (key b) (val b)) with ⟨x, hx, h⟩ | ⟨hl, h⟩
    · exact .inl ⟨x, List.mem_cons_of_mem _ hx, h⟩
    · by_cases hb : key b = k
      · subst hb
        exact .inl ⟨b, List.mem_cons_self, rfl, by rw [h, Function.update_self]⟩
      · refine .inr ⟨?_, by rw [h, Function.update_of_ne (Ne.symm hb)]⟩
        intro x hx
        rcases List.mem_cons.1 hx with rfl | hx
        · exact hb
        · exact hl x hx

/-- A list each of whose entries comes from an object is the image of a list of objects. -/
theorem exists_map_eq {α β : Type} {f : β → α} {P : β → Prop} :
    ∀ {l : List α}, (∀ a ∈ l, ∃ b, f b = a ∧ P b) → ∃ bs : List β, bs.map f = l ∧ ∀ b ∈ bs, P b
  | [], _ => ⟨[], rfl, by simp⟩
  | a :: l, h => by
    obtain ⟨b, hb, hP⟩ := h a List.mem_cons_self
    obtain ⟨bs, hbs, hPs⟩ := exists_map_eq fun x hx => h x (List.mem_cons_of_mem _ hx)
    exact ⟨b :: bs, by rw [List.map_cons, hb, hbs], List.forall_mem_cons.2 ⟨hP, hPs⟩⟩

/-- `ImportRequirements::value`, a set of flags. -/
abbrev ImportRequirements := ℕ

namespace ImportRequirements

def ValidSeal : ImportRequirements := 1
def UncleBasic : ImportRequirements := 4
def TransactionBasic : ImportRequirements := 8
def UncleSeals : ImportRequirements := 16
def TransactionSignatures : ImportRequirements := 32
def Parent : ImportRequirements := 64
def UncleParent : ImportRequirements := 128
def PostGenesis : ImportRequirements := 256
def CheckUncles : ImportRequirements := UncleBasic ||| UncleSeals
def CheckTransactions : ImportRequirements := TransactionBasic ||| TransactionSignatures
def OutOfOrderChecks : ImportRequirements := ValidSeal ||| CheckUncles ||| CheckTransactions
def InOrderChecks : ImportRequirements := Parent ||| UncleParent
def Everything : ImportRequirements :=
  ValidSeal ||| CheckUncles ||| CheckTransactions ||| Parent ||| UncleParent
def None : ImportRequirements := 0

/-- `_ir & flags`, read as a condition. -/
def has (ir flags : ImportRequirements) : Bool := ir &&& flags ≠ 0

end ImportRequirements

inductive ImportResult
  | Success | UnknownParent | FutureTimeKnown | FutureTimeUnknown | AlreadyInChain | AlreadyKnown
  | Malformed | OverbidGasPrice | BadChain | ZeroSignature
  deriving DecidableEq, Repr

end Petrachor
