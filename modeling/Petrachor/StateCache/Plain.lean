import Petrachor.StateCache.Calls
import Petrachor.StateCache.Restore

/-!
# Accounts without caches

What a state is for: it answers about every address, it is changed, and going back to a savepoint
gives back all that was answered there. `State` does this as long as the calls are in order.
-/

namespace Petrachor.StateCache

/-- The answers about every address. Kept beside them: the addresses whose account is known to count
as changed, and those that are known to have had no storage in the trie. -/
structure Plain where
  view : Address → Answers
  marked : Address → Bool
  bare : Address → Bool
  startNonce : U256

def Answers.isEmpty (v : Answers) : Bool := v.nonce = 0 ∧ v.balance = 0 ∧ v.codeHash = EmptySHA3

/-- The answers about an address without an account. -/
def Answers.absent (startNonce : U256) : Answers :=
  ⟨false, 0, startNonce, [], EmptySHA3, 0, fun _ => 0⟩

namespace Plain

variable (m : Plain)

def answer : (q : Query) → q.Answer
  | .addressInUse a => (m.view a).existing
  | .accountNonemptyAndExisting a => (m.view a).existing && !(m.view a).isEmpty
  | .balance a => (m.view a).balance
  | .getNonce a => (m.view a).nonce
  | .version a => (m.view a).version
  | .codeHash a => (m.view a).codeHash
  | .code a => (m.view a).code
  | .codeSize a => (m.view a).code.length
  | .storage a k => (m.view a).storage k
  | .requireAccountStartNonce =>
    if m.startNonce = Invalid256 then .error .InvalidAccountStartNonceInState
    else .ok m.startNonce

/-- A change of the account of an address, which exists from then on. -/
def change (a : Address) (f : Answers → Answers) : Plain :=
  { m with view := Function.update m.view a { f (m.view a) with existing := true },
           marked := fun b => decide (b = a) || m.marked b }

/-- No account can be made without a start nonce. -/
def barred (a : Address) : Prop := (m.view a).existing = false ∧ m.startNonce = Invalid256

instance (a : Address) : Decidable (m.barred a) := by unfold barred; infer_instance

/-- A change that makes an account with the start nonce if there is none. -/
def changeOrMake (a : Address) (f : Answers → Answers) : Plain × Option Exception :=
  if m.barred a then (m, some .InvalidAccountStartNonceInState) else (m.change a f, none)

def addBalance (a : Address) (amount : U256) : Plain × Option Exception :=
  m.changeOrMake a fun v => { v with balance := v.balance + amount }

def subBalance (a : Address) (value : U256) : Plain × Option Exception :=
  if value = 0 then (m, none)
  else if (m.view a).existing = false ∨ (m.view a).balance < value then (m, some .NotEnoughCash)
  else m.addBalance a (0 - value)

def write : Write → Plain × Option Exception
  | .incNonce a => m.changeOrMake a fun v => { v with nonce := v.nonce + 1 }
  | .setNonce a n => (m.change a fun v => { v with nonce := n }, none)
  | .addBalance a amount => m.addBalance a amount
  | .subBalance a value => m.subBalance a value
  | .transferBalance src dst value =>
    let r := m.subBalance src value
    if r.2.isNone then r.1.addBalance dst value else r
  | .setBalance a value => m.addBalance a (value - (m.view a).balance)
  | .createContract a =>
    if m.startNonce = Invalid256 then (m, some .InvalidAccountStartNonceInState)
    else if (m.view a).existing then (m, some .abort)
    else (m.change a id, none)
  | .setCode a code version =>
    if (m.view a).codeHash ≠ EmptySHA3 then (m, some .abort)
    else (m.change a fun v => { v with code := code, codeHash := code, version := version }, none)
  | .setStorage a k x =>
    (m.change a fun v => { v with storage := Function.update v.storage k x }, none)
  | .clearStorage _ => (m, none)
  | .kill _ => (m, none)

/-- The account of an address may be changed so that the change can be undone: it counts as changed
already, or it is not empty. -/
def Marked (a : Address) : Prop := m.marked a = true ∨ (m.view a).isEmpty = false

instance (a : Address) : Decidable (m.Marked a) := by unfold Marked; infer_instance

/-- A change is in order: it does not touch an empty account except by its balance, it sets code only
for an account that was changed and gives it no other version, it clears no storage and kills
nobody. -/
def Permits : Write → Prop
  | .incNonce a | .setNonce a _ => (m.view a).existing = true → m.Marked a
  | .setStorage a _ _ => (m.view a).existing = true ∧ m.Marked a
  | .setCode a _ v => m.marked a = true ∧ v = (m.view a).version
  | .clearStorage a => m.marked a = true ∧ m.bare a = true
  | .kill a => (m.view a).existing = false
  | _ => True

instance (w : Write) : Decidable (m.Permits w) := by
  cases w <;> unfold Permits <;> infer_instance

/-- The accounts, with those at the savepoints that were taken. -/
def respond (x : Plain × List Plain) : (c : StateCall) → c.Answer × (Plain × List Plain)
  | .ask q => (x.1.answer q, x)
  | .write w => ((x.1.write w).2, (x.1.write w).1, x.2)
  | .savepoint => (x.2.length, x.1, x.1 :: x.2)
  | .rollback i =>
    match upTo x.2 i with
    | [] => ((), x)
    | m :: saved => ((), m, m :: saved)

/-- A call is in order. -/
def InOrder (x : Plain × List Plain) : StateCall → Prop
  | .write w => x.1.Permits w
  | .rollback i => i < x.2.length
  | _ => True

instance (x : Plain × List Plain) (c : StateCall) : Decidable (InOrder x c) := by
  cases c <;> unfold InOrder <;> infer_instance

end Plain

end Petrachor.StateCache
