import Petrachor.Lib.Program
import Petrachor.StateCache.CodeView

/-!
# The state as what is called

The calls that the executive and the virtual machine put to a `State`: what they ask, what they
change, and the savepoints they go back to. What they do is a program of such calls. A savepoint is
named by its place among those that were taken and not undone.
-/

namespace Petrachor.StateCache

/-- What is asked. -/
inductive Query
  | addressInUse (a : Address)
  | accountNonemptyAndExisting (a : Address)
  | balance (a : Address)
  | getNonce (a : Address)
  | version (a : Address)
  | codeHash (a : Address)
  | code (a : Address)
  | codeSize (a : Address)
  | storage (a : Address) (k : U256)
  | requireAccountStartNonce

/-- `requireAccountStartNonce` may throw. -/
@[reducible] def Query.Answer : Query → Type
  | addressInUse _ | accountNonemptyAndExisting _ => Bool
  | balance _ | getNonce _ | version _ | storage _ _ => U256
  | codeHash _ | code _ => Bytes
  | codeSize _ => ℕ
  | requireAccountStartNonce => Except Exception U256

/-- What is changed. -/
inductive Write
  | incNonce (a : Address)
  | setNonce (a : Address) (n : U256)
  | addBalance (a : Address) (amount : U256)
  | subBalance (a : Address) (value : U256)
  | transferBalance (src dst : Address) (value : U256)
  | setBalance (a : Address) (value : U256)
  | createContract (a : Address)
  | setCode (a : Address) (code : Bytes) (version : U256)
  | setStorage (a : Address) (k v : U256)
  | clearStorage (a : Address)
  | kill (a : Address)

def Write.op : Write → Op
  | incNonce a => .incNonce a
  | setNonce a n => .setNonce a n
  | addBalance a v => .addBalance a v
  | subBalance a v => .subBalance a v
  | transferBalance a b v => .transferBalance a b v
  | setBalance a v => .setBalance a v
  | createContract a => .createContract a
  | setCode a c v => .setCode a c v
  | setStorage a k v => .setStorage a k v
  | clearStorage a => .clearStorage a
  | kill a => .kill a

namespace State

/-- `requireAccountStartNonce()`. -/
def requireAccountStartNonce (s : State) : Except Exception U256 :=
  if s.m_accountStartNonce = Invalid256 then .error .InvalidAccountStartNonceInState
  else .ok s.m_accountStartNonce

def answer (s : State) (sizes : CodeSizeCache) : (q : Query) → q.Answer
  | .addressInUse a => s.addressInUse a
  | .accountNonemptyAndExisting a => s.accountNonemptyAndExisting a
  | .balance a => s.balance a
  | .getNonce a => s.getNonce a
  | .version a => s.version a
  | .codeHash a => s.codeHash a
  | .code a => s.code a
  | .codeSize a => s.codeSize sizes a
  | .storage a k => s.storage a k
  | .requireAccountStartNonce => s.requireAccountStartNonce

/-- What the question leaves. -/
def asked (s : State) (sizes : CodeSizeCache) : Query → State
  | .addressInUse a | .accountNonemptyAndExisting a | .balance a | .getNonce a | .version a
  | .codeHash a => s.load a
  | .code a => s.readCode a
  | .codeSize a => (s.readCodeSize sizes a).1
  | .storage a k => s.readStorage a k
  | .requireAccountStartNonce => s

/-- What the change throws. -/
def outcome (s : State) : Write → Option Exception
  | .incNonce a => (s.incNonce a).2
  | .setNonce a n => (s.setNonce a n).2
  | .addBalance a v => (s.addBalance a v).2
  | .subBalance a v => (s.subBalance a v).2
  | .transferBalance a b v => (s.transferBalance a b v).2
  | .setBalance a v => (s.setBalance a v).2
  | .createContract a => (s.createContract a).2
  | .setCode a c v => (s.setCode a c v).2
  | .setStorage _ _ _ | .clearStorage _ | .kill _ => none

end State

inductive StateCall
  | ask (q : Query)
  | write (w : Write)
  | savepoint
  | rollback (i : ℕ)

@[reducible] def StateCall.Answer : StateCall → Type
  | ask q => q.Answer
  | write _ => Option Exception
  | savepoint => ℕ
  | rollback _ => Unit

/-- The calls of a state. -/
@[reducible] def stateCalls : Signature := ⟨StateCall, StateCall.Answer⟩

abbrev StateProgram (α : Type) := Program stateCalls α

/-- The savepoints up to the one of place `i`, newest first; the list is of all, newest first. -/
def upTo {α : Type} (saved : List α) (i : ℕ) : List α := saved.drop (saved.length - 1 - i)

/-- A state, with the savepoints that were taken. -/
def respond (sizes : CodeSizeCache) (x : State × List ℕ) :
    (c : StateCall) → c.Answer × (State × List ℕ)
  | .ask q => (x.1.answer sizes q, x.1.asked sizes q, x.2)
  | .write w => (x.1.outcome w, x.1.step w.op, x.2)
  | .savepoint => (x.2.length, x.1, x.1.savepoint :: x.2)
  | .rollback i =>
    match upTo x.2 i with
    | [] => ((), x)
    | n :: saved => ((), x.1.rollback n, n :: saved)

/-- The sizes of codes come from a cache that other states use too, and unchanged accounts may be
dropped at any time. -/
def stateMachine : Program.Machine stateCalls (State × List ℕ) where
  step x c a y := ∃ sizes : CodeSizeCache, sizes.Sound List.length ∧ (a, y) = respond sizes x c
  shift x y := ∃ a, y = (x.1.evict a, x.2)

end Petrachor.StateCache
