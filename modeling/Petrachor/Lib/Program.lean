import Mathlib.Data.List.Basic

/-!
# Programs that call a machine

A program calls a machine and goes on by the answer. It is a tree: what it does next depends on the
answers only. A machine that simulates a model gives every program whose calls are in order the
result that the model gives it, whatever the machine does on its own in between.
-/

/-- The calls of a machine, with the answers to each. -/
structure Signature where
  Call : Type
  Answer : Call → Type

inductive Program (S : Signature) (α : Type) : Type
  | ret (r : α)
  | call (c : S.Call) (k : S.Answer c → Program S α)

namespace Program

variable {S : Signature} {α β σ : Type}

protected def bind : Program S α → (α → Program S β) → Program S β
  | ret r, f => f r
  | call c k, f => call c fun a => (k a).bind f

instance : Monad (Program S) where
  pure := ret
  bind := Program.bind

/-- A single call. -/
def ask (c : S.Call) : Program S (S.Answer c) := call c ret

/-- The result of a program, and the state it leaves, on a machine that is a function. -/
def run (f : σ → (c : S.Call) → S.Answer c × σ) : Program S α → σ → α × σ
  | ret r, s => (r, s)
  | call c k, s => run f (k (f s c).1) (f s c).2

/-- Every call of the program meets a condition, in the state it is made in. -/
def Along (f : σ → (c : S.Call) → S.Answer c × σ) (P : σ → S.Call → Prop) : Program S α → σ → Prop
  | ret _, _ => True
  | call c k, s => P s c ∧ Along f P (k (f s c).1) (f s c).2

instance decidableAlong (f : σ → (c : S.Call) → S.Answer c × σ) (P : σ → S.Call → Prop)
    [∀ s c, Decidable (P s c)] : (p : Program S α) → (s : σ) → Decidable (p.Along f P s)
  | ret _, _ => isTrue trivial
  | call c k, s =>
    haveI := decidableAlong f P (k (f s c).1) (f s c).2
    inferInstanceAs (Decidable (P s c ∧ Along f P (k (f s c).1) (f s c).2))

end Program

/-- A machine: how it may answer a call, and how its state may shift between calls. -/
structure Program.Machine (S : Signature) (σ : Type) where
  step : σ → (c : S.Call) → S.Answer c → σ → Prop
  shift : σ → σ → Prop

namespace Program.Machine

variable {S : Signature} {σ τ α : Type} {M : Machine S σ}

/-- The program may give the result and leave the state. -/
inductive Runs (M : Machine S σ) : σ → Program S α → α → σ → Prop
  | ret (s : σ) (r : α) : Runs M s (.ret r) r s
  | call {s s' s'' : σ} {c : S.Call} {k : S.Answer c → Program S α} {a : S.Answer c} {r : α}
      (h : M.step s c a s') (hk : Runs M s' (k a) r s'') : Runs M s (.call c k) r s''
  | shift {s s' s'' : σ} {p : Program S α} {r : α} (h : M.shift s s') (hp : Runs M s' p r s'') :
      Runs M s p r s''

/-- A machine that can answer as a function does has the runs of the function. -/
theorem runs_run {f : σ → (c : S.Call) → S.Answer c × σ}
    (hf : ∀ s c, M.step s c (f s c).1 (f s c).2) (p : Program S α) (s : σ) :
    M.Runs s p (p.run f s).1 (p.run f s).2 := by
  induction p generalizing s with
  | ret r => exact .ret s r
  | call c k ih => exact .call (hf s c) (ih _ _)

/-- The machine answers the calls that are in order as the model does, and their states stay
related. -/
structure Simulates (M : Machine S σ) (f : τ → (c : S.Call) → S.Answer c × τ)
    (P : τ → S.Call → Prop) (R : σ → τ → Prop) : Prop where
  step : ∀ {s t c a s'}, R s t → P t c → M.step s c a s' → a = (f t c).1 ∧ R s' (f t c).2
  shift : ∀ {s t s'}, R s t → M.shift s s' → R s' t

theorem Simulates.runs {f : τ → (c : S.Call) → S.Answer c × τ} {P : τ → S.Call → Prop}
    {R : σ → τ → Prop} (hM : M.Simulates f P R) {p : Program S α} {s s' : σ} {t : τ} {r : α}
    (h : M.Runs s p r s') (hR : R s t) (hp : p.Along f P t) :
    r = (p.run f t).1 ∧ R s' (p.run f t).2 := by
  induction h generalizing t with
  | ret s r => exact ⟨rfl, hR⟩
  | call hstep _ ih =>
    obtain ⟨rfl, hR'⟩ := hM.step hR hp.1 hstep
    exact ih hR' hp.2
  | shift hshift _ ih => exact ih (hM.shift hR hshift) hp

end Program.Machine
