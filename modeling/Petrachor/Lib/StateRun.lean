import Mathlib.Data.List.Basic

/-!
# Runs of a state machine

A machine is a step function on a state. `Along step P s as` says that every step of the run meets
a condition on the state before it; an invariant that such steps keep holds after the run.
-/

namespace StateRun

variable {σ α : Type*} (step : σ → α → σ)

/-- The state after a list of steps. -/
def run (s : σ) (as : List α) : σ := as.foldl step s

/-- Every step of the run meets the condition, in the state it is taken in. -/
def Along (P : σ → α → Prop) : σ → List α → Prop
  | _, [] => True
  | s, a :: as => P s a ∧ Along P (step s a) as

variable {step}

@[simp] theorem run_nil (s : σ) : run step s [] = s := rfl

@[simp] theorem run_cons (s : σ) (a : α) (as : List α) :
    run step s (a :: as) = run step (step s a) as := rfl

theorem run_append (s : σ) (as bs : List α) :
    run step s (as ++ bs) = run step (run step s as) bs := List.foldl_append

theorem Along.mono {P Q : σ → α → Prop} (h : ∀ s a, P s a → Q s a) :
    ∀ {s : σ} {as : List α}, Along step P s as → Along step Q s as
  | _, [], _ => trivial
  | _, _ :: _, hP => ⟨h _ _ hP.1, Along.mono h hP.2⟩

/-- What every step of a list meets by itself. -/
theorem Along.and_mem {P : σ → α → Prop} {Q : α → Prop} :
    ∀ {s : σ} {as : List α}, Along step P s as → (∀ a ∈ as, Q a) → Along step (fun s a => P s a ∧ Q a) s as
  | _, [], _, _ => trivial
  | _, a :: _, hP, hQ =>
    ⟨⟨hP.1, hQ a List.mem_cons_self⟩, hP.2.and_mem fun b hb => hQ b (List.mem_cons_of_mem a hb)⟩

/-- An invariant that every step of the run keeps. -/
theorem invariant (Inv : σ → Prop) {P : σ → α → Prop}
    (hstep : ∀ s a, Inv s → P s a → Inv (step s a)) :
    ∀ {s : σ} {as : List α}, Inv s → Along step P s as → Inv (run step s as)
  | _, [], hs, _ => hs
  | s, a :: as, hs, hP => by
    rw [run_cons]
    exact invariant Inv hstep (hstep s a hs hP.1) hP.2

end StateRun
