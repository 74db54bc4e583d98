import Mathlib.Data.List.Basic

/-!
# Runs of a machine whose steps may be undefined

A condition on the states of a run and one on its steps, each taken in the state before it. Where a step keeps the
first exactly if it meets the second, so does every run.
-/

namespace PartialRun

variable {σ α : Type*} (step : σ → α → Option σ)

/-- Every state of the run meets the condition. -/
def Always (P : σ → Prop) : σ → List α → Prop
  | s, [] => P s
  | s, a :: as => P s ∧ ∀ s', step s a = some s' → Always P s' as

/-- Every step of the run meets the condition. -/
def Along (R : σ → α → Prop) : σ → List α → Prop
  | _, [] => True
  | s, a :: as => R s a ∧ ∀ s', step s a = some s' → Along R s' as

instance decidableAlong {R : σ → α → Prop} [∀ s a, Decidable (R s a)] :
    ∀ (s : σ) (as : List α), Decidable (Along step R s as)
  | _, [] => .isTrue trivial
  | s, a :: as =>
    have : ∀ s', Decidable (Along step R s' as) := fun s' => decidableAlong s' as
    inferInstanceAs (Decidable (R s a ∧ ∀ s' ∈ step s a, Along step R s' as))

variable {step} {I P : σ → Prop} {R : σ → α → Prop}

theorem Always.head : ∀ {s : σ} {as : List α}, Always step P s as → P s
  | _, [], h => h
  | _, _ :: _, h => h.1

theorem Always.mono {Q : σ → Prop} (h : ∀ s, P s → Q s) :
    ∀ {s : σ} {as : List α}, Always step P s as → Always step Q s as
  | _, [], hP => h _ hP
  | _, _ :: _, hP => ⟨h _ hP.1, fun s' hs' => (hP.2 s' hs').mono h⟩

theorem Along.mono {R' : σ → α → Prop} (h : ∀ s a, R s a → R' s a) :
    ∀ {s : σ} {as : List α}, Along step R s as → Along step R' s as
  | _, [], _ => trivial
  | _, _ :: _, hR => ⟨h _ _ hR.1, fun s' hs' => (hR.2 s' hs').mono h⟩

/-- An invariant that every step keeps. -/
theorem always_of_step (hstep : ∀ s a s', P s → step s a = some s' → P s') :
    ∀ {s : σ} {as : List α}, P s → Always step P s as
  | _, [], hs => hs
  | s, a :: _, hs => ⟨hs, fun s' hs' => always_of_step hstep (hstep s a s' hs hs')⟩

/-- An invariant that every step of the run keeps. -/
theorem always_of_along (hstep : ∀ s a s', P s → R s a → step s a = some s' → P s') :
    ∀ {s : σ} {as : List α}, P s → Along step R s as → Always step P s as
  | _, [], hs, _ => hs
  | s, a :: _, hs, h => ⟨hs, fun s' hs' => always_of_along hstep (hstep s a s' hs h.1 hs') (h.2 s' hs')⟩

/-- What a step does from a good state to a good state. -/
theorem Always.along (h : ∀ s a, P s → (∀ s', step s a = some s' → P s') → R s a) :
    ∀ {s : σ} {as : List α}, Always step P s as → Along step R s as
  | _, [], _ => trivial
  | _, _ :: _, hP => ⟨h _ _ hP.1 fun s' hs' => (hP.2 s' hs').head, fun s' hs' => (hP.2 s' hs').along h⟩

/-- Conditions that agree where an invariant holds. -/
theorem along_congr {R' : σ → α → Prop} (hinv : ∀ s a s', I s → step s a = some s' → I s')
    (hiff : ∀ s a, I s → (R s a ↔ R' s a)) {s : σ} {as : List α} (hs : I s) :
    Along step R s as ↔ Along step R' s as := by
  induction as generalizing s with
  | nil => exact .rfl
  | cons a as ih =>
    refine and_congr (hiff s a hs) ?_
    refine forall_congr' fun s' => forall_congr' fun hs' => ?_
    exact ih (hinv s a s' hs hs')

/-- The run keeps the condition exactly if each step does. A step that is undefined must not be one that would break
the condition. -/
theorem always_iff_along (htotal : ∀ s a, I s → R s a ∨ ∃ s', step s a = some s')
    (hinv : ∀ s a s', I s → step s a = some s' → I s')
    (hiff : ∀ s a s', I s → P s → step s a = some s' → (P s' ↔ R s a)) {s : σ} {as : List α} (hs : I s) (hP : P s) :
    Always step P s as ↔ Along step R s as := by
  induction as generalizing s with
  | nil => exact iff_of_true hP trivial
  | cons a as ih =>
    constructor
    · rintro ⟨-, h⟩
      have hR : R s a := by
        rcases htotal s a hs with hR | ⟨s', hs'⟩
        · exact hR
        · exact (hiff s a s' hs hP hs').1 (h s' hs').head
      refine ⟨hR, ?_⟩
      intro s₁ hs₁
      exact (ih (hinv s a s₁ hs hs₁) (h s₁ hs₁).head).1 (h s₁ hs₁)
    · rintro ⟨hR, h⟩
      refine ⟨hP, ?_⟩
      intro s₁ hs₁
      exact (ih (hinv s a s₁ hs hs₁) ((hiff s a s₁ hs hP hs₁).2 hR)).2 (h s₁ hs₁)

end PartialRun
