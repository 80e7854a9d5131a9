import Mathlib

/-!
# Transition systems and traces

A system is given by its initial states and a partial step function `step s a`, which is
`none` when action `a` is not enabled in `s` (a failed assertion or a blocked call).
`Reachable` collects the states of every run, `run` replays a finite list of actions,
and the two meet in `Reachable.run`: a replayed trace ends in a reachable state, which is
how a concrete interleaving becomes a statement about the system.

Invariants are proved once through `Reachable.induct_inv`: hold initially, survive
every enabled step. A property that only the steps of a given kind keep holds along a run
whose steps are all of that kind (`StepsSatisfy`, `run_inv_of_steps`).

A call of the modelled code returns `Except` the assertion it failed; `bind_eq_ok` splits a
chain of calls that returned, and `foldlM_inv` is the invariant rule for a loop of calls.
-/

namespace Lib.Trace

variable {σ α : Type}

/-- The states reached from a state satisfying `init` by enabled steps. -/
inductive Reachable (init : σ → Prop) (step : σ → α → Option σ) : σ → Prop where
  | init {s : σ} : init s → Reachable init step s
  | step {s s' : σ} (a : α) : Reachable init step s → step s a = some s' →
      Reachable init step s'

/-- Replay a list of actions; `none` as soon as one is not enabled. -/
def run (step : σ → α → Option σ) : σ → List α → Option σ
  | s, [] => some s
  | s, a :: rest => (step s a).bind (run step · rest)

/-- Every step of the run of a list of actions relates the state before it to the state
after it by `R`. -/
def StepsSatisfy (step : σ → α → Option σ) (R : σ → σ → Prop) : σ → List α → Prop
  | _, [] => True
  | s, a :: rest => ∀ s₁, step s a = some s₁ → R s s₁ ∧ StepsSatisfy step R s₁ rest

section

variable {init : σ → Prop} {step : σ → α → Option σ}

@[simp] theorem run_nil (s : σ) : run step s [] = some s := rfl

theorem run_cons (s : σ) (a : α) (rest : List α) :
    run step s (a :: rest) = (step s a).bind (run step · rest) := rfl

/-- A replayed trace from a reachable state ends in a reachable state. -/
theorem Reachable.run {s s' : σ} {l : List α} (hs : Reachable init step s)
    (h : Lib.Trace.run step s l = some s') : Reachable init step s' := by
  induction l generalizing s with
  | nil =>
    simp only [run_nil, Option.some.injEq] at h
    exact h ▸ hs
  | cons a rest ih =>
    rw [run_cons] at h
    cases hstep : step s a with
    | none => simp [hstep] at h
    | some s₁ =>
      rw [hstep, Option.bind_some] at h
      exact ih (Reachable.step a hs hstep) h

/-- The invariant rule: a property of the initial states that every enabled step
preserves holds in every reachable state. -/
theorem Reachable.induct_inv {P : σ → Prop} (hinit : ∀ s, init s → P s)
    (hstep : ∀ s a s', P s → step s a = some s' → P s') {s : σ}
    (h : Reachable init step s) : P s := by
  induction h with
  | init hs => exact hinit _ hs
  | step a _ hst ih => exact hstep _ a _ ih hst

/-- The invariant rule along one run whose steps all satisfy `R`: `Q` is kept by every step,
and `P` by every step that satisfies `R` from a state with `Q`. -/
theorem run_inv_of_steps {Q P : σ → Prop} {R : σ → σ → Prop}
    (hQ : ∀ s a s', Q s → step s a = some s' → Q s')
    (hP : ∀ s a s', Q s → P s → step s a = some s' → R s s' → P s') :
    ∀ {l : List α} {s s' : σ}, Q s → P s → Lib.Trace.run step s l = some s' →
      StepsSatisfy step R s l → P s'
  | [], s, s', _, hp, h, _ => by
    simp only [run_nil, Option.some.injEq] at h
    exact h ▸ hp
  | a :: rest, s, s', hq, hp, h, hsteps => by
    rw [run_cons] at h
    obtain ⟨s₁, h₁, hrest⟩ := Option.bind_eq_some_iff.mp h
    obtain ⟨hR, hsteps'⟩ := hsteps s₁ h₁
    exact run_inv_of_steps hQ hP (hQ s a s₁ hq h₁) (hP s a s₁ hq hp h₁ hR) hrest hsteps'

end

section Fallible

variable {ε α β : Type}

/-- A chain of calls that returned: the first returned, and the rest returned from its
result. -/
theorem bind_eq_ok {x : Except ε α} {f : α → Except ε β} {b : β} (h : x.bind f = .ok b) :
    ∃ a, x = .ok a ∧ f a = .ok b := by
  cases x with
  | error e => cases h
  | ok a => exact ⟨a, rfl, h⟩

/-- The invariant rule for a loop of calls: what every call that returns keeps, the loop
keeps. -/
theorem foldlM_inv {P : α → Prop} {f : α → β → Except ε α}
    (hf : ∀ s x s', P s → f s x = .ok s' → P s') :
    ∀ (l : List β) (s s' : α), P s → l.foldlM f s = .ok s' → P s'
  | [], s, s', hs, h => by
    cases h
    exact hs
  | x :: l, s, s', hs, h => by
    rw [List.foldlM_cons] at h
    obtain ⟨s₁, h₁, h₂⟩ := bind_eq_ok h
    exact foldlM_inv hf l s₁ s' (hf s x s₁ hs h₁) h₂

/-- The same rule for calls that may return nothing, with the invariant indexed by the
elements handled so far. -/
theorem foldlM_some_inv {P : List β → α → Prop} {f : α → β → Option α}
    (hf : ∀ done s x s', P done s → f s x = some s' → P (done ++ [x]) s') :
    ∀ (l done : List β) (s s' : α), P done s → l.foldlM f s = some s' → P (done ++ l) s'
  | [], done, s, s', hs, h => by
    cases h
    simpa using hs
  | x :: l, done, s, s', hs, h => by
    rw [List.foldlM_cons] at h
    cases hx : f s x with
    | none =>
      rw [hx] at h
      cases h
    | some s₁ =>
      rw [hx] at h
      have hrest := foldlM_some_inv hf l (done ++ [x]) s₁ s' (hf done s x s₁ hs hx) h
      simpa using hrest

end Fallible

end Lib.Trace
