import Mathlib

/-!
Machines that answer each input and move to a new state, run over a sequence of inputs,
and the lockstep simulation rule: a relation between the states of two such machines that
every input keeps, while both give the same answer, makes them give the same answers to
every sequence of inputs.
-/

set_option autoImplicit false

namespace Simulation

variable {σ τ ι ω : Type*}

/-- The final state and the answers, in order, of a run over `inputs`. -/
def run (step : σ → ι → σ × ω) : σ → List ι → σ × List ω
  | s, [] => (s,[])
  | s, i :: inputs =>
    let rest := run step (step s i).1 inputs
    (rest.1,(step s i).2 :: rest.2)

section Lockstep

/-- Every input keeps `R` and is answered alike by both machines. -/
def Lockstep (f : σ → ι → σ × ω) (g : τ → ι → τ × ω) (R : σ → τ → Prop) : Prop :=
  ∀ s t i, R s t → R (f s i).1 (g t i).1 ∧ (f s i).2 = (g t i).2

variable {f : σ → ι → σ × ω} {g : τ → ι → τ × ω} {R : σ → τ → Prop}

theorem run_lockstep (h : Lockstep f g R) :
    ∀ {s : σ} {t : τ} (inputs : List ι), R s t →
      R (run f s inputs).1 (run g t inputs).1 ∧ (run f s inputs).2 = (run g t inputs).2
  | _, _, [], hst => ⟨hst,rfl⟩
  | s, t, i :: inputs, hst => by
    obtain ⟨hst',hi⟩ := h s t i hst
    obtain ⟨hrest,hout⟩ := run_lockstep h inputs hst'
    exact ⟨hrest,by simp [run,hi,hout]⟩

end Lockstep

end Simulation
