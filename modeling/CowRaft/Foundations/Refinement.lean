import Mathlib

/-!
# Machines and their specifications

A machine takes inputs one after another, answers each of them, and may get stuck; a specification
is a machine that never does. When each step of a machine answers as the specification does and
keeps a relation between their states, so does every run (`run_refines`).
-/

namespace CowRaft

variable {σ τ ι ο : Type*}

/-- The answers of a machine to a list of inputs, with the state it ends in. -/
def run (step : σ → ι → Option (σ × ο)) : σ → List ι → Option (σ × List ο)
  | s, [] => some (s, [])
  | s, i :: is => do
    let (s, o) ← step s i
    let (s, os) ← run step s is
    some (s, o :: os)

/-- The answers of a specification to a list of inputs, with the state it ends in. -/
def runSpec (spec : τ → ι → τ × ο) : τ → List ι → τ × List ο
  | t, [] => (t, [])
  | t, i :: is =>
    let (t, o) := spec t i
    let (t, os) := runSpec spec t is
    (t, o :: os)

/-- **Simulation**: a machine whose steps follow a specification never gets stuck, and gives the
specification's answers. -/
theorem run_refines {step : σ → ι → Option (σ × ο)} {spec : τ → ι → τ × ο} {R : σ → τ → Prop}
    (hstep : ∀ s t i, R s t → ∃ s', step s i = some (s', (spec t i).2) ∧ R s' (spec t i).1)
    {s : σ} {t : τ} (hR : R s t) (is : List ι) :
    ∃ s', run step s is = some (s', (runSpec spec t is).2) ∧ R s' (runSpec spec t is).1 := by
  induction is generalizing s t with
  | nil => exact ⟨s, rfl, hR⟩
  | cons i is ih =>
    obtain ⟨s₁, hs₁, hR₁⟩ := hstep s t i hR
    obtain ⟨s₂, hs₂, hR₂⟩ := ih hR₁
    refine ⟨s₂, ?_, hR₂⟩
    simp only [run, hs₁, hs₂, Option.bind_eq_bind, Option.bind_some]
    rfl

end CowRaft
