/-!
# Computations that may fail and keep their state

An `Attempt` works on a state and may fail.  What it has done to the state before it fails remains.
-/

namespace MarkovRegion

/-- A computation on a state that may fail; the state remains when it fails. -/
abbrev Attempt (ε σ α : Type) := ExceptT ε (StateM σ) α

/-- Change the failures of a computation. -/
def Attempt.mapError {ε δ σ α : Type} (f : ε → δ) (x : Attempt ε σ α) : Attempt δ σ α :=
  ExceptT.adapt f x

/-- Run a computation for its outcome, which may be a failure. -/
def Attempt.outcome {ε δ σ α : Type} (x : Attempt ε σ α) : Attempt δ σ (Except ε α) :=
  ExceptT.lift (ExceptT.run x)

/-- The computation with a known outcome. -/
def Attempt.ofExcept {ε σ α : Type} (x : Except ε α) : Attempt ε σ α :=
  ExceptT.mk (pure x)

end MarkovRegion
