import MarkovRegion.Logic.Bound
import MarkovRegion.Model.Labeling

/-!
# Formulas over states and paths

State formulas are built from labels with connectives and a probability operator over path formulas.
The formulas that can be checked are `P ⋈ θ [F φ]` and `P ⋈ θ [true U φ]` with `φ` free of
probability operators: `StateFormula.reachability?` finds their bound and `φ`.
-/

namespace MarkovRegion

mutual

/-- Formulas about a state. -/
inductive StateFormula where
  /-- True in every state. -/
  | always
  | label (name : String)
  | neg (inner : StateFormula)
  | conj (left right : StateFormula)
  | disj (left right : StateFormula)
  /-- The probability of a path formula, compared with a bound or asked for. -/
  | probability (bound : Option Bound) (path : PathFormula)

/-- Formulas about the future of a state. -/
inductive PathFormula where
  | next (target : StateFormula)
  | eventually (target : StateFormula)
  | eventuallyWithin (steps : Nat) (target : StateFormula)
  | holdsUntil (hold target : StateFormula)

end

namespace StateFormula

/-- The formula that compares the probability of reaching a target with a bound. -/
def reaching (target : StateFormula) (bound : Bound) : StateFormula :=
  probability (some bound) (.eventually target)

mutual

/-- The text of a state formula. -/
def write : StateFormula → String
  | always => "true"
  | label name => "\"" ++ name ++ "\""
  | neg inner => "!(" ++ inner.write ++ ")"
  | conj left right => "(" ++ left.write ++ " & " ++ right.write ++ ")"
  | disj left right => "(" ++ left.write ++ " | " ++ right.write ++ ")"
  | probability (some bound) path => "P" ++ bound.write ++ " " ++ writePath path
  | probability none path => "P=? " ++ writePath path

/-- The text of a path formula. -/
def writePath : PathFormula → String
  | .next target => "[X " ++ target.write ++ "]"
  | .eventually target => "[F " ++ target.write ++ "]"
  | .eventuallyWithin steps target => "[F<=" ++ toString steps ++ " " ++ target.write ++ "]"
  | .holdsUntil hold target => "[" ++ hold.write ++ " U " ++ target.write ++ "]"

end

/-- Whether a formula is built from labels and connectives only. -/
def isPropositional : StateFormula → Bool
  | always | label _ => true
  | neg inner => inner.isPropositional
  | conj left right | disj left right => left.isPropositional && right.isPropositional
  | probability .. => false

/-- The labels outside probability operators, from left to right. -/
def labels : StateFormula → List String
  | always | probability .. => []
  | label name => [name]
  | neg inner => inner.labels
  | conj left right | disj left right => left.labels ++ right.labels

/-- The states, in their order, that satisfy a propositional formula. -/
def satisfying (labeling : Labeling) (states : Nat) : StateFormula → Except ModelError (List Nat)
  | always => .ok (List.range states)
  | label name =>
    match labeling.states? name with
    | some found => .ok found
    | none => .error (.invalid ("unknown label `" ++ name ++ "`"))
  | neg inner => do
    let found ← inner.satisfying labeling states
    return (List.range states).filter fun s => !found.contains s
  | conj left right => do
    let l ← left.satisfying labeling states
    let r ← right.satisfying labeling states
    return l.filter r.contains
  | disj left right => do
    let l ← left.satisfying labeling states
    let r ← right.satisfying labeling states
    return stateSet (l ++ r)
  | probability .. => .error (.invalid "nested probability operators have no fixed state set")

/-- The bound and the target of a formula that can be checked. -/
def reachability? : StateFormula → Option (Bound × StateFormula)
  | probability (some bound) (.eventually target)
  | probability (some bound) (.holdsUntil always target) =>
    if target.isPropositional then some (bound, target) else none
  | _ => none

end StateFormula

end MarkovRegion
