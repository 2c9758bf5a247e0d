import MarkovRegion.Analysis.Property
import MarkovRegion.Smt.Term

/-!
# Equation systems as terms

The unknown of a state is a variable `prob_i`, a parameter `p` a variable `par_p`.  For each state
it is asserted that its probability lies between zero and one, and its equation, multiplied by the
distinct denominators of its weights, which are asserted not to be zero.

`Encoding.full` encodes all equations of a model, `Encoding.subsystem` those that are left once
cheap states without self-loop have been eliminated.
-/

namespace MarkovRegion.Smt

/-- Declared variables and the assertions that do not depend on a region. -/
structure Encoding where
  /-- The variables with their sorts. -/
  declarations : List (String × ValueSort)
  /-- The assertions. -/
  assertions : List Term
  /-- The variable of the initial state. -/
  initialVariable : String
  /-- The number of encoded states. -/
  states : Nat
  /-- The parameters with their variables, in their order. -/
  parameters : List (Parameter × String)

/-- The variable of a parameter. -/
def parameterVariable (p : Parameter) : String := "par_" ++ p.name

/-- The variable of the probability of a state. -/
def probabilityVariable (state : Nat) : String := "prob_" ++ toString state

/-- A list of factors as a term; one factor stands for itself. -/
def ofFactors : List Term → Term
  | [factor] => factor
  | factors => .product factors

/-- A list of summands as a term; one summand stands for itself. -/
def ofSummands : List Term → Term
  | [] => .int 0
  | [summand] => summand
  | summands => .sum summands

/-- The variables of a monomial, each as often as its exponent says. -/
def monomialFactors (m : Monomial) : List Term :=
  m.powers.entries.flatMap fun e => List.replicate e.2 (.var (parameterVariable e.1))

/-- A coefficient with a monomial as a term; a coefficient one is left out unless it stands alone.
-/
def termOfMonomial (m : Monomial) (coefficient : Rat) : Term :=
  ofFactors ((if coefficient ≠ 1 || m.isUnit then [.real coefficient] else []) ++ monomialFactors m)

/-- A polynomial as a term. -/
def termOfPolynomial (f : Polynomial) : Term :=
  ofSummands (f.terms.entries.map fun e => termOfMonomial e.1 e.2)

/-- The term that a value satisfies a bound. -/
def termOfBound (b : Bound) (value : Term) : Term :=
  let threshold := Term.real b.threshold
  match b.comparison with
  | .less => .lt value threshold
  | .lessEqual => .le value threshold
  | .greater => .gt value threshold
  | .greaterEqual => .ge value threshold
  | .equal => .eq value threshold

/-- The distinct denominators other than one, in the order of their first use. -/
def denominators (weights : List RationalFunction) : List Polynomial :=
  ((weights.map RationalFunction.denominator).filter fun d => !d.isOne).eraseDups

/-- The product of polynomials. -/
def productOf (factors : List Polynomial) : Polynomial := factors.foldl Polynomial.mul .one

/-- The polynomial of a weight multiplied by all denominators. -/
def clearDenominators (dens : List Polynomial) (w : RationalFunction) : Polynomial :=
  w.numerator.mul (productOf (dens.filter fun d => d ≠ w.denominator))

/-- The equation of a state without denominators, and that no denominator is zero. -/
def rowAssertions (state : Nat) (row : Row RationalFunction) (oneStep : RationalFunction) :
    List Term :=
  let dens := denominators (row.map Prod.snd ++ [oneStep])
  let steps := row.map fun e =>
    (termOfPolynomial (clearDenominators dens e.2)).times (.var (probabilityVariable e.1))
  let final :=
    if oneStep.isZero then [] else [termOfPolynomial (clearDenominators dens oneStep)]
  let unknown := Term.var (probabilityVariable state)
  let left := if dens.isEmpty then unknown else (termOfPolynomial (productOf dens)).times unknown
  .eq left (.sum (steps ++ final))
    :: dens.map fun d => .not (.eq (termOfPolynomial d) (.int 0))

namespace Encoding

/-- The encoding of a system. -/
def ofSystem (e : EquationSystem RationalFunction) (initial : Nat) (parameters : List Parameter) :
    Encoding where
  declarations :=
    (parameters.map fun p => (parameterVariable p, .real))
      ++ (List.range e.states).map fun s => (probabilityVariable s, .real)
  assertions := (List.range e.states).flatMap fun s =>
    Term.within (.var (probabilityVariable s)) (.int 0) (.int 1)
      :: rowAssertions s (e.row s) (e.target s)
  initialVariable := probabilityVariable initial
  states := e.states
  parameters := parameters.map fun p => (p, parameterVariable p)

/-- The encoding of all equations. -/
def full (m : SimplifiedModel) : Encoding := ofSystem m.system m.initial m.parameters

/-- Eliminate a state that joins few paths and has no self-loop; otherwise it stays. -/
def reduceState (fanBound : Nat) (sizeBound : Option Nat) (e : Eliminator RationalFunction)
    (state : Nat) : Eliminator RationalFunction :=
  let row := e.system.row state
  if fanBound < (e.predecessorsOf state).length * row.length || (Row.get? row state).isSome then e
  else ((Eliminator.eliminate sizeBound state).run e).2

/-- The system after the elimination of cheap states. -/
def reduce (m : SimplifiedModel) (fanBound : Nat) (sizeBound : Option Nat) :
    EquationSystem RationalFunction :=
  let others := (List.range m.system.states).filter (· != m.initial)
  ((m.system.eliminationOrder others).foldl (reduceState fanBound sizeBound)
    (Eliminator.ofSystem m.system)).system

/-- The encoding of the equations that are left once cheap states have been eliminated, as far as
the initial state reaches. -/
def subsystem (m : SimplifiedModel) (fanBound : Nat) (sizeBound : Option Nat) : Encoding :=
  let reduced := reduce m fanBound sizeBound
  let keep := reduced.reachableFrom m.initial
  ofSystem (reduced.restrict keep) (newInitial keep m.initial) m.parameters

/-- The terms that the encoded parameters lie in a box. -/
def boxTerms (e : Encoding) (b : Box) : Except RegionError (List Term) :=
  e.parameters.mapM fun (p, name) => do
    let side ← b.side p
    return Term.within (.var name) (.real side.lower) (.real side.upper)

/-- The variable of a parameter, if it is encoded. -/
def nameOf? (e : Encoding) (p : Parameter) : Option String := e.parameters.lookup p

end Encoding

end MarkovRegion.Smt
