import MarkovRegion.Proofs.Smt.Values

/-!
# The meaning of s-expressions

SMT-LIB says what the s-expressions that are sent to a solver mean.  An atom is a truth value, a
symbol or a literal without sign (`SExpr.atomValue?`), and a list applies an operator to at least as
many operands as it needs (`Operator.apply`): sums, differences, products, quotients, conjunctions
and disjunctions group from the left, implications from the right, and comparisons hold between
neighbours.  `SExpr.value?` is the value under an assignment of the symbols.  What is not
well-sorted has no value, and neither has a quotient by zero.

An exact number means itself (`SExpr.value?_ofReal`).
-/

namespace MarkovRegion.Smt

open Coefficient (digits_repr ofDigitChars_repr)

namespace ModelValue

/-- The sort of a value. -/
def sort : ModelValue → ValueSort
  | real _ => .real
  | bool _ => .bool

/-- A value as a number. -/
def real? : ModelValue → Option ℚ
  | real x => some x
  | bool _ => none

/-- A value as a truth value. -/
def bool? : ModelValue → Option Bool
  | real _ => none
  | bool b => some b

theorem exists_sort_real {P : ModelValue → Prop} :
    (∃ v, v.sort = .real ∧ P v) ↔ ∃ x, P (real x) := by
  constructor
  · rintro ⟨v, hsort, hv⟩
    cases v with
    | real x => exact ⟨x, hv⟩
    | bool _ => cases hsort
  · rintro ⟨x, hx⟩
    exact ⟨real x, rfl, hx⟩

theorem exists_sort_bool {P : ModelValue → Prop} :
    (∃ v, v.sort = .bool ∧ P v) ↔ ∃ b, P (bool b) := by
  constructor
  · rintro ⟨v, hsort, hv⟩
    cases v with
    | real _ => cases hsort
    | bool b => exact ⟨b, hv⟩
  · rintro ⟨b, hb⟩
    exact ⟨bool b, rfl, hb⟩

end ModelValue

/-! ## Operators -/

/-- The operators of real arithmetic and of logic. -/
inductive Operator where
  | add | sub | mul | div
  | eq | lt | le | gt | ge
  | and | or | not | implies

namespace Operator

/-- The operator of a symbol. -/
def ofText? : String → Option Operator
  | "+" => some add
  | "-" => some sub
  | "*" => some mul
  | "/" => some div
  | "=" => some eq
  | "<" => some lt
  | "<=" => some le
  | ">" => some gt
  | ">=" => some ge
  | "and" => some and
  | "or" => some or
  | "not" => some not
  | "=>" => some implies
  | _ => none

/-- Operate on two numbers. -/
def onReals (f : ℚ → ℚ → Option ℚ) (v w : ModelValue) : Option ModelValue := do
  return .real (← f (← v.real?) (← w.real?))

/-- Operate on two truth values. -/
def onBools (f : Bool → Bool → Bool) (v w : ModelValue) : Option ModelValue := do
  return .bool (f (← v.bool?) (← w.bool?))

/-- Compare two numbers. -/
def compares (r : ℚ → ℚ → Bool) (v w : ModelValue) : Option Bool := do
  return r (← v.real?) (← w.real?)

/-- Whether two values of one sort are the same. -/
def equals (v w : ModelValue) : Option Bool :=
  if v.sort = w.sort then some (v = w) else none

/-- Group from the left: `(- a b c)` means `(- (- a b) c)`. -/
def fromLeft (f : ModelValue → ModelValue → Option ModelValue) :
    List ModelValue → Option ModelValue
  | v :: w :: rest => (w :: rest).foldlM f v
  | _ => none

/-- Group from the right: `(=> a b c)` means `(=> a (=> b c))`. -/
def fromRight (f : ModelValue → ModelValue → Option ModelValue) :
    List ModelValue → Option ModelValue
  | [v, w] => f v w
  | v :: w :: rest => do f v (← fromRight f (w :: rest))
  | _ => none

/-- Compare neighbours: `(< a b c)` means `(and (< a b) (< b c))`. -/
def betweenNeighbours (r : ModelValue → ModelValue → Option Bool) : List ModelValue → Option Bool
  | [v, w] => r v w
  | v :: w :: rest => do return (← r v w) && (← betweenNeighbours r (w :: rest))
  | _ => none

/-- The value of an operator at its operands. -/
def apply : Operator → List ModelValue → Option ModelValue
  | sub, [v] => do return .real (-(← v.real?))
  | not, [v] => do return .bool (!(← v.bool?))
  | not, _ => none
  | add, vs => fromLeft (onReals fun x y => some (x + y)) vs
  | sub, vs => fromLeft (onReals fun x y => some (x - y)) vs
  | mul, vs => fromLeft (onReals fun x y => some (x * y)) vs
  | div, vs => fromLeft (onReals fun x y => if y = 0 then none else some (x / y)) vs
  | eq, vs => (betweenNeighbours equals vs).map .bool
  | lt, vs => (betweenNeighbours (compares (· < ·)) vs).map .bool
  | le, vs => (betweenNeighbours (compares (· ≤ ·)) vs).map .bool
  | gt, vs => (betweenNeighbours (compares (· > ·)) vs).map .bool
  | ge, vs => (betweenNeighbours (compares (· ≥ ·)) vs).map .bool
  | and, vs => fromLeft (onBools (· && ·)) vs
  | or, vs => fromLeft (onBools (· || ·)) vs
  | implies, vs => fromRight (onBools fun a b => !a || b) vs

/-- Grouping from the left gives the total of values of one kind, if two operands in front can be
replaced by the result at them. -/
theorem fromLeft_map {α : Type} {f : ModelValue → ModelValue → Option ModelValue}
    {value : α → ModelValue} {g : α → α → α} (total : List α → α)
    (hf : ∀ x y, f (value x) (value y) = some (value (g x y))) (hsingle : ∀ x, total [x] = x)
    (hstep : ∀ x y rest, total (x :: y :: rest) = total (g x y :: rest)) (x y : α) (rest : List α) :
    fromLeft f ((x :: y :: rest).map value) = some (value (total (x :: y :: rest))) := by
  have hfold : ∀ (ys : List α) (x : α),
      (ys.map value).foldlM f (value x) = some (value (total (x :: ys))) := by
    intro ys
    induction ys with
    | nil =>
        intro x
        rw [hsingle]
        rfl
    | cons y ys ih =>
        intro x
        rw [List.map_cons, List.foldlM_cons, hf, hstep]
        exact ih (g x y)
  exact hfold (y :: rest) x

theorem apply_add (x y : ℚ) (rest : List ℚ) :
    add.apply ((x :: y :: rest).map .real) = some (.real (x :: y :: rest).sum) :=
  fromLeft_map List.sum (fun _ _ => rfl) (fun _ => List.sum_singleton)
    (fun x y rest => by simp only [List.sum_cons, add_assoc]) x y rest

theorem apply_mul (x y : ℚ) (rest : List ℚ) :
    mul.apply ((x :: y :: rest).map .real) = some (.real (x :: y :: rest).prod) :=
  fromLeft_map List.prod (fun _ _ => rfl) (fun _ => List.prod_singleton)
    (fun x y rest => by simp only [List.prod_cons, mul_assoc]) x y rest

theorem apply_and (x y : Bool) (rest : List Bool) :
    and.apply ((x :: y :: rest).map .bool) = some (.bool ((x :: y :: rest).all id)) :=
  fromLeft_map (List.all · id) (fun _ _ => rfl) (fun _ => by simp)
    (fun x y rest => by simp only [List.all_cons, id, Bool.and_assoc]) x y rest

theorem apply_or (x y : Bool) (rest : List Bool) :
    or.apply ((x :: y :: rest).map .bool) = some (.bool ((x :: y :: rest).any id)) :=
  fromLeft_map (List.any · id) (fun _ _ => rfl) (fun _ => by simp)
    (fun x y rest => by simp only [List.any_cons, id, Bool.or_assoc]) x y rest

end Operator

namespace SExpr

/-! ## Literals and symbols -/

/-- A natural number: digits, and no zero in front of others. -/
def isNumeral (cs : List Char) : Bool :=
  cs == ['0'] || (!cs.isEmpty && cs.all Char.isDigit && cs.head? != some '0')

/-- The number of a numeral, or of a decimal with digits after its point. -/
def literal? (cs : List Char) : Option ℚ :=
  let whole := cs.takeWhile Char.isDigit
  if isNumeral whole then
    match cs.dropWhile Char.isDigit with
    | [] => some (Nat.ofDigitChars 10 whole 0 : ℚ)
    | '.' :: places =>
      if !places.isEmpty && places.all Char.isDigit then
        some ((Nat.ofDigitChars 10 whole 0 : ℚ) +
          (Nat.ofDigitChars 10 places 0 : ℚ) / 10 ^ places.length)
      else none
    | _ => none
  else none

/-- The characters of symbols: letters, digits and punctuation. -/
def isSymbolChar (c : Char) : Bool :=
  isIdentifierRest c || "~!@$%^&*-+=<>.?/".toList.contains c

/-- A symbol that needs no quotation; no digit stands in front. -/
def isSymbol (cs : List Char) : Bool :=
  !cs.isEmpty && cs.all isSymbolChar && !cs.head?.any Char.isDigit

variable (σ : String → Option ModelValue)

/-- The value of an atom. -/
def atomValue? (text : String) : Option ModelValue :=
  if isSymbol text.toList then
    if text = "true" then some (.bool true)
    else if text = "false" then some (.bool false)
    else σ text
  else (literal? text.toList).map .real

mutual

/-- The value of an s-expression. -/
def value? : SExpr → Option ModelValue
  | atom text => atomValue? σ text
  | list (atom op :: operands) => do (← Operator.ofText? op).apply (← values? operands)
  | list _ => none

/-- The values of s-expressions. -/
def values? : List SExpr → Option (List ModelValue)
  | [] => some []
  | s :: ss => do return (← s.value?) :: (← values? ss)

end

variable {σ}

theorem value?_apply {op : String} {o : Operator} (hop : Operator.ofText? op = some o)
    {operands : List SExpr} {vs : List ModelValue} (h : values? σ operands = some vs) :
    (list (atom op :: operands)).value? σ = o.apply vs := by
  rw [value?, hop, h]
  rfl

theorem values?_eq_some_iff {ss : List SExpr} {vs : List ModelValue} :
    values? σ ss = some vs ↔ ss.map (value? σ) = vs.map some := by
  induction ss generalizing vs with
  | nil => cases vs <;> simp [values?]
  | cons s ss ih =>
      cases vs with
      | nil => simp [values?, Option.bind_eq_some_iff]
      | cons v vs =>
          rw [List.map_cons, List.map_cons, List.cons.injEq, ← ih, values?]
          simp [Option.bind_eq_some_iff]

theorem values?_singleton {s : SExpr} {v : ModelValue} (h : s.value? σ = some v) :
    values? σ [s] = some [v] := by
  simp [values?_eq_some_iff, h]

theorem values?_pair {s t : SExpr} {v w : ModelValue} (hs : s.value? σ = some v)
    (ht : t.value? σ = some w) : values? σ [s, t] = some [v, w] := by
  simp [values?_eq_some_iff, hs, ht]

/-! ## Exact numbers -/

theorem head?_toDigits_ne {n : Nat} (hn : n ≠ 0) : (Nat.toDigits 10 n).head? ≠ some '0' := by
  induction n using Nat.strong_induction_on with
  | h n ih =>
      rcases lt_or_ge n 10 with hlt | hge
      · rw [Nat.toDigits_of_lt_base hlt]
        have hdigit : ∀ n < 10, n ≠ 0 → [Nat.digitChar n].head? ≠ some '0' := by decide
        exact hdigit n hlt hn
      · rw [Nat.toDigits_of_base_le (by decide) hge,
          List.head?_append_of_ne_nil _ Nat.toDigits_ne_nil]
        exact ih (n / 10) (by omega) (by omega)

theorem isNumeral_repr (n : Nat) : isNumeral n.repr.toList = true := by
  by_cases hn : n = 0
  · rw [hn]
    decide
  · obtain ⟨hne, hdigits⟩ := digits_repr n
    have hhead : n.repr.toList.head? ≠ some '0' := by
      rw [Nat.repr_eq_ofList_toDigits, String.toList_ofList]
      exact head?_toDigits_ne hn
    have hall : n.repr.toList.all Char.isDigit = true := List.all_eq_true.mpr hdigits
    rw [isNumeral, List.isEmpty_eq_false_iff.mpr hne, hall, bne_iff_ne.mpr hhead]
    simp

theorem literal?_decimal (n : Nat) : literal? (toString n ++ ".0").toList = some (n : ℚ) := by
  have hpoint : ∀ c ∈ ['.', '0'].head?, c.isDigit = false := by
    rintro c ⟨⟩
    decide
  obtain ⟨htake, hdrop⟩ := Expression.span_append (digits_repr n).2 hpoint
  have hzero : Nat.ofDigitChars 10 ['0'] 0 = 0 := by decide
  have hplaces : (!List.isEmpty ['0'] && List.all ['0'] Char.isDigit) = true := by decide
  rw [toList_decimal, literal?, htake, hdrop]
  simp only [isNumeral_repr, hplaces, if_true, ofDigitChars_repr, hzero, Nat.cast_zero, zero_div,
    add_zero]

theorem isSymbol_decimal (n : Nat) : isSymbol (toString n ++ ".0").toList = false := by
  have hdigit := isDigit_head_decimal n
  obtain ⟨c, cs, hcs⟩ := List.exists_cons_of_ne_nil (isPlain_decimal n).ne_nil
  rw [hcs] at hdigit ⊢
  simp [isSymbol, hdigit c rfl]

theorem value?_ofNat (n : Nat) : (ofNat n).value? σ = some (.real n) := by
  rw [ofNat, value?, atomValue?, if_neg (Bool.eq_false_iff.mp (isSymbol_decimal n)),
    literal?_decimal]
  rfl

theorem value?_ofMagnitude (n : Nat) {d : Nat} (hd : d ≠ 0) :
    (ofMagnitude n d).value? σ = some (.real (n / d)) := by
  rw [ofMagnitude]
  split_ifs with hone
  · rw [value?_ofNat, hone, Nat.cast_one, div_one]
  · have hne : (d : ℚ) ≠ 0 := Nat.cast_ne_zero.mpr hd
    rw [value?_apply rfl (values?_pair (value?_ofNat n) (value?_ofNat d))]
    simp [Operator.apply, Operator.fromLeft, Operator.onReals, ModelValue.real?, hne]

/-- A number means itself. -/
theorem value?_ofReal (q : ℚ) : (ofReal q).value? σ = some (.real q) := by
  have hmagnitude := value?_ofMagnitude (σ := σ) q.num.natAbs q.den_ne_zero
  rw [natAbs_div_den] at hmagnitude
  rw [ofReal]
  split_ifs with hsign
  · rw [value?_apply rfl (values?_singleton hmagnitude)]
    simp [Operator.apply, ModelValue.real?, abs_of_neg (Rat.num_neg.mp hsign)]
  · rw [hmagnitude, abs_of_nonneg (Rat.num_nonneg.mp (not_lt.mp hsign))]

end SExpr

end MarkovRegion.Smt
