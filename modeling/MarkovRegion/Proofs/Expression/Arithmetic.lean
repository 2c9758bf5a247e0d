import MarkovRegion.Proofs.Algebra.Evaluation
import MarkovRegion.Proofs.Expression.ExponentBounds
import MarkovRegion.Proofs.Expression.Grammar

/-!
# Expressions denote what arithmetic says

Two meanings of a tree stand beside the function that `exactFunction` computes.  `value` is rational
arithmetic at a point, which has no result where a parameter has no value or a divisor is zero.
`fraction` is arithmetic in the field of rational functions.

The computation refuses a tree exactly when a divisor that occurs in it is zero in this field, and
then it names the offset of such a divisor (`outcome_of_inRange`).  A function that it returns has,
at each point, the value that arithmetic gives there (`evaluate_of_value`).  `read_arithmetic` says
both of texts that are read without an exponent that is too large.
-/

namespace MarkovRegion

/-! ## Two operands -/

theorem bind₂_eq_some_iff {α β γ : Type} {x : Option α} {y : Option β} {op : α → β → γ} {c : γ} :
    (do return op (← x) (← y)) = some c ↔ ∃ a b, x = some a ∧ y = some b ∧ op a b = c := by
  simp only [Option.bind_eq_bind, Option.bind_eq_some_iff, Option.pure_def, Option.some.injEq]
  tauto

/-! ## Powers -/

theorem Reading.pow {F : Type*} [Field F] (R : Reading RationalFunction F) {f : RationalFunction}
    (hf : R.Defined f) (n : Nat) :
    R.Defined (f.pow n) ∧ R.value (f.pow n) = R.value f ^ n := by
  induction n with
  | zero =>
      obtain ⟨hdef, hval⟩ := R.one
      exact ⟨hdef, by rw [pow_zero]; exact hval⟩
  | succ n ih =>
      obtain ⟨hdef, hval⟩ := R.mul ih.1 hf
      exact ⟨hdef, by rw [pow_succ, ← ih.2]; exact hval⟩

theorem RationalFunction.evaluate_ofParameter {p : Parameter} {v : Valuation} {x : ℚ}
    (hx : v.find? p = some x) : (ofParameter p).evaluate v = .ok x := by
  have hdomain : p ∈ v.domain := Option.isSome_iff_exists.mpr ⟨x, hx⟩
  refine evaluate_eq_ok_iff.mpr ⟨readDefined_ofPolynomial ?_, ?_⟩
  · rw [Polynomial.toRing_ofParameter]
    exact MvPolynomial.X_mem_supported.mpr hdomain
  · refine ((readValue_ofPolynomial _).trans ?_).symm
    rw [Polynomial.toRing_ofParameter, evalHom_apply, MvPolynomial.eval_X, Valuation.assignment, hx]
    rfl

theorem RationalFunction.evaluate_pow {f : RationalFunction} {v : Valuation} {x : ℚ}
    (hf : f.evaluate v = .ok x) (n : Nat) : (f.pow n).evaluate v = .ok (x ^ n) := by
  obtain ⟨hdef, hval⟩ := evaluate_eq_ok_iff.mp hf
  obtain ⟨hdef', hval'⟩ := (pointReading v).pow hdef n
  exact evaluate_eq_ok_iff.mpr ⟨hdef', by rw [hval', ← hval, Rat.cast_pow]⟩

namespace Expression

open RationalFunction (fractionReading)

/-! ## Meanings of a tree -/

/-- The divisors in a tree with their offsets, in the order in which they are divided by. -/
def divisors : Expression → List (Nat × Expression)
  | number _ | parameter _ => []
  | neg e => e.divisors
  | add l r | sub l r | mul l r => l.divisors ++ r.divisors
  | div l offset r => l.divisors ++ r.divisors ++ [(offset, r)]
  | pow base _ _ => base.divisors

/-- All exponents in a tree are below the limit. -/
def InRange : Expression → Prop
  | number _ | parameter _ => True
  | neg e => e.InRange
  | add l r | sub l r | mul l r | div l _ r => l.InRange ∧ r.InRange
  | pow base _ exponent => base.InRange ∧ exponent < exponentLimit

/-- Arithmetic at a point.  There is no value where a part of the tree has none: a parameter
without a value, or a division by zero. -/
def value (v : Valuation) : Expression → Option ℚ
  | number q => some q
  | parameter p => v.find? p
  | neg e => do return -(← e.value v)
  | add l r => do return (← l.value v) + (← r.value v)
  | sub l r => do return (← l.value v) - (← r.value v)
  | mul l r => do return (← l.value v) * (← r.value v)
  | div l _ r => do
    let x ← l.value v
    let y ← r.value v
    if y = 0 then none else some (x / y)
  | pow base _ exponent => do return (← base.value v) ^ exponent

/-- Arithmetic in the field of rational functions. -/
noncomputable def fraction : Expression → FractionRing (MvPolynomial Parameter ℚ)
  | number q => algebraMap (MvPolynomial Parameter ℚ) _ (MvPolynomial.C q)
  | parameter p => algebraMap (MvPolynomial Parameter ℚ) _ (MvPolynomial.X p)
  | neg e => -e.fraction
  | add l r => l.fraction + r.fraction
  | sub l r => l.fraction - r.fraction
  | mul l r => l.fraction * r.fraction
  | div l _ r => l.fraction / r.fraction
  | pow base _ exponent => base.fraction ^ exponent

theorem Written.inRange {level : Level} {start : Nat} {e : Expression} {t : List Char}
    (h : Written level start e t) : e.InRange := by
  induction h with
  | number | parameter => exact trivial
  | parenthesis _ _ _ ih | ofAtom _ ih | ofPower _ ih | neg _ _ ih | ofOperand _ ih
  | ofProduct _ ih => exact ih
  | pow _ _ _ _ hlimit ih => exact ⟨ih, hlimit⟩
  | mul _ _ _ _ ihl ihr | div _ _ _ _ ihl ihr | add _ _ _ _ ihl ihr | sub _ _ _ _ ihl ihr =>
      exact ⟨ihl, ihr⟩

/-! ## Values -/

/-- The function of a tree has the values of the tree. -/
theorem evaluate_of_value {e : Expression} {f : RationalFunction} {v : Valuation} {x : ℚ}
    (hf : e.exactFunction = .ok f) (hx : e.value v = some x) : f.evaluate v = .ok x := by
  induction e generalizing f x with
  | number q =>
      obtain rfl := Except.ok.inj hf
      obtain rfl := Option.some.inj hx
      exact RationalFunction.evaluate_constant v q
  | parameter p =>
      obtain rfl := Except.ok.inj hf
      exact RationalFunction.evaluate_ofParameter hx
  | neg e ih =>
      obtain ⟨g, hg, heq⟩ := bind_eq_ok_iff.mp hf
      obtain ⟨y, hy, hyx⟩ := Option.bind_eq_some_iff.mp hx
      obtain rfl := pure_eq_ok_iff.mp heq
      obtain rfl := Option.some.inj hyx
      exact RationalFunction.evaluate_neg (ih hg hy)
  | add l r ihl ihr =>
      obtain ⟨g, k, hg, hk, rfl⟩ := bind₂_eq_ok_iff.mp hf
      obtain ⟨y, z, hy, hz, rfl⟩ := bind₂_eq_some_iff.mp hx
      exact RationalFunction.evaluate_add (ihl hg hy) (ihr hk hz)
  | sub l r ihl ihr =>
      obtain ⟨g, k, hg, hk, rfl⟩ := bind₂_eq_ok_iff.mp hf
      obtain ⟨y, z, hy, hz, rfl⟩ := bind₂_eq_some_iff.mp hx
      exact RationalFunction.evaluate_sub (ihl hg hy) (ihr hk hz)
  | mul l r ihl ihr =>
      obtain ⟨g, k, hg, hk, rfl⟩ := bind₂_eq_ok_iff.mp hf
      obtain ⟨y, z, hy, hz, rfl⟩ := bind₂_eq_some_iff.mp hx
      exact RationalFunction.evaluate_mul (ihl hg hy) (ihr hk hz)
  | div l offset r ihl ihr =>
      obtain ⟨g, hg, hrest⟩ := bind_eq_ok_iff.mp hf
      obtain ⟨k, hk, heq⟩ := bind_eq_ok_iff.mp hrest
      obtain ⟨y, hy, hrest'⟩ := Option.bind_eq_some_iff.mp hx
      obtain ⟨z, hz, hyz⟩ := Option.bind_eq_some_iff.mp hrest'
      split_ifs at hyz with hzero
      obtain rfl := Option.some.inj hyz
      obtain ⟨q, hq, hval⟩ := RationalFunction.evaluate_div (ihl hg hy) (ihr hk hz) hzero
      rw [hq] at heq
      obtain rfl := pure_eq_ok_iff.mp heq
      exact hval
  | pow base offset exponent ih =>
      obtain ⟨g, hg, hrest⟩ := bind_eq_ok_iff.mp hf
      obtain ⟨y, hy, hyx⟩ := Option.bind_eq_some_iff.mp hx
      split_ifs at hrest
      obtain rfl := pure_eq_ok_iff.mp hrest
      obtain rfl := Option.some.inj hyx
      exact RationalFunction.evaluate_pow (ih hg hy) exponent

/-! ## Refusals -/

/-- The function `f` is the meaning of `e` in the field of rational functions. -/
structure Denotes (f : RationalFunction) (e : Expression) : Prop where
  defined : fractionReading.Defined f
  value_eq : fractionReading.value f = e.fraction

/-- Either no divisor is zero and the tree has a function, or a divisor is zero and the tree is
refused at one. -/
def Outcome (e : Expression) : Prop :=
  (∃ f, e.exactFunction = .ok f ∧ Denotes f e ∧ ∀ d ∈ e.divisors, d.2.fraction ≠ 0) ∨
    ∃ d ∈ e.divisors, d.2.fraction = 0 ∧
      e.exactFunction = .error (.expression d.1 .divisionByZero)

theorem Outcome.unary {e₀ e : Expression} (h : e₀.Outcome)
    (op : RationalFunction → RationalFunction)
    (hfun : e.exactFunction = e₀.exactFunction >>= fun f => .ok (op f))
    (hdivisors : e.divisors = e₀.divisors) (hop : ∀ f, Denotes f e₀ → Denotes (op f) e) :
    e.Outcome := by
  rcases h with ⟨f, hf, hden, hne⟩ | ⟨d, hd, hzero, herr⟩
  · refine .inl ⟨op f, by rw [hfun, hf]; rfl, hop f hden, ?_⟩
    rwa [hdivisors]
  · refine .inr ⟨d, by rwa [hdivisors], hzero, ?_⟩
    rw [hfun, herr]
    rfl

/-- Refusals of the operands come first, from the left; after them the last step decides. -/
theorem Outcome.binary {l r e : Expression}
    {op : RationalFunction → RationalFunction → Except ModelError RationalFunction}
    (hl : l.Outcome) (hr : r.Outcome) (last : List (Nat × Expression))
    (hfun : e.exactFunction = do op (← l.exactFunction) (← r.exactFunction))
    (hdivisors : e.divisors = l.divisors ++ r.divisors ++ last)
    (hop : ∀ f g, Denotes f l → Denotes g r →
      (∃ h, op f g = .ok h ∧ Denotes h e ∧ ∀ d ∈ last, d.2.fraction ≠ 0) ∨
        ∃ d ∈ last, d.2.fraction = 0 ∧ op f g = .error (.expression d.1 .divisionByZero)) :
    e.Outcome := by
  rcases hl with ⟨f, hf, hdenf, hnef⟩ | ⟨d, hd, hzero, herr⟩
  · rcases hr with ⟨g, hg, hdeng, hneg⟩ | ⟨d, hd, hzero, herr⟩
    · have hlast : e.exactFunction = op f g := by
        rw [hfun, hf, hg]
        rfl
      rcases hop f g hdenf hdeng with ⟨h, hh, hdenh, hneh⟩ | ⟨d, hd, hzero, herr⟩
      · refine .inl ⟨h, hlast.trans hh, hdenh, ?_⟩
        rw [hdivisors]
        simp only [List.forall_mem_append]
        exact ⟨⟨hnef, hneg⟩, hneh⟩
      · exact .inr ⟨d, by rw [hdivisors]; exact List.mem_append_right _ hd, hzero,
          hlast.trans herr⟩
    · refine .inr ⟨d, by simp [hdivisors, hd], hzero, ?_⟩
      rw [hfun, hf, herr]
      rfl
  · refine .inr ⟨d, by simp [hdivisors, hd], hzero, ?_⟩
    rw [hfun, herr]
    rfl

/-- An operation that never fails adds no divisor. -/
theorem Outcome.total {l r e : Expression}
    {op : RationalFunction → RationalFunction → RationalFunction} (hl : l.Outcome)
    (hr : r.Outcome) (hfun : e.exactFunction = do return op (← l.exactFunction) (← r.exactFunction))
    (hdivisors : e.divisors = l.divisors ++ r.divisors)
    (hop : ∀ f g, Denotes f l → Denotes g r → Denotes (op f g) e) : e.Outcome :=
  hl.binary hr [] hfun (by rw [hdivisors, List.append_nil]) fun f g hf hg =>
    .inl ⟨op f g, rfl, hop f g hf hg, by simp⟩

theorem denotes_ofPolynomial {f : Polynomial} {e : Expression}
    (h : algebraMap _ _ f.toRing = e.fraction) : Denotes (.ofPolynomial f) e :=
  ⟨RationalFunction.readDefined_ofPolynomial (by simp),
    (RationalFunction.readValue_ofPolynomial f).trans h⟩

theorem outcome_of_inRange {e : Expression} (h : e.InRange) : e.Outcome := by
  induction e with
  | number q =>
      refine .inl ⟨_, rfl, denotes_ofPolynomial ?_, by simp [divisors]⟩
      rw [Polynomial.toRing_constant, fraction]
  | parameter p =>
      refine .inl ⟨_, rfl, denotes_ofPolynomial ?_, by simp [divisors]⟩
      rw [Polynomial.toRing_ofParameter, fraction]
  | neg e ih =>
      refine (ih h).unary RationalFunction.neg rfl rfl fun f hf => ?_
      obtain ⟨hdef, hval⟩ := RationalFunction.neg_read hf.1
      exact ⟨hdef, hval.trans (congrArg Neg.neg hf.2)⟩
  | add l r ihl ihr =>
      refine (ihl h.1).total (ihr h.2) rfl rfl fun f g hf hg => ?_
      obtain ⟨hdef, hval⟩ := fractionReading.add hf.1 hg.1
      exact ⟨hdef, by rw [fraction, ← hf.2, ← hg.2]; exact hval⟩
  | sub l r ihl ihr =>
      refine (ihl h.1).total (ihr h.2) rfl rfl fun f g hf hg => ?_
      obtain ⟨hdef, hval⟩ := fractionReading.sub hf.1 hg.1
      exact ⟨hdef, by rw [fraction, ← hf.2, ← hg.2]; exact hval⟩
  | mul l r ihl ihr =>
      refine (ihl h.1).total (ihr h.2) rfl rfl fun f g hf hg => ?_
      obtain ⟨hdef, hval⟩ := fractionReading.mul hf.1 hg.1
      exact ⟨hdef, by rw [fraction, ← hf.2, ← hg.2]; exact hval⟩
  | div l offset r ihl ihr =>
      refine (ihl h.1).binary (ihr h.2) [(offset, r)] rfl rfl fun f g hf hg => ?_
      by_cases hzero : r.fraction = 0
      · have hisZero : g.isZero = true :=
          RationalFunction.isZero_of_fraction hg.1 (hg.2.trans hzero)
        refine .inr ⟨(offset, r), List.mem_singleton_self _, hzero, ?_⟩
        rw [RationalFunction.div?, if_pos hisZero]
        rfl
      · obtain ⟨q, hq, hdef, hval⟩ := fractionReading.div hf.1 hg.1 (by rwa [hg.2])
        have hdiv : f.div? g = some q := hq
        refine .inl ⟨q, by rw [hdiv]; rfl, ⟨hdef, ?_⟩, by simpa using hzero⟩
        rw [fraction, ← hf.2, ← hg.2]
        exact hval
  | pow base offset exponent ih =>
      refine (ih h.1).unary (fun f => f.pow exponent) ?_ rfl fun f hf => ?_
      · simp only [exactFunction, if_pos h.2]
        rfl
      · obtain ⟨hdef, hval⟩ := fractionReading.pow hf.1 exponent
        exact ⟨hdef, by rw [hval, fraction, hf.2]⟩

/-! ## Texts -/

/-- A text whose exponents have bounds below the limit is read without an exponent that is too
large.  Every text that is read so is refused exactly when a divisor in it is zero as a rational
function, and then at such a divisor; otherwise it is read as a function whose value at each point is
the one that arithmetic gives there. -/
theorem read_arithmetic {e : Expression} {text : String} (h : IsWritten e text) :
    (e.ExponentsBounded → RationalFunction.read text ≠ .error .overflow) ∧
    (RationalFunction.read text ≠ .error .overflow →
      ((∃ d ∈ e.divisors, d.2.fraction = 0) →
        ∃ d ∈ e.divisors, d.2.fraction = 0 ∧
          RationalFunction.read text = .error (.expression d.1 .divisionByZero)) ∧
      ExpressionFault.message .divisionByZero = "division by zero" ∧
      ((∀ d ∈ e.divisors, d.2.fraction ≠ 0) →
        ∃ f, RationalFunction.read text = .ok f ∧
          ∀ v x, e.value v = some x → f.evaluate v = .ok x)) := by
  rw [RationalFunction.read_of_tree (read_eq_of_isWritten h)]
  obtain ⟨s, t, s', -, ht, -, -⟩ := h
  rcases outcome_of_inRange ht.inRange with ⟨f, hf, -, hne⟩ | ⟨d, hd, hzero, herr⟩
  · constructor
    · intro hbounded
      rw [toFunction_eq hbounded, hf]
      exact fun hcase => by cases hcase
    · intro hread
      rw [e.refines_toFunction.eq_of_ne hread]
      refine ⟨fun ⟨d, hd, hzero⟩ => absurd hzero (hne d hd), rfl, fun _ => ⟨f, hf, ?_⟩⟩
      exact fun v x hx => evaluate_of_value hf hx
  · constructor
    · intro hbounded
      rw [toFunction_eq hbounded, herr]
      exact fun hcase => by cases hcase
    · intro hread
      rw [e.refines_toFunction.eq_of_ne hread]
      exact ⟨fun _ => ⟨d, hd, hzero, herr⟩, rfl, fun hne => absurd hzero (hne d hd)⟩

/-- The rate of heads of a coin. -/
def headsRate : Parameter := ⟨"h", by decide⟩

/-- One minus the quotient of `-h^2` and `2*h`. -/
def signedQuotient : Expression :=
  .sub (.number 1)
    (.div (.neg (.pow (.parameter headsRate) 8 2)) 11 (.mul (.number 2) (.parameter headsRate)))

/-- The quotient of one and `h - h`. -/
def hiddenZero : Expression :=
  .div (.number 1) 2 (.sub (.parameter headsRate) (.parameter headsRate))

section Examples

variable {start : Nat}

theorem written_digit {c : Char} (hc : c.isDigit = true) :
    Written .product start (.number (Nat.ofDigitChars 10 [c] 0)) [c] :=
  .ofOperand (.ofPower (.ofAtom (.number (.whole (digits_singleton hc)))))

theorem written_headsRate : Written .atom start (.parameter headsRate) ['h'] := by
  have hname : headsRate.name.toList = ['h'] := by decide
  exact hname ▸ .parameter headsRate

theorem isWritten_signedQuotient : IsWritten signedQuotient " 1 - -h^2\t/(2*h)" := by
  have hpower : Written .power 6 (.pow (.parameter headsRate) 8 2) ['h', '^', '2'] :=
    .pow written_headsRate blanks_nil blanks_nil (digits_singleton (c := '2') (by decide))
      (by decide)
  have hdivisor : Written .operand 11 (.mul (.number 2) (.parameter headsRate))
      ['(', '2', '*', 'h', ')'] :=
    .ofPower (.ofAtom (.parenthesis blanks_nil (.ofProduct (.mul
      (written_digit (c := '2') (by decide)) blanks_nil blanks_nil
      (.ofPower (.ofAtom written_headsRate)))) blanks_nil))
  have hquotient : Written .product 5
      (.div (.neg (.pow (.parameter headsRate) 8 2)) 11 (.mul (.number 2) (.parameter headsRate)))
      ['-', 'h', '^', '2', '\t', '/', '(', '2', '*', 'h', ')'] :=
    .div (.ofOperand (.neg blanks_nil (.ofPower hpower))) (blanks_singleton (c := '\t') (by decide))
      blanks_nil hdivisor
  have hsum : Written .sum 1 signedQuotient
      ['1', ' ', '-', ' ', '-', 'h', '^', '2', '\t', '/', '(', '2', '*', 'h', ')'] :=
    .sub (.ofProduct (written_digit (c := '1') (by decide)))
      (blanks_singleton (c := ' ') (by decide)) (blanks_singleton (c := ' ') (by decide)) hquotient
  exact ⟨[' '], _, [], blanks_singleton (by decide), hsum, blanks_nil, by decide⟩

theorem isWritten_hiddenZero : IsWritten hiddenZero "1/(h-h)" := by
  have hdifference : Written .sum 3 (.sub (.parameter headsRate) (.parameter headsRate))
      ['h', '-', 'h'] :=
    .sub (.ofProduct (.ofOperand (.ofPower (.ofAtom written_headsRate)))) blanks_nil blanks_nil
      (.ofOperand (.ofPower (.ofAtom written_headsRate)))
  have hquotient : Written .product 0 hiddenZero ['1', '/', '(', 'h', '-', 'h', ')'] :=
    .div (written_digit (c := '1') (by decide)) blanks_nil blanks_nil
      (.ofPower (.ofAtom (.parenthesis blanks_nil hdifference blanks_nil)))
  exact ⟨[], _, [], blanks_nil, .ofProduct hquotient, blanks_nil, by decide⟩

theorem exponentsBounded_signedQuotient : signedQuotient.ExponentsBounded :=
  exponentsBounded_of_highest (by decide)

theorem exponentsBounded_hiddenZero : hiddenZero.ExponentsBounded :=
  exponentsBounded_of_highest (by decide)

end Examples

theorem read_arithmetic_headsRate :
    (IsWritten signedQuotient " 1 - -h^2\t/(2*h)" ∧ signedQuotient.ExponentsBounded ∧
      signedQuotient.value (.ofList [(headsRate, 3)]) = some (5 / 2) ∧
      ∃ f, RationalFunction.read " 1 - -h^2\t/(2*h)" = .ok f ∧
        f.evaluate (.ofList [(headsRate, 3)]) = .ok (5 / 2)) ∧
    IsWritten hiddenZero "1/(h-h)" ∧ hiddenZero.ExponentsBounded ∧
      RationalFunction.read "1/(h-h)" = .error (.expression 2 .divisionByZero) := by
  have hinj := IsFractionRing.injective (MvPolynomial Parameter ℚ)
    (FractionRing (MvPolynomial Parameter ℚ))
  have hne : ∀ d ∈ signedQuotient.divisors, d.2.fraction ≠ 0 := by
    have htwo : (MvPolynomial.C 2 : MvPolynomial Parameter ℚ) ≠ 0 := by
      simp
    intro d hd
    obtain rfl := List.mem_singleton.mp hd
    exact mul_ne_zero ((map_ne_zero_iff _ hinj).mpr htwo)
      ((map_ne_zero_iff _ hinj).mpr (MvPolynomial.X_ne_zero headsRate))
  have hvalue : signedQuotient.value (.ofList [(headsRate, 3)]) = some (5 / 2) := by
    decide +kernel
  have hzero : ∃ d ∈ hiddenZero.divisors, d.2.fraction = 0 := by
    refine ⟨_, List.mem_singleton_self _, ?_⟩
    simp [fraction]
  have hsigned := (read_arithmetic isWritten_signedQuotient).1 exponentsBounded_signedQuotient
  have hhidden := (read_arithmetic isWritten_hiddenZero).1 exponentsBounded_hiddenZero
  obtain ⟨f, hf, hval⟩ := ((read_arithmetic isWritten_signedQuotient).2 hsigned).2.2 hne
  obtain ⟨d, hd, -, herr⟩ := ((read_arithmetic isWritten_hiddenZero).2 hhidden).1 hzero
  obtain rfl := List.mem_singleton.mp hd
  exact ⟨⟨isWritten_signedQuotient, exponentsBounded_signedQuotient, hvalue, f, hf,
    hval _ _ hvalue⟩, isWritten_hiddenZero, exponentsBounded_hiddenZero, herr⟩

end Expression

end MarkovRegion
