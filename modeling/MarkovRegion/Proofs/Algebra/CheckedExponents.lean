import MarkovRegion.Expression.Reader
import MarkovRegion.Proofs.Algebra.PolynomialRing
import MarkovRegion.Proofs.Basic

/-!
# Checked exponents

Sums of exponents are computed in two ways: exactly, and with a check that stops the computation
where a sum reaches `exponentLimit`.  A checked operation on monomials and polynomials is the exact
one under a condition (`stopUnless`), and the operations on functions give what the exact ones give,
or stop (`Refines`).

The same holds of the function of an expression.  `Expression.exactFunction` computes it without
checks, and `Expression.toFunction` has the same outcome unless it stops
(`Expression.refines_toFunction`).  So what is known of exact functions holds of all functions that
are read.
-/

namespace MarkovRegion

/-! ## Computations that stop -/

section Stop

variable {α β : Type}

/-- The outcome of a computation that stops unless a condition holds. -/
def stopUnless (P : Prop) [Decidable P] (a : α) : Except ModelError α :=
  if P then .ok a else .error .overflow

/-- A computation has the outcome of another one, or stops. -/
def Refines (x y : Except ModelError α) : Prop := x = y ∨ x = .error .overflow

variable {P : Prop} [Decidable P] {a : α}

theorem stopUnless_eq_ok_iff {b : α} : stopUnless P a = .ok b ↔ P ∧ a = b := by
  unfold stopUnless
  split_ifs with h
  · simp [h]
  · simp [h]

theorem stopUnless_of (h : P) : stopUnless P a = .ok a := if_pos h

theorem stopUnless_of_not (h : ¬ P) : stopUnless P a = .error .overflow := if_neg h

theorem stopUnless_congr {Q : Prop} [Decidable Q] (h : P ↔ Q) :
    stopUnless P a = stopUnless Q a := if_congr h rfl rfl

theorem refines_stopUnless : Refines (stopUnless P a) (.ok a) := by
  by_cases h : P
  · exact .inl (stopUnless_of h)
  · exact .inr (stopUnless_of_not h)

theorem bind_stopUnless {Q : Prop} [Decidable Q] {b : β} {f : α → Except ModelError β}
    (hf : f a = stopUnless Q b) : stopUnless P a >>= f = stopUnless (P ∧ Q) b := by
  by_cases h : P
  · rw [stopUnless_of h]
    exact hf.trans (stopUnless_congr (and_iff_right h).symm)
  · rw [stopUnless_of_not h, stopUnless_of_not (mt And.left h)]
    rfl

theorem map_stopUnless (f : α → β) :
    (stopUnless P a >>= fun a => pure (f a)) = stopUnless P (f a) := by
  by_cases h : P
  · rw [stopUnless_of h, stopUnless_of h]
    rfl
  · rw [stopUnless_of_not h, stopUnless_of_not h]
    rfl

theorem mapM_stopUnless (Q : α → Prop) [DecidablePred Q] (f : α → β) (l : List α) :
    l.mapM (fun a => stopUnless (Q a) (f a)) = stopUnless (∀ a ∈ l, Q a) (l.map f) := by
  induction l with
  | nil => exact (stopUnless_of (by simp)).symm
  | cons a rest ih =>
      rw [List.mapM_cons, ih, List.map_cons]
      simp only [map_stopUnless]
      by_cases ha : Q a
      · rw [stopUnless_of ha]
        exact stopUnless_congr (by simp [ha])
      · rw [stopUnless_of_not ha, stopUnless_of_not fun h => ha (h a List.mem_cons_self)]
        rfl

namespace Refines

variable {x y : Except ModelError α}

theorem refl (x : Except ModelError α) : Refines x x := .inl rfl

theorem eq_of_ok (h : Refines x y) (hx : x = .ok a) : y = .ok a := by
  rcases h with rfl | h
  · exact hx
  · rw [h] at hx
    cases hx

theorem eq_of_ne (h : Refines x y) (hx : x ≠ .error .overflow) : x = y := h.resolve_right hx

theorem bind (h : Refines x y) {f g : α → Except ModelError β}
    (hf : ∀ a, y = .ok a → Refines (f a) (g a)) : Refines (x >>= f) (y >>= g) := by
  rcases h with rfl | rfl
  · cases x with
    | error e => exact .inl rfl
    | ok a => exact hf a rfl
  · exact .inr rfl

theorem bind_ok (h : Refines x (.ok a)) {f : α → Except ModelError β} {z : Except ModelError β}
    (hf : Refines (f a) z) : Refines (x >>= f) z := by
  rcases h with rfl | rfl
  · exact hf
  · exact .inr rfl

/-- An operation on the results of two computations. -/
theorem bind₂ {γ : Type} {u v : Except ModelError β} (h : Refines x y) (h' : Refines u v)
    {f g : α → β → Except ModelError γ} (hf : ∀ a b, Refines (f a b) (g a b)) :
    Refines (x >>= fun a => u >>= f a) (y >>= fun a => v >>= g a) :=
  h.bind fun a _ => h'.bind fun b _ => hf a b

theorem foldlM {step : α → β → Except ModelError α} {next : α → β → α}
    (h : ∀ a b, Refines (step a b) (.ok (next a b))) (l : List β) (a : α) :
    Refines (l.foldlM step a) (.ok (l.foldl next a)) := by
  induction l generalizing a with
  | nil => exact .refl _
  | cons b rest ih => exact (h a b).bind_ok (ih (next a b))

theorem repeatedly {step : α → Except ModelError α} {next : α → α}
    (h : ∀ a, Refines (step a) (.ok (next a))) (n : Nat) (a : α) :
    Refines (repeatedly step n a) (.ok (Nat.repeat next n a)) := by
  have hcomm : ∀ (n : Nat) (a : α), Nat.repeat next n (next a) = next (Nat.repeat next n a) := by
    intro n a
    induction n with
    | zero => rfl
    | succ n ih => exact congrArg next ih
  induction n generalizing a with
  | zero => exact .inl rfl
  | succ n ih =>
      have hlast : Nat.repeat next (n + 1) a = Nat.repeat next n (next a) := (hcomm n a).symm
      rw [hlast]
      exact (h a).bind_ok (ih (next a))

end Refines

end Stop

/-! ## Monomials -/

namespace Monomial

/-- The degree is computed unless it reaches the limit. -/
theorem degree_eq (m : Monomial) :
    m.degree = stopUnless (m.totalDegree < exponentLimit) m.totalDegree := by
  have hle : ∀ (powers : List (Parameter × Nat)) (d : Nat),
      d ≤ powers.foldl (fun d e => d + e.2) d := by
    intro powers
    induction powers with
    | nil => exact fun d => le_rfl
    | cons e rest ih => exact fun d => (Nat.le_add_right d e.2).trans (ih (d + e.2))
  -- The sums only grow, so the last one tells whether one of them reaches the limit.
  have hfold : ∀ (powers : List (Parameter × Nat)) (d : Nat), d < exponentLimit →
      powers.foldlM (fun d e => if d + e.2 < exponentLimit then .ok (d + e.2)
        else .error .overflow) d =
      stopUnless (powers.foldl (fun d e => d + e.2) d < exponentLimit)
        (powers.foldl (fun d e => d + e.2) d) := by
    intro powers
    induction powers with
    | nil => exact fun d hd => (stopUnless_of hd).symm
    | cons e rest ih =>
        intro d hd
        rw [List.foldlM_cons, List.foldl_cons]
        by_cases hsum : d + e.2 < exponentLimit
        · rw [if_pos hsum]
          exact ih (d + e.2) hsum
        · rw [if_neg hsum, stopUnless_of_not fun hlast => hsum ((hle rest _).trans_lt hlast)]
          rfl
  exact hfold m.powers.entries 0 (by decide)

end Monomial

/-! ## Polynomials -/

namespace Polynomial

variable {f g : Polynomial}

/-- The exponents of all products of terms can be stored. -/
def ProductFits (f g : Polynomial) : Prop :=
  ∀ t ∈ products f.terms.entries g.terms.entries, t.1.ExponentsFit

instance (f g : Polynomial) : Decidable (f.ProductFits g) :=
  inferInstanceAs (Decidable (∀ t ∈ products f.terms.entries g.terms.entries, t.1.ExponentsFit))

theorem productsChecked_eq (f g : List Term) : productsChecked f g =
    stopUnless (∀ t ∈ products f g, t.1.ExponentsFit) (products f g) := by
  have hrow : ∀ s : Term, g.mapM (fun t => do return (← s.1.mulChecked t.1, s.2 * t.2)) =
      stopUnless (∀ t ∈ g, (s.1.mul t.1).ExponentsFit)
        (g.map fun t => (s.1.mul t.1, s.2 * t.2)) := fun s =>
    (mapM_congr_of_mem fun t _ => map_stopUnless fun m => (m, s.2 * t.2)).trans
      (mapM_stopUnless (fun t : Term => (s.1.mul t.1).ExponentsFit) _ g)
  rw [productsChecked]
  simp only [hrow, mapM_stopUnless, map_stopUnless]
  refine stopUnless_congr ?_
  simp only [products, List.forall_mem_flatMap, List.forall_mem_map]

/-- A product is computed unless an exponent cannot be stored. -/
theorem mulChecked_eq (f g : Polynomial) :
    f.mulChecked g = stopUnless (f.ProductFits g) (f.mul g) := by
  rw [mulChecked, productsChecked_eq]
  exact map_stopUnless ofTerms

theorem refines_mulChecked (f g : Polynomial) : Refines (f.mulChecked g) (.ok (f.mul g)) := by
  rw [mulChecked_eq]
  exact refines_stopUnless

/-- The largest degree of a term, zero if there are none. -/
def totalDegree (f : Polynomial) : Nat :=
  f.terms.entries.foldl (fun d t => Nat.max d t.1.totalDegree) 0

theorem totalDegree_le_iff {n : Nat} :
    f.totalDegree ≤ n ↔ ∀ t ∈ f.terms.entries, t.1.totalDegree ≤ n := by
  have hfold : ∀ (terms : List Term) (d : Nat),
      terms.foldl (fun d t => Nat.max d t.1.totalDegree) d ≤ n ↔
        d ≤ n ∧ ∀ t ∈ terms, t.1.totalDegree ≤ n := by
    intro terms
    induction terms with
    | nil => simp
    | cons t rest ih =>
        intro d
        rw [List.foldl_cons, ih, List.forall_mem_cons, ← and_assoc]
        exact and_congr_left' max_le_iff
  exact (hfold _ 0).trans (and_iff_right n.zero_le)

/-- The degrees of all terms are below the limit. -/
def DegreesFit (f : Polynomial) : Prop :=
  ∀ t ∈ f.terms.entries, t.1.totalDegree < exponentLimit

instance (f : Polynomial) : Decidable f.DegreesFit :=
  inferInstanceAs (Decidable (∀ t ∈ f.terms.entries, t.1.totalDegree < exponentLimit))

/-- The degree is computed unless that of a term reaches the limit. -/
theorem degree_eq (f : Polynomial) : f.degree = stopUnless f.DegreesFit f.totalDegree := by
  have hfold : ∀ (terms : List Term) (d : Nat),
      terms.foldlM (fun d t => do return Nat.max d (← t.1.degree)) d =
      stopUnless (∀ t ∈ terms, t.1.totalDegree < exponentLimit)
        (terms.foldl (fun d t => Nat.max d t.1.totalDegree) d) := by
    intro terms
    induction terms with
    | nil => exact fun d => (stopUnless_of (by simp)).symm
    | cons t rest ih =>
        intro d
        rw [List.foldlM_cons, List.foldl_cons, t.1.degree_eq, map_stopUnless]
        by_cases ht : t.1.totalDegree < exponentLimit
        · rw [stopUnless_of ht]
          exact (ih _).trans (stopUnless_congr (by simp [ht]))
        · rw [stopUnless_of_not ht, stopUnless_of_not fun h => ht (h t List.mem_cons_self)]
          rfl
  exact hfold f.terms.entries 0

/-- The terms can be put in order: there are none to compare, or their degrees are below the
limit. -/
def Printable (f : Polynomial) : Prop := f.size ≤ 1 ∨ f.DegreesFit

instance (f : Polynomial) : Decidable f.Printable :=
  inferInstanceAs (Decidable (f.size ≤ 1 ∨ f.DegreesFit))

theorem write_eq (f : Polynomial) : f.write = stopUnless f.Printable f.text := by
  unfold write
  by_cases hsize : 1 < f.size
  · have hiff : f.Printable ↔ f.DegreesFit := or_iff_right hsize.not_ge
    simp only [if_pos hsize, f.degree_eq, stopUnless_congr hiff]
    exact map_stopUnless fun _ => f.text
  · rw [stopUnless_of (.inl (not_lt.mp hsize)), if_neg hsize]
    rfl

end Polynomial

/-! ## Functions -/

namespace RationalFunction

variable {f g : RationalFunction}

theorem refines_addChecked (f g : RationalFunction) : Refines (f.addChecked g) (.ok (f.add g)) := by
  unfold addChecked add
  split_ifs
  · exact .refl _
  · exact .refl _
  · exact .refl _
  · exact (Polynomial.refines_mulChecked _ _).bind_ok
      ((Polynomial.refines_mulChecked _ _).bind_ok
        ((Polynomial.refines_mulChecked _ _).bind_ok (.refl _)))

theorem refines_subChecked (f g : RationalFunction) : Refines (f.subChecked g) (.ok (f.sub g)) :=
  refines_addChecked f g.neg

theorem refines_mulChecked (f g : RationalFunction) : Refines (f.mulChecked g) (.ok (f.mul g)) := by
  unfold mulChecked mul
  split_ifs
  · exact .refl _
  · exact .refl _
  · exact .refl _
  · exact .refl _
  · exact .refl _
  · exact (Polynomial.refines_mulChecked _ _).bind_ok
      ((Polynomial.refines_mulChecked _ _).bind_ok (.refl _))

theorem refines_divChecked? (f g : RationalFunction) :
    Refines (f.divChecked? g) (.ok (f.div? g)) := by
  unfold divChecked? div?
  split_ifs
  · exact .refl _
  · exact (refines_mulChecked f _).bind fun _ _ => .refl _

theorem refines_powChecked (f : RationalFunction) (n : Nat) :
    Refines (f.powChecked n) (.ok (f.pow n)) :=
  Refines.repeatedly (fun g => refines_mulChecked g f) n one

/-- A function is seen to be linear exactly if it is a polynomial of degree at most one. -/
theorem isLinear_eq_ok_true_iff :
    f.isLinear = .ok true ↔ f.isPolynomial = true ∧ f.numerator.totalDegree ≤ 1 := by
  unfold isLinear
  split_ifs with hpolynomial
  · rw [Polynomial.degree_eq, map_stopUnless, stopUnless_eq_ok_iff, decide_eq_true_eq]
    refine ⟨fun h => ⟨hpolynomial, h.2⟩, fun h => ⟨fun t ht => ?_, h.2⟩⟩
    exact (Polynomial.totalDegree_le_iff.mp h.2 t ht).trans_lt (by decide)
  · simp [hpolynomial]

/-- Numerator and denominator can be put in order. -/
def Printable (f : RationalFunction) : Prop := f.numerator.Printable ∧ f.denominator.Printable

instance (f : RationalFunction) : Decidable f.Printable :=
  inferInstanceAs (Decidable (f.numerator.Printable ∧ f.denominator.Printable))

theorem write_eq (f : RationalFunction) : f.write = stopUnless f.Printable f.text := by
  unfold write text
  split_ifs with hone
  · have hlower : f.denominator.Printable := Polynomial.isOne_iff.mp hone ▸ by decide
    rw [Polynomial.write_eq]
    exact stopUnless_congr (and_iff_left hlower).symm
  · simp only [Polynomial.write_eq]
    exact bind_stopUnless (map_stopUnless _)

end RationalFunction

/-! ## Expressions -/

namespace Expression

/-- The rational function of an expression, computed without a limit of exponents that are
computed. -/
def exactFunction : Expression → Except ModelError RationalFunction
  | number value => .ok (.constant value)
  | parameter p => .ok (.ofParameter p)
  | neg e => do return (← e.exactFunction).neg
  | add l r => do return (← l.exactFunction).add (← r.exactFunction)
  | sub l r => do return (← l.exactFunction).sub (← r.exactFunction)
  | mul l r => do return (← l.exactFunction).mul (← r.exactFunction)
  | div l offset r => do
    let f ← l.exactFunction
    let g ← r.exactFunction
    match f.div? g with
    | some h => return h
    | none => throw (.expression offset .divisionByZero)
  | pow base offset exponent => do
    let f ← base.exactFunction
    if exponent < exponentLimit then return f.pow exponent
    else throw (.expression offset .exponentRange)

/-- The function is the exact one, unless its computation stops. -/
theorem refines_toFunction (e : Expression) : Refines e.toFunction e.exactFunction := by
  induction e with
  | number value => exact .refl _
  | parameter p => exact .refl _
  | neg e ih => exact ih.bind fun f _ => .refl _
  | add l r ihl ihr => exact ihl.bind₂ ihr RationalFunction.refines_addChecked
  | sub l r ihl ihr => exact ihl.bind₂ ihr RationalFunction.refines_subChecked
  | mul l r ihl ihr => exact ihl.bind₂ ihr RationalFunction.refines_mulChecked
  | div l offset r ihl ihr =>
      exact ihl.bind₂ ihr fun f g => (f.refines_divChecked? g).bind fun _ _ => .refl _
  | pow base offset exponent ih =>
      refine ih.bind fun f _ => ?_
      split_ifs
      · exact f.refines_powChecked exponent
      · exact .refl _

theorem exactFunction_of_toFunction {e : Expression} {f : RationalFunction}
    (h : e.toFunction = .ok f) : e.exactFunction = .ok f := e.refines_toFunction.eq_of_ok h

end Expression

theorem RationalFunction.read_of_tree {t : String} {e : Expression}
    (he : Expression.read t = .ok e) : read t = e.toFunction := by
  rw [read, he]
  rfl

end MarkovRegion
