import MarkovRegion.Proofs.Algebra.Reading
import MarkovRegion.Smt.Encoding

/-!
# The meaning of terms

Terms denote real numbers (`Term.number?`) or truth values (`Term.truth?`) under an assignment of
reals to variables; a term of the wrong sort denotes nothing.  `Term.Holds` says that a term denotes
something true.

The terms that are built from polynomials denote their values at a point, if the assignment gives
the variables of the parameters the values of the point (`number?_termOfPolynomial`).
-/

namespace MarkovRegion.Smt

namespace Term

variable (σ : String → ℝ)

mutual

/-- The number that a term denotes. -/
noncomputable def number? : Term → Option ℝ
  | var name => some (σ name)
  | real value => some value
  | sum terms => (numbers? terms).map List.sum
  | product terms => (numbers? terms).map List.prod
  | sub left right => do return (← left.number?) - (← right.number?)
  | neg inner => do return -(← inner.number?)
  | _ => none

/-- The numbers that terms denote. -/
noncomputable def numbers? : List Term → Option (List ℝ)
  | [] => some []
  | t :: ts => do return (← t.number?) :: (← numbers? ts)

end

mutual

/-- The truth value that a term denotes. -/
noncomputable def truth? : Term → Option Prop
  | bool value => some (value = true)
  | eq left right => do return (← left.number? σ) = (← right.number? σ)
  | lt left right => do return (← left.number? σ) < (← right.number? σ)
  | le left right => do return (← left.number? σ) ≤ (← right.number? σ)
  | gt left right => do return (← right.number? σ) < (← left.number? σ)
  | ge left right => do return (← right.number? σ) ≤ (← left.number? σ)
  | conj terms => (truths? terms).map fun ps => ∀ p ∈ ps, p
  | disj terms => (truths? terms).map fun ps => ∃ p ∈ ps, p
  | not inner => do return ¬ (← inner.truth?)
  | implies left right => do return (← left.truth?) → (← right.truth?)
  | _ => none

/-- The truth values that terms denote. -/
noncomputable def truths? : List Term → Option (List Prop)
  | [] => some []
  | t :: ts => do return (← t.truth?) :: (← truths? ts)

end

/-- The term denotes something true. -/
def Holds (t : Term) : Prop := ∃ p, t.truth? σ = some p ∧ p

variable {σ}

theorem holds_iff {t : Term} {p : Prop} (h : t.truth? σ = some p) : t.Holds σ ↔ p := by
  constructor
  · rintro ⟨q, hq, hholds⟩
    obtain rfl : p = q := Option.some.inj (h.symm.trans hq)
    exact hholds
  · exact fun hp => ⟨p, h, hp⟩

theorem numbers?_eq_some_iff {ts : List Term} {xs : List ℝ} :
    numbers? σ ts = some xs ↔ ts.map (number? σ) = xs.map some := by
  induction ts generalizing xs with
  | nil => cases xs <;> simp [numbers?]
  | cons t ts ih =>
      cases xs with
      | nil => simp [numbers?, Option.bind_eq_some_iff]
      | cons x xs =>
          rw [List.map_cons, List.map_cons, List.cons.injEq, ← ih, numbers?]
          simp [Option.bind_eq_some_iff]

theorem numbers?_append {ts us : List Term} {xs ys : List ℝ} (hts : numbers? σ ts = some xs)
    (hus : numbers? σ us = some ys) : numbers? σ (ts ++ us) = some (xs ++ ys) := by
  rw [numbers?_eq_some_iff] at *
  rw [List.map_append, List.map_append, hts, hus]

theorem numbers?_map {α : Type} {f : α → Term} {x : α → ℝ} {list : List α}
    (h : ∀ a ∈ list, (f a).number? σ = some (x a)) :
    numbers? σ (list.map f) = some (list.map x) := by
  rw [numbers?_eq_some_iff, List.map_map, List.map_map]
  exact List.map_congr_left h

theorem number?_sum {ts : List Term} {xs : List ℝ} (h : numbers? σ ts = some xs) :
    (sum ts).number? σ = some xs.sum :=
  congrArg (Option.map List.sum) h

theorem number?_product {ts : List Term} {xs : List ℝ} (h : numbers? σ ts = some xs) :
    (product ts).number? σ = some xs.prod :=
  congrArg (Option.map List.prod) h

@[simp] theorem number?_var (name : String) : (var name).number? σ = some (σ name) :=
  rfl

@[simp] theorem number?_real (q : ℚ) : (real q).number? σ = some (q : ℝ) :=
  rfl

@[simp] theorem number?_int (n : Int) : (int n).number? σ = some (n : ℝ) := by
  rw [int, number?_real]
  simp

theorem numbers?_singleton {t : Term} {x : ℝ} (h : t.number? σ = some x) :
    numbers? σ [t] = some [x] := by
  simp [numbers?, h]

theorem exists_of_numbers?_singleton {t : Term} {xs : List ℝ} (h : numbers? σ [t] = some xs) :
    ∃ x, t.number? σ = some x ∧ xs = [x] := by
  obtain ⟨x, hx, hxs⟩ := Option.bind_eq_some_iff.mp h
  exact ⟨x, hx, (Option.some.inj hxs).symm⟩

theorem number?_times {s t : Term} {x y : ℝ} (hs : s.number? σ = some x)
    (ht : t.number? σ = some y) : (s.times t).number? σ = some (x * y) := by
  unfold times
  split
  · rw [number?] at hs
    obtain ⟨xs, hxs, rfl⟩ := Option.map_eq_some_iff.mp hs
    rw [number?_product (numbers?_append hxs (numbers?_singleton ht)), List.prod_append,
      List.prod_singleton]
  · have hpair : numbers? σ ([s] ++ [t]) = some ([x] ++ [y]) :=
      numbers?_append (numbers?_singleton hs) (numbers?_singleton ht)
    rw [show [s, t] = [s] ++ [t] from rfl, number?_product hpair, List.prod_append,
      List.prod_singleton, List.prod_singleton]

/-! ## Comparisons -/

theorem truth?_eq {s t : Term} {x y : ℝ} (hs : s.number? σ = some x) (ht : t.number? σ = some y) :
    (eq s t).truth? σ = some (x = y) := by
  simp [truth?, hs, ht]

theorem holds_eq {s t : Term} {x y : ℝ} (hs : s.number? σ = some x) (ht : t.number? σ = some y) :
    (eq s t).Holds σ ↔ x = y :=
  holds_iff (truth?_eq hs ht)

theorem holds_not {t : Term} {p : Prop} (h : t.truth? σ = some p) : (not t).Holds σ ↔ ¬ p :=
  holds_iff (by simp [truth?, h])

theorem holds_within {t : Term} {x lower upper : ℝ} {l u : Term} (ht : t.number? σ = some x)
    (hl : l.number? σ = some lower) (hu : u.number? σ = some upper) :
    (within t l u).Holds σ ↔ lower ≤ x ∧ x ≤ upper := by
  have htruth : (within t l u).truth? σ = some (∀ p ∈ [lower ≤ x, x ≤ upper], p) := by
    simp [within, truth?, truths?, ht, hl, hu]
  rw [holds_iff htruth, List.forall_mem_cons, List.forall_mem_singleton]

end Term

/-! ## Polynomials -/

/-- The assignment gives the variables of the parameters the values of a point. -/
def Agrees (v : Valuation) (σ : String → ℝ) : Prop :=
  ∀ p q, v.find? p = some q → σ (parameterVariable p) = q

section Polynomials

variable {v : Valuation} {σ : String → ℝ}

theorem number?_ofFactors {ts : List Term} {xs : List ℝ} (h : Term.numbers? σ ts = some xs) :
    (ofFactors ts).number? σ = some xs.prod := by
  unfold ofFactors
  split
  · obtain ⟨x, hx, rfl⟩ := Term.exists_of_numbers?_singleton h
    rw [hx, List.prod_singleton]
  · exact Term.number?_product h

theorem number?_ofSummands {ts : List Term} {xs : List ℝ} (h : Term.numbers? σ ts = some xs) :
    (ofSummands ts).number? σ = some xs.sum := by
  unfold ofSummands
  split
  · obtain rfl : [] = xs := by simpa [Term.numbers?] using h
    simp
  · obtain ⟨x, hx, rfl⟩ := Term.exists_of_numbers?_singleton h
    rw [hx, List.sum_singleton]
  · exact Term.number?_sum h

theorem Agrees.var_eq (hσ : Agrees v σ) {p : Parameter} (hp : p ∈ v.domain) :
    σ (parameterVariable p) = v.assignment p := by
  obtain ⟨q, hq⟩ := Option.isSome_iff_exists.mp hp
  rw [hσ p q hq, Valuation.assignment, hq]
  rfl

theorem numbers?_monomialFactors (hσ : Agrees v σ) {m : Monomial}
    (hm : ∀ e ∈ m.powers.entries, e.1 ∈ v.domain) :
    ∃ xs, Term.numbers? σ (monomialFactors m) = some xs ∧
      xs.prod = (m.powers.entries.map fun e => ((v.assignment e.1 : ℚ) : ℝ) ^ e.2).prod := by
  rw [monomialFactors]
  generalize m.powers.entries = entries at hm ⊢
  induction entries with
  | nil => exact ⟨[], rfl, rfl⟩
  | cons e rest ih =>
      obtain ⟨xs, hxs, hprod⟩ := ih fun e he => hm e (List.mem_cons_of_mem _ he)
      have hfirst : Term.numbers? σ (List.replicate e.2 (.var (parameterVariable e.1))) =
          some (List.replicate e.2 ((v.assignment e.1 : ℚ) : ℝ)) := by
        rw [Term.numbers?_eq_some_iff, List.map_replicate, List.map_replicate, Term.number?_var,
          hσ.var_eq (hm e List.mem_cons_self)]
      refine ⟨List.replicate e.2 ((v.assignment e.1 : ℚ) : ℝ) ++ xs, ?_, ?_⟩
      · rw [List.flatMap_cons]
        exact Term.numbers?_append hfirst hxs
      · rw [List.prod_append, List.prod_replicate, hprod, List.map_cons, List.prod_cons]

theorem number?_termOfMonomial (hσ : Agrees v σ) {m : Monomial}
    (hm : ∀ e ∈ m.powers.entries, e.1 ∈ v.domain) (c : ℚ) :
    (termOfMonomial m c).number? σ =
      some ((c * (m.powers.entries.map fun e => v.assignment e.1 ^ e.2).prod : ℚ) : ℝ) := by
  obtain ⟨xs, hxs, hprod⟩ := numbers?_monomialFactors hσ hm
  have hcast : ((m.powers.entries.map fun e => v.assignment e.1 ^ e.2).prod : ℚ) = xs.prod := by
    rw [hprod, Rat.cast_list_prod, List.map_map]
    simp [Function.comp_def]
  have hcoefficient : ∃ ys,
      Term.numbers? σ (if c ≠ 1 || m.isUnit then [.real c] else []) = some ys ∧
        ys.prod = (c : ℝ) := by
    split
    · exact ⟨[(c : ℝ)], Term.numbers?_singleton (Term.number?_real c), List.prod_singleton⟩
    · next h =>
        obtain rfl : c = 1 := by simp_all
        exact ⟨[], rfl, by simp⟩
  obtain ⟨ys, hys, hc⟩ := hcoefficient
  rw [termOfMonomial, number?_ofFactors (Term.numbers?_append hys hxs), List.prod_append, hc,
    ← hcast, Rat.cast_mul]

/-- A polynomial denotes its value at a point that covers its parameters. -/
theorem number?_termOfPolynomial (hσ : Agrees v σ) {f : Polynomial}
    (hf : f.toRing ∈ MvPolynomial.supported ℚ v.domain) :
    (termOfPolynomial f).number? σ = some (RationalFunction.evalHom v f.toRing) := by
  have hvars : ∀ p ∈ f.toRing.vars, p ∈ v.domain := fun p hp => MvPolynomial.mem_supported.mp hf hp
  have hterms : ∀ t ∈ f.terms.entries, (termOfMonomial t.1 t.2).number? σ =
      some ((t.2 * (t.1.powers.entries.map fun e => v.assignment e.1 ^ e.2).prod : ℚ) : ℝ) :=
    fun t ht => number?_termOfMonomial hσ
      (fun e he => hvars e.1 (Polynomial.mem_vars_toRing.mpr ⟨t, ht, e, he, rfl⟩)) t.2
  rw [termOfPolynomial, number?_ofSummands (Term.numbers?_map hterms),
    RationalFunction.evalHom_apply, Polynomial.eval_toRing, Rat.cast_list_sum, List.map_map]
  rfl

end Polynomials

end MarkovRegion.Smt
