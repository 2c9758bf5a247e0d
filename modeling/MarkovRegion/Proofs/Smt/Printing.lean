import MarkovRegion.Proofs.Smt.Reading
import MarkovRegion.Smt.Encoding

/-!
# The meaning of texts of terms

A term of a sort has a value of this sort under each assignment of the declared variables
(`Term.value?`); empty sums, products, conjunctions and disjunctions have the values `0`, `1`, true
and false.  What is written for a term is the text of an s-expression (`Term.toSExpr`,
`Term.write_toSExpr`).  The s-expression can be read, since names of variables are symbols
(`Term.HasSort.readable`), and it has the value of the term (`Term.HasSort.exists_denotes`).  So a
solver that keeps to the standard is asked about the terms that were meant
(`Term.read_write_denotes`).
-/

namespace MarkovRegion.Smt

open Coefficient (digits_repr)

namespace SExpr

/-! ## Any number of operands -/

/-- An operator with any number of operands. -/
def many (op neutral : String) : List SExpr → SExpr
  | [] => atom neutral
  | [single] => single
  | operands => list (atom op :: operands)

theorem write_triple (first : String) (s t : SExpr) :
    (list [atom first, s, t]).write = Term.writeBinary first s.write t.write := by
  refine String.toList_inj.mp ?_
  simp [write, writeRest, Term.writeBinary]

theorem write_many (op neutral : String) : ∀ operands : List SExpr,
    (many op neutral operands).write = Term.writeMany op neutral (operands.map write)
  | [] => rfl
  | [_] => rfl
  | s :: t :: rest => by
      show (list (atom op :: s :: t :: rest)).write =
        "(" ++ op ++ " " ++ Text.join " " ((s :: t :: rest).map write) ++ ")"
      rw [write_list]
      refine String.toList_inj.mp ?_
      simp only [Text.join, List.map_cons, String.toList_append, String.toList_intercalate,
        List.intercalate_cons_cons, write]
      simp

theorem readable_many {op neutral : String} {operands : List SExpr} (hop : IsPlain op.toList)
    (hneutral : IsPlain neutral.toList) (h : ∀ s ∈ operands, s.Readable) :
    (many op neutral operands).Readable := by
  unfold many
  split
  · exact .atom (.inl hneutral)
  · exact h _ List.mem_cons_self
  · exact readable_apply hop h

variable {σ : String → Option ModelValue}

/-- An operator with any number of operands gives their total, if it does so for two and more. -/
theorem value?_many {α : Type} {value : α → ModelValue} (total : List α → α) {op neutral : String}
    {o : Operator} (hop : Operator.ofText? op = some o)
    (hneutral : (atom neutral).value? σ = some (value (total [])))
    (hsingle : ∀ x, total [x] = x)
    (hmany : ∀ x y rest,
      o.apply ((x :: y :: rest).map value) = some (value (total (x :: y :: rest))))
    {operands : List SExpr} {xs : List α} (h : values? σ operands = some (xs.map value)) :
    (many op neutral operands).value? σ = some (value (total xs)) := by
  match operands, xs with
  | [], [] => exact hneutral
  | [s], [x] =>
      rw [hsingle]
      show s.value? σ = some (value x)
      simpa [values?_eq_some_iff] using h
  | s :: t :: rest, x :: y :: ys => exact (value?_apply hop h).trans (hmany x y ys)
  | [], _ :: _ | [_], [] | [_], _ :: _ :: _ | _ :: _ :: _, [] | _ :: _ :: _, [_] =>
      simp [values?_eq_some_iff] at h

end SExpr

/-! ## Variables -/

/-- The variables of parameters and of probabilities. -/
inductive IsVariable : String → Prop
  | parameter (p : Parameter) : IsVariable (parameterVariable p)
  | probability (state : Nat) : IsVariable (probabilityVariable state)

/-- The sorts of declared variables. -/
structure Declarations where
  /-- The sort of a variable. -/
  sort? : String → Option ValueSort
  isVariable : ∀ {name sort}, sort? name = some sort → IsVariable name

/-- The declared variables have values of their sorts. -/
def Declarations.Assigned (Γ : Declarations) (σ : String → Option ModelValue) : Prop :=
  ∀ name sort, Γ.sort? name = some sort → ∃ v, v.sort = sort ∧ σ name = some v

/-- The names of variables start with `p`, and go on like identifiers. -/
theorem IsVariable.eq_cons {name : String} (h : IsVariable name) :
    ∃ rest, name.toList = 'p' :: rest ∧ ∀ c ∈ rest, isIdentifierRest c = true := by
  cases h with
  | parameter p =>
      refine ⟨['a', 'r', '_'] ++ p.name.toList, String.toList_append, ?_⟩
      exact List.forall_mem_append.mpr ⟨List.all_eq_true.mp rfl, isIdentifierRest_of_mem_name p⟩
  | probability state =>
      refine ⟨['r', 'o', 'b', '_'] ++ state.repr.toList, String.toList_append, ?_⟩
      refine List.forall_mem_append.mpr ⟨List.all_eq_true.mp rfl, fun c hc => ?_⟩
      rw [isIdentifierRest, Bool.or_eq_true]
      exact .inr ((digits_repr state).2 c hc)

namespace SExpr

variable {name : String}

theorem isPlain_of_isVariable (h : IsVariable name) : IsPlain name.toList := by
  obtain ⟨rest, hname, hrest⟩ := h.eq_cons
  rw [hname]
  refine ⟨List.cons_ne_nil _ _, List.forall_mem_cons.mpr ⟨by decide, fun c hc => ?_⟩, ?_⟩
  · obtain ⟨hlower, hupper⟩ := toNat_of_isIdentifierRest (hrest c hc)
    refine belongs_of_visible (by omega) (by omega) ?_ ?_
    · rintro rfl
      exact absurd hlower (by decide)
    · rintro rfl
      exact absurd hlower (by decide)
  · rintro c ⟨⟩
    decide

theorem isSymbol_of_isVariable (h : IsVariable name) : isSymbol name.toList = true := by
  obtain ⟨rest, hname, hrest⟩ := h.eq_cons
  have hall : ('p' :: rest).all isSymbolChar = true := by
    refine List.all_eq_true.mpr (List.forall_mem_cons.mpr ⟨by decide, fun c hc => ?_⟩)
    rw [isSymbolChar, hrest c hc, Bool.true_or]
  rw [hname, isSymbol, hall]
  rfl

theorem value?_of_isVariable (h : IsVariable name) (σ : String → Option ModelValue) :
    (atom name).value? σ = σ name := by
  obtain ⟨rest, hname, -⟩ := h.eq_cons
  -- Truth values are symbols as well, but none that starts like a variable.
  have hne : ∀ text : String, text.toList.head? ≠ some 'p' → name ≠ text := by
    rintro text hhead rfl
    exact hhead (by rw [hname]; rfl)
  rw [value?, atomValue?, if_pos (isSymbol_of_isVariable h), if_neg (hne "true" (by decide)),
    if_neg (hne "false" (by decide))]

end SExpr

namespace Term

/-! ## Terms -/

/-- A term of a sort. -/
inductive HasSort (Γ : Declarations) : Term → ValueSort → Prop
  | var {name : String} {sort : ValueSort} (h : Γ.sort? name = some sort) :
      HasSort Γ (var name) sort
  | real (q : ℚ) : HasSort Γ (real q) .real
  | bool (b : Bool) : HasSort Γ (bool b) .bool
  | sum {ts : List Term} (h : ∀ t ∈ ts, HasSort Γ t .real) : HasSort Γ (sum ts) .real
  | product {ts : List Term} (h : ∀ t ∈ ts, HasSort Γ t .real) : HasSort Γ (product ts) .real
  | sub {s t : Term} (hs : HasSort Γ s .real) (ht : HasSort Γ t .real) : HasSort Γ (sub s t) .real
  | neg {t : Term} (h : HasSort Γ t .real) : HasSort Γ (neg t) .real
  | eq {s t : Term} {sort : ValueSort} (hs : HasSort Γ s sort) (ht : HasSort Γ t sort) :
      HasSort Γ (eq s t) .bool
  | lt {s t : Term} (hs : HasSort Γ s .real) (ht : HasSort Γ t .real) : HasSort Γ (lt s t) .bool
  | le {s t : Term} (hs : HasSort Γ s .real) (ht : HasSort Γ t .real) : HasSort Γ (le s t) .bool
  | gt {s t : Term} (hs : HasSort Γ s .real) (ht : HasSort Γ t .real) : HasSort Γ (gt s t) .bool
  | ge {s t : Term} (hs : HasSort Γ s .real) (ht : HasSort Γ t .real) : HasSort Γ (ge s t) .bool
  | conj {ts : List Term} (h : ∀ t ∈ ts, HasSort Γ t .bool) : HasSort Γ (conj ts) .bool
  | disj {ts : List Term} (h : ∀ t ∈ ts, HasSort Γ t .bool) : HasSort Γ (disj ts) .bool
  | not {t : Term} (h : HasSort Γ t .bool) : HasSort Γ (not t) .bool
  | implies {s t : Term} (hs : HasSort Γ s .bool) (ht : HasSort Γ t .bool) :
      HasSort Γ (implies s t) .bool

variable (σ : String → Option ModelValue)

mutual

/-- The value of a term. -/
def value? : Term → Option ModelValue
  | var name => σ name
  | real q => some (.real q)
  | bool b => some (.bool b)
  | sum ts => do return .real (← (← values? ts).mapM ModelValue.real?).sum
  | product ts => do return .real (← (← values? ts).mapM ModelValue.real?).prod
  | sub s t => do return .real ((← (← s.value?).real?) - (← (← t.value?).real?))
  | neg t => do return .real (-(← (← t.value?).real?))
  | eq s t => do
    let v ← s.value?
    let w ← t.value?
    if v.sort = w.sort then return .bool (v = w) else none
  | lt s t => do return .bool ((← (← s.value?).real?) < (← (← t.value?).real?))
  | le s t => do return .bool ((← (← s.value?).real?) ≤ (← (← t.value?).real?))
  | gt s t => do return .bool ((← (← s.value?).real?) > (← (← t.value?).real?))
  | ge s t => do return .bool ((← (← s.value?).real?) ≥ (← (← t.value?).real?))
  | conj ts => do return .bool ((← (← values? ts).mapM ModelValue.bool?).all id)
  | disj ts => do return .bool ((← (← values? ts).mapM ModelValue.bool?).any id)
  | not t => do return .bool (!(← (← t.value?).bool?))
  | implies s t => do return .bool ((← (← s.value?).bool?) → (← (← t.value?).bool?))

/-- The values of terms. -/
def values? : List Term → Option (List ModelValue)
  | [] => some []
  | t :: ts => do return (← t.value?) :: (← values? ts)

end

/-! ## Terms as s-expressions -/

mutual

/-- The s-expression that is written for a term. -/
def toSExpr : Term → SExpr
  | var name => .atom name
  | real q => .ofReal q
  | bool b => .atom (if b then "true" else "false")
  | sum ts => .many "+" "0.0" (toSExprs ts)
  | product ts => .many "*" "1.0" (toSExprs ts)
  | sub s t => .list [.atom "-", s.toSExpr, t.toSExpr]
  | neg t => .list [.atom "-", t.toSExpr]
  | eq s t => .list [.atom "=", s.toSExpr, t.toSExpr]
  | lt s t => .list [.atom "<", s.toSExpr, t.toSExpr]
  | le s t => .list [.atom "<=", s.toSExpr, t.toSExpr]
  | gt s t => .list [.atom ">", s.toSExpr, t.toSExpr]
  | ge s t => .list [.atom ">=", s.toSExpr, t.toSExpr]
  | conj ts => .many "and" "true" (toSExprs ts)
  | disj ts => .many "or" "false" (toSExprs ts)
  | not t => .list [.atom "not", t.toSExpr]
  | implies s t => .list [.atom "=>", s.toSExpr, t.toSExpr]

/-- The s-expressions of terms. -/
def toSExprs : List Term → List SExpr
  | [] => []
  | t :: ts => t.toSExpr :: toSExprs ts

end

theorem toSExprs_eq_map (ts : List Term) : toSExprs ts = ts.map toSExpr := by
  induction ts with
  | nil => rfl
  | cons t ts ih => rw [toSExprs, ih, List.map_cons]

mutual

theorem write_toSExpr : ∀ t : Term, t.toSExpr.write = t.write
  | var _ => rfl
  | real q => SExpr.write_ofReal q
  | bool _ => rfl
  | sum ts => by rw [toSExpr, SExpr.write_many, map_write_toSExprs, write]
  | product ts => by rw [toSExpr, SExpr.write_many, map_write_toSExprs, write]
  | sub s t => by rw [toSExpr, SExpr.write_triple, write_toSExpr s, write_toSExpr t, write]
  | neg t => by
      rw [toSExpr, SExpr.write_pair, write_toSExpr t, write]
      rfl
  | eq s t => by rw [toSExpr, SExpr.write_triple, write_toSExpr s, write_toSExpr t, write]
  | lt s t => by rw [toSExpr, SExpr.write_triple, write_toSExpr s, write_toSExpr t, write]
  | le s t => by rw [toSExpr, SExpr.write_triple, write_toSExpr s, write_toSExpr t, write]
  | gt s t => by rw [toSExpr, SExpr.write_triple, write_toSExpr s, write_toSExpr t, write]
  | ge s t => by rw [toSExpr, SExpr.write_triple, write_toSExpr s, write_toSExpr t, write]
  | conj ts => by rw [toSExpr, SExpr.write_many, map_write_toSExprs, write]
  | disj ts => by rw [toSExpr, SExpr.write_many, map_write_toSExprs, write]
  | not t => by
      rw [toSExpr, SExpr.write_pair, write_toSExpr t, write]
      rfl
  | implies s t => by rw [toSExpr, SExpr.write_triple, write_toSExpr s, write_toSExpr t, write]

theorem map_write_toSExprs : ∀ ts : List Term, (toSExprs ts).map SExpr.write = writeAll ts
  | [] => rfl
  | t :: ts => by rw [toSExprs, List.map_cons, write_toSExpr t, map_write_toSExprs ts, writeAll]

end

variable {α : Type} {Γ : Declarations} {t : Term} {sort : ValueSort}

theorem HasSort.readable (h : t.HasSort Γ sort) : t.toSExpr.Readable := by
  have hpair : ∀ {op : String} {s t : SExpr}, SExpr.IsPlain op.toList → s.Readable → t.Readable →
      (SExpr.list [.atom op, s, t]).Readable := fun hop hs ht =>
    SExpr.readable_apply hop (List.forall_mem_cons.mpr ⟨hs, List.forall_mem_singleton.mpr ht⟩)
  induction h with
  | var h => exact .atom (.inl (SExpr.isPlain_of_isVariable (Γ.isVariable h)))
  | real q => exact SExpr.readable_ofReal q
  | bool b => cases b <;> exact .atom (.inl (by decide))
  | sum _ ih | product _ ih | conj _ ih | disj _ ih =>
      rw [toSExpr, toSExprs_eq_map]
      exact SExpr.readable_many (by decide) (by decide) (List.forall_mem_map.mpr ih)
  | neg _ ih | not _ ih =>
      exact SExpr.readable_apply (by decide) (List.forall_mem_singleton.mpr ih)
  | sub _ _ hs ht | eq _ _ hs ht | lt _ _ hs ht | le _ _ hs ht | gt _ _ hs ht | ge _ _ hs ht
  | implies _ _ hs ht => exact hpair (by decide) hs ht

/-! ## Values -/

/-- A term and its s-expression have the same value. -/
structure Denotes (σ : String → Option ModelValue) (t : Term) (v : ModelValue) : Prop where
  term : t.value? σ = some v
  sexpr : t.toSExpr.value? σ = some v

variable {σ}

theorem Denotes.sexpr_singleton {op : String} {o : Operator} {v u : ModelValue}
    (h : t.Denotes σ v) (hop : Operator.ofText? op = some o) (hu : o.apply [v] = some u) :
    (SExpr.list [.atom op, t.toSExpr]).value? σ = some u :=
  (SExpr.value?_apply hop (SExpr.values?_singleton h.sexpr)).trans hu

theorem Denotes.sexpr_pair {s : Term} {op : String} {o : Operator} {v w u : ModelValue}
    (hs : s.Denotes σ v) (ht : t.Denotes σ w) (hop : Operator.ofText? op = some o)
    (hu : o.apply [v, w] = some u) :
    (SExpr.list [.atom op, s.toSExpr, t.toSExpr]).value? σ = some u :=
  (SExpr.value?_apply hop (SExpr.values?_pair hs.sexpr ht.sexpr)).trans hu

/-- Terms have values of one kind if each of them has, and so do their s-expressions. -/
theorem exists_values (value : α → ModelValue) (get : ModelValue → Option α)
    (hget : ∀ x, get (value x) = some x) {ts : List Term}
    (h : ∀ t ∈ ts, ∃ x, t.Denotes σ (value x)) :
    ∃ (xs : List α) (vs : List ModelValue), values? σ ts = some vs ∧ vs.mapM get = some xs ∧
      SExpr.values? σ (toSExprs ts) = some (xs.map value) := by
  induction ts with
  | nil => exact ⟨[], [], rfl, rfl, rfl⟩
  | cons t ts ih =>
      obtain ⟨⟨x, hx⟩, hts⟩ := List.forall_mem_cons.mp h
      obtain ⟨xs, vs, hvs, hxs, hsexprs⟩ := ih hts
      refine ⟨x :: xs, value x :: vs, ?_, ?_, ?_⟩
      · rw [values?, hx.term, hvs]
        rfl
      · simp [hget, hxs]
      · rw [toSExprs, SExpr.values?, hx.sexpr, hsexprs]
        rfl

/-- The total of terms of one kind. -/
theorem exists_denotes_total {value : α → ModelValue} {get : ModelValue → Option α}
    (total : List α → α) {ts : List Term} {op neutral : String} {o : Operator}
    (hvalue : t.value? σ = do return value (total (← (← values? σ ts).mapM get)))
    (hsexpr : t.toSExpr = .many op neutral (toSExprs ts)) (hget : ∀ x, get (value x) = some x)
    (hop : Operator.ofText? op = some o)
    (hneutral : (SExpr.atom neutral).value? σ = some (value (total [])))
    (hsingle : ∀ x, total [x] = x)
    (hmany : ∀ x y rest,
      o.apply ((x :: y :: rest).map value) = some (value (total (x :: y :: rest))))
    (h : ∀ t ∈ ts, ∃ x, t.Denotes σ (value x)) : ∃ x, t.Denotes σ (value x) := by
  obtain ⟨xs, vs, hvs, hxs, hsexprs⟩ := exists_values value get hget h
  refine ⟨total xs, ?_, ?_⟩
  · rw [hvalue, hvs]
    simp [hxs]
  · rw [hsexpr]
    exact SExpr.value?_many total hop hneutral hsingle hmany hsexprs

/-- An operator on two numbers. -/
theorem exists_denotes_reals (f : ℚ → ℚ → ModelValue) {s u : Term} {op : String} {o : Operator}
    (hvalue : u.value? σ = do return f (← (← s.value? σ).real?) (← (← t.value? σ).real?))
    (hsexpr : u.toSExpr = .list [.atom op, s.toSExpr, t.toSExpr])
    (hop : Operator.ofText? op = some o)
    (happly : ∀ x y, o.apply [.real x, .real y] = some (f x y))
    (hsort : ∀ x y, (f x y).sort = sort) (hs : ∃ v, v.sort = .real ∧ s.Denotes σ v)
    (ht : ∃ v, v.sort = .real ∧ t.Denotes σ v) : ∃ v, v.sort = sort ∧ u.Denotes σ v := by
  obtain ⟨x, hx⟩ := ModelValue.exists_sort_real.mp hs
  obtain ⟨y, hy⟩ := ModelValue.exists_sort_real.mp ht
  refine ⟨f x y, hsort x y, ?_, ?_⟩
  · rw [hvalue, hx.term, hy.term]
    rfl
  · rw [hsexpr]
    exact hx.sexpr_pair hy hop (happly x y)

/-- A term of a sort has a value of the sort, and so has its s-expression. -/
theorem HasSort.exists_denotes (h : t.HasSort Γ sort) (hσ : Γ.Assigned σ) :
    ∃ v, v.sort = sort ∧ t.Denotes σ v := by
  -- One case for each constructor: what the operator of its text does with the values of operands.
  induction h with
  | var h =>
      obtain ⟨v, hsort, hv⟩ := hσ _ _ h
      exact ⟨v, hsort, hv, (SExpr.value?_of_isVariable (Γ.isVariable h) σ).trans hv⟩
  | real q => exact ⟨.real q, rfl, rfl, SExpr.value?_ofReal q⟩
  | bool b => exact ⟨.bool b, rfl, rfl, by cases b <;> rfl⟩
  | sum _ ih =>
      refine ModelValue.exists_sort_real.mpr (exists_denotes_total List.sum rfl rfl (fun _ => rfl)
        rfl (SExpr.value?_ofNat 0) (fun _ => List.sum_singleton) Operator.apply_add ?_)
      exact fun t ht => ModelValue.exists_sort_real.mp (ih t ht)
  | product _ ih =>
      refine ModelValue.exists_sort_real.mpr (exists_denotes_total List.prod rfl rfl (fun _ => rfl)
        rfl (SExpr.value?_ofNat 1) (fun _ => List.prod_singleton) Operator.apply_mul ?_)
      exact fun t ht => ModelValue.exists_sort_real.mp (ih t ht)
  | conj _ ih =>
      refine ModelValue.exists_sort_bool.mpr (exists_denotes_total (List.all · id) rfl rfl
        (fun _ => rfl) rfl rfl (fun _ => by simp) Operator.apply_and ?_)
      exact fun t ht => ModelValue.exists_sort_bool.mp (ih t ht)
  | disj _ ih =>
      refine ModelValue.exists_sort_bool.mpr (exists_denotes_total (List.any · id) rfl rfl
        (fun _ => rfl) rfl rfl (fun _ => by simp) Operator.apply_or ?_)
      exact fun t ht => ModelValue.exists_sort_bool.mp (ih t ht)
  | sub _ _ hs ht =>
      exact exists_denotes_reals (fun x y => .real (x - y)) rfl rfl rfl (fun _ _ => rfl)
        (fun _ _ => rfl) hs ht
  | lt _ _ hs ht =>
      exact exists_denotes_reals (fun x y => .bool (x < y)) rfl rfl rfl (fun _ _ => rfl)
        (fun _ _ => rfl) hs ht
  | le _ _ hs ht =>
      exact exists_denotes_reals (fun x y => .bool (x ≤ y)) rfl rfl rfl (fun _ _ => rfl)
        (fun _ _ => rfl) hs ht
  | gt _ _ hs ht =>
      exact exists_denotes_reals (fun x y => .bool (x > y)) rfl rfl rfl (fun _ _ => rfl)
        (fun _ _ => rfl) hs ht
  | ge _ _ hs ht =>
      exact exists_denotes_reals (fun x y => .bool (x ≥ y)) rfl rfl rfl (fun _ _ => rfl)
        (fun _ _ => rfl) hs ht
  | neg _ ih =>
      obtain ⟨x, hx⟩ := ModelValue.exists_sort_real.mp ih
      refine ⟨.real (-x), rfl, ?_, hx.sexpr_singleton rfl rfl⟩
      rw [value?, hx.term]
      rfl
  | eq _ _ hs ht =>
      obtain ⟨v, rfl, hv⟩ := hs
      obtain ⟨w, hsort, hw⟩ := ht
      refine ⟨.bool (v = w), rfl, ?_, hv.sexpr_pair hw rfl ?_⟩
      · rw [value?, hv.term, hw.term]
        exact if_pos hsort.symm
      · rw [Operator.apply, Operator.betweenNeighbours, Operator.equals, if_pos hsort.symm]
        rfl
  | not _ ih =>
      obtain ⟨b, hb⟩ := ModelValue.exists_sort_bool.mp ih
      refine ⟨.bool (!b), rfl, ?_, hb.sexpr_singleton rfl rfl⟩
      rw [value?, hb.term]
      rfl
  | implies _ _ hs ht =>
      obtain ⟨a, ha⟩ := ModelValue.exists_sort_bool.mp hs
      obtain ⟨b, hb⟩ := ModelValue.exists_sort_bool.mp ht
      refine ⟨.bool (!a || b), rfl, ?_, ha.sexpr_pair hb rfl rfl⟩
      rw [value?, ha.term, hb.term]
      cases a <;> cases b <;> rfl

/-- The text of a term is read, and what is read means what the term means. -/
theorem read_write_denotes (h : t.HasSort Γ sort) :
    ∃ s, SExpr.read t.write = .ok s ∧ ∀ σ, Γ.Assigned σ →
      ∃ v, v.sort = sort ∧ t.value? σ = some v ∧ s.value? σ = some v := by
  refine ⟨t.toSExpr, ?_, fun σ hσ => ?_⟩
  · rw [← write_toSExpr, h.readable.read_write]
  · obtain ⟨v, hsort, hv⟩ := h.exists_denotes hσ
    exact ⟨v, hsort, hv.term, hv.sexpr⟩

/-- A parameter. -/
def dose : Parameter := ⟨"dose", by decide⟩

/-- A number and a truth value. -/
def doseSorts : Declarations where
  sort? name :=
    if name = parameterVariable dose then some .real
    else if name = probabilityVariable 7 then some .bool
    else none
  isVariable {name sort} h := by
    split_ifs at h with hparameter hprobability
    · exact hparameter ▸ .parameter dose
    · exact hprobability ▸ .probability 7

/-- Operators with none, one and two operands. -/
def doseTerm : Term :=
  implies (conj [var (probabilityVariable 7), ge (var (parameterVariable dose)) (real (-1 / 3))])
    (disj [lt (product []) (sum [var (parameterVariable dose), sum []])])

/-- A value for the number, and another for everything else. -/
def doseValues (name : String) : Option ModelValue :=
  if name = parameterVariable dose then some (.real (1 / 2)) else some (.bool true)

theorem read_write_denotes_dose :
    doseTerm.HasSort doseSorts .bool ∧ doseSorts.Assigned doseValues ∧
    ∃ s, SExpr.read "(=> (and prob_7 (>= par_dose (- (/ 1.0 3.0)))) (< 1.0 (+ par_dose 0.0)))" =
        .ok s ∧
      s.value? doseValues = some (.bool false) := by
  have hdose : (var (parameterVariable dose)).HasSort doseSorts .real := .var (by decide)
  have hstate : (var (probabilityVariable 7)).HasSort doseSorts .bool := .var (by decide)
  have hsort : doseTerm.HasSort doseSorts .bool := by
    refine .implies (.conj ?_) (.disj ?_)
    · exact List.forall_mem_cons.mpr ⟨hstate, List.forall_mem_singleton.mpr (.ge hdose (.real _))⟩
    · refine List.forall_mem_singleton.mpr (.lt (.product (by simp)) (.sum ?_))
      exact List.forall_mem_cons.mpr ⟨hdose, List.forall_mem_singleton.mpr (.sum (by simp))⟩
  have hassigned : doseSorts.Assigned doseValues := by
    intro name sort h
    simp only [doseSorts] at h
    unfold doseValues
    split_ifs at h ⊢
    · exact ⟨.real (1 / 2), Option.some.inj h, rfl⟩
    · exact ⟨.bool true, Option.some.inj h, rfl⟩
  have htext : doseTerm.write =
      "(=> (and prob_7 (>= par_dose (- (/ 1.0 3.0)))) (< 1.0 (+ par_dose 0.0)))" := by
    decide +kernel
  have hfalse : doseTerm.value? doseValues = some (.bool false) := by decide +kernel
  obtain ⟨s, hread, hmeaning⟩ := read_write_denotes hsort
  obtain ⟨v, -, hterm, hs⟩ := hmeaning doseValues hassigned
  exact ⟨hsort, hassigned, s, htext ▸ hread, hs.trans (hterm.symm.trans hfalse)⟩

end Term

end MarkovRegion.Smt
