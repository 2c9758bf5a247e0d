import Mathlib.Algebra.Order.Field.Basic
import MarkovRegion.Proofs.Algebra.OrderedMap
import MarkovRegion.Proofs.Number.Decimal
import MarkovRegion.Proofs.Smt.SExpr
import MarkovRegion.Proofs.Text.Characters
import MarkovRegion.Smt.Dialogue

/-!
# Exact values in answers

An exact number is written as a decimal, a quotient of two decimals, or the negative of one of these
(`SExpr.ofReal`), and what is written is read as the same number (`SExpr.toRational?_ofReal`).  So
the values in an answer of a solver that writes numbers in this way are taken over as they are
(`Dialogue.read_exact`).
-/

namespace MarkovRegion.Smt

open Coefficient (digits_repr ofDigitChars_repr)
open Expression (Digits)

namespace SExpr

/-! ## Characters of atoms -/

/-- The visible ASCII characters other than parentheses belong to atoms. -/
theorem belongs_of_visible {c : Char} (hlower : 33 ≤ c.toNat) (hupper : c.toNat ≤ 126)
    (hopen : c ≠ '(') (hclose : c ≠ ')') : Text.isBlank c = false ∧ c ≠ '(' ∧ c ≠ ')' :=
  ⟨Text.isBlank_of_visible hlower hupper, hopen, hclose⟩

theorem belongs_of_isDigit {c : Char} (h : c.isDigit = true) :
    Text.isBlank c = false ∧ c ≠ '(' ∧ c ≠ ')' := by
  obtain ⟨hlower, hupper⟩ := toNat_of_isDigit h
  refine belongs_of_visible (by omega) (by omega) ?_ ?_
  · rintro rfl
    exact absurd h (by decide)
  · rintro rfl
    exact absurd h (by decide)

/-! ## Numbers -/

/-- The decimal of a natural number. -/
def ofNat (n : Nat) : SExpr := atom (toString n ++ ".0")

/-- A fraction without sign, as a decimal if its denominator is one. -/
def ofMagnitude (numerator denominator : Nat) : SExpr :=
  if denominator = 1 then ofNat numerator else list [atom "/", ofNat numerator, ofNat denominator]

/-- An exact number. -/
def ofReal (q : ℚ) : SExpr :=
  if q.num < 0 then list [atom "-", ofMagnitude q.num.natAbs q.den]
  else ofMagnitude q.num.natAbs q.den

theorem write_pair (first : String) (s : SExpr) :
    (list [atom first, s]).write = "(" ++ first ++ " " ++ s.write ++ ")" := by
  refine String.toList_inj.mp ?_
  simp [write, writeRest]

theorem write_ofMagnitude (n d : Nat) : (ofMagnitude n d).write = Term.writeMagnitude n d := by
  rw [ofMagnitude, Term.writeMagnitude]
  split_ifs
  · rfl
  · refine String.toList_inj.mp ?_
    simp [ofNat, write, writeRest]

theorem write_ofReal (q : ℚ) : (ofReal q).write = Term.writeReal q := by
  rw [ofReal, Term.writeReal, ← write_ofMagnitude]
  split_ifs
  · exact write_pair "-" _
  · rfl

theorem toList_decimal (n : Nat) : (toString n ++ ".0").toList = n.repr.toList ++ ['.', '0'] := by
  rw [String.toList_append]
  rfl

theorem isDigit_head_decimal (n : Nat) :
    ∀ c ∈ (toString n ++ ".0").toList.head?, c.isDigit = true := by
  obtain ⟨hne, hdigits⟩ := digits_repr n
  intro c hc
  rw [toList_decimal, List.head?_append_of_ne_nil _ hne] at hc
  exact hdigits c (List.mem_of_mem_head? hc)

theorem isPlain_decimal (n : Nat) : IsPlain (toString n ++ ".0").toList := by
  obtain ⟨hne, hdigits⟩ := digits_repr n
  refine ⟨?_, ?_, fun c hc => ?_⟩
  · rw [toList_decimal]
    exact List.append_ne_nil_of_left_ne_nil hne _
  · rw [toList_decimal]
    have hplaces : IsPlain ['.', '0'] := by decide
    exact List.forall_mem_append.mpr
      ⟨fun c hc => belongs_of_isDigit (hdigits c hc), hplaces.not_ends⟩
  · have hdigit := isDigit_head_decimal n c hc
    refine ⟨?_, ?_, ?_⟩
    · rintro rfl
      exact absurd hdigit (by decide)
    · rintro rfl
      exact absurd hdigit (by decide)
    · rintro rfl
      exact absurd hdigit (by decide)

theorem readable_ofNat (n : Nat) : (ofNat n).Readable := .atom (.inl (isPlain_decimal n))

/-- An operator is an atom. -/
theorem readable_apply {op : String} {operands : List SExpr} (hop : IsPlain op.toList)
    (h : ∀ s ∈ operands, s.Readable) : (list (atom op :: operands)).Readable :=
  .list (List.forall_mem_cons.mpr ⟨.atom (.inl hop), h⟩)

theorem readable_ofReal (q : ℚ) : (ofReal q).Readable := by
  have hmagnitude : (ofMagnitude q.num.natAbs q.den).Readable := by
    rw [ofMagnitude]
    split_ifs
    · exact readable_ofNat _
    · refine readable_apply (by decide) ?_
      simp [readable_ofNat]
  rw [ofReal]
  split_ifs
  · exact readable_apply (by decide) (by simpa using hmagnitude)
  · exact hmagnitude

theorem toRational?_ofNat (n : Nat) : (ofNat n).toRational? = some (n : ℚ) := by
  obtain ⟨hne, hdigits⟩ := digits_repr n
  have hpoint : '.' ∉ n.repr.toList := fun hmem => absurd (hdigits _ hmem) (by decide)
  have hwhole : n.repr.toList.all Coefficient.isDigit = true := List.all_eq_true.mpr hdigits
  have hall : (n.repr.toList ++ ['0']).all Coefficient.isDigit = true := by
    rw [List.all_append, hwhole]
    rfl
  have hvalue : Coefficient.digitsValue (n.repr.toList ++ ['0']) = 10 * n := by
    rw [Expression.digitsValue_eq, Nat.ofDigitChars_append, ofDigitChars_repr]
    rfl
  rw [ofNat, toRational?, decimal?, toList_decimal, Expression.cutAt?_append hpoint]
  simp only [Option.getD_some, List.isEmpty_eq_false_iff.mpr hne, Bool.false_eq_true, if_false,
    hall, if_true, hvalue]
  rw [Rat.mkRat_eq_div]
  simp

theorem toRational?_ofMagnitude (n : Nat) {d : Nat} (hd : d ≠ 0) :
    (ofMagnitude n d).toRational? = some (n / d : ℚ) := by
  rw [ofMagnitude]
  split_ifs with hone
  · rw [toRational?_ofNat, hone, Nat.cast_one, div_one]
  · have hne : (d : ℚ) ≠ 0 := Nat.cast_ne_zero.mpr hd
    simp [toRational?, toRational?_ofNat, hne]

theorem natAbs_div_den (q : ℚ) : (q.num.natAbs / q.den : ℚ) = |q| := by
  rw [Nat.cast_natAbs, Int.cast_abs, ← Nat.abs_cast q.den, ← abs_div, Rat.num_div_den]

/-- A number is read as it was written. -/
theorem toRational?_ofReal (q : ℚ) : (ofReal q).toRational? = some q := by
  have hmagnitude := toRational?_ofMagnitude q.num.natAbs q.den_ne_zero
  rw [natAbs_div_den] at hmagnitude
  rw [ofReal]
  split_ifs with hsign
  · simp only [toRational?, hmagnitude, Option.map_some, abs_of_neg (Rat.num_neg.mp hsign), neg_neg]
  · rw [hmagnitude, abs_of_nonneg (Rat.num_nonneg.mp (not_lt.mp hsign))]

end SExpr

namespace Dialogue

/-! ## Answers -/

/-- The answer `((x 1.0) (y (/ 1.0 3.0)))` that gives variables exact values. -/
def answerOf (bindings : List (String × ℚ)) : String :=
  "(" ++ Text.join " " (bindings.map fun b => "(" ++ b.1 ++ " " ++ Term.writeReal b.2 ++ ")") ++ ")"

/-- The bindings of an answer. -/
def bindingsOf (bindings : List (String × ℚ)) : List SExpr :=
  bindings.map fun b => .list [.atom b.1, .ofReal b.2]

/-- The bindings of variables that are asked for as numbers. -/
def requested (wanted : List (String × ValueSort)) (bindings : List (String × ℚ)) :
    List (String × ModelValue) :=
  (bindings.filter fun b => wanted.lookup b.1 = some .real).map fun b => (b.1, .real b.2)

variable {bindings : List (String × ℚ)} {wanted : List (String × ValueSort)}

theorem answerOf_eq (bindings : List (String × ℚ)) :
    answerOf bindings = (SExpr.list (bindingsOf bindings)).write := by
  rw [SExpr.write_list, bindingsOf, List.map_map, answerOf]
  simp only [Function.comp_def, SExpr.write_pair, SExpr.write_ofReal]

theorem readable_bindingsOf (h : ∀ b ∈ bindings, SExpr.IsAtom b.1) :
    (SExpr.list (bindingsOf bindings)).Readable := by
  refine .list fun s hs => ?_
  obtain ⟨b, hb, rfl⟩ := List.mem_map.mp hs
  refine .list (List.forall_mem_cons.mpr ⟨.atom (h b hb), ?_⟩)
  simp [SExpr.readable_ofReal]

theorem valueOf?_real_ofReal (q : ℚ) : valueOf? .real (.ofReal q) = some (.real q) := by
  rw [valueOf?, SExpr.toRational?_ofReal]
  rfl

/-- A number is no truth value. -/
theorem valueOf?_bool_ofReal (q : ℚ) : valueOf? .bool (.ofReal q) = none := by
  -- The atoms that are truth values are no numbers.
  have hnumber : (SExpr.ofReal q).toRational?.isSome = true := by
    rw [SExpr.toRational?_ofReal]
    rfl
  unfold valueOf?
  split
  · contradiction
  · next htrue =>
      rw [htrue] at hnumber
      exact absurd hnumber (by decide)
  · next hfalse =>
      rw [hfalse] at hnumber
      exact absurd hnumber (by decide)
  · rfl

/-- The values of the requested variables are added. -/
theorem addBindings_bindingsOf (wanted : List (String × ValueSort)) (m : Model)
    (bindings : List (String × ℚ)) :
    addBindings wanted m (bindingsOf bindings) =
      .ok ((requested wanted bindings).foldl (fun m e => m.insert e.1 e.2) m) := by
  induction bindings generalizing m with
  | nil => rfl
  | cons b rest ih =>
      have hrest : bindingsOf (b :: rest) = .list [.atom b.1, .ofReal b.2] :: bindingsOf rest := rfl
      unfold requested at ih ⊢
      rw [hrest, addBindings, List.filter_cons]
      cases hsort : wanted.lookup b.1 with
      | none => simpa using ih m
      | some sort =>
          cases sort with
          | real => simpa [valueOf?_real_ofReal] using ih (m.insert b.1 (.real b.2))
          | bool => simpa [valueOf?_bool_ofReal] using ih m

theorem readModel_answerOf (wanted : List (String × ValueSort))
    (h : ∀ b ∈ bindings, SExpr.IsAtom b.1) :
    readModel wanted (answerOf bindings) = .ok (.ofList (requested wanted bindings)) := by
  rw [readModel, answerOf_eq, (readable_bindingsOf h).read_write]
  exact addBindings_bindingsOf wanted .empty bindings

theorem find?_requested (hnames : (bindings.map Prod.fst).Nodup) {name : String}
    {value : ModelValue} :
    (OrderedMap.ofList (requested wanted bindings)).find? name = some value ↔
      ∃ q, (name, q) ∈ bindings ∧ wanted.lookup name = some .real ∧ value = .real q := by
  have hkeys : (requested wanted bindings).map Prod.fst =
      (bindings.filter fun b => wanted.lookup b.1 = some .real).map Prod.fst := by
    rw [requested, List.map_map]
    rfl
  have hnodup : ((requested wanted bindings).map Prod.fst).Nodup := by
    rw [hkeys]
    exact hnames.sublist (List.filter_sublist.map Prod.fst)
  rw [OrderedMap.find?_ofList hnodup]
  simp only [requested, List.mem_map, List.mem_filter, decide_eq_true_eq, Prod.mk.injEq]
  constructor
  · rintro ⟨⟨x, q⟩, ⟨hmem, hsort⟩, rfl, rfl⟩
    exact ⟨q, hmem, hsort, rfl⟩
  · rintro ⟨q, hmem, hsort, rfl⟩
    exact ⟨(name, q), ⟨hmem, hsort⟩, rfl, rfl⟩

/-- What is written is read, however it is spaced, and the values in an answer are taken over for
the variables that are asked for as numbers. -/
theorem read_exact :
    (∀ s : SExpr, s.Readable → SExpr.read s.write = .ok s ∧
      ∀ before cs after, SExpr.Gap before → s.Spaced cs → SExpr.Gap after →
        SExpr.read (String.ofList (before ++ (cs ++ after))) = .ok s) ∧
    ∀ (bindings : List (String × ℚ)) (wanted : List (String × ValueSort)),
      (bindings.map Prod.fst).Nodup → (∀ b ∈ bindings, SExpr.IsAtom b.1) →
      ∃ m, readModel wanted (answerOf bindings) = .ok m ∧ ∀ name value,
        m.find? name = some value ↔
          ∃ q, (name, q) ∈ bindings ∧ wanted.lookup name = some .real ∧ value = .real q := by
  refine ⟨fun s hs => ⟨hs.read_write, fun before cs after hbefore hspaced hafter => ?_⟩, ?_⟩
  · exact SExpr.read_spaced hs hspaced hbefore hafter
  · intro bindings wanted hnames hatoms
    exact ⟨_, readModel_answerOf wanted hatoms, fun _ _ => find?_requested hnames⟩

theorem read_exact_remark :
    SExpr.read " (reason ;(\n\"a (b)\")" = .ok (.list [.atom "reason", .atom "\"a (b)\""]) ∧
    ∃ m, readModel [("x", .real), ("z", .bool)] (answerOf [("x", -2 / 3), ("y", 1), ("z", 0)]) =
        .ok m ∧
      ∀ name value, m.find? name = some value ↔ name = "x" ∧ value = .real (-2 / 3) := by
  have hplain : ∀ text ∈ ["reason", "x", "y", "z"], SExpr.IsAtom text :=
    fun text htext => .inl (by revert text; decide)
  have hquoted : SExpr.IsAtom "\"a (b)\"" :=
    .inr ⟨'\x22', ['a', ' ', '(', 'b', ')'], .inl rfl, by decide, rfl⟩
  have hreadable : (SExpr.list [.atom "reason", .atom "\"a (b)\""]).Readable := by
    refine .list ?_
    simp [SExpr.Readable.atom (hplain "reason" (by simp)), SExpr.Readable.atom hquoted]
  have hremark : SExpr.Gap [' ', ';', '(', '\n'] :=
    @SExpr.Gap.comment ' ' ['('] [] (by decide) (by decide) (.blank (by decide) .nil)
  have hspaced : SExpr.Spaced (.list [.atom "reason", .atom "\"a (b)\""])
      "(reason ;(\n\"a (b)\")".toList :=
    .list .nil (.cons (.atom _) hremark (by decide) (.last (.atom _) .nil))
  obtain ⟨hread, hmodel⟩ := read_exact
  have htext : String.ofList ([' '] ++ ("(reason ;(\n\"a (b)\")".toList ++ [])) =
      " (reason ;(\n\"a (b)\")" := by
    decide
  refine ⟨htext ▸ (hread _ hreadable).2 [' '] _ [] (.blank (by decide) .nil) hspaced .nil, ?_⟩
  obtain ⟨m, hm, hvalues⟩ := hmodel [("x", -2 / 3), ("y", 1), ("z", 0)]
    [("x", .real), ("z", .bool)] (by decide) (by simp [hplain])
  refine ⟨m, hm, fun name value => (hvalues name value).trans ?_⟩
  constructor
  · rintro ⟨q, hmem, hsort, rfl⟩
    simp only [List.mem_cons, Prod.mk.injEq, List.not_mem_nil, or_false] at hmem
    obtain ⟨rfl, rfl⟩ | ⟨rfl, rfl⟩ | ⟨rfl, rfl⟩ := hmem
    · exact ⟨rfl, rfl⟩
    · exact absurd hsort (by decide)
    · exact absurd hsort (by decide)
  · rintro ⟨rfl, rfl⟩
    exact ⟨_, List.mem_cons_self, rfl, rfl⟩

end Dialogue

end MarkovRegion.Smt
