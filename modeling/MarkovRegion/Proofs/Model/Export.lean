import MarkovRegion.Proofs.Expression.RoundTrip
import MarkovRegion.Proofs.Model.RowSums

/-!
# A chain survives its model file

The chain of a model file is listed in canonical form (`ModelFile.listing`): rows with increasing
columns and no zeros, distinct labels with increasing states, weights in normal form.  This is the
export of the chain if all weights can be written (`ofChain_eq`).  Reading the list does not change
any of it, so the chain comes back (`toChain_ofChain`).

The sums of the rows have to be checked again, now of the weights that remained after entries of
one column were added and zeros dropped, and in the order of the columns.  Such a sum need not be
computed as the first one was, and it can stop where the first one did not.  If it does not stop, it
is one in the field of fractions, and a function in normal form that is one there is the constant
one (`RationalFunction.Normal.isOne_of_fraction`).
-/

namespace MarkovRegion

open RationalFunction (fractionReading)

/-! ## Sets of states and labels -/

theorem pairwise_orderedKeys {κ : Type} [Ord κ] [Std.TransOrd κ] [Std.LawfulEqOrd κ]
    (ks : List κ) : (orderedKeys ks).Pairwise fun a b => compare a b = .lt :=
  List.pairwise_map.mpr (OrderedMap.increasing _)

/-- Lists with the same members have the same ordered keys. -/
theorem orderedKeys_congr {κ : Type} [Ord κ] [Std.TransOrd κ] [Std.LawfulEqOrd κ] {ks ls : List κ}
    (h : ∀ k, k ∈ ks ↔ k ∈ ls) : orderedKeys ks = orderedKeys ls := by
  have hperm : (orderedKeys ks).Perm (orderedKeys ls) := by
    rw [List.perm_ext_iff_of_nodup (nodup_orderedKeys ks) (nodup_orderedKeys ls)]
    simpa using h
  refine hperm.eq_of_pairwise (fun a b _ _ hab hba => ?_) (pairwise_orderedKeys ks)
    (pairwise_orderedKeys ls)
  exact absurd hba (Std.OrientedCmp.not_lt_of_lt hab)

theorem stateSet_stateSet (states : List Nat) : stateSet (stateSet states) = stateSet states :=
  orderedKeys_congr fun _ => mem_orderedKeys

namespace Labeling

/-- Labels are distinct, and their states are listed as sets. -/
structure Canonical (l : Labeling) : Prop where
  nodup : (l.labels.map Prod.fst).Nodup
  states_eq : ∀ e ∈ l.labels, stateSet e.2 = e.2

variable {l : Labeling}

theorem states?_eq_none_iff {name : String} :
    l.states? name = none ↔ name ∉ l.labels.map Prod.fst := by
  rw [states?, List.lookup_eq_none_iff]
  constructor
  · intro h hmem
    obtain ⟨e, he, rfl⟩ := List.mem_map.mp hmem
    exact absurd rfl (bne_iff_ne.mp (h e he))
  · intro h e he
    rw [bne_iff_ne]
    rintro rfl
    exact h (List.mem_map_of_mem he)

theorem labels_add_of_notMem {name : String} (h : name ∉ l.labels.map Prod.fst)
    (states : List Nat) : (l.add name states).labels = l.labels ++ [(name, stateSet states)] := by
  rw [add, states?_eq_none_iff.mpr h]
  rfl

theorem Canonical.add (h : l.Canonical) (name : String) (states : List Nat) :
    (l.add name states).Canonical := by
  by_cases hname : name ∈ l.labels.map Prod.fst
  · have hsome : (l.states? name).isSome = true := by
      rw [Option.isSome_iff_ne_none, Ne, states?_eq_none_iff, not_not]
      exact hname
    constructor
    · have hnames : (l.add name states).labels.map Prod.fst = l.labels.map Prod.fst := by
        rw [Labeling.add, if_pos hsome, List.map_map]
        refine List.map_congr_left fun e _ => ?_
        simp only [Function.comp_apply]
        split_ifs
        · rfl
        · rfl
      rw [hnames]
      exact h.nodup
    · intro e he
      rw [Labeling.add, if_pos hsome] at he
      obtain ⟨d, hd, rfl⟩ := List.mem_map.mp he
      split_ifs
      · exact stateSet_stateSet _
      · exact h.states_eq d hd
  · have hlabels := labels_add_of_notMem hname states
    constructor
    · rw [hlabels, List.map_append, List.nodup_append_comm]
      exact List.nodup_cons.mpr ⟨hname, h.nodup⟩
    · rw [hlabels]
      intro e he
      rcases List.mem_append.mp he with he | he
      · exact h.states_eq e he
      · rw [List.mem_singleton.mp he]
        exact stateSet_stateSet states

theorem canonical_ofList (labels : List (String × List Nat)) : (ofList labels).Canonical := by
  have hfold : ∀ l : Labeling, l.Canonical →
      (labels.foldl (fun l e => l.add e.1 e.2) l).Canonical := by
    induction labels with
    | nil => exact fun l h => h
    | cons e rest ih => exact fun l h => ih _ (h.add e.1 e.2)
  exact hfold empty ⟨List.nodup_nil, fun e he => absurd he List.not_mem_nil⟩

/-- A canonical list of labels is taken over as it is. -/
theorem Canonical.ofList_labels (h : l.Canonical) : ofList l.labels = l := by
  have hfold : ∀ done rest : List (String × List Nat), (⟨done ++ rest⟩ : Labeling).Canonical →
      rest.foldl (fun l e => l.add e.1 e.2) (⟨done⟩ : Labeling) = ⟨done ++ rest⟩ := by
    intro done rest
    induction rest generalizing done with
    | nil => simp
    | cons e rest ih =>
        intro hcanonical
        have hnodup := hcanonical.nodup
        have hnew : e.1 ∉ done.map Prod.fst := by
          simp only [List.map_append, List.map_cons, List.nodup_append, List.nodup_cons] at hnodup
          exact fun hmem => hnodup.2.2 e.1 hmem e.1 List.mem_cons_self rfl
        have hstates : stateSet e.2 = e.2 := hcanonical.states_eq e (by simp)
        have hadd : (⟨done⟩ : Labeling).add e.1 e.2 = ⟨done ++ [e]⟩ := by
          rw [Labeling.mk.injEq, labels_add_of_notMem hnew, hstates]
        rw [List.foldl_cons, hadd, ih _ (by simpa using hcanonical)]
        simp
  exact hfold [] l.labels h

end Labeling

/-! ## Rows -/

namespace Row

variable {W : Type} [Weight W]

theorem collapseFrom_eq {c : Nat} {w : W} {row : Row W} (h : Sorted ((c, w) :: row)) :
    collapseFrom c w row = (c, w) :: row := by
  induction row generalizing c w with
  | nil => rfl
  | cons e rest ih =>
      have hne : e.1 ≠ c := (h.lt_of_mem List.mem_cons_self).ne'
      rw [collapseFrom, if_neg hne, ih h.tail]

/-- A canonical row is its own normal form. -/
theorem normalize_eq_self {row : Row W} (hsorted : row.Sorted)
    (hzero : ∀ e ∈ row, Weight.isZero e.2 = false) : normalize row = row := by
  have hmerge : (row.mergeSort fun a b => a.1 ≤ b.1) = row :=
    List.mergeSort_of_pairwise (hsorted.imp fun h => decide_eq_true h.le)
  have hcollapse : collapse row = row := by
    cases row with
    | nil => rfl
    | cons e rest => exact collapseFrom_eq hsorted
  rw [normalize, hmerge, hcollapse]
  exact List.filter_eq_self.mpr fun e he => by simp [hzero e he]

end Row

/-- A function in normal form that is one in the field of fractions is the constant one. -/
theorem RationalFunction.Normal.isOne_of_fraction {f : RationalFunction} (hf : f.Normal)
    (h : fractionReading.value f = 1) : f.isOne = true := by
  have hinj := IsFractionRing.injective (MvPolynomial Parameter ℚ)
    (FractionRing (MvPolynomial Parameter ℚ))
  have hne := (map_ne_zero_iff _ hinj).mpr hf.toRing_denominator_ne_zero
  have hring : f.numerator.toRing = f.denominator.toRing := hinj ((div_eq_one_iff_eq hne).mp h)
  rw [isOne_iff]
  exact hf.eq_constant (Polynomial.toRing_injective (by simp [hring]))

namespace ModelFile

/-! ## Transitions -/

/-- The transitions of a row, with the texts of their weights. -/
def listedRow (state : Nat) (row : Row RationalFunction) : List Transition :=
  row.map fun e => ⟨state, e.1, e.2.text⟩

/-- The list of a chain, whether or not its weights can be written. -/
def listing (c : ParametricChain) : ModelFile where
  states := c.states
  initial := c.initial
  labels := c.labeling.labels
  transitions := c.transitions.rows.zipIdx.flatMap fun e => listedRow e.2 e.1

end ModelFile

/-- All weights of the chain can be written. -/
def Chain.Printable (c : ParametricChain) : Prop :=
  ∀ row ∈ c.transitions.rows, ∀ e ∈ row, e.2.Printable

instance (c : ParametricChain) : Decidable c.Printable :=
  inferInstanceAs (Decidable (∀ row ∈ c.transitions.rows, ∀ e ∈ row, e.2.Printable))

/-- The sums of all rows are computed without a stop. -/
def Chain.SumsComputed (c : ParametricChain) : Prop :=
  ∀ row ∈ c.transitions.rows, ModelFile.rowSumChecked row ≠ .error .overflow

instance (c : ParametricChain) : Decidable c.SumsComputed :=
  inferInstanceAs
    (Decidable (∀ row ∈ c.transitions.rows, ModelFile.rowSumChecked row ≠ .error .overflow))

namespace ModelFile

theorem transitionsOf_eq (state : Nat) (row : Row RationalFunction) : transitionsOf state row =
    stopUnless (∀ e ∈ row, e.2.Printable) (listedRow state row) := by
  simp only [transitionsOf, RationalFunction.write_eq, map_stopUnless]
  exact mapM_stopUnless (fun e : Nat × RationalFunction => e.2.Printable) _ row

/-- A chain is exported as its list, unless a weight cannot be written. -/
theorem ofChain_eq (c : ParametricChain) : ofChain c = stopUnless c.Printable (listing c) := by
  have hrows : (∀ e ∈ c.transitions.rows.zipIdx, ∀ x ∈ e.1, x.2.Printable) ↔ c.Printable := by
    rw [Chain.Printable]
    nth_rewrite 2 [← List.zipIdx_map_fst 0 c.transitions.rows]
    rw [List.forall_mem_map]
  rw [ofChain, mapM_congr_of_mem fun e _ => transitionsOf_eq e.2 e.1,
    mapM_stopUnless (fun e : Row RationalFunction × Nat => ∀ x ∈ e.1, x.2.Printable),
    map_stopUnless, stopUnless_congr hrows, ← List.flatMap_def]
  rfl

theorem outgoing_listedRow (state s : Nat) (row : Row RationalFunction) :
    outgoing (listedRow state row) s = if state = s then listedRow state row else [] := by
  split_ifs with h
  · refine List.filter_eq_self.mpr fun t ht => ?_
    obtain ⟨e, -, rfl⟩ := List.mem_map.mp ht
    simpa using h
  · refine List.filter_eq_nil_iff.mpr fun t ht => ?_
    obtain ⟨e, -, rfl⟩ := List.mem_map.mp ht
    simpa using h

/-- Of the transitions that are listed row after row those of one state are its row. -/
theorem outgoing_rows (n s : Nat) (rows : Nat → Row RationalFunction) :
    outgoing ((List.range n).flatMap fun state => listedRow state (rows state)) s
      = if s < n then listedRow s (rows s) else [] := by
  induction n with
  | zero => rfl
  | succ n ih =>
      have happend : ∀ ts us : List Transition,
          outgoing (ts ++ us) s = outgoing ts s ++ outgoing us s := fun ts us =>
        List.filter_append ts us
      rw [List.range_succ, List.flatMap_append, List.flatMap_singleton, happend, ih,
        outgoing_listedRow]
      rcases lt_trichotomy s n with hlt | rfl | hgt
      · rw [if_pos hlt, if_neg hlt.ne', if_pos (by omega), List.append_nil]
      · simp
      · rw [if_neg (by omega), if_neg hgt.ne, if_neg (by omega), List.append_nil]

end ModelFile

/-! ## Chains -/

/-- What the list of a chain relies on, beyond what `Chain.Regular` says. -/
structure Chain.Listed (c : ParametricChain) : Prop where
  transitions_eq :
    c.transitions = ⟨c.states, ((List.range c.states).map fun s => [c.row s]).toArray⟩
  built : ∀ s, ∀ e ∈ c.row s, e.2.Built
  nonzero : ∀ s, ∀ e ∈ c.row s, e.2.isZero = false
  labels : c.labeling.Canonical
  valid : c.validate = .ok ()

theorem ModelFile.toChain_listed {file : ModelFile} {c : ParametricChain}
    (h : file.toChain = .ok c) : c.Listed := by
  obtain ⟨ts, hts, h⟩ := bind_eq_ok_iff.mp h
  obtain ⟨⟨⟩, -, h⟩ := bind_eq_ok_iff.mp h
  obtain ⟨m, hm, h⟩ := bind_eq_ok_iff.mp h
  obtain ⟨⟨⟩, hvalid, h⟩ := bind_eq_ok_iff.mp h
  rw [pure_eq_ok_iff] at h
  subst h
  obtain ⟨-, hcolumns, hgroups⟩ := TransitionMatrix.ofRows_eq_ok hm
  rw [List.map_map] at hgroups
  obtain ⟨hstates, hrow, hnil, -⟩ := Chain.row_of_groups (c := ⟨m, _, _⟩) hgroups
  -- Beyond the last state there is nothing to show.
  have hentries : ∀ {P : Nat → RationalFunction → Prop},
      (∀ s, ∀ e ∈ Row.normalize (entriesOf ts s), P e.1 e.2) →
      ∀ s, ∀ e ∈ Chain.row ⟨m, file.initial, .ofList file.labels⟩ s, P e.1 e.2 := by
    intro P hP s e he
    by_cases hs : s < file.states
    · rw [(hrow s hs).1] at he
      exact hP s e he
    · rw [hnil s (not_lt.mp hs)] at he
      cases he
  refine ⟨?_, ?_, ?_, Labeling.canonical_ofList _, hvalid⟩
  · rw [hstates, TransitionMatrix.mk.injEq, hgroups]
    refine ⟨hcolumns, congrArg List.toArray (List.map_congr_left fun s hs => ?_)⟩
    rw [(hrow s (List.mem_range.mp hs)).1]
    rfl
  · refine hentries (P := fun _ w => RationalFunction.Built w) fun s =>
      Row.forall_normalize (P := fun _ w => RationalFunction.Built w)
        (fun _ _ _ ha hb => ha.add hb) fun e he => ?_
    obtain ⟨t, ht, rfl⟩ := List.mem_map.mp he
    exact weighFrom_built hts t (List.mem_filter.mp ht).1
  · refine hentries (P := fun _ w => w.isZero = false) fun s e he => ?_
    exact (Bool.not_eq_true' _).mp (List.mem_filter.mp he).2

namespace ModelFile

section Listing

variable {c : ParametricChain} (hlist : c.Listed)
include hlist

theorem rows_eq : c.transitions.rows = (List.range c.states).map c.row := by
  have hflatten : ((List.range c.states).map fun s => [c.row s]).flatten
      = (List.range c.states).map c.row := by
    rw [← List.flatMap_def, ← List.map_eq_flatMap]
  rw [hlist.transitions_eq]
  exact hflatten

/-- The transitions of a chain, state by state. -/
theorem transitions_listing :
    (listing c).transitions = (List.range c.states).flatMap fun s => listedRow s (c.row s) := by
  have hindexed : ((List.range c.states).map c.row).zipIdx
      = (List.range c.states).map fun s => (c.row s, s) := by
    apply List.ext_getElem
    · simp
    · intro i _ _
      simp
  rw [listing, rows_eq hlist, hindexed, List.flatMap_map]

theorem mem_transitions_listing {t : Transition} :
    t ∈ (listing c).transitions ↔ ∃ s < c.states, ∃ e ∈ c.row s, ⟨s, e.1, e.2.text⟩ = t := by
  rw [transitions_listing hlist]
  simp [listedRow]

/-- Where the weights are read as the weights of the chain, the rows are those of the chain. -/
theorem outgoing_listing {weight : Transition → RationalFunction} {s : Nat} (hs : s < c.states)
    (hweight : ∀ e ∈ c.row s, weight ⟨s, e.1, e.2.text⟩ = e.2) :
    ((outgoing (listing c).transitions s).map fun t => (t.target, weight t)) = c.row s := by
  rw [transitions_listing hlist, outgoing_rows, if_pos hs, listedRow, List.map_map]
  refine (List.map_congr_left fun e he => ?_).trans (List.map_id _)
  exact Prod.ext rfl (hweight e he)

variable (hc : c.Regular)
include hc

/-- The exact sums of all rows are one. -/
theorem isOne_row {s : Nat} (hs : s < c.states) : (rowSum (c.row s)).isOne = true := by
  have hsum := rowSum_read (hc.defined s)
  exact (built_rowSum (hlist.built s)).normal.isOne_of_fraction (hsum.2.trans (hc.mass s hs))

/-- The sum of a row passes unless its computation stops. -/
theorem checkSum_row {s : Nat} (hs : s < c.states) :
    checkSum s (c.row s) = .ok () ∧ rowSumChecked (c.row s) ≠ .error .overflow ∨
      checkSum s (c.row s) = .error .overflow ∧ rowSumChecked (c.row s) = .error .overflow := by
  have hone := isOne_row hlist hc hs
  have houtcome := checkSum_outcome s (c.row s)
  generalize checkSum s (c.row s) = x at houtcome ⊢
  cases houtcome with
  | passed hsum => simp [hsum]
  | refused _ hwrong =>
      rw [hone] at hwrong
      cases hwrong
  | stopped hsum =>
      rcases hsum with hstop | ⟨-, hwrong⟩
      · simp [hstop]
      · rw [hone] at hwrong
        cases hwrong

/-- The sums of all rows pass unless the computation of one of them stops. -/
theorem checkSums_rows :
    checkSums ((List.range c.states).map c.row) = stopUnless c.SumsComputed () := by
  have hcomputed : c.SumsComputed ↔ ∀ s < c.states, rowSumChecked (c.row s) ≠ .error .overflow := by
    rw [Chain.SumsComputed, rows_eq hlist, List.forall_mem_map]
    simp only [List.mem_range]
  by_cases h : c.SumsComputed
  · rw [stopUnless_of h]
    refine checkSums_eq_ok_iff.mpr fun s hs => ?_
    rcases checkSum_row hlist hc hs with ⟨hpassed, -⟩ | ⟨-, hstop⟩
    · exact hpassed
    · exact absurd hstop (hcomputed.mp h s hs)
  · rw [stopUnless_of_not h]
    cases hsums : checkSums ((List.range c.states).map c.row) with
    | ok u =>
        refine absurd (hcomputed.mpr fun s hs => ?_) h
        rcases checkSum_row hlist hc hs with ⟨-, hsum⟩ | ⟨hstop, -⟩
        · exact hsum
        · rw [checkSums_eq_ok_iff.mp hsums s hs] at hstop
          cases hstop
    | error e =>
        obtain ⟨s, hs, hsum⟩ := exists_of_checkSums_eq_error hsums
        rcases checkSum_row hlist hc hs with ⟨hpassed, -⟩ | ⟨hstop, -⟩
        · rw [hpassed] at hsum
          cases hsum
        · exact hsum.symm.trans hstop

theorem ofRows_rows :
    TransitionMatrix.ofRows c.states ((List.range c.states).map c.row) = .ok c.transitions := by
  refine TransitionMatrix.ofGroups_eq_ok_iff.mpr ⟨?_, hlist.transitions_eq.trans ?_⟩
  · simp only [List.map_map, List.forall_mem_map, Function.comp_apply, List.mem_singleton,
      forall_eq]
    exact fun s _ => hc.column_lt s
  · rw [List.map_map, List.map_map]
    refine congrArg (fun groups => TransitionMatrix.mk c.states (List.toArray groups))
      (List.map_congr_left fun s _ => ?_)
    have hself := Row.normalize_eq_self (hc.sorted s) (hlist.nonzero s)
    simp [hself]

/-- A chain is the chain of its own list, unless the computation of a sum stops. -/
theorem toChain_listing (hfit : ∀ s, ∀ e ∈ c.row s, e.2.ExponentsFit) :
    (listing c).toChain = stopUnless c.SumsComputed c := by
  have hread : ∀ s, ∀ e ∈ c.row s, RationalFunction.read e.2.text = .ok e.2 := fun s e he =>
    (hlist.built s e he).normal.read_text (hfit s e he)
  have hreadable : Readable (listing c).states (listing c).transitions := by
    intro t ht
    obtain ⟨s, hs, e, he, rfl⟩ := (mem_transitions_listing hlist).mp ht
    exact ⟨hs, e.2, hread s e he⟩
  obtain ⟨weight, hweight⟩ := hreadable.exists_weight
  have hrows : ((List.range c.states).map fun s =>
      (outgoing (listing c).transitions s).map fun t => (t.target, weight t))
        = (List.range c.states).map c.row := by
    refine List.map_congr_left fun s hs => ?_
    have hs := List.mem_range.mp hs
    refine outgoing_listing hlist hs fun e he => ?_
    have ht := (mem_transitions_listing hlist).mpr ⟨s, hs, e, he, rfl⟩
    exact Except.ok.inj ((hweight _ ht).2.symm.trans (hread s e he))
  have hbuild : Chain.build c.transitions c.initial (.ofList c.labeling.labels) = .ok c := by
    rw [hlist.labels.ofList_labels, Chain.build, hlist.valid]
    rfl
  calc (listing c).toChain
      = checkSums ((List.range c.states).map c.row) >>= fun _ =>
          TransitionMatrix.ofRows c.states ((List.range c.states).map c.row) >>= fun m =>
            Chain.build m c.initial (.ofList c.labeling.labels) := by
        rw [← hrows]
        exact toChain_eq weight hweight
    _ = checkSums ((List.range c.states).map c.row) >>= fun _ => pure c := by
        rw [ofRows_rows hlist hc]
        exact congrArg _ (funext fun _ => hbuild)
    _ = stopUnless c.SumsComputed c := by
        rw [checkSums_rows hlist hc]
        exact map_stopUnless fun _ => c

end Listing

/-- A chain that was read from a model file survives its export.  It is exported if all its weights
can be written; otherwise the export stops.  The exported file is read as the same chain, with the
same rows, the same initial state and the same labels, and it is exported again as the same file, if
the sums of the rows are computed; otherwise reading it stops. -/
theorem toChain_ofChain {file : ModelFile} {c : ParametricChain} (h : file.toChain = .ok c)
    (hfit : ∀ row ∈ c.transitions.rows, ∀ e ∈ row, e.2.ExponentsFit) :
    (c.Printable → ∃ exported, ofChain c = .ok exported ∧
      (c.SumsComputed → ∃ c', exported.toChain = .ok c' ∧ c' = c ∧ ofChain c' = .ok exported) ∧
      (¬ c.SumsComputed → exported.toChain = .error .overflow)) ∧
    (¬ c.Printable → ofChain c = .error .overflow) := by
  have hrows : ∀ s, ∀ e ∈ c.row s, e.2.ExponentsFit := fun s e he =>
    hfit _ (Chain.row_mem_rows he) e he
  have hagain := toChain_listing (toChain_listed h) (toChain_regular h) hrows
  rw [ofChain_eq]
  refine ⟨fun hprint => ⟨listing c, stopUnless_of hprint, fun hsums => ?_, fun hsums => ?_⟩,
    stopUnless_of_not⟩
  · refine ⟨c, hagain.trans (stopUnless_of hsums), rfl, ?_⟩
    exact (ofChain_eq c).trans (stopUnless_of hprint)
  · exact hagain.trans (stopUnless_of_not hsums)

/-- A file with a column listed twice, weights that cancel, texts that are not canonical, and a
label with its states out of order. -/
def lossFile : ModelFile where
  states := 3
  initial := 0
  labels := [("done", [2, 1, 2])]
  transitions :=
    [⟨0, 2, "1-l"⟩, ⟨2, 2, "1"⟩, ⟨0, 1, "l/ 2"⟩, ⟨0, 0, "l"⟩, ⟨0, 1, "0.5*l"⟩, ⟨0, 0, "-l"⟩,
      ⟨1, 1, "(l+7)/(l+7)"⟩]

theorem toChain_ofChain_lossFile :
    ∃ c c' exported, lossFile.toChain = .ok c ∧
      (∀ row ∈ c.transitions.rows, ∀ e ∈ row, e.2.ExponentsFit) ∧ c.Printable ∧ c.SumsComputed ∧
      (c.row 0).columns = [1, 2] ∧ c.labeling.labels = [("done", [1, 2])] ∧
      ofChain c = .ok exported ∧ exported.toChain = .ok c' ∧ c' = c ∧
      ofChain c' = .ok exported := by
  obtain ⟨c, hc, hpassed⟩ := exists_ok_of_map lossFile.toChain
    (fun c => decide ((∀ row ∈ c.transitions.rows, ∀ e ∈ row, e.2.ExponentsFit) ∧ c.Printable ∧
      c.SumsComputed ∧ (c.row 0).columns = [1, 2] ∧
      c.labeling.labels = [("done", [1, 2])])) (by cbv)
  obtain ⟨hfit, hprint, hsums, hcolumns, hlabels⟩ := of_decide_eq_true hpassed
  obtain ⟨exported, hexported, hread, -⟩ := (toChain_ofChain hc hfit).1 hprint
  obtain ⟨c', hagain, hsame, hfile⟩ := hread hsums
  exact ⟨c, c', exported, hc, hfit, hprint, hsums, hcolumns, hlabels, hexported, hagain, hsame,
    hfile⟩

/-- A choice whose weights are polynomials of a degree that cannot be computed. -/
def longFile : ModelFile where
  states := 3
  initial := 0
  labels := []
  transitions :=
    [⟨0, 1, "0.5*(fee^65536)^65535*(rate^65536)^65535"⟩,
      ⟨0, 2, "1-0.5*(fee^65536)^65535*(rate^65536)^65535"⟩, ⟨1, 1, "1"⟩, ⟨2, 2, "1"⟩]

/-- The weights of the choice. -/
def longWeight (t : Transition) : RationalFunction :=
  if t.source ≠ 0 then .one
  else if t.target = 1 then .ofPolynomial (longTerm.scale (1 / 2))
  else .ofPolynomial (Polynomial.one.sub (longTerm.scale (1 / 2)))

section LongFile

open RationalFunction.Composition (fee rate)
open MvPolynomial (C)

/-- Half of the long term, written from left to right. -/
theorem computes_half (a b c d : Nat) :
    (Expression.mul (.mul (.number (1 / 2)) (powerOfPower fee a b))
      (powerOfPower rate c d)).Computes (longTerm.scale (1 / 2)).toRing
        longMonomial.toExponents := by
  have h := ((Expression.Computes.number (1 / 2)).mul (computes_powerOfPower fee a b)).mul
    (computes_powerOfPower rate c d)
  have hring : (longTerm.scale (1 / 2)).toRing = C (1 / 2) *
      MvPolynomial.X fee ^ longExponent * MvPolynomial.X rate ^ longExponent := by
    rw [Polynomial.toRing_scale, toRing_longTerm, mul_comm, mul_assoc]
  rw [hring, toExponents_longMonomial, Finsupp.coe_add]
  rwa [zero_add] at h

theorem read_longWeight : ∀ t ∈ longFile.transitions,
    t.source < longFile.states ∧ RationalFunction.read t.weight = .ok (longWeight t) := by
  have hhalf : Expression.read "0.5*(fee^65536)^65535*(rate^65536)^65535" =
      .ok (.mul (.mul (.number (1 / 2)) (powerOfPower fee 9 16)) (powerOfPower rate 28 35)) := by
    decide +kernel
  have hrest : Expression.read "1-0.5*(fee^65536)^65535*(rate^65536)^65535" =
      .ok (.sub (.number 1) (.mul (.mul (.number (1 / 2)) (powerOfPower fee 11 18))
        (powerOfPower rate 30 37))) := by
    decide +kernel
  have hone : RationalFunction.read "1" = .ok .one := by decide +kernel
  have hcomputes := ((Expression.Computes.number 1).mono fun _ => Nat.zero_le _).sub
    (computes_half 11 18 30 37)
  rw [← Polynomial.toRing_constant, ← Polynomial.toRing_sub] at hcomputes
  simp only [longFile, List.forall_mem_cons]
  refine ⟨⟨by decide, ?_⟩, ⟨by decide, ?_⟩, ⟨by decide, hone⟩, ⟨by decide, hone⟩, by simp⟩
  · exact (RationalFunction.read_of_tree hhalf).trans
      ((computes_half 9 16 28 35).toFunction_eq longMonomial_fits)
  · exact (RationalFunction.read_of_tree hrest).trans (hcomputes.toFunction_eq longMonomial_fits)

end LongFile

/-- A chain is read from a file, and the exponents of its weights can be stored.  It cannot be
exported. -/
theorem ofChain_longFile : ∃ c, longFile.toChain = .ok c ∧
    (∀ row ∈ c.transitions.rows, ∀ e ∈ row, e.2.ExponentsFit) ∧ ofChain c = .error .overflow := by
  obtain ⟨c, hc, hpassed⟩ := exists_ok_of_map longFile.toChain
    (fun c => decide ((∀ row ∈ c.transitions.rows, ∀ e ∈ row, e.2.ExponentsFit) ∧ ¬ c.Printable))
    (by
      rw [toChain_eq longWeight read_longWeight]
      cbv)
  obtain ⟨hfit, hprint⟩ := of_decide_eq_true hpassed
  exact ⟨c, hc, hfit, (ofChain_eq c).trans (stopUnless_of_not hprint)⟩

end ModelFile

end MarkovRegion
