import MarkovRegion.Algebra.Parameter
import MarkovRegion.Proofs.Text.Lines

/-!
# Characters of numbers and names

Digits and the characters of names as ranges of numbers, and that none of them is a blank.
-/

namespace MarkovRegion

/-- The visible ASCII characters are no blanks. -/
theorem Text.isBlank_of_visible {c : Char} (hlower : 33 ≤ c.toNat) (hupper : c.toNat ≤ 126) :
    isBlank c = false := by
  simp only [isBlank, Bool.or_eq_false_iff, Bool.and_eq_false_iff, decide_eq_false_iff_not,
    beq_eq_false_iff_ne]
  omega

theorem Text.tight_of_visible {cs : List Char} {lower upper : Nat} (hlower : 33 ≤ lower)
    (hupper : upper ≤ 126) (h : ∀ c ∈ cs, lower ≤ c.toNat ∧ c.toNat ≤ upper) : Tight cs :=
  tight_of_forall fun c hc =>
    isBlank_of_visible (hlower.trans (h c hc).1) ((h c hc).2.trans hupper)

theorem toNat_of_isDigit {c : Char} (h : c.isDigit = true) : 48 ≤ c.toNat ∧ c.toNat ≤ 57 := by
  simpa [Char.isDigit, UInt32.le_iff_toNat_le] using h

theorem toNat_of_isIdentifierRest {c : Char} (h : isIdentifierRest c = true) :
    48 ≤ c.toNat ∧ c.toNat ≤ 122 := by
  simp only [isIdentifierRest, isIdentifierStart, Coefficient.isDigit, Bool.or_eq_true,
    Bool.and_eq_true, decide_eq_true_eq, beq_iff_eq, Char.le_def, UInt32.le_iff_toNat_le] at h
  rcases h with ((hlower | hupper) | rfl) | hdigit
  · exact ⟨Nat.le_trans (by decide) hlower.1, hlower.2⟩
  · exact ⟨Nat.le_trans (by decide) hupper.1, Nat.le_trans hupper.2 (by decide)⟩
  · decide
  · exact ⟨hdigit.1, Nat.le_trans hdigit.2 (by decide)⟩

theorem isIdentifierRest_of_mem_name (p : Parameter) :
    ∀ c ∈ p.name.toList, isIdentifierRest c = true := by
  have hname := p.identifier
  cases hcs : p.name.toList with
  | nil => simp
  | cons c cs =>
      rw [hcs, isIdentifier, Bool.and_eq_true, List.all_eq_true] at hname
      refine List.forall_mem_cons.mpr ⟨?_, hname.2⟩
      rw [isIdentifierRest, hname.1, Bool.true_or]

end MarkovRegion
