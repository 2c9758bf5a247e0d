import MarkovRegion.Attempt

/-!
# Triples

`Attempt.Meets P x Q E` is a triple for computations that may fail: if `P` holds before, then `Q`
holds after a success and `E` after a failure.  `Attempt.Succeeds` is the case without failures.
-/

namespace MarkovRegion

namespace Attempt

variable {ε δ S α β : Type} {P : S → Prop} {Q : α → S → Prop} {E : ε → S → Prop}
  {x : Attempt ε S α}

/-- If `P` holds before, then `Q` holds after a success and `E` after a failure. -/
def Meets (P : S → Prop) (x : Attempt ε S α) (Q : α → S → Prop) (E : ε → S → Prop) : Prop :=
  ∀ s, P s → match x.run s with
    | (.ok a, t) => Q a t
    | (.error e, t) => E e t

/-- A computation that does not fail. -/
def Succeeds (P : S → Prop) (x : Attempt ε S α) (Q : α → S → Prop) : Prop :=
  Meets P x Q fun _ _ => False

theorem Meets.weaken {P' : S → Prop} {Q' : α → S → Prop} {E' : ε → S → Prop}
    (h : Meets P x Q E) (hP : ∀ s, P' s → P s) (hQ : ∀ a s, Q a s → Q' a s)
    (hE : ∀ e s, E e s → E' e s) : Meets P' x Q' E' := by
  intro s hs
  have hrun := h s (hP s hs)
  rcases hx : x.run s with ⟨e | a, t⟩
  · rw [hx] at hrun
    exact hE e t hrun
  · rw [hx] at hrun
    exact hQ a t hrun

/-- What holds after a success and after a failure holds after the run. -/
theorem meets_iff_run {R : S → Prop} :
    Meets P x (fun _ => R) (fun _ => R) ↔ ∀ s, P s → R (x.run s).2 := by
  refine forall₂_congr fun s _ => ?_
  rcases x.run s with ⟨e | a, t⟩
  · rfl
  · rfl

theorem Meets.startingAt (h : Meets P x Q E) {t : S} (ht : P t) : Meets (fun s => s = t) x Q E :=
  fun s hs => h s (hs ▸ ht)

theorem Meets.pure {a : α} (h : ∀ s, P s → Q a s) : Meets P (pure a : Attempt ε S α) Q E :=
  fun s hs => h s hs

theorem Meets.throw {e : ε} (h : ∀ s, P s → E e s) : Meets P (throw e : Attempt ε S α) Q E :=
  fun s hs => h s hs

/-- Computations are equal if their runs are. -/
protected theorem ext {y : Attempt ε S α} (h : ∀ s, x.run s = y.run s) : x = y := funext h

/-- A fact that does not depend on the state may be used. -/
theorem Meets.of_fact {φ : Prop} (h : φ → Meets P x Q E) : Meets (fun s => P s ∧ φ) x Q E :=
  fun s hs => h hs.2 s hs.1

theorem run_bind (x : Attempt ε S α) (f : α → Attempt ε S β) (s : S) :
    (x >>= f).run s = match x.run s with
      | (.ok a, t) => (f a).run t
      | (.error e, t) => (.error e, t) := by
  show ExceptT.bindCont f (x.run s).1 (x.run s).2 = _
  rcases x.run s with ⟨e | a, t⟩
  · rfl
  · rfl

theorem Meets.bind {f : α → Attempt ε S β} {T : β → S → Prop} (hx : Meets P x Q E)
    (hf : ∀ a, Meets (Q a) (f a) T E) : Meets P (x >>= f) T E := by
  intro s hs
  have hrun := hx s hs
  rw [run_bind]
  rcases h : x.run s with ⟨e | a, t⟩
  · rw [h] at hrun
    exact hrun
  · rw [h] at hrun
    exact hf a t hrun

/-- Changes of the state one after the other. -/
theorem run_forM_modify (g : S → α → S) (l : List α) (s : S) :
    (l.forM fun a => modify fun s => g s a : Attempt ε S PUnit).run s
      = (Except.ok (), l.foldl g s) := by
  induction l generalizing s with
  | nil => rfl
  | cons a rest ih =>
      have hstep : ((a :: rest).forM fun a => modify fun s => g s a : Attempt ε S PUnit)
          = modify (fun s => g s a) >>= fun _ => rest.forM fun a => modify fun s => g s a := rfl
      rw [hstep, run_bind]
      exact ih (g s a)

theorem run_ofExcept (y : Except ε α) (s : S) : (Attempt.ofExcept y).run s = (y, s) := rfl

theorem Meets.ofExcept {y : Except ε α} (hok : ∀ a, y = .ok a → ∀ s, P s → Q a s)
    (herror : ∀ e, y = .error e → ∀ s, P s → E e s) : Meets P (Attempt.ofExcept y) Q E := by
  intro s hs
  cases y with
  | ok a => exact hok a rfl s hs
  | error e => exact herror e rfl s hs

/-- A computation that starts with a look at the state. -/
theorem Meets.bind_get {f : S → Attempt ε S α} (h : ∀ t, P t → Meets (fun s => s = t) (f t) Q E) :
    Meets P (get >>= f) Q E := by
  intro s hs
  rw [run_bind]
  exact h s hs s rfl

theorem Meets.set {t : S} {Q : PUnit → S → Prop} (h : ∀ s, P s → Q () t) :
    Meets P (set t : Attempt ε S PUnit) Q E :=
  fun s hs => h s hs

theorem Meets.modify {g : S → S} {Q : PUnit → S → Prop} (h : ∀ s, P s → Q () (g s)) :
    Meets P (modify g : Attempt ε S PUnit) Q E :=
  fun s hs => h s hs

theorem Meets.lift {y : StateM S α} (h : ∀ s, P s → Q (y s).1 (y s).2) :
    Meets P (ExceptT.lift y : Attempt ε S α) Q E := by
  intro s hs
  have hrun : (ExceptT.lift y : Attempt ε S α).run s = (.ok (y s).1, (y s).2) := rfl
  rw [hrun]
  exact h s hs

theorem run_mapError (f : ε → δ) (x : Attempt ε S α) (s : S) :
    (Attempt.mapError f x).run s = ((x.run s).1.mapError f, (x.run s).2) := rfl

theorem Meets.mapError {f : ε → δ} {E' : δ → S → Prop} (h : Meets P x Q E)
    (hE : ∀ e s, E e s → E' (f e) s) : Meets P (Attempt.mapError f x) Q E' := by
  intro s hs
  have hrun := h s hs
  rw [run_mapError]
  rcases hx : x.run s with ⟨e | a, t⟩
  · rw [hx] at hrun
    exact hE e t hrun
  · rw [hx] at hrun
    exact hrun

theorem run_outcome (x : Attempt ε S α) (s : S) :
    (Attempt.outcome x : Attempt δ S (Except ε α)).run s = (.ok (x.run s).1, (x.run s).2) := rfl

/-- The outcome of a computation is met whatever it is. -/
theorem Meets.outcome {E' : δ → S → Prop} (h : Meets P x Q E) :
    Meets P (Attempt.outcome x) (fun y s => match y with
      | .ok a => Q a s
      | .error e => E e s) E' := by
  intro s hs
  have hrun := h s hs
  rw [run_outcome]
  rcases hx : x.run s with ⟨e | a, t⟩
  · rw [hx] at hrun
    exact hrun
  · rw [hx] at hrun
    exact hrun

end Attempt

end MarkovRegion
