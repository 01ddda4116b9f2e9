/-!
# Runs

A program that takes one step after another, as a fold over the steps.  `Meets`
says that every step of a run meets a condition in the state it is taken in; the
invariant rule says that a property which such steps preserve holds in every
state of the run.

Nothing here depends on a particular program.
-/

namespace Run

universe u v

variable {σ : Type u} {α : Type v}

/-- The state after the steps `as`. -/
def run (step : σ → α → σ) (s : σ) (as : List α) : σ := as.foldl step s

/-- Every step of the run meets the condition `ok` in the state before it. -/
def Meets (step : σ → α → σ) (ok : σ → α → Prop) : σ → List α → Prop
  | _, [] => True
  | s, a :: as => ok s a ∧ Meets step ok (step s a) as

instance decidableMeets (step : σ → α → σ) (ok : σ → α → Prop) [∀ s a, Decidable (ok s a)] (s : σ)
    (as : List α) : Decidable (Meets step ok s as) :=
  match as with
  | [] => isTrue trivial
  | a :: as =>
    have := decidableMeets step ok (step s a) as
    inferInstanceAs (Decidable (ok s a ∧ Meets step ok (step s a) as))

section

variable {step : σ → α → σ} {ok : σ → α → Prop} {I : σ → Prop}

@[simp] theorem run_nil (s : σ) : run step s [] = s := rfl

@[simp] theorem run_cons (s : σ) (a : α) (as : List α) :
    run step s (a :: as) = run step (step s a) as := rfl

theorem run_append (s : σ) (as bs : List α) :
    run step s (as ++ bs) = run step (run step s as) bs :=
  List.foldl_append

theorem Meets.append {s : σ} {as bs : List α} (h : Meets step ok s (as ++ bs)) :
    Meets step ok s as ∧ Meets step ok (run step s as) bs := by
  induction as generalizing s with
  | nil => exact ⟨trivial, h⟩
  | cons a as ih =>
    obtain ⟨ha, hrest⟩ := h
    obtain ⟨has, hbs⟩ := ih hrest
    exact ⟨⟨ha, has⟩, hbs⟩

/-- **The invariant rule.**  What every admissible step preserves holds after
every admissible run. -/
theorem Meets.invariant (hstep : ∀ s a, I s → ok s a → I (step s a)) {s : σ} {as : List α}
    (hmeets : Meets step ok s as) (hs : I s) : I (run step s as) := by
  induction as generalizing s with
  | nil => exact hs
  | cons a as ih => exact ih hmeets.2 (hstep s a hs hmeets.1)

/-- The invariant rule for runs without a condition on the steps. -/
theorem invariant (hstep : ∀ s a, I s → I (step s a)) {s : σ} (hs : I s) (as : List α) :
    I (run step s as) := by
  induction as generalizing s with
  | nil => exact hs
  | cons a as ih => exact ih (hstep s a hs)

end

end Run
