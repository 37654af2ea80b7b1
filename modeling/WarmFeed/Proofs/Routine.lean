import WarmFeed.Routine.Basic

/-!
# Attempts that are made alone

An attempt made alone ends with a result or a failure, and in some state.  It goes
through its steps one after the other, and the first failure is its outcome.
-/

namespace WarmFeed
namespace Routine

variable {Q σ τ ε ε' α β : Type} {R : Q → Type}

def attempt (answer : σ → (q : Q) → R q × σ) (s : σ) (a : ExceptT ε (Routine R) α) :
    Except ε α × σ :=
  a.run.run answer s

section Attempt

variable (answer : σ → (q : Q) → R q × σ) (s : σ)

/-- What a routine leaves behind when it is dropped does not concern one that is not. -/
theorem run_guarded (cleanup : List Q) (p : Routine R α) :
    (p.guarded cleanup).run answer s = p.run answer s := by
  induction p generalizing s with
  | done a => rfl
  | ask q onDrop next ih => exact ih _ _
  | pause millis onDrop next ih => exact ih _ _

theorem run_request (q : Q) : (request q : Routine R (R q)).run answer s = answer s q := rfl

theorem attempt_liftRoutine (p : Routine R α) :
    attempt answer s (liftM p : ExceptT ε (Routine R) α) =
      (.ok (p.run answer s).1, (p.run answer s).2) := by
  show Routine.run answer (Routine.bind p _) s = _
  rw [run_bind]
  rfl

theorem attempt_bind (a : ExceptT ε (Routine R) α) (f : α → ExceptT ε (Routine R) β) :
    attempt answer s (a >>= f) =
      match (attempt answer s a).1 with
      | .ok x => attempt answer (attempt answer s a).2 (f x)
      | .error e => (.error e, (attempt answer s a).2) := by
  show Routine.run answer (Routine.bind a.run _) s = _
  rw [run_bind]
  show Routine.run answer (ExceptT.bindCont f (attempt answer s a).1) (attempt answer s a).2 = _
  cases (attempt answer s a).1 <;> rfl

theorem attempt_mapError (a : ExceptT ε (Routine R) α) (f : ε → ε') :
    attempt answer s (ExceptT.adapt f a) =
      ((attempt answer s a).1.mapError f, (attempt answer s a).2) := by
  show Routine.run answer (Routine.bind a.run _) s = _
  rw [run_bind]
  rfl

end Attempt

variable {answer : σ → (q : Q) → R q × σ} {s s' : σ} {a : ExceptT ε (Routine R) α}
  {f : α → ExceptT ε (Routine R) β}

theorem attempt_bind_ok {x : α} (h : attempt answer s a = (.ok x, s')) :
    attempt answer s (a >>= f) = attempt answer s' (f x) := by
  rw [attempt_bind, h]

theorem exists_of_attempt_bind {y : β} (h : attempt answer s (a >>= f) = (.ok y, s')) :
    ∃ x s₁, attempt answer s a = (.ok x, s₁) ∧ attempt answer s₁ (f x) = (.ok y, s') := by
  rw [attempt_bind] at h
  cases hfirst : (attempt answer s a).1 with
  | error e =>
    rw [hfirst] at h
    nomatch congrArg Prod.fst h
  | ok x =>
    rw [hfirst] at h
    exact ⟨x, _, Prod.ext hfirst rfl, h⟩

/-- A step that is made under a condition, and what comes after it in either case. -/
theorem attempt_step {c : Prop} [Decidable c] {a : ExceptT ε (Routine R) Unit}
    {f : Unit → ExceptT ε (Routine R) β} (hmade : c → attempt answer s a = (.ok (), s'))
    (hleft : ¬ c → s' = s) :
    attempt answer s (if c then a >>= f else f ()) = attempt answer s' (f ()) := by
  by_cases hc : c
  · rw [if_pos hc, attempt_bind_ok (hmade hc)]
  · rw [if_neg hc, hleft hc]

/-! ## What is seen of a state -/

/-- By what is seen of its state, `answer` does what `answer'` does. -/
def SeenAs (answer : σ → (q : Q) → R q × σ) (view : σ → τ) (answer' : τ → (q : Q) → R q × τ) :
    Prop :=
  ∀ s q, (answer s q).map id view = answer' (view s) q

theorem SeenAs.run {answer : σ → (q : Q) → R q × σ} {view : σ → τ}
    {answer' : τ → (q : Q) → R q × τ} (h : SeenAs answer view answer') (p : Routine R α) (s : σ) :
    (p.run answer s).map id view = p.run answer' (view s) := by
  induction p generalizing s with
  | done a => rfl
  | ask q onDrop next ih =>
    rw [Routine.run, Routine.run, ← h]
    exact ih _ _
  | pause millis onDrop next ih => exact ih () s

end Routine
end WarmFeed
