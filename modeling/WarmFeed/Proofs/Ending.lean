import WarmFeed.Proofs.Interleaving

/-!
# Routines that come to an end

A routine that ends within so many turns of its own, whatever it is answered in them, ends beside
any others as soon as it had these turns.  Steps that succeed one after the other add up.
-/

namespace WarmFeed
namespace Routine

variable {Q σ α β ε ε' : Type} {R : Q → Type}

/-- Whatever the state is in each of its turns, the routine ends within so many of them, with a
value of this sort. -/
def EndsIn (answer : σ → (q : Q) → R q × σ) (J : α → Prop) : Routine R α → Nat → Prop
  | done a, _ => J a
  | ask q _ next, n => 0 < n ∧ ∀ t, (next (answer t q).1).EndsIn answer J (n - 1)
  | pause _ _ next, n => 0 < n ∧ (next ()).EndsIn answer J (n - 1)

section EndsIn

variable {answer : σ → (q : Q) → R q × σ} {J : α → Prop} {K : β → Prop} {p : Routine R α}
  {m n : Nat}

theorem EndsIn.mono (h : p.EndsIn answer J m) (hle : m ≤ n) : p.EndsIn answer J n := by
  induction p generalizing m n with
  | done a => exact h
  | ask q onDrop next ih =>
    obtain ⟨hpos, hnext⟩ := h
    exact ⟨by omega, fun t => ih _ (hnext t) (by omega)⟩
  | pause millis onDrop next ih =>
    obtain ⟨hpos, hnext⟩ := h
    exact ⟨by omega, ih () hnext (by omega)⟩

theorem EndsIn.bind {f : α → Routine R β} (h : p.EndsIn answer J m)
    (hf : ∀ a, J a → (f a).EndsIn answer K n) : (p.bind f).EndsIn answer K (m + n) := by
  induction p generalizing m with
  | done a => exact (hf a h).mono (Nat.le_add_left n m)
  | ask q onDrop next ih =>
    obtain ⟨hpos, hnext⟩ := h
    refine ⟨by omega, fun t => (ih _ (hnext t)).mono ?_⟩
    omega
  | pause millis onDrop next ih =>
    obtain ⟨hpos, hnext⟩ := h
    refine ⟨by omega, (ih () hnext).mono ?_⟩
    omega

theorem endsIn_request {q : Q} {J : R q → Prop} (h : ∀ t, J (answer t q).1) :
    (request q : Routine R (R q)).EndsIn answer J 1 := ⟨Nat.one_pos, h⟩

theorem EndsIn.done_of_zero (h : p.EndsIn answer J 0) : ∃ a, p = done a ∧ J a := by
  cases p with
  | done a => exact ⟨a, rfl, h⟩
  | ask q onDrop next => exact absurd h.1 (Nat.lt_irrefl 0)
  | pause millis onDrop next => exact absurd h.1 (Nat.lt_irrefl 0)

theorem EndsIn.turn (h : p.EndsIn answer J n) (s : σ) :
    (p.turn answer s).1.EndsIn answer J (n - 1) := by
  cases p with
  | done a => exact h
  | ask q onDrop next => exact h.2 s
  | pause millis onDrop next => exact h.2

/-- Each turn of its own brings the routine nearer to its end, and turns of others do not keep
it from there. -/
theorem EndsIn.interleave {i : Nat} (schedule : List Nat) {ps : List (Routine R α)}
    (hp : ps[i]? = some p) (h : p.EndsIn answer J n) (s : σ) :
    ∃ left, (Routine.interleave answer schedule ps s).1[i]? = some left ∧
      left.EndsIn answer J (n - schedule.count i) := by
  induction schedule generalizing p ps s n with
  | nil => exact ⟨p, hp, h⟩
  | cons j schedule ih =>
    by_cases hij : j = i
    · subst hij
      have hset : (ps.set j (p.turn answer s).1)[j]? = some (p.turn answer s).1 :=
        List.getElem?_set_self (List.getElem?_eq_some_iff.mp hp).1
      obtain ⟨left, hleft, hends⟩ := ih hset (h.turn s) (p.turn answer s).2
      refine ⟨left, ?_, hends.mono ?_⟩
      · rw [interleave_cons_of_some answer hp, hleft]
      · rw [List.count_cons_self]
        omega
    · rw [List.count_cons_of_ne hij]
      cases hj : ps[j]? with
      | none =>
        rw [interleave_cons_of_none answer hj]
        exact ih hp h s
      | some q =>
        rw [interleave_cons_of_some answer hj]
        exact ih ((List.getElem?_set_ne hij).trans hp) h _

end EndsIn

/-! ## Attempts that succeed -/

def SucceedsIn (answer : σ → (q : Q) → R q × σ) (J : α → Prop) (a : ExceptT ε (Routine R) α)
    (n : Nat) : Prop :=
  a.run.EndsIn answer (fun result => ∃ x, result = .ok x ∧ J x) n

section SucceedsIn

variable {answer : σ → (q : Q) → R q × σ} {J : α → Prop} {K : β → Prop}
  {a : ExceptT ε (Routine R) α} {m n : Nat}

theorem succeedsIn_pure {x : α} (h : J x) :
    SucceedsIn answer J (pure x : ExceptT ε (Routine R) α) 0 := ⟨x, rfl, h⟩

theorem SucceedsIn.mono (h : SucceedsIn answer J a m) (hle : m ≤ n) : SucceedsIn answer J a n :=
  EndsIn.mono h hle

theorem SucceedsIn.bind {f : α → ExceptT ε (Routine R) β} (h : SucceedsIn answer J a m)
    (hf : ∀ x, J x → SucceedsIn answer K (f x) n) : SucceedsIn answer K (a >>= f) (m + n) := by
  refine EndsIn.bind h ?_
  rintro _ ⟨x, rfl, hx⟩
  exact hf x hx

theorem succeedsIn_liftRoutine {p : Routine R α} (h : p.EndsIn answer J n) :
    SucceedsIn answer J (liftM p : ExceptT ε (Routine R) α) n :=
  EndsIn.bind (n := 0) h fun x hx => ⟨x, rfl, hx⟩

theorem SucceedsIn.mapError (h : SucceedsIn answer J a n) (g : ε → ε') :
    SucceedsIn answer J (ExceptT.adapt g a) n := by
  refine EndsIn.bind (n := 0) h ?_
  rintro _ ⟨x, rfl, hx⟩
  exact ⟨x, rfl, hx⟩

end SucceedsIn

end Routine
end WarmFeed
