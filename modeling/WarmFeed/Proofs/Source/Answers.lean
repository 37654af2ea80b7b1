import WarmFeed.Proofs.Backend
import WarmFeed.Proofs.Course
import WarmFeed.Source.Basic

/-!
# Sources in the place of calls

A routine whose calls for feeds are answered by sources runs as it would on a backend that
carries the sources out.  A source that lets no time pass is never dropped, and what no call
of it changes is the same afterwards.
-/

namespace WarmFeed

namespace Routine

variable {Q Q' σ α β ε ε' : Type} {R : Q → Type} {R' : Q' → Type}

theorem run_serve (answer : σ → (q : Q') → R' q × σ) (embed : Q → Q')
    (inner : (q : Q) → Routine R' (R q)) (p : Routine R α) (s : σ) :
    (p.serve embed inner).run answer s = p.run (fun s q => (inner q).run answer s) s := by
  induction p generalizing s with
  | done a => rfl
  | ask q onDrop next ih =>
    show (((inner q).guarded (onDrop.map embed)).bind _).run answer s = _
    rw [run_bind, run_guarded]
    exact ih _ _
  | pause millis onDrop next ih => exact ih () s

/-- Where all requests that a routine makes are answered alike, it runs alike. -/
theorem Asks.run_congr {sort : Q → Prop} {p : Routine R α} (h : p.Asks sort)
    {answer answer' : σ → (q : Q) → R q × σ}
    (hsame : ∀ s q, sort q → answer s q = answer' s q) (s : σ) :
    p.run answer s = p.run answer' s := by
  induction p generalizing s with
  | done a => rfl
  | ask q onDrop next ih =>
    show (next (answer s q).1).run answer (answer s q).2 = _
    rw [hsame s q h.1]
    exact ih _ (h.2 _) _
  | pause millis onDrop next ih => exact ih () (h ()) s

def Steady : Routine R α → Prop
  | done _ => True
  | ask _ _ next => ∀ r, (next r).Steady
  | pause _ _ _ => False

theorem Steady.bind {p : Routine R α} {f : α → Routine R β} (h : p.Steady)
    (hf : ∀ a, (f a).Steady) : (p.bind f).Steady := by
  induction p with
  | done a => exact hf a
  | ask q onDrop next ih => exact fun r => ih r (h r)
  | pause millis onDrop next ih => exact h.elim

theorem steady_request (q : Q) : (request q : Routine R (R q)).Steady := fun _ => trivial

theorem steady_attempt_bind {a : ExceptT ε (Routine R) α} {f : α → ExceptT ε (Routine R) β}
    (ha : a.run.Steady) (hf : ∀ x, (f x).run.Steady) : (a >>= f).run.Steady := by
  refine Steady.bind ha fun result => ?_
  cases result with
  | ok x => exact hf x
  | error e => trivial

theorem Steady.run_cut {p : Routine R α} (h : p.Steady) (answer : σ → (q : Q) → R q × σ)
    (millis : Nat) (s : σ) :
    (p.cut millis).run answer s = (.ok (p.run answer s).1, (p.run answer s).2) := by
  induction p generalizing s with
  | done a => rfl
  | ask q onDrop next ih => exact ih _ (h _) _
  | pause millis onDrop next ih => exact h.elim

/-- It ends in time, whatever the time is. -/
theorem Steady.run_within {p : Routine R α} (h : p.Steady) (answer : σ → (q : Q) → R q × σ)
    (millis : Nat) (s : σ) :
    (p.within millis).run answer s = (some (p.run answer s).1, (p.run answer s).2) := by
  unfold within
  rw [run_bind, h.run_cut]
  rfl

end Routine

namespace Sources

variable {σ α : Type} (sources : Sources) (answer : Backend σ) (s : σ)

/-- The backend that carries out the sources where it is asked for a feed. -/
def answers : Backend σ := fun s c => (sources.serve c).run answer s

theorem run_run (work : Work α) :
    (sources.run work).run answer s = work.run (sources.answers answer) s :=
  Routine.run_serve answer id sources.serve work s

variable {sources}

theorem answers_compute {kind : FeedKind} {source : Source} (h : sources.get? kind = some source)
    {subject : Subject} (hsteady : (source subject).run.Steady) (seconds : Nat) :
    sources.answers answer s (.compute kind subject seconds) =
      (some (Routine.attempt answer s (source subject)).1,
        (Routine.attempt answer s (source subject)).2) := by
  unfold answers serve
  dsimp only
  rw [h]
  exact hsteady.run_within answer _ s

/-- Only the source of the kind that is asked for matters. -/
theorem answers_congr {others : Sources} {kind : FeedKind}
    (h : sources.get? kind = others.get? kind) {c : Call}
    (hc : ∀ asked subject seconds, c = .compute asked subject seconds → asked = kind) :
    sources.answers answer s c = others.answers answer s c := by
  cases c with
  | compute asked subject seconds =>
    obtain rfl := hc asked subject seconds rfl
    unfold answers serve
    dsimp only
    rw [h]
  | _ => rfl

/-- The source lets no time pass and asks nothing of the index. -/
structure Aside (source : Source) : Prop where
  steady : ∀ subject, (source subject).run.Steady
  asks : ∀ subject, (source subject).run.Asks fun c => ∀ key r, c ≠ .index key r

variable {answer} {view : σ → FeedIndex}

theorem holdsIndex_answers (h : Backend.HoldsIndex answer view)
    (haside : ∀ kind source, sources.get? kind = some source → Aside source) :
    Backend.HoldsIndex (sources.answers answer) view where
  request s key r := h.request s key r
  other s c hc := by
    cases c with
    | compute kind subject seconds =>
      cases hsource : sources.get? kind with
      | none =>
        unfold answers serve
        dsimp only
        rw [hsource]
        rfl
      | some source =>
        obtain ⟨hsteady, hasks⟩ := haside kind source hsource
        rw [answers_compute answer s hsource (hsteady subject)]
        exact ((hasks subject).staysIn (P := fun t => view t = view s)
          (fun t c hc ht => (h.other t c hc).trans ht) rfl).2
    | index key r => exact absurd rfl (hc key r)
    | _ => exact h.other s _ hc

end Sources
end WarmFeed
