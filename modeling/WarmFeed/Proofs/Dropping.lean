import WarmFeed.Proofs.Course

/-!
# Routines that are dropped

A routine can be dropped wherever it waits.  A request whose reply it waits for then may
or may not have taken effect.  Its drops are all of these cases, along the run that it
would have made alone.

Most routines leave nothing behind wherever they are dropped.  With a guard around such a
routine it is just the cleanup of the guard that is left behind.
-/

namespace WarmFeed

structure Drop (σ Q : Type) where
  /-- The state in which it began to wait. -/
  state : σ
  /-- The request whose reply it waits for, unless it lets some time pass. -/
  awaited : Option Q
  /-- The request has taken effect. -/
  arrived : Bool
  leftBehind : List Q
deriving DecidableEq

def Drop.reached {σ Q : Type} {R : Q → Type} (answer : σ → (q : Q) → R q × σ) (d : Drop σ Q) : σ :=
  match d.awaited, d.arrived with
  | some q, true => (answer d.state q).2
  | _, _ => d.state

namespace Routine

variable {Q σ ε ε' α β : Type} {R : Q → Type}

/-- Where a routine can be dropped when it is run alone. -/
def drops (answer : σ → (q : Q) → R q × σ) : Routine R α → σ → List (Drop σ Q)
  | done _, _ => []
  | ask q onDrop next, s => ⟨s, some q, false, onDrop⟩ :: ⟨s, some q, true, onDrop⟩ ::
      (next (answer s q).1).drops answer (answer s q).2
  | pause _ onDrop next, s => ⟨s, none, false, onDrop⟩ :: (next ()).drops answer s

section Drops

variable (answer : σ → (q : Q) → R q × σ) (s : σ)

theorem drops_bind (p : Routine R α) (f : α → Routine R β) :
    (p.bind f).drops answer s =
      p.drops answer s ++ (f (p.run answer s).1).drops answer (p.run answer s).2 := by
  induction p generalizing s with
  | done a => rfl
  | ask q onDrop next ih => exact congrArg (fun ds => _ :: _ :: ds) (ih _ _)
  | pause millis onDrop next ih => exact congrArg (List.cons _) (ih _ _)

theorem drops_guarded (cleanup : List Q) (p : Routine R α) :
    (p.guarded cleanup).drops answer s =
      (p.drops answer s).map fun d => { d with leftBehind := d.leftBehind ++ cleanup } := by
  induction p generalizing s with
  | done a => rfl
  | ask q onDrop next ih => exact congrArg (fun ds => _ :: _ :: ds) (ih _ _)
  | pause millis onDrop next ih => exact congrArg (List.cons _) (ih _ _)

end Drops

def LeavesNothing : Routine R α → Prop
  | done _ => True
  | ask _ onDrop next => onDrop = [] ∧ ∀ r, (next r).LeavesNothing
  | pause _ onDrop next => onDrop = [] ∧ ∀ u, (next u).LeavesNothing

section LeavesNothing

variable {p : Routine R α}

theorem LeavesNothing.bind {f : α → Routine R β} (h : p.LeavesNothing)
    (hf : ∀ a, (f a).LeavesNothing) : (p.bind f).LeavesNothing := by
  induction p with
  | done a => exact hf a
  | ask q onDrop next ih => exact ⟨h.1, fun r => ih r (h.2 r)⟩
  | pause millis onDrop next ih => exact ⟨h.1, fun u => ih u (h.2 u)⟩

theorem leavesNothing_request (q : Q) : (request q : Routine R (R q)).LeavesNothing :=
  ⟨rfl, fun _ => trivial⟩

theorem leavesNothing_attempt_bind {a : ExceptT ε (Routine R) α}
    {f : α → ExceptT ε (Routine R) β} (ha : a.run.LeavesNothing)
    (hf : ∀ x, (f x).run.LeavesNothing) : (a >>= f).run.LeavesNothing := by
  refine LeavesNothing.bind ha fun result => ?_
  cases result with
  | ok x => exact hf x
  | error e => trivial

theorem leavesNothing_mapError {a : ExceptT ε (Routine R) α} (ha : a.run.LeavesNothing)
    (f : ε → ε') : (ExceptT.adapt f a).run.LeavesNothing :=
  LeavesNothing.bind ha fun _ => trivial

theorem LeavesNothing.of_mem_drops (h : p.LeavesNothing) {answer : σ → (q : Q) → R q × σ} {s : σ}
    {d : Drop σ Q} (hd : d ∈ p.drops answer s) : d.leftBehind = [] := by
  induction p generalizing s with
  | done a => exact absurd hd List.not_mem_nil
  | ask q onDrop next ih =>
    rcases List.mem_cons.mp hd with rfl | hd
    · exact h.1
    rcases List.mem_cons.mp hd with rfl | hd
    · exact h.1
    · exact ih _ (h.2 _) hd
  | pause millis onDrop next ih =>
    rcases List.mem_cons.mp hd with rfl | hd
    · exact h.1
    · exact ih _ (h.2 _) hd

/-- It is the guard that leaves something behind. -/
theorem LeavesNothing.of_mem_drops_guarded (h : p.LeavesNothing)
    {answer : σ → (q : Q) → R q × σ} {s : σ} {cleanup : List Q} {d : Drop σ Q}
    (hd : d ∈ (p.guarded cleanup).drops answer s) : d.leftBehind = cleanup := by
  rw [drops_guarded] at hd
  obtain ⟨unguarded, hmem, rfl⟩ := List.mem_map.mp hd
  show unguarded.leftBehind ++ cleanup = cleanup
  rw [h.of_mem_drops hmem, List.nil_append]

end LeavesNothing

end Routine
end WarmFeed
