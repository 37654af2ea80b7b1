/-!
# Routines

A routine is a piece of work that asks others for things, waits, and ends with a
value.  It is the tree of everything it can do: at each point it has ended, asks
for something and goes on with the answer, or lets some time pass.

While a routine waits it can be dropped.  What is then still to be done is noted
at each point: the requests that someone else makes in its place.

A routine only says what is asked for and in which order.  Who answers, what is
changed by it, and what others do between two requests is left to the reading of
the tree, so the same routine can be run alone, dropped half-way or interleaved
with others.
-/

namespace WarmFeed

/-- Work that makes requests in `Q`, gets answers in `R` and ends with a value in `α`. -/
inductive Routine {Q : Type} (R : Q → Type) (α : Type) where
  | done (a : α)
  /-- Ask for `q`. -/
  | ask (q : Q) (onDrop : List Q) (next : R q → Routine R α)
  /-- Let some milliseconds pass. -/
  | pause (millis : Nat) (onDrop : List Q) (next : Unit → Routine R α)

namespace Routine

variable {Q Q' : Type} {R : Q → Type} {R' : Q' → Type} {α β σ : Type}

instance [Inhabited α] : Inhabited (Routine R α) := ⟨done default⟩

def bind (p : Routine R α) (f : α → Routine R β) : Routine R β :=
  match p with
  | done a => f a
  | ask q onDrop next => ask q onDrop fun r => (next r).bind f
  | pause millis onDrop next => pause millis onDrop fun u => (next u).bind f

instance : Monad (Routine R) where
  pure := done
  bind := bind

/-- A single request. -/
def request (q : Q) : Routine R (R q) := ask q [] done

def sleep (millis : Nat) : Routine R Unit := pause millis [] done

@[simp] theorem pure_eq (a : α) : (pure a : Routine R α) = done a := rfl

@[simp] theorem bind_eq (p : Routine R α) (f : α → Routine R β) : p >>= f = p.bind f := rfl

@[simp] theorem done_bind (a : α) (f : α → Routine R β) :
    (done a : Routine R α).bind f = f a := rfl

theorem bind_done (p : Routine R α) : p.bind done = p := by
  induction p with
  | done a => rfl
  | ask q onDrop next ih => simp only [bind, ih]
  | pause millis onDrop next ih => simp only [bind, ih]

theorem bind_assoc {γ : Type} (p : Routine R α) (f : α → Routine R β) (g : β → Routine R γ) :
    (p.bind f).bind g = p.bind fun a => (f a).bind g := by
  induction p with
  | done a => rfl
  | ask q onDrop next ih => simp only [bind, ih]
  | pause millis onDrop next ih => simp only [bind, ih]

instance : LawfulMonad (Routine R) :=
  .mk' _ (fun p => bind_done p) (fun _ _ => rfl) (fun p f g => bind_assoc p f g)

/-! ## Dropping -/

/-- Leave `cleanup` behind wherever the routine is dropped. -/
def guarded (cleanup : List Q) : Routine R α → Routine R α
  | done a => done a
  | ask q onDrop next => ask q (onDrop ++ cleanup) fun r => (next r).guarded cleanup
  | pause millis onDrop next =>
    pause millis (onDrop ++ cleanup) fun u => (next u).guarded cleanup

/-- Make requests without regard to their answers. -/
def requestAll : List Q → Routine R Unit
  | [] => done ()
  | q :: rest => ask q [] fun _ => requestAll rest

/-- Drop the routine when it has not ended after so many milliseconds, and say what
it leaves behind.  A routine that ends just then has ended in time. -/
def cut (millis : Nat) : Routine R α → Routine R (Except (List Q) α)
  | done a => done (.ok a)
  | ask q onDrop next => ask q onDrop fun r => (next r).cut millis
  | pause d onDrop next =>
    if d ≤ millis then pause d onDrop fun u => (next u).cut (millis - d)
    else pause millis onDrop fun _ => done (.error onDrop)

/-- The value of the routine, unless it had to be dropped.  What it leaves behind is
requested at once. -/
def within (millis : Nat) (p : Routine R α) : Routine R (Option α) :=
  (p.cut millis).bind fun
    | .ok a => done (some a)
    | .error left => (requestAll left).bind fun _ => done none

/-! ## Running -/

/-- Let a routine of other requests answer each request.  What is left behind on a
drop is asked for by way of `embed`. -/
def serve (embed : Q → Q') (answer : (q : Q) → Routine R' (R q)) :
    Routine R α → Routine R' α
  | done a => done a
  | ask q onDrop next =>
    ((answer q).guarded (onDrop.map embed)).bind fun r => (next r).serve embed answer
  | pause millis onDrop next =>
    pause millis (onDrop.map embed) fun u => (next u).serve embed answer

/-- Run a routine alone, on a state that answers every request. -/
def run (answer : σ → (q : Q) → R q × σ) : Routine R α → σ → α × σ
  | done a, s => (a, s)
  | ask q _ next, s =>
    let (r, s) := answer s q
    (next r).run answer s
  | pause _ _ next, s => (next ()).run answer s

theorem run_bind (answer : σ → (q : Q) → R q × σ) (p : Routine R α) (f : α → Routine R β)
    (s : σ) :
    (p.bind f).run answer s = (f (p.run answer s).1).run answer (p.run answer s).2 := by
  induction p generalizing s with
  | done a => rfl
  | ask q onDrop next ih => simp only [bind, run, ih]
  | pause millis onDrop next ih => simp only [bind, run, ih]

end Routine
end WarmFeed
