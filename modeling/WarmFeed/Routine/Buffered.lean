/-!
# Work in order, a few at a time

Of a list of tasks only so many are in work at a time.  They may be finished in any
order, but outcomes are handed on in the order of the tasks; a finished task keeps
its place until every task before it is handed on.
-/

namespace WarmFeed

structure Buffered (α β : Type) where
  /-- Tasks that were not begun yet. -/
  waiting : List α
  /-- Tasks that were begun and not handed on yet, with the outcomes of those that
  are finished. -/
  begun : List (α × Option β)
  handedOn : List β
deriving DecidableEq

namespace Buffered

variable {α β : Type}

/-- Begin waiting tasks as long as fewer than `capacity` are in work. -/
def refill (capacity : Nat) (b : Buffered α β) : Buffered α β :=
  let room := capacity - b.begun.length
  { b with
    waiting := b.waiting.drop room
    begun := b.begun ++ (b.waiting.take room).map fun a => (a, none) }

/-- Hand finished tasks on, up to the first that is not finished. -/
def handOn : List (α × Option β) → List β × List (α × Option β)
  | (_, some o) :: rest =>
    let (outcomes, left) := handOn rest
    (o :: outcomes, left)
  | tasks => ([], tasks)

def start (capacity : Nat) (tasks : List α) : Buffered α β :=
  refill capacity ⟨tasks, [], []⟩

/-- Finish the task at a place among those begun. -/
def finish (outcome : α → β) (capacity : Nat) (b : Buffered α β) (i : Nat) : Buffered α β :=
  let begun := b.begun.modify i fun t => (t.1, some (outcome t.1))
  let (outcomes, left) := handOn begun
  refill capacity { b with begun := left, handedOn := b.handedOn ++ outcomes }

/-- Finish tasks one after the other, at the given places. -/
def run (outcome : α → β) (capacity : Nat) (tasks : List α) (places : List Nat) :
    Buffered α β :=
  places.foldl (finish outcome capacity) (start capacity tasks)

/-- Every task was handed on. -/
def isDone (b : Buffered α β) : Bool := b.waiting.isEmpty && b.begun.isEmpty

end Buffered
end WarmFeed
