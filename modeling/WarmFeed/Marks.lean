import WarmFeed.Key
import WarmFeed.Table

/-!
# Marks of subjects

A subject is marked while its feeds are being computed.  A mark carries the
moment from which it no longer counts, so the mark of a computation that never
came back vanishes by itself.
-/

namespace WarmFeed

/-- The moment at which each mark runs out. -/
structure Marks where
  deadlines : Table Subject Nat
deriving DecidableEq, Inhabited

namespace Marks

def empty : Marks := ⟨∅⟩

instance : EmptyCollection Marks := ⟨empty⟩

/-- Mark a subject from `now` for as long as `ttl`. -/
def mark (m : Marks) (subject : Subject) (now ttl : Nat) : Marks :=
  ⟨m.deadlines.set subject (now + ttl)⟩

def clear (m : Marks) (subject : Subject) : Marks := ⟨m.deadlines.erase subject⟩

def isMarked (m : Marks) (subject : Subject) (now : Nat) : Bool :=
  match m.deadlines.get? subject with
  | none => false
  | some deadline => decide (now < deadline)

@[simp] theorem isMarked_clear (m : Marks) (s t : Subject) (now : Nat) :
    (m.clear s).isMarked t now = (decide (t ≠ s) && m.isMarked t now) := by
  by_cases h : t = s <;> simp [clear, isMarked, h]

@[simp] theorem isMarked_mark (m : Marks) (s t : Subject) (now ttl later : Nat) :
    (m.mark s now ttl).isMarked t later =
      if t = s then decide (later < now + ttl) else m.isMarked t later := by
  by_cases h : t = s <;> simp [mark, isMarked, h]

end Marks
end WarmFeed
