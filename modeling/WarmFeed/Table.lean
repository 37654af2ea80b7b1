/-!
# Finite tables

A table is a list of keys with their values.  Looking a key up takes its first
pair, setting a key replaces its pair in place or adds one at the end, and
erasing a key drops every pair of it.  Tables hold the contents of a feed, the
marks of subjects and the objects of a store; they are small, their look-ups
compute, and each operation is described by what it does to a look-up.
-/

namespace WarmFeed

/-- Keys with their values, in the order in which the keys were first set. -/
structure Table (κ : Type) (β : Type) where
  pairs : List (κ × β)
deriving DecidableEq

namespace Table

variable {κ β γ : Type} [DecidableEq κ]

def empty : Table κ β := ⟨[]⟩

instance : EmptyCollection (Table κ β) := ⟨empty⟩
instance : Inhabited (Table κ β) := ⟨empty⟩

def get? (t : Table κ β) (k : κ) : Option β := t.pairs.lookup k

def contains (t : Table κ β) (k : κ) : Bool := (t.get? k).isSome

def keys (t : Table κ β) : List κ := t.pairs.map Prod.fst

/-- Replace the value of the first pair of `k`, or add a pair at the end. -/
def setPairs (k : κ) (v : β) : List (κ × β) → List (κ × β)
  | [] => [(k, v)]
  | p :: rest => if p.1 = k then (k, v) :: rest else p :: setPairs k v rest

def set (t : Table κ β) (k : κ) (v : β) : Table κ β := ⟨setPairs k v t.pairs⟩

def erase (t : Table κ β) (k : κ) : Table κ β :=
  ⟨t.pairs.filter fun p => decide (p.1 ≠ k)⟩

/-- Set every pair of the list, from left to right. -/
def setAll (t : Table κ β) (ps : List (κ × β)) : Table κ β :=
  ps.foldl (fun t p => t.set p.1 p.2) t

def ofList (ps : List (κ × β)) : Table κ β := empty.setAll ps

@[simp] theorem get?_empty (k : κ) : (empty : Table κ β).get? k = none := rfl

theorem lookup_cons_pair (k' a : κ) (b : β) (ps : List (κ × β)) :
    ((a, b) :: ps).lookup k' = if k' = a then some b else ps.lookup k' := by
  by_cases h : k' = a
  · simp [h]
  · rw [List.lookup_cons, beq_false_of_ne h, if_neg h]

theorem lookup_setPairs (k k' : κ) (v : β) (ps : List (κ × β)) :
    (setPairs k v ps).lookup k' = if k' = k then some v else ps.lookup k' := by
  induction ps with
  | nil => simp only [setPairs, lookup_cons_pair]
  | cons p rest ih =>
    obtain ⟨a, b⟩ := p
    by_cases ha : a = k
    · subst ha
      by_cases h : k' = a <;> simp [setPairs, lookup_cons_pair, h]
    · by_cases h : k' = a
      · simp [setPairs, h, ha]
      · simp [setPairs, lookup_cons_pair, h, ha, ih]

theorem lookup_filter_ne (k k' : κ) (ps : List (κ × β)) :
    (ps.filter (fun p => decide (p.1 ≠ k))).lookup k' =
      if k' = k then none else ps.lookup k' := by
  induction ps with
  | nil => simp
  | cons p rest ih =>
    obtain ⟨a, b⟩ := p
    by_cases ha : a = k
    · subst ha
      rw [List.filter_cons_of_neg (by simp), ih, lookup_cons_pair]
      by_cases h : k' = a <;> simp [h]
    · rw [List.filter_cons_of_pos (by simp [ha]), lookup_cons_pair, lookup_cons_pair, ih]
      by_cases h : k' = a
      · simp [h, ha]
      · simp [h]

@[simp] theorem get?_set (t : Table κ β) (k k' : κ) (v : β) :
    (t.set k v).get? k' = if k' = k then some v else t.get? k' :=
  lookup_setPairs k k' v t.pairs

@[simp] theorem get?_erase (t : Table κ β) (k k' : κ) :
    (t.erase k).get? k' = if k' = k then none else t.get? k' :=
  lookup_filter_ne k k' t.pairs

end Table
end WarmFeed
