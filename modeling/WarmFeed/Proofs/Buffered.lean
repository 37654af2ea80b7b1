import Mathlib.Data.List.Induction
import WarmFeed.Routine.Buffered

/-!
# Outcomes come in the order of the tasks

What was handed on, what is in work and what waits are, one after the other, the tasks in their
order.  So wherever tasks are finished, outcomes are handed on from the first to the last, each
once.  As long as there is room for one task, the first of those in work is not finished yet,
and finishing it hands something on; so the work comes to its end.
-/

namespace WarmFeed
namespace Buffered

variable {α β : Type} (outcome : α → β)

def IsOwn (t : α × Option β) : Prop := ∀ o, t.2 = some o → o = outcome t.1

/-- The tasks in their order: those handed on, those in work and those that wait. -/
structure InOrder (tasks : List α) (b : Buffered α β) : Prop where
  own : ∀ t ∈ b.begun, IsOwn outcome t
  order : b.handedOn ++ (b.begun.map fun t => outcome t.1) ++ b.waiting.map outcome =
    tasks.map outcome

structure Busy (capacity : Nat) (b : Buffered α β) : Prop where
  full : b.begun.length < capacity → b.waiting = []
  head : ∀ t ∈ b.begun.head?, t.2 = none

variable {outcome}

/-! ## Handing on -/

theorem handOn_order {ts : List (α × Option β)} (h : ∀ t ∈ ts, IsOwn outcome t) :
    (handOn ts).1 ++ ((handOn ts).2.map fun t => outcome t.1) = ts.map fun t => outcome t.1 := by
  induction ts with
  | nil => rfl
  | cons t ts ih =>
    obtain ⟨a, _ | o⟩ := t
    · rfl
    · obtain rfl : o = outcome a := h (a, some o) List.mem_cons_self o rfl
      exact congrArg (outcome a :: ·) (ih fun t ht => h t (List.mem_cons_of_mem _ ht))

theorem mem_of_mem_handOn {ts : List (α × Option β)} {t : α × Option β}
    (h : t ∈ (handOn ts).2) : t ∈ ts := by
  induction ts with
  | nil => exact h
  | cons t' ts ih =>
    obtain ⟨a, _ | o⟩ := t'
    · exact h
    · exact List.mem_cons_of_mem _ (ih h)

theorem head?_handOn (ts : List (α × Option β)) : ∀ t ∈ (handOn ts).2.head?, t.2 = none := by
  induction ts with
  | nil => exact fun t ht => nomatch ht
  | cons t ts ih =>
    obtain ⟨a, _ | o⟩ := t
    · intro t ht
      rw [← Option.some.inj ht]
    · exact ih

/-! ## Beginning tasks -/

section Refill

variable {tasks : List α} {b : Buffered α β} {capacity : Nat}

theorem InOrder.refill (h : InOrder outcome tasks b) (capacity : Nat) :
    InOrder outcome tasks (refill capacity b) where
  own t ht := by
    rcases List.mem_append.mp ht with ht | ht
    · exact h.own t ht
    · obtain ⟨a, -, rfl⟩ := List.mem_map.mp ht
      exact fun o ho => nomatch ho
  order := by
    simp only [Buffered.refill, List.map_append, List.map_map]
    rw [← h.order, List.append_assoc, List.append_assoc, List.append_assoc]
    congr 2
    exact (List.map_append ..).symm.trans
      (congrArg (List.map outcome) (List.take_append_drop _ b.waiting))

theorem busy_refill (hhead : ∀ t ∈ b.begun.head?, t.2 = none) :
    Busy capacity (refill capacity b) where
  full hroom := by
    simp only [Buffered.refill, List.length_append, List.length_map, List.length_take] at hroom ⊢
    rw [List.drop_eq_nil_iff]
    omega
  head t ht := by
    simp only [Buffered.refill] at ht
    cases hbegun : b.begun with
    | cons t' ts =>
      rw [hbegun] at ht hhead
      exact hhead t ht
    | nil =>
      rw [hbegun, List.nil_append] at ht
      obtain ⟨a, -, rfl⟩ := List.mem_map.mp (List.mem_of_mem_head? ht)
      rfl

theorem inOrder_start (capacity : Nat) (tasks : List α) :
    InOrder outcome tasks (start capacity tasks : Buffered α β) :=
  InOrder.refill ⟨fun _ ht => absurd ht List.not_mem_nil, rfl⟩ capacity

end Refill

/-! ## Finishing a task -/

section Finish

variable {tasks : List α} {b : Buffered α β}

theorem map_modify_finished (ts : List (α × Option β)) (i : Nat) :
    ((ts.modify i fun t => (t.1, some (outcome t.1))).map fun t => outcome t.1) =
      ts.map fun t => outcome t.1 := by
  induction ts generalizing i with
  | nil => simp
  | cons t ts ih => cases i <;> simp [ih]

theorem isOwn_modify {ts : List (α × Option β)} (h : ∀ t ∈ ts, IsOwn outcome t) (i : Nat) :
    ∀ t ∈ ts.modify i fun t => (t.1, some (outcome t.1)), IsOwn outcome t := by
  have hfinished : ∀ a : α, IsOwn outcome (a, some (outcome a)) := fun a o ho =>
    (Option.some.inj ho).symm
  induction ts generalizing i with
  | nil => simp
  | cons t ts ih =>
    have hrest := ih fun t ht => h t (List.mem_cons_of_mem _ ht)
    have hfirst := h t List.mem_cons_self
    cases i with
    | zero =>
      intro t' ht'
      rw [List.modify_zero_cons, List.mem_cons] at ht'
      rcases ht' with rfl | ht'
      · exact hfinished t.1
      · exact h t' (List.mem_cons_of_mem _ ht')
    | succ i =>
      intro t' ht'
      rw [List.modify_succ_cons, List.mem_cons] at ht'
      rcases ht' with rfl | ht'
      · exact hfirst
      · exact hrest i t' ht'

theorem InOrder.finish (h : InOrder outcome tasks b) (capacity i : Nat) :
    InOrder outcome tasks (finish outcome capacity b i) := by
  have hown := isOwn_modify h.own i
  refine InOrder.refill ⟨fun t ht => hown t (mem_of_mem_handOn ht), ?_⟩ capacity
  rw [List.append_assoc, List.append_assoc, ← List.append_assoc (handOn _).1, handOn_order hown,
    map_modify_finished, ← List.append_assoc, h.order]

theorem busy_finish (capacity : Nat) (b : Buffered α β) (i : Nat) :
    Busy capacity (finish outcome capacity b i) :=
  busy_refill (head?_handOn _)

/-- Finishing the first task in work hands its outcome on. -/
theorem handedOn_lt_finish (outcome : α → β) {t : α × Option β} {ts : List (α × Option β)}
    (hbegun : b.begun = t :: ts) (capacity : Nat) :
    b.handedOn.length < (finish outcome capacity b 0).handedOn.length := by
  simp only [Buffered.finish, Buffered.refill, hbegun, List.modify_zero_cons, handOn,
    List.length_append, List.length_cons]
  omega

end Finish

/-! ## Finishing them all -/

section Run

variable {tasks : List α} {capacity : Nat}

theorem run_append (places more : List Nat) :
    run outcome capacity tasks (places ++ more) =
      more.foldl (finish outcome capacity) (run outcome capacity tasks places) :=
  List.foldl_append

theorem inOrder_run (outcome : α → β) (capacity : Nat) (tasks : List α) (places : List Nat) :
    InOrder outcome tasks (run outcome capacity tasks places) := by
  induction places using List.reverseRecOn with
  | nil => exact inOrder_start capacity tasks
  | append_singleton places i ih =>
    rw [run_append]
    exact ih.finish capacity i

theorem busy_run (outcome : α → β) (capacity : Nat) (tasks : List α) (places : List Nat) :
    Busy capacity (run outcome capacity tasks places) := by
  rcases List.eq_nil_or_concat places with rfl | ⟨init, i, rfl⟩
  · exact busy_refill fun t ht => nomatch ht
  · rw [List.concat_eq_append, run_append]
    exact busy_finish capacity _ i

/-- At every moment the first outcomes were handed on. -/
theorem handedOn_first (outcome : α → β) (capacity : Nat) (tasks : List α) (places : List Nat) :
    (run outcome capacity tasks places).handedOn <+: tasks.map outcome := by
  rw [← (inOrder_run outcome capacity tasks places).order, List.append_assoc]
  exact List.prefix_append _ _

/-- In the end all of them were, wherever tasks were finished and whatever the capacity. -/
theorem handedOn_of_isDone {places : List Nat}
    (hdone : (run outcome capacity tasks places).isDone = true) :
    (run outcome capacity tasks places).handedOn = tasks.map outcome := by
  have horder := (inOrder_run outcome capacity tasks places).order
  rw [isDone, Bool.and_eq_true, List.isEmpty_iff, List.isEmpty_iff] at hdone
  simpa [hdone.1, hdone.2] using horder

/-- Whatever was finished, the rest can be. -/
theorem exists_isDone (outcome : α → β) (hcapacity : 0 < capacity) (tasks : List α)
    (places : List Nat) :
    ∃ more, (run outcome capacity tasks (places ++ more)).isDone = true := by
  -- There are only so many outcomes left to hand on.
  have hleft := (handedOn_first outcome capacity tasks places).length_le
  rw [List.length_map] at hleft
  generalize hn : tasks.length - (run outcome capacity tasks places).handedOn.length = n
  induction n using Nat.strongRecOn generalizing places with
  | ind n ih =>
    have hbusy := busy_run outcome capacity tasks places
    cases hbegun : (run outcome capacity tasks places).begun with
    | nil =>
      have hwaiting := hbusy.full (by rw [hbegun]; exact hcapacity)
      refine ⟨[], ?_⟩
      rw [List.append_nil, isDone, hbegun, hwaiting]
      rfl
    | cons t ts =>
      have hless := handedOn_lt_finish outcome hbegun capacity
      have hstep : run outcome capacity tasks (places ++ [0]) =
          finish outcome capacity (run outcome capacity tasks places) 0 := run_append places [0]
      have hmost := (handedOn_first outcome capacity tasks (places ++ [0])).length_le
      rw [List.length_map] at hmost
      rw [← hstep] at hless
      obtain ⟨more, hmore⟩ := ih _ (by omega) (places ++ [0]) hmost rfl
      refine ⟨0 :: more, ?_⟩
      rwa [List.append_cons]

end Run

end Buffered
end WarmFeed
