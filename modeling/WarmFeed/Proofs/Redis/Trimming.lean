import Mathlib.Algebra.GroupWithZero.Nat
import WarmFeed.Proofs.Ending
import WarmFeed.Proofs.Redis.Refinement

/-!
# Trims side by side

A trim looks how many entries there are, and then removes the lowest of them by their ranks.
Whatever comes between the two is not noticed.  Of several trims that take turns, each that still
finds all entries removes as many as are too many, so together they remove these as often as there
are such trims.
-/

namespace WarmFeed
namespace Redis

theorem turn_send (operation : String) (counting : Counting) (c : Command) (v : Server) :
    (send operation counting c).run.turn Server.answerRequest v =
      ((counted operation counting (v.answer c).1).run, (v.answer c).2) := rfl

theorem turn_send_bind {β : Type} (operation : String) (counting : Counting) (c : Command)
    (f : c.Reply → Attempt β) (v : Server) :
    (send operation counting c >>= f).run.turn Server.answerRequest v =
      ((counted operation counting (v.answer c).1 >>= f).run, (v.answer c).2) := rfl

inductive Trimming where
  | looking
  /-- There were so many entries. -/
  | cutting (seen : Nat)
  /-- So many entries are gone, and the write is to be counted. -/
  | tallying (gone : Nat)
  | ended (gone : Nat)

namespace Trimming

/-! ## One call -/

section Stages

variable (key : String) (capacity : Nat)

def rest : Trimming → Exchange (Except StoreError Nat)
  | looking => (Index.trim key capacity).run
  | cutting seen =>
    (send "trim" .write (.zremrangeByRank key 0 ((seen - capacity : Nat) - 1))).run
  | tallying gone => (counted "trim" .write (.ok gone)).run
  | ended gone => .done (.ok gone)

def next (size : Nat) : Trimming → Trimming
  | looking => if size ≤ capacity then ended 0 else cutting size
  | cutting seen => tallying (min (seen - capacity) size)
  | tallying gone => ended gone
  | ended gone => ended gone

/-- How many entries the next turn removes, if there are as many. -/
def excess : Trimming → Nat
  | cutting seen => seen - capacity
  | _ => 0

@[simp] def gone : Trimming → Nat
  | tallying gone => gone
  | ended gone => gone
  | _ => 0

@[simp] def isCutting : Trimming → Bool
  | cutting _ => true
  | _ => false

@[simp] def isLooking : Trimming → Bool
  | looking => true
  | _ => false

/-- A call that removes something has seen more entries than are to be kept. -/
def IsNeeded : Trimming → Prop
  | cutting seen => capacity < seen
  | _ => True

variable {key capacity} {v : Server} {ms : Table String Score} {c : Contents}

/-- In its turn a call goes to the next stage and removes what this takes, the lowest first. -/
theorem turn_rest (hmembers : v.members key = .ok ms) (hms : Represents ms c) (st : Trimming)
    (hst : st.IsNeeded capacity) :
    ∃ w kept, (st.rest key capacity).turn Server.answerRequest v =
        ((st.next capacity c.size).rest key capacity, w) ∧
      w.members key = .ok kept ∧ Represents kept (c.greatest (c.size - st.excess capacity)) ∧
      ∀ other, other ≠ key → w.values.get? other = v.values.get? other := by
  have hsame : c.greatest (c.size - 0) = c := Contents.greatest_of_size_le (Nat.le_refl _)
  cases st with
  | looking =>
    have hcard := Server.answer_zcard hmembers
    rw [hms.length_pairs] at hcard
    refine ⟨v, ms, (turn_send_bind "len" .uncounted (.zcard key) _ v).trans ?_, hmembers,
      hsame.symm ▸ hms, fun _ _ => rfl⟩
    rw [hcard, next]
    show ((if c.size ≤ capacity then _ else _ : Attempt Nat).run, v) = _
    split <;> rfl
  | cutting seen =>
    obtain ⟨kept, hanswer, hkept⟩ := answer_zremrangeByRank_lowest hmembers hms
      (Nat.sub_pos_of_lt hst)
    refine ⟨v.setMembers key kept, kept, (turn_send _ _ _ v).trans ?_, ?_, hkept, ?_⟩
    · rw [hanswer]
      rfl
    · rw [Server.members_setMembers, if_pos rfl]
    · exact fun other hother => Server.get?_setMembers_of_ne hother
  | tallying gone => exact ⟨v, ms, rfl, hmembers, hsame.symm ▸ hms, fun _ _ => rfl⟩
  | ended gone => exact ⟨v, ms, rfl, hmembers, hsame.symm ▸ hms, fun _ _ => rfl⟩

end Stages

/-! ## Stages and numbers -/

section Tallied

variable {size capacity times found : Nat} {stages front back : List Trimming} {st : Trimming}

/-- What a call at this stage knows, when the entries that are too many of so many were removed so
many times.  Who has come as far as to remove entries is among those who have done so, unless there
are not too many. -/
def Sound (size capacity times : Nat) : Trimming → Prop
  | looking => True
  | cutting seen => seen = size ∧ capacity < size
  | _ => times = 0 → size ≤ capacity

theorem Sound.isNeeded (h : st.Sound size capacity times) : st.IsNeeded capacity := by
  cases st with
  | cutting seen =>
    obtain ⟨rfl, hover⟩ := h
    exact hover
  | _ => trivial

/-- A removal is of the entries that were too many at first. -/
theorem Sound.times_succ (h : st.Sound size capacity times) :
    (times + st.isCutting.toNat) * (size - capacity) =
      times * (size - capacity) + st.excess capacity := by
  cases st with
  | cutting seen =>
    obtain ⟨rfl, -⟩ := h
    exact Nat.succ_mul _ _
  | _ => rfl

theorem Sound.mono (h : st.Sound size capacity times) (n : Nat) :
    st.Sound size capacity (times + n) := by
  cases st with
  | looking => trivial
  | cutting seen => exact h
  | _ => exact fun hzero => h (by omega)

/-- The numbers behind calls at these stages.  Of the calls so many have found all entries. -/
structure Tallied (size capacity times found : Nat) (stages : List Trimming) : Prop where
  total : (stages.map gone).sum + (size - times * (size - capacity)) = size
  /-- Whoever has found all entries has removed some or is about to. -/
  found_eq : capacity < size → found = times + stages.countP isCutting
  looked : found + stages.countP isLooking ≤ stages.length
  sound : ∀ st ∈ stages, st.Sound size capacity times

theorem Tallied.start (size capacity count : Nat) :
    Tallied size capacity 0 0 (List.replicate count looking) where
  total := by simp
  found_eq _ := by simp [List.countP_replicate]
  looked := by simp [List.countP_replicate]
  sound st hst := by
    rw [List.eq_of_mem_replicate hst]
    trivial

/-- When all calls have ended, each that has found all entries has removed some. -/
theorem Tallied.eq_found (h : Tallied size capacity times found stages)
    (hended : ∀ st ∈ stages, ∃ n, st = ended n) (hover : capacity < size) : times = found := by
  have hcutting : stages.countP isCutting = 0 := by
    rw [List.countP_eq_zero]
    intro st hst
    obtain ⟨n, rfl⟩ := hended st hst
    exact Bool.false_ne_true
  rw [h.found_eq hover, hcutting, Nat.add_zero]

/-- One call that has ended is enough for the entries that were too many to be gone. -/
theorem Tallied.times_pos (h : Tallied size capacity times found stages)
    (hended : ∀ st ∈ stages, ∃ n, st = ended n) (hlength : 0 < stages.length)
    (hover : capacity < size) : 0 < times := by
  obtain ⟨st, hst⟩ := List.exists_mem_of_length_pos hlength
  obtain ⟨n, rfl⟩ := hended st hst
  have hsound : times = 0 → size ≤ capacity := h.sound _ hst
  omega

theorem left_le_of_times (h : capacity < size) (htimes : 0 < times) :
    size - times * (size - capacity) ≤ capacity := by
  have hmul : 1 * (size - capacity) ≤ times * (size - capacity) :=
    Nat.mul_le_mul_right _ htimes
  omega

theorem countP_middle (p : Trimming → Bool) (front back : List Trimming) (st : Trimming) :
    (front ++ st :: back).countP p = front.countP p + back.countP p + (p st).toNat := by
  rw [List.countP_append, List.countP_cons, Nat.add_assoc]
  cases p st <;> rfl

/-- To replace the call whose turn it is takes what concerns that call alone. -/
theorem Tallied.replace {times' found' : Nat} {st' : Trimming}
    (h : Tallied size capacity times found (front ++ st :: back)) (htimes : times ≤ times')
    (htotal : st'.gone + (size - times' * (size - capacity)) =
      st.gone + (size - times * (size - capacity)))
    (hfound : capacity < size →
      found' + times + st.isCutting.toNat = found + times' + st'.isCutting.toNat)
    (hlooked : found' + st'.isLooking.toNat ≤ found + st.isLooking.toNat)
    (hsound : st'.Sound size capacity times') :
    Tallied size capacity times' found' (front ++ st' :: back) where
  total := by
    have hbefore := h.total
    rw [List.map_append, List.map_cons, List.sum_append, List.sum_cons] at hbefore ⊢
    omega
  found_eq hover := by
    have hbefore := h.found_eq hover
    have hown := hfound hover
    rw [countP_middle] at hbefore ⊢
    omega
  looked := by
    have hbefore := h.looked
    rw [countP_middle, List.length_append, List.length_cons] at hbefore ⊢
    omega
  sound other hmem := by
    rw [List.mem_append, List.mem_cons] at hmem
    have hothers := fun hmem => (h.sound other hmem).mono (times' - times)
    rw [Nat.add_sub_cancel' htimes, List.mem_append, List.mem_cons] at hothers
    rcases hmem with hmem | rfl | hmem
    · exact hothers (.inl hmem)
    · exact hsound
    · exact hothers (.inr (.inr hmem))

theorem Tallied.step (h : Tallied size capacity times found (front ++ st :: back)) :
    Tallied size capacity (times + st.isCutting.toNat)
      (found + if st.isLooking = true ∧ size - times * (size - capacity) = size then 1 else 0)
      (front ++ st.next capacity (size - times * (size - capacity)) :: back) := by
  have hst := h.sound st (List.mem_append_right _ List.mem_cons_self)
  cases st with
  | looking =>
    rw [next]
    by_cases hfits : size - times * (size - capacity) ≤ capacity
    · rw [if_pos hfits]
      refine h.replace (Nat.le_refl _) rfl (fun hover => ?_) ?_ ?_
      · rw [if_neg (by omega)]
        rfl
      · split <;> simp
      · intro hzero
        obtain rfl : times = 0 := hzero
        omega
    · -- Only who comes before the first removal finds too many.
      have hover : capacity < size := by omega
      obtain rfl : times = 0 := by
        by_contra hne
        exact hfits (left_le_of_times hover (Nat.pos_of_ne_zero hne))
      rw [if_neg hfits, Nat.zero_mul, Nat.sub_zero, if_pos ⟨rfl, rfl⟩]
      exact h.replace (Nat.le_refl _) (by simp) (by simp) (by simp) ⟨rfl, hover⟩
  | cutting seen =>
    obtain ⟨rfl, hover⟩ := hst
    refine h.replace (Nat.le_succ _) ?_ (fun _ => ?_) (Nat.le_refl _) nofun
    · show min (seen - capacity) (seen - times * (seen - capacity)) +
        (seen - (times + 1) * (seen - capacity)) = 0 + (seen - times * (seen - capacity))
      rw [Nat.succ_mul]
      omega
    · show found + times + 1 = found + (times + 1)
      omega
  | tallying n => exact h.replace (Nat.le_refl _) rfl (fun _ => rfl) (Nat.le_refl _) hst
  | ended n => exact h.replace (Nat.le_refl _) rfl (fun _ => rfl) (Nat.le_refl _) hst

end Tallied

/-! ## Calls that take turns -/

/-- The call whose turn it is looks how many entries there are, and finds so many. -/
def finds (key : String) (n : Nat) (m : Turn Server Request) : Bool :=
  decide (m.request = .single (.zcard key)) && decide ((m.state.answer (.zcard key)).1 = .ok n)

def turns (key : String) (capacity : Nat) (v : Server) (i : Nat) (st : Trimming) :
    List (Turn Server Request) :=
  (st.rest key capacity).asked.map fun q => ⟨⟨v, q⟩, i⟩

section Underway

variable {key : String} {capacity : Nat} {v v₀ : Server} {ms : Table String Score} {c : Contents}

theorem countP_turns (hmembers : v.members key = .ok ms) (hms : Represents ms c)
    (capacity n i : Nat) (st : Trimming) :
    (st.turns key capacity v i).countP (finds key n) =
      if st.isLooking = true ∧ c.size = n then 1 else 0 := by
  cases st with
  | looking =>
    have hcard := Server.answer_zcard hmembers
    rw [hms.length_pairs] at hcard
    show List.countP (finds key n) [⟨⟨v, .single (.zcard key)⟩, i⟩] = _
    rw [List.countP_singleton, finds, hcard]
    simp [isLooking]
  | cutting seen => rfl
  | tallying gone => rfl
  | ended gone => rfl

/-- The calls at these stages have come so far that the entries that are too many were removed so
many times, and each has removed what was there of them. -/
structure Underway (v₀ : Server) (key : String) (capacity : Nat) (c : Contents) (times : Nat)
    (before : List (Turn Server Request)) (stages : List Trimming) (v : Server) : Prop where
  members : ∃ kept, v.members key = .ok kept ∧
    Represents kept (c.greatest (c.size - times * (c.size - capacity)))
  others : ∀ other, other ≠ key → v.values.get? other = v₀.values.get? other
  tallied : Tallied c.size capacity times (before.countP (finds key c.size)) stages

theorem Underway.step {times : Nat} {before : List (Turn Server Request)}
    {front back : List Trimming} {st : Trimming}
    (h : Underway v₀ key capacity c times before (front ++ st :: back) v) (i : Nat) :
    ∃ times' st' w, (st.rest key capacity).turn Server.answerRequest v =
        (st'.rest key capacity, w) ∧
      Underway v₀ key capacity c times' (before ++ st.turns key capacity v i)
        (front ++ st' :: back) w := by
  obtain ⟨kept, hmembers, hkept⟩ := h.members
  have hst := h.tallied.sound st (List.mem_append_right _ List.mem_cons_self)
  obtain ⟨w, kept', hturn, hmembers', hkept', hothers⟩ :=
    turn_rest hmembers hkept st hst.isNeeded
  have hcount := countP_turns hmembers hkept capacity c.size i st
  have hleft : c.size - times * (c.size - capacity) ≤ c.size := Nat.sub_le _ _
  rw [Contents.size_greatest, Nat.min_eq_right hleft] at hturn hcount hkept'
  rw [Contents.greatest_greatest (Nat.sub_le _ _) hleft, Nat.sub_sub, ← hst.times_succ] at hkept'
  refine ⟨_, _, w, hturn, ⟨kept', hmembers', hkept'⟩,
    fun other hne => (hothers other hne).trans (h.others other hne), ?_⟩
  rw [List.countP_append, hcount]
  exact h.tallied.step

theorem Underway.start (hmembers : v.members key = .ok ms) (hms : Represents ms c)
    (capacity count : Nat) :
    Underway v key capacity c 0 [] (List.replicate count looking) v where
  members := by
    rw [Nat.zero_mul, Nat.sub_zero, Contents.greatest_of_size_le (Nat.le_refl _)]
    exact ⟨ms, hmembers, hms⟩
  others _ _ := rfl
  tallied := .start c.size capacity count

/-- Calls that take turns go from stage to stage. -/
theorem exists_underway (hmembers : v.members key = .ok ms) (hms : Represents ms c)
    (capacity count : Nat) (schedule : List Nat) :
    ∃ times stages,
      (Routine.interleave Server.answerRequest schedule
        (List.replicate count (Index.trim key capacity).run) v).1 =
          stages.map (rest key capacity) ∧
      stages.length = count ∧
      Underway v key capacity c times (Routine.turns Server.answerRequest schedule
        (List.replicate count (Index.trim key capacity).run) v) stages
        (Routine.interleave Server.answerRequest schedule
          (List.replicate count (Index.trim key capacity).run) v).2 := by
  let P before ps w := ∃ times stages, ps = stages.map (rest key capacity) ∧
    stages.length = count ∧ Underway v key capacity c times before stages w
  have hfirst : P [] (List.replicate count (Index.trim key capacity).run) v := by
    refine ⟨0, List.replicate count looking, ?_, List.length_replicate,
      .start hmembers hms capacity count⟩
    rw [List.map_replicate]
    rfl
  refine Routine.interleave_keeps (P := P) (fun before ps w i p hP hp => ?_) schedule hfirst
  obtain ⟨times, stages, rfl, hlength, hunderway⟩ := hP
  rw [List.getElem?_map, Option.map_eq_some_iff] at hp
  obtain ⟨st, hst, rfl⟩ := hp
  obtain ⟨hi, hst⟩ := List.getElem?_eq_some_iff.mp hst
  obtain ⟨front, back, hsplit, hfront, -⟩ := @List.exists_of_set _ i st stages hi
  rw [hst] at hsplit
  subst hsplit hfront
  obtain ⟨times', st', w', hturn, hunderway'⟩ := hunderway.step front.length
  rw [hturn]
  refine ⟨times', front ++ st' :: back, ?_, ?_, hunderway'⟩
  · rw [← List.map_set, List.set_append_right _ _ (Nat.le_refl _), Nat.sub_self, List.set_cons_zero]
  · rw [← hlength, List.length_append, List.length_append]
    rfl

end Underway

/-! ## Calls that have ended -/

theorem endsIn_trim (key : String) (capacity : Nat) :
    (Index.trim key capacity).run.EndsIn Server.answerRequest (fun _ => True) 3 := by
  refine ⟨by decide, fun v => ?_⟩
  show Routine.EndsIn _ _ (Routine.bind (counted "len" .uncounted (v.answer (.zcard key)).1).run _) 2
  cases (v.answer (.zcard key)).1 with
  | error e => exact ⟨by decide, fun _ => trivial⟩
  | ok n =>
    show Routine.EndsIn _ _ (ExceptT.run (if n ≤ capacity then _ else _)) 2
    split
    · trivial
    · refine ⟨by decide, fun w => ?_⟩
      show Routine.EndsIn _ _ (counted "trim" .write (w.answer (.zremrangeByRank key 0 _)).1).run 1
      cases (w.answer (.zremrangeByRank key 0 ((n - capacity : Nat) - 1))).1 with
      | error e => exact ⟨by decide, fun _ => trivial⟩
      | ok gone => exact ⟨by decide, fun _ => trivial⟩

theorem eq_ended_of_rest {key : String} {capacity : Nat} {st : Trimming}
    {result : Except StoreError Nat} (h : st.rest key capacity = .done result) :
    ∃ n, st = ended n := by
  cases st with
  | ended n => exact ⟨n, rfl⟩
  | _ => nomatch h

/-- A call that has had a turn for each of its requests has ended. -/
theorem ended_of_turns {key : String} {capacity count i : Nat} {schedule : List Nat}
    {st : Trimming} (hi : i < count) (hturns : 3 ≤ schedule.count i) (v : Server)
    (hst : (Routine.interleave Server.answerRequest schedule
      (List.replicate count (Index.trim key capacity).run) v).1[i]? =
        some (st.rest key capacity)) :
    ∃ n, st = ended n := by
  have hbegun : (List.replicate count (Index.trim key capacity).run)[i]? =
      some (Index.trim key capacity).run := by
    rw [List.getElem?_replicate, if_pos hi]
  obtain ⟨left, hleft, hends⟩ := (endsIn_trim key capacity).interleave schedule hbegun v
  obtain rfl := Option.some.inj (hleft.symm.trans hst)
  have hdone := hends.mono (Nat.le_of_eq (Nat.sub_eq_zero_of_le hturns))
  obtain ⟨result, hresult, -⟩ := hdone.done_of_zero
  exact eq_ended_of_rest hresult

end Trimming

namespace Index

/-- Trims that have ended have left the highest entries, and each has said how many it removed. -/
structure Trimmed (v : Server) (key : String) (c kept : Contents)
    (after : List (Exchange (Except StoreError Nat)) × Server) (count : Nat) : Prop where
  members : ∃ ms, after.2.members key = .ok ms ∧ Represents ms kept
  others : ∀ other, other ≠ key → after.2.values.get? other = v.values.get? other
  removed : ∃ gone : List Nat, after.1 = gone.map (fun n => .done (.ok n)) ∧ gone.length = count ∧
    gone.sum + kept.size = c.size

section Trims

variable {σ : Type} {answer : σ → (r : Request) → r.Reply × σ} {view : σ → Server} {s : σ}
  {key : String} {v : Server} {ms : Table String Score} {c : Contents} {count : Nat}
  {schedule : List Nat}

/-- Together the calls have removed the entries that are too many as often as one of them has found
all entries. -/
theorem trimmed_of_turns (hmembers : v.members key = .ok ms) (hms : Represents ms c)
    (capacity : Nat) (hcount : 0 < count) (hturns : ∀ i < count, 3 ≤ schedule.count i)
    {early : Nat}
    (hearly : (Routine.turns Server.answerRequest schedule
      (List.replicate count (trim key capacity).run) v).countP
        (Trimming.finds key c.size) = early) :
    Trimmed v key c (c.greatest (c.size - early * (c.size - capacity)))
      (Routine.interleave Server.answerRequest schedule
        (List.replicate count (trim key capacity).run) v) count ∧
      early ≤ count ∧ (capacity < c.size → 0 < early) := by
  obtain ⟨times, stages, hps, rfl, hunderway⟩ :=
    Trimming.exists_underway hmembers hms capacity count schedule
  have hended : ∀ st ∈ stages, ∃ n, st = .ended n := by
    intro st hst
    obtain ⟨i, hi, rfl⟩ := List.mem_iff_getElem.mp hst
    have hleft := congrArg (·[i]?) hps
    simp only [List.getElem?_map, List.getElem?_eq_getElem hi, Option.map_some] at hleft
    exact Trimming.ended_of_turns hi (hturns i hi) v hleft
  have htallied := hunderway.tallied
  rw [hearly] at htallied
  have hleft : c.size - times * (c.size - capacity) = c.size - early * (c.size - capacity) := by
    by_cases hover : capacity < c.size
    · rw [htallied.eq_found hended hover]
    · rw [Nat.sub_eq_zero_of_le (Nat.le_of_not_lt hover), Nat.mul_zero, Nat.mul_zero]
  have hkept := hunderway.members
  have htotal := htallied.total
  rw [hleft] at hkept htotal
  refine ⟨⟨hkept, hunderway.others, stages.map Trimming.gone, ?_, List.length_map _, ?_⟩, ?_,
    fun hover => ?_⟩
  · rw [hps, List.map_map]
    refine List.map_congr_left fun st hst => ?_
    obtain ⟨n, rfl⟩ := hended st hst
    rfl
  · rw [Contents.size_greatest, Nat.min_eq_right (Nat.sub_le _ _)]
    exact htotal
  · have hlooked := htallied.looked
    omega
  · rw [← htallied.eq_found hended hover]
    exact htallied.times_pos hended hcount hover

/-- Whether the highest entries that were to be kept are those that are left. -/
theorem greatest_left_eq_iff {capacity early : Nat} (hearly : capacity < c.size → 0 < early) :
    c.greatest (c.size - early * (c.size - capacity)) = c.greatest capacity ↔
      c.size ≤ capacity ∨ capacity = 0 ∨ early = 1 := by
  have hsizes : c.greatest (c.size - early * (c.size - capacity)) = c.greatest capacity ↔
      c.size - early * (c.size - capacity) = min c.size capacity := by
    constructor
    · intro heq
      have hsize := congrArg Contents.size heq
      rwa [Contents.size_greatest, Contents.size_greatest, Nat.min_eq_right (Nat.sub_le _ _)]
        at hsize
    · intro heq
      rw [heq]
      rcases Nat.le_total c.size capacity with hle | hle
      · rw [Nat.min_eq_left hle, Contents.greatest_of_size_le (Nat.le_refl _),
          Contents.greatest_of_size_le hle]
      · rw [Nat.min_eq_right hle]
  rw [hsizes]
  by_cases hover : capacity < c.size
  · obtain rfl | htwice : early = 1 ∨ 2 ≤ early := by
      have hpos := hearly hover
      omega
    · omega
    · -- The second removal goes below the capacity, if it is not zero.
      have hmul : 2 * (c.size - capacity) ≤ early * (c.size - capacity) :=
        Nat.mul_le_mul_right _ htwice
      omega
  · rw [Nat.sub_eq_zero_of_le (Nat.le_of_not_lt hover)]
    omega

/-- Trims that take turns, however they do, remove what they say.  They leave the highest entries
up to the capacity exactly if one of them alone has found all entries, or if there is nothing to
trim or nothing to keep.  Each further call that has found all entries removes as many again as
were too many. -/
theorem trims_keep_greatest_iff (h : ActsAs answer view) (hmembers : (view s).members key = .ok ms)
    (hms : Represents ms c) (capacity : Nat) (hcount : 0 < count)
    (hturns : ∀ i < count, 3 ≤ schedule.count i) :
    let trims := List.replicate count (trim key capacity).run
    let after := (Routine.interleave answer schedule trims s).map id view
    let early := ((Routine.turns answer schedule trims s).map (Turn.seen view)).countP
      (Trimming.finds key c.size)
    ∃ kept, Trimmed (view s) key c kept after count ∧
      kept = c.greatest (c.size - early * (c.size - capacity)) ∧ early ≤ count ∧
      (kept = c.greatest capacity ↔ c.size ≤ capacity ∨ capacity = 0 ∨ early = 1) := by
  intro trims after early
  obtain ⟨hafter, hseen⟩ := h.seenAs.interleave schedule trims s
  obtain ⟨htrimmed, hle, hpos⟩ := trimmed_of_turns hmembers hms capacity hcount hturns
    (congrArg (List.countP (Trimming.finds key c.size)) hseen.symm : _ = early)
  rw [← hafter] at htrimmed
  exact ⟨_, htrimmed, rfl, hle, greatest_left_eq_iff hpos⟩

end Trims

def threeEntries : List Entry := [⟨1, ⟨1⟩⟩, ⟨2, ⟨2⟩⟩, ⟨3, ⟨3⟩⟩]

abbrev three : Contents := Contents.writeAll ∅ threeEntries

def threeMembers : Table String Score :=
  Table.setAll ∅ (threeEntries.map fun e => (encodeMember e.id, e.score))

def feedOfThree : Server := Server.empty.setMembers "feed" threeMembers

theorem members_feedOfThree : feedOfThree.members "feed" = .ok threeMembers := by
  rw [feedOfThree, Server.members_setMembers, if_pos rfl]

theorem represents_threeMembers : Represents threeMembers three := by
  have hstored : ∀ e ∈ threeEntries, e.score.isFinite = true ∧ e.score ≠ Score.negativeZero := by
    decide
  exact Represents.empty.writeAll hstored

theorem size_three : three.size = 3 := by
  rw [← represents_threeMembers.length_pairs]
  decide

/-- A call that is alone finds all entries, and keeps as many as it should. -/
theorem trims_keep_greatest_iff_alone :
    Trimmed feedOfThree "feed" three (three.greatest 2)
      (Routine.interleave Server.answerRequest [0, 0, 0] [(trim "feed" 2).run] feedOfThree) 1 := by
  have hturns : ∀ i < 1, 3 ≤ [0, 0, 0].count i := by decide
  obtain ⟨kept, htrimmed, -, hle, hkept⟩ := trims_keep_greatest_iff (s := feedOfThree)
    actsAs_answerRequest members_feedOfThree represents_threeMembers 2 Nat.one_pos hturns
  rw [Turn.map_seen_id] at hle hkept
  have hfirst : (Routine.turns Server.answerRequest [0] [(trim "feed" 2).run] feedOfThree).countP
      (Trimming.finds "feed" 3) = 1 := by
    decide +kernel
  have hsplit := Routine.turns_append Server.answerRequest [0] [0, 0] [(trim "feed" 2).run]
    feedOfThree
  rw [size_three] at hle hkept
  rw [show List.replicate 1 (trim "feed" 2).run = [(trim "feed" 2).run] from rfl,
    show [0, 0, 0] = [0] ++ [0, 0] from rfl, hsplit, List.countP_append, hfirst] at hle hkept
  obtain rfl := hkept.mpr (by omega)
  exact htrimmed

/-- Of two calls both find three entries, and remove one each. -/
theorem trims_fall_short :
    let after := Routine.interleave Server.answerRequest [0, 1, 0, 1, 0, 1]
      [(trim "feed" 2).run, (trim "feed" 2).run] feedOfThree
    (feedOfThree.answer (.zcard "feed")).1 = .ok 3 ∧ (after.2.answer (.zcard "feed")).1 = .ok 1 ∧
      ∃ gone : List Nat, after.1 = gone.map (fun n => .done (.ok n)) ∧ gone.sum = 2 := by
  intro after
  have hboth : (Routine.turns Server.answerRequest [0, 1]
      [(trim "feed" 2).run, (trim "feed" 2).run] feedOfThree).countP (Trimming.finds "feed" 3) =
        2 := by
    decide +kernel
  have hsplit := Routine.turns_append Server.answerRequest [0, 1] [0, 1, 0, 1]
    [(trim "feed" 2).run, (trim "feed" 2).run] feedOfThree
  have hturns : ∀ i < 2, 3 ≤ ([0, 1] ++ [0, 1, 0, 1]).count i := by decide
  obtain ⟨htrimmed, hle, -⟩ := trimmed_of_turns members_feedOfThree represents_threeMembers 2
    Nat.two_pos hturns rfl
  rw [size_three, show List.replicate 2 (trim "feed" 2).run =
    [(trim "feed" 2).run, (trim "feed" 2).run] from rfl, hsplit, List.countP_append, hboth]
    at hle htrimmed
  generalize List.countP (Trimming.finds "feed" 3) _ = more at hle htrimmed
  obtain rfl : more = 0 := by omega
  have hsize : (three.greatest (3 - (2 + 0) * (3 - 2))).size = 1 := by
    rw [Contents.size_greatest, size_three]
    rfl
  obtain ⟨⟨kept, hkept, hrepresents⟩, -, gone, hgone, -, htotal⟩ := htrimmed
  rw [hsize, size_three] at htotal
  refine ⟨?_, ?_, gone, hgone, by omega⟩
  · rw [Server.answer_zcard members_feedOfThree]
    rfl
  · have hcard := Server.answer_zcard hkept
    rw [hrepresents.length_pairs, hsize] at hcard
    exact congrArg Prod.fst hcard

end Index
end Redis
end WarmFeed
