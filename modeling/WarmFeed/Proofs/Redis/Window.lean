import WarmFeed.Proofs.Redis.Rows

/-!
# Windows by ranges of scores

A sorted set is asked for ranges of scores, and a window is bounded by positions.
Without a leading boundary everything from the outer end to the score of the
trailing boundary is read, up to the limit; what does not belong to the window
comes last, so the limit cuts off nothing that does.  With a leading boundary
its score is read in full, because the entries of that score can stand on either
side of it, and what lies strictly beyond is read up to the limit.
-/

namespace WarmFeed

def Bound.isFinite : Bound → Bool
  | .unbounded => true
  | .exclusive p => p.score.isFinite

/-- Whether a position is on the inner side of the boundary that the walk starts from. -/
def RangeQuery.isPastStart (q : RangeQuery) (p : Position) : Bool :=
  match q.direction with
  | .ascending => q.lower.isBelow p
  | .descending => q.upper.isAbove p

namespace Redis

open SortedSet

/-! ## One read and two reads -/

section Reads

variable {W : List Position} {contains bounds tied beyond : Position → Bool}

theorem take_min_of_length_le {α : Type} {l : List α} {most : Nat} (h : l.length ≤ most)
    (n : Nat) : l.take (min n most) = l.take n := by
  rcases Nat.le_total n most with hn | hn
  · rw [Nat.min_eq_left hn]
  · rw [Nat.min_eq_right hn, List.take_of_length_le h, List.take_of_length_le (h.trans hn)]

/-- If what is read holds the window, and holds it first, a read up to the limit does. -/
theorem one_read (hbounds : ∀ p ∈ W, contains p = true → bounds p = true)
    (hsplit : SplitBy contains (W.filter bounds)) (n : Nat) :
    (((W.filter bounds).take n).filter contains).take n = (W.filter contains).take n := by
  have hfilter : (W.filter bounds).filter contains = W.filter contains := by
    rw [List.filter_filter]
    refine List.filter_congr fun p hp => ?_
    cases hc : contains p with
    | false => rfl
    | true => rw [hbounds p hp hc, Bool.true_and]
  rw [hsplit.filter_take, hfilter, List.take_take, Nat.min_self]

/-- If the window consists of tied entries and then of entries beyond, and the latter
come first among all that lies beyond, it is enough to read that part up to the limit. -/
theorem two_reads (htied : SplitBy tied (W.filter contains))
    (hbeyond : ∀ p ∈ W, contains p = true → beyond p = !tied p)
    (hsplit : SplitBy contains (W.filter beyond)) (n : Nat) :
    ((W.filter tied ++ (W.filter beyond).take n).filter contains).take n =
      (W.filter contains).take n := by
  have hwindow : (W.filter tied).filter contains ++ (W.filter beyond).filter contains =
      W.filter contains := by
    rw [← htied.append_filter, List.filter_filter, List.filter_filter, List.filter_filter,
      List.filter_filter]
    refine congrArg₂ (· ++ ·) (List.filter_congr fun p _ => Bool.and_comm _ _)
      (List.filter_congr fun p hp => ?_)
    cases hc : contains p with
    | false => rw [Bool.false_and, Bool.and_false]
    | true => rw [hbeyond p hp hc, Bool.true_and, Bool.and_true]
  rw [List.filter_append, hsplit.filter_take, ← hwindow, List.take_append, List.take_append,
    List.take_take, Nat.min_eq_left (Nat.sub_le _ _)]

end Reads

/-! ## Scores at the boundaries -/

theorem isFrom_limitOf {b : Bound} {p : Position} (hb : b.isFinite = true)
    (hp : p.score.isFinite = true) (h : b.isBelow p = true) :
    isFrom (Index.limitOf b .lowest) p.score = true := by
  cases b with
  | unbounded => rfl
  | exclusive b =>
    have hle := Position.signedMagnitude_le_of_lt (Position.isAfter_iff.mp h)
    show (!p.score.below b.score) = true
    rw [Bool.not_eq_true', ← Bool.not_eq_true, Score.below_iff hp hb]
    omega

theorem isUpTo_limitOf {b : Bound} {p : Position} (hb : b.isFinite = true)
    (hp : p.score.isFinite = true) (h : b.isAbove p = true) :
    isUpTo (Index.limitOf b .highest) p.score = true := by
  cases b with
  | unbounded => rfl
  | exclusive b =>
    have hle := Position.signedMagnitude_le_of_lt (Position.isBefore_iff.mp h)
    show (!b.score.below p.score) = true
    rw [Bool.not_eq_true', ← Bool.not_eq_true, Score.below_iff hb hp]
    omega

/-- Both ends at one score leave the entries of that number. -/
theorem isTied_iff {s t : Score} (hs : s.isFinite = true) (ht : t.isFinite = true) :
    (isFrom (.tied t) s && isUpTo (.tied t) s) = true ↔ s.signedMagnitude = t.signedMagnitude := by
  show (!s.below t && !t.below s) = true ↔ _
  rw [Bool.and_eq_true, Bool.not_eq_true', Bool.not_eq_true', ← Bool.not_eq_true,
    ← Bool.not_eq_true, Score.below_iff hs ht, Score.below_iff ht hs]
  omega

/-! ## The walk -/

def walk (up : Bool) (c : Contents) : List Position :=
  if up then c.ascending else c.ascending.reverse

theorem range_eq_walk (c : Contents) (q : RangeQuery) :
    c.range q =
      (((walk (decide (q.direction = .ascending)) c).filter q.contains).take q.limit).map
        Position.id := by
  unfold Contents.range Contents.window walk
  cases q.direction with
  | ascending => rfl
  | descending => simp

def inScores (low high : ScoreLimit) (p : Position) : Bool :=
  isFrom low p.score && isUpTo high p.score

section InRange

variable {ms : Table String Score} {c : Contents} (h : Represents ms c) (up : Bool)
  (low high : ScoreLimit)

include h

theorem inRange_none :
    inRange up low high none ms = ((walk up c).filter (inScores low high)).map rowOf := by
  have hfilter : (rows ms).filter (fun r => isFrom low r.2 && isUpTo high r.2) =
      (c.ascending.filter (inScores low high)).map rowOf := by
    rw [h.rows_eq, List.filter_map]
    rfl
  unfold inRange
  rw [hfilter]
  cases up
  · simp [walk]
  · rfl

theorem inRange_some (n : Nat) :
    inRange up low high (some n) ms =
      (((walk up c).filter (inScores low high)).take n).map rowOf := by
  rw [List.map_take, ← inRange_none h]
  rfl

end InRange

section Walk

variable {c : Contents} {q : RangeQuery}

theorem mem_walk {up : Bool} {p : Position} : p ∈ walk up c ↔ p ∈ c.ascending := by
  cases up
  · exact List.mem_reverse
  · exact Iff.rfl

theorem pairwise_walk (c : Contents) (up : Bool) :
    (walk up c).Pairwise fun a b => if up then a < b else b < a := by
  cases up
  · exact List.pairwise_reverse.mpr c.pairwise_ascending
  · exact c.pairwise_ascending

theorem isPastStart_of_contains {p : Position} (h : q.contains p = true) :
    q.isPastStart p = true := by
  unfold RangeQuery.contains at h
  rw [Bool.and_eq_true] at h
  unfold RangeQuery.isPastStart
  cases q.direction
  · exact h.1
  · exact h.2

/-- Of two entries past the start, the one that comes first is in the window if the other
one is. -/
theorem contains_of_pairwise {a b : Position}
    (hab : if decide (q.direction = .ascending) then a < b else b < a)
    (hstart : q.isPastStart a = true) (hb : q.contains b = true) : q.contains a = true := by
  unfold RangeQuery.isPastStart at hstart
  unfold RangeQuery.contains at hb ⊢
  rw [Bool.and_eq_true] at hb ⊢
  cases hd : q.direction with
  | ascending =>
    rw [hd] at hab hstart
    have hlt : a < b := hab
    refine ⟨hstart, ?_⟩
    cases hupper : q.upper with
    | unbounded => rfl
    | exclusive u =>
      rw [hupper] at hb
      exact Position.isBefore_iff.mpr (hlt.trans (Position.isBefore_iff.mp hb.2))
  | descending =>
    rw [hd] at hab hstart
    have hlt : b < a := hab
    refine ⟨?_, hstart⟩
    cases hlower : q.lower with
    | unbounded => rfl
    | exclusive l =>
      rw [hlower] at hb
      exact Position.isAfter_iff.mpr ((Position.isAfter_iff.mp hb.1).trans hlt)

theorem splitBy_contains {test : Position → Bool}
    (hstart : ∀ p ∈ c.ascending, test p = true → q.isPastStart p = true) :
    SplitBy q.contains ((walk (decide (q.direction = .ascending)) c).filter test) := by
  refine List.Pairwise.imp_of_mem ?_ ((pairwise_walk c _).filter test)
  intro a b ha _ hab hb
  obtain ⟨hmem, htest⟩ := List.mem_filter.mp ha
  exact contains_of_pairwise hab (hstart a (mem_walk.mp hmem) htest) hb

/-! ## Beyond the leading score -/

/-- How far the walk is past a score when it comes to an entry. -/
def advance (q : RangeQuery) (s : Score) (p : Position) : Int :=
  if decide (q.direction = .ascending) then p.score.signedMagnitude - s.signedMagnitude
  else s.signedMagnitude - p.score.signedMagnitude

/-- The range of scores strictly beyond a score, as far as the other boundary. -/
def restOf (q : RangeQuery) (s : Score) : ScoreLimit × ScoreLimit :=
  if decide (q.direction = .ascending) then (.exclusive s, Index.limitOf q.upper .highest)
  else (Index.limitOf q.lower .lowest, .exclusive s)

theorem advance_le {a b : Position} (s : Score)
    (hab : if decide (q.direction = .ascending) then a < b else b < a) :
    advance q s a ≤ advance q s b := by
  unfold advance
  split at hab
  · have hle := Position.signedMagnitude_le_of_lt hab
    rename_i hup
    rw [if_pos hup, if_pos hup]
    omega
  · have hle := Position.signedMagnitude_le_of_lt hab
    rename_i hdown
    rw [if_neg hdown, if_neg hdown]
    omega

theorem inScores_tied {s : Score} {p : Position} (hs : s.isFinite = true)
    (hp : p.score.isFinite = true) :
    inScores (.tied s) (.tied s) p = true ↔ advance q s p = 0 := by
  rw [inScores, isTied_iff hp hs, advance]
  split <;> omega

section Leading

variable {b p : Position} (hleading : q.leading = .exclusive b)

include hleading

theorem advance_nonneg (h : q.isPastStart p = true) : 0 ≤ advance q b.score p := by
  unfold RangeQuery.isPastStart at h
  unfold RangeQuery.leading at hleading
  unfold advance
  cases hd : q.direction with
  | ascending =>
    rw [hd] at h hleading
    rw [show q.lower = .exclusive b from hleading] at h
    have hle := Position.signedMagnitude_le_of_lt (Position.isAfter_iff.mp h)
    rw [if_pos (by decide)]
    omega
  | descending =>
    rw [hd] at h hleading
    rw [show q.upper = .exclusive b from hleading] at h
    have hle := Position.signedMagnitude_le_of_lt (Position.isBefore_iff.mp h)
    rw [if_neg (by decide)]
    omega

theorem isPastStart_of_advance (h : 0 < advance q b.score p) : q.isPastStart p = true := by
  unfold advance at h
  unfold RangeQuery.leading at hleading
  unfold RangeQuery.isPastStart
  cases hd : q.direction with
  | ascending =>
    rw [hd] at h hleading
    rw [if_pos (by decide)] at h
    rw [show q.lower = .exclusive b from hleading]
    exact Position.isAfter_iff.mpr (Position.lt_of_signedMagnitude_lt (by omega))
  | descending =>
    rw [hd] at h hleading
    rw [if_neg (by decide)] at h
    rw [show q.upper = .exclusive b from hleading]
    exact Position.isBefore_iff.mpr (Position.lt_of_signedMagnitude_lt (by omega))

end Leading

theorem advance_of_inScores {s : Score} {p : Position} (hs : s.isFinite = true)
    (hp : p.score.isFinite = true)
    (h : inScores (restOf q s).1 (restOf q s).2 p = true) : 0 < advance q s p := by
  unfold inScores restOf at h
  unfold advance
  rw [Bool.and_eq_true] at h
  split at h
  · rename_i hup
    have hbelow := (Score.below_iff hs hp).mp h.1
    rw [if_pos hup]
    omega
  · rename_i hdown
    have hbelow := (Score.below_iff hp hs).mp h.2
    rw [if_neg hdown]
    omega

theorem inScores_of_advance {s : Score} {p : Position} (hs : s.isFinite = true)
    (hlower : q.lower.isFinite = true) (hupper : q.upper.isFinite = true)
    (hp : p.score.isFinite = true) (hcontains : q.contains p = true)
    (h : 0 < advance q s p) : inScores (restOf q s).1 (restOf q s).2 p = true := by
  unfold RangeQuery.contains at hcontains
  rw [Bool.and_eq_true] at hcontains
  unfold advance at h
  unfold inScores restOf
  rw [Bool.and_eq_true]
  split at h
  · rename_i hup
    rw [if_pos hup]
    exact ⟨(Score.below_iff hs hp).mpr (by omega), isUpTo_limitOf hupper hp hcontains.2⟩
  · rename_i hdown
    rw [if_neg hdown]
    exact ⟨isFrom_limitOf hlower hp hcontains.1, (Score.below_iff hp hs).mpr (by omega)⟩

end Walk

/-! ## The window -/

section Collect

variable {ms : Table String Score} {c : Contents} {q : RangeQuery} (h : Represents ms c)
  (hlower : q.lower.isFinite = true) (hupper : q.upper.isFinite = true)
  (hsize : c.size ≤ greatestRank)

theorem length_filter_walk_le (up : Bool) (test : Position → Bool) (c : Contents) :
    ((walk up c).filter test).length ≤ c.size := by
  refine (List.length_filter_le _ _).trans (Nat.le_of_eq ?_)
  rw [← Contents.length_ascending]
  cases up
  · exact List.length_reverse
  · rfl

include h hlower hupper hsize

theorem collect_one_read (hleading : q.leading = .unbounded) :
    collectWindow q q.limit
      (inRange (decide (q.direction = .ascending)) (Index.limitOf q.lower .lowest)
        (Index.limitOf q.upper .highest) (some (min q.limit greatestRank)) ms) =
      .ok (c.range q) := by
  have hcut := take_min_of_length_le
    ((length_filter_walk_le (decide (q.direction = .ascending))
      (inScores (Index.limitOf q.lower .lowest) (Index.limitOf q.upper .highest)) c).trans hsize)
    q.limit
  have hstart : ∀ p, q.isPastStart p = true := by
    intro p
    unfold RangeQuery.leading at hleading
    unfold RangeQuery.isPastStart
    cases hd : q.direction with
    | ascending =>
      rw [hd] at hleading
      rw [show q.lower = .unbounded from hleading]
      rfl
    | descending =>
      rw [hd] at hleading
      rw [show q.upper = .unbounded from hleading]
      rfl
  rw [inRange_some h, hcut, collectWindow_rowOf, range_eq_walk, one_read]
  · intro p hp hcontains
    have hfinite := (h.stored p (mem_walk.mp hp)).1
    unfold RangeQuery.contains at hcontains
    rw [Bool.and_eq_true] at hcontains
    rw [inScores, Bool.and_eq_true]
    exact ⟨isFrom_limitOf hlower hfinite hcontains.1, isUpTo_limitOf hupper hfinite hcontains.2⟩
  · exact splitBy_contains fun p _ _ => hstart p

theorem collect_two_reads {b : Position} (hleading : q.leading = .exclusive b) :
    collectWindow q q.limit
      (inRange (decide (q.direction = .ascending)) (.tied b.score) (.tied b.score) none ms ++
        inRange (decide (q.direction = .ascending)) (restOf q b.score).1 (restOf q b.score).2
          (some (min q.limit greatestRank)) ms) =
      .ok (c.range q) := by
  have hcut := take_min_of_length_le
    ((length_filter_walk_le (decide (q.direction = .ascending))
      (inScores (restOf q b.score).1 (restOf q b.score).2) c).trans hsize) q.limit
  have hb : b.score.isFinite = true := by
    unfold RangeQuery.leading at hleading
    cases hd : q.direction <;> rw [hd] at hleading
    · rwa [show q.lower = .exclusive b from hleading] at hlower
    · rwa [show q.upper = .exclusive b from hleading] at hupper
  have hfinite : ∀ p ∈ walk (decide (q.direction = .ascending)) c, p.score.isFinite = true :=
    fun p hp => (h.stored p (mem_walk.mp hp)).1
  have hpast : ∀ p, q.contains p = true → 0 ≤ advance q b.score p := fun p hp =>
    advance_nonneg hleading (isPastStart_of_contains hp)
  rw [inRange_none h, inRange_some h, hcut, ← List.map_append, collectWindow_rowOf, range_eq_walk,
    two_reads]
  · -- Once the walk has left the leading score it does not come back to it.
    refine List.Pairwise.imp_of_mem ?_ ((pairwise_walk c _).filter q.contains)
    intro x y hx hy hxy hytied
    obtain ⟨hxmem, hxin⟩ := List.mem_filter.mp hx
    have hy0 := (inScores_tied (q := q) hb (hfinite y (List.mem_filter.mp hy).1)).mp hytied
    have hle := advance_le b.score hxy
    have hx0 := hpast x hxin
    exact (inScores_tied (q := q) hb (hfinite x hxmem)).mpr (by omega)
  · intro p hp hcontains
    have htied := inScores_tied (q := q) hb (hfinite p hp)
    have hnonneg := hpast p hcontains
    cases hzero : inScores (.tied b.score) (.tied b.score) p with
    | true =>
      have h0 := htied.mp hzero
      rw [Bool.not_true, ← Bool.not_eq_true]
      intro hrest
      have hpos := advance_of_inScores hb (hfinite p hp) hrest
      omega
    | false =>
      have h0 : advance q b.score p ≠ 0 := fun h0 => by
        rw [htied.mpr h0] at hzero
        exact absurd hzero (by decide)
      exact inScores_of_advance hb hlower hupper (hfinite p hp) hcontains (by omega)
  · refine splitBy_contains fun p hp hrest => isPastStart_of_advance hleading ?_
    exact advance_of_inScores hb (h.stored p hp).1 hrest

end Collect
end Redis
end WarmFeed
