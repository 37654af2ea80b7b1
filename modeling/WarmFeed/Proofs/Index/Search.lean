import WarmFeed.Index.Search

/-!
# Search by halving finds the boundary

A test splits a list cleanly if it never holds of an element without holding of
the elements before it.  In such a list the elements that pass come first, and
halving finds how many they are.
-/

namespace WarmFeed

variable {α : Type}

/-- Whatever stands before an element that passes the test passes it as well. -/
def SplitBy (test : α → Bool) (l : List α) : Prop :=
  l.Pairwise fun a b => test b = true → test a = true

namespace SplitBy

variable {test : α → Bool} {l : List α}

theorem filter_not_of_head {a : α} (h : SplitBy test (a :: l)) (ha : test a = false) :
    l.filter test = [] := by
  rw [List.filter_eq_nil_iff]
  intro b hb htest
  have := (List.pairwise_cons.mp h).1 b hb htest
  rw [ha] at this
  exact Bool.false_ne_true this

/-- The list is what passes the test, followed by what does not. -/
theorem append_filter (h : SplitBy test l) :
    l.filter test ++ l.filter (fun a => !test a) = l := by
  induction l with
  | nil => rfl
  | cons a l ih =>
    cases ha : test a with
    | true =>
      rw [List.filter_cons_of_pos ha, List.filter_cons_of_neg (by simp [ha]), List.cons_append,
        ih (List.pairwise_cons.mp h).2]
    | false =>
      have hnil := filter_not_of_head h ha
      have hrest := ih (List.pairwise_cons.mp h).2
      rw [hnil, List.nil_append] at hrest
      rw [List.filter_cons_of_neg (by simp [ha]), List.filter_cons_of_pos (by simp [ha]), hnil,
        hrest, List.nil_append]

theorem take_length (h : SplitBy test l) : l.take (l.filter test).length = l.filter test :=
  calc l.take (l.filter test).length
      = (l.filter test ++ l.filter fun a => !test a).take (l.filter test).length := by
        rw [append_filter h]
    _ = l.filter test := List.take_left

theorem drop_length (h : SplitBy test l) :
    l.drop (l.filter test).length = l.filter fun a => !test a :=
  calc l.drop (l.filter test).length
      = (l.filter test ++ l.filter fun a => !test a).drop (l.filter test).length := by
        rw [append_filter h]
    _ = l.filter fun a => !test a := List.drop_left

/-- The same for the list cut off after `n` elements. -/
theorem drop_take (h : SplitBy test l) (n : Nat) :
    (l.take n).drop (l.filter test).length = (l.take n).filter fun a => !test a := by
  induction l generalizing n with
  | nil => simp
  | cons a l ih =>
    cases n with
    | zero => simp
    | succ n =>
      cases ha : test a with
      | true =>
        rw [List.filter_cons_of_pos ha, List.take_succ_cons, List.length_cons,
          List.drop_succ_cons, List.filter_cons_of_neg (by simp [ha])]
        exact ih (List.pairwise_cons.mp h).2 n
      | false =>
        have hnil := filter_not_of_head h ha
        rw [List.filter_cons_of_neg (by simp [ha]), hnil, List.length_nil, List.drop_zero]
        symm
        rw [List.filter_eq_self]
        intro b hb
        rcases List.mem_cons.mp (List.mem_of_mem_take hb) with rfl | hb
        · rw [ha, Bool.not_false]
        · rw [List.filter_eq_nil_iff] at hnil
          simpa using hnil b hb

/-- What passes the test among the first `n` elements is the first `n` of what passes. -/
theorem filter_take (h : SplitBy test l) (n : Nat) :
    (l.take n).filter test = (l.filter test).take n := by
  induction l generalizing n with
  | nil => simp
  | cons a l ih =>
    cases n with
    | zero => simp
    | succ n =>
      cases ha : test a with
      | true =>
        rw [List.take_succ_cons, List.filter_cons_of_pos ha, List.filter_cons_of_pos ha,
          List.take_succ_cons, ih (List.pairwise_cons.mp h).2]
      | false =>
        have hnil := filter_not_of_head h ha
        rw [List.take_succ_cons, List.filter_cons_of_neg (by simp [ha]),
          List.filter_cons_of_neg (by simp [ha]), hnil, ih (List.pairwise_cons.mp h).2, hnil,
          List.take_nil, List.take_nil]

theorem test_getElem (h : SplitBy test l) {i : Nat} (hi : i < l.length) :
    test l[i] = decide (i < (l.filter test).length) := by
  by_cases hlt : i < (l.filter test).length
  · have hmem : l[i] ∈ l.filter test := by
      rw [← take_length h, List.mem_take_iff_getElem]
      exact ⟨i, by omega, rfl⟩
    rw [(List.mem_filter.mp hmem).2, decide_eq_true hlt]
  · have hmem : l[i] ∈ l.filter fun a => !test a := by
      rw [← drop_length h, List.mem_drop_iff_getElem]
      exact ⟨i - (l.filter test).length, by omega, by congr 1; omega⟩
    have := (List.mem_filter.mp hmem).2
    rw [decide_eq_false hlt]
    simpa using this

end SplitBy

/-- If exactly the first `k` elements pass the test, the search ends at `k`. -/
theorem firstFailing_eq {test : α → Bool} {xs : Array α} {lo hi k : Nat} (h : hi ≤ xs.size)
    (hlo : lo ≤ k) (hhi : k ≤ hi)
    (htest : ∀ i (hi : i < xs.size), test xs[i] = decide (i < k)) :
    firstFailing test xs lo hi h = k := by
  -- The boundary stays between `lo` and `hi`, which close in on it.
  fun_induction firstFailing test xs lo hi h with
  | case1 lo hi h hlt mid hpass ih =>
    have hmid : mid < k := by simpa [htest] using hpass
    exact ih (by omega) hhi
  | case2 lo hi h hlt mid hfail ih =>
    have hmid : ¬ mid < k := by simpa [htest] using hfail
    exact ih hlo (by omega)
  | case3 lo hi h hge => omega

theorem partitionPoint_eq {test : α → Bool} {xs : Array α} (h : SplitBy test xs.toList) :
    partitionPoint test xs = (xs.toList.filter test).length := by
  refine firstFailing_eq _ (Nat.zero_le _) ?_ fun i hi => ?_
  · exact Nat.le_trans (List.length_filter_le _ _) (Nat.le_of_eq Array.length_toList)
  · rw [← SplitBy.test_getElem h (by rwa [Array.length_toList])]
    rfl

end WarmFeed
