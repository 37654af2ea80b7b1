import WarmFeed.Proofs.Score.Grid
import WarmFeed.Proofs.Source.Ranking

/-!
# Whom lowered ranks penalize

A factor below one brings a rank towards zero.  So it lowers ranks above zero and keeps the
candidates of an author in their order, but it raises ranks below zero, past those of stronger
candidates of the same author.  The pass does nothing but penalize exactly if every candidate with
a sum below zero is the only one of its author: `rank_only_penalizes_iff`.
-/

namespace WarmFeed
namespace Ranker

open Score RankedCandidate

/-! ## Ranks on their way to zero -/

section Lowering

variable {decay x y : Score} {m n : Nat}

theorem shrinks_factor (hdecay : Shrinks decay) (n : Nat) : Shrinks (factor decay n) := by
  induction n with
  | zero => exact hdecay
  | succ n ih => exact ih.mul hdecay

theorem factor_antitone (hdecay : Shrinks decay) : Antitone fun n => (factor decay n).value := by
  refine antitone_nat_of_succ_le fun n => ?_
  have hfactor := shrinks_factor hdecay n
  have hnext := shrinks_factor hdecay (n + 1)
  have hle := (magnitude_le_iff hnext.finite hfactor.finite).mp
    (hdecay.magnitude_mul_le hfactor.finite)
  rwa [abs_of_nonneg hnext.value_nonneg, abs_of_nonneg hfactor.value_nonneg] at hle

variable (hdecay : Shrinks decay) (hx : x.isFinite = true) (hy : y.isFinite = true)

include hdecay hx

theorem isNegative_lowered (n : Nat) : (lowered decay x n).isNegative = x.isNegative := by
  cases n with
  | zero => rfl
  | succ n => exact (shrinks_factor hdecay n).isNegative_mul hx

theorem magnitude_lowered_le (n : Nat) : (lowered decay x n).magnitude ≤ x.magnitude := by
  cases n with
  | zero => exact le_refl _
  | succ n => exact (shrinks_factor hdecay n).magnitude_mul_le hx

theorem isFinite_lowered (n : Nat) : (lowered decay x n).isFinite = true :=
  isFinite_iff.mpr ((magnitude_lowered_le hdecay hx n).trans_lt (isFinite_iff.mp hx))

theorem abs_value_lowered_le (n : Nat) : |(lowered decay x n).value| ≤ |x.value| :=
  (magnitude_le_iff (isFinite_lowered hdecay hx n) hx).mp (magnitude_lowered_le hdecay hx n)

theorem value_lowered_nonneg (h : 0 ≤ x.value) (n : Nat) : 0 ≤ (lowered decay x n).value := by
  cases hneg : x.isNegative with
  | false => exact value_nonneg ((isNegative_lowered hdecay hx n).trans hneg)
  | true =>
    have hzero : x.value = 0 := le_antisymm (value_nonpos hneg) h
    have hle := abs_value_lowered_le hdecay hx n
    rw [hzero, abs_zero] at hle
    exact (abs_eq_zero.mp (le_antisymm hle (abs_nonneg _))).ge

include hy

/-- A weaker rank does not overtake one that is not below zero, if it is lowered no less often. -/
theorem value_lowered_le (h : 0 ≤ x.value) (hle : y.value ≤ x.value) (hmn : m ≤ n) :
    (lowered decay y n).value ≤ (lowered decay x m).value := by
  have hlow := value_lowered_nonneg hdecay hx h m
  cases hneg : y.isNegative with
  | true => exact (value_nonpos ((isNegative_lowered hdecay hy n).trans hneg)).trans hlow
  | false =>
    have habs : |y.value| ≤ |x.value| := by
      rwa [abs_of_nonneg h, abs_of_nonneg (value_nonneg hneg)]
    have hlowered : |(lowered decay y n).value| ≤ |(lowered decay x m).value| := by
      cases m with
      | zero => exact (abs_value_lowered_le hdecay hy n).trans habs
      | succ m =>
        cases n with
        | zero => omega
        | succ n =>
          have hm := shrinks_factor hdecay m
          have hn := shrinks_factor hdecay n
          exact (magnitude_le_iff (hn.isFinite_mul hy) (hm.isFinite_mul hx)).mp
            (hn.magnitude_mul_mono hm hy hx habs
              (factor_antitone hdecay (Nat.succ_le_succ_iff.mp hmn)))
    rw [abs_of_nonneg hlow] at hlowered
    exact (le_abs_self _).trans hlowered

omit hy

/-- A rank below zero is raised, unless it is very close to zero. -/
theorem below_lowered (h : x.value < 0) (hlarge : 2 ^ (-999 : ℤ) ≤ |x.value|) (hn : 0 < n) :
    x.below (lowered decay x n) = true := by
  obtain ⟨n, rfl⟩ := Nat.exists_eq_succ_of_ne_zero hn.ne'
  have hneg : x.isNegative = true := by
    by_contra hpos
    exact (value_nonneg (Bool.not_eq_true _ ▸ hpos)).not_gt h
  have hless := (shrinks_factor hdecay n).magnitude_mul_lt hx hlarge
  have hsign := isNegative_lowered hdecay hx (n + 1)
  rw [below_iff hx (isFinite_lowered hdecay hx _)]
  unfold signedMagnitude
  rw [hsign, hneg, if_pos rfl, if_pos rfl]
  exact neg_lt_neg (by exact_mod_cast hless)

end Lowering

/-! ## The sums -/

theorem shrinks_usualDecay : Shrinks usual.decay where
  finite := by decide
  nonneg := by decide
  le := by
    have hsignificand : usual.decay.significand = 0x18000000000000 := by decide
    have hexponent : usual.decay.exponent = -53 := by decide
    have hvalue := value_of_not_isNegative (s := usual.decay) (by decide)
    rw [abs_value, hsignificand, hexponent] at hvalue
    rw [hvalue]
    norm_num

theorem onGrid_foldl {g : ℤ} {terms : List Score} (h : ∀ t ∈ terms, OnGrid g t) {sum : Score}
    (hsum : OnGrid g sum) : OnGrid g (terms.foldl (· + ·) sum) := by
  induction terms generalizing sum with
  | nil => exact hsum
  | cons t terms ih =>
    exact ih (fun u hu => h u (List.mem_cons_of_mem t hu)) (hsum.add (h t List.mem_cons_self))

/-- The usual weights are whole multiples of two to the minus sixtieth. -/
theorem onGrid_usualWeights {name : String} {weight : Score}
    (h : usual.weights.get? name = some weight) : OnGrid (-60) weight := by
  have hweights : ∀ p ∈ usual.weights.pairs, p.2.significand = 0 ∨ -60 ≤ p.2.exponent := by decide
  obtain ⟨before, after, hpairs, -⟩ := List.lookup_eq_some_iff.mp h
  exact onGrid_of_exponent (hweights (name, weight) (by simp [hpairs]))

/-- No sum of the usual weights is very close to zero. -/
theorem onGrid_score (c : Candidate) : OnGrid (-60) (usual.score c) := by
  refine onGrid_foldl (fun t ht => ?_) (onGrid_of_exponent (.inl (by decide)))
  obtain ⟨p, -, hp⟩ := List.mem_filterMap.mp ht
  obtain ⟨weight, hweight, rfl⟩ := Option.map_eq_some_iff.mp hp
  exact (onGrid_usualWeights hweight).mul (onGrid_ofInt p.2)

/-! ## Who stands before whom -/

section Earlier

variable {cs : List RankedCandidate} {c d : RankedCandidate} {i j : Nat}

theorem earlier_mono (h : i ≤ j) (author : String) : earlier cs i author ≤ earlier cs j author :=
  (List.take_sublist_take_left h).countP_le

theorem earlier_succ (hc : cs[i]? = some c) :
    earlier cs (i + 1) c.author = earlier cs i c.author + 1 := by
  unfold earlier
  rw [List.take_add_one, hc, List.countP_append]
  simp

theorem earlier_lt (hc : cs[i]? = some c) (h : i < j) :
    earlier cs i c.author < earlier cs j c.author :=
  (earlier_succ hc).ge.trans (earlier_mono h c.author)

theorem earlier_lt_countP (hc : cs[i]? = some c) :
    earlier cs i c.author < cs.countP fun d => d.author = c.author :=
  (earlier_succ hc).ge.trans (List.take_sublist _ _).countP_le

/-- The first of several candidates of an author is followed by another one. -/
theorem exists_later (hc : cs[i]? = some c) (hfirst : earlier cs i c.author = 0)
    (hmany : 1 < cs.countP fun d => d.author = c.author) :
    ∃ j d, i < j ∧ cs[j]? = some d ∧ d.author = c.author := by
  have hsplit : (cs.countP fun d => d.author = c.author) =
      earlier cs (i + 1) c.author + (cs.drop (i + 1)).countP fun d => d.author = c.author := by
    rw [earlier, ← List.countP_append, List.take_append_drop]
  rw [earlier_succ hc, hfirst] at hsplit
  have hrest : 0 < (cs.drop (i + 1)).countP fun d => d.author = c.author := by omega
  obtain ⟨d, hd, hauthor⟩ := List.countP_pos_iff.mp hrest
  obtain ⟨k, hk⟩ := List.mem_iff_getElem?.mp hd
  rw [List.getElem?_drop] at hk
  exact ⟨i + 1 + k, d, by omega, hk, of_decide_eq_true hauthor⟩

end Earlier

/-! ## Sums and ranks -/

/-- No candidate comes out above its own sum, nor below a weaker one of its author. -/
structure OnlyPenalizes (r : Ranker) (cs : List Candidate) : Prop where
  not_raised : ∀ p ∈ r.rank cs, (r.score p.candidate).below p.rank = false
  in_order : ∀ p ∈ r.rank cs, ∀ q ∈ r.rank cs, p.author = q.author →
    (r.score q.candidate).below (r.score p.candidate) = true → p.rank.below q.rank = false

def byStrength (r : Ranker) (cs : List Candidate) : List RankedCandidate :=
  strongestFirst (cs.map fun c => ⟨r.score c, c⟩)

def ending (r : Ranker) (cs : List Candidate) (i : Nat) (c : RankedCandidate) : Score :=
  lowered r.decay c.rank (earlier (r.byStrength cs) i c.author)

section Sums

variable {r : Ranker} {cs : List Candidate} {c d p : RankedCandidate} {i j : Nat}

theorem mem_rank : p ∈ r.rank cs ↔ ∃ (i : Nat) (c : RankedCandidate),
    (r.byStrength cs)[i]? = some c ∧ p = { c with rank := r.ending cs i c } := by
  unfold Ranker.rank ending byStrength
  rw [List.mem_iff_getElem?]
  refine exists_congr fun i => ?_
  rw [getElem?_downrankAuthors, Option.map_eq_some_iff]
  simp only [eq_comm]

theorem mem_byStrength : c ∈ r.byStrength cs ↔ c.candidate ∈ cs ∧ c.rank = r.score c.candidate := by
  unfold byStrength
  rw [(strongestFirst_perm _).mem_iff, List.mem_map]
  constructor
  · rintro ⟨candidate, hmem, rfl⟩
    exact ⟨hmem, rfl⟩
  · rintro ⟨hmem, hrank⟩
    exact ⟨c.candidate, hmem, by rw [← hrank]⟩

theorem countP_byStrength (author : String) :
    ((r.byStrength cs).countP fun d => d.author = author) =
      cs.countP fun d => d.authorKey = author := by
  unfold byStrength
  rw [(strongestFirst_perm _).countP_eq, List.countP_map]
  rfl

/-- A candidate with a lower sum comes later. -/
theorem lt_of_below (hc : (r.byStrength cs)[i]? = some c) (hd : (r.byStrength cs)[j]? = some d)
    (hless : d.rank.signedMagnitude < c.rank.signedMagnitude) : i < j := by
  have hplace : d.place < c.place := Position.lt_of_signedMagnitude_lt hless
  obtain ⟨hi, rfl⟩ := List.getElem?_eq_some_iff.mp hc
  obtain ⟨hj, rfl⟩ := List.getElem?_eq_some_iff.mp hd
  by_contra hle
  obtain hbefore | rfl := (not_lt.mp hle).lt_or_eq
  · have hsorted : (r.byStrength cs).Pairwise fun a b => b.place ≤ a.place :=
      pairwise_strongestFirst _
    exact hplace.not_ge (List.pairwise_iff_getElem.mp hsorted j i hj hi hbefore)
  · exact lt_irrefl _ hplace

theorem ending_of_alone (hc : (r.byStrength cs)[i]? = some c)
    (hone : (cs.countP fun d => d.authorKey = c.author) = 1) : r.ending cs i c = c.rank := by
  have hfew := earlier_lt_countP hc
  rw [countP_byStrength, hone, Nat.lt_one_iff] at hfew
  rw [ending, hfew]
  rfl

/-- Every rank is what some place ends with. -/
theorem exists_place (hp : p ∈ r.rank cs) : ∃ (i : Nat) (c : RankedCandidate),
    (r.byStrength cs)[i]? = some c ∧ r.score p.candidate = c.rank ∧ p.author = c.author ∧
      p.rank = r.ending cs i c := by
  obtain ⟨i, c, hc, rfl⟩ := mem_rank.mp hp
  obtain ⟨-, hrank⟩ := mem_byStrength.mp (List.mem_of_getElem? hc)
  exact ⟨i, c, hc, hrank.symm, rfl, rfl⟩

variable (hdecay : Shrinks r.decay) (hfinite : ∀ c ∈ cs, (r.score c).isFinite = true)

include hfinite

theorem isFinite_of_place (hc : (r.byStrength cs)[i]? = some c) : c.rank.isFinite = true := by
  obtain ⟨hmem, hrank⟩ := mem_byStrength.mp (List.mem_of_getElem? hc)
  rw [hrank]
  exact hfinite _ hmem

include hdecay

theorem not_raised_of_nonneg (hc : (r.byStrength cs)[i]? = some c) (h : 0 ≤ c.rank.value) :
    c.rank.below (r.ending cs i c) = false := by
  have hrank := isFinite_of_place hfinite hc
  have hle := value_lowered_le hdecay hrank hrank h (le_refl _)
    (Nat.zero_le (earlier (r.byStrength cs) i c.author))
  unfold ending
  rw [← Bool.not_eq_true, below_iff_value hrank (isFinite_lowered hdecay hrank _), not_lt]
  exact hle

/-- A candidate that is not below zero is not overtaken by a weaker one of its author. -/
theorem in_order_of_nonneg (hc : (r.byStrength cs)[i]? = some c)
    (hd : (r.byStrength cs)[j]? = some d) (h : 0 ≤ c.rank.value) (hauthor : c.author = d.author)
    (hless : d.rank.below c.rank = true) :
    (r.ending cs i c).below (r.ending cs j d) = false := by
  have hrank := isFinite_of_place hfinite hc
  have hrank' := isFinite_of_place hfinite hd
  have hij := lt_of_below hc hd ((below_iff hrank' hrank).mp hless)
  have hvalue := (below_iff_value hrank' hrank).mp hless
  have hcount : earlier (r.byStrength cs) i c.author ≤ earlier (r.byStrength cs) j c.author :=
    earlier_mono hij.le c.author
  unfold ending
  rw [← Bool.not_eq_true, below_iff_value (isFinite_lowered hdecay hrank _)
    (isFinite_lowered hdecay hrank' _), not_lt, ← hauthor]
  exact value_lowered_le hdecay hrank hrank' h hvalue.le hcount

/-- The only candidate of an author keeps its sum, and ranks that are not below zero are never
raised. -/
theorem onlyPenalizes_of_alone (halone : ∀ c ∈ cs, (r.score c).below .zero = true →
    (cs.countP fun d => d.authorKey = c.authorKey) = 1) : OnlyPenalizes r cs := by
  have hkept : ∀ {i : Nat} {c : RankedCandidate}, (r.byStrength cs)[i]? = some c →
      c.rank.value < 0 → r.ending cs i c = c.rank ∧
        (cs.countP fun d => d.authorKey = c.author) = 1 := by
    intro i c hc hneg
    obtain ⟨hmem, hrank⟩ := mem_byStrength.mp (List.mem_of_getElem? hc)
    rw [hrank, ← below_zero_iff (hfinite _ hmem)] at hneg
    have hone := halone c.candidate hmem hneg
    exact ⟨ending_of_alone hc hone, hone⟩
  refine ⟨fun p hp => ?_, fun p hp q hq hauthor hless => ?_⟩
  · obtain ⟨i, c, hc, hsum, -, hrank⟩ := exists_place hp
    rw [hsum, hrank]
    by_cases hneg : c.rank.value < 0
    · rw [(hkept hc hneg).1]
      simp [below]
    · exact not_raised_of_nonneg hdecay hfinite hc (not_lt.mp hneg)
  · obtain ⟨i, c, hc, hsum, hown, hrank⟩ := exists_place hp
    obtain ⟨j, d, hd, hsum', hown', hrank'⟩ := exists_place hq
    rw [hsum, hsum'] at hless
    rw [hown, hown'] at hauthor
    rw [hrank, hrank']
    by_cases hneg : c.rank.value < 0
    · -- The two places are those of two candidates of one author.
      have hij := lt_of_below hc hd
        ((below_iff (isFinite_of_place hfinite hd) (isFinite_of_place hfinite hc)).mp hless)
      have hmet := earlier_lt hc hij
      have hfew := earlier_lt_countP hd
      rw [← hauthor, countP_byStrength, (hkept hc hneg).2] at hfew
      omega
    · exact in_order_of_nonneg hdecay hfinite hc hd (not_lt.mp hneg) hauthor hless

/-- Of several candidates of an author with a sum below zero, one is raised. -/
theorem exists_raised
    (hlarge : ∀ c ∈ cs, (r.score c).value < 0 → 2 ^ (-999 : ℤ) ≤ |(r.score c).value|)
    (hc : (r.byStrength cs)[i]? = some c) (hneg : c.rank.value < 0)
    (hmany : 1 < cs.countP fun d => d.authorKey = c.author) :
    ∃ p ∈ r.rank cs, (r.score p.candidate).below p.rank = true := by
  have hraised : ∀ {j : Nat} {d : RankedCandidate}, (r.byStrength cs)[j]? = some d →
      d.rank.value < 0 → 0 < earlier (r.byStrength cs) j d.author →
      ∃ p ∈ r.rank cs, (r.score p.candidate).below p.rank = true := by
    intro j d hd hnegd hmet
    obtain ⟨hmem, hrank⟩ := mem_byStrength.mp (List.mem_of_getElem? hd)
    have hfar := hlarge d.candidate hmem (hrank ▸ hnegd)
    refine ⟨{ d with rank := r.ending cs j d }, mem_rank.mpr ⟨j, d, hd, rfl⟩, ?_⟩
    rw [← hrank] at hfar ⊢
    exact below_lowered hdecay (isFinite_of_place hfinite hd) hnegd hfar hmet
  obtain hfirst | hlater := Nat.eq_zero_or_pos (earlier (r.byStrength cs) i c.author)
  · rw [← countP_byStrength (r := r)] at hmany
    obtain ⟨j, d, hij, hd, hauthor⟩ := exists_later hc hfirst hmany
    have hrank := isFinite_of_place hfinite hc
    have hrank' := isFinite_of_place hfinite hd
    have hweaker : d.rank.value ≤ c.rank.value := by
      rw [← not_lt, ← below_iff_value hrank hrank', below_iff hrank hrank']
      exact fun hless => lt_asymm hij (lt_of_below hd hc hless)
    refine hraised hd (hweaker.trans_lt hneg) ?_
    rw [hauthor]
    exact Nat.zero_lt_of_lt (earlier_lt hc hij)
  · exact hraised hc hneg hlater

theorem alone_of_onlyPenalizes
    (hlarge : ∀ c ∈ cs, (r.score c).value < 0 → 2 ^ (-999 : ℤ) ≤ |(r.score c).value|)
    (h : OnlyPenalizes r cs) {c : Candidate} (hc : c ∈ cs) (hneg : (r.score c).below .zero = true) :
    (cs.countP fun d => d.authorKey = c.authorKey) = 1 := by
  obtain ⟨i, hi⟩ := List.mem_iff_getElem?.mp
    (mem_byStrength (c := ⟨r.score c, c⟩).mpr ⟨hc, rfl⟩)
  have hfew := earlier_lt_countP hi
  rw [countP_byStrength] at hfew
  by_contra hmany
  obtain ⟨p, hp, hraised⟩ := exists_raised hdecay hfinite hlarge hi
    ((below_zero_iff (hfinite c hc)).mp hneg)
    (lt_of_le_of_ne (Nat.one_le_of_lt hfew) (Ne.symm hmany))
  rw [h.not_raised p hp] at hraised
  exact Bool.false_ne_true hraised

end Sums

/-- With the usual weights, the pass only penalizes exactly if each candidate with a sum below zero
is the only one of its author.  In any case ranks stay on their side of zero and come no further
from it, and candidates that are not below zero stay above the weaker ones of their authors. -/
theorem rank_only_penalizes_iff {cs : List Candidate}
    (hfinite : ∀ c ∈ cs, (usual.score c).isFinite = true) :
    (OnlyPenalizes usual cs ↔ ∀ c ∈ cs, (usual.score c).below .zero = true →
      (cs.countP fun d => d.authorKey = c.authorKey) = 1) ∧
    (∀ p ∈ usual.rank cs, p.rank.isNegative = (usual.score p.candidate).isNegative ∧
      p.rank.magnitude ≤ (usual.score p.candidate).magnitude) ∧
    ∀ p ∈ usual.rank cs, ∀ q ∈ usual.rank cs, p.author = q.author →
      (usual.score q.candidate).below (usual.score p.candidate) = true →
      (usual.score p.candidate).below .zero = false → p.rank.below q.rank = false := by
  have hdecay := shrinks_usualDecay
  have hlarge : ∀ c ∈ cs, (usual.score c).value < 0 →
      2 ^ (-999 : ℤ) ≤ |(usual.score c).value| := fun c hc hneg =>
    (zpow_le_zpow_right₀ one_le_two (by decide)).trans
      ((onGrid_score c).le_abs_value (hfinite c hc) hneg.ne)
  refine ⟨⟨fun honly c hc => alone_of_onlyPenalizes hdecay hfinite hlarge honly hc,
    onlyPenalizes_of_alone hdecay hfinite⟩, fun p hp => ?_, ?_⟩
  · obtain ⟨i, c, hc, hsum, -, hrank⟩ := exists_place hp
    have hc' := isFinite_of_place hfinite hc
    rw [hsum, hrank]
    exact ⟨isNegative_lowered hdecay hc' _, magnitude_lowered_le hdecay hc' _⟩
  · intro p hp q hq hauthor hless hnonneg
    obtain ⟨i, c, hc, hsum, hown, hrank⟩ := exists_place hp
    obtain ⟨j, d, hd, hsum', hown', hrank'⟩ := exists_place hq
    rw [hsum, hsum'] at hless
    rw [hsum, ← Bool.not_eq_true, below_zero_iff (isFinite_of_place hfinite hc), not_lt] at hnonneg
    rw [hown, hown'] at hauthor
    rw [hrank, hrank']
    exact in_order_of_nonneg hdecay hfinite hc hd hnonneg hauthor hless

def likedCandidate (id : ContentId) (username : String) (likes : Int) : Candidate :=
  ⟨id, username, "x", Table.ofList [("candidate_status_like_count", likes)]⟩

theorem rank_only_penalizes_lone_negative :
    let cs := [likedCandidate 1 "ana" 4, likedCandidate 2 "ana" 2, likedCandidate 3 "bo" (-3)]
    (∀ c ∈ cs, (usual.score c).isFinite = true) ∧ OnlyPenalizes usual cs := by
  intro cs
  have hfinite : ∀ c ∈ cs, (usual.score c).isFinite = true := by decide +kernel
  exact ⟨hfinite, (rank_only_penalizes_iff hfinite).1.mpr (by decide +kernel)⟩

/-- Of two candidates of one author with minus ten and minus eleven, the second one ends with minus
eight and a quarter: above its own sum, and above the first one. -/
theorem rank_raises_second_negative :
    let cs := [likedCandidate 1 "ana" (-10), likedCandidate 2 "ana" (-11)]
    (∀ c ∈ cs, (usual.score c).isFinite = true) ∧
      (usual.rank cs).map (fun p => (p.candidate.statusId, p.rank)) =
        [(1, ⟨0xc024000000000000⟩), (2, ⟨0xc020800000000000⟩)] ∧
      ¬ OnlyPenalizes usual cs := by
  intro cs
  have hsorted : (cs.map fun c => (⟨usual.score c, c⟩ : RankedCandidate)).mergeSort notAfter =
      cs.map fun c => ⟨usual.score c, c⟩ := List.mergeSort_of_pairwise (by decide +kernel)
  have hrank : usual.rank cs =
      penalize usual.decay ∅ (cs.map fun c => ⟨usual.score c, c⟩) := by
    rw [Ranker.rank, downrankAuthors, hsorted]
  refine ⟨by decide +kernel, ?_, fun h => ?_⟩
  · rw [hrank]
    decide +kernel
  · have hraised := h.not_raised
    rw [hrank] at hraised
    exact absurd hraised (by decide +kernel)

end Ranker
end WarmFeed
