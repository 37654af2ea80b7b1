import WarmFeed.Proofs.Precompute.Greatest
import WarmFeed.Source.Ranking

/-!
# How ranks are lowered

Candidates stand by rank, and within a rank by identifier.  The first one of an author keeps its
rank, and the factor of each further one is told by how many of that author stand before it.  So
authors do not matter to one another.

The order in which candidates come matters little.  It decides who stands first among candidates
of one rank and one identifier, and these lead to one entry in the end.
-/

namespace WarmFeed

section Sorting

variable {α : Type} {le : α → α → Bool}

/-- A list changes over at one place only from elements that fail a test to others that pass. -/
theorem append_inj_of_split {test : α → Bool} {before after before' after' : List α}
    (h : before ++ after = before' ++ after') (hb : ∀ b ∈ before, test b = false)
    (ha : ∀ b ∈ after, test b = true) (hb' : ∀ b ∈ before', test b = false)
    (ha' : ∀ b ∈ after', test b = true) : before = before' ∧ after = after' := by
  have hpassed : ∀ {u v : List α}, (∀ b ∈ u, test b = false) → (∀ b ∈ v, test b = true) →
      (u ++ v).filter test = v := by
    intro u v hu hv
    have hnone : u.filter test = [] :=
      List.filter_eq_nil_iff.mpr fun b hmem => by simp [hu b hmem]
    rw [List.filter_append, hnone, List.filter_eq_self.mpr hv, List.nil_append]
  have hafter : after = after' := by
    rw [← hpassed hb ha, h, hpassed hb' ha']
  exact ⟨List.append_cancel_right (hafter ▸ h), hafter⟩

variable
  (trans : ∀ a b c : α, le a b = true → le b c = true → le a c = true)
  (total : ∀ a b : α, (le a b || le b a) = true)

include trans total

/-- Sorting is stable: an element comes after those alone that it must not stand before. -/
theorem exists_split_of_mergeSort_cons (a : α) (l : List α) :
    ∃ before after, (a :: l).mergeSort le = before ++ a :: after ∧
      l.mergeSort le = before ++ after ∧ (∀ b ∈ before, le a b = false) ∧
      ∀ b ∈ after, le a b = true := by
  obtain ⟨before, after, hsort, hrest, hbefore⟩ := List.mergeSort_cons trans total a l
  refine ⟨before, after, hsort, hrest, fun b hb => by simpa using hbefore b hb, ?_⟩
  have hsorted := List.pairwise_mergeSort trans total (a :: l)
  rw [hsort, List.pairwise_append, List.pairwise_cons] at hsorted
  exact hsorted.2.1.1

/-- Who is left out does not matter to how the others are sorted. -/
theorem filter_mergeSort (test : α → Bool) (l : List α) :
    (l.mergeSort le).filter test = (l.filter test).mergeSort le := by
  induction l with
  | nil => simp
  | cons a l ih =>
    obtain ⟨before, after, hsort, hrest, hbefore, hafter⟩ :=
      exists_split_of_mergeSort_cons trans total a l
    rw [hrest, List.filter_append] at ih
    rw [hsort, List.filter_append]
    by_cases ha : test a = true
    · obtain ⟨before', after', hsort', hrest', hbefore', hafter'⟩ :=
        exists_split_of_mergeSort_cons trans total a (l.filter test)
      rw [List.filter_cons_of_pos ha, List.filter_cons_of_pos ha, hsort']
      obtain ⟨hlow, hhigh⟩ := append_inj_of_split (ih.trans hrest')
        (fun b hb => hbefore b (List.mem_of_mem_filter hb))
        (fun b hb => hafter b (List.mem_of_mem_filter hb)) hbefore' hafter'
      rw [hlow, hhigh]
    · rw [List.filter_cons_of_neg ha, List.filter_cons_of_neg ha, ih]

end Sorting

/-- Lists that agree key by key have the same elements. -/
theorem perm_of_filter_key {α κ : Type} [DecidableEq α] [DecidableEq κ] (key : α → κ)
    {l l' : List α} (h : ∀ k, l.filter (key · = k) = l'.filter (key · = k)) : l.Perm l' := by
  rw [List.perm_iff_count]
  intro a
  have hcount : ∀ l : List α, (l.filter (key · = key a)).count a = l.count a :=
    fun l => List.count_filter (by simp)
  rw [← hcount l, h (key a), hcount l']

namespace RankedCandidate

def author (c : RankedCandidate) : String := c.candidate.authorKey

/-- Where the candidate would stand in an index, if it kept its rank. -/
def place (c : RankedCandidate) : Position := ⟨c.rank, c.candidate.statusId⟩

end RankedCandidate

namespace Ranker

open RankedCandidate

variable {decay : Score} {c : RankedCandidate} {cs cs' : List RankedCandidate}

/-! ## The strongest first -/

theorem notAfter_iff {a b : RankedCandidate} : notAfter a b = true ↔ b.place ≤ a.place := by
  have horder : notAfter a b = !b.place.isAfter a.place := by
    unfold notAfter Position.isAfter Position.order place
    rfl
  rw [horder, Bool.not_eq_true', ← Bool.not_eq_true, Position.isAfter_iff, not_lt]

theorem notAfter_trans (a b c : RankedCandidate) (hab : notAfter a b = true)
    (hbc : notAfter b c = true) : notAfter a c = true := by
  rw [notAfter_iff] at *
  exact hbc.trans hab

theorem notAfter_total (a b : RankedCandidate) : (notAfter a b || notAfter b a) = true := by
  rw [Bool.or_eq_true, notAfter_iff, notAfter_iff]
  exact le_total _ _

def strongestFirst (cs : List RankedCandidate) : List RankedCandidate := cs.mergeSort notAfter

theorem strongestFirst_perm (cs : List RankedCandidate) : (strongestFirst cs).Perm cs :=
  List.mergeSort_perm cs notAfter

theorem pairwise_strongestFirst (cs : List RankedCandidate) :
    (strongestFirst cs).Pairwise fun a b => b.place ≤ a.place :=
  (List.pairwise_mergeSort notAfter_trans notAfter_total cs).imp notAfter_iff.mp

theorem filter_strongestFirst (test : RankedCandidate → Bool) (cs : List RankedCandidate) :
    (strongestFirst cs).filter test = strongestFirst (cs.filter test) :=
  filter_mergeSort notAfter_trans notAfter_total test cs

/-- Which candidates there are tells where they stand, though not which of two stands first that
have one place. -/
theorem map_eq_of_pairwise_place {α : Type} {l l' : List α} {f : α → Position}
    (hl : l.Pairwise fun a b => f b ≤ f a) (hl' : l'.Pairwise fun a b => f b ≤ f a)
    (hperm : (l.map f).Perm (l'.map f)) : l.map f = l'.map f := by
  have hsorted : (l.map f).Pairwise fun p q => q ≤ p := List.pairwise_map.mpr hl
  have hsorted' : (l'.map f).Pairwise fun p q => q ≤ p := List.pairwise_map.mpr hl'
  exact hperm.eq_of_pairwise (fun _ _ _ _ hpq hqp => le_antisymm hqp hpq) hsorted hsorted'

/-! ## The factors of an author -/

/-- The factor of an author when one of its candidates has been met and so many more. -/
def factor (decay : Score) : Nat → Score
  | 0 => decay
  | n + 1 => factor decay n * decay

/-- What becomes of a rank when so many candidates of the author have been met before. -/
def lowered (decay rank : Score) : Nat → Score
  | 0 => rank
  | n + 1 => rank * factor decay n

/-- How many of the first `i` candidates are of the author. -/
def earlier (cs : List RankedCandidate) (i : Nat) (author : String) : Nat :=
  (cs.take i).countP fun c => c.author = author

def meet (met : String → Nat) (author : String) : String → Nat :=
  Function.update met author (met author + 1)

/-- The candidates with the ranks that they end with, if so many of each author have been met
before. -/
def endings (decay : Score) (met : String → Nat) :
    List RankedCandidate → List (RankedCandidate × Score)
  | [] => []
  | c :: rest => (c, lowered decay c.rank (met c.author)) :: endings decay (meet met c.author) rest

def Remembers (decay : Score) (factors : Table String Score) (met : String → Nat) : Prop :=
  ∀ author, factors.get? author =
    match met author with
    | 0 => none
    | n + 1 => some (factor decay n)

variable {factors : Table String Score} {met met' : String → Nat}

theorem remembers_empty (decay : Score) : Remembers decay ∅ fun _ => 0 := fun _ => rfl

theorem Remembers.set (h : Remembers decay factors met) (author : String) :
    Remembers decay (factors.set author (factor decay (met author))) (meet met author) := by
  intro other
  unfold meet
  by_cases hother : other = author
  · subst hother
    simp
  · simp [hother, h other]

/-- The factors tell no more than how many of each author have been met. -/
theorem penalize_eq_endings (h : Remembers decay factors met) (cs : List RankedCandidate) :
    penalize decay factors cs =
      (endings decay met cs).map fun p => { p.1 with rank := p.2 } := by
  induction cs generalizing factors met with
  | nil => rfl
  | cons c rest ih =>
    have hfactor := h c.author
    have hset := h.set c.author
    unfold penalize endings
    dsimp only
    cases hmet : met c.author with
    | zero =>
      rw [hmet] at hfactor hset
      rw [show factors.get? c.candidate.authorKey = none from hfactor, List.map_cons, ← ih hset]
      rfl
    | succ n =>
      rw [hmet] at hfactor hset
      rw [show factors.get? c.candidate.authorKey = some (factor decay n) from hfactor,
        List.map_cons, ← ih hset]
      rfl

theorem downrankAuthors_eq (r : Ranker) (cs : List RankedCandidate) :
    r.downrankAuthors cs =
      (endings r.decay (fun _ => 0) (strongestFirst cs)).map fun p => { p.1 with rank := p.2 } :=
  penalize_eq_endings (remembers_empty r.decay) _

theorem map_fst_endings (decay : Score) (met : String → Nat) (cs : List RankedCandidate) :
    (endings decay met cs).map Prod.fst = cs := by
  induction cs generalizing met with
  | nil => rfl
  | cons c rest ih => rw [endings, List.map_cons, ih]

theorem getElem?_endings (decay : Score) (met : String → Nat) (cs : List RankedCandidate)
    (i : Nat) : (endings decay met cs)[i]? = cs[i]?.map fun c =>
      (c, lowered decay c.rank (met c.author + earlier cs i c.author)) := by
  induction cs generalizing met i with
  | nil => rfl
  | cons c rest ih =>
    cases i with
    | zero => rfl
    | succ i =>
      rw [endings, List.getElem?_cons_succ, List.getElem?_cons_succ, ih]
      refine Option.map_congr fun d _ => ?_
      have hcount : meet met c.author d.author + earlier rest i d.author =
          met d.author + earlier (c :: rest) (i + 1) d.author := by
        unfold meet earlier
        rw [List.take_succ_cons, List.countP_cons]
        by_cases hd : d.author = c.author
        · simp [hd]
          omega
        · simp [hd, Ne.symm hd]
      rw [hcount]

/-- How the rank of a candidate is lowered is told by how many of its author stand before it. -/
theorem getElem?_downrankAuthors (r : Ranker) (cs : List RankedCandidate) (i : Nat) :
    (r.downrankAuthors cs)[i]? = (strongestFirst cs)[i]?.map fun c =>
      { c with rank := lowered r.decay c.rank (earlier (strongestFirst cs) i c.author) } := by
  rw [downrankAuthors_eq, List.getElem?_map, getElem?_endings, Option.map_map]
  refine Option.map_congr fun c _ => ?_
  simp

/-- What becomes of an author's candidates is told by these alone. -/
theorem filter_endings {author : String} (h : met author = met' author)
    (cs : List RankedCandidate) :
    (endings decay met cs).filter (fun p => p.1.author = author) =
      endings decay met' (cs.filter fun c => c.author = author) := by
  induction cs generalizing met met' with
  | nil => rfl
  | cons c rest ih =>
    rw [endings]
    by_cases hc : c.author = author
    · have hmeet : meet met author author = meet met' author author := by simp [meet, h]
      rw [List.filter_cons_of_pos (by simpa using hc), List.filter_cons_of_pos (by simpa using hc),
        endings, hc, h, ih hmeet]
    · rw [List.filter_cons_of_neg (by simpa using hc), List.filter_cons_of_neg (by simpa using hc)]
      exact ih (by simp [meet, Ne.symm hc, h])

/-- Candidates stand by rank and then by identifier, the greater first.  The first of an author
keeps its rank, and each further one is multiplied by the next factor of that author.  Those of
one author come out as if there were no others. -/
theorem downrankAuthors_by_author (r : Ranker) (cs : List RankedCandidate) :
    (∃ ordered : List RankedCandidate, ordered.Perm cs ∧
      ordered.Pairwise (fun a b => b.rank.rank < a.rank.rank ∨
        a.rank = b.rank ∧ b.candidate.statusId ≤ a.candidate.statusId) ∧
      r.downrankAuthors cs = ordered.mapIdx fun i c =>
        { c with rank := lowered r.decay c.rank (earlier ordered i c.author) }) ∧
      ∀ author, (r.downrankAuthors cs).filter (fun c => c.author = author) =
        r.downrankAuthors (cs.filter fun c => c.author = author) := by
  refine ⟨⟨strongestFirst cs, strongestFirst_perm cs, ?_, ?_⟩, fun author => ?_⟩
  · refine (pairwise_strongestFirst cs).imp fun {a b} hle => ?_
    obtain hless | hsame := lt_or_eq_of_le hle
    · obtain hrank | ⟨hrank, hid⟩ := Position.lt_iff.mp hless
      · exact .inl hrank
      · exact .inr ⟨hrank.symm, UInt64.le_iff_toNat_le.mpr hid.le⟩
    · obtain ⟨hrank, hid⟩ := Position.mk.inj hsame
      exact .inr ⟨hrank.symm, UInt64.le_iff_toNat_le.mpr (hid ▸ le_refl _)⟩
  · refine List.ext_getElem? fun i => ?_
    rw [getElem?_downrankAuthors, List.getElem?_mapIdx]
  · rw [downrankAuthors_eq, downrankAuthors_eq, List.filter_map, ← filter_strongestFirst]
    exact congrArg (List.map _) (filter_endings rfl _)

end Ranker
end WarmFeed
