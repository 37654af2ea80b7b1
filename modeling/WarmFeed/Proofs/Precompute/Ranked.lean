import WarmFeed.Proofs.Precompute.Recency
import WarmFeed.Proofs.Source.Ranking

/-!
# Candidates in another order

The candidate service owes no order.  If it names the same candidates in another one, candidates
of one rank and one identifier may stand the other way round, and if they are of two authors,
their ranks are lowered by each other's factors.  But what becomes of an author's candidates is
told by the places of these alone, so the same scores come up with the same identifiers, and
identifiers come up in the same order.  The source computes the same entries.
-/

namespace WarmFeed
namespace Ranker

open RankedCandidate

variable {decay : Score} {cs cs' : List RankedCandidate}

/-- What entries are made of: an author, a place and the rank that is left. -/
def trace (p : RankedCandidate × Score) : String × Position × Score :=
  (p.1.author, p.1.place, p.2)

/-- Of candidates of one author, the places tell what becomes of the ranks. -/
theorem map_trace_endings {author : String} {met met' : String → Nat}
    (hmet : met author = met' author) (hcs : ∀ c ∈ cs, c.author = author)
    (hcs' : ∀ c ∈ cs', c.author = author) (hplaces : cs.map place = cs'.map place) :
    (endings decay met cs).map trace = (endings decay met' cs').map trace := by
  induction cs generalizing cs' met met' with
  | nil =>
    obtain rfl := List.map_eq_nil_iff.mp hplaces.symm
    rfl
  | cons c rest ih =>
    cases cs' with
    | nil => simp at hplaces
    | cons c' rest' =>
      obtain ⟨hplace, hrest⟩ := List.cons.inj hplaces
      have hrank : c.rank = c'.rank := congrArg Position.score hplace
      rw [List.forall_mem_cons] at hcs hcs'
      rw [endings, endings, List.map_cons, List.map_cons]
      congr 1
      · unfold trace
        rw [hcs.1, hcs'.1, hmet, hrank, hplace]
      · rw [hcs.1, hcs'.1]
        exact ih (by simp [meet, hmet]) hcs.2 hcs'.2 hrest

/-- The candidates of an author stand in the same places, whatever order they came in. -/
theorem map_place_strongestFirst (h : cs.Perm cs') :
    (strongestFirst cs).map place = (strongestFirst cs').map place :=
  map_eq_of_pairwise_place (pairwise_strongestFirst cs) (pairwise_strongestFirst cs')
    (((strongestFirst_perm cs).trans (h.trans (strongestFirst_perm cs').symm)).map place)

theorem trace_endings_perm (h : cs.Perm cs') :
    ((endings decay (fun _ => 0) (strongestFirst cs)).map trace).Perm
      ((endings decay (fun _ => 0) (strongestFirst cs')).map trace) := by
  refine perm_of_filter_key Prod.fst fun author => ?_
  have hown : ∀ l : List RankedCandidate, ((endings decay (fun _ => 0) l).map trace).filter
      (fun t => t.1 = author) =
        (endings decay (fun _ => 0) (l.filter fun c => c.author = author)).map trace := by
    intro l
    rw [List.filter_map]
    exact congrArg (List.map trace) (filter_endings rfl l)
  have hauthor : ∀ l : List RankedCandidate,
      ∀ c ∈ strongestFirst (l.filter fun c => c.author = author), c.author = author := by
    intro l c hc
    have hmem := (strongestFirst_perm _).mem_iff.mp hc
    simpa using (List.mem_filter.mp hmem).2
  rw [hown, hown, filter_strongestFirst, filter_strongestFirst]
  exact map_trace_endings rfl (hauthor cs) (hauthor cs') (map_place_strongestFirst (h.filter _))

def entryOf (p : RankedCandidate × Score) : Entry := ⟨p.1.candidate.statusId, p.2⟩

theorem entries_downrankAuthors (r : Ranker) (cs : List RankedCandidate) :
    RankedCandidate.entries (r.downrankAuthors cs) =
      Selection.dedupe ((endings r.decay (fun _ => 0) (strongestFirst cs)).map entryOf) := by
  rw [downrankAuthors_eq, RankedCandidate.entries, List.map_map]
  rfl

/-- The candidates that are left with a finite rank, by their places. -/
theorem place_finite_endings (h : cs.Perm cs') :
    ((endings decay (fun _ => 0) (strongestFirst cs)).filter fun p => p.2.isFinite).map
        (fun p => p.1.place) =
      ((endings decay (fun _ => 0) (strongestFirst cs')).filter fun p => p.2.isFinite).map
        fun p => p.1.place := by
  have hordered : ∀ l : List RankedCandidate,
      ((endings decay (fun _ => 0) (strongestFirst l)).filter fun p => p.2.isFinite).Pairwise
        fun a b => b.1.place ≤ a.1.place := by
    intro l
    have hall := pairwise_strongestFirst l
    rw [← map_fst_endings decay (fun _ => 0) (strongestFirst l), List.pairwise_map] at hall
    exact hall.filter _
  have htrace : ∀ l : List (RankedCandidate × Score),
      (l.filter fun p => p.2.isFinite).map (fun p => p.1.place) =
        ((l.map trace).filter fun t => t.2.2.isFinite).map fun t => t.2.1 := by
    intro l
    rw [List.filter_map, List.map_map]
    rfl
  refine map_eq_of_pairwise_place (hordered cs) (hordered cs') ?_
  rw [htrace, htrace]
  exact ((trace_endings_perm h).filter _).map _

theorem entries_downrankAuthors_of_perm (r : Ranker) (h : cs.Perm cs') :
    List.Forall₂ Entry.SameAs (RankedCandidate.entries (r.downrankAuthors cs))
      (RankedCandidate.entries (r.downrankAuthors cs')) := by
  rw [entries_downrankAuthors, entries_downrankAuthors]
  apply Selection.dedupe_sameAs
  · have hids : ∀ l : List (RankedCandidate × Score),
        (Selection.finiteOnes (l.map entryOf)).map Entry.id =
          ((l.filter fun p => p.2.isFinite).map fun p => p.1.place).map Position.id := by
      intro l
      rw [Selection.finiteOnes, List.filter_map, List.map_map, List.map_map]
      rfl
    rw [hids, hids, place_finite_endings h]
  · have hentries : ∀ l : List (RankedCandidate × Score),
        l.map entryOf = (l.map trace).map fun t => ⟨t.2.1.id, t.2.2⟩ := by
      intro l
      rw [List.map_map]
      rfl
    rw [hentries, hentries]
    exact (trace_endings_perm h).map _

end Ranker

namespace Source

theorem attempt_ranked {σ : Type} (answer : Backend σ) (s : σ) (ranker : Ranker) (limit : Nat)
    (account : AccountId) :
    (Routine.attempt answer s (ranked ranker limit (.account account))).1 =
      (answer s (.candidates account limit)).1.map
        fun cs => RankedCandidate.entries (ranker.rank cs) :=
  attempt_candidates answer s limit account _

/-- Candidates that come in another order lead to the same identifiers, in one order and with
numerically equal scores. -/
theorem ranked_ignores_order {σ σ' : Type} {answer : Backend σ} {answer' : Backend σ'} {s : σ}
    {s' : σ'} (ranker : Ranker) {limit limit' : Nat} {account account' : AccountId}
    {cs cs' : List Candidate} (h : cs.Perm cs')
    (hcs : (answer s (.candidates account limit)).1 = .ok cs)
    (hcs' : (answer' s' (.candidates account' limit')).1 = .ok cs') :
    ∃ es es', (Routine.attempt answer s (ranked ranker limit (.account account))).1 = .ok es ∧
      (Routine.attempt answer' s' (ranked ranker limit' (.account account'))).1 = .ok es' ∧
      List.Forall₂ Entry.SameAs es es' := by
  refine ⟨RankedCandidate.entries (ranker.rank cs), RankedCandidate.entries (ranker.rank cs'),
    ?_, ?_, Ranker.entries_downrankAuthors_of_perm ranker (h.map _)⟩
  · rw [attempt_ranked, hcs]
    rfl
  · rw [attempt_ranked, hcs']
    rfl

/-- Two candidates of one place, of which each is behind another one of its author. -/
def tiedCandidates : List Candidate :=
  [("ana", 5, 8), ("bo", 5, 8), ("ana", 7, 10), ("bo", 9, 20), ("bo", 8, 20)].map
    fun (name, id, likes) => ⟨id, name, "", ⟨[("candidate_status_like_count", likes)]⟩⟩

theorem ranked_ignores_order_tied :
    ∃ es es', (Routine.attempt (offering everyStatus tiedCandidates) ∅
          (ranked .usual 10 (.account 7))).1 = .ok es ∧
      (Routine.attempt (offering everyStatus tiedCandidates.reverse) ∅
          (ranked .usual 10 (.account 7))).1 = .ok es' ∧
      List.Forall₂ Entry.SameAs es es' :=
  ranked_ignores_order .usual (List.reverse_perm tiedCandidates).symm rfl rfl

end Source
end WarmFeed
