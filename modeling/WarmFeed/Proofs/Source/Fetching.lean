import WarmFeed.Proofs.Source.Trends

/-!
# Fetching in pages

Trends are fetched page by page from a source that may give anything: more candidates than it is
asked for, fewer, or others each time.  What is asked for next is told by the candidates that have
come so far.  Each page starts where they end, and fetching goes on just as long as every page was
full and there are too few of them.  So there are at most as many pages as candidates are wanted.

The result is made of the replies alone: the first candidates of all pages, or the first failure.
-/

namespace WarmFeed
namespace Trends

variable {σ α : Type}

structure AskedPage where
  limit : Nat
  offset : Nat
  reply : Except ServiceError (List TrendCandidate)

namespace AskedPage

def request (p : AskedPage) : Call := .fetchPage p.limit p.offset

def candidates (p : AskedPage) : List TrendCandidate :=
  match p.reply with
  | .ok cs => cs
  | .error _ => []

def IsFull (p : AskedPage) : Prop := ∃ cs, p.reply = .ok cs ∧ p.limit ≤ cs.length

def ofMoment (answer : Backend σ) (m : Moment σ Call) : Option AskedPage :=
  match m.request with
  | .fetchPage limit offset => some ⟨limit, offset, (answer m.state (.fetchPage limit offset)).1⟩
  | _ => none

end AskedPage

def pagesAsked (answer : Backend σ) (s : σ) (a : Attempt ServiceError α) : List AskedPage :=
  (a.run.course answer s).filterMap (AskedPage.ofMoment answer)

def received (pages : List AskedPage) : List TrendCandidate := pages.flatMap AskedPage.candidates

/-- How pages follow one another when `start` candidates have come before them.  The last three
lines determine the pages: the next one is told by the ones before it. -/
structure PagedFrom (start pageSize wanted : Nat) (pages : List AskedPage) : Prop where
  limit_pos : ∀ p ∈ pages, 1 ≤ p.limit
  limit_le : ∀ p ∈ pages, p.limit ≤ pageSize
  limit_eq : ∀ p ∈ pages, p.limit = min pageSize (wanted - p.offset)
  offset_eq : ∀ before p after, pages = before ++ p :: after →
    p.offset = start + (received before).length
  goes_on : ∀ before after, pages = before ++ after →
    (after ≠ [] ↔ (∀ p ∈ before, p.IsFull) ∧ start + (received before).length < wanted)

section Pages

variable {start pageSize wanted : Nat} {p : AskedPage} {pages : List AskedPage}

@[simp] theorem received_nil : received [] = [] := rfl

@[simp] theorem received_cons : received (p :: pages) = p.candidates ++ received pages := rfl

theorem pagedFrom_nil (h : wanted ≤ start) : PagedFrom start pageSize wanted [] where
  limit_pos p hp := absurd hp List.not_mem_nil
  limit_le p hp := absurd hp List.not_mem_nil
  limit_eq p hp := absurd hp List.not_mem_nil
  offset_eq before p after hsplit := by simp at hsplit
  goes_on before after hsplit := by
    obtain ⟨rfl, rfl⟩ := List.append_eq_nil_iff.mp hsplit.symm
    simp only [received_nil, List.length_nil]
    exact ⟨fun h => absurd rfl h, fun h => by omega⟩

/-- One page more in front.  If it is full, the others follow on from its candidates, and
otherwise there are no others. -/
theorem PagedFrom.cons (hsize : 0 < pageSize) (hstart : start < wanted)
    (hlimit : p.limit = min pageSize (wanted - start)) (hoffset : p.offset = start)
    (hfull : p.IsFull → PagedFrom (start + p.candidates.length) pageSize wanted pages)
    (hshort : ¬ p.IsFull → pages = []) : PagedFrom start pageSize wanted (p :: pages) := by
  have hrest : ∀ q ∈ pages, PagedFrom (start + p.candidates.length) pageSize wanted pages := by
    intro q hq
    refine hfull (Classical.byContradiction fun h => ?_)
    rw [hshort h] at hq
    exact List.not_mem_nil hq
  constructor
  · intro q hq
    rcases List.mem_cons.mp hq with rfl | hq
    · omega
    · exact (hrest q hq).limit_pos q hq
  · intro q hq
    rcases List.mem_cons.mp hq with rfl | hq
    · omega
    · exact (hrest q hq).limit_le q hq
  · intro q hq
    rcases List.mem_cons.mp hq with rfl | hq
    · rw [hlimit, hoffset]
    · exact (hrest q hq).limit_eq q hq
  · intro before q after hsplit
    cases before with
    | nil =>
      obtain ⟨rfl, -⟩ := List.cons.inj hsplit
      simp [hoffset]
    | cons first before =>
      obtain ⟨rfl, hpages⟩ := List.cons.inj hsplit
      have hmem : q ∈ pages := by simp [hpages]
      rw [(hrest q hmem).offset_eq before q after hpages, received_cons, List.length_append]
      omega
  · intro before after hsplit
    cases before with
    | nil =>
      obtain rfl : p :: pages = after := hsplit
      simp [hstart]
    | cons first before =>
      obtain ⟨rfl, hpages⟩ := List.cons.inj hsplit
      by_cases h : p.IsFull
      · have hon := (hfull h).goes_on before after hpages
        rw [List.forall_mem_cons, received_cons, List.length_append, ← Nat.add_assoc, hon]
        simp [h]
      · obtain ⟨rfl, rfl⟩ := List.append_eq_nil_iff.mp (hpages.symm.trans (hshort h))
        simp [h]

end Pages

/-! ## The loop -/

section Loop

variable {answer : Backend σ} {s : σ} {pageSize wanted : Nat}

theorem fetchFrom_of_le {got : List TrendCandidate} (h : wanted ≤ got.length) (rounds : Nat) :
    fetchFrom pageSize wanted rounds got = pure got := by
  cases rounds with
  | zero => rfl
  | succ rounds =>
    unfold fetchFrom
    rw [if_pos h]

theorem fetchFrom_of_lt {got : List TrendCandidate} (h : got.length < wanted) (rounds : Nat) :
    fetchFrom pageSize wanted (rounds + 1) got =
      (ExceptT.mk (Routine.request
          (Call.fetchPage (min pageSize (wanted - got.length)) got.length)) >>= fun page =>
        if page.length < min pageSize (wanted - got.length) then pure (got ++ page)
        else fetchFrom pageSize wanted rounds (got ++ page) : Attempt ServiceError _) := by
  rw [fetchFrom, if_neg (by omega)]

/-- The attempt asks for these pages and for nothing else, and this comes of them. -/
structure Fetches (answer : Backend σ) (s : σ) (a : Attempt ServiceError (List TrendCandidate))
    (got : List TrendCandidate) (pages : List AskedPage) : Prop where
  asked : pagesAsked answer s a = pages
  requests : (a.run.course answer s).map Moment.request = pages.map AskedPage.request
  result : (Routine.attempt answer s a).1 =
    (pages.mapM AskedPage.reply).map fun cs => got ++ cs.flatten

theorem fetches_pure (got : List TrendCandidate) :
    Fetches answer s (pure got : Attempt ServiceError _) got [] where
  asked := rfl
  requests := rfl
  result := congrArg Except.ok (List.append_nil got).symm

/-- A page that fails is the last one. -/
theorem fetches_failed {limit offset : Nat} {e : ServiceError}
    (h : (answer s (.fetchPage limit offset)).1 = .error e) (got : List TrendCandidate)
    (f : List TrendCandidate → Attempt ServiceError (List TrendCandidate)) :
    Fetches answer s (ExceptT.mk (Routine.request (Call.fetchPage limit offset)) >>= f) got
      [⟨limit, offset, .error e⟩] := by
  have hask : Routine.attempt answer s
      (ExceptT.mk (Routine.request (Call.fetchPage limit offset)) : Attempt ServiceError _) =
        (.error e, (answer s (.fetchPage limit offset)).2) := Prod.ext h rfl
  have hcourse : (ExceptT.mk (Routine.request (Call.fetchPage limit offset)) >>= f :
      Attempt ServiceError _).run.course answer s = [⟨s, .fetchPage limit offset⟩] := by
    rw [Routine.course_attempt_bind, hask]
    rfl
  constructor
  · rw [pagesAsked, hcourse, ← h]
    rfl
  · rw [hcourse]
    rfl
  · rw [Routine.attempt_bind, hask]
    rfl

/-- After a page that came, the attempt goes on with what is at hand then. -/
theorem Fetches.ask {limit offset : Nat} {cs got : List TrendCandidate}
    {f : List TrendCandidate → Attempt ServiceError (List TrendCandidate)}
    {pages : List AskedPage} (h : (answer s (.fetchPage limit offset)).1 = .ok cs)
    (hrest : Fetches answer (answer s (.fetchPage limit offset)).2 (f cs) (got ++ cs) pages) :
    Fetches answer s (ExceptT.mk (Routine.request (Call.fetchPage limit offset)) >>= f) got
      (⟨limit, offset, .ok cs⟩ :: pages) := by
  have hask : Routine.attempt answer s
      (ExceptT.mk (Routine.request (Call.fetchPage limit offset)) : Attempt ServiceError _) =
        (.ok cs, (answer s (.fetchPage limit offset)).2) := Prod.ext h rfl
  have hcourse : (ExceptT.mk (Routine.request (Call.fetchPage limit offset)) >>= f :
      Attempt ServiceError _).run.course answer s = ⟨s, .fetchPage limit offset⟩ ::
        (f cs).run.course answer (answer s (.fetchPage limit offset)).2 := by
    rw [Routine.course_attempt_bind, hask]
    rfl
  constructor
  · rw [pagesAsked, hcourse, ← h, ← hrest.asked]
    rfl
  · rw [hcourse, List.map_cons, hrest.requests]
    rfl
  · rw [Routine.attempt_bind_ok hask, hrest.result, List.mapM_cons]
    cases pages.mapM AskedPage.reply with
    | error e => rfl
    | ok rest => exact congrArg Except.ok (List.append_assoc got cs rest.flatten)

/-- With enough rounds to spare, the loop ends where it has enough candidates or a page is not
full, and never for want of rounds. -/
theorem exists_fetches (answer : Backend σ) (s : σ) (hsize : 0 < pageSize) {rounds : Nat}
    {got : List TrendCandidate} (hrounds : wanted ≤ got.length + rounds) :
    ∃ pages, pages.length ≤ rounds ∧ PagedFrom got.length pageSize wanted pages ∧
      Fetches answer s (fetchFrom pageSize wanted rounds got) got pages := by
  induction rounds generalizing got s with
  | zero =>
    rw [fetchFrom_of_le hrounds]
    exact ⟨[], Nat.le_refl 0, pagedFrom_nil hrounds, fetches_pure got⟩
  | succ rounds ih =>
    by_cases henough : wanted ≤ got.length
    · rw [fetchFrom_of_le henough]
      exact ⟨[], Nat.zero_le _, pagedFrom_nil henough, fetches_pure got⟩
    have hstart := Nat.lt_of_not_le henough
    rw [fetchFrom_of_lt hstart]
    generalize hlimit : min pageSize (wanted - got.length) = limit
    cases hreply : (answer s (.fetchPage limit got.length)).1 with
    | error e =>
      refine ⟨[⟨limit, got.length, .error e⟩], by simp, ?_, fetches_failed hreply got _⟩
      exact PagedFrom.cons hsize hstart hlimit.symm rfl (fun ⟨_, hok, _⟩ => nomatch hok)
        fun _ => rfl
    | ok cs =>
      obtain hshort | hfull := Nat.lt_or_ge cs.length limit
      · refine ⟨[⟨limit, got.length, .ok cs⟩], by simp, ?_, Fetches.ask hreply ?_⟩
        · refine PagedFrom.cons hsize hstart hlimit.symm rfl (fun ⟨page, hok, hle⟩ => ?_)
            fun _ => rfl
          obtain rfl := Except.ok.inj hok
          exact absurd hshort (Nat.not_lt.mpr hle)
        · rw [if_pos hshort]
          exact fetches_pure _
      · -- A full page brings at least one candidate, so one round less is enough.
        have hrest : wanted ≤ (got ++ cs).length + rounds := by
          rw [List.length_append]
          omega
        obtain ⟨pages, hfew, hpaged, hfetches⟩ :=
          ih (answer s (.fetchPage limit got.length)).2 hrest
        refine ⟨⟨limit, got.length, .ok cs⟩ :: pages, Nat.succ_le_succ hfew, ?_,
          Fetches.ask hreply ?_⟩
        · refine PagedFrom.cons hsize hstart hlimit.symm rfl (fun _ => ?_) fun h => ?_
          · rwa [List.length_append] at hpaged
          · exact absurd ⟨cs, rfl, hfull⟩ h
        · rw [if_neg (Nat.not_lt.mpr hfull)]
          exact hfetches

end Loop

/-- At most as many pages are asked for as candidates are wanted, each from the candidates on
that have come so far, and none after one that is not full.  The result is the first failure, or
the first candidates of all pages.  From a source with a list of its own these are the first ones
of the list. -/
theorem fetch_asks_in_pages (answer : Backend σ) (s : σ) (settings : TrendsSettings) :
    ((fetch settings).run.course answer s).map Moment.request =
        (pagesAsked answer s (fetch settings)).map AskedPage.request ∧
      (pagesAsked answer s (fetch settings)).length ≤ settings.fetchLimit ∧
      PagedFrom 0 (max settings.pageSize 1) settings.fetchLimit
        (pagesAsked answer s (fetch settings)) ∧
      (Routine.attempt answer s (fetch settings)).1 =
        ((pagesAsked answer s (fetch settings)).mapM AskedPage.reply).map
          (fun cs => cs.flatten.take settings.fetchLimit) ∧
      ∀ list, Lists answer list → (Routine.attempt answer s (fetch settings)).1 =
        .ok (list.take (min settings.fetchLimit list.length)) := by
  have hsize : 0 < max settings.pageSize 1 := by omega
  have hrounds : settings.fetchLimit ≤ ([] : List TrendCandidate).length + settings.fetchLimit :=
    Nat.le_add_left _ _
  obtain ⟨pages, hfew, hpaged, hfetches⟩ := exists_fetches answer s hsize hrounds
  have hcourse : (fetch settings).run.course answer s =
      (fetchFrom (max settings.pageSize 1) settings.fetchLimit settings.fetchLimit
        []).run.course answer s := Routine.course_attempt_map answer s _ _
  have hasked : pagesAsked answer s (fetch settings) = pages := by
    rw [pagesAsked, hcourse]
    exact hfetches.asked
  rw [hasked]
  refine ⟨?_, hfew, hpaged, ?_, fun list hlists => ?_⟩
  · rw [hcourse]
    exact hfetches.requests
  · unfold fetch
    rw [Routine.attempt_bind, hfetches.result]
    cases pages.mapM AskedPage.reply <;> rfl
  · rw [attempt_fetch hlists, List.take_eq_take_min]

def paging (list : List TrendCandidate) : Backend FeedIndex
  | x, .fetchPage limit offset => (.ok ((list.drop offset).take limit), x)
  | x, c => Backend.plain (fun _ => none) [] x c

def threeTrends : List TrendCandidate := ["a", "b", "c"].map fun r => ⟨r, none, none⟩

def pairedPages : TrendsSettings := { TrendsSettings.default with fetchLimit := 5, pageSize := 2 }

theorem fetch_asks_in_pages_paired :
    (pagesAsked (paging threeTrends) ∅ (fetch pairedPages)).map
        (fun p => (p.limit, p.offset)) = [(2, 0), (2, 2)] ∧
      (Routine.attempt (paging threeTrends) ∅ (fetch pairedPages)).1 = .ok threeTrends := by
  obtain ⟨-, -, -, -, hlisted⟩ := fetch_asks_in_pages (paging threeTrends) ∅ pairedPages
  exact ⟨by decide, hlisted threeTrends fun _ _ _ => rfl⟩

end Trends
end WarmFeed
