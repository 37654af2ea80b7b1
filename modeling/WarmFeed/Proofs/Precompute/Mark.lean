import WarmFeed.Proofs.Course
import WarmFeed.Proofs.Precompute.Run

/-!
# One mark for all the work

Whoever computes a subject's feeds marks the subject first.  If that fails nothing else
happens.  Otherwise the sources and the index are asked while the mark stands, and the
last request takes it back, whatever failed before.  The reply to it is not looked at.

An account's feeds are computed one after the other under a single mark, and the first
failure is the last thing that happens before the mark is taken back.
-/

namespace WarmFeed

def Call.Concerns (kind : FeedKind) (subject : Subject) : Call → Prop
  | .compute asked who _ => asked = kind ∧ who = subject
  | .index key _ => key = .index kind subject
  | .count _ _ => True
  | _ => False

theorem Call.Concerns.ne_mark {kind : FeedKind} {subject : Subject} {c : Call}
    (h : c.Concerns kind subject) (who : Subject) (seconds : Nat) : c ≠ .mark who seconds := by
  rintro rfl
  exact h

theorem Call.Concerns.ne_clear {kind : FeedKind} {subject : Subject} {c : Call}
    (h : c.Concerns kind subject) (who : Subject) : c ≠ .clear who := by
  rintro rfl
  exact h

def Call.source? : Call → Option FeedKind
  | .compute kind _ _ => some kind
  | _ => none

def sourcesAsked {σ : Type} (ms : List (Moment σ Call)) : List FeedKind :=
  ms.filterMap fun m => m.request.source?

theorem sourcesAsked_append {σ : Type} (ms ms' : List (Moment σ Call)) :
    sourcesAsked (ms ++ ms') = sourcesAsked ms ++ sourcesAsked ms' := List.filterMap_append

theorem sourcesAsked_of_asks {σ α : Type} {p : Work α} (hp : p.Asks fun c => c.source? = none)
    (answer : Backend σ) (s : σ) : sourcesAsked (p.course answer s) = [] :=
  hp.filterMap_course answer s

def IndexRequest.IsWrite : IndexRequest → Prop
  | .upsert _ | .upsertMany _ | .remove _ | .removeMany _ | .replace _ | .trim _ => True
  | _ => False

namespace Apply

/-- The attempt is made of requests of one sort about a feed, and only fails by them. -/
inductive MadeOf {α : Type} (key : StoreKey) (sort : IndexRequest → Prop) :
    Attempt StoreError α → Prop where
  | ended (x : α) : MadeOf key sort (pure x)
  | asked {r : IndexRequest} (hr : sort r) {f : r.Answer → Attempt StoreError α}
      (hf : ∀ a, MadeOf key sort (f a)) : MadeOf key sort (askIndex key r >>= f)

theorem MadeOf.asks {α : Type} {key : StoreKey} {sort : IndexRequest → Prop}
    {a : Attempt StoreError α} (h : MadeOf key sort a) :
    a.run.Asks fun c => ∃ r, sort r ∧ c = .index key r := by
  induction h with
  | ended x => exact trivial
  | asked hr _ ih => exact Routine.asks_attempt_bind (Routine.asks_request ⟨_, hr, rfl⟩) ih

/-- Whatever a feed holds, entries are brought in by writes alone, once it was read. -/
theorem apply_eq_bind (mode : ApplyMode) (capacity : Nat) (key : StoreKey) (es : List Entry) :
    ∃ rest, apply mode capacity key es = askIndex key .entries >>= rest ∧
      ∀ existing, MadeOf key IndexRequest.IsWrite (rest existing) := by
  cases mode with
  | swap => exact ⟨_, rfl, fun existing => .asked trivial fun _ => .ended _⟩
  | incremental =>
    refine ⟨_, rfl, fun existing => ?_⟩
    have htrim : ∀ n m : Nat, MadeOf key IndexRequest.IsWrite (do
        let trimmed ← askIndex key (.trim capacity)
        return (⟨n, m + trimmed⟩ : Applied)) :=
      fun n m => .asked trivial fun trimmed => .ended _
    dsimp only
    split
    · refine .asked trivial fun _ => ?_
      split
      · exact .asked trivial fun _ => htrim _ _
      · exact htrim _ _
    · split
      · exact .asked trivial fun _ => htrim _ _
      · exact htrim _ _

/-- Bringing entries in asks for nothing but the feed. -/
theorem asks_apply (mode : ApplyMode) (capacity : Nat) (key : StoreKey) (es : List Entry) :
    (apply mode capacity key es).run.Asks fun c => ∃ r, c = .index key r := by
  obtain ⟨rest, heq, hrest⟩ := apply_eq_bind mode capacity key es
  rw [heq]
  refine Routine.asks_attempt_bind (Routine.asks_request ⟨_, rfl⟩) fun existing => ?_
  exact (hrest existing).asks.imp fun c ⟨r, _, hc⟩ => ⟨r, hc⟩

end Apply

namespace Worker

variable (w : Worker) (kind : FeedKind) (subject : Subject)

theorem asks_computeAndApply :
    (w.computeAndApply kind subject).run.Asks (Call.Concerns kind subject) := by
  unfold computeAndApply
  refine Routine.asks_attempt_bind ?_ fun entries => ?_
  · unfold compute
    split
    · exact trivial
    · refine Routine.asks_attempt_bind ?_ fun reply => ?_
      · exact Routine.Asks.bind (Routine.asks_request ⟨rfl, rfl⟩) fun _ => trivial
      · match reply with
        | none => exact trivial
        | some (.error e) => exact trivial
        | some (.ok entries) => exact trivial
  · refine Routine.asks_attempt_bind (Routine.asks_mapError ?_ _) fun done => trivial
    refine (Apply.asks_apply _ _ _ _).imp ?_
    rintro c ⟨r, rfl⟩
    exact rfl

def tally (kind : FeedKind) (result : Except RunError Report) : Work (Except RunError Report) := do
  countMetric (.durations kind) 1
  countMetric (.runs kind (outcome result)) 1
  return result

theorem regenerate_eq_bind : w.regenerate kind subject =
    Routine.bind (w.computeAndApply kind subject).run (tally kind) := rfl

theorem asks_tally (result : Except RunError Report) :
    (tally kind result).Asks fun c => ∃ metric n, c = .count metric n := by
  refine Routine.Asks.bind (Routine.asks_request ⟨_, _, rfl⟩) fun _ => ?_
  exact Routine.Asks.bind (Routine.asks_request ⟨_, _, rfl⟩) fun _ => trivial

theorem asks_regenerate : (w.regenerate kind subject).Asks (Call.Concerns kind subject) := by
  refine Routine.Asks.bind (asks_computeAndApply w kind subject) fun result => ?_
  refine (asks_tally kind result).imp ?_
  rintro c ⟨metric, n, rfl⟩
  exact trivial

/-! ## The sources that are asked -/

section Sources

variable {σ : Type} (answer : Backend σ) (s : σ)

theorem course_compute :
    (w.compute kind subject).run.course answer s =
      if w.hasSource kind then [⟨s, .compute kind subject w.settings.timeoutSeconds⟩] else [] := by
  unfold compute
  cases w.hasSource kind with
  | false => rfl
  | true =>
    rw [if_pos rfl]
    refine (Routine.course_attempt_bind answer s _ _).trans ?_
    rw [Routine.attempt_liftRoutine, Routine.course_liftRoutine, Routine.course_request]
    dsimp only
    match (Routine.run answer (Routine.request (Call.compute kind subject
        w.settings.timeoutSeconds)) s).1 with
    | none => rfl
    | some (.error e) => rfl
    | some (.ok entries) => rfl

/-- A feed is computed by asking its source once, if there is one. -/
theorem sourcesAsked_regenerate :
    sourcesAsked ((w.regenerate kind subject).course answer s) =
      if w.hasSource kind then [kind] else [] := by
  have htally : ∀ result, (tally kind result).Asks fun c => c.source? = none := by
    intro result
    refine (asks_tally kind result).imp ?_
    rintro c ⟨metric, n, rfl⟩
    rfl
  have happly : ∀ es, (do
        let done ← (Apply.apply w.settings.applyMode w.settings.capacity (.index kind subject)
          es).mapError .store
        return ⟨kind, subject, done.applied, done.removed⟩ : Attempt RunError Report).run.Asks
          fun c => c.source? = none := by
    intro es
    refine Routine.asks_attempt_bind (Routine.asks_mapError ?_ _) fun done => trivial
    refine (Apply.asks_apply _ _ _ _).imp ?_
    rintro c ⟨r, rfl⟩
    rfl
  have hcompute : sourcesAsked ((w.compute kind subject).run.course answer s) =
      if w.hasSource kind then [kind] else [] := by
    rw [course_compute]
    cases w.hasSource kind <;> rfl
  rw [regenerate_eq_bind, Routine.course_bind, sourcesAsked_append,
    sourcesAsked_of_asks (htally _), List.append_nil]
  unfold computeAndApply
  refine (congrArg sourcesAsked (Routine.course_attempt_bind answer s _ _)).trans ?_
  rw [sourcesAsked_append, hcompute]
  refine (congrArg (List.append _) ?_).trans (List.append_nil _)
  cases (Routine.attempt answer s (w.compute kind subject)).1 with
  | ok es => exact sourcesAsked_of_asks (happly es) answer _
  | error e => rfl

end Sources

/-! ## One kind after the other -/

/-- What happens when the feeds of several kinds are computed in turn, and what comes of it:
kinds without a source are skipped, and nothing is asked after a failure. -/
inductive InTurn {σ : Type} (answer : Backend σ) (w : Worker) (subject : Subject) :
    List FeedKind → σ → List (Moment σ Call) → Except RunError (List Report) → Prop where
  | none {s : σ} : InTurn answer w subject [] s [] (.ok [])
  | skipped {kind : FeedKind} {rest : List FeedKind} {s : σ} {ms : List (Moment σ Call)}
      {result : Except RunError (List Report)} (hsource : w.hasSource kind = false)
      (hrest : InTurn answer w subject rest s ms result) :
      InTurn answer w subject (kind :: rest) s ms result
  | failed {kind : FeedKind} {rest : List FeedKind} {s s' : σ} {e : RunError}
      (hsource : w.hasSource kind = true)
      (hrun : (w.regenerate kind subject).run answer s = (.error e, s')) :
      InTurn answer w subject (kind :: rest) s ((w.regenerate kind subject).course answer s)
        (.error e)
  | computed {kind : FeedKind} {rest : List FeedKind} {s s' : σ} {report : Report}
      {ms : List (Moment σ Call)} {result : Except RunError (List Report)}
      (hsource : w.hasSource kind = true)
      (hrun : (w.regenerate kind subject).run answer s = (.ok report, s'))
      (hrest : InTurn answer w subject rest s' ms result) :
      InTurn answer w subject (kind :: rest) s
        ((w.regenerate kind subject).course answer s ++ ms) (result.map (report :: ·))

theorem inTurn_regenerateAll {σ : Type} (answer : Backend σ) (kinds : List FeedKind) (s : σ) :
    InTurn answer w subject kinds s ((w.regenerateAll subject kinds).course answer s)
      ((w.regenerateAll subject kinds).run answer s).1 := by
  induction kinds generalizing s with
  | nil => exact .none
  | cons kind rest ih =>
    unfold regenerateAll
    cases hsource : w.hasSource kind with
    | false => exact .skipped hsource (ih s)
    | true =>
      rw [if_pos rfl, Routine.bind_eq, Routine.course_bind, Routine.run_bind]
      generalize hrun : (w.regenerate kind subject).run answer s = ended
      obtain ⟨result, s'⟩ := ended
      cases result with
      | error e =>
        have hfailed : InTurn answer w subject (kind :: rest) s
            ((w.regenerate kind subject).course answer s) (.error e) := .failed hsource hrun
        rw [← List.append_nil ((w.regenerate kind subject).course answer s)] at hfailed
        exact hfailed
      | ok report =>
        dsimp only
        rw [Routine.bind_eq, Routine.course_bind, Routine.run_bind]
        have hcomputed := InTurn.computed hsource hrun (ih s')
        rw [← List.append_nil ((w.regenerateAll subject rest).course answer s')] at hcomputed
        exact hcomputed

namespace InTurn

variable {σ : Type} {answer : Backend σ} {w : Worker} {subject : Subject} {kinds : List FeedKind}
  {kind : FeedKind} {s s' : σ} {ms : List (Moment σ Call)}
  {result : Except RunError (List Report)}

/-- The sources are asked in the order of the kinds, and none is left out on the way. -/
theorem sourcesAsked_prefix (h : InTurn answer w subject kinds s ms result) :
    sourcesAsked ms <+: kinds.filter w.hasSource := by
  induction h with
  | none => exact List.prefix_rfl
  | skipped hsource _ ih =>
    rw [List.filter_cons_of_neg (by rw [hsource]; decide)]
    exact ih
  | failed hsource _ =>
    rw [sourcesAsked_regenerate, if_pos hsource, List.filter_cons_of_pos hsource]
    exact List.prefix_append _ _
  | computed hsource _ _ ih =>
    rw [sourcesAsked_append, sourcesAsked_regenerate, if_pos hsource,
      List.filter_cons_of_pos hsource]
    exact List.cons_prefix_cons.mpr ⟨rfl, ih⟩

/-- A failure of the first kind is what comes of all, and nothing happens after it. -/
theorem of_failed (h : InTurn answer w subject (kind :: kinds) s ms result) {e : RunError}
    (hsource : w.hasSource kind = true)
    (hrun : (w.regenerate kind subject).run answer s = (.error e, s')) :
    ms = (w.regenerate kind subject).course answer s ∧ result = .error e := by
  cases h with
  | skipped hnone => exact absurd (hsource.symm.trans hnone) (by decide)
  | failed _ hfailed =>
    have hsame := congrArg Prod.fst (hfailed.symm.trans hrun)
    exact ⟨rfl, congrArg Except.error (Except.error.inj hsame)⟩
  | computed _ hended => nomatch congrArg Prod.fst (hended.symm.trans hrun)

end InTurn

/-! ## The mark -/

/-- What is returned when the subject could be marked or could not. -/
def settle {α : Type} : Except StoreError (Except RunError α) → Work (Except RunError α)
  | .ok result => .done result
  | .error e => .done (.error (.store e))

section UnderMark

variable {σ α : Type} {answer : Backend σ} {s : σ} {seconds : Nat}
  (work : Work (Except RunError α))

/-- The tree of work under a mark. -/
theorem underMark_bind_settle : (underMark seconds subject work).bind settle =
    .ask (.mark subject seconds) [] fun
      | .error e => .done (.error (.store e))
      | .ok () => (work.guarded [.clear subject]).bind fun result =>
          .ask (.clear subject) [] fun _ => .done result := by
  unfold underMark
  rw [Routine.bind_eq, Routine.bind_assoc]
  refine congrArg (Routine.ask (R := Call.Reply) (.mark subject seconds) []) ?_
  funext reply
  cases reply with
  | error e => rfl
  | ok =>
    show Routine.bind ((work.guarded [.clear subject]).bind _) _ = _
    rw [Routine.bind_assoc]
    rfl

theorem course_underMark (hmarked : (answer s (.mark subject seconds)).1 = .ok ()) :
    (underMark seconds subject work).course answer s =
      ⟨s, .mark subject seconds⟩ ::
        (work.course answer (answer s (.mark subject seconds)).2 ++
          [⟨(work.run answer (answer s (.mark subject seconds)).2).2, .clear subject⟩]) := by
  unfold underMark
  rw [Routine.bind_eq, Routine.course_bind, Routine.course_request, Routine.run_request, hmarked]
  show ⟨s, _⟩ :: Routine.course answer ((work.guarded [Call.clear subject]).bind _) _ = _
  rw [Routine.course_bind, Routine.course_guarded, Routine.run_guarded]
  rfl

theorem course_settle (hmarked : (answer s (.mark subject seconds)).1 = .ok ()) :
    ((underMark seconds subject work).bind settle).course answer s =
      ⟨s, .mark subject seconds⟩ ::
        (work.course answer (answer s (.mark subject seconds)).2 ++
          [⟨(work.run answer (answer s (.mark subject seconds)).2).2, .clear subject⟩]) := by
  have hrun := run_underMark hmarked (rfl : work.run answer _ = _)
  rw [Routine.course_bind, hrun, course_underMark subject work hmarked]
  exact List.append_nil _

theorem run_settle (hmarked : (answer s (.mark subject seconds)).1 = .ok ()) :
    ((underMark seconds subject work).bind settle).run answer s =
      ((work.run answer (answer s (.mark subject seconds)).2).1,
        (answer (work.run answer (answer s (.mark subject seconds)).2).2 (.clear subject)).2) := by
  have hrun := run_underMark hmarked (rfl : work.run answer _ = _)
  rw [Routine.run_bind, hrun]
  rfl

theorem settle_refused {e : StoreError}
    (hmark : (answer s (.mark subject seconds)).1 = .error e) :
    ((underMark seconds subject work).bind settle).course answer s =
        [⟨s, .mark subject seconds⟩] ∧
      ((underMark seconds subject work).bind settle).run answer s =
        (.error (.store e), (answer s (.mark subject seconds)).2) := by
  unfold underMark
  rw [Routine.bind_eq, Routine.bind_assoc, Routine.course_bind, Routine.run_bind,
    Routine.course_request, Routine.run_request, hmark]
  exact ⟨rfl, rfl⟩

theorem asks_settle {sort : Call → Prop} {work : Work (Except RunError α)}
    (hwork : work.Asks sort) (hmark : sort (.mark subject seconds))
    (hclear : sort (.clear subject)) :
    ((underMark seconds subject work).bind settle).Asks sort := by
  rw [underMark_bind_settle]
  refine ⟨hmark, fun reply => ?_⟩
  cases reply with
  | error e => trivial
  | ok => exact Routine.Asks.bind (hwork.guarded _) fun _ => ⟨hclear, fun _ => trivial⟩

end UnderMark

/-- `whole` does `work` on a subject under one mark.  The work itself neither marks nor
clears anything, since its requests are of a sort that does not. -/
structure UnderOneMark {σ α : Type} (answer : Backend σ) (marks : σ → Marks) (clock : σ → Nat)
    (seconds : Nat) (subject : Subject) (sort : Call → Prop) (work whole : Work (Except RunError α))
    (s : σ) : Prop where
  /-- If the subject cannot be marked nothing else happens. -/
  refused : ∀ e, (answer s (.mark subject seconds)).1 = .error e →
    whole.course answer s = [⟨s, .mark subject seconds⟩] ∧
      (whole.run answer s).1 = .error (.store e)
  /-- Otherwise the work stands between one mark and one clearing. -/
  course : (answer s (.mark subject seconds)).1 = .ok () →
    whole.course answer s = ⟨s, .mark subject seconds⟩ ::
      (work.course answer (answer s (.mark subject seconds)).2 ++
        [⟨(work.run answer (answer s (.mark subject seconds)).2).2, .clear subject⟩])
  /-- What comes of it is what comes of the work, whatever the clearing is answered. -/
  result : (answer s (.mark subject seconds)).1 = .ok () →
    (whole.run answer s).1 = (work.run answer (answer s (.mark subject seconds)).2).1
  /-- The subject stays marked until it is cleared, unless the time of the mark is over. -/
  during : (answer s (.mark subject seconds)).1 = .ok () →
    ∀ m ∈ work.course answer (answer s (.mark subject seconds)).2, sort m.request ∧
      (clock m.state < clock s + 1000 * seconds →
        (marks m.state).isMarked subject (clock m.state) = true)
  cleared : ∀ final, (answer final (.clear subject)).1 = .ok () →
    ∀ now, (marks (answer final (.clear subject)).2).isMarked subject now = false

section UnderOneMark

variable {σ α : Type} {answer : Backend σ} {marks : σ → Marks} {clock : σ → Nat} {seconds : Nat}
  {sort : Call → Prop} {work whole : Work (Except RunError α)}

/-- A mark outlives whatever neither marks nor clears. -/
theorem staysIn_marked (h : Backend.HoldsMarks answer marks clock) {s : σ}
    (hmarked : (answer s (.mark subject seconds)).1 = .ok ()) (hwork : work.Asks sort)
    (hsort : ∀ c, sort c → (∀ who seconds, c ≠ .mark who seconds) ∧ ∀ who, c ≠ .clear who) :
    Routine.StaysIn answer
      (fun t => marks t = (marks s).mark subject (clock s) (1000 * seconds))
      (answer s (.mark subject seconds)).2 work :=
  hwork.staysIn (fun t c hc ht => (h.other t c (hsort c hc).1 (hsort c hc).2).trans ht)
    (h.mark s subject seconds hmarked)

theorem isMarked_of_asks (h : Backend.HoldsMarks answer marks clock) {s : σ}
    (hmarked : (answer s (.mark subject seconds)).1 = .ok ()) (hwork : work.Asks sort)
    (hsort : ∀ c, sort c → (∀ who seconds, c ≠ .mark who seconds) ∧ ∀ who, c ≠ .clear who) :
    ∀ m ∈ work.course answer (answer s (.mark subject seconds)).2,
      clock m.state < clock s + 1000 * seconds →
        (marks m.state).isMarked subject (clock m.state) = true := by
  intro m hm htime
  have hmarks := (staysIn_marked subject h hmarked hwork hsort).1 m hm
  rw [hmarks, Marks.isMarked_mark, if_pos rfl]
  exact decide_eq_true htime

theorem underOneMark (h : Backend.HoldsMarks answer marks clock) (hwork : work.Asks sort)
    (hsort : ∀ c, sort c → (∀ who seconds, c ≠ .mark who seconds) ∧ ∀ who, c ≠ .clear who)
    (hwhole : whole = (underMark seconds subject work).bind settle) (s : σ) :
    UnderOneMark answer marks clock seconds subject sort work whole s where
  refused e hmark := by
    obtain ⟨hcourse, hrun⟩ := settle_refused subject work hmark
    rw [hwhole, hcourse, hrun]
    exact ⟨rfl, rfl⟩
  course hmarked := by
    rw [hwhole]
    exact course_settle subject work hmarked
  result hmarked := by
    rw [hwhole, run_settle subject work hmarked]
  during hmarked m hm :=
    ⟨hwork.of_mem_course hm, isMarked_of_asks subject h hmarked hwork hsort m hm⟩
  cleared final hcleared now := by
    rw [h.clear final subject hcleared, Marks.isMarked_clear]
    simp

end UnderOneMark

/-! ## A run, and an account -/

theorem run_eq_underMark : w.run kind subject =
    (underMark w.settings.markSeconds subject (w.regenerate kind subject)).bind settle := by
  unfold run
  rw [Routine.bind_eq]
  congr 1
  funext result
  cases result <;> rfl

abbrev accountWork (account : AccountId) : Work (Except RunError (List Report)) :=
  w.regenerateAll (.account account) [.home, .forYou]

theorem populate_eq_underMark (account : AccountId) : w.populate account =
    (underMark w.settings.markSeconds (.account account) (w.accountWork account)).bind
      settle := by
  unfold populate
  rw [Routine.bind_eq]
  congr 1
  funext result
  cases result <;> rfl

theorem asks_regenerateAll (kinds : List FeedKind) :
    (w.regenerateAll subject kinds).Asks fun c => ∃ kind ∈ kinds, c.Concerns kind subject := by
  induction kinds with
  | nil => exact trivial
  | cons kind rest ih =>
    have hfirst : (w.regenerate kind subject).Asks
        fun c => ∃ kind' ∈ kind :: rest, c.Concerns kind' subject :=
      (w.asks_regenerate kind subject).imp fun c hc => ⟨kind, List.mem_cons_self, hc⟩
    have hrest : (w.regenerateAll subject rest).Asks
        fun c => ∃ kind' ∈ kind :: rest, c.Concerns kind' subject :=
      ih.imp fun c ⟨kind', hmem, hc⟩ => ⟨kind', List.mem_cons_of_mem _ hmem, hc⟩
    unfold regenerateAll
    cases w.hasSource kind with
    | false => exact hrest
    | true =>
      refine Routine.Asks.bind hfirst fun result => ?_
      cases result with
      | error e => exact trivial
      | ok report => exact Routine.Asks.bind hrest fun _ => trivial

/-- Whatever fails, a run and the computation of an account's feeds mark their subject
first, ask sources and the index while it is marked, and clear it last.  An account's feeds
are computed in turn, and after a failure with the first the other is left alone. -/
theorem computes_under_one_mark {σ : Type} {answer : Backend σ} {marks : σ → Marks}
    {clock : σ → Nat} (h : Backend.HoldsMarks answer marks clock) (w : Worker) (s : σ) :
    (∀ kind subject,
      UnderOneMark answer marks clock w.settings.markSeconds subject (Call.Concerns kind subject)
        (w.regenerate kind subject) (w.run kind subject) s ∧
      ∀ t, sourcesAsked ((w.regenerate kind subject).course answer t) =
        if w.hasSource kind then [kind] else []) ∧
    ∀ account,
      UnderOneMark answer marks clock w.settings.markSeconds (.account account)
        (fun c => ∃ kind ∈ [.home, .forYou], c.Concerns kind (.account account))
        (w.accountWork account) (w.populate account) s ∧
      ∀ t, InTurn answer w (.account account) [.home, .forYou] t
          ((w.accountWork account).course answer t) ((w.accountWork account).run answer t).1 ∧
        sourcesAsked ((w.accountWork account).course answer t) <+:
          [FeedKind.home, .forYou].filter w.hasSource ∧
        ∀ e t', w.hasSource .home = true →
          (w.regenerate .home (.account account)).run answer t = (.error e, t') →
          sourcesAsked ((w.accountWork account).course answer t) = [.home] ∧
            ((w.accountWork account).run answer t).1 = .error e := by
  constructor
  · intro kind subject
    have hsort : ∀ c, Call.Concerns kind subject c →
        (∀ who seconds, c ≠ .mark who seconds) ∧ ∀ who, c ≠ .clear who :=
      fun c hc => ⟨hc.ne_mark, hc.ne_clear⟩
    exact ⟨underOneMark subject h (w.asks_regenerate kind subject) hsort
      (w.run_eq_underMark kind subject) s, fun t => sourcesAsked_regenerate w kind subject answer t⟩
  · intro account
    have hsort : ∀ c, (∃ kind ∈ [.home, .forYou], Call.Concerns kind (.account account) c) →
        (∀ who seconds, c ≠ .mark who seconds) ∧ ∀ who, c ≠ .clear who :=
      fun c ⟨kind, _, hc⟩ => ⟨hc.ne_mark, hc.ne_clear⟩
    refine ⟨underOneMark (.account account) h (w.asks_regenerateAll (.account account) _) hsort
      (w.populate_eq_underMark account) s, fun t => ?_⟩
    have hturn := w.inTurn_regenerateAll (.account account) answer [.home, .forYou] t
    refine ⟨hturn, hturn.sourcesAsked_prefix, fun e t' hsource hfailed => ?_⟩
    obtain ⟨hcourse, hresult⟩ := hturn.of_failed hsource hfailed
    rw [hcourse, sourcesAsked_regenerate, if_pos hsource]
    exact ⟨rfl, hresult⟩

def bothFeeds : Worker := ⟨[.home, .forYou], PrecomputeSettings.default⟩

/-- A backend whose home source never comes back, and on which no mark can be cleared. -/
def stalled : Backend Backend.Setting :=
  Backend.faulty
    (fun c => match c with
      | .clear _ => some (.lost (.backend "connection reset"))
      | _ => none)
    (fun kind => match kind with
      | .home => none
      | _ => some (.ok []))

theorem computes_under_one_mark_stalled :
    ((bothFeeds.populate 7).run stalled .empty).1 = .error (.timeout (.ofSeconds 30)) ∧
      ((bothFeeds.populate 7).course stalled .empty).map Moment.request =
        [.mark (.account 7) 3600, .compute .home (.account 7) 30, .count (.durations .home) 1,
          .count (.runs .home .timeout) 1, .clear (.account 7)] ∧
      ∀ m ∈ (bothFeeds.accountWork 7).course stalled (stalled .empty (.mark (.account 7) 3600)).2,
        m.state.clock < 3600000 → m.state.marks.isMarked (.account 7) m.state.clock = true := by
  have hmarks : Backend.HoldsMarks stalled Backend.Setting.marks Backend.Setting.clock :=
    Backend.holdsMarks_faulty _ _
  obtain ⟨-, haccount⟩ := computes_under_one_mark hmarks bothFeeds .empty
  obtain ⟨hmark, hturn⟩ := haccount 7
  obtain ⟨-, -, hfailed⟩ := hturn (stalled .empty (.mark (.account 7) 3600)).2
  obtain ⟨-, hresult⟩ := hfailed (.timeout (.ofSeconds 30)) _ rfl rfl
  have hdeadline : Backend.Setting.empty.clock + 1000 * bothFeeds.settings.markSeconds = 3600000 :=
    rfl
  refine ⟨(hmark.result rfl).trans hresult, ?_, fun m hm htime => ?_⟩
  · rw [hmark.course rfl]
    rfl
  · obtain ⟨-, hmarked⟩ := hmark.during rfl m hm
    rw [hdeadline] at hmarked
    exact hmarked htime

end Worker
end WarmFeed
