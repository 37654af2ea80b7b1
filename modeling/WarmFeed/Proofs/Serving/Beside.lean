import WarmFeed.Proofs.Ending
import WarmFeed.Proofs.Precompute.Overlap
import WarmFeed.Proofs.Precompute.Passage
import WarmFeed.Proofs.Serving.Hydration
import WarmFeed.Proofs.Serving.Reader

/-!
# A page that is read while its feed is computed

A page asks whether its account is marked before it reads anything from the index, and it never
asks again.  A job marks its subject before it reads or writes anything, and takes the mark back
after its last write.  So a page that counts as complete though the job had begun before it was
asked for comes after all that the job has written; and one that shows anything else of a job
that had begun counts as regenerating, even if the job has ended long before the page is built.
-/

namespace WarmFeed

/-! ## Reads leave the index alone -/

theorem FeedIndex.answer_of_read (x : FeedIndex) (key : StoreKey) {r : IndexRequest}
    (hr : ¬ r.IsWrite) : (x.answer key r).2 = x := by
  cases r with
  | rank | score | range | rankWindow | entries | size => rfl
  | _ => exact absurd trivial hr

section Reads

variable {σ α : Type} {answer : Backend σ} {view : σ → FeedIndex}
  (h : Backend.HoldsIndex answer view)

include h

theorem Backend.HoldsIndex.view_of_read (t : σ) {c : Call} (hc : ¬ c.Writes) :
    view (answer t c).2 = view t := by
  cases c with
  | index key r => rw [(h.request t key r).2, (view t).answer_of_read key hc]
  | _ => exact h.other t _ fun _ _ => Call.noConfusion

theorem Backend.HoldsIndex.succeedsIn_askIndex {key : StoreKey} {r : IndexRequest}
    (hread : ∀ x : FeedIndex, ∃ a, (x.answer key r).1 = .ok a) :
    Routine.SucceedsIn answer (fun _ => True) (askIndex key r) 1 := by
  refine ⟨Nat.one_pos, fun t => ?_⟩
  obtain ⟨a, ha⟩ := hread (view t)
  exact ⟨a, (h.request t key r).1.trans ha, trivial⟩

/-- As long as nobody writes, the index is the same in every turn. -/
theorem Backend.HoldsIndex.view_turns (schedule : List Nat) (ps : List (Work α)) (s : σ)
    (hreads : ∀ m ∈ Routine.turns answer schedule ps s, ¬ m.request.Writes) :
    (∀ m ∈ Routine.turns answer schedule ps s, view m.state = view s) ∧
      view (Routine.interleave answer schedule ps s).2 = view s := by
  have hkept : ∀ ms t c (i : Nat),
      ((∀ m ∈ ms, ¬ m.request.Writes) → (∀ m ∈ ms, view m.state = view s) ∧ view t = view s) →
      (∀ m ∈ ms ++ [(⟨⟨t, c⟩, i⟩ : Turn σ Call)], ¬ m.request.Writes) →
      (∀ m ∈ ms ++ [(⟨⟨t, c⟩, i⟩ : Turn σ Call)], view m.state = view s) ∧
        view (answer t c).2 = view s := by
    intro ms t c i hms hall
    obtain ⟨hstates, ht⟩ := hms fun m hm => hall m (List.mem_append_left _ hm)
    have hlast := hall _ (List.mem_append_right ms (List.mem_singleton_self _))
    refine ⟨fun m hm => ?_, (h.view_of_read t hlast).trans ht⟩
    rcases List.mem_append.mp hm with hm | hm
    · exact hstates m hm
    · rw [List.mem_singleton.mp hm]
      exact ht
  exact Routine.turns_induction hkept schedule ps
    (fun _ => ⟨fun _ hm => absurd hm List.not_mem_nil, rfl⟩) hreads

end Reads

/-! ## What a page asks for -/

namespace Reader

theorem asks_resolveCursor (key : StoreKey) (cursor : Option ContentId) :
    (resolveCursor key cursor).run.Asks fun c => ¬ c.Writes := by
  unfold resolveCursor
  cases cursor with
  | none => trivial
  | some id =>
    refine Routine.asks_attempt_bind (Routine.asks_request not_false) fun score => ?_
    cases score <;> trivial

theorem asks_read (kind : FeedKind) (subject : Subject) (page : PageRequest) (limit : Nat) :
    (read kind subject page limit).run.Asks fun c => ¬ c.Writes := by
  unfold read
  split
  · trivial
  · refine Routine.asks_mapError (Routine.asks_attempt_bind ?_ fun query => ?_) _
    · refine Routine.asks_attempt_bind (asks_resolveCursor _ _) fun upper => ?_
      split
      · exact Routine.asks_attempt_bind (asks_resolveCursor _ _) fun _ => trivial
      · exact Routine.asks_attempt_bind (asks_resolveCursor _ _) fun _ => trivial
    · exact Routine.asks_attempt_bind (Routine.asks_request not_false) fun _ => trivial

section Succeeds

variable {σ : Type} {answer : Backend σ} {view : σ → FeedIndex}
  (h : Backend.HoldsIndex answer view)

include h

theorem succeedsIn_resolveCursor (key : StoreKey) (cursor : Option ContentId) :
    Routine.SucceedsIn answer (fun _ => True) (resolveCursor key cursor) 1 := by
  unfold resolveCursor
  cases cursor with
  | none => exact (Routine.succeedsIn_pure trivial).mono (Nat.zero_le 1)
  | some id =>
    refine (h.succeedsIn_askIndex fun _ => ⟨_, rfl⟩).bind (n := 0) fun score _ => ?_
    cases score <;> exact Routine.succeedsIn_pure trivial

theorem succeedsIn_read {kind : FeedKind} (hkind : kind.isPagedByOffset = false)
    (subject : Subject) (page : PageRequest) (limit : Nat) :
    Routine.SucceedsIn answer (fun _ => True) (read kind subject page limit) 3 := by
  unfold read
  rw [hkind, if_neg Bool.false_ne_true]
  refine Routine.SucceedsIn.mapError (Routine.SucceedsIn.bind (m := 2) (n := 1)
    (J := fun _ => True) ?_ fun query _ => ?_) _
  · unfold resolveQuery
    refine (succeedsIn_resolveCursor h _ _).bind (n := 1) fun upper _ => ?_
    split
    · exact (succeedsIn_resolveCursor h _ _).bind (n := 0) fun _ _ =>
        Routine.succeedsIn_pure trivial
    · exact (succeedsIn_resolveCursor h _ _).bind (n := 0) fun _ _ =>
        Routine.succeedsIn_pure trivial
  · exact (h.succeedsIn_askIndex fun _ => ⟨_, rfl⟩).bind (n := 0) fun _ _ =>
      Routine.succeedsIn_pure trivial

end Succeeds

end Reader

theorem Hydration.succeedsIn_hydrate {σ : Type} {answer : Backend σ}
    (hfetch : ∀ t ids, ∃ found, (answer t (.bulkFetch ids)).1 = .ok found)
    (ids : List ContentId) : Routine.SucceedsIn answer (fun _ => True) (hydrate ids) 2 := by
  unfold hydrate
  split
  · exact (Routine.succeedsIn_pure trivial).mono (Nat.zero_le 2)
  · have hbulk : Routine.SucceedsIn answer (fun _ => True)
        (ExceptT.mk (Routine.request (Call.bulkFetch (distinct ids))) :
          Attempt ServiceError (List Status)) 1 :=
      ⟨Nat.one_pos, fun t => (hfetch t _).imp fun _ hfound => ⟨hfound, trivial⟩⟩
    refine hbulk.bind (n := 1) fun fetched _ => ?_
    dsimp only
    split
    · exact (Routine.succeedsIn_liftRoutine (J := fun _ => True)
        (Routine.endsIn_request fun _ => trivial)).bind (n := 0) fun _ _ =>
          Routine.succeedsIn_pure trivial
    · exact (Routine.succeedsIn_pure trivial).mono (Nat.zero_le 1)

namespace Timeline

variable (settings : ServingSettings) (kind : FeedKind) (account : AccountId)
  (request : PageRequest)

/-- The rest of a page, once it was told whether the account is marked. -/
def pageGiven (regenerating : Bool) : Attempt ServiceError FeedPage := do
  let window ← Reader.read kind (.account account) request
    (request.effectiveLimit settings.defaultLimit settings.maxLimit)
  let statuses ← Hydration.hydrate window.ids
  return ⟨statuses, .ofRegenerating regenerating, .ofWindow window⟩

theorem page_run_eq : (page settings kind account request).run =
    .ask (.isMarked (.account account)) [] fun reply =>
      (pageGiven settings kind account request (reply.toOption.getD false)).run := by
  show Routine.ask _ _ _ = _
  congr 1
  funext reply
  cases reply <;> rfl

theorem asks_page : (page settings kind account request).run.Asks fun c => ¬ c.Writes := by
  rw [page_run_eq]
  refine ⟨not_false, fun reply => ?_⟩
  refine Routine.asks_attempt_bind (Reader.asks_read _ _ _ _) fun window => ?_
  refine Routine.asks_attempt_bind ((Hydration.asks_hydrate _).imp ?_) fun _ => trivial
  rintro _ (⟨ids, rfl⟩ | ⟨metric, n, rfl⟩) <;> exact not_false

theorem succeedsIn_pageGiven {σ : Type} {answer : Backend σ} {view : σ → FeedIndex}
    (h : Backend.HoldsIndex answer view)
    (hfetch : ∀ t ids, ∃ found, (answer t (.bulkFetch ids)).1 = .ok found)
    (hkind : kind.isPagedByOffset = false) (regenerating : Bool) :
    Routine.SucceedsIn answer (fun shown => shown.status = .ofRegenerating regenerating)
      (pageGiven settings kind account request regenerating) 5 := by
  refine (Reader.succeedsIn_read h hkind _ _ _).bind (n := 2) fun window _ => ?_
  refine (Hydration.succeedsIn_hydrate hfetch _).bind (n := 0) fun statuses _ => ?_
  exact Routine.succeedsIn_pure rfl

/-! ## A page beside a job -/

def besideJob (job : Job) : List (Work (Option (Except ServiceError FeedPage))) :=
  [(page settings kind account request).run.bind fun result => .done (some result),
    job.work.bind fun _ => .done none]

/-- What a page tells of the job beside it, given the turns before it asked whether its account
is marked, those from then on, and the state at the end.  A read of the index shows less than
the job leaves if it comes before one of the job's writes or finds another content. -/
structure Tells {σ : Type} (view : σ → FeedIndex) (subject : Subject) (status : FeedStatus)
    (before later : List (Turn σ Call)) (ended : Prop) (last : σ) : Prop where
  status_eq : status = .regenerating ↔ InFlight subject 1 before
  complete : (∃ seconds, .mark subject seconds ∈ requestsOf 1 before) → status = .complete →
    ended ∧ ∀ m ∈ later, view m.state = view last
  unfinished : (∃ seconds, .mark subject seconds ∈ requestsOf 1 before) →
    ∀ between m rest, later = between ++ m :: rest → m.place = 0 →
      (∃ c ∈ requestsOf 1 rest, c.Writes) ∨ view m.state ≠ view last → status = .regenerating

section Beside

variable {settings kind account request} {σ : Type} {answer : Backend σ} {view : σ → FeedIndex}
  {marks : σ → Marks} {clock : σ → Nat} {job : Job} {s : σ}
  {ps : List (Work (Option (Except ServiceError FeedPage)))}
  (hps : ps = besideJob settings kind account request job)

include hps

theorem getElem?_page : ps[0]? = some (.ask (.isMarked (.account account)) [] fun reply =>
    (pageGiven settings kind account request (reply.toOption.getD false)).run.bind
      fun result => .done (some result)) := by
  rw [hps, besideJob, page_run_eq]
  rfl

theorem place_of_mem_turns {schedule : List Nat} {m : Turn σ Call}
    (hm : m ∈ Routine.turns answer schedule ps s) : m.place = 0 ∨ m.place = 1 := by
  obtain ⟨p, hp⟩ := Routine.exists_of_mem_turns answer hm
  have hlt := (List.getElem?_eq_some_iff.mp hp).1
  rw [hps] at hlt
  have htwo : m.place < 2 := hlt
  omega

/-- The job goes through its own stages, whatever the page asks for meanwhile. -/
theorem exists_stage (htells : Backend.TellsMarks answer marks clock) (schedule : List Nat) :
    ∃ left, (Routine.interleave answer schedule ps s).1[1]? = some left ∧
      job.Stage (requestsOf 1 (Routine.turns answer schedule ps s)) left.value?.isSome := by
  have hjob : ps[1]? = some (job.work.bind fun _ => .done none) := by rw [hps]; rfl
  obtain ⟨left, hleft, hcomes⟩ := Routine.comesTo_interleave answer schedule hjob s
  refine ⟨left, hleft, ?_⟩
  rcases hcomes.of_bind with ⟨p, hp, rfl⟩ | ⟨_, cs, cs', hcs, hp, hrest⟩
  · have hstage := Job.stage_of_comesTo htells hp
    cases p <;> exact hstage
  · cases hrest
    rw [hcs, List.append_nil]
    exact Job.stage_of_comesTo htells hp

/-- When a page has ended there was a turn in which it asked for its first time, and until then
it had not begun. -/
theorem exists_first_turn {schedule : List Nat} {result : Except ServiceError FeedPage}
    (hended : (Routine.interleave answer schedule ps s).1[0]? = some (.done (some result))) :
    ∃ first second, schedule = first ++ 0 :: second ∧
      requestsOf 0 (Routine.turns answer first ps s) = [] ∧
      (Routine.interleave answer first ps s).1[0]? = ps[0]? := by
  have hpage := getElem?_page hps
  obtain ⟨left, hleft, hcomes⟩ := Routine.comesTo_interleave answer schedule hpage s
  obtain rfl := Option.some.inj (hleft.symm.trans hended)
  have hasked : requestsOf 0 (Routine.turns answer schedule ps s) ≠ [] := by
    intro hnone
    rw [hnone] at hcomes
    nomatch hcomes.eq_ask
  obtain ⟨before, m, later, hturns, hplace, hbefore⟩ := exists_first_of_requestsOf hasked
  obtain ⟨first, second, -, -, hschedule, hfirst, -, -⟩ :=
    Routine.exists_split_of_turns answer hturns
  rw [hplace] at hschedule
  refine ⟨first, second, hschedule, hfirst ▸ hbefore, ?_⟩
  obtain ⟨left, hleft, hcomes⟩ := Routine.comesTo_interleave answer first hpage s
  rw [hfirst, hbefore] at hcomes
  rw [hleft, hcomes.eq_ask, hpage]

/-- Until a page begins, its account is marked just if the job is between its mark and its
end. -/
theorem isMarked_iff_inFlight (htells : Backend.TellsMarks answer marks clock) (first : List Nat)
    (hs : ∀ deadline, (marks s).deadline? (.account account) = some deadline →
      deadline ≤ clock (Routine.interleave answer first ps s).2)
    (hlasting : ∀ m ∈ Routine.turns answer first ps s, ∀ seconds,
      m.request = .mark (.account account) seconds →
        clock (Routine.interleave answer first ps s).2 < clock m.state + 1000 * seconds)
    (hnone : requestsOf 0 (Routine.turns answer first ps s) = []) :
    (marks (Routine.interleave answer first ps s).2).isMarked (.account account)
        (clock (Routine.interleave answer first ps s).2) = true ↔
      InFlight (.account account) 1 (Routine.turns answer first ps s) := by
  have haccounts := Routine.turns_induction
    (P := AccountsSince ((marks s).deadline? (.account account)) marks clock (.account account))
    (fun ms t c i hms => hms.turn htells c i) first ps (accountsSince_start s)
  obtain ⟨left, -, hstage⟩ := exists_stage hps (s := s) htells first
  have hplace : ∀ m ∈ Routine.turns answer first ps s, m.place = 1 := by
    intro m hm
    refine (place_of_mem_turns hps hm).resolve_left fun hplace => ?_
    have hmem := mem_requestsOf.mpr ⟨m, hm, hplace, rfl⟩
    rw [hnone] at hmem
    exact List.not_mem_nil hmem
  rw [haccounts.isMarked_iff_of_stale hlasting hs]
  constructor
  · rintro ⟨i, hi⟩
    obtain ⟨m, later, hsuffix, hi', -⟩ := id hi
    obtain rfl : i = 1 := hi'.symm.trans (hplace m (hsuffix.subset List.mem_cons_self))
    exact hi.inFlight hstage
  · intro hflight
    refine ⟨1, hflight.uncleared_or_overtaken.resolve_right ?_⟩
    rintro ⟨m, later, hsuffix, -, -, m', hm', hother, -⟩
    exact hother (hplace m' (hsuffix.subset (List.mem_cons_of_mem m hm')))

/-- What a page shows is shown whatever happens, with the status that it was told in its first
turn. -/
theorem exists_shown (h : Backend.HoldsIndex answer view)
    (htells : Backend.TellsMarks answer marks clock)
    (hfetch : ∀ t ids, ∃ found, (answer t (.bulkFetch ids)).1 = .ok found)
    (hkind : kind.isPagedByOffset = false) {first second : List Nat}
    (hfirst : (Routine.interleave answer first ps s).1[0]? = ps[0]?)
    {result : Except ServiceError FeedPage}
    (hended : (Routine.interleave answer (first ++ 0 :: second) ps s).1[0]? =
      some (.done (some result))) :
    ∃ shown, result = .ok shown ∧ shown.status = .ofRegenerating
      ((marks (Routine.interleave answer first ps s).2).isMarked (.account account)
        (clock (Routine.interleave answer first ps s).2)) := by
  rw [Routine.interleave_append] at hended
  generalize Routine.interleave answer first ps s = reached at *
  obtain ⟨qs, t⟩ := reached
  have hpage : qs[0]? = _ := hfirst.trans (getElem?_page hps)
  rw [Routine.interleave_cons_of_some answer hpage] at hended
  dsimp only [Routine.turn] at hended
  rw [htells.told] at hended
  have hset := List.getElem?_set_self (a := (pageGiven settings kind account request
    ((marks t).isMarked (.account account) (clock t))).run.bind fun result =>
      (.done (some result) : Work (Option (Except ServiceError FeedPage))))
    (List.getElem?_eq_some_iff.mp hpage).1
  have hends := Routine.EndsIn.bind (n := 0) (succeedsIn_pageGiven settings kind account request
    h hfetch hkind ((marks t).isMarked (.account account) (clock t)))
    (f := fun result => .done (some result)) (K := fun x => ∃ shown, x = some (.ok shown) ∧
      shown.status = .ofRegenerating ((marks t).isMarked (.account account) (clock t)))
    (by rintro _ ⟨shown, rfl, hstatus⟩; exact ⟨shown, rfl, hstatus⟩)
  obtain ⟨left, hleft, hlast⟩ := hends.interleave second hset
    (answer t (.isMarked (.account account))).2
  obtain rfl := Option.some.inj (hleft.symm.trans hended)
  obtain ⟨shown, hresult, hstatus⟩ := hlast
  exact ⟨shown, Option.some.inj hresult, hstatus⟩

/-- Once the job has taken back its mark nothing happens to the index any more. -/
theorem stays_after_clear (h : Backend.HoldsIndex answer view)
    (htells : Backend.TellsMarks answer marks clock) (first rest : List Nat)
    (hclear : .clear job.subject ∈ requestsOf 1 (Routine.turns answer first ps s)) :
    let reached := Routine.interleave answer first ps s
    let last := Routine.interleave answer rest reached.1 reached.2
    (∃ x, last.1[1]? = some (.done x)) ∧
      requestsOf 1 (Routine.turns answer rest reached.1 reached.2) = [] ∧
      (∀ m ∈ Routine.turns answer rest reached.1 reached.2, view m.state = view reached.2) ∧
      view last.2 = view reached.2 := by
  intro reached last
  have hall : Routine.turns answer (first ++ rest) ps s = Routine.turns answer first ps s ++
      Routine.turns answer rest reached.1 reached.2 := Routine.turns_append answer first rest ps s
  have hlast : Routine.interleave answer (first ++ rest) ps s = last :=
    Routine.interleave_append answer first rest ps s
  obtain ⟨left, hleft, hstage⟩ := exists_stage hps (s := s) htells (first ++ rest)
  rw [hall, requestsOf_append] at hstage
  obtain ⟨hnone, hdone⟩ := hstage.ended_of_clear hclear
  have hreads : ∀ m ∈ Routine.turns answer rest reached.1 reached.2, ¬ m.request.Writes := by
    intro m hm
    have hmem : m ∈ Routine.turns answer (first ++ rest) ps s :=
      hall ▸ List.mem_append_right _ hm
    rcases place_of_mem_turns hps hmem with hplace | hplace
    · have hpage : ps[0]? = some ((page settings kind account request).run.bind
          fun result => .done (some result)) := by rw [hps]; rfl
      obtain ⟨p, -, hcomes⟩ := Routine.comesTo_interleave answer (first ++ rest) hpage s
      exact hcomes.asks ((asks_page settings kind account request).bind fun _ => trivial) _
        (mem_requestsOf.mpr ⟨m, hmem, hplace, rfl⟩)
    · have hrequest := mem_requestsOf.mpr ⟨m, hm, hplace, rfl⟩
      rw [hnone] at hrequest
      exact absurd hrequest List.not_mem_nil
  obtain ⟨hstates, hview⟩ := h.view_turns rest reached.1 reached.2 hreads
  refine ⟨?_, hnone, hstates, hview⟩
  rw [← hlast, hleft]
  cases left with
  | done x => exact ⟨x, rfl⟩
  | ask => nomatch hdone
  | pause => nomatch hdone

/-- With a turn for each of its requests, a page has ended. -/
theorem exists_result (h : Backend.HoldsIndex answer view)
    (hfetch : ∀ t ids, ∃ found, (answer t (.bulkFetch ids)).1 = .ok found)
    (hkind : kind.isPagedByOffset = false) {schedule : List Nat} (hturns : 6 ≤ schedule.count 0) :
    ∃ result, (Routine.interleave answer schedule ps s).1[0]? = some (.done (some result)) := by
  have hends : Routine.EndsIn answer (fun x => ∃ result, x = some result)
      (.ask (.isMarked (.account account)) [] fun reply =>
        (pageGiven settings kind account request (reply.toOption.getD false)).run.bind
          fun result => .done (some result)) 6 := by
    refine ⟨by decide, fun t => ?_⟩
    exact Routine.EndsIn.bind (n := 0) (succeedsIn_pageGiven settings kind account request h hfetch
      hkind _) fun result _ => ⟨result, rfl⟩
  obtain ⟨left, hleft, hlast⟩ := hends.interleave schedule (getElem?_page hps) s
  rw [Nat.sub_eq_zero_of_le hturns] at hlast
  obtain ⟨_, rfl, result, rfl⟩ := hlast.done_of_zero
  exact ⟨result, hleft⟩

/-- A page that was told nothing of a job that had begun reads only what that job leaves. -/
theorem quiet_of_complete (h : Backend.HoldsIndex answer view)
    (htells : Backend.TellsMarks answer marks clock) (hjob : job.subject = .account account)
    (first rest : List Nat)
    (hmark : ∃ seconds, .mark (.account account) seconds ∈
      requestsOf 1 (Routine.turns answer first ps s))
    (hflight : ¬ InFlight (.account account) 1 (Routine.turns answer first ps s)) :
    let reached := Routine.interleave answer first ps s
    let last := Routine.interleave answer (first ++ rest) ps s
    (∃ x, last.1[1]? = some (.done x)) ∧
      requestsOf 1 (Routine.turns answer rest reached.1 reached.2) = [] ∧
      ∀ m ∈ Routine.turns answer rest reached.1 reached.2, view m.state = view last.2 := by
  intro reached last
  have hclear : .clear job.subject ∈ requestsOf 1 (Routine.turns answer first ps s) := by
    rw [hjob]
    by_contra hclear
    exact hflight ⟨hmark, hclear⟩
  obtain ⟨hdone, hnone, hstates, hview⟩ := stays_after_clear hps h htells first rest hclear
  rw [← Routine.interleave_append] at hdone hview
  exact ⟨hdone, hnone, fun m hm => (hstates m hm).trans hview.symm⟩

end Beside

section Clock

variable {σ α : Type} {answer : Backend σ} {clock : σ → Nat}
  (hclock : ∀ t c, clock t ≤ clock (answer t c).2)

include hclock

theorem clock_le_interleave (schedule : List Nat) (ps : List (Work α)) (s : σ) :
    clock s ≤ clock (Routine.interleave answer schedule ps s).2 :=
  Routine.turns_induction (P := fun _ t => clock s ≤ clock t)
    (fun _ t c _ ht => ht.trans (hclock t c)) schedule ps (Nat.le_refl _)

theorem clock_le_append (first rest : List Nat) (ps : List (Work α)) (s : σ) :
    clock (Routine.interleave answer first ps s).2 ≤
      clock (Routine.interleave answer (first ++ rest) ps s).2 := by
  rw [Routine.interleave_append]
  exact clock_le_interleave hclock rest _ _

end Clock

theorem Tells.of_quiet {σ : Type} {view : σ → FeedIndex} {subject : Subject} {status : FeedStatus}
    {before later : List (Turn σ Call)} {ended : Prop} {last : σ}
    (hstatus : status = .regenerating ↔ InFlight subject 1 before)
    (hquiet : (∃ seconds, .mark subject seconds ∈ requestsOf 1 before) →
      ¬ InFlight subject 1 before →
        ended ∧ requestsOf 1 later = [] ∧ ∀ m ∈ later, view m.state = view last) :
    Tells view subject status before later ended last where
  status_eq := hstatus
  complete hmark hcomplete := by
    have hflight : ¬ InFlight subject 1 before := by
      rw [← hstatus, hcomplete]
      decide
    obtain ⟨hended, -, hstates⟩ := hquiet hmark hflight
    exact ⟨hended, hstates⟩
  unfinished hmark between m rest hlater _ hless := by
    by_contra hother
    obtain ⟨-, hnone, hstates⟩ := hquiet hmark (mt hstatus.mpr hother)
    have hm : m ∈ later := hlater ▸ List.mem_append_right between List.mem_cons_self
    rcases hless with ⟨c, hc, -⟩ | hless
    · obtain ⟨m', hm', hplace, hrequest⟩ := mem_requestsOf.mp hc
      have hmem : c ∈ requestsOf 1 later := mem_requestsOf.mpr
        ⟨m', hlater ▸ List.mem_append_right between (List.mem_cons_of_mem m hm'), hplace, hrequest⟩
      rw [hnone] at hmem
      exact List.not_mem_nil hmem
    · exact hless (hstates m hm)

/-- Whatever turns a page and a job for its account take, while the mark does not run out and no
call fails: the page ends, and it counts as regenerating just if it was told so between the mark
and the end of the job.  So a page that was told after the mark and counts as complete reads what
the job leaves, and one that reads anything else counts as regenerating. -/
theorem page_tells_job {σ : Type} {answer : Backend σ} {view : σ → FeedIndex} {marks : σ → Marks}
    {clock : σ → Nat} (h : Backend.HoldsIndex answer view)
    (htells : Backend.TellsMarks answer marks clock)
    (hclock : ∀ t c, clock t ≤ clock (answer t c).2)
    (hfetch : ∀ t ids, ∃ found, (answer t (.bulkFetch ids)).1 = .ok found)
    (hkind : kind.isPagedByOffset = false) {job : Job} (hjob : job.subject = .account account)
    (schedule : List Nat) {s : σ}
    (hs : (marks s).isMarked (.account account) (clock s) = false)
    (hlasting : ∀ m ∈ Routine.turns answer schedule
      (besideJob settings kind account request job) s, ∀ seconds,
        m.request = .mark (.account account) seconds →
          clock (Routine.interleave answer schedule
            (besideJob settings kind account request job) s).2 <
              clock m.state + 1000 * seconds) :
    let ms := Routine.turns answer schedule (besideJob settings kind account request job) s
    let after := Routine.interleave answer schedule (besideJob settings kind account request job) s
    (6 ≤ schedule.count 0 → ∃ result, after.1[0]? = some (.done (some result))) ∧
      ∀ result, after.1[0]? = some (.done (some result)) →
        ∃ shown before t later, result = .ok shown ∧
          ms = before ++ ⟨⟨t, .isMarked (.account account)⟩, 0⟩ :: later ∧
          requestsOf 0 before = [] ∧
          Tells view (.account account) shown.status before later
            (∃ x, after.1[1]? = some (.done x)) after.2 := by
  intro ms after
  have hps := Eq.refl (besideJob settings kind account request job)
  refine ⟨exists_result hps h hfetch hkind, fun result hended => ?_⟩
  obtain ⟨first, second, rfl, hnone, hfirst⟩ := exists_first_turn hps hended
  obtain ⟨shown, rfl, hstatus⟩ := exists_shown hps h htells hfetch hkind hfirst hended
  have hquiet := quiet_of_complete hps (s := s) h htells hjob first (0 :: second)
  have hms : ms = _ ++ _ := Routine.turns_append answer first (0 :: second) _ s
  have hrest := clock_le_append hclock first (0 :: second)
    (besideJob settings kind account request job) s
  have hmarked : _ ↔ InFlight (.account account) 1 _ :=
    isMarked_iff_inFlight hps htells first (s := s) (fun deadline hdeadline => ?_)
      (fun m hm seconds hm' => ?_) hnone
  · dsimp only at hquiet
    rw [Routine.turns_cons_of_some answer (hfirst.trans (getElem?_page hps))] at hms hquiet
    refine ⟨shown, _, _, _, rfl, hms, hnone, Tells.of_quiet ?_ fun hmark hflight => ?_⟩
    · rw [hstatus, FeedStatus.ofRegenerating_eq_regenerating, hmarked]
    · obtain ⟨hdone, hothers, hstates⟩ := hquiet hmark hflight
      exact ⟨hdone, (requestsOf_cons_of_ne Nat.zero_ne_one _).symm.trans hothers,
        fun m hm => hstates m (List.mem_cons_of_mem _ hm)⟩
  · -- A mark from before the turns had run out when they began.
    have hpast : ¬ clock s < deadline := fun hless => by
      rw [Marks.isMarked_iff.mpr ⟨deadline, hdeadline, hless⟩] at hs
      nomatch hs
    have hbegan := clock_le_interleave hclock first (besideJob settings kind account request job) s
    omega
  · have hmem : m ∈ ms := by
      rw [hms]
      exact List.mem_append_left _ hm
    exact hrest.trans_lt (hlasting m hmem seconds hm')

def fresh : Backend Backend.Setting :=
  Backend.faulty (fun _ => none) fun _ => some (.ok Worker.rescored)

def homeRun : Job := .run Worker.homeWorker .home (.account 7)

abbrev besideRun : List (Work (Option (Except ServiceError FeedPage))) :=
  besideJob .default .home 7 ⟨none, some 4, none, none⟩ homeRun

/-- The page looks its cursor up after the first write of the run, and reads its window only when
the run is over. -/
def overtaking : List Nat := [1, 1, 1, 1, 0, 0, 1, 1, 1, 1, 1, 0, 0, 0, 0]

theorem page_tells_job_overtaken :
    let after := Routine.interleave fresh overtaking besideRun Worker.previously
    ∃ shown, after.1[0]? = some (.done (some (.ok shown))) ∧ shown.status = .regenerating ∧
      after.2.marks.isMarked (.account 7) after.2.clock = false := by
  intro after
  have hindex : Backend.HoldsIndex fresh Backend.Setting.index :=
    Backend.holdsIndex_faulty _ _ fun _ _ => rfl
  have htells : Backend.TellsMarks fresh Backend.Setting.marks Backend.Setting.clock :=
    Backend.tellsMarks_faulty _ (fun _ _ => rfl) fun _ => rfl
  have hclock : ∀ t c, Backend.Setting.clock t ≤ Backend.Setting.clock (fresh t c).2 := by
    intro t c
    cases c <;> exact Nat.le_succ _
  have hkind : FeedKind.home.isPagedByOffset = false := rfl
  have hsubject : homeRun.subject = .account 7 := rfl
  have hlasting : ∀ m ∈ Routine.turns fresh overtaking besideRun Worker.previously, ∀ seconds,
      m.request = .mark (.account 7) seconds →
        after.2.clock < m.state.clock + 1000 * seconds := by
    have hclose : ∀ m ∈ Routine.turns fresh overtaking besideRun Worker.previously,
        after.2.clock < m.state.clock + 1000 := by
      decide +kernel
    have hsome : ∀ m ∈ Routine.turns fresh overtaking besideRun Worker.previously,
        m.request ≠ .mark (.account 7) 0 := by
      decide +kernel
    intro m hm seconds hrequest
    have hless := hclose m hm
    have hpositive : seconds ≠ 0 := by
      rintro rfl
      exact hsome m hm hrequest
    omega
  obtain ⟨hends, htold⟩ := page_tells_job .default .home 7 ⟨none, some 4, none, none⟩ hindex
    htells hclock (fun _ _ => ⟨[], rfl⟩) hkind hsubject overtaking (s := Worker.previously)
    (by decide +kernel) hlasting
  obtain ⟨result, hresult⟩ := hends (by decide)
  obtain ⟨shown, before, t, later, rfl, hturns, hnone, hstatus⟩ := htold result hresult
  refine ⟨shown, hresult, hstatus.status_eq.mpr ?_, by decide +kernel⟩
  -- Before the page begins there are the turns of the run up to its first write.
  have hothers : ∀ m ∈ before, decide (m.place ≠ 0) = true := by
    intro m hm
    refine decide_eq_true fun hplace => ?_
    have hmem := mem_requestsOf.mpr ⟨m, hm, hplace, rfl⟩
    rw [hnone] at hmem
    exact List.not_mem_nil hmem
  have hbefore : (Routine.turns fresh overtaking besideRun Worker.previously).takeWhile
      (fun m => decide (m.place ≠ 0)) = before := by
    rw [hturns, List.takeWhile_append_of_pos hothers, List.takeWhile_cons_of_neg (by simp),
      List.append_nil]
  rw [← hbefore]
  exact ⟨⟨3600, by decide +kernel⟩, by decide +kernel⟩

end Timeline
end WarmFeed
