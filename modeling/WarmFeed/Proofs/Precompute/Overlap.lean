import WarmFeed.Proofs.Interleaving
import WarmFeed.Proofs.Precompute.Mark
import WarmFeed.Serving.Timeline

/-!
# Workers that overlap

Nothing keeps two workers from computing feeds of one subject at the same time, and they
share its mark.  Each of them sets the mark when it begins and takes it back when it ends,
without regard to the other.  So what is marked is being worked on, but what is being worked
on is not always marked: the first worker that ends takes the mark from all that have not.

What holds is that the mark stands as long as some worker is under way since whose mark no
worker has ended, and that pages tell just this.
-/

namespace WarmFeed

namespace Call

def LeavesMarks (c : Call) : Prop :=
  (∀ who seconds, c ≠ .mark who seconds) ∧ ∀ who, c ≠ .clear who

theorem Concerns.leavesMarks {kind : FeedKind} {subject : Subject} {c : Call}
    (h : c.Concerns kind subject) : c.LeavesMarks := ⟨h.ne_mark, h.ne_clear⟩

end Call

structure Backend.TellsMarks {σ : Type} (answer : Backend σ) (marks : σ → Marks)
    (clock : σ → Nat) : Prop extends HoldsMarks answer marks clock where
  marked : ∀ s subject seconds, (answer s (.mark subject seconds)).1 = .ok ()
  cleared : ∀ s subject, (answer s (.clear subject)).1 = .ok ()
  told : ∀ s subject,
    (answer s (.isMarked subject)).1 = .ok ((marks s).isMarked subject (clock s))

/-! ## Jobs -/

inductive Job where
  | run (w : Worker) (kind : FeedKind) (subject : Subject)
  | populate (w : Worker) (account : AccountId)
deriving DecidableEq

namespace Job

def subject : Job → Subject
  | run _ _ subject => subject
  | populate _ account => .account account

def seconds : Job → Nat
  | run w _ _ => w.settings.markSeconds
  | populate w _ => w.settings.markSeconds

def work : Job → Work Unit
  | run w kind subject => (w.run kind subject).bind fun _ => .done ()
  | populate w account => (w.populate account).bind fun _ => .done ()

theorem work_eq (job : Job) : ∃ (α : Type) (inner : Work (Except RunError α)),
    inner.Asks Call.LeavesMarks ∧ job.work =
      ((Worker.underMark job.seconds job.subject inner).bind Worker.settle).bind
        fun _ => .done () := by
  cases job with
  | run w kind subject =>
    refine ⟨_, w.regenerate kind subject,
      (w.asks_regenerate kind subject).imp fun _ hc => hc.leavesMarks, ?_⟩
    exact congrArg (fun p => Routine.bind p fun _ => .done ()) (w.run_eq_underMark kind subject)
  | populate w account =>
    refine ⟨_, w.accountWork account,
      (w.asks_regenerateAll (.account account) _).imp fun _ ⟨_, _, hc⟩ => hc.leavesMarks, ?_⟩
    exact congrArg (fun p => Routine.bind p fun _ => .done ()) (w.populate_eq_underMark account)

/-- How far a job can have come that has made these requests, and whether it has ended. -/
inductive Stage (job : Job) : List Call → Bool → Prop where
  | waiting : Stage job [] false
  | working {cs : List Call} (h : ∀ c ∈ cs, c.LeavesMarks) :
      Stage job (.mark job.subject job.seconds :: cs) false
  | ended {cs : List Call} (h : ∀ c ∈ cs, c.LeavesMarks) :
      Stage job (.mark job.subject job.seconds :: (cs ++ [.clear job.subject])) true

theorem stage_of_comesTo {σ : Type} {answer : Backend σ} {marks : σ → Marks} {clock : σ → Nat}
    (h : Backend.TellsMarks answer marks clock) {job : Job} {cs : List Call} {left : Work Unit}
    (hleft : Routine.ComesTo answer job.work cs left) : job.Stage cs left.value?.isSome := by
  obtain ⟨α, inner, hinner, hwork⟩ := job.work_eq
  rw [hwork, Worker.underMark_bind_settle] at hleft
  cases hleft with
  | here => exact .waiting
  | @ask _ _ _ t cs _ hleft =>
    rw [h.marked] at hleft
    replace hleft : Routine.ComesTo answer
      (((inner.guarded [.clear job.subject]).bind _).bind _) cs left := hleft
    rw [Routine.bind_assoc] at hleft
    rcases hleft.of_bind with ⟨p, hp, rfl⟩ | ⟨result, cs₁, cs₂, rfl, hp, hrest⟩
    · have hcs := hp.asks (hinner.guarded [.clear job.subject])
      cases p <;> exact .working hcs
    · have hcs := hp.asks (hinner.guarded [.clear job.subject])
      cases hrest with
      | here =>
        rw [List.append_nil]
        exact .working hcs
      | ask hrest =>
        cases hrest with
        | here => exact .ended hcs

/-- A job marks its subject once, before anything else. -/
theorem Stage.tail_ne_mark {job : Job} {c : Call} {cs : List Call} {ended : Bool}
    (h : job.Stage (c :: cs) ended) : ∀ c' ∈ cs, ∀ who seconds, c' ≠ .mark who seconds := by
  intro c' hc'
  cases h with
  | working h => exact (h c' hc').1
  | ended h =>
    rcases List.mem_append.mp hc' with hc' | hc'
    · exact (h c' hc').1
    · rw [List.mem_singleton.mp hc']
      exact fun who seconds => Call.noConfusion

/-- When it has taken back its mark, a job has ended. -/
theorem Stage.ended_of_clear {job : Job} {cs cs' : List Call} {ended : Bool}
    (h : job.Stage (cs ++ cs') ended) (hclear : .clear job.subject ∈ cs) :
    cs' = [] ∧ ended = true := by
  have hkept : ∀ {cs : List Call}, (∀ c ∈ cs, c.LeavesMarks) →
      .clear job.subject ∉ .mark job.subject job.seconds :: cs := by
    intro cs hcs hmem
    rcases List.mem_cons.mp hmem with hmem | hmem
    · nomatch hmem
    · exact (hcs _ hmem).2 _ rfl
  generalize hall : cs ++ cs' = all at h
  cases h with
  | waiting =>
    rw [(List.append_eq_nil_iff.mp hall).1] at hclear
    exact absurd hclear List.not_mem_nil
  | working h => exact absurd (hall ▸ List.mem_append_left cs' hclear) (hkept h)
  | @ended inner h =>
    refine ⟨?_, rfl⟩
    rcases List.eq_nil_or_concat cs' with rfl | ⟨init, c, rfl⟩
    · rfl
    · -- Otherwise the mark would have been taken back before the end.
      rw [List.concat_eq_append, ← List.append_assoc, ← List.cons_append] at hall
      have hinit : cs ++ init = .mark job.subject job.seconds :: inner :=
        (List.append_inj' hall rfl).1
      exact absurd (hinit ▸ List.mem_append_left init hclear) (hkept h)

end Job

/-! ## What is under way, and what is marked -/

section Turns

variable {σ : Type} {subject : Subject} {place : Nat} {ms : List (Turn σ Call)}

/-- The job at this place has marked the subject and has not asked for the mark to be taken
back. -/
def InFlight (subject : Subject) (place : Nat) (ms : List (Turn σ Call)) : Prop :=
  (∃ seconds, .mark subject seconds ∈ requestsOf place ms) ∧
    .clear subject ∉ requestsOf place ms

/-- The job at this place has marked the subject, and nobody has taken the mark back since. -/
def Uncleared (subject : Subject) (place : Nat) (ms : List (Turn σ Call)) : Prop :=
  ∃ m later, m :: later <:+ ms ∧ m.place = place ∧
    (∃ seconds, m.request = .mark subject seconds) ∧ ∀ m' ∈ later, m'.request ≠ .clear subject

theorem uncleared_concat {m : Turn σ Call} : Uncleared subject place (ms ++ [m]) ↔
    (m.place = place ∧ ∃ seconds, m.request = .mark subject seconds) ∨
      Uncleared subject place ms ∧ m.request ≠ .clear subject := by
  constructor
  · rintro ⟨first, later, hsuffix, hplace, hmark, hlater⟩
    rcases List.suffix_concat_iff.mp hsuffix with h | ⟨t, ht, hrest⟩
    · nomatch h
    cases t with
    | nil =>
      obtain ⟨rfl, rfl⟩ := List.cons.inj ht
      exact Or.inl ⟨hplace, hmark⟩
    | cons first' t =>
      obtain ⟨rfl, rfl⟩ := List.cons.inj ht
      exact Or.inr ⟨⟨first, t, hrest, hplace, hmark,
          fun m' hm' => hlater m' (List.mem_append_left _ hm')⟩,
        hlater m (List.mem_append_right _ (List.mem_singleton_self m))⟩
  · rintro (⟨hplace, hmark⟩ | ⟨⟨first, later, hsuffix, hplace, hmark, hlater⟩, hm⟩)
    · exact ⟨m, [], List.suffix_append _ _, hplace, hmark,
        fun m' hm' => absurd hm' List.not_mem_nil⟩
    · refine ⟨first, later ++ [m], List.suffix_concat_iff.mpr (Or.inr ⟨_, rfl, hsuffix⟩), hplace,
        hmark, fun m' hm' => ?_⟩
      rcases List.mem_append.mp hm' with hm' | hm'
      · exact hlater m' hm'
      · rw [List.mem_singleton.mp hm']
        exact hm

theorem not_uncleared_nil : ¬ Uncleared subject place ([] : List (Turn σ Call)) := by
  rintro ⟨m, later, hsuffix, -⟩
  nomatch List.suffix_nil.mp hsuffix

/-- A job that was not interfered with is under way. -/
theorem Uncleared.inFlight (h : Uncleared subject place ms) {job : Job} {ended : Bool}
    (hstage : job.Stage (requestsOf place ms) ended) : InFlight subject place ms := by
  obtain ⟨m, later, ⟨before, rfl⟩, hplace, ⟨seconds, hmark⟩, hlater⟩ := h
  unfold InFlight
  rw [requestsOf_append, requestsOf_cons_of_eq hplace, hmark] at hstage ⊢
  cases hbefore : requestsOf place before with
  | cons c cs =>
    rw [hbefore] at hstage
    exact absurd rfl (hstage.tail_ne_mark _ (List.mem_append_right _ List.mem_cons_self) subject
      seconds)
  | nil =>
    rw [List.nil_append]
    refine ⟨⟨seconds, List.mem_cons_self⟩, fun hclear => ?_⟩
    rcases List.mem_cons.mp hclear with hclear | hclear
    · nomatch hclear
    · obtain ⟨m', hm', -, hrequest⟩ := mem_requestsOf.mp hclear
      exact hlater m' hm' hrequest

def Overtaken (subject : Subject) (place : Nat) (ms : List (Turn σ Call)) : Prop :=
  ∃ m later, m :: later <:+ ms ∧ m.place = place ∧
    (∃ seconds, m.request = .mark subject seconds) ∧
    ∃ m' ∈ later, m'.place ≠ place ∧ m'.request = .clear subject

theorem InFlight.uncleared_or_overtaken (h : InFlight subject place ms) :
    Uncleared subject place ms ∨ Overtaken subject place ms := by
  obtain ⟨⟨seconds, hmark⟩, hclear⟩ := h
  obtain ⟨m, hm, hplace, hrequest⟩ := mem_requestsOf.mp hmark
  obtain ⟨before, later, rfl⟩ := List.append_of_mem hm
  have hsuffix : m :: later <:+ before ++ m :: later := List.suffix_append _ _
  by_cases hlater : ∃ m' ∈ later, m'.request = .clear subject
  · obtain ⟨m', hm', hrequest'⟩ := hlater
    have hother : m'.place ≠ place := fun hplace' =>
      hclear (mem_requestsOf.mpr ⟨m', hsuffix.subset (List.mem_cons_of_mem _ hm'), hplace',
        hrequest'⟩)
    exact Or.inr ⟨m, later, hsuffix, hplace, ⟨seconds, hrequest⟩, m', hm', hother, hrequest'⟩
  · exact Or.inl ⟨m, later, hsuffix, hplace, ⟨seconds, hrequest⟩,
      fun m' hm' hrequest' => hlater ⟨m', hm', hrequest'⟩⟩

end Turns

def Marks.deadline? (m : Marks) (subject : Subject) : Option Nat := m.deadlines.get? subject

theorem Marks.isMarked_iff {m : Marks} {subject : Subject} {now : Nat} :
    m.isMarked subject now = true ↔ ∃ deadline, m.deadline? subject = some deadline ∧
      now < deadline := by
  unfold isMarked deadline?
  cases m.deadlines.get? subject with
  | none => simp
  | some deadline => simp

section Deadlines

variable {σ : Type} {answer : Backend σ} {marks : σ → Marks} {clock : σ → Nat} {subject : Subject}

/-- What a call makes of the mark of a subject. -/
theorem Backend.TellsMarks.deadline?_turn (h : TellsMarks answer marks clock) (subject : Subject)
    (t : σ) (c : Call) :
    (marks (answer t c).2).deadline? subject =
      match c with
      | .mark who seconds =>
        if who = subject then some (clock t + 1000 * seconds) else (marks t).deadline? subject
      | .clear who => if who = subject then none else (marks t).deadline? subject
      | _ => (marks t).deadline? subject := by
  unfold Marks.deadline?
  cases c with
  | mark who seconds =>
    rw [h.mark t who seconds (h.marked t who seconds)]
    simp only [Marks.mark, Table.get?_set, eq_comm]
  | clear who =>
    rw [h.clear t who (h.cleared t who)]
    simp only [Marks.clear, Table.get?_erase, eq_comm]
  | _ => rw [h.other t _ (fun _ _ => Call.noConfusion) (fun _ => Call.noConfusion)]

/-- After these turns the subject has the mark of a job that nobody has taken back since, if
there is one, and else at most the mark from before. -/
structure AccountsSince (stale : Option Nat) (marks : σ → Marks) (clock : σ → Nat)
    (subject : Subject) (ms : List (Turn σ Call)) (t : σ) : Prop where
  uncleared : (∃ i, Uncleared subject i ms) → ∃ m ∈ ms, ∃ seconds,
    m.request = .mark subject seconds ∧
      (marks t).deadline? subject = some (clock m.state + 1000 * seconds)
  cleared : (∀ i, ¬ Uncleared subject i ms) → ∀ deadline,
    (marks t).deadline? subject = some deadline → stale = some deadline

abbrev Accounts (marks : σ → Marks) (clock : σ → Nat) (subject : Subject)
    (ms : List (Turn σ Call)) (t : σ) : Prop :=
  AccountsSince none marks clock subject ms t

theorem accountsSince_start (s : σ) :
    AccountsSince ((marks s).deadline? subject) marks clock subject [] s where
  uncleared := fun ⟨_, h⟩ => absurd h not_uncleared_nil
  cleared _ _ h := h

theorem accounts_start {s : σ} (hs : (marks s).deadline? subject = none) :
    Accounts marks clock subject [] s := by
  rw [Accounts, ← hs]
  exact accountsSince_start s

section Calls

variable {stale : Option Nat} {ms : List (Turn σ Call)} {t t' : σ} {m : Turn σ Call}

theorem accounts_marked {seconds : Nat} (hm : m.request = .mark subject seconds)
    (hafter : (marks t').deadline? subject = some (clock m.state + 1000 * seconds)) :
    AccountsSince stale marks clock subject (ms ++ [m]) t' where
  uncleared _ := ⟨m, List.mem_append_right _ (List.mem_singleton_self m), seconds, hm, hafter⟩
  cleared hnone := absurd (uncleared_concat.mpr (Or.inl ⟨rfl, seconds, hm⟩)) (hnone m.place)

theorem accounts_cleared (hm : m.request = .clear subject)
    (hafter : (marks t').deadline? subject = none) :
    AccountsSince stale marks clock subject (ms ++ [m]) t' where
  uncleared := by
    rintro ⟨i, hi⟩
    rcases uncleared_concat.mp hi with ⟨-, seconds, hmark⟩ | ⟨-, hother⟩
    · nomatch hm.symm.trans hmark
    · exact absurd hm hother
  cleared _ _ hdeadline := nomatch hdeadline.symm.trans hafter

/-- A call that is not about the mark of the subject. -/
theorem AccountsSince.other (h : AccountsSince stale marks clock subject ms t)
    (hsame : (marks t').deadline? subject = (marks t).deadline? subject)
    (hmark : ∀ seconds, m.request ≠ .mark subject seconds) (hclear : m.request ≠ .clear subject) :
    AccountsSince stale marks clock subject (ms ++ [m]) t' := by
  have hsince : ∀ i, Uncleared subject i (ms ++ [m]) ↔ Uncleared subject i ms := by
    intro i
    rw [uncleared_concat]
    exact ⟨fun hi => hi.elim (fun ⟨_, seconds, hm⟩ => absurd hm (hmark seconds)) And.left,
      fun hi => Or.inr ⟨hi, hclear⟩⟩
  constructor
  · rintro ⟨i, hi⟩
    obtain ⟨m', hm', hset⟩ := h.uncleared ⟨i, (hsince i).mp hi⟩
    exact ⟨m', List.mem_append_left _ hm', hsame ▸ hset⟩
  · intro hnone
    rw [hsame]
    exact h.cleared fun i hi => hnone i ((hsince i).mpr hi)

theorem AccountsSince.turn (h : Backend.TellsMarks answer marks clock)
    (hms : AccountsSince stale marks clock subject ms t) (c : Call) (i : Nat) :
    AccountsSince stale marks clock subject (ms ++ [⟨⟨t, c⟩, i⟩]) (answer t c).2 := by
  have hturn := h.deadline?_turn subject t c
  cases c with
  | mark who seconds =>
    by_cases hwho : who = subject
    · subst hwho
      exact accounts_marked rfl (hturn.trans (if_pos rfl))
    · refine hms.other (hturn.trans (if_neg hwho)) (fun seconds' hc => ?_) Call.noConfusion
      exact hwho (Call.mark.inj hc).1
  | clear who =>
    by_cases hwho : who = subject
    · subst hwho
      exact accounts_cleared rfl (hturn.trans (if_pos rfl))
    · refine hms.other (hturn.trans (if_neg hwho)) (fun _ => Call.noConfusion) fun hc => ?_
      exact hwho (Call.clear.inj hc)
  | _ => exact hms.other hturn (fun _ => Call.noConfusion) Call.noConfusion

/-- While no mark that was set runs out and one from before has run out, the subject is marked
just if one of those that were set stands. -/
theorem AccountsSince.isMarked_iff_of_stale (h : AccountsSince stale marks clock subject ms t)
    (hlasting : ∀ m ∈ ms, ∀ seconds, m.request = .mark subject seconds →
      clock t < clock m.state + 1000 * seconds)
    (hstale : ∀ deadline, stale = some deadline → deadline ≤ clock t) :
    (marks t).isMarked subject (clock t) = true ↔ ∃ i, Uncleared subject i ms := by
  rw [Marks.isMarked_iff]
  constructor
  · rintro ⟨deadline, hdeadline, hless⟩
    by_contra hnone
    have hold := hstale deadline (h.cleared (not_exists.mp hnone) deadline hdeadline)
    omega
  · intro hsome
    obtain ⟨m, hm, seconds, hrequest, hdeadline⟩ := h.uncleared hsome
    exact ⟨_, hdeadline, hlasting m hm seconds hrequest⟩

theorem Accounts.isMarked_iff (h : Accounts marks clock subject ms t)
    (hlasting : ∀ m ∈ ms, ∀ seconds, m.request = .mark subject seconds →
      clock t < clock m.state + 1000 * seconds) :
    (marks t).isMarked subject (clock t) = true ↔ ∃ i, Uncleared subject i ms :=
  h.isMarked_iff_of_stale hlasting nofun

end Calls

theorem Backend.tellsMarks_faulty {faults : Call → Option Fault}
    (sources : FeedKind → Option (Except ServiceError (List Entry)))
    (hmark : ∀ who seconds, faults (.mark who seconds) = none)
    (hclear : ∀ who, faults (.clear who) = none) :
    TellsMarks (faulty faults sources) Setting.marks Setting.clock where
  toHoldsMarks := holdsMarks_faulty faults sources
  marked s who seconds := by
    show (s.tick.reply _ _ (faults (.mark who seconds))).1 = _
    rw [hmark]
    rfl
  cleared s who := by
    show (s.tick.reply _ _ (faults (.clear who))).1 = _
    rw [hclear]
    rfl
  told _ _ := rfl

end Deadlines

/-! ## What pages tell -/

section Pages

variable {σ : Type} {answer : Backend σ} {marks : σ → Marks} {clock : σ → Nat} {s s' : σ}

theorem Backend.TellsMarks.attempt_isRegenerating (h : TellsMarks answer marks clock)
    (subject : Subject) : ∃ s', Routine.attempt answer s
      (liftM (isRegenerating subject) : Attempt ServiceError Bool) =
        (.ok ((marks s).isMarked subject (clock s)), s') := by
  have hrun : (isRegenerating subject).run answer s =
      ((marks s).isMarked subject (clock s), (answer s (.isMarked subject)).2) := by
    unfold isRegenerating
    rw [Routine.bind_eq, Routine.run_bind, Routine.run_request, h.told]
    rfl
  rw [Routine.attempt_liftRoutine, hrun]
  exact ⟨_, rfl⟩

/-- A page tells whether its subject was marked when it was asked for. -/
theorem Backend.TellsMarks.status_page (h : TellsMarks answer marks clock)
    {settings : ServingSettings} {kind : FeedKind} {account : AccountId} {request : PageRequest}
    {shown : FeedPage} (hpage : Routine.attempt answer s
      (Timeline.page settings kind account request) = (.ok shown, s')) :
    shown.status = .ofRegenerating ((marks s).isMarked (.account account) (clock s)) := by
  obtain ⟨s₁, hmarked⟩ := h.attempt_isRegenerating (s := s) (.account account)
  unfold Timeline.page at hpage
  rw [Routine.attempt_bind_ok hmarked] at hpage
  obtain ⟨window, s₂, -, hpage⟩ := Routine.exists_of_attempt_bind hpage
  obtain ⟨statuses, s₃, -, hpage⟩ := Routine.exists_of_attempt_bind hpage
  obtain rfl := Except.ok.inj (congrArg Prod.fst hpage)
  rfl

theorem Backend.TellsMarks.status_trending (h : TellsMarks answer marks clock)
    {settings : ServingSettings} {offset : Nat} {limit : Option Nat} {shown : TrendingPage}
    (hpage : Routine.attempt answer s (Trending.page settings true offset limit) =
      (.ok shown, s')) :
    shown.status = .ofRegenerating ((marks s).isMarked .trending (clock s)) := by
  obtain ⟨s₁, hmarked⟩ := h.attempt_isRegenerating (s := s) .trending
  unfold Trending.page at hpage
  replace hpage : Routine.attempt answer s (_ >>= _) = _ := hpage
  rw [Routine.attempt_bind_ok hmarked] at hpage
  obtain ⟨ids, s₂, -, hpage⟩ := Routine.exists_of_attempt_bind hpage
  obtain ⟨statuses, s₃, -, hpage⟩ := Routine.exists_of_attempt_bind hpage
  obtain rfl := Except.ok.inj (congrArg Prod.fst hpage)
  rfl

theorem FeedStatus.ofRegenerating_eq_regenerating {b : Bool} :
    FeedStatus.ofRegenerating b = .regenerating ↔ b = true := by
  cases b <;> decide

end Pages

/-! ## Every order of turns -/

namespace Job

/-- What jobs that have taken these turns have come to, where each is and in which state. -/
structure Overlap {σ : Type} (answer : Backend σ) (marks : σ → Marks) (clock : σ → Nat)
    (jobs : List Job) (subject : Subject) (ms : List (Turn σ Call))
    (after : List (Work Unit) × σ) : Prop where
  /-- Whatever a job is answered, from its mark to its end it is under way. -/
  inFlight : ∀ (i : Nat) (job : Job) (left : Work Unit), jobs[i]? = some job →
    job.subject = subject → after.1[i]? = some left →
      (InFlight subject i ms ↔ requestsOf i ms ≠ [] ∧ left.value? = none)
  marked : (marks after.2).isMarked subject (clock after.2) = true ↔
    ∃ i, InFlight subject i ms ∧ Uncleared subject i ms
  /-- While a job is under way nothing but the end of another keeps the subject from being
  marked. -/
  unmarked : ∀ i, InFlight subject i ms →
    (marks after.2).isMarked subject (clock after.2) = false → Overtaken subject i ms
  page : ∀ settings kind account request shown s, subject = .account account →
    Routine.attempt answer after.2 (Timeline.page settings kind account request) =
      (.ok shown, s) →
    (shown.status = .regenerating ↔ ∃ i, InFlight subject i ms ∧ Uncleared subject i ms)
  trending : ∀ settings offset limit shown s, subject = .trending →
    Routine.attempt answer after.2 (Trending.page settings true offset limit) = (.ok shown, s) →
    (shown.status = .regenerating ↔ ∃ i, InFlight subject i ms ∧ Uncleared subject i ms)

theorem Stage.inFlight_iff {σ : Type} {job : Job} {place : Nat} {ms : List (Turn σ Call)}
    {ended : Bool} (h : job.Stage (requestsOf place ms) ended) :
    InFlight job.subject place ms ↔ requestsOf place ms ≠ [] ∧ ended = false := by
  unfold InFlight
  generalize requestsOf place ms = cs at h ⊢
  cases h with
  | waiting => simp
  | working h =>
    refine ⟨fun _ => ⟨List.cons_ne_nil _ _, rfl⟩, fun _ => ⟨⟨_, List.mem_cons_self⟩, ?_⟩⟩
    intro hclear
    rcases List.mem_cons.mp hclear with hclear | hclear
    · nomatch hclear
    · exact (h _ hclear).2 _ rfl
  | ended h => simp

section Schedules

variable {σ : Type} {answer : Backend σ} {s : σ}

/-- Whatever the others do, each job goes through its own stages. -/
theorem exists_stage {marks : σ → Marks} {clock : σ → Nat}
    (h : Backend.TellsMarks answer marks clock) {jobs : List Job} (schedule : List Nat) {i : Nat}
    {job : Job} (hjob : jobs[i]? = some job) :
    ∃ left, (Routine.interleave answer schedule (jobs.map work) s).1[i]? = some left ∧
      job.Stage (requestsOf i (Routine.turns answer schedule (jobs.map work) s))
        left.value?.isSome := by
  have hwork : (jobs.map work)[i]? = some job.work := by rw [List.getElem?_map, hjob]; rfl
  obtain ⟨left, hleft, hcomes⟩ := Routine.comesTo_interleave answer schedule hwork s
  exact ⟨left, hleft, stage_of_comesTo h hcomes⟩

theorem exists_job_of_mem_turns {jobs : List Job} {schedule : List Nat} {m : Turn σ Call}
    (hm : m ∈ Routine.turns answer schedule (jobs.map work) s) :
    ∃ job, jobs[m.place]? = some job := by
  obtain ⟨p, hp⟩ := Routine.exists_of_mem_turns answer hm
  rw [List.getElem?_map] at hp
  obtain ⟨job, hjob, -⟩ := Option.map_eq_some_iff.mp hp
  exact ⟨job, hjob⟩

end Schedules

/-- Whatever work on feeds overlaps in whatever order, while no mark runs out and no call
about marks fails: a subject is marked just if a job is under way for it since whose mark
nobody has taken one back. -/
theorem mark_stands_until_one_ends {σ : Type} {answer : Backend σ} {marks : σ → Marks}
    {clock : σ → Nat} (h : Backend.TellsMarks answer marks clock) (jobs : List Job)
    (schedule : List Nat) {s : σ} {subject : Subject} (hs : (marks s).deadline? subject = none)
    (hlasting : ∀ m ∈ Routine.turns answer schedule (jobs.map work) s, ∀ seconds,
      m.request = .mark subject seconds →
        clock (Routine.interleave answer schedule (jobs.map work) s).2 <
          clock m.state + 1000 * seconds) :
    Overlap answer marks clock jobs subject (Routine.turns answer schedule (jobs.map work) s)
      (Routine.interleave answer schedule (jobs.map work) s) := by
  have hstage (i : Nat) (job : Job) (hjob : jobs[i]? = some job) :=
    exists_stage (s := s) h schedule hjob
  have hplace (m : Turn σ Call) (hm : m ∈ Routine.turns answer schedule (jobs.map work) s) :=
    exists_job_of_mem_turns hm
  have haccounts := Routine.interleave_induction (P := Accounts marks clock subject)
    (fun ms t c i hms => hms.turn h c i) schedule (jobs.map work) (accounts_start hs)
  rw [List.nil_append] at haccounts
  -- From here on only the turns that were taken and what they have led to matter.
  generalize Routine.turns answer schedule (jobs.map work) s = ms at *
  generalize Routine.interleave answer schedule (jobs.map work) s = after at *
  have hinFlight : ∀ i, Uncleared subject i ms → InFlight subject i ms := by
    intro i hi
    obtain ⟨m, later, hsuffix, rfl, -⟩ := id hi
    obtain ⟨job, hjob⟩ := hplace m (hsuffix.subset List.mem_cons_self)
    obtain ⟨left, -, hreached⟩ := hstage _ job hjob
    exact hi.inFlight hreached
  have hmarked : (marks after.2).isMarked subject (clock after.2) = true ↔
      ∃ i, InFlight subject i ms ∧ Uncleared subject i ms := by
    rw [haccounts.isMarked_iff hlasting]
    exact exists_congr fun i => ⟨fun hi => ⟨hinFlight i hi, hi⟩, And.right⟩
  constructor
  · intro i job left hjob hsubject hleft
    obtain ⟨left', hleft', hreached⟩ := hstage i job hjob
    obtain rfl := Option.some.inj (hleft.symm.trans hleft')
    rw [← hsubject, hreached.inFlight_iff, Option.isSome_eq_false_iff, Option.isNone_iff_eq_none]
  · exact hmarked
  · intro i hi hunmarked
    refine hi.uncleared_or_overtaken.resolve_left fun hcleared => ?_
    exact absurd (hmarked.mpr ⟨i, hi, hcleared⟩) (by rw [hunmarked]; decide)
  · rintro settings kind account request shown s' rfl hpage
    rw [h.status_page hpage, FeedStatus.ofRegenerating_eq_regenerating, hmarked]
  · rintro settings offset limit shown s' rfl hpage
    rw [h.status_trending hpage, FeedStatus.ofRegenerating_eq_regenerating, hmarked]

def bothKinds : List Job :=
  [.run Worker.bothFeeds .home (.account 7), .run Worker.bothFeeds .forYou (.account 7)]

def sound : Backend Backend.Setting :=
  Backend.faulty (fun _ => none) fun _ => some (.ok [])

abbrev bothTurns (schedule : List Nat) : List (Turn Backend.Setting Call) :=
  Routine.turns sound schedule (bothKinds.map work) .empty

abbrev afterBoth (schedule : List Nat) : Backend.Setting :=
  (Routine.interleave sound schedule (bothKinds.map work) .empty).2

theorem mark_stands_until_one_ends_both_begun :
    (afterBoth [0, 1, 1]).marks.isMarked (.account 7) (afterBoth [0, 1, 1]).clock = true ∧
      ∃ shown s, Routine.attempt sound (afterBoth [0, 1, 1])
          (Timeline.page ServingSettings.default .home 7 ⟨none, none, none, none⟩) =
            (.ok shown, s) ∧ shown.status = .regenerating := by
  have htells : Backend.TellsMarks sound Backend.Setting.marks Backend.Setting.clock :=
    Backend.tellsMarks_faulty _ (fun _ _ => rfl) fun _ => rfl
  have hlasting : ∀ m ∈ bothTurns [0, 1, 1], ∀ seconds, m.request = .mark (.account 7) seconds →
      (afterBoth [0, 1, 1]).clock < m.state.clock + 1000 * seconds := by
    intro m hm seconds hrequest
    rcases hm with _ | ⟨_, _ | ⟨_, _ | ⟨_, ⟨⟩⟩⟩⟩
    · cases hrequest
      decide
    · cases hrequest
      decide
    · nomatch hrequest
  have hoverlap := mark_stands_until_one_ends htells bothKinds [0, 1, 1] rfl hlasting
  have hfirst : ∃ i, InFlight (.account 7) i (bothTurns [0, 1, 1]) ∧
      Uncleared (.account 7) i (bothTurns [0, 1, 1]) :=
    ⟨0, ⟨⟨3600, .head _⟩, by decide⟩, _, _, List.suffix_rfl, rfl, ⟨3600, rfl⟩, by decide⟩
  obtain ⟨shown, s, hpage⟩ : ∃ shown s, Routine.attempt sound (afterBoth [0, 1, 1])
      (Timeline.page ServingSettings.default .home 7 ⟨none, none, none, none⟩) =
        (.ok shown, s) := ⟨_, _, rfl⟩
  exact ⟨hoverlap.marked.mpr hfirst, shown, s, hpage,
    (hoverlap.page _ _ _ _ _ _ rfl hpage).mpr hfirst⟩

/-- The end of one job takes the mark from another that is under way, and a page that is
asked for meanwhile counts as complete. -/
theorem loses_mark_in_flight :
    InFlight (.account 7) 0 (bothTurns [0, 1, 1, 1, 1, 1, 1, 1]) ∧
      (afterBoth [0, 1, 1, 1, 1, 1, 1, 1]).marks.isMarked (.account 7) 1000 = false ∧
      ∃ shown s, Routine.attempt sound (afterBoth [0, 1, 1, 1, 1, 1, 1, 1])
          (Timeline.page ServingSettings.default .home 7 ⟨none, none, none, none⟩) =
            (.ok shown, s) ∧ shown.status = .complete :=
  ⟨⟨⟨3600, .head _⟩, by decide⟩, by decide, _, _, rfl, rfl⟩

end Job
end WarmFeed
