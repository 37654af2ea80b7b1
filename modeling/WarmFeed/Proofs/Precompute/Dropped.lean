import WarmFeed.Proofs.Dropping
import WarmFeed.Proofs.Precompute.Mark

/-!
# Work under a mark that is dropped

From the moment at which a subject is known to be marked and until its worker asks for the
mark to be taken back, that request is what the worker leaves behind when it is dropped.
Once someone has made it, and it has not failed, the subject is no longer marked.

The guard that leaves it behind is set up when the reply to the mark has come, and taken down
before the clearing is asked for.  Outside of these bounds nothing is left behind: a worker that
is dropped before it learns that its mark has been set, or before its own clearing has taken
effect, leaves a mark that runs out by itself.
-/

namespace WarmFeed

theorem Apply.MadeOf.leavesNothing {α : Type} {key : StoreKey} {sort : IndexRequest → Prop}
    {a : Attempt StoreError α} (h : MadeOf key sort a) : a.run.LeavesNothing := by
  induction h with
  | ended x => exact trivial
  | asked _ _ ih =>
    exact Routine.leavesNothing_attempt_bind (Routine.leavesNothing_request _) ih

namespace Worker

variable (w : Worker) (kind : FeedKind) (subject : Subject)

theorem leavesNothing_computeAndApply :
    (w.computeAndApply kind subject).run.LeavesNothing := by
  unfold computeAndApply
  refine Routine.leavesNothing_attempt_bind ?_ fun entries => ?_
  · unfold compute
    split
    · exact trivial
    · refine Routine.leavesNothing_attempt_bind ?_ fun reply => ?_
      · exact Routine.LeavesNothing.bind (Routine.leavesNothing_request _) fun _ => trivial
      · match reply with
        | none => exact trivial
        | some (.error e) => exact trivial
        | some (.ok entries) => exact trivial
  · refine Routine.leavesNothing_attempt_bind (Routine.leavesNothing_mapError ?_ _)
      fun done => trivial
    obtain ⟨rest, heq, hrest⟩ := Apply.apply_eq_bind w.settings.applyMode w.settings.capacity
      (.index kind subject) entries
    rw [heq]
    exact Routine.leavesNothing_attempt_bind (Routine.leavesNothing_request _)
      fun existing => (hrest existing).leavesNothing

theorem leavesNothing_regenerate : (w.regenerate kind subject).LeavesNothing := by
  refine Routine.LeavesNothing.bind (w.leavesNothing_computeAndApply kind subject) fun result => ?_
  refine Routine.LeavesNothing.bind (Routine.leavesNothing_request _) fun _ => ?_
  exact Routine.LeavesNothing.bind (Routine.leavesNothing_request _) fun _ => trivial

theorem leavesNothing_regenerateAll (kinds : List FeedKind) :
    (w.regenerateAll subject kinds).LeavesNothing := by
  induction kinds with
  | nil => exact trivial
  | cons kind rest ih =>
    unfold regenerateAll
    cases w.hasSource kind with
    | false => exact ih
    | true =>
      refine Routine.LeavesNothing.bind (w.leavesNothing_regenerate kind subject) fun result => ?_
      cases result with
      | error e => exact trivial
      | ok report => exact Routine.LeavesNothing.bind ih fun _ => trivial

section UnderMark

variable {σ α : Type} {answer : Backend σ} {seconds : Nat}

/-- The drops of work that is done under a mark: until the reply to the mark, during the work
if the subject could be marked, and until the reply to the clearing. -/
theorem drops_settle (work : Work (Except RunError α)) (s : σ) :
    ((underMark seconds subject work).bind settle).drops answer s =
      ⟨s, some (.mark subject seconds), false, []⟩ ::
        ⟨s, some (.mark subject seconds), true, []⟩ ::
        match (answer s (.mark subject seconds)).1 with
        | .error _ => []
        | .ok () =>
          (work.guarded [.clear subject]).drops answer (answer s (.mark subject seconds)).2 ++
            let s' := (work.run answer (answer s (.mark subject seconds)).2).2
            [⟨s', some (.clear subject), false, []⟩, ⟨s', some (.clear subject), true, []⟩] := by
  rw [underMark_bind_settle]
  refine congrArg (fun ds => _ :: _ :: ds) ?_
  cases (answer s (.mark subject seconds)).1 with
  | error e => rfl
  | ok =>
    show Routine.drops answer ((work.guarded [.clear subject]).bind _) _ = _
    rw [Routine.drops_bind, Routine.run_guarded]
    rfl

end UnderMark

structure ClearsUp {σ : Type} (answer : Backend σ) (marks : σ → Marks) (seconds : Nat)
    (subject : Subject) (d : Drop σ Call) : Prop where
  /-- After the mark and before the clearing, the clearing is left behind. -/
  leftBehind : d.awaited ≠ some (.mark subject seconds) → d.awaited ≠ some (.clear subject) →
    d.leftBehind = [.clear subject]
  /-- Whatever happens in the meantime, once that was requested and did not fail the subject
  is not marked. -/
  cleared : d.leftBehind = [.clear subject] → ∀ t, (answer t (.clear subject)).1 = .ok () →
    ∀ now, (marks ((Routine.requestAll d.leftBehind).run answer t).2).isMarked subject now = false
  /-- Nor is it if the clearing has taken effect before the drop and did not fail. -/
  arrived : d.awaited = some (.clear subject) → d.arrived = true →
    (answer d.state (.clear subject)).1 = .ok () →
      ∀ now, (marks (d.reached answer)).isMarked subject now = false

section ClearsUp

variable {σ α : Type} {answer : Backend σ} {marks : σ → Marks} {clock : σ → Nat} {seconds : Nat}
  {subject : Subject} {work whole : Work (Except RunError α)}

theorem not_isMarked_of_cleared (h : Backend.HoldsMarks answer marks clock) {t : σ}
    (hcleared : (answer t (.clear subject)).1 = .ok ()) (now : Nat) :
    (marks (answer t (.clear subject)).2).isMarked subject now = false := by
  rw [h.clear t subject hcleared, Marks.isMarked_clear]
  simp

theorem clearsUp (h : Backend.HoldsMarks answer marks clock) (hwork : work.LeavesNothing)
    (hwhole : whole = (underMark seconds subject work).bind settle) {s : σ} {d : Drop σ Call}
    (hd : d ∈ whole.drops answer s) : ClearsUp answer marks seconds subject d where
  leftBehind hmark hclear := by
    rw [hwhole, drops_settle] at hd
    rcases List.mem_cons.mp hd with rfl | hd
    · exact absurd rfl hmark
    rcases List.mem_cons.mp hd with rfl | hd
    · exact absurd rfl hmark
    cases hmarked : (answer s (.mark subject seconds)).1 with
    | error e =>
      rw [hmarked] at hd
      exact absurd hd List.not_mem_nil
    | ok =>
      rw [hmarked] at hd
      rcases List.mem_append.mp hd with hd | hd
      · exact hwork.of_mem_drops_guarded hd
      · rcases List.mem_pair.mp hd with rfl | rfl
        · exact absurd rfl hclear
        · exact absurd rfl hclear
  cleared hleft t hcleared now := by
    rw [hleft]
    exact not_isMarked_of_cleared h hcleared now
  arrived hawaited harrived hcleared now := by
    unfold Drop.reached
    rw [hawaited, harrived]
    exact not_isMarked_of_cleared h hcleared now

end ClearsUp

/-- Wherever a run or the computation of an account's feeds is dropped while it works under
its mark, it leaves the clearing of its subject behind, and that leaves no mark. -/
theorem clears_when_dropped {σ : Type} {answer : Backend σ} {marks : σ → Marks} {clock : σ → Nat}
    (h : Backend.HoldsMarks answer marks clock) (w : Worker) (s : σ) :
    (∀ kind subject, ∀ d ∈ (w.run kind subject).drops answer s,
      ClearsUp answer marks w.settings.markSeconds subject d) ∧
    ∀ account, ∀ d ∈ (w.populate account).drops answer s,
      ClearsUp answer marks w.settings.markSeconds (.account account) d :=
  ⟨fun kind subject _ hd =>
      clearsUp h (w.leavesNothing_regenerate kind subject) (w.run_eq_underMark kind subject) hd,
    fun account _ hd => clearsUp h (w.leavesNothing_regenerateAll (.account account) _)
      (w.populate_eq_underMark account) hd⟩

/-- A backend on which nothing fails, and whose sources are left waiting. -/
def unhurried : Backend Backend.Setting := Backend.faulty (fun _ => none) fun _ => none

theorem clears_when_dropped_computing :
    ∃ d ∈ (bothFeeds.populate 7).drops unhurried .empty,
      d.awaited = some (.compute .home (.account 7) 30) ∧ d.arrived = false ∧
      (d.reached unhurried).marks.isMarked (.account 7) (d.reached unhurried).clock = true ∧
      d.leftBehind = [.clear (.account 7)] ∧
      ∀ now, ((Routine.requestAll d.leftBehind).run unhurried
        (d.reached unhurried)).2.marks.isMarked (.account 7) now = false := by
  have hmarks : Backend.HoldsMarks unhurried Backend.Setting.marks Backend.Setting.clock :=
    Backend.holdsMarks_faulty _ _
  obtain ⟨-, haccount⟩ := clears_when_dropped hmarks bothFeeds .empty
  have hdrop : (⟨(unhurried .empty (.mark (.account 7) 3600)).2,
      some (.compute .home (.account 7) 30), false, [.clear (.account 7)]⟩ :
        Drop Backend.Setting Call) ∈ (bothFeeds.populate 7).drops unhurried .empty :=
    .tail _ (.tail _ (.head _))
  have hclears := haccount 7 _ hdrop
  have hleft := hclears.leftBehind (by decide) (by decide)
  exact ⟨_, hdrop, rfl, rfl, by decide, hleft, hclears.cleared hleft _ rfl⟩

/-- The subject stays marked if the clearing that was left behind fails.  It also does where
nothing fails, if the worker is dropped before it has the reply to its mark, or before its own
clearing takes effect: then nothing is left behind. -/
theorem stays_marked_when_dropped :
    (∃ d ∈ (bothFeeds.run .home (.account 7)).drops stalled .empty,
      d.awaited = some (.compute .home (.account 7) 30) ∧ d.leftBehind = [.clear (.account 7)] ∧
      ((Routine.requestAll d.leftBehind).run stalled (d.reached stalled)).2.marks.isMarked
        (.account 7) 1000 = true) ∧
    (∃ d ∈ (bothFeeds.run .home (.account 7)).drops unhurried .empty,
      d.awaited = some (.mark (.account 7) 3600) ∧ d.arrived = true ∧ d.leftBehind = [] ∧
      (d.reached unhurried).marks.isMarked (.account 7) 1000 = true) ∧
    ∃ d ∈ (bothFeeds.run .home (.account 7)).drops unhurried .empty,
      d.awaited = some (.clear (.account 7)) ∧ d.arrived = false ∧ d.leftBehind = [] ∧
      (d.reached unhurried).marks.isMarked (.account 7) 1000 = true := by
  refine ⟨⟨_, .tail _ (.tail _ (.head _)), rfl, rfl, rfl⟩, ⟨_, .tail _ (.head _), rfl, rfl, rfl,
    rfl⟩, ?_⟩
  let marked := (unhurried .empty (.mark (.account 7) 3600)).2
  let ended := ((bothFeeds.regenerate .home (.account 7)).run unhurried marked).2
  refine ⟨⟨ended, some (.clear (.account 7)), false, []⟩, ?_, rfl, rfl, rfl, by decide⟩
  rw [run_eq_underMark, drops_settle]
  exact .tail _ (.tail _ (List.mem_append_right _ (.head _)))

end Worker
end WarmFeed
