import WarmFeed.Precompute.Worker
import WarmFeed.Proofs.Precompute.Apply

/-!
# What a run leaves

A run that can mark its subject and gets entries from its source leaves exactly the
selected entries in its feed, however they are brought in.  A second run in steps with
the same entries then finds nothing to do.
-/

namespace WarmFeed
namespace Worker

def selected (w : Worker) (computed : List Entry) : List Entry :=
  Selection.top w.settings.capacity (Selection.dedupe computed)

def stepwise (w : Worker) : Worker :=
  { w with settings := { w.settings with applyMode := .incremental } }

theorem clean_selected (w : Worker) (computed : List Entry) :
    Selection.Clean (w.selected computed) :=
  (Selection.clean_dedupe computed).top _

/-- In this state a run of the worker can mark its subject, and then its source computes
the given entries in time. -/
structure Computes {σ : Type} (answer : Backend σ) (w : Worker) (kind : FeedKind)
    (subject : Subject) (computed : List Entry) (s : σ) : Prop where
  source : w.hasSource kind = true
  marked : (answer s (.mark subject w.settings.markSeconds)).1 = .ok ()
  computed : (answer (answer s (.mark subject w.settings.markSeconds)).2
    (.compute kind subject w.settings.timeoutSeconds)).1 = some (.ok computed)

variable {σ : Type} {answer : Backend σ} {view : σ → FeedIndex} {w : Worker} {kind : FeedKind}
  {subject : Subject} {computed : List Entry} {s : σ}

theorem attempt_compute (h : Backend.HoldsIndex answer view) (hsource : w.hasSource kind = true)
    (hcompute : (answer s (.compute kind subject w.settings.timeoutSeconds)).1 =
      some (.ok computed)) :
    ∃ s', Routine.attempt answer s (w.compute kind subject) =
        (.ok (w.selected computed), s') ∧ view s' = view s := by
  have hview := h.other s (.compute kind subject w.settings.timeoutSeconds)
    (fun key r => Call.noConfusion)
  have hasked : Routine.attempt answer s
      (liftM (Routine.request (Call.compute kind subject w.settings.timeoutSeconds) :
        Work (Option (Except ServiceError (List Entry)))) : Attempt RunError _) =
      (.ok (some (.ok computed)),
        (answer s (.compute kind subject w.settings.timeoutSeconds)).2) := by
    rw [Routine.attempt_liftRoutine, Routine.run_request, hcompute]
  refine ⟨_, ?_, hview⟩
  unfold compute
  rw [hsource]
  exact Routine.attempt_bind_ok hasked

theorem attempt_computeAndApply (h : Backend.HoldsIndex answer view)
    (hsource : w.hasSource kind = true)
    (hcompute : (answer s (.compute kind subject w.settings.timeoutSeconds)).1 =
      some (.ok computed)) {done : Applied} {P : FeedIndex → Prop}
    (happly : ∀ t, view t = view s → ∃ t', Routine.attempt answer t
        (Apply.apply w.settings.applyMode w.settings.capacity (.index kind subject)
          (w.selected computed)) = (.ok done, t') ∧ P (view t')) :
    ∃ s', Routine.attempt answer s (w.computeAndApply kind subject) =
        (.ok ⟨kind, subject, done.applied, done.removed⟩, s') ∧ P (view s') := by
  obtain ⟨s₁, hcomputed, hview₁⟩ := attempt_compute h hsource hcompute
  obtain ⟨s₂, happlied, hafter⟩ := happly s₁ hview₁
  refine ⟨s₂, ?_, hafter⟩
  have hmapped := Routine.attempt_mapError answer s₁
    (Apply.apply w.settings.applyMode w.settings.capacity (.index kind subject)
      (w.selected computed)) RunError.store
  rw [happlied] at hmapped
  unfold computeAndApply
  rw [Routine.attempt_bind_ok hcomputed]
  exact Routine.attempt_bind_ok hmapped

/-- Counting what came of it changes neither the result nor the index. -/
theorem run_regenerate (h : Backend.HoldsIndex answer view) {result : Except RunError Report}
    {s' : σ} (hdone : Routine.attempt answer s (w.computeAndApply kind subject) = (result, s')) :
    ∃ s'', (w.regenerate kind subject).run answer s = (result, s'') ∧ view s'' = view s' := by
  have hrun : (w.computeAndApply kind subject).run.run answer s = (result, s') := hdone
  unfold regenerate
  rw [Routine.bind_eq, Routine.run_bind, hrun]
  refine ⟨_, rfl, ?_⟩
  exact (h.other _ (.count _ 1) (fun key r => Call.noConfusion)).trans
    (h.other _ (.count _ 1) (fun key r => Call.noConfusion))

theorem run_underMark {α : Type} {seconds : Nat} {work : Work α} {result : α} {s' : σ}
    (hmarked : (answer s (.mark subject seconds)).1 = .ok ())
    (hwork : work.run answer (answer s (.mark subject seconds)).2 = (result, s')) :
    (underMark seconds subject work).run answer s =
      (.ok result, (answer s' (.clear subject)).2) := by
  unfold underMark
  rw [Routine.bind_eq, Routine.run_bind, Routine.run_request, hmarked]
  show Routine.run answer ((work.guarded [Call.clear subject]).bind _) _ = _
  rw [Routine.run_bind, Routine.run_guarded, hwork]
  rfl

/-- A run that can mark its subject and gets entries in time succeeds if bringing them in
does, and leaves the index that this leaves. -/
theorem run_of_apply (h : Backend.HoldsIndex answer view)
    (hrun : w.Computes answer kind subject computed s) {done : Applied} {P : FeedIndex → Prop}
    (happly : ∀ t, view t = view s → ∃ t', Routine.attempt answer t
        (Apply.apply w.settings.applyMode w.settings.capacity (.index kind subject)
          (w.selected computed)) = (.ok done, t') ∧ P (view t')) :
    ∃ s', (w.run kind subject).run answer s =
        (.ok ⟨kind, subject, done.applied, done.removed⟩, s') ∧ P (view s') := by
  have hmarked := h.other s (.mark subject w.settings.markSeconds)
    (fun key r => Call.noConfusion)
  obtain ⟨s₁, hdone, hafter⟩ := attempt_computeAndApply h hrun.source hrun.computed
    (fun t ht => happly t (ht.trans hmarked))
  obtain ⟨s₂, hregenerated, hview₂⟩ := run_regenerate h hdone
  have hcleared := h.other s₂ (.clear subject) (fun key r => Call.noConfusion)
  refine ⟨(answer s₂ (.clear subject)).2, ?_, ?_⟩
  · unfold run
    rw [Routine.bind_eq, Routine.run_bind, run_underMark hrun.marked hregenerated]
    rfl
  · rw [hcleared, hview₂]
    exact hafter

/-- Only with entries that the source computed in time does a computation end well. -/
theorem exists_of_attempt_compute {es : List Entry} {s' : σ}
    (hcompute : Routine.attempt answer s (w.compute kind subject) = (.ok es, s')) :
    w.hasSource kind = true ∧ ∃ computed,
      (answer s (.compute kind subject w.settings.timeoutSeconds)).1 = some (.ok computed) := by
  unfold compute at hcompute
  cases hsource : w.hasSource kind with
  | false =>
    rw [hsource] at hcompute
    nomatch congrArg Prod.fst hcompute
  | true =>
    rw [hsource] at hcompute
    obtain ⟨reply, s₁, hasked, hrest⟩ := Routine.exists_of_attempt_bind
      (a := liftM (Routine.request (Call.compute kind subject w.settings.timeoutSeconds) :
        Work (Option (Except ServiceError (List Entry))))) hcompute
    rw [Routine.attempt_liftRoutine, Routine.run_request] at hasked
    obtain ⟨hreply, rfl⟩ := Prod.mk.inj hasked
    refine ⟨rfl, ?_⟩
    rw [Except.ok.inj hreply]
    match reply, hrest with
    | none, hrest => nomatch congrArg Prod.fst hrest
    | some (.error e), hrest => nomatch congrArg Prod.fst hrest
    | some (.ok computed), _ => exact ⟨computed, rfl⟩

/-- Only a run that can mark its subject and gets entries in time succeeds. -/
theorem exists_computes {report : Report} {s' : σ}
    (hrun : (w.run kind subject).run answer s = (.ok report, s')) :
    ∃ computed, w.Computes answer kind subject computed s := by
  unfold run underMark at hrun
  simp only [Routine.bind_eq, Routine.run_bind, Routine.run_request] at hrun
  cases hmarked : (answer s (.mark subject w.settings.markSeconds)).1 with
  | error e =>
    rw [hmarked] at hrun
    nomatch congrArg Prod.fst hrun
  | ok =>
    rw [hmarked] at hrun
    simp only [Routine.run_bind, Routine.run_guarded] at hrun
    have hregenerate : ((w.regenerate kind subject).run answer _).1 = .ok report :=
      congrArg Prod.fst hrun
    unfold regenerate at hregenerate
    rw [Routine.bind_eq, Routine.run_bind] at hregenerate
    have hdone : (Routine.attempt answer _ (w.computeAndApply kind subject)).1 = .ok report :=
      hregenerate
    obtain ⟨es, s₁, hcompute, -⟩ := Routine.exists_of_attempt_bind (Prod.ext hdone rfl)
    obtain ⟨hsource, computed, hcomputed⟩ := exists_of_attempt_compute hcompute
    exact ⟨computed, hsource, hmarked, hcomputed⟩

/-- From every previous contents, a run that gets entries leaves exactly the selected ones
in its feed and every other feed alone.  It reports how many entries it wrote and how
many are gone.  Another run in steps with the same entries right after it reports
nothing and leaves the index as it is. -/
theorem run_settles (h : Backend.HoldsIndex answer view) (hs : (view s).Reachable)
    (hrun : w.Computes answer kind subject computed s) :
    ∃ s', (w.run kind subject).run answer s =
        (.ok ⟨kind, subject,
          Apply.written w.settings.applyMode (view s) (.index kind subject) (w.selected computed),
          Apply.dropped (view s) (.index kind subject) (w.selected computed)⟩, s') ∧
      ((view s').feed (.index kind subject)).entries.Perm
        ((w.selected computed).map Entry.stored) ∧
      (∀ key, key ≠ .index kind subject → (view s').feed key = (view s).feed key) ∧
      ∀ t, view t = view s' → w.stepwise.Computes answer kind subject computed t →
        ∃ t', (w.stepwise.run kind subject).run answer t = (.ok ⟨kind, subject, 0, 0⟩, t') ∧
          view t' = view t := by
  have hclean := w.clean_selected computed
  have hfits : (w.selected computed).length ≤ w.settings.capacity := Selection.length_top_le _ _
  obtain ⟨s', hdone, hchanged⟩ := run_of_apply h hrun
    (P := (view s).ChangedTo (.index kind subject) (Apply.contentsOf (w.selected computed)))
    (fun t ht => by
      have happly := Apply.attempt_apply h (ht ▸ hs.consistent) w.settings.applyMode
        (.index kind subject) hclean hfits
      rwa [ht] at happly)
  refine ⟨s', hdone, ?_, hchanged.others, ?_⟩
  · rw [(hchanged.consistent _).entries_eq, hchanged.contents]
    exact Contents.entryList_writeAll_perm (Apply.nodup_stored hclean)
  · intro t ht hagain
    rw [← ht] at hchanged
    have hstill : ∀ u, view u = view t → ∃ u', Routine.attempt answer u
        (Apply.apply .incremental w.settings.capacity (.index kind subject)
          (w.selected computed)) = (.ok ⟨0, 0⟩, u') ∧ view u' = view t := by
      intro u hu
      have happly := Apply.attempt_apply_again h (hu ▸ hchanged.consistent) (.index kind subject)
        hclean hfits (hu ▸ hchanged.contents)
      rwa [hu] at happly
    exact run_of_apply h hagain (P := (· = view t)) hstill

def previousCalls : List (StoreKey × IndexRequest) :=
  [(.index .home (.account 7), .upsertMany [⟨1, Score.zero⟩, ⟨4, ⟨7⟩⟩])]

/-- Entries with another zero, two scores for one identifier, and no number. -/
def rescored : List Entry :=
  [⟨1, Score.negativeZero⟩, ⟨2, ⟨5⟩⟩, ⟨2, ⟨9⟩⟩, ⟨3, Score.notANumber⟩]

def homeWorker : Worker := ⟨[.home], { PrecomputeSettings.default with capacity := 2 }⟩

theorem run_settles_rescored :
    ∃ y, (homeWorker.run .home (.account 7)).run (Backend.plain (fun _ => none) rescored)
        (Keeper.run FeedIndex.answer previousCalls ∅).2 = (.ok ⟨.home, .account 7, 1, 1⟩, y) ∧
      (y.feed (.index .home (.account 7))).entries.Perm [⟨1, Score.zero⟩, ⟨2, ⟨9⟩⟩] ∧
      ∃ z, (homeWorker.stepwise.run .home (.account 7)).run
          (Backend.plain (fun _ => none) rescored) y = (.ok ⟨.home, .account 7, 0, 0⟩, z) ∧
        z = y := by
  have hcomputes : homeWorker.Computes (Backend.plain (fun _ => none) rescored) .home (.account 7)
      rescored (Keeper.run FeedIndex.answer previousCalls ∅).2 := ⟨by decide, rfl, rfl⟩
  have hwritten : Apply.written .incremental (Keeper.run FeedIndex.answer previousCalls ∅).2
      (.index .home (.account 7)) (homeWorker.selected rescored) = 1 := by decide +kernel
  have hdropped : Apply.dropped (Keeper.run FeedIndex.answer previousCalls ∅).2
      (.index .home (.account 7)) (homeWorker.selected rescored) = 1 := by decide +kernel
  have hselected : (homeWorker.selected rescored).map Entry.stored =
      [⟨1, Score.zero⟩, ⟨2, ⟨9⟩⟩] := by decide +kernel
  obtain ⟨y, hrun, hentries, -, hagain⟩ :=
    run_settles (Backend.holdsIndex_plain (fun _ => none) rescored) ⟨previousCalls, rfl⟩ hcomputes
  have hmode : homeWorker.settings.applyMode = .incremental := rfl
  rw [hmode, id_eq, hwritten, hdropped] at hrun
  rw [hselected] at hentries
  exact ⟨y, hrun, hentries, hagain y rfl ⟨by decide, rfl, rfl⟩⟩

end Worker
end WarmFeed
