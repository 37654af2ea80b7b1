import WarmFeed.Proofs.Precompute.Mark

/-!
# What a computation comes to

A source answers with entries or with a failure, or it does not answer in time.  With entries
the feed is brought up to those that are selected, whatever it held before.  Otherwise the
index stays as it is, and the result says why.  So the result of a computation is decided by
the answer of the source, up to the counts that are reported.
-/

namespace WarmFeed
namespace Worker

/-- The entries to bring in, by what a source has answered, or why there are none. -/
def verdict (w : Worker) (kind : FeedKind) (reply : Option (Except ServiceError (List Entry))) :
    Except RunError (List Entry) :=
  if w.hasSource kind then
    match reply with
    | none => .error (.timeout w.settings.timeout)
    | some (.error e) => .error (.ofServiceError e)
    | some (.ok computed) => .ok (w.selected computed)
  else .error (.noSource kind)

theorem verdict_of_no_source {w : Worker} {kind : FeedKind} (h : w.hasSource kind = false)
    (reply : Option (Except ServiceError (List Entry))) :
    w.verdict kind reply = .error (.noSource kind) := by
  unfold verdict
  rw [h]
  rfl

theorem verdict_answered {w : Worker} {kind : FeedKind} (h : w.hasSource kind = true)
    (result : Except ServiceError (List Entry)) :
    w.verdict kind (some result) = (result.mapError .ofServiceError).map w.selected := by
  unfold verdict
  rw [h]
  cases result <;> rfl

/-- What becomes of a feed, with the index `x` before and `y` after the computation. -/
def Comes (w : Worker) (kind : FeedKind) (subject : Subject) (x : FeedIndex)
    (result : Except RunError Report) (y : FeedIndex) : Except RunError (List Entry) → Prop
  | .error e => result = .error e ∧ y = x
  | .ok es =>
    result = .ok ⟨kind, subject,
      Apply.written w.settings.applyMode x (.index kind subject) es,
      Apply.dropped x (.index kind subject) es⟩ ∧
      x.ChangedTo (.index kind subject) (Apply.contentsOf es) y

variable {σ : Type} {answer : Backend σ} {view : σ → FeedIndex} {w : Worker} {kind : FeedKind}
  {subject : Subject} {s : σ}

theorem attempt_compute_verdict (hsource : w.hasSource kind = true) :
    Routine.attempt answer s (w.compute kind subject) =
      (w.verdict kind (answer s (.compute kind subject w.settings.timeoutSeconds)).1,
        (answer s (.compute kind subject w.settings.timeoutSeconds)).2) := by
  have hasked := Routine.attempt_liftRoutine (ε := RunError) answer s (Routine.request
    (Call.compute kind subject w.settings.timeoutSeconds) :
      Work (Option (Except ServiceError (List Entry))))
  rw [Routine.run_request] at hasked
  unfold compute verdict
  rw [hsource]
  generalize answer s (.compute kind subject w.settings.timeoutSeconds) = replied at hasked ⊢
  obtain ⟨reply, s'⟩ := replied
  match reply with
  | none => exact Routine.attempt_bind_ok hasked
  | some (.error e) => exact Routine.attempt_bind_ok hasked
  | some (.ok computed) => exact Routine.attempt_bind_ok hasked

theorem clean_verdict {reply : Option (Except ServiceError (List Entry))} {es : List Entry}
    (h : w.verdict kind reply = .ok es) :
    Selection.Clean es ∧ es.length ≤ w.settings.capacity := by
  unfold verdict at h
  split at h
  · split at h
    · nomatch h
    · nomatch h
    · rename_i computed
      obtain rfl := Except.ok.inj h
      exact ⟨w.clean_selected computed, Selection.length_top_le _ _⟩
  · nomatch h

theorem computeAndApply_comes (h : Backend.HoldsIndex answer view) (hx : (view s).Consistent) :
    w.Comes kind subject (view s) (Routine.attempt answer s (w.computeAndApply kind subject)).1
      (view (Routine.attempt answer s (w.computeAndApply kind subject)).2)
      (w.verdict kind (answer s (.compute kind subject w.settings.timeoutSeconds)).1) := by
  cases hsource : w.hasSource kind with
  | false =>
    rw [verdict_of_no_source hsource]
    unfold computeAndApply compute
    rw [hsource]
    exact ⟨rfl, rfl⟩
  | true =>
    have hcompute : Routine.attempt answer s (w.compute kind subject) = _ :=
      attempt_compute_verdict hsource
    have hview := h.other s (.compute kind subject w.settings.timeoutSeconds)
      (fun key r => Call.noConfusion)
    generalize answer s (.compute kind subject w.settings.timeoutSeconds) = replied at *
    obtain ⟨reply, s'⟩ := replied
    unfold computeAndApply
    cases hverdict : w.verdict kind reply with
    | error e =>
      rw [Routine.attempt_bind, hcompute]
      dsimp only
      rw [hverdict]
      exact ⟨rfl, hview⟩
    | ok es =>
      obtain ⟨hclean, hfits⟩ := clean_verdict hverdict
      obtain ⟨s'', happly, hchanged⟩ := Apply.attempt_apply h (hview.symm ▸ hx)
        w.settings.applyMode (.index kind subject) hclean hfits
      rw [hview] at happly hchanged
      have hmapped := Routine.attempt_mapError answer s' (Apply.apply w.settings.applyMode
        w.settings.capacity (.index kind subject) es) RunError.store
      rw [happly] at hmapped
      dsimp only at hcompute
      rw [hverdict] at hcompute
      rw [Routine.attempt_bind_ok hcompute]
      refine (congrArg (fun done : Except RunError Report × σ => w.Comes kind subject (view s)
        done.1 (view done.2) (.ok es)) (Routine.attempt_bind_ok hmapped)).mpr ⟨rfl, hchanged⟩

theorem view_tally (h : Backend.HoldsIndex answer view) (result : Except RunError Report)
    (s : σ) : view ((tally kind result).run answer s).2 = view s := by
  refine ((asks_tally kind result).staysIn (P := fun t => view t = view s) ?_ rfl).2
  rintro t c ⟨metric, n, rfl⟩ ht
  exact (h.other t _ fun key r => Call.noConfusion).trans ht

/-- A computation that is counted. -/
theorem regenerate_comes (h : Backend.HoldsIndex answer view) (hx : (view s).Consistent) :
    w.Comes kind subject (view s) ((w.regenerate kind subject).run answer s).1
      (view ((w.regenerate kind subject).run answer s).2)
      (w.verdict kind (answer s (.compute kind subject w.settings.timeoutSeconds)).1) := by
  have hcomes : w.Comes kind subject (view s) _ _ _ := computeAndApply_comes h hx
  rw [regenerate_eq_bind, Routine.run_bind, view_tally h]
  exact hcomes

/-- A run that can mark its subject. -/
theorem run_comes (h : Backend.HoldsIndex answer view) (hx : (view s).Consistent)
    (hmarked : (answer s (.mark subject w.settings.markSeconds)).1 = .ok ()) :
    w.Comes kind subject (view s) ((w.run kind subject).run answer s).1
      (view ((w.run kind subject).run answer s).2)
      (w.verdict kind (answer (answer s (.mark subject w.settings.markSeconds)).2
        (.compute kind subject w.settings.timeoutSeconds)).1) := by
  have hview := h.other s (.mark subject w.settings.markSeconds) fun key r => Call.noConfusion
  have hcomes : w.Comes kind subject _ _ _ _ :=
    regenerate_comes (s := (answer s (.mark subject w.settings.markSeconds)).2) h (hview ▸ hx)
  rw [hview] at hcomes
  rw [run_eq_underMark, run_settle subject _ hmarked,
    h.other _ (.clear subject) fun key r => Call.noConfusion]
  exact hcomes

end Worker
end WarmFeed
