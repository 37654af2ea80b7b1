import WarmFeed.Proofs.Precompute.Outcome
import WarmFeed.Proofs.Source.Answers

/-!
# Runs on registered sources

A run asks the source that is registered for its kind, and no other one.  So it comes to what
that source answers, and ends well only if the source does.
-/

namespace WarmFeed
namespace Worker

variable {σ : Type} {answer : Backend σ} {view : σ → FeedIndex} {w : Worker} {sources : Sources}
  {kind : FeedKind} {source : Source} {subject : Subject} {s : σ}

/-- The run is that of the worker on a backend that has this source only. -/
theorem run_sources_run (hregistered : sources.get? kind = some source) :
    (sources.run (w.run kind subject)).run answer s =
      (w.run kind subject).run (Sources.answers ⟨[(kind, source)]⟩ answer) s := by
  have hasks : (w.run kind subject).Asks
      fun c => ∀ asked subject seconds, c = .compute asked subject seconds → asked = kind := by
    rw [run_eq_underMark]
    refine asks_settle subject ?_ (fun _ _ _ => Call.noConfusion) fun _ _ _ => Call.noConfusion
    refine (w.asks_regenerate kind subject).imp fun c hc asked subject' seconds hcompute => ?_
    rw [hcompute] at hc
    exact hc.1
  rw [Sources.run_run]
  refine hasks.run_congr (fun t c hc => ?_) s
  exact Sources.answers_congr answer t (hregistered.trans List.lookup_cons_self.symm) hc

theorem holdsIndex_answers_single (h : Backend.HoldsIndex answer view) (kind : FeedKind)
    (haside : Sources.Aside source) :
    Backend.HoldsIndex (Sources.answers ⟨[(kind, source)]⟩ answer) view := by
  refine Sources.holdsIndex_answers h fun asked source' hsource => ?_
  by_cases hasked : asked = kind
  · rw [hasked] at hsource
    rw [← Option.some.inj (List.lookup_cons_self.symm.trans hsource)]
    exact haside
  · have hnone : List.lookup asked [(kind, source)] = none := by
      rw [Table.lookup_cons_pair, if_neg hasked, List.lookup_nil]
    exact absurd (hnone.symm.trans hsource) (Option.some_ne_none _).symm

/-- What a run comes to that can mark its subject, by what its source answers. -/
theorem run_sources_comes (h : Backend.HoldsIndex answer view) (hx : (view s).Consistent)
    (hregistered : sources.get? kind = some source) (haside : Sources.Aside source)
    (hsource : w.hasSource kind = true)
    (hmarked : (answer s (.mark subject w.settings.markSeconds)).1 = .ok ()) :
    w.Comes kind subject (view s) ((sources.run (w.run kind subject)).run answer s).1
      (view ((sources.run (w.run kind subject)).run answer s).2)
      (((Routine.attempt answer (answer s (.mark subject w.settings.markSeconds)).2
        (source subject)).1.mapError .ofServiceError).map w.selected) := by
  have hmark : Sources.answers ⟨[(kind, source)]⟩ answer s (.mark subject w.settings.markSeconds) =
      answer s (.mark subject w.settings.markSeconds) := rfl
  have hcomes : w.Comes kind subject (view s) _ _ _ :=
    run_comes (holdsIndex_answers_single h kind haside) hx (hmark ▸ hmarked)
  rwa [← run_sources_run hregistered, hmark,
    Sources.answers_compute _ _ List.lookup_cons_self (haside.steady subject),
    verdict_answered hsource] at hcomes

/-- A run that ends well has got entries from its source, and has brought in those of them that
are selected. -/
theorem changedTo_of_run_sources (h : Backend.HoldsIndex answer view) (hx : (view s).Consistent)
    (hregistered : sources.get? kind = some source) (haside : Sources.Aside source)
    {report : Report} {s' : σ}
    (hrun : (sources.run (w.run kind subject)).run answer s = (.ok report, s')) :
    ∃ computed, (Routine.attempt answer (answer s (.mark subject w.settings.markSeconds)).2
        (source subject)).1 = .ok computed ∧
      (view s).ChangedTo (.index kind subject) (Apply.contentsOf (w.selected computed))
        (view s') := by
  obtain ⟨computed, hcomputes⟩ := exists_computes ((run_sources_run hregistered).symm.trans hrun)
  have hcomes : w.Comes kind subject (view s) _ _ _ :=
    run_sources_comes h hx hregistered haside hcomputes.source hcomputes.marked
  have hanswered := hcomputes.computed
  rw [Sources.answers_compute _ _ List.lookup_cons_self (haside.steady subject)] at hanswered
  have hcomputed : (Routine.attempt answer (answer s (.mark subject w.settings.markSeconds)).2
      (source subject)).1 = .ok computed := Option.some.inj hanswered
  rw [hrun, hcomputed] at hcomes
  exact ⟨computed, hcomputed, hcomes.2⟩

end Worker
end WarmFeed
