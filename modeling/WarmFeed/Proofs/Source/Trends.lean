import Mathlib.Data.List.Nodup
import WarmFeed.Proofs.Occurrences
import WarmFeed.Proofs.Precompute.Selection
import WarmFeed.Proofs.Score.Whole
import WarmFeed.Proofs.Source.Answers
import WarmFeed.Source.Trends

/-!
# What the trending source computes

Of a list that is served in pages the first candidates are fetched, as many as are wanted.
Each candidate that is resolved to an identifier for the first time leads to an entry, in the
order of the candidates.  Where scores are places, each entry is scored lower than the one
before it.

The source fails if there were candidates and every one of them failed.  One candidate that
only has no local form is enough for it not to fail.
-/

namespace WarmFeed
namespace Trends

variable {σ : Type} {answer : Backend σ} {s : σ}

/-! ## Fetching -/

def Lists (answer : Backend σ) (list : List TrendCandidate) : Prop :=
  ∀ s limit offset, (answer s (.fetchPage limit offset)).1 = .ok ((list.drop offset).take limit)

theorem take_append_page (list : List TrendCandidate) (n limit : Nat) :
    list.take n ++ (list.drop n).take limit = list.take (n + limit) :=
  List.take_add.symm

/-- With the first candidates at hand, pages are fetched until there are enough. -/
theorem attempt_fetchFrom {list : List TrendCandidate} (h : Lists answer list) {pageSize : Nat}
    (hsize : 0 < pageSize) (wanted : Nat) {pages n : Nat} (hn : n ≤ list.length)
    (hpages : wanted ≤ n + pages) :
    ∃ got, (Routine.attempt answer s (fetchFrom pageSize wanted pages (list.take n))).1 = .ok got ∧
      got.take wanted = list.take wanted := by
  induction pages generalizing n s with
  | zero =>
    refine ⟨list.take n, rfl, ?_⟩
    rw [List.take_take, Nat.min_eq_left (by omega)]
  | succ pages ih =>
    have hlength : (list.take n).length = n := List.length_take_of_le hn
    unfold fetchFrom
    by_cases henough : wanted ≤ n
    · rw [if_pos (by rwa [hlength])]
      refine ⟨list.take n, rfl, ?_⟩
      rw [List.take_take, Nat.min_eq_left henough]
    · rw [if_neg (by rwa [hlength]), hlength]
      generalize hlimit : min pageSize (wanted - n) = limit
      have hask : Routine.attempt answer s
          (ExceptT.mk (Routine.request (Call.fetchPage limit n)) : Attempt ServiceError _) =
            (.ok ((list.drop n).take limit), (answer s (.fetchPage limit n)).2) :=
        Prod.ext (h s limit n) rfl
      dsimp only
      rw [Routine.attempt_bind_ok hask, take_append_page, List.length_take, List.length_drop]
      by_cases hshort : min limit (list.length - n) < limit
      · rw [if_pos hshort]
        have hall : list.take (n + limit) = list := List.take_of_length_le (by omega)
        exact ⟨list.take (n + limit), rfl, congrArg (List.take wanted) hall⟩
      · rw [if_neg hshort]
        exact ih (by omega) (by omega)

theorem attempt_fetch {list : List TrendCandidate} (h : Lists answer list)
    (settings : TrendsSettings) :
    (Routine.attempt answer s (fetch settings)).1 = .ok (list.take settings.fetchLimit) := by
  obtain ⟨got, hgot, htake⟩ := attempt_fetchFrom (s := s) h
    (Nat.lt_of_lt_of_le Nat.zero_lt_one (Nat.le_max_right settings.pageSize 1))
    settings.fetchLimit (Nat.zero_le _) (Nat.le_add_left settings.fetchLimit 0)
  have hfirst : Routine.attempt answer s (fetchFrom (max settings.pageSize 1)
      settings.fetchLimit settings.fetchLimit []) = (.ok got, _) := Prod.ext hgot rfl
  unfold fetch
  rw [Routine.attempt_bind_ok hfirst, htake]
  rfl

theorem steady_fetchFrom (pageSize wanted pages : Nat) (got : List TrendCandidate) :
    (fetchFrom pageSize wanted pages got).run.Steady := by
  induction pages generalizing got with
  | zero => trivial
  | succ pages ih =>
    unfold fetchFrom
    split
    · trivial
    · refine Routine.steady_attempt_bind (Routine.steady_request _) fun page => ?_
      split
      · trivial
      · exact ih _

theorem asks_fetchFrom (pageSize wanted pages : Nat) (got : List TrendCandidate) :
    (fetchFrom pageSize wanted pages got).run.Asks
      fun c => ∃ limit offset, c = .fetchPage limit offset := by
  induction pages generalizing got with
  | zero => trivial
  | succ pages ih =>
    unfold fetchFrom
    split
    · trivial
    · refine Routine.asks_attempt_bind (Routine.asks_request ⟨_, _, rfl⟩) fun page => ?_
      split
      · trivial
      · exact ih _

/-! ## Judging -/

def resolved? : Call.Resolution → Option ContentId
  | .ok found => found
  | .error _ => none

def entriesOf (cs : List TrendCandidate) (rs : List Call.Resolution) : List Entry :=
  (judge (allScored cs) [] (cs.zip rs)).filterMap Prod.snd

def AllFailed (rs : List Call.Resolution) : Prop := rs ≠ [] ∧ ∀ r ∈ rs, ∃ e, r = .error e

theorem all_failed_judge (external : Bool) (seen : List ContentId)
    (ps : List (TrendCandidate × Call.Resolution)) :
    (judge external seen ps).all (fun v => v.1 = .failed) = true ↔
      ∀ p ∈ ps, ∃ e, p.2 = .error e := by
  induction ps generalizing seen with
  | nil => simp [judge]
  | cons p ps ih =>
    obtain ⟨c, r⟩ := p
    match r with
    | .error e => simp [judge, ih]
    | .ok none => simp [judge]
    | .ok (some id) =>
      by_cases hid : id ∈ seen <;> simp [judge, hid]

/-- Each identifier once, where it comes up first, and none that was seen before. -/
theorem ids_judge (external : Bool) (seen : List ContentId)
    (ps : List (TrendCandidate × Call.Resolution)) :
    ((judge external seen ps).filterMap Prod.snd).map Entry.id =
      ((ps.filterMap fun p => resolved? p.2).filter (· ∉ seen)).eraseDups := by
  induction ps generalizing seen with
  | nil => rfl
  | cons p ps ih =>
    obtain ⟨c, r⟩ := p
    match r with
    | .error e => exact ih seen
    | .ok none => exact ih seen
    | .ok (some id) =>
      have hhead : (((c, .ok (some id)) : TrendCandidate × Call.Resolution) :: ps).filterMap
          (fun p => resolved? p.2) = id :: ps.filterMap fun p => resolved? p.2 := rfl
      rw [hhead]
      unfold judge
      by_cases hid : id ∈ seen
      · rw [if_pos hid, List.filter_cons_of_neg (by simpa using hid)]
        exact ih seen
      · rw [if_neg hid, eraseDups_unseen_cons (id :: seen) hid fun _ => List.mem_cons]
        exact congrArg (id :: ·) (ih (id :: seen))

/-- Scores by place: whole numbers, and each entry has a lower one than those before it. -/
theorem scores_judge (seen : List ContentId) (ps : List (TrendCandidate × Call.Resolution)) :
    (∀ e ∈ (judge false seen ps).filterMap Prod.snd,
        ∃ n, 0 < n ∧ n ≤ ps.length ∧ e.score = Score.ofNat n) ∧
      ((judge false seen ps).filterMap Prod.snd).Pairwise fun a b =>
        ∃ m n, 0 < m ∧ m < n ∧ n ≤ ps.length ∧ b.score = Score.ofNat m ∧
          a.score = Score.ofNat n := by
  induction ps generalizing seen with
  | nil => exact ⟨fun e he => (nomatch he), .nil⟩
  | cons p ps ih =>
    -- What holds of the rest holds with one candidate more before it.
    have hweaken : ∀ seen, (∀ e ∈ (judge false seen ps).filterMap Prod.snd,
          ∃ n, 0 < n ∧ n ≤ ps.length + 1 ∧ e.score = Score.ofNat n) ∧
        ((judge false seen ps).filterMap Prod.snd).Pairwise fun a b =>
          ∃ m n, 0 < m ∧ m < n ∧ n ≤ ps.length + 1 ∧ b.score = Score.ofNat m ∧
            a.score = Score.ofNat n := by
      intro seen
      obtain ⟨hscores, hpairs⟩ := ih seen
      refine ⟨fun e he => ?_, hpairs.imp fun {a b} h => ?_⟩
      · obtain ⟨n, hpos, hle, hn⟩ := hscores e he
        exact ⟨n, hpos, by omega, hn⟩
      · obtain ⟨m, n, hpos, hless, hle, hm, hn⟩ := h
        exact ⟨m, n, hpos, hless, by omega, hm, hn⟩
    obtain ⟨c, r⟩ := p
    match r with
    | .error e => exact hweaken seen
    | .ok none => exact hweaken seen
    | .ok (some id) =>
      unfold judge
      by_cases hid : id ∈ seen
      · rw [if_pos hid]
        exact hweaken seen
      · rw [if_neg hid]
        obtain ⟨hscores, hpairs⟩ := hweaken (id :: seen)
        refine ⟨fun e he => ?_, List.pairwise_cons.mpr ⟨fun e he => ?_, hpairs⟩⟩
        · rcases List.mem_cons.mp he with rfl | he
          · exact ⟨ps.length + 1, Nat.succ_pos _, Nat.le_refl _, rfl⟩
          · exact hscores e he
        · obtain ⟨n, hpos, hle, hn⟩ := (ih (id :: seen)).1 e he
          exact ⟨n, ps.length + 1, hpos, by omega, Nat.le_refl _, hn, rfl⟩

/-! ## Resolving -/

theorem steady_countOutcomes (outcomes : List TrendOutcome) :
    (countOutcomes outcomes).Steady := by
  induction outcomes with
  | nil => trivial
  | cons o rest ih => exact Routine.Steady.bind (Routine.steady_request _) fun _ => ih

theorem asks_countOutcomes (outcomes : List TrendOutcome) :
    (countOutcomes outcomes).Asks fun c => ∃ metric n, c = .count metric n := by
  induction outcomes with
  | nil => trivial
  | cons o rest ih => exact Routine.Asks.bind (Routine.asks_request ⟨_, _, rfl⟩) fun _ => ih

theorem allFailed_iff {cs : List TrendCandidate} {rs : List Call.Resolution}
    (hlength : rs.length = cs.length) :
    (!cs.isEmpty && (judge (allScored cs) [] (cs.zip rs)).all fun v => v.1 = .failed) = true ↔
      AllFailed rs := by
  have hzip : (cs.zip rs).map Prod.snd = rs := List.map_snd_zip hlength.le
  have hempty : cs.isEmpty = rs.isEmpty := by
    rw [Bool.eq_iff_iff, List.isEmpty_iff_length_eq_zero, List.isEmpty_iff_length_eq_zero,
      hlength]
  have hpairs : (∀ r ∈ (cs.zip rs).map Prod.snd, ∃ e, r = Except.error e) ↔
      ∀ p ∈ cs.zip rs, ∃ e, p.2 = Except.error e := List.forall_mem_map
  rw [hzip] at hpairs
  rw [Bool.and_eq_true, all_failed_judge, hempty, ← hpairs, Bool.not_eq_true',
    List.isEmpty_eq_false_iff]
  exact Iff.rfl

/-- What resolving comes to, by what becomes of each candidate. -/
theorem attempt_resolve (concurrency : Nat) {cs : List TrendCandidate}
    {rs : List Call.Resolution}
    (hreply : (answer s (.resolveAll (max concurrency 1) cs)).1 = rs)
    (hlength : rs.length = cs.length) :
    (AllFailed rs → (Routine.attempt answer s (resolve concurrency cs)).1 =
        .error (.collaborator
          ("all " ++ toString cs.length ++ " trend candidates failed to resolve"))) ∧
      (¬ AllFailed rs → (Routine.attempt answer s (resolve concurrency cs)).1 =
        .ok (entriesOf cs rs)) := by
  have hask : Routine.attempt answer s (liftM (Routine.request
      (Call.resolveAll (max concurrency 1) cs) : Work (List Call.Resolution)) :
        Attempt ServiceError _) = (.ok rs, (answer s (.resolveAll (max concurrency 1) cs)).2) := by
    rw [Routine.attempt_liftRoutine, Routine.run_request, hreply]
  unfold resolve
  rw [Routine.attempt_bind_ok hask]
  dsimp only
  rw [Routine.attempt_bind_ok (Routine.attempt_liftRoutine answer _ _)]
  constructor
  · intro hfailed
    rw [if_pos ((allFailed_iff hlength).mpr hfailed)]
    rfl
  · intro hsome
    rw [if_neg (mt (allFailed_iff hlength).mp hsome)]
    rfl

theorem steady_resolve (concurrency : Nat) (cs : List TrendCandidate) :
    (resolve concurrency cs).run.Steady := by
  refine Routine.steady_attempt_bind ?_ fun rs => Routine.steady_attempt_bind ?_ fun _ => ?_
  · exact Routine.Steady.bind (Routine.steady_request _) fun _ => trivial
  · exact Routine.Steady.bind (steady_countOutcomes _) fun _ => trivial
  · dsimp only
    split <;> trivial

/-- From this state the first candidates are fetched, and this becomes of each of them. -/
structure Resolves (answer : Backend σ) (settings : TrendsSettings) (s : σ)
    (cs : List TrendCandidate) (rs : List Call.Resolution) : Prop where
  fetched : (Routine.attempt answer s (fetch settings)).1 = .ok cs
  resolved : (answer (Routine.attempt answer s (fetch settings)).2
    (.resolveAll (max settings.concurrency 1) cs)).1 = rs
  length_eq : rs.length = cs.length

/-- What the source comes to, by what becomes of the candidates. -/
theorem attempt_source {settings : TrendsSettings} {cs : List TrendCandidate}
    {rs : List Call.Resolution} (h : Resolves answer settings s cs rs) :
    (AllFailed rs → (Routine.attempt answer s (source settings .trending)).1 =
        .error (.collaborator
          ("all " ++ toString cs.length ++ " trend candidates failed to resolve"))) ∧
      (¬ AllFailed rs → (Routine.attempt answer s (source settings .trending)).1 =
        .ok (entriesOf cs rs)) := by
  have hfetch : Routine.attempt answer s (fetch settings) = (.ok cs, _) :=
    Prod.ext h.fetched rfl
  have hsource : Routine.attempt answer s (source settings .trending) =
      Routine.attempt answer (Routine.attempt answer s (fetch settings)).2
        (resolve settings.concurrency cs) := Routine.attempt_bind_ok hfetch
  rw [hsource]
  exact attempt_resolve settings.concurrency h.resolved h.length_eq

theorem ids_entriesOf {cs : List TrendCandidate} {rs : List Call.Resolution}
    (hlength : rs.length = cs.length) :
    (entriesOf cs rs).map Entry.id = (rs.filterMap resolved?).eraseDups := by
  have hzip : (cs.zip rs).map Prod.snd = rs := List.map_snd_zip hlength.le
  have hresolved : (cs.zip rs).filterMap (fun p => resolved? p.2) = rs.filterMap resolved? := by
    conv_rhs => rw [← hzip, List.filterMap_map]
    rfl
  rw [entriesOf, ids_judge, hresolved]
  simp

theorem aside_source (settings : TrendsSettings) : Sources.Aside (source settings) where
  steady subject := by
    unfold source
    split
    · trivial
    · refine Routine.steady_attempt_bind ?_ fun cs => steady_resolve _ cs
      exact Routine.steady_attempt_bind (steady_fetchFrom _ _ _ _) fun _ => trivial
  asks subject := by
    have hcount : ∀ outcomes, (countOutcomes outcomes).Asks fun c => ∀ key r, c ≠ .index key r :=
      fun outcomes => (asks_countOutcomes outcomes).imp
        fun c ⟨_, _, hc⟩ _ _ => hc ▸ Call.noConfusion
    have hfetch : (fetch settings).run.Asks fun c => ∀ key r, c ≠ .index key r :=
      Routine.asks_attempt_bind ((asks_fetchFrom _ _ _ _).imp
        fun c ⟨_, _, hc⟩ _ _ => hc ▸ Call.noConfusion) fun _ => trivial
    have hresolve : ∀ cs, (resolve settings.concurrency cs).run.Asks
        fun c => ∀ key r, c ≠ .index key r := by
      intro cs
      refine Routine.asks_attempt_bind ?_ fun rs => Routine.asks_attempt_bind ?_ fun _ => ?_
      · exact Routine.Asks.bind (Routine.asks_request fun _ _ => Call.noConfusion)
          fun _ => trivial
      · exact Routine.Asks.bind (hcount _) fun _ => trivial
      · dsimp only
        split <;> trivial
    unfold source
    split
    · trivial
    · exact Routine.asks_attempt_bind hfetch hresolve

end Trends
end WarmFeed
