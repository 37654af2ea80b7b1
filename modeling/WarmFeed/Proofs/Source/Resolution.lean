import WarmFeed.Proofs.Buffered
import WarmFeed.Proofs.Score.Nearest
import WarmFeed.Proofs.Source.Trends

/-!
# What becomes of a list of candidates

Candidates are resolved a few at a time, and which of them is finished first is left to chance.
What comes out is told by the candidates and their outcomes alone.  Each identifier is entered
where it comes up first.  Its score is that of the candidate there if all candidates brought
finite ones, those that lead nowhere included; and else the number of candidates from there on.
-/

namespace WarmFeed
namespace Trends

/-- The place of the first candidate that leads to an identifier. -/
def firstPlace (ps : List (TrendCandidate × Call.Resolution)) (id : ContentId) : Nat :=
  ps.findIdx fun p => resolved? p.2 = some id

/-- Every candidate brought a finite score, whatever it was resolved to. -/
def AllBringScores (ps : List (TrendCandidate × Call.Resolution)) : Prop :=
  ∀ p ∈ ps, ∃ score, p.1.externalScore = some score ∧ score.isFinite = true

/-- The entries that candidates with these outcomes lead to.  Scores by place go down from one
entry to the next, strictly as long as whole numbers are scores without rounding. -/
structure Entered (ps : List (TrendCandidate × Call.Resolution)) (es : List Entry) : Prop where
  ids : es.map Entry.id = (ps.filterMap fun p => resolved? p.2).eraseDups
  first : es.Pairwise fun a b => firstPlace ps a.id < firstPlace ps b.id
  brought : AllBringScores ps → ∀ e ∈ es, ∃ c,
    ps[firstPlace ps e.id]? = some (c, .ok (some e.id)) ∧ c.externalScore = some e.score
  byPlace : ¬ AllBringScores ps →
    ∀ e ∈ es, e.score = Score.ofNat (ps.length - firstPlace ps e.id)
  positive : ¬ AllBringScores ps → ∀ e ∈ es, e.score.below (Score.ofNat 1) = false
  falling : ¬ AllBringScores ps → es.Pairwise fun a b =>
    a.score.below b.score = false ∧ (ps.length ≤ 2 ^ 53 → b.score.below a.score = true)

/-! ## Where an entry comes from -/

section Judge

variable {external : Bool} {p : TrendCandidate × Call.Resolution}
  {ps : List (TrendCandidate × Call.Resolution)} {e : Entry}

def ComesFrom (external : Bool) (ps : List (TrendCandidate × Call.Resolution)) (e : Entry) :
    Prop :=
  ∃ c, ps[firstPlace ps e.id]? = some (c, .ok (some e.id)) ∧
    e.score = if external then c.externalScore.getD (.ofNat (ps.length - firstPlace ps e.id))
      else .ofNat (ps.length - firstPlace ps e.id)

theorem firstPlace_cons_of_ne {id : ContentId} (h : resolved? p.2 ≠ some id) :
    firstPlace (p :: ps) id = firstPlace ps id + 1 :=
  findIdx_cons_of_ne (f := fun p : _ × _ => resolved? p.2) h ps

theorem firstPlace_cons_of_eq {id : ContentId} (h : resolved? p.2 = some id) :
    firstPlace (p :: ps) id = 0 :=
  findIdx_cons_of_eq (f := fun p : _ × _ => resolved? p.2) h ps

theorem ComesFrom.lt_length (h : ComesFrom external ps e) :
    firstPlace ps e.id < ps.length := by
  obtain ⟨c, hget, -⟩ := h
  exact (List.getElem?_eq_some_iff.mp hget).1

theorem ComesFrom.cons (h : ComesFrom external ps e) (hp : resolved? p.2 ≠ some e.id) :
    ComesFrom external (p :: ps) e := by
  obtain ⟨c, hget, hscore⟩ := h
  refine ⟨c, ?_, ?_⟩
  · rw [firstPlace_cons_of_ne hp, List.getElem?_cons_succ, hget]
  · rw [firstPlace_cons_of_ne hp, List.length_cons, Nat.add_sub_add_right]
    exact hscore

/-- The entries of a list of candidates: none that was seen before, each from the first candidate
that leads to it, and in the order of these candidates. -/
structure Judged (external : Bool) (seen : List ContentId)
    (ps : List (TrendCandidate × Call.Resolution)) (es : List Entry) : Prop where
  unseen : ∀ e ∈ es, e.id ∉ seen
  comesFrom : ∀ e ∈ es, ComesFrom external ps e
  first : es.Pairwise fun a b => firstPlace ps a.id < firstPlace ps b.id

/-- A candidate that leads to none of the entries only moves the places. -/
theorem Judged.cons {seen : List ContentId} {es : List Entry} (h : Judged external seen ps es)
    (hp : ∀ e ∈ es, resolved? p.2 ≠ some e.id) : Judged external seen (p :: ps) es where
  unseen := h.unseen
  comesFrom e he := (h.comesFrom e he).cons (hp e he)
  first := h.first.imp_of_mem fun {a b} ha hb hless => by
    rw [firstPlace_cons_of_ne (hp a ha), firstPlace_cons_of_ne (hp b hb)]
    omega

theorem judged_judge (external : Bool) (seen : List ContentId)
    (ps : List (TrendCandidate × Call.Resolution)) :
    Judged external seen ps ((judge external seen ps).filterMap Prod.snd) := by
  induction ps generalizing seen with
  | nil => exact ⟨fun e he => (nomatch he), fun e he => (nomatch he), .nil⟩
  | cons p ps ih =>
    obtain ⟨c, r⟩ := p
    match r with
    | .error e => exact (ih seen).cons fun _ _ => Option.some_ne_none _ |>.symm
    | .ok none => exact (ih seen).cons fun _ _ => Option.some_ne_none _ |>.symm
    | .ok (some id) =>
      unfold judge
      by_cases hid : id ∈ seen
      · rw [if_pos hid]
        refine (ih seen).cons fun e he hsame => (ih seen).unseen e he ?_
        rwa [← Option.some.inj hsame]
      · -- The new entry stands at the first place, so before those of the rest.
        rw [if_neg hid]
        have hrest := ih (id :: seen)
        have hother : ∀ e ∈ (judge external (id :: seen) ps).filterMap Prod.snd,
            resolved? (.ok (some id)) ≠ some e.id := by
          intro e he hsame
          exact hrest.unseen e he (Option.some.inj hsame ▸ List.mem_cons_self)
        have htail := hrest.cons (p := (c, .ok (some id))) hother
        have hhead : firstPlace ((c, .ok (some id)) :: ps) id = 0 := firstPlace_cons_of_eq rfl
        refine ⟨fun e he => ?_, fun e he => ?_,
          List.pairwise_cons.mpr ⟨fun e he => ?_, htail.first⟩⟩
        · rcases List.mem_cons.mp he with rfl | he
          · exact hid
          · exact fun hseen => hrest.unseen e he (List.mem_cons_of_mem id hseen)
        · rcases List.mem_cons.mp he with rfl | he
          · refine ⟨c, ?_, ?_⟩
            · show _[firstPlace _ id]? = _
              rw [hhead]
              rfl
            · show _ = if external then c.externalScore.getD (.ofNat (_ - firstPlace _ id))
                else .ofNat (_ - firstPlace _ id)
              rw [hhead]
              rfl
          · exact htail.comesFrom e he
        · show firstPlace _ id < _
          rw [hhead, firstPlace_cons_of_ne (hother e he)]
          exact Nat.succ_pos _

end Judge

/-! ## The entries of a list of candidates -/

section Entries

variable {ps : List (TrendCandidate × Call.Resolution)}

theorem allScored_iff (hsome : ps ≠ []) :
    allScored (ps.map Prod.fst) = true ↔ AllBringScores ps := by
  have hempty : (ps.map Prod.fst).isEmpty = false := by
    rw [List.isEmpty_eq_false_iff]
    exact fun h => hsome (List.map_eq_nil_iff.mp h)
  rw [allScored, hempty, Bool.not_false, Bool.true_and, List.all_map, List.all_eq_true]
  simp only [Function.comp_apply, Option.any_eq_true]
  rfl

theorem zip_map_fst_map_snd (ps : List (TrendCandidate × Call.Resolution)) :
    (ps.map Prod.fst).zip (ps.map Prod.snd) = ps := by
  rw [← List.unzip_fst, ← List.unzip_snd, List.zip_unzip]

theorem entered_judge (ps : List (TrendCandidate × Call.Resolution)) :
    Entered ps ((judge (allScored (ps.map Prod.fst)) [] ps).filterMap Prod.snd) := by
  have hjudged := judged_judge (allScored (ps.map Prod.fst)) [] ps
  have hscored : ∀ e ∈ (judge (allScored (ps.map Prod.fst)) [] ps).filterMap Prod.snd,
      (allScored (ps.map Prod.fst) = true ↔ AllBringScores ps) := by
    intro e he
    refine allScored_iff ?_
    rintro rfl
    exact List.not_mem_nil he
  have hplace : ¬ AllBringScores ps →
      ∀ e ∈ (judge (allScored (ps.map Prod.fst)) [] ps).filterMap Prod.snd,
        e.score = Score.ofNat (ps.length - firstPlace ps e.id) := by
    intro hsome e he
    obtain ⟨c, -, hscore⟩ := hjudged.comesFrom e he
    rwa [if_neg (mt (hscored e he).mp hsome)] at hscore
  have hfrom : ∀ e ∈ (judge (allScored (ps.map Prod.fst)) [] ps).filterMap Prod.snd,
      0 < ps.length - firstPlace ps e.id := fun e he =>
    Nat.sub_pos_of_lt (hjudged.comesFrom e he).lt_length
  constructor
  · rw [ids_judge]
    simp
  · exact hjudged.first
  · intro hall e he
    obtain ⟨c, hget, hscore⟩ := hjudged.comesFrom e he
    obtain ⟨score, hexternal, -⟩ := hall _ (List.mem_of_getElem? hget)
    rw [if_pos ((hscored e he).mpr hall), hexternal, Option.getD_some] at hscore
    exact ⟨c, hget, hscore ▸ hexternal⟩
  · exact hplace
  · intro hsome e he
    rw [hplace hsome e he]
    exact Score.not_below_ofNat (hfrom e he)
  · intro hsome
    refine hjudged.first.imp_of_mem fun {a b} ha hb hless => ?_
    have hpositive := hfrom b hb
    have hlower : ps.length - firstPlace ps b.id < ps.length - firstPlace ps a.id := by omega
    rw [hplace hsome a ha, hplace hsome b hb]
    exact ⟨Score.not_below_ofNat hlower.le, fun hfew =>
      Score.below_ofNat hpositive hlower (by omega)⟩

end Entries

/-! ## Resolving -/

section Resolve

/-- The candidates are resolved so many at a time, with these outcomes, and finished in the
order that the places say. -/
structure WorksOff {σ : Type} (answer : Backend σ) (s : σ) (capacity : Nat)
    (ps : List (TrendCandidate × Call.Resolution)) (places : List Nat) : Prop where
  done : (Buffered.run Prod.snd capacity ps places).isDone = true
  reply : (answer s (.resolveAll capacity (ps.map Prod.fst))).1 =
    (Buffered.run Prod.snd capacity ps places).handedOn

def allFailed (count : Nat) : ServiceError :=
  .collaborator ("all " ++ toString count ++ " trend candidates failed to resolve")

/-- Resolving comes to one result, however many candidates are in work at a time and in which
order they are finished, and their work can always be finished.  It fails exactly if there are
candidates and all of them fail. -/
theorem resolve_by_outcomes (ps : List (TrendCandidate × Call.Resolution)) :
    (∀ (concurrency : Nat) (places : List Nat), ∃ more,
        (Buffered.run Prod.snd (max concurrency 1) ps (places ++ more)).isDone = true) ∧
      ∃ result : Except ServiceError (List Entry),
        (∀ {σ : Type} (answer : Backend σ) (s : σ) (concurrency : Nat) (places : List Nat),
          WorksOff answer s (max concurrency 1) ps places →
            (Routine.attempt answer s (resolve concurrency (ps.map Prod.fst))).1 = result) ∧
        (∀ e, result = .error e ↔
          e = allFailed ps.length ∧ ps ≠ [] ∧ ∀ p ∈ ps, ∃ e, p.2 = .error e) ∧
        ∀ es, result = .ok es → Entered ps es := by
  refine ⟨fun concurrency places => Buffered.exists_isDone Prod.snd
    (Nat.lt_of_lt_of_le Nat.zero_lt_one (Nat.le_max_right concurrency 1)) ps places, ?_⟩
  have hlength : (ps.map Prod.snd).length = (ps.map Prod.fst).length := by simp
  have hfailed : AllFailed (ps.map Prod.snd) ↔ ps ≠ [] ∧ ∀ p ∈ ps, ∃ e, p.2 = .error e := by
    simp only [AllFailed, ne_eq, List.map_eq_nil_iff, List.forall_mem_map]
  have hreply : ∀ {σ : Type} {answer : Backend σ} {s : σ} {concurrency : Nat} {places : List Nat},
      WorksOff answer s (max concurrency 1) ps places →
        (answer s (.resolveAll (max concurrency 1) (ps.map Prod.fst))).1 = ps.map Prod.snd :=
    fun h => h.reply.trans (Buffered.handedOn_of_isDone h.done)
  by_cases hall : AllFailed (ps.map Prod.snd)
  · refine ⟨.error (allFailed ps.length), fun answer s concurrency places h => ?_, fun e => ?_,
      fun es hes => (nomatch hes)⟩
    · have hcount : (ps.map Prod.fst).length = ps.length := List.length_map _
      rw [(attempt_resolve concurrency (hreply h) hlength).1 hall, hcount]
      rfl
    · exact ⟨fun he => ⟨(Except.error.inj he).symm, hfailed.mp hall⟩, fun he => he.1 ▸ rfl⟩
  · refine ⟨.ok (entriesOf (ps.map Prod.fst) (ps.map Prod.snd)),
      fun answer s concurrency places h => ?_, fun e => ?_, fun es hes => ?_⟩
    · exact (attempt_resolve concurrency (hreply h) hlength).2 hall
    · exact ⟨fun he => (nomatch he), fun he => absurd (hfailed.mpr he.2) hall⟩
    · obtain rfl := Except.ok.inj hes
      rw [entriesOf, zip_map_fst_map_snd]
      exact entered_judge ps

def resolving (rs : List Call.Resolution) : Backend FeedIndex
  | x, .resolveAll _ _ => (rs, x)
  | x, c => Backend.plain (fun _ => none) [] x c

def repeatedTrends : List (TrendCandidate × Call.Resolution) :=
  [(⟨"a", some ⟨7⟩, none⟩, .ok (some 5)), (⟨"b", none, none⟩, .error (.collaborator "down")),
    (⟨"c", some ⟨9⟩, none⟩, .ok (some 8)), (⟨"d", some ⟨3⟩, none⟩, .ok (some 5))]

theorem resolve_by_outcomes_repeated :
    ∃ es, (∀ concurrency ∈ [0, 2, 3], (Routine.attempt (resolving (repeatedTrends.map Prod.snd)) ∅
        (resolve concurrency (repeatedTrends.map Prod.fst))).1 = .ok es) ∧
      es.map Entry.id = [5, 8] ∧ ∀ e ∈ es, e.id = 8 → e.score = Score.ofNat 2 := by
  obtain ⟨-, result, hresult, herror, hentered⟩ := resolve_by_outcomes repeatedTrends
  have hsome : ∀ e, result ≠ .error e := by
    intro e he
    obtain ⟨e', he'⟩ := ((herror e).mp he).2.2 _ List.mem_cons_self
    nomatch he'
  obtain ⟨es, rfl⟩ : ∃ es, result = .ok es := by
    cases result with
    | error e => exact absurd rfl (hsome e)
    | ok es => exact ⟨es, rfl⟩
  have hes := hentered es rfl
  refine ⟨es, fun concurrency hmem => ?_, hes.ids.trans (by decide +kernel), fun e he hid => ?_⟩
  · -- With more candidates in work, later ones are finished first.
    obtain ⟨places, hplaces⟩ : ∃ places,
        (Buffered.run Prod.snd (max concurrency 1) repeatedTrends places).isDone = true ∧
          (Buffered.run Prod.snd (max concurrency 1) repeatedTrends places).handedOn =
            repeatedTrends.map Prod.snd := by
      rcases List.mem_cons.mp hmem with rfl | hmem
      · exact ⟨[0, 0, 0, 0], by decide +kernel⟩
      · rcases List.mem_cons.mp hmem with rfl | hmem
        · exact ⟨[1, 0, 1, 0], by decide +kernel⟩
        · obtain rfl := List.mem_singleton.mp hmem
          exact ⟨[2, 1, 0, 0], by decide +kernel⟩
    exact hresult _ ∅ concurrency places ⟨hplaces.1, hplaces.2.symm⟩
  · have hunscored : ¬ AllBringScores repeatedTrends := by
      intro hall
      obtain ⟨score, hscore, -⟩ := hall _ (List.mem_cons_of_mem _ List.mem_cons_self)
      nomatch hscore
    rw [hes.byPlace hunscored e he, hid]
    rfl

/-! ## One candidate too many -/

/-- Two candidates that lead to identifiers, and so many more that lead nowhere. -/
def leadingPair (n : Nat) : List (TrendCandidate × Call.Resolution) :=
  (⟨"a", none, none⟩, .ok (some 5)) :: (⟨"b", none, none⟩, .ok (some 8)) ::
    List.replicate n (⟨"c", none, none⟩, .ok none)

theorem length_leadingPair (n : Nat) : (leadingPair n).length = n + 2 := by
  rw [leadingPair, List.length_cons, List.length_cons, List.length_replicate]

theorem not_allBringScores_leadingPair (n : Nat) : ¬ AllBringScores (leadingPair n) := by
  intro hall
  obtain ⟨score, hscore, -⟩ := hall _ List.mem_cons_self
  nomatch hscore

theorem exists_worksOff_resolving {capacity : Nat} (h : 0 < capacity)
    (ps : List (TrendCandidate × Call.Resolution)) :
    ∃ places, WorksOff (resolving (ps.map Prod.snd)) ∅ capacity ps places := by
  obtain ⟨places, hdone⟩ := Buffered.exists_isDone Prod.snd h ps []
  exact ⟨_, hdone, (Buffered.handedOn_of_isDone hdone).symm⟩

/-- Candidates that lead nowhere give no entries, however many there are. -/
theorem judge_replicate (external : Bool) (seen : List ContentId) (n : Nat) (c : TrendCandidate) :
    (judge external seen (List.replicate n (c, .ok none))).filterMap Prod.snd = [] := by
  rw [← List.map_eq_nil_iff (f := Entry.id), ids_judge]
  simp [resolved?]

/-- Without scores of their own, candidates score by their places. -/
theorem judge_by_place {seen : List ContentId} {id : ContentId} (hid : id ∉ seen)
    (c : TrendCandidate) (rest : List (TrendCandidate × Call.Resolution)) :
    (judge false seen ((c, .ok (some id)) :: rest)).filterMap Prod.snd =
      ⟨id, .ofNat (rest.length + 1)⟩ :: (judge false (id :: seen) rest).filterMap Prod.snd := by
  rw [judge, if_neg hid]
  rfl

theorem entriesOf_leadingPair (n : Nat) :
    entriesOf ((leadingPair n).map Prod.fst) ((leadingPair n).map Prod.snd) =
      [⟨5, .ofNat (n + 1 + 1)⟩, ⟨8, .ofNat (n + 1)⟩] := by
  have hunscored : allScored ((leadingPair n).map Prod.fst) = false := rfl
  rw [entriesOf, zip_map_fst_map_snd, hunscored, leadingPair, judge_by_place List.not_mem_nil,
    judge_by_place (by decide), judge_replicate, List.length_cons, List.length_replicate]

theorem attempt_resolve_leadingPair (concurrency n : Nat) :
    (Routine.attempt (resolving ((leadingPair n).map Prod.snd)) ∅
      (resolve concurrency ((leadingPair n).map Prod.fst))).1 =
        .ok [⟨5, .ofNat (n + 1 + 1)⟩, ⟨8, .ofNat (n + 1)⟩] := by
  have hlength : ((leadingPair n).map Prod.snd).length = ((leadingPair n).map Prod.fst).length := by
    rw [List.length_map, List.length_map]
  have hsome : ¬ AllFailed ((leadingPair n).map Prod.snd) := by
    rintro ⟨-, hall⟩
    obtain ⟨e, he⟩ := hall _ List.mem_cons_self
    nomatch he
  rw [← entriesOf_leadingPair]
  exact (attempt_resolve concurrency rfl hlength).2 hsome

/-- Of one candidate more than `2 ^ 53` the first two get the same score by their places. -/
theorem first_scores_meet :
    let ps := leadingPair (2 ^ 53 - 1)
    ps.length = 2 ^ 53 + 1 ∧ ¬ AllBringScores ps ∧
      (∃ places, WorksOff (resolving (ps.map Prod.snd)) ∅ 8 ps places) ∧
      ∃ es, (Routine.attempt (resolving (ps.map Prod.snd)) ∅ (resolve 8 (ps.map Prod.fst))).1 =
          .ok es ∧
        es.map Entry.id = [5, 8] ∧ ¬ es.Pairwise fun a b => b.score.below a.score = true := by
  intro ps
  have hmeet : Score.ofNat (2 ^ 53 - 1 + 1 + 1) = Score.ofNat (2 ^ 53 - 1 + 1) := by
    decide +kernel
  have hentries := attempt_resolve_leadingPair 8 (2 ^ 53 - 1)
  rw [hmeet] at hentries
  refine ⟨length_leadingPair _, not_allBringScores_leadingPair _,
    exists_worksOff_resolving (by decide) ps, _, hentries, rfl, fun hfalling => ?_⟩
  have hbelow := (List.pairwise_cons.mp hfalling).1 _ List.mem_cons_self
  rw [Score.not_below_ofNat (Nat.le_refl _)] at hbelow
  exact Bool.false_ne_true hbelow

end Resolve

end Trends
end WarmFeed
