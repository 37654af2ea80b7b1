import Mathlib.Data.Bool.Count
import WarmFeed.Precompute.Schedule
import WarmFeed.Proofs.Precompute.Effect

/-!
# What a cycle does for each subject

A cycle takes on the trending feed and then accounts, one after the other.  What becomes of
each of them is what would become of it alone: what the others do with their feeds and marks
is about other subjects, and to be taken on twice leads to the same as once.
-/

namespace WarmFeed

def Call.marking? : Call → Option Subject
  | .mark subject _ => some subject
  | _ => none

def subjectsMarked {σ : Type} (ms : List (Moment σ Call)) : List Subject :=
  ms.filterMap fun m => m.request.marking?

theorem subjectsMarked_append {σ : Type} (ms ms' : List (Moment σ Call)) :
    subjectsMarked (ms ++ ms') = subjectsMarked ms ++ subjectsMarked ms' := List.filterMap_append

theorem subjectsMarked_of_asks {σ α : Type} {p : Work α} (hp : p.Asks fun c => c.marking? = none)
    (answer : Backend σ) (s : σ) : subjectsMarked (p.course answer s) = [] :=
  hp.filterMap_course answer s

theorem Call.marking?_eq_none {c : Call} (h : ∀ subject seconds, c ≠ .mark subject seconds) :
    c.marking? = none := by
  cases c with
  | mark subject seconds => exact absurd rfl (h subject seconds)
  | _ => rfl

/-- Work on a subject marks it once, whether that succeeds or not. -/
theorem subjectsMarked_settle {σ α : Type} {seconds : Nat} {subject : Subject}
    {work : Work (Except RunError α)} (hwork : work.Asks fun c => c.marking? = none)
    (answer : Backend σ) (s : σ) :
    subjectsMarked (((Worker.underMark seconds subject work).bind Worker.settle).course answer s) =
      [subject] := by
  cases hreply : (answer s (.mark subject seconds)).1 with
  | error e =>
    rw [(Worker.settle_refused subject work hreply).1]
    rfl
  | ok =>
    rw [Worker.course_settle subject work hreply]
    show subject :: subjectsMarked (_ ++ _) = _
    rw [subjectsMarked_append, subjectsMarked_of_asks hwork]
    rfl

/-! ## Marks -/

/-- From this state the work marks these subjects in turn, and leaves them without marks and
the marks of all others as they are. -/
structure MarksInTurn {σ α : Type} (answer : Backend σ) (marks : σ → Marks)
    (subjects : List Subject) (work : Work α) (s : σ) : Prop where
  marked : subjectsMarked (work.course answer s) = subjects
  isMarked : ∀ who now, (marks (work.run answer s).2).isMarked who now =
    (decide (who ∉ subjects) && (marks s).isMarked who now)

namespace MarksInTurn

variable {σ α β : Type} {answer : Backend σ} {marks : σ → Marks} {clock : σ → Nat} {s : σ}
  {subjects subjects' : List Subject}

theorem done (a : α) : MarksInTurn answer marks [] (.done a) s := ⟨rfl, fun _ _ => rfl⟩

theorem bind {p : Work α} {f : α → Work β} (hp : MarksInTurn answer marks subjects p s)
    (hf : MarksInTurn answer marks subjects' (f (p.run answer s).1) (p.run answer s).2) :
    MarksInTurn answer marks (subjects ++ subjects') (p.bind f) s where
  marked := by rw [Routine.course_bind, subjectsMarked_append, hp.marked, hf.marked]
  isMarked who now := by
    rw [Routine.run_bind, hf.isMarked, hp.isMarked]
    by_cases h : who ∈ subjects <;> by_cases h' : who ∈ subjects' <;> simp [h, h']

/-- What is done with the result changes no mark. -/
theorem map {p : Work α} (hp : MarksInTurn answer marks subjects p s) (f : α → β) :
    MarksInTurn answer marks subjects (p.bind fun a => .done (f a)) s := by
  rw [← List.append_nil subjects]
  exact hp.bind (done _)

theorem ask (h : Backend.TellsMarks answer marks clock) {c : Call}
    (hmark : ∀ who seconds, c ≠ .mark who seconds) (hclear : ∀ who, c ≠ .clear who)
    {f : c.Reply → Work β}
    (hf : MarksInTurn answer marks subjects (f (answer s c).1) (answer s c).2) :
    MarksInTurn answer marks subjects ((Routine.request c : Work c.Reply).bind f) s := by
  have hrequest : MarksInTurn answer marks [] (Routine.request c : Work c.Reply) s := by
    refine ⟨subjectsMarked_of_asks (Routine.asks_request (Call.marking?_eq_none hmark)) answer s,
      fun who now => ?_⟩
    rw [Routine.run_request, h.other s c hmark hclear]
    rfl
  exact hrequest.bind hf

variable {subject : Subject} {seconds : Nat} {work : Work (Except RunError α)}

theorem settle (h : Backend.TellsMarks answer marks clock) {sort : Call → Prop}
    (hwork : work.Asks sort)
    (hsort : ∀ c, sort c → (∀ who seconds, c ≠ .mark who seconds) ∧ ∀ who, c ≠ .clear who) :
    MarksInTurn answer marks [subject]
      ((Worker.underMark seconds subject work).bind Worker.settle) s where
  marked := subjectsMarked_settle
    (hwork.imp fun c hc => Call.marking?_eq_none (hsort c hc).1) answer s
  isMarked who now := by
    have hkept := (Worker.staysIn_marked subject h.toHoldsMarks (h.marked s subject seconds) hwork
      hsort).2
    rw [Worker.run_settle subject work (h.marked s subject seconds),
      h.clear _ subject (h.cleared _ subject), Marks.isMarked_clear, hkept, Marks.isMarked_mark]
    by_cases hwho : who = subject <;> simp [hwho]

theorem run (h : Backend.TellsMarks answer marks clock) (w : Worker) (kind : FeedKind)
    (subject : Subject) : MarksInTurn answer marks [subject] (w.run kind subject) s := by
  rw [Worker.run_eq_underMark]
  exact settle h (w.asks_regenerate kind subject)
    fun c hc => ⟨hc.ne_mark, hc.ne_clear⟩

theorem populate (h : Backend.TellsMarks answer marks clock) (w : Worker)
    (account : AccountId) :
    MarksInTurn answer marks [.account account] (w.populate account) s := by
  rw [Worker.populate_eq_underMark]
  exact settle h (w.asks_regenerateAll (.account account) _)
    fun c ⟨_, _, hc⟩ => ⟨hc.ne_mark, hc.ne_clear⟩

end MarksInTurn

/-! ## One account after the other -/

namespace Effect

structure MadeAll (effects : AccountId → Effect) (accounts : List AccountId) (x y : FeedIndex) :
    Prop where
  consistent : y.Consistent
  contents : ∀ account ∈ accounts, ∀ kind, y.ledger (.index kind (.account account)) =
    ((effects account).feeds kind).getD (x.ledger (.index kind (.account account)))
  others : ∀ key, (∀ account ∈ accounts, ∀ kind, ((effects account).feeds kind).isSome →
    key ≠ .index kind (.account account)) → y.feed key = x.feed key

variable {effects : AccountId → Effect} {account : AccountId} {rest : List AccountId}
  {x y z : FeedIndex}

theorem madeAll_nil (hx : x.Consistent) : MadeAll effects [] x x :=
  ⟨hx, fun _ h => absurd h List.not_mem_nil, fun _ _ => rfl⟩

/-- An account that comes up again gets the same contents again. -/
theorem MadeAll.cons (h : (effects account).Made (.account account) x y)
    (hrest : MadeAll effects rest y z) : MadeAll effects (account :: rest) x z where
  consistent := hrest.consistent
  contents who hwho kind := by
    by_cases hmem : who ∈ rest
    · rw [hrest.contents who hmem]
      by_cases heq : who = account
      · rw [heq, h.contents]
        cases (effects account).feeds kind <;> rfl
      · have hfeed := h.feed_of_ne (mt Subject.account.inj heq) kind
        exact congrArg (fun feed => ((effects who).feeds kind).getD (SortedEntries.contents feed))
          hfeed
    · obtain rfl : who = account := (List.mem_cons.mp hwho).resolve_right hmem
      rw [← h.contents kind]
      refine congrArg SortedEntries.contents
        (hrest.others _ fun other hother kind' _ heq => hmem ?_)
      rw [Subject.account.inj (StoreKey.index_injective heq).2]
      exact hother
  others key hkey := by
    rw [hrest.others key fun who hwho => hkey who (List.mem_cons_of_mem _ hwho)]
    exact h.others key (hkey account List.mem_cons_self)

end Effect

namespace Schedule

variable {σ : Type} {answer : Backend σ} {view : σ → FeedIndex} {marks : σ → Marks}
  {clock : σ → Nat} {replies : Replies} {listed : Nat → Except ServiceError (List AccountId)}
  {s : σ}

/-! ## Accounts that are taken on -/

section TakenOn

variable (answer : Backend σ) (w : Worker)

theorem subjectsMarked_run (kind : FeedKind) (subject : Subject) (s : σ) :
    subjectsMarked ((w.run kind subject).course answer s) = [subject] := by
  rw [Worker.run_eq_underMark]
  exact subjectsMarked_settle ((w.asks_regenerate kind subject).imp
    fun c hc => Call.marking?_eq_none hc.ne_mark) answer s

theorem subjectsMarked_populate (account : AccountId) (s : σ) :
    subjectsMarked ((w.populate account).course answer s) = [.account account] := by
  rw [Worker.populate_eq_underMark]
  exact subjectsMarked_settle ((w.asks_regenerateAll (.account account) _).imp
    fun c ⟨_, _, hc⟩ => Call.marking?_eq_none hc.ne_mark) answer s

theorem subjectsMarked_refreshTrending (s : σ) :
    subjectsMarked ((refreshTrending w).course answer s) =
      if w.hasSource .trending then [.trending] else [] := by
  unfold refreshTrending
  cases w.hasSource .trending with
  | false => rfl
  | true =>
    rw [if_pos rfl, if_pos rfl, Routine.bind_eq, Routine.course_bind, subjectsMarked_append,
      subjectsMarked_run]
    rfl

/-- Every account is taken on, whatever becomes of those before it. -/
theorem populateAll_takesOn (accounts : List AccountId) (s : σ) :
    subjectsMarked ((populateAll w accounts).course answer s) = accounts.map .account ∧
      ((populateAll w accounts).run answer s).1.length = accounts.length := by
  induction accounts generalizing s with
  | nil => exact ⟨rfl, rfl⟩
  | cons account rest ih =>
    obtain ⟨hmarked, hlength⟩ := ih ((w.populate account).run answer s).2
    unfold populateAll
    rw [Routine.bind_eq, Routine.course_bind, Routine.run_bind, subjectsMarked_append,
      subjectsMarked_populate, Routine.bind_eq, Routine.course_bind, Routine.run_bind,
      subjectsMarked_append, hmarked]
    exact ⟨congrArg (_ :: ·) (List.append_nil _), congrArg Nat.succ hlength⟩

end TakenOn

theorem isOk_map {ε α β : Type} (f : α → β) (result : Except ε α) :
    isOk (result.map f) = isOk result := by
  cases result <;> rfl

theorem populateAll_comes (h : Backend.Repeats answer view marks clock replies listed)
    (w : Worker) (accounts : List AccountId) (hx : (view s).Consistent) :
    ((populateAll w accounts).run answer s).1 =
        accounts.map (fun account => isOk (w.accountEffect replies account).result) ∧
      Effect.MadeAll (w.accountEffect replies) accounts (view s)
        (view ((populateAll w accounts).run answer s).2) ∧
      MarksInTurn answer marks (accounts.map .account) (populateAll w accounts) s := by
  induction accounts generalizing s with
  | nil => exact ⟨rfl, Effect.madeAll_nil hx, .done _⟩
  | cons account rest ih =>
    obtain ⟨hresult, hmade⟩ := Worker.effect_of_populate h w account s hx
    obtain ⟨hresults, hall, hmarks⟩ := ih hmade.consistent
    have hfirst : MarksInTurn answer marks [.account account] (w.populate account) s :=
      .populate h.marks w account
    unfold populateAll
    rw [Routine.bind_eq]
    refine ⟨?_, ?_, hfirst.bind ?_⟩
    · rw [Routine.run_bind, Routine.bind_eq, Routine.run_bind, hresults, List.map_cons, ← hresult,
        isOk_map]
      rfl
    · rw [Routine.run_bind, Routine.bind_eq, Routine.run_bind]
      exact .cons hmade hall
    · exact hmarks.map _

theorem refreshTrending_comes (h : Backend.Repeats answer view marks clock replies listed)
    (w : Worker) (hx : (view s).Consistent) :
    ((refreshTrending w).run answer s).1 =
        isOk (w.effect (replies .trending) .trending).result ∧
      (w.effect (replies .trending) .trending).Made .trending (view s)
        (view ((refreshTrending w).run answer s).2) ∧
      MarksInTurn answer marks (if w.hasSource .trending then [.trending] else [])
        (refreshTrending w) s := by
  unfold refreshTrending
  cases hsource : w.hasSource .trending with
  | false =>
    rw [Worker.effect_of_no_source _ hsource]
    exact ⟨rfl, Effect.made_still hx _, .done _⟩
  | true =>
    obtain ⟨hresult, hmade⟩ := Worker.effect_of_run h w .trending .trending s hx
    have hmarks : MarksInTurn answer marks [.trending] (w.run .trending .trending) s :=
      .run h.marks w .trending .trending
    rw [← hresult, isOk_map, if_pos rfl, if_pos rfl, Routine.bind_eq]
    refine ⟨?_, ?_, hmarks.map _⟩
    · rw [Routine.run_bind]
      rfl
    · rw [Routine.run_bind]
      exact hmade

def attempted (schedule : Schedule) (w : Worker) (registry : Bool)
    (listed : Except ServiceError (List AccountId)) : List AccountId :=
  if registry && (w.hasSource .home || w.hasSource .forYou) then
    match listed with
    | .error _ => []
    | .ok accounts => accounts.take schedule.maxAccounts
  else []

abbrev takenOn (w : Worker) (accounts : List AccountId) : List Subject :=
  (if w.hasSource .trending then [.trending] else []) ++ accounts.map .account

def accountsPart (schedule : Schedule) (w : Worker) (registry trending : Bool) :
    Work CycleSummary := do
  if registry && (w.hasSource .home || w.hasSource .forYou) then
    match ← (Routine.request (Call.activeAccounts schedule.maxAccounts) :
        Work (Except ServiceError (List AccountId))) with
    | .error _ => return ⟨trending, 0, 0⟩
    | .ok accounts =>
      let results ← populateAll w (accounts.take schedule.maxAccounts)
      return ⟨trending, results.count true, results.count false⟩
  else return ⟨trending, 0, 0⟩

theorem runCycle_eq_bind (schedule : Schedule) (w : Worker) (registry : Bool) :
    schedule.runCycle w registry =
      (refreshTrending w).bind (schedule.accountsPart w registry) := rfl

/-- A cycle takes on the accounts that the registry lists when it is asked, on any backend. -/
theorem runCycle_takesOn (answer : Backend σ) (schedule : Schedule) (w : Worker) (registry : Bool)
    (s : σ) {accounts : List AccountId}
    (haccounts : schedule.attempted w registry (answer ((refreshTrending w).run answer s).2
      (.activeAccounts schedule.maxAccounts)).1 = accounts) :
    subjectsMarked ((schedule.runCycle w registry).course answer s) = takenOn w accounts ∧
      ((schedule.runCycle w registry).run answer s).1.accountsRefreshed +
        ((schedule.runCycle w registry).run answer s).1.accountsFailed = accounts.length := by
  rw [runCycle_eq_bind, Routine.course_bind, Routine.run_bind, subjectsMarked_append,
    subjectsMarked_refreshTrending]
  generalize (refreshTrending w).run answer s = refreshed at haccounts ⊢
  unfold attempted at haccounts
  unfold accountsPart
  cases hfeeds : registry && (w.hasSource .home || w.hasSource .forYou) with
  | false =>
    rw [hfeeds] at haccounts
    obtain rfl : [] = accounts := haccounts
    exact ⟨rfl, rfl⟩
  | true =>
    rw [hfeeds, if_pos rfl] at haccounts
    rw [if_pos rfl, Routine.bind_eq, Routine.course_bind, Routine.run_bind,
      Routine.course_request, Routine.run_request]
    generalize answer refreshed.2 (.activeAccounts schedule.maxAccounts) = replied at haccounts ⊢
    obtain ⟨reply | all, s'⟩ := replied
    · obtain rfl : [] = accounts := haccounts
      exact ⟨rfl, rfl⟩
    · obtain rfl : all.take schedule.maxAccounts = accounts := haccounts
      obtain ⟨hmarked, hlength⟩ := populateAll_takesOn answer w (all.take schedule.maxAccounts) s'
      rw [← hlength, ← List.count_true_add_count_false]
      dsimp only
      rw [Routine.bind_eq, Routine.course_bind, Routine.run_bind, subjectsMarked_append,
        subjectsMarked_append, hmarked]
      exact ⟨congrArg (_ ++ ·) (List.append_nil _), rfl⟩

abbrev outcomes (w : Worker) (replies : Replies) (accounts : List AccountId) : List Bool :=
  accounts.map fun account => isOk (w.accountEffect replies account).result

theorem accountsPart_comes (h : Backend.Repeats answer view marks clock replies listed)
    (schedule : Schedule) (w : Worker) (registry trending : Bool) (hx : (view s).Consistent)
    {accounts : List AccountId}
    (haccounts : schedule.attempted w registry (listed schedule.maxAccounts) = accounts) :
    ((schedule.accountsPart w registry trending).run answer s).1 =
        ⟨trending, (outcomes w replies accounts).count true,
          (outcomes w replies accounts).count false⟩ ∧
      Effect.MadeAll (w.accountEffect replies) accounts (view s)
        (view ((schedule.accountsPart w registry trending).run answer s).2) ∧
      MarksInTurn answer marks (accounts.map .account)
        (schedule.accountsPart w registry trending) s := by
  unfold attempted at haccounts
  unfold accountsPart
  cases hfeeds : registry && (w.hasSource .home || w.hasSource .forYou) with
  | false =>
    rw [hfeeds] at haccounts
    obtain rfl : [] = accounts := haccounts
    exact ⟨rfl, Effect.madeAll_nil hx, .done _⟩
  | true =>
    rw [hfeeds, if_pos rfl] at haccounts
    rw [if_pos rfl, Routine.bind_eq]
    have hview := h.index.other s (.activeAccounts schedule.maxAccounts)
      fun _ _ => Call.noConfusion
    have hreply := h.registry s schedule.maxAccounts
    cases hlisted : listed schedule.maxAccounts with
    | error e =>
      rw [hlisted] at haccounts hreply
      obtain rfl : [] = accounts := haccounts
      refine ⟨?_, ?_, .ask h.marks (fun _ _ => Call.noConfusion) (fun _ => Call.noConfusion) ?_⟩
      · rw [Routine.run_bind, Routine.run_request, hreply]
        rfl
      · rw [Routine.run_bind, Routine.run_request, hreply]
        show Effect.MadeAll _ [] (view s) (view (answer s (.activeAccounts _)).2)
        rw [hview]
        exact Effect.madeAll_nil hx
      · rw [hreply]
        exact .done _
    | ok all =>
      rw [hlisted] at haccounts hreply
      obtain rfl : all.take schedule.maxAccounts = accounts := haccounts
      obtain ⟨hresults, hmade, hmarks⟩ := populateAll_comes
        (s := (answer s (.activeAccounts schedule.maxAccounts)).2) h w
        (all.take schedule.maxAccounts) (hview ▸ hx)
      rw [hview] at hmade
      refine ⟨?_, ?_, .ask h.marks (fun _ _ => Call.noConfusion) (fun _ => Call.noConfusion) ?_⟩
      · rw [Routine.run_bind, Routine.run_request, hreply]
        dsimp only
        rw [Routine.bind_eq, Routine.run_bind, hresults]
        rfl
      · rw [Routine.run_bind, Routine.run_request, hreply]
        dsimp only
        rw [Routine.bind_eq, Routine.run_bind]
        exact hmade
      · rw [hreply]
        exact hmarks.map _

/-- What a cycle comes to, by the effects on the subjects it takes on. -/
structure Comes (answer : Backend σ) (view : σ → FeedIndex) (marks : σ → Marks)
    (replies : Replies) (w : Worker) (accounts : List AccountId) (s : σ)
    (cycle : Work CycleSummary) : Prop where
  summary : (cycle.run answer s).1 = ⟨isOk (w.effect (replies .trending) .trending).result,
    (outcomes w replies accounts).count true, (outcomes w replies accounts).count false⟩
  consistent : (view (cycle.run answer s).2).Consistent
  trending : ∀ kind, (view (cycle.run answer s).2).ledger (.index kind .trending) =
    ((w.effect (replies .trending) .trending).feeds kind).getD
      ((view s).ledger (.index kind .trending))
  account : ∀ account ∈ accounts, ∀ kind,
    (view (cycle.run answer s).2).ledger (.index kind (.account account)) =
      ((w.accountEffect replies account).feeds kind).getD
        ((view s).ledger (.index kind (.account account)))
  others : ∀ key, key ≠ .index .trending .trending →
    (∀ account ∈ accounts, key ≠ .index .home (.account account) ∧
      key ≠ .index .forYou (.account account)) →
    (view (cycle.run answer s).2).feed key = (view s).feed key
  marks : MarksInTurn answer marks (takenOn w accounts) cycle s

theorem runCycle_comes (h : Backend.Repeats answer view marks clock replies listed)
    (schedule : Schedule) (w : Worker) (registry : Bool) (hx : (view s).Consistent) :
    Comes answer view marks replies w
      (schedule.attempted w registry (listed schedule.maxAccounts)) s
      (schedule.runCycle w registry) := by
  generalize haccounts : schedule.attempted w registry (listed schedule.maxAccounts) = accounts
  obtain ⟨htrending, hmade, hmarks⟩ := refreshTrending_comes h w hx
  obtain ⟨hsummary, hall, hmarks'⟩ := accountsPart_comes h schedule w registry
    ((refreshTrending w).run answer s).1 hmade.consistent haccounts
  rw [runCycle_eq_bind]
  have hrun := Routine.run_bind answer (refreshTrending w) (schedule.accountsPart w registry) s
  refine ⟨?_, ?_, fun kind => ?_, fun account hmem kind => ?_, fun key hkey hkeys => ?_,
    hmarks.bind hmarks'⟩
  · rw [hrun, hsummary, htrending]
  · rw [hrun]
    exact hall.consistent
  · rw [hrun, ← hmade.contents]
    refine congrArg SortedEntries.contents (hall.others _ fun _ _ _ _ heq => ?_)
    nomatch (StoreKey.index_injective heq).2
  · rw [hrun, hall.contents account hmem]
    have hfeed := hmade.feed_of_ne (Subject.noConfusion : Subject.account account ≠ _) kind
    exact congrArg (fun feed => ((w.accountEffect replies account).feeds kind).getD
      (SortedEntries.contents feed)) hfeed
  · rw [hrun, hall.others key fun account hmem kind hkind => ?_,
      hmade.others key fun kind hkind => ?_]
    · rw [w.isSome_feeds_effect _ hkind]
      exact hkey
    · rcases w.isSome_feeds_effectOfAll _ hkind with _ | ⟨_, _ | ⟨_, ⟨⟩⟩⟩
      · exact (hkeys account hmem).1
      · exact (hkeys account hmem).2

/-- A cycle and the subjects it takes on: these are tried one after the other, and for each
of them it comes to what it would come to alone. -/
structure Isolated (answer : Backend σ) (view : σ → FeedIndex) (marks : σ → Marks) (w : Worker)
    (accounts : List AccountId) (s : σ) (cycle : Work CycleSummary) : Prop where
  attempts : subjectsMarked (cycle.course answer s) = takenOn w accounts
  trending : (cycle.run answer s).1.trendingRefreshed =
    isOk ((w.run .trending .trending).run answer s).1
  refreshed : (cycle.run answer s).1.accountsRefreshed =
    accounts.countP fun account => isOk ((w.populate account).run answer s).1
  failed : (cycle.run answer s).1.accountsFailed =
    accounts.countP fun account => !isOk ((w.populate account).run answer s).1
  total : (cycle.run answer s).1.accountsRefreshed + (cycle.run answer s).1.accountsFailed =
    accounts.length
  trending_feeds : ∀ kind, ((view (cycle.run answer s).2).feed (.index kind .trending)).entries =
    ((view ((w.run .trending .trending).run answer s).2).feed (.index kind .trending)).entries
  account_feeds : ∀ account ∈ accounts, ∀ kind,
    ((view (cycle.run answer s).2).feed (.index kind (.account account))).entries =
      ((view ((w.populate account).run answer s).2).feed
        (.index kind (.account account))).entries
  others : ∀ key, key ≠ .index .trending .trending →
    (∀ account ∈ accounts, key ≠ .index .home (.account account) ∧
      key ≠ .index .forYou (.account account)) →
    (view (cycle.run answer s).2).feed key = (view s).feed key
  unmarked : ∀ subject ∈ takenOn w accounts, ∀ now,
    (marks (cycle.run answer s).2).isMarked subject now = false

theorem entries_eq_iff {x y : FeedIndex} (hx : x.Consistent) (hy : y.Consistent)
    (key : StoreKey) : (x.feed key).entries = (y.feed key).entries ↔
      x.ledger key = y.ledger key := by
  rw [(hx key).entries_eq, (hy key).entries_eq, Contents.entryList_inj]
  exact Iff.rfl

variable {w : Worker} {accounts : List AccountId} {cycle : Work CycleSummary}

theorem Comes.isolated (hcycle : Comes answer view marks replies w accounts s cycle)
    (h : Backend.Repeats answer view marks clock replies listed) (hx : (view s).Consistent) :
    Isolated answer view marks w accounts s cycle := by
  obtain ⟨htrending, hmade⟩ := Worker.effect_of_run h w .trending .trending s hx
  have halone := fun account => Worker.effect_of_populate h w account s hx
  have hok : ∀ account, isOk (w.accountEffect replies account).result =
      isOk ((w.populate account).run answer s).1 := by
    intro account
    rw [← (halone account).1, isOk_map]
  refine ⟨hcycle.marks.marked, ?_, ?_, ?_, ?_, fun kind => ?_, fun account hmem kind => ?_,
    hcycle.others, fun subject hsubject now => ?_⟩
  · rw [hcycle.summary, ← htrending, isOk_map]
  · rw [hcycle.summary]
    simp only [List.count, List.countP_map, ← hok]
    exact List.countP_congr fun account _ => by simp
  · rw [hcycle.summary]
    simp only [List.count, List.countP_map, ← hok]
    exact List.countP_congr fun account _ => by simp
  · rw [hcycle.summary]
    have hlength : (outcomes w replies accounts).length = accounts.length := List.length_map _
    rw [← hlength]
    exact List.count_true_add_count_false _
  · rw [entries_eq_iff hcycle.consistent hmade.consistent, hcycle.trending, hmade.contents]
  · rw [entries_eq_iff hcycle.consistent (halone account).2.consistent,
      hcycle.account account hmem, (halone account).2.contents]
  · rw [hcycle.marks.isMarked]
    simp [hsubject]

def SameFeeds {σ σ' : Type} (view : σ → FeedIndex) (view' : σ' → FeedIndex) (subject : Subject)
    (s : σ) (s' : σ') : Prop :=
  ∀ kind, ((view s).feed (.index kind subject)).entries =
    ((view' s').feed (.index kind subject)).entries

/-- To this subject two worlds look alike: the sources answer the same for it, and its feeds
are the same. -/
structure Alike {σ σ' : Type} (view : σ → FeedIndex) (view' : σ' → FeedIndex)
    (replies replies' : Replies) (subject : Subject) (s : σ) (s' : σ') : Prop where
  replies : replies subject = replies' subject
  feeds : SameFeeds view view' subject s s'

/-- A cycle does for each subject what would be done for it alone, and nothing else.  In
another world that looks the same to a subject, it comes to the same for it, whatever becomes
of the other subjects and of the registry of accounts. -/
theorem runCycle_isolates_subjects
    (h : Backend.Repeats answer view marks clock replies listed) (hx : (view s).Reachable)
    (schedule : Schedule) (w : Worker) (registry : Bool) :
    Isolated answer view marks w
        (schedule.attempted w registry (listed schedule.maxAccounts)) s
        (schedule.runCycle w registry) ∧
      ∀ {σ' : Type} {answer' : Backend σ'} {view' : σ' → FeedIndex} {marks' : σ' → Marks}
        {clock' : σ' → Nat} {replies' : Replies}
        {listed' : Nat → Except ServiceError (List AccountId)} {s' : σ'},
        Backend.Repeats answer' view' marks' clock' replies' listed' → (view' s').Reachable →
        ∀ (schedule' : Schedule) (registry' : Bool),
          (Alike view view' replies replies' .trending s s' →
            ((schedule.runCycle w registry).run answer s).1.trendingRefreshed =
                ((schedule'.runCycle w registry').run answer' s').1.trendingRefreshed ∧
              SameFeeds view view' .trending ((schedule.runCycle w registry).run answer s).2
                ((schedule'.runCycle w registry').run answer' s').2) ∧
          ∀ account, account ∈ schedule.attempted w registry (listed schedule.maxAccounts) →
            account ∈ schedule'.attempted w registry' (listed' schedule'.maxAccounts) →
            Alike view view' replies replies' (.account account) s s' →
            isOk ((w.populate account).run answer s).1 =
                isOk ((w.populate account).run answer' s').1 ∧
              SameFeeds view view' (.account account)
                ((schedule.runCycle w registry).run answer s).2
                ((schedule'.runCycle w registry').run answer' s').2 := by
  have hcycle := runCycle_comes h schedule w registry hx.consistent
  refine ⟨hcycle.isolated h hx.consistent, ?_⟩
  intro σ' answer' view' marks' clock' replies' listed' s' h' hx' schedule' registry'
  have hcycle' := runCycle_comes h' schedule' w registry' hx'.consistent
  refine ⟨fun halike => ⟨?_, fun kind => ?_⟩, fun account hmem hmem' halike =>
    ⟨?_, fun kind => ?_⟩⟩
  · rw [hcycle.summary, hcycle'.summary, halike.replies]
  · rw [entries_eq_iff hcycle.consistent hcycle'.consistent, hcycle.trending, hcycle'.trending,
      halike.replies, (entries_eq_iff hx.consistent hx'.consistent _).mp (halike.feeds kind)]
  · rw [← isOk_map (fun _ => ()), ← isOk_map (fun _ => ()) (Routine.run answer' _ _).1,
      (Worker.effect_of_populate h w account).result hx.consistent,
      (Worker.effect_of_populate h' w account).result hx'.consistent, Worker.accountEffect,
      halike.replies]
  · rw [entries_eq_iff hcycle.consistent hcycle'.consistent, hcycle.account account hmem,
      hcycle'.account account hmem', Worker.accountEffect, halike.replies,
      (entries_eq_iff hx.consistent hx'.consistent _).mp (halike.feeds kind)]

/-- A backend on which nothing fails but the sources and the registry. -/
def repeating (replies : Replies) (listed : Nat → Except ServiceError (List AccountId)) :
    Backend Backend.Setting
  | s, .compute kind subject _ => (replies subject kind, s.tick)
  | s, .activeAccounts limit => (listed limit, s.tick)
  | s, c => Backend.faulty (fun _ => none) (fun _ => none) s c

theorem repeats_repeating (replies : Replies)
    (listed : Nat → Except ServiceError (List AccountId)) :
    Backend.Repeats (repeating replies listed) Backend.Setting.index Backend.Setting.marks
      Backend.Setting.clock replies listed where
  index := by
    refine ⟨fun _ _ _ => ⟨rfl, rfl⟩, fun s c hc => ?_⟩
    cases c with
    | index key r => exact absurd rfl (hc key r)
    | _ => rfl
  marks := by
    refine ⟨⟨fun _ _ _ _ => rfl, fun _ _ _ => rfl, fun s c hmark hclear => ?_⟩, fun _ _ _ => rfl,
      fun _ _ => rfl, fun _ _ => rfl⟩
    cases c with
    | mark subject seconds => exact absurd rfl (hmark subject seconds)
    | clear subject => exact absurd rfl (hclear subject)
    | _ => rfl
  source _ _ _ _ := rfl
  registry _ _ := rfl

/-- The trending source never comes back, and the ranked feed of one account fails. -/
def unlucky : Replies
  | .trending, _ => none
  | .account id, kind =>
    if id = 13 ∧ kind = .forYou then some (.error (.collaborator "down"))
    else some (.ok [⟨id, ⟨1⟩⟩])

/-- The same for this account, and nothing works for any other. -/
def unluckier : Replies
  | .trending, _ => some (.ok [⟨99, ⟨1⟩⟩])
  | .account id, kind => if id = 13 then unlucky (.account id) kind else none

def fourAccounts : Schedule := { Schedule.default with maxAccounts := 4 }

def everyFeed : Worker := ⟨FeedKind.all, PrecomputeSettings.default⟩

def fiveAccounts (_ : Nat) : Except ServiceError (List AccountId) := .ok [1, 13, 1, 2, 9]

def cycleOf (replies : Replies) : CycleSummary × Backend.Setting :=
  (fourAccounts.runCycle everyFeed true).run (repeating replies fiveAccounts) .empty

theorem runCycle_isolates_subjects_unlucky :
    (cycleOf unlucky).1.trendingRefreshed = false ∧
      (cycleOf unlucky).1.accountsRefreshed = 3 ∧ (cycleOf unlucky).1.accountsFailed = 1 ∧
      (cycleOf unlucky).2.marks.isMarked (.account 13) 0 = false ∧
      SameFeeds Backend.Setting.index Backend.Setting.index (.account 13) (cycleOf unlucky).2
        (cycleOf unluckier).2 := by
  have hempty : (Backend.Setting.index .empty).Reachable := ⟨[], rfl⟩
  obtain ⟨hisolated, hworlds⟩ := runCycle_isolates_subjects
    (repeats_repeating unlucky fiveAccounts) hempty fourAccounts everyFeed true
  obtain ⟨-, haccounts⟩ := hworlds (repeats_repeating unluckier fiveAccounts) hempty
    fourAccounts true
  have hattempted : fourAccounts.attempted everyFeed true (fiveAccounts 4) = [1, 13, 1, 2] := rfl
  rw [show fiveAccounts fourAccounts.maxAccounts = fiveAccounts 4 from rfl, hattempted]
    at hisolated haccounts
  have htrending : isOk ((everyFeed.run .trending .trending).run
      (repeating unlucky fiveAccounts) .empty).1 = false := by decide +kernel
  have hrefreshed : [1, 13, 1, 2].countP (fun account => isOk ((everyFeed.populate account).run
      (repeating unlucky fiveAccounts) .empty).1) = 3 := by decide +kernel
  have hfailed : [1, 13, 1, 2].countP (fun account => !isOk ((everyFeed.populate account).run
      (repeating unlucky fiveAccounts) .empty).1) = 1 := by decide +kernel
  obtain ⟨-, hfeeds⟩ := haccounts 13 (by decide) (by decide) ⟨rfl, fun _ => rfl⟩
  unfold cycleOf
  refine ⟨?_, ?_, ?_, ?_, hfeeds⟩
  · rw [hisolated.trending, htrending]
  · rw [hisolated.refreshed, hrefreshed]
  · rw [hisolated.failed, hfailed]
  · exact hisolated.unmarked (.account 13) (by decide) 0

end Schedule
end WarmFeed
