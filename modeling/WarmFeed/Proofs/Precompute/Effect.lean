import WarmFeed.Proofs.Key
import WarmFeed.Proofs.Precompute.Outcome
import WarmFeed.Proofs.Precompute.Overlap

/-!
# What work on a subject comes to

Where the index and the marks work and each source answers the same whenever it is asked,
work on a subject has an effect that what it answers for this subject decides.  Some of the
feeds of the subject get new contents whatever they held, all other feeds stay as they are,
and the work fails or not.  It makes no difference whether it is done again.
-/

namespace WarmFeed

/-- The new contents that feeds of a subject get, and why the work failed if it did. -/
structure Effect where
  feeds : FeedKind → Option Contents
  result : Except RunError Unit

namespace Effect

def still (result : Except RunError Unit) : Effect := ⟨fun _ => none, result⟩

/-- One after the other; nothing comes after a failure. -/
def andThen (e e' : Effect) : Effect :=
  match e.result with
  | .error _ => e
  | .ok () => ⟨fun kind => (e'.feeds kind).or (e.feeds kind), e'.result⟩

structure Made (e : Effect) (subject : Subject) (x y : FeedIndex) : Prop where
  consistent : y.Consistent
  contents : ∀ kind, y.ledger (.index kind subject) =
    (e.feeds kind).getD (x.ledger (.index kind subject))
  others : ∀ key, (∀ kind, (e.feeds kind).isSome → key ≠ .index kind subject) →
    y.feed key = x.feed key

section Made

variable {e e' : Effect} {subject : Subject} {x y z : FeedIndex}

theorem made_still (hx : x.Consistent) (result : Except RunError Unit) :
    (still result).Made subject x x := ⟨hx, fun _ => rfl, fun _ _ => rfl⟩

theorem made_of_changedTo {kind : FeedKind} {c : Contents} {result : Except RunError Unit}
    (h : x.ChangedTo (.index kind subject) c y) :
    (⟨fun k => if k = kind then some c else none, result⟩ : Effect).Made subject x y where
  consistent := h.consistent
  contents k := by
    dsimp only
    by_cases hk : k = kind
    · rw [if_pos hk, hk]
      exact h.contents
    · rw [if_neg hk]
      exact congrArg SortedEntries.contents
        (h.others _ fun heq => hk (StoreKey.index_injective heq).1)
  others key hkey := h.others key (hkey kind (by simp))

theorem Made.trans (h : e.Made subject x y) (h' : e'.Made subject y z)
    (hok : e.result = .ok ()) : (e.andThen e').Made subject x z := by
  unfold andThen
  rw [hok]
  refine ⟨h'.consistent, fun kind => ?_, fun key hkey => ?_⟩
  · rw [h'.contents, h.contents]
    dsimp only
    cases e'.feeds kind <;> rfl
  · rw [h'.others key fun kind hkind => hkey kind (by simp [hkind]),
      h.others key fun kind hkind => hkey kind (by simp [hkind])]

/-- The feeds of another subject stay as they are. -/
theorem Made.feed_of_ne (h : e.Made subject x y) {who : Subject} (hwho : who ≠ subject)
    (kind : FeedKind) : y.feed (.index kind who) = x.feed (.index kind who) :=
  h.others _ fun _ _ heq => hwho (StoreKey.index_injective heq).2

end Made

theorem andThen_of_failed {e : Effect} (e' : Effect) {error : RunError}
    (h : e.result = .error error) : e.andThen e' = e := by
  unfold andThen
  rw [h]

theorem result_andThen {e : Effect} (e' : Effect) (h : e.result = .ok ()) :
    (e.andThen e').result = e'.result := by
  unfold andThen
  rw [h]

def Of {σ α : Type} (e : Effect) (answer : Backend σ) (view : σ → FeedIndex) (subject : Subject)
    (work : Work (Except RunError α)) : Prop :=
  ∀ s, (view s).Consistent → (work.run answer s).1.map (fun _ => ()) = e.result ∧
    e.Made subject (view s) (view (work.run answer s).2)

section Of

variable {σ α β : Type} {answer : Backend σ} {view : σ → FeedIndex} {marks : σ → Marks}
  {clock : σ → Nat} {subject : Subject} {e e' : Effect} {work : Work (Except RunError α)}

theorem Of.result (h : e.Of answer view subject work) {s : σ} (hx : (view s).Consistent) :
    (work.run answer s).1.map (fun _ => ()) = e.result := (h s hx).1

theorem Of.bind (h : e.Of answer view subject work) {f : α → Work (Except RunError β)}
    (hf : ∀ a, e'.Of answer view subject (f a))
    {g : Except RunError α → Work (Except RunError β)}
    (herror : ∀ error, g (.error error) = .done (.error error)) (hok : ∀ a, g (.ok a) = f a) :
    (e.andThen e').Of answer view subject (work.bind g) := by
  intro s hx
  obtain ⟨hresult, hmade⟩ := h s hx
  rw [Routine.run_bind]
  generalize work.run answer s = ended at hresult hmade
  obtain ⟨result, t⟩ := ended
  cases result with
  | error error =>
    rw [herror, andThen_of_failed e' hresult.symm]
    exact ⟨hresult, hmade⟩
  | ok a =>
    obtain ⟨hrest, hmade'⟩ := hf a t hmade.consistent
    rw [hok, result_andThen e' hresult.symm]
    exact ⟨hrest, hmade.trans hmade' hresult.symm⟩

theorem Of.map (h : e.Of answer view subject work) (f : α → β) :
    e.Of answer view subject (work.bind fun result => .done (result.map f)) := by
  intro s hx
  obtain ⟨hresult, hmade⟩ := h s hx
  rw [Routine.run_bind]
  refine ⟨Eq.trans ?_ hresult, hmade⟩
  cases (work.run answer s).1 <;> rfl

/-- The mark makes no difference to the feeds and the result. -/
theorem Of.underMark (h : e.Of answer view subject work)
    (hindex : Backend.HoldsIndex answer view) (hmarks : Backend.TellsMarks answer marks clock)
    (seconds : Nat) :
    e.Of answer view subject ((Worker.underMark seconds subject work).bind Worker.settle) := by
  intro s hx
  have hview := hindex.other s (.mark subject seconds) fun _ _ => Call.noConfusion
  obtain ⟨hresult, hmade⟩ := h (answer s (.mark subject seconds)).2 (hview ▸ hx)
  rw [hview] at hmade
  rw [Worker.run_settle subject work (hmarks.marked s subject seconds),
    hindex.other _ (.clear subject) fun _ _ => Call.noConfusion]
  exact ⟨hresult, hmade⟩

end Of

end Effect

/-! ## Effects of a worker -/

namespace Worker

variable (w : Worker) (replies : FeedKind → Option (Except ServiceError (List Entry)))

/-- The effect of computing a feed, by what the sources answer for its subject. -/
def effect (kind : FeedKind) : Effect :=
  match w.verdict kind (replies kind) with
  | .error e => .still (.error e)
  | .ok es => ⟨fun k => if k = kind then some (Apply.contentsOf es) else none, .ok ()⟩

def effectOfAll : List FeedKind → Effect
  | [] => .still (.ok ())
  | kind :: rest =>
    if w.hasSource kind then (w.effect replies kind).andThen (effectOfAll rest)
    else effectOfAll rest

theorem effect_of_no_source {w : Worker} {kind : FeedKind} (h : w.hasSource kind = false) :
    w.effect replies kind = .still (.error (.noSource kind)) := by
  unfold effect
  rw [verdict_of_no_source h]

theorem isSome_feeds_effect {kind k : FeedKind} (h : ((w.effect replies kind).feeds k).isSome) :
    k = kind := by
  unfold effect at h
  split at h
  · nomatch h
  · by_contra hk
    simp [hk] at h

theorem isSome_feeds_effectOfAll {kinds : List FeedKind} {k : FeedKind}
    (h : ((w.effectOfAll replies kinds).feeds k).isSome) : k ∈ kinds := by
  induction kinds with
  | nil => nomatch h
  | cons kind rest ih =>
    unfold effectOfAll at h
    split at h
    · cases hresult : (w.effect replies kind).result with
      | error e =>
        rw [Effect.andThen_of_failed _ hresult] at h
        rw [w.isSome_feeds_effect replies h]
        exact List.mem_cons_self
      | ok =>
        unfold Effect.andThen at h
        rw [hresult] at h
        rcases Option.or_eq_some_iff.mp (Option.eq_some_of_isSome h) with hrest | ⟨-, hfirst⟩
        · exact List.mem_cons_of_mem _ (ih (Option.isSome_of_eq_some hrest))
        · rw [w.isSome_feeds_effect replies (Option.isSome_of_eq_some hfirst)]
          exact List.mem_cons_self
    · exact List.mem_cons_of_mem _ (ih h)

end Worker

/-- What the source of each kind answers for a subject; nothing if it takes too long. -/
abbrev Replies := Subject → FeedKind → Option (Except ServiceError (List Entry))

/-- The index and the marks work, and each source answers the same whenever it is asked, and
so does the registry of accounts. -/
structure Backend.Repeats {σ : Type} (answer : Backend σ) (view : σ → FeedIndex)
    (marks : σ → Marks) (clock : σ → Nat) (replies : Replies)
    (listed : Nat → Except ServiceError (List AccountId)) : Prop where
  index : HoldsIndex answer view
  marks : TellsMarks answer marks clock
  source : ∀ s kind subject seconds,
    (answer s (.compute kind subject seconds)).1 = replies subject kind
  registry : ∀ s limit, (answer s (.activeAccounts limit)).1 = listed limit

namespace Worker

variable {σ : Type} {answer : Backend σ} {view : σ → FeedIndex} {marks : σ → Marks}
  {clock : σ → Nat} {replies : Replies} {listed : Nat → Except ServiceError (List AccountId)}

theorem effect_of_regenerate (h : Backend.Repeats answer view marks clock replies listed)
    (w : Worker) (kind : FeedKind) (subject : Subject) :
    (w.effect (replies subject) kind).Of answer view subject (w.regenerate kind subject) := by
  intro s hx
  have hcomes : w.Comes kind subject _ _ _ _ := regenerate_comes h.index hx
  rw [h.source s kind subject w.settings.timeoutSeconds] at hcomes
  unfold effect
  cases hverdict : w.verdict kind (replies subject kind) with
  | error e =>
    rw [hverdict] at hcomes
    obtain ⟨hresult, hview⟩ := hcomes
    rw [hresult, hview]
    exact ⟨rfl, Effect.made_still hx _⟩
  | ok es =>
    rw [hverdict] at hcomes
    obtain ⟨hresult, hchanged⟩ := hcomes
    rw [hresult]
    exact ⟨rfl, Effect.made_of_changedTo hchanged⟩

theorem effect_of_regenerateAll (h : Backend.Repeats answer view marks clock replies listed)
    (w : Worker) (subject : Subject) (kinds : List FeedKind) :
    (w.effectOfAll (replies subject) kinds).Of answer view subject
      (w.regenerateAll subject kinds) := by
  induction kinds with
  | nil => exact fun s hx => ⟨rfl, Effect.made_still hx _⟩
  | cons kind rest ih =>
    unfold effectOfAll regenerateAll
    cases w.hasSource kind with
    | false => exact ih
    | true =>
      exact (effect_of_regenerate h w kind subject).bind (fun report => ih.map (report :: ·))
        (fun _ => rfl) fun _ => rfl

theorem effect_of_run (h : Backend.Repeats answer view marks clock replies listed) (w : Worker)
    (kind : FeedKind) (subject : Subject) :
    (w.effect (replies subject) kind).Of answer view subject (w.run kind subject) := by
  rw [run_eq_underMark]
  exact (effect_of_regenerate h w kind subject).underMark h.index h.marks _

abbrev accountEffect (w : Worker) (replies : Replies) (account : AccountId) : Effect :=
  w.effectOfAll (replies (.account account)) [.home, .forYou]

theorem effect_of_populate (h : Backend.Repeats answer view marks clock replies listed)
    (w : Worker) (account : AccountId) :
    (w.accountEffect replies account).Of answer view (.account account) (w.populate account) := by
  rw [populate_eq_underMark]
  exact (effect_of_regenerateAll h w (.account account) _).underMark h.index h.marks _

end Worker
end WarmFeed
