import WarmFeed.Call
import WarmFeed.Marks
import WarmFeed.Proofs.Index.Refinement
import WarmFeed.Proofs.Routine

/-!
# What the service is run on

The calls of the service are answered by a backend.  What is assumed of it here is
little: requests about feeds are answered by an index that no other call changes,
and a fetch gives the statuses that exist.  Marks and counts may be answered in
any way.
-/

namespace WarmFeed

/-- Someone who answers every call of the service, and goes on in another state. -/
abbrev Backend (σ : Type) := σ → (c : Call) → c.Reply × σ

namespace Backend

/-- Requests about feeds are answered by an index, and no other call changes it. -/
structure HoldsIndex {σ : Type} (answer : Backend σ) (view : σ → FeedIndex) : Prop where
  request : ∀ s key r, (answer s (.index key r)).1 = ((view s).answer key r).1 ∧
    view (answer s (.index key r)).2 = ((view s).answer key r).2
  other : ∀ s c, (∀ key r, c ≠ .index key r) → view (answer s c).2 = view s

/-- Requests about feeds are answered by an index, or fail and have then either taken effect
or not.  No other call changes the index. -/
structure Falters {σ : Type} (answer : Backend σ) (view : σ → FeedIndex) : Prop where
  request : ∀ s key r,
    ((answer s (.index key r)).1 = ((view s).answer key r).1 ∧
        view (answer s (.index key r)).2 = ((view s).answer key r).2) ∨
      (∃ e, (answer s (.index key r)).1 = .error e) ∧
        (view (answer s (.index key r)).2 = view s ∨
          view (answer s (.index key r)).2 = ((view s).answer key r).2)
  other : ∀ s c, (∀ key r, c ≠ .index key r) → view (answer s c).2 = view s

/-- A fetch gives the statuses that exist of the identifiers it is asked for, in any
order and perhaps with others. -/
structure HoldsStatuses {σ : Type} (answer : Backend σ) (held : ContentId → Option Status) :
    Prop where
  id_eq : ∀ id status, held id = some status → status.id = id
  fetch : ∀ s ids, ∃ fetched, (answer s (.bulkFetch ids)).1 = .ok fetched ∧
    (∀ status ∈ fetched, held status.id = some status) ∧
    ∀ id ∈ ids, ∀ status, held id = some status → status ∈ fetched

structure Fetches {σ : Type} (answer : Backend σ) (held : ContentId → Option Status) (s : σ) :
    Prop where
  id_eq : ∀ id status, held id = some status → status.id = id
  fetch : ∀ ids, ∃ fetched, (answer s (.bulkFetch ids)).1 = .ok fetched ∧
    (∀ status ∈ fetched, held status.id = some status) ∧
    ∀ id ∈ ids, ∀ status, held id = some status → status ∈ fetched

theorem HoldsStatuses.fetches {σ : Type} {answer : Backend σ} {held : ContentId → Option Status}
    (h : HoldsStatuses answer held) (s : σ) : Fetches answer held s :=
  ⟨h.id_eq, h.fetch s⟩

/-- In every state a fetch gives the statuses that exist then.  Only resolving candidates
makes more of them exist. -/
structure StocksStatuses {σ : Type} (answer : Backend σ) (held : σ → ContentId → Option Status) :
    Prop where
  fetches : ∀ s, Fetches answer (held s) s
  other : ∀ s c, (∀ concurrency cs, c ≠ .resolveAll concurrency cs) →
    held (answer s c).2 = held s

theorem HoldsStatuses.stocks {σ : Type} {answer : Backend σ} {held : ContentId → Option Status}
    (h : HoldsStatuses answer held) : StocksStatuses answer fun _ => held :=
  ⟨h.fetches, fun _ _ _ => rfl⟩

/-- Marking sets a mark for so many seconds, clearing takes it back, and no other call
changes the marks.  The clock counts milliseconds. -/
structure HoldsMarks {σ : Type} (answer : Backend σ) (marks : σ → Marks) (clock : σ → Nat) :
    Prop where
  mark : ∀ s subject seconds, (answer s (.mark subject seconds)).1 = .ok () →
    marks (answer s (.mark subject seconds)).2 =
      (marks s).mark subject (clock s) (1000 * seconds)
  clear : ∀ s subject, (answer s (.clear subject)).1 = .ok () →
    marks (answer s (.clear subject)).2 = (marks s).clear subject
  other : ∀ s c, (∀ subject seconds, c ≠ .mark subject seconds) →
    (∀ subject, c ≠ .clear subject) → marks (answer s c).2 = marks s

variable {σ : Type} {answer : Backend σ} {view : σ → FeedIndex}

theorem HoldsIndex.attempt_askIndex (h : HoldsIndex answer view) (s : σ) (key : StoreKey)
    (r : IndexRequest) :
    ∃ s', Routine.attempt answer s (askIndex key r) = (((view s).answer key r).1, s') ∧
      view s' = ((view s).answer key r).2 := by
  obtain ⟨hanswer, hview⟩ := h.request s key r
  refine ⟨(answer s (.index key r)).2, ?_, hview⟩
  show ((answer s (.index key r)).1, (answer s (.index key r)).2) = _
  rw [hanswer]

/-- A request that changes the contents of one feed, and nothing else. -/
theorem HoldsIndex.attempt_change (h : HoldsIndex answer view) {s : σ}
    (hx : (view s).Consistent) {key : StoreKey} {r : IndexRequest} {x : r.Answer} {c : Contents}
    (htold : Ledger.answer (view s).ledger key r =
      (.ok x, Function.update (view s).ledger key c)) :
    ∃ s', Routine.attempt answer s (askIndex key r) = (.ok x, s') ∧
      (view s).ChangedTo key c (view s') := by
  obtain ⟨s', hattempt, hview⟩ := h.attempt_askIndex s key r
  have hchanged := hx.changedTo_answer key r
  have hcontents : (Ledger.answer (view s).ledger key r).2 key = c := by
    rw [htold]
    exact Function.update_self ..
  rw [(FeedIndex.answer_eq_ledger hx key r).1, htold] at hattempt
  rw [hcontents] at hchanged
  refine ⟨s', hattempt, ?_⟩
  rw [hview]
  exact hchanged

/-- The same for a request that is left out where it would change nothing. -/
theorem HoldsIndex.attempt_change_if (h : HoldsIndex answer view) {s : σ}
    (hx : (view s).Consistent) {key : StoreKey} {r : IndexRequest} {x : r.Answer} {c : Contents}
    (made : Prop) (htold : Ledger.answer (view s).ledger key r =
      (.ok x, Function.update (view s).ledger key c))
    (hleft : ¬ made → ((view s).feed key).contents = c) :
    ∃ s', (view s).ChangedTo key c (view s') ∧
      (made → Routine.attempt answer s (askIndex key r) = (.ok x, s')) ∧ (¬ made → s' = s) := by
  by_cases hmade : made
  · obtain ⟨s', hattempt, hchanged⟩ := h.attempt_change hx htold
    exact ⟨s', hchanged, fun _ => hattempt, fun hnot => absurd hmade hnot⟩
  · have hself := hx.changedTo_self key
    rw [hleft hmade] at hself
    exact ⟨s, hself, fun hyes => absurd hyes hmade, fun _ => rfl⟩

/-- A request that only reads leaves the index alone. -/
theorem HoldsIndex.attempt_read (h : HoldsIndex answer view) (s : σ) (key : StoreKey)
    {r : IndexRequest} {x : r.Answer} (hread : (view s).answer key r = (.ok x, view s)) :
    ∃ s', Routine.attempt answer s (askIndex key r) = (.ok x, s') ∧ view s' = view s := by
  obtain ⟨s', hattempt, hview⟩ := h.attempt_askIndex s key r
  rw [hread] at hattempt hview
  exact ⟨s', hattempt, hview⟩

/-- A backend that is an index with fixed statuses, where nothing is marked and every
source computes the same entries. -/
def plain (held : ContentId → Option Status) (computed : List Entry) : Backend FeedIndex
  | x, .index key r => x.answer key r
  | x, .mark _ _ => (.ok (), x)
  | x, .clear _ => (.ok (), x)
  | x, .isMarked _ => (.ok false, x)
  | x, .compute _ _ _ => (some (.ok computed), x)
  | x, .bulkFetch ids => (.ok (ids.reverse.filterMap held), x)
  | x, .resolveAll _ _ => ([], x)
  | x, .fetchPage _ _ => (.ok [], x)
  | x, .candidates _ _ => (.ok [], x)
  | x, .activeAccounts _ => (.ok [], x)
  | x, .count _ _ => ((), x)

theorem holdsIndex_plain (held : ContentId → Option Status) (computed : List Entry) :
    HoldsIndex (plain held computed) id where
  request _ _ _ := ⟨rfl, rfl⟩
  other x c h := by
    cases c with
    | index key r => exact absurd rfl (h key r)
    | _ => rfl

theorem holdsStatuses_plain {held : ContentId → Option Status} (computed : List Entry)
    (hid : ∀ id status, held id = some status → status.id = id) :
    HoldsStatuses (plain held computed) held where
  id_eq := hid
  fetch x ids := by
    refine ⟨ids.reverse.filterMap held, rfl, fun status hstatus => ?_, fun id hmem status h => ?_⟩
    · obtain ⟨id, -, h⟩ := List.mem_filterMap.mp hstatus
      rw [hid id status h]
      exact h
    · exact List.mem_filterMap.mpr ⟨id, List.mem_reverse.mpr hmem, h⟩

/-! ## Calls that fail -/

/-- How a call fails: it never arrives, or it takes effect and its reply is lost. -/
inductive Fault where
  | lost (e : StoreError)
  | unanswered (e : StoreError)

structure Setting where
  index : FeedIndex
  marks : Marks
  clock : Nat

namespace Setting

def empty : Setting := ⟨∅, ∅, 0⟩

/-- Reply to a call that leads to the state `after`, if it takes effect. -/
def reply {α : Type} (s after : Setting) (x : Except StoreError α) :
    Option Fault → Except StoreError α × Setting
  | none => (x, after)
  | some (.lost e) => (.error e, s)
  | some (.unanswered e) => (.error e, after)

theorem reply_eq_or {α : Type} (s after : Setting) (x : Except StoreError α)
    (fault : Option Fault) :
    s.reply after x fault = (x, after) ∨
      ∃ e, (s.reply after x fault).1 = .error e ∧
        ((s.reply after x fault).2 = s ∨ (s.reply after x fault).2 = after) := by
  match fault with
  | none => exact Or.inl rfl
  | some (.lost e) => exact Or.inr ⟨e, rfl, Or.inl rfl⟩
  | some (.unanswered e) => exact Or.inr ⟨e, rfl, Or.inr rfl⟩

/-- What the call does not change is kept, also if it fails. -/
theorem reply_keeps {α β : Type} (s : Setting) {after : Setting} {f : Setting → β}
    (hafter : f after = f s) (x : Except StoreError α) (fault : Option Fault) :
    f (s.reply after x fault).2 = f s := by
  rcases s.reply_eq_or after x fault with h | ⟨e, -, h | h⟩
  · rw [h]
    exact hafter
  · rw [h]
  · rw [h]
    exact hafter

def tick (s : Setting) : Setting := { s with clock := s.clock + 1 }

end Setting

/-- A backend in which every call takes a millisecond and some calls fail. -/
def faulty (faults : Call → Option Fault)
    (sources : FeedKind → Option (Except ServiceError (List Entry))) : Backend Setting
  | s, .index key r =>
    s.tick.reply { s.tick with index := (s.index.answer key r).2 } (s.index.answer key r).1
      (faults (.index key r))
  | s, .mark subject seconds =>
    s.tick.reply { s.tick with marks := s.marks.mark subject s.clock (1000 * seconds) } (.ok ())
      (faults (.mark subject seconds))
  | s, .clear subject =>
    s.tick.reply { s.tick with marks := s.marks.clear subject } (.ok ()) (faults (.clear subject))
  | s, .isMarked subject => (.ok (s.marks.isMarked subject s.clock), s.tick)
  | s, .compute kind _ _ => (sources kind, s.tick)
  | s, .bulkFetch _ => (.ok [], s.tick)
  | s, .resolveAll _ _ => ([], s.tick)
  | s, .fetchPage _ _ => (.ok [], s.tick)
  | s, .candidates _ _ => (.ok [], s.tick)
  | s, .activeAccounts _ => (.ok [], s.tick)
  | s, .count _ _ => ((), s.tick)

section Faulty

variable (faults : Call → Option Fault)
  (sources : FeedKind → Option (Except ServiceError (List Entry)))

theorem falters_faulty : Falters (faulty faults sources) Setting.index where
  request s key r := by
    rcases s.tick.reply_eq_or { s.tick with index := (s.index.answer key r).2 }
      (s.index.answer key r).1 (faults (.index key r)) with h | ⟨e, herror, h | h⟩
    · exact Or.inl ⟨congrArg Prod.fst h, congrArg (fun replied => replied.2.index) h⟩
    · exact Or.inr ⟨⟨e, herror⟩, Or.inl ((congrArg Setting.index h).trans rfl)⟩
    · exact Or.inr ⟨⟨e, herror⟩, Or.inr ((congrArg Setting.index h).trans rfl)⟩
  other s c hindex := by
    cases c with
    | index key r => exact absurd rfl (hindex key r)
    | mark subject seconds => exact s.tick.reply_keeps (f := Setting.index) (by rfl) _ _
    | clear subject => exact s.tick.reply_keeps (f := Setting.index) (by rfl) _ _
    | _ => rfl

theorem holdsIndex_faulty (hindex : ∀ key r, faults (.index key r) = none) :
    HoldsIndex (faulty faults sources) Setting.index where
  request s key r := by
    have hreply : faulty faults sources s (.index key r) =
        ((s.index.answer key r).1, { s.tick with index := (s.index.answer key r).2 }) := by
      show s.tick.reply _ _ (faults (.index key r)) = _
      rw [hindex]
      rfl
    rw [hreply]
    exact ⟨rfl, rfl⟩
  other := (falters_faulty faults sources).other

theorem holdsMarks_faulty :
    HoldsMarks (faulty faults sources) Setting.marks Setting.clock where
  mark s subject seconds hok := by
    rcases s.tick.reply_eq_or { s.tick with marks := s.marks.mark subject s.clock (1000 * seconds) }
      (.ok ()) (faults (.mark subject seconds)) with h | ⟨e, h, -⟩
    · exact congrArg (fun replied => replied.2.marks) h
    · nomatch hok.symm.trans h
  clear s subject hok := by
    rcases s.tick.reply_eq_or { s.tick with marks := s.marks.clear subject } (.ok ())
      (faults (.clear subject)) with h | ⟨e, h, -⟩
    · exact congrArg (fun replied => replied.2.marks) h
    · nomatch hok.symm.trans h
  other s c hmark hclear := by
    cases c with
    | index key r => exact s.tick.reply_keeps (f := Setting.marks) (by rfl) _ _
    | mark subject seconds => exact absurd rfl (hmark subject seconds)
    | clear subject => exact absurd rfl (hclear subject)
    | _ => rfl

end Faulty

end Backend
end WarmFeed
