import WarmFeed.Proofs.Precompute.Mark

/-!
# What a feed passes through

A run fails for want of a source or by a request that failed.  Until its first write the
index is as it was.  From then on the feed holds what it held, or that with the changed
entries written over it, or exactly the new entries, also where a write fails, whether or
not it took effect.  So nothing that stays is ever missing, and there is no score that is
neither old nor new.
-/

namespace WarmFeed

/-! ## Requests that fail -/

namespace Call

def Writes : Call → Prop
  | .index _ r => r.IsWrite
  | _ => False

/-- The reply to a call is a failure on which a run gives up.  It does not look at the
replies to clearing and counting. -/
def Refused : (c : Call) → c.Reply → Prop
  | .index _ _, reply => ∃ e, reply = .error e
  | .mark _ _, reply => ∃ e, reply = .error e
  | .compute _ _ _, reply => ∀ es, reply ≠ some (.ok es)
  | _, _ => False

end Call

namespace Moment

variable {σ : Type} (answer : Backend σ)

def Refused (m : Moment σ Call) : Prop := m.request.Refused (answer m.state m.request).1

def RefusedEarly (m : Moment σ Call) : Prop := m.Refused answer ∧ ¬ m.request.Writes

end Moment

/-! ## The stages of a feed -/

abbrev Apply.overlaid (x : FeedIndex) (key : StoreKey) (es : List Entry) : Contents :=
  (x.feed key).contents.writeAll ((changedIn x key es).map Entry.stored)

/-- An index on the way from `x` to one whose feed has exactly the entries `es`. -/
inductive Passage (x : FeedIndex) (key : StoreKey) (es : List Entry) (y : FeedIndex) : Prop where
  | before (h : x.ChangedTo key (x.feed key).contents y)
  | overlaid (h : x.ChangedTo key (Apply.overlaid x key es) y)
  | after (h : x.ChangedTo key (Apply.contentsOf es) y)

/-- No other feed is touched, what stays is there, every score is an old or a new one, and
the feed is not empty unless it was or will be. -/
structure Unbroken (x : FeedIndex) (key : StoreKey) (es : List Entry) (y : FeedIndex) : Prop where
  others : ∀ key', key' ≠ key → y.feed key' = x.feed key'
  kept : ∀ id, x.score? key id ≠ none → id ∈ es.map Entry.id → y.score? key id ≠ none
  score : ∀ id score, y.score? key id = some score →
    x.score? key id = some score ∨ (⟨id, score⟩ : Entry) ∈ es.map Entry.stored
  nonempty : (x.feed key).entries ≠ [] → es ≠ [] → (y.feed key).entries ≠ []

namespace Passage

variable {x y : FeedIndex} {key : StoreKey} {es : List Entry}

theorem consistent (h : Passage x key es y) : y.Consistent := by
  cases h with
  | before h => exact h.consistent
  | overlaid h => exact h.consistent
  | after h => exact h.consistent

theorem others (h : Passage x key es y) (key' : StoreKey) (hkey : key' ≠ key) :
    y.feed key' = x.feed key' := by
  cases h with
  | before h => exact h.others key' hkey
  | overlaid h => exact h.others key' hkey
  | after h => exact h.others key' hkey

/-- An identifier has the score under which it comes, or the one it had, or it is gone
since it does not come. -/
theorem score?_or (h : Passage x key es y) (hes : Selection.Clean es) (id : ContentId) :
    (∃ score, (⟨id, score⟩ : Entry) ∈ es.map Entry.stored ∧ y.score? key id = some score) ∨
      y.score? key id = x.score? key id ∨
      y.score? key id = none ∧ id ∉ es.map Entry.id := by
  cases h with
  | before h =>
    right; left
    rw [h.score?_eq, x.score?_eq_lookup]
  | overlaid h =>
    rw [h.score?_eq, x.score?_eq_lookup]
    rcases Contents.lookup_writeAll_or (c := (x.feed key).contents)
      (Apply.nodup_stored (hes.filter _)) id with ⟨score, hmem, hscore⟩ | ⟨-, hscore⟩
    · left
      exact ⟨score, (List.filter_sublist.map _).subset hmem, hscore⟩
    · right; left
      exact hscore
  | after h =>
    rw [h.score?_eq]
    rcases Contents.lookup_writeAll_or (c := ∅) (Apply.nodup_stored hes) id with
      ⟨score, hmem, hscore⟩ | ⟨hid, hscore⟩
    · left
      exact ⟨score, hmem, hscore⟩
    · right; right
      rw [Apply.ids_stored] at hid
      rw [Finmap.lookup_empty] at hscore
      exact ⟨hscore, hid⟩

/-- Until everything is new, all that was there is. -/
theorem nonempty (h : Passage x key es y) (hx : x.Consistent) (hes : Selection.Clean es)
    (hold : (x.feed key).entries ≠ []) (hnew : es ≠ []) : (y.feed key).entries ≠ [] := by
  have hy := h.consistent
  rw [hx.entries_ne_nil_iff] at hold
  rw [hy.entries_ne_nil_iff]
  obtain ⟨id, hid⟩ := hold
  cases h with
  | before h =>
    refine ⟨id, ?_⟩
    rw [h.score?_eq, ← x.score?_eq_lookup]
    exact hid
  | overlaid h =>
    refine ⟨id, ?_⟩
    rw [h.score?_eq]
    rcases Contents.lookup_writeAll_or (c := (x.feed key).contents)
      (Apply.nodup_stored (hes.filter _)) id with ⟨score, -, hscore⟩ | ⟨-, hscore⟩
    · rw [hscore]
      exact Option.some_ne_none score
    · rw [hscore, ← x.score?_eq_lookup]
      exact hid
  | after h =>
    obtain ⟨e, he⟩ := List.exists_mem_of_ne_nil _ hnew
    refine ⟨e.id, ?_⟩
    rw [h.score?_eq, Apply.lookup_contentsOf_of_mem hes he]
    exact Option.some_ne_none _

theorem unbroken (h : Passage x key es y) (hx : x.Consistent) (hes : Selection.Clean es) :
    Unbroken x key es y where
  others := h.others
  kept id hold hnew := by
    rcases h.score?_or hes id with ⟨score, -, hscore⟩ | hsame | ⟨-, hgone⟩
    · rw [hscore]
      exact Option.some_ne_none score
    · rw [hsame]
      exact hold
    · exact absurd hnew hgone
  score id score hscore := by
    rcases h.score?_or hes id with ⟨score', hmem, hscore'⟩ | hsame | ⟨hnone, -⟩
    · rw [hscore] at hscore'
      obtain rfl := Option.some.inj hscore'
      exact Or.inr hmem
    · rw [hsame] at hscore
      exact Or.inl hscore
    · nomatch hscore.symm.trans hnone
  nonempty := h.nonempty hx hes

end Passage

/-! ## Carrying it out half-way -/

section Carrying

variable {σ : Type} {answer : Backend σ} {view : σ → FeedIndex} {s : σ} {x : FeedIndex}
  {key : StoreKey} {es : List Entry}

/-- A request that would change a feed's contents leaves them or makes that change, and makes
it where it succeeds. -/
theorem Backend.Falters.leads_change (h : Falters answer view) {P : FeedIndex → Prop}
    {c d : Contents} {r : IndexRequest} {a : r.Answer} (hc : x.ChangedTo key c (view s))
    (htold : Ledger.answer (view s).ledger key r =
      (.ok a, Function.update (view s).ledger key d))
    (hbefore : P (view s)) (hafter : ∀ y, x.ChangedTo key d y → P y) :
    Routine.Leads answer (fun t => P (view t)) (fun _ t => x.ChangedTo key d (view t)) s
      (askIndex key r) := by
  have hchanged := hc.consistent.changedTo_answer key r
  have hcontents : (Ledger.answer (view s).ledger key r).2 key = d := by
    rw [htold]
    exact Function.update_self ..
  rw [hcontents] at hchanged
  have hd := hc.trans hchanged
  constructor
  · refine Routine.staysIn_request hbefore ?_
    rcases h.request s key r with ⟨-, hview⟩ | ⟨-, hview | hview⟩
    · rw [hview]
      exact hafter _ hd
    · rw [hview]
      exact hbefore
    · rw [hview]
      exact hafter _ hd
  · intro b t hb
    have hreply : answer s (.index key r) = (.ok b, t) := hb
    rcases h.request s key r with ⟨-, hview⟩ | ⟨⟨e, herror⟩, -⟩
    · rw [hreply] at hview
      rw [hview]
      exact hd
    · rw [hreply] at herror
      nomatch herror

/-- Reading a feed leaves the index alone, whether or not it succeeds. -/
theorem Backend.Falters.view_entries (h : Falters answer view) (s : σ) (key : StoreKey) :
    view (answer s (.index key .entries)).2 = view s := by
  rcases h.request s key .entries with ⟨-, hview⟩ | ⟨-, hview | hview⟩
  · exact hview
  · exact hview
  · exact hview

theorem Backend.Falters.leads_entries (h : Falters answer view) {P : FeedIndex → Prop}
    (hs : P (view s)) (key : StoreKey) :
    Routine.Leads answer (fun t => P (view t))
      (fun existing t => existing = ((view s).feed key).entries ∧ view t = view s) s
      (askIndex key .entries) := by
  have hview := h.view_entries s key
  constructor
  · exact Routine.staysIn_request hs (hview ▸ hs)
  · intro existing t hread
    have hreply : answer s (.index key .entries) = (.ok existing, t) := hread
    rw [hreply] at hview
    refine ⟨?_, hview⟩
    rcases h.request s key .entries with ⟨htold, -⟩ | ⟨⟨e, herror⟩, -⟩
    · rw [hreply] at htold
      exact Except.ok.inj htold
    · rw [hreply] at herror
      nomatch herror

namespace Apply

theorem eraseAll_overlaid (hx : x.Consistent) (key : StoreKey) (hes : Selection.Clean es) :
    (overlaid x key es).eraseAll ((goneFrom x key es).map Entry.id) = contentsOf es := by
  rw [overlaid, changedIn, goneFrom, (hx key).entries_eq]
  exact difference_eq (hx key).stored_ascending hes

/-- The trim of a feed that has exactly the new entries leaves them all. -/
theorem exists_answer_trim (m : Ledger) (hm : m key = contentsOf es) (hes : Selection.Clean es)
    {capacity : Nat} (hfits : es.length ≤ capacity) :
    ∃ n, Ledger.answer m key (.trim capacity) = (.ok n, Function.update m key (contentsOf es)) := by
  have hkept : (contentsOf es).greatest capacity = contentsOf es := by
    refine Contents.greatest_of_size_le ?_
    rw [size_contentsOf hes]
    exact hfits
  refine ⟨_, Prod.ext rfl ?_⟩
  show Function.update m key ((m key).greatest capacity) = _
  rw [hm, hkept]

/-- In steps: each write leads from one stage to the next, the trim from the last to
itself.  A write that is left out would lead to the stage that is there already. -/
theorem leads_incremental (h : Backend.Falters answer view) (hx : (view s).Consistent)
    (key : StoreKey) (hes : Selection.Clean es) {capacity : Nat} (hfits : es.length ≤ capacity) :
    Routine.Leads answer (fun t => Passage (view s) key es (view t))
      (fun _ t => (view s).ChangedTo key (contentsOf es) (view t)) s
      (incremental capacity key es) := by
  have hfinite : ∀ e ∈ changedIn (view s) key es, e.score.isFinite = true := (hes.filter _).finite
  have herase := eraseAll_overlaid hx key hes
  unfold incremental
  refine (h.leads_entries (P := Passage (view s) key es) (.before (hx.changedTo_self key))
    key).bind ?_
  rintro existing s₁ ⟨rfl, hview₁⟩
  dsimp only
  have hbefore : (view s).ChangedTo key ((view s).feed key).contents (view s₁) :=
    hview₁ ▸ hx.changedTo_self key
  refine Routine.Leads.step (J := fun t => (view s).ChangedTo key (overlaid (view s) key es) (view t))
    (fun _ => ?_) (fun hempty => ?_) fun s₂ hoverlaid => ?_
  · have hwrite : Ledger.answer (view s₁).ledger key (.upsertMany (changedIn (view s) key es)) =
        (.ok (), Function.update (view s₁).ledger key (overlaid (view s) key es)) := by
      rw [overlaid, ← hbefore.contents]
      exact Ledger.store_of_finite _ key _ hfinite
    exact h.leads_change (P := Passage (view s) key es) hbefore hwrite (.before hbefore)
      fun y => .overlaid
  · have hnone : changedIn (view s) key es = [] := eq_nil_of_not_isEmpty hempty
    rw [overlaid, hnone]
    exact hbefore
  refine Routine.Leads.step (J := fun t => (view s).ChangedTo key (contentsOf es) (view t))
    (fun _ => ?_) (fun hempty => ?_) fun s₃ hafter => ?_
  · have hremove : Ledger.answer (view s₂).ledger key
        (.removeMany ((goneFrom (view s) key es).map Entry.id)) =
          (.ok (), Function.update (view s₂).ledger key (contentsOf es)) := by
      rw [← herase, ← hoverlaid.contents]
      rfl
    exact h.leads_change (P := Passage (view s) key es) hoverlaid hremove (.overlaid hoverlaid)
      fun y => .after
  · have hnone : (goneFrom (view s) key es).map Entry.id = [] := eq_nil_of_not_isEmpty hempty
    rw [hnone] at herase
    rw [← herase]
    exact hoverlaid
  obtain ⟨n, htrim⟩ := exists_answer_trim (view s₃).ledger hafter.contents hes hfits
  refine (h.leads_change (P := Passage (view s) key es) hafter htrim (.after hafter)
    fun y => .after).bind fun _ s₄ hend => ?_
  exact Routine.leads_pure (.after hend) hend

/-- At once: the only write leads from the first stage to the last. -/
theorem leads_swap (h : Backend.Falters answer view) (hx : (view s).Consistent)
    (key : StoreKey) (hes : Selection.Clean es) :
    Routine.Leads answer (fun t => Passage (view s) key es (view t))
      (fun _ t => (view s).ChangedTo key (contentsOf es) (view t)) s (swap key es) := by
  unfold swap
  refine (h.leads_entries (P := Passage (view s) key es) (.before (hx.changedTo_self key))
    key).bind ?_
  rintro existing s₁ ⟨-, hview₁⟩
  have hbefore : (view s).ChangedTo key ((view s).feed key).contents (view s₁) :=
    hview₁ ▸ hx.changedTo_self key
  have hstored := Ledger.store_of_finite (view s₁).ledger key ∅ hes.finite
  refine (h.leads_change (P := Passage (view s) key es) (r := .replace es) hbefore hstored
    (.before hbefore) fun y => .after).bind fun _ s₂ hend => ?_
  exact Routine.leads_pure (.after hend) hend

theorem leads_apply (h : Backend.Falters answer view) (hx : (view s).Consistent)
    (mode : ApplyMode) (key : StoreKey) (hes : Selection.Clean es) {capacity : Nat}
    (hfits : es.length ≤ capacity) :
    Routine.Leads answer (fun t => Passage (view s) key es (view t))
      (fun _ t => (view s).ChangedTo key (contentsOf es) (view t)) s
      (apply mode capacity key es) := by
  cases mode with
  | incremental => exact leads_incremental h hx key hes hfits
  | swap => exact leads_swap h hx key hes

theorem blames_askIndex (key : StoreKey) (r : IndexRequest) (s : σ) :
    Routine.Blames answer (Moment.Refused answer) s (askIndex key r) :=
  fun e h => ⟨⟨s, .index key r⟩, List.mem_singleton_self _, e, h⟩

theorem MadeOf.blames {α : Type} {sort : IndexRequest → Prop} {a : Attempt StoreError α}
    (h : MadeOf key sort a) (s : σ) : Routine.Blames answer (Moment.Refused answer) s a := by
  induction h generalizing s with
  | ended x => exact Routine.blames_pure
  | asked _ _ ih => exact (blames_askIndex _ _ s).bind fun a s' => ih a s'

/-- If entries cannot be brought in then a request about the feed has failed. -/
theorem blames_apply (mode : ApplyMode) (capacity : Nat) (key : StoreKey) (es : List Entry)
    (s : σ) : Routine.Blames answer (Moment.Refused answer) s (apply mode capacity key es) := by
  obtain ⟨rest, heq, hrest⟩ := apply_eq_bind mode capacity key es
  rw [heq]
  exact (blames_askIndex _ _ s).bind fun existing s' => (hrest existing).blames s'

/-- A feed that cannot be read is not written. -/
theorem stopsAt_apply (h : Backend.Falters answer view) (mode : ApplyMode) (capacity : Nat)
    (key : StoreKey) (es : List Entry) (s : σ) :
    Routine.StopsAt answer (Moment.RefusedEarly answer) (fun t => view t = view s) s
      (apply mode capacity key es) := by
  obtain ⟨rest, heq, hrest⟩ := apply_eq_bind mode capacity key es
  rw [heq]
  refine Routine.StopsAt.bind (fun m hm hrefused => ?_) fun existing s' _ => ?_
  · obtain rfl : m = ⟨s, .index key .entries⟩ := List.mem_singleton.mp hm
    exact ⟨hrefused.1, h.view_entries s key⟩
  · refine Routine.stopsAt_of_asks (hrest existing).asks ?_
    rintro m ⟨r, hr, hm⟩ hrefused
    exact hrefused.2 (hm ▸ hr)

end Apply

end Carrying

/-! ## A run -/

namespace Worker

variable {σ : Type} {answer : Backend σ} {view : σ → FeedIndex} {w : Worker} {kind : FeedKind}
  {subject : Subject} {computed : List Entry} {s : σ}

/-- If the source computes anything in this state it is these entries. -/
def Gathers (answer : Backend σ) (w : Worker) (kind : FeedKind) (subject : Subject)
    (computed : List Entry) (s : σ) : Prop :=
  ∀ es, (answer s (.compute kind subject w.settings.timeoutSeconds)).1 = some (.ok es) →
    es = computed

theorem leads_compute (h : Backend.Falters answer view) {P : FeedIndex → Prop} (hs : P (view s))
    (hcomputed : w.Gathers answer kind subject computed s) :
    Routine.Leads answer (fun t => P (view t))
      (fun es t => es = w.selected computed ∧ view t = view s) s (w.compute kind subject) := by
  have hview := h.other s (.compute kind subject w.settings.timeoutSeconds)
    (fun key r => Call.noConfusion)
  have hasked : Routine.StaysIn answer (fun t => P (view t)) s
      (Routine.request (Call.compute kind subject w.settings.timeoutSeconds) :
        Work (Option (Except ServiceError (List Entry)))) :=
    Routine.staysIn_request hs (hview ▸ hs)
  unfold compute
  cases w.hasSource kind with
  | false => exact Routine.leads_throw hs
  | true =>
    refine (Routine.leads_liftRoutine hasked).bind fun reply t hreply => ?_
    rw [Routine.run_request] at hreply
    have ht : view t = view s := by
      rw [hreply] at hview
      exact hview
    match reply, hreply with
    | none, _ => exact Routine.leads_throw (ht ▸ hs)
    | some (.error e), _ => exact Routine.leads_throw (ht ▸ hs)
    | some (.ok es), hreply =>
      have hes := hcomputed es (congrArg Prod.fst hreply)
      refine Routine.leads_pure (ht ▸ hs) ⟨?_, ht⟩
      rw [hes]
      rfl

theorem staysIn_computeAndApply (h : Backend.Falters answer view) (hs : (view s).Consistent)
    (hcomputed : w.Gathers answer kind subject computed s) :
    Routine.StaysIn answer
      (fun t => Passage (view s) (.index kind subject) (w.selected computed) (view t)) s
      (w.computeAndApply kind subject).run := by
  have hbefore : Passage (view s) (.index kind subject) (w.selected computed) (view s) :=
    .before (hs.changedTo_self _)
  have hclean := w.clean_selected computed
  have hfits : (w.selected computed).length ≤ w.settings.capacity := Selection.length_top_le _ _
  have hall : Routine.Leads answer
      (fun t => Passage (view s) (.index kind subject) (w.selected computed) (view t))
      (fun _ _ => True) s (w.computeAndApply kind subject) := by
    unfold computeAndApply
    refine (leads_compute (P := Passage (view s) _ (w.selected computed)) h hbefore
      hcomputed).bind ?_
    rintro es t ⟨rfl, ht⟩
    have happly := Apply.leads_apply h (ht ▸ hs) w.settings.applyMode (.index kind subject)
      hclean hfits
    rw [ht] at happly
    exact (happly.mapError _).bind fun done u hend => Routine.leads_pure (.after hend) trivial
  exact hall.staysIn

/-- The source computes entries, or its reply is a failure and so is the outcome. -/
theorem attempt_compute_or (hsource : w.hasSource kind = true) (s : σ) :
    (∃ es, Routine.attempt answer s (w.compute kind subject) =
        (.ok es, (answer s (.compute kind subject w.settings.timeoutSeconds)).2) ∧
      ¬ (Call.compute kind subject w.settings.timeoutSeconds).Refused
        (answer s (.compute kind subject w.settings.timeoutSeconds)).1) ∨
    (∃ e, Routine.attempt answer s (w.compute kind subject) =
        (.error e, (answer s (.compute kind subject w.settings.timeoutSeconds)).2)) ∧
      (Call.compute kind subject w.settings.timeoutSeconds).Refused
        (answer s (.compute kind subject w.settings.timeoutSeconds)).1 := by
  have hasked := Routine.attempt_liftRoutine (ε := RunError) answer s (Routine.request
    (Call.compute kind subject w.settings.timeoutSeconds) :
      Work (Option (Except ServiceError (List Entry))))
  rw [Routine.run_request] at hasked
  unfold compute
  rw [hsource]
  generalize answer s (.compute kind subject w.settings.timeoutSeconds) = replied at hasked ⊢
  obtain ⟨reply, s'⟩ := replied
  match reply with
  | none =>
    refine Or.inr ⟨⟨_, Routine.attempt_bind_ok hasked⟩, fun es hes => ?_⟩
    nomatch hes
  | some (.error e) =>
    refine Or.inr ⟨⟨_, Routine.attempt_bind_ok hasked⟩, fun es hes => ?_⟩
    nomatch hes
  | some (.ok es) =>
    exact Or.inl ⟨_, Routine.attempt_bind_ok hasked, fun hrefused => hrefused es rfl⟩

theorem blames_computeAndApply (hsource : w.hasSource kind = true) (s : σ) :
    Routine.Blames answer (Moment.Refused answer) s (w.computeAndApply kind subject) := by
  unfold computeAndApply
  refine Routine.Blames.bind (fun e hfailed => ?_) fun es t => ?_
  · rcases attempt_compute_or hsource s with ⟨es, hattempt, -⟩ | ⟨-, hrefused⟩
    · rw [hattempt] at hfailed
      nomatch hfailed
    · refine ⟨⟨s, .compute kind subject w.settings.timeoutSeconds⟩, ?_, hrefused⟩
      rw [course_compute, if_pos hsource]
      exact List.mem_singleton_self _
  · exact ((Apply.blames_apply _ _ _ es t).mapError _).bind fun done u => Routine.blames_pure

/-- Without entries, and without knowing what the feed holds, nothing is written. -/
theorem stopsAt_computeAndApply (h : Backend.Falters answer view) (s : σ) :
    Routine.StopsAt answer (Moment.RefusedEarly answer) (fun t => view t = view s) s
      (w.computeAndApply kind subject) := by
  have hview := h.other s (.compute kind subject w.settings.timeoutSeconds)
    (fun key r => Call.noConfusion)
  unfold computeAndApply
  cases hsource : w.hasSource kind with
  | false =>
    have hnone : w.compute kind subject = throw (.noSource kind) := by
      unfold compute
      rw [hsource]
      rfl
    rw [hnone]
    exact fun m hm => absurd hm List.not_mem_nil
  | true =>
    refine Routine.StopsAt.bind (fun m hm hrefused => ?_) fun es t hcompute => ?_
    · rw [course_compute, if_pos hsource, List.mem_singleton] at hm
      obtain rfl := hm
      rcases attempt_compute_or hsource s with ⟨es, -, hnot⟩ | ⟨⟨e, hattempt⟩, -⟩
      · exact absurd hrefused.1 hnot
      · rw [hattempt]
        exact ⟨⟨e, rfl⟩, hview⟩
    · have ht : view t = view s := by
        rcases attempt_compute_or hsource s with ⟨es', hattempt, -⟩ | ⟨⟨e, hattempt⟩, -⟩
        · have hend : (answer s (.compute kind subject w.settings.timeoutSeconds)).2 = t :=
            congrArg Prod.snd (hattempt.symm.trans hcompute)
          rw [← hend]
          exact hview
        · nomatch congrArg Prod.fst (hattempt.symm.trans hcompute)
      have happly := Apply.stopsAt_apply h w.settings.applyMode w.settings.capacity
        (.index kind subject) es t
      rw [ht] at happly
      refine (happly.mapError _).bind fun done u _ => ?_
      exact fun m hm => absurd hm List.not_mem_nil

/-- Counting leaves the index alone. -/
theorem staysIn_tally (h : Backend.Falters answer view) {P : FeedIndex → Prop}
    {result : Except RunError Report} (hs : P (view s)) :
    Routine.StaysIn answer (fun t => P (view t)) s (tally kind result) := by
  refine (asks_tally kind result).staysIn ?_ hs
  rintro t c ⟨metric, n, rfl⟩ ht
  rw [h.other t (.count metric n) (fun key r => Call.noConfusion)]
  exact ht

theorem staysIn_settle (h : Backend.Falters answer view) {P : FeedIndex → Prop} {α : Type}
    {seconds : Nat} {work : Work (Except RunError α)} (hs : P (view s))
    (hwork : Routine.StaysIn answer (fun t => P (view t))
      (answer s (.mark subject seconds)).2 work) :
    Routine.StaysIn answer (fun t => P (view t)) s
      ((underMark seconds subject work).bind settle) := by
  have hmark := h.other s (.mark subject seconds) (fun key r => Call.noConfusion)
  cases hreply : (answer s (.mark subject seconds)).1 with
  | error e =>
    obtain ⟨hcourse, hrun⟩ := settle_refused subject work hreply
    refine ⟨fun m hm => ?_, ?_⟩
    · rw [hcourse, List.mem_singleton] at hm
      rw [hm]
      exact hs
    · rw [hrun]
      show P (view (answer s (.mark subject seconds)).2)
      rw [hmark]
      exact hs
  | ok =>
    refine ⟨fun m hm => ?_, ?_⟩
    · rw [course_settle subject work hreply, List.mem_cons, List.mem_append,
        List.mem_singleton] at hm
      rcases hm with rfl | hm | rfl
      · exact hs
      · exact hwork.1 m hm
      · exact hwork.2
    · rw [run_settle subject work hreply]
      show P (view (answer _ (.clear subject)).2)
      rw [h.other _ (.clear subject) (fun key r => Call.noConfusion)]
      exact hwork.2

theorem staysIn_run (h : Backend.Falters answer view) (hs : (view s).Consistent)
    (hcomputed : w.Gathers answer kind subject computed
      (answer s (.mark subject w.settings.markSeconds)).2) :
    Routine.StaysIn answer
      (fun t => Passage (view s) (.index kind subject) (w.selected computed) (view t)) s
      (w.run kind subject) := by
  have hmark := h.other s (.mark subject w.settings.markSeconds) (fun key r => Call.noConfusion)
  have hdone := staysIn_computeAndApply h (hmark.symm ▸ hs) hcomputed
  rw [hmark] at hdone
  rw [run_eq_underMark]
  refine staysIn_settle (P := Passage (view s) _ _) h (.before (hs.changedTo_self _)) ?_
  exact Routine.StaysIn.bind hdone (staysIn_tally (P := Passage (view s) _ _) h hdone.2)

theorem run_tally (result : Except RunError Report) (s : σ) :
    ((tally kind result).run answer s).1 = result := rfl

/-- A run that fails has no source, or one of its requests has failed. -/
theorem exists_refused (w : Worker) {e : RunError}
    (hfailed : ((w.run kind subject).run answer s).1 = .error e) :
    w.hasSource kind = false ∨
      ∃ m ∈ (w.run kind subject).course answer s, m.Refused answer := by
  cases hsource : w.hasSource kind with
  | false => exact Or.inl rfl
  | true =>
    right
    rw [run_eq_underMark] at hfailed ⊢
    cases hreply : (answer s (.mark subject w.settings.markSeconds)).1 with
    | error e' =>
      rw [(settle_refused subject _ hreply).1]
      exact ⟨_, List.mem_singleton_self _, e', hreply⟩
    | ok =>
      rw [run_settle subject _ hreply, regenerate_eq_bind, Routine.run_bind, run_tally] at hfailed
      obtain ⟨m, hm, hrefused⟩ := blames_computeAndApply hsource _ e hfailed
      refine ⟨m, ?_, hrefused⟩
      rw [course_settle subject _ hreply, regenerate_eq_bind, Routine.course_bind]
      exact List.mem_cons_of_mem _ (List.mem_append_left _ (List.mem_append_left _ hm))

/-- The index is left as the computation leaves it. -/
theorem view_run (h : Backend.Falters answer view) (w : Worker) (s : σ)
    (hmarked : (answer s (.mark subject w.settings.markSeconds)).1 = .ok ()) :
    view ((w.run kind subject).run answer s).2 =
      view (Routine.attempt answer (answer s (.mark subject w.settings.markSeconds)).2
        (w.computeAndApply kind subject)).2 := by
  rw [run_eq_underMark, run_settle subject _ hmarked,
    h.other _ (.clear subject) (fun key r => Call.noConfusion), regenerate_eq_bind,
    Routine.run_bind]
  exact (staysIn_tally (P := (· = view _)) h rfl).2

/-- A run that fails before its first write leaves the index as it is. -/
theorem view_run_of_refusedEarly (h : Backend.Falters answer view) (w : Worker) (s : σ)
    (hearly : w.hasSource kind = false ∨
      ∃ m ∈ (w.run kind subject).course answer s, m.RefusedEarly answer) :
    view ((w.run kind subject).run answer s).2 = view s := by
  have hmark := h.other s (.mark subject w.settings.markSeconds) (fun key r => Call.noConfusion)
  cases hreply : (answer s (.mark subject w.settings.markSeconds)).1 with
  | error e =>
    rw [run_eq_underMark, (settle_refused subject _ hreply).2]
    exact hmark
  | ok =>
    rw [view_run h w s hreply, ← hmark]
    rcases hearly with hnone | ⟨m, hm, hrefused⟩
    · unfold computeAndApply compute
      rw [hnone]
      rfl
    · have hstops : Routine.StopsAt answer (Moment.RefusedEarly answer)
          (fun t => view t = view (answer s (.mark subject w.settings.markSeconds)).2) _
          (w.computeAndApply kind subject) := stopsAt_computeAndApply h _
      rw [run_eq_underMark, course_settle subject _ hreply, regenerate_eq_bind,
        Routine.course_bind, List.mem_cons, List.mem_append, List.mem_append,
        List.mem_singleton] at hm
      rcases hm with rfl | (hm | hm) | rfl
      · obtain ⟨e, herror⟩ := hrefused.1
        nomatch hreply.symm.trans herror
      · exact (hstops m hm hrefused).2
      · obtain ⟨metric, n, hcount⟩ := (asks_tally kind _).of_mem_course hm
        have hnot := hrefused.1
        unfold Moment.Refused at hnot
        rw [hcount] at hnot
        exact hnot.elim
      · exact hrefused.1.elim

/-- A run that fails has no source, or a request of it has failed.  Where it failed before
its first write the index is as before.  And whatever fails, at every moment and at the end
the feed holds what it held before, or that with the changed entries over it, or exactly the
new ones, so that nothing in it is broken. -/
theorem run_never_breaks_feed (h : Backend.Falters answer view) (hs : (view s).Reachable)
    (hcomputed : w.Gathers answer kind subject computed
      (answer s (.mark subject w.settings.markSeconds)).2) :
    (∀ e, ((w.run kind subject).run answer s).1 = .error e →
      w.hasSource kind = false ∨
        ∃ m ∈ (w.run kind subject).course answer s, m.Refused answer) ∧
    ((w.hasSource kind = false ∨
        ∃ m ∈ (w.run kind subject).course answer s, m.RefusedEarly answer) →
      view ((w.run kind subject).run answer s).2 = view s) ∧
    Routine.StaysIn answer
      (fun t => Passage (view s) (.index kind subject) (w.selected computed) (view t) ∧
        Unbroken (view s) (.index kind subject) (w.selected computed) (view t)) s
      (w.run kind subject) := by
  have hstays := staysIn_run h hs.consistent hcomputed
  have hunbroken : ∀ y, Passage (view s) (.index kind subject) (w.selected computed) y →
      Unbroken (view s) (.index kind subject) (w.selected computed) y :=
    fun y hy => hy.unbroken hs.consistent (w.clean_selected computed)
  refine ⟨fun e => w.exists_refused, view_run_of_refusedEarly h w s, fun m hm => ?_, ?_⟩
  · have hstage := hstays.1 m hm
    exact ⟨hstage, hunbroken _ hstage⟩
  · exact ⟨hstays.2, hunbroken _ hstays.2⟩

def clinging : Backend Backend.Setting :=
  Backend.faulty
    (fun c => match c with
      | .index _ (.removeMany _) => some (.lost (.backend "connection reset"))
      | _ => none)
    (fun _ => some (.ok rescored))

def previously : Backend.Setting := ⟨(Keeper.run FeedIndex.answer previousCalls ∅).2, ∅, 0⟩

/-- The run fails after its first write, and what stays is in the feed all along. -/
theorem run_never_breaks_feed_clinging :
    ((homeWorker.run .home (.account 7)).run clinging previously).1 =
        .error (.store (.backend "connection reset")) ∧
      (((homeWorker.run .home (.account 7)).run clinging previously).2.index.feed
        (.index .home (.account 7))).entries = [⟨1, Score.zero⟩, ⟨4, ⟨7⟩⟩, ⟨2, ⟨9⟩⟩] ∧
      ∀ m ∈ (homeWorker.run .home (.account 7)).course clinging previously,
        m.state.index.score? (.index .home (.account 7)) 1 ≠ none := by
  have hcomputed : homeWorker.Gathers clinging .home (.account 7) rescored
      (clinging previously (.mark (.account 7) homeWorker.settings.markSeconds)).2 := by
    intro es hes
    exact (Except.ok.inj (Option.some.inj hes)).symm
  obtain ⟨-, -, hmoments, -⟩ := run_never_breaks_feed (s := previously)
    (Backend.falters_faulty _ _) ⟨previousCalls, rfl⟩ hcomputed
  refine ⟨by decide +kernel, by decide +kernel, fun m hm => ?_⟩
  obtain ⟨-, hunbroken⟩ := hmoments m hm
  exact hunbroken.kept 1 (by decide +kernel) (by decide +kernel)

end Worker
end WarmFeed
