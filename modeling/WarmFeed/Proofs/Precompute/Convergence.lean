import WarmFeed.Proofs.Interleaving
import WarmFeed.Proofs.Precompute.Passage

/-!
# Runs that bring in the same

Runs of one kind for one subject are not kept from overlapping.  Each of them finds out
what its feed lacks and goes on from there, while others change the feed under it.  That
does no harm as long as all of them bring in the same entries: none of them ever takes back
one of these entries or adds any other.  So what one of them found to be as it should be
stays so, and when the first of them is done the feed holds just these entries for good.
-/

namespace WarmFeed

theorem Selection.Clean.perm {es es' : List Entry} (h : Clean es) (hp : es.Perm es') :
    Clean es' where
  finite e he := h.finite e (hp.mem_iff.mpr he)
  nodup := (hp.map Entry.id).nodup_iff.mp h.nodup

abbrev Apply.stale (existing computed : List Entry) : List ContentId :=
  (existing.filter fun e => !mentions computed e.id).map Entry.id

namespace Contents

variable {c d : Contents} {es : List Entry}

/-- What `c` has in common with exactly the entries `es`, `d` has too. -/
structure Nears (es : List Entry) (c d : Contents) : Prop where
  held : ∀ e ∈ es, c.lookup e.id = some e.stored.score → d.lookup e.id = some e.stored.score
  gone : ∀ id, id ∉ es.map Entry.id → c.lookup id = none → d.lookup id = none

theorem Nears.refl (es : List Entry) (c : Contents) : c.Nears es c :=
  ⟨fun _ _ h => h, fun _ _ h => h⟩

theorem Nears.trans {b : Contents} (h : b.Nears es c) (h' : c.Nears es d) : b.Nears es d where
  held e he hb := h'.held e he (h.held e he hb)
  gone id hid hb := h'.gone id hid (h.gone id hid hb)

/-- The feed holds exactly the entries `es`, apart from some that may be missing and some
identifiers that may still be there. -/
structure Lacks (es missing : List Entry) (stale : List ContentId) (c : Contents) : Prop where
  held : ∀ e ∈ es, e ∉ missing → c.lookup e.id = some e.stored.score
  gone : ∀ id, id ∉ es.map Entry.id → id ∉ stale → c.lookup id = none

variable {missing : List Entry} {stale : List ContentId}

theorem Lacks.nears (h : c.Lacks es missing stale) (hd : c.Nears es d) :
    d.Lacks es missing stale where
  held e he hmissing := hd.held e he (h.held e he hmissing)
  gone id hid hstale := hd.gone id hid (h.gone id hid hstale)

/-- Whatever a feed holds, everything may be missing and whatever is there may be stale. -/
theorem lacks_all (c : Contents) (es : List Entry) :
    c.Lacks es es (c.entryList.map Entry.id) where
  held _ he hmissing := absurd he hmissing
  gone id _ hstale := by
    cases hlookup : c.lookup id with
    | none => rfl
    | some score =>
      have hmem : (⟨id, score⟩ : Entry) ∈ c.entryList := mem_entryList.mpr hlookup
      exact absurd (List.mem_map_of_mem (f := Entry.id) hmem) hstale

/-- What a run finds different is missing, and what it does not know is stale. -/
theorem lacks_difference (hc : ∀ p ∈ c.ascending, p.score.IsStored) {computed : List Entry}
    (hcomputed : Selection.Clean computed) (hsame : computed.Perm es) :
    c.Lacks es (computed.filter (Apply.differs c.entryList))
      (Apply.stale c.entryList computed) where
  held e he hmissing := by
    have hmem := hsame.mem_iff.mpr he
    by_contra hlookup
    refine hmissing (List.mem_filter.mpr ⟨hmem, ?_⟩)
    rwa [Apply.differs_iff hc (hcomputed.finite e hmem)]
  gone id hid hstale := by
    refine (c.lacks_all es).gone id hid fun hthere => hstale ?_
    obtain ⟨e, he, rfl⟩ := List.mem_map.mp hthere
    refine List.mem_map.mpr ⟨e, List.mem_filter.mpr ⟨he, ?_⟩, rfl⟩
    rwa [Bool.not_eq_true', ← Bool.not_eq_true, Apply.mentions_iff,
      (hsame.map Entry.id).mem_iff]

/-! ## What a run may do to a feed -/

/-- Some of the entries are written, perhaps once more. -/
theorem nears_writeAll (c : Contents) (hmissing : Selection.Clean missing)
    (hsub : ∀ e ∈ missing, e ∈ es) (hes : Selection.Clean es) :
    c.Nears es (c.writeAll (missing.map Entry.stored)) where
  held e he hc := by
    rcases lookup_writeAll_or (c := c) (Apply.nodup_stored hmissing) e.id with
      ⟨score, hmem, hscore⟩ | ⟨-, hscore⟩
    · obtain ⟨e', he', hstored⟩ := List.mem_map.mp hmem
      obtain ⟨hid, rfl⟩ := Entry.mk.inj hstored
      obtain rfl := List.inj_on_of_nodup_map hes.nodup (hsub e' he') he hid
      exact hscore
    · rw [hscore, hc]
  gone id hid hc := by
    rw [lookup_writeAll_of_notMem, hc]
    rw [Apply.ids_stored]
    intro hmem
    obtain ⟨e, he, rfl⟩ := List.mem_map.mp hmem
    exact hid (List.mem_map_of_mem (hsub e he))

theorem Lacks.writeAll (h : c.Lacks es missing stale) (hmissing : Selection.Clean missing)
    (hsub : ∀ e ∈ missing, e ∈ es) (hes : Selection.Clean es) :
    (c.writeAll (missing.map Entry.stored)).Lacks es [] stale where
  held e he _ := by
    by_cases hwritten : e ∈ missing
    · exact lookup_writeAll_of_mem (Apply.nodup_stored hmissing)
        (List.mem_map_of_mem (f := Entry.stored) hwritten)
    · exact (nears_writeAll c hmissing hsub hes).held e he (h.held e he hwritten)
  gone := (h.nears (nears_writeAll c hmissing hsub hes)).gone

/-- Identifiers that do not belong there are removed, if they are still there. -/
theorem nears_eraseAll (c : Contents) (hstale : ∀ id ∈ stale, id ∉ es.map Entry.id) :
    c.Nears es (c.eraseAll stale) where
  held e he hc := by
    rw [lookup_eraseAll, if_neg fun hmem => hstale e.id hmem (List.mem_map_of_mem he), hc]
  gone id _ hc := by
    rw [lookup_eraseAll, hc, ite_self]

theorem Lacks.eraseAll (h : c.Lacks es missing stale)
    (hstale : ∀ id ∈ stale, id ∉ es.map Entry.id) :
    (c.eraseAll stale).Lacks es missing [] where
  held := (h.nears (nears_eraseAll c hstale)).held
  gone id hid _ := by
    rw [lookup_eraseAll]
    by_cases hmem : id ∈ stale
    · rw [if_pos hmem]
    · rw [if_neg hmem, h.gone id hid hmem]

theorem lacks_contentsOf {computed : List Entry} (hcomputed : Selection.Clean computed)
    (hsame : computed.Perm es) : (Apply.contentsOf computed).Lacks es [] [] where
  held e he _ := Apply.lookup_contentsOf_of_mem hcomputed (hsame.mem_iff.mpr he)
  gone id hid _ := by
    rw [Apply.contentsOf, lookup_writeAll_of_notMem, Finmap.lookup_empty]
    rwa [Apply.ids_stored, (hsame.map Entry.id).mem_iff]

/-- Nothing is missing and nothing is stale just if the feed holds exactly these entries. -/
theorem Lacks.eq_contentsOf (h : c.Lacks es [] []) (hes : Selection.Clean es) :
    c = Apply.contentsOf es := by
  have hexact := lacks_contentsOf hes (List.Perm.refl es)
  apply Finmap.ext_lookup
  intro id
  by_cases hid : id ∈ es.map Entry.id
  · obtain ⟨e, he, rfl⟩ := List.mem_map.mp hid
    rw [h.held e he List.not_mem_nil, hexact.held e he List.not_mem_nil]
  · rw [h.gone id hid List.not_mem_nil, hexact.gone id hid List.not_mem_nil]

/-- However a feed came by exactly these entries, that is what every run has in mind. -/
theorem nears_of_lacks (h : d.Lacks es [] []) (c : Contents) : c.Nears es d where
  held e he _ := h.held e he List.not_mem_nil
  gone id hid _ := h.gone id hid List.not_mem_nil

end Contents
namespace FeedIndex

variable {x y z : FeedIndex} {key : StoreKey} {es missing : List Entry} {stale : List ContentId}

/-- What runs that bring in `es` may make of an index. -/
structure Nears (key : StoreKey) (es : List Entry) (x y : FeedIndex) : Prop where
  consistent : x.Consistent → y.Consistent
  others : ∀ key', key' ≠ key → y.feed key' = x.feed key'
  contents : (x.feed key).contents.Nears es (y.feed key).contents

theorem Nears.refl (key : StoreKey) (es : List Entry) (x : FeedIndex) : Nears key es x x :=
  ⟨id, fun _ _ => rfl, .refl es _⟩

theorem Nears.trans (h : Nears key es x y) (h' : Nears key es y z) : Nears key es x z where
  consistent hx := h'.consistent (h.consistent hx)
  others key' hkey := (h'.others key' hkey).trans (h.others key' hkey)
  contents := h.contents.trans h'.contents

theorem ChangedTo.nears {c : Contents} (h : x.ChangedTo key c y)
    (hc : (x.feed key).contents.Nears es c) : Nears key es x y where
  consistent _ := h.consistent
  others := h.others
  contents := h.contents.symm ▸ hc

structure Lacks (key : StoreKey) (es missing : List Entry) (stale : List ContentId)
    (x : FeedIndex) : Prop where
  consistent : x.Consistent
  contents : (x.feed key).contents.Lacks es missing stale

theorem Lacks.nears (h : x.Lacks key es missing stale) (hy : Nears key es x y) :
    y.Lacks key es missing stale :=
  ⟨hy.consistent h.consistent, h.contents.nears hy.contents⟩

/-- The feed holds exactly the entries `es`, each with the score that is stored for its own. -/
structure Settled (key : StoreKey) (es : List Entry) (x : FeedIndex) : Prop where
  clean : Selection.Clean es
  lacks : x.Lacks key es [] []

theorem Settled.nears (h : x.Settled key es) (hy : Nears key es x y) : y.Settled key es :=
  ⟨h.clean, h.lacks.nears hy⟩

theorem Settled.contents (h : x.Settled key es) :
    (x.feed key).contents = Apply.contentsOf es := h.lacks.contents.eq_contentsOf h.clean

theorem Settled.entries_perm (h : x.Settled key es) :
    (x.feed key).entries.Perm (es.map Entry.stored) := by
  rw [(h.lacks.consistent key).entries_eq, h.contents]
  exact Contents.entryList_writeAll_perm (Apply.nodup_stored h.clean)

/-- A request that reads is answered from the contents of its feed alone. -/
theorem answer_read {m m' : Ledger} (hm : m key = m' key) {r : IndexRequest} (hr : ¬ r.IsWrite) :
    (Ledger.answer m key r).1 = (Ledger.answer m' key r).1 := by
  cases r with
  | rank id => simp only [Ledger.answer, hm]
  | score id => simp only [Ledger.answer, hm]
  | range q => simp only [Ledger.answer, hm]
  | rankWindow offset limit => simp only [Ledger.answer, hm]
  | entries => simp only [Ledger.answer, hm]
  | size => simp only [Ledger.answer, hm]
  | _ => exact absurd trivial hr

theorem Settled.answer_eq (h : x.Settled key es) {r : IndexRequest} (hr : ¬ r.IsWrite) :
    (x.answer key r).1 = (Ledger.answer (fun _ => Apply.contentsOf es) key r).1 := by
  rw [(answer_eq_ledger h.lacks.consistent key r).1]
  exact answer_read h.contents hr

end FeedIndex

/-! ## Keeping to it -/

/-- Nobody takes back one of the entries `es` or adds any other to the feed. -/
def settling {σ : Type} (view : σ → FeedIndex) (key : StoreKey) (es : List Entry) : Pact σ where
  allows s t := FeedIndex.Nears key es (view s) (view t)
  refl s := .refl key es (view s)
  trans := .trans

def Call.Completes (key : StoreKey) : Call → Prop
  | .index key' (.trim _) => key' = key
  | .index key' (.replace _) => key' = key
  | _ => False

/-- A trim drops nothing, and after the last write of a run the feed is settled. -/
structure Moment.Tidy {σ : Type} (answer : Backend σ) (view : σ → FeedIndex) (key : StoreKey)
    (es : List Entry) (m : Moment σ Call) : Prop where
  trim : ∀ capacity, m.request = .index key (.trim capacity) →
    (answer m.state (.index key (.trim capacity))).1 = .ok 0 ∧
      view (answer m.state m.request).2 = view m.state
  completed : m.request.Completes key → (view (answer m.state m.request).2).Settled key es

section Carrying

variable {σ : Type} {answer : Backend σ} {view : σ → FeedIndex} {s : σ} {key : StoreKey}
  {es computed missing : List Entry} {stale : List ContentId}

/-- A request to the feed by a run that knows what it lacks. -/
theorem attempts_askIndex (h : Backend.HoldsIndex answer view)
    (hs : (view s).Lacks key es missing stale) {r : IndexRequest}
    {J : r.Answer → FeedIndex → Prop}
    (hr : ∀ t, (view t).Lacks key es missing stale → ∃ a c,
      Ledger.answer (view t).ledger key r = (.ok a, Function.update (view t).ledger key c) ∧
      ((view t).feed key).contents.Nears es c ∧
      ∀ y, (view t).ChangedTo key c y → J a y)
    (hJ : ∀ a x y, J a x → FeedIndex.Nears key es x y → J a y)
    (hfit : ∀ t, (view t).Lacks key es missing stale →
      (∀ a, (answer t (.index key r)).1 = .ok a → J a (view (answer t (.index key r)).2)) →
      Moment.Tidy answer view key es ⟨t, .index key r⟩) :
    Routine.Attempts answer (settling view key es) (Moment.Tidy answer view key es)
      (fun a t => J a (view t)) s (askIndex key r) := by
  refine Routine.abides_request fun t hst => ?_
  have ht := hs.nears hst
  obtain ⟨a, c, htold, hnears, hafter⟩ := hr t ht
  obtain ⟨t', hattempt, hchanged⟩ := h.attempt_change ht.consistent htold
  have hreply : answer t (.index key r) = (.ok a, t') := hattempt
  have hJa := hafter _ hchanged
  have hend : ∀ b, (answer t (.index key r)).1 = .ok b →
      J b (view (answer t (.index key r)).2) := by
    intro b hb
    rw [hreply] at hb ⊢
    obtain rfl := Except.ok.inj hb
    exact hJa
  refine ⟨hfit t ht hend, ?_, fun u hu b hb => hJ b _ _ (hend b hb) hu⟩
  rw [hreply]
  exact hchanged.nears hnears

theorem tidy_index {t : σ} {r : IndexRequest} (htrim : ∀ capacity, r ≠ .trim capacity)
    (hreplace : ∀ es, r ≠ .replace es) : Moment.Tidy answer view key es ⟨t, .index key r⟩ where
  trim capacity hrequest := by
    obtain ⟨-, hr⟩ := Call.index.inj hrequest
    exact absurd hr (htrim capacity)
  completed hcompletes := by
    cases r with
    | trim capacity => exact absurd rfl (htrim capacity)
    | replace es => exact absurd rfl (hreplace es)
    | _ => exact hcompletes.elim

/-- A run reads the feed and finds out what it lacks. -/
theorem attempts_entries (h : Backend.HoldsIndex answer view) (hs : (view s).Consistent)
    (key : StoreKey) (hcomputed : Selection.Clean computed) (hsame : computed.Perm es) :
    Routine.Attempts answer (settling view key es) (Moment.Tidy answer view key es)
      (fun existing t => (view t).Lacks key es (computed.filter (Apply.differs existing))
        (Apply.stale existing computed)) s (askIndex key .entries) := by
  refine attempts_askIndex (r := .entries) (J := fun existing x => x.Lacks key es
      (computed.filter (Apply.differs existing)) (Apply.stale existing computed)) h
    ⟨hs, Contents.lacks_all _ es⟩ (fun t ht => ?_) (fun _ _ _ hx hy => hx.nears hy)
    fun t _ _ => tidy_index (fun _ => nofun) fun _ => nofun
  refine ⟨((view t).feed key).contents.entryList, ((view t).feed key).contents, ?_,
    .refl es _, fun y hy => ⟨hy.consistent, ?_⟩⟩
  · rw [show ((view t).feed key).contents = (view t).ledger key from rfl,
      Function.update_eq_self]
    rfl
  · rw [hy.contents]
    exact Contents.lacks_difference (ht.consistent key).stored_ascending hcomputed hsame

theorem attempts_upsertMany (h : Backend.HoldsIndex answer view)
    (hs : (view s).Lacks key es missing stale) (hmissing : Selection.Clean missing)
    (hsub : ∀ e ∈ missing, e ∈ es) (hes : Selection.Clean es) :
    Routine.Attempts answer (settling view key es) (Moment.Tidy answer view key es)
      (fun _ t => (view t).Lacks key es [] stale) s (askIndex key (.upsertMany missing)) := by
  refine attempts_askIndex (J := fun _ x => x.Lacks key es [] stale) h hs (fun t ht => ?_)
    (fun _ _ _ hx hy => hx.nears hy)
    fun t _ _ => tidy_index (fun _ => nofun) fun _ => nofun
  refine ⟨(), _, Ledger.store_of_finite _ key _ hmissing.finite,
    Contents.nears_writeAll _ hmissing hsub hes, fun y hy => ⟨hy.consistent, ?_⟩⟩
  rw [hy.contents]
  exact ht.contents.writeAll hmissing hsub hes

theorem attempts_removeMany (h : Backend.HoldsIndex answer view)
    (hs : (view s).Lacks key es missing stale) (hstale : ∀ id ∈ stale, id ∉ es.map Entry.id) :
    Routine.Attempts answer (settling view key es) (Moment.Tidy answer view key es)
      (fun _ t => (view t).Lacks key es missing []) s (askIndex key (.removeMany stale)) := by
  refine attempts_askIndex (J := fun _ x => x.Lacks key es missing []) h hs (fun t ht => ?_)
    (fun _ _ _ hx hy => hx.nears hy)
    fun t _ _ => tidy_index (fun _ => nofun) fun _ => nofun
  refine ⟨(), _, rfl, Contents.nears_eraseAll _ hstale, fun y hy => ⟨hy.consistent, ?_⟩⟩
  rw [hy.contents]
  exact ht.contents.eraseAll hstale

/-- The entries fit into the feed, so the trim of a settled feed finds nothing to do. -/
theorem attempts_trim (h : Backend.HoldsIndex answer view) (hs : (view s).Lacks key es [] [])
    (hes : Selection.Clean es) {capacity : Nat} (hfits : es.length ≤ capacity) :
    Routine.Attempts answer (settling view key es) (Moment.Tidy answer view key es)
      (fun _ t => (view t).Settled key es) s (askIndex key (.trim capacity)) := by
  refine attempts_askIndex (J := fun _ x => x.Settled key es) h hs (fun t ht => ?_)
    (fun _ _ _ hx hy => hx.nears hy) fun t ht hend => ?_
  · have hcontents := ht.contents.eq_contentsOf hes
    obtain ⟨n, htold⟩ := Apply.exists_answer_trim (view t).ledger hcontents hes hfits
    refine ⟨n, _, htold, ?_, fun y hy => ⟨hes, hy.consistent, ?_⟩⟩
    · exact Contents.nears_of_lacks (Contents.lacks_contentsOf hes (.refl es)) _
    · rw [hy.contents]
      exact Contents.lacks_contentsOf hes (.refl es)
  · have hsize := Apply.size_of_contents ht.consistent hes (ht.contents.eq_contentsOf hes)
    obtain ⟨t', htrim, hview⟩ := Apply.attempt_trim h (hsize.le.trans hfits)
    have hreply : answer t (.index key (.trim capacity)) = (.ok 0, t') := htrim
    have hsettled := hend 0 (congrArg Prod.fst hreply)
    constructor
    · intro capacity' hrequest
      obtain ⟨-, hr⟩ := Call.index.inj hrequest
      obtain rfl := IndexRequest.trim.inj hr
      rw [hreply]
      exact ⟨rfl, hview⟩
    · exact fun _ => hsettled

theorem attempts_replace (h : Backend.HoldsIndex answer view) (hs : (view s).Consistent)
    (key : StoreKey) (hcomputed : Selection.Clean computed) (hsame : computed.Perm es) :
    Routine.Attempts answer (settling view key es) (Moment.Tidy answer view key es)
      (fun _ t => (view t).Settled key es) s (askIndex key (.replace computed)) := by
  have hexact := Contents.lacks_contentsOf hcomputed hsame
  refine attempts_askIndex (J := fun _ x => x.Settled key es) h ⟨hs, Contents.lacks_all _ es⟩
    (fun t _ => ?_) (fun _ _ _ hx hy => hx.nears hy) fun t ht hend => ?_
  · refine ⟨(), _, Ledger.store_of_finite _ key _ hcomputed.finite,
      Contents.nears_of_lacks hexact _, fun y hy => ⟨hcomputed.perm hsame, hy.consistent, ?_⟩⟩
    rw [hy.contents]
    exact hexact
  · obtain ⟨t', hreplace, -⟩ := h.attempt_change ht.consistent (r := .replace computed)
      (Ledger.store_of_finite (view t).ledger key ∅ hcomputed.finite)
    have hreply : answer t (.index key (.replace computed)) = (.ok (), t') := hreplace
    constructor
    · exact fun _ hrequest => nomatch hrequest
    · exact fun _ => hend () (congrArg Prod.fst hreply)

/-- In steps: what is missing is written, what is stale is removed.  Others may do some of it
first, or the same again. -/
theorem attempts_incremental (h : Backend.HoldsIndex answer view) (hs : (view s).Consistent)
    (key : StoreKey) (hcomputed : Selection.Clean computed) (hsame : computed.Perm es)
    {capacity : Nat} (hfits : computed.length ≤ capacity) :
    Routine.Attempts answer (settling view key es) (Moment.Tidy answer view key es)
      (fun _ t => (view t).Settled key es) s (Apply.incremental capacity key computed) := by
  have hes := hcomputed.perm hsame
  unfold Apply.incremental
  refine (attempts_entries h hs key hcomputed hsame).bind fun existing s₁ hlacks => ?_
  have hstale : ∀ id ∈ Apply.stale existing computed, id ∉ es.map Entry.id := by
    intro id hid
    obtain ⟨e, he, rfl⟩ := List.mem_map.mp hid
    rw [← (hsame.map Entry.id).mem_iff, ← Apply.mentions_iff, Bool.not_eq_true,
      ← Bool.not_eq_true']
    exact (List.mem_filter.mp he).2
  dsimp only
  refine Routine.Attempts.step (J := fun t => (view t).Lacks key es []
    (Apply.stale existing computed)) (fun _ => ?_) (fun hempty => ?_) fun s₂ hlacks => ?_
  · exact attempts_upsertMany h hlacks (hcomputed.filter _)
      (fun e he => hsame.mem_iff.mp (List.mem_filter.mp he).1) hes
  · rwa [Apply.eq_nil_of_not_isEmpty hempty] at hlacks
  refine Routine.Attempts.step (J := fun t => (view t).Lacks key es [] []) (fun _ => ?_)
    (fun hempty => ?_) fun s₃ hlacks => ?_
  · exact attempts_removeMany h hlacks hstale
  · have hnone : Apply.stale existing computed = [] := Apply.eq_nil_of_not_isEmpty hempty
    rwa [hnone] at hlacks
  refine (attempts_trim h hlacks hes (hsame.length_eq ▸ hfits)).bind fun _ s₄ hsettled => ?_
  exact Routine.attempts_pure fun t ht => hsettled.nears ht

/-- At once: everything is replaced. -/
theorem attempts_swap (h : Backend.HoldsIndex answer view) (hs : (view s).Consistent)
    (key : StoreKey) (hcomputed : Selection.Clean computed) (hsame : computed.Perm es) :
    Routine.Attempts answer (settling view key es) (Moment.Tidy answer view key es)
      (fun _ t => (view t).Settled key es) s (Apply.swap key computed) := by
  unfold Apply.swap
  refine (attempts_entries h hs key hcomputed hsame).bind fun existing s₁ hlacks => ?_
  refine (attempts_replace h hlacks.consistent key hcomputed hsame).bind fun _ s₂ hsettled => ?_
  exact Routine.attempts_pure fun t ht => hsettled.nears ht

theorem attempts_apply (h : Backend.HoldsIndex answer view) (hs : (view s).Consistent)
    (mode : ApplyMode) (key : StoreKey) (hcomputed : Selection.Clean computed)
    (hsame : computed.Perm es) {capacity : Nat} (hfits : computed.length ≤ capacity) :
    Routine.Attempts answer (settling view key es) (Moment.Tidy answer view key es)
      (fun _ t => (view t).Settled key es) s (Apply.apply mode capacity key computed) := by
  cases mode with
  | incremental => exact attempts_incremental h hs key hcomputed hsame hfits
  | swap => exact attempts_swap h hs key hcomputed hsame

/-- A call that is not for the index. -/
theorem abides_other (h : Backend.HoldsIndex answer view) {c : Call}
    (hc : ∀ key r, c ≠ .index key r) {J : c.Reply → σ → Prop}
    (hJ : ∀ t u, FeedIndex.Nears key es (view s) (view t) →
      FeedIndex.Nears key es (view t) (view u) → J (answer t c).1 u) :
    (Routine.request c).Abides answer (settling view key es) (Moment.Tidy answer view key es) J
      s := by
  refine Routine.abides_request fun t hst => ?_
  have hview := h.other t c hc
  refine ⟨⟨fun _ hrequest => absurd hrequest (hc _ _), fun hcompletes => ?_⟩, ?_, fun u htu => ?_⟩
  · cases c with
    | index key r => exact absurd rfl (hc key r)
    | _ => exact hcompletes.elim
  · show FeedIndex.Nears key es (view t) (view (answer t c).2)
    rw [hview]
    exact .refl key es _
  · have hnears : FeedIndex.Nears key es (view (answer t c).2) (view u) := htu
    rw [hview] at hnears
    exact hJ t u hst hnears

end Carrying

namespace Worker

variable {σ : Type} {answer : Backend σ} {view : σ → FeedIndex} {s : σ} {w : Worker}
  {kind : FeedKind} {subject : Subject} {es : List Entry}

/-- Whenever the source answers with entries, it is these that the worker selects. -/
def BringsIn (answer : Backend σ) (w : Worker) (kind : FeedKind) (subject : Subject)
    (es : List Entry) : Prop :=
  ∀ t computed, (answer t (.compute kind subject w.settings.timeoutSeconds)).1 =
    some (.ok computed) → (w.selected computed).Perm es

theorem attempts_compute (h : Backend.HoldsIndex answer view) (hs : (view s).Consistent)
    (hes : w.BringsIn answer kind subject es) (key : StoreKey) :
    Routine.Attempts answer (settling view key es) (Moment.Tidy answer view key es)
      (fun computed t => (view t).Consistent ∧ ∃ all, computed = w.selected all ∧
        computed.Perm es) s (w.compute kind subject) := by
  unfold compute
  cases w.hasSource kind with
  | false => exact Routine.attempts_throw
  | true =>
    refine (Routine.attempts_liftRoutine
      (J := fun (reply : Option (Except ServiceError (List Entry))) t => (view t).Consistent ∧
        ∀ all, reply = some (.ok all) → (w.selected all).Perm es)
      (abides_other h (fun _ _ => Call.noConfusion) fun t u hst htu =>
        ⟨htu.consistent (hst.consistent hs), hes t⟩)
      fun _ _ _ hreply htu => ⟨FeedIndex.Nears.consistent htu hreply.1, hreply.2⟩).bind
        fun reply t hreply => ?_
    match reply, hreply with
    | none, _ => exact Routine.attempts_throw
    | some (.error e), _ => exact Routine.attempts_throw
    | some (.ok all), ⟨ht, hall⟩ =>
      exact Routine.attempts_pure fun u htu =>
        ⟨FeedIndex.Nears.consistent htu ht, all, rfl, hall all rfl⟩

theorem attempts_computeAndApply (h : Backend.HoldsIndex answer view) (hs : (view s).Consistent)
    (hes : w.BringsIn answer kind subject es) :
    Routine.Attempts answer (settling view (.index kind subject) es)
      (Moment.Tidy answer view (.index kind subject) es)
      (fun _ t => (view t).Settled (.index kind subject) es) s
      (w.computeAndApply kind subject) := by
  unfold computeAndApply
  refine (attempts_compute h hs hes (.index kind subject)).bind ?_
  rintro computed s₁ ⟨hs₁, all, rfl, hsame⟩
  have happly := attempts_apply h hs₁ w.settings.applyMode (.index kind subject)
    (w.clean_selected all) hsame (Selection.length_top_le w.settings.capacity _)
  refine (happly.mapError (fun _ t u ht htu => ht.nears htu) _).bind fun done s₂ hsettled => ?_
  exact Routine.attempts_pure fun t ht => hsettled.nears ht

theorem abides_regenerate (h : Backend.HoldsIndex answer view) (hs : (view s).Consistent)
    (hes : w.BringsIn answer kind subject es) :
    (w.regenerate kind subject).Abides answer (settling view (.index kind subject) es)
      (Moment.Tidy answer view (.index kind subject) es)
      (fun result t => ∀ report, result = .ok report →
        (view t).Settled (.index kind subject) es) s := by
  rw [regenerate_eq_bind]
  refine Routine.Abides.bind (attempts_computeAndApply h hs hes) fun result s₁ hsettled => ?_
  have hcount : ∀ metric t, (∀ report, result = .ok report →
      (view t).Settled (.index kind subject) es) →
        (countMetric metric 1).Abides answer (settling view (.index kind subject) es)
          (Moment.Tidy answer view (.index kind subject) es)
          (fun _ u => ∀ report, result = .ok report →
            (view u).Settled (.index kind subject) es) t :=
    fun metric t ht => abides_other h (fun _ _ => Call.noConfusion)
      fun u v htu huv report hreport => ((ht report hreport).nears htu).nears huv
  refine Routine.Abides.bind (hcount _ s₁ hsettled) fun _ s₂ hs₂ => ?_
  refine Routine.Abides.bind (hcount _ s₂ hs₂) fun _ s₃ hs₃ => ?_
  exact fun t ht report hreport => (hs₃ report hreport).nears ht

/-- A run does its part, whatever others that bring in the same do meanwhile. -/
theorem abides_run (h : Backend.HoldsIndex answer view) (hs : (view s).Consistent)
    (hes : w.BringsIn answer kind subject es) :
    (w.run kind subject).Abides answer (settling view (.index kind subject) es)
      (Moment.Tidy answer view (.index kind subject) es)
      (fun result t => ∀ report, result = .ok report →
        (view t).Settled (.index kind subject) es) s := by
  rw [run_eq_underMark, underMark_bind_settle]
  show ((Routine.request (Call.mark subject w.settings.markSeconds)).bind _).Abides _ _ _ _ _
  refine Routine.Abides.bind (J := fun _ t => (view t).Consistent)
    (abides_other h (fun _ _ => Call.noConfusion) fun t u hst htu =>
      htu.consistent (hst.consistent hs)) fun reply s₁ hs₁ => ?_
  cases reply with
  | error e => exact fun t _ report hreport => nomatch hreport
  | ok =>
    refine Routine.Abides.bind ((abides_regenerate h hs₁ hes).guarded _) fun result s₂ hs₂ => ?_
    show ((Routine.request (Call.clear subject)).bind _).Abides _ _ _ _ _
    refine Routine.Abides.bind (J := fun _ t => ∀ report, result = .ok report →
      (view t).Settled (.index kind subject) es)
      (abides_other h (fun _ _ => Call.noConfusion) fun t u hst htu report hreport =>
        ((hs₂ report hreport).nears hst).nears htu) fun _ s₃ hs₃ => ?_
    exact fun t ht report hreport => (hs₃ report hreport).nears ht

/-- Some run has made its last write, or is over and has succeeded. -/
def SomeApplied (key : StoreKey) (ms : List (Turn σ Call))
    (left : List (Work (Except RunError Report))) : Prop :=
  (∃ m ∈ ms, m.request.Completes key) ∨ ∃ p ∈ left, ∃ report, p.value? = some (.ok report)

structure Converge (answer : Backend σ) (view : σ → FeedIndex) (key : StoreKey) (es : List Entry)
    (s : σ) (ms : List (Turn σ Call)) (after : List (Work (Except RunError Report)) × σ) :
    Prop where
  entries : SomeApplied key ms after.1 →
    ((view after.2).feed key).entries.Perm (es.map Entry.stored)
  reads : SomeApplied key ms after.1 → ∀ r, ¬ r.IsWrite →
    (answer after.2 (.index key r)).1 = (Ledger.answer (fun _ => Apply.contentsOf es) key r).1
  trims : ∀ m ∈ ms, ∀ capacity, m.request = .index key (.trim capacity) →
    (answer m.state (.index key (.trim capacity))).1 = .ok 0 ∧
      view (answer m.state m.request).2 = view m.state
  others : ∀ key', key' ≠ key → (view after.2).feed key' = (view s).feed key'

/-- However runs overlap that bring the same entries into a feed, in either way and from any
contents: as soon as one of them has done so the feed holds exactly these entries, and every
read tells just them.  No trim drops anything. -/
theorem runs_converge (h : Backend.HoldsIndex answer view) (hs : (view s).Reachable)
    (ws : List Worker) (hes : ∀ w ∈ ws, w.BringsIn answer kind subject es)
    (schedule : List Nat) :
    Converge answer view (.index kind subject) es s
      (Routine.turns answer schedule (ws.map fun w => w.run kind subject) s)
      (Routine.interleave answer schedule (ws.map fun w => w.run kind subject) s) := by
  have hruns : ∀ (i : Nat) (p : Work (Except RunError Report)),
      (ws.map fun w => w.run kind subject)[i]? = some p →
        p.Abides answer (settling view (.index kind subject) es)
          (Moment.Tidy answer view (.index kind subject) es)
          (fun result t => ∀ report, result = .ok report →
            (view t).Settled (.index kind subject) es) s := by
    intro i p hp
    rw [List.getElem?_map] at hp
    obtain ⟨w, hw, rfl⟩ := Option.map_eq_some_iff.mp hp
    exact abides_run h hs.consistent (hes w (List.mem_of_getElem? hw))
  obtain ⟨hend, hleft, hturns⟩ := Routine.interleave_abides schedule hruns
  generalize Routine.turns answer schedule (ws.map fun w => w.run kind subject) s = ms at *
  generalize Routine.interleave answer schedule (ws.map fun w => w.run kind subject) s = after at *
  have hsettled : SomeApplied (.index kind subject) ms after.1 →
      (view after.2).Settled (.index kind subject) es := by
    rintro (⟨m, hm, hcompletes⟩ | ⟨p, hp, report, hvalue⟩)
    · obtain ⟨htidy, -, hlater⟩ := hturns m hm
      exact (htidy.completed hcompletes).nears hlater
    · obtain ⟨i, hi⟩ := List.mem_iff_getElem?.mp hp
      exact (hleft i p hi).of_value? hvalue report rfl
  constructor
  · exact fun happlied => (hsettled happlied).entries_perm
  · intro happlied r hr
    rw [(h.request after.2 (.index kind subject) r).1]
    exact (hsettled happlied).answer_eq hr
  · exact fun m hm => (hturns m hm).1.trim
  · exact hend.others

def swapping (w : Worker) : Worker :=
  { w with settings := { w.settings with applyMode := .swap } }

/-- One run has read the old contents, then another replaces everything, and the first goes
on to write what it had found missing. -/
theorem runs_converge_overlapping :
    ((Routine.interleave (Backend.plain (fun _ => none) rescored) [0, 0, 0, 1, 1, 1, 1, 0]
        ([homeWorker, homeWorker.swapping].map fun w => w.run .home (.account 7))
        (Keeper.run FeedIndex.answer previousCalls ∅).2).2.feed
      (.index .home (.account 7))).entries.Perm [⟨1, Score.zero⟩, ⟨2, ⟨9⟩⟩] := by
  have hes : ∀ w ∈ [homeWorker, homeWorker.swapping],
      w.BringsIn (Backend.plain (fun _ => none) rescored) .home (.account 7)
        (homeWorker.selected rescored) := by
    intro w hw t computed hcomputed
    obtain rfl := Except.ok.inj (Option.some.inj hcomputed)
    rcases List.mem_pair.mp hw with rfl | rfl
    · exact .refl _
    · exact .refl _
  have hconverge := runs_converge (Backend.holdsIndex_plain (fun _ => none) rescored)
    ⟨previousCalls, rfl⟩ [homeWorker, homeWorker.swapping] hes [0, 0, 0, 1, 1, 1, 1, 0]
  have hreplaced : ∃ m ∈ Routine.turns (Backend.plain (fun _ => none) rescored)
      [0, 0, 0, 1, 1, 1, 1, 0]
      ([homeWorker, homeWorker.swapping].map fun w => w.run .home (.account 7))
      (Keeper.run FeedIndex.answer previousCalls ∅).2,
        m.request = .index (.index .home (.account 7))
          (.replace (homeWorker.selected rescored)) := by
    decide +kernel
  have hselected : (homeWorker.selected rescored).map Entry.stored =
      [⟨1, Score.zero⟩, ⟨2, ⟨9⟩⟩] := by decide +kernel
  obtain ⟨m, hm, hrequest⟩ := hreplaced
  have hcompletes : m.request.Completes (.index .home (.account 7)) := by
    rw [hrequest]
    rfl
  rw [← hselected]
  exact hconverge.entries (Or.inl ⟨m, hm, hcompletes⟩)

end Worker
end WarmFeed
