import WarmFeed.Proofs.Backend
import WarmFeed.Serving.Reader

/-!
# What a reader reads

The cursors of a request are looked up one after the other.  As no look-up changes
the index, the window is that of one query on one index.
-/

namespace WarmFeed
namespace Reader

def boundAt (x : FeedIndex) (key : StoreKey) (cursor : Option ContentId) : Bound :=
  match cursor.bind (x.position? key) with
  | none => .unbounded
  | some p => .exclusive p

def queryAt (x : FeedIndex) (key : StoreKey) (page : PageRequest) (limit : Nat) : RangeQuery :=
  match page.minId with
  | none => .down (boundAt x key page.maxId) (boundAt x key page.sinceId) limit
  | some id => .up (boundAt x key (some id)) (boundAt x key page.maxId) limit

variable {σ : Type} {answer : Backend σ} {view : σ → FeedIndex}
  (h : Backend.HoldsIndex answer view)

include h

theorem attempt_resolveCursor (s : σ) (key : StoreKey) (cursor : Option ContentId) :
    ∃ s', Routine.attempt answer s (resolveCursor key cursor) =
        (.ok (boundAt (view s) key cursor), s') ∧ view s' = view s := by
  cases cursor with
  | none => exact ⟨s, rfl, rfl⟩
  | some id =>
    obtain ⟨s', hscore, hview⟩ := h.attempt_read s key (r := .score id) rfl
    refine ⟨s', ?_, hview⟩
    unfold resolveCursor
    rw [Routine.attempt_bind_ok hscore]
    show _ = (Except.ok (boundAt (view s) key (some id)), s')
    unfold boundAt FeedIndex.position?
    rw [Option.bind_some]
    cases (view s).score? key id <;> rfl

theorem attempt_resolveQuery (s : σ) (key : StoreKey) (page : PageRequest) (limit : Nat) :
    ∃ s', Routine.attempt answer s (resolveQuery key page limit) =
        (.ok (queryAt (view s) key page limit), s') ∧ view s' = view s := by
  obtain ⟨s₁, hmax, hview₁⟩ := attempt_resolveCursor h s key page.maxId
  unfold resolveQuery queryAt
  rw [Routine.attempt_bind_ok hmax]
  cases page.minId with
  | none =>
    obtain ⟨s₂, hsince, hview₂⟩ := attempt_resolveCursor h s₁ key page.sinceId
    rw [hview₁] at hsince hview₂
    exact ⟨s₂, Routine.attempt_bind_ok hsince, hview₂⟩
  | some id =>
    obtain ⟨s₂, hmin, hview₂⟩ := attempt_resolveCursor h s₁ key (some id)
    rw [hview₁] at hmin hview₂
    exact ⟨s₂, Routine.attempt_bind_ok hmin, hview₂⟩

theorem attempt_readWindow (s : σ) (key : StoreKey) (page : PageRequest) (limit : Nat) :
    ∃ s', Routine.attempt answer s (readWindow key page limit) =
        (.ok ⟨((view s).feed key).range (queryAt (view s) key page limit),
          (queryAt (view s) key page limit).direction⟩, s') ∧ view s' = view s := by
  obtain ⟨s₁, hquery, hview₁⟩ := attempt_resolveQuery h s key page limit
  obtain ⟨s₂, hrange, hview₂⟩ :=
    h.attempt_read s₁ key (r := .range (queryAt (view s) key page limit)) rfl
  rw [hview₁] at hrange hview₂
  refine ⟨s₂, ?_, hview₂⟩
  unfold readWindow
  rw [Routine.attempt_bind_ok hquery]
  exact Routine.attempt_bind_ok hrange

/-- A feed that is paged by identifiers is read by one query on the index as it is. -/
theorem attempt_read (s : σ) {kind : FeedKind} (hkind : kind.isPagedByOffset = false)
    (subject : Subject) (page : PageRequest) (limit : Nat) :
    ∃ s', Routine.attempt answer s (read kind subject page limit) =
        (.ok ⟨((view s).feed (.index kind subject)).range
            (queryAt (view s) (.index kind subject) page limit),
          (queryAt (view s) (.index kind subject) page limit).direction⟩, s') ∧
      view s' = view s := by
  obtain ⟨s', hwindow, hview⟩ := attempt_readWindow h s (.index kind subject) page limit
  refine ⟨s', ?_, hview⟩
  unfold read Attempt.mapError
  rw [hkind, if_neg Bool.false_ne_true, Routine.attempt_mapError, hwindow]
  rfl

end Reader
end WarmFeed
