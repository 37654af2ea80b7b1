import WarmFeed.Proofs.Interleaving
import WarmFeed.Proofs.Key
import WarmFeed.Proofs.Redis.Member
import WarmFeed.Redis.Objects
import WarmFeed.Redis.Server

/-!
# References that many resolve at once

Workers that resolve references share a server and take no heed of each other.  A reference
is claimed by a single command that does nothing where the reference is claimed already,
and no worker takes a claim back.  So a claim that was seen once stands for good, and who
returns an identifier for a reference returns the one that it is claimed for.
-/

namespace WarmFeed
namespace Redis
namespace Server

/-- What is stored for references in `v` is still stored for them in `w`. -/
def KeepsReferences (v w : Server) : Prop :=
  ∀ reference x, v.values.get? (StoreKey.statusReference reference).text = some x →
    w.values.get? (StoreKey.statusReference reference).text = some x

theorem KeepsReferences.refl (v : Server) : v.KeepsReferences v := fun _ _ h => h

theorem KeepsReferences.trans {u v w : Server} (h : u.KeepsReferences v)
    (h' : v.KeepsReferences w) : u.KeepsReferences w :=
  fun reference x hx => h' reference x (h reference x hx)

section Commands

variable (v : Server) {key : String}

theorem keepsReferences_setText
    (hkey : ∀ reference, key ≠ (StoreKey.statusReference reference).text) (s : String) :
    v.KeepsReferences (v.setText key s) := by
  intro reference x hx
  show (v.values.set key _).get? _ = _
  rw [Table.get?_set, if_neg (hkey reference).symm]
  exact hx

theorem keepsReferences_delete
    (hkey : ∀ reference, key ≠ (StoreKey.statusReference reference).text) :
    v.KeepsReferences (v.answer (.delete key)).2 := by
  intro reference x hx
  show (v.values.erase key).get? _ = _
  rw [Table.get?_erase, if_neg (hkey reference).symm]
  exact hx

theorem keepsReferences_increment
    (hkey : ∀ reference, key ≠ (StoreKey.statusReference reference).text) :
    v.KeepsReferences (v.answer (.increment key)).2 := by
  show v.KeepsReferences (v.increment key).2
  unfold increment
  split
  · exact .refl v
  · split
    · exact .refl v
    · split
      · exact v.keepsReferences_setText hkey _
      · exact .refl v

theorem answer_setNew_of_taken {x : Stored} (h : v.values.get? key = some x) (s : String) :
    v.answer (.setNew key s) = (.ok false, v) :=
  if_pos (show (v.values.get? key).isSome = true by rw [h]; rfl)

theorem answer_setNew_of_free (h : v.values.get? key = none) (s : String) :
    v.answer (.setNew key s) = (.ok true, v.setText key s) :=
  if_neg (show ¬ (v.values.get? key).isSome = true by rw [h]; exact Bool.false_ne_true)

/-- What is set only where there is nothing yet changes no reference, whatever the key. -/
theorem keepsReferences_setNew (key s : String) :
    v.KeepsReferences (v.answer (.setNew key s)).2 := by
  cases hthere : v.values.get? key with
  | some y =>
    rw [v.answer_setNew_of_taken hthere]
    exact .refl v
  | none =>
    rw [v.answer_setNew_of_free hthere]
    intro reference x hx
    show (v.values.set key _).get? _ = _
    rw [Table.get?_set, if_neg ?_]
    · exact hx
    · rintro rfl
      nomatch hx.symm.trans hthere

end Commands

/-- The reference is claimed for an identifier: whoever looks it up reads that one. -/
def Claimed (v : Server) (reference : String) (id : ContentId) : Prop :=
  ∃ text, v.values.get? (StoreKey.statusReference reference).text = some (.text text) ∧
    Objects.readId (some text) = .ok (some id)

theorem Claimed.kept {v w : Server} {reference : String} {id : ContentId}
    (h : v.Claimed reference id) (hkept : v.KeepsReferences w) : w.Claimed reference id := by
  obtain ⟨text, htext, hread⟩ := h
  exact ⟨text, hkept reference _ htext, hread⟩

theorem Claimed.unique {v : Server} {reference : String} {id id' : ContentId}
    (h : v.Claimed reference id) (h' : v.Claimed reference id') : id = id' := by
  obtain ⟨text, htext, hread⟩ := h
  obtain ⟨text', htext', hread'⟩ := h'
  obtain rfl : text = text' := Stored.text.inj (Option.some.inj (htext.symm.trans htext'))
  exact Option.some.inj (Except.ok.inj (hread.symm.trans hread'))

end Server

/-- Commands are carried out on a server, one at a time.  In between others may use it too,
as long as they leave alone what is stored for references.  Any command may fail, and has
then taken effect or not. -/
structure Serves {σ : Type} (answer : σ → (r : Request) → r.Reply × σ) (view : σ → Server) :
    Prop where
  single : ∀ s c, ∃ v, (view s).KeepsReferences v ∧
    (((answer s (.single c)).1 = (v.answer c).1 ∧ view (answer s (.single c)).2 = (v.answer c).2) ∨
      (∃ e, (answer s (.single c)).1 = .error e) ∧
        (view (answer s (.single c)).2 = v ∨ view (answer s (.single c)).2 = (v.answer c).2))

/-- Whether the command fails or not, a command that keeps references keeps them with all
that others do at the time. -/
theorem Serves.keeps {σ : Type} {answer : σ → (r : Request) → r.Reply × σ} {view : σ → Server}
    (h : Serves answer view) {c : Command} (hc : ∀ v : Server, v.KeepsReferences (v.answer c).2)
    (t : σ) : (view t).KeepsReferences (view (answer t (.single c)).2) := by
  obtain ⟨v, hv, hafter⟩ := h.single t c
  have hview : view (answer t (.single c)).2 = v ∨ view (answer t (.single c)).2 = (v.answer c).2 :=
    hafter.elim (fun hdone => Or.inr hdone.2) And.right
  rcases hview with hview | hview
  · rwa [hview]
  · rw [hview]
    exact hv.trans (hc v)

def keeping {σ : Type} (view : σ → Server) : Pact σ where
  allows s t := (view s).KeepsReferences (view t)
  refl s := .refl (view s)
  trans := .trans

namespace Objects

variable {σ : Type} {answer : σ → (r : Request) → r.Reply × σ} {view : σ → Server} {s : σ}

/-- A command that keeps to the pact, and what follows from its answer. -/
theorem attempts_ask (h : Serves answer view) {c : Command} {J : c.Reply → Server → Prop}
    (hkeeps : ∀ v : Server, v.KeepsReferences (v.answer c).2)
    (hc : ∀ v, (view s).KeepsReferences v → ∀ x, (v.answer c).1 = .ok x → J x (v.answer c).2)
    (hJ : ∀ x v w, J x v → v.KeepsReferences w → J x w) :
    Routine.Attempts answer (keeping view) (fun _ => True) (fun x t => J x (view t)) s
      (ask c) := by
  refine Routine.abides_request (q := Request.single c) fun t hst => ?_
  refine ⟨trivial, h.keeps hkeeps t, fun u htu x hx => ?_⟩
  have hkept : (view (answer t (.single c)).2).KeepsReferences (view u) := htu
  obtain ⟨v, hv, ⟨hreply, hview⟩ | ⟨⟨e, herror⟩, -⟩⟩ := h.single t c
  · rw [hview] at hkept
    exact hJ x _ _ (hc v (Server.KeepsReferences.trans hst hv) x (hreply.symm.trans hx)) hkept
  · nomatch herror.symm.trans hx

theorem attempts_result {α : Type} {result : Except StoreError α} {J : α → σ → Prop}
    (h : ∀ x, result = .ok x → ∀ t, (view s).KeepsReferences (view t) → J x t) :
    Routine.Attempts answer (keeping view) (fun _ => True) J s
      (liftM result : Attempt α) := by
  cases result with
  | error e => exact Routine.attempts_throw
  | ok x => exact Routine.attempts_pure (h x rfl)

/-- A reference is looked up: what is found is what it is claimed for, and where nothing is
found nothing was stored before. -/
theorem attempts_lookUp (h : Serves answer view) (reference : String) :
    Routine.Attempts answer (keeping view) (fun _ => True)
      (fun found t => (∀ id, found = some id → (view t).Claimed reference id) ∧
        (found = none →
          (view s).values.get? (StoreKey.statusReference reference).text = none)) s
      (lookUp reference) := by
  unfold lookUp
  refine (attempts_ask h (c := .get _) (J := fun text v => (∀ held, text = some held →
      v.values.get? (StoreKey.statusReference reference).text = some (.text held)) ∧
        (text = none →
          (view s).values.get? (StoreKey.statusReference reference).text = none))
    (fun v => .refl v) (fun v hv text htext => ?_)
    fun text v w hv hvw => ⟨fun held hheld => hvw reference _ (hv.1 held hheld), hv.2⟩).bind
      fun text t htext => ?_
  · have hanswer : v.text (StoreKey.statusReference reference).text = .ok text := htext
    unfold Server.text at hanswer
    cases hstored : v.values.get? (StoreKey.statusReference reference).text with
    | none =>
      rw [hstored] at hanswer
      obtain rfl := Except.ok.inj hanswer
      refine ⟨fun held hheld => (nomatch hheld), fun _ => ?_⟩
      cases hbefore : (view s).values.get? (StoreKey.statusReference reference).text with
      | none => rfl
      | some x => nomatch (hv reference x hbefore).symm.trans hstored
    | some x =>
      rw [hstored] at hanswer
      cases x with
      | text held =>
        obtain rfl := Except.ok.inj hanswer
        exact ⟨fun held' hheld => Option.some.inj hheld ▸ hstored, fun hnone => nomatch hnone⟩
      | sorted members => nomatch hanswer
  · refine attempts_result fun found hfound u htu => ⟨?_, ?_⟩
    · rintro id rfl
      cases text with
      | none => nomatch hfound
      | some held => exact ⟨held, htu reference _ (htext.1 held rfl), hfound⟩
    · rintro rfl
      cases text with
      | none => exact htext.2 rfl
      | some held =>
        exfalso
        unfold readId at hfound
        split at hfound
        · contradiction
        · split at hfound
          · nomatch hfound
          · nomatch hfound

theorem readId_toString (id : ContentId) :
    readId (some (toString id.toNat)) = .ok (some id) := by
  unfold readId
  dsimp only
  rw [parseWord_toString id.toNat_lt]
  exact congrArg (fun id => Except.ok (some id)) UInt64.ofNat_toNat

/-- A status that came along is stored and the reference is claimed for it, or was claimed
before. -/
theorem attempts_create (h : Serves answer view) (reference : String) (remote : RemoteStatus) :
    Routine.Attempts answer (keeping view) (fun _ => True)
      (fun found t => ∃ id, found = some id ∧ (view t).Claimed reference id) s
      (create reference remote) := by
  unfold create
  refine (attempts_ask h (c := .increment _) (J := fun _ _ => True)
    (fun v => v.keepsReferences_increment StoreKey.statusSequence_ne_statusReference)
    (fun _ _ _ _ => trivial) fun _ _ _ _ _ => trivial).bind fun sequence s₁ _ => ?_
  generalize Snowflake.id remote.createdAt (UInt64.ofInt sequence) = id
  refine (attempts_ask h (c := .set _ _) (J := fun _ _ => True)
    (fun v => v.keepsReferences_setText (StoreKey.status_ne_statusReference _) _)
    (fun _ _ _ _ => trivial) fun _ _ _ _ _ => trivial).bind fun _ s₂ _ => ?_
  refine (attempts_ask h (c := .setNew _ _) (J := fun claimed v =>
      (claimed = true → v.Claimed reference id) ∧
        (claimed = false →
          ∃ x, v.values.get? (StoreKey.statusReference reference).text = some x))
    (fun v => v.keepsReferences_setNew _ _) (fun v _ claimed hclaimed => ?_)
    fun claimed v w hv hvw => ⟨fun htrue => (hv.1 htrue).kept hvw,
      fun hfalse => (hv.2 hfalse).imp fun x hx => hvw reference x hx⟩).bind
        fun claimed s₃ hclaimed => ?_
  · cases hthere : v.values.get? (StoreKey.statusReference reference).text with
    | some x =>
      rw [v.answer_setNew_of_taken hthere] at hclaimed ⊢
      obtain rfl := Except.ok.inj hclaimed
      exact ⟨fun htrue => (nomatch htrue), fun _ => ⟨x, hthere⟩⟩
    | none =>
      rw [v.answer_setNew_of_free hthere] at hclaimed ⊢
      obtain rfl := Except.ok.inj hclaimed
      refine ⟨fun _ => ⟨toString id.toNat, ?_, readId_toString id⟩, fun hfalse => nomatch hfalse⟩
      show (v.values.set _ _).get? _ = _
      rw [Table.get?_set, if_pos rfl]
  · cases claimed with
    | true => exact Routine.attempts_pure fun t ht => ⟨id, rfl, (hclaimed.1 rfl).kept ht⟩
    | false =>
      obtain ⟨x, hx⟩ := hclaimed.2 rfl
      refine (attempts_ask h (c := .delete _)
        (J := fun _ v => v.values.get? (StoreKey.statusReference reference).text = some x)
        (fun v => v.keepsReferences_delete (StoreKey.status_ne_statusReference id))
        (fun v hv _ _ => v.keepsReferences_delete (StoreKey.status_ne_statusReference id) reference
          x (hv reference x hx)) fun _ v w hv hvw => hvw reference x hv).bind fun _ s₄ hx => ?_
      refine (attempts_lookUp h reference).mono fun found t hfound => ?_
      cases found with
      | none => nomatch (hfound.2 rfl).symm.trans hx
      | some winner => exact ⟨winner, rfl, hfound.1 winner rfl⟩

/-- Whatever others do meanwhile: an identifier that is returned is the one that the reference
is claimed for, and only a candidate without a status can come to nothing. -/
theorem attempts_resolveOrCreate (h : Serves answer view) (c : TrendCandidate) :
    Routine.Attempts answer (keeping view) (fun _ => True)
      (fun found t => (∀ id, found = some id → (view t).Claimed c.reference id) ∧
        (found = none → c.remote = none)) s (resolveOrCreate c) := by
  unfold resolveOrCreate
  refine (attempts_lookUp h c.reference).bind fun found t hfound => ?_
  cases found with
  | some id =>
    refine Routine.attempts_pure fun u hu => ⟨?_, fun hnone => nomatch hnone⟩
    rintro id' hid
    exact (hfound.1 id' hid).kept hu
  | none =>
    dsimp only
    cases hremote : c.remote with
    | none =>
      refine Routine.attempts_pure fun u hu => ⟨?_, fun _ => rfl⟩
      exact fun id hid => nomatch hid
    | some remote =>
      refine (attempts_create h c.reference remote).mono fun found u hcreated => ?_
      obtain ⟨id, rfl, hclaimed⟩ := hcreated
      refine ⟨fun id' hid => Option.some.inj hid ▸ hclaimed, fun hnone => nomatch hnone⟩

def Outcome (view : σ → Server) (cs : List TrendCandidate) (i : Nat)
    (result : Except StoreError (Option ContentId)) (t : σ) : Prop :=
  ∀ c, cs[i]? = some c → ∀ found, result = .ok found →
    (∀ id, found = some id → (view t).Claimed c.reference id) ∧ (found = none → c.remote = none)

structure Resolved (view : σ → Server) (cs : List TrendCandidate) (s : σ)
    (ms : List (Turn σ Request))
    (after : List (Exchange (Except StoreError (Option ContentId))) × σ) : Prop where
  /-- What was stored for a reference at first, or when some worker sent a command, still is. -/
  kept : (view s).KeepsReferences (view after.2) ∧
    ∀ m ∈ ms, (view m.state).KeepsReferences (view after.2)
  claimed : ∀ (i : Nat) c p id, cs[i]? = some c → after.1[i]? = some p →
    p.value? = some (.ok (some id)) → (view after.2).Claimed c.reference id
  unique : ∀ (i j : Nat) c d p q id id', cs[i]? = some c → cs[j]? = some d →
    c.reference = d.reference → after.1[i]? = some p → after.1[j]? = some q →
      p.value? = some (.ok (some id)) → q.value? = some (.ok (some id')) → id = id'
  payload : ∀ (i : Nat) c p, cs[i]? = some c → after.1[i]? = some p →
    p.value? = some (.ok none) → c.remote = none

/-- However many workers resolve whatever candidates, in whatever order their commands are
carried out and whichever of them fail: a reference that was claimed stays claimed for the
same identifier, all of them return that one for it, and none returns nothing for a
candidate with a status. -/
theorem resolutions_agree (h : Serves answer view) (cs : List TrendCandidate)
    (schedule : List Nat) (s : σ) :
    Resolved view cs s
      (Routine.turns answer schedule (cs.map fun c => (resolveOrCreate c).run) s)
      (Routine.interleave answer schedule (cs.map fun c => (resolveOrCreate c).run) s) := by
  have hworkers : ∀ (i : Nat) (p : Exchange (Except StoreError (Option ContentId))),
      (cs.map fun c => (resolveOrCreate c).run)[i]? = some p →
        p.Abides answer (keeping view) (fun _ => True) (Outcome view cs i) s := by
    intro i p hp
    rw [List.getElem?_map] at hp
    obtain ⟨c, hc, rfl⟩ := Option.map_eq_some_iff.mp hp
    refine (attempts_resolveOrCreate h c).imp fun result t hresult c' hc' => ?_
    obtain rfl := Option.some.inj (hc.symm.trans hc')
    exact hresult
  obtain ⟨hend, hleft, hturns⟩ :=
    Routine.interleave_abides (J := Outcome view cs) schedule hworkers
  generalize Routine.turns answer schedule (cs.map fun c => (resolveOrCreate c).run) s = ms at *
  generalize Routine.interleave answer schedule (cs.map fun c => (resolveOrCreate c).run) s =
    after at *
  have hclaimed : ∀ (i : Nat) c p id, cs[i]? = some c → after.1[i]? = some p →
      p.value? = some (.ok (some id)) → (view after.2).Claimed c.reference id :=
    fun i c p id hc hp hvalue => ((hleft i p hp).of_value? hvalue c hc _ rfl).1 id rfl
  refine ⟨⟨hend, fun m hm => ?_⟩, hclaimed, ?_, ?_⟩
  · obtain ⟨-, hkept, hlater⟩ := hturns m hm
    exact Server.KeepsReferences.trans hkept hlater
  · intro i j c d p q id id' hc hd href hp hq hvalue hvalue'
    have hboth := hclaimed i c p id hc hp hvalue
    rw [href] at hboth
    exact hboth.unique (hclaimed j d q id' hd hq hvalue')
  · exact fun i c p hc hp hvalue => ((hleft i p hp).of_value? hvalue c hc _ rfl).2 rfl

theorem serves_answerRequest : Serves Server.answerRequest id where
  single v _ := ⟨v, .refl v, Or.inl ⟨rfl, rfl⟩⟩

def contested : TrendCandidate := ⟨"https://sea.example/1", none, some default⟩

/-- Both have found nothing and stored their own status when the first claims the reference. -/
abbrev race : List (Exchange (Except StoreError (Option ContentId))) × Server :=
  Routine.interleave Server.answerRequest [0, 1, 0, 1, 0, 1, 0, 1, 1, 1]
    ([contested, contested].map fun c => (resolveOrCreate c).run) ∅

theorem resolutions_agree_contested :
    race.1.map Routine.value? = [some (.ok (some 1)), some (.ok (some 1))] ∧
      race.2.Claimed contested.reference 1 := by
  have hvalues : race.1.map Routine.value? = [some (.ok (some 1)), some (.ok (some 1))] := by
    decide +kernel
  have hagree := resolutions_agree serves_answerRequest [contested, contested]
    [0, 1, 0, 1, 0, 1, 0, 1, 1, 1] ∅
  obtain ⟨p, hp, hvalue⟩ : ∃ p, race.1[1]? = some p ∧ p.value? = some (.ok (some 1)) := by
    have hsecond : (race.1.map Routine.value?)[1]? = some (some (.ok (some 1))) := by
      rw [hvalues]
      rfl
    rw [List.getElem?_map] at hsecond
    exact Option.map_eq_some_iff.mp hsecond
  exact ⟨hvalues, hagree.claimed 1 contested p 1 rfl hp hvalue⟩

end Objects
end Redis
end WarmFeed
