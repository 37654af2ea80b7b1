import WarmFeed.Proofs.Routine

/-!
# The course of a routine

A routine that is run alone makes its requests one after the other, each in some state.
Its course is the list of these moments.  What is said here about a course is said of
every request that is made and of every state that is passed through, also when the
routine ends with a failure half-way.

Of a routine that only makes requests of one sort, whatever it is answered, two things
follow for every course: its requests are of that sort, and what such requests preserve
holds at every moment.
-/

namespace WarmFeed

structure Moment (σ Q : Type) where
  state : σ
  request : Q
deriving DecidableEq

namespace Routine

variable {Q σ ε ε' α β : Type} {R : Q → Type}

/-- The requests of a routine that is run alone, in the order in which they are made. -/
def course (answer : σ → (q : Q) → R q × σ) : Routine R α → σ → List (Moment σ Q)
  | done _, _ => []
  | ask q _ next, s => ⟨s, q⟩ :: (next (answer s q).1).course answer (answer s q).2
  | pause _ _ next, s => (next ()).course answer s

section Course

variable (answer : σ → (q : Q) → R q × σ) (s : σ)

theorem course_bind (p : Routine R α) (f : α → Routine R β) :
    (p.bind f).course answer s =
      p.course answer s ++ (f (p.run answer s).1).course answer (p.run answer s).2 := by
  induction p generalizing s with
  | done a => rfl
  | ask q onDrop next ih => exact congrArg (List.cons _) (ih _ _)
  | pause millis onDrop next ih => exact ih _ _

theorem course_guarded (cleanup : List Q) (p : Routine R α) :
    (p.guarded cleanup).course answer s = p.course answer s := by
  induction p generalizing s with
  | done a => rfl
  | ask q onDrop next ih => exact congrArg (List.cons _) (ih _ _)
  | pause millis onDrop next ih => exact ih _ _

theorem course_request (q : Q) : (request q : Routine R (R q)).course answer s = [⟨s, q⟩] := rfl

theorem course_liftRoutine (p : Routine R α) :
    (liftM p : ExceptT ε (Routine R) α).run.course answer s = p.course answer s := by
  show (Routine.bind p _).course answer s = _
  rw [course_bind]
  exact List.append_nil _

theorem course_mapError (a : ExceptT ε (Routine R) α) (f : ε → ε') :
    (ExceptT.adapt f a).run.course answer s = a.run.course answer s := by
  show (Routine.bind a.run _).course answer s = _
  rw [course_bind]
  exact List.append_nil _

/-- After a failure an attempt makes no further requests. -/
theorem course_attempt_bind (a : ExceptT ε (Routine R) α) (f : α → ExceptT ε (Routine R) β) :
    (a >>= f).run.course answer s = a.run.course answer s ++
      match (attempt answer s a).1 with
      | .ok x => (f x).run.course answer (attempt answer s a).2
      | .error _ => [] := by
  show (Routine.bind a.run _).course answer s = _
  rw [course_bind]
  congr 1
  show (ExceptT.bindCont f (attempt answer s a).1).course answer (attempt answer s a).2 = _
  cases (attempt answer s a).1 <;> rfl

end Course

theorem course_attempt_map (answer : σ → (q : Q) → R q × σ) (s : σ) (a : ExceptT ε (Routine R) α)
    (f : α → β) : (a >>= fun x => pure (f x)).run.course answer s = a.run.course answer s := by
  rw [course_attempt_bind]
  cases (attempt answer s a).1 <;> exact List.append_nil _

/-- The attempt succeeds with `x`, and `ms` is its course. -/
structure Records (answer : σ → (q : Q) → R q × σ) (s : σ) (a : ExceptT ε (Routine R) α) (x : α)
    (s' : σ) (ms : List (Moment σ Q)) : Prop where
  attempt_eq : attempt answer s a = (.ok x, s')
  course_eq : a.run.course answer s = ms

section Records

variable {answer : σ → (q : Q) → R q × σ} {s s' s'' : σ} {a : ExceptT ε (Routine R) α} {x : α}
  {ms ms' : List (Moment σ Q)}

theorem records_pure (x : α) (s : σ) :
    Records answer s (pure x : ExceptT ε (Routine R) α) x s [] := ⟨rfl, rfl⟩

theorem Records.bind {f : α → ExceptT ε (Routine R) β} {y : β} (ha : Records answer s a x s' ms)
    (hf : Records answer s' (f x) y s'' ms') : Records answer s (a >>= f) y s'' (ms ++ ms') where
  attempt_eq := (attempt_bind_ok ha.attempt_eq).trans hf.attempt_eq
  course_eq := by
    rw [course_attempt_bind, ha.attempt_eq, ha.course_eq]
    exact congrArg (ms ++ ·) hf.course_eq

theorem Records.map {f : α → β} (ha : Records answer s a x s' ms) :
    Records answer s (a >>= fun x => pure (f x)) (f x) s' ms := by
  have hmapped := ha.bind (f := fun x => pure (f x)) (records_pure (f x) s')
  rwa [List.append_nil] at hmapped

theorem Records.mapError (ha : Records answer s a x s' ms) (f : ε → ε') :
    Records answer s (ExceptT.adapt f a) x s' ms where
  attempt_eq := by
    rw [attempt_mapError, ha.attempt_eq]
    rfl
  course_eq := by
    rw [course_mapError, ha.course_eq]

end Records

/-! ## Requests of one sort -/

/-- Whatever it is answered, the routine makes only requests of one sort. -/
def Asks (sort : Q → Prop) : Routine R α → Prop
  | done _ => True
  | ask q _ next => sort q ∧ ∀ r, (next r).Asks sort
  | pause _ _ next => ∀ u, (next u).Asks sort

section Asks

variable {sort sort' : Q → Prop} {p : Routine R α}

theorem Asks.imp (h : p.Asks sort) (himp : ∀ q, sort q → sort' q) : p.Asks sort' := by
  induction p with
  | done a => trivial
  | ask q onDrop next ih => exact ⟨himp q h.1, fun r => ih r (h.2 r)⟩
  | pause millis onDrop next ih => exact fun u => ih u (h u)

theorem Asks.bind {f : α → Routine R β} (h : p.Asks sort) (hf : ∀ a, (f a).Asks sort) :
    (p.bind f).Asks sort := by
  induction p with
  | done a => exact hf a
  | ask q onDrop next ih => exact ⟨h.1, fun r => ih r (h.2 r)⟩
  | pause millis onDrop next ih => exact fun u => ih u (h u)

theorem Asks.guarded (h : p.Asks sort) (cleanup : List Q) : (p.guarded cleanup).Asks sort := by
  induction p with
  | done a => trivial
  | ask q onDrop next ih => exact ⟨h.1, fun r => ih r (h.2 r)⟩
  | pause millis onDrop next ih => exact fun u => ih u (h u)

theorem asks_request {q : Q} (h : sort q) : (request q : Routine R (R q)).Asks sort :=
  ⟨h, fun _ => trivial⟩

theorem asks_attempt_bind {a : ExceptT ε (Routine R) α} {f : α → ExceptT ε (Routine R) β}
    (ha : a.run.Asks sort) (hf : ∀ x, (f x).run.Asks sort) : (a >>= f).run.Asks sort := by
  refine Asks.bind ha fun result => ?_
  cases result with
  | ok x => exact hf x
  | error e => trivial

theorem asks_mapError {a : ExceptT ε (Routine R) α} (ha : a.run.Asks sort) (f : ε → ε') :
    (ExceptT.adapt f a).run.Asks sort :=
  Asks.bind ha fun _ => trivial

theorem Asks.of_mem_course (h : p.Asks sort) {answer : σ → (q : Q) → R q × σ} {s : σ}
    {m : Moment σ Q} (hm : m ∈ p.course answer s) : sort m.request := by
  induction p generalizing s with
  | done a => exact absurd hm List.not_mem_nil
  | ask q onDrop next ih =>
    rcases List.mem_cons.mp hm with rfl | hm
    · exact h.1
    · exact ih _ (h.2 _) hm
  | pause millis onDrop next ih => exact ih _ (h _) hm

/-- What is read off requests that are never made. -/
theorem Asks.filterMap_course {f : Q → Option β} (h : p.Asks fun q => f q = none)
    (answer : σ → (q : Q) → R q × σ) (s : σ) :
    (p.course answer s).filterMap (fun m => f m.request) = [] :=
  List.filterMap_eq_nil_iff.mpr fun _ hm => h.of_mem_course hm

end Asks

/-! ## States that are passed through -/

/-- Every state in which the routine makes a request has a property, and so has the state
in which it ends. -/
def StaysIn (answer : σ → (q : Q) → R q × σ) (P : σ → Prop) (s : σ) (p : Routine R α) : Prop :=
  (∀ m ∈ p.course answer s, P m.state) ∧ P (p.run answer s).2

section StaysIn

variable {answer : σ → (q : Q) → R q × σ} {P : σ → Prop} {s : σ}

theorem staysIn_done {a : α} (h : P s) : StaysIn answer P s (done a : Routine R α) :=
  ⟨fun _ hm => absurd hm List.not_mem_nil, h⟩

theorem staysIn_request {q : Q} (h : P s) (hafter : P (answer s q).2) :
    StaysIn answer P s (request q : Routine R (R q)) := by
  refine ⟨fun m hm => ?_, hafter⟩
  rw [course_request, List.mem_singleton] at hm
  rw [hm]
  exact h

theorem StaysIn.bind {p : Routine R α} {f : α → Routine R β} (hp : StaysIn answer P s p)
    (hf : StaysIn answer P (p.run answer s).2 (f (p.run answer s).1)) :
    StaysIn answer P s (p.bind f) := by
  constructor
  · intro m hm
    rw [course_bind, List.mem_append] at hm
    exact hm.elim (hp.1 m) (hf.1 m)
  · rw [run_bind]
    exact hf.2

/-- What the requests of one sort preserve holds all along. -/
theorem Asks.staysIn {sort : Q → Prop} {p : Routine R α} (h : p.Asks sort)
    (hkeeps : ∀ s q, sort q → P s → P (answer s q).2) (hs : P s) : StaysIn answer P s p := by
  induction p generalizing s with
  | done a => exact staysIn_done hs
  | ask q onDrop next ih =>
    obtain ⟨hmoments, hend⟩ := ih _ (h.2 (answer s q).1) (hkeeps s q h.1 hs)
    refine ⟨fun m hm => ?_, hend⟩
    rcases List.mem_cons.mp hm with rfl | hm
    · exact hs
    · exact hmoments m hm
  | pause millis onDrop next ih => exact ih _ (h _) hs

end StaysIn

/-! ## Attempts half-way -/

/-- The attempt stays in `P`, and where it succeeds, its result and the state it ends in
satisfy `J`. -/
structure Leads (answer : σ → (q : Q) → R q × σ) (P : σ → Prop) (J : α → σ → Prop) (s : σ)
    (a : ExceptT ε (Routine R) α) : Prop where
  staysIn : StaysIn answer P s a.run
  result : ∀ x s', attempt answer s a = (.ok x, s') → J x s'

section Leads

variable {answer : σ → (q : Q) → R q × σ} {P : σ → Prop} {J : α → σ → Prop} {K : β → σ → Prop}
  {s : σ}

theorem leads_pure {x : α} (hs : P s) (hx : J x s) :
    Leads answer P J s (pure x : ExceptT ε (Routine R) α) := by
  refine ⟨staysIn_done hs, fun y s' h => ?_⟩
  obtain ⟨hresult, rfl⟩ := Prod.mk.inj h
  obtain rfl := Except.ok.inj hresult
  exact hx

theorem leads_throw {e : ε} (hs : P s) :
    Leads answer P J s (throw e : ExceptT ε (Routine R) α) :=
  ⟨staysIn_done hs, fun _ _ h => nomatch congrArg Prod.fst h⟩

theorem leads_liftRoutine {p : Routine R α} (h : StaysIn answer P s p) :
    Leads answer P (fun x s' => p.run answer s = (x, s')) s
      (liftM p : ExceptT ε (Routine R) α) := by
  constructor
  · refine StaysIn.bind h (staysIn_done ?_)
    exact h.2
  · intro x s' hlift
    rw [attempt_liftRoutine] at hlift
    obtain ⟨hresult, rfl⟩ := Prod.mk.inj hlift
    exact Prod.ext (Except.ok.inj hresult) rfl

theorem Leads.bind {a : ExceptT ε (Routine R) α} {f : α → ExceptT ε (Routine R) β}
    (ha : Leads answer P J s a) (hf : ∀ x s', J x s' → Leads answer P K s' (f x)) :
    Leads answer P K s (a >>= f) := by
  constructor
  · refine StaysIn.bind ha.staysIn ?_
    show StaysIn answer P (attempt answer s a).2 (ExceptT.bindCont f (attempt answer s a).1)
    cases hresult : (attempt answer s a).1 with
    | ok x => exact (hf x _ (ha.result x _ (Prod.ext hresult rfl))).staysIn
    | error e => exact staysIn_done ha.staysIn.2
  · intro y s' h
    obtain ⟨x, s₁, hfirst, hrest⟩ := exists_of_attempt_bind h
    exact (hf x s₁ (ha.result x s₁ hfirst)).result y s' hrest

/-- A step that is made under a condition, and what comes after it in either case. -/
theorem Leads.step {c : Prop} [Decidable c] {J : σ → Prop} {a : ExceptT ε (Routine R) Unit}
    {f : Unit → ExceptT ε (Routine R) β} (hmade : c → Leads answer P (fun _ s' => J s') s a)
    (hleft : ¬ c → J s) (hf : ∀ s', J s' → Leads answer P K s' (f ())) :
    Leads answer P K s (if c then a >>= f else f ()) := by
  by_cases hc : c
  · rw [if_pos hc]
    exact (hmade hc).bind fun _ s' hs' => hf s' hs'
  · rw [if_neg hc]
    exact hf s (hleft hc)

theorem Leads.mapError {a : ExceptT ε (Routine R) α} (ha : Leads answer P J s a) (f : ε → ε') :
    Leads answer P J s (ExceptT.adapt f a) := by
  refine ⟨StaysIn.bind ha.staysIn (staysIn_done ha.staysIn.2), fun x s' h => ?_⟩
  rw [attempt_mapError] at h
  obtain ⟨hresult, rfl⟩ := Prod.mk.inj h
  refine ha.result x _ (Prod.ext ?_ rfl)
  cases hfirst : (attempt answer s a).1 with
  | ok y =>
    rw [hfirst] at hresult
    exact congrArg Except.ok (Except.ok.inj hresult)
  | error e =>
    rw [hfirst] at hresult
    nomatch hresult

end Leads

/-- As soon as a request stops the attempt, the attempt fails and leaves `P`. -/
def StopsAt (answer : σ → (q : Q) → R q × σ) (stops : Moment σ Q → Prop) (P : σ → Prop) (s : σ)
    (a : ExceptT ε (Routine R) α) : Prop :=
  ∀ m ∈ a.run.course answer s, stops m →
    (∃ e, (attempt answer s a).1 = .error e) ∧ P (attempt answer s a).2

/-- If the attempt fails, one of its requests has failed. -/
def Blames (answer : σ → (q : Q) → R q × σ) (fails : Moment σ Q → Prop) (s : σ)
    (a : ExceptT ε (Routine R) α) : Prop :=
  ∀ e, (attempt answer s a).1 = .error e → ∃ m ∈ a.run.course answer s, fails m

section Failures

variable {answer : σ → (q : Q) → R q × σ} {stops fails : Moment σ Q → Prop} {P : σ → Prop} {s : σ}
  {a : ExceptT ε (Routine R) α} {f : α → ExceptT ε (Routine R) β}

theorem StopsAt.bind (ha : StopsAt answer stops P s a)
    (hf : ∀ x s', attempt answer s a = (.ok x, s') → StopsAt answer stops P s' (f x)) :
    StopsAt answer stops P s (a >>= f) := by
  intro m hm hstops
  rw [course_attempt_bind, List.mem_append] at hm
  rw [attempt_bind]
  generalize hfirst : attempt answer s a = first at hm ⊢
  obtain ⟨result, s'⟩ := first
  rcases hm with hm | hm
  · obtain ⟨⟨e, hfailed⟩, hP⟩ := ha m hm hstops
    rw [hfirst] at hfailed hP
    obtain rfl := hfailed
    exact ⟨⟨e, rfl⟩, hP⟩
  · cases result with
    | ok x => exact hf x s' hfirst m hm hstops
    | error e => exact absurd hm List.not_mem_nil

theorem stopsAt_of_asks {sort : Q → Prop} (h : a.run.Asks sort)
    (hsort : ∀ m : Moment σ Q, sort m.request → ¬ stops m) : StopsAt answer stops P s a :=
  fun m hm hstops => absurd hstops (hsort m (h.of_mem_course hm))

theorem StopsAt.mapError (ha : StopsAt answer stops P s a) (g : ε → ε') :
    StopsAt answer stops P s (ExceptT.adapt g a) := by
  intro m hm hstops
  rw [course_mapError] at hm
  obtain ⟨⟨e, hfailed⟩, hP⟩ := ha m hm hstops
  rw [attempt_mapError, hfailed]
  exact ⟨⟨g e, rfl⟩, hP⟩

theorem blames_pure {x : α} : Blames answer fails s (pure x : ExceptT ε (Routine R) α) :=
  fun _ h => nomatch h

theorem Blames.bind (ha : Blames answer fails s a)
    (hf : ∀ x s', Blames answer fails s' (f x)) : Blames answer fails s (a >>= f) := by
  intro e h
  rw [course_attempt_bind]
  rw [attempt_bind] at h
  generalize hfirst : attempt answer s a = first at h ⊢
  obtain ⟨result, s'⟩ := first
  cases result with
  | ok x =>
    obtain ⟨m, hm, hfails⟩ := hf x s' e h
    exact ⟨m, List.mem_append_right _ hm, hfails⟩
  | error e' =>
    obtain ⟨m, hm, hfails⟩ := ha e' (congrArg Prod.fst hfirst)
    exact ⟨m, List.mem_append_left _ hm, hfails⟩

theorem Blames.mapError (ha : Blames answer fails s a) (g : ε → ε') :
    Blames answer fails s (ExceptT.adapt g a) := by
  intro e h
  rw [course_mapError]
  rw [attempt_mapError] at h
  cases hresult : (attempt answer s a).1 with
  | ok x =>
    rw [hresult] at h
    nomatch h
  | error e' => exact ha e' hresult

end Failures

end Routine
end WarmFeed
